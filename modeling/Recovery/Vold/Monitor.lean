/-
# Messages from vold (event_loop.c)

`monitor` reads up to 4096 bytes and hands each message that ends in them to
`handle_response`. What is behind the last NUL of a read is forgotten.

Key definitions: `monitor`, `remainder`, `Handled`.
Key theorems: `messages_dispatched`, `split_message_lost`.
-/
import Recovery.Vold.Dispatcher

namespace Recovery
namespace Vold

/-! ### The client -/

/-- What `monitor` changes. -/
structure Client where
  dispatcher : Dispatcher
  /-- the calls of `vold_dispatch`, with their codes and tokens -/
  dispatched : List (ℤ × List Bytes)
  cmdResult : ℤ
  cmdInflight : ℤ
  deriving DecidableEq

def completes (code : ℤ) : Bool := 200 ≤ code && code < 600

def Client.answer (c : Client) (r : ℤ × List Bytes) : Client :=
  let c := { c with dispatched := c.dispatched ++ [r] }
  if completes r.1 then { c with cmdResult := r.1, cmdInflight := c.cmdInflight - 1 } else c

def onMessage (c : Client) (message : Bytes) : Except Stop Client := do
  let (code, d) ← handleResponse c.dispatcher message
  .ok ({ c with dispatcher := d }.answer (code, split message))

/-- The loop over a buffer; `piece` is what is behind `offset`. -/
def scanBuffer : Bytes → Bytes → Client → Except Stop Client
  | _, [], c => .ok c
  | piece, b :: rest, c =>
    if b = 0 then do
      let c ← onMessage c piece
      scanBuffer [] rest c
    else scanBuffer (piece ++ [b]) rest c

def monitor : List Bytes → Client → Except Stop Client
  | [], c => .ok c
  | buffer :: reads, c => do
    let c ← scanBuffer [] buffer c
    monitor reads c

/-! ### Messages in a buffer -/

/-- The messages that end in a buffer. -/
def frames (buffer : Bytes) : List Bytes := (buffer.splitOnP (· = 0)).dropLast

/-- What is behind the last NUL of a buffer. -/
def remainder (buffer : Bytes) : Bytes := (buffer.splitOnP (· = 0)).getLastD []

def stream (messages : List Bytes) : Bytes := messages.flatMap (· ++ [0])

theorem splitOnP_of_no_nul {m : Bytes} (h : 0 ∉ m) : m.splitOnP (· = 0) = [m] :=
  List.splitOnP_eq_singleton fun _ hc => decide_eq_false fun heq => h (heq ▸ hc)

theorem splitOnP_nul_append (a b : Bytes) : (a ++ 0 :: b).splitOnP (· = 0) = a.splitOnP (· = 0) ++ b.splitOnP (· = 0) :=
  List.splitOnP_append_cons a b (by simp)

theorem frames_of_no_nul {m : Bytes} (h : 0 ∉ m) : frames m = [] := by simp [frames, splitOnP_of_no_nul h]

theorem frames_append (a b : Bytes) : frames (a ++ 0 :: b) = a.splitOnP (· = 0) ++ frames b := by
  rw [frames, splitOnP_nul_append, List.dropLast_append_of_ne_nil (List.splitOnP_ne_nil _ _), frames]

theorem frames_cons {m : Bytes} (h : 0 ∉ m) (b : Bytes) : frames (m ++ 0 :: b) = m :: frames b := by
  rw [frames_append, splitOnP_of_no_nul h]
  rfl

theorem frames_stream : ∀ {messages : List Bytes}, (∀ m ∈ messages, 0 ∉ m) → frames (stream messages) = messages
  | [], _ => by simp [frames, stream]
  | m :: ms, h => by
    have hstream : stream (m :: ms) = m ++ 0 :: stream ms := by simp [stream]
    rw [hstream, frames_cons (h m List.mem_cons_self), frames_stream fun m' hm' => h m' (List.mem_cons_of_mem _ hm')]

theorem scanBuffer_eq : ∀ {piece : Bytes} (buffer : Bytes) (c : Client), 0 ∉ piece →
    scanBuffer piece buffer c = (frames (piece ++ buffer)).foldlM onMessage c
  | piece, [], c, h => by
    rw [List.append_nil, frames_of_no_nul h]
    rfl
  | piece, b :: rest, c, h => by
    rw [scanBuffer]
    split
    · rename_i hb
      rw [hb, frames_cons h, List.foldlM_cons]
      refine bind_congr fun c' => ?_
      exact scanBuffer_eq rest c' List.not_mem_nil
    · rename_i hb
      have hpiece : 0 ∉ piece ++ [b] := by simp [h, Ne.symm hb]
      rw [scanBuffer_eq rest c hpiece, List.append_assoc, List.singleton_append]

theorem monitor_frames : ∀ (reads : List Bytes) (c : Client), monitor reads c = (reads.flatMap frames).foldlM onMessage c
  | [], c => rfl
  | buffer :: reads, c => by
    rw [monitor, scanBuffer_eq buffer c List.not_mem_nil, List.nil_append, List.flatMap_cons, List.foldlM_append]
    exact bind_congr fun c' => monitor_frames reads c'

/-! ### What is lost at the end of a read -/

theorem splitOnP_append (b : Bytes) : ∀ a : Bytes,
    (a ++ b).splitOnP (· = 0) = frames a ++ (b.splitOnP (· = 0)).modifyHead (remainder a ++ ·)
  | [] => by
    obtain ⟨first, rest, hrest⟩ := List.exists_cons_of_ne_nil (List.splitOnP_ne_nil (fun b : UInt8 => decide (b = 0)) b)
    simp [frames, remainder, hrest]
  | x :: a => by
    have ih := splitOnP_append b a
    unfold frames remainder at ih ⊢
    rw [List.cons_append, List.splitOnP_cons_eq_if_modifyHead, List.splitOnP_cons_eq_if_modifyHead, ih]
    obtain ⟨first, rest, hrest⟩ := List.exists_cons_of_ne_nil (List.splitOnP_ne_nil (fun b : UInt8 => decide (b = 0)) a)
    rw [hrest]
    split_ifs
    · simp
    · cases rest <;> simp [List.modifyHead_modifyHead, Function.comp_def]

theorem flatten_splitOnP (p : UInt8 → Bool) : ∀ l : Bytes, (l.splitOnP p).flatten = l.filter fun b => !p b
  | [] => by simp
  | x :: l => by
    have ih := flatten_splitOnP p l
    rw [List.splitOnP_cons_eq_if_modifyHead]
    obtain ⟨first, rest, hrest⟩ := List.exists_cons_of_ne_nil (List.splitOnP_ne_nil p l)
    rw [hrest] at ih ⊢
    by_cases hx : p x = true
    · simpa [hx] using ih
    · simp only [hx, List.modifyHead_cons, List.flatten_cons] at ih ⊢
      simp [hx, ih]

theorem splitOnP_eq_frames (buffer : Bytes) : buffer.splitOnP (· = 0) = frames buffer ++ [remainder buffer] := by
  simpa using splitOnP_append [] buffer

theorem remainder_no_nul (buffer : Bytes) : 0 ∉ remainder buffer := by
  intro h
  have hmem : (0 : UInt8) ∈ (buffer.splitOnP (· = 0)).flatten := by
    rw [splitOnP_eq_frames]
    simp [h]
  rw [flatten_splitOnP] at hmem
  simp at hmem

theorem frames_append_eq (a b : Bytes) : frames (a ++ b) = frames a ++ frames (remainder a ++ b) := by
  have hrest : (remainder a ++ b).splitOnP (· = 0) = (b.splitOnP (· = 0)).modifyHead (remainder a ++ ·) := by
    have hnul := splitOnP_of_no_nul (remainder_no_nul a)
    have hframes : frames (remainder a) = [] := by rw [frames, hnul]; rfl
    have hremainder : remainder (remainder a) = remainder a := by rw [remainder, hnul]; rfl
    rw [splitOnP_append, hframes, hremainder, List.nil_append]
  rw [frames, splitOnP_append, ← hrest, List.dropLast_append_of_ne_nil (List.splitOnP_ne_nil _ _)]
  rfl

theorem split_blanks_append (m : Bytes) : ∀ {blanks : Bytes}, (∀ b ∈ blanks, b = 0x20) → split (blanks ++ m) = split m
  | [], _ => rfl
  | b :: blanks, h => by
    rw [List.forall_mem_cons] at h
    have ih := split_blanks_append m h.2
    unfold split at ih ⊢
    rw [h.1, List.cons_append, List.splitOnP_cons_eq_if_modifyHead, if_pos (by simp), List.filter_cons_of_neg (by simp), ih]

/-- Blanks in front of a buffer do not change the tokens of its messages. -/
theorem frames_blanks_append (buffer : Bytes) {blanks : Bytes} (h : ∀ b ∈ blanks, b = 0x20) :
    (frames (blanks ++ buffer)).map split = (frames buffer).map split := by
  have hnul : 0 ∉ blanks := fun h0 => absurd (h 0 h0) (by decide)
  have hframes : frames blanks = [] := frames_of_no_nul hnul
  have hremainder : remainder blanks = blanks := by rw [remainder, splitOnP_of_no_nul hnul]; rfl
  have hsplit := splitOnP_append buffer blanks
  rw [hframes, hremainder, List.nil_append] at hsplit
  unfold frames
  rw [hsplit]
  obtain ⟨first, rest, hrest⟩ := List.exists_cons_of_ne_nil (List.splitOnP_ne_nil (fun b : UInt8 => decide (b = 0)) buffer)
  rw [hrest]
  cases rest with
  | nil => rfl
  | cons _ _ => simp [split_blanks_append _ h]

theorem frames_flatten : ∀ {reads : List Bytes}, (∀ r ∈ reads, ∀ b ∈ remainder r, b = 0x20) →
    (reads.flatMap frames).map split = (frames reads.flatten).map split
  | [], _ => by simp [frames]
  | r :: reads, h => by
    rw [List.forall_mem_cons] at h
    rw [List.flatMap_cons, List.flatten_cons, frames_append_eq, List.map_append, List.map_append, frames_flatten h.2,
      frames_blanks_append _ h.1]

/-- The number of bytes that are part of a token. -/
def ink (l : Bytes) : ℕ := l.countP fun b => b ≠ 0x20 ∧ b ≠ 0

@[simp]
theorem ink_append (a b : Bytes) : ink (a ++ b) = ink a + ink b := List.countP_append

theorem ink_split (m : Bytes) : ink (split m).flatten = ink m := by
  have hflatten : (split m).flatten = m.filter fun b => !decide (b = 0x20) := by
    rw [split, ← flatten_splitOnP]
    generalize m.splitOnP _ = ts
    induction ts with
    | nil => rfl
    | cons t ts ih => cases t <;> simp_all
  rw [hflatten, ink, List.countP_filter, ink]
  refine List.countP_congr fun b _ => ?_
  simp +contextual

theorem ink_frames (buffer : Bytes) : ink buffer = ink (frames buffer).flatten + ink (remainder buffer) := by
  have hflatten := flatten_splitOnP (fun b => decide (b = 0)) buffer
  rw [splitOnP_eq_frames, List.flatten_append, List.flatten_singleton] at hflatten
  rw [← ink_append, hflatten, ink, ink, List.countP_filter]
  refine List.countP_congr fun b _ => ?_
  simp

theorem ink_reads : ∀ reads : List Bytes, ink reads.flatten = ink (reads.flatMap frames).flatten + ink (reads.flatMap remainder)
  | [] => rfl
  | r :: reads => by
    rw [List.flatten_cons, List.flatMap_cons, List.flatMap_cons, List.flatten_append, ink_append,
      ink_append, ink_append, ink_frames r,
      ink_reads reads]
    omega

theorem ink_stream : ∀ messages : List Bytes, ink (stream messages) = ink messages.flatten
  | [] => rfl
  | m :: ms => by
    have ih := ink_stream ms
    simp only [stream, List.flatMap_cons, List.flatten_cons, ink_append] at ih ⊢
    rw [ih]
    rfl

theorem ink_congr : ∀ {ms ms' : List Bytes}, ms.map split = ms'.map split → ink ms.flatten = ink ms'.flatten
  | [], [], _ => rfl
  | m :: ms, m' :: ms', h => by
    obtain ⟨hm, hms⟩ := List.cons.inj h
    rw [List.flatten_cons, List.flatten_cons, ink_append, ink_append, ink_congr hms, ← ink_split m, hm, ink_split]

/-- **The tokens of the messages arrive** just if there are only blanks behind the last NUL of each read. -/
theorem frames_split_iff {messages reads : List Bytes} (hmessages : ∀ m ∈ messages, 0 ∉ m)
    (hreads : reads.flatten = stream messages) :
    (reads.flatMap frames).map split = messages.map split ↔ ∀ r ∈ reads, ∀ b ∈ remainder r, b = 0x20 := by
  refine ⟨fun h r hr b hb => ?_, fun h => by rw [frames_flatten h, hreads, frames_stream hmessages]⟩
  have htotal := ink_reads reads
  rw [hreads, ink_stream, ← ink_congr h] at htotal
  have hzero : ink (reads.flatMap remainder) = 0 := by omega
  have hb' := List.countP_eq_zero.mp hzero b (List.mem_flatMap.mpr ⟨r, hr, hb⟩)
  have hne : b ≠ 0 := fun h0 => remainder_no_nul r (h0 ▸ hb)
  simpa [hne] using hb'

/-! ### What is dispatched and counted -/

/-- Every message fits, in the state that the ones before it leave. -/
def Handled : Dispatcher → List Bytes → Prop
  | _, [] => True
  | d, m :: ms => FitsIn d m ∧ ∀ d', onResponse d m = .ok d' → Handled d' ms

theorem onResponse_congr {m m' : Bytes} (h : split m = split m') (d : Dispatcher) : onResponse d m = onResponse d m' := by
  unfold onResponse handleResponse tokenArray
  rw [h]

theorem handled_congr : ∀ {ms ms' : List Bytes}, ms.map split = ms'.map split → ∀ d : Dispatcher, Handled d ms → Handled d ms'
  | [], [], _, _, _ => trivial
  | m :: ms, m' :: ms', h, d, hd => by
    obtain ⟨hm, hms⟩ := List.cons.inj h
    refine ⟨?_, fun d' hd' => handled_congr hms d' (hd.2 d' (by rwa [onResponse_congr hm]))⟩
    have hfits := hd.1
    unfold FitsIn response at hfits ⊢
    rwa [← hm]

theorem handled_of_fits : ∀ {ms : List Bytes}, (∀ m ∈ ms, Fits m) → ∀ d : Dispatcher, Handled d ms
  | [], _, _ => trivial
  | m :: ms, h, d => by
    rw [List.forall_mem_cons] at h
    exact ⟨h.1.fitsIn d, fun d' _ => handled_of_fits h.2 d'⟩

theorem onMessage_eq_ok {message : Bytes} {c c' : Client} (h : onMessage c message = .ok c') :
    onResponse c.dispatcher message = .ok c'.dispatcher ∧ c' = { c with dispatcher := c'.dispatcher }.answer (response message) := by
  unfold onMessage at h
  obtain ⟨⟨code, d⟩, hrun, h⟩ := bind_eq_ok.mp h
  obtain rfl := Except.ok.inj h
  have hdispatcher : ∀ (c : Client) (r : ℤ × List Bytes), (c.answer r).dispatcher = c.dispatcher := fun c r => by
    unfold Client.answer
    dsimp only
    split <;> rfl
  have htokens : 1 ≤ (split message).length ∧ (split message).length ≤ 32 := by
    by_contra hnot
    rw [handleResponse_faults hnot] at hrun
    cases hrun
  have hcode : code = (response message).1 := by
    rw [handleResponse_eq htokens.1 htokens.2] at hrun
    obtain ⟨d', -, hrun⟩ := bind_eq_ok.mp hrun
    exact (Prod.mk.inj (Except.ok.inj hrun)).1.symm
  rw [hdispatcher]
  refine ⟨?_, by rw [hcode]; rfl⟩
  rw [onResponse, hrun]
  rfl

theorem onMessage_of_onResponse {message : Bytes} {c : Client} {d : Dispatcher} (h : onResponse c.dispatcher message = .ok d) :
    ∃ c', onMessage c message = .ok c' := by
  unfold onResponse at h
  obtain ⟨⟨code, d'⟩, hrun, -⟩ := bind_eq_ok.mp h
  exact ⟨_, by rw [onMessage, hrun]; rfl⟩

theorem foldlM_onMessage_iff : ∀ (ms : List Bytes) (c : Client), (∃ c', ms.foldlM onMessage c = .ok c') ↔ Handled c.dispatcher ms
  | [], c => iff_of_true ⟨c, rfl⟩ trivial
  | m :: ms, c => by
    rw [List.foldlM_cons]
    constructor
    · rintro ⟨c', h⟩
      obtain ⟨c₁, hm, hms⟩ := bind_eq_ok.mp h
      obtain ⟨hd, -⟩ := onMessage_eq_ok hm
      refine ⟨(onResponse_ok_iff _ m).mp ⟨_, hd⟩, fun d' hd' => ?_⟩
      obtain rfl := Except.ok.inj (hd.symm.trans hd')
      exact (foldlM_onMessage_iff ms c₁).mp ⟨c', hms⟩
    · rintro ⟨hfits, hrest⟩
      obtain ⟨d', hd'⟩ := (onResponse_ok_iff _ m).mpr hfits
      obtain ⟨c₁, hm⟩ := onMessage_of_onResponse hd'
      obtain ⟨c', hms⟩ := (foldlM_onMessage_iff ms c₁).mpr (hrest _ (onMessage_eq_ok hm).1)
      exact ⟨c', by rw [hm, ok_bind, hms]⟩

theorem answer_counts (c : Client) (r : ℤ × List Bytes) :
    (c.answer r).dispatched = c.dispatched ++ [r] ∧ (c.answer r).cmdInflight = c.cmdInflight - if completes r.1 then 1 else 0 := by
  unfold Client.answer
  dsimp only
  split <;> simp

theorem foldlM_onMessage_counts : ∀ (ms : List Bytes) {c c' : Client}, ms.foldlM onMessage c = .ok c' →
    c'.dispatched = c.dispatched ++ ms.map response ∧
    c'.cmdInflight = c.cmdInflight - ms.countP fun m => completes (response m).1
  | [], c, c', h => by
    obtain rfl := pure_eq_ok.mp h
    simp
  | m :: ms, c, c', h => by
    rw [List.foldlM_cons] at h
    obtain ⟨c₁, hm, hms⟩ := bind_eq_ok.mp h
    obtain ⟨hdispatched, hcount⟩ := foldlM_onMessage_counts ms hms
    obtain ⟨hdispatched₁, hcount₁⟩ := answer_counts { c with dispatcher := c₁.dispatcher } (response m)
    rw [← (onMessage_eq_ok hm).2] at hdispatched₁ hcount₁
    refine ⟨by simp [hdispatched, hdispatched₁], ?_⟩
    rw [hcount, hcount₁, List.countP_cons]
    push_cast
    ring

theorem map_response_congr : ∀ {ms ms' : List Bytes}, ms.map split = ms'.map split ↔ ms.map response = ms'.map response := by
  intro ms ms'
  constructor
  · intro h
    have hmap : ∀ l : List Bytes, l.map response = (l.map split).map fun ts => (atoi (ts.headD []), ts) := fun l => by
      rw [List.map_map]
      rfl
    rw [hmap, hmap, h]
  · intro h
    have hmap : ∀ l : List Bytes, l.map split = (l.map response).map Prod.snd := fun l => by
      rw [List.map_map]
      rfl
    rw [hmap, hmap, h]

/-- **Framing.** Each message is dispatched once and in order, and the commands in flight get fewer by the messages with a code from 200
to 599, just if a read is only cut behind a message or in blanks at the beginning of one, and every message fits. -/
theorem messages_dispatched (messages reads : List Bytes) (hmessages : ∀ m ∈ messages, 0 ∉ m)
    (hreads : reads.flatten = stream messages)
    (c : Client) :
    (∃ c', monitor reads c = .ok c' ∧ c'.dispatched = c.dispatched ++ messages.map response ∧
      c'.cmdInflight = c.cmdInflight - messages.countP fun m => completes (response m).1) ↔
    (∀ r ∈ reads, ∀ b ∈ remainder r, b = 0x20) ∧ Handled c.dispatcher messages := by
  rw [← frames_split_iff hmessages hreads, monitor_frames]
  constructor
  · rintro ⟨c', hrun, hdispatched, -⟩
    have hframes := (foldlM_onMessage_counts _ hrun).1.symm.trans hdispatched
    have hsplit := map_response_congr.mpr (List.append_cancel_left hframes)
    exact ⟨hsplit, handled_congr hsplit _ ((foldlM_onMessage_iff _ c).mp ⟨c', hrun⟩)⟩
  · rintro ⟨hsplit, hhandled⟩
    obtain ⟨c', hrun⟩ := (foldlM_onMessage_iff _ c).mpr (handled_congr hsplit.symm _ hhandled)
    obtain ⟨hdispatched, hcount⟩ := foldlM_onMessage_counts _ hrun
    have hresponses := map_response_congr.mp hsplit
    refine ⟨c', hrun, by rw [hdispatched, hresponses], ?_⟩
    have hcountP : ∀ l : List Bytes, (l.countP fun m => completes (response m).1) = (l.map response).countP fun r => completes r.1 :=
      fun l => by
        rw [List.countP_map]
        rfl
    rw [hcount, hcountP, hcountP, hresponses]

def idle : Client := ⟨noVolumes, [], 0, 1⟩

/-- A line of a volume list and the end of the list in one read, and the report of a disk
that is cut behind a blank. -/
theorem three_dispatched :
    ∃ c', monitor [lit "110 0 sdcard /sdcard 1" ++ [0] ++ lit "200 0 ok" ++ [0] ++ lit " ",
      lit "630 Volume sdcard /sdcard" ++ [0]] idle =
        .ok c' ∧
      c'.dispatched = [(110, [lit "110", lit "0", lit "sdcard", lit "/sdcard", lit "1"]), (200, [lit "200", lit "0", lit "ok"]),
        (630, [lit "630", lit "Volume", lit "sdcard", lit "/sdcard"])] ∧
      c'.cmdInflight = 0 := by
  have hfits : ∀ m ∈ [lit "110 0 sdcard /sdcard 1", lit "200 0 ok", lit " 630 Volume sdcard /sdcard"], Fits m := by decide +kernel
  obtain ⟨c', hrun, hdispatched, hcount⟩ := (messages_dispatched
    [lit "110 0 sdcard /sdcard 1", lit "200 0 ok", lit " 630 Volume sdcard /sdcard"]
    [lit "110 0 sdcard /sdcard 1" ++ [0] ++ lit "200 0 ok" ++ [0] ++ lit " ", lit "630 Volume sdcard /sdcard" ++ [0]]
    (by decide +kernel) (by decide +kernel) idle).mpr ⟨by decide +kernel, handled_of_fits hfits _⟩
  exact ⟨c', hrun, hdispatched.trans (by decide +kernel), hcount.trans (by decide +kernel)⟩

/-- **A message that is split over two reads is lost**: what is behind the cut is dispatched instead, and the command is not completed. -/
theorem split_message_lost :
    [lit "200 0", lit " ok" ++ [0]].flatten = stream [lit "200 0 ok"] ∧
      response (lit "200 0 ok") = (200, [lit "200", lit "0", lit "ok"]) ∧
    monitor [lit "200 0", lit " ok" ++ [0]] idle = .ok { idle with dispatched := [(0, [lit "ok"])] } :=
  ⟨by decide, by decide, by rfl⟩

end Vold
end Recovery
