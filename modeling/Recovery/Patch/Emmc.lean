/-
# The verification of an EMMC partition

`WriteToPartition` writes an EMMC partition through a descriptor, reads it back in groups of
4096 bytes, and writes once more from the first group that differs. The accesses are logged,
and the device is any automaton.

Key definitions: `Device`, `writeEmmc`, `Span`, `partitionDevice`.
Key theorems: `writeEmmc_forgets`, `emmc_verified`.
-/
import Recovery.Patch.Flash

namespace Recovery
namespace Patch
namespace Emmc

/-! ### Devices and descriptors -/

/-- A device: what its states do on each call. Offsets are those of the access. -/
structure Device (E D : Type) where
  machine : Crash.Machine E D
  opens : E → D → Bool
  write : E → D → ℕ → Bytes → Moved ℕ × D
  /-- `fsync`, `sync` and the dropping of the caches -/
  sync : E → D → D
  read : E → D → ℕ → ℕ → Moved Bytes × D
  closes : E → D → Bool
  write_le : ∀ {e d i b k}, (write e d i b).1 = .moved k → k ≤ b.length
  read_le : ∀ {e d i n b}, (read e d i n).1 = .moved b → b.length ≤ n

/-- An access that moved bytes, at an offset. -/
inductive Access
  | wrote (i : ℕ) (bytes : Bytes)
  | read (i : ℕ) (bytes : Bytes)
  deriving DecidableEq

/-- A device that is open, with the position and what was done so far. -/
structure Session (D : Type) where
  dev : D
  pos : ℕ
  log : List Access

variable {E D : Type} (dev : Device E D)

abbrev Prog (E D α : Type) := Crash.Prog E Failure (Session D) α

def machine : Crash.Machine E (Session D) := ⟨dev.machine.halts, fun e s => { s with dev := dev.machine.lose e s.dev }⟩

def lseek (pos : ℕ) : Prog E D Unit := fun _ n s => .ok () n { s with pos := pos }

def write (data : Bytes) : Prog E D (Moved ℕ) := Crash.call (machine dev) fun e s =>
  match dev.write e s.dev s.pos data with
  | (.moved k, d) => (.moved k, ⟨d, s.pos + k, s.log ++ [.wrote s.pos (data.take k)]⟩)
  | (r, d) => (r, { s with dev := d })

def read (n : ℕ) : Prog E D (Moved Bytes) := Crash.call (machine dev) fun e s =>
  match dev.read e s.dev s.pos n with
  | (.moved b, d) => (.moved b, ⟨d, s.pos + b.length, s.log ++ [.read s.pos b]⟩)
  | (r, d) => (r, { s with dev := d })

/-! ### The function -/

def writeLoop (data : Bytes) : ℕ → ℕ → Prog E D Unit
  | 0, _ => Crash.fail (.stop .hang)
  | n + 1, start =>
    if start < data.length then do
      let toWrite := min (data.length - start) (2 ^ 20)
      let written ← write dev ((data.drop start).take toWrite)
      match written with
      | .failed => Crash.fail .writePartition
      | .interrupted => writeLoop data n start
      | .moved k => writeLoop data n (start + k)
    else pure ()

/-- The loop that fills the buffer with `toRead` bytes. -/
def readBack (toRead : ℕ) : ℕ → Bytes → Prog E D Bytes
  | 0, _ => Crash.fail (.stop .hang)
  | n + 1, soFar =>
    if soFar.length < toRead then do
      let count ← read dev (toRead - soFar.length)
      match count with
      | .failed => Crash.fail .writePartition
      | .interrupted => readBack toRead n soFar
      | .moved bytes => readBack toRead n (soFar ++ bytes)
    else pure soFar

/-- The loop over the groups: where to start again, or the length. -/
def verifyLoop (steps : ℕ) (data : Bytes) : ℕ → ℕ → Prog E D ℕ
  | 0, _ => pure data.length
  | n + 1, p =>
    if p < data.length then do
      let toRead := min (data.length - p) 4096
      let buffer ← readBack dev toRead steps []
      if buffer ≠ (data.drop p).take toRead then pure p else verifyLoop steps data n (p + 4096)
    else pure data.length

def emmcAttempt (steps : ℕ) (data : Bytes) (start : ℕ) : Prog E D ℕ := do
  lseek start
  writeLoop dev data steps start
  Crash.call (machine dev) fun e s => ((), { s with dev := dev.sync e s.dev })
  lseek 0
  verifyLoop dev steps data (data.length + 1) 0

def writeEmmc (steps : ℕ) (data : Bytes) : Prog E D Unit := do
  let opened ← Crash.call (machine dev) fun e s => (dev.opens e s.dev, s)
  Crash.failIf (opened = false) .writePartition
  let start ← emmcAttempt dev steps data 0
  let start ← (if start = data.length then pure start else emmcAttempt dev steps data start)
  Crash.failIf (start ≠ data.length) .writePartition
  let closed ← Crash.call (machine dev) fun e s => (dev.closes e s.dev, s)
  Crash.failIf (closed = false) .writePartition

/-! ### The partitions of applypatch -/

/-- The EMMC partition `p` as a device. -/
def partitionDevice (p : Bytes) : Device Ev Sys where
  machine := Patch.machine
  opens e s := !e.fails && (s.partitions .emmc p).isSome
  write := deviceWrite p
  sync _ := deviceSync p
  read := deviceRead p
  closes e _ := !e.fails
  write_le := by
    intro e s i d k hk
    unfold deviceWrite at hk
    split at hk
    · cases hk
    · split_ifs at hk
      obtain rfl := Moved.moved.inj hk
      omega
  read_le := by
    intro e s i n b hb
    unfold deviceRead at hb
    dsimp only at hb
    split at hb
    · cases hb
    · split_ifs at hb
      obtain rfl := Moved.moved.inj hb
      simp only [List.length_take]
      omega

/-- The program without positions and log does what the other one does to the device, and where it returns, the session is such. -/
def Forgets {α : Type} (p : Prog E D α) (q : Crash.Prog E Failure D α) (s : Session D) (ok : α → Session D → Prop) : Prop :=
  ∀ ev n, match p ev n s with
    | .ok a n' s' => q ev n s.dev = .ok a n' s'.dev ∧ ok a s'
    | .error e n' s' => q ev n s.dev = .error e n' s'.dev
    | .crash s' => q ev n s.dev = .crash s'.dev

section

variable {α β : Type} {s : Session D} {ok : α → Session D → Prop}

theorem Forgets.pure {a : α} (h : ok a s) : Forgets (pure a : Prog E D α) (pure a) s ok := fun _ _ => ⟨rfl, h⟩

theorem Forgets.fail {e : Failure} : Forgets (Crash.fail e : Prog E D α) (Crash.fail e) s ok := fun _ _ => rfl

theorem Forgets.bind {p : Prog E D α} {q : Crash.Prog E Failure D α} {f : α → Prog E D β} {g : α → Crash.Prog E Failure D β}
    {okb : β → Session D → Prop} (h : Forgets p q s ok) (hf : ∀ a s', ok a s' → Forgets (f a) (g a) s' okb) :
    Forgets (p >>= f) (q >>= g) s okb := by
  intro ev n
  have hrun := h ev n
  show match Crash.Prog.bind p f ev n s with
    | .ok a n' s' => Crash.Prog.bind q g ev n s.dev = .ok a n' s'.dev ∧ okb a s'
    | .error e n' s' => Crash.Prog.bind q g ev n s.dev = .error e n' s'.dev
    | .crash s' => Crash.Prog.bind q g ev n s.dev = .crash s'.dev
  unfold Crash.Prog.bind
  cases hp : p ev n s with rw [hp] at hrun
  | ok a n' s' =>
    dsimp only
    rw [hrun.1]
    exact hf a s' hrun.2 ev n'
  | error e n' s' =>
    dsimp only
    rw [hrun]
  | crash s' =>
    dsimp only
    rw [hrun]

theorem Forgets.failIf {c : Prop} [Decidable c] {e : Failure} {ok : Unit → Session D → Prop} (h : ¬ c → ok () s) :
    Forgets (Crash.failIf c e : Prog E D Unit) (Crash.failIf c e) s ok := by
  unfold Crash.failIf
  split_ifs with hc
  · exact .fail
  · exact .pure (h hc)

theorem Forgets.failIf_any {c : Prop} [Decidable c] {e : Failure} :
    Forgets (Crash.failIf c e : Prog E D Unit) (Crash.failIf c e) s fun _ _ => True :=
  .failIf fun _ => trivial

theorem forgets_call {dev : Device E D} {f : E → Session D → α × Session D} {g : E → D → α × D}
    (h : ∀ e, (f e s).1 = (g e s.dev).1 ∧ (f e s).2.dev = (g e s.dev).2 ∧ ok (f e s).1 (f e s).2) :
    Forgets (Crash.call (machine dev) f) (Crash.call dev.machine g) s ok := by
  intro ev n
  obtain ⟨hval, hdev, hok⟩ := h (ev n)
  unfold Crash.call machine
  dsimp only
  split_ifs
  · rfl
  · exact ⟨by rw [hval, hdev], hok⟩

theorem forgets_call_any {dev : Device E D} {f : E → Session D → α × Session D} {g : E → D → α × D}
    (h : ∀ e, (f e s).1 = (g e s.dev).1 ∧ (f e s).2.dev = (g e s.dev).2) :
    Forgets (Crash.call (machine dev) f) (Crash.call dev.machine g) s fun _ _ => True :=
  forgets_call fun e => ⟨(h e).1, (h e).2, trivial⟩

end

section

variable {p data : Bytes} {s : Session Sys}

theorem write_forgets (d : Bytes) : Forgets (write (partitionDevice p) d) (writeDevice p s.pos d) s
    fun r s' => s'.pos = s.pos + match r with | .moved k => k | _ => 0 := by
  refine forgets_call fun e => ?_
  show _ = (deviceWrite p e s.dev s.pos d).1 ∧ _ = (deviceWrite p e s.dev s.pos d).2 ∧ _
  have hwrite : (partitionDevice p).write e s.dev s.pos d = deviceWrite p e s.dev s.pos d := rfl
  rw [hwrite]
  rcases deviceWrite p e s.dev s.pos d with ⟨_ | _ | _, d'⟩ <;> exact ⟨rfl, rfl, rfl⟩

theorem read_forgets (n : ℕ) : Forgets (read (partitionDevice p) n) (readDevice p s.pos n) s
    fun r s' => s'.pos = s.pos + match r with | .moved b => b.length | _ => 0 := by
  refine forgets_call fun e => ?_
  show _ = (deviceRead p e s.dev s.pos n).1 ∧ _ = (deviceRead p e s.dev s.pos n).2 ∧ _
  have hread : (partitionDevice p).read e s.dev s.pos n = deviceRead p e s.dev s.pos n := rfl
  rw [hread]
  rcases deviceRead p e s.dev s.pos n with ⟨_ | _ | _, d'⟩ <;> exact ⟨rfl, rfl, rfl⟩

theorem writeLoop_forgets : ∀ (n start : ℕ) (s : Session Sys), s.pos = start →
    Forgets (writeLoop (partitionDevice p) data n start) (Patch.writeLoop p data n start) s fun _ _ => True
  | 0, _, _, _ => .fail
  | n + 1, start, s, hpos => by
    unfold writeLoop Patch.writeLoop
    split_ifs
    · subst hpos
      refine (write_forgets _).bind fun r s' hpos' => ?_
      cases r with
      | failed => exact .fail
      | interrupted => exact writeLoop_forgets n _ s' hpos'
      | moved k => exact writeLoop_forgets n _ s' hpos'
    · exact .pure trivial

theorem readBack_forgets (i toRead : ℕ) : ∀ (n : ℕ) (soFar : Bytes) (s : Session Sys), s.pos = i + soFar.length →
    Forgets (readBack (partitionDevice p) toRead n soFar) (Patch.readBack p i toRead n soFar) s
      fun buffer s' => s'.pos = i + buffer.length
  | 0, _, _, _ => .fail
  | n + 1, soFar, s, hpos => by
    unfold readBack Patch.readBack
    split_ifs
    · rw [← hpos]
      refine (read_forgets _).bind fun r s' hpos' => ?_
      cases r with
      | failed => exact .fail
      | interrupted => exact readBack_forgets i toRead n soFar s' (hpos'.trans hpos)
      | moved b =>
        refine readBack_forgets i toRead n (soFar ++ b) s' ?_
        rw [hpos', hpos, List.length_append, Nat.add_assoc]
    · exact .pure hpos

theorem verifyLoop_forgets (steps : ℕ) : ∀ (n i : ℕ) (s : Session Sys), (i < data.length → s.pos = i) →
    Forgets (verifyLoop (partitionDevice p) steps data n i) (Patch.verifyLoop steps p data n i) s fun _ _ => True
  | 0, _, _, _ => .pure trivial
  | n + 1, i, s, hpos => by
    unfold verifyLoop Patch.verifyLoop
    split_ifs with hlt
    · refine (readBack_forgets i _ steps [] s (hpos hlt)).bind fun buffer s' hpos' => ?_
      split_ifs with hne
      · exact .pure trivial
      · refine verifyLoop_forgets steps n (i + 4096) s' fun hnext => ?_
        rw [hpos', not_not.mp hne, List.length_take, List.length_drop]
        omega
    · exact .pure trivial

theorem emmcAttempt_forgets (steps start : ℕ) :
    Forgets (emmcAttempt (partitionDevice p) steps data start) (Patch.emmcAttempt steps p data start) s fun _ _ => True := by
  intro ev n
  -- the seek takes no event
  have hrest : Forgets (writeLoop (partitionDevice p) data steps start >>= fun _ =>
      Crash.call (machine (partitionDevice p)) (fun e s => ((), { s with dev := (partitionDevice p).sync e s.dev })) >>= fun _ =>
      lseek 0 >>= fun _ => verifyLoop (partitionDevice p) steps data (data.length + 1) 0)
      (Patch.emmcAttempt steps p data start) { s with pos := start } fun _ _ => True := by
    refine (writeLoop_forgets steps start _ rfl).bind fun _ s₁ _ => ?_
    refine (forgets_call_any fun e => ⟨rfl, rfl⟩).bind fun _ s₂ _ => ?_
    exact fun ev n => verifyLoop_forgets steps (data.length + 1) 0 { s₂ with pos := 0 } (fun _ => rfl) ev n
  exact hrest ev n

/-- **The two programs are one**: `WriteToPartition` does to the partition what the logged program does, event by event. -/
theorem writeEmmc_forgets (steps : ℕ) :
    Forgets (writeEmmc (partitionDevice p) steps data) (Patch.writeEmmc steps p data) s fun _ _ => True := by
  refine (forgets_call_any fun e => ⟨rfl, rfl⟩).bind fun opened s₁ _ => ?_
  refine Forgets.failIf_any.bind fun _ s₂ _ => ?_
  refine (emmcAttempt_forgets steps 0).bind fun start s₃ _ => ?_
  have hsecond : Forgets (if start = data.length then pure start else emmcAttempt (partitionDevice p) steps data start)
      (if start = data.length then pure start else Patch.emmcAttempt steps p data start) s₃ fun _ _ => True := by
    split_ifs
    · exact .pure trivial
    · exact emmcAttempt_forgets steps start
  refine hsecond.bind fun start' s₄ _ => Forgets.failIf_any.bind fun _ s₅ _ => ?_
  refine (forgets_call_any fun e => ⟨rfl, rfl⟩).bind fun closed s₆ _ => ?_
  exact Forgets.failIf fun _ => trivial

end

/-! ### Accesses one behind the other -/

/-- The accesses of a kind that move these bytes from an offset on, without a gap. -/
inductive Span (kind : ℕ → Bytes → Access) : ℕ → List Access → Bytes → Prop
  | nil (i : ℕ) : Span kind i [] []
  | cons {i : ℕ} {b rest : Bytes} {log : List Access} (h : Span kind (i + b.length) log rest) :
      Span kind i (kind i b :: log) (b ++ rest)

theorem Span.append {kind : ℕ → Bytes → Access} {i : ℕ} {log log' : List Access} {b b' : Bytes} (h : Span kind i log b)
    (h' : Span kind (i + b.length) log' b') : Span kind i (log ++ log') (b ++ b') := by
  induction h with
  | nil i => exact h'
  | cons _ ih =>
    rw [List.append_assoc]
    refine .cons (ih ?_)
    rwa [Nat.add_assoc, ← List.length_append]

/-- The groups in front of `p` were read as they should be, and the next one was not. -/
def Differs (data : Bytes) (log : List Access) (p : ℕ) : Prop :=
  p < data.length ∧ 4096 ∣ p ∧ ∃ group, Span .read 0 log (data.take p ++ group) ∧ group.length = min (data.length - p) 4096 ∧
    group ≠ (data.drop p).take group.length

def Verified (data : Bytes) (log : List Access) (start : ℕ) : Prop :=
  start = data.length ∧ Span .read 0 log data ∨ Differs data log start

/-! ### The loops -/

variable {dev}

/-- Every run that returns does so in this way. -/
def Ensures {α : Type} (p : Prog E D α) (s : Session D) (ok : α → Session D → Prop) : Prop :=
  Crash.Sat (fun _ => True) p s ok (fun _ _ => True) fun _ => True

theorem Ensures.pure {α : Type} {a : α} {s : Session D} {ok : α → Session D → Prop} (h : ok a s) :
    Ensures (pure a : Prog E D α) s ok :=
  Crash.Sat.pure h

theorem Ensures.fail {α : Type} {e : Failure} {s : Session D} {ok : α → Session D → Prop} :
    Ensures (Crash.fail e : Prog E D α) s ok :=
  Crash.Sat.fail trivial

theorem Ensures.bind {α β : Type} {p : Prog E D α} {f : α → Prog E D β} {s : Session D} {ok : α → Session D → Prop}
    {okb : β → Session D → Prop} (h : Ensures p s ok) (hf : ∀ a s', ok a s' → Ensures (f a) s' okb) : Ensures (p >>= f) s okb :=
  Crash.Sat.step h hf

theorem ensures_call {α : Type} {f : E → Session D → α × Session D} {s : Session D} {ok : α → Session D → Prop}
    (h : ∀ e, ok (f e s).1 (f e s).2) : Ensures (Crash.call (machine dev) f) s ok :=
  Crash.Sat.call (fun _ _ _ => trivial) fun e _ _ => h e

theorem write_spec (data : Bytes) (s : Session D) : Ensures (write dev data) s fun r s' => match r with
    | .moved k => k ≤ data.length ∧ s'.pos = s.pos + k ∧ s'.log = s.log ++ [.wrote s.pos (data.take k)]
    | _ => s'.pos = s.pos ∧ s'.log = s.log := by
  refine ensures_call fun e => ?_
  have hle : ∀ k, (dev.write e s.dev s.pos data).1 = .moved k → k ≤ data.length := fun _ hk => dev.write_le hk
  generalize dev.write e s.dev s.pos data = out at hle
  obtain ⟨r, d⟩ := out
  cases r with
  | moved k => exact ⟨hle _ rfl, rfl, rfl⟩
  | interrupted => exact ⟨rfl, rfl⟩
  | failed => exact ⟨rfl, rfl⟩

theorem read_spec (n : ℕ) (s : Session D) : Ensures (read dev n) s fun r s' => match r with
    | .moved b => b.length ≤ n ∧ s'.pos = s.pos + b.length ∧ s'.log = s.log ++ [.read s.pos b]
    | _ => s'.pos = s.pos ∧ s'.log = s.log := by
  refine ensures_call fun e => ?_
  have hle : ∀ b, (dev.read e s.dev s.pos n).1 = .moved b → b.length ≤ n := fun _ hb => dev.read_le hb
  generalize dev.read e s.dev s.pos n = out at hle
  obtain ⟨r, d⟩ := out
  cases r with
  | moved b => exact ⟨hle _ rfl, rfl, rfl⟩
  | interrupted => exact ⟨rfl, rfl⟩
  | failed => exact ⟨rfl, rfl⟩

theorem writeLoop_spec (data : Bytes) : ∀ (n start : ℕ) (s : Session D), s.pos = start →
    Ensures (writeLoop dev data n start) s fun _ s' => ∃ w, s'.log = s.log ++ w ∧ Span .wrote start w (data.drop start)
  | 0, _, _, _ => Ensures.fail
  | n + 1, start, s, hpos => by
    unfold writeLoop
    split
    · refine (write_spec _ s).bind fun r s₁ hr => ?_
      cases r with
      | failed => exact Ensures.fail
      | interrupted =>
        obtain ⟨hpos₁, hlog⟩ := hr
        rw [← hlog]
        exact writeLoop_spec data n start s₁ (hpos₁.trans hpos)
      | moved k =>
        obtain ⟨hk, hpos₁, hlog⟩ := hr
        rw [List.length_take, List.length_drop] at hk
        have hbytes : ((data.drop start).take (min (data.length - start) (2 ^ 20))).take k = (data.drop start).take k := by
          rw [List.take_take, min_eq_left (by omega)]
        have hlen : ((data.drop start).take k).length = k := by
          rw [List.length_take, List.length_drop]
          omega
        refine Crash.Sat.imp (writeLoop_spec data n (start + k) s₁ (by rw [hpos₁, hpos])) ?_
        rintro _ s' ⟨w, hw, hspan⟩
        refine ⟨.wrote start ((data.drop start).take k) :: w, ?_, ?_⟩
        · rw [hw, hlog, hbytes, hpos, List.append_assoc, List.singleton_append]
        · have hsplit : data.drop start = (data.drop start).take k ++ data.drop (start + k) := by
            rw [← List.drop_drop, List.take_append_drop]
          rw [hsplit]
          nth_rewrite 1 [← hsplit]
          exact .cons (by rwa [hlen])
    · rename_i hend
      refine Ensures.pure ⟨[], by simp, ?_⟩
      rw [List.drop_eq_nil_of_le (by omega)]
      exact .nil start

theorem readBack_spec (toRead : ℕ) : ∀ (n : ℕ) (soFar : Bytes) (s : Session D), soFar.length ≤ toRead →
    Ensures (readBack dev toRead n soFar) s fun buffer s' => buffer.length = toRead ∧ ∃ v bytes, buffer = soFar ++ bytes ∧
      s'.pos = s.pos + bytes.length ∧ s'.log = s.log ++ v ∧ Span .read s.pos v bytes
  | 0, _, _, _ => Ensures.fail
  | n + 1, soFar, s, hle => by
    unfold readBack
    split
    · refine (read_spec _ s).bind fun r s₁ hr => ?_
      cases r with
      | failed => exact Ensures.fail
      | interrupted =>
        obtain ⟨hpos, hlog⟩ := hr
        rw [← hlog, ← hpos]
        exact readBack_spec toRead n soFar s₁ hle
      | moved b =>
        obtain ⟨hb, hpos, hlog⟩ := hr
        refine Crash.Sat.imp (readBack_spec toRead n (soFar ++ b) s₁ (by rw [List.length_append]; omega)) ?_
        rintro buffer s' ⟨hlen, v, bytes, hbuffer, hpos', hlog', hspan⟩
        refine ⟨hlen, .read s.pos b :: v, b ++ bytes, ?_, ?_, ?_, .cons (hpos ▸ hspan)⟩
        · rw [hbuffer, List.append_assoc]
        · rw [hpos', hpos, List.length_append, Nat.add_assoc]
        · rw [hlog', hlog, List.append_assoc, List.singleton_append]
    · exact Ensures.pure ⟨by omega, [], [], by simp, by simp, by simp, .nil _⟩

/-- The loop over the groups, when those in front of `p` were as they should be. -/
theorem verifyLoop_spec (steps : ℕ) (data : Bytes) : ∀ (n p : ℕ) (s : Session D)
    (base seen : List Access), data.length < p + n → 4096 ∣ p →
    (p < data.length → s.pos = p) → s.log = base ++ seen → Span .read 0 seen (data.take p) →
    Ensures (verifyLoop dev steps data n p) s fun start s' => ∃ v, s'.log = base ++ v ∧ Verified data v start
  | 0, p, s, base, seen, hfuel, _, _, hlog, hseen =>
    Ensures.pure ⟨seen, hlog, .inl ⟨rfl, by rwa [List.take_of_length_le (by omega)] at hseen⟩⟩
  | n + 1, p, s, base, seen, hfuel, hdvd, hpos, hlog, hseen => by
    unfold verifyLoop
    split
    · rename_i hp
      have hpos := hpos hp
      have htake : (data.take p).length = p := by
        rw [List.length_take]
        omega
      refine (readBack_spec (min (data.length - p) 4096) steps [] s (Nat.zero_le _)).bind fun buffer s₁ hbuffer => ?_
      obtain ⟨hlen, v, _, rfl, hpos₁, hlog₁, hspan⟩ := hbuffer
      have hread : Span .read 0 (seen ++ v) (data.take p ++ buffer) := hseen.append (by rwa [htake, Nat.zero_add, ← hpos])
      have hlogged : s₁.log = base ++ (seen ++ v) := by rw [hlog₁, hlog, List.append_assoc]
      split
      · rename_i hne
        refine Ensures.pure ⟨seen ++ v, hlogged, .inr ⟨hp, hdvd, buffer, hread, hlen, ?_⟩⟩
        rwa [hlen]
      · rename_i heq
        obtain rfl : buffer = (data.drop p).take (min (data.length - p) 4096) := not_not.mp heq
        have hnext : data.take p ++ (data.drop p).take (min (data.length - p) 4096) = data.take (p + 4096) := by
          rw [List.take_add, List.append_cancel_left_eq, List.take_eq_take_iff, List.length_drop]
          omega
        refine verifyLoop_spec steps data n (p + 4096) s₁ base (seen ++ v) (by omega)
          (Nat.dvd_add hdvd (dvd_refl _)) (fun hlt => ?_) hlogged
          (hnext ▸ hread)
        rw [hpos₁, hlen, hpos]
        omega
    · refine Ensures.pure ⟨seen, hlog, .inl ⟨rfl, ?_⟩⟩
      rwa [List.take_of_length_le (by omega)] at hseen

/-! ### Attempts -/

theorem lseek_spec (pos : ℕ) (s : Session D) : Ensures (E := E) (lseek pos) s fun _ s' =>
    s' = { s with pos := pos } := fun _ _ _ => rfl

/-- **An attempt** writes all data from `start` on, and then reads from the start of the device. -/
theorem emmcAttempt_spec (steps : ℕ) (data : Bytes) (start : ℕ) (s : Session D) :
    Ensures (emmcAttempt dev steps data start) s fun start' s' => ∃ w v, s'.log = s.log ++ w ++ v ∧
      Span .wrote start w (data.drop start) ∧ Verified data v start' := by
  unfold emmcAttempt
  refine (lseek_spec start s).bind fun _ s₁ hs₁ => ?_
  subst hs₁
  refine (writeLoop_spec data steps start _ rfl).bind fun _ s₂ hs₂ => ?_
  obtain ⟨w, hlog, hspan⟩ := hs₂
  have hsync : Ensures (Crash.call (machine dev) fun e s => ((), { s with dev := dev.sync e s.dev })) s₂
    fun _ s' => s'.log = s₂.log :=
    ensures_call fun e => rfl
  refine hsync.bind fun _ s₃ hs₃ => ?_
  refine (lseek_spec 0 s₃).bind fun _ s₄ hs₄ => ?_
  subst hs₄
  refine Crash.Sat.imp (verifyLoop_spec steps data (data.length + 1) 0 _ (s.log ++ w) [] (by omega) (dvd_zero _) (fun _ => rfl)
    (by simp [hs₃, hlog]) (.nil 0)) ?_
  rintro start' s' ⟨v, hv, hverified⟩
  exact ⟨w, v, hv, hspan, hverified⟩

theorem Differs.ne_length {data : Bytes} {log : List Access} {p : ℕ} (h : Differs data log p) : p ≠ data.length := Nat.ne_of_lt h.1

theorem Verified.differs {data : Bytes} {log : List Access} {start : ℕ} (h : Verified data log start) (hne : start ≠ data.length) :
    Differs data log start := h.resolve_left fun hall => hne hall.1

theorem Verified.reads {data : Bytes} {log : List Access} (h : Verified data log data.length) : Span .read 0 log data := by
  rcases h with ⟨-, hspan⟩ | hdiff
  · exact hspan
  · exact absurd rfl hdiff.ne_length

/-- One attempt, or a second one from the first group that differed. -/
def Succeeds (data : Bytes) (log : List Access) : Prop :=
  (∃ w v, log = w ++ v ∧ Span .wrote 0 w data ∧ Span .read 0 v data) ∨
  ∃ p w₁ v₁ w₂ v₂, log = w₁ ++ v₁ ++ w₂ ++ v₂ ∧ Span .wrote 0 w₁ data ∧ Differs data v₁ p ∧ Span .wrote p w₂ (data.drop p) ∧
    Span .read 0 v₂ data

theorem writeEmmc_spec (steps : ℕ) (data : Bytes) (d : D) :
    Ensures (writeEmmc dev steps data) ⟨d, 0, []⟩ fun _ s' => Succeeds data s'.log := by
  unfold writeEmmc
  have hopen : Ensures (Crash.call (machine dev) fun e s => (dev.opens e s.dev, s)) ⟨d, 0, []⟩ fun _ s' => s'.log = [] :=
    ensures_call fun e => rfl
  refine hopen.bind fun opened s₁ hs₁ => Crash.Sat.guard (fun _ => trivial) fun _ => ?_
  refine (emmcAttempt_spec steps data 0 s₁).bind fun start s₂ hs₂ => ?_
  obtain ⟨w₁, v₁, hlog₁, hwrote₁, hverified₁⟩ := hs₂
  rw [hs₁, List.nil_append] at hlog₁
  rw [List.drop_zero] at hwrote₁
  have hsecond : Ensures (if start = data.length then pure start else emmcAttempt dev steps data start) s₂
      fun start' s' => start' = data.length → Succeeds data s'.log := by
    split
    · rename_i hstart
      refine Ensures.pure fun _ => .inl ⟨w₁, v₁, hlog₁, hwrote₁, ?_⟩
      rw [hstart] at hverified₁
      exact hverified₁.reads
    · rename_i hstart
      refine Crash.Sat.imp (emmcAttempt_spec steps data start s₂) ?_
      rintro start' s' ⟨w₂, v₂, hlog₂, hwrote₂, hverified₂⟩ rfl
      exact .inr ⟨start, w₁, v₁, w₂, v₂, by rw [hlog₂, hlog₁], hwrote₁, hverified₁.differs hstart, hwrote₂, hverified₂.reads⟩
  refine hsecond.bind fun start' s₃ hs₃ => Crash.Sat.guard (fun _ => trivial) fun hend => ?_
  have hclose : Ensures (Crash.call (machine dev) fun e s => (dev.closes e s.dev, s)) s₃ fun _ s' => s'.log = s₃.log :=
    ensures_call fun e => rfl
  refine hclose.bind fun closed s₄ hs₄ => Crash.Sat.failIf (fun _ => trivial) fun _ => ?_
  rw [hs₄]
  exact hs₃ (not_not.mp hend)

variable (dev)

/-- **The verification is sound.** Whatever the device does: a write that returns 0 has read all of the data back, from the start of the device
to its end, behind its last write; and an attempt that follows one whose verification stopped at a group writes at least all from this
group on, also in a run that fails later. -/
theorem emmc_verified (steps : ℕ) (data : Bytes) (ev : ℕ → E) (n : ℕ) (d : D) :
    (∀ n' s', writeEmmc dev steps data ev n ⟨d, 0, []⟩ = .ok () n' s' → Succeeds data s'.log) ∧
    ∀ m s start m₁ s₁, emmcAttempt dev steps data 0 ev m s = .ok start m₁ s₁ → start ≠ data.length →
      (∃ w v, s₁.log = s.log ++ w ++ v ∧ Differs data v start) ∧
      ∀ start' m₂ s₂, emmcAttempt dev steps data start ev m₁ s₁ = .ok start' m₂ s₂ →
        ∃ w v, s₂.log = s₁.log ++ w ++ v ∧ Span .wrote start w (data.drop start) := by
  refine ⟨fun n' s' hrun => (writeEmmc_spec steps data d).of_ok (fun _ => trivial) hrun, fun m s start m₁ s₁ hrun hne => ⟨?_, ?_⟩⟩
  · obtain ⟨w, v, hlog, -, hverified⟩ := (emmcAttempt_spec steps data 0 s).of_ok (fun _ => trivial) hrun
    exact ⟨w, v, hlog, hverified.differs hne⟩
  · intro start' m₂ s₂ hrun'
    obtain ⟨w, v, hlog, hspan, -⟩ := (emmcAttempt_spec steps data start s₁).of_ok (fun _ => trivial) hrun'
    exact ⟨w, v, hlog, hspan⟩

/-- A partition of four bytes, whose first write is lost. -/
def zeroPartition : Sys := ⟨fun _ => none, fun t p => if t = .emmc ∧ p = lit "boot" then some ⟨[0, 0, 0, 0], true⟩ else none⟩

def firstWriteLost (i : ℕ) : Ev := if i = 1 then { Ev.fine with flash := fun _ => [0, 0, 0, 0] } else .fine

/-- The verification finds the loss, and a second attempt writes the data: the run returns 0. -/
theorem lost_write_verified : ∃ n s, writeEmmc (partitionDevice (lit "boot")) 100 [1, 2,
    3] firstWriteLost 0 ⟨zeroPartition, 0, []⟩ = .ok () n s ∧
    s.log = [.wrote 0 [1, 2, 3], .read 0 [0, 0, 0], .wrote 0 [1, 2, 3], .read 0 [1, 2, 3]] ∧ Succeeds [1, 2, 3] s.log := by
  have hlog : (writeEmmc (partitionDevice (lit "boot")) 100 [1, 2, 3] firstWriteLost 0
    ⟨zeroPartition, 0, []⟩).returned.map (fun r => r.2.log) =
      some [.wrote 0 [1, 2, 3], .read 0 [0, 0, 0], .wrote 0 [1, 2, 3], .read 0 [1, 2, 3]] := by decide +kernel
  obtain ⟨⟨_, s⟩, hret, hs⟩ := Option.map_eq_some_iff.mp hlog
  cases hrun : writeEmmc (partitionDevice (lit "boot")) 100 [1, 2, 3] firstWriteLost 0 ⟨zeroPartition, 0, []⟩ with rw [hrun] at hret
  | ok _ n s' =>
    obtain rfl : s' = s := (Prod.mk.inj (Option.some.inj hret)).2
    exact ⟨n, s', rfl, hs, (emmc_verified (partitionDevice (lit "boot")) 100 [1, 2, 3] firstWriteLost 0 zeroPartition).1 n s' hrun⟩
  | error => cases hret
  | crash => cases hret

end Emmc
end Patch
end Recovery
