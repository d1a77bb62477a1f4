/-
# Strings in arrays

The fields of a message are arrays that hold strings. What is behind the end of a string
stays in the array.

Key theorem: `Buffer.Holds`.
-/
import Recovery.Text

namespace Recovery

open Zip (cstr)

theorem CString.of_bytes_eq {b : Bytes} (h : 0 ∉ b) : (CString.of b).bytes = b :=
  Zip.cstr_of_no_nul h

theorem CString.of_bytes (s : CString) : CString.of s.bytes = s := CString.ext (CString.of_bytes_eq s.no_nul)

theorem cstr_append_nul {s rest : Bytes} (h : 0 ∉ s) : cstr (s ++ 0 :: rest) = s := by
  have hall : ∀ c ∈ s, decide (c ≠ 0) = true := fun c hc => by simpa using fun h0 : c = 0 => h (h0 ▸ hc)
  unfold cstr
  rw [List.takeWhile_append_of_pos hall]
  simp

theorem cstr_drop : ∀ {s : Bytes} {j : ℕ}, j ≤ (cstr s).length → cstr (s.drop j) = (cstr s).drop j
  | _, 0, _ => by simp
  | [], _ + 1, h => by simp [cstr] at h
  | c :: s, j + 1, h => by
    unfold cstr at h ⊢
    by_cases hc : c = 0
    · simp [hc] at h
    · rw [List.takeWhile_cons_of_pos (by simpa using hc)] at h ⊢
      exact cstr_drop (Nat.le_of_succ_le_succ h)

/-- An array of `n` bytes. -/
@[ext] structure Buffer (n : ℕ) where
  bytes : Bytes
  length_eq : bytes.length = n
  deriving DecidableEq

namespace Buffer

variable {n : ℕ}

def zero (n : ℕ) : Buffer n := ⟨List.replicate n 0, List.length_replicate⟩

def store (b : Buffer n) (pos : ℕ) (src : Bytes) (h : pos + src.length ≤ n) : Buffer n :=
  ⟨b.bytes.take pos ++ (src ++ b.bytes.drop (pos + src.length)), by
    have := b.length_eq
    simp only [List.length_append, List.length_take, List.length_drop]
    omega⟩

def set (b : Buffer n) (i : ℕ) (c : UInt8) : Buffer n := ⟨b.bytes.set i c, by rw [List.length_set, b.length_eq]⟩

def string (b : Buffer n) : CString := .of b.bytes

def strlcpy (b : Buffer n) (src : CString) (size : ℕ) (h : 0 < size ∧ size ≤ n) : Buffer n :=
  b.store 0 (src.bytes.take (size - 1) ++ [0]) (by simp only [List.length_append, List.length_take, List.length_singleton]; omega)

/-- It does nothing if there is no string in the first `size` bytes. -/
def strlcat (b : Buffer n) (src : CString) (size : ℕ) (h : size ≤ n) : Buffer n :=
  let dlen := (cstr (b.bytes.take size)).length
  if hd : dlen < size then
    b.store dlen (src.bytes.take (size - 1 - dlen) ++ [0]) (by
      simp only [List.length_append, List.length_take, List.length_singleton]
      omega)
  else b

/-! ### Putting a string together -/

/-- The array holds the string `s`, and behind it what was in `old`. -/
def Holds (b : Buffer n) (s : Bytes) (old : Buffer n) : Prop :=
  0 ∉ s ∧ s.length < n ∧ b.bytes = s ++ 0 :: old.bytes.drop (s.length + 1)

variable {b old : Buffer n} {s : Bytes}

theorem Holds.string (h : b.Holds s old) : b.string.bytes = s := by
  show cstr b.bytes = s
  rw [h.2.2]
  exact cstr_append_nul h.1

theorem Holds.unique {b' old' : Buffer n} (h : b.Holds s old) (h' : b'.Holds s old')
    (hold : old.bytes.drop (s.length + 1) = old'.bytes.drop (s.length + 1)) : b = b' := by
  apply Buffer.ext
  rw [h.2.2, h'.2.2, hold]

theorem Holds.drop (h : b.Holds s old) {j : ℕ} (hj : s.length < j) : b.bytes.drop j = old.bytes.drop j := by
  obtain ⟨i, rfl⟩ := Nat.exists_eq_add_of_le (Nat.succ_le_of_lt hj)
  rw [h.2.2, List.drop_append, List.drop_of_length_le (by omega), Nat.succ_eq_add_one, Nat.add_right_comm, Nat.add_assoc,
    Nat.add_sub_cancel_left]
  simp only [List.nil_append, List.drop_succ_cons, List.drop_drop]
  congr 1
  omega

theorem Holds.self (h : b.Holds s old) : b.Holds s b := by
  refine ⟨h.1, h.2.1, ?_⟩
  rw [h.drop (Nat.lt_succ_self _)]
  exact h.2.2

theorem holds_strlcpy (b : Buffer n) (src : CString) {size : ℕ} (h : 0 < size ∧ size ≤ n) :
    (b.strlcpy src size h).Holds (src.bytes.take (size - 1)) b := by
  refine ⟨fun hm => src.no_nul (List.mem_of_mem_take hm), ?_, ?_⟩
  · rw [List.length_take]
    omega
  · simp [strlcpy, store]

theorem take_take_append {α : Type} (s t : List α) (k : ℕ) : (s.take k ++ t).take k = (s ++ t).take k := by
  rw [List.take_append, List.take_append, List.take_take, min_self, List.length_take]
  congr 2
  omega

theorem Holds.strlcat (h : b.Holds s old) (src : CString) :
    (b.strlcat src n le_rfl).Holds ((s ++ src.bytes).take (n - 1)) old := by
  obtain ⟨hs, hlen, hb⟩ := h
  have hd : cstr (b.bytes.take n) = s := by
    rw [List.take_of_length_le b.length_eq.le, hb]
    exact cstr_append_nul hs
  have htake : (s ++ src.bytes).take (n - 1) = s ++ src.bytes.take (n - 1 - s.length) := by
    rw [List.take_append, List.take_of_length_le (by omega)]
  refine ⟨fun hm => ?_, by rw [List.length_take]; omega, ?_⟩
  · rcases List.mem_append.mp (List.mem_of_mem_take hm) with hm | hm
    · exact hs hm
    · exact src.no_nul hm
  · have hbytes : (b.strlcat src n le_rfl).bytes = b.bytes.take s.length ++ (src.bytes.take (n - 1 - s.length) ++ [0] ++
        b.bytes.drop (s.length + (src.bytes.take (n - 1 - s.length) ++ [0]).length)) := by
      simp only [Buffer.strlcat, hd, hlen, ↓reduceDIte, store]
    -- the zero behind `s` is overwritten, and what is behind the new end is that of `old`
    rw [htake, hbytes, hb, List.take_left, List.drop_append, List.drop_of_length_le (by omega), Nat.add_sub_cancel_left]
    simp only [List.length_append, List.length_singleton, List.append_assoc, List.singleton_append, List.drop_succ_cons,
      List.drop_drop]
    rw [Nat.add_right_comm, Nat.add_assoc, List.nil_append]

/-- The strings are appended, each with a newline. -/
def catLines (b : Buffer n) (args : List CString) : Buffer n :=
  args.foldl (fun b arg => (b.strlcat arg n le_rfl).strlcat (str "\n") n le_rfl) b

def lines (args : List CString) : Bytes := args.flatMap fun arg => arg.bytes ++ [0x0a]

theorem Holds.catLines : ∀ {b : Buffer n} {s : Bytes} (args : List CString), b.Holds (s.take (n - 1)) old →
    (b.catLines args).Holds ((s ++ lines args).take (n - 1)) old
  | _, s, [], h => by simpa [lines, Buffer.catLines] using h
  | b, s, arg :: args, h => by
    have hnext := (h.strlcat arg).strlcat (str "\n")
    rw [take_take_append, List.append_assoc, take_take_append] at hnext
    have := Holds.catLines args hnext
    simpa [lines, Buffer.catLines, str, CString.of, cstr, lit] using this

/-! ### Tokens -/

/-- The next token, and how many bytes are in front of its end. -/
def nextToken (delim : UInt8 → Bool) (s : Bytes) : Bytes × ℕ :=
  let tok := (s.dropWhile delim).takeWhile (! delim ·)
  (tok, (s.takeWhile delim).length + tok.length)

/-- `strtok` from the byte `pos` on: the token, where to go on, and the array. -/
def strtok (delim : UInt8 → Bool) (b : Buffer n) (pos : ℕ) : Option (CString × ℕ) × Buffer n :=
  let s := cstr (b.bytes.drop pos)
  let (tok, stop) := nextToken delim s
  if tok = [] then (none, b)
  -- at the end of the string there is no delimiter to overwrite
  else if stop < s.length then (some (.of tok, pos + stop + 1), b.set (pos + stop) 0)
  else (some (.of tok, pos + stop), b)

/-- At most `k` tokens from the byte `pos` on. -/
def strtoks (delim : UInt8 → Bool) : ℕ → Buffer n → ℕ → List CString × Buffer n
  | 0, b, _ => ([], b)
  | k + 1, b, pos =>
    match strtok delim b pos with
    | (none, b) => ([], b)
    | (some (tok, pos), b) =>
      let (toks, b) := strtoks delim k b pos
      (tok :: toks, b)

end Buffer

def tokens (delim : UInt8 → Bool) : ℕ → Bytes → List Bytes
  | 0, _ => []
  | k + 1, s =>
    let (tok, stop) := Buffer.nextToken delim s
    if tok = [] then [] else tok :: tokens delim k (s.drop (stop + 1))

namespace Buffer

variable {n : ℕ} {delim : UInt8 → Bool}

theorem nextToken_le (delim : UInt8 → Bool) (s : Bytes) : (nextToken delim s).2 ≤ s.length := by
  have htok : ((s.dropWhile delim).takeWhile (! delim ·)).length ≤ (s.dropWhile delim).length :=
    (List.takeWhile_sublist _).length_le
  have hsum : (s.takeWhile delim).length + (s.dropWhile delim).length = s.length := by
    rw [← List.length_append, List.takeWhile_append_dropWhile]
  simp only [nextToken]
  omega

/-- `strtok` returns the next token, and changes nothing from the end of the string on. -/
theorem strtok_spec (b : Buffer n) (pos : ℕ) {s tok : Bytes} {stop : ℕ} (hs : cstr (b.bytes.drop pos) = s)
    (htok : nextToken delim s = (tok, stop)) :
    (tok = [] ∧ strtok delim b pos = (none, b)) ∨
    (tok ≠ [] ∧ ∃ pos' b', strtok delim b pos = (some (.of tok, pos'), b') ∧ cstr (b'.bytes.drop pos') = s.drop (stop + 1) ∧
      pos' + (s.drop (stop + 1)).length = pos + s.length ∧ ∀ j, pos + s.length ≤ j → b'.bytes.drop j = b.bytes.drop j) := by
  have hle : stop ≤ s.length := by
    have := nextToken_le delim s
    rwa [htok] at this
  by_cases hnil : tok = []
  · refine .inl ⟨hnil, ?_⟩
    simp only [strtok, hs, htok, if_pos hnil]
  · refine .inr ⟨hnil, ?_⟩
    by_cases hlt : stop < s.length
    · refine ⟨pos + stop + 1, b.set (pos + stop) 0, ?_, ?_, ?_, ?_⟩
      · simp only [strtok, hs, htok, if_neg hnil, if_pos hlt]
      · rw [← hs] at hlt ⊢
        rw [set, List.drop_set_of_lt (by omega), ← cstr_drop hlt, List.drop_drop]
        rfl
      · rw [List.length_drop]
        omega
      · intro j hj
        exact List.drop_set_of_lt (by omega)
    · obtain rfl : stop = s.length := by omega
      refine ⟨pos + s.length, b, ?_, ?_, ?_, fun j _ => rfl⟩
      · simp only [strtok, hs, htok, if_neg hnil, if_neg hlt]
      · have : cstr ((b.bytes.drop pos).drop s.length) = (cstr (b.bytes.drop pos)).drop s.length := cstr_drop (by rw [hs])
        rw [List.drop_drop, hs, List.drop_length] at this
        rw [this, List.drop_of_length_le (by omega)]
      · rw [List.drop_of_length_le (by omega)]
        rfl

theorem strtoks_spec (delim : UInt8 → Bool) : ∀ (k : ℕ) (b : Buffer n) (pos : ℕ),
    (strtoks delim k b pos).1 = (tokens delim k (cstr (b.bytes.drop pos))).map .of ∧
    ∀ j, pos + (cstr (b.bytes.drop pos)).length ≤ j → (strtoks delim k b pos).2.bytes.drop j = b.bytes.drop j
  | 0, _, _ => ⟨rfl, fun _ _ => rfl⟩
  | k + 1, b, pos => by
    generalize hs : cstr (b.bytes.drop pos) = s
    cases htok : nextToken delim s with | mk tok stop =>
    obtain ⟨hnil, heq⟩ | ⟨hne, pos', b', heq, hs', hpos', hkept⟩ := strtok_spec b pos hs htok
    · simp [strtoks, heq, tokens, htok, hnil]
    · obtain ⟨htoks, htail⟩ := strtoks_spec delim k b' pos'
      rw [hs'] at htoks htail
      constructor
      · simp only [strtoks, heq, tokens, htok, if_neg hne, htoks, List.map_cons]
      · intro j hj
        simp only [strtoks, heq]
        rw [htail j (by omega), hkept j hj]

end Buffer

theorem mem_tokens {delim : UInt8 → Bool} : ∀ {k : ℕ} {s t : Bytes}, t ∈ tokens delim k s →
    t ≠ [] ∧ (∀ c ∈ t, delim c = false) ∧ ∀ c ∈ t, c ∈ s
  | 0, _, _, h => by simp [tokens] at h
  | k + 1, s, t, h => by
    by_cases hnil : (Buffer.nextToken delim s).1 = []
    · simp [tokens, hnil] at h
    · simp only [tokens, if_neg hnil, List.mem_cons] at h
      rcases h with rfl | h
      · refine ⟨hnil, fun c hc => by simpa using List.mem_takeWhile_imp hc, fun c hc => ?_⟩
        exact (List.dropWhile_sublist _).subset ((List.takeWhile_sublist _).subset hc)
      · obtain ⟨hne, hdelim, hsub⟩ := mem_tokens h
        exact ⟨hne, hdelim, fun c hc => List.mem_of_mem_drop (hsub c hc)⟩

theorem tokens_length {delim : UInt8 → Bool} : ∀ {k : ℕ} {s : Bytes}, (tokens delim k s).length ≤ k
  | 0, _ => by simp [tokens]
  | k + 1, s => by
    rw [tokens]
    dsimp only
    split_ifs
    · exact Nat.zero_le _
    · exact Nat.succ_le_succ tokens_length

theorem nextToken_append {delim : UInt8 → Bool} {t rest : Bytes} (hne : t ≠ []) (ht : ∀ c ∈ t, delim c = false)
    (hrest : ∀ c ∈ rest.head?, delim c = true) : Buffer.nextToken delim (t ++ rest) = (t, t.length) := by
  have hskip : (t ++ rest).takeWhile delim = [] ∧ (t ++ rest).dropWhile delim = t ++ rest := by
    obtain ⟨c, t, rfl⟩ := List.exists_cons_of_ne_nil hne
    simp [ht c List.mem_cons_self]
  have htake : (t ++ rest).takeWhile (! delim ·) = t := by
    rw [List.takeWhile_append_of_pos fun x hx => by simp [ht x hx]]
    cases rest with
    | nil => simp
    | cons x rest => simp [hrest x rfl]
  simp only [Buffer.nextToken, hskip.1, hskip.2, htake, List.length_nil, Nat.zero_add]

theorem tokens_lines : ∀ {args : List CString} {k m : ℕ}, args.length ≤ k → (Buffer.lines args).length ≤ m + 1 →
    (∀ a ∈ args, a.bytes ≠ [] ∧ 0x0a ∉ a.bytes) →
    tokens (· = 0x0a) k ((Buffer.lines args).take m) = args.map CString.bytes
  | [], k, m, _, _, _ => by cases k <;> simp [Buffer.lines, tokens, Buffer.nextToken]
  | arg :: args, k + 1, m, hk, hm, h => by
    obtain ⟨hne, hnl⟩ := h arg List.mem_cons_self
    have hlines : Buffer.lines (arg :: args) = arg.bytes ++ 0x0a :: Buffer.lines args := by simp [Buffer.lines]
    rw [hlines, List.length_append, List.length_cons] at hm
    have hdelim : ∀ c ∈ arg.bytes, decide (c = 0x0a) = false := fun c hc => by simpa using fun h0 : c = 0x0a => hnl (h0 ▸ hc)
    have htake : (Buffer.lines (arg :: args)).take m = arg.bytes ++ (0x0a :: Buffer.lines args).take (m - arg.bytes.length) := by
      rw [hlines, List.take_append, List.take_of_length_le (by omega)]
    have hhead : ∀ c ∈ ((0x0a :: Buffer.lines args).take (m - arg.bytes.length)).head?, decide (c = 0x0a) = true := by
      cases m - arg.bytes.length <;> simp
    have hrest : tokens (· = 0x0a) k (((0x0a :: Buffer.lines args).take (m - arg.bytes.length)).drop 1) =
        args.map CString.bytes := by
      rw [List.drop_take, List.drop_one, List.tail_cons]
      exact tokens_lines (Nat.le_of_succ_le_succ hk) (by omega) fun a ha => h a (List.mem_cons_of_mem _ ha)
    rw [htake, tokens, nextToken_append hne hdelim hhead]
    simp only [if_neg hne, List.map_cons]
    rw [← hrest, List.drop_append, List.drop_of_length_le (by omega), Nat.add_sub_cancel_left]
    rfl

end Recovery
