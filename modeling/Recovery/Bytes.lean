/-
# Bytes and checked memory

A buffer is the list of its bytes, and every read goes through `slice`, which stops with
`fault` where the C code would leave the buffer. The recovery is built for a 32-bit ARM:
`int`, `long`, `size_t` and pointers have 32 bits (`s32`, `u32`).
-/
import Recovery.Lib.LittleEndian

namespace Recovery

abbrev Bytes := List UInt8

instance : LawfulBEq Bytes := inferInstance

def lit (s : String) : Bytes := s.toList.map fun c => UInt8.ofNat c.toNat

/-- How a C function stops: an error code, an access outside a buffer, an assertion, an endless loop, or an argument that
it was not given. -/
inductive Stop
  | ret (code : ℤ)
  | fault
  | abort
  | hang
  | pastArgs
  deriving DecidableEq, Repr

def Stop.dies : Stop → Bool
  | .ret _ => false
  | _ => true

/-- A value as an `int`, a `long` or an `ssize_t` holds it. -/
def s32 (x : ℤ) : ℤ := x.bmod (2 ^ 32)

/-- A value as an `unsigned int` or a `size_t` holds it. -/
def u32 (x : ℤ) : ℤ := x % 2 ^ 32

theorem s32_of_lt {x : ℤ} (h1 : -2 ^ 31 ≤ x) (h2 : x < 2 ^ 31) : s32 x = x :=
  Int.bmod_eq_of_le (by norm_num; omega) (by norm_num; omega)

theorem u32_of_lt {x : ℤ} (h1 : 0 ≤ x) (h2 : x < 2 ^ 32) : u32 x = x := Int.emod_eq_of_lt h1 h2

/-- The `n` bytes at offset `i` of a buffer. -/
def slice (b : Bytes) (i : ℤ) (n : ℕ) : Except Stop Bytes :=
  if 0 ≤ i ∧ i + n ≤ b.length then .ok ((b.drop i.toNat).take n) else .error .fault

theorem slice_eq_ok {b r : Bytes} {i : ℤ} {n : ℕ} : slice b i n = .ok r ↔
    0 ≤ i ∧ i + n ≤ b.length ∧ r = (b.drop i.toNat).take n := by
  unfold slice
  split_ifs with h
  · simp [h, eq_comm]
  · simp only [false_iff]
    exact fun h' => h ⟨h'.1, h'.2.1⟩

theorem slice_of_le (b : Bytes) {i : ℤ} {n : ℕ} (h0 : 0 ≤ i) (h1 : i + n ≤ b.length) :
    slice b i n = .ok ((b.drop i.toNat).take n) := slice_eq_ok.mpr ⟨h0, h1, rfl⟩

theorem slice_length {b r : Bytes} {i : ℤ} {n : ℕ} (h : slice b i n = .ok r) : r.length = n := by
  obtain ⟨h0, h1, rfl⟩ := slice_eq_ok.mp h
  simp only [List.length_take, List.length_drop]
  omega

theorem slice_error {b : Bytes} {i : ℤ} {n : ℕ} {e : Stop} (h : slice b i n = .error e) :
    e = .fault := by
  unfold slice at h
  split_ifs at h
  exact (Except.error.inj h).symm

theorem slice_take {b r : Bytes} {i : ℤ} {n k : ℕ} (h : slice b i n = .ok r) (hk : i + n ≤ k) :
    slice (b.take k) i n = .ok r := by
  obtain ⟨h0, h1, rfl⟩ := slice_eq_ok.mp h
  refine slice_eq_ok.mpr ⟨h0, by simp only [List.length_take]; omega, ?_⟩
  rw [List.drop_take, List.take_take, min_eq_left (by omega)]

theorem slice_append (a b c : Bytes) {i : ℤ} {n : ℕ} (hi : i = a.length) (hn : n = b.length) :
    slice (a ++ (b ++ c)) i n = .ok b := by
  subst hi hn
  rw [slice_of_le _ (by omega) (by simp), Int.toNat_natCast, List.drop_left, List.take_left]

/-- The unsigned number in the `n` bytes at offset `i`. -/
def sliceLE (b : Bytes) (i : ℤ) (n : ℕ) : Except Stop ℕ := LittleEndian.ofBytes <$> slice b i n

theorem sliceLE_eq_ok {b : Bytes} {i : ℤ} {n v : ℕ} : sliceLE b i n = .ok v ↔
    ∃ r, slice b i n = .ok r ∧ v = LittleEndian.ofBytes r := by
  unfold sliceLE
  cases slice b i n <;> simp [Functor.map, Except.map, eq_comm]

theorem sliceLE_lt {b : Bytes} {i : ℤ} {n v : ℕ} (h : sliceLE b i n = .ok v) : v < 256 ^ n := by
  obtain ⟨r, hr, rfl⟩ := sliceLE_eq_ok.mp h
  exact slice_length hr ▸ LittleEndian.ofBytes_lt r

theorem sliceLE_take {b : Bytes} {i : ℤ} {n v k : ℕ} (h : sliceLE b i n = .ok v) (hk : i + n ≤ k) :
    sliceLE (b.take k) i n = .ok v := by
  obtain ⟨r, hr, rfl⟩ := sliceLE_eq_ok.mp h
  exact sliceLE_eq_ok.mpr ⟨r, slice_take hr hk, rfl⟩

/-! ### Sequencing -/

theorem bind_eq_ok {α β : Type} {x : Except Stop α} {f : α → Except Stop β} {r : β} :
    (x >>= f) = .ok r ↔ ∃ a, x = .ok a ∧ f a = .ok r := by
  cases x <;> simp [bind, Except.bind]

/-- What a sequence that stopped did: the first half stopped, or it ran and the second did. -/
theorem bind_eq_error {α β : Type} {x : Except Stop α} {f : α → Except Stop β} {e : Stop} :
    (x >>= f) = .error e ↔ x = .error e ∨ ∃ a, x = .ok a ∧ f a = .error e := by
  cases x <;> simp [bind, Except.bind]

def failIf (c : Prop) [Decidable c] (e : Stop) : Except Stop Unit := if c then .error e else .ok ()

theorem failIf_eq_ok {c : Prop} [Decidable c] {e : Stop} {u : Unit} : failIf c e = .ok u ↔ ¬ c := by
  unfold failIf
  split_ifs with h <;> simp [h]

theorem pure_eq_ok {α : Type} {a b : α} : (pure a : Except Stop α) = .ok b ↔ a = b := Except.ok.injEq a b ▸ Iff.rfl

@[simp] theorem failIf_bind {β : Type} (c : Prop) [Decidable c] (e : Stop) (f : Unit → Except Stop β) :
    (failIf c e >>= f) = if c then .error e else f () := by
  unfold failIf
  split_ifs <;> rfl

@[simp] theorem ok_bind {α β : Type} (a : α) (f : α → Except Stop β) : (Except.ok a >>= f) = f a := rfl

@[simp] theorem error_bind {α β : Type} (e : Stop) (f : α → Except Stop β) :
    ((Except.error e : Except Stop α) >>= f) = .error e := rfl

/-! ### How a function ends -/

/-- `Q` holds of what is returned, and `P` of how the function stops before its end. -/
def Ends {α : Type} (x : Except Stop α) (Q : α → Prop) (P : Stop → Prop) : Prop := match x with
  | .ok a => Q a
  | .error stop => P stop

section

variable {α β : Type} {x : Except Stop α} {Q Q' : α → Prop} {P : Stop → Prop}

theorem ends_iff : Ends x Q P ↔ (∀ a, x = .ok a → Q a) ∧ ∀ stop, x = .error stop → P stop := by
  cases x <;> simp [Ends]

theorem Ends.mono (h : Ends x Q P) (hQ : ∀ a, x = .ok a → Q a → Q' a) : Ends x Q' P :=
  ends_iff.mpr ⟨fun a ha => hQ a ha ((ends_iff.mp h).1 a ha), (ends_iff.mp h).2⟩

theorem Ends.bind {f : α → Except Stop β} {R : β → Prop} (h : Ends x Q P) (hf : ∀ a, x = .ok a → Q a → Ends (f a) R P) :
    Ends (x >>= f) R P := by
  cases x with
  | ok a => exact hf a rfl h
  | error stop => exact h

theorem Ends.failIf {c : Prop} [Decidable c] {stop : Stop} {f : Unit → Except Stop β} {R : β → Prop} (hc : c → P stop)
    (hf : ¬ c → Ends (f ()) R P) : Ends (Recovery.failIf c stop >>= f) R P := by
  rw [failIf_bind]
  split
  · exact hc ‹_›
  · exact hf ‹_›

/-- A read that is known to be inside of the buffer, or whose failure is allowed. -/
theorem ends_slice {b : Bytes} {i : ℤ} {n : ℕ} (h : ¬ (0 ≤ i ∧ i + n ≤ b.length) → P .fault) :
    Ends (slice b i n) (fun r => 0 ≤ i ∧ i + n ≤ b.length ∧ r = (b.drop i.toNat).take n) P := by
  unfold slice
  split
  · exact ⟨‹_ ∧ _›.1, ‹_ ∧ _›.2, rfl⟩
  · exact h ‹_›

end

end Recovery
