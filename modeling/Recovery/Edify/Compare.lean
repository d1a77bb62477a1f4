/-
# Comparison of integers (expr.c)

`less_than_int` converts with `strtol`, and a `long` has 32 bits: a number that does not fit
is taken for the largest or the smallest that does. Two numbers beyond the same end are then
equal (`beyond_2038`); others compare exactly (`compare_exact`).
-/
import Mathlib.Data.Nat.Digits.Defs
import Recovery.Edify.Discipline

namespace Recovery
namespace Edify

/-- The sign of a numeral. -/
inductive Sign
  | none
  | plus
  | minus
  deriving DecidableEq

def Sign.text : Sign → Bytes
  | .none => []
  | .plus => lit "+"
  | .minus => lit "-"

/-- An integer in decimal, with a sign or without, of any length. -/
structure Numeral where
  sign : Sign
  digits : Bytes
  digits_ne : digits ≠ []
  decimal : ∀ c ∈ digits, isDigit 10 c = true

namespace Numeral

def magnitude (n : Numeral) : ℕ := Nat.ofDigits 10 (n.digits.reverse.map fun c => (digit c).getD 0)

def value (n : Numeral) : ℤ := if n.sign = .minus then -(n.magnitude : ℤ) else n.magnitude

theorem text_no_nul (n : Numeral) : 0 ∉ n.sign.text ++ n.digits := by
  intro h
  obtain h | h := List.mem_append.mp h
  · cases hs : n.sign <;> rw [hs] at h <;> revert h <;> decide
  · exact absurd (n.decimal 0 h) (by decide)

def text (n : Numeral) : CString := ⟨n.sign.text ++ n.digits, n.text_no_nul⟩

end Numeral

/-! ### Conversion -/

theorem foldl_ofDigits (base : ℕ) : ∀ (digits : Bytes) (n : ℕ),
    digits.foldl (fun n c => base * n + (digit c).getD 0) n =
      base ^ digits.length * n + Nat.ofDigits base (digits.reverse.map fun c => (digit c).getD 0)
  | [], n => by simp
  | c :: digits, n => by
    rw [List.foldl_cons, foldl_ofDigits base digits, List.reverse_cons, List.map_append, Nat.ofDigits_append]
    simp only [List.map_cons, List.map_nil, Nat.ofDigits_singleton, List.length_map, List.length_reverse, List.length_cons]
    ring

theorem number_eq_ofDigits (base : ℕ) (digits : Bytes) :
    number base digits = Nat.ofDigits base (digits.reverse.map fun c => (digit c).getD 0) := by
  rw [number, foldl_ofDigits, Nat.mul_zero, Nat.zero_add]

def clamp (x : ℤ) : ℤ := max (-2 ^ 31) (min (2 ^ 31 - 1) x)

theorem isDigit_spec : ∀ {c : UInt8}, isDigit 10 c = true → isspace c = false ∧ c ≠ 0x2d ∧ c ≠ 0x2b := by
  intro c
  exact forall_byte (P := fun c => isDigit 10 c = true → isspace c = false ∧ c ≠ 0x2d ∧ c ≠ 0x2b) (by decide +kernel) c

theorem skipSign_text (n : Numeral) : skipSign n.text.bytes = (decide (n.sign = .minus), n.digits) := by
  obtain ⟨sign, digits, hne, hdecimal⟩ := n
  obtain ⟨c, rest, rfl⟩ := List.exists_cons_of_ne_nil hne
  obtain ⟨hspace, hminus, hplus⟩ := isDigit_spec (hdecimal c List.mem_cons_self)
  cases sign with
  | none => simp [Numeral.text, Sign.text, skipSign, hspace, hminus, hplus]
  | plus => rfl
  | minus => rfl

/-- **`strtol` takes all of a numeral**, and gives its value as far as a `long` goes. -/
theorem strtol_text (n : Numeral) : strtol n.text.bytes = (clamp n.value, []) := by
  have htake : n.digits.takeWhile (isDigit 10) = n.digits := List.takeWhile_eq_self_iff.mpr n.decimal
  have hdrop : n.digits.dropWhile (isDigit 10) = [] := List.dropWhile_eq_nil_iff.mpr n.decimal
  rw [strtol, skipSign_text]
  dsimp only
  rw [htake, if_neg n.digits_ne, hdrop, number_eq_ofDigits]
  simp only [decide_eq_true_eq, clamp, Numeral.value, Numeral.magnitude]

theorem wholeInt_text (n : Numeral) : wholeInt n.text = some (clamp n.value) := by
  have hne : n.text.bytes ≠ [] := List.append_ne_nil_of_right_ne_nil _ n.digits_ne
  rw [wholeInt, strtol_text, if_neg (by simp [hne])]

theorem lessThan_text (a b : Numeral) : lessThan a.text b.text = decide (clamp a.value < clamp b.value) := by
  rw [lessThan, wholeInt_text, wholeInt_text]

/-! ### Comparison -/

/-- Both numbers are at or beyond the same end of `long`. -/
def SameEnd (x y : ℤ) : Prop := (2 ^ 31 - 1 ≤ x ∧ 2 ^ 31 - 1 ≤ y) ∨ (x ≤ -2 ^ 31 ∧ y ≤ -2 ^ 31)

theorem clamp_lt_iff {x y : ℤ} (h : SameEnd x y → x = y) : clamp x < clamp y ↔ x < y := by
  unfold SameEnd at h
  unfold clamp
  omega

section

variable {σ : Type} {x y : Arg σ} {s s₁ s₂ : State σ} {l r : CString}

theorem lessThanIntFn_run (hx : evaluate x s = .ok (some l, s₁)) (hy : evaluate y s₁ = .ok (some r, s₂)) :
    lessThanIntFn [x, y] s = .ok (boolValue (lessThan l r), s₂) := by
  have hread : readArgs [x, y] 2 s = .ok (some [l, r], s₂) := by
    rw [readArgs, readWith, bind_run hx]
    dsimp only
    rw [readWith, bind_run (bind_run hy)]
    rfl
  rw [lessThanIntFn, if_neg (by simp), bind_run hread]
  rfl

theorem greaterThanIntFn_run (hy : evaluate y s = .ok (some r, s₁)) (hx : evaluate x s₁ = .ok (some l, s₂)) :
    greaterThanIntFn [x, y] s = .ok (boolValue (lessThan r l), s₂) := by
  rw [greaterThanIntFn, if_neg (by simp)]
  exact lessThanIntFn_run hy hx

end

/-- Beyond the same end of `long` neither of two numerals is less than the other. -/
theorem lessThan_sameEnd {a b : Numeral} (h : SameEnd a.value b.value) : lessThan a.text b.text = false := by
  rw [lessThan_text]
  unfold SameEnd at h
  unfold clamp
  exact decide_eq_false (by omega)

/-- **Comparison is exact** just for two integers that are not both at or beyond the same end of `long`, or are equal: `less_than_int`
is true exactly if the first is less, `greater_than_int` exactly if it is greater, and one of less, greater and equal holds. -/
theorem compare_exact {σ : Type} (a b : Numeral) (x y : Arg σ) (s : State σ) :
    ((∀ s₁ s₂, evaluate x s = .ok (some a.text, s₁) → evaluate y s₁ = .ok (some b.text, s₂) →
      lessThanIntFn [x, y] s = .ok (boolValue (a.value < b.value), s₂)) ∧
    (∀ s₁ s₂, evaluate y s = .ok (some b.text, s₁) → evaluate x s₁ = .ok (some a.text, s₂) →
      greaterThanIntFn [x, y] s = .ok (boolValue (a.value > b.value), s₂)) ∧
    [lessThan a.text b.text, lessThan b.text a.text, decide (a.value = b.value)].count true = 1) ↔
    (SameEnd a.value b.value → a.value = b.value) := by
  constructor
  · rintro ⟨-, -, hone⟩ hend
    by_contra hne
    rw [lessThan_sameEnd hend, lessThan_sameEnd (hend.imp And.symm And.symm), decide_eq_false hne] at hone
    simp at hone
  intro hends
  have hless : lessThan a.text b.text = decide (a.value < b.value) := by
    rw [lessThan_text]
    exact decide_eq_decide.mpr (clamp_lt_iff hends)
  have hgreater : lessThan b.text a.text = decide (b.value < a.value) := by
    rw [lessThan_text]
    exact decide_eq_decide.mpr (clamp_lt_iff fun h => (hends (h.imp And.symm And.symm)).symm)
  refine ⟨fun s₁ s₂ hx hy => ?_, fun s₁ s₂ hy hx => ?_, ?_⟩
  · rw [lessThanIntFn_run hx hy, hless]
  · rw [greaterThanIntFn_run hy hx, hgreater]
  · rw [hless, hgreater]
    rcases lt_trichotomy a.value b.value with h | h | h
    · simp [h, not_lt_of_gt h, h.ne]
    · simp [h]
    · simp [h, not_lt_of_gt h, h.ne']

theorem exists_numeral (sign : Sign) (digits : Bytes) (hne : digits ≠ []) (hdecimal : digits.all (isDigit 10) = true) :
    ∃ n : Numeral, n.text.bytes = sign.text ++ digits ∧
      n.value = if sign = .minus then -(number 10 digits : ℤ) else number 10 digits := by
  refine ⟨⟨sign, digits, hne, List.all_eq_true.mp hdecimal⟩, rfl, ?_⟩
  rw [number_eq_ofDigits]
  rfl

/-- A negative and a positive number. -/
theorem compare_exact_minus_five : ∃ a b : Numeral, a.value = -5 ∧ b.value = 7 ∧
    lessThanIntFn [textArg "-5", textArg "+7"] freshState = .ok (boolValue (a.value < b.value), freshState) := by
  obtain ⟨a, hatext, ha⟩ := exists_numeral .minus (lit "5") (by decide) (by decide)
  obtain ⟨b, hbtext, hb⟩ := exists_numeral .plus (lit "7") (by decide) (by decide)
  have ha : a.value = -5 := ha
  have hb : b.value = 7 := hb
  have hx : evaluate (textArg "-5") freshState = .ok (some a.text, freshState) := by
    rw [show a.text = str "-5" from CString.ext hatext]
    rfl
  have hy : evaluate (textArg "+7") freshState = .ok (some b.text, freshState) := by
    rw [show b.text = str "+7" from CString.ext hbtext]
    rfl
  refine ⟨a, b, ha, hb, ((compare_exact a b _ _ freshState).mpr fun h => ?_).1 freshState freshState hx hy⟩
  rw [ha, hb] at h
  unfold SameEnd at h
  omega

/-- **Times beyond January 2038 are all equal.** -/
theorem beyond_2038 : ∃ a b : Numeral, a.text = str "2147483648" ∧ b.text = str "2147483649" ∧ a.value < b.value ∧
    lessThanIntFn [textArg "2147483648", textArg "2147483649"] freshState = .ok (boolValue false, freshState) ∧
    greaterThanIntFn [textArg "2147483648", textArg "2147483649"] freshState = .ok (boolValue false, freshState) := by
  obtain ⟨a, hatext, ha⟩ := exists_numeral .none (lit "2147483648") (by decide) (by decide)
  obtain ⟨b, hbtext, hb⟩ := exists_numeral .none (lit "2147483649") (by decide) (by decide)
  have ha : a.value = 2147483648 := ha
  have hb : b.value = 2147483649 := hb
  exact ⟨a, b, CString.ext hatext, CString.ext hbtext, by rw [ha, hb]; norm_num, rfl, rfl⟩

end Edify
end Recovery
