/-
# C strings

A `CString` holds no NUL, so that what `strlen`, `strcpy` and `strcmp` see of it is all of it.

Key theorems: `strcmp_eq_zero`, `strstr_iff`.
-/
import Mathlib.Data.List.TakeWhile
import Recovery.Zip.Archive

namespace Recovery

open Zip (cstr)

theorem cstr_no_nul (b : Bytes) : 0 ∉ cstr b := by
  intro h
  have := List.mem_takeWhile_imp h
  simp at this

@[ext] structure CString where
  bytes : Bytes
  no_nul : 0 ∉ bytes
  deriving DecidableEq

namespace CString

def of (b : Bytes) : CString := ⟨cstr b, cstr_no_nul b⟩

def empty : CString := ⟨[], List.not_mem_nil⟩

def append (s t : CString) : CString := ⟨s.bytes ++ t.bytes, by simp [s.no_nul, t.no_nul]⟩

def join : List CString → CString
  | [] => empty
  | s :: rest => s.append (join rest)

end CString

def str (s : String) : CString := .of (lit s)

def dec (n : ℤ) : Bytes := lit (toString n)

/-! ### Comparison -/

def strcmp : Bytes → Bytes → ℤ
  | [], [] => 0
  | [], b :: _ => -(b.toNat : ℤ)
  | a :: _, [] => a.toNat
  | a :: as, b :: bs => if a ≠ b then (a.toNat : ℤ) - b.toNat else strcmp as bs

theorem strcmp_eq_zero : ∀ {a b : Bytes}, 0 ∉ a → 0 ∉ b → (strcmp a b = 0 ↔ a = b)
  | [], [], _, _ => by simp [strcmp]
  | [], b :: bs, _, hb => by
    have hne : b ≠ 0 := fun h => hb (h ▸ List.mem_cons_self)
    simpa [strcmp] using fun h => hne (UInt8.toNat_inj.mp h)
  | a :: as, [], ha, _ => by
    have hne : a ≠ 0 := fun h => ha (h ▸ List.mem_cons_self)
    simpa [strcmp] using fun h => hne (UInt8.toNat_inj.mp h)
  | a :: as, b :: bs, ha, hb => by
    have ih : strcmp as bs = 0 ↔ as = bs :=
      strcmp_eq_zero (fun h => ha (List.mem_cons_of_mem _ h)) fun h => hb (List.mem_cons_of_mem _ h)
    rw [strcmp]
    by_cases hab : a = b
    · rw [if_neg (not_not.mpr hab), ih]
      simp [hab]
    · have hne : ¬ (a.toNat : ℤ) - b.toNat = 0 := by
        intro h
        exact hab (UInt8.toNat_inj.mp (by omega))
      rw [if_pos hab]
      simp [hne, hab]

theorem strcmp_swap : ∀ {a b : Bytes}, strcmp a b < 0 ↔ 0 < strcmp b a
  | [], [] => by simp [strcmp]
  | [], b :: bs => by simp [strcmp]
  | a :: as, [] => by
    simp only [strcmp]
    omega
  | a :: as, b :: bs => by
    rw [strcmp, strcmp]
    by_cases hab : a = b
    · rw [if_neg (not_not.mpr hab), if_neg (not_not.mpr hab.symm), strcmp_swap]
    · rw [if_pos hab, if_pos (Ne.symm hab)]
      omega

theorem strcmp_trans : ∀ {a b c : Bytes}, 0 ∉ a → strcmp a b ≤ 0 → strcmp b c ≤ 0 → strcmp a c ≤ 0
  | [], _, [], _, _, _ => by simp [strcmp]
  | [], _, _ :: _, _, _, _ => by simp [strcmp]
  | a :: as, [], c, ha, hab, _ => by
    rw [strcmp] at hab
    exact absurd (UInt8.toNat_inj.mp (by rw [UInt8.toNat_zero]; omega)) fun h : a = 0 => ha (h ▸ List.mem_cons_self)
  | a :: as, b :: bs, [], ha, hab, hbc => by
    simp only [strcmp] at hab hbc ⊢
    split_ifs at hab with hne
    · omega
    · rwa [not_not.mp hne]
  | a :: as, b :: bs, c :: cs, ha, hab, hbc => by
    rw [strcmp] at hab hbc ⊢
    by_cases h₁ : a = b
    · subst h₁
      rw [if_neg (by simp)] at hab
      by_cases h₂ : a = c
      · rw [if_neg (not_not.mpr h₂)] at hbc ⊢
        exact strcmp_trans (fun h => ha (List.mem_cons_of_mem _ h)) hab hbc
      · rwa [if_pos h₂] at hbc ⊢
    · rw [if_pos h₁] at hab
      have hlt : a.toNat ≠ b.toNat := fun h => h₁ (UInt8.toNat_inj.mp h)
      have hac : a.toNat < c.toNat := by
        by_cases h₂ : b = c
        · rw [← h₂]
          omega
        · rw [if_pos h₂] at hbc
          omega
      rw [if_pos fun h => by rw [h] at hac; omega]
      omega

def strstr (haystack needle : Bytes) : Bool :=
  needle.isPrefixOf haystack ||
    match haystack with
    | [] => false
    | _ :: rest => strstr rest needle

theorem strstr_iff {needle : Bytes} : ∀ {haystack : Bytes}, strstr haystack needle = true ↔ needle <:+: haystack
  | [] => by simp [strstr]
  | c :: rest => by
    rw [strstr, Bool.or_eq_true, List.isPrefixOf_iff_prefix, strstr_iff, List.infix_cons_iff]

/-! ### Lines -/

/-- A line, or as much of it as there is room for, and what is behind it. -/
def fgets (size : ℕ) (file : Bytes) : Option (Bytes × Bytes) :=
  if file = [] then none
  else
    let room := file.take (size - 1)
    let line := if 0x0a ∈ room then room.takeWhile (· ≠ 0x0a) ++ [0x0a] else room
    some (line, file.drop line.length)

/-! ### Numbers -/

theorem forall_byte {P : UInt8 → Prop} (h : ∀ n : Fin 256, P (UInt8.ofNat n)) (c : UInt8) : P c := by
  simpa using h ⟨c.toNat, c.toNat_lt⟩

def isspace (c : UInt8) : Bool := c = 0x20 ∨ (0x09 ≤ c ∧ c ≤ 0x0d)

/-- The value of a digit in any base up to 16. -/
def digit (c : UInt8) : Option ℕ :=
  if 0x30 ≤ c ∧ c ≤ 0x39 then some (c.toNat - 0x30)
  else if 0x61 ≤ c ∧ c ≤ 0x66 then some (c.toNat - 0x61 + 10)
  else if 0x41 ≤ c ∧ c ≤ 0x46 then some (c.toNat - 0x41 + 10)
  else none

def isDigit (base : ℕ) (c : UInt8) : Bool := (digit c).any (· < base)

def hexByte (b : UInt8) : Bytes := [UInt8.ofNat (Nat.digitChar (b.toNat / 16)).toNat,
    UInt8.ofNat (Nat.digitChar (b.toNat % 16)).toNat]

def number (base : ℕ) (digits : Bytes) : ℕ := digits.foldl (fun n c => base * n + (digit c).getD 0) 0

/-- White space and a sign, which is true for a minus. -/
def skipSign (s : Bytes) : Bool × Bytes :=
  match s.dropWhile isspace with
  | [] => (false, [])
  | c :: rest => if c = 0x2d then (true, rest) else if c = 0x2b then (false, rest) else (false, c :: rest)

/-- Base 10: the value and the rest, which is all of the string if there is no number. -/
def strtol (s : Bytes) : ℤ × Bytes :=
  let (minus, rest) := skipSign s
  let digits := rest.takeWhile (isDigit 10)
  if digits = [] then (0, s)
  else (max (-2 ^ 31) (min (2 ^ 31 - 1) (if minus then -(number 10 digits : ℤ) else number 10 digits)),
    rest.dropWhile (isDigit 10))

def atoi (s : Bytes) : ℤ := (strtol s).1

/-- What base 0 stands for, and the digits. -/
def detectBase : Bytes → ℕ × Bytes
  | 0x30 :: x :: c :: rest =>
    if (x = 0x78 ∨ x = 0x58) ∧ isDigit 16 c then (16, c :: rest) else (8, 0x30 :: x :: c :: rest)
  | 0x30 :: rest => (8, 0x30 :: rest)
  | s => (10, s)

def strtoul (s : Bytes) : ℤ × Bytes :=
  let (minus, rest) := skipSign s
  let (base, rest) := detectBase rest
  let digits := rest.takeWhile (isDigit base)
  if digits = [] then (0, s)
  else (if 2 ^ 32 ≤ number base digits then 2 ^ 32 - 1 else u32 (if minus then -(number base digits : ℤ) else number base digits),
    rest.dropWhile (isDigit base))

end Recovery
