/-
# Little-endian numbers

A natural number as a fixed number of bytes, least significant first, and back.

Key theorems: `ofBytes_toBytes`, `ofBytes_lt`.
-/
import Mathlib.Data.Nat.Digits.Defs
import Mathlib.Tactic.Ring

namespace LittleEndian

def ofBytes : List UInt8 → ℕ
  | [] => 0
  | b :: bs => b.toNat + 256 * ofBytes bs

def toBytes : ℕ → ℕ → List UInt8
  | 0, _ => []
  | w + 1, n => UInt8.ofNat (n % 256) :: toBytes w (n / 256)

@[simp] theorem ofBytes_nil : ofBytes [] = 0 := rfl

@[simp] theorem length_toBytes : ∀ w n : ℕ, (toBytes w n).length = w
  | 0, _ => rfl
  | w + 1, n => by simp [toBytes, length_toBytes w]

theorem ofBytes_toBytes_mod : ∀ w n : ℕ, ofBytes (toBytes w n) = n % 256 ^ w
  | 0, n => by simp [toBytes, Nat.mod_one]
  | w + 1, n => by
    have hb : (UInt8.ofNat (n % 256)).toNat = n % 256 := by
      simp
    simp only [toBytes, ofBytes, hb, ofBytes_toBytes_mod w]
    rw [pow_succ, mul_comm (256 ^ w) 256, Nat.mod_mul]

theorem ofBytes_toBytes {w n : ℕ} (h : n < 256 ^ w) : ofBytes (toBytes w n) = n := by
  rw [ofBytes_toBytes_mod, Nat.mod_eq_of_lt h]

theorem ofBytes_lt : ∀ bs : List UInt8, ofBytes bs < 256 ^ bs.length
  | [] => by simp
  | b :: bs => by
    have h1 := ofBytes_lt bs
    have h2 := b.toNat_lt
    simp only [ofBytes, List.length_cons, pow_succ]
    omega

end LittleEndian
