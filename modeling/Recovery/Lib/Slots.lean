/-
# Slots, some of which are skipped

What a store of slots holds is what those that are not skipped hold, one behind the other.
-/
import Mathlib.Data.List.Basic
import Mathlib.Data.Nat.Find
import Mathlib.Logic.Function.Basic
import Mathlib.Tactic.Common

namespace Slots

variable {α : Type} (skip : ℕ → Bool) (slots : ℕ → List α)

def contents (i j : ℕ) : List α := ((List.range' i (j - i)).filter fun b => ! skip b).flatMap slots

/-- The first slot from `i` on that is not skipped. -/
structure IsFirst (i b : ℕ) : Prop where
  le : i ≤ b
  kept : skip b = false
  before : ∀ c, i ≤ c → c < b → skip c = true

variable {skip slots} {i j k b : ℕ}

@[simp] theorem contents_self (i : ℕ) : contents skip slots i i = [] := by simp [contents]

theorem contents_append (hij : i ≤ j) (hjk : j ≤ k) :
    contents skip slots i k = contents skip slots i j ++ contents skip slots j k := by
  obtain ⟨a, rfl⟩ := Nat.exists_eq_add_of_le hij
  obtain ⟨c, rfl⟩ := Nat.exists_eq_add_of_le hjk
  have hsplit : List.range' i (a + c) = List.range' i a ++ List.range' (i + a) c := by
    rw [← List.range'_append, Nat.one_mul]
  simp only [contents, Nat.add_assoc, Nat.add_sub_cancel_left, hsplit, List.filter_append, List.flatMap_append]
  rw [show i + (a + c) - (i + a) = c by omega]

theorem contents_skipped (h : ∀ c, i ≤ c → c < j → skip c = true) : contents skip slots i j = [] := by
  have hnil : (List.range' i (j - i)).filter (fun b => ! skip b) = [] := by
    rw [List.filter_eq_nil_iff]
    intro c hc
    rw [List.mem_range'_1] at hc
    simp [h c hc.1 (by omega)]
  rw [contents, hnil, List.flatMap_nil]

theorem contents_single (h : skip b = false) : contents skip slots b (b + 1) = slots b := by
  simp [contents, h]

theorem contents_first (h : IsFirst skip i b) : contents skip slots i (b + 1) = slots b := by
  rw [contents_append h.le (Nat.le_succ b), contents_skipped h.before, contents_single h.kept, List.nil_append]

theorem exists_first (h : contents skip slots i j ≠ []) : ∃ b, IsFirst skip i b ∧ b < j := by
  classical
  have hex : ∃ c, i ≤ c ∧ c < j ∧ skip c = false := by
    by_contra hno
    refine h (contents_skipped fun c hi hj => ?_)
    by_contra hc
    exact hno ⟨c, hi, hj, by simpa using hc⟩
  refine ⟨Nat.find hex, ⟨(Nat.find_spec hex).1, (Nat.find_spec hex).2.2, fun c hi hc => ?_⟩, (Nat.find_spec hex).2.1⟩
  by_contra hs
  exact Nat.find_min hex hc ⟨hi, Nat.lt_trans hc (Nat.find_spec hex).2.1, by simpa using hs⟩

end Slots
