/-
# Linear probing

A search in a table of `m` slots visits `home`, `home + 1`, ... modulo `m` until it stops. A
slot is chained to a home if only occupied slots lie in front of it.

Key theorems: `exists_first`, `Chained.mono`, `Chained.first`, `first_of_chained`.
-/
import Mathlib.Order.Nat
import Mathlib.Tactic.Common

namespace Probing

variable {m : ℕ} {occ occ' p : ℕ → Prop} {i j : ℕ}

/-- The search from `i` first stops after `d` steps. -/
def First (m : ℕ) (p : ℕ → Prop) (i d : ℕ) : Prop :=
  d < m ∧ p ((i + d) % m) ∧ ∀ k < d, ¬ p ((i + k) % m)

theorem exists_dist (hi : i < m) (hj : j < m) : ∃ d < m, (i + d) % m = j := by
  rcases Nat.lt_or_ge j i with h | h
  · refine ⟨j + m - i, by omega, ?_⟩
    rw [show i + (j + m - i) = j + m by omega, Nat.add_mod_right, Nat.mod_eq_of_lt hj]
  · exact ⟨j - i, by omega, by rw [show i + (j - i) = j by omega, Nat.mod_eq_of_lt hj]⟩

theorem exists_first (hi : i < m) (h : ∃ j < m, p j) : ∃ d, First m p i d := by
  classical
  obtain ⟨j, hj, hp⟩ := h
  obtain ⟨d, hd, rfl⟩ := exists_dist hi hj
  have hex : ∃ d, p ((i + d) % m) := ⟨d, hp⟩
  exact ⟨Nat.find hex, lt_of_le_of_lt (Nat.find_min' hex hp) hd, Nat.find_spec hex, fun k hk => Nat.find_min hex hk⟩

/-- Slot `j` is `d` steps from `i`, and the slots on the way are occupied. -/
def Chained (m : ℕ) (occ : ℕ → Prop) (i j : ℕ) : Prop :=
  ∃ d < m, (i + d) % m = j ∧ ∀ k < d, occ ((i + k) % m)

theorem Chained.mono (h : Chained m occ i j) (hocc : ∀ k, occ k → occ' k) : Chained m occ' i j := by
  obtain ⟨d, hd, hj, hk⟩ := h
  exact ⟨d, hd, hj, fun k hkd => hocc _ (hk k hkd)⟩

theorem Chained.first {d : ℕ} (h : First m p i d) (hfree : ∀ k, ¬ occ k → p k) :
    Chained m occ i ((i + d) % m) :=
  ⟨d, h.1, rfl, fun k hk => by
    by_contra hn
    exact h.2.2 k hk (hfree _ hn)⟩

/-- A search that also stops at free slots finds a wanted one if it is chained to its home. -/
theorem first_of_chained {d : ℕ} (h : First m (fun k => ¬ occ k ∨ p k) i d) (hj : Chained m occ i j) (hp : p j) :
    p ((i + d) % m) := by
  obtain ⟨e, -, rfl, hocc⟩ := hj
  -- the search cannot pass the wanted slot, and stops earlier only at a wanted one
  have hde : d ≤ e := by
    by_contra hlt
    exact h.2.2 e (by omega) (Or.inr hp)
  rcases Nat.eq_or_lt_of_le hde with rfl | hlt
  · exact hp
  · exact h.2.1.resolve_left fun hn => hn (hocc d hlt)

end Probing
