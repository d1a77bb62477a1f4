/-
# Checked arrays and rearrangements

`load` and `store` stop outside of an array. `Returns x Q`: a computation ends with a value
for which `Q` holds. A loop that only swaps entries between two positions rearranges them
(`Rearranges A B lo hi`).

Key theorems: `Returns.bind`, `swap_returns`, `Rearranges.bijOn`, `Rearranges.card_filter`.
-/
import Mathlib.Data.List.GetD
import Mathlib.Data.Finset.Card
import Mathlib.Data.Set.Function
import Mathlib.Logic.Equiv.Basic
import Mathlib.Order.Interval.Finset.Nat

namespace Arrays

variable {ε α β : Type}

/-- The computation ends with a value for which `Q` holds. -/
def Returns (x : Except ε α) (Q : α → Prop) : Prop := ∃ a, x = .ok a ∧ Q a

theorem Returns.pure {a : α} {Q : α → Prop} (h : Q a) : Returns (Pure.pure a : Except ε α) Q := ⟨a, rfl, h⟩

theorem Returns.mono {x : Except ε α} {Q R : α → Prop} (h : Returns x Q) (hQ : ∀ a, Q a → R a) : Returns x R := by
  obtain ⟨a, ha, hq⟩ := h
  exact ⟨a, ha, hQ a hq⟩

theorem Returns.bind {x : Except ε α} {f : α → Except ε β} {Q : α → Prop} {R : β → Prop}
    (h : Returns x Q) (hf : ∀ a, Q a → Returns (f a) R) : Returns (x >>= f) R := by
  obtain ⟨a, ha, hq⟩ := h
  rw [ha]
  exact hf a hq

theorem Returns.step {x : Except ε α} {a : α} {f : α → Except ε β} {R : β → Prop}
    (h : x = .ok a) (hf : Returns (f a) R) : Returns (x >>= f) R := by
  rw [h]
  exact hf

/-! ### Loads and stores -/

def store (e : ε) (a : List α) (i : ℤ) (v : α) : Except ε (List α) :=
  if 0 ≤ i ∧ i < a.length then .ok (a.set i.toNat v) else .error e

theorem store_ok {e : ε} {a : List α} {i : ℤ} {k : ℕ} (hi : i = k) (h : k < a.length) (v : α) :
    store e a i v = .ok (a.set k v) := by
  unfold store
  rw [hi, if_pos (by omega), Int.toNat_natCast]

section Checked

variable [Inhabited α] (e : ε)

def val (a : List α) (k : ℕ) : α := a.getD k default

def load (a : List α) (i : ℤ) : Except ε α :=
  if 0 ≤ i ∧ i < a.length then .ok (val a i.toNat) else .error e

def swap (a : List α) (i j : ℕ) : Except ε (List α) := do
  let tmp ← load e a i
  let y ← load e a j
  let a ← store e a i y
  store e a j tmp

variable {e} {a : List α} {i : ℤ} {k : ℕ}

theorem load_ok (hi : i = k) (h : k < a.length) : load e a i = .ok (val a k) := by
  unfold load
  rw [hi, if_pos (by omega), Int.toNat_natCast]

theorem load_mem (h₀ : 0 ≤ i) (h : i < a.length) : load e a i = .ok (val a i.toNat) := if_pos ⟨h₀, h⟩

theorem val_set (h : k < a.length) (v : α) (j : ℕ) : val (a.set k v) j = if j = k then v else val a j := by
  unfold val
  simp only [List.getD_eq_getElem?_getD, List.getElem?_set]
  by_cases hj : j = k
  · subst hj
    simp [h]
  · simp [hj, Ne.symm hj]

theorem val_set_self (h : k < a.length) (v : α) : val (a.set k v) k = v := by rw [val_set h, if_pos rfl]

theorem val_set_of_ne {v : α} {j : ℕ} (hj : j ≠ k) : val (a.set k v) j = val a j := by
  unfold val
  simp [List.getD_eq_getElem?_getD, List.getElem?_set_ne hj.symm]

theorem swap_returns {j : ℕ} (hk : k < a.length) (hj : j < a.length) :
    Returns (swap e a k j) fun b => b.length = a.length ∧ ∀ t, val b t = val a (Equiv.swap k j t) := by
  have hk' : k < (a.set k (val a j)).length := by rwa [List.length_set]
  have hj' : j < (a.set k (val a j)).length := by rwa [List.length_set]
  refine .step (load_ok rfl hk) (.step (load_ok rfl hj) (.step (store_ok rfl hk _) ?_))
  refine ⟨_, store_ok rfl hj' _, by simp, fun t => ?_⟩
  rw [val_set hj', val_set hk, Equiv.swap_apply_def]
  split_ifs <;> simp_all

end Checked

/-! ### Rearrangements -/

/-- `B` has the entries of `A`, with those between `lo` and `hi` in another order. -/
def Rearranges (A B : ℕ → α) (lo hi : ℕ) : Prop :=
  ∃ π : Equiv.Perm ℕ, (∀ k, k < lo ∨ hi ≤ k → π k = k) ∧ ∀ k, B k = A (π k)

namespace Rearranges

variable {A B C : ℕ → α} {lo hi : ℕ}

theorem refl (A : ℕ → α) (lo hi : ℕ) : Rearranges A A lo hi := ⟨Equiv.refl ℕ, fun _ _ => rfl, fun _ => rfl⟩

theorem trans (h : Rearranges A B lo hi) (h' : Rearranges B C lo hi) : Rearranges A C lo hi := by
  obtain ⟨π, hπ, hB⟩ := h
  obtain ⟨ρ, hρ, hC⟩ := h'
  refine ⟨ρ.trans π, fun k hk => ?_, fun k => ?_⟩
  · rw [Equiv.trans_apply, hρ k hk, hπ k hk]
  · rw [hC, hB, Equiv.trans_apply]

theorem mono {lo' hi' : ℕ} (h : Rearranges A B lo hi) (hlo : lo' ≤ lo) (hhi : hi ≤ hi') :
    Rearranges A B lo' hi' := by
  obtain ⟨π, hπ, hB⟩ := h
  exact ⟨π, fun k hk => hπ k (by omega), hB⟩

theorem swap {i j : ℕ} (hi₁ : lo ≤ i) (hi₂ : i < hi) (hj₁ : lo ≤ j) (hj₂ : j < hi) (A : ℕ → α) :
    Rearranges A (fun t => A (Equiv.swap i j t)) lo hi :=
  ⟨Equiv.swap i j, fun k hk => Equiv.swap_apply_of_ne_of_ne (by omega) (by omega), fun _ => rfl⟩

theorem eq_outside (h : Rearranges A B lo hi) {k : ℕ} (hk : k < lo ∨ hi ≤ k) : B k = A k := by
  obtain ⟨π, hπ, hB⟩ := h
  rw [hB, hπ k hk]

theorem perm_mem {π : Equiv.Perm ℕ} (hπ : ∀ k, k < lo ∨ hi ≤ k → π k = k) {k : ℕ} (h₁ : lo ≤ k) (h₂ : k < hi) :
    lo ≤ π k ∧ π k < hi := by
  by_contra hc
  have : π k = k := π.injective (hπ (π k) (by omega))
  omega

theorem exists_old (h : Rearranges A B lo hi) {k : ℕ} (h₁ : lo ≤ k) (h₂ : k < hi) :
    ∃ j, lo ≤ j ∧ j < hi ∧ B k = A j := by
  obtain ⟨π, hπ, hB⟩ := h
  obtain ⟨h₃, h₄⟩ := perm_mem hπ h₁ h₂
  exact ⟨π k, h₃, h₄, hB k⟩

theorem forall_mem (h : Rearranges A B lo hi) (p : α → Prop) (hp : ∀ k, lo ≤ k → k < hi → p (A k)) (k : ℕ)
    (h₁ : lo ≤ k) (h₂ : k < hi) : p (B k) := by
  obtain ⟨j, h₃, h₄, hj⟩ := h.exists_old h₁ h₂
  exact hj ▸ hp j h₃ h₄

theorem bijOn {N : ℕ} {A B : ℕ → ℕ} (h : Rearranges A B lo hi) (hN : hi ≤ N)
    (hA : Set.BijOn A (Set.Iio N) (Set.Iio N)) : Set.BijOn B (Set.Iio N) (Set.Iio N) := by
  obtain ⟨π, hπ, hB⟩ := h.mono (Nat.zero_le lo) hN
  have hπN : Set.BijOn π (Set.Iio N) (Set.Iio N) := by
    refine ⟨fun k hk => (perm_mem hπ (Nat.zero_le k) hk).2, π.injective.injOn, fun k hk => ?_⟩
    refine ⟨π.symm k, ?_, π.apply_symm_apply k⟩
    by_contra hc
    have : k = π.symm k := by rw [← hπ (π.symm k) (.inr (not_lt.mp hc)), Equiv.apply_symm_apply]
    exact hc (this ▸ hk)
  rw [funext hB]
  exact hA.comp hπN

theorem card_filter (h : Rearranges A B lo hi) (p : α → Prop) [DecidablePred p] :
    ((Finset.Ico lo hi).filter fun k => p (B k)).card = ((Finset.Ico lo hi).filter fun k => p (A k)).card := by
  obtain ⟨π, hπ, hB⟩ := h
  refine Finset.card_bij (fun k _ => π k) (fun k hk => ?_) (fun k _ j _ hkj => π.injective hkj) fun k hk => ?_
  · simp only [Finset.mem_filter, Finset.mem_Ico, hB] at hk ⊢
    exact ⟨perm_mem hπ hk.1.1 hk.1.2, hk.2⟩
  · simp only [Finset.mem_filter, Finset.mem_Ico, hB] at hk ⊢
    have hσ : ∀ k, k < lo ∨ hi ≤ k → π.symm k = k := fun k hk => by rw [Equiv.symm_apply_eq, hπ k hk]
    exact ⟨π.symm k, ⟨perm_mem hσ hk.1.1 hk.1.2, by rw [Equiv.apply_symm_apply]; exact hk.2⟩,
      π.apply_symm_apply k⟩

end Rearranges

/-- A set of positions that satisfy a predicate has at most as many as there are. -/
theorem card_le_of_forall {lo hi c : ℕ} {p : ℕ → Prop} [DecidablePred p]
    (hc : ((Finset.Ico lo hi).filter p).card = c) (S : Finset ℕ)
    (hS : ∀ t ∈ S, lo ≤ t ∧ t < hi ∧ p t) : S.card ≤ c := by
  rw [← hc]
  refine Finset.card_le_card fun t ht => ?_
  obtain ⟨h₁, h₂, h₃⟩ := hS t ht
  exact Finset.mem_filter.mpr ⟨Finset.mem_Ico.mpr ⟨h₁, h₂⟩, h₃⟩

end Arrays
