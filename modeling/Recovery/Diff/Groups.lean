/-
# The suffix sort ends with a list of all suffixes

`I` is read together with a list `A` of all suffixes: where a place is not final, they
agree. `Segs`: a stretch of `I` is made of groups, whose members agree on their first `H`
bytes, and of runs of final places. That is enough for the sort to stay inside its arrays
and to end.

Key definitions: `Block`, `Segs`.
Key theorems: `split_returns`, `scanGroups_returns`.
-/
import Recovery.Diff.SuffixSort
import Mathlib.Algebra.Order.Interval.Finset.SuccPred
import Mathlib.Data.Nat.SuccPred
import Mathlib.Tactic.SplitIfs

namespace Recovery
namespace Diff

open Arrays

/-- The suffixes at `i` and `j` agree on their first `h` bytes, or are the same. -/
def Agree (old : Bytes) (h i j : ℕ) : Prop :=
  i = j ∨ i + h ≤ old.length ∧ j + h ≤ old.length ∧ ∀ d < h, old[i + d]? = old[j + d]?

namespace Agree

variable {old : Bytes} {h i j : ℕ}

theorem room (ha : Agree old h i j) (hij : i ≠ j) : i + h ≤ old.length := (ha.resolve_left hij).1

theorem mono {h' : ℕ} (ha : Agree old h i j) (hh : h' ≤ h) : Agree old h' i j := by
  obtain rfl | ⟨hi, hj, hd⟩ := ha
  · exact .inl rfl
  · exact .inr ⟨by omega, by omega, fun d hd' => hd d (by omega)⟩

theorem double (ha : Agree old h i j) (hb : Agree old h (i + h) (j + h)) : Agree old (h + h) i j := by
  obtain rfl | ⟨hi, hj, hd⟩ := ha
  · exact .inl rfl
  obtain he | ⟨hi', hj', hd'⟩ := hb
  · exact .inl (by omega)
  refine .inr ⟨by omega, by omega, fun d hdh => ?_⟩
  by_cases hdh' : d < h
  · exact hd d hdh'
  · have := hd' (d - h) (by omega)
    rwa [show i + h + (d - h) = i + d by omega, show j + h + (d - h) = j + d by omega] at this

end Agree

variable {old : Bytes} {h H : ℕ} {s s₁ s₂ : Suffixes} {A A₁ A₂ : ℕ → ℕ} {a b lo hi m B : ℕ}

/-- Suffixes with the same number agree on `h` bytes. -/
def Fine (old : Bytes) (h : ℕ) (V : List ℤ) : Prop :=
  ∀ p q, p ≤ old.length → q ≤ old.length → val V p = val V q → Agree old h p q

/-- Runs of final places and groups, whose members agree on `H` bytes. -/
inductive Segs (old : Bytes) (H : ℕ) (s : Suffixes) (A : ℕ → ℕ) : ℕ → ℕ → Prop
  | nil (a : ℕ) : Segs old H s A a a
  | run {a m b : ℕ} (hm : 0 < m) (hI : val s.I a = -m)
      (hV : ∀ t, a ≤ t → t < a + m → val s.V (A t) = t) (rest : Segs old H s A (a + m) b) : Segs old H s A a b
  | group {a c b : ℕ} (hc : a < c)
      (mem : ∀ t, a ≤ t → t < c → val s.I t = A t ∧ val s.V (A t) = (c : ℤ) - 1 ∧ A t + H ≤ old.length)
      (agree : ∀ t u, a ≤ t → t < c → a ≤ u → u < c → Agree old H (A t) (A u))
      (rest : Segs old H s A c b) : Segs old H s A a b

namespace Segs

theorem le (hs : Segs old H s A a b) : a ≤ b := by
  induction hs with
  | nil => exact le_rfl
  | run _ _ _ _ ih => omega
  | group _ _ _ _ ih => omega

theorem append {c : ℕ} (hs : Segs old H s A a b) (ht : Segs old H s A b c) : Segs old H s A a c := by
  induction hs with
  | nil => exact ht
  | run hm hI hV _ ih => exact .run hm hI hV (ih ht)
  | group hc mem agree _ ih => exact .group hc mem agree (ih ht)

theorem mono {H' : ℕ} (hs : Segs old H s A a b) (hH : H' ≤ H) : Segs old H' s A a b := by
  induction hs with
  | nil => exact .nil _
  | run hm hI hV _ ih => exact .run hm hI hV ih
  | group hc mem agree _ ih =>
    refine .group hc (fun t h₁ h₂ => ?_) (fun t u h₁ h₂ h₃ h₄ => (agree t u h₁ h₂ h₃ h₄).mono hH) ih
    obtain ⟨hI, hV, hr⟩ := mem t h₁ h₂
    exact ⟨hI, hV, by omega⟩

/-- Only the places between `a` and `b` and the numbers of their suffixes matter. -/
theorem congr (hs : Segs old H s A a b) (hA : ∀ t, a ≤ t → t < b → A₁ t = A t)
    (hI : ∀ t, a ≤ t → t < b → val s₁.I t = val s.I t)
    (hV : ∀ t, a ≤ t → t < b → val s₁.V (A t) = val s.V (A t)) : Segs old H s₁ A₁ a b := by
  induction hs with
  | nil => exact .nil _
  | @run a m b hm hI' hV' rest ih =>
    have hle := rest.le
    refine .run hm ((hI a le_rfl (by omega)).trans hI') (fun t h₁ h₂ => ?_)
      (ih (fun t h₁ => hA t (by omega)) (fun t h₁ => hI t (by omega)) fun t h₁ => hV t (by omega))
    rw [hA t h₁ (by omega), hV t h₁ (by omega), hV' t h₁ h₂]
  | @group a c b hc mem agree rest ih =>
    have hle := rest.le
    refine .group hc (fun t h₁ h₂ => ?_) (fun t u h₁ h₂ h₃ h₄ => ?_)
      (ih (fun t h₁ => hA t (by omega)) (fun t h₁ => hI t (by omega)) fun t h₁ => hV t (by omega))
    · rw [hA t h₁ (by omega), hI t h₁ (by omega), hV t h₁ (by omega)]
      exact mem t h₁ h₂
    · rw [hA t h₁ (by omega), hA u h₃ (by omega)]
      exact agree t u h₁ h₂ h₃ h₄

theorem number_mem (hs : Segs old H s A a b) (t : ℕ) (h₁ : a ≤ t) (h₂ : t < b) :
    (t : ℤ) ≤ val s.V (A t) ∧ val s.V (A t) < b := by
  induction hs with
  | nil => omega
  | @run a m b hm hI hV rest ih =>
    have hle := rest.le
    by_cases ht : t < a + m
    · have := hV t h₁ ht
      omega
    · exact ih (by omega) h₂
  | @group a c b hc mem agree rest ih =>
    have hle := rest.le
    by_cases ht : t < c
    · have := (mem t h₁ ht).2.1
      omega
    · exact ih (by omega) h₂

theorem agree_of_number (hs : Segs old H s A a b) (t u : ℕ) (ht₁ : a ≤ t) (ht₂ : t < b) (hu₁ : a ≤ u) (hu₂ : u < b)
    (hV : val s.V (A t) = val s.V (A u)) : Agree old H (A t) (A u) := by
  induction hs with
  | nil => omega
  | @run a m b hm hI hfin rest ih =>
    by_cases ht : t < a + m
    · have htV := hfin t ht₁ ht
      by_cases hu : u < a + m
      · have huV := hfin u hu₁ hu
        exact .inl (congrArg A (by omega))
      · have := rest.number_mem u (by omega) hu₂
        omega
    · by_cases hu : u < a + m
      · have huV := hfin u hu₁ hu
        have := rest.number_mem t (by omega) ht₂
        omega
      · exact ih (by omega) ht₂ (by omega) hu₂
  | @group a c b hc mem agree rest ih =>
    by_cases ht : t < c
    · have htV := (mem t ht₁ ht).2.1
      by_cases hu : u < c
      · exact agree t u ht₁ ht hu₁ hu
      · have := rest.number_mem u (by omega) hu₂
        omega
    · by_cases hu : u < c
      · have huV := (mem u hu₁ hu).2.1
        have := rest.number_mem t (by omega) ht₂
        omega
      · exact ih (by omega) ht₂ (by omega) hu₂

end Segs

/-- The arrays have their sizes, and `A` lists all suffixes. -/
structure Lists (old : Bytes) (s : Suffixes) (A : ℕ → ℕ) : Prop where
  lenI : s.I.length = old.length + 1
  lenV : s.V.length = old.length + 1
  bij : Set.BijOn A (Set.Iio (old.length + 1)) (Set.Iio (old.length + 1))

namespace Lists

theorem lt (hl : Lists old s A) {t : ℕ} (ht : t < old.length + 1) : A t < old.length + 1 := hl.bij.mapsTo ht

theorem inj (hl : Lists old s A) {t u : ℕ} (ht : t < old.length + 1) (hu : u < old.length + 1) (h : A t = A u) :
    t = u := hl.bij.injOn ht hu h

theorem onto (hl : Lists old s A) {p : ℕ} (hp : p ≤ old.length) : ∃ t, t < old.length + 1 ∧ A t = p :=
  hl.bij.surjOn (Nat.lt_succ_of_le hp)

end Lists

theorem Segs.fine (hs : Segs old H s A 0 (old.length + 1)) (hl : Lists old s A) : Fine old H s.V := by
  intro p q hp hq hV
  obtain ⟨t, ht, rfl⟩ := hl.onto hp
  obtain ⟨u, hu, rfl⟩ := hl.onto hq
  exact hs.agree_of_number t u (Nat.zero_le _) ht (Nat.zero_le _) hu hV

/-- The suffixes from `lo` to `hi` have the number `B`, and no other one has a number from there. -/
structure Block (old : Bytes) (h : ℕ) (s : Suffixes) (A : ℕ → ℕ) (lo hi B : ℕ) : Prop extends Lists old s A where
  hi_le : hi ≤ old.length + 1
  entry : ∀ t, lo ≤ t → t < hi → val s.I t = A t
  room : ∀ t, lo ≤ t → t < hi → A t + h ≤ old.length
  same : ∀ t, lo ≤ t → t < hi → val s.V (A t) = B
  unused : ∀ p, p ≤ old.length → (lo : ℤ) ≤ val s.V p → val s.V p < hi → val s.V p = B
  fine : Fine old h s.V

/-- The suffixes from `lo` to `hi` are divided by `h` more bytes. -/
structure Divided (old : Bytes) (h : ℕ) (s : Suffixes) (A : ℕ → ℕ) (lo hi : ℕ) (s₁ : Suffixes) (A₁ : ℕ → ℕ) : Prop
    extends Lists old s₁ A₁ where
  order : Rearranges A A₁ lo hi
  I_outside : ∀ t, t < lo ∨ hi ≤ t → val s₁.I t = val s.I t
  V_outside : ∀ p, (∀ t, lo ≤ t → t < hi → A t ≠ p) → val s₁.V p = val s.V p
  segs : Segs old (h + h) s₁ A₁ lo hi
  fine : Fine old h s₁.V

namespace Divided

theorem V_of_outside (hd : Divided old h s A lo hi s₁ A₁) (hl : Lists old s A) (hhi : hi ≤ old.length + 1) {t : ℕ}
    (ht : t < lo ∨ hi ≤ t) (htn : t < old.length + 1) : val s₁.V (A t) = val s.V (A t) := by
  refine hd.V_outside _ fun u h₁ h₂ he => ?_
  have := hl.inj (by omega) htn he
  omega

theorem trans (hd : Divided old h s A lo m s₁ A₁) (he : Divided old h s₁ A₁ m hi s₂ A₂) (hhi : hi ≤ old.length + 1) :
    Divided old h s A lo hi s₂ A₂ where
  toLists := he.toLists
  order := (hd.order.mono le_rfl he.segs.le).trans (he.order.mono hd.segs.le le_rfl)
  I_outside t ht := by
    have := hd.segs.le
    have := he.segs.le
    rw [he.I_outside t (by omega), hd.I_outside t (by omega)]
  V_outside p hp := by
    have := hd.segs.le
    have := he.segs.le
    rw [he.V_outside p fun t h₁ h₂ => ?_, hd.V_outside p fun t h₁ h₂ => hp t h₁ (by omega)]
    rw [hd.order.eq_outside (.inr h₁)]
    exact hp t (by omega) h₂
  segs := by
    have := he.segs.le
    refine (hd.segs.congr (fun t h₁ h₂ => he.order.eq_outside (.inl h₂)) (fun t h₁ h₂ => he.I_outside t (.inl h₂))
      fun t h₁ h₂ => he.V_of_outside hd.toLists hhi (.inl h₂) (by omega)).append he.segs
  fine := he.fine

end Divided

namespace Block

theorem first (hb : Block old h s A lo hi B) (hm : m ≤ hi) : Block old h s A lo m B where
  toLists := hb.toLists
  hi_le := hm.trans hb.hi_le
  entry t h₁ h₂ := hb.entry t h₁ (by omega)
  room t h₁ h₂ := hb.room t h₁ (by omega)
  same t h₁ h₂ := hb.same t h₁ (by omega)
  unused p hp h₁ h₂ := hb.unused p hp h₁ (by omega)
  fine := hb.fine

theorem rest (hb : Block old h s A lo hi B) (hm : m ≤ hi) (hd : Divided old h s A lo m s₁ A₁) :
    Block old h s₁ A₁ m hi B where
  toLists := hd.toLists
  hi_le := hb.hi_le
  entry t h₁ h₂ := by
    have := hd.segs.le
    rw [hd.I_outside t (.inr h₁), hd.order.eq_outside (.inr h₁), hb.entry t (by omega) h₂]
  room t h₁ h₂ := by
    have := hd.segs.le
    rw [hd.order.eq_outside (.inr h₁)]
    exact hb.room t (by omega) h₂
  same t h₁ h₂ := by
    have := hd.segs.le
    have := hb.hi_le
    rw [hd.order.eq_outside (.inr h₁), hd.V_of_outside hb.toLists (by omega) (.inr h₁) (by omega)]
    exact hb.same t (by omega) h₂
  unused p hp h₁ h₂ := by
    have := hd.segs.le
    have := hb.hi_le
    obtain ⟨t, ht, rfl⟩ := hd.onto hp
    -- a suffix of the first part has a number below `m`
    by_cases hin : lo ≤ t ∧ t < m
    · have := (hd.segs.number_mem t hin.1 hin.2).2
      omega
    · have he : A₁ t = A t := hd.order.eq_outside (by omega)
      rw [he] at h₁ h₂ hp ⊢
      rw [hd.V_of_outside hb.toLists (by omega) (by omega) ht] at h₁ h₂ ⊢
      exact hb.unused _ hp (by omega) h₂
  fine := hd.fine

theorem agree (hb : Block old h s A lo hi B) {t u : ℕ} (ht₁ : lo ≤ t) (ht₂ : t < hi) (hu₁ : lo ≤ u) (hu₂ : u < hi)
    (hkey : val s.V (A t + h) = val s.V (A u + h)) : Agree old (h + h) (A t) (A u) := by
  have ht := hb.room t ht₁ ht₂
  have hu := hb.room u hu₁ hu₂
  refine (hb.fine _ _ (by omega) (by omega) ?_).double (hb.fine _ _ ht hu hkey)
  rw [hb.same t ht₁ ht₂, hb.same u hu₁ hu₂]

end Block

/-! ### A new group -/

theorem number_returns {I : List ℤ} {v : ℤ} : ∀ (j k : ℕ) (V : List ℤ),
    (∀ t, k ≤ t → t < k + j → t < I.length ∧ val I t = A t ∧ A t < V.length) →
    Returns (number I v j k V) fun V' => V'.length = V.length ∧
      (∀ t, k ≤ t → t < k + j → val V' (A t) = v) ∧
      ∀ p, (∀ t, k ≤ t → t < k + j → A t ≠ p) → val V' p = val V p
  | 0, k, V, _ => .pure ⟨rfl, fun t h₁ h₂ => by omega, fun _ _ => rfl⟩
  | j + 1, k, V, hmem => by
    obtain ⟨hk, hI, hV⟩ := hmem k le_rfl (by omega)
    refine .step (load_ok rfl hk) (.step (store_ok hI hV _) ?_)
    refine (number_returns j (k + 1) (V.set (A k) v) fun t h₁ h₂ => ?_).mono fun V' hV' => ?_
    · simpa using hmem t (by omega) (by omega)
    obtain ⟨hlen, hin, hout⟩ := hV'
    have hset : val (V.set (A k) v) (A k) = v := val_set_self hV v
    refine ⟨by simpa using hlen, fun t h₁ h₂ => ?_, fun p hp => ?_⟩
    · by_cases ht : ∃ u, k + 1 ≤ u ∧ u < k + 1 + j ∧ A u = A t
      · obtain ⟨u, hu₁, hu₂, hu⟩ := ht
        exact hu ▸ hin u hu₁ hu₂
      · have htk : t = k := by
          by_contra hne
          exact ht ⟨t, by omega, by omega, rfl⟩
        rw [hout (A t) fun u hu₁ hu₂ hu => ht ⟨u, hu₁, hu₂, hu⟩, htk, hset]
    · rw [hout p fun t h₁ h₂ => hp t (by omega) (by omega), val_set_of_ne (hp k le_rfl (by omega)).symm]

/-- `settle` turns a block whose members agree into a group, or into a final place. -/
theorem settle_returns (hb : Block old h s A lo hi B) (hlt : lo < hi)
    (hagree : ∀ t u, lo ≤ t → t < hi → lo ≤ u → u < hi → Agree old (h + h) (A t) (A u)) :
    Returns (settle lo (hi - lo) s) fun s₁ => Divided old h s A lo hi s₁ A := by
  have hhi := hb.hi_le
  have hv : ((lo : ℤ) + (hi - lo : ℕ) - 1) = (hi : ℤ) - 1 := by omega
  unfold settle
  rw [hv]
  refine (number_returns (A := A) (hi - lo) lo s.V fun t h₁ h₂ => ?_).bind fun V hV => ?_
  · exact ⟨by rw [hb.lenI]; omega, hb.entry t h₁ (by omega), by rw [hb.lenV]; exact hb.lt (by omega)⟩
  rw [show lo + (hi - lo) = hi by omega] at hV
  obtain ⟨hlen, hin, hout⟩ := hV
  -- whichever way the place is marked, the numbers are fine
  have hfine : Fine old h V := by
    intro p q hp hq hpq
    -- the number a suffix had: the block's, if it now has the last place of it
    have hwas : ∀ p, p ≤ old.length → val V p = (hi : ℤ) - 1 → val s.V p = B := by
      intro p hp hVp
      by_cases hmem : ∃ t, lo ≤ t ∧ t < hi ∧ A t = p
      · obtain ⟨t, h₁, h₂, rfl⟩ := hmem
        exact hb.same t h₁ h₂
      · rw [hout p fun t h₁ h₂ he => hmem ⟨t, h₁, h₂, he⟩] at hVp
        exact hb.unused p hp (by omega) (by omega)
    apply hb.fine p q hp hq
    by_cases hVp : val V p = (hi : ℤ) - 1
    · rw [hwas p hp hVp, hwas q hq (hpq ▸ hVp)]
    · have hpout : ∀ t, lo ≤ t → t < hi → A t ≠ p := fun t h₁ h₂ he => hVp (he ▸ hin t h₁ h₂)
      have hqout : ∀ t, lo ≤ t → t < hi → A t ≠ q := fun t h₁ h₂ he => hVp (hpq.trans (he ▸ hin t h₁ h₂))
      rw [← hout p hpout, ← hout q hqout, hpq]
  by_cases hone : hi - lo = 1
  · rw [if_pos hone]
    have hlo : lo < s.I.length := by rw [hb.lenI]; omega
    refine .step (store_ok rfl hlo _) (.pure ?_)
    refine ⟨⟨by simpa using hb.lenI, hlen.trans hb.lenV, hb.bij⟩, .refl _ _ _, fun t ht => ?_, hout, ?_, hfine⟩
    · exact val_set_of_ne (by omega)
    · refine .run (m := 1) one_pos (by rw [val_set_self hlo]; rfl) (fun t h₁ h₂ => ?_) ?_
      · show val V (A t) = t
        rw [hin t h₁ (by omega)]
        omega
      · rw [show hi = lo + 1 by omega]
        exact .nil _
  · rw [if_neg hone]
    refine .pure ⟨⟨hb.lenI, hlen.trans hb.lenV, hb.bij⟩, .refl _ _ _, fun _ _ => rfl, hout, ?_, hfine⟩
    refine .group hlt (fun t h₁ h₂ => ⟨hb.entry t h₁ h₂, hin t h₁ h₂, ?_⟩) hagree (.nil _)
    -- two different suffixes agree, so neither ends within these bytes
    have hother : ∃ u, lo ≤ u ∧ u < hi ∧ u ≠ t := by
      by_cases ht : t = lo
      · exact ⟨lo + 1, by omega, by omega, by omega⟩
      · exact ⟨lo, le_rfl, hlt, Ne.symm ht⟩
    obtain ⟨u, hu₁, hu₂, hut⟩ := hother
    exact (hagree t u h₁ h₂ hu₁ hu₂).room fun he => hut (hb.inj (by omega) (by omega) he.symm)

/-! ### The loops that only swap -/

/-- `I` lists `A` from `lo` to `hi`, and all keys there can be read. -/
structure Members (V : List ℤ) (h : ℕ) (I : List ℤ) (A : ℕ → ℕ) (lo hi : ℕ) : Prop where
  le : hi ≤ I.length
  entry : ∀ t, lo ≤ t → t < hi → val I t = A t
  room : ∀ t, lo ≤ t → t < hi → A t + h < V.length

/-- The members are the same in another order, and the rest of the list is as before. -/
structure Permuted (V : List ℤ) (h : ℕ) (I : List ℤ) (A : ℕ → ℕ) (lo hi : ℕ) (I₁ : List ℤ) (A₁ : ℕ → ℕ) : Prop
    extends Members V h I₁ A₁ lo hi where
  len : I₁.length = I.length
  order : Rearranges A A₁ lo hi
  outside : ∀ t, t < lo ∨ hi ≤ t → val I₁ t = val I t

section Swaps

variable {V I I₁ I₂ : List ℤ} {x : ℤ}

theorem Permuted.refl (hm : Members V h I A lo hi) : Permuted V h I A lo hi I A :=
  ⟨hm, rfl, .refl _ _ _, fun _ _ => rfl⟩

theorem Permuted.trans (hp : Permuted V h I A lo hi I₁ A₁) (hq : Permuted V h I₁ A₁ lo hi I₂ A₂) :
    Permuted V h I A lo hi I₂ A₂ :=
  ⟨hq.toMembers, hq.len.trans hp.len, hp.order.trans hq.order, fun t ht => (hq.outside t ht).trans (hp.outside t ht)⟩

theorem Members.key (hm : Members V h I A lo hi) {t : ℕ} (h₁ : lo ≤ t) (h₂ : t < hi) :
    key V h I t = .ok (val V (A t + h)) := by
  have ht : t < I.length := lt_of_lt_of_le h₂ hm.le
  unfold Diff.key
  rw [load_ok rfl ht, ok_bind, hm.entry t h₁ h₂]
  exact load_ok (by push_cast; rfl) (hm.room t h₁ h₂)

theorem Members.swap (hm : Members V h I A lo hi) {i j : ℕ} (hi₁ : lo ≤ i) (hi₂ : i < hi) (hj₁ : lo ≤ j) (hj₂ : j < hi) :
    Returns (swap Stop.fault I i j) fun I₁ => Permuted V h I A lo hi I₁ fun t => A (Equiv.swap i j t) := by
  have hle := hm.le
  refine (swap_returns (by omega) (by omega)).mono fun I₁ hI => ?_
  have hord := Rearranges.swap hi₁ hi₂ hj₁ hj₂ A
  refine ⟨⟨by omega, fun t h₁ h₂ => ?_, hord.forall_mem (fun p => p + h < V.length) hm.room⟩, hI.1, hord, fun t ht => ?_⟩
  · have hfix : ∀ k, k < lo ∨ hi ≤ k → Equiv.swap i j k = k := fun k hk =>
      Equiv.swap_apply_of_ne_of_ne (by omega) (by omega)
    obtain ⟨h₃, h₄⟩ := Rearranges.perm_mem hfix h₁ h₂
    rw [hI.2, hm.entry _ h₃ h₄]
  · rw [hI.2, Equiv.swap_apply_of_ne_of_ne (by omega) (by omega)]

theorem gather_returns {k : ℕ} : ∀ (n i j : ℕ) (x : ℤ) (I : List ℤ) (A : ℕ → ℕ),
    Members V h I A k (k + i + n) → 1 ≤ j → j ≤ i → (∀ t, k ≤ t → t < k + j → val V (A t + h) = x) →
    Returns (gather V h k n i j x I) fun r => ∃ A₁, Permuted V h I A k (k + i + n) r.2 A₁ ∧
      1 ≤ r.1 ∧ k + r.1 ≤ k + i + n ∧ ∃ x, ∀ t, k ≤ t → t < k + r.1 → val V (A₁ t + h) = x
  | 0, i, j, x, I, A, hm, hj, hji, hx => .pure ⟨A, .refl hm, hj, by simp only; omega, x, hx⟩
  | n + 1, i, j, x, I, A, hm, hj, hji, hx => by
    -- one more member is looked at, and the list `I₁` behind it is gathered on
    have hgo : ∀ {I₁ : List ℤ} {A₁ : ℕ → ℕ} (j' : ℕ) (x' : ℤ), Permuted V h I A k (k + i + (n + 1)) I₁ A₁ →
        1 ≤ j' → j' ≤ i + 1 → (∀ t, k ≤ t → t < k + j' → val V (A₁ t + h) = x') →
        Returns (gather V h k n (i + 1) j' x' I₁) fun r => ∃ A₂, Permuted V h I A k (k + i + (n + 1)) r.2 A₂ ∧
          1 ≤ r.1 ∧ k + r.1 ≤ k + i + (n + 1) ∧ ∃ x, ∀ t, k ≤ t → t < k + r.1 → val V (A₂ t + h) = x := by
      intro I₁ A₁ j' x' hp h₁ h₂ h₃
      have hsum : k + i + (n + 1) = k + (i + 1) + n := by omega
      rw [hsum] at hp ⊢
      refine (gather_returns n (i + 1) j' x' I₁ A₁ hp.toMembers h₁ h₂ h₃).mono fun r hr => ?_
      obtain ⟨A₂, hq, hrest⟩ := hr
      exact ⟨A₂, hp.trans hq, hrest⟩
    refine .step (hm.key (by omega) (by omega)) ?_
    by_cases hlt : val V (A (k + i) + h) < x
    · rw [if_pos hlt]
      refine (hm.swap le_rfl (by omega) (by omega) (by omega)).bind fun I₁ hp => hgo 1 _ hp le_rfl (by omega) ?_
      intro t h₁ h₂
      rw [show t = k by omega, Equiv.swap_apply_left]
    · rw [if_neg hlt]
      by_cases heq : val V (A (k + i) + h) = x
      · rw [if_pos heq]
        refine (hm.swap (by omega) (by omega) (by omega) (by omega)).bind fun I₁ hp =>
          hgo (j + 1) x hp (by omega) (by omega) fun t h₁ h₂ => ?_
        by_cases htj : t = k + j
        · rw [htj, Equiv.swap_apply_left, heq]
        · rw [Equiv.swap_apply_of_ne_of_ne htj (by omega)]
          exact hx t h₁ (by omega)
      · rw [if_neg heq]
        exact hgo j x (.refl hm) hj (by omega) hx

end Swaps

theorem Block.members (hb : Block old h s A lo hi B) : Members s.V h s.I A lo hi where
  le := hb.lenI ▸ hb.hi_le
  entry := hb.entry
  room t h₁ h₂ := by
    have := hb.room t h₁ h₂
    rw [hb.lenV]
    omega

theorem Block.permuted {I₁ : List ℤ} (hb : Block old h s A lo hi B) (hp : Permuted s.V h s.I A lo hi I₁ A₁) :
    Block old h ⟨I₁, s.V⟩ A₁ lo hi B where
  lenI := hp.len.trans hb.lenI
  lenV := hb.lenV
  bij := hp.order.bijOn hb.hi_le hb.bij
  hi_le := hb.hi_le
  entry := hp.entry
  room := hp.order.forall_mem (fun p => p + h ≤ old.length) hb.room
  same := hp.order.forall_mem (fun p => val s.V p = B) hb.same
  unused := hb.unused
  fine := hb.fine

theorem Divided.of_permuted {I₁ : List ℤ} (hp : Permuted s.V h s.I A lo hi I₁ A₁)
    (hd : Divided old h ⟨I₁, s.V⟩ A₁ lo hi s₂ A₂) : Divided old h s A lo hi s₂ A₂ where
  toLists := hd.toLists
  order := hp.order.trans hd.order
  I_outside t ht := (hd.I_outside t ht).trans (hp.outside t ht)
  V_outside p hout := hd.V_outside p (hp.order.forall_mem (· ≠ p) hout)
  segs := hd.segs
  fine := hd.fine

theorem splitSmall_returns : ∀ (n k : ℕ) (s : Suffixes) (A : ℕ → ℕ), Block old h s A k hi B → k ≤ hi → hi - k < n →
    Returns (splitSmall h hi n k s) fun s₁ => ∃ A₁, Divided old h s A k hi s₁ A₁
  | 0, _, _, _, _, _, hn => by omega
  | n + 1, k, s, A, hb, hk, hn => by
    unfold splitSmall
    by_cases hlt : k < hi
    · rw [if_pos hlt]
      have hm := hb.members
      refine .step (hm.key le_rfl hlt) ?_
      have hsum : k + 1 + (hi - (k + 1)) = hi := by omega
      have hgather := gather_returns (V := s.V) (h := h) (k := k) (hi - (k + 1)) 1 1 (val s.V (A k + h)) s.I A
        (by rwa [hsum]) le_rfl le_rfl (fun t h₁ h₂ => by rw [show t = k by omega])
      rw [hsum] at hgather
      refine hgather.bind fun r hr => ?_
      obtain ⟨A₁, hp, hj, hle, x, hx⟩ := hr
      have hb₁ := hb.permuted hp
      have hsettle := settle_returns (hb₁.first hle) (by omega) fun t u ht₁ ht₂ hu₁ hu₂ =>
        hb₁.agree ht₁ (by omega) hu₁ (by omega) ((hx t ht₁ ht₂).trans (hx u hu₁ hu₂).symm)
      rw [Nat.add_sub_cancel_left] at hsettle
      refine hsettle.bind fun s₁ hd => ?_
      refine (splitSmall_returns n (k + r.1) s₁ A₁ (hb₁.rest hle hd) hle (by omega)).mono fun s₂ hs₂ => ?_
      obtain ⟨A₂, he⟩ := hs₂
      exact ⟨A₂, (hd.trans he hb.hi_le).of_permuted hp⟩
    · rw [if_neg hlt]
      obtain rfl : k = hi := by omega
      exact .pure ⟨A, hb.toLists, .refl _ _ _, fun _ _ => rfl, fun _ _ => rfl, .nil _, hb.fine⟩

/-! ### The partition of a large group -/

section Partition

variable {V I : List ℤ} {x : ℤ} {jj kk i j k : ℕ}

theorem card_filter_Ico (lo : ℕ) {p : ℕ → Prop} [DecidablePred p] (hlt : lo < hi) :
    ((Finset.Ico lo hi).filter p).card = (if p lo then 1 else 0) + ((Finset.Ico (lo + 1) hi).filter p).card := by
  rw [← Finset.insert_Ico_add_one_left_eq_Ico hlt, Finset.filter_insert]
  split_ifs
  · rw [Finset.card_insert_of_notMem (by simp), add_comm]
  · rw [zero_add]

theorem countKeys_returns (hm : Members s.V h s.I A lo hi) : ∀ (n i jj kk : ℕ), lo ≤ i → i + n = hi →
    countKeys s h x n i jj kk = .ok (jj + ((Finset.Ico i hi).filter fun t => val s.V (A t + h) < x).card,
      kk + ((Finset.Ico i hi).filter fun t => val s.V (A t + h) = x).card)
  | 0, i, jj, kk, _, hn => by
    obtain rfl : i = hi := by omega
    simp [countKeys, pure, Except.pure]
  | n + 1, i, jj, kk, hi₁, hn => by
    unfold countKeys
    rw [hm.key hi₁ (by omega), ok_bind, countKeys_returns hm n (i + 1) _ _ (by omega) (by omega)]
    rw [card_filter_Ico i (by omega), card_filter_Ico i (by omega)]
    congr 2
    · split_ifs <;> omega
    · split_ifs <;> omega

/-- The keys below `i` are smaller than the pivot, `j` and `k` places are filled from `jj`
and `kk` on. -/
structure Parted (V : List ℤ) (h : ℕ) (x : ℤ) (lo jj kk hi : ℕ) (A : ℕ → ℕ) (i j k : ℕ) : Prop where
  less : ∀ t, lo ≤ t → t < i → val V (A t + h) < x
  equal : ∀ t, jj ≤ t → t < jj + j → val V (A t + h) = x
  more : ∀ t, kk ≤ t → t < kk + k → x < val V (A t + h)
  i_le : lo ≤ i ∧ i ≤ jj
  j_le : jj + j ≤ kk
  k_le : kk + k ≤ hi
  cardLess : ((Finset.Ico lo hi).filter fun t => val V (A t + h) < x).card = jj - lo
  cardEqual : ((Finset.Ico lo hi).filter fun t => val V (A t + h) = x).card = kk - jj
  cardMore : ((Finset.Ico lo hi).filter fun t => x < val V (A t + h)).card = hi - kk

namespace Parted

theorem room {P : ℕ → Prop} [DecidablePred P] {n a b t : ℕ}
    (hcard : ((Finset.Ico lo hi).filter P).card = n) (ha : lo ≤ a) (hb : b ≤ hi)
    (hfilled : ∀ u, a ≤ u → u < b → P u) (hlo : lo ≤ t) (hhi : t < hi) (hout : t < a ∨ b ≤ t) (ht : P t) : b - a < n := by
  have hle := card_le_of_forall hcard (insert t (Finset.Ico a b)) fun u hu => by
    rcases Finset.mem_insert.mp hu with rfl | hu
    · exact ⟨hlo, hhi, ht⟩
    · have hu := Finset.mem_Ico.mp hu
      exact ⟨by omega, by omega, hfilled u hu.1 hu.2⟩
  rw [Finset.card_insert_of_notMem (by simp; omega), Nat.card_Ico] at hle
  omega

/-- A member with the pivot's key that is not in its place yet: there is a place for it. -/
theorem equal_lt (hp : Parted V h x lo jj kk hi A i j k) {t : ℕ} (h₁ : lo ≤ t) (h₂ : t < jj)
    (hx : val V (A t + h) = x) : jj + j < kk := by
  have hj := hp.j_le
  have hk := hp.k_le
  have hroom := room hp.cardEqual (by omega) (by omega) hp.equal h₁ (by omega) (.inl h₂) hx
  omega

theorem more_lt (hp : Parted V h x lo jj kk hi A i j k) {t : ℕ} (h₁ : lo ≤ t) (h₂ : t < kk)
    (hx : x < val V (A t + h)) : kk + k < hi := by
  have hio := hp.i_le
  have hj := hp.j_le
  have hk := hp.k_le
  have hroom := room hp.cardMore (by omega) (by omega) hp.more h₁ (by omega) (.inl h₂) hx
  omega

theorem not_less (hp : Parted V h x lo jj kk hi A jj j k) {t : ℕ} (h₁ : jj ≤ t) (h₂ : t < hi) :
    ¬ val V (A t + h) < x := by
  intro hx
  have hio := hp.i_le
  have hroom := room hp.cardLess le_rfl (by omega) hp.less (by omega) h₂ (.inr h₁) hx
  omega

theorem swapped (hp : Parted V h x lo jj kk hi A i j k) {a b j' k' : ℕ}
    (ha : lo ≤ a ∧ a < hi) (hb : lo ≤ b ∧ b < hi) (hai : i ≤ a) (hbi : i ≤ b)
    (hj : jj + j' ≤ kk) (hk : kk + k' ≤ hi)
    (hequal : ∀ t, jj ≤ t → t < jj + j' → val V (A (Equiv.swap a b t) + h) = x)
    (hmore : ∀ t, kk ≤ t → t < kk + k' → x < val V (A (Equiv.swap a b t) + h)) :
    Parted V h x lo jj kk hi (fun t => A (Equiv.swap a b t)) i j' k' := by
  have hord := Rearranges.swap ha.1 ha.2 hb.1 hb.2 A
  refine ⟨fun t h₁ h₂ => ?_, hequal, hmore, hp.i_le, hj, hk, ?_, ?_, ?_⟩
  · rw [Equiv.swap_apply_of_ne_of_ne (by omega) (by omega)]
    exact hp.less t h₁ h₂
  · exact (hord.card_filter fun p => val V (p + h) < x).trans hp.cardLess
  · exact (hord.card_filter fun p => val V (p + h) = x).trans hp.cardEqual
  · exact (hord.card_filter fun p => x < val V (p + h)).trans hp.cardMore

theorem moveMore (hp : Parted V h x lo jj kk hi A i j k) {a : ℕ} (hai : i ≤ a) (hak : a < kk) (haj : a < jj ∨ jj + j ≤ a)
    (hx : x < val V (A a + h)) : Parted V h x lo jj kk hi (fun t => A (Equiv.swap a (kk + k) t)) i j (k + 1) := by
  have hio := hp.i_le
  have hj := hp.j_le
  have hk := hp.k_le
  have hroom := hp.more_lt (by omega) hak hx
  refine hp.swapped (by omega) (by omega) hai (by omega) hj (by omega) (fun t h₁ h₂ => ?_) fun t h₁ h₂ => ?_
  · rw [Equiv.swap_apply_of_ne_of_ne (by omega) (by omega)]
    exact hp.equal t h₁ h₂
  · by_cases ht : t = kk + k
    · rw [ht, Equiv.swap_apply_right]
      exact hx
    · rw [Equiv.swap_apply_of_ne_of_ne (by omega) ht]
      exact hp.more t h₁ (by omega)

end Parted

theorem partLess_returns : ∀ (n i j k : ℕ) (I : List ℤ) (A : ℕ → ℕ), Members V h I A lo hi →
    Parted V h x lo jj kk hi A i j k → (jj - i) + (kk - (jj + j)) + (hi - (kk + k)) < n →
    Returns (partLess V h x jj kk n i j k I) fun r => ∃ A₁, Permuted V h I A lo hi r.2.2 A₁ ∧
      Parted V h x lo jj kk hi A₁ jj r.1 r.2.1
  | 0, _, _, _, _, _, _, _, hn => by omega
  | n + 1, i, j, k, I, A, hm, hp, hn => by
    have hio := hp.i_le
    have hj := hp.j_le
    have hk := hp.k_le
    unfold partLess
    by_cases hlt : i < jj
    · rw [if_pos hlt]
      refine .step (hm.key hio.1 (by omega)) ?_
      by_cases hless : val V (A i + h) < x
      · rw [if_pos hless]
        refine partLess_returns n (i + 1) j k I A hm { hp with less := fun t h₁ h₂ => ?_, i_le := by omega } (by omega)
        by_cases ht : t = i
        · exact ht ▸ hless
        · exact hp.less t h₁ (by omega)
      rw [if_neg hless]
      by_cases hequal : val V (A i + h) = x
      · rw [if_pos hequal]
        have hroom := hp.equal_lt hio.1 hlt hequal
        refine (hm.swap hio.1 (by omega) (by omega) (by omega)).bind fun I₁ hI => ?_
        have hp₁ : Parted V h x lo jj kk hi (fun t => A (Equiv.swap i (jj + j) t)) i (j + 1) k := by
          refine hp.swapped (by omega) (by omega) le_rfl (by omega) (by omega) hk (fun t h₁ h₂ => ?_) fun t h₁ h₂ => ?_
          · by_cases ht : t = jj + j
            · rw [ht, Equiv.swap_apply_right, hequal]
            · rw [Equiv.swap_apply_of_ne_of_ne (by omega) ht]
              exact hp.equal t h₁ (by omega)
          · rw [Equiv.swap_apply_of_ne_of_ne (by omega) (by omega)]
            exact hp.more t h₁ h₂
        refine (partLess_returns n i (j + 1) k I₁ _ hI.toMembers hp₁ (by omega)).mono fun r hr => ?_
        obtain ⟨A₁, hI₁, hrest⟩ := hr
        exact ⟨A₁, hI.trans hI₁, hrest⟩
      · rw [if_neg hequal]
        have hmore : x < val V (A i + h) := by omega
        have hroom := hp.more_lt hio.1 (by omega) hmore
        refine (hm.swap hio.1 (by omega) (by omega) (by omega)).bind fun I₁ hI => ?_
        have hp₁ := hp.moveMore le_rfl (by omega) (.inl hlt) hmore
        refine (partLess_returns n i j (k + 1) I₁ _ hI.toMembers hp₁ (by omega)).mono fun r hr => ?_
        obtain ⟨A₁, hI₁, hrest⟩ := hr
        exact ⟨A₁, hI.trans hI₁, hrest⟩
    · rw [if_neg hlt]
      obtain rfl : i = jj := by omega
      exact .pure ⟨A, .refl hm, hp⟩

/-- The second loop puts the members with the pivot's key into their places. -/
theorem partEqual_returns : ∀ (n j k : ℕ) (I : List ℤ) (A : ℕ → ℕ), Members V h I A lo hi →
    Parted V h x lo jj kk hi A jj j k → (kk - (jj + j)) + (hi - (kk + k)) < n →
    Returns (partEqual V h x jj kk n j k I) fun I₁ => ∃ A₁, Permuted V h I A lo hi I₁ A₁ ∧
      ∀ t, jj ≤ t → t < kk → val V (A₁ t + h) = x
  | 0, _, _, _, _, _, _, hn => by omega
  | n + 1, j, k, I, A, hm, hp, hn => by
    have hio := hp.i_le
    have hj := hp.j_le
    have hk := hp.k_le
    unfold partEqual
    by_cases hlt : jj + j < kk
    · rw [if_pos hlt]
      refine .step (hm.key (by omega) (by omega)) ?_
      by_cases hequal : val V (A (jj + j) + h) = x
      · rw [if_pos hequal]
        refine partEqual_returns n (j + 1) k I A hm { hp with equal := fun t h₁ h₂ => ?_, j_le := by omega } (by omega)
        by_cases ht : t = jj + j
        · exact ht ▸ hequal
        · exact hp.equal t h₁ (by omega)
      · rw [if_neg hequal]
        have hnot := hp.not_less (t := jj + j) (by omega) (by omega)
        have hmore : x < val V (A (jj + j) + h) := by omega
        have hroom := hp.more_lt (by omega) hlt hmore
        refine (hm.swap (by omega) (by omega) (by omega) (by omega)).bind fun I₁ hI => ?_
        have hp₁ := hp.moveMore (Nat.le_add_right jj j) hlt (.inr le_rfl) hmore
        refine (partEqual_returns n j (k + 1) I₁ _ hI.toMembers hp₁ (by omega)).mono fun I₂ hI₂ => ?_
        obtain ⟨A₁, hI₁, hrest⟩ := hI₂
        exact ⟨A₁, hI.trans hI₁, hrest⟩
    · rw [if_neg hlt]
      exact .pure ⟨A, .refl hm, fun t h₁ h₂ => hp.equal t h₁ (by omega)⟩

theorem Parted.start (A : ℕ → ℕ) (hlo : lo ≤ hi) (less equal : ℕ)
    (hless : less = ((Finset.Ico lo hi).filter fun t => val V (A t + h) < x).card)
    (hequal : equal = ((Finset.Ico lo hi).filter fun t => val V (A t + h) = x).card) :
    Parted V h x lo (lo + less) (lo + less + equal) hi A lo 0 0 := by
  have htotal : less + equal + ((Finset.Ico lo hi).filter fun t => x < val V (A t + h)).card = hi - lo := by
    have hsplit : ∀ t, (¬ val V (A t + h) < x ∧ val V (A t + h) = x ↔ val V (A t + h) = x) ∧
        (¬ val V (A t + h) < x ∧ ¬ val V (A t + h) = x ↔ x < val V (A t + h)) := fun t => by omega
    rw [hless, hequal, ← Nat.card_Ico lo hi,
      ← Finset.card_filter_add_card_filter_not (s := Finset.Ico lo hi) (fun t => val V (A t + h) < x), add_assoc,
      ← Finset.card_filter_add_card_filter_not
        (s := (Finset.Ico lo hi).filter fun t => ¬ val V (A t + h) < x) (fun t => val V (A t + h) = x)]
    simp only [Finset.filter_filter, fun t => (hsplit t).1, fun t => (hsplit t).2]
  exact ⟨fun t h₁ h₂ => by omega, fun t h₁ h₂ => by omega, fun t h₁ h₂ => by omega, by omega, by omega, by omega,
    by omega, by omega, by omega⟩

end Partition

/-- **`split` divides a group by `h` more bytes**, stays inside the arrays and ends. -/
theorem split_returns : ∀ (n lo hi : ℕ) (s : Suffixes) (A : ℕ → ℕ), Block old h s A lo hi B → lo ≤ hi → hi - lo < n →
    Returns (split h n lo (hi - lo) s) fun s₁ => ∃ A₁, Divided old h s A lo hi s₁ A₁
  | 0, _, _, _, _, _, _, hn => by omega
  | n + 1, lo, hi, s, A, hb, hlo, hn => by
    have hsum : lo + (hi - lo) = hi := by omega
    unfold split
    rw [hsum]
    by_cases hsmall : hi - lo < 16
    · rw [if_pos hsmall]
      exact splitSmall_returns _ lo s A hb hlo (by omega)
    rw [if_neg hsmall]
    have hm := hb.members
    refine .step (hm.key (by omega) (by omega)) (.step (countKeys_returns hm (hi - lo) lo 0 0 le_rfl hsum) ?_)
    -- the pivot is one of the members with its key
    generalize hx : val s.V (A (lo + (hi - lo) / 2) + h) = x
    generalize hless : ((Finset.Ico lo hi).filter fun t => val s.V (A t + h) < x).card = less
    generalize hequal : ((Finset.Ico lo hi).filter fun t => val s.V (A t + h) = x).card = equal
    have hpos : 0 < equal := by
      rw [← hequal, Finset.card_pos]
      exact ⟨lo + (hi - lo) / 2, Finset.mem_filter.mpr ⟨Finset.mem_Ico.mpr (by omega), hx⟩⟩
    have hparted := Parted.start (V := s.V) (h := h) A hlo less equal hless.symm hequal.symm
    simp only [zero_add]
    have hkk := hparted.k_le
    refine (partLess_returns (hi - lo + 1) lo 0 0 s.I A hm hparted (by omega)).bind fun r hr => ?_
    obtain ⟨A₁, hp₁, hparted₁⟩ := hr
    have hj := hparted₁.j_le
    have hk := hparted₁.k_le
    refine (partEqual_returns (hi - lo + 1) r.1 r.2.1 r.2.2 A₁ hp₁.toMembers hparted₁ (by omega)).bind fun I₂ hI₂ => ?_
    obtain ⟨A₂, hp₂, hxs⟩ := hI₂
    have hp := hp₁.trans hp₂
    have hb₂ := hb.permuted hp
    -- the part with smaller keys
    have hless : Returns (if lo < lo + less then split h n lo (lo + less - lo) ⟨I₂, s.V⟩ else pure ⟨I₂, s.V⟩)
        fun s₃ => ∃ A₃, Divided old h ⟨I₂, s.V⟩ A₂ lo (lo + less) s₃ A₃ := by
      have hfirst := hb₂.first (m := lo + less) (by omega)
      by_cases hl : lo < lo + less
      · rw [if_pos hl]
        exact split_returns n lo (lo + less) _ A₂ hfirst (by omega) (by omega)
      · rw [if_neg hl]
        obtain rfl : less = 0 := by omega
        exact .pure ⟨A₂, hfirst.toLists, .refl _ _ _, fun _ _ => rfl, fun _ _ => rfl, .nil _, hfirst.fine⟩
    refine hless.bind fun s₃ hs₃ => ?_
    obtain ⟨A₃, hd₃⟩ := hs₃
    -- the part with the pivot's key, which was read before the numbers changed
    have hb₃ := hb₂.rest (by omega) hd₃
    have hA₃ : ∀ t, lo + less ≤ t → A₃ t = A₂ t := fun t ht => hd₃.order.eq_outside (.inr ht)
    have hsettle := settle_returns (hb₃.first (m := lo + less + equal) hkk) (by omega) fun t u ht₁ ht₂ hu₁ hu₂ => by
      rw [hA₃ t ht₁, hA₃ u hu₁]
      exact hb₂.agree (by omega) (by omega) (by omega) (by omega) ((hxs t ht₁ ht₂).trans (hxs u hu₁ hu₂).symm)
    refine hsettle.bind fun s₄ hd₄ => ?_
    have hd := hd₃.trans hd₄ (by have := hb.hi_le; omega)
    -- the part with larger keys
    by_cases hmore : lo + less + equal < hi
    · rw [if_pos hmore]
      refine (split_returns n _ hi s₄ A₃ (hb₃.rest hkk hd₄) (by omega) (by omega)).mono fun s₅ hs₅ => ?_
      obtain ⟨A₅, hd₅⟩ := hs₅
      exact ⟨A₅, (hd.trans hd₅ hb.hi_le).of_permuted hp⟩
    · rw [if_neg hmore]
      rw [show lo + less + equal = hi by omega] at hd
      exact .pure ⟨A₃, hd.of_permuted hp⟩

end Diff
end Recovery
