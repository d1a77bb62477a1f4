/-
# The suffix sort as a whole

The buckets leave groups of suffixes with the same first byte, and a pass doubles the number
of bytes on which a group agrees.

Key theorem: `qsufsort_returns`.
-/
import Recovery.Diff.Groups

namespace Recovery
namespace Diff

open Arrays

variable {old : Bytes} {h H : ℕ} {s : Suffixes} {A : ℕ → ℕ} {i r c : ℕ}

/-! ### A pass -/

theorem closeRun_returns (hl : Lists old s A) (hr : r ≤ i) (hi : i ≤ old.length + 1) (hs : Segs old H s A 0 r)
    (hfin : ∀ t, r ≤ t → t < i → val s.V (A t) = t) :
    Returns (closeRun i ((i : ℤ) - r) s.I) fun I => I.length = s.I.length ∧ Segs old H ⟨I, s.V⟩ A 0 i ∧
      ∀ t, i ≤ t → val I t = val s.I t := by
  unfold closeRun
  by_cases hlt : r < i
  · rw [if_pos (by omega)]
    have hlen : r < s.I.length := by rw [hl.lenI]; omega
    refine ⟨_, store_ok (by omega) hlen _, by simp, ?_, fun t ht => val_set_of_ne (by omega)⟩
    have hs' : Segs old H ⟨s.I.set r (-((i : ℤ) - r)), s.V⟩ A 0 r :=
      hs.congr (fun _ _ _ => rfl) (fun t _ h₂ => val_set_of_ne (by omega)) fun _ _ _ => rfl
    refine hs'.append (.run (m := i - r) (by omega) ?_ (fun t h₁ h₂ => hfin t h₁ (by omega)) ?_)
    · rw [val_set_self hlen]
      omega
    · rw [show r + (i - r) = i by omega]
      exact .nil _
  · obtain rfl : r = i := by omega
    rw [if_neg (by omega)]
    exact .pure ⟨rfl, hs, fun _ _ => rfl⟩

/-- A group of the list, with refined groups before it, is what `split` needs. -/
theorem Block.of_group (hl : Lists old s A) (hc : i < c) (hbefore : Segs old (h + h) s A 0 i)
    (mem : ∀ t, i ≤ t → t < c → val s.I t = A t ∧ val s.V (A t) = (c : ℤ) - 1 ∧ A t + h ≤ old.length)
    (agree : ∀ t u, i ≤ t → t < c → i ≤ u → u < c → Agree old h (A t) (A u))
    (rest : Segs old h s A c (old.length + 1)) : Block old h s A i c (c - 1) where
  toLists := hl
  hi_le := rest.le
  entry t h₁ h₂ := (mem t h₁ h₂).1
  room t h₁ h₂ := (mem t h₁ h₂).2.2
  same t h₁ h₂ := by
    rw [(mem t h₁ h₂).2.1]
    omega
  unused p hp h₁ h₂ := by
    obtain ⟨t, ht, rfl⟩ := hl.onto hp
    rcases Nat.lt_or_ge t i with hti | hti
    · have := (hbefore.number_mem t (Nat.zero_le _) hti).2
      omega
    · rcases Nat.lt_or_ge t c with htc | htc
      · rw [(mem t hti htc).2.1]
        omega
      · have := (rest.number_mem t htc ht).1
        omega
  fine := ((hbefore.mono (by omega)).append (.group hc mem agree rest)).fine hl

/-- **A pass** refines all groups by twice as many bytes. -/
theorem scanGroups_returns : ∀ (n i r : ℕ) (s : Suffixes) (A : ℕ → ℕ), Lists old s A → r ≤ i → old.length + 1 - i < n →
    Segs old (h + h) s A 0 r → (∀ t, r ≤ t → t < i → val s.V (A t) = t) → Segs old h s A i (old.length + 1) →
    Returns (scanGroups old.length h n i ((i : ℤ) - r) s) fun s₁ => ∃ A₁, Lists old s₁ A₁ ∧
      Segs old (h + h) s₁ A₁ 0 (old.length + 1)
  | 0, _, _, _, _, _, _, hn, _, _, _ => by omega
  | n + 1, i, r, s, A, hl, hr, hn, hs, hfin, hrest => by
    have hi := hrest.le
    unfold scanGroups
    cases hrest with
    | nil =>
      rw [if_neg (by push_cast; omega)]
      refine (closeRun_returns hl hr hi hs hfin).bind fun I hI => ?_
      exact .pure ⟨A, ⟨hI.1.trans hl.lenI, hl.lenV, hl.bij⟩, hI.2.1⟩
    | @run _ m _ hm hI hV rest =>
      have hle := rest.le
      have hlen : i < s.I.length := by rw [hl.lenI]; omega
      rw [if_pos (by omega)]
      refine .step (load_ok rfl hlen) ?_
      rw [hI, if_pos (by omega), show (i : ℤ) - -m = (i + m : ℕ) by push_cast; omega,
        show (i : ℤ) - r - -m = ((i + m : ℕ) : ℤ) - r by push_cast; omega]
      refine scanGroups_returns n (i + m) r s A hl (by omega) (by omega) hs (fun t h₁ h₂ => ?_) rest
      by_cases ht : t < i
      · exact hfin t h₁ ht
      · exact hV t (by omega) h₂
    | @group _ c _ hc mem agree rest =>
      have hle := rest.le
      have hlen : i < s.I.length := by rw [hl.lenI]; omega
      rw [if_pos (by omega)]
      refine .step (load_ok rfl hlen) ?_
      rw [(mem i le_rfl hc).1, if_neg (by omega)]
      refine (closeRun_returns hl hr hi hs hfin).bind fun I hI => ?_
      obtain ⟨hIlen, hbefore, hIrest⟩ := hI
      have hlV : A i < s.V.length := by rw [hl.lenV]; exact hl.lt (by omega)
      refine .step (load_ok rfl hlV) ?_
      have hsize : ((c : ℤ) - 1 + 1 - i).toNat = c - i := by omega
      rw [(mem i le_rfl hc).2.1, Int.toNat_natCast, hsize, show (i : ℤ) + (c - 1 + 1 - i) = c by omega]
      have hl₁ : Lists old ⟨I, s.V⟩ A := ⟨hIlen.trans hl.lenI, hl.lenV, hl.bij⟩
      have hrest₁ : Segs old h ⟨I, s.V⟩ A c (old.length + 1) :=
        rest.congr (fun _ _ _ => rfl) (fun t h₁ _ => hIrest t (by omega)) fun _ _ _ => rfl
      have hblock := Block.of_group hl₁ hc hbefore
        (fun t h₁ h₂ => (hIrest t h₁).symm ▸ mem t h₁ h₂) agree hrest₁
      refine (split_returns (c - i + 1) i c _ A hblock (by omega) (by omega)).bind fun s₂ hs₂ => ?_
      obtain ⟨A₂, hd⟩ := hs₂
      -- `split` leaves the groups before and behind as they are
      have hbefore₂ : Segs old (h + h) s₂ A₂ 0 i :=
        hbefore.congr (fun t _ h₂ => hd.order.eq_outside (.inl h₂)) (fun t _ h₂ => hd.I_outside t (.inl h₂))
          fun t _ h₂ => hd.V_of_outside hl₁ hle (.inl h₂) (by omega)
      have hrest₂ : Segs old h s₂ A₂ c (old.length + 1) :=
        hrest₁.congr (fun t h₁ _ => hd.order.eq_outside (.inr h₁)) (fun t h₁ _ => hd.I_outside t (.inr h₁))
          fun t h₁ h₂ => hd.V_of_outside hl₁ hle (.inr h₁) h₂
      have hgo := scanGroups_returns n c c s₂ A₂ hd.toLists le_rfl (by omega) (hbefore₂.append hd.segs)
        (fun t h₁ h₂ => by omega) hrest₂
      rwa [show (c : ℤ) - c = 0 by omega] at hgo

theorem scanGroups_final (hh : old.length < h) (hl : Lists old s A) : ∀ (n i : ℕ), old.length + 1 - i < n →
    Segs old h s A i (old.length + 1) →
    scanGroups old.length h n i i s = .ok ⟨s.I.set 0 (-((old.length : ℤ) + 1)), s.V⟩
  | 0, _, hn, _ => by omega
  | n + 1, i, hn, hs => by
    unfold scanGroups
    cases hs with
    | nil =>
      have hlen : 0 < s.I.length := by rw [hl.lenI]; omega
      rw [if_neg (by push_cast; omega)]
      unfold closeRun
      rw [if_pos (by omega), store_ok (k := 0) (by omega) hlen]
      rfl
    | @run _ m _ hm hI hV rest =>
      have hle := rest.le
      have hlen : i < s.I.length := by rw [hl.lenI]; omega
      rw [if_pos (by omega), load_ok rfl hlen, ok_bind, hI, if_pos (by omega),
        show (i : ℤ) - -m = (i + m : ℕ) by push_cast; omega]
      exact scanGroups_final hh hl n (i + m) (by omega) rest
    | @group _ c _ hc mem agree rest =>
      have := (mem i le_rfl hc).2.2
      omega

theorem Segs.final {a b : ℕ} (hs : Segs old H s A a b) (hH : old.length < H) (t : ℕ) (h₁ : a ≤ t) (h₂ : t < b) :
    val s.V (A t) = t := by
  induction hs with
  | nil => omega
  | @run a m b hm hI hV rest ih =>
    by_cases htm : t < a + m
    · exact hV t h₁ htm
    · exact ih (by omega) h₂
  | @group a c b hc mem agree rest ih =>
    have := (mem a le_rfl hc).2.2
    omega

theorem Segs.all_final (hs : Segs old H s A 0 (old.length + 1)) (hI : val s.I 0 = -((old.length : ℤ) + 1)) (t : ℕ)
    (ht : t < old.length + 1) : val s.V (A t) = t := by
  cases hs with
  | @run _ m _ hm hI' hV rest => exact hV t (Nat.zero_le _) (by omega)
  | @group _ c _ hc mem agree rest =>
    have := (mem 0 le_rfl hc).1
    omega

/-- **The refinement ends** once the number of compared bytes exceeds the size of the data. -/
theorem refineLoop_returns : ∀ (k h : ℕ) (s : Suffixes) (A : ℕ → ℕ), old.length < h * 2 ^ k → Lists old s A →
    Segs old h s A 0 (old.length + 1) →
    Returns (refineLoop old.length (k + 2) h s) fun s₁ => ∃ A₁, Lists old s₁ A₁ ∧
      ∀ t, t < old.length + 1 → val s₁.V (A₁ t) = t := by
  intro k h s A hk hl hs
  have hlen : 0 < s.I.length := by rw [hl.lenI]; omega
  unfold refineLoop
  refine .step (load_ok rfl hlen) ?_
  by_cases hdone : val s.I 0 = -((old.length : ℤ) + 1)
  · rw [if_pos hdone]
    exact .pure ⟨A, hl, hs.all_final hdone⟩
  rw [if_neg hdone]
  cases k with
  | zero =>
    refine .step (scanGroups_final (by omega) hl (old.length + 2) 0 (by omega) hs) ?_
    unfold refineLoop
    refine .step (load_ok rfl (by simpa using hlen)) ?_
    rw [val_set_self hlen, if_pos rfl]
    exact .pure ⟨A, ⟨by simpa using hl.lenI, hl.lenV, hl.bij⟩, fun t ht => hs.final (by omega) t (Nat.zero_le _) ht⟩
  | succ k =>
    have hpass := scanGroups_returns (h := h) (old.length + 2) 0 0 s A hl le_rfl (by omega) (.nil _)
      (fun t h₁ h₂ => by omega) hs
    refine hpass.bind fun s₁ hs₁ => ?_
    obtain ⟨A₁, hl₁, hsegs₁⟩ := hs₁
    exact refineLoop_returns k (h + h) s₁ A₁ (by rw [pow_succ] at hk; linarith) hl₁ hsegs₁

/-! ### The buckets -/

/-- How many bytes are smaller than `c`, and how many equal it. -/
def below (old : Bytes) (c : ℕ) : ℕ := old.countP fun b => b.toNat < c

def equalTo (old : Bytes) (c : ℕ) : ℕ := old.countP fun b => b.toNat = c

theorem below_succ (old : Bytes) (c : ℕ) : below old (c + 1) = below old c + equalTo old c := by
  induction old with
  | nil => rfl
  | cons b old ih =>
    simp only [below, equalTo, List.countP_cons, decide_eq_true_eq] at ih ⊢
    split_ifs <;> omega

theorem below_mono (old : Bytes) {c d : ℕ} (hcd : c ≤ d) : below old c ≤ below old d :=
  List.countP_mono_left fun b _ hb => by
    simp only [decide_eq_true_eq] at hb ⊢
    omega

@[simp] theorem below_zero (old : Bytes) : below old 0 = 0 := by simp [below]

@[simp] theorem below_all (old : Bytes) : below old 256 = old.length :=
  List.countP_eq_length.mpr fun b _ => by simpa using b.toNat_lt

theorem equalTo_append (pre rest : Bytes) (c : ℕ) : equalTo (pre ++ rest) c = equalTo pre c + equalTo rest c :=
  List.countP_append

theorem equalTo_cons (b : UInt8) (rest : Bytes) (c : ℕ) :
    equalTo (b :: rest) c = equalTo rest c + if b.toNat = c then 1 else 0 := by
  simp [equalTo, List.countP_cons]

theorem countBytes_spec : ∀ (old : Bytes) (buckets : List ℕ), buckets.length = 256 →
    (countBytes old buckets).length = 256 ∧ ∀ c, val (countBytes old buckets) c = val buckets c + equalTo old c
  | [], buckets, hlen => ⟨hlen, fun c => rfl⟩
  | b :: old, buckets, hlen => by
    have hb : b.toNat < buckets.length := hlen ▸ b.toNat_lt
    obtain ⟨hlen', hval⟩ := countBytes_spec old (buckets.set b.toNat (val buckets b.toNat + 1)) (by simpa using hlen)
    refine ⟨hlen', fun c => ?_⟩
    rw [countBytes, hval, val_set hb, equalTo_cons]
    by_cases hc : c = b.toNat
    · rw [if_pos hc, if_pos hc.symm, hc]
      omega
    · rw [if_neg hc, if_neg (Ne.symm hc)]
      omega

theorem sumBuckets_spec (old : Bytes) : ∀ (n i : ℕ) (buckets : List ℕ), i + n < buckets.length →
    (∀ c, c ≤ i → val buckets c = below old (c + 1)) → (∀ c, i < c → val buckets c = equalTo old c) →
    (sumBuckets n i buckets).length = buckets.length ∧
      ∀ c, c ≤ i + n → val (sumBuckets n i buckets) c = below old (c + 1)
  | 0, i, buckets, _, hlow, _ => ⟨rfl, hlow⟩
  | n + 1, i, buckets, hlen, hlow, hhigh => by
    have hi : i + 1 < buckets.length := by omega
    obtain ⟨hlen', hval⟩ := sumBuckets_spec old n (i + 1) (buckets.set (i + 1) (val buckets (i + 1) + val buckets i))
      (by rw [List.length_set]; omega)
      (fun c hc => by
        rw [val_set hi]
        split_ifs with he
        · rw [he, hhigh (i + 1) (by omega), hlow i le_rfl, below_succ old (i + 1)]
          omega
        · exact hlow c (by omega))
      (fun c hc => by rw [val_set_of_ne (by omega), hhigh c (by omega)])
    exact ⟨hlen'.trans (List.length_set ..), fun c hc => hval c (by omega)⟩

theorem shiftBuckets_spec (old : Bytes) : ∀ (i : ℕ) (buckets : List ℕ), i < buckets.length →
    (∀ c, c ≤ i → val buckets c = below old (c + 1)) → (∀ c, i < c → c < buckets.length → val buckets c = below old c) →
    (shiftBuckets i buckets).length = buckets.length ∧
      ∀ c, c < buckets.length → val (shiftBuckets i buckets) c = below old c
  | 0, buckets, hlen, _, hhigh => by
    refine ⟨List.length_set .., fun c hc => ?_⟩
    rw [shiftBuckets, val_set hlen]
    split_ifs with h0
    · rw [h0, below_zero]
    · exact hhigh c (by omega) hc
  | i + 1, buckets, hlen, hlow, hhigh => by
    obtain ⟨hlen', hval⟩ := shiftBuckets_spec old i (buckets.set (i + 1) (val buckets i))
      (by rw [List.length_set]; omega)
      (fun c hc => by rw [val_set_of_ne (by omega), hlow c (by omega)])
      (fun c hc hc' => by
        rw [List.length_set] at hc'
        rw [val_set hlen]
        split_ifs with he
        · rw [he, hlow i (by omega)]
        · exact hhigh c (by omega) hc')
    rw [List.length_set] at hlen' hval
    exact ⟨hlen', hval⟩

/-- The place of a suffix in the order by the first byte. -/
def slot (old : Bytes) (i : ℕ) : ℕ :=
  match old[i]? with
  | none => 0
  | some b => below old b.toNat + equalTo (old.take (i + 1)) b.toNat

theorem equalTo_take_succ {b : UInt8} (hb : old[i]? = some b) (c : ℕ) :
    equalTo (old.take (i + 1)) c = equalTo (old.take i) c + if b.toNat = c then 1 else 0 := by
  rw [List.take_add_one, hb, equalTo_append, Option.toList_some, equalTo_cons]
  simp [equalTo]

theorem equalTo_take_mono (old : Bytes) {j : ℕ} (hij : i ≤ j) (c : ℕ) : equalTo (old.take i) c ≤ equalTo (old.take j) c := by
  rw [← min_eq_left hij, ← List.take_take]
  exact (List.take_sublist _ _).countP_le

theorem slot_of_some {b : UInt8} (hb : old[i]? = some b) :
    slot old i = below old b.toNat + (equalTo (old.take i) b.toNat + 1) := by
  unfold slot
  rw [hb]
  simp only
  rw [equalTo_take_succ hb, if_pos rfl]

/-- The suffixes with one first byte are between those with smaller and larger ones. -/
theorem slot_mem {b : UInt8} (hb : old[i]? = some b) :
    below old b.toNat < slot old i ∧ slot old i ≤ below old (b.toNat + 1) := by
  have hle : equalTo (old.take (i + 1)) b.toNat ≤ equalTo old b.toNat := (List.take_sublist _ _).countP_le
  rw [equalTo_take_succ hb, if_pos rfl] at hle
  rw [slot_of_some hb, below_succ]
  omega

theorem slot_lt (old : Bytes) (i : ℕ) : slot old i < old.length + 1 := by
  cases hb : old[i]? with
  | none => simp [slot, hb]
  | some b =>
    have h₁ := (slot_mem hb).2
    have h₂ := below_mono old (show b.toNat + 1 ≤ 256 from b.toNat_lt)
    rw [below_all] at h₂
    omega

theorem slot_ne {j : ℕ} (hij : i < j) (hj : j ≤ old.length) : slot old i ≠ slot old j := by
  have hi : old[i]? = some old[i] := List.getElem?_eq_getElem _
  have hi' := slot_mem hi
  rcases Nat.lt_or_eq_of_le hj with hj | rfl
  · have hjb : old[j]? = some old[j] := List.getElem?_eq_getElem hj
    have hj' := slot_mem hjb
    rcases lt_trichotomy old[i].toNat old[j].toNat with hlt | heq | hlt
    · have := below_mono old (show old[i].toNat + 1 ≤ old[j].toNat from hlt)
      omega
    · -- equal bytes are taken in their order
      have := equalTo_take_mono old (show i + 1 ≤ j from hij) old[j].toNat
      rw [equalTo_take_succ hi, if_pos heq] at this
      rw [slot_of_some hi, slot_of_some hjb, heq]
      omega
    · have := below_mono old (show old[j].toNat + 1 ≤ old[i].toNat from hlt)
      omega
  · have hnone : slot old old.length = 0 := by simp [slot]
    omega

theorem slot_bijOn (old : Bytes) : Set.BijOn (slot old) (Set.Iio (old.length + 1)) (Set.Iio (old.length + 1)) := by
  have hinj : Set.InjOn (slot old) (Set.Iio (old.length + 1)) := by
    intro i hi j hj he
    have hi : i < old.length + 1 := hi
    have hj : j < old.length + 1 := hj
    rcases lt_trichotomy i j with hlt | heq | hlt
    · exact absurd he (slot_ne hlt (by omega))
    · exact heq
    · exact absurd he.symm (slot_ne hlt (by omega))
  have hmaps : Set.MapsTo (slot old) (Set.Iio (old.length + 1)) (Set.Iio (old.length + 1)) := fun i _ => slot_lt old i
  refine ⟨hmaps, hinj, ?_⟩
  have hrange : (Finset.range (old.length + 1) : Set ℕ) = Set.Iio (old.length + 1) := Finset.coe_range _
  rw [← hrange] at hinj hmaps ⊢
  exact Finset.surjOn_of_injOn_of_card_le _ hmaps hinj le_rfl

theorem placeBytes_returns (old : Bytes) : ∀ (rest pre : Bytes) (buckets : List ℕ) (I : List ℤ), old = pre ++ rest →
    buckets.length = 256 → I.length = old.length + 1 →
    (∀ c, c < 256 → val buckets c = below old c + equalTo pre c) → (∀ j, j < pre.length → val I (slot old j) = j) →
    Returns (placeBytes pre.length rest buckets I) fun r => r.2.length = old.length + 1 ∧
      (∀ c, c < 256 → val r.1 c = below old (c + 1)) ∧ ∀ j, j < old.length → val r.2 (slot old j) = j
  | [], pre, buckets, I, hold, _, hI, hval, hslot => by
    obtain rfl : old = pre := by simpa using hold
    exact .pure ⟨hI, fun c hc => by rw [hval c hc, below_succ], hslot⟩
  | b :: rest, pre, buckets, I, hold, hlen, hI, hval, hslot => by
    have hb : old[pre.length]? = some b := by simp [hold]
    have htake : old.take pre.length = pre := by simp [hold]
    have hbl : b.toNat < buckets.length := hlen ▸ b.toNat_lt
    have hplace : val buckets b.toNat + 1 = slot old pre.length := by
      rw [slot_of_some hb, htake, hval _ b.toNat_lt]
      omega
    have hlt : slot old pre.length < I.length := hI ▸ slot_lt old _
    refine .step (store_ok (congrArg _ hplace) hlt _) ?_
    have hpre : (pre ++ [b]).length = pre.length + 1 := by simp
    rw [← hpre]
    refine placeBytes_returns old rest (pre ++ [b]) _ _ (by simp [hold]) (by simpa using hlen) (by simpa using hI)
      (fun c hc => ?_) fun j hj => ?_
    · rw [val_set hbl, equalTo_append, equalTo_cons]
      by_cases hcb : c = b.toNat
      · rw [if_pos hcb, if_pos hcb.symm, ← hcb, hval c hc]
        simp only [equalTo, List.countP_nil]
        omega
      · rw [if_neg hcb, if_neg (Ne.symm hcb), hval c hc]
        simp [equalTo]
    · rw [val_set hlt]
      rw [hpre] at hj
      by_cases hjp : j = pre.length
      · rw [if_pos (by rw [hjp]), hjp]
      · have hle : pre.length ≤ old.length := by simp [hold]
        rw [if_neg (slot_ne (by omega) hle), hslot j (by omega)]

theorem rankBytes_returns (old : Bytes) (buckets : List ℕ) : ∀ (rest pre : Bytes) (V : List ℤ), old = pre ++ rest →
    V.length = old.length + 1 →
    (∀ j b, j < pre.length → old[j]? = some b → val V j = val buckets b.toNat) →
    Returns (rankBytes buckets pre.length rest V) fun V => V.length = old.length + 1 ∧
      ∀ j b, old[j]? = some b → val V j = val buckets b.toNat
  | [], pre, V, hold, hV, hval => by
    obtain rfl : old = pre := by simpa using hold
    exact .pure ⟨hV, fun j b hb => hval j b (List.getElem?_eq_some_iff.mp hb).1 hb⟩
  | b :: rest, pre, V, hold, hV, hval => by
    have hb : old[pre.length]? = some b := by simp [hold]
    have hlt : pre.length < V.length := by simp [hV, hold]
    refine .step (store_ok rfl hlt _) ?_
    have hpre : (pre ++ [b]).length = pre.length + 1 := by simp
    rw [← hpre]
    refine rankBytes_returns old buckets rest (pre ++ [b]) _ (by simp [hold]) (by simpa using hV) fun j c hj hc => ?_
    rw [val_set hlt]
    split_ifs with hjp
    · rw [hjp, hb, Option.some.injEq] at hc
      rw [hc]
    · exact hval j c (by omega) hc

theorem markBuckets_returns {buckets : List ℕ} (hb : ∀ c, c < 256 → val buckets c = below old (c + 1)) :
    ∀ (n i : ℕ) (I : List ℤ), i + n < 256 → I.length = old.length + 1 →
    Returns (markBuckets buckets n i I) fun I₁ => I₁.length = old.length + 1 ∧
      (∀ c, i < c → c ≤ i + n → equalTo old c = 1 → val I₁ (below old (c + 1)) = -1) ∧
      ∀ t, (∀ c, i < c → c ≤ i + n → equalTo old c = 1 → t ≠ below old (c + 1)) → val I₁ t = val I t
  | 0, i, I, _, hI => .pure ⟨hI, fun c h₁ h₂ => by omega, fun _ _ => rfl⟩
  | n + 1, i, I, hn, hI => by
    have hbi := hb i (by omega)
    have hbs := hb (i + 1) (by omega)
    have hsucc := below_succ old (i + 1)
    have hle : below old (i + 1 + 1) ≤ old.length := below_all old ▸ below_mono old (by omega)
    unfold markBuckets
    rw [hbi, hbs]
    -- the bucket is marked exactly if it holds one suffix
    have hmark : Returns (if below old (i + 1 + 1) = below old (i + 1) + 1 then
        store Stop.fault I (below old (i + 1 + 1) : ℕ) (-1) else pure I) fun I₁ => I₁.length = old.length + 1 ∧
        (equalTo old (i + 1) = 1 → val I₁ (below old (i + 1 + 1)) = -1) ∧
        ∀ t, (equalTo old (i + 1) = 1 → t ≠ below old (i + 1 + 1)) → val I₁ t = val I t := by
      have hlt : below old (i + 1 + 1) < I.length := by omega
      by_cases hone : below old (i + 1 + 1) = below old (i + 1) + 1
      · rw [if_pos hone]
        exact ⟨_, store_ok rfl hlt _, by simpa using hI, fun _ => val_set_self hlt _,
          fun t ht => val_set_of_ne (ht (by omega))⟩
      · rw [if_neg hone]
        exact .pure ⟨hI, fun h => by omega, fun _ _ => rfl⟩
    refine hmark.bind fun I₁ hI₁ => ?_
    obtain ⟨hlen, hone, hrest⟩ := hI₁
    refine (markBuckets_returns hb n (i + 1) I₁ (by omega) hlen).mono fun I₂ hI₂ => ?_
    obtain ⟨hlen₂, hone₂, hrest₂⟩ := hI₂
    refine ⟨hlen₂, fun c h₁ h₂ hc => ?_, fun t ht => ?_⟩
    · rcases Nat.lt_or_ge (i + 1) c with hic | hic
      · exact hone₂ c hic (by omega) hc
      · obtain rfl : c = i + 1 := by omega
        rw [hrest₂ _ fun d hd₁ hd₂ hd => ?_]
        · exact hone hc
        · have h₃ := below_mono old (show i + 1 + 1 ≤ d from hd₁)
          have h₄ := below_succ old d
          omega
    · rw [hrest₂ t fun c h₁ h₂ hc => ht c (by omega) (by omega) hc, hrest t fun hc => ht (i + 1) (by omega) (by omega) hc]

theorem byte_of_slot {b : UInt8} {t : ℕ} (hb : old[i]? = some b) (hs : slot old i = t) (h₁ : below old c < t)
    (h₂ : t ≤ below old (c + 1)) : b.toNat = c := by
  have hm := slot_mem hb
  rcases lt_trichotomy b.toNat c with hlt | heq | hlt
  · have := below_mono old (show b.toNat + 1 ≤ c from hlt)
    omega
  · exact heq
  · have := below_mono old (show c + 1 ≤ b.toNat from hlt)
    omega

/-- What the bucket sort leaves: `J` lists all suffixes, `I` the ones not marked. -/
structure Bucketed (old : Bytes) (I J V : List ℤ) : Prop where
  lenI : I.length = old.length + 1
  lenV : V.length = old.length + 1
  listed : ∀ p, p < old.length + 1 → val J (slot old p) = p
  rank : ∀ p b, old[p]? = some b → val V p = below old (b.toNat + 1)
  last : val V old.length = 0
  first : val I 0 = -1
  marked : ∀ c, 0 < c → c < 256 → equalTo old c = 1 → val I (below old (c + 1)) = -1
  kept : ∀ t, 0 < t → (∀ c, 0 < c → c < 256 → equalTo old c = 1 → t ≠ below old (c + 1)) → val I t = val J t

namespace Bucketed

variable {I J V : List ℤ}

def listing (J : List ℤ) (t : ℕ) : ℕ := (val J t).toNat

theorem listing_slot (hb : Bucketed old I J V) {p : ℕ} (hp : p < old.length + 1) : listing J (slot old p) = p := by
  unfold listing
  rw [hb.listed p hp, Int.toNat_natCast]

theorem lists (hb : Bucketed old I J V) : Lists old ⟨I, V⟩ (listing J) := by
  refine ⟨hb.lenI, hb.lenV, fun t ht => ?_, fun t ht u hu he => ?_, fun p hp => ?_⟩
  · obtain ⟨p, hp, rfl⟩ := (slot_bijOn old).surjOn ht
    exact (hb.listing_slot hp).symm ▸ hp
  · obtain ⟨p, hp, rfl⟩ := (slot_bijOn old).surjOn ht
    obtain ⟨q, hq, rfl⟩ := (slot_bijOn old).surjOn hu
    rw [hb.listing_slot hp, hb.listing_slot hq] at he
    rw [he]
  · exact ⟨slot old p, slot_lt old p, hb.listing_slot hp⟩

theorem byte (hb : Bucketed old I J V) {t : ℕ} (h₁ : below old c < t) (h₂ : t ≤ below old (c + 1)) (hc : c < 256) :
    ∃ b : UInt8, old[listing J t]? = some b ∧ b.toNat = c ∧ val J t = listing J t := by
  have hle : below old (c + 1) ≤ old.length := below_all old ▸ below_mono old (by omega)
  obtain ⟨p, hp, rfl⟩ := (slot_bijOn old).surjOn (show t ∈ Set.Iio (old.length + 1) from by simp; omega)
  rw [hb.listing_slot hp]
  cases hbyte : old[p]? with
  | none =>
    rw [slot, hbyte] at h₁
    exact absurd h₁ (Nat.not_lt_zero _)
  | some b => exact ⟨b, rfl, byte_of_slot hbyte rfl h₁ h₂, hb.listed p hp⟩

theorem bucket_segs (hb : Bucketed old I J V) (hc : c < 256) :
    Segs old 1 ⟨I, V⟩ (listing J) (below old c + 1) (below old (c + 1) + 1) := by
  have hsucc := below_succ old c
  have hnumber : ∀ t, below old c < t → t ≤ below old (c + 1) → val V (listing J t) = below old (c + 1) := by
    intro t h₁ h₂
    obtain ⟨b, hbyte, hbc, -⟩ := hb.byte h₁ h₂ hc
    rw [hb.rank _ b hbyte, hbc]
  by_cases hempty : equalTo old c = 0
  · rw [show below old (c + 1) = below old c by omega]
    exact .nil _
  by_cases hone : 0 < c ∧ equalTo old c = 1
  · refine .run (m := 1) one_pos ?_ (fun t h₁ h₂ => ?_) ?_
    · have := hb.marked c hone.1 hc hone.2
      rwa [show below old (c + 1) = below old c + 1 by omega] at this
    · rw [hnumber t (by omega) (by omega)]
      omega
    · rw [show below old (c + 1) + 1 = below old c + 1 + 1 by omega]
      exact .nil _
  · refine .group (by omega) (fun t h₁ h₂ => ?_) (fun t u ht₁ ht₂ hu₁ hu₂ => ?_) (.nil _)
    · obtain ⟨b, hbyte, hbc, hJ⟩ := hb.byte (show below old c < t by omega) (by omega) hc
      have hlt := (List.getElem?_eq_some_iff.mp hbyte).1
      refine ⟨?_, ?_, by omega⟩
      · rw [← hJ]
        refine hb.kept t (by omega) fun d hd₁ hd₂ hd he => hone ?_
        -- a marked place belongs to the bucket of the mark
        have hd' := below_succ old d
        obtain ⟨b', hbyte', hbd, -⟩ := hb.byte (c := d) (t := t) (by omega) (by omega) hd₂
        rw [hbyte, Option.some.injEq] at hbyte'
        rw [hbyte', hbd] at hbc
        exact hbc ▸ ⟨hd₁, hd⟩
      · rw [hnumber t (by omega) (by omega)]
        push_cast
        omega
    · obtain ⟨b, hbyte, hbc, -⟩ := hb.byte (show below old c < t by omega) (by omega) hc
      obtain ⟨b', hbyte', hbc', -⟩ := hb.byte (show below old c < u by omega) (by omega) hc
      have hbb : b = b' := UInt8.toNat_inj.mp (hbc.trans hbc'.symm)
      have hlt := (List.getElem?_eq_some_iff.mp hbyte).1
      have hlt' := (List.getElem?_eq_some_iff.mp hbyte').1
      refine .inr ⟨hlt, hlt', fun d hd => ?_⟩
      obtain rfl : d = 0 := by omega
      rw [Nat.add_zero, Nat.add_zero, hbyte, hbyte', hbb]

theorem segs_upTo (hb : Bucketed old I J V) : ∀ c, c ≤ 256 →
    Segs old 1 ⟨I, V⟩ (listing J) 0 (below old c + 1)
  | 0, _ => by
    rw [below_zero]
    refine .run (m := 1) one_pos hb.first (fun t h₁ h₂ => ?_) (.nil _)
    obtain rfl : t = 0 := by omega
    have hslot : slot old old.length = 0 := by simp [slot]
    show val V (listing J 0) = (0 : ℕ)
    rw [← hslot, hb.listing_slot (by omega), hb.last, hslot]
    rfl
  | c + 1, hc => (hb.segs_upTo c (by omega)).append (hb.bucket_segs (by omega))

end Bucketed

theorem bucketSort_returns (hI : s.I.length = old.length + 1) (hV : s.V.length = old.length + 1) :
    Returns (bucketSort s old) fun s₁ => ∃ A, Lists old s₁ A ∧ Segs old 1 s₁ A 0 (old.length + 1) := by
  have hzero : ∀ c, val (List.replicate 256 0) c = 0 := by
    intro c
    simp only [val, List.getD_eq_getElem?_getD, List.getElem?_replicate]
    split_ifs <;> rfl
  obtain ⟨hclen, hcount⟩ := countBytes_spec old (List.replicate 256 0) (List.length_replicate ..)
  simp only [hzero, zero_add] at hcount
  obtain ⟨hslen, hsum⟩ := sumBuckets_spec old 255 0 _ (by omega)
    (fun c hc => by rw [hcount, below_succ, show c = 0 by omega, below_zero, zero_add]) (fun c _ => hcount c)
  obtain ⟨hflen, hshift⟩ := shiftBuckets_spec old 255 _ (by omega) (fun c hc => hsum c (by omega))
    (fun c h₁ h₂ => by omega)
  rw [hslen, hclen] at hflen hshift
  unfold bucketSort
  have hplace := placeBytes_returns old old [] _ s.I (List.nil_append _).symm hflen hI
    (fun c hc => by rw [hshift c hc]; simp [equalTo]) (fun j hj => absurd hj (Nat.not_lt_zero j))
  refine hplace.bind fun r hr => ?_
  obtain ⟨hrlen, hrb, hrI⟩ := hr
  have h0 : 0 < r.2.length := by omega
  refine .step (store_ok rfl h0 _) ?_
  refine (rankBytes_returns old r.1 old [] s.V (List.nil_append _).symm hV
    (fun j b hj => absurd hj (Nat.not_lt_zero j))).bind fun V₁ hV₁ => ?_
  have hn : old.length < V₁.length := by omega
  refine .step (store_ok rfl hn _) ?_
  refine (markBuckets_returns hrb 255 0 _ (by omega) (by simpa using hrlen)).bind fun I₁ hI₁ => ?_
  have h0' : 0 < I₁.length := by omega
  refine .step (store_ok rfl h0' _) (.pure ?_)
  obtain ⟨hlen₁, hmark₁, hkept₁⟩ := hI₁
  have hb : Bucketed old (I₁.set 0 (-1)) (r.2.set 0 (old.length : ℤ)) (V₁.set old.length 0) := by
    refine ⟨by simpa using hlen₁, by simpa using hV₁.1, fun p hp => ?_, fun p b hbyte => ?_, val_set_self hn _,
      val_set_self h0' _, fun c h₁ h₂ hc => ?_, fun t ht hkeep => ?_⟩
    · rw [val_set h0]
      cases hbyte : old[p]? with
      | none =>
        have := List.getElem?_eq_none_iff.mp hbyte
        rw [slot, hbyte, if_pos rfl]
        omega
      | some b =>
        have := (slot_mem hbyte).1
        rw [if_neg (by omega), hrI p (List.getElem?_eq_some_iff.mp hbyte).1]
    · have hp := (List.getElem?_eq_some_iff.mp hbyte).1
      rw [val_set_of_ne (by omega), hV₁.2 p b hbyte, hrb _ b.toNat_lt]
    · have := below_succ old c
      rw [val_set_of_ne (by omega), hmark₁ c h₁ (by omega) hc]
    · rw [val_set_of_ne (by omega), hkept₁ t fun c h₁ h₂ hc => hkeep c h₁ (by omega) hc]
  have hsegs := hb.segs_upTo 256 le_rfl
  rw [below_all] at hsegs
  exact ⟨_, hb.lists, hsegs⟩

/-! ### The result -/

theorem invert_returns {V : List ℤ} {N : ℕ} (hA : Set.BijOn A (Set.Iio N) (Set.Iio N)) (hlen : V.length = N)
    (hV : ∀ t, t < N → val V (A t) = t) : ∀ (n i : ℕ) (I : List ℤ), i + n = N → I.length = N →
    (∀ t, t < N → A t < i → val I t = A t) →
    Returns (invert V n i I) fun I₁ => I₁.length = N ∧ ∀ t, t < N → val I₁ t = A t
  | 0, i, I, hi, hI, hdone => .pure ⟨hI, fun t ht => hdone t ht (by have := hA.mapsTo ht; simp at this; omega)⟩
  | n + 1, i, I, hi, hI, hdone => by
    obtain ⟨t, ht, rfl⟩ := hA.surjOn (show i ∈ Set.Iio N from by simp; omega)
    have ht : t < N := ht
    have htI : t < I.length := hI ▸ ht
    refine .step (load_ok rfl (by omega)) ?_
    rw [hV t ht]
    refine .step (store_ok rfl htI _) ?_
    refine invert_returns hA hlen hV n (A t + 1) _ (by omega) (by simpa using hI) fun u hu hlt => ?_
    rw [val_set htI]
    split_ifs with hut
    · rw [hut]
    · have hne : A u ≠ A t := fun he => hut (hA.injOn hu ht he)
      exact hdone u hu (by omega)

/-- **The suffix sort ends inside its arrays**, and every entry of its result is a suffix. -/
theorem qsufsort_returns (hI : s.I.length = old.length + 1) (hV : s.V.length = old.length + 1) :
    Returns (qsufsort s old) fun I => I.length = old.length + 1 ∧
      ∃ A, Set.BijOn A (Set.Iio (old.length + 1)) (Set.Iio (old.length + 1)) ∧
        ∀ t, t < old.length + 1 → val I t = A t := by
  refine (bucketSort_returns hI hV).bind fun s₁ hs₁ => ?_
  obtain ⟨A₁, hl₁, hsegs⟩ := hs₁
  have hpow : old.length < 1 * 2 ^ (old.length + 1) := by
    have := Nat.lt_two_pow_self (n := old.length + 1)
    omega
  refine (refineLoop_returns (old.length + 1) 1 s₁ A₁ hpow hl₁ hsegs).bind fun s₂ hs₂ => ?_
  obtain ⟨A₂, hl₂, hfin⟩ := hs₂
  refine (invert_returns hl₂.bij hl₂.lenV hfin (old.length + 1) 0 s₂.I (by omega) hl₂.lenI
    fun t _ hlt => absurd hlt (Nat.not_lt_zero _)).mono fun I hI => ⟨hI.1, A₂, hl₂.bij, hI.2⟩

end Diff
end Recovery
