/-
# The hash table of minzip (Hash.c)

Open addressing with linear probing: a slot is empty (`NULL`), a tombstone or holds an item
with its hash. A probe that meets neither an empty slot nor a match goes round for ever
(`hang`).

Key definitions: `HashTable.Fits`.
Key theorems: `HashTable.Fits.lookup`, `HashTable.Fits.add`.
-/
import Recovery.Bytes
import Recovery.Lib.Probing
import Mathlib.Data.Nat.Bitwise
import Mathlib.Data.Finset.Card

namespace Recovery
namespace Zip

/-- An entry of the table: its `data` pointer is `NULL`, `HASH_TOMBSTONE` or an item. -/
inductive Slot (α : Type)
  | null
  | tombstone
  | item (hashValue : UInt32) (data : α)

structure HashTable (α : Type) where
  tableSize : ℕ
  numEntries : ℕ
  numDeadEntries : ℕ
  pEntries : ℕ → Slot α

def loadNumer : ℕ := 5
def loadDenom : ℕ := 8

/-- The capacity needed to hold `size` elements. -/
def mzHashSize (size : ℕ) : ℕ := size * loadDenom / loadNumer + 1

/-- Round up to the next power of two, by smearing the bits of `val - 1`. -/
def roundUpPower2 (val : UInt32) : UInt32 :=
  let v := val - 1
  let v := v ||| (v >>> 1)
  let v := v ||| (v >>> 2)
  let v := v ||| (v >>> 4)
  let v := v ||| (v >>> 8)
  let v := v ||| (v >>> 16)
  v + 1

def mzHashTableCreate (α : Type) (initialSize : ℕ) : Except Stop (HashTable α) := do
  failIf (initialSize = 0) .abort
  pure ⟨(roundUpPower2 (UInt32.ofNat initialSize)).toNat, 0, 0, fun _ => .null⟩

section

variable {α : Type}

def nextSlot (tableSize i : ℕ) : ℕ := if i + 1 = tableSize then 0 else i + 1

/-- `none` to probe on, `some none` at an empty slot, `some (some data)` at a match. -/
def Slot.look (itemHash : UInt32) (cmpFunc : α → Bool) : Slot α → Option (Option α)
  | .null => some none
  | .tombstone => none
  | .item h data => if h = itemHash ∧ cmpFunc data = true then some (some data) else none

/-- From slot `i` over at most `n` slots: where it ends and the item it matched. After a
full round it would go on for ever. -/
def probe (t : HashTable α) (itemHash : UInt32) (cmpFunc : α → Bool) : ℕ → ℕ → Except Stop (ℕ × Option α)
  | 0, _ => .error .hang
  | n + 1, i =>
    match (t.pEntries i).look itemHash cmpFunc with
    | some r => .ok (i, r)
    -- in a table of one slot the loop is left behind its end
    | none => if t.tableSize = 1 then .error .fault else probe t itemHash cmpFunc n (nextSlot t.tableSize i)

/-- The first empty slot from `i` on, in the new storage of a resize. -/
def probeNull (pNewEntries : ℕ → Slot α) (newSize : ℕ) : ℕ → ℕ → Except Stop ℕ
  | 0, _ => .error .hang
  | n + 1, i =>
    match pNewEntries i with
    | .null => .ok i
    | _ => probeNull pNewEntries newSize n ((i + 1) &&& (newSize - 1))

/-- The loop of `resizeHash`: re-insert the slots from `i` on, `n` of them. -/
def reinsert (t : HashTable α) (newSize : ℕ) : ℕ → ℕ → (ℕ → Slot α) → Except Stop (ℕ → Slot α)
  | 0, _, pNewEntries => .ok pNewEntries
  | n + 1, i, pNewEntries =>
    match t.pEntries i with
    | .item h data => do
      let newIdx ← probeNull pNewEntries newSize newSize (h.toNat &&& (newSize - 1))
      reinsert t newSize n (i + 1) (Function.update pNewEntries newIdx (.item h data))
    | _ => reinsert t newSize n (i + 1) pNewEntries

def Slot.isTombstone : Slot α → Bool
  | .tombstone => true
  | _ => false

def countTombStones (t : HashTable α) : ℕ := (List.range t.tableSize).countP fun i => (t.pEntries i).isTombstone

def resizeHash (t : HashTable α) (newSize : ℕ) : Except Stop (HashTable α) := do
  failIf (countTombStones t ≠ t.numDeadEntries) .abort
  let pNewEntries ← reinsert t newSize t.tableSize 0 fun _ => .null
  let t := { t with pEntries := pNewEntries, tableSize := newSize, numDeadEntries := 0 }
  failIf (countTombStones t ≠ 0) .abort
  pure t

/-- The item found or added, and the table. -/
def mzHashTableLookup (t : HashTable α) (itemHash : UInt32) (item : Option α) (cmpFunc : α → Bool) :
    Except Stop (Option α × HashTable α) := do
  failIf (t.tableSize = 0) .abort
  let (i, found) ← probe t itemHash cmpFunc t.tableSize (itemHash.toNat &&& (t.tableSize - 1))
  match found, item with
  | some data, _ => pure (some data, t)
  | none, none => pure (none, t)
  | none, some item =>
    let t' := { t with pEntries := Function.update t.pEntries i (.item itemHash item),
                       numEntries := t.numEntries + 1 }
    -- the products are `int`s
    let t' ← if s32 ((t'.numEntries + t'.numDeadEntries) * loadDenom) > s32 (t'.tableSize * loadNumer) then
        resizeHash t' (t'.tableSize * 2) else pure t'
    failIf (t'.tableSize ≤ t'.numEntries) .abort
    pure (some item, t')

/-! ### The probe -/

theorem nextSlot_eq_mod {m i : ℕ} (hi : i < m) : nextSlot m i = (i + 1) % m := by
  unfold nextSlot
  split_ifs with h
  · rw [h, Nat.mod_self]
  · rw [Nat.mod_eq_of_lt (by omega)]

theorem probe_first (t : HashTable α) (h : UInt32) (cmp : α → Bool) (hm : 1 < t.tableSize) :
    ∀ (n i d : ℕ) (r : Option α), i < t.tableSize → d < n →
      (t.pEntries ((i + d) % t.tableSize)).look h cmp = some r →
      (∀ k < d, (t.pEntries ((i + k) % t.tableSize)).look h cmp = none) →
      probe t h cmp n i = .ok ((i + d) % t.tableSize, r)
  | n + 1, i, 0, r, hi, _, hr, _ => by
    simp only [Nat.add_zero, Nat.mod_eq_of_lt hi] at hr ⊢
    simp only [probe, hr]
  | n + 1, i, d + 1, r, hi, hd, hr, hk => by
    have h0 := hk 0 (by omega)
    rw [Nat.add_zero, Nat.mod_eq_of_lt hi] at h0
    have hshift : ∀ k, (nextSlot t.tableSize i + k) % t.tableSize = (i + (k + 1)) % t.tableSize := fun k => by
      rw [nextSlot_eq_mod hi, Nat.mod_add_mod]
      congr 1
      omega
    have hn : nextSlot t.tableSize i < t.tableSize := nextSlot_eq_mod hi ▸ Nat.mod_lt _ (by omega)
    simp only [probe, h0, if_neg (show ¬ t.tableSize = 1 by omega)]
    rw [probe_first t h cmp hm n (nextSlot t.tableSize i) d r hn (by omega) (hshift d ▸ hr)
      fun k hkd => hshift k ▸ hk (k + 1) (by omega), hshift]

/-! ### Tables in order -/

def Occupied (t : HashTable α) (j : ℕ) : Prop := t.pEntries j ≠ .null

/-- Slot `j` is one a lookup with this hash and comparison wants. -/
def Wanted (t : HashTable α) (h : UInt32) (cmp : α → Bool) (j : ℕ) : Prop :=
  ∃ data, t.pEntries j = .item h data ∧ cmp data = true

theorem look_isSome_iff (t : HashTable α) (h : UInt32) (cmp : α → Bool) (j : ℕ) :
    ((t.pEntries j).look h cmp).isSome ↔ ¬ Occupied t j ∨ Wanted t h cmp j := by
  unfold Occupied Wanted
  cases t.pEntries j with
  | null => simp [Slot.look]
  | tombstone => simp [Slot.look]
  | item h' data =>
    by_cases hc : h' = h ∧ cmp data = true
    · simp [Slot.look, hc.1, hc.2]
    · simp only [Slot.look, if_neg hc]
      simpa using hc

def home (t : HashTable α) (h : UInt32) : ℕ := h.toNat &&& (t.tableSize - 1)

/-- The capacity is a power of two, the counts are right and within the load factor, and
every item is chained to its home. -/
structure HashTable.Fits (t : HashTable α) : Prop where
  pow : ∃ k, t.tableSize = 2 ^ (k + 1)
  items : ∃ s : Finset ℕ, s.card = t.numEntries ∧
    ∀ j, j ∈ s ↔ j < t.tableSize ∧ ∃ h data, t.pEntries j = .item h data
  tombstones : ∃ s : Finset ℕ, s.card = t.numDeadEntries ∧
    ∀ j, j ∈ s ↔ j < t.tableSize ∧ t.pEntries j = .tombstone
  load : (t.numEntries + t.numDeadEntries) * loadDenom ≤ t.tableSize * loadNumer
  chained : ∀ j h data, j < t.tableSize → t.pEntries j = .item h data →
    Probing.Chained t.tableSize (Occupied t) (home t h) j

variable {t : HashTable α}

theorem HashTable.Fits.one_lt (hf : t.Fits) : 1 < t.tableSize := by
  obtain ⟨k, hk⟩ := hf.pow
  rw [hk]
  exact Nat.one_lt_two_pow (by omega)

theorem HashTable.Fits.home_lt (hf : t.Fits) (h : UInt32) : home t h < t.tableSize := by
  have := hf.one_lt
  exact lt_of_le_of_lt Nat.and_le_right (by omega)

theorem HashTable.Fits.exists_free (hf : t.Fits) : ∃ j < t.tableSize, ¬ Occupied t j := by
  by_contra hall
  push Not at hall
  obtain ⟨s, hs, hsm⟩ := hf.items
  obtain ⟨d, hd, hdm⟩ := hf.tombstones
  have hsub : Finset.range t.tableSize ⊆ s ∪ d := fun j hj => by
    have hocc := hall j (Finset.mem_range.mp hj)
    rw [Finset.mem_union, hsm, hdm]
    cases hslot : t.pEntries j with
    | null => exact absurd hslot hocc
    | tombstone => exact Or.inr ⟨Finset.mem_range.mp hj, rfl⟩
    | item h data => exact Or.inl ⟨Finset.mem_range.mp hj, h, data, rfl⟩
  have hle := (Finset.card_le_card hsub).trans (Finset.card_union_le s d)
  have hload := hf.load
  have hpos := hf.one_lt
  rw [Finset.card_range, hs, hd] at hle
  simp only [loadDenom, loadNumer] at hload
  omega

/-- It matches an item if there is one, and ends at an empty slot chained to its start otherwise. -/
theorem HashTable.Fits.probe_spec (hf : t.Fits) (h : UInt32) (cmp : α → Bool) :
    ∃ j < t.tableSize,
      (∃ data, probe t h cmp t.tableSize (home t h) = .ok (j, some data) ∧
        t.pEntries j = .item h data ∧ cmp data = true) ∨
      (probe t h cmp t.tableSize (home t h) = .ok (j, none) ∧ ¬ Occupied t j ∧
        Probing.Chained t.tableSize (Occupied t) (home t h) j ∧ ∀ k < t.tableSize, ¬ Wanted t h cmp k) := by
  obtain ⟨f, hf1, hf2⟩ := hf.exists_free
  obtain ⟨d, hd⟩ := Probing.exists_first (p := fun k => ¬ Occupied t k ∨ Wanted t h cmp k) (hf.home_lt h)
    ⟨f, hf1, Or.inl hf2⟩
  have hpos : 0 < t.tableSize := by have := hf.one_lt; omega
  set j := (home t h + d) % t.tableSize with hj
  obtain ⟨r, hr⟩ := Option.isSome_iff_exists.mp ((look_isSome_iff t h cmp j).mpr hd.2.1)
  have hprobe : probe t h cmp t.tableSize (home t h) = .ok (j, r) :=
    probe_first t h cmp hf.one_lt _ _ d r (hf.home_lt h) hd.1 hr fun k hk =>
      Option.not_isSome_iff_eq_none.mp fun hs => hd.2.2 k hk ((look_isSome_iff t h cmp _).mp hs)
  refine ⟨j, Nat.mod_lt _ hpos, ?_⟩
  by_cases hw : Wanted t h cmp j
  · obtain ⟨data, hdata, hc⟩ := hw
    have hrd : r = some data := by
      simpa [Slot.look, hdata, hc] using hr.symm
    exact Or.inl ⟨data, hrd ▸ hprobe, hdata, hc⟩
  · have hfree : ¬ Occupied t j := hd.2.1.resolve_right hw
    have hrn : r = none := by
      simpa [Slot.look, not_not.mp hfree] using hr.symm
    refine Or.inr ⟨hrn ▸ hprobe, hfree, Probing.Chained.first hd fun k hk => Or.inl hk, fun k hk hwk => hw ?_⟩
    -- a wanted slot anywhere would be chained to the start, and the probe would have found one
    obtain ⟨data, hdata, hc⟩ := hwk
    exact Probing.first_of_chained hd (hf.chained k h data hk hdata) ⟨data, hdata, hc⟩

def HashTable.Holds (t : HashTable α) (h : UInt32) (data : α) : Prop :=
  ∃ j < t.tableSize, t.pEntries j = .item h data

theorem HashTable.Fits.lookup (hf : t.Fits) (h : UInt32) (cmp : α → Bool) :
    ∃ r, mzHashTableLookup t h none cmp = .ok (r, t) ∧ (∀ data, r = some data → t.Holds h data ∧ cmp data = true) ∧
      (r = none → ∀ data, t.Holds h data → cmp data = false) := by
  have hpos : ¬ t.tableSize = 0 := by have := hf.one_lt; omega
  obtain ⟨j, hj, ⟨data, hp, hd, hc⟩ | ⟨hp, -, -, hw⟩⟩ := hf.probe_spec h cmp
  · refine ⟨some data, ?_, ?_, by simp⟩
    · simp only [mzHashTableLookup, failIf_bind, if_neg hpos, show h.toNat &&& (t.tableSize - 1) = home t h from rfl,
        hp, ok_bind]
      rfl
    · rintro d ⟨⟩
      exact ⟨⟨j, hj, hd⟩, hc⟩
  · refine ⟨none, ?_, by simp, fun _ data ⟨k, hk, hd⟩ => ?_⟩
    · simp only [mzHashTableLookup, failIf_bind, if_neg hpos, show h.toNat &&& (t.tableSize - 1) = home t h from rfl,
        hp, ok_bind]
      rfl
    · by_contra hc
      exact hw k hk ⟨data, hd, by simpa using hc⟩

def HashTable.put (t : HashTable α) (i : ℕ) (h : UInt32) (item : α) : HashTable α :=
  { t with pEntries := Function.update t.pEntries i (.item h item), numEntries := t.numEntries + 1 }

theorem pEntries_put_self (t : HashTable α) (j : ℕ) (h : UInt32) (item : α) : (t.put j h item).pEntries j = .item h item :=
  Function.update_self ..

theorem pEntries_put_of_ne {i j : ℕ} {h : UInt32} {item : α} (hij : i ≠ j) :
    (t.put j h item).pEntries i = t.pEntries i := Function.update_of_ne hij ..

theorem holds_put {j : ℕ} {h : UInt32} {item : α} (hj : j < t.tableSize) (hnull : t.pEntries j = .null) (h' : UInt32) (data : α) :
    (t.put j h item).Holds h' data ↔ t.Holds h' data ∨ h' = h ∧ data = item := by
  constructor
  · rintro ⟨k, hk, hd⟩
    by_cases hkj : k = j
    · rw [hkj, pEntries_put_self, Slot.item.injEq] at hd
      exact .inr ⟨hd.1.symm, hd.2.symm⟩
    · exact .inl ⟨k, hk, by rwa [pEntries_put_of_ne hkj] at hd⟩
  · rintro (⟨k, hk, hd⟩ | ⟨rfl, rfl⟩)
    · have hkj : k ≠ j := by
        rintro rfl
        rw [hnull] at hd
        cases hd
      exact ⟨k, hk, by rwa [pEntries_put_of_ne hkj]⟩
    · exact ⟨j, hj, pEntries_put_self ..⟩

theorem HashTable.Fits.fill (hf : t.Fits) {h : UInt32} {j : ℕ} (item : α) (hj : j < t.tableSize) (hfree : ¬ Occupied t j)
    (hch : Probing.Chained t.tableSize (Occupied t) (home t h) j)
    (hroom : (t.numEntries + 1 + t.numDeadEntries) * loadDenom ≤ t.tableSize * loadNumer) : (t.put j h item).Fits := by
  have hocc : ∀ k, Occupied t k → Occupied (t.put j h item) k := fun k hk => by
    by_cases hkj : k = j
    · exact absurd (hkj ▸ hk) hfree
    · rwa [Occupied, pEntries_put_of_ne hkj]
  have hnull : t.pEntries j = .null := not_not.mp hfree
  refine ⟨hf.pow, ?_, ?_, hroom, fun k h' data hk hd => ?_⟩
  · obtain ⟨s, hs, hsm⟩ := hf.items
    have hnot : j ∉ s := fun hm => by simpa [hnull] using (hsm j).mp hm
    refine ⟨insert j s, by rw [Finset.card_insert_of_notMem hnot, hs]; rfl, fun k => ?_⟩
    rw [Finset.mem_insert, hsm]
    by_cases hkj : k = j
    · simp [hkj, HashTable.put, hj]
    · simp [hkj, HashTable.put]
  · obtain ⟨s, hs, hsm⟩ := hf.tombstones
    refine ⟨s, hs, fun k => ?_⟩
    rw [hsm]
    by_cases hkj : k = j
    · simp [hkj, HashTable.put, hnull]
    · simp [HashTable.put, Function.update_of_ne hkj]
  · by_cases hkj : k = j
    · subst hkj
      obtain ⟨rfl, rfl⟩ : h = h' ∧ item = data := by simpa [pEntries_put_self] using hd
      exact hch.mono hocc
    · exact (hf.chained k h' data hk (by rwa [pEntries_put_of_ne hkj] at hd)).mono hocc

/-- In a table of at most `2 ^ 28` slots the test of the load does not overflow. -/
theorem load_test {n m : ℕ} (hn : n * loadDenom ≤ m * loadNumer) (hm : m ≤ 2 ^ 28) :
    ¬ s32 (n * loadDenom) > s32 (m * loadNumer) := by
  simp only [loadDenom, loadNumer] at hn ⊢
  rw [s32_of_lt (by push_cast; omega) (by push_cast; omega), s32_of_lt (by push_cast; omega) (by push_cast; omega)]
  push_cast
  omega

theorem lookup_fills {h : UInt32} {cmp : α → Bool} {j : ℕ} {item : α} (hpos : t.tableSize ≠ 0)
    (hprobe : probe t h cmp t.tableSize (h.toNat &&& (t.tableSize - 1)) = .ok (j, none))
    (htest : ¬ s32 (((t.numEntries + 1 : ℕ) + t.numDeadEntries) * loadDenom) > s32 (t.tableSize * loadNumer))
    (hfull : t.numEntries + 1 < t.tableSize) : mzHashTableLookup t h (some item) cmp = .ok (some item, t.put j h item) := by
  simp only [mzHashTableLookup, failIf_bind, if_neg hpos, hprobe, ok_bind, if_neg htest, pure, Except.pure,
    if_neg (show ¬ t.tableSize ≤ t.numEntries + 1 by omega)]
  rfl

/-- An item that matches is there already, or the table holds the new one on top. -/
theorem HashTable.Fits.add (hf : t.Fits) (h : UInt32) (item : α) (cmp : α → Bool)
    (hroom : (t.numEntries + 1 + t.numDeadEntries) * loadDenom ≤ t.tableSize * loadNumer) (hsmall : t.tableSize ≤ 2 ^ 28) :
    ∃ r t', mzHashTableLookup t h (some item) cmp = .ok (r, t') ∧ t'.Fits ∧ t'.tableSize = t.tableSize ∧
      t'.numEntries ≤ t.numEntries + 1 ∧ t'.numDeadEntries = t.numDeadEntries ∧
      ((t' = t ∧ ∃ data, t.Holds h data ∧ cmp data = true) ∨
        ∀ h' data, t'.Holds h' data ↔ t.Holds h' data ∨ (h' = h ∧ data = item)) := by
  have hpos : ¬ t.tableSize = 0 := by have := hf.one_lt; omega
  obtain ⟨j, hj, ⟨data, hp, hd, hc⟩ | ⟨hp, hfree, hch, -⟩⟩ := hf.probe_spec h cmp
  · refine ⟨some data, t, ?_, hf, rfl, by omega, rfl, Or.inl ⟨rfl, data, ⟨j, hj, hd⟩, hc⟩⟩
    simp only [mzHashTableLookup, failIf_bind, if_neg hpos, show h.toNat &&& (t.tableSize - 1) = home t h from rfl,
      hp, ok_bind]
    rfl
  · refine ⟨some item, _, ?_, hf.fill item hj hfree hch hroom, rfl, le_rfl, rfl,
      Or.inr fun h' data => holds_put hj (not_not.mp hfree) h' data⟩
    have hload := load_test hroom hsmall
    push_cast at hload
    have hfull : t.numEntries + 1 < t.tableSize := by
      have := hf.one_lt
      simp only [loadDenom, loadNumer] at hroom
      omega
    exact lookup_fills hpos hp (by push_cast; exact hload) hfull

/-! ### A new table -/

/-- Bit `i` of `x` is set if one of the `n` bits of `w` from `i` on is. -/
def Smeared (w n x : ℕ) : Prop := ∀ i, x.testBit i = true ↔ ∃ j < n, w.testBit (i + j) = true

theorem Smeared.shift {w n x : ℕ} (h : Smeared w n x) : Smeared w (n + n) (x ||| x >>> n) := by
  intro i
  rw [Nat.testBit_or, Nat.testBit_shiftRight, Bool.or_eq_true, h i, h (n + i)]
  constructor
  · rintro (⟨j, hj, hw⟩ | ⟨j, hj, hw⟩)
    · exact ⟨j, by omega, hw⟩
    · exact ⟨n + j, by omega, by rwa [show i + (n + j) = n + i + j by omega]⟩
  · rintro ⟨j, hj, hw⟩
    by_cases hjn : j < n
    · exact Or.inl ⟨j, hjn, hw⟩
    · exact Or.inr ⟨j - n, by omega, by rwa [show n + i + (j - n) = i + j by omega]⟩

theorem Smeared.eq_two_pow {w x : ℕ} (h : Smeared w 32 x) (hw : w < 2 ^ 31) (h0 : w ≠ 0) :
    ∃ k < 31, x + 1 = 2 ^ (k + 1) ∧ 2 ^ k ≤ w ∧ w < 2 ^ (k + 1) := by
  obtain ⟨k, hk, habove⟩ := Nat.exists_most_significant_bit h0
  have hk31 : k < 31 := by
    by_contra hge
    have : w.testBit k = false := Nat.testBit_lt_two_pow (hw.trans_le (Nat.pow_le_pow_right (by norm_num) (by omega)))
    simp [this] at hk
  have hx : x = 2 ^ (k + 1) - 1 := by
    apply Nat.eq_of_testBit_eq
    intro i
    rw [Nat.testBit_two_pow_sub_one, Bool.eq_iff_iff, h i, decide_eq_true_eq]
    constructor
    · rintro ⟨j, -, hj⟩
      by_contra hlt
      simp [habove (i + j) (by omega)] at hj
    · intro hi
      exact ⟨k - i, by omega, by rwa [show i + (k - i) = k by omega]⟩
  have hpow : 0 < 2 ^ (k + 1) := Nat.two_pow_pos _
  exact ⟨k, hk31, by omega, Nat.ge_two_pow_of_testBit hk, Nat.lt_pow_two_of_testBit w fun i hi => habove i (by omega)⟩

theorem roundUpPower2_spec {v : UInt32} (h1 : 1 < v.toNat) (h2 : v.toNat ≤ 2 ^ 31) :
    ∃ k, (roundUpPower2 v).toNat = 2 ^ (k + 1) ∧ 2 ^ k < v.toNat ∧ v.toNat ≤ 2 ^ (k + 1) := by
  have hw : (v - 1).toNat = v.toNat - 1 := by
    rw [UInt32.toNat_sub_of_le _ _ (by simpa [UInt32.le_iff_toNat_le] using by omega)]
    rfl
  have h0 : Smeared (v.toNat - 1) 1 (v - 1).toNat := fun i => by simp [hw]
  have hs := h0.shift.shift.shift.shift.shift
  obtain ⟨k, hk, hx, hge, hlt⟩ := hs.eq_two_pow (by omega) (by omega)
  refine ⟨k, ?_, by omega, by omega⟩
  have hbound : 2 ^ (k + 1) ≤ 2 ^ 31 := Nat.pow_le_pow_right (by norm_num) (by omega)
  simp only [roundUpPower2, UInt32.toNat_add, UInt32.toNat_or, UInt32.toNat_shiftRight]
  rw [show (1 : UInt32).toNat = 1 from rfl, show (2 : UInt32).toNat = 2 from rfl,
    show (4 : UInt32).toNat = 4 from rfl, show (8 : UInt32).toNat = 8 from rfl,
    show (16 : UInt32).toNat = 16 from rfl]
  norm_num at hx hbound ⊢
  rw [hx, Nat.mod_eq_of_lt (by omega)]

/-- A new table is in order, empty and has room for as many items as it was made for. -/
theorem mzHashTableCreate_spec (α : Type) {n : ℕ} (h0 : 0 < n) (hn : n < 2 ^ 27) :
    ∃ t : HashTable α, mzHashTableCreate α (mzHashSize n) = .ok t ∧ t.Fits ∧ t.numEntries = 0 ∧
      t.numDeadEntries = 0 ∧ n * loadDenom ≤ t.tableSize * loadNumer ∧ t.tableSize ≤ 2 ^ 28 ∧ ∀ h data, ¬ t.Holds h data := by
  have hsize : 1 < mzHashSize n ∧ mzHashSize n < 2 ^ 28 ∧ n * loadDenom ≤ mzHashSize n * loadNumer := by
    simp only [mzHashSize, loadDenom, loadNumer]
    omega
  have hnat : (UInt32.ofNat (mzHashSize n)).toNat = mzHashSize n := by
    rw [UInt32.toNat_ofNat', Nat.mod_eq_of_lt (by omega)]
  obtain ⟨k, hk, hlt, hle⟩ := roundUpPower2_spec (v := UInt32.ofNat (mzHashSize n)) (by omega) (by omega)
  rw [hnat] at hle hlt
  have hk28 : k < 28 := (Nat.pow_lt_pow_iff_right (by norm_num)).mp (hlt.trans hsize.2.1)
  refine ⟨⟨_, 0, 0, fun _ => .null⟩, ?_, ⟨⟨k, hk⟩, ⟨∅, rfl, by simp⟩, ⟨∅, rfl, by simp⟩, by simp, by simp⟩, rfl, rfl, ?_, ?_, ?_⟩
  · simp only [mzHashTableCreate, failIf_bind, if_neg (show ¬ mzHashSize n = 0 by omega)]
    rfl
  · exact hsize.2.2.trans (Nat.mul_le_mul_right _ (hle.trans_eq hk.symm))
  · exact hk.trans_le (Nat.pow_le_pow_right (by norm_num) (by omega))
  · rintro h data ⟨j, -, hj⟩
    simp at hj

end

end Zip
end Recovery
