/-
# Menus with holes (extendedcommands.c)

`get_filtered_menu_selection` moves the items of an array with NULLs together, in place, and
notes where each came from. The table is what `malloc` returns, so it starts with any
contents.

Key definitions: `Filtering`.
Key theorems: `filtered_translated`.
-/
import Mathlib.Data.List.ReduceOption
import Recovery.Lib.Arrays
import Recovery.Bytes

namespace Recovery
namespace Menus

open Arrays

variable {α : Type}

/-! ### The source -/

structure Filter (α : Type) where
  itemsNew : List (Option α)
  translateTable : List ℤ
  offset : ℕ

def moveItem (index : ℕ) (item : α) (s : Filter α) : Except Stop (Filter α) := do
  let itemsNew ← store Stop.fault s.itemsNew index none
  let itemsNew ← store Stop.fault itemsNew s.offset (some item)
  let translateTable ← store Stop.fault s.translateTable s.offset (index : ℤ)
  .ok ⟨itemsNew, translateTable, s.offset + 1⟩

def filterLoop : ℕ → ℕ → Filter α → Except Stop (Filter α)
  | 0, _, s => .ok s
  | n + 1, index, s => do
    let item ← load Stop.fault s.itemsNew index
    let s ← match item with
      | none => .ok s
      | some item => moveItem index item s
    filterLoop n (index + 1) s

def filterItems (items : List (Option α)) (table : List ℤ) : Except Stop (Filter α) := do
  let s ← filterLoop items.length 0 ⟨items, table, 0⟩
  let itemsNew ← store Stop.fault s.itemsNew s.offset none
  .ok { s with itemsNew := itemsNew }

/-- The inner menu answers `ret`: what it is called with, and what is returned. -/
def getFilteredMenuSelection (items : List (Option α)) (table : List ℤ) (initialSelection ret : ℤ) :
    Except Stop (List (Option α) × ℤ × ℤ) := do
  let s ← filterItems items table
  let initial ← load Stop.fault s.translateTable initialSelection
  if ret < 0 ∨ (s.offset : ℤ) ≤ ret then .ok (s.itemsNew, initial, ret)
  else do
    let chosen ← load Stop.fault s.translateTable ret
    .ok (s.itemsNew, initial, chosen)

def shown (items : List (Option α)) : List α := (items.takeWhile Option.isSome).reduceOption

/-! ### The loop -/

theorem set_append_at {β : Type} {front : List β} {i : ℕ} (h : front.length = i) (a b : β) (rest : List β) :
    (front ++ a :: rest).set i b = front ++ b :: rest := by
  rw [List.set_append_right _ _ h.le, h, Nat.sub_self]
  rfl

/-- The items that are `done` are in front, and the table has where they came from. -/
structure Filtering (items : List (Option α)) (index : ℕ) (s : Filter α) : Prop where
  holes : ∃ g, (items.take index).reduceOption.length + g = index ∧
    s.itemsNew = (items.take index).reduceOption.map some ++ (List.replicate g none ++ items.drop index)
  offset_eq : s.offset = (items.take index).reduceOption.length
  table_len : s.translateTable.length = items.length
  table : List.Forall₂ (fun (j : ℤ) a => ∃ k : ℕ, j = k ∧ items[k]? = some (some a))
    (s.translateTable.take s.offset) (items.take index).reduceOption

variable {items : List (Option α)} {index : ℕ} {s : Filter α}

theorem Filtering.hole (h : Filtering items index s) (hitem : items[index]? = some none) : Filtering items (index + 1) s := by
  obtain ⟨hlt, hget⟩ := List.getElem?_eq_some_iff.mp hitem
  have htake : (items.take (index + 1)).reduceOption = (items.take index).reduceOption := by
    rw [List.take_add_one, hitem, Option.toList_some, List.reduceOption_append]
    exact List.append_nil _
  obtain ⟨g, hg, hnew⟩ := h.holes
  refine ⟨⟨g + 1, by rw [htake]; omega, ?_⟩, by rw [htake]; exact h.offset_eq, h.table_len, by rw [htake]; exact h.table⟩
  rw [htake, hnew, List.drop_eq_getElem_cons hlt, hget, List.replicate_succ', List.append_assoc, List.singleton_append]

/-- An item: it takes the first hole, or stays where it is if there is none. -/
theorem Filtering.move (h : Filtering items index s) {item : α} (hitem : items[index]? = some (some item)) :
    ∃ s', moveItem index item s = .ok s' ∧ Filtering items (index + 1) s' := by
  obtain ⟨hlt, hget⟩ := List.getElem?_eq_some_iff.mp hitem
  have htake : (items.take (index + 1)).reduceOption = (items.take index).reduceOption ++ [item] := by
    rw [List.take_add_one, hitem, Option.toList_some, List.reduceOption_append]
    rfl
  obtain ⟨g, hg, hnew⟩ := h.holes
  have hoff := h.offset_eq
  have htable := h.table
  generalize hdone : (items.take index).reduceOption = done at *
  have hfront : (done.map some ++ List.replicate g (none : Option α)).length = index := by simp [hg]
  -- the item becomes a hole, and the first hole becomes the item
  have hcleared : s.itemsNew.set index none = done.map some ++ none :: (List.replicate g none ++ items.drop (index + 1)) := by
    rw [hnew, List.drop_eq_getElem_cons hlt, ← List.append_assoc, set_append_at hfront, List.append_assoc,
      List.append_cons (List.replicate g none), ← List.replicate_succ']
    rfl
  have hmoved : (s.itemsNew.set index none).set s.offset (some item) =
      (done ++ [item]).map some ++ (List.replicate g none ++ items.drop (index + 1)) := by
    rw [hcleared, set_append_at (by rw [List.length_map, hoff])]
    simp
  have hlen : s.itemsNew.length = items.length := by
    rw [hnew]
    simp only [List.length_append, List.length_map, List.length_replicate, List.length_drop]
    omega
  have hoffset : s.offset < items.length := by omega
  refine ⟨⟨_, s.translateTable.set s.offset (index : ℤ), s.offset + 1⟩, ?_, ⟨⟨g, ?_, hmoved.trans (by rw [htake])⟩, ?_, ?_, ?_⟩⟩
  · rw [moveItem, store_ok rfl (hlen.symm ▸ hlt), ok_bind, store_ok rfl (by rw [List.length_set, hlen]; exact hoffset), ok_bind,
      store_ok rfl (h.table_len.symm ▸ hoffset), ok_bind]
  · rw [htake, List.length_append, List.length_singleton]
    omega
  · rw [htake, List.length_append, List.length_singleton, hoff]
  · rw [List.length_set]
    exact h.table_len
  · rw [htake, List.take_add_one, List.take_set_of_le le_rfl, List.getElem?_set_self (h.table_len.symm ▸ hoffset)]
    exact List.rel_append htable (.cons ⟨index, rfl, hitem⟩ .nil)

theorem Filtering.loop : ∀ (n : ℕ) {index : ℕ} {s : Filter α}, Filtering items index s → index + n = items.length →
    ∃ s', filterLoop n index s = .ok s' ∧ Filtering items items.length s'
  | 0, index, s, h, hn => ⟨s, rfl, by rw [← hn]; exact h⟩
  | n + 1, index, s, h, hn => by
    have hlt : index < items.length := by omega
    have hload : load Stop.fault s.itemsNew index = .ok items[index] := by
      obtain ⟨g, hg, hnew⟩ := h.holes
      have hfront : ((items.take index).reduceOption.map some ++ List.replicate g (none : Option α)).length = index := by simp [hg]
      have hat : s.itemsNew[index]? = some items[index] := by
        rw [hnew, ← List.append_assoc, List.getElem?_append_right hfront.le, hfront, Nat.sub_self, List.getElem?_drop, Nat.add_zero]
        exact List.getElem?_eq_getElem hlt
      obtain ⟨hlt', hget⟩ := List.getElem?_eq_some_iff.mp hat
      rw [load_ok rfl hlt', val, List.getD_eq_getElem _ _ hlt', hget]
    rw [filterLoop, hload, ok_bind]
    cases hitem : items[index] with
    | none =>
      exact Filtering.loop n (h.hole (by rw [List.getElem?_eq_getElem hlt, hitem])) (by omega)
    | some item =>
      have hat : items[index]? = some (some item) := by rw [List.getElem?_eq_getElem hlt, hitem]
      obtain ⟨s', hmove, h'⟩ := h.move hat
      simp only [hmove, ok_bind]
      exact Filtering.loop n h' (by omega)

/-! ### The menu -/

theorem shown_append {done : List α} (rest : List (Option α)) : shown (done.map some ++ none :: rest) = done := by
  unfold shown
  rw [List.takeWhile_append_of_pos (by simp)]
  simp [List.reduceOption]

theorem filterItems_ok {table : List ℤ} (hnull : none ∈ items) (htable : table.length = items.length) :
    ∃ s, filterItems items table = .ok s ∧ shown s.itemsNew = items.reduceOption ∧ s.offset = items.reduceOption.length ∧
      s.translateTable.length = items.length ∧
      List.Forall₂ (fun (j : ℤ) a => ∃ k : ℕ, j = k ∧ items[k]? = some (some a))
        (s.translateTable.take s.offset) items.reduceOption := by
  have hstart : Filtering items 0 ⟨items, table, 0⟩ := ⟨⟨0, by simp, by simp⟩, by simp, htable, by simp⟩
  obtain ⟨s, hrun, h⟩ := hstart.loop items.length (Nat.zero_add _)
  obtain ⟨g, hg, hnew⟩ := h.holes
  have hoff := h.offset_eq
  have htab := h.table
  rw [List.take_length] at hg hnew hoff htab
  have hroom : items.reduceOption.length < items.length := List.reduceOption_length_lt_iff.mpr hnull
  obtain ⟨g, rfl⟩ : ∃ n, g = n + 1 := ⟨g - 1, by omega⟩
  have hset : s.itemsNew.set s.offset none = items.reduceOption.map some ++ none ::
    (List.replicate g none ++ items.drop items.length) := by
    rw [hnew, List.replicate_succ, List.cons_append, set_append_at (by rw [List.length_map, hoff])]
  refine ⟨{ s with itemsNew := s.itemsNew.set s.offset none }, ?_, ?_, hoff, h.table_len, htab⟩
  · have hlen : s.offset < s.itemsNew.length := by
      rw [hnew, hoff]
      simp
    rw [filterItems, hrun, ok_bind, store_ok rfl hlen, ok_bind]
  · dsimp only
    rw [hset, shown_append]

/-- **The index is translated.** The inner menu gets the items that are not NULL, in order; an index of these becomes the one
that the item has in the original array, and any other answer is passed on. -/
theorem filtered_translated (items : List (Option α)) (hnull : none ∈ items) (table : List ℤ) (htable : table.length = items.length)
    (initialSelection : ℕ) (hinitial : initialSelection < items.length) (ret : ℤ) :
    ∃ itemsNew initial r, getFilteredMenuSelection items table initialSelection ret = .ok (itemsNew, initial, r) ∧
      shown itemsNew = items.reduceOption ∧
      (∀ (i : ℕ) (hi : i < items.reduceOption.length), ret = i → ∃ k : ℕ, r = k ∧ items[k]? = some (some items.reduceOption[i])) ∧
      (ret < 0 ∨ (items.reduceOption.length : ℤ) ≤ ret → r = ret) := by
  obtain ⟨s, hs, hshown, hoff, hlen, htab⟩ := filterItems_ok hnull htable
  have hinit : load Stop.fault s.translateTable (initialSelection : ℤ) = .ok (val s.translateTable initialSelection) :=
    load_ok rfl (hlen.symm ▸ hinitial)
  have hroom : items.reduceOption.length ≤ items.length := List.reduceOption_length_le items
  rw [getFilteredMenuSelection, hs, ok_bind, hinit, ok_bind, hoff]
  by_cases hret : ret < 0 ∨ (items.reduceOption.length : ℤ) ≤ ret
  · refine ⟨s.itemsNew, _, ret, by rw [if_pos hret], hshown, fun i hi heq => ?_, fun _ => rfl⟩
    omega
  · obtain ⟨i, rfl⟩ := Int.eq_ofNat_of_zero_le (by omega : 0 ≤ ret)
    have hi : i < items.reduceOption.length := by omega
    refine ⟨s.itemsNew, val s.translateTable initialSelection, val s.translateTable i, ?_, hshown,
      fun j hj heq => ?_, fun h => absurd h hret⟩
    · rw [if_neg hret, load_ok rfl (show i < s.translateTable.length by omega), ok_bind]
    · obtain rfl : i = j := Int.ofNat.inj heq
      have hlt : i < (s.translateTable.take s.offset).length := by
        rw [List.length_take]
        omega
      have hval : val s.translateTable i = (s.translateTable.take s.offset).get ⟨i, hlt⟩ := by
        rw [List.get_eq_getElem, List.getElem_take, val, List.getD_eq_getElem]
      rw [hval]
      exact htab.get hlt hj

/-- Three items, two of them shown; the second one that is shown is the third. -/
theorem filtered_translated_third :
    ∃ itemsNew initial r, getFilteredMenuSelection [some 'a', none, some 'c'] [0, 0, 0] 0 1 = .ok (itemsNew, initial, r) ∧
      shown itemsNew = ['a', 'c'] ∧ ∃ k : ℕ, r = k ∧ [some 'a', none, some 'c'][k]? = some (some 'c') := by
  obtain ⟨itemsNew, initial, r, hrun, hshown, hchosen, -⟩ :=
    filtered_translated [some 'a', none, some 'c'] (by decide) [0, 0, 0] rfl 0 (by decide) 1
  exact ⟨itemsNew, initial, r, hrun, hshown, hchosen 1 (by decide) rfl⟩

end Menus
end Recovery
