/-
# The advanced menu (extendedcommands.c)

`show_advanced_menu` has a static array for its items: seven texts, and one for each volume
that can be partitioned. `memset` clears only the first few pointers, and the array keeps
pointers that are freed. A pointer carries the invocation that stored it. What is done with
the chosen item and the entries of some boards are left out.

Key theorems: `advanced_current`, `advanced_stale`.
-/
import Recovery.Menus.Filtered
import Recovery.Text

namespace Recovery
namespace Menus

open Arrays

/-! ### The source -/

/-- `MAX_NUM_MANAGED_VOLUMES` and the size of a pointer. -/
structure Config where
  maxVolumes : ℕ
  pointerSize : ℕ

def fixedEntries : ℕ := 7

def Config.listSize (cfg : Config) : ℕ := cfg.maxVolumes + fixedEntries + 1

/-- A pointer with the invocation that stored it, or what `memset` left of one. -/
inductive Pointer
  | text (storedIn : ℕ) (s : CString)
  | torn
  deriving DecidableEq

/-- What an invocation finds. `heap` is what is in the memory that it gets. -/
structure Invocation where
  downloadMode : Bool
  primaryPath : CString
  extraPaths : List CString
  canPartition : CString → Bool
  heap : ℕ → ℤ

/-- `memset` of `n` bytes on pointers of `w` bytes. -/
def clearBytes (n w : ℕ) (list : List (Option Pointer)) : List (Option Pointer) :=
  list.mapIdx fun i p => if (i + 1) * w ≤ n then none else if i * w < n then p.map fun _ => .torn else p

def fixedTexts (downloadMode : Bool) : List CString :=
  [str "reboot recovery", if downloadMode then str "reboot to download mode" else str "reboot to bootloader", str "power off",
    str "wipe dalvik cache", str "report error", str "key test", str "show log"]

/-- `list[list_index++] = …`, for each text. -/
def storeTexts (now : ℕ) : List CString → ℕ → List (Option Pointer) → Except Stop (List (Option Pointer))
  | [], _, list => .ok list
  | s :: rest, i, list => do
    let list ← store Stop.fault list i (some (.text now s))
    storeTexts now rest (i + 1) list

def volumeText (path : CString) : CString := (str "partition ").append path

/-- The loop over the volumes. The text is made in an array of 80 bytes. -/
def storeVolumes (now : ℕ) (canPartition : CString → Bool) :
    List CString → ℕ → List (Option Pointer) → Except Stop (ℕ × List (Option Pointer))
  | [], j, list => .ok (j, list)
  | path :: rest, j, list =>
    if canPartition path then do
      failIf (80 ≤ (volumeText path).bytes.length) .fault
      let list ← store Stop.fault list (fixedEntries + j : ℕ) (some (.text now (volumeText path)))
      storeVolumes now canPartition rest (j + 1) list
    else storeVolumes now canPartition rest j list

variable (cfg : Config)

/-- The array, up to the NULL behind the volumes. -/
def fillList (now : ℕ) (inv : Invocation) (list : List (Option Pointer)) : Except Stop (List (Option Pointer)) := do
  let list := clearBytes cfg.listSize cfg.pointerSize list
  let list ← storeTexts now (fixedTexts inv.downloadMode) 0 list
  let (j, list) ← storeVolumes now inv.canPartition (inv.primaryPath :: inv.extraPaths) 0 list
  store Stop.fault list (fixedEntries + j : ℕ) none

/-- What `get_menu_selection` is called with, and the array. -/
def showAdvancedMenu (now : ℕ) (inv : Invocation) (list : List (Option Pointer)) :
    Except Stop (List Pointer × List (Option Pointer)) := do
  let list ← fillList cfg now inv list
  let s ← filterItems list ((List.range cfg.listSize).map inv.heap)
  .ok (shown s.itemsNew, list)

/-- The invocations of a process, from number `now` on. -/
def showAll : ℕ → List Invocation → List (Option Pointer) → Except Stop (List (List Pointer))
  | _, [], _ => .ok []
  | now, inv :: rest, list => do
    let (items, list) ← showAdvancedMenu cfg now inv list
    let more ← showAll (now + 1) rest list
    .ok (items :: more)

def emptyList : List (Option Pointer) := List.replicate cfg.listSize none

/-! ### What should be shown -/

def Invocation.partitionable (inv : Invocation) : List CString := (inv.primaryPath :: inv.extraPaths).filter inv.canPartition

def Invocation.texts (inv : Invocation) : List CString := fixedTexts inv.downloadMode ++ inv.partitionable.map volumeText

theorem texts_length (inv : Invocation) : inv.texts.length = fixedEntries + inv.partitionable.length := by
  rw [Invocation.texts, List.length_append, List.length_map]
  rfl

/-- There is room for the NULL and for each text, and there is at most one volume less than
before. -/
def Steady : ℕ → List Invocation → Prop
  | _, [] => True
  | n, inv :: rest => inv.partitionable.length ≤ cfg.maxVolumes ∧ (∀ path ∈ inv.partitionable, path.bytes.length < 70) ∧
      n ≤ inv.partitionable.length + 1 ∧ Steady inv.partitionable.length rest

/-! ### Filling the array -/

theorem storeTexts_ok (now : ℕ) : ∀ (texts : List CString) (i : ℕ) (list : List (Option Pointer)), i + texts.length ≤ list.length →
    storeTexts now texts i list = .ok (list.take i ++ texts.map (fun s => some (.text now s)) ++ list.drop (i + texts.length))
  | [], i, list, _ => by simp [storeTexts]
  | s :: rest, i, list, h => by
    rw [List.length_cons] at h
    have hset := storeTexts_ok now rest (i + 1) (list.set i (some (.text now s))) (by rw [List.length_set]; omega)
    rw [storeTexts, store_ok rfl (by omega), ok_bind, hset, List.take_add_one, List.take_set_of_le le_rfl,
      List.getElem?_set_self (by omega), List.drop_set_of_lt (by omega), List.length_cons, Nat.add_right_comm i 1, ← Nat.add_assoc]
    simp

theorem storeTexts_append (now : ℕ) (more : List CString) : ∀ (texts : List CString) (i : ℕ) (list : List (Option Pointer)),
    storeTexts now (texts ++ more) i list = storeTexts now texts i list >>= storeTexts now more (i + texts.length)
  | [], _, _ => rfl
  | s :: rest, i, list => by
    rw [List.cons_append, storeTexts, storeTexts]
    cases store Stop.fault list (i : ℤ) (some (Pointer.text now s)) with
    | error e => rfl
    | ok list => rw [ok_bind, ok_bind, storeTexts_append now more rest, List.length_cons, Nat.add_assoc, Nat.add_comm 1]

theorem storeVolumes_eq (now : ℕ) (canPartition : CString → Bool) : ∀ (paths : List CString) (j : ℕ) (list : List (Option Pointer)),
    (∀ path ∈ paths.filter canPartition, path.bytes.length < 70) →
    storeVolumes now canPartition paths j list = (do
      let list ← storeTexts now ((paths.filter canPartition).map volumeText) (fixedEntries + j) list
      .ok (j + (paths.filter canPartition).length, list))
  | [], _, _, _ => rfl
  | path :: rest, j, list, hshort => by
    rw [storeVolumes]
    by_cases hcan : canPartition path = true
    · rw [List.filter_cons_of_pos hcan] at hshort ⊢
      have hlen : (volumeText path).bytes.length = 10 + path.bytes.length := by
        rw [volumeText, CString.append]
        exact List.length_append
      have hpath := hshort path List.mem_cons_self
      have ih := storeVolumes_eq now canPartition rest (j + 1)
      rw [if_pos hcan, failIf_bind, if_neg (by omega), List.map_cons, storeTexts]
      cases store Stop.fault list ((fixedEntries + j : ℕ) : ℤ) (some (Pointer.text now (volumeText path))) with
      | error e => rfl
      | ok list =>
        rw [ok_bind, ok_bind, ih list fun p hp => hshort p (List.mem_cons_of_mem _ hp), List.length_cons, Nat.add_assoc,
          Nat.add_comm 1, Nat.add_assoc]
    · rw [List.filter_cons_of_neg hcan] at hshort ⊢
      rw [if_neg hcan, storeVolumes_eq now canPartition rest j list hshort]

theorem fillList_eq {cfg : Config} {now : ℕ} {inv : Invocation} {list : List (Option Pointer)}
    (hshort : ∀ path ∈ inv.partitionable, path.bytes.length < 70) :
    fillList cfg now inv list = (do
      let list ← storeTexts now inv.texts 0 (clearBytes cfg.listSize cfg.pointerSize list)
      store Stop.fault list (fixedEntries + inv.partitionable.length : ℕ) none) := by
  rw [fillList, Invocation.texts, storeTexts_append]
  cases storeTexts now (fixedTexts inv.downloadMode) 0 (clearBytes cfg.listSize cfg.pointerSize list) with
  | error e => rfl
  | ok list =>
    rw [ok_bind, ok_bind, storeVolumes_eq now _ _ _ _ hshort]
    change _ = storeTexts now (inv.partitionable.map volumeText) fixedEntries list >>= _
    change ((storeTexts now (inv.partitionable.map volumeText) fixedEntries list >>= _) >>= _) = _
    cases storeTexts now (inv.partitionable.map volumeText) fixedEntries list with
    | error e => rfl
    | ok list =>
      simp only [ok_bind, Nat.zero_add]
      rfl

theorem length_clearBytes (n w : ℕ) (list : List (Option Pointer)) : (clearBytes n w list).length = list.length := List.length_mapIdx

/-- Behind the volumes of the last invocation there are only NULLs. -/
structure Tidy (n : ℕ) (list : List (Option Pointer)) : Prop where
  length_eq : list.length = cfg.listSize
  behind : ∀ i p, fixedEntries + n ≤ i → list[i]? = some p → p = none

variable {cfg} {n : ℕ} {list : List (Option Pointer)} {inv : Invocation}

theorem Tidy.clear (h : Tidy cfg n list) : Tidy cfg n (clearBytes cfg.listSize cfg.pointerSize list) := by
  refine ⟨(length_clearBytes _ _ _).trans h.length_eq, fun i p hi hp => ?_⟩
  rw [clearBytes, List.getElem?_mapIdx] at hp
  obtain ⟨q, hq, rfl⟩ := Option.map_eq_some_iff.mp hp
  obtain rfl := h.behind i q hi hq
  split_ifs <;> rfl

theorem Tidy.fill (h : Tidy cfg n list) (now : ℕ) (hroom : inv.partitionable.length ≤ cfg.maxVolumes)
    (hshort : ∀ path ∈ inv.partitionable, path.bytes.length < 70) (hn : n ≤ inv.partitionable.length + 1) :
    ∃ k, fillList cfg now inv list = .ok (inv.texts.map (fun s => some (.text now s)) ++ List.replicate (k + 1) none) ∧
      Tidy cfg inv.partitionable.length (inv.texts.map (fun s => some (.text now s)) ++ List.replicate (k + 1) none) := by
  have hclear := h.clear
  have hlen := hclear.length_eq
  have htexts := texts_length inv
  generalize hcleared : clearBytes cfg.listSize cfg.pointerSize list = cleared at *
  have hsize : cfg.listSize = cfg.maxVolumes + fixedEntries + 1 := rfl
  generalize hm : inv.partitionable.length = m at *
  obtain ⟨p, hp⟩ : ∃ p, cleared.drop (fixedEntries + m) = p :: cleared.drop (fixedEntries + m + 1) :=
    ⟨_, List.drop_eq_getElem_cons (by omega)⟩
  have hrest : cleared.drop (fixedEntries + m + 1) = List.replicate (cfg.maxVolumes - m) none := by
    rw [List.eq_replicate_iff, List.length_drop]
    refine ⟨by omega, fun q hq => ?_⟩
    obtain ⟨i, hi⟩ := List.mem_iff_getElem?.mp hq
    rw [List.getElem?_drop] at hi
    exact hclear.behind _ q (by omega) hi
  have hstore := storeTexts_ok now inv.texts 0 cleared (by omega)
  rw [List.take_zero, List.nil_append, Nat.zero_add, htexts, hp, hrest] at hstore
  have hfill : fillList cfg now inv list = .ok (inv.texts.map
    (fun s => some (.text now s)) ++ List.replicate (cfg.maxVolumes - m + 1) none) := by
    rw [fillList_eq hshort, hcleared, hstore, ok_bind, hm, store_ok rfl (by simp [htexts]),
      set_append_at (by rw [List.length_map, htexts])]
    rfl
  refine ⟨cfg.maxVolumes - m, hfill, ?_, fun i q hi hq => ?_⟩
  · rw [List.length_append, List.length_map, List.length_replicate, htexts]
    omega
  · rw [List.getElem?_append_right (by rw [List.length_map]; omega)] at hq
    exact List.eq_of_mem_replicate (List.mem_of_getElem? hq)

/-! ### Invocations -/

/-- The menu of an invocation: its own texts. -/
def Invocation.menu (now : ℕ) (inv : Invocation) : List Pointer := inv.texts.map (.text now)

theorem Tidy.show (h : Tidy cfg n list) (now : ℕ) (hroom : inv.partitionable.length ≤ cfg.maxVolumes)
    (hshort : ∀ path ∈ inv.partitionable, path.bytes.length < 70) (hn : n ≤ inv.partitionable.length + 1) :
    ∃ list', showAdvancedMenu cfg now inv list = .ok (inv.menu now, list') ∧ Tidy cfg inv.partitionable.length list' := by
  obtain ⟨k, hfill, htidy⟩ := h.fill now hroom hshort hn
  have hnull : none ∈ inv.texts.map (fun s => some (Pointer.text now s)) ++ List.replicate (k + 1) none := by simp
  have hitems : List.reduceOption (inv.texts.map (fun s => some (Pointer.text now s)) ++ List.replicate
    (k + 1) none) = inv.menu now := by
    rw [List.reduceOption_append, List.reduceOption_replicate_none, List.append_nil, List.reduceOption, List.filterMap_map,
      Invocation.menu, ← List.filterMap_eq_map]
    rfl
  generalize inv.texts.map (fun s => some (Pointer.text now s)) ++ List.replicate (k + 1) none = list' at *
  have hlen : ((List.range cfg.listSize).map inv.heap).length = list'.length := by
    rw [List.length_map, List.length_range, htidy.length_eq]
  obtain ⟨s, hs, hshown, -⟩ := filterItems_ok hnull hlen
  refine ⟨list', ?_, htidy⟩
  rw [showAdvancedMenu, hfill, ok_bind, hs, ok_bind, hshown, hitems]

theorem Tidy.showAll : ∀ (invs : List Invocation) {n : ℕ} {list : List (Option Pointer)}, Tidy cfg n list → Steady cfg n invs →
    ∀ now, showAll cfg now invs list = .ok (invs.mapIdx fun i inv => inv.menu (now + i))
  | [], _, _, _, _, _ => rfl
  | inv :: rest, n, list, h, hsteady, now => by
    obtain ⟨hroom, hshort, hn, hrest⟩ := hsteady
    obtain ⟨list', hshow, htidy⟩ := h.show now hroom hshort hn
    simp only [Menus.showAll, hshow, ok_bind, htidy.showAll rest hrest (now + 1), List.mapIdx_cons, Nat.add_zero,
      Nat.add_right_comm now 1, Nat.add_assoc]

/-- **Only current entries.** In a sequence of invocations with at most `MAX_NUM_MANAGED_VOLUMES` volumes that can be partitioned,
and each with at most one less than the one before, no access is outside of the array, and the items of every menu are those
that its invocation stored. -/
theorem advanced_current (cfg : Config) (invs : List Invocation) (h : Steady cfg 0 invs) :
    showAll cfg 0 invs (emptyList cfg) = .ok (invs.mapIdx fun i inv => inv.menu i) := by
  have hempty : Tidy cfg 0 (emptyList cfg) :=
    ⟨List.length_replicate, fun i p _ hp => List.eq_of_mem_replicate (List.mem_of_getElem? hp)⟩
  simpa using hempty.showAll invs h 0

/-- The sizes of the device: `MAX_NUM_MANAGED_VOLUMES` is 10, and a pointer has four bytes. -/
def roomForTen : Config := ⟨10, 4⟩

def invocationWith (extraPaths : List CString) : Invocation :=
    ⟨false, str "/sdcard", extraPaths, fun path => path ≠ str "/sdcard", fun _ => 0⟩

theorem advanced_current_two :
    showAll roomForTen 0 [invocationWith [str "/usb"], invocationWith []] (emptyList roomForTen) =
      .ok [(invocationWith [str "/usb"]).menu 0, (invocationWith []).menu 1] :=
  advanced_current roomForTen [invocationWith [str "/usb"], invocationWith []]
    ⟨by decide +kernel, by decide +kernel, by decide, by decide +kernel, by decide +kernel, by decide +kernel, trivial⟩

/-- **A freed text is shown.** With two volumes and then with none, the second menu ends with the text that the first one stored
for the second volume. And with `/sdcard` and ten more the NULL is written behind the array. -/
theorem advanced_stale :
    (showAll roomForTen 0 [invocationWith [str "/usb", str "/ext"], invocationWith []] (emptyList roomForTen)).map (·.getLast?) =
      .ok (some ((invocationWith []).menu 1 ++ [.text 0 (volumeText (str "/ext"))])) ∧
    showAll roomForTen 0 [⟨false, str "/sdcard", List.replicate 10 (str "/usb"), fun _ => true, fun _ => 0⟩] (emptyList roomForTen) =
      .error .fault := by
  decide +kernel

end Menus
end Recovery
