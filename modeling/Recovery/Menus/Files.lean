/-
# Listing of a directory for the file chooser (extendedcommands.c)

`gather_files` counts the entries that are wanted, puts their paths into an array and sorts
it. `readdir` may give another order the second time. A place of the array that was never
written cannot be read.

Key theorem: `files_listed`.
-/
import Recovery.Menus.Filtered
import Recovery.Zip.Archive
import Recovery.Text

namespace Recovery
namespace Menus

open Arrays
open Zip (pathMax)

/-! ### The source -/

structure DirEntry where
  name : CString
  isDir : Bool

/-- A place in `files`. -/
inductive Cell
  | unset
  | null
  | text (s : CString)
  deriving DecidableEq, Inhabited

variable (directory : CString) (extension : Option CString)

/-- Whether an entry is wanted. The path for `lstat` is in an array of `PATH_MAX` bytes. -/
def wants (e : DirEntry) : Except Stop Bool :=
  if e.name.bytes.head? = some 0x2e then .ok false
  else
    match extension with
    | some ext => .ok (ext.bytes.length ≤ e.name.bytes.length ∧
        strcmp (e.name.bytes.drop (e.name.bytes.length - ext.bytes.length)) ext.bytes = 0)
    | none => do
      failIf (pathMax ≤ (directory.append e.name).bytes.length) .fault
      .ok e.isDir

def listed (e : DirEntry) : CString :=
  if extension.isNone then (directory.append e.name).append (str "/") else directory.append e.name

def countFiles : List DirEntry → ℕ → Except Stop ℕ
  | [], total => .ok total
  | e :: rest, total => do
    let wanted ← wants directory extension e
    countFiles rest (if wanted then total + 1 else total)

def fillFiles : List DirEntry → ℕ → List Cell → Except Stop (List Cell)
  | [], _, files => .ok files
  | e :: rest, i, files => do
    let wanted ← wants directory extension e
    if wanted then do
      let files ← store Stop.fault files i (.text (listed directory extension e))
      fillFiles rest (i + 1) files
    else fillFiles rest i files

def loadText (files : List Cell) (i : ℤ) : Except Stop CString := do
  let cell ← load Stop.fault files i
  match cell with
  | .text s => .ok s
  | _ => .error .fault

/-- `curMax == -1 || strcmp(files[curMax], files[j]) < 0`. -/
def isGreater (files : List Cell) (curMax : ℤ) (j : ℕ) : Except Stop Bool :=
  if curMax = -1 then .ok true
  else do
    let a ← loadText files curMax
    let b ← loadText files j
    .ok (strcmp a.bytes b.bytes < 0)

def selectMax (files : List Cell) : ℕ → ℕ → ℤ → Except Stop ℤ
  | 0, _, curMax => .ok curMax
  | n + 1, j, curMax => do
    let greater ← isGreater files curMax j
    selectMax files n (j + 1) (if greater then j else curMax)

/-- The loop over `i`; `total - i` places are not sorted yet. -/
def sortLoop : ℕ → List Cell → Except Stop (List Cell)
  | 0, files => .ok files
  | m + 1, files => do
    let curMax ← selectMax files (m + 1) 0 (-1)
    let temp ← load Stop.fault files curMax
    let last ← load Stop.fault files m
    let files ← store Stop.fault files curMax last
    let files ← store Stop.fault files m temp
    sortLoop m files

/-- The array and `*numFiles`, with the entries of the two passes. -/
def gatherFiles (dir : Option (List DirEntry × List DirEntry)) : Except Stop (Option (List Cell) × ℕ) :=
  match dir with
  | none => .ok (none, 0)
  | some (first, second) => do
    let total ← countFiles directory extension first 0
    if total = 0 then .ok (none, 0)
    else do
      let files ← fillFiles directory extension second 0 (List.replicate total .unset ++ [.null])
      let files ← sortLoop total files
      .ok (some files, total)

/-! ### What is looked for -/

/-- No dot in front, and a directory or the extension at the end. -/
def isWanted (e : DirEntry) : Bool :=
  e.name.bytes.head? ≠ some 0x2e &&
    match extension with
    | some ext => ext.bytes.isSuffixOf e.name.bytes
    | none => e.isDir

/-- The paths for `lstat` fit into their array. -/
def ShortPaths (entries : List DirEntry) : Prop := ∀ e ∈ entries, (directory.append e.name).bytes.length < pathMax

variable {directory extension}

theorem wants_eq {e : DirEntry} (h : (directory.append e.name).bytes.length < pathMax) :
    wants directory extension e = .ok (isWanted extension e) := by
  unfold wants isWanted
  by_cases hdot : e.name.bytes.head? = some 0x2e
  · simp [hdot]
  cases extension with
  | none => simp [hdot, Nat.not_le.mpr h]
  | some ext =>
    have hdrop : 0 ∉ e.name.bytes.drop (e.name.bytes.length - ext.bytes.length) := fun h0 => e.name.no_nul (List.mem_of_mem_drop h0)
    have hsuffix : (ext.bytes.length ≤ e.name.bytes.length ∧
        strcmp (e.name.bytes.drop (e.name.bytes.length - ext.bytes.length)) ext.bytes = 0) ↔ ext.bytes <:+ e.name.bytes := by
      rw [strcmp_eq_zero hdrop ext.no_nul, List.suffix_iff_eq_drop, eq_comm (a := ext.bytes)]
      refine ⟨fun h => h.2, fun h => ⟨?_, h⟩⟩
      exact (List.suffix_iff_eq_drop.mpr h.symm).length_le
    rw [if_neg hdot]
    simp only [hsuffix]
    congr 1
    rw [Bool.eq_iff_iff]
    simp [hdot]

/-! ### The passes -/

theorem countFiles_ok : ∀ {entries : List DirEntry} (total : ℕ), ShortPaths directory entries →
    countFiles directory extension entries total = .ok (total + (entries.filter (isWanted extension)).length)
  | [], _, _ => rfl
  | e :: rest, total, h => by
    have hrest : ShortPaths directory rest := fun e' he' => h e' (List.mem_cons_of_mem _ he')
    rw [countFiles, wants_eq (h e List.mem_cons_self), ok_bind, countFiles_ok _ hrest]
    by_cases hw : isWanted extension e = true
    · rw [if_pos hw, List.filter_cons_of_pos hw, List.length_cons, Nat.add_assoc, Nat.add_comm 1]
    · rw [if_neg hw, List.filter_cons_of_neg hw]

theorem fillFiles_ok (tail : List Cell) : ∀ {entries : List DirEntry} (done : List CString), ShortPaths directory entries →
    fillFiles directory extension entries done.length
      (done.map .text ++ (List.replicate (entries.filter (isWanted extension)).length .unset ++ tail)) =
    .ok ((done ++ (entries.filter (isWanted extension)).map (listed directory extension)).map .text ++ tail)
  | [], done, _ => by simp [fillFiles]
  | e :: rest, done, h => by
    have hrest : ShortPaths directory rest := fun e' he' => h e' (List.mem_cons_of_mem _ he')
    rw [fillFiles, wants_eq (h e List.mem_cons_self), ok_bind]
    by_cases hw : isWanted extension e = true
    · have ih := fillFiles_ok tail (done ++ [listed directory extension e]) hrest
      rw [List.length_append, List.length_singleton, List.map_append, List.append_assoc] at ih
      rw [if_pos hw, List.filter_cons_of_pos hw, List.length_cons, List.replicate_succ,
        List.cons_append, store_ok rfl (by simp), ok_bind,
        set_append_at (List.length_map _)]
      exact ih.trans (by simp)
    · rw [if_neg hw, List.filter_cons_of_neg hw]
      exact fillFiles_ok tail done hrest

/-! ### The sort -/

section

variable {l : List CString} (tail : List Cell)

theorem load_text {i : ℕ} {s : CString} (h : l[i]? = some s) : load Stop.fault (l.map .text ++ tail) i = .ok (.text s) := by
  obtain ⟨hlt, hget⟩ := List.getElem?_eq_some_iff.mp h
  have hlen : i < (l.map Cell.text ++ tail).length := by
    rw [List.length_append, List.length_map]
    omega
  rw [load_ok rfl hlen, val, List.getD_eq_getElem _ _ hlen, List.getElem_append_left
    (by rwa [List.length_map]), List.getElem_map, hget]

theorem store_text {i : ℕ} (h : i < l.length) (s : CString) :
    store Stop.fault (l.map .text ++ tail) i (.text s) = .ok ((l.set i s).map .text ++ tail) := by
  rw [store_ok rfl (by rw [List.length_append, List.length_map]; omega),
    List.set_append_left _ _ (by rwa [List.length_map]), List.map_set]

theorem loadText_ok {i : ℕ} {s : CString} (h : l[i]? = some s) : loadText (l.map .text ++ tail) i = .ok s := by
  rw [loadText, load_text tail h, ok_bind]

/-- No path among the first `j` is greater than the one at `k`. -/
def Greatest (l : List CString) (j k : ℕ) : Prop := k < j ∧ ∃ s, l[k]? = some s ∧ ∀ a ∈ l.take j, strcmp a.bytes s.bytes ≤ 0

theorem selectMax_ok : ∀ (n : ℕ) {j k : ℕ}, Greatest l j k → j + n ≤ l.length →
    ∃ k' : ℕ, selectMax (l.map .text ++ tail) n j k = .ok k' ∧ Greatest l (j + n) k'
  | 0, j, k, h, _ => ⟨k, rfl, h⟩
  | n + 1, j, k, ⟨hk, s, hs, hmax⟩, hn => by
    obtain ⟨c, hc⟩ : ∃ c, l[j]? = some c := ⟨_, List.getElem?_eq_getElem (by omega)⟩
    have hself : strcmp c.bytes c.bytes = 0 := (strcmp_eq_zero c.no_nul c.no_nul).mpr rfl
    have hgreater : isGreater (l.map .text ++ tail) k j = .ok (decide (strcmp s.bytes c.bytes < 0)) := by
      rw [isGreater, if_neg (by omega), loadText_ok tail hs, ok_bind, loadText_ok tail hc, ok_bind]
    rw [selectMax, hgreater, ok_bind, ← Nat.add_assoc, Nat.add_right_comm]
    have htake : l.take (j + 1) = l.take j ++ [c] := by
      rw [List.take_add_one, hc]
      rfl
    by_cases hlt : strcmp s.bytes c.bytes < 0
    · rw [decide_eq_true hlt, if_pos rfl]
      refine selectMax_ok n ⟨Nat.lt_succ_self j, c, hc, fun a ha => ?_⟩ (by omega)
      rcases List.mem_append.mp (htake ▸ ha) with ha | ha
      · exact strcmp_trans a.no_nul (hmax a ha) hlt.le
      · rw [List.mem_singleton.mp ha, hself]
    · rw [decide_eq_false hlt, if_neg Bool.false_ne_true]
      refine selectMax_ok n ⟨by omega, s, hs, fun a ha => ?_⟩ (by omega)
      rcases List.mem_append.mp (htake ▸ ha) with ha | ha
      · exact hmax a ha
      · rw [List.mem_singleton.mp ha]
        exact not_lt.mp fun h => hlt (strcmp_swap.mpr h)

end

theorem swap_last {front q : List CString} {last s : CString} {k : ℕ} (hk : k < front.length + 1)
    (hs : (front ++ last :: q)[k]? = some s) :
    ((front ++ last :: q).set k last).set front.length s = front.set k last ++ s :: q ∧
      (front.set k last ++ [s]).Perm (front ++ [last]) := by
  rcases Nat.lt_succ_iff_lt_or_eq.mp hk with hlt | rfl
  · rw [List.getElem?_append_left hlt] at hs
    obtain ⟨_, rfl⟩ := List.getElem?_eq_some_iff.mp hs
    refine ⟨?_, ?_⟩
    · rw [List.set_append_left _ _ hlt, set_append_at List.length_set]
    · calc List.Perm (front.set k last ++ [front[k]]) (front[k] :: front.set k last) := List.perm_append_singleton _ _
        List.Perm _ (front[k] :: last :: front.eraseIdx k) := (List.set_perm_cons_eraseIdx hlt last).cons _
        List.Perm _ (last :: front[k] :: front.eraseIdx k) := .swap _ _ _
        List.Perm _ (last :: front) := (List.getElem_cons_eraseIdx_perm hlt).cons _
        List.Perm _ (front ++ [last]) := (List.perm_append_singleton _ _).symm
  · obtain rfl : last = s := by simpa using hs
    rw [set_append_at rfl, set_append_at rfl, List.set_eq_of_length_le le_rfl]
    exact ⟨rfl, .refl _⟩

theorem sortLoop_ok (tail : List Cell) : ∀ (m : ℕ) (p q : List CString), p.length = m →
    ∃ sorted : List CString, sortLoop m ((p ++ q).map .text ++ tail) = .ok ((sorted ++ q).map .text ++ tail) ∧
      sorted.Perm p ∧ sorted.Pairwise fun a b => strcmp a.bytes b.bytes ≤ 0
  | 0, p, q, hp => ⟨p, rfl, .refl p, by rw [List.length_eq_zero_iff.mp hp]; exact .nil⟩
  | m + 1, p, q, hp => by
    obtain ⟨front, last, rfl⟩ : ∃ front last, p = front ++ [last] :=
      ⟨_, _, (List.dropLast_append_getLast (by rintro rfl; simp at hp)).symm⟩
    obtain rfl : front.length = m := by simpa using hp
    rw [List.append_assoc, List.singleton_append]
    generalize hl : front ++ last :: q = l
    have hlen : l.length = front.length + 1 + q.length := by
      rw [← hl]
      simp
      omega
    obtain ⟨first, hfirst⟩ : ∃ s, l[0]? = some s := ⟨_, List.getElem?_eq_getElem (by omega)⟩
    have hstart : Greatest l 1 0 := by
      refine ⟨one_pos, first, hfirst, fun a ha => ?_⟩
      rw [List.take_add_one, List.take_zero, hfirst] at ha
      obtain rfl := List.mem_singleton.mp ha
      exact ((strcmp_eq_zero a.no_nul a.no_nul).mpr rfl).le
    obtain ⟨k, hselect, hk, s, hs, hmax⟩ := selectMax_ok tail front.length hstart (by omega)
    have hk' : k < front.length + 1 := by omega
    obtain ⟨hswap, hperm⟩ := swap_last hk' (hl ▸ hs)
    have hlast : l[front.length]? = some last := by rw [← hl, List.getElem?_append_right le_rfl, Nat.sub_self]; rfl
    obtain ⟨sorted, hsort, hsorted, hpair⟩ := sortLoop_ok tail front.length (front.set k last) (s :: q) List.length_set
    refine ⟨sorted ++ [s], ?_, (hsorted.append_right [s]).trans hperm, ?_⟩
    · have hgreatest : selectMax (l.map .text ++ tail) (front.length + 1) 0 (-1) = .ok k := hselect
      rw [sortLoop, hgreatest, ok_bind, load_text tail hs, ok_bind, load_text tail hlast, ok_bind,
        store_text tail (by omega), ok_bind,
        store_text tail (by rw [List.length_set]; omega), ok_bind, ← hl, hswap, hsort, List.append_assoc, List.singleton_append]
    · refine List.pairwise_append.mpr ⟨hpair, List.pairwise_singleton _ _, fun a ha b hb => ?_⟩
      obtain rfl := List.mem_singleton.mp hb
      refine hmax a ?_
      have htake : l.take (1 + front.length) = front ++ [last] := by
        rw [← hl, Nat.add_comm, ← List.singleton_append, ← List.append_assoc]
        exact List.take_left' (by simp)
      rw [htake]
      exact hperm.subset (List.mem_append_left _ (hsorted.subset ha))

/-! ### The listing -/

theorem listed_inj {a b : DirEntry} (h : listed directory extension a = listed directory extension b) : a.name = b.name := by
  have happend : ∀ s t u : CString, s.append t = s.append u → t = u := fun s t u h =>
    CString.ext (List.append_cancel_left (congrArg CString.bytes h))
  unfold listed at h
  split_ifs at h
  · exact happend directory _ _ (CString.ext (List.append_cancel_right (congrArg CString.bytes h)))
  · exact happend directory _ _ h

theorem listed_nodup {entries : List DirEntry} (h : (entries.map (·.name)).Nodup) :
    (entries.map (listed directory extension)).Nodup := by
  rw [List.nodup_map_iff_inj_on (List.Nodup.of_map _ h)]
  exact fun a ha b hb hab => List.inj_on_of_nodup_map h ha hb (listed_inj hab)

theorem strict_of_nodup {l : List CString} (h : l.Pairwise fun a b => strcmp a.bytes b.bytes ≤ 0) (hl : l.Nodup) :
    l.Pairwise fun a b => strcmp a.bytes b.bytes < 0 := by
  refine (h.and hl).imp fun {a b} hab => lt_of_le_of_ne hab.1 fun h0 => hab.2 ?_
  exact CString.ext ((strcmp_eq_zero a.no_nul b.no_nul).mp h0)

/-- **The listing.** If no entry is wanted there is no array and the count is 0. Otherwise the array has the paths of all entries that
are wanted, in strictly increasing order, and ends with NULL. -/
theorem files_listed (directory : CString) (extension : Option CString) (first second : List DirEntry) (hsame : second.Perm first)
    (hnames : (first.map (·.name)).Nodup) (hshort : ShortPaths directory first) :
    (first.filter (isWanted extension) = [] → gatherFiles directory extension (some (first, second)) = .ok (none, 0)) ∧
    (first.filter (isWanted extension) ≠ [] → ∃ sorted : List CString,
      gatherFiles directory extension (some (first, second)) =
        .ok (some (sorted.map .text ++ [.null]), (first.filter (isWanted extension)).length) ∧
      sorted.Perm ((first.filter (isWanted extension)).map (listed directory extension)) ∧
      sorted.Pairwise fun a b => strcmp a.bytes b.bytes < 0) := by
  have hcount : countFiles directory extension first 0 = .ok (first.filter (isWanted extension)).length := by
    rw [countFiles_ok 0 hshort, Nat.zero_add]
  rw [gatherFiles, hcount, ok_bind]
  refine ⟨fun hnone => by rw [hnone]; rfl, fun hsome => ?_⟩
  have hwanted := hsame.filter (isWanted extension)
  have hshort₂ : ShortPaths directory second := fun e he => hshort e (hsame.subset he)
  have hfill : fillFiles directory extension second 0 (List.replicate (second.filter (isWanted extension)).length .unset ++ [.null]) =
      .ok (((second.filter (isWanted extension)).map (listed directory extension)).map .text ++
        [.null]) := fillFiles_ok [.null] [] hshort₂
  rw [hwanted.length_eq] at hfill
  obtain ⟨sorted, hsort, hperm, hpair⟩ := sortLoop_ok [.null] (first.filter (isWanted extension)).length
    ((second.filter (isWanted extension)).map (listed directory extension)) [] (by rw [List.length_map, hwanted.length_eq])
  rw [List.append_nil, List.append_nil] at hsort
  have hperm' := hperm.trans (hwanted.map (listed directory extension))
  refine ⟨sorted, ?_, hperm', strict_of_nodup hpair (hperm'.nodup_iff.mpr
    (listed_nodup (hnames.sublist (List.filter_sublist.map _))))⟩
  rw [if_neg fun h0 => hsome (List.length_eq_zero_iff.mp h0), hfill, ok_bind, hsort, ok_bind]

def sampleEntries : List DirEntry := [⟨str "b.zip", false⟩, ⟨str ".c.zip", false⟩, ⟨str "readme", false⟩, ⟨str "a.zip", false⟩]

theorem files_listed_zip : ∃ sorted : List CString,
    gatherFiles (str "/sdcard/") (some (str ".zip")) (some (sampleEntries, sampleEntries.reverse)) =
      .ok (some (sorted.map .text ++ [.null]), 2) ∧
    sorted.Perm [str "/sdcard/b.zip", str "/sdcard/a.zip"] ∧ sorted.Pairwise fun a b => strcmp a.bytes b.bytes < 0 :=
  (files_listed (str "/sdcard/") (some (str ".zip")) sampleEntries sampleEntries.reverse (List.reverse_perm _) (by decide +kernel)
    (by unfold ShortPaths; decide +kernel)).2 (by decide +kernel)

end Menus
end Recovery
