/-
# What applypatch_check accepts

`applypatch_check` should pass when the named file or the saved copy has one of the hashes.
For a file that is missing it returns `-ENOENT` before it looks at the copy.

Key theorem: `check_agrees_iff`.
-/
import Recovery.Patch.ApplyPatch
import Mathlib.Data.List.Sort

namespace Recovery
namespace Patch

variable (lib : Lib)

/-- A name under which data with a listed hash loads; with no list, any data. -/
def FileMatches (s : Sys) (filename : Bytes) (patchSha1Str : List Bytes) : Prop :=
  ∃ data, loadData lib s filename = .ok data ∧
    (patchSha1Str = [] ∨ (findMatchingPatch (lib.sha1 data) patchSha1Str).isSome = true)

/-- The saved copy loads and has a listed hash. -/
def CacheMatches (s : Sys) (patchSha1Str : List Bytes) : Prop :=
  ∃ data, loadData lib s cacheTempSource = .ok data ∧
    (findMatchingPatch (lib.sha1 data) patchSha1Str).isSome = true

def checkCache (s : Sys) (patchSha1Str : List Bytes) : Except Stop ℤ :=
  match loadData lib s cacheTempSource with
  | .ok data => .ok (if findMatchingPatch (lib.sha1 data) patchSha1Str = none then 1 else 0)
  | .error (.ret _) => .ok 1
  | .error stop => .error stop

def checkOf (s : Sys) (filename : Bytes) (patchSha1Str : List Bytes) : Except Stop ℤ :=
  match loadData lib s filename with
  | .ok data =>
    if 0 < patchSha1Str.length ∧ findMatchingPatch (lib.sha1 data) patchSha1Str = none then
      checkCache lib s patchSha1Str else .ok 0
  | .error (.ret code) => if code = negEnoent then .ok negEnoent else checkCache lib s patchSha1Str
  | .error stop => .error stop

variable {P : Ev → Prop}

/-- A load inside a function: it goes on with what it found, or the process dies. -/
theorem Reads.load {s : Sys} {filename : Bytes} {file : FileContents} {f : ℤ × FileContents → Run ℤ}
    {found : Except Stop ℤ} (hP : ∀ e, P e → e.honest)
    (hdies : ∀ stop, loadData lib s filename = .error stop → stop.dies = true → found = .error stop)
    (hf : ∀ r, LoadedAs lib (loadData lib s filename) r → Reads P (f r) s (fun r => found = .ok r) (DiesOf found)) :
    Reads P (loadFileContents lib filename file >>= f) s (fun r => found = .ok r) (DiesOf found) :=
  ((loadFileContents_reads lib hP s filename file).mono (fun _ h => h) fun _ ⟨stop, he, hl, hd⟩ =>
    ⟨stop, he, hdies stop hl hd, hd⟩).bind hf

theorem checkCopy_reads (hP : ∀ e, P e → e.honest) (s : Sys) (patchSha1Str : List Bytes) (file : FileContents) :
    Reads P (checkCopy lib patchSha1Str file) s (fun r => checkCache lib s patchSha1Str = .ok r)
      (DiesOf (checkCache lib s patchSha1Str)) := by
  unfold checkCopy
  refine Reads.load lib hP (fun stop hl hd => ?_) fun r hr => ?_
  · simp only [checkCache, hl]
    cases stop <;> first | rfl | cases hd
  obtain ⟨code, cache⟩ := r
  rcases hr with ⟨rfl, data, hl, -, -, hsha⟩ | ⟨hcode, hl, -⟩
  · have hsha : cache.sha1 = lib.sha1 data := hsha
    simp only [checkCache, hl, hsha, ne_eq, not_true_eq_false, if_false]
    split_ifs with hm
    · exact Reads.pure rfl
    · exact Reads.pure rfl
  · have hcode : code < 0 := hcode
    simp only [checkCache, hl, if_pos (show code ≠ 0 by omega)]
    exact Reads.pure rfl

theorem applypatchCheck_reads (hP : ∀ e, P e → e.honest) (s : Sys) (filename : Bytes) (patchSha1Str : List Bytes)
    (stack : FileContents) :
    Reads P (applypatchCheck lib filename patchSha1Str stack) s (fun r => checkOf lib s filename patchSha1Str = .ok r)
      (DiesOf (checkOf lib s filename patchSha1Str)) := by
  unfold applypatchCheck
  refine Reads.load lib hP (fun stop hl hd => ?_) fun r hr => ?_
  · simp only [checkOf, hl]
    cases stop <;> first | rfl | cases hd
  obtain ⟨filestate, file⟩ := r
  rcases hr with ⟨rfl, data, hl, -, -, hsha⟩ | ⟨hcode, hl, -⟩
  · have hsha : file.sha1 = lib.sha1 data := hsha
    have hcopy := checkCopy_reads lib hP s patchSha1Str file
    simp only [checkOf, hl, hsha, ne_eq, not_true_eq_false, false_or]
    rw [if_neg (show ¬ (0 : ℤ) = negEnoent by decide)]
    split_ifs with hm
    · exact hcopy
    · exact Reads.pure rfl
  · have hcode : filestate < 0 := hcode
    simp only [checkOf, hl, if_pos (Or.inl (show filestate ≠ 0 by omega))]
    split_ifs with hm
    · exact Reads.pure rfl
    · exact checkCopy_reads lib hP s patchSha1Str file

/-! ### When the check is right -/

theorem sizesData_error {part : Bytes} : ∀ {pairs : List (ℕ × Option Bytes)} {data : Bytes} {stop : Stop},
    sizesData lib part pairs data = .error stop → stop = .fault ∨ stop = .ret (-1)
  | [], _, _, h => by cases h; exact .inr rfl
  | (size, sha1sum) :: rest, data, stop, h => by
    unfold sizesData at h
    split_ifs at h
    · cases h; exact .inr rfl
    simp only at h
    split at h
    · cases h; exact .inl rfl
    split at h
    · cases h; exact .inr rfl
    split_ifs at h
    exact sizesData_error h

def Missing (s : Sys) (filename : Bytes) : Prop := isPartitionName filename = false ∧ s.files filename = none

/-- A partition name on which `LoadPartitionContents` faults. -/
def NameFaults (s : Sys) (filename : Bytes) : Prop :=
  isPartitionName filename = true ∧ partitionData lib s filename = .error .fault

theorem partitionData_error {s : Sys} {filename : Bytes} {stop : Stop} (h : partitionData lib s filename = .error stop) :
    stop = .fault ∨ stop = .ret (-1) := by
  simp only [partitionData] at h
  rcases bind_eq_error.mp h with h | ⟨name, -, h⟩
  · exact parsePartitionName_error h
  · split at h
    · cases h; exact .inl rfl
    split at h
    · cases h; exact .inr rfl
    split_ifs at h
    · cases h; exact .inl rfl
    · exact sizesData_error lib h

theorem loadData_error {s : Sys} {filename : Bytes} {stop : Stop} (h : loadData lib s filename = .error stop) :
    stop = .ret (-1) ∨ (Missing s filename ∧ stop = .ret negEnoent) ∨ (NameFaults lib s filename ∧ stop = .fault) := by
  unfold loadData at h
  split_ifs at h with hpart
  · rcases partitionData_error lib h with rfl | rfl
    · exact .inr (.inr ⟨⟨hpart, h⟩, rfl⟩)
    · exact .inl rfl
  · unfold fileData at h
    cases hf : s.files filename with
    | none =>
      rw [hf] at h
      cases h
      exact .inr (.inl ⟨⟨by simpa using hpart, hf⟩, rfl⟩)
    | some f =>
      obtain ⟨masked, hmask, -⟩ := maskData_ok f.data
      simp only [hf, hmask, ok_bind] at h
      split_ifs at h
      · cases h; exact .inl rfl
      · cases masked with
        | none => cases h; exact .inl rfl
        | some d => cases h

theorem Missing.load {s : Sys} {filename : Bytes} (h : Missing s filename) :
    loadData lib s filename = .error (.ret negEnoent) := by
  simp [loadData, h.1, fileData, h.2]

theorem NameFaults.load {s : Sys} {filename : Bytes} (h : NameFaults lib s filename) :
    loadData lib s filename = .error .fault := by
  simp [loadData, h.1, h.2]

theorem checkCache_eq_zero {s : Sys} {patchSha1Str : List Bytes} :
    checkCache lib s patchSha1Str = .ok 0 ↔ CacheMatches lib s patchSha1Str := by
  unfold checkCache CacheMatches
  cases loadData lib s cacheTempSource with
  | ok data => simp [Option.isSome_iff_ne_none]
  | error stop => cases stop <;> simp

/-- The check passes where a file does, but the copy does not help a missing file or a name
that faults. -/
theorem checkOf_eq_zero {s : Sys} {filename : Bytes} {patchSha1Str : List Bytes} :
    checkOf lib s filename patchSha1Str = .ok 0 ↔ FileMatches lib s filename patchSha1Str ∨
      (CacheMatches lib s patchSha1Str ∧ ¬ Missing s filename ∧ ¬ NameFaults lib s filename) := by
  cases hl : loadData lib s filename with
  | ok data =>
    have h1 : ¬ Missing s filename := fun h => by simp [h.load lib] at hl
    have h2 : ¬ NameFaults lib s filename := fun h => by simp [h.load lib] at hl
    have hfile : FileMatches lib s filename patchSha1Str ↔
        (patchSha1Str = [] ∨ (findMatchingPatch (lib.sha1 data) patchSha1Str).isSome = true) := by
      simp [FileMatches, hl]
    simp only [checkOf, hl, hfile, h1, h2, not_false_eq_true, and_self, and_true, ← checkCache_eq_zero]
    by_cases hnil : patchSha1Str = []
    · simp [hnil]
    · have hpos : 0 < patchSha1Str.length := List.length_pos_iff.mpr hnil
      cases findMatchingPatch (lib.sha1 data) patchSha1Str <;> simp [hnil, hpos]
  | error stop =>
    have hfile : ¬ FileMatches lib s filename patchSha1Str := by
      rintro ⟨data, hd, -⟩
      rw [hl] at hd
      cases hd
    have hret : ∀ code : ℤ, code ≠ 0 → (Except.ok code : Except Stop ℤ) ≠ .ok 0 := fun code hc h => hc (Except.ok.inj h)
    rcases loadData_error lib hl with rfl | ⟨hm, rfl⟩ | ⟨hf, rfl⟩
    · have h1 : ¬ Missing s filename := fun h => by
        rw [h.load lib] at hl
        exact absurd hl (by decide)
      have h2 : ¬ NameFaults lib s filename := fun h => by simp [h.load lib] at hl
      simp only [checkOf, hl, if_neg (show ¬ (-1 : ℤ) = negEnoent by decide), checkCache_eq_zero, hfile, h1, h2,
        not_false_eq_true, and_self, and_true, false_or]
    · simp only [checkOf, hl, if_true, hfile, hm, not_true_eq_false, false_and, and_false, or_self, iff_false]
      exact hret negEnoent (by decide)
    · simp [checkOf, hl, hfile, hf]

/-- A call that neither fails to read nor stops the machine. -/
def Ev.quiet (e : Ev) : Prop := e.honest ∧ e.halt = false

def ReturnsZero (ev : ℕ → Ev) (s : Sys) (filename : Bytes) (patchSha1Str : List Bytes) (stack : FileContents) : Prop :=
  ∃ n s', applypatchCheck lib filename patchSha1Str stack ev 0 s = .ok 0 n s'

theorem returnsZero_iff {ev : ℕ → Ev} (hev : ∀ i, (ev i).quiet) (s : Sys) (filename : Bytes) (patchSha1Str : List Bytes)
    (stack : FileContents) :
    ReturnsZero lib ev s filename patchSha1Str stack ↔ checkOf lib s filename patchSha1Str = .ok 0 := by
  have hreads := applypatchCheck_reads lib (P := Ev.quiet) (fun _ h => h.1) s filename patchSha1Str stack ev hev 0
  unfold ReturnsZero
  cases hrun : applypatchCheck lib filename patchSha1Str stack ev 0 s with
  | ok r n s' =>
    rw [hrun] at hreads
    simp [show checkOf lib s filename patchSha1Str = .ok r from hreads.2]
  | error e n s' =>
    rw [hrun] at hreads
    obtain ⟨-, stop, -, hd, -⟩ := hreads
    simp [hd]
  | crash s' =>
    rw [hrun] at hreads
    obtain ⟨e, he, hh, -⟩ := hreads
    simp [he.2] at hh

/-- **When `applypatch_check` is right.** It returns 0 exactly if the named file or the saved
copy has a listed hash, unless the copy has one and the named file is missing (or the name is
a malformed partition name): then it should pass and does not. -/
theorem check_agrees_iff {ev : ℕ → Ev} (hev : ∀ i, (ev i).quiet) (s : Sys) (filename : Bytes)
    (patchSha1Str : List Bytes) (stack : FileContents) :
    (ReturnsZero lib ev s filename patchSha1Str stack ↔
        FileMatches lib s filename patchSha1Str ∨ CacheMatches lib s patchSha1Str) ↔
      ¬ (CacheMatches lib s patchSha1Str ∧ (Missing s filename ∨ NameFaults lib s filename)) := by
  rw [returnsZero_iff lib hev, checkOf_eq_zero]
  have hfile : Missing s filename ∨ NameFaults lib s filename → ¬ FileMatches lib s filename patchSha1Str := by
    rintro h ⟨data, hd, -⟩
    rcases h with h | h
    · simp [h.load lib] at hd
    · simp [h.load lib] at hd
  tauto

/-- A saved copy is all that is left, as after an interrupted low-space run. -/
def copyOnly : Sys := Sys.ofFiles [(cacheTempSource, ⟨lit "abc", 0o644, 0, 0, true, true⟩)]

/-- The copy would do, but the check of the missing file fails. -/
theorem check_fails_on_missing :
    applypatchCheck abcLib (lit "/system/a") [abcSha1Str] .blank (fun _ => Ev.fine) 0 copyOnly
        = .ok negEnoent 1 copyOnly ∧
      CacheMatches abcLib copyOnly [abcSha1Str] ∧
      ¬ (ReturnsZero abcLib (fun _ => Ev.fine) copyOnly (lit "/system/a") [abcSha1Str] .blank ↔
        FileMatches abcLib copyOnly (lit "/system/a") [abcSha1Str] ∨ CacheMatches abcLib copyOnly [abcSha1Str]) := by
  have hrun : applypatchCheck abcLib (lit "/system/a") [abcSha1Str] .blank (fun _ => Ev.fine) 0 copyOnly
      = .ok negEnoent 1 copyOnly := rfl
  have hcache : CacheMatches abcLib copyOnly [abcSha1Str] := ⟨lit "abc", by decide +kernel, by decide +kernel⟩
  refine ⟨hrun, hcache, fun h => ?_⟩
  obtain ⟨n, s', hz⟩ := h.mpr (.inr hcache)
  rw [hrun] at hz
  injection hz with hcode
  exact absurd hcode (by decide)

/-- Under its own name the copy is not missing, and the check is right about it. -/
theorem check_agrees_iff_copyOnly :
    (ReturnsZero abcLib (fun _ => Ev.fine) copyOnly cacheTempSource [abcSha1Str] .blank ↔
        FileMatches abcLib copyOnly cacheTempSource [abcSha1Str] ∨ CacheMatches abcLib copyOnly [abcSha1Str]) := by
  have hev : ∀ i : ℕ, ((fun _ => Ev.fine : ℕ → Ev) i).quiet := fun _ => ⟨rfl, rfl⟩
  refine (check_agrees_iff abcLib hev copyOnly cacheTempSource [abcSha1Str] .blank).mpr ?_
  rintro ⟨-, ⟨-, h⟩ | ⟨h, -⟩⟩
  · simp [copyOnly, Sys.ofFiles] at h
  · exact absurd h (by decide)

end Patch
end Recovery
