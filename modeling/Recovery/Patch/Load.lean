/-
# Loading and saving files (applypatch.c)

`LoadFileContents` reads a file, masks its retouched words and hashes it; for a name that
begins with `MTD:` or `EMMC:` it reads the prefix of a partition. Both keep what an earlier
load left in their `FileContents`, and fail with `data == NULL`.
-/
import Recovery.Patch.System
import Recovery.Patch.Retouch
import Mathlib.Data.List.Sort

namespace Recovery
namespace Patch

/-- What applypatch loads. `data` is `none` for the null pointer. -/
structure FileContents where
  sha1 : Bytes
  data : Option Bytes
  size : ℤ
  mode : ℕ
  uid : ℕ
  gid : ℕ

def FileContents.blank : FileContents := ⟨[], none, 0, 0, 0, 0⟩

def cacheTempSource : Path := lit "/cache/saved.file"

/-- `strncmp(name, "MTD:", 4) == 0 || strncmp(name, "EMMC:", 5) == 0`. -/
def isPartitionName (name : Bytes) : Bool := (lit "MTD:").isPrefixOf name || (lit "EMMC:").isPrefixOf name

/-! ### Hashes as text -/

def hexDigit (c : UInt8) : Option ℕ :=
  if 0x30 ≤ c ∧ c ≤ 0x39 then some (c.toNat - 0x30)
  else if 0x61 ≤ c ∧ c ≤ 0x66 then some (c.toNat - 0x61 + 10)
  else if 0x41 ≤ c ∧ c ≤ 0x46 then some (c.toNat - 0x41 + 10)
  else none

/-- `n` bytes in pairs of hexadecimal digits, and nothing behind them. -/
def parseHex : ℕ → Bytes → Option Bytes
  | 0, [] => some []
  | 0, _ => none
  | n + 1, hi :: lo :: rest => do
    let h ← hexDigit hi
    let l ← hexDigit lo
    let digest ← parseHex n rest
    pure (UInt8.ofNat (h * 16 + l) :: digest)
  | _, _ => none

def parseSha1 (str : Bytes) : Option Bytes := parseHex 20 str

/-- The index of the first string that parses to the digest. -/
def findMatchingPatch (sha1 : Bytes) (patchSha1Str : List Bytes) : Option ℕ :=
  patchSha1Str.findIdx? fun str => parseSha1 str = some sha1

/-! ### Names of partitions -/

/-- The tokens `strtok` returns one after the other. -/
def strtok (str : Bytes) : List Bytes := (str.splitOn 0x3a).filter (· ≠ [])

def isSpace (c : UInt8) : Bool := c = 0x20 ∨ (0x09 ≤ c ∧ c ≤ 0x0d)

def strtol (str : Bytes) : ℤ :=
  let str := str.dropWhile isSpace
  let (neg, str) := match str with
    | 0x2d :: rest => (true, rest)
    | 0x2b :: rest => (false, rest)
    | _ => (false, str)
  let v : ℤ := (str.takeWhile fun c => 0x30 ≤ c ∧ c ≤ 0x39).foldl (fun v c => v * 10 + (c.toNat - 0x30 : ℤ)) 0
  max (-2 ^ 31) (min (if neg then -v else v) (2 ^ 31 - 1))

/-- The partition, and pairs of a size and a hash, which may be missing. -/
structure PartitionName where
  type : PartitionType
  partition : Option Bytes
  pairs : List (ℕ × Option Bytes)

def readPairs : ℕ → List Bytes → Except Stop (List (ℕ × Option Bytes))
  | 0, _ => pure []
  | _ + 1, [] => .error .fault
  | n + 1, sizeStr :: rest => do
    let size := (u32 (strtol sizeStr)).toNat
    failIf (size = 0) (.ret (-1))
    let pairs ← readPairs n rest.tail
    pure ((size, rest.head?) :: pairs)

/-- The part of `LoadPartitionContents` that takes the name apart. -/
def parsePartitionName (filename : Bytes) : Except Stop PartitionName := do
  let tokens := strtok filename
  failIf (tokens.head? ≠ some (lit "MTD") ∧ tokens.head? ≠ some (lit "EMMC")) (.ret (-1))
  let type := if tokens.head? = some (lit "MTD") then PartitionType.mtd else .emmc
  let colons := filename.count 0x3a
  let pairs ← readPairs ((colons - 1) / 2) (tokens.drop 2)
  pure ⟨type, tokens[1]?, pairs⟩

/-! ### Partitions -/

/-- The hash, and `qsort`, which leaves pairs of the same size in any order. `steps` bounds
loops over a device. -/
structure Lib where
  sha1 : Bytes → Bytes
  steps : ℕ
  qsort : List (ℕ × Option Bytes) → List (ℕ × Option Bytes)
  qsort_perm : ∀ l, (qsort l).Perm l
  qsort_sorted : ∀ l, (qsort l).Pairwise fun a b => a.1 ≤ b.1

/-- A library with a given hash, which sorts by insertion. -/
def Lib.ofSha1 (sha1 : Bytes → Bytes) (steps : ℕ) : Lib where
  sha1 := sha1
  steps := steps
  qsort := List.insertionSort fun a b => a.1 ≤ b.1
  qsort_perm := List.perm_insertionSort _
  qsort_sorted := List.pairwise_insertionSort _

def abcSha1Str : Bytes := lit "a9993e364706816aba3e25717850c26c9cd0d89d"

def abcSha1 : Bytes :=
  [0xa9, 0x99, 0x3e, 0x36, 0x47, 0x06, 0x81, 0x6a, 0xba, 0x3e, 0x25, 0x71, 0x78, 0x50, 0xc2, 0x6c, 0x9c, 0xd0, 0xd8, 0x9d]

def oldSha1Str : Bytes := lit "c00dbbc9dadfbe1e232e93a729dd4752fade0abf"

def oldSha1 : Bytes :=
  [0xc0, 0x0d, 0xbb, 0xc9, 0xda, 0xdf, 0xbe, 0x1e, 0x23, 0x2e, 0x93, 0xa7, 0x29, 0xdd, 0x47, 0x52, 0xfa, 0xde, 0x0a, 0xbf]

def abcLib : Lib :=
  Lib.ofSha1 (fun b => if b = lit "abc" then abcSha1 else if b = lit "old" then oldSha1 else []) 64

/-- `mtd_find_partition_by_name` and `mtd_read_partition`, or `fopen`. -/
def openPartition (t : PartitionType) (p : Bytes) : Run Bool := Crash.call machine fun e s =>
  (!e.readFails && (s.partitions t p).isSome, s)

/-- The bytes `i` to `i + n` of a partition: `none` if the read is short. -/
def readPartition (t : PartitionType) (p : Bytes) (i n : ℕ) : Run (Option Bytes) := Crash.call machine fun e s =>
  (match s.partitions t p with
    | some part => if e.readFails ∨ part.data.length < i + n then none else some ((part.data.drop i).take n)
    | none => none, s)

variable (lib : Lib)

/-- The loop over the sizes: the data so far, and whether its hash was announced. -/
def readSizes (t : PartitionType) (p : Bytes) : List (ℕ × Option Bytes) → Bytes → Run (Bool × Bytes)
  | [], data => pure (false, data)
  | (size, sha1sum) :: rest, data => do
    let next := size - data.length
    -- sizes are in ascending order, and equal ones read nothing
    let read ← (if 0 < next then readPartition t p data.length next else pure (some []))
    match read with
    | none => pure (false, data)
    | some bytes =>
      match sha1sum with
      | none => Crash.fail (.stop .fault)
      | some str =>
        match parseSha1 str with
        | none => pure (false, data ++ bytes)
        | some digest =>
          if lib.sha1 (data ++ bytes) = digest then pure (true, data ++ bytes)
          else readSizes t p rest (data ++ bytes)

def loadPartitionContents (filename : Bytes) (file : FileContents) : Run (ℤ × FileContents) :=
  match parsePartitionName filename with
  | .error (.ret code) => pure (code, file)
  | .error stop => Crash.fail (.stop stop)
  | .ok name =>
    match name.partition with
    | none => Crash.fail (.stop .fault)
    | some p => do
      let opened ← openPartition name.type p
      if opened = false then pure (-1, file)
      -- the largest size is that of the last pair
      else if name.pairs = [] then Crash.fail (.stop .fault)
      else do
        let (found, data) ← readSizes lib name.type p (lib.qsort name.pairs) []
        if found then pure (0, ⟨lib.sha1 data, some data, data.length, 0o644, 0, 0⟩)
        else pure (-1, { file with data := none, size := data.length })

/-! ### Files -/

def negEnoent : ℤ := -2

def loadFileContents (filename : Bytes) (file : FileContents) : Run (ℤ × FileContents) :=
  let file := { file with data := none }
  if isPartitionName filename then loadPartitionContents lib filename file
  else do
    let st ← stat filename
    match st with
    | .error .enoent => pure (negEnoent, file)
    | .error .other => pure (-1, file)
    | .ok st => do
      let file := { file with size := st.data.length, mode := st.mode, uid := st.uid, gid := st.gid }
      let opened ← fopen filename
      if opened = false then pure (-1, file)
      else do
        let read ← fread filename st.data.length
        match read with
        | none => pure (-1, file)
        | some data => do
          let masked ← ofExcept (maskData data)
          match masked with
          | none => pure (-1, file)
          | some data => pure (0, { file with data := some data, sha1 := lib.sha1 data })

/-- `FileSink` on the file opened last: how many bytes were written. -/
def fileSinkLoop (p : Path) : ℕ → Bytes → ℕ → Run ℕ
  | 0, _, done => pure done
  | n + 1, data, done =>
    if data = [] then pure done
    else do
      let wrote ← write p data
      if wrote ≤ 0 then pure done
      else fileSinkLoop p n (data.drop wrote.toNat) (done + wrote.toNat)

def fileSink (p : Path) (data : Bytes) : Run ℕ := fileSinkLoop p data.length data 0

/-- `FileSink` as `SaveFileContents` calls it: a null pointer makes `write` fail. -/
def fileSinkOf (p : Path) (file : FileContents) : Run ℤ :=
  match file.data with
  | some data => do
    let done ← fileSink p data
    pure done
  | none => pure 0

def saveFileContents (filename : Bytes) (file : FileContents) : Run Bool := do
  let opened ← openTrunc filename
  if opened = false then pure false
  else do
    let bytesWritten ← fileSinkOf filename file
    if bytesWritten ≠ file.size then pure false
    else do
      fsync filename
      let moded ← chmod filename file.mode
      if moded = false then pure false
      else chown filename file.uid file.gid

/-! ### What a name loads as -/

/-- The prefix of a partition one of the pairs announces. -/
def sizesData (part : Bytes) : List (ℕ × Option Bytes) → Bytes → Except Stop Bytes
  | [], _ => .error (.ret (-1))
  | (size, sha1sum) :: rest, data =>
    if data.length < size ∧ part.length < size then .error (.ret (-1))
    else
      let data := data ++ (part.drop data.length).take (size - data.length)
      match sha1sum with
      | none => .error .fault
      | some str =>
        match parseSha1 str with
        | none => .error (.ret (-1))
        | some digest => if lib.sha1 data = digest then .ok data else sizesData part rest data

def partitionData (s : Sys) (filename : Bytes) : Except Stop Bytes := do
  let name ← parsePartitionName filename
  match name.partition with
  | none => .error .fault
  | some p =>
    match s.partitions name.type p with
    | none => .error (.ret (-1))
    | some part =>
      if name.pairs = [] then .error .fault else sizesData lib part.data (lib.qsort name.pairs) []

def fileData (s : Sys) (filename : Path) : Except Stop Bytes :=
  match s.files filename with
  | none => .error (.ret negEnoent)
  | some f =>
    if f.readable = false then .error (.ret (-1))
    else do
      let masked ← maskData f.data
      match masked with
      | none => .error (.ret (-1))
      | some data => .ok data

/-- The data under a name, or the code of the failure. -/
def loadData (s : Sys) (filename : Bytes) : Except Stop Bytes :=
  if isPartitionName filename then partitionData lib s filename else fileData s filename

variable {P : Ev → Prop}

/-- What a load returned, against what there is. -/
def LoadedAs (found : Except Stop Bytes) (r : ℤ × FileContents) : Prop :=
  (r.1 = 0 ∧ ∃ data, found = .ok data ∧ r.2.data = some data ∧ r.2.size = data.length ∧ r.2.sha1 = lib.sha1 data) ∨
    (r.1 < 0 ∧ found = .error (.ret r.1) ∧ r.2.data = none)

theorem LoadedAs.failed {found : Except Stop Bytes} {code : ℤ} {file : FileContents} (h : found = .error (.ret code))
    (hc : code < 0) (hd : file.data = none) : LoadedAs lib found (code, file) := .inr ⟨hc, h, hd⟩

def DiesOf {α : Type} (found : Except Stop α) (e : Failure) : Prop :=
  ∃ stop, e = .stop stop ∧ found = .error stop ∧ stop.dies = true

theorem readSizes_reads (hP : ∀ e, P e → e.honest) {s : Sys} {t : PartitionType} {p : Bytes} {part : Partition}
    (hp : s.partitions t p = some part) : ∀ (pairs : List (ℕ × Option Bytes)) (data : Bytes),
    Reads P (readSizes lib t p pairs data) s
      (fun r => (r.1 = true ∧ sizesData lib part.data pairs data = .ok r.2) ∨
        (r.1 = false ∧ sizesData lib part.data pairs data = .error (.ret (-1))))
      (DiesOf (sizesData lib part.data pairs data))
  | [], data => Reads.pure (.inr ⟨rfl, rfl⟩)
  | (size, sha1sum) :: rest, data => by
    have hread : Reads P (if 0 < size - data.length then readPartition t p data.length (size - data.length)
        else pure (some [])) s (fun r => r = if data.length < size ∧ part.data.length < size then none
          else some ((part.data.drop data.length).take (size - data.length)))
        (DiesOf (sizesData lib part.data ((size, sha1sum) :: rest) data)) := by
      split_ifs with h0 h1 h1
      · refine reads_call (fun _ => rfl) fun e _ => ?_
        simp only [hp]
        rw [if_pos (Or.inr (by omega))]
      · refine reads_call (fun _ => rfl) fun e he => ?_
        simp only [hp]
        rw [if_neg (not_or.mpr ⟨by simp [show e.readFails = false from hP e he], by omega⟩)]
      · omega
      · refine Reads.pure ?_
        rw [show size - data.length = 0 by omega, List.take_zero]
    unfold readSizes
    refine hread.bind fun r hr => ?_
    subst hr
    unfold sizesData
    split_ifs with h
    · exact Reads.pure (.inr ⟨rfl, rfl⟩)
    · simp only
      cases sha1sum with
      | none => exact Reads.fail ⟨.fault, rfl, rfl, rfl⟩
      | some str =>
        simp only
        cases parseSha1 str with
        | none => exact Reads.pure (.inr ⟨rfl, rfl⟩)
        | some digest =>
          simp only
          split_ifs with hd
          · exact Reads.pure (.inl ⟨rfl, rfl⟩)
          · exact readSizes_reads hP hp rest _

theorem readPairs_error : ∀ {n : ℕ} {tokens : List Bytes} {stop : Stop},
    readPairs n tokens = .error stop → stop = .fault ∨ stop = .ret (-1)
  | 0, _, _, h => by cases h
  | _ + 1, [], _, h => by cases h; exact .inl rfl
  | n + 1, sizeStr :: rest, stop, h => by
    simp only [readPairs, failIf_bind] at h
    split_ifs at h
    · cases h; exact .inr rfl
    · rcases bind_eq_error.mp h with h | ⟨_, _, h⟩
      · exact readPairs_error h
      · cases h

theorem parsePartitionName_error {filename : Bytes} {stop : Stop} (h : parsePartitionName filename = .error stop) :
    stop = .fault ∨ stop = .ret (-1) := by
  simp only [parsePartitionName, failIf_bind] at h
  by_cases htok : (strtok filename).head? ≠ some (lit "MTD") ∧ (strtok filename).head? ≠ some (lit "EMMC")
  · rw [if_pos htok] at h
    cases h
    exact .inr rfl
  · rw [if_neg htok] at h
    rcases bind_eq_error.mp h with h | ⟨_, _, h⟩
    · exact readPairs_error h
    · cases h

theorem loadPartitionContents_reads (hP : ∀ e, P e → e.honest) (s : Sys) (filename : Bytes)
    (file : FileContents) (hfile : file.data = none) :
    Reads P (loadPartitionContents lib filename file) s (LoadedAs lib (partitionData lib s filename))
      (DiesOf (partitionData lib s filename)) := by
  unfold loadPartitionContents partitionData
  cases hname : parsePartitionName filename with
  | error stop =>
    cases stop with
    | ret code =>
      obtain rfl : code = -1 := by simpa using parsePartitionName_error hname
      exact Reads.pure (LoadedAs.failed lib rfl (by norm_num) hfile)
    | _ => exact Reads.fail ⟨_, rfl, rfl, rfl⟩
  | ok name =>
    simp only [ok_bind]
    cases name.partition with
    | none => exact Reads.fail ⟨_, rfl, rfl, rfl⟩
    | some p =>
      simp only
      have hopen : Reads P (openPartition name.type p) s (fun r => r = (s.partitions name.type p).isSome)
          (fun _ => False) :=
        reads_call (fun _ => rfl) fun e he => by simp [show e.readFails = false from hP e he]
      refine hopen.step fun r hr => ?_
      subst hr
      cases hpart : s.partitions name.type p with
      | none => exact Reads.pure (LoadedAs.failed lib rfl (by norm_num) hfile)
      | some part =>
        simp only [Option.isSome_some, Bool.true_eq_false, if_false]
        by_cases hpairs : name.pairs = []
        · rw [if_pos hpairs, if_pos hpairs]
          exact Reads.fail ⟨_, rfl, rfl, rfl⟩
        · rw [if_neg hpairs, if_neg hpairs]
          refine (readSizes_reads lib hP hpart (lib.qsort name.pairs) []).bind fun r hr => ?_
          obtain ⟨found, data⟩ := r
          rcases hr with ⟨rfl, hr⟩ | ⟨rfl, hr⟩
          · exact Reads.pure (.inl ⟨rfl, data, hr, rfl, rfl, rfl⟩)
          · exact Reads.pure (LoadedAs.failed lib hr (by norm_num) rfl)

/-- **`LoadFileContents` finds what there is**, and changes nothing. -/
theorem loadFileContents_reads (hP : ∀ e, P e → e.honest) (s : Sys) (filename : Bytes) (file : FileContents) :
    Reads P (loadFileContents lib filename file) s (LoadedAs lib (loadData lib s filename))
      (DiesOf (loadData lib s filename)) := by
  unfold loadFileContents loadData
  split_ifs with hpart
  · exact loadPartitionContents_reads lib hP s filename _ rfl
  unfold fileData
  have hstat : Reads P (stat filename) s
      (fun r => r = (s.files filename).elim (.error .enoent) .ok) (fun _ => False) :=
    reads_call (fun _ => rfl) fun e he => by
      rw [show e.readFails = false from hP e he]
      cases s.files filename <;> rfl
  refine hstat.step fun r hr => ?_
  subst hr
  cases hf : s.files filename with
  | none => exact Reads.pure (LoadedAs.failed lib rfl (by decide) rfl)
  | some f =>
    simp only [Option.elim_some]
    have hopen : Reads P (fopen filename) s (fun r => r = f.readable) (fun _ => False) :=
      reads_call (fun _ => rfl) fun e he => by simp [show e.readFails = false from hP e he, hf]
    refine hopen.step fun r hr => ?_
    subst hr
    cases hr : f.readable with
    | false => exact Reads.pure (LoadedAs.failed lib rfl (by norm_num) rfl)
    | true =>
      simp only [Bool.true_eq_false, if_false]
      have hread : Reads P (fread filename f.data.length) s (fun r => r = some f.data) (fun _ => False) :=
        reads_call (fun _ => rfl) fun e he => by simp [show e.readFails = false from hP e he, hf]
      refine hread.step fun r hr => ?_
      subst hr
      obtain ⟨masked, hmask, hlen⟩ := maskData_ok f.data
      simp only [hmask, ok_bind, ofExcept]
      have hpure : Reads P (pure masked) s (fun r => r = masked) (fun _ => False) := Reads.pure rfl
      refine hpure.step fun r hr => ?_
      subst hr
      cases r with
      | none => exact Reads.pure (LoadedAs.failed lib rfl (by norm_num) rfl)
      | some data => exact Reads.pure (.inl ⟨rfl, data, rfl, rfl, by rw [hlen data rfl], rfl⟩)

end Patch
end Recovery
