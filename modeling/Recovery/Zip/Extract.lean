/-
# Extracting entries (Zip.c, DirUtil.c)

The data of an entry is read in pieces of at most 32 KiB, decompressed if need be, and
handed to a process function. `mzExtractRecursive` picks the entries below a directory and
makes a file, a directory or a link of each.

An event decides the answer of a call. The log has the calls that succeeded and the errors
that were reported for a file. The security contexts are left out.
-/
import Recovery.Zip.Archive
import Recovery.Lib.Crash
import Recovery.Patch.BsPatch

namespace Recovery
namespace Zip

open Patch (zOk zStreamEnd)

/-! ### Libraries and the system -/

/-- The code, how much input was used, what was put out and the stream. -/
structure Inflated (St : Type) where
  code : ℤ
  consumed : ℕ
  out : Bytes
  st : St

/-- Any decompressor. `steps` bounds the loops. -/
structure Inflater where
  St : Type
  init : St
  inflate : St → Bytes → ℕ → Inflated St
  consumed_le : ∀ st input room, (inflate st input room).consumed ≤ input.length
  out_le : ∀ st input room, (inflate st input room).out.length ≤ room
  steps : ℕ

/-- `DirStatus`. -/
inductive DirStatus
  | missing
  | dir
  | illegal
  deriving DecidableEq

structure Ev where
  /-- the machine stops -/
  halt : Bool
  allocFails : Bool
  readFails : Bool
  inflateFails : Bool
  writeFails : Bool
  /-- `creat`, `mkdir` or `symlink` fails -/
  createFails : Bool
  utimeFails : Bool
  /-- `errno` is `EINTR` -/
  intr : Bool
  /-- the bytes a `read` moves at most -/
  readCount : ℕ
  /-- the bytes a `write` moves at most -/
  count : ℕ
  /-- what `stat` finds -/
  status : DirStatus
  /-- what is in memory that was not set -/
  junk : UInt8

def Ev.fine : Ev where
  halt := false
  allocFails := false
  readFails := false
  inflateFails := false
  writeFails := false
  createFails := false
  utimeFails := false
  intr := false
  readCount := 2 ^ 32
  count := 2 ^ 32
  status := .missing
  junk := 0

abbrev Path := Bytes

/-- A call that succeeded, or an error message. -/
inductive Op
  /-- `stat` found a directory -/
  | isDir (path : Path)
  | mkdir (path : Path)
  | creat (path : Path)
  | write (path : Path) (data : Bytes)
  | symlink (target : Bytes) (path : Path)
  | utime (path : Path)
  | callback (path : Path)
  | errorExtracting (path : Path)
  | errorTouching (path : Path)
  deriving DecidableEq

abbrev Log := List Op

def machine (σ : Type) : Crash.Machine Ev σ := ⟨Ev.halt, fun _ s => s⟩

abbrev Run (σ α : Type) := Crash.Prog Ev Stop σ α

variable {σ : Type}

def ask {α : Type} (f : Ev → α) : Run σ α := Crash.call (machine σ) fun e s => (f e, s)

def act (fails : Ev → Bool) (op : Op) : Run Log Bool := Crash.call (machine Log) fun e log =>
  if fails e then (false, log) else (true, log ++ [op])

def say (op : Op) : Run Log Unit := Crash.call (machine Log) fun _ log => ((), log ++ [op])

/-- `read` at a position of the archive: `none` if it fails. -/
def readFd (file : Bytes) (pos n : ℕ) : Run σ (Option Bytes) := ask fun e =>
  if e.readFails then none else some (((file.drop pos).take n).take e.readCount)

/-- An allocation of `n` bytes: none is as large as half the address space. -/
def malloc (n : ℕ) : Run σ (Option Bytes) := ask fun e =>
  if e.allocFails ∨ 2 ^ 31 ≤ n then none else some (List.replicate n e.junk)

def ofExcept {α : Type} : Except Stop α → Run σ α
  | .ok a => pure a
  | .error stop => Crash.fail stop

/-! ### The data of an entry -/

def stored : ℕ := 0
def deflated : ℕ := 8

def bufSize : ℕ := 32 * 1024

def processStoredLoop (file : Bytes) (processFunction : Bytes → Run σ Bool) : ℕ → ℕ → ℕ → Run σ Bool
  | 0, _, _ => Crash.fail .hang
  | n + 1, pos, bytesLeft =>
    if 0 < bytesLeft then do
      let count := min bytesLeft bufSize
      let buf ← readFd file pos count
      match buf with
      | none => pure false
      | some buf =>
        if buf.length ≠ count then pure false
        else do
          let ret ← processFunction buf
          if ret then processStoredLoop file processFunction n (pos + count) (bytesLeft - count) else pure false
    else pure true

def processStoredEntry (file : Bytes) (pos : ℕ) (pEntry : ZipEntry) (processFunction : Bytes → Run σ Bool) : Run σ Bool :=
  processStoredLoop file processFunction ((u32 pEntry.compLen).toNat + 1) pos (u32 pEntry.compLen).toNat

variable (z : Inflater)

/-- What is left to read and where, the unused input, the output that is not handed on, and
the stream. -/
structure Pump where
  compRemaining : ℤ
  pos : ℕ
  input : Bytes
  procBuf : Bytes
  totalOut : ℕ
  st : z.St

variable {z}

/-- Read more input if there is none: `none` for `goto z_bail`. -/
def fillInput (file : Bytes) (p : Pump z) : Run σ (Option (Pump z)) :=
  if p.input = [] then
    let getSize := min p.compRemaining bufSize
    if getSize < 0 then
      -- `read` of such a size returns -1; where that is the size, `inflate` is given 4 GiB of input
      if getSize = -1 then Crash.fail .fault else pure none
    else do
      let buf ← readFd file p.pos getSize.toNat
      match buf with
      | none => pure none
      | some buf =>
        if (buf.length : ℤ) ≠ getSize then pure none
        else pure (some { p with compRemaining := p.compRemaining - getSize, pos := p.pos + buf.length, input := buf })
  else pure (some p)

/-- `inflate` into the rest of the output buffer, or a failure of the library. -/
def inflateCall (p : Pump z) : Run σ (ℤ × Pump z) := ask fun e =>
  let r := z.inflate p.st p.input (bufSize - p.procBuf.length)
  if e.inflateFails then (-4, p)
  else (r.code, { p with input := p.input.drop r.consumed, procBuf := p.procBuf ++ r.out,
                         totalOut := p.totalOut + r.out.length, st := r.st })

/-- The loop of `processDeflatedEntry`: `result`, which is -1 after `goto z_bail`. -/
def inflateLoop (file : Bytes) (processFunction : Bytes → Run σ Bool) : ℕ → Pump z → Run σ ℤ
  | 0, _ => Crash.fail .hang
  | n + 1, p => do
    let filled ← fillInput file p
    match filled with
    | none => pure (-1)
    | some p => do
      let (zerr, p) ← inflateCall p
      if zerr ≠ zOk ∧ zerr ≠ zStreamEnd then pure (-1)
      else if p.procBuf.length = bufSize ∨ zerr = zStreamEnd ∧ p.procBuf ≠ [] then do
        let ret ← processFunction p.procBuf
        if ret then
          if zerr = zOk then inflateLoop file processFunction n { p with procBuf := [] } else pure (s32 p.totalOut)
        else pure (-1)
      else if zerr = zOk then inflateLoop file processFunction n p
      else pure (s32 p.totalOut)

variable (z)

def processDeflatedEntry (file : Bytes) (pos : ℕ) (pEntry : ZipEntry) (processFunction : Bytes → Run σ Bool) :
    Run σ Bool := do
  -- `inflateInit2`
  let init ← ask fun e => e.inflateFails
  let result ← if init then pure (-1)
    else inflateLoop file processFunction z.steps ⟨pEntry.compLen, pos, [], [], 0, z.init⟩
  pure (decide (result = pEntry.uncompLen))

/-- `lseek`, which does not move to a negative offset. -/
def seekSet (offset : ℤ) : ℕ := offset.toNat

def mzProcessZipEntryContents (file : Bytes) (pEntry : ZipEntry) (processFunction : Bytes → Run σ Bool) : Run σ Bool :=
  if pEntry.compression = stored then processStoredEntry file (seekSet pEntry.offset) pEntry processFunction
  else if pEntry.compression = deflated then
    processDeflatedEntry z file (seekSet pEntry.offset) pEntry processFunction
  else pure false

/-! ### Process functions -/

/-- A buffer with what was written to it, and the length that is counted down. -/
structure Cookie where
  buffer : Bytes
  written : ℕ
  len : ℤ

/-- `memcpy` to the place behind what was written. -/
def Cookie.put (c : Cookie) (data : Bytes) : Except Stop Cookie :=
  if c.written + data.length ≤ c.buffer.length then
    .ok ⟨c.buffer.take c.written ++ data ++ c.buffer.drop (c.written + data.length), c.written + data.length,
      c.len - data.length⟩
  else .error .fault

def onCookie {α : Type} (f : Cookie → Except Stop (α × Cookie)) : Run (σ × Cookie) α := fun _ n s =>
  match f s.2 with
  | .ok (a, c) => .ok a n (s.1, c)
  | .error stop => .error stop n s

def bufferProcessFunction (data : Bytes) : Run (σ × Cookie) Bool := onCookie fun bec => do
  let bec ← bec.put data
  pure (true, bec)

/-- `mzExtractZipEntryToBuffer`, with what is in the buffer after it. -/
def mzExtractZipEntryToBuffer (file : Bytes) (pEntry : ZipEntry) (buffer : Bytes) : Run σ (Bool × Bytes) := do
  let (ret, bec) ← Crash.withVar ⟨buffer, 0, pEntry.uncompLen⟩
    (mzProcessZipEntryContents z file pEntry bufferProcessFunction)
  pure (ret && decide (bec.len = 0), bec.buffer)

def copyProcessFunction (data : Bytes) : Run (σ × Cookie) Bool := onCookie fun args =>
  if (data.length : ℤ) ≤ args.len then do
    let args ← args.put data
    pure (true, args)
  else pure (false, args)

/-- `mzReadZipEntry`, with what is in the buffer after it. -/
def mzReadZipEntry (file : Bytes) (pEntry : ZipEntry) (buf : Bytes) (bufLen : ℤ) : Run σ (Bool × Bytes) := do
  let (ret, args) ← Crash.withVar ⟨buf, 0, bufLen⟩ (mzProcessZipEntryContents z file pEntry copyProcessFunction)
  pure (ret, args.buffer)

/-- `write`: the bytes it accepted, and whether `errno` is `EINTR`. -/
def writeFd (path : Path) (data : Bytes) : Run Log (ℕ × Bool) := Crash.call (machine Log) fun e log =>
  let n := if e.writeFails then 0 else min e.count data.length
  ((n, e.intr), if n = 0 then log else log ++ [.write path (data.take n)])

def writeLoop (path : Path) : ℕ → Bytes → Run Log Bool
  | 0, _ => Crash.fail .hang
  | n + 1, data => do
    let (written, intr) ← writeFd path data
    if written = 0 then if intr then writeLoop path n data else pure false
    else if written = data.length then pure true
    else writeLoop path n (data.drop written)

def writeProcessFunction (path : Path) (data : Bytes) : Run Log Bool := writeLoop path z.steps data

/-- `mzExtractZipEntryToFile`, for a file that was opened by its path. -/
def mzExtractZipEntryToFile (file : Bytes) (pEntry : ZipEntry) (path : Path) : Run Log Bool :=
  mzProcessZipEntryContents z file pEntry (writeProcessFunction z path)

/-! ### Directories -/

def slash : UInt8 := 0x2f

def getPathDirStatus (path : Path) : Run Log DirStatus := Crash.call (machine Log) fun e log =>
  (e.status, if e.status = .dir then log ++ [.isDir path] else log)

/-- `utime`, if there is a timestamp to set. -/
def touch (timestamp : Bool) (path : Path) : Run Log Bool :=
  if timestamp then act Ev.utimeFails (.utime path) else pure true

/-- The parts of a path that end in front of a slash and behind something else. -/
def pathLevels : Path → Path → List Path
  | _, [] => []
  | front, c :: rest =>
    if c = slash ∧ front ≠ [] ∧ front.getLast? ≠ some slash then front :: pathLevels (front ++ [c]) rest
    else pathLevels (front ++ [c]) rest

/-- The loop of `dirCreateHierarchy` that makes each level. -/
def makeLevels (timestamp : Bool) : List Path → Run Log Bool
  | [] => pure true
  | path :: paths => do
    let status ← getPathDirStatus path
    match status with
    | .illegal => pure false
    | .dir => makeLevels timestamp paths
    | .missing => do
      let made ← act Ev.createFails (.mkdir path)
      if made then do
        let touched ← touch timestamp path
        if touched then makeLevels timestamp paths else pure false
      else pure false

/-- Everything up to the last slash, which may not be the first byte. -/
def stripFileName (path : Path) : Option Path :=
  let dir := (path.reverse.dropWhile (· ≠ slash)).reverse
  if dir.length ≤ 1 then none else some dir

def dirCreateHierarchy (path : Path) (timestamp strip : Bool) : Run Log Bool :=
  if path = [] then pure false
  else do
    let cpath ← malloc (path.length + 2)
    match cpath with
    | none => pure false
    | some _ =>
      match if strip then stripFileName path else some (path ++ [slash]) with
      | none => pure false
      | some cpath => do
        let status ← getPathDirStatus cpath
        match status with
        | .dir => pure true
        | .illegal => pure false
        | .missing => makeLevels timestamp (pathLevels [] cpath)

/-! ### Paths -/

/-- `MzPathHelper`. The length of the buffer is `bufLen`. -/
structure MzPathHelper where
  targetDir : Path
  zipDir : Bytes
  buf : Option Bytes
  targetDirLen : ℕ

def store (buf : Bytes) (i : ℕ) (data : Bytes) : Except Stop Bytes :=
  if i + data.length ≤ buf.length then .ok (buf.take i ++ data ++ buf.drop (i + data.length)) else .error .fault

def realloc (buf : Option Bytes) (n : ℕ) : Run σ (Option Bytes) := do
  let new ← malloc n
  pure (new.map fun new => buf.getD [] ++ new.drop (buf.getD []).length)

def growBuf (helper : MzPathHelper) (pEntry : ZipEntry) : Run σ (Option Bytes) :=
  let needLen := helper.targetDirLen + 1 + (pEntry.fileNameLen - helper.zipDir.length) + 1
  if (helper.buf.getD []).length < needLen then realloc helper.buf (2 * needLen) else pure helper.buf

/-- The target directory and a slash, the first time. -/
def startBuf (helper : MzPathHelper) (buf : Bytes) : Except Stop MzPathHelper :=
  if helper.buf = none then do
    let buf ← store buf 0 helper.targetDir
    if helper.targetDir.getLast? = some slash then pure { helper with buf := some buf }
    else do
      let buf ← store buf helper.targetDirLen [slash]
      pure { helper with buf := some buf, targetDirLen := helper.targetDirLen + 1 }
  else pure { helper with buf := some buf }

/-- The path as a C string, and the helper for the next one. -/
def targetEntryPath (helper : MzPathHelper) (pEntry : ZipEntry) : Run σ (Option (Path × MzPathHelper)) := do
  let buf ← growBuf helper pEntry
  match buf with
  | none => pure none
  | some buf => do
    let helper ← ofExcept (startBuf helper buf)
    let buf ← ofExcept (store (helper.buf.getD []) helper.targetDirLen
      (pEntry.fileName.drop helper.zipDir.length ++ [0]))
    pure (some (cstr buf, { helper with buf := some buf }))

/-! ### mzExtractRecursive -/

structure Flags where
  filesOnly : Bool
  dryRun : Bool

/-- The file, the entries, and the byte in front of the name of each in the mapping. -/
structure Opened where
  file : Bytes
  entries : List ZipEntry
  lead : ZipEntry → UInt8

def mzIsZipEntrySymlink (pEntry : ZipEntry) : Bool :=
  pEntry.versionMadeBy &&& 0xff00 = cenVemUnix ∧ ((u32 pEntry.externalFileAttributes).toNat / 2 ^ 16) &&& 0o170000 = 0o120000

/-- The name ends with a slash. For an empty name the byte in front is looked at. -/
def isDirectory (a : Opened) (pEntry : ZipEntry) : Bool := pEntry.fileName.getLast?.getD (a.lead pEntry) = slash

/-- How the body of the loop ends: with a `break`, and what `ok` is then, or not. -/
inductive Step
  | next
  | stop (ok : Bool)
  deriving DecidableEq

def terminate (linkTarget : Bytes) (len : ℤ) : Run Log Bytes :=
  if 0 ≤ len then ofExcept (store linkTarget len.toNat [0]) else Crash.fail .fault

def extractSymlink (a : Opened) (pEntry : ZipEntry) (targetFile : Path) : Run Log Step :=
  if pEntry.uncompLen = 0 then pure (.stop false)
  else do
    let linkTarget ← malloc (u32 (pEntry.uncompLen + 1)).toNat
    match linkTarget with
    | none => pure (.stop false)
    | some linkTarget => do
      let (ok, linkTarget) ← mzReadZipEntry z a.file pEntry linkTarget pEntry.uncompLen
      if ok then do
        let linkTarget ← terminate linkTarget pEntry.uncompLen
        let made ← act Ev.createFails (.symlink (cstr linkTarget) targetFile)
        pure (if made then .next else .stop false)
      else pure (.stop false)

/-- The `ok` it sets in its failures is a variable of its own, and the one of the function
is still `true`. -/
def extractFile (a : Opened) (timestamp : Bool) (pEntry : ZipEntry) (targetFile : Path) : Run Log Step := do
  let created ← act Ev.createFails (.creat targetFile)
  if created then do
    let ok ← mzExtractZipEntryToFile z a.file pEntry targetFile
    if ok then do
      let touched ← touch timestamp targetFile
      if touched then pure .next
      else do
        say (.errorTouching targetFile)
        pure (.stop true)
    else do
      say (.errorExtracting targetFile)
      pure (.stop true)
  else pure (.stop false)

/-- The part of the body that creates something. -/
def extractEntry (a : Opened) (flags : Flags) (timestamp : Bool) (pEntry : ZipEntry) (targetFile : Path) : Run Log Step :=
  if isDirectory a pEntry then
    if flags.filesOnly then pure .next
    else do
      let made ← dirCreateHierarchy targetFile timestamp false
      pure (if made then .next else .stop false)
  else do
    let made ← dirCreateHierarchy targetFile timestamp true
    if made then
      if !flags.filesOnly && mzIsZipEntrySymlink pEntry then extractSymlink z a pEntry targetFile
      else extractFile z a timestamp pEntry targetFile
    else pure (.stop false)

/-- Whether the name of an entry begins with the directory. -/
def startsWith (zpath : Bytes) (pEntry : ZipEntry) : Bool :=
  !(pEntry.fileNameLen < zpath.length || strncmp pEntry.fileName zpath zpath.length ≠ 0)

def callBack (callback : Bool) (path : Path) : Run Log Unit := if callback then say (.callback path) else pure ()

/-- The body of the loop for an entry and its path. -/
def extractTarget (a : Opened) (flags : Flags) (timestamp callback : Bool) (pEntry : ZipEntry) (targetFile : Path) :
    Run Log Step :=
  if flags.dryRun then do
    callBack callback targetFile
    pure .next
  else do
    let step ← extractEntry z a flags timestamp pEntry targetFile
    match step with
    | .next => do
      callBack callback targetFile
      pure .next
    | .stop ok => pure (.stop ok)

/-- The body of the loop for an entry that begins with the directory. -/
def extractMatch (a : Opened) (flags : Flags) (timestamp callback : Bool) (helper : MzPathHelper) (pEntry : ZipEntry) :
    Run Log (Step × MzPathHelper) := do
  let target ← targetEntryPath helper pEntry
  match target with
  | none => pure (.stop false, helper)
  | some (targetFile, helper) => do
    let step ← extractTarget z a flags timestamp callback pEntry targetFile
    pure (step, helper)

/-- The loop of `mzExtractRecursive` over the rest of the entries. -/
def extractLoop (a : Opened) (flags : Flags) (timestamp callback : Bool) :
    MzPathHelper → Bool → List ZipEntry → Run Log Bool
  | _, _, [] => pure true
  | helper, seenMatch, pEntry :: rest =>
    if startsWith helper.zipDir pEntry then do
      let (step, helper) ← extractMatch z a flags timestamp callback helper pEntry
      match step with
      | .next => extractLoop a flags timestamp callback helper true rest
      | .stop ok => pure ok
    -- the entries are sorted
    else if seenMatch then pure true
    else extractLoop a flags timestamp callback helper seenMatch rest

/-- The directory, with a slash at its end. -/
def canonicalDir (zipDir : Bytes) : Bytes :=
  if zipDir = [] ∨ zipDir.getLast? = some slash then zipDir else zipDir ++ [slash]

def mzExtractRecursive (a : Opened) (zipDir : Bytes) (targetDir : Path) (flags : Flags) (timestamp callback : Bool) :
    Run Log Bool :=
  if zipDir.head? = some slash then pure false
  else if targetDir.head? ≠ some slash then pure false
  else do
    let zpath ← malloc (zipDir.length + 2)
    match zpath with
    | none => pure false
    | some _ => extractLoop z a flags timestamp callback ⟨targetDir, canonicalDir zipDir, none, targetDir.length⟩ false a.entries

/-- `PackageExtractDirFn` on the two paths it was given: the string it returns. -/
def packageExtractDir (a : Opened) (zipPath destPath : Bytes) : Run Log Bytes := do
  let success ← mzExtractRecursive z a zipPath destPath ⟨true, false⟩ true false
  pure (if success then lit "t" else [])

end Zip
end Recovery
