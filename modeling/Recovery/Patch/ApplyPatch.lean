/-
# applypatch (applypatch.c)

`applypatch` looks for the target, for a source one of the patches is for, and for the copy
an interrupted run left. `GenerateTarget` writes the patched file next to the target and
renames it, or writes a partition; where it returns 0, its model also returns the bytes that
were fed to the hash.
-/
import Recovery.Patch.FreeCache
import Recovery.Patch.Flash
import Recovery.Patch.ImgPatch

namespace Recovery
namespace Patch

/-- The arguments of `applypatch`. `stack` is what its `FileContents` hold before they are
loaded. -/
structure Args where
  sourceFilename : Bytes
  targetFilename : Bytes
  targetSha1Str : Bytes
  targetSize : ℕ
  patchSha1Str : List Bytes
  patchData : List (Option Value)
  bonusData : Option Value
  stack : FileContents

variable (cod : Codecs) (lib : Lib)

/-- `patch_data[to_use]`, for the entry that is for these contents. -/
def patchFor (a : Args) (file : FileContents) : Option Value :=
  match findMatchingPatch file.sha1 a.patchSha1Str with
  | some toUse => (a.patchData[toUse]?).join
  | none => none

def fileSinkFn (p : Path) : Sink Unit := fun _ data => do
  let done ← fileSink p data
  pure (done, ())

/-- The token is the filled part of a buffer of `size` bytes. -/
def memorySink (size : ℤ) : Sink Bytes := fun buffer data =>
  if size - buffer.length < data.length then pure (-1, buffer) else pure (data.length, buffer ++ data)

def applyAny {τ : Type} (sink : Sink τ) (a : Args) (source : Bytes) (patch : Value) (token : τ) : Run (ℤ × Sunk τ) :=
  if patch.data.take 8 = lit "BSDIFF40" then
    applyBSDiffPatch cod sink (OldData.whole source) patch 0 ⟨token, []⟩
  else if patch.data.take 8 = lit "IMGDIFF2" then applyImagePatch cod sink source patch a.bonusData ⟨token, []⟩
  else Crash.fail .unknownFormat

/-- The name of the file the patched data is written to. -/
def outname (a : Args) : Path := a.targetFilename ++ lit ".patch"

/-- The part of `GenerateTarget` that writes the output file. -/
def produceFile (a : Args) (source : FileContents) (patch : Value) : Run (ℤ × Bytes) := do
  Crash.failIf (patch.isBlob = false) .notBlob
  let opened ← openTrunc (outname a)
  Crash.failIf (opened = false) .openOutput
  let (result, o) ← applyAny cod (fileSinkFn (outname a)) a (source.data.getD []) patch ()
  fsync (outname a)
  pure (result, o.ctx)

/-- What follows the loop for a file: check the hash, rename the file, drop the copy. -/
def installFile (a : Args) (targetSha1 : Bytes) (source : FileContents) (madeCopy : Bool) (hashed : Bytes) :
    Run Bytes := do
  Crash.failIf (lib.sha1 hashed ≠ targetSha1) .wrongSha1
  let moded ← chmod (outname a) source.mode
  Crash.failIf (moded = false) .chmod
  let owned ← chown (outname a) source.uid source.gid
  Crash.failIf (owned = false) .chown
  let renamed ← rename (outname a) a.targetFilename
  Crash.failIf (renamed = false) .rename
  let _ ← (if madeCopy then unlink cacheTempSource else pure true)
  pure hashed

/-- Save the source to the cache, with room made for it. -/
def backUp (source : FileContents) : Run Unit := do
  let room ← makeFreeSpaceOnCache (u32 source.size).toNat
  Crash.failIf (room = false) .cacheSpace
  let saved ← saveFileContents cacheTempSource source
  Crash.failIf (saved = false) .backUp

def targetFs (a : Args) : Path :=
  a.targetFilename.take 1 ++ (a.targetFilename.drop 1).takeWhile (· ≠ 0x2f)

/-- Make room for the target by moving the source to the cache. -/
def moveSource (a : Args) (source : FileContents) : Run Unit := do
  Crash.failIf (isPartitionName a.sourceFilename = true) .sourceIsPartition
  backUp source
  let _ ← unlink a.sourceFilename
  let _ ← freeSpaceForFile (targetFs a)
  pure ()

/-- The attempt without space for both files: a source file is saved and deleted first. -/
def lowSpace (a : Args) (targetSha1 : Bytes) (fromSource : Bool) (source : FileContents) (patch : Value) :
    Run Bytes := do
  (if fromSource then moveSource a source else pure ())
  let (result, hashed) ← produceFile cod a source patch
  Crash.failIf (result ≠ 0) .applying
  installFile lib a targetSha1 source fromSource hashed

/-- `enough_space`: more than 256 KiB, and more than one and a half times the target,
computed as a `size_t`. -/
def EnoughSpace (targetSize freeSpace : ℕ) : Prop := 256 * 1024 < freeSpace ∧ targetSize * 3 % 2 ^ 32 / 2 < freeSpace

instance (targetSize freeSpace : ℕ) : Decidable (EnoughSpace targetSize freeSpace) := inferInstanceAs (Decidable (_ ∧ _))

/-- The attempt with space for both files, and a second one if its output cannot be written. -/
def roomyAttempt (a : Args) (targetSha1 : Bytes) (fromSource : Bool) (source : FileContents) (patch : Value) :
    Run Bytes := do
  let (result, hashed) ← produceFile cod a source patch
  if result = 0 then installFile lib a targetSha1 source false hashed
  else do
    let _ ← unlink (outname a)
    lowSpace cod lib a targetSha1 fromSource source patch

def generateFile (a : Args) (targetSha1 : Bytes) (fromSource : Bool) (source : FileContents) (patch : Value) :
    Run Bytes := do
  let freeSpace ← freeSpaceForFile (targetFs a)
  if EnoughSpace a.targetSize freeSpace then roomyAttempt cod lib a targetSha1 fromSource source patch
  else lowSpace cod lib a targetSha1 fromSource source patch

/-- `GenerateTarget` for a partition. The copy is always made, of `sourceFile`. -/
def generatePartition (a : Args) (targetSha1 : Bytes) (sourceFile : FileContents) (source : FileContents)
    (patch : Value) : Run Bytes := do
  backUp sourceFile
  Crash.failIf (patch.isBlob = false) .notBlob
  let (result, o) ← applyAny cod (memorySink (s32 a.targetSize)) a (source.data.getD []) patch []
  Crash.failIf (result ≠ 0) .applying
  Crash.failIf (lib.sha1 o.ctx ≠ targetSha1) .wrongSha1
  writeToPartition lib o.token a.targetFilename
  let _ ← unlink cacheTempSource
  pure o.ctx

/-- The patch is for `sourceFile` if there is a `sourcePatch`, and for `copyFile` otherwise. -/
def generateTarget (a : Args) (targetSha1 : Bytes) (sourceFile : FileContents) (sourcePatch : Option Value)
    (copyFile : FileContents) (copyPatch : Value) : Run Bytes :=
  let source := if sourcePatch.isSome then sourceFile else copyFile
  let patch := sourcePatch.getD copyPatch
  if isPartitionName a.targetFilename then generatePartition cod lib a targetSha1 sourceFile source patch
  else generateFile cod lib a targetSha1 sourcePatch.isSome source patch

def Args.resolve (a : Args) : Args :=
  if a.targetFilename = lit "-" then { a with targetFilename := a.sourceFilename } else a

/-- The part of `applypatch` behind the early exit. -/
def patchSource (a : Args) (targetSha1 : Bytes) (target : FileContents) : Run Bytes := do
  -- the target is the source if the names agree and it could be loaded
  let (_, source) ← (if target.data = none ∨ a.targetFilename ≠ a.sourceFilename then
    loadFileContents lib a.sourceFilename { target with data := none } else pure (0, target))
  let sourcePatch := if source.data.isSome then patchFor a source else none
  match sourcePatch with
  | some patch => generateTarget cod lib a targetSha1 source (some patch) a.stack patch
  | none => do
    let (state, copy) ← loadFileContents lib cacheTempSource a.stack
    Crash.failIf (state < 0) .readCopy
    match patchFor a copy with
    | none => Crash.fail .copySha1
    | some patch => generateTarget cod lib a targetSha1 { source with data := none } none copy patch

/-- It ends in a value where the C function returns 0. -/
def applypatch (args : Args) : Run Unit :=
  let a := args.resolve
  match parseSha1 a.targetSha1Str with
  | none => Crash.fail .targetSha1
  | some targetSha1 => do
    let (state, target) ← loadFileContents lib a.targetFilename a.stack
    if state = 0 ∧ target.sha1 = targetSha1 then pure ()
    else do
      let _ ← patchSource cod lib a targetSha1 target
      pure ()

/-- The part of `applypatch_check` that looks at the saved copy. -/
def checkCopy (patchSha1Str : List Bytes) (file : FileContents) : Run ℤ := do
  let (cachestate, cache) ← loadFileContents lib cacheTempSource { file with data := none }
  if cachestate ≠ 0 then pure 1
  else if findMatchingPatch cache.sha1 patchSha1Str = none then pure 1
  else pure 0

def applypatchCheck (filename : Bytes) (patchSha1Str : List Bytes) (stack : FileContents) : Run ℤ := do
  let (filestate, file) ← loadFileContents lib filename stack
  if filestate = negEnoent then pure negEnoent
  else if filestate ≠ 0 ∨ (0 < patchSha1Str.length ∧ findMatchingPatch file.sha1 patchSha1Str = none) then
    checkCopy lib patchSha1Str file
  else pure 0

end Patch
end Recovery
