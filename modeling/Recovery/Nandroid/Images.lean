/-
# Restoring volumes (nandroid.c)

`nandroid_restore` looks for the image of each volume that is selected, formats
the volume and writes the image to it. The log has what is done to which
volume; an event says what a call returns. Progress, messages and the lengths
of paths are left out.
-/
import Recovery.Paths
import Recovery.Roots.Format

namespace Recovery
namespace Nandroid

open Roots
open Raw (getFlashType)

/-! ### Flags -/

def nandroidBoot : UInt8 := 1
def nandroidSystem : UInt8 := 2
def nandroidData : UInt8 := 4
def nandroidCache : UInt8 := 8
def nandroidSdext : UInt8 := 16
def nandroidWimax : UInt8 := 32

def has (flags bit : UInt8) : Bool := flags &&& bit = bit

/-! ### What is done -/

inductive RestoreHandler
  | unyaffs
  | tarExtract
  | tarGzipExtract
  | dedupeExtract
  | tarUndump
  deriving DecidableEq

inductive Op
  | format (op : FormatOp)
  /-- `mkdir -p` and `chmod 777` of a mount point -/
  | ensureDirectory (path : CString)
  | extract (handler : RestoreHandler) (image mountPoint : CString)
  /-- `restore_raw_partition`, for a volume -/
  | flashRaw (root fsType device image : CString)
  deriving DecidableEq

/-- The settings of a device. -/
structure Setup extends Board where
  /-- the properties `ro.cwm.prefer_tar` and `ro.serialno` -/
  preferTar : CString
  serialno : CString

def basename (path : CString) : CString := .of (path.bytes.reverse.takeWhile (· ≠ slashChar)).reverse

def isRaw (vol : Volume) : Bool := vol.fsType = str "mtd" || vol.fsType = str "bml" || vol.fsType = str "emmc"

variable (s : Setup)

def primaryStoragePath : CString := if (volumeForPath s.fstab (str "/storage/sdcard0")).isSome
    then str "/storage/sdcard0" else str "/sdcard"

def androidSecurePath : CString := .append (primaryStoragePath s) (str "/.android_secure")

def hasDatadata : Bool := (volumeForPath s.fstab (str "/datadata")).isSome

def wimaxImage (backupPath : CString) : CString := .join [backupPath, str "/wimax.", s.serialno, str ".img"]

/-! ### Restore -/

def filesystems : List CString := [str "yaffs2", str "ext2", str "ext3", str "ext4", str "vfat", str "rfs", str "f2fs"]

def imageTypes : List (CString × RestoreHandler) :=
  [(str ".img", .unyaffs), (str ".tar", .tarExtract), (str ".tar.gz", .tarGzipExtract), (str ".dup", .dedupeExtract)]

/-- The image, what restores it, and the file system it was made from. -/
structure Found where
  image : CString
  handler : Option RestoreHandler
  filesystem : Option CString
  deriving DecidableEq

def typedImage (backupPath name fs type : CString) : CString := .join [backupPath, str "/", name, str ".", fs, type]

def searchImage (files : CString → Bool) (backupPath name : CString) : List CString → Option Found
  | [] => none
  | fs :: rest =>
    match imageTypes.find? fun t => files (typedImage backupPath name fs t.1) with
    | some t => some ⟨typedImage backupPath name fs t.1, some t.2, some fs⟩
    | none => searchImage files backupPath name rest

def plainImage (backupPath name : CString) : CString := .join [backupPath, str "/", name, str ".img"]

/-- The image of a mount point: `none` if there is none. -/
def findImage (files : CString → Bool) (backupPath mountPoint : CString) : Option Found :=
  if backupPath = str "-" then some ⟨str "/proc/self/fd/0", some .tarExtract, (volumeForPath s.fstab mountPoint).map (·.fsType)⟩
  else if files (plainImage backupPath (basename mountPoint)) then some ⟨plainImage backupPath (basename mountPoint), none, none⟩
  else searchImage files backupPath (basename mountPoint) filesystems

def getRestoreHandler (backupPath : CString) : Run Op (Option RestoreHandler) :=
  match volumeForPath s.fstab backupPath with
  | none => pure none
  | some _ => do
    let mv ← ask Ev.filesystem
    match mv with
    | none => pure none
    | some filesystem =>
      if backupPath = str "/data" ∧ isDataMedia s.fstab then pure (some .tarExtract)
      else if filesystem = str "yaffs2" ∧ s.preferTar = str "false" then pure (some .unyaffs)
      else pure (some .tarExtract)

/-- The volume is emptied, with the file system of the image unless it is mounted or keeps
`media`. -/
def formatForRestore (mountPoint : CString) (filesystem : Option CString) : Run Op ℤ :=
  match volumeForPath s.fstab mountPoint, filesystem with
  | some vol, some fs =>
    if vol.fsType = str "auto" then formatVolume s.toBoard .format mountPoint
    else if vol.mountPoint = str "/data" ∧ isDataMedia s.fstab then formatVolume s.toBoard .format mountPoint
    else formatDevice s.toBoard .format vol.blkDevice mountPoint fs
  | _, _ => formatVolume s.toBoard .format mountPoint

def restoreHandler (backupPath mountPoint : CString) (found : Found) : Run Op (Option RestoreHandler) := do
  let handler ← match found.handler with
    | some handler => pure (some handler)
    | none => getRestoreHandler s mountPoint
  pure (if backupPath = str "-" then some .tarUndump else handler)

/-- The image is written to the volume it was made from. -/
def extractImage (mountPoint : CString) (umountWhenFinished : Bool) (image : CString) (handler : RestoreHandler) : Run Op ℤ := do
  let ret ← act (.extract handler image mountPoint)
  if ret ≠ 0 then pure ret
  else if umountWhenFinished then do
    let _ ← ensurePathUnmounted mountPoint
    pure 0
  else pure 0

/-- The part of `nandroid_restore_partition_extended` for an image that was found. -/
def restoreFound (backupPath mountPoint : CString) (umountWhenFinished : Bool) (found : Found) : Run Op ℤ := do
  let _ ← act (.ensureDirectory mountPoint)
  andThen (formatForRestore s mountPoint found.filesystem) <| andThen (ensurePathMounted mountPoint) do
    let handler ← restoreHandler s backupPath mountPoint found
    match handler with
    | none => pure (-2)
    | some handler => extractImage mountPoint umountWhenFinished found.image handler

def nandroidRestorePartitionExtended (files : CString → Bool) (backupPath mountPoint : CString) (umountWhenFinished : Bool) :
    Run Op ℤ :=
  match findImage s files backupPath mountPoint with
  | none => pure 0
  | some found => restoreFound s backupPath mountPoint umountWhenFinished found

def rawImage (backupPath root : CString) : CString := if backupPath = str "-" then backupPath
    else .join [backupPath, root, str ".img"]

/-- A raw volume is erased before its image is looked for. -/
def nandroidRestorePartition (files : CString → Bool) (backupPath root : CString) : Run Op ℤ :=
  match volumeForPath s.fstab root with
  | none => pure 0
  | some vol =>
    if isRaw vol then
      andThen (formatVolume s.toBoard .format root) (act (.flashRaw root vol.fsType vol.blkDevice (rawImage backupPath root)))
    else nandroidRestorePartitionExtended s files backupPath root true

def restoreWimax (files : CString → Bool) (backupPath : CString) : Run Op ℤ :=
  match volumeForPath s.fstab (str "/wimax") with
  | none => pure 0
  | some vol =>
    if s.present vol.blkDevice ∧ files (wimaxImage s backupPath) then do
      let ret ← formatVolume s.toBoard .format (str "/wimax")
      if ret ≠ 0 then pure 1
      else act (.flashRaw (str "/wimax") vol.fsType vol.blkDevice (wimaxImage s backupPath))
    else pure 0

def ifHas (flags bit : UInt8) (p : Run Op ℤ) : Run Op ℤ := if has flags bit then p else pure 0

def restoreVolumes (files : CString → Bool) (backupPath : CString) (flags : UInt8) : Run Op ℤ :=
  andThen (ifHas flags nandroidBoot (nandroidRestorePartition s files backupPath (str "/boot"))) <|
  andThen (ifHas flags nandroidWimax (restoreWimax s files backupPath)) <|
  andThen (ifHas flags nandroidSystem (nandroidRestorePartition s files backupPath (str "/system"))) <|
  andThen (ifHas flags nandroidData (nandroidRestorePartition s files backupPath (str "/data"))) <|
  andThen (if hasDatadata s then ifHas flags nandroidData
    (nandroidRestorePartition s files backupPath (str "/datadata")) else pure 0) <|
  andThen (ifHas flags nandroidData (nandroidRestorePartitionExtended s files backupPath (androidSecurePath s) false)) <|
  andThen (ifHas flags nandroidCache (nandroidRestorePartitionExtended s files backupPath (str "/cache") false)) <|
  ifHas flags nandroidSdext (nandroidRestorePartition s files backupPath (str "/sd-ext"))

def nandroidRestore (files : CString → Bool) (backupPath : CString) (flags : UInt8) : Run Op ℤ := do
  let mounted ← ensurePathMounted backupPath
  if mounted ≠ 0 then pure 1
  else andThen (ask Ev.ret) (restoreVolumes s files backupPath flags)

end Nandroid
end Recovery
