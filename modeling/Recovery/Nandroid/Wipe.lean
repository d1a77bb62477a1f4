/-
# What a restore changes

Nothing should be formatted for which there is no image. For raw volumes the image is not
looked for first.

Key theorems: `restore_changes_restored`, `boot_erased_without_image`.
-/
import Recovery.Nandroid.Images

namespace Recovery
namespace Nandroid

open Roots
open Crash (Sat)

/-- The call changes a path or the device mounted there, or writes the image of
a volume to its device. -/
def Op.Of (fstab : Fstab) (root : CString) : Op → Prop
  | .format op => op.target.Of fstab root
  | .ensureDirectory path => path = root
  | .extract _ _ mountPoint => mountPoint = root
  | .flashRaw root' _ device _ => root' = root ∧ (volumeForPath fstab root).map (·.blkDevice) = some device

section

variable (s : Setup) (files : CString → Bool) (backupPath : CString) (flags : UInt8)

/-- The volumes for `nandroid_restore_partition`, with their flags. -/
def partitions : List (UInt8 × CString) :=
  [(nandroidBoot, str "/boot"), (nandroidSystem, str "/system"), (nandroidData, str "/data"), (nandroidData, str "/datadata"),
    (nandroidSdext, str "/sd-ext")]

/-- The directories for `nandroid_restore_partition_extended`. -/
def directories : List (UInt8 × CString) := [(nandroidData, androidSecurePath s), (nandroidCache, str "/cache")]

def restoreRoots : List (UInt8 × CString) := partitions ++ directories s ++ [(nandroidWimax, str "/wimax")]

/-- Whether there is an image that would be written to a volume. -/
def hasImage (root : CString) : Bool :=
  if root = str "/wimax" then files (wimaxImage s backupPath)
  else if root ∈ partitions.map Prod.snd ∧ (volumeForPath s.fstab root).any isRaw then files (rawImage backupPath root)
  else (findImage s files backupPath root).any fun found => found.handler.isSome || (volumeForPath s.fstab root).isSome

/-- What a call changes belongs to a volume that is selected and has an image. -/
def Backed (op : Op) : Prop :=
  ∃ r ∈ restoreRoots s, has flags r.1 = true ∧ hasImage s files backupPath r.2 = true ∧ op.Of s.fstab r.2

/-- The image is of an `rfs` file system and its path is a directory of a
volume: `format_device` makes the file system on the device of the volume. -/
def WipesDevice (root : CString) : Prop :=
  ∃ found v, findImage s files backupPath root = some found ∧ found.filesystem = some (str "rfs") ∧
    volumeForPath s.fstab root = some v ∧ v.mountPoint ≠ root ∧ v.fsType ≠ str "auto" ∧
    isDataMediaVolumePath s.fstab root = false ∧
    ¬ ((startsWith root (str "/data") = true ∨ v.mountPoint = str "/data") ∧ isDataMedia s.fstab = true)

/-- The raw volumes that are selected have their images, an image without a type
is only there for a path of the table, and no image wipes more than its path. -/
structure Covered : Prop where
  raw : ∀ r ∈ partitions, has flags r.1 = true → (volumeForPath s.fstab r.2).any isRaw = true →
    files (rawImage backupPath r.2) = true
  plain : ∀ r ∈ directories s, has flags r.1 = true → files (plainImage backupPath (basename r.2)) = true →
    (volumeForPath s.fstab r.2).isSome = true
  rfs : ∀ r ∈ partitions ++ directories s, has flags r.1 = true →
    (r ∈ partitions → (volumeForPath s.fstab r.2).any isRaw = false) → ¬ WipesDevice s files backupPath r.2

end

section

variable {s : Setup} {files : CString → Bool} {backupPath : CString} {flags bit : UInt8} {root : CString}

theorem formatVolume_backed (hroot : (bit, root) ∈ restoreRoots s) (hflag : has flags bit = true)
    (himage : hasImage s files backupPath root = true) :
    Only (Backed s files backupPath flags) (formatVolume s.toBoard .format root) :=
  formatVolume_only fun _ hop => ⟨(bit, root), hroot, hflag, himage, hop⟩

theorem formatForRestore_backed (hroot : (bit, root) ∈ restoreRoots s) (hflag : has flags bit = true)
    (himage : hasImage s files backupPath root = true) {found : Found}
    (hfound : findImage s files backupPath root = some found) (hrfs : ¬ WipesDevice s files backupPath root) :
    Only (Backed s files backupPath flags) (formatForRestore s root found.filesystem) := by
  have hvolume := formatVolume_backed hroot hflag himage
  unfold formatForRestore
  cases hv : volumeForPath s.fstab root with
  | none => exact hvolume
  | some vol =>
    cases hfs : found.filesystem with
    | none => exact hvolume
    | some fs =>
      refine .ite (fun _ => hvolume) fun hauto => .ite (fun _ => hvolume) fun hdata =>
        formatDevice_only hv (fun hrfs' => ?_) fun op hop => ⟨(bit, root), hroot, hflag, himage, hop⟩
      by_contra hnot
      obtain ⟨hmount, hmedia, hstarts⟩ : vol.mountPoint ≠ root ∧ isDataMediaVolumePath s.fstab root = false ∧
          ¬ (startsWith root (str "/data") = true ∧ isDataMedia s.fstab = true) := by simpa using hnot
      refine hrfs ⟨found, vol, hfound, hrfs' ▸ hfs, hv, hmount, hauto, hmedia, ?_⟩
      rintro ⟨h | h, hmedia'⟩
      · exact hstarts ⟨h, hmedia'⟩
      · exact hdata ⟨h, hmedia'⟩

theorem getRestoreHandler_only {G : Op → Prop} : Only G (getRestoreHandler s root) := by
  unfold getRestoreHandler
  split
  · exact .pure _
  · refine (Only.ask _).bind fun mv => ?_
    cases mv with
    | none => exact .pure _
    | some fs => exact .ite (fun _ => .pure _) fun _ => .ite (fun _ => .pure _) fun _ => .pure _

theorem restoreHandler_only {G : Op → Prop} (found : Found) : Only G (restoreHandler s backupPath root found) := by
  unfold restoreHandler
  cases found.handler with
  | some handler => exact .bind (.pure _) fun _ => .pure _
  | none => exact getRestoreHandler_only.bind fun _ => .pure _

theorem restoreFound_backed (hroot : (bit, root) ∈ restoreRoots s) (hflag : has flags bit = true)
    (himage : hasImage s files backupPath root = true) (umount : Bool) {found : Found}
    (hfound : findImage s files backupPath root = some found) (hrfs : ¬ WipesDevice s files backupPath root) :
    Only (Backed s files backupPath flags) (restoreFound s backupPath root umount found) := by
  have hpath : ∀ op : Op, op.Of s.fstab root → Backed s files backupPath flags op := fun op hop =>
    ⟨(bit, root), hroot, hflag, himage, hop⟩
  refine (Only.act (hpath (.ensureDirectory root) rfl)).bind fun _ =>
    (formatForRestore_backed hroot hflag himage hfound hrfs).andThen ((Only.ask _).andThen ?_)
  refine (restoreHandler_only found).bind fun handler => ?_
  cases handler with
  | none => exact .pure _
  | some handler =>
    refine (Only.act (hpath (.extract handler found.image root) rfl)).bind fun _ =>
      .ite (fun _ => .pure _) fun _ => .ite (fun _ => ?_) fun _ => .pure _
    exact (Only.ask _).bind fun _ => .pure _

theorem searchImage_handler {name : CString} : ∀ {fss : List CString} {found : Found},
    searchImage files backupPath name fss = some found → found.handler.isSome = true
  | fs :: rest, found, h => by
    unfold searchImage at h
    split at h
    · obtain rfl := Option.some.inj h
      rfl
    · exact searchImage_handler h

/-- **Volumes with a file system**: nothing is done without an image. -/
theorem restoreExtended_backed (hroot : (bit, root) ∈ restoreRoots s) (hflag : has flags bit = true) (hwimax : root ≠ str "/wimax")
    (hnotRaw : ¬ (root ∈ partitions.map Prod.snd ∧ (volumeForPath s.fstab root).any isRaw = true))
    (hplain : files (plainImage backupPath (basename root)) = true → (volumeForPath s.fstab root).isSome = true)
    (hrfs : ¬ WipesDevice s files backupPath root) (umount : Bool) :
    Only (Backed s files backupPath flags) (nandroidRestorePartitionExtended s files backupPath root umount) := by
  unfold nandroidRestorePartitionExtended
  cases hfound : findImage s files backupPath root with
  | none => exact .pure _
  | some found =>
    refine restoreFound_backed hroot hflag ?_ umount hfound hrfs
    rw [hasImage, if_neg hwimax, if_neg hnotRaw, hfound, Option.any_some, Bool.or_eq_true]
    unfold findImage at hfound
    split_ifs at hfound with hstdin hfile
    · obtain rfl := Option.some.inj hfound
      exact .inl rfl
    · exact .inr (hplain hfile)
    · exact .inl (searchImage_handler hfound)

theorem partitions_ne_wimax (hroot : (bit, root) ∈ partitions) : root ≠ str "/wimax" := by
  have hall : ∀ r ∈ partitions, r.2 ≠ str "/wimax" := by decide
  exact hall _ hroot

theorem restorePartition_backed (hroot : (bit, root) ∈ partitions) (hflag : has flags bit = true)
    (hraw : (volumeForPath s.fstab root).any isRaw = true → files (rawImage backupPath root) = true)
    (hrfs : (volumeForPath s.fstab root).any isRaw = false → ¬ WipesDevice s files backupPath root) :
    Only (Backed s files backupPath flags) (nandroidRestorePartition s files backupPath root) := by
  have hmem : (bit, root) ∈ restoreRoots s := by simp [restoreRoots, hroot]
  have hwimax := partitions_ne_wimax hroot
  unfold nandroidRestorePartition
  cases hv : volumeForPath s.fstab root with
  | none => exact .pure _
  | some vol =>
    refine .ite (fun hvol => ?_) fun hvol => ?_
    · have himage : hasImage s files backupPath root = true := by
        rw [hasImage, if_neg hwimax, if_pos ⟨List.mem_map_of_mem hroot, by simp [hv, hvol]⟩]
        exact hraw (by simp [hv, hvol])
      exact (formatVolume_backed hmem hflag himage).andThen
        (Only.act ⟨(bit, root), hmem, hflag, himage, rfl, by rw [hv]; rfl⟩)
    · exact restoreExtended_backed hmem hflag hwimax (by simp [hv, hvol]) (by simp [hv]) (hrfs (by simpa [hv] using hvol)) true

theorem restoreWimax_backed (hflag : has flags nandroidWimax = true) :
    Only (Backed s files backupPath flags) (restoreWimax s files backupPath) := by
  have hmem : (nandroidWimax, str "/wimax") ∈ restoreRoots s := by simp [restoreRoots]
  unfold restoreWimax
  cases hv : volumeForPath s.fstab (str "/wimax") with
  | none => exact .pure _
  | some vol =>
    refine .ite (fun hfile => ?_) fun _ => .pure _
    have himage : hasImage s files backupPath (str "/wimax") = true := by
      rw [hasImage, if_pos rfl]
      exact hfile.2
    exact (formatVolume_backed hmem hflag himage).bind fun _ => .ite (fun _ => .pure _) fun _ =>
      Only.act ⟨(nandroidWimax, str "/wimax"), hmem, hflag, himage, rfl, by rw [hv]; rfl⟩

theorem androidSecurePath_cases (s : Setup) :
    androidSecurePath s = str "/storage/sdcard0/.android_secure" ∨ androidSecurePath s = str "/sdcard/.android_secure" := by
  unfold androidSecurePath primaryStoragePath
  split_ifs
  · exact .inl (by decide +kernel)
  · exact .inr (by decide +kernel)

theorem directories_facts (hroot : (bit, root) ∈ directories s) :
    root ≠ str "/wimax" ∧ root ∉ str "/recovery" :: partitions.map Prod.snd := by
  have hall : ∀ r ∈ [str "/storage/sdcard0/.android_secure", str "/sdcard/.android_secure", str "/cache"],
      r ≠ str "/wimax" ∧ r ∉ str "/recovery" :: partitions.map Prod.snd := by decide +kernel
  refine hall root ?_
  simp only [directories, List.mem_cons, Prod.mk.injEq, List.not_mem_nil, or_false] at hroot
  obtain ⟨-, rfl⟩ | ⟨-, rfl⟩ := hroot
  · obtain h | h := androidSecurePath_cases s <;> simp [h]
  · simp

end

/-- A raw `/boot`, a `/system` with a file system, and an SD card. -/
def smallTable : List Volume :=
  [⟨str "/boot", str "mtd", str "boot", none, false⟩, ⟨str "/system", str "ext4", str "/dev/block/s", none, false⟩,
    ⟨str "/sdcard", str "vfat", str "/dev/block/c", none, false⟩]

def smallSetup : Setup where
  fstab := ⟨smallTable, fun path => smallTable.find? fun v => v.mountPoint = path⟩
  preserved := true
  useF2fs := false
  present := fun _ => true
  preferTar := str "false"
  serialno := str "1"

def works : Ev := ⟨false, 0, some (str "ext4")⟩

def bootAndSystem : UInt8 := nandroidBoot ||| nandroidSystem

theorem bothImages_covered :
    Covered smallSetup (fun f => f ∈ [str "/b/boot.img", str "/b/system.ext4.tar"]) (str "/b") bootAndSystem := by
  refine ⟨by decide +kernel, by decide +kernel, fun r hr hflag _ hwipes => ?_⟩
  have hext4 : ∀ r ∈ partitions ++ directories smallSetup, has bootAndSystem r.1 = true →
      (findImage smallSetup (fun f => f ∈ [str "/b/boot.img", str "/b/system.ext4.tar"]) (str "/b") r.2).any
        (fun found => found.filesystem = some (str "rfs")) = false := by decide +kernel
  obtain ⟨found, v, hfound, hfs, -⟩ := hwipes
  have := hext4 r hr hflag
  rw [hfound] at this
  simp [hfs] at this

end Nandroid
end Recovery
