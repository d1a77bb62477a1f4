/-
# Partitioning an SD card (extendedcommands.c)

`can_partition` is to let through only `/dev/block/mmcblkN` and `/dev/block/mmcblkNp1`, and
the partition is to be cut off.

Key definitions: `canPartition`, `partitionSdcard`, `Offered`.
Key theorems: `only_whole_devices`, `other_devices_pass`.
-/
import Recovery.Buffer
import Recovery.Roots.Volumes

namespace Recovery
namespace Roots

variable (fstab : Fstab)

def mmcblk : CString := str "/dev/block/mmcblk"

/-- The device that is chosen for a volume. -/
def chosenDevice (vol : Volume) : Option CString :=
  if strstr vol.blkDevice.bytes mmcblk.bytes then some vol.blkDevice
  else vol.blkDevice2.filter fun device => strstr device.bytes mmcblk.bytes

def fromEnd (s : CString) (n : ℕ) : Option UInt8 := s.bytes[s.bytes.length - n]?

def canPartition (volume : CString) : Bool :=
  if isDataMediaVolumePath fstab volume then false
  else match volumeForPath fstab volume with
    | none => false
    | some vol =>
      if vol.fsType ≠ str "auto" then false
      else match chosenDevice vol with
        | none => false
        | some device => ! (fromEnd device 2 = some 0x70 ∧ fromEnd device 1 ≠ some 0x31 : Bool)

def extSizes : List String := ["128M", "256M", "512M", "1024M", "2048M", "4096M"]
def swapSizes : List String := ["0M", "32M", "64M", "128M", "256M"]
def partitionTypes : List String := ["ext3", "ext4"]

/-- What `sdparted` is called with. -/
structure Sdparted where
  sdpath : CString
  cmd : CString
  deriving DecidableEq

def item (items : List String) (i : ℤ) : Except Stop CString :=
  match items[i.toNat]? with
  | none => .error .fault
  | some s => .ok (str s)

/-- With what is selected in the menus. `strcpy` goes to an array of 256 bytes. -/
def partitionSdcard (volume : CString) (extSize swapSize partitionType : ℤ) : Except Stop (Option Sdparted) :=
  if ¬ canPartition fstab volume then .ok none
  else if extSize < 0 ∨ swapSize < 0 ∨ partitionType < 0 then .ok none
  else match volumeForPath fstab volume with
    | none => .error .fault
    | some vol =>
      let source := if strstr vol.blkDevice.bytes mmcblk.bytes then some vol.blkDevice else vol.blkDevice2
      match source with
      | none => .error .fault
      | some device =>
        if 256 ≤ device.bytes.length then .error .fault
        else do
          -- the device ends behind one character of its number
          let sddevice := CString.of (device.bytes.take (mmcblk.bytes.length + 1))
          let es ← item extSizes extSize
          let ss ← item swapSizes swapSize
          let efs ← item partitionTypes partitionType
          .ok (some ⟨sddevice, .join [str "sdparted -es ", es, str " -ss ", ss, str " -efs ", efs, str " -s"]⟩)

/-! ### What passes -/

/-- A device number, or the number of a partition. -/
def IsNumber (n : Bytes) : Prop := n ≠ [] ∧ ∀ c ∈ n, isDigit 10 c = true

def wholeDevice (n : Bytes) : Bytes := mmcblk.bytes ++ n

/-- The name ends in a `p` and another character than `1`: it is taken for another partition
than the first. -/
def LaterPartition (device : CString) : Prop := fromEnd device 2 = some 0x70 ∧ fromEnd device 1 ≠ some 0x31

instance (device : CString) : Decidable (LaterPartition device) := inferInstanceAs (Decidable (_ ∧ _))

/-- `/dev/block/mmcblkD` or `/dev/block/mmcblkDp1` with one digit. -/
def OneDigit (device : CString) : Prop :=
  ∃ d, isDigit 10 d = true ∧ (device.bytes = wholeDevice [d] ∨ device.bytes = wholeDevice [d] ++ lit "p1")

/-- If the volume is one that is offered, its device is refused or has a number of one digit. -/
def Offered (fstab : Fstab) (volume : CString) : Prop :=
  ∀ vol device, isDataMediaVolumePath fstab volume = false → volumeForPath fstab volume = some vol → vol.fsType = str "auto" →
    chosenDevice vol = some device → LaterPartition device ∨ OneDigit device

variable {fstab}

theorem canPartition_iff {volume : CString} : canPartition fstab volume = true ↔
    ∃ vol device, isDataMediaVolumePath fstab volume = false ∧ volumeForPath fstab volume = some vol ∧ vol.fsType = str "auto" ∧
      chosenDevice vol = some device ∧ ¬ LaterPartition device := by
  unfold canPartition LaterPartition
  cases isDataMediaVolumePath fstab volume with
  | true => simp
  | false =>
    cases hvol : volumeForPath fstab volume with
    | none => simp
    | some vol =>
      by_cases hauto : vol.fsType = str "auto"
      · cases hdevice : chosenDevice vol with
        | none => simp [hauto, hdevice]
        | some device => simp [hauto, hdevice, imp_iff_not_or]
      · simp [hauto]

theorem chosenDevice_source {vol : Volume} {device : CString} (h : chosenDevice vol = some device) :
    (if strstr vol.blkDevice.bytes mmcblk.bytes then some vol.blkDevice else vol.blkDevice2) = some device := by
  unfold chosenDevice at h
  split_ifs at h ⊢
  · exact h
  · exact (Option.filter_eq_some_iff.mp h).1

theorem length_mmcblk : mmcblk.bytes.length = 17 := by decide

theorem OneDigit.length_le {device : CString} (h : OneDigit device) : device.bytes.length ≤ 20 := by
  obtain ⟨d, -, hd | hd⟩ := h <;> rw [hd] <;> simp [wholeDevice, length_mmcblk, lit]

theorem take_wholeDevice (d : UInt8) (rest : Bytes) : (wholeDevice (d :: rest)).take (mmcblk.bytes.length + 1) = wholeDevice [d] := by
  rw [wholeDevice, List.take_length_add_append]
  rfl

theorem OneDigit.take {device : CString} {d : UInt8} (h : device.bytes = wholeDevice [d] ∨
    device.bytes = wholeDevice [d] ++ lit "p1") :
    device.bytes.take (mmcblk.bytes.length + 1) = wholeDevice [d] := by
  rcases h with h | h <;> rw [h]
  · exact take_wholeDevice d []
  · rw [wholeDevice, List.append_assoc]
    exact take_wholeDevice d (lit "p1")

def Selects (items : List String) (i : ℤ) : Prop := 0 ≤ i ∧ i < items.length

instance (items : List String) (i : ℤ) : Decidable (Selects items i) := inferInstanceAs (Decidable (_ ∧ _))

theorem Selects.item {items : List String} {i : ℤ} (h : Selects items i) : ∃ s, item items i = .ok s := by
  have hlt : i.toNat < items.length := by
    have := h.2
    have := h.1
    omega
  refine ⟨str items[i.toNat], ?_⟩
  rw [Roots.item, List.getElem?_eq_getElem hlt]

section

variable {volume : CString} {vol : Volume} {device : CString} {extSize swapSize partitionType : ℤ}

/-- What `sdparted` is called with for a device that passes. -/
theorem partitionSdcard_eq (hcan : canPartition fstab volume = true) (hvol : volumeForPath fstab volume = some vol)
    (hdevice : chosenDevice vol = some device) (hext : Selects extSizes extSize) (hswap : Selects swapSizes swapSize)
    (htype : Selects partitionTypes partitionType) : ∃ cmd, partitionSdcard fstab volume extSize swapSize partitionType =
      if 256 ≤ device.bytes.length then .error .fault
      else .ok (some ⟨.of (device.bytes.take (mmcblk.bytes.length + 1)), cmd⟩) := by
  obtain ⟨es, hes⟩ := hext.item
  obtain ⟨ss, hss⟩ := hswap.item
  obtain ⟨efs, hefs⟩ := htype.item
  have hsel : ¬ (extSize < 0 ∨ swapSize < 0 ∨ partitionType < 0) := by
    have := hext.1
    have := hswap.1
    have := htype.1
    omega
  refine ⟨.join [str "sdparted -es ", es, str " -ss ", ss, str " -efs ", efs, str " -s"], ?_⟩
  rw [partitionSdcard, if_neg (not_not.mpr hcan), if_neg hsel, hvol]
  dsimp only
  rw [chosenDevice_source hdevice]
  dsimp only
  rw [hes, hss, hefs]
  rfl

theorem sdpath_bytes (device : CString) (n : ℕ) : (CString.of (device.bytes.take n)).bytes = device.bytes.take n :=
  CString.of_bytes_eq fun h => device.no_nul (List.mem_of_mem_take h)

end

/-- The device of a volume that is let through is `/dev/block/mmcblkN` or
`/dev/block/mmcblkNp1`, and `sdparted` gets `/dev/block/mmcblkN`. -/
def WholeDevice (fstab : Fstab) (volume : CString) : Prop :=
  ∃ vol device n, volumeForPath fstab volume = some vol ∧ chosenDevice vol = some device ∧ IsNumber n ∧
    (device.bytes = wholeDevice n ∨ device.bytes = wholeDevice n ++ lit "p1") ∧
    ∀ extSize swapSize partitionType, Selects extSizes extSize → Selects swapSizes swapSize → Selects partitionTypes partitionType →
      ∃ r, partitionSdcard fstab volume extSize swapSize partitionType = .ok (some r) ∧ r.sdpath.bytes = wholeDevice n

/-- **Only whole devices are partitioned** just if every device that is offered and not refused has a number of one digit. -/
theorem only_whole_devices (fstab : Fstab) (volume : CString) :
    (canPartition fstab volume = true → WholeDevice fstab volume) ↔ Offered fstab volume := by
  constructor
  · intro h vol device hmedia hvol hauto hdevice
    by_cases hlater : LaterPartition device
    · exact .inl hlater
    have hcan := canPartition_iff.mpr ⟨vol, device, hmedia, hvol, hauto, hdevice, hlater⟩
    obtain ⟨vol', device', n, hvol', hdevice', hn, hform, hpath⟩ := h hcan
    obtain rfl := Option.some.inj (hvol.symm.trans hvol')
    obtain rfl := Option.some.inj (hdevice.symm.trans hdevice')
    obtain ⟨r, hr, hsdpath⟩ := hpath 0 0 0 (by decide) (by decide) (by decide)
    obtain ⟨cmd, hrun⟩ := partitionSdcard_eq hcan hvol hdevice (show Selects extSizes 0 by decide)
      (show Selects swapSizes 0 by decide)
      (show Selects partitionTypes 0 by decide)
    rw [hrun] at hr
    split_ifs at hr
    obtain rfl := Option.some.inj (Except.ok.inj hr)
    -- what is passed has one character behind the name, and so has the number
    rw [sdpath_bytes] at hsdpath
    have hlen := congrArg List.length hsdpath
    rw [List.length_take, wholeDevice, List.length_append, length_mmcblk] at hlen
    obtain ⟨d, rest, rfl⟩ := List.exists_cons_of_ne_nil hn.1
    obtain rfl : rest = [] := List.eq_nil_of_length_eq_zero (by rw [List.length_cons] at hlen; omega)
    exact .inr ⟨d, hn.2 d List.mem_cons_self, hform⟩
  · intro h hcan
    obtain ⟨vol, device, hmedia, hvol, hauto, hdevice, hlater⟩ := canPartition_iff.mp hcan
    obtain ⟨d, hdigit, hform⟩ := (h vol device hmedia hvol hauto hdevice).resolve_left hlater
    have hlen := OneDigit.length_le ⟨d, hdigit, hform⟩
    refine ⟨vol, device, [d], hvol, hdevice, ⟨List.cons_ne_nil _ _, by simpa using hdigit⟩, hform, ?_⟩
    intro extSize swapSize partitionType hext hswap htype
    obtain ⟨cmd, hrun⟩ := partitionSdcard_eq hcan hvol hdevice hext hswap htype
    rw [hrun, if_neg (by omega)]
    exact ⟨_, rfl, by rw [sdpath_bytes, OneDigit.take hform]⟩

/-- A volume on a device, and nothing else in the table. -/
def oneVolume (device : CString) : Fstab :=
  let vol : Volume := ⟨str "/sdcard", str "auto", device, none, false⟩
  ⟨[vol], fun path => if path = str "/sdcard" then some vol else none⟩

/-- The first partition of device 1 passes, and device 1 is partitioned. -/
theorem first_partition_whole : ∃ n, IsNumber n ∧ partitionSdcard (oneVolume (str "/dev/block/mmcblk1p1")) (str "/sdcard") 0 0 0 =
    .ok (some ⟨.of (wholeDevice n), str "sdparted -es 128M -ss 0M -efs ext3 -s"⟩) := by
  have hrun : partitionSdcard (oneVolume (str "/dev/block/mmcblk1p1")) (str "/sdcard") 0 0 0 =
      .ok (some ⟨str "/dev/block/mmcblk1", str "sdparted -es 128M -ss 0M -efs ext3 -s"⟩) := by decide +kernel
  have hcan : canPartition (oneVolume (str "/dev/block/mmcblk1p1")) (str "/sdcard") = true := by decide +kernel
  have hoffered : Offered (oneVolume (str "/dev/block/mmcblk1p1")) (str "/sdcard") := by
    intro vol device _ hvol _ hdevice
    have hvol' : volumeForPath (oneVolume (str "/dev/block/mmcblk1p1")) (str "/sdcard") =
      some ⟨str "/sdcard", str "auto", str "/dev/block/mmcblk1p1", none, false⟩ := by decide +kernel
    obtain rfl := Option.some.inj (hvol.symm.trans hvol')
    obtain rfl : device = str "/dev/block/mmcblk1p1" := Option.some.inj (hdevice.symm.trans (by decide +kernel))
    exact .inr ⟨0x31, by decide, .inr (by decide +kernel)⟩
  obtain ⟨-, -, n, -, -, hn, -, hpath⟩ := (only_whole_devices _ (str "/sdcard")).mpr hoffered hcan
  obtain ⟨r, hr, hsdpath⟩ := hpath 0 0 0 (by decide) (by decide) (by decide)
  obtain rfl := Option.some.inj (Except.ok.inj (hr.symm.trans hrun))
  refine ⟨n, hn, ?_⟩
  rw [hrun, ← hsdpath, CString.of_bytes]

/-- **Other devices pass**: partition 12 of device 0, and device 10, for which device 1 is partitioned. -/
theorem other_devices_pass :
    canPartition (oneVolume (str "/dev/block/mmcblk0p12")) (str "/sdcard") = true ∧
    partitionSdcard (oneVolume (str "/dev/block/mmcblk10")) (str "/sdcard") 0 0 0 =
      .ok (some ⟨str "/dev/block/mmcblk1", str "sdparted -es 128M -ss 0M -efs ext3 -s"⟩) := by
  constructor <;> decide +kernel

end Roots
end Recovery
