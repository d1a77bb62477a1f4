/-
# The partition table of an MMC device (mmcutils.c)

`mmc_read_mbr` takes the four entries of the first sector and walks the chain of an extended
partition. A sector number times 512 is `unsigned`: `fseek` gets the byte offset modulo
2^32.

Key definitions: `mmcReadMbr`, `Chained`, `WellFormed`.
Key theorems: `partitions_walked`, `sector_wraps`.
-/
import Recovery.Text

namespace Recovery
namespace Mmc

/-! ### The device -/

structure Device where
  /-- in bytes -/
  size : ℕ
  byte : ℕ → UInt8

/-- `fread` of one sector at a byte offset. -/
def Device.fread (dev : Device) (offset : ℕ) : Option Bytes :=
  if offset + 512 ≤ dev.size then some ((List.range 512).map fun i => dev.byte (offset + i)) else none

def seekOffset (sector : ℕ) : ℕ := sector * 512 % 2 ^ 32

def tableEntry0 : ℕ := 0x1BE

def tableEntry1 : ℕ := 0x1CE

def tableSignature : ℕ := 0x1FE

def tableEntrySize : ℕ := 0x10

def offsetStatus : ℕ := 0x00

def offsetType : ℕ := 0x04

def offsetFirstSec : ℕ := 0x08

def offsetSize : ℕ := 0x0C

/-- An entry of a sector. -/
structure Entry where
  status : ℕ
  type : ℕ
  firstSec : ℕ
  size : ℕ
  deriving DecidableEq

def readEntry (buffer : Bytes) (start : ℕ) : Except Stop Entry := do
  let status ← sliceLE buffer (start + offsetStatus : ℕ) 1
  let type ← sliceLE buffer (start + offsetType : ℕ) 1
  let firstSec ← sliceLE buffer (start + offsetFirstSec : ℕ) 4
  let size ← sliceLE buffer (start + offsetSize : ℕ) 4
  .ok ⟨status, type, firstSec, size⟩

def hasSignature (buffer : Bytes) : Except Stop Bool := do
  let s ← slice buffer tableSignature 2
  .ok (s = [0x55, 0xAA])

/-! ### The table -/

def maxPartitions : ℕ := 64

def mmcDevicename : Bytes := lit "/dev/block/mmcblk0"

def mmcBootType : ℕ := 0x48

def mmcRecoveryType : ℕ := 0x71

def mmcExt3Type : ℕ := 0x83

def mmcVfatType : ℕ := 0x0C

def ext3Partitions : List Bytes := [lit "system", lit "userdata", lit "cache", lit "NONE"]

def vfatPartitions : List Bytes := [lit "modem", lit "NONE"]

structure MmcPartition where
  deviceIndex : Bytes
  filesystem : Option Bytes
  name : Option Bytes
  dstatus : ℕ
  dtype : ℕ
  dfirstsec : ℕ
  dsize : ℕ
  deriving DecidableEq

/-- The table as it is filled, `ext3_count` and `vfat_count`. -/
structure Table where
  entries : List MmcPartition
  ext3Count : ℕ
  vfatCount : ℕ
  deriving DecidableEq

/-- The next of the names, until `NONE`, and the new count. -/
def nextName (names : List Bytes) (count : ℕ) : Except Stop (Option Bytes × ℕ) :=
  match names[count]? with
  | none => .error .fault
  | some name => .ok (if name = lit "NONE" then (none, count) else (some name, count + 1))

/-- The name, the file system, and the table with its new counts. -/
def mmcPartitionName (t : Table) (type : ℕ) : Except Stop (Option Bytes × Option Bytes × Table) :=
  if type = mmcBootType then .ok (some (lit "boot"), none, t)
  else if type = mmcRecoveryType then .ok (some (lit "recovery"), none, t)
  else if type = mmcExt3Type then do
    let (name, count) ← nextName ext3Partitions t.ext3Count
    .ok (name, some (lit "ext3"), { t with ext3Count := count })
  else if type = mmcVfatType then do
    let (name, count) ← nextName vfatPartitions t.vfatCount
    .ok (name, some (lit "vfat"), { t with vfatCount := count })
  else .ok (none, none, t)

/-- `mbr[mmc_partition_count]` is filled, and the count goes up. -/
def addPartition (t : Table) (e : Entry) (firstSec : ℕ) : Except Stop Table := do
  failIf (maxPartitions ≤ t.entries.length) .fault
  let (name, filesystem, t) ← mmcPartitionName t e.type
  let deviceIndex := mmcDevicename ++ lit "p" ++ dec (t.entries.length + 1)
  .ok { t with entries := t.entries ++ [⟨deviceIndex, filesystem, name, e.status, e.type, firstSec, e.size⟩] }

/-! ### The walk -/

/-- The entries of the first sector: whether the table is full, and the last entry. -/
def readPrimaries (buffer : Bytes) : List ℕ → Entry → Table → Except Stop (Bool × Entry × Table)
  | [], last, t => .ok (false, last, t)
  | i :: rest, _, t => do
    let e ← readEntry buffer (tableEntry0 + i * tableEntrySize)
    let t ← addPartition t e e.firstSec
    if t.entries.length = maxPartitions then .ok (true, e, t) else readPrimaries buffer rest e t

variable (dev : Device)

/-- "Loop to parse the EBR." The buffer holds the sector `EBR_current_sec`. -/
def readEbrs (ebrFirstSec : ℕ) : ℕ → Bytes → ℕ → Table → Except Stop (ℤ × Table)
  | 0, _, _, _ => .error .hang
  | fuel + 1, buffer, ebrCurrentSec, t => do
    let signed ← hasSignature buffer
    if ¬ signed then .ok (t.entries.length, t)
    else
      let e ← readEntry buffer tableEntry0
      let t ← addPartition t e ((e.firstSec + ebrCurrentSec) % 2 ^ 32)
      if t.entries.length = maxPartitions then .ok (t.entries.length, t)
      else
        let dfirstsec ← sliceLE buffer (tableEntry1 + offsetFirstSec : ℕ) 4
        if dfirstsec = 0 then .ok (t.entries.length, t)
        else
          let next := (ebrFirstSec + dfirstsec) % 2 ^ 32
          match dev.fread (seekOffset next) with
          | none => .ok (-1, t)
          | some buffer => readEbrs ebrFirstSec fuel buffer next t

def readExtended (last : Entry) (t : Table) : Except Stop (ℤ × Table) :=
  if last.type ≠ 0x05 then .ok (t.entries.length, t)
  else
    match dev.fread (seekOffset last.firstSec) with
    | none => .ok (-1, t)
    | some buffer => readEbrs dev last.firstSec (maxPartitions + 1) buffer last.firstSec t

def emptyTable : Table := ⟨[], 0, 0⟩

/-- The result and the table. The device may fail to open. -/
def mmcReadMbr (device : Option Device) : Except Stop (ℤ × Table) :=
  match device with
  | none => .ok (-1, emptyTable)
  | some dev =>
    match dev.fread 0 with
    | none => .ok (-1, emptyTable)
    | some buffer => do
      let signed ← hasSignature buffer
      if ¬ signed then .ok (-1, emptyTable)
      else
        let (full, last, t) ← readPrimaries buffer [0, 1, 2, 3] ⟨0, 0, 0, 0⟩ emptyTable
        if full then .ok (t.entries.length, t) else readExtended dev last t

/-! ### Every walk ends -/

theorem Device.fread_length {offset : ℕ} {buffer : Bytes} (h : dev.fread offset = some buffer) : buffer.length = 512 := by
  unfold Device.fread at h
  split_ifs at h
  simp [← Option.some.inj h]

theorem sliceLE_sector {buffer : Bytes} (h : buffer.length = 512) {i n : ℕ} (hi : i + n ≤ 512) :
    ∃ v, sliceLE buffer (i : ℕ) n = .ok v :=
  ⟨_, sliceLE_eq_ok.mpr ⟨_, slice_of_le buffer (by omega) (by omega), rfl⟩⟩

theorem readEntry_sector {buffer : Bytes} (h : buffer.length = 512) (start : ℕ) (hs : start + tableEntrySize ≤ 512) :
    ∃ e, readEntry buffer start = .ok e := by
  unfold tableEntrySize at hs
  obtain ⟨status, hstatus⟩ := sliceLE_sector h (i := start + offsetStatus) (n := 1) (by unfold offsetStatus; omega)
  obtain ⟨type, htype⟩ := sliceLE_sector h (i := start + offsetType) (n := 1) (by unfold offsetType; omega)
  obtain ⟨firstSec, hfirst⟩ := sliceLE_sector h (i := start + offsetFirstSec) (n := 4) (by unfold offsetFirstSec; omega)
  obtain ⟨size, hsize⟩ := sliceLE_sector h (i := start + offsetSize) (n := 4) (by unfold offsetSize; omega)
  exact ⟨⟨status, type, firstSec, size⟩, by simp only [readEntry, hstatus, htype, hfirst, hsize, ok_bind]⟩

theorem hasSignature_sector {buffer : Bytes} (h : buffer.length = 512) : ∃ b, hasSignature buffer = .ok b := by
  unfold hasSignature
  rw [slice_of_le buffer (by decide) (by rw [h]; decide)]
  exact ⟨_, rfl⟩

/-- The names are never read behind `NONE`. -/
structure Table.Named (t : Table) : Prop where
  ext3 : t.ext3Count < ext3Partitions.length
  vfat : t.vfatCount < vfatPartitions.length

theorem nextName_ok (names : List Bytes) (hlast : names.getLast? = some (lit "NONE")) {count : ℕ} (h : count < names.length) :
    ∃ name next, nextName names count = .ok (name, next) ∧ next < names.length := by
  unfold nextName
  rw [List.getElem?_eq_getElem h]
  dsimp only
  split_ifs with hnone
  · exact ⟨_, _, rfl, h⟩
  · refine ⟨_, _, rfl, ?_⟩
    by_contra hge
    rw [List.getLast?_eq_getElem?, show names.length - 1 = count by omega, List.getElem?_eq_getElem h] at hlast
    exact hnone (Option.some.inj hlast)

theorem mmcPartitionName_ok {t : Table} (h : t.Named) (type : ℕ) :
    ∃ name filesystem t', mmcPartitionName t type = .ok (name, filesystem, t') ∧ t'.entries = t.entries ∧ t'.Named := by
  obtain ⟨extName, ext, hext, hext'⟩ := nextName_ok ext3Partitions (by decide +kernel) h.ext3
  obtain ⟨vfatName, vfat, hvfat, hvfat'⟩ := nextName_ok vfatPartitions (by decide +kernel) h.vfat
  unfold mmcPartitionName
  split_ifs
  · exact ⟨_, _, _, rfl, rfl, h⟩
  · exact ⟨_, _, _, rfl, rfl, h⟩
  · exact ⟨_, _, { t with ext3Count := ext }, by rw [hext]; rfl, rfl, ⟨hext', h.vfat⟩⟩
  · exact ⟨_, _, { t with vfatCount := vfat }, by rw [hvfat]; rfl, rfl, ⟨h.ext3, hvfat'⟩⟩
  · exact ⟨_, _, _, rfl, rfl, h⟩

/-- A partition has what an entry says, with an absolute first sector. -/
def MmcPartition.Describes (p : MmcPartition) (e : Entry) (firstSec : ℕ) : Prop :=
  p.dstatus = e.status ∧ p.dtype = e.type ∧ p.dfirstsec = firstSec ∧ p.dsize = e.size

theorem addPartition_ok {t : Table} (h : t.Named) (hroom : t.entries.length < maxPartitions) (e : Entry) (firstSec : ℕ) :
    ∃ p t', addPartition t e firstSec = .ok t' ∧ t'.entries = t.entries ++ [p] ∧ p.Describes e firstSec ∧ t'.Named := by
  obtain ⟨name, filesystem, t', hname, hentries, hnamed⟩ := mmcPartitionName_ok h e.type
  unfold addPartition
  simp only [failIf_bind, if_neg (Nat.not_le.mpr hroom), hname, ok_bind]
  exact ⟨_, _, rfl, by rw [hentries], ⟨rfl, rfl, rfl, rfl⟩, ⟨hnamed.ext3, hnamed.vfat⟩⟩

/-- The table has at most 64 entries, and the result is -1 or their number. -/
def Ended (r : Except Stop (ℤ × Table)) : Prop :=
  ∃ ret t, r = .ok (ret, t) ∧ t.entries.length ≤ maxPartitions ∧ (ret = -1 ∨ ret = t.entries.length)

theorem Ended.full {t : Table} (h : t.entries.length ≤ maxPartitions) : Ended (.ok (t.entries.length, t)) := ⟨_, t, rfl, h, .inr rfl⟩

theorem Ended.failed {t : Table} (h : t.entries.length ≤ maxPartitions) : Ended (.ok (-1, t)) := ⟨_, t, rfl, h, .inl rfl⟩

theorem readEbrs_ended (ext : ℕ) : ∀ (fuel : ℕ) {buffer : Bytes} (cur : ℕ) {t : Table}, buffer.length = 512 → t.Named →
    t.entries.length < maxPartitions → maxPartitions ≤ t.entries.length + fuel → Ended (readEbrs dev ext fuel buffer cur t)
  | 0, _, _, _, _, _, hlt, hfuel => absurd hfuel (by omega)
  | fuel + 1, buffer, cur, t, hbuffer, hnamed, hlt, hfuel => by
    obtain ⟨signed, hsigned⟩ := hasSignature_sector hbuffer
    obtain ⟨e, he⟩ := readEntry_sector hbuffer tableEntry0 (by decide)
    obtain ⟨p, t', hadd, hentries, -, hnamed'⟩ := addPartition_ok hnamed hlt e ((e.firstSec + cur) % 2 ^ 32)
    obtain ⟨next, hnext⟩ := sliceLE_sector hbuffer (i := tableEntry1 + offsetFirstSec) (n := 4) (by decide)
    have hlen : t'.entries.length = t.entries.length + 1 := by simp [hentries]
    unfold readEbrs
    simp only [hsigned, he, hadd, hnext, ok_bind]
    split_ifs with hs hfull hend
    · exact .full hfull.le
    · exact .full (by omega)
    · cases hread : dev.fread (seekOffset ((ext + next) % 2 ^ 32)) with
      | none => exact .failed (by omega)
      | some buffer' => exact readEbrs_ended ext fuel _ (dev.fread_length hread) hnamed' (by omega) (by omega)
    · exact .full hlt.le

theorem readPrimaries_ok {buffer : Bytes} (hbuffer : buffer.length = 512) : ∀ (is : List ℕ) (last : Entry) {t : Table}, t.Named →
    (∀ i ∈ is, i < 4) → t.entries.length + is.length < maxPartitions →
    ∃ last' t', readPrimaries buffer is last t = .ok (false, last', t') ∧ t'.Named ∧
      t'.entries.length = t.entries.length + is.length ∧
      (is = [] → last' = last) ∧ ∀ i ∈ is.getLast?, readEntry buffer (tableEntry0 + i * tableEntrySize) = .ok last'
  | [], last, t, hnamed, _, _ => ⟨last, t, rfl, hnamed, rfl, fun _ => rfl, by simp⟩
  | i :: is, _, t, hnamed, his, hlt => by
    obtain ⟨hi, his⟩ := List.forall_mem_cons.mp his
    obtain ⟨e, he⟩ := readEntry_sector hbuffer (tableEntry0 + i * tableEntrySize) (by unfold tableEntry0 tableEntrySize; omega)
    obtain ⟨p, t', hadd, hentries, -, hnamed'⟩ := addPartition_ok hnamed (by simp at hlt; omega) e e.firstSec
    have hlen : t'.entries.length = t.entries.length + 1 := by simp [hentries]
    obtain ⟨last', t'', hrun, hnamed'', hlen', hnil, hlast⟩ := readPrimaries_ok hbuffer is e hnamed' his (by simp at hlt; omega)
    refine ⟨last', t'', ?_, hnamed'', by simp; omega, nofun, ?_⟩
    · simp only [readPrimaries, he, hadd, ok_bind, if_neg (show t'.entries.length ≠ maxPartitions by simp at hlt; omega), hrun]
    · cases is with
      | nil => rw [hnil rfl]; simpa using he
      | cons j js => simpa [List.getLast?_cons_cons] using hlast

/-! ### Well-formed chains -/

/-- A logical partition: the sector that describes it, and its entry there. -/
structure Logical where
  ebr : ℕ
  entry : Entry

def Logical.firstSec (l : Logical) : ℕ := l.ebr + l.entry.firstSec

/-- Each sector has the signature and a partition inside the device; the next is relative to
the extended one. -/
def Chained (ext : ℕ) : ℕ → List Logical → Prop
  | _, [] => False
  | cur, l :: ls => l.ebr = cur ∧ 0 < l.entry.size ∧ 512 * (l.firstSec + l.entry.size) ≤ dev.size ∧
    ∃ buffer next, dev.fread (512 * cur) = some buffer ∧ hasSignature buffer = .ok true ∧ readEntry buffer tableEntry0 = .ok l.entry ∧
      sliceLE buffer (tableEntry1 + offsetFirstSec : ℕ) 4 = .ok next ∧ if next = 0 then ls = [] else Chained ext (ext + next) ls

/-- The first sector has the signature, and its fourth entry begins the chain. -/
structure WellFormed (ext : ℕ) (ls : List Logical) : Prop where
  size_le : dev.size ≤ 512 * 2 ^ 32
  mbr : ∃ buffer e, dev.fread 0 = some buffer ∧ hasSignature buffer = .ok true ∧
    readEntry buffer (tableEntry0 + 3 * tableEntrySize) = .ok e ∧ e.type = 0x05 ∧ e.firstSec = ext
  chain : Chained dev ext ext ls

theorem seekOffset_of_lt {sector : ℕ} (h : sector < 2 ^ 23) : seekOffset sector = 512 * sector := by
  unfold seekOffset
  omega

variable {dev}

/-- The first sector of a chain is read where it is, if it is in the low part of the device. -/
theorem Chained.fread_eq {ext cur room : ℕ} {ls : List Logical} (h : Chained dev ext cur ls)
    (hlow : ∀ l ∈ ls.take (room + 1), l.ebr < 2 ^ 23) :
    cur < 2 ^ 23 ∧ ∃ buffer, dev.fread (seekOffset cur) = some buffer ∧ dev.fread (512 * cur) = some buffer := by
  cases ls with
  | nil => exact absurd h id
  | cons l ls =>
    obtain ⟨rfl, -, -, buffer, next, hread, -⟩ := h
    have hcur := hlow l (by simp)
    exact ⟨hcur, buffer, by rw [seekOffset_of_lt hcur, hread], hread⟩

theorem readEbrs_chained (hsize : dev.size ≤ 512 * 2 ^ 32) {ext : ℕ} :
    ∀ {ls : List Logical} (fuel : ℕ) {buffer : Bytes} {cur : ℕ} {t : Table},
    Chained dev ext cur ls → (∀ l ∈ ls.take (maxPartitions - t.entries.length), l.ebr < 2 ^ 23) →
    dev.fread (512 * cur) = some buffer → t.Named →
    t.entries.length < maxPartitions → maxPartitions ≤ t.entries.length + fuel →
    ∃ t' ps, readEbrs dev ext fuel buffer cur t = .ok (t'.entries.length, t') ∧ t'.entries = t.entries ++ ps ∧
      List.Forall₂ (fun p (l : Logical) => p.Describes l.entry l.firstSec) ps (ls.take (maxPartitions - t.entries.length))
  | [], _, _, _, _, h, _, _, _, _, _ => absurd h id
  | _ :: _, 0, _, _, _, _, _, _, _, hlt, hfuel => absurd hfuel (by omega)
  | l :: ls, fuel + 1, buffer, cur, t, h, hlow, hread, hnamed, hlt, hfuel => by
    obtain ⟨rfl, hpos, hinside, buffer', next, hread', hsigned, he, hnext, hrest⟩ := h
    obtain rfl : buffer' = buffer := Option.some.inj (hread'.symm.trans hread)
    have hfirst : (l.entry.firstSec + l.ebr) % 2 ^ 32 = l.firstSec := by
      unfold Logical.firstSec at hinside ⊢
      rw [Nat.add_comm, Nat.mod_eq_of_lt (by omega)]
    obtain ⟨p, t', hadd, hentries, hp, hnamed'⟩ := addPartition_ok hnamed hlt l.entry l.firstSec
    have hlen : t'.entries.length = t.entries.length + 1 := by simp [hentries]
    obtain ⟨room, hroom⟩ : ∃ room, maxPartitions - t.entries.length = room + 1 := ⟨maxPartitions - t.entries.length - 1, by omega⟩
    unfold readEbrs
    simp only [hsigned, he, hfirst, hadd, hnext, ok_bind, hroom, List.take_succ_cons, not_true_eq_false, if_false]
    split_ifs with hfull hend
    · -- the table is full
      obtain rfl : room = 0 := by omega
      exact ⟨t', [p], rfl, hentries, .cons hp .nil⟩
    · rw [if_pos hend] at hrest
      subst hrest
      exact ⟨t', [p], rfl, hentries, .cons hp (by simp)⟩
    · rw [if_neg hend] at hrest
      obtain ⟨room', rfl⟩ : ∃ room', room = room' + 1 := ⟨room - 1, by omega⟩
      rw [hroom, List.take_succ_cons, List.forall_mem_cons] at hlow
      have hlow' : ∀ l' ∈ ls.take (maxPartitions - t'.entries.length), l'.ebr < 2 ^ 23 := by
        rw [hlen, show maxPartitions - (t.entries.length + 1) = room' + 1 by omega]
        exact hlow.2
      obtain ⟨hcur, buffer₁, hseek, hread₁⟩ := hrest.fread_eq hlow.2
      obtain ⟨t'', ps, hrun, happ, hps⟩ := readEbrs_chained hsize fuel hrest hlow' hread₁ hnamed' (by omega) (by omega)
      rw [Nat.mod_eq_of_lt (show ext + next < 2 ^ 32 by omega), hseek]
      refine ⟨t'', p :: ps, hrun, by rw [happ, hentries, List.append_assoc]; rfl, .cons hp ?_⟩
      rwa [hlen, show maxPartitions - (t.entries.length + 1) = room' + 1 by omega] at hps

theorem emptyTable_named : emptyTable.Named := ⟨by decide, by decide⟩

theorem mmcReadMbr_ended (device : Option Device) : Ended (mmcReadMbr device) := by
  have hfailed : Ended (.ok (-1, emptyTable)) := .failed (by decide)
  unfold mmcReadMbr
  cases device with
  | none => exact hfailed
  | some dev =>
    cases hread : dev.fread 0 with
    | none => simpa only [hread] using hfailed
    | some buffer =>
      have hbuffer := dev.fread_length hread
      obtain ⟨signed, hsigned⟩ := hasSignature_sector hbuffer
      obtain ⟨last, t, hrun, hnamed, hlen, -⟩ := readPrimaries_ok hbuffer [0, 1, 2, 3]
        ⟨0, 0, 0, 0⟩ emptyTable_named (by decide) (by decide)
      have hfour : t.entries.length = 4 := hlen
      have hlt : t.entries.length < maxPartitions := by rw [hfour]; decide
      simp only [hread, hsigned, ok_bind, hrun, Bool.false_eq_true, if_false]
      split_ifs
      · unfold readExtended
        split_ifs
        · exact .full hlt.le
        · cases hext : dev.fread (seekOffset last.firstSec) with
          | none => exact .failed hlt.le
          | some buffer' => exact readEbrs_ended dev last.firstSec _ _ (dev.fread_length hext) hnamed hlt (by omega)
      · exact hfailed

theorem WellFormed.mmcReadMbr_eq {dev : Device} {ext : ℕ} {ls : List Logical} (h : WellFormed dev ext ls)
    (hlow : ∀ l ∈ ls.take (maxPartitions - 4), l.ebr < 2 ^ 23) :
    ∃ t ps qs, mmcReadMbr (some dev) = .ok (t.entries.length, t) ∧ t.entries = ps ++ qs ∧ ps.length = 4 ∧
      List.Forall₂ (fun q (l : Logical) => q.Describes l.entry l.firstSec) qs (ls.take (maxPartitions - 4)) := by
  obtain ⟨buffer, e, hread, hsigned, he, htype, rfl⟩ := h.mbr
  obtain ⟨last, t, hrun, hnamed, hlen, -, hlast⟩ :=
    readPrimaries_ok (dev.fread_length hread) [0, 1, 2, 3] ⟨0, 0, 0, 0⟩ emptyTable_named (by decide) (by decide)
  have hfour : t.entries.length = 4 := hlen
  obtain rfl : last = e := Except.ok.inj ((hlast 3 rfl).symm.trans he)
  obtain ⟨-, buffer', hseek, hread'⟩ := h.chain.fread_eq (show ∀ l ∈ ls.take (59 + 1), l.ebr < 2 ^ 23 from hlow)
  obtain ⟨t', qs, hebrs, happ, hqs⟩ := readEbrs_chained h.size_le (maxPartitions + 1) h.chain (by rwa [hfour]) hread' hnamed
    (by rw [hfour]; decide) (by omega)
  refine ⟨t', t.entries, qs, ?_, happ, hfour, hfour ▸ hqs⟩
  unfold mmcReadMbr
  simp only [hread, hsigned, ok_bind, not_true_eq_false, if_false, hrun, Bool.false_eq_true, readExtended, htype, ne_eq, hseek, hebrs]

/-- **The partition table is walked to its end**, whatever the device holds: the result is -1 or the number of entries. A
well-formed chain is described by the entries from 4 on, if those of its sectors that the table has room for are below 2^23. -/
theorem partitions_walked (device : Option Device) :
    ∃ ret t, mmcReadMbr device = .ok (ret, t) ∧ t.entries.length ≤ maxPartitions ∧ (ret = -1 ∨ ret = t.entries.length) ∧
      ∀ dev ext ls, device = some dev → WellFormed dev ext ls → (∀ l ∈ ls.take (maxPartitions - 4), l.ebr < 2 ^ 23) →
        ret = t.entries.length ∧ t.entries.length = min maxPartitions (4 + ls.length) ∧
        ∀ k l, ls[k]? = some l → 4 + k < maxPartitions →
          ∃ p, t.entries[4 + k]? = some p ∧ p.dstatus = l.entry.status ∧ p.dtype = l.entry.type ∧
            p.dfirstsec = l.ebr + l.entry.firstSec ∧ p.dsize = l.entry.size := by
  obtain ⟨ret, t, hrun, hle, hret⟩ := mmcReadMbr_ended device
  refine ⟨ret, t, hrun, hle, hret, ?_⟩
  rintro dev ext ls rfl hwell hlow
  obtain ⟨t', ps, qs, hrun', happ, hps, hqs⟩ := hwell.mmcReadMbr_eq hlow
  obtain ⟨rfl, rfl⟩ := Prod.mk.inj (Except.ok.inj (hrun.symm.trans hrun'))
  have hlen : qs.length = min (maxPartitions - 4) ls.length := by rw [hqs.length_eq, List.length_take]
  refine ⟨rfl, by rw [happ, List.length_append, hps, hlen, ← Nat.add_min_add_left]; rfl, fun k l hl hk => ?_⟩
  have htake : (ls.take (maxPartitions - 4))[k]? = some l := by rw [List.getElem?_take_of_lt (by omega), hl]
  obtain ⟨hk', rfl⟩ := List.getElem?_eq_some_iff.mp htake
  have hkq : k < qs.length := by rw [hqs.length_eq]; exact hk'
  refine ⟨qs[k], ?_, hqs.get hkq hk'⟩
  rw [happ, List.getElem?_append_right (by omega), hps, Nat.add_sub_cancel_left, List.getElem?_eq_getElem hkq]

/-- The bytes of an entry with the given type, first sector and size. -/
def entryBytes (type : UInt8) (firstSec size : ℕ) : Bytes :=
  [0, 0, 0, 0, type, 0, 0, 0] ++ LittleEndian.toBytes 4 firstSec ++ LittleEndian.toBytes 4 size

def sectorBytes (entries : List Bytes) : Bytes := List.replicate tableEntry0 0 ++ entries.flatten ++ [0x55, 0xAA]

/-- A boot partition, and an extended partition at a sector that holds one `ext3` partition. -/
def extendedAt (ext : ℕ) : Device where
  size := 512 * (ext + 9)
  byte i :=
    if i < 512 then (sectorBytes [entryBytes 0x48 2 1, entryBytes 0 0 0, entryBytes 0 0 0, entryBytes 0x05 ext 9]).getD i 0
    else if 512 * ext ≤ i ∧ i < 512 * ext + 512 then
      (sectorBytes [entryBytes 0x83 1 8, entryBytes 0 0 0, entryBytes 0 0 0, entryBytes 0 0 0]).getD (i - 512 * ext) 0
    else 0

def logicalAt (ext : ℕ) : List Logical := [⟨ext, ⟨0, 0x83, 1, 8⟩⟩]

def Device.sector (dev : Device) (n : ℕ) : Bytes := (List.range 512).map fun i => dev.byte (512 * n + i)

theorem Device.fread_sector (dev : Device) {n : ℕ} (h : 512 * n + 512 ≤ dev.size) :
    dev.fread (512 * n) = some (dev.sector n) := if_pos h

/-- `extendedAt` is well formed, if its two sectors are read as they were written. -/
theorem wellFormed_extendedAt {ext : ℕ} (hext : ext + 9 ≤ 2 ^ 32) (hmbr : hasSignature ((extendedAt ext).sector 0) = .ok true)
    (hlast : readEntry ((extendedAt ext).sector 0) (tableEntry0 + 3 * tableEntrySize) = .ok ⟨0, 0x05, ext, 9⟩)
    (hebr : hasSignature ((extendedAt ext).sector ext) = .ok true)
    (hentry : readEntry ((extendedAt ext).sector ext) tableEntry0 = .ok ⟨0, 0x83, 1, 8⟩)
    (hnext : sliceLE ((extendedAt ext).sector ext) (tableEntry1 + offsetFirstSec : ℕ) 4 = .ok 0) :
    WellFormed (extendedAt ext) ext (logicalAt ext) := by
  have hsize : (extendedAt ext).size = 512 * (ext + 9) := rfl
  have hzero : (extendedAt ext).fread 0 = some ((extendedAt ext).sector 0) := by
    rw [← (extendedAt ext).fread_sector (n := 0) (by omega), Nat.mul_zero]
  refine ⟨by omega, ⟨_, _, hzero, hmbr, hlast, rfl, rfl⟩, rfl, Nat.succ_pos 7, ?_, _, 0,
    (extendedAt ext).fread_sector (by omega), hebr, hentry,
    hnext, rfl⟩
  show 512 * (ext + 1 + 8) ≤ _
  omega

theorem partitions_walked_low : WellFormed (extendedAt 8) 8 (logicalAt 8) ∧
    ∃ t p, mmcReadMbr (some (extendedAt 8)) = .ok (5, t) ∧ t.entries[4]? = some p ∧ p.dfirstsec = 9 ∧ p.dsize = 8 := by
  have hwell : WellFormed (extendedAt 8) 8 (logicalAt 8) := wellFormed_extendedAt (by decide) (by decide +kernel) (by decide +kernel)
    (by decide +kernel) (by decide +kernel) (by decide +kernel)
  obtain ⟨ret, t, hrun, -, -, hchain⟩ := partitions_walked (some (extendedAt 8))
  obtain ⟨rfl, hlen, hentries⟩ := hchain _ 8 (logicalAt 8) rfl hwell (by simp [logicalAt, maxPartitions])
  obtain ⟨p, hp, -, -, hfirst, hsize⟩ := hentries 0 _ rfl (by decide)
  exact ⟨hwell, t, p, by rw [hrun, hlen]; rfl, hp, hfirst, hsize⟩

/-- At sector 2^23 the byte offset is 0 again: the first sector is taken for the beginning
of the chain. -/
theorem sector_wraps : WellFormed (extendedAt (2 ^ 23)) (2 ^ 23) (logicalAt (2 ^ 23)) ∧
    (mmcReadMbr (some (extendedAt (2 ^ 23)))).map (fun r => r.2.entries[4]?.map fun p => (p.dtype, p.dfirstsec, p.dsize)) =
      .ok (some (0x48, 2 ^ 23 + 2, 1)) ∧
    (logicalAt (2 ^ 23))[0]?.map (fun l => (l.entry.type, l.firstSec, l.entry.size)) = some (0x83, 2 ^ 23 + 1, 8) :=
  ⟨wellFormed_extendedAt (by decide) (by decide +kernel) (by decide +kernel) (by decide +kernel)
    (by decide +kernel) (by decide +kernel),
    by decide +kernel, rfl⟩

end Mmc
end Recovery
