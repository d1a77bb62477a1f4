/-
# Opening an archive (Zip.c)

`parseZipArchive` scans a mapped file backwards for the end-of-central-directory record,
walks the central directory, keeps the entries sorted by name and enters them in a hash
table. Pointers are 32-bit numbers: additions wrap around, and a read outside the mapping
faults.
-/
import Mathlib.Data.List.TakeWhile
import Recovery.Zip.Hash

namespace Recovery
namespace Zip

def cenSig : ℕ := 0x02014b50
def cenHdr : ℕ := 46
def endSig : ℕ := 0x06054b50
def endHdr : ℕ := 22
def locSig : ℕ := 0x04034b50
def locHdr : ℕ := 30
def cenVemUnix : ℕ := 3 <<< 8
def pathMax : ℕ := 4096

/-- The offsets of the fields that are read. -/
def endSub : ℕ := 8
def endOff : ℕ := 16
def cenVem : ℕ := 4
def cenHow : ℕ := 10
def cenTim : ℕ := 12
def cenCrc : ℕ := 16
def cenSiz : ℕ := 20
def cenLen : ℕ := 24
def cenNam : ℕ := 28
def cenExt : ℕ := 30
def cenCom : ℕ := 32
def cenAtx : ℕ := 38
def cenOff : ℕ := 42
def locNam : ℕ := 26
def locExt : ℕ := 28

/-- The mapped file: it does not begin at `NULL` and does not wrap around. -/
structure MemMapping where
  addr : ℕ
  data : Bytes
  addr_pos : 0 < addr
  addr_add_length_lt : addr + data.length < 2 ^ 32

theorem page_pos : 0 < 4096 := by decide

def MemMapping.length (m : MemMapping) : ℕ := m.data.length

/-- `goto bail`: `parseZipArchive` returns `false`. -/
def bail : Stop := .ret 0

def ptrAdd (p n : ℕ) : ℕ := (p + n) % 2 ^ 32

/-- `get2LE` and `get4LE` of a pointer into the mapping. -/
def get2LE (m : MemMapping) (p : ℕ) : Except Stop ℕ := sliceLE m.data ((p : ℤ) - m.addr) 2

def get4LE (m : MemMapping) (p : ℕ) : Except Stop ℕ := sliceLE m.data ((p : ℤ) - m.addr) 4

/-- `fileName` is what the C pointer points at, in a mapping that stays. -/
structure ZipEntry where
  fileNameLen : ℕ
  fileName : Bytes
  offset : ℤ
  compLen : ℤ
  uncompLen : ℤ
  compression : ℕ
  modTime : ℤ
  crc32 : ℤ
  versionMadeBy : ℕ
  externalFileAttributes : ℤ
  deriving DecidableEq

structure ZipArchive where
  numEntries : ℕ
  pEntries : List ZipEntry
  /-- An item is a pointer into `pEntries`, so an index. -/
  pHash : HashTable ℕ

/-! ### Names -/

/-- A C string in a buffer: what stands before the first NUL. -/
def cstr (b : Bytes) : Bytes := b.takeWhile (· ≠ 0)

theorem cstr_of_no_nul {b : Bytes} (h : 0 ∉ b) : cstr b = b := by
  refine List.takeWhile_eq_self_iff.mpr fun c hc => decide_eq_true fun h0 => ?_
  rw [h0] at hc
  exact h hc

/-- `strncmp`, where a name that ends counts as NUL. -/
def strncmp : Bytes → Bytes → ℕ → ℤ
  | _, _, 0 => 0
  | [], [], _ + 1 => 0
  | [], b :: _, _ + 1 => -(b.toNat : ℤ)
  | a :: _, [], _ + 1 => a.toNat
  | a :: as, b :: bs, n + 1 =>
    if a ≠ b then (a.toNat : ℤ) - b.toNat else if a = 0 then 0 else strncmp as bs n

def memcmp : Bytes → Bytes → ℕ → ℤ
  | a :: as, b :: bs, n + 1 => if a ≠ b then (a.toNat : ℤ) - b.toNat else memcmp as bs n
  | _, _, _ => 0

def hashcmpZipEntry (entry1 entry2 : ZipEntry) : ℤ :=
  if entry1.fileNameLen ≠ entry2.fileNameLen then s32 ((entry1.fileNameLen : ℤ) - entry2.fileNameLen)
  else memcmp entry1.fileName entry2.fileName entry1.fileNameLen

def hashcmpZipName (entry : ZipEntry) (name : Bytes) : ℤ :=
  if entry.fileNameLen ≠ name.length then s32 ((entry.fileNameLen : ℤ) - name.length)
  else memcmp entry.fileName name name.length

def computeHash (name : Bytes) : UInt32 := name.foldl (fun hash c => hash * 31 + c.toUInt32) 2

def validFilename (fileName : Bytes) : Bool := fileName.length < pathMax ∧ fileName.all fun c => 32 ≤ c ∧ c < 127

/-! ### The central directory -/

/-- The scan for the EOCD record, downwards from offset `n - 1`. -/
def findEocd (m : MemMapping) : ℕ → Except Stop ℕ
  | 0 => .error bail
  | n + 1 => do
    let val ← get4LE m (m.addr + n)
    if val = endSig then pure n else findEocd m n

/-- The part of a record that is read before its place is searched. -/
structure Header where
  localHdrOffset : ℕ
  extraLen : ℕ
  commentLen : ℕ
  fileName : Bytes

def readHeader (m : MemMapping) (ptr : ℕ) : Except Stop Header := do
  failIf (ptrAdd ptr cenHdr > m.addr + m.length) bail
  let sig ← get4LE m ptr
  failIf (sig ≠ cenSig) bail
  let localHdrOffset ← get4LE m (ptrAdd ptr cenOff)
  let fileNameLen ← get2LE m (ptrAdd ptr cenNam)
  let extraLen ← get2LE m (ptrAdd ptr cenExt)
  let commentLen ← get2LE m (ptrAdd ptr cenCom)
  let fileName := ptrAdd ptr cenHdr
  failIf (ptrAdd fileName fileNameLen > m.addr + m.length) bail
  let name ← slice m.data ((fileName : ℤ) - m.addr) fileNameLen
  failIf (validFilename name = false) bail
  pure ⟨localHdrOffset, extraLen, commentLen, name⟩

/-- The other fields, and the checks of the local header and the data. -/
def readFields (m : MemMapping) (ptr : ℕ) (hdr : Header) : Except Stop ZipEntry := do
  let compLen ← get4LE m (ptrAdd ptr cenSiz)
  let uncompLen ← get4LE m (ptrAdd ptr cenLen)
  let compression ← get2LE m (ptrAdd ptr cenHow)
  let modTime ← get4LE m (ptrAdd ptr cenTim)
  let crc32 ← get4LE m (ptrAdd ptr cenCrc)
  let versionMadeBy ← get2LE m (ptrAdd ptr cenVem)
  failIf (versionMadeBy &&& 0xff00 ≠ 0 ∧ versionMadeBy &&& 0xff00 ≠ cenVemUnix) bail
  let externalFileAttributes ← get4LE m (ptrAdd ptr cenAtx)
  -- `safe_add` of the mapping and the offset, as `uintptr_t`s
  failIf (2 ^ 32 ≤ m.addr + hdr.localHdrOffset) bail
  let localHdr := m.addr + hdr.localHdrOffset
  failIf (ptrAdd localHdr locHdr > m.addr + m.length) bail
  let sig ← get4LE m localHdr
  failIf (sig ≠ locSig) bail
  let nameLen ← get2LE m (ptrAdd localHdr locNam)
  let extraLen ← get2LE m (ptrAdd localHdr locExt)
  let offset := s32 ((hdr.localHdrOffset : ℤ) + locHdr + nameLen + extraLen)
  -- `safe_add` of two `long`s
  failIf (s32 (offset + s32 compLen) ≠ offset + s32 compLen) bail
  failIf (u32 (offset + s32 compLen) > m.length) bail
  pure ⟨hdr.fileName.length, hdr.fileName, offset, s32 compLen, s32 uncompLen, compression, s32 modTime, s32 crc32,
    versionMadeBy, s32 externalFileAttributes⟩

def nameDiff (entry : ZipEntry) (fileName : Bytes) : ℤ :=
  let diffLen := if entry.fileNameLen < fileName.length then entry.fileNameLen else fileName.length
  let diff := strncmp entry.fileName fileName diffLen
  if diff = 0 then s32 ((entry.fileNameLen : ℤ) - fileName.length) else diff

/-- The binary search: the last value of `high`. -/
def searchEntry (pEntries : List ZipEntry) (fileName : Bytes) : ℕ → ℤ → ℤ → Except Stop ℤ
  | 0, _, _ => .error .hang
  | n + 1, low, high =>
    if low ≤ high then
      let mid := low + (high - low) / 2
      match pEntries[mid.toNat]? with
      | none => .error .fault
      | some entry =>
        let diff := nameDiff entry fileName
        if diff < 0 then searchEntry pEntries fileName n (mid + 1) high
        else if diff > 0 then searchEntry pEntries fileName n low (mid - 1)
        else pure mid
    else pure high

/-- `n` records from `ptr` on. A new entry moves those behind its place up by one. -/
def readEntries (m : MemMapping) : ℕ → ℕ → List ZipEntry → Except Stop (List ZipEntry)
  | 0, _, pEntries => pure pEntries
  | n + 1, ptr, pEntries => do
    let hdr ← readHeader m ptr
    let high ← searchEntry pEntries hdr.fileName (pEntries.length + 1) 0 ((pEntries.length : ℤ) - 1)
    let target := (high + 1).toNat
    failIf (pEntries.length < target) .abort
    let entry ← readFields m ptr hdr
    readEntries m n (ptrAdd ptr (cenHdr + hdr.fileName.length + hdr.extraLen + hdr.commentLen))
      (pEntries.insertIdx target entry)

/-- The entry behind a pointer of the hash table is compared with `cmp`. -/
def cmpAt (pEntries : List ZipEntry) (cmp : ZipEntry → ℤ) (i : ℕ) : Bool :=
  match pEntries[i]? with
  | some entry => cmp entry = 0
  | none => false

def addEntryToHashTable (pEntries : List ZipEntry) (pHash : HashTable ℕ) (i : ℕ) (pEntry : ZipEntry) :
    Except Stop (HashTable ℕ) := do
  let (_, pHash) ← mzHashTableLookup pHash (computeHash pEntry.fileName) (some i)
    (cmpAt pEntries (hashcmpZipEntry · pEntry))
  pure pHash

/-- The loop that enters the sorted entries, from index `i` on. -/
def addEntries (pEntries : List ZipEntry) : ℕ → List ZipEntry → HashTable ℕ → Except Stop (HashTable ℕ)
  | _, [], pHash => pure pHash
  | i, entry :: rest, pHash => do
    let pHash ← addEntryToHashTable pEntries pHash i entry
    addEntries pEntries (i + 1) rest pHash

/-- `parseZipArchive` once the EOCD record is read. -/
def readDirectory (m : MemMapping) (numEntries cdOffset : ℕ) : Except Stop ZipArchive := do
  let pHash ← mzHashTableCreate ℕ (mzHashSize numEntries)
  let pEntries ← readEntries m numEntries (m.addr + cdOffset) []
  let pHash ← addEntries pEntries 0 pEntries pHash
  pure ⟨numEntries, pEntries, pHash⟩

/-- The EOCD record: its offset, the number of entries and the central directory. -/
def readEnd (m : MemMapping) : Except Stop (ℕ × ℕ × ℕ) := do
  let off ← findEocd m (m.length + 1 - endHdr)
  let numEntries ← get2LE m (m.addr + off + endSub)
  let cdOffset ← get4LE m (m.addr + off + endOff)
  failIf (numEntries = 0 ∨ cdOffset ≥ m.length) bail
  pure (off, numEntries, cdOffset)

def parseZipArchive (m : MemMapping) : Except Stop ZipArchive := do
  let val ← get4LE m m.addr
  failIf (val = endSig) bail
  failIf (val ≠ locSig) bail
  let (_, numEntries, cdOffset) ← readEnd m
  readDirectory m numEntries cdOffset

/-- The entry the returned pointer points at. -/
def mzFindZipEntry (pArchive : ZipArchive) (entryName : Bytes) : Except Stop (Option ZipEntry) := do
  let name := cstr entryName
  let (found, _) ← mzHashTableLookup pArchive.pHash (computeHash name) none
    (cmpAt pArchive.pEntries (hashcmpZipName · name))
  match found with
  | none => pure none
  | some i =>
    match pArchive.pEntries[i]? with
    | some entry => pure (some entry)
    | none => .error .fault

end Zip
end Recovery
