/-
# Making an image patch (imgdiff.c)

An image is broken into deflate chunks, the compressed parts of gzip members or zip entries,
and normal chunks. A deflate chunk of the target that can be compressed again to the same
bytes is patched uncompressed; the others become normal chunks, and adjacent normal chunks
are merged.
-/
import Recovery.Diff.RoundTrip
import Mathlib.Data.List.Sort

namespace Recovery
namespace Diff

open Patch

inductive ChunkType
  | normal
  | deflate
  | raw
  deriving DecidableEq

def ChunkType.code : ChunkType → ℤ
  | .normal => chunkNormal
  | .deflate => chunkDeflate
  | .raw => chunkRaw

/-- Where the data of a chunk is: in the image, or in a buffer of its own. -/
inductive Ptr
  | image (off : ℕ)
  | heap (bytes : Bytes)
  deriving DecidableEq

/-- `ImageChunk`. The fields a chunk does not have are zero. -/
structure ImageChunk where
  type : ChunkType
  start : ℕ
  len : ℕ
  data : Ptr
  sourceStart : ℕ := 0
  sourceLen : ℕ := 0
  I : Option (List ℤ) := none
  deflateLen : ℕ := 0
  deflateData : ℕ := 0
  filename : Option Bytes := none
  params : DeflateParams := ⟨0, 0, 0, 0, 0⟩
  sourceUncompressedLen : ℕ := 0

def ImageChunk.bytes (img : Bytes) (c : ImageChunk) : Except Stop Bytes :=
  match c.data with
  | .image off => slice img off c.len
  | .heap bytes => pure bytes

def normalAt (start len : ℕ) : ImageChunk := { type := .normal, start, len, data := .image start }

/-- The deflate stream at the start of the input: its data and the number of bytes it takes,
if it is complete. -/
structure Zlib (cod : Codecs) where
  inflateAll : Bytes → Option (Bytes × ℕ)
  inflateAll_le : ∀ b d n, inflateAll b = some (d, n) → n ≤ b.length
  inflate_exact : ∀ b d n, inflateAll b = some (d, n) → cod.inflate (b.take n) d.length = (zStreamEnd, d)

variable {cod : Codecs} (z : Zlib cod) (bz : Bzip cod)

/-! ### Chunks of an image -/

def gzipHeaderLen : ℕ := 10
def gzipFooterLen : ℕ := 8

/-- The image as it is read: with four zero bytes behind it. -/
def padded (file : Bytes) : Bytes := file ++ [0, 0, 0, 0]

/-- The magic of a gzip member without header flags. -/
def gzipAt (img : Bytes) (i : ℕ) : Bool := (img.drop i).take 4 == [0x1f, 0x8b, 0x08, 0x00]

/-- The number of bytes before the next magic, among `n` bytes from `i` on. -/
def findGzip (img : Bytes) : ℕ → ℕ → ℕ
  | 0, _ => 0
  | n + 1, i => if gzipAt img i then 0 else findGzip img n (i + 1) + 1

/-- The chunks of a gzip member and the position behind it. -/
def gzipMember (file : Bytes) (pos : ℕ) : Except Stop (List ImageChunk × ℕ) := do
  -- the length of the input of `inflate` would be negative
  failIf (file.length < pos + gzipHeaderLen) .fault
  match z.inflateAll (file.drop (pos + gzipHeaderLen)) with
  -- without a complete stream the loop around `inflate` does not end
  | none => .error .hang
  | some (data, n) => do
    let footer := pos + gzipHeaderLen + n
    let footerSize ← sliceLE (padded file) (footer + gzipFooterLen - 4) 4
    failIf (s32 footerSize ≠ data.length) (.ret 1)
    pure ([normalAt pos gzipHeaderLen,
      { type := .deflate, start := pos + gzipHeaderLen, len := data.length, data := .heap data, deflateLen := n,
        deflateData := pos + gzipHeaderLen },
      normalAt footer gzipFooterLen], footer + gzipFooterLen)

def readChunks (file : Bytes) : ℕ → ℕ → Except Stop (List ImageChunk)
  | 0, _ => .error .hang
  | n + 1, pos =>
    if pos < file.length then
      if 4 ≤ file.length - pos ∧ gzipAt (padded file) pos then do
        let (member, pos) ← gzipMember z file pos
        let chunks ← readChunks file n pos
        pure (member ++ chunks)
      else do
        let len := findGzip (padded file) (file.length - pos) pos
        let chunks ← readChunks file n (pos + len)
        pure (normalAt pos len :: chunks)
    else pure []

def readImage (file : Bytes) : Except Stop (List ImageChunk) := readChunks z file (file.length + 1) 0

/-! ### Chunks of a zip file -/

/-- `ZipFileEntry`, with the name as a C string. -/
structure ZipFileEntry where
  dataOffset : ℤ
  deflateLen : ℤ
  uncompLen : ℤ
  filename : Bytes
  deriving DecidableEq

def read2 (b : Bytes) (i : ℤ) : Except Stop ℤ := do
  let v ← sliceLE b i 2
  pure v

/-- The search for the end-of-central-directory record, from `i` down. -/
def findEnd (img : Bytes) : ℕ → ℤ → Except Stop ℤ
  | 0, _ => .error .hang
  | n + 1, i =>
    if i ≥ 0 ∧ i > (img.length : ℤ) - 65600 then do
      let magic ← slice img i 4
      if magic = [0x50, 0x4b, 0x05, 0x06] then pure i else findEnd img n (i - 1)
    else pure i

/-- The entry at `cd`, if it is deflated, and the next one's position. -/
def readEntry (img : Bytes) (cd : ℤ) : Except Stop (Option ZipFileEntry × ℤ) := do
  let magic ← slice img cd 4
  failIf (magic ≠ [0x50, 0x4b, 0x01, 0x02]) (.ret 1)
  let clen ← read4 img (cd + 20)
  let ulen ← read4 img (cd + 24)
  let nlen ← read2 img (cd + 28)
  let xlen ← read2 img (cd + 30)
  let mlen ← read2 img (cd + 32)
  let hoffset ← read4 img (cd + 42)
  let filename ← slice img (cd + 46) nlen.toNat
  let method ← read2 img (cd + 10)
  let next := cd + 46 + nlen + xlen + mlen
  if method ≠ 8 then pure (none, next)
  else do
    let lh ← slice img hoffset 4
    failIf (lh ≠ [0x50, 0x4b, 0x03, 0x04]) (.ret 1)
    let lnlen ← read2 img (hoffset + 26)
    failIf (lnlen ≠ nlen) (.ret 1)
    let lname ← slice img (hoffset + 30) nlen.toNat
    failIf (lname ≠ filename) (.ret 1)
    let lxlen ← read2 img (hoffset + 28)
    pure (some ⟨s32 (hoffset + 30 + nlen + lxlen), clen, ulen, filename.takeWhile (· ≠ 0)⟩, next)

/-- The deflated entries, in the order of the central directory. -/
def readEntries (img : Bytes) : ℕ → ℤ → Except Stop (List ZipFileEntry)
  | 0, _ => pure []
  | n + 1, cd => do
    let (entry, next) ← readEntry img cd
    let entries ← readEntries img n next
    pure (entry.toList ++ entries)

/-- The first half of `ReadZip`: what the central directory says. -/
def zipEntries (img : Bytes) : Except Stop (List ZipFileEntry) := do
  let i ← findEnd img (img.length + 1) ((img.length : ℤ) - 20)
  let disk ← slice img (i + 4) 4
  failIf (disk ≠ [0, 0, 0, 0]) (.ret 1)
  let cdcount ← read2 img (i + 8)
  let cdoffset ← read4 img (i + 16)
  readEntries img cdcount.toNat cdoffset

/-- The chunk of an entry. What `inflate` leaves of the buffer is not set. -/
def entryChunk (cod : Codecs) (img : Bytes) (e : ZipFileEntry) : Except Stop ImageChunk := do
  failIf (e.deflateLen < 0 ∨ e.uncompLen < 0) .fault
  let input := inputAt img e.dataOffset e.deflateLen
  let (ret, out) := cod.inflate input.bytes e.uncompLen.toNat
  failIf (input.overruns ∧ ret ≠ zStreamEnd) .fault
  failIf (ret ≠ zStreamEnd) (.ret 1)
  pure { type := .deflate, start := e.dataOffset.toNat, len := e.uncompLen.toNat,
         data := .heap (out ++ List.replicate (e.uncompLen.toNat - out.length) 0),
         deflateLen := e.deflateLen.toNat, deflateData := e.dataOffset.toNat, filename := some e.filename }

/-- The loop of `ReadZip` that tiles the file. -/
def tileZip (cod : Codecs) (img : Bytes) : ℕ → ℕ → List ZipFileEntry → Except Stop (List ImageChunk)
  | 0, _, _ => .error .hang
  | n + 1, pos, entries =>
    if pos < img.length then
      match entries with
      | [] => do
        let chunks ← tileZip cod img n img.length []
        pure (normalAt pos (img.length - pos) :: chunks)
      | e :: rest =>
        if (pos : ℤ) = e.dataOffset then do
          let chunk ← entryChunk cod img e
          let chunks ← tileZip cod img n (pos + chunk.deflateLen) rest
          pure (chunk :: chunks)
        else do
          -- the length of the chunk would be negative
          failIf (e.dataOffset < pos) .fault
          let chunks ← tileZip cod img n e.dataOffset.toNat entries
          pure (normalAt pos (e.dataOffset.toNat - pos) :: chunks)
    else pure []

def entryLe (a b : ZipFileEntry) : Prop := a.dataOffset ≤ b.dataOffset

instance : DecidableRel entryLe := fun a b => inferInstanceAs (Decidable (a.dataOffset ≤ b.dataOffset))

def readZip (cod : Codecs) (img : Bytes) : Except Stop (List ImageChunk) := do
  let entries ← zipEntries img
  tileZip cod img (2 * entries.length + 2) 0 (entries.insertionSort entryLe)

def pseudoChunk (img : Bytes) : ImageChunk := normalAt 0 img.length

/-! ### Passes over the chunks -/

/-- Output of `deflate` that leaves the image is longer than the chunk, so not equal. -/
def tryReconstruction (cod : Codecs) (img : Bytes) (c : ImageChunk) (params : DeflateParams) : Except Stop Bool := do
  let data ← c.bytes img
  match cod.deflate params data with
  -- `deflate` without a stream never ends it
  | none => .error .hang
  | some out => pure (decide ((img.drop c.deflateData).take out.length = out ∧ out.length = c.deflateLen))

def paramsAt (level : ℤ) : DeflateParams := ⟨level, 8, -15, 8, 0⟩

/-- The chunk with the parameters that rebuild it. -/
def reconstructDeflateChunk (cod : Codecs) (img : Bytes) (c : ImageChunk) : Except Stop (Option ImageChunk) :=
  if c.type ≠ .deflate then pure none
  else do
    let ok ← tryReconstruction cod img c (paramsAt 6)
    if ok then pure (some { c with params := paramsAt 6 })
    else do
      let ok ← tryReconstruction cod img c (paramsAt 9)
      pure (if ok then some { c with params := paramsAt 9 } else none)

def changeDeflateChunkToNormal (c : ImageChunk) : ImageChunk :=
  if c.type = .deflate then { c with type := .normal, data := .image c.deflateData, len := c.deflateLen } else c

/-- `AreChunksEqual`, for chunks of two images. -/
def areChunksEqual (aImg bImg : Bytes) (a b : ImageChunk) : Except Stop Bool :=
  if a.type ≠ b.type then pure false
  else match a.type with
    | .normal =>
      if a.len ≠ b.len then pure false
      else do
        let x ← a.bytes aImg
        let y ← b.bytes bImg
        pure (x == y)
    | .deflate =>
      if a.deflateLen ≠ b.deflateLen then pure false
      else do
        let x ← slice aImg a.deflateData a.deflateLen
        let y ← slice bImg b.deflateData b.deflateLen
        pure (x == y)
    | .raw => pure false

/-- The data of `b` begins where that of `a` ends. -/
def Ptr.follows (a b : ImageChunk) : Bool :=
  match a.data, b.data with
  | .image x, .image y => y == x + a.len
  | _, _ => false

def ImageChunk.joins (a b : ImageChunk) : Bool :=
  a.type == .normal && b.type == .normal && b.start == a.start + a.len && Ptr.follows a b

/-- The merged chunk of a run. Of a run of one it is the chunk. -/
def collapse (first last : ImageChunk) : ImageChunk := { first with len := last.len + (last.start - first.start) }

/-- The loop of `MergeAdjacentNormalChunks`, in a run from `first` to `last`. -/
def mergeFrom : ImageChunk → ImageChunk → List ImageChunk → List ImageChunk
  | first, last, [] => [collapse first last]
  | first, last, c :: chunks =>
    if last.joins c then mergeFrom first c chunks else collapse first last :: mergeFrom c c chunks

def mergeAdjacent : List ImageChunk → List ImageChunk
  | [] => []
  | c :: chunks => mergeFrom c c chunks

/-- What `MakePatch` notes in the target chunk about the source chunk. -/
def ImageChunk.withSource (tgt src : ImageChunk) : ImageChunk :=
  if tgt.type = .deflate then
    { tgt with sourceStart := src.start, sourceLen := src.deflateLen, sourceUncompressedLen := src.len }
  else { tgt with sourceStart := src.start, sourceLen := src.len }

/-- The source chunk with its suffix list, the target chunk and the patch. -/
def makePatch (srcImg tgtImg : Bytes) (src tgt : ImageChunk) : Except Stop (ImageChunk × ImageChunk × Bytes) := do
  let new ← tgt.bytes tgtImg
  if tgt.type = .normal ∧ tgt.len ≤ 160 then pure (src, { tgt with type := .raw }, new)
  else do
    let old ← src.bytes srcImg
    let (I, patch) ← bsdiff bz.compress old src.I new
    let src := { src with I := some I }
    if tgt.type = .normal ∧ tgt.len ≤ patch.length then pure (src, { tgt with type := .raw }, new)
    else pure (src, tgt.withSource src, patch)

/-! ### The patch file -/

def write4 (v : ℤ) : Bytes := LittleEndian.toBytes 4 (v % 2 ^ 32).toNat
def write8 (v : ℕ) : Bytes := LittleEndian.toBytes 8 v

abbrev Patched := ImageChunk × Bytes

def recordSize (p : Patched) : ℕ :=
  match p.1.type with
  | .normal => 4 + 8 * 3
  | .deflate => 4 + (8 * 5 + 4 * 5)
  | .raw => 4 + (4 + p.2.length)

def record (offset : ℕ) (p : Patched) : Bytes :=
  write4 p.1.type.code ++
  match p.1.type with
  | .normal => write8 p.1.sourceStart ++ (write8 p.1.sourceLen ++ write8 offset)
  | .deflate =>
    write8 p.1.sourceStart ++ (write8 p.1.sourceLen ++ (write8 offset ++ (write8 p.1.sourceUncompressedLen ++
      (write8 p.1.len ++ (write4 p.1.params.level ++ (write4 p.1.params.method ++ (write4 p.1.params.windowBits ++
        (write4 p.1.params.memLevel ++ write4 p.1.params.strategy))))))))
  | .raw => write4 p.2.length ++ p.2

def body (p : Patched) : Bytes := if p.1.type = .raw then [] else p.2

/-- The records, with the offsets of their patches from `offset` on. -/
def records : ℕ → List Patched → Bytes
  | _, [] => []
  | offset, p :: ps => record offset p ++ records (offset + (body p).length) ps

def imagePatch (ps : List Patched) : Bytes :=
  lit "IMGDIFF2" ++ (write4 ps.length ++ (records (12 + (ps.map recordSize).sum) ps ++ ps.flatMap body))

/-! ### main -/

/-- The loop that demotes what is not patched uncompressed. -/
def demotePair (cod : Codecs) (srcImg tgtImg : Bytes) (src tgt : ImageChunk) : Except Stop (ImageChunk × ImageChunk) :=
  if tgt.type = .deflate then do
    let rebuilt ← reconstructDeflateChunk cod tgtImg tgt
    match rebuilt with
    | none => pure (changeDeflateChunkToNormal src, changeDeflateChunkToNormal tgt)
    | some tgt => do
      let equal ← areChunksEqual tgtImg srcImg tgt src
      if equal then pure (changeDeflateChunkToNormal src, changeDeflateChunkToNormal tgt) else pure (src, tgt)
  else pure (src, tgt)

def demoteAll (cod : Codecs) (srcImg tgtImg : Bytes) :
    List (ImageChunk × ImageChunk) → Except Stop (List (ImageChunk × ImageChunk))
  | [] => pure []
  | (src, tgt) :: pairs => do
    let pair ← demotePair cod srcImg tgtImg src tgt
    let pairs ← demoteAll cod srcImg tgtImg pairs
    pure (pair :: pairs)

def patchAll (srcImg tgtImg : Bytes) : List (ImageChunk × ImageChunk) → Except Stop (List Patched)
  | [] => pure []
  | (src, tgt) :: pairs => do
    let (_, tgt, patch) ← makePatch bz srcImg tgtImg src tgt
    let ps ← patchAll srcImg tgtImg pairs
    pure ((tgt, patch) :: ps)

/-- `imgdiff` without bonus data: the patch file of a run that exits with 0. -/
def imgdiff (source target : Bytes) : Except Stop Bytes := do
  let src ← readImage z source
  let tgt ← readImage z target
  let tgt := mergeAdjacent tgt
  let src := mergeAdjacent src
  failIf (src.length ≠ tgt.length) (.ret 1)
  failIf (src.map (·.type) ≠ tgt.map (·.type)) (.ret 1)
  let pairs ← demoteAll cod (padded source) (padded target) (src.zip tgt)
  let tgt := mergeAdjacent (pairs.map (·.2))
  let src := mergeAdjacent (pairs.map (·.1))
  failIf (src.length ≠ tgt.length) (.ret 1)
  let ps ← patchAll bz (padded source) (padded target) (src.zip tgt)
  pure (imagePatch ps)

def findChunkByName (name : Option Bytes) (chunks : List ImageChunk) : Option ℕ :=
  chunks.findIdx? fun c => c.type == .deflate && c.filename.isSome && c.filename == name

/-- One round of the demoting loop in zip mode, with the source chunks. -/
def demoteEntry (cod : Codecs) (srcImg tgtImg : Bytes) (srcs : List ImageChunk) (tgt : ImageChunk) :
    Except Stop (List ImageChunk × ImageChunk) :=
  if tgt.type = .deflate then do
    let rebuilt ← reconstructDeflateChunk cod tgtImg tgt
    let found := findChunkByName tgt.filename srcs
    match rebuilt with
    | none =>
      pure (match found with
        | none => srcs
        | some i => srcs.modify i changeDeflateChunkToNormal, changeDeflateChunkToNormal tgt)
    | some tgt =>
      match found with
      | none => pure (srcs, changeDeflateChunkToNormal tgt)
      | some i => do
        let equal ← areChunksEqual tgtImg srcImg tgt (srcs.getD i (pseudoChunk srcImg))
        if equal then pure (srcs.modify i changeDeflateChunkToNormal, changeDeflateChunkToNormal tgt)
        else pure (srcs, tgt)
  else pure (srcs, tgt)

def demoteZip (cod : Codecs) (srcImg tgtImg : Bytes) :
    List ImageChunk → List ImageChunk → Except Stop (List ImageChunk × List ImageChunk)
  | srcs, [] => pure (srcs, [])
  | srcs, tgt :: tgts => do
    let (srcs, tgt) ← demoteEntry cod srcImg tgtImg srcs tgt
    let (srcs, tgts) ← demoteZip cod srcImg tgtImg srcs tgts
    pure (srcs, tgt :: tgts)

/-- The source chunk a target chunk is patched against: the pseudo chunk is the first. -/
def sourceIndex (srcs : List ImageChunk) (tgt : ImageChunk) : ℕ :=
  if tgt.type = .deflate then (findChunkByName tgt.filename srcs).getD 0 else 0

/-- The patches in zip mode. A source chunk keeps its suffix list for the next use. -/
def patchZip (srcImg tgtImg : Bytes) : List ImageChunk → List ImageChunk → Except Stop (List Patched)
  | _, [] => pure []
  | srcs, tgt :: tgts => do
    let i := sourceIndex srcs tgt
    let (src, tgt, patch) ← makePatch bz srcImg tgtImg (srcs.getD i (pseudoChunk srcImg)) tgt
    let ps ← patchZip srcImg tgtImg (srcs.set i src) tgts
    pure ((tgt, patch) :: ps)

def imgdiffZip (source target : Bytes) : Except Stop Bytes := do
  let src ← readZip cod source
  let tgt ← readZip cod target
  let (srcs, tgts) ← demoteZip cod source target (pseudoChunk source :: src) tgt
  let ps ← patchZip bz source target srcs (mergeAdjacent tgts)
  pure (imagePatch ps)

end Diff
end Recovery
