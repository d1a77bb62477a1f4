/-
# Applying a bsdiff patch (bspatch.c)

The decoder reads a triple `(x, y, z)`, adds `x` bytes of the old data to `x` bytes of the
difference stream, copies `y` bytes of the extra stream and moves `z` bytes on in the old
data. It stops with `fault` where the C code leaves a buffer.
-/
import Recovery.Bytes

namespace Recovery
namespace Patch

/-- The parameters of `deflateInit2`. -/
structure DeflateParams where
  level : ℤ
  method : ℤ
  windowBits : ℤ
  memLevel : ℤ
  strategy : ℤ
  deriving DecidableEq

def bzOk : ℤ := 0
def bzStreamEnd : ℤ := 4
def zOk : ℤ := 0
def zStreamEnd : ℤ := 1

/-- The compression libraries and the width of `off_t`. A call with room for `n` bytes gives
its code, its output and the stream after it; `deflate` gives the whole output or refuses.
`steps` bounds the loops of the libraries. -/
structure Codecs where
  BzStream : Type
  bzInit : Bytes → BzStream
  bzDecompress : BzStream → ℕ → ℤ × Bytes × BzStream
  bzDecompress_le : ∀ st n, (bzDecompress st n).2.1.length ≤ n
  inflate : Bytes → ℕ → ℤ × Bytes
  inflate_le : ∀ b n, (inflate b n).2.length ≤ n
  deflate : DeflateParams → Bytes → Option Bytes
  offBits : ℕ
  offBits_le : 32 ≤ offBits
  steps : ℕ

/-- An input whose announced length may leave the buffer it lies in. -/
structure Input where
  bytes : Bytes
  overruns : Bool

/-- The `len` bytes at `off`, as far as they are in the buffer. -/
def inputAt (b : Bytes) (off len : ℤ) : Input :=
  if 0 ≤ off then ⟨(b.drop off.toNat).take len.toNat, b.length < off + len⟩ else ⟨[], 0 < len⟩

/-- A function that returns `code` when a function it calls fails. -/
def orReturn {α : Type} (code : ℤ) : Except Stop α → Except Stop α
  | .error (.ret _) => .error (.ret code)
  | r => r

variable (cod : Codecs)

def off (x : ℤ) : ℤ := x.bmod (2 ^ cod.offBits)

/-- Eight bytes, the highest bit of which is a sign. -/
def offtin (buf : Bytes) : ℤ :=
  let v := LittleEndian.ofBytes (buf.take 8)
  off cod (if 2 ^ 63 ≤ v then -((v - 2 ^ 63 : ℕ) : ℤ) else v)

/-- A stream and whether its announced input leaves the patch. -/
structure Stream where
  st : cod.BzStream
  overruns : Bool

def openStream (patch : Bytes) (off len : ℤ) : Stream cod :=
  let input := inputAt patch (s32 off) (u32 len)
  ⟨cod.bzInit input.bytes, input.overruns⟩

/-- The loop of `FillBuffer`: `avail` bytes are wanted, with room for `room`. -/
def fillLoop (room : ℕ) : ℕ → ℕ → Bytes → Stream cod → Except Stop (Bytes × Stream cod)
  | _, 0, acc, s => .ok (acc, s)
  | 0, _ + 1, _, _ => .error .hang
  | n + 1, avail + 1, acc, s =>
    let (bzerr, out, st) := cod.bzDecompress s.st (avail + 1)
    if bzerr ≠ bzOk ∧ bzerr ≠ bzStreamEnd then .error (.ret (-1))
    else if room < acc.length + out.length then .error .fault
    -- the input is used up: the library reads on, or every further call does nothing
    else if bzerr = bzOk ∧ out.length < avail + 1 ∧ s.overruns then .error .fault
    else if bzerr = bzOk ∧ out = [] then .error .hang
    else fillLoop room n (avail + 1 - out.length) (acc ++ out) ⟨st, s.overruns⟩

def fillBuffer (room size : ℕ) (s : Stream cod) : Except Stop (Bytes × Stream cod) :=
  fillLoop cod room (size + 2) size [] s

/-- The old data as the decoder sees it: `size` bytes from `start` on in a buffer. -/
structure OldData where
  buf : Bytes
  start : ℤ
  size : ℤ

def OldData.whole (b : Bytes) : OldData := ⟨b, 0, b.length⟩

/-- Add old data from `pos` on to the bytes of the difference stream. -/
def addOld (old : OldData) (pos : ℤ) : ℕ → Bytes → Except Stop Bytes
  | _, [] => pure []
  | i, d :: ds => do
    let o ← (if 0 ≤ off cod (pos + i) ∧ off cod (pos + i) < old.size then
      slice old.buf (s32 (old.start + off cod (pos + i))) 1 else pure [0])
    let ds ← addOld old pos (i + 1) ds
    pure ((d + o.headD 0) :: ds)

/-- The loop of `ApplyBSDiffPatchMem`, with the new data written so far. -/
def bsLoop (old : OldData) (newSize : ℤ) :
    ℕ → Bytes → ℤ → Stream cod → Stream cod → Stream cod → Except Stop Bytes
  | 0, _, _, _, _, _ => .error .hang
  | n + 1, new, oldpos, cstream, dstream, estream =>
    if (new.length : ℤ) < newSize then do
      let (buf, cstream) ← orReturn 1 (fillBuffer cod 24 24 cstream)
      let ctrl0 := offtin cod buf
      let ctrl1 := offtin cod (buf.drop 8)
      let ctrl2 := offtin cod (buf.drop 16)
      failIf (ctrl0 < 0 ∨ ctrl1 < 0) (.ret 1)
      failIf (off cod (new.length + ctrl0) > newSize) (.ret 1)
      -- the `size` of `FillBuffer` is an `int`
      let (diff, dstream) ← orReturn 1 (fillBuffer cod (newSize - new.length).toNat (u32 ctrl0).toNat dstream)
      -- the sum above overflowed: the loop over `ctrl[0]` bytes runs on behind the new data
      failIf (newSize < new.length + ctrl0) .fault
      let diff ← addOld cod old oldpos 0 diff
      let new := new ++ diff
      let oldpos := off cod (oldpos + ctrl0)
      failIf (off cod (new.length + ctrl1) > newSize) (.ret 1)
      let (extra, estream) ← orReturn 1 (fillBuffer cod (newSize - new.length).toNat (u32 ctrl1).toNat estream)
      -- it overflowed: `newpos` leaves the new data
      failIf (newSize < new.length + ctrl1) .fault
      bsLoop old newSize n (new ++ extra) (off cod (oldpos + ctrl2)) cstream dstream estream
    else pure new

def applyBSDiffPatchMem (old : OldData) (patch : Bytes) (patchOffset : ℤ) : Except Stop Bytes := do
  let magic ← slice patch patchOffset 8
  failIf (magic ≠ lit "BSDIFF40") (.ret 1)
  let header ← slice patch patchOffset 32
  let ctrlLen := s32 (offtin cod (header.drop 8))
  let dataLen := s32 (offtin cod (header.drop 16))
  let newSize := s32 (offtin cod (header.drop 24))
  failIf (ctrlLen < 0 ∨ dataLen < 0 ∨ newSize < 0) (.ret 1)
  let cstream := openStream cod patch (patchOffset + 32) ctrlLen
  let dstream := openStream cod patch (patchOffset + 32 + ctrlLen) dataLen
  let estream := openStream cod patch (patchOffset + 32 + ctrlLen + dataLen)
    ((patch.length : ℤ) - (patchOffset + 32 + ctrlLen + dataLen))
  bsLoop cod old newSize cod.steps [] 0 cstream dstream estream

end Patch
end Recovery
