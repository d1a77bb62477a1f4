/-
# Applying an image patch (imgpatch.c)

A normal chunk is a bsdiff patch on a part of the source, a raw chunk is literal, a deflate
chunk inflates a part of the source, patches it and deflates the result. A normal chunk
writes first and hashes only what was written as a whole, a raw chunk hashes first. A
failure of a normal chunk is not looked at.
-/
import Recovery.Patch.BsPatch
import Recovery.Patch.System

namespace Recovery
namespace Patch

/-- A blob or a string of the script. -/
structure Value where
  isBlob : Bool
  data : Bytes
  size_lt : data.length < 2 ^ 31

/-- A sink takes bytes and answers how many; `τ` is what its token points to. -/
abbrev Sink (τ : Type) := τ → Bytes → Run (ℤ × τ)

/-- The token and the bytes fed to the hash. -/
structure Sunk (τ : Type) where
  token : τ
  ctx : Bytes

variable (cod : Codecs) {τ : Type} (sink : Sink τ)

/-- The second half of `ApplyBSDiffPatch`: write the new data, then hash it. -/
def sinkThenHash (newData : Bytes) (o : Sunk τ) : Run (ℤ × Sunk τ) := do
  let (accepted, token) ← sink o.token newData
  if accepted < newData.length then pure (1, { o with token })
  else pure (0, ⟨token, o.ctx ++ newData⟩)

def applyBSDiffPatch (old : OldData) (patch : Value) (patchOffset : ℤ) (o : Sunk τ) : Run (ℤ × Sunk τ) :=
  match applyBSDiffPatchMem cod old patch.data patchOffset with
  | .error (.ret _) => pure (-1, o)
  | .error stop => Crash.fail (.stop stop)
  | .ok newData => sinkThenHash sink newData o

/-- The outputs of a chunk. A normal chunk whose patch cannot be applied has none. -/
inductive Chunk
  | normal (newData : Option Bytes)
  | raw (data : Bytes)
  | deflate (pieces : List Bytes)

def chunkNormal : ℤ := 0
def chunkDeflate : ℤ := 2
def chunkRaw : ℤ := 3

def read4 (b : Bytes) (i : ℤ) : Except Stop ℤ := do
  let v ← sliceLE b i 4
  pure (s32 v)

def read8 (b : Bytes) (i : ℤ) : Except Stop ℤ := do
  let v ← sliceLE b i 8
  pure (u32 v)

/-- The output of `deflate`, through a buffer of `size` bytes. -/
def piecesOf (size : ℕ) : ℕ → Bytes → List Bytes
  | 0, out => [out]
  | n + 1, out => if out.length < size then [out] else out.take size :: piecesOf size n (out.drop size)

/-- A normal chunk, whose header begins at `pos`. -/
def normalChunk (old : Bytes) (patch : Bytes) (pos : ℤ) : Except Stop (Chunk × ℤ) := do
  failIf (s32 (pos + 24) > patch.length) (.ret (-1))
  let srcStart ← read8 patch pos
  let srcLen ← read8 patch (pos + 8)
  let patchOffset ← read8 patch (pos + 16)
  match applyBSDiffPatchMem cod ⟨old, srcStart, s32 srcLen⟩ patch (s32 patchOffset) with
  | .error (.ret _) => pure (.normal none, pos + 24)
  | .error stop => .error stop
  | .ok newData => pure (.normal (some newData), pos + 24)

def rawChunk (patch : Bytes) (pos : ℤ) : Except Stop (Chunk × ℤ) := do
  failIf (s32 (pos + 4) > patch.length) (.ret (-1))
  let dataLen ← read4 patch pos
  failIf (s32 (pos + 4 + dataLen) > patch.length) (.ret (-1))
  -- `SHA_update` counts a negative length down through the whole memory
  failIf (dataLen < 0) .fault
  let data ← slice patch (pos + 4) dataLen.toNat
  pure (.raw data, pos + 4 + dataLen)

/-- The expanded source of a deflate chunk. -/
def expandSource (old : Bytes) (srcStart srcLen expandedLen : ℤ) (bonus : Bytes) : Except Stop Bytes := do
  let input := inputAt old (s32 srcStart) srcLen
  let (ret, out) := cod.inflate input.bytes expandedLen.toNat
  -- the library wanted more input than there is
  failIf (input.overruns ∧ ret ≠ zStreamEnd ∧ (out.length : ℤ) < expandedLen) .fault
  failIf (ret ≠ zStreamEnd) (.ret (-1))
  failIf (expandedLen - out.length ≠ bonus.length) (.ret (-1))
  pure (out ++ bonus)

def deflateChunk (old : Bytes) (patch : Bytes) (bonus : Bytes) (pos : ℤ) : Except Stop (Chunk × ℤ) := do
  failIf (s32 (pos + 60) > patch.length) (.ret (-1))
  let srcStart ← read8 patch pos
  let srcLen ← read8 patch (pos + 8)
  let patchOffset ← read8 patch (pos + 16)
  let expandedLen ← read8 patch (pos + 24)
  let level ← read4 patch (pos + 40)
  let method ← read4 patch (pos + 44)
  let windowBits ← read4 patch (pos + 48)
  let memLevel ← read4 patch (pos + 52)
  let strategy ← read4 patch (pos + 56)
  let expandedSource ← expandSource cod old srcStart srcLen expandedLen bonus
  let target ← orReturn (-1)
    (applyBSDiffPatchMem cod ⟨expandedSource, 0, s32 expandedLen⟩ patch (s32 patchOffset))
  let tempSize := max 32768 (s32 expandedLen).toNat
  match cod.deflate ⟨level, method, windowBits, memLevel, strategy⟩ target with
  -- `deflate` without a stream never ends it
  | none => .error .hang
  | some out => pure (.deflate (piecesOf tempSize out.length out), pos + 60)

/-- The chunk whose record begins at `pos`, and where the next record begins. -/
def chunkAt (old : Bytes) (patch : Bytes) (bonusData : Option Value) (i : ℕ) (pos : ℤ) :
    Except Stop (Chunk × ℤ) := do
  failIf (s32 (pos + 4) > patch.length) (.ret (-1))
  let type ← read4 patch pos
  if type = chunkNormal then normalChunk cod old patch (pos + 4)
  else if type = chunkRaw then rawChunk patch (pos + 4)
  else if type = chunkDeflate then
    deflateChunk cod old patch (if i = 1 then (bonusData.map (·.data)).getD [] else []) (pos + 4)
  else .error (.ret (-1))

/-- The pieces of a deflate chunk: write and hash each. -/
def sinkPieces : List Bytes → Sunk τ → Run (ℤ × Sunk τ)
  | [], o => pure (0, o)
  | piece :: rest, o => do
    let (accepted, token) ← sink o.token piece
    if accepted ≠ piece.length then pure (-1, { o with token })
    else sinkPieces rest ⟨token, o.ctx ++ piece⟩

/-- The effects of a chunk: what `ApplyImagePatch` returns at once, or 0 to go on. -/
def sinkChunk : Chunk → Sunk τ → Run (ℤ × Sunk τ)
  | .normal none, o => pure (0, o)
  | .normal (some newData), o => do
    let (_, o) ← sinkThenHash sink newData o
    pure (0, o)
  | .raw data, o => do
    let (accepted, token) ← sink o.token data
    pure (if accepted ≠ data.length then -1 else 0, ⟨token, o.ctx ++ data⟩)
  | .deflate pieces, o => sinkPieces sink pieces o

/-- The loop of `ApplyImagePatch` over the `n` chunks from the `i`-th on. -/
def imageLoop (old : Bytes) (patch : Bytes) (bonusData : Option Value) : ℕ → ℕ → ℤ → Sunk τ → Run (ℤ × Sunk τ)
  | 0, _, _, o => pure (0, o)
  | n + 1, i, pos, o =>
    match chunkAt cod old patch bonusData i pos with
    | .error (.ret code) => pure (code, o)
    | .error stop => Crash.fail (.stop stop)
    | .ok (chunk, pos) => do
      let (ret, o) ← sinkChunk sink chunk o
      if ret ≠ 0 then pure (ret, o) else imageLoop old patch bonusData n (i + 1) pos o

def applyImagePatch (old : Bytes) (patch : Value) (bonusData : Option Value) (o : Sunk τ) : Run (ℤ × Sunk τ) :=
  if patch.data.length < 12 then pure (-1, o)
  else if patch.data.take 8 ≠ lit "IMGDIFF2" then pure (-1, o)
  else do
    let numChunks ← ofExcept (read4 patch.data 8)
    imageLoop cod sink old patch.data bonusData numChunks.toNat 0 12 o

end Patch
end Recovery
