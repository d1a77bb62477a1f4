/-
# Making a bsdiff patch (bsdiff.c)

The encoder searches the suffixes of the old data for matches. Where a match is good enough
it closes a block: a control triple, the differences to the old data and the extra bytes.
Which matches are found only matters for the size of the patch. `off_t` is an integer: the
tool runs on a host where it has 64 bits.
-/
import Recovery.Diff.SuffixSort

namespace Recovery
namespace Diff

open Arrays

/-- The number of bytes two buffers have in common at their start. -/
def matchlen : Bytes → Bytes → ℕ
  | a :: old, b :: new => if a = b then matchlen old new + 1 else 0
  | _, _ => 0

/-- `memcmp(old,new,MIN(oldsize,newsize))<0`. -/
def memcmpLess : Bytes → Bytes → Bool
  | a :: old, b :: new => if a = b then memcmpLess old new else a < b
  | _, _ => false

def suffixAt (old : Bytes) (p : ℤ) : Except Stop Bytes :=
  if 0 ≤ p ∧ p ≤ old.length then .ok (old.drop p.toNat) else .error .fault

/-- The length of a match for the beginning of `new`, and its position. -/
def search (I : List ℤ) (old new : Bytes) : ℕ → ℕ → ℕ → Except Stop (ℤ × ℤ)
  | 0, _, _ => .error .hang
  | n + 1, st, en =>
    if en - st < 2 then do
      let p ← load .fault I st
      let a ← suffixAt old p
      let q ← load .fault I en
      let b ← suffixAt old q
      if matchlen a new > matchlen b new then pure (matchlen a new, p) else pure (matchlen b new, q)
    else do
      let p ← load .fault I (st + (en - st) / 2 : ℕ)
      let a ← suffixAt old p
      if memcmpLess a new then search I old new n (st + (en - st) / 2) en
      else search I old new n st (st + (en - st) / 2)

def offtout (x : ℤ) : Bytes :=
  let buf := LittleEndian.toBytes 8 x.natAbs
  if x < 0 then buf.set 7 (val buf 7 ||| 0x80) else buf

section Encoder

variable (old new : Bytes)

/-- The old byte that the last match puts against the new one at `k` is the same. -/
def sameAt (lastoffset k : ℤ) : Except Stop Bool :=
  if k + lastoffset < old.length then do
    let a ← load .fault old (k + lastoffset)
    let b ← load .fault new k
    pure (a == b)
  else pure false

/-- `oldscore++` for the bytes from `scsc` on, as many as `n`. -/
def score (lastoffset : ℤ) : ℕ → ℤ → ℤ → Except Stop ℤ
  | 0, _, oldscore => pure oldscore
  | n + 1, scsc, oldscore => do
    let same ← sameAt old new lastoffset scsc
    score lastoffset n (scsc + 1) (if same then oldscore + 1 else oldscore)

/-- Where the search for a match stands. -/
structure Found where
  scan : ℤ
  len : ℤ
  pos : ℤ
  oldscore : ℤ
  deriving DecidableEq

/-- `for(scsc=scan+=len;scan<newsize;scan++)`. -/
def findMatch (I : List ℤ) (lastoffset : ℤ) : ℕ → ℤ → Found → Except Stop Found
  | 0, _, _ => .error .hang
  | n + 1, scsc, f =>
    if f.scan < new.length then do
      let (len, pos) ← search I old (new.drop f.scan.toNat) (old.length + 1) 0 old.length
      let oldscore ← score old new lastoffset (f.scan + len - scsc).toNat scsc f.oldscore
      if (len = oldscore ∧ len ≠ 0) ∨ len > oldscore + 8 then pure ⟨f.scan, len, pos, oldscore⟩
      else do
        let same ← sameAt old new lastoffset f.scan
        findMatch I lastoffset n (max scsc (f.scan + len))
          ⟨f.scan + 1, len, pos, if same then oldscore - 1 else oldscore⟩
    else pure f

def extendForward (scan lastscan lastpos : ℤ) : ℕ → ℤ → ℤ → ℤ → ℤ → Except Stop ℤ
  | 0, _, _, _, _ => .error .hang
  | n + 1, i, s, sf, lenf =>
    if lastscan + i < scan ∧ lastpos + i < old.length then do
      let a ← load .fault old (lastpos + i)
      let b ← load .fault new (lastscan + i)
      let s := if a = b then s + 1 else s
      if s * 2 - (i + 1) > sf * 2 - lenf then extendForward scan lastscan lastpos n (i + 1) s s (i + 1)
      else extendForward scan lastscan lastpos n (i + 1) s sf lenf
    else pure lenf

def extendBackward (scan lastscan pos : ℤ) : ℕ → ℤ → ℤ → ℤ → ℤ → Except Stop ℤ
  | 0, _, _, _, _ => .error .hang
  | n + 1, i, s, sb, lenb =>
    if scan ≥ lastscan + i ∧ pos ≥ i then do
      let a ← load .fault old (pos - i)
      let b ← load .fault new (scan - i)
      let s := if a = b then s + 1 else s
      if s * 2 - i > sb * 2 - lenb then extendBackward scan lastscan pos n (i + 1) s s i
      else extendBackward scan lastscan pos n (i + 1) s sb lenb
    else pure lenb

/-- The loop for `lens`, over `n` more bytes of the overlap. -/
def splitOverlap (fnew fold gnew gold : ℤ) : ℕ → ℤ → ℤ → ℤ → ℤ → Except Stop ℤ
  | 0, _, _, _, lens => pure lens
  | n + 1, i, s, ss, lens => do
    let a ← load .fault new (fnew + i)
    let b ← load .fault old (fold + i)
    let c ← load .fault new (gnew + i)
    let d ← load .fault old (gold + i)
    let s := if a = b then s + 1 else s
    let s := if c = d then s - 1 else s
    if s > ss then splitOverlap fnew fold gnew gold n (i + 1) s s (i + 1)
    else splitOverlap fnew fold gnew gold n (i + 1) s ss lens

/-- The variables of the main loop. -/
structure Cursor where
  scan : ℤ
  len : ℤ
  pos : ℤ
  lastscan : ℤ
  lastpos : ℤ
  lastoffset : ℤ
  deriving DecidableEq

/-- What was written so far: the control triples, the differences and the extra bytes. -/
structure Streams where
  ctrl : List (ℤ × ℤ × ℤ)
  db : Bytes
  eb : Bytes
  deriving DecidableEq

/-- The lengths of the extensions, with their overlap split. -/
def blockLengths (c : Cursor) : Except Stop (ℤ × ℤ) := do
  let lenf ← extendForward old new c.scan c.lastscan c.lastpos ((c.scan - c.lastscan).toNat + 1) 0 0 0 0
  let lenb ← (if c.scan < new.length then
    extendBackward old new c.scan c.lastscan c.pos (c.pos.toNat + 1) 1 0 0 0 else pure 0)
  if c.lastscan + lenf > c.scan - lenb then do
    let overlap := (c.lastscan + lenf) - (c.scan - lenb)
    let lens ← splitOverlap old new (c.lastscan + lenf - overlap) (c.lastpos + lenf - overlap)
      (c.scan - lenb) (c.pos - lenb) overlap.toNat 0 0 0 0
    pure (lenf + (lens - overlap), lenb - lens)
  else pure (lenf, lenb)

def closeBlock (c : Cursor) (o : Streams) : Except Stop (Cursor × Streams) := do
  let (lenf, lenb) ← blockLengths old new c
  let extra := (c.scan - lenb) - (c.lastscan + lenf)
  -- the buffers for the differences and the extra bytes have room for one byte more than `new`
  failIf ((new.length : ℤ) + 1 < o.db.length + lenf ∨ (new.length : ℤ) + 1 < o.eb.length + extra) .fault
  let news ← slice new c.lastscan lenf.toNat
  let olds ← slice old c.lastpos lenf.toNat
  let extras ← slice new (c.lastscan + lenf) extra.toNat
  pure (⟨c.scan, c.len, c.pos, c.scan - lenb, c.pos - lenb, c.pos - c.scan⟩,
    ⟨o.ctrl ++ [(lenf, extra, (c.pos - lenb) - (c.lastpos + lenf))],
      o.db ++ List.zipWith (· - ·) news olds, o.eb ++ extras⟩)

def encodeLoop (I : List ℤ) : ℕ → Cursor → Streams → Except Stop Streams
  | 0, _, _ => .error .hang
  | n + 1, c, o =>
    if c.scan < new.length then do
      let f ← findMatch old new I c.lastoffset (new.length + 1) (c.scan + c.len) ⟨c.scan + c.len, c.len, c.pos, 0⟩
      let c := { c with scan := f.scan, len := f.len, pos := f.pos }
      if f.len ≠ f.oldscore ∨ f.scan = new.length then do
        let (c, o) ← closeBlock old new c o
        encodeLoop I n c o
      else encodeLoop I n c o
    else pure o

end Encoder

def tripleBytes (t : ℤ × ℤ × ℤ) : Bytes := offtout t.1 ++ offtout t.2.1 ++ offtout t.2.2

/-- The patch file, with the streams compressed by bzip2. -/
def patchFile (compress : Bytes → Bytes) (newsize : ℕ) (o : Streams) : Bytes :=
  let ctrl := compress (o.ctrl.flatMap tripleBytes)
  let diff := compress o.db
  lit "BSDIFF40" ++ offtout ctrl.length ++ offtout diff.length ++ offtout newsize ++ ctrl ++ diff ++ compress o.eb

/-- The suffix list, made unless the caller has it, and the patch. The first value of `pos`
stands for any. -/
def bsdiff (compress : Bytes → Bytes) (old : Bytes) (IP : Option (List ℤ)) (new : Bytes) :
    Except Stop (List ℤ × Bytes) := do
  let I ← (match IP with
    | some I => pure I
    | none => qsufsort ⟨List.replicate (old.length + 1) 0, List.replicate (old.length + 1) 0⟩ old)
  let o ← encodeLoop old new I (new.length + 2) ⟨0, 0, 0, 0, 0, 0⟩ ⟨[], [], []⟩
  pure (I, patchFile compress new.length o)

end Diff
end Recovery
