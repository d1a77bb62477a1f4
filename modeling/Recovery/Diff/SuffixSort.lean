/-
# Sorting the suffixes of the old data (bsdiff.c)

`qsufsort` refines the order of the suffixes, each time by twice as many bytes. `I` lists
them, `V` maps a suffix to the last position of its group, and a negative entry of `I` is
the length of a run of final places. `split` divides a group while `V` changes under its
hands. A load or a store outside of the arrays is a `fault`.
-/
import Recovery.Bytes
import Recovery.Lib.Arrays

namespace Recovery
namespace Diff

open Arrays

/-- The arrays of `qsufsort`. -/
structure Suffixes where
  I : List ℤ
  V : List ℤ
  deriving DecidableEq

def key (V : List ℤ) (h : ℕ) (I : List ℤ) (k : ℕ) : Except Stop ℤ := do
  let p ← load .fault I k
  load .fault V (p + h)

def number (I : List ℤ) (value : ℤ) : ℕ → ℕ → List ℤ → Except Stop (List ℤ)
  | 0, _, V => pure V
  | j + 1, k, V => do
    let p ← load .fault I k
    let V ← store .fault V p value
    number I value j (k + 1) V

/-- Make a group of the `j` suffixes at `k`; a group of one is final. -/
def settle (k j : ℕ) (s : Suffixes) : Except Stop Suffixes := do
  let V ← number s.I ((k + j : ℤ) - 1) j k s.V
  let I ← (if j = 1 then store .fault s.I k (-1) else pure s.I)
  pure ⟨I, V⟩

/-- The loop of `split` over `i`: members with the smallest key go to `k`, counted in `j`. -/
def gather (V : List ℤ) (h k : ℕ) : ℕ → ℕ → ℕ → ℤ → List ℤ → Except Stop (ℕ × List ℤ)
  | 0, _, j, _, I => pure (j, I)
  | n + 1, i, j, x, I => do
    let v ← key V h I (k + i)
    if v < x then do
      let I ← swap .fault I k (k + i)
      gather V h k n (i + 1) 1 v I
    else if v = x then do
      let I ← swap .fault I (k + j) (k + i)
      gather V h k n (i + 1) (j + 1) x I
    else gather V h k n (i + 1) j x I

def splitSmall (h stop : ℕ) : ℕ → ℕ → Suffixes → Except Stop Suffixes
  | 0, _, _ => .error .hang
  | n + 1, k, s =>
    if k < stop then do
      let x ← key s.V h s.I k
      let (j, I) ← gather s.V h k (stop - (k + 1)) 1 1 x s.I
      let s ← settle k j ⟨I, s.V⟩
      splitSmall h stop n (k + j) s
    else pure s

/-- How many keys are smaller than the pivot, and how many equal it. -/
def countKeys (s : Suffixes) (h : ℕ) (x : ℤ) : ℕ → ℕ → ℕ → ℕ → Except Stop (ℕ × ℕ)
  | 0, _, jj, kk => pure (jj, kk)
  | n + 1, i, jj, kk => do
    let v ← key s.V h s.I i
    countKeys s h x n (i + 1) (if v < x then jj + 1 else jj) (if v = x then kk + 1 else kk)

/-- The loop of `split` that fills the places below `jj`. -/
def partLess (V : List ℤ) (h : ℕ) (x : ℤ) (jj kk : ℕ) : ℕ → ℕ → ℕ → ℕ → List ℤ → Except Stop (ℕ × ℕ × List ℤ)
  | 0, _, _, _, _ => .error .hang
  | n + 1, i, j, k, I =>
    if i < jj then do
      let v ← key V h I i
      if v < x then partLess V h x jj kk n (i + 1) j k I
      else if v = x then do
        let I ← swap .fault I i (jj + j)
        partLess V h x jj kk n i (j + 1) k I
      else do
        let I ← swap .fault I i (kk + k)
        partLess V h x jj kk n i j (k + 1) I
    else pure (j, k, I)

/-- The loop of `split` that fills the places between `jj` and `kk`. -/
def partEqual (V : List ℤ) (h : ℕ) (x : ℤ) (jj kk : ℕ) : ℕ → ℕ → ℕ → List ℤ → Except Stop (List ℤ)
  | 0, _, _, _ => .error .hang
  | n + 1, j, k, I =>
    if jj + j < kk then do
      let v ← key V h I (jj + j)
      if v = x then partEqual V h x jj kk n (j + 1) k I
      else do
        let I ← swap .fault I (jj + j) (kk + k)
        partEqual V h x jj kk n j (k + 1) I
    else pure I

/-- Divide the group of `len` suffixes at `start`. -/
def split (h : ℕ) : ℕ → ℕ → ℕ → Suffixes → Except Stop Suffixes
  | 0, _, _, _ => .error .hang
  | n + 1, start, len, s =>
    if len < 16 then splitSmall h (start + len) (len + 1) start s
    else do
      let x ← key s.V h s.I (start + len / 2)
      let (less, equal) ← countKeys s h x len start 0 0
      let jj := start + less
      let kk := jj + equal
      let (j, k, I) ← partLess s.V h x jj kk (len + 1) start 0 0 s.I
      let I ← partEqual s.V h x jj kk (len + 1) j k I
      let s ← (if start < jj then split h n start (jj - start) ⟨I, s.V⟩ else pure ⟨I, s.V⟩)
      let s ← settle jj (kk - jj) s
      if kk < start + len then split h n kk (start + len - kk) s else pure s

/-! ### The first order, by buckets -/

def countBytes : Bytes → List ℕ → List ℕ
  | [], buckets => buckets
  | c :: old, buckets => countBytes old (buckets.set c.toNat (val buckets c.toNat + 1))

/-- `buckets[i]+=buckets[i-1]`, for `n` buckets from `i+1` on. -/
def sumBuckets : ℕ → ℕ → List ℕ → List ℕ
  | 0, _, buckets => buckets
  | n + 1, i, buckets => sumBuckets n (i + 1) (buckets.set (i + 1) (val buckets (i + 1) + val buckets i))

/-- `buckets[i]=buckets[i-1]` from `i` down, and `buckets[0]=0`. -/
def shiftBuckets : ℕ → List ℕ → List ℕ
  | 0, buckets => buckets.set 0 0
  | i + 1, buckets => shiftBuckets i (buckets.set (i + 1) (val buckets i))

/-- `I[++buckets[old[i]]]=i` for each byte from the `i`-th on. -/
def placeBytes : ℕ → Bytes → List ℕ → List ℤ → Except Stop (List ℕ × List ℤ)
  | _, [], buckets, I => pure (buckets, I)
  | i, c :: old, buckets, I => do
    let I ← store .fault I ((val buckets c.toNat + 1 : ℕ) : ℤ) i
    placeBytes (i + 1) old (buckets.set c.toNat (val buckets c.toNat + 1)) I

/-- `V[i]=buckets[old[i]]` for each byte from the `i`-th on. -/
def rankBytes (buckets : List ℕ) : ℕ → Bytes → List ℤ → Except Stop (List ℤ)
  | _, [], V => pure V
  | i, c :: old, V => do
    let V ← store .fault V i (val buckets c.toNat : ℕ)
    rankBytes buckets (i + 1) old V

/-- The buckets of one suffix, for `n` buckets from `i+1` on. -/
def markBuckets (buckets : List ℕ) : ℕ → ℕ → List ℤ → Except Stop (List ℤ)
  | 0, _, I => pure I
  | n + 1, i, I => do
    let I ← (if val buckets (i + 1) = val buckets i + 1 then store .fault I (val buckets (i + 1) : ℕ) (-1) else pure I)
    markBuckets buckets n (i + 1) I

def bucketSort (s : Suffixes) (old : Bytes) : Except Stop Suffixes := do
  let buckets := countBytes old (List.replicate 256 0)
  let buckets := shiftBuckets 255 (sumBuckets 255 0 buckets)
  let (buckets, I) ← placeBytes 0 old buckets s.I
  let I ← store .fault I 0 old.length
  let V ← rankBytes buckets 0 old s.V
  let V ← store .fault V old.length 0
  let I ← markBuckets buckets 255 0 I
  let I ← store .fault I 0 (-1)
  pure ⟨I, V⟩

/-! ### The refinement -/

def closeRun (i len : ℤ) (I : List ℤ) : Except Stop (List ℤ) :=
  if len ≠ 0 then store .fault I (i - len) (-len) else pure I

/-- One pass over the groups from `i` on, behind a run of `len` final places. -/
def scanGroups (oldsize h : ℕ) : ℕ → ℤ → ℤ → Suffixes → Except Stop Suffixes
  | 0, _, _, _ => .error .hang
  | n + 1, i, len, s =>
    if i < oldsize + 1 then do
      let p ← load .fault s.I i
      if p < 0 then scanGroups oldsize h n (i - p) (len - p) s
      else do
        let I ← closeRun i len s.I
        let v ← load .fault s.V p
        let s ← split h ((v + 1 - i).toNat + 1) i.toNat (v + 1 - i).toNat ⟨I, s.V⟩
        scanGroups oldsize h n (i + (v + 1 - i)) 0 s
    else do
      let I ← closeRun i len s.I
      pure ⟨I, s.V⟩

def refineLoop (oldsize : ℕ) : ℕ → ℕ → Suffixes → Except Stop Suffixes
  | 0, _, _ => .error .hang
  | n + 1, h, s => do
    let first ← load .fault s.I 0
    if first = -(oldsize + 1) then pure s
    else do
      let s ← scanGroups oldsize h (oldsize + 2) 0 0 s
      refineLoop oldsize n (h + h) s

/-- `I[V[i]]=i`, for `n` suffixes from `i` on. -/
def invert (V : List ℤ) : ℕ → ℕ → List ℤ → Except Stop (List ℤ)
  | 0, _, I => pure I
  | n + 1, i, I => do
    let v ← load .fault V i
    let I ← store .fault I v i
    invert V n (i + 1) I

/-- `qsufsort`, on arrays with any contents. -/
def qsufsort (s : Suffixes) (old : Bytes) : Except Stop (List ℤ) := do
  let s ← bucketSort s old
  let s ← refineLoop old.length (old.length + 3) 1 s
  invert s.V (old.length + 1) 0 s.I

end Diff
end Recovery
