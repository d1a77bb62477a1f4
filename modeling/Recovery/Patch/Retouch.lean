/-
# Masking of retouched libraries (Retouch.c)

A prelinked library can carry a list of its relocated words ("RETOUCH "). applypatch hashes
a file after writing every listed word back: `retouch_mask_data` decodes the list, which
stands in front of two records, and patches the words in place.
-/
import Recovery.Bytes

namespace Recovery
namespace Patch

/-- `sizeof(prelink_info_t)` and `sizeof(retouch_info_t)`. -/
def prelinkInfoSize : ℕ := 8
def retouchInfoSize : ℕ := 12

/-- What `retouch_mask_data` answers. -/
inductive RetouchData
  | error
  | matched
  | mismatched
  | notApplicable
  deriving DecidableEq, Repr

def ofBytesBE (b : Bytes) : ℕ := LittleEndian.ofBytes b.reverse

/-- The state of the decoder: the offset and the contents of the last entry. -/
structure Decoder where
  offsPrev : ℤ
  contPrev : ℤ

/-- An encoded entry: two or three bytes for a delta to the last one, or eight. -/
def decodeBytes (st : Decoder) (input : Bytes) : ℤ × ℤ :=
  match input with
  | [b0, b1] =>
    let tmp : ℕ := (b0.toNat &&& 0x1f) <<< 8 ||| b1.toNat
    (s32 (st.offsPrev + (((b0.toNat &&& 0x60) >>> 5 : ℕ) + 1) * 4),
      u32 (st.contPrev + if tmp &&& 0x1000 ≠ 0 then (tmp : ℤ) - 0x2000 else tmp))
  | [b0, b1, b2] =>
    let tmp : ℕ := (b0.toNat &&& 0x0f) <<< 16 ||| b1.toNat <<< 8 ||| b2.toNat
    (s32 (st.offsPrev + (((b0.toNat &&& 0x30) >>> 4 : ℕ) + 1) * 4),
      u32 (st.contPrev + if tmp &&& 0x80000 ≠ 0 then (tmp : ℤ) - 0x100000 else tmp))
  | _ =>
    let offset := ofBytesBE (input.take 4)
    (if offset = 0x3fffffff then -1 else s32 offset, ofBytesBE (input.drop 4))

/-- The entry at `ptr`: its offset, its contents and where the next one begins. -/
def decodeInMemory (b : Bytes) (st : Decoder) (ptr : ℕ) : Except Stop (ℤ × ℤ × ℕ) := do
  let first ← sliceLE b ptr 1
  let inputSize := if first &&& 0x80 ≠ 0 then 2 else if first &&& 0x40 ≠ 0 then 3 else 8
  let input ← slice b ptr inputSize
  let (offset, contents) := decodeBytes st input
  pure (offset, contents, ptr + inputSize)

def pokeWord (b : Bytes) (i : ℤ) (v : ℤ) : Except Stop Bytes := do
  failIf (i < 0 ∨ (b.length : ℤ) < i + 4) .fault
  pure (b.take i.toNat ++ LittleEndian.toBytes 4 (u32 v).toNat ++ b.drop (i.toNat + 4))

/-- The loop from `ptr` to the record at `rOffs`: the answer, the data and the offset that
was found. -/
def maskLoop (desired : Option ℤ) (pOffs rOffs bOffs : ℤ) :
    ℕ → Bytes → Decoder → ℕ → Option ℤ → Bool → Except Stop (RetouchData × Bytes × Option ℤ)
  | 0, _, _, _, _, _ => .error .hang
  | n + 1, b, st, ptr, candidate, mismatch =>
    if (ptr : ℤ) < rOffs then do
      let (offset, contents, ptr) ← decodeInMemory b st ptr
      if offset < -1 ∨ bOffs ≤ offset then pure (.error, b, candidate)
      else do
        -- "-1" is the address in the prelink record
        let entry := if offset = -1 then pOffs else offset
        let b ← (match desired with
          | some target => pokeWord b entry (contents + target)
          | none => pure b)
        let word ← sliceLE b entry 4
        let offsetOfThisEntry := s32 (word - contents)
        maskLoop desired pOffs rOffs bOffs n b ⟨offset, contents⟩ ptr (some (candidate.getD offsetOfThisEntry))
          (mismatch || candidate.getD offsetOfThisEntry != offsetOfThisEntry)
    else if rOffs < ptr then pure (.error, b, candidate)
    else pure (if mismatch then .mismatched else .matched, b, candidate)

/-- The answer, the data with the words written, and the value for `*retouch_offset`.
`listStart` is the place in the data of `b_ptr = binary_object + b_offs`. -/
def retouchMaskDataFrom (listStart : ℤ → Except Stop ℕ) (b : Bytes) (desired : Option ℤ) :
    Except Stop (RetouchData × Bytes × ℤ) := do
  let targetOffset := desired.getD 0
  let notRetouched := if desired.isNone then RetouchData.notApplicable else .matched
  let pOffs : ℤ := b.length - prelinkInfoSize
  let rOffs : ℤ := pOffs - retouchInfoSize
  if rOffs < 0 then pure (notRetouched, b, targetOffset)
  else do
    let preTag ← slice b (pOffs + 4) 4
    let retouchTag ← slice b rOffs 8
    if preTag ≠ lit "PRE " ∨ retouchTag ≠ lit "RETOUCH " then pure (notRetouched, b, targetOffset)
    else do
      let blobSize ← sliceLE b (rOffs + 8) 4
      let bOffs := s32 (rOffs - blobSize)
      if bOffs < 0 then pure (.error, b, targetOffset)
      else do
        let ptr ← listStart bOffs
        let (answer, b, candidate) ← maskLoop desired pOffs rOffs bOffs (b.length + 1) b ⟨0, 0⟩ ptr none false
        pure (answer, b, if answer = .matched then candidate.getD targetOffset else targetOffset)

def retouchMaskData (b : Bytes) (desired : Option ℤ) : Except Stop (RetouchData × Bytes × ℤ) :=
  retouchMaskDataFrom (fun bOffs => .ok bOffs.toNat) b desired

/-- The data with every retouched word as it was at offset 0, unless the list is broken. -/
def maskData (b : Bytes) : Except Stop (Option Bytes) := do
  let (answer, b, _) ← retouchMaskData b (some 0)
  pure (if answer = .matched then some b else none)

/-! ### Masking stays in the data -/

theorem pokeWord_ok {b : Bytes} {i v : ℤ} (h0 : 0 ≤ i) (h1 : i + 4 ≤ b.length) :
    ∃ b', pokeWord b i v = .ok b' ∧ b'.length = b.length := by
  refine ⟨_, by simp only [pokeWord, failIf_bind, if_neg (show ¬ (i < 0 ∨ (b.length : ℤ) < i + 4) by omega)]; rfl, ?_⟩
  simp only [List.length_append, List.length_take, LittleEndian.length_toBytes, List.length_drop]
  omega

theorem decodeInMemory_ok {b : Bytes} (st : Decoder) {ptr : ℕ} (h : ptr + 8 ≤ b.length) :
    ∃ offset contents n, decodeInMemory b st ptr = .ok (offset, contents, ptr + n) ∧ 2 ≤ n := by
  have hfirst := sliceLE_eq_ok.mpr ⟨_, slice_of_le b (i := ptr) (n := 1) (by omega) (by omega), rfl⟩
  simp only [decodeInMemory, hfirst, ok_bind]
  set n := if LittleEndian.ofBytes ((b.drop (ptr : ℤ).toNat).take 1) &&& 0x80 ≠ 0 then 2
    else if LittleEndian.ofBytes ((b.drop (ptr : ℤ).toNat).take 1) &&& 0x40 ≠ 0 then 3 else 8 with hn
  have hn2 : 2 ≤ n ∧ n ≤ 8 := by
    rw [hn]
    split_ifs <;> omega
  rw [slice_of_le b (i := ptr) (n := n) (by omega) (by omega), ok_bind]
  exact ⟨_, _, n, rfl, hn2.1⟩

/-- The loop ends and keeps the size: the records leave room for an entry that runs over the end. -/
theorem maskLoop_ok (desired : Option ℤ) {pOffs rOffs bOffs : ℤ} {len : ℕ} (hp : pOffs + 8 = len)
    (hr : rOffs + 20 = len) (hr0 : 0 ≤ rOffs) : ∀ (n : ℕ) (b : Bytes) (st : Decoder) (ptr : ℕ) (c : Option ℤ) (mis : Bool),
    b.length = len → (bOffs ≤ rOffs ∨ rOffs < ptr) → 0 < n → len < n + ptr →
    ∃ r, maskLoop desired pOffs rOffs bOffs n b st ptr c mis = .ok r ∧ r.2.1.length = len
  | n + 1, b, st, ptr, c, mis, hb, hbr, _, hn => by
    unfold maskLoop
    by_cases h1 : (ptr : ℤ) < rOffs
    · rw [if_pos h1]
      obtain ⟨offset, contents, k, hdec, hk⟩ := decodeInMemory_ok st (show ptr + 8 ≤ b.length by omega)
      simp only [hdec, ok_bind]
      by_cases hbad : offset < -1 ∨ bOffs ≤ offset
      · rw [if_pos hbad]
        exact ⟨_, rfl, hb⟩
      rw [if_neg hbad]
      set entry := (if offset = -1 then pOffs else offset) with hentry
      have he : 0 ≤ entry ∧ entry + 4 ≤ len := by
        rw [hentry]
        split_ifs <;> omega
      obtain ⟨b', hb', hlen⟩ : ∃ b' : Bytes, (match desired with
          | some target => pokeWord b entry (contents + target)
          | none => pure b : Except Stop Bytes) = .ok b' ∧ b'.length = len := by
        cases desired with
        | none => exact ⟨b, rfl, hb⟩
        | some target => exact hb ▸ pokeWord_ok he.1 (by omega)
      have hword := sliceLE_eq_ok.mpr ⟨_, slice_of_le b' (i := entry) (n := 4) he.1 (by omega), rfl⟩
      rw [hb', ok_bind, hword, ok_bind]
      exact maskLoop_ok desired hp hr hr0 n b' _ (ptr + k) _ _ hlen (.inl (by omega)) (by omega) (by omega)
    · rw [if_neg h1]
      split_ifs
      all_goals exact ⟨_, rfl, hb⟩

/-- **`retouch_mask_data` always returns**, on any data, and keeps its size. -/
theorem retouchMaskData_ok (b : Bytes) (desired : Option ℤ) :
    ∃ r, retouchMaskData b desired = .ok r ∧ r.2.1.length = b.length := by
  have h8 : (prelinkInfoSize : ℤ) = 8 := rfl
  have h12 : (retouchInfoSize : ℤ) = 12 := rfl
  unfold retouchMaskData retouchMaskDataFrom
  set pOffs : ℤ := b.length - prelinkInfoSize with hp
  set rOffs : ℤ := pOffs - retouchInfoSize with hr
  generalize (if desired.isNone = true then RetouchData.notApplicable else .matched) = notRetouched
  simp only
  by_cases hr0 : rOffs < 0
  · rw [if_pos hr0]
    exact ⟨_, rfl, rfl⟩
  rw [if_neg hr0, slice_of_le b (by omega) (by omega), ok_bind, slice_of_le b (by omega) (by omega), ok_bind]
  split_ifs with htag
  · exact ⟨_, rfl, rfl⟩
  have hsize := sliceLE_eq_ok.mpr ⟨_, slice_of_le b (i := rOffs + 8) (n := 4) (by omega) (by omega), rfl⟩
  rw [hsize, ok_bind]
  set bOffs := s32 (rOffs - LittleEndian.ofBytes _) with hb
  by_cases hb0 : bOffs < 0
  · rw [if_pos hb0]
    exact ⟨_, rfl, rfl⟩
  rw [if_neg hb0, ok_bind]
  obtain ⟨⟨answer, b', c⟩, hloop, hlen⟩ : ∃ r, maskLoop desired pOffs rOffs bOffs (b.length + 1) b ⟨0, 0⟩ bOffs.toNat
      none false = .ok r ∧ r.2.1.length = b.length :=
    maskLoop_ok desired (by omega) (by omega) (by omega) _ _ _ _ _ _ rfl (by omega) (by omega) (by omega)
  rw [hloop, ok_bind]
  exact ⟨_, rfl, hlen⟩

theorem maskData_ok (b : Bytes) : ∃ r, maskData b = .ok r ∧ ∀ b', r = some b' → b'.length = b.length := by
  obtain ⟨⟨answer, b', c⟩, h, hlen⟩ := retouchMaskData_ok b (some 0)
  refine ⟨_, by simp only [maskData, h, ok_bind]; rfl, ?_⟩
  split_ifs
  · rintro _ ⟨⟩
    exact hlen
  · simp

end Patch
end Recovery
