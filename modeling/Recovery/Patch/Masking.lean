/-
# What masking depends on (Retouch.c)

`retouch_mask_data` decodes its list from the buffer it writes to. Here the list is read off
once (`readList`), and masking is the writing of its words (`pokeAll`).

Key theorems: `mask_mask`, `mask_destroys_tag`, `retouchMaskDataAt_ok`, `retouchMaskDataAt_wraps`.
-/
import Recovery.Patch.Retouch

namespace Recovery
namespace Patch

/-! ### The records and the list -/

/-- The data ends in the two records of a retouched library. -/
def Tagged (b : Bytes) : Prop :=
  20 ≤ b.length ∧ slice b (b.length - 4) 4 = .ok (lit "PRE ") ∧ slice b (b.length - 20) 8 = .ok (lit "RETOUCH ")

instance (b : Bytes) : Decidable (Tagged b) := inferInstanceAs (Decidable (_ ∧ _ ∧ _))

/-- Where the list begins by the record behind it: `b_offs`. -/
def listOffset (b : Bytes) : ℤ :=
  s32 (b.length - 20 - LittleEndian.ofBytes ((b.drop ((b.length : ℤ) - 12).toNat).take 4))

theorem retouchMaskDataFrom_eq (listStart : ℤ → Except Stop ℕ) (b : Bytes) (desired : Option ℤ) :
    retouchMaskDataFrom listStart b desired =
    if ¬ Tagged b then .ok (if desired.isNone then .notApplicable else .matched, b, desired.getD 0)
    else if listOffset b < 0 then .ok (.error, b, desired.getD 0)
    else listStart (listOffset b) >>= fun ptr =>
      maskLoop desired (b.length - 8) (b.length - 20) (listOffset b) (b.length + 1) b ⟨0, 0⟩ ptr none false >>= fun r =>
        .ok (r.1, r.2.1, if r.1 = .matched then r.2.2.getD (desired.getD 0) else desired.getD 0) := by
  have h8 : (b.length : ℤ) - prelinkInfoSize = b.length - 8 := rfl
  have h20 : (b.length : ℤ) - 8 - retouchInfoSize = b.length - 20 := by
    simp only [retouchInfoSize, Nat.cast_ofNat]
    omega
  simp only [retouchMaskDataFrom, h8, h20]
  by_cases hr : (b.length : ℤ) - 20 < 0
  · rw [if_pos hr, if_pos (fun h => by have := h.1; omega)]
    rfl
  have hpre : (b.length : ℤ) - 8 + 4 = b.length - 4 := by omega
  have hsize : (b.length : ℤ) - 20 + 8 = b.length - 12 := by omega
  have hblob := sliceLE_eq_ok.mpr ⟨_, slice_of_le b (i := b.length - 12) (n := 4) (by omega) (by omega), rfl⟩
  have h4 := slice_of_le b (i := b.length - 4) (n := 4) (by omega) (by omega)
  have h12 := slice_of_le b (i := b.length - 20) (n := 8) (by omega) (by omega)
  have hlen : 20 ≤ b.length := by omega
  simp only [hpre, hsize, hblob, Tagged, h4, h12, ok_bind, if_neg hr, Except.ok.injEq, hlen, true_and, not_and_or, ne_eq,
    listOffset]
  rfl

theorem retouchMaskData_eq (b : Bytes) (desired : Option ℤ) : retouchMaskData b desired =
    if ¬ Tagged b then .ok (if desired.isNone then .notApplicable else .matched, b, desired.getD 0)
    else if listOffset b < 0 then .ok (.error, b, desired.getD 0)
    else maskLoop desired (b.length - 8) (b.length - 20) (listOffset b) (b.length + 1) b ⟨0, 0⟩ (listOffset b).toNat none
      false >>= fun r => .ok (r.1, r.2.1, if r.1 = .matched then r.2.2.getD (desired.getD 0) else desired.getD 0) :=
  retouchMaskDataFrom_eq _ b desired

/-- The words that the list in `b` names from `ptr` on, and whether it was read to its end. -/
def readList (pOffs rOffs bOffs : ℤ) (b : Bytes) : ℕ → Decoder → ℕ → Except Stop (List (ℤ × ℤ) × Bool)
  | 0, _, _ => .error .hang
  | n + 1, st, ptr =>
    if (ptr : ℤ) < rOffs then do
      let (offset, contents, ptr) ← decodeInMemory b st ptr
      if offset < -1 ∨ bOffs ≤ offset then pure ([], false)
      else do
        let (rest, whole) ← readList pOffs rOffs bOffs b n ⟨offset, contents⟩ ptr
        pure ((if offset = -1 then pOffs else offset, contents) :: rest, whole)
    else pure ([], decide ((ptr : ℤ) = rOffs))

def listOf (b : Bytes) : Except Stop (List (ℤ × ℤ) × Bool) :=
  readList (b.length - 8) (b.length - 20) (listOffset b) b (b.length + 1) ⟨0, 0⟩ (listOffset b).toNat

/-- Every listed word is the address in the record, or ends in front of the list. -/
def WordsApart (b : Bytes) : Prop := Tagged b → ∀ words whole, listOf b = .ok (words, whole) →
  ∀ e ∈ words, e.1 = b.length - 8 ∨ e.1 + 4 ≤ listOffset b

/-! ### Writing the words -/

def poke (b : Bytes) (i v : ℤ) : Bytes :=
  b.take i.toNat ++ LittleEndian.toBytes 4 (u32 v).toNat ++ b.drop (i.toNat + 4)

/-- The data with every word written as it is at offset `d`. -/
def pokeAll (d : ℤ) : List (ℤ × ℤ) → Bytes → Bytes
  | [], b => b
  | e :: words, b => pokeAll d words (poke b e.1 (e.2 + d))

def Covered (words : List (ℤ × ℤ)) (k : ℕ) : Prop := ∃ e ∈ words, e.1 ≤ k ∧ k < e.1 + 4

def WordsInside (len : ℕ) (words : List (ℤ × ℤ)) : Prop := ∀ e ∈ words, 0 ≤ e.1 ∧ e.1 + 4 ≤ len

theorem pokeWord_eq {b : Bytes} {i : ℤ} (v : ℤ) (h0 : 0 ≤ i) (h1 : i + 4 ≤ b.length) : pokeWord b i v = .ok (poke b i v) := by
  simp only [pokeWord, failIf_bind, if_neg (show ¬ (i < 0 ∨ (b.length : ℤ) < i + 4) by omega)]
  rfl

section

variable {b b' : Bytes} {i : ℤ} {len : ℕ} {words : List (ℤ × ℤ)}

theorem length_poke (v : ℤ) (h0 : 0 ≤ i) (h1 : i + 4 ≤ b.length) : (poke b i v).length = b.length := by
  simp only [poke, List.length_append, List.length_take, LittleEndian.length_toBytes, List.length_drop]
  omega

theorem sliceLE_poke (v : ℤ) (h0 : 0 ≤ i) (h1 : i + 4 ≤ b.length) : sliceLE (poke b i v) i 4 = .ok (u32 v).toNat := by
  have hlt : (u32 v).toNat < 256 ^ 4 := by
    have h1 := Int.emod_lt_of_pos v (show (0 : ℤ) < 2 ^ 32 by norm_num)
    have h2 := Int.emod_nonneg v (show (2 ^ 32 : ℤ) ≠ 0 by norm_num)
    simp only [u32]
    omega
  refine sliceLE_eq_ok.mpr ⟨_, ?_, (LittleEndian.ofBytes_toBytes hlt).symm⟩
  rw [poke, List.append_assoc]
  refine slice_append _ _ _ ?_ (LittleEndian.length_toBytes _ _).symm
  rw [List.length_take]
  omega

theorem getElem?_poke (v : ℤ) (h0 : 0 ≤ i) (h1 : i + 4 ≤ b.length) (k : ℕ) : (poke b i v)[k]? =
    if i ≤ k ∧ k < i + 4 then (LittleEndian.toBytes 4 (u32 v).toNat)[k - i.toNat]? else b[k]? := by
  have htake : (b.take i.toNat).length = i.toNat := by
    rw [List.length_take]
    omega
  rw [poke, List.append_assoc]
  by_cases hk : (k : ℤ) < i
  · rw [if_neg (by omega), List.getElem?_append_left (by omega), List.getElem?_take_of_lt (by omega)]
  rw [List.getElem?_append_right (by omega), htake]
  by_cases hk4 : (k : ℤ) < i + 4
  · rw [if_pos ⟨by omega, hk4⟩, List.getElem?_append_left (by rw [LittleEndian.length_toBytes]; omega)]
  · rw [if_neg (by omega), List.getElem?_append_right (by rw [LittleEndian.length_toBytes]; omega), LittleEndian.length_toBytes,
      List.getElem?_drop]
    congr 1
    omega

theorem length_pokeAll (d : ℤ) : ∀ {words : List (ℤ × ℤ)} {b : Bytes}, WordsInside b.length words →
    (pokeAll d words b).length = b.length
  | [], _, _ => rfl
  | e :: words, b, h => by
    have he := h e List.mem_cons_self
    have hlen := length_poke (b := b) (e.2 + d) he.1 he.2
    rw [pokeAll, length_pokeAll d (fun e' he' => hlen ▸ h e' (List.mem_cons_of_mem _ he')), hlen]

theorem getElem?_pokeAll (d : ℤ) {k : ℕ} : ∀ {words : List (ℤ × ℤ)} {b : Bytes}, WordsInside b.length words → ¬ Covered words k →
    (pokeAll d words b)[k]? = b[k]?
  | [], _, _, _ => rfl
  | e :: words, b, h, hk => by
    have he := h e List.mem_cons_self
    have hlen := length_poke (b := b) (e.2 + d) he.1 he.2
    rw [pokeAll, getElem?_pokeAll d (fun e' he' => hlen ▸ h e' (List.mem_cons_of_mem _ he'))
      (fun ⟨e', he', hk'⟩ => hk ⟨e', List.mem_cons_of_mem _ he', hk'⟩), getElem?_poke _ he.1 he.2,
      if_neg (fun hk' => hk ⟨e, List.mem_cons_self, hk'⟩)]

theorem pokeAll_congr (d : ℤ) : ∀ {words : List (ℤ × ℤ)} {b b' : Bytes}, b.length = b'.length → WordsInside b.length words →
    (∀ k, ¬ Covered words k → b[k]? = b'[k]?) → pokeAll d words b = pokeAll d words b'
  | [], b, b', _, _, h => List.ext_getElem? fun k => h k (fun ⟨_, he, _⟩ => List.not_mem_nil he)
  | e :: words, b, b', hlen, hin, h => by
    have he := hin e List.mem_cons_self
    have hl := length_poke (b := b) (e.2 + d) he.1 he.2
    have hl' := length_poke (b := b') (e.2 + d) he.1 (hlen ▸ he.2)
    rw [pokeAll, pokeAll]
    refine pokeAll_congr d (by omega) (fun e' he' => hl ▸ hin e' (List.mem_cons_of_mem _ he')) fun k hk => ?_
    rw [getElem?_poke _ he.1 he.2, getElem?_poke _ he.1 (hlen ▸ he.2)]
    by_cases hke : e.1 ≤ k ∧ k < e.1 + 4
    · rw [if_pos hke, if_pos hke]
    · rw [if_neg hke, if_neg hke]
      refine h k fun ⟨e', he', hk'⟩ => ?_
      rcases List.mem_cons.mp he' with rfl | he'
      · exact hke hk'
      · exact hk ⟨e', he', hk'⟩

theorem pokeAll_pokeAll (d d' : ℤ) (h : WordsInside b.length words) :
    pokeAll d' words (pokeAll d words b) = pokeAll d' words b :=
  pokeAll_congr d' (length_pokeAll d h) ((length_pokeAll d h).symm ▸ h) fun _ hk => getElem?_pokeAll d h hk

/-! ### Masking is writing the words of the list -/

theorem slice_congr {n : ℕ} (hlen : b.length = b'.length) (h : ∀ k : ℕ, i ≤ k → k < i + n → b[k]? = b'[k]?) :
    slice b i n = slice b' i n := by
  unfold slice
  rw [hlen]
  refine if_ctx_congr Iff.rfl (fun hi => ?_) fun _ => rfl
  congr 1
  refine List.ext_getElem? fun k => ?_
  by_cases hk : k < n
  · rw [List.getElem?_take_of_lt hk, List.getElem?_take_of_lt hk, List.getElem?_drop, List.getElem?_drop,
      h (i.toNat + k) (by omega) (by omega)]
  · rw [List.getElem?_take_eq_none (by omega), List.getElem?_take_eq_none (by omega)]

theorem sliceLE_congr {n : ℕ} (hlen : b.length = b'.length) (h : ∀ k : ℕ, i ≤ k → k < i + n → b[k]? = b'[k]?) :
    sliceLE b i n = sliceLE b' i n := by
  rw [sliceLE, slice_congr hlen h, sliceLE]

/-- The two have the same list and the same records, the address in them apart. -/
def SameList (bOffs : ℤ) (b b' : Bytes) : Prop := b.length = b'.length ∧
  ∀ k : ℕ, bOffs ≤ k → ¬ ((b.length : ℤ) - 8 ≤ k ∧ (k : ℤ) < b.length - 4) → b[k]? = b'[k]?

theorem SameList.slice {n : ℕ} {bOffs : ℤ} (h : SameList bOffs b b') (hi : bOffs ≤ i)
    (hn : i + n ≤ b.length - 8 ∨ b.length - 4 ≤ i) : slice b i n = slice b' i n :=
  slice_congr h.1 fun k hk hk' => h.2 k (by omega) (by omega)

theorem SameList.sliceLE {n : ℕ} {bOffs : ℤ} (h : SameList bOffs b b') (hi : bOffs ≤ i)
    (hn : i + n ≤ b.length - 8 ∨ b.length - 4 ≤ i) : sliceLE b i n = sliceLE b' i n :=
  sliceLE_congr h.1 fun k hk hk' => h.2 k (by omega) (by omega)

theorem SameList.decodeInMemory {bOffs : ℤ} (h : SameList bOffs b b') (st : Decoder) {ptr : ℕ} (h0 : bOffs ≤ ptr)
    (h1 : (ptr : ℤ) < b.length - 20) : decodeInMemory b st ptr = decodeInMemory b' st ptr := by
  have hfirst := h.sliceLE (i := ptr) (n := 1) h0 (.inl (by omega))
  have h2 := h.slice (i := ptr) (n := 2) h0 (.inl (by omega))
  have h3 := h.slice (i := ptr) (n := 3) h0 (.inl (by omega))
  have h8 := h.slice (i := ptr) (n := 8) h0 (.inl (by omega))
  simp only [Patch.decodeInMemory, hfirst]
  refine bind_congr fun first => ?_
  split_ifs
  · rw [h2]
  · rw [h3]
  · rw [h8]

theorem sameList_poke {bOffs : ℤ} (v : ℤ) (h0 : 0 ≤ i) (h1 : i + 4 ≤ b.length)
    (happ : i = b.length - 8 ∨ i + 4 ≤ bOffs) (h : SameList bOffs b b') : SameList bOffs (poke b i v) b' := by
  refine ⟨(length_poke v h0 h1).trans h.1, fun k hk hk' => ?_⟩
  rw [length_poke v h0 h1] at hk'
  rw [getElem?_poke v h0 h1, if_neg (by omega), h.2 k hk hk']

theorem sameList_pokeAll {bOffs : ℤ} (d : ℤ) : ∀ {words : List (ℤ × ℤ)} {b : Bytes}, WordsInside b.length words →
    (∀ e ∈ words, e.1 = b.length - 8 ∨ e.1 + 4 ≤ bOffs) → SameList bOffs b b' → SameList bOffs (pokeAll d words b) b'
  | [], _, _, _, h => h
  | e :: words, b, hin, happ, h => by
    have he := hin e List.mem_cons_self
    have hl := length_poke (b := b) (e.2 + d) he.1 he.2
    rw [pokeAll]
    exact sameList_pokeAll d (fun e' he' => hl ▸ hin e' (List.mem_cons_of_mem _ he'))
      (fun e' he' => hl ▸ happ e' (List.mem_cons_of_mem _ he'))
      (sameList_poke _ he.1 he.2 (happ e List.mem_cons_self) h)

theorem offset_found (c d : ℤ) : s32 ((u32 (c + d)).toNat - c) = s32 d := by
  have h := Int.emod_nonneg (c + d) (show (2 ^ 32 : ℤ) ≠ 0 by norm_num)
  rw [u32, Int.toNat_of_nonneg h]
  simp only [s32]
  rw [show (2 : ℤ) ^ 32 = ((2 ^ 32 : ℕ) : ℤ) by norm_num, Int.emod_sub_bmod]
  congr 1
  omega

end

section

variable {b b' x : Bytes} {pOffs rOffs bOffs : ℤ}

theorem readList_ok (hr : rOffs + 20 = b.length) : ∀ (n : ℕ) (st : Decoder) (ptr : ℕ), 0 < n → b.length < n + ptr →
    ∃ words whole, readList pOffs rOffs bOffs b n st ptr = .ok (words, whole)
  | n + 1, st, ptr, _, hn => by
    unfold readList
    by_cases h1 : (ptr : ℤ) < rOffs
    · rw [if_pos h1]
      obtain ⟨offset, contents, k, hdec, hk⟩ := decodeInMemory_ok st (show ptr + 8 ≤ b.length by omega)
      simp only [hdec, ok_bind]
      by_cases hbad : offset < -1 ∨ bOffs ≤ offset
      · exact ⟨_, _, by rw [if_pos hbad]; rfl⟩
      · obtain ⟨words, whole, hrest⟩ := readList_ok hr n ⟨offset, contents⟩ (ptr + k) (by omega) (by omega)
        exact ⟨_, _, by rw [if_neg hbad, hrest]; rfl⟩
    · exact ⟨_, _, by rw [if_neg h1]; rfl⟩

theorem readList_cases {n : ℕ} {st : Decoder} {ptr : ℕ} {words : List (ℤ × ℤ)} {whole : Bool}
    (h : readList pOffs rOffs bOffs b (n + 1) st ptr = .ok (words, whole)) :
    (¬ (ptr : ℤ) < rOffs ∧ words = [] ∧ whole = decide ((ptr : ℤ) = rOffs)) ∨
    ∃ offset contents ptr', (ptr : ℤ) < rOffs ∧ decodeInMemory b st ptr = .ok (offset, contents, ptr') ∧
      ((offset < -1 ∨ bOffs ≤ offset) ∧ words = [] ∧ whole = false ∨
      ¬ (offset < -1 ∨ bOffs ≤ offset) ∧ ∃ rest, words = (if offset = -1 then pOffs else offset, contents) :: rest ∧
        readList pOffs rOffs bOffs b n ⟨offset, contents⟩ ptr' = .ok (rest, whole)) := by
  unfold readList at h
  by_cases h1 : (ptr : ℤ) < rOffs
  · rw [if_pos h1] at h
    obtain ⟨⟨offset, contents, ptr'⟩, hdec, h⟩ := bind_eq_ok.mp h
    refine .inr ⟨offset, contents, ptr', h1, hdec, ?_⟩
    by_cases hbad : offset < -1 ∨ bOffs ≤ offset
    · simp only [if_pos hbad, pure_eq_ok, Prod.mk.injEq] at h
      exact .inl ⟨hbad, h.1.symm, h.2.symm⟩
    · simp only [if_neg hbad] at h
      obtain ⟨⟨rest, whole'⟩, hrest, h⟩ := bind_eq_ok.mp h
      simp only [pure_eq_ok, Prod.mk.injEq] at h
      exact .inr ⟨hbad, rest, h.1.symm, h.2 ▸ hrest⟩
  · simp only [if_neg h1, pure_eq_ok, Prod.mk.injEq] at h
    exact .inl ⟨h1, h.1.symm, h.2.symm⟩

theorem decodeInMemory_le {st : Decoder} {ptr ptr' : ℕ} {offset contents : ℤ}
    (h : decodeInMemory b st ptr = .ok (offset, contents, ptr')) : ptr ≤ ptr' := by
  obtain ⟨first, _, h⟩ := bind_eq_ok.mp h
  obtain ⟨input, _, h⟩ := bind_eq_ok.mp h
  simp only [pure_eq_ok, Prod.mk.injEq] at h
  rw [← h.2.2]
  exact Nat.le_add_right _ _

theorem readList_nonneg (hp : 0 ≤ pOffs) : ∀ (n : ℕ) (st : Decoder) (ptr : ℕ) {words : List (ℤ × ℤ)} {whole : Bool},
    readList pOffs rOffs bOffs b n st ptr = .ok (words, whole) → ∀ e ∈ words, 0 ≤ e.1
  | 0, _, _, _, _, h => absurd h (by simp [readList])
  | n + 1, st, ptr, words, whole, h => by
    obtain ⟨-, rfl, -⟩ | ⟨offset, contents, ptr', -, -, ⟨-, rfl, -⟩ | ⟨hbad, rest, rfl, hrest⟩⟩ := readList_cases h
    · simp
    · simp
    · intro e he
      rcases List.mem_cons.mp he with rfl | he
      · simp only
        split_ifs <;> omega
      · exact readList_nonneg hp n _ _ hrest e he

/-- A list that names a word or is read to its end does not begin behind it. -/
theorem readList_start {n : ℕ} {st : Decoder} {ptr : ℕ} {words : List (ℤ × ℤ)} {whole : Bool}
    (h : readList pOffs rOffs bOffs b (n + 1) st ptr = .ok (words, whole)) (hw : whole = true ∨ words ≠ []) : ptr ≤ rOffs := by
  obtain ⟨-, rfl, rfl⟩ | ⟨offset, contents, ptr', hlt, -⟩ := readList_cases h
  · rcases hw with hw | hw
    · exact (of_decide_eq_true hw).le
    · exact absurd rfl hw
  · exact hlt.le

/-- The loop writes the words that the list names. By induction on the list, which the
writes do not change. -/
theorem maskLoop_eq (d : ℤ) : ∀ (n : ℕ) (b : Bytes) (st : Decoder) (ptr : ℕ) (c : Option ℤ) {words : List (ℤ × ℤ)} {whole : Bool},
    readList (x.length - 8) (x.length - 20) bOffs x n st ptr = .ok (words, whole) → SameList bOffs b x → bOffs ≤ ptr →
    WordsInside x.length words → (∀ e ∈ words, e.1 = x.length - 8 ∨ e.1 + 4 ≤ bOffs) → c = none ∨ c = some (s32 d) →
    maskLoop (some d) (x.length - 8) (x.length - 20) bOffs n b st ptr c false =
      .ok (if whole then .matched else .error, pokeAll d words b, if words.isEmpty then c else some (s32 d))
  | 0, _, _, _, _, _, _, h, _, _, _, _, _ => absurd h (by simp [readList])
  | n + 1, b, st, ptr, c, words, whole, h, hs, h0, hin, happ, hc => by
    unfold maskLoop
    obtain ⟨hend, rfl, rfl⟩ | ⟨offset, contents, ptr', hlt, hdec, hcase⟩ := readList_cases h
    · rw [if_neg hend]
      by_cases hgt : (x.length : ℤ) - 20 < ptr
      · rw [if_pos hgt, decide_eq_false (by omega)]
        rfl
      · rw [if_neg hgt, decide_eq_true (by omega)]
        rfl
    rw [if_pos hlt, hs.decodeInMemory st h0 (hs.1 ▸ hlt), hdec, ok_bind]
    obtain ⟨hbad, rfl, rfl⟩ | ⟨hbad, rest, rfl, hrest⟩ := hcase
    · simp only [if_pos hbad]
      rfl
    have hle := decodeInMemory_le hdec
    have he := hin _ List.mem_cons_self
    have hea := happ _ List.mem_cons_self
    simp only at he hea
    simp only [if_neg hbad]
    set entry := (if offset = -1 then (x.length : ℤ) - 8 else offset)
    have hb : entry + 4 ≤ b.length := hs.1 ▸ he.2
    rw [pokeWord_eq _ he.1 hb, ok_bind, sliceLE_poke _ he.1 hb, ok_bind, offset_found]
    have hfound : c.getD (s32 d) = s32 d := by
      rcases hc with rfl | rfl <;> rfl
    simp only [hfound, bne_self_eq_false, Bool.or_false]
    rw [maskLoop_eq d n _ _ _ _ hrest (sameList_poke _ he.1 hb (hs.1 ▸ hea) hs) (by omega)
      (fun e' he' => hin e' (List.mem_cons_of_mem _ he')) (fun e' he' => happ e' (List.mem_cons_of_mem _ he')) (.inr rfl)]
    simp [pokeAll]

end

/-- **Masking writes the words of the list**, where they are apart from it. -/
theorem retouchMaskData_words {x b : Bytes} {words : List (ℤ × ℤ)} {whole : Bool} (d : ℤ) (ht : Tagged b)
    (h0 : 0 ≤ listOffset x) (hlist : listOf x = .ok (words, whole)) (hin : WordsInside x.length words)
    (happ : ∀ e ∈ words, e.1 = x.length - 8 ∨ e.1 + 4 ≤ listOffset x) (hs : SameList (listOffset x) b x)
    (hoff : listOffset b = listOffset x) : retouchMaskData b (some d) =
      .ok (if whole then .matched else .error, pokeAll d words b, if whole ∧ ¬ words.isEmpty then s32 d else d) := by
  rw [retouchMaskData_eq, if_neg (not_not.mpr ht), if_neg (by omega), hoff, hs.1,
    maskLoop_eq d _ b _ _ none hlist hs (by omega) hin happ (.inl rfl), ok_bind]
  cases whole <;> cases words <;> simp

/-- **Masking forgets an offset that was masked in**: the data retouched for `d1`
and then for `d2` is the data retouched for `d2`, and applypatch hashes the same
bytes before and after. -/
theorem mask_mask {x x1 : Bytes} {d1 d2 o1 : ℤ} (ha : WordsApart x) (h : retouchMaskData x (some d1) = .ok (.matched, x1, o1)) :
    (∃ x2 o2, retouchMaskData x1 (some d2) = .ok (.matched, x2, o2) ∧ retouchMaskData x (some d2) = .ok (.matched, x2, o2)) ∧
    maskData x1 = maskData x := by
  suffices key : ∀ d, retouchMaskData x1 (some d) = retouchMaskData x (some d) ∧ ∃ x2 o2, retouchMaskData x (some d) =
      .ok (.matched, x2, o2) by
    obtain ⟨heq, x2, o2, h2⟩ := key d2
    exact ⟨⟨x2, o2, heq.trans h2, h2⟩, by rw [maskData, (key 0).1, maskData]⟩
  intro d
  by_cases ht : Tagged x
  swap
  · -- nothing was written
    rw [retouchMaskData_eq, if_pos ht] at h
    obtain ⟨-, rfl, -⟩ : RetouchData.matched = .matched ∧ x = x1 ∧ _ := by simpa using h
    exact ⟨rfl, x, d, by rw [retouchMaskData_eq, if_pos ht]; rfl⟩
  by_cases h0 : listOffset x < 0
  · rw [retouchMaskData_eq, if_neg (not_not.mpr ht), if_pos h0] at h
    simp at h
  have hlen := ht.1
  obtain ⟨words, whole, hlist⟩ : ∃ words whole, listOf x = .ok (words, whole) :=
    readList_ok (by omega) _ _ _ (by omega) (by omega)
  have happ := ha ht words whole hlist
  have hin : WordsInside x.length words := by
    intro e he
    have hstart := readList_start hlist (.inr (List.ne_nil_of_mem he))
    have hpos := readList_nonneg (by omega) _ _ _ hlist e he
    have := happ e he
    omega
  have hself : SameList (listOffset x) x x := ⟨rfl, fun _ _ _ => rfl⟩
  have hx := fun d => retouchMaskData_words (b := x) d ht (by omega) hlist hin happ hself rfl
  rw [hx] at h
  obtain ⟨rfl, rfl, -⟩ : whole = true ∧ pokeAll d1 words x = x1 ∧ _ := by simpa using h
  have hstart := readList_start hlist (.inl rfl)
  have hs := sameList_pokeAll d1 hin happ hself
  have hl := length_pokeAll d1 hin
  have ht1 : Tagged (pokeAll d1 words x) := by
    refine ⟨hl ▸ ht.1, ?_, ?_⟩
    · rw [hs.slice (by omega) (.inr (by omega)), hl]
      exact ht.2.1
    · rw [hs.slice (by omega) (.inl (by omega)), hl]
      exact ht.2.2
  have hoff : listOffset (pokeAll d1 words x) = listOffset x := by
    have hsize := hs.slice (i := x.length - 12) (n := 4) (by omega) (.inl (by omega))
    rw [slice_of_le _ (by omega) (by omega), slice_of_le _ (by omega) (by omega)] at hsize
    rw [listOffset, hl, Except.ok.inj hsize, listOffset]
  rw [hx, retouchMaskData_words (b := pokeAll d1 words x) d ht1 (by omega) hlist hin happ hs hoff, pokeAll_pokeAll d1 d hin]
  exact ⟨rfl, _, _, rfl⟩

/-- A library of eight bytes whose list names the word at 4. -/
def listedAtFour : Bytes := List.replicate 8 0 ++ [0x80, 0] ++ lit "RETOUCH " ++ [2, 0, 0, 0] ++ List.replicate 4 0 ++ lit "PRE "

theorem mask_mask_listedAtFour : maskData ((List.replicate 4 0 ++ [7, 0, 0, 0]) ++ listedAtFour.drop 8) = maskData listedAtFour := by
  have hlist : listOf listedAtFour = .ok ([(4, 0)], true) := by decide +kernel
  have happ : WordsApart listedAtFour := by
    intro _ words whole h e he
    obtain ⟨rfl, -⟩ : [(4, 0)] = words ∧ true = whole := by simpa [hlist] using h
    obtain rfl := List.mem_singleton.mp he
    exact .inr (by decide +kernel)
  have hmask : retouchMaskData listedAtFour (some 7) =
      .ok (.matched, (List.replicate 4 0 ++ [7, 0, 0, 0]) ++ listedAtFour.drop 8, 7) := by decide +kernel
  exact (@mask_mask _ _ 7 0 7 happ hmask).2

/-- A list whose word at 4 passes the check `offset < b_offs` and covers the tag behind it. -/
def listedAcross : Bytes := List.replicate 5 0 ++ [0x80, 0] ++ lit "RETOUCH " ++ [2, 0, 0, 0] ++ List.replicate 4 0 ++ lit "PRE "

/-- Masking it for any offset destroys the tag, so that it is not masked again:
retouched for 0 and then for 1 it is not as retouched for 1, and the bytes that
applypatch hashes depend on the offset. -/
theorem mask_destroys_tag : ∃ x1 x2 : Bytes, retouchMaskData listedAcross (some 0) = .ok (.matched, x1, 0) ∧
    retouchMaskData x1 (some 1) = .ok (.matched, x1, 1) ∧ retouchMaskData listedAcross (some 1) = .ok (.matched, x2, 1) ∧
    x1 ≠ x2 ∧ maskData x2 ≠ maskData listedAcross := by
  refine ⟨List.replicate 8 0 ++ listedAcross.drop 8, (List.replicate 4 0 ++ [1, 0, 0, 0]) ++ listedAcross.drop 8, ?_⟩
  decide +kernel

/-! ### Addresses -/

/-- The pointer of 32 bits to the list, as a place in data at `addr`. In front of the data
it is below `r_info` too, and the first entry is read there. -/
def listStartAt (addr : ℕ) (bOffs : ℤ) : Except Stop ℕ := do
  let bPtr := (addr + bOffs.toNat) % 2 ^ 32
  failIf (bPtr < addr) .fault
  pure (bPtr - addr)

/-- `retouch_mask_data` on data at an address. -/
def retouchMaskDataAt (addr : ℕ) (b : Bytes) (desired : Option ℤ) : Except Stop (RetouchData × Bytes × ℤ) :=
  retouchMaskDataFrom (listStartAt addr) b desired

section

variable {addr : ℕ} {bOffs : ℤ}

theorem listStartAt_fits (h0 : 0 ≤ bOffs) (h : addr + bOffs < 2 ^ 32) : listStartAt addr bOffs = .ok bOffs.toNat := by
  simp only [listStartAt, failIf_bind, Nat.mod_eq_of_lt (show addr + bOffs.toNat < 2 ^ 32 by omega)]
  rw [if_neg (by omega), Nat.add_sub_cancel_left]
  rfl

/-- `b_offs` is less than `2 ^ 31`, so that a pointer that wraps around is in front of the data. -/
theorem listStartAt_wraps (haddr : addr < 2 ^ 32) (hb : bOffs < 2 ^ 31) (h : 2 ^ 32 ≤ addr + bOffs) :
    listStartAt addr bOffs = .error .fault := by
  simp only [listStartAt, failIf_bind]
  rw [if_pos (by omega)]

theorem listOffset_lt (b : Bytes) : listOffset b < 2 ^ 31 := by
  have h := Int.bmod_lt (x := b.length - 20 - LittleEndian.ofBytes ((b.drop ((b.length : ℤ) - 12).toNat).take 4))
    (show 0 < 2 ^ 32 by norm_num)
  unfold listOffset s32
  omega

end

/-- **Masking is memory safe** just where the start of the list does not wrap around: it returns, having read and written inside of
the data only; otherwise it reads in front of the data. -/
theorem retouchMaskDataAt_ok {addr : ℕ} {b : Bytes} (haddr : addr < 2 ^ 32) (desired : Option ℤ) :
    (∃ r, retouchMaskDataAt addr b desired = .ok r ∧ r.2.1.length = b.length) ↔
    (Tagged b → addr + listOffset b < 2 ^ 32) := by
  rw [retouchMaskDataAt, retouchMaskDataFrom_eq]
  obtain ⟨r, hr, hlen⟩ := retouchMaskData_ok b desired
  rw [retouchMaskData_eq] at hr
  by_cases ht : Tagged b
  swap
  · rw [if_pos ht] at hr ⊢
    exact iff_of_true ⟨r, hr, hlen⟩ fun h => absurd h ht
  rw [if_neg (not_not.mpr ht)] at hr ⊢
  by_cases h0 : listOffset b < 0
  · rw [if_pos h0] at hr ⊢
    exact iff_of_true ⟨r, hr, hlen⟩ fun _ => by omega
  rw [if_neg h0] at hr ⊢
  by_cases hfits : addr + listOffset b < 2 ^ 32
  · rw [listStartAt_fits (by omega) hfits, ok_bind]
    exact iff_of_true ⟨r, hr, hlen⟩ fun _ => hfits
  · rw [listStartAt_wraps haddr (listOffset_lt b) (by omega)]
    exact iff_of_false (fun ⟨_, h, _⟩ => nomatch h) fun h => hfits (h ht)

/-- Two records alone, with a blob size that is `-(2 ^ 31 - 1)` as an `int`. -/
def hugeBlob : Bytes := lit "RETOUCH " ++ [1, 0, 0, 0x80] ++ List.replicate 4 0 ++ lit "PRE "

theorem retouchMaskDataAt_hugeBlob : ∃ r, retouchMaskDataAt 0x10000 hugeBlob (some 0) = .ok r ∧ r.2.1.length = hugeBlob.length :=
  (retouchMaskDataAt_ok (by norm_num) (some 0)).mpr fun _ => by decide +kernel

/-- High in memory `b_ptr` wraps around, and the loop begins in front of the data. -/
theorem retouchMaskDataAt_wraps : 0xb6000000 + hugeBlob.length ≤ 2 ^ 32 ∧
    retouchMaskDataAt 0xb6000000 hugeBlob (some 0) = .error .fault := by
  decide +kernel

end Patch
end Recovery
