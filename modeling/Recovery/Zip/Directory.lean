/-
# The directory of an archive is complete

Key theorems: `searchEntry_spec`, `readEntries_spec`, `addEntries_spec`, `directory_complete`.
-/
import Recovery.Zip.Archive
import Mathlib.Data.List.Lex
import Mathlib.Data.List.InsertIdx

namespace Recovery
namespace Zip

/-! ### The order of names -/

/-- The byte order of names, a proper prefix first. -/
def NameLt (a b : Bytes) : Prop := List.Lex (fun x y : UInt8 => x < y) a b

def NameLe (a b : Bytes) : Prop := a = b ∨ NameLt a b

theorem NameLt.trans {a b c : Bytes} (h : NameLt a b) (h' : NameLt b c) : NameLt a c :=
  List.lex_trans (fun h h' => UInt8.lt_trans h h') h h'

theorem NameLe.trans {a b c : Bytes} : NameLe a b → NameLe b c → NameLe a c
  | .inl h, h' => h ▸ h'
  | .inr h, .inl h' => .inr (h' ▸ h)
  | .inr h, .inr h' => .inr (h.trans h')

/-- An entry whose name is as long as it says and passed `validFilename`. -/
structure ZipEntry.Named (e : ZipEntry) : Prop where
  len : e.fileNameLen = e.fileName.length
  valid : validFilename e.fileName = true

theorem length_lt_of_valid {name : Bytes} (h : validFilename name = true) : name.length < pathMax := by
  simp only [validFilename, decide_eq_true_eq] at h
  exact h.1

theorem ne_zero_of_valid {name : Bytes} (h : validFilename name = true) : ∀ c ∈ name, c ≠ 0 := by
  simp only [validFilename, decide_eq_true_eq, List.all_eq_true] at h
  rintro c hc rfl
  simpa using h.2 0 hc

theorem strncmp_cases : ∀ a b : Bytes, (∀ c ∈ a, c ≠ 0) →
    (strncmp a b (min a.length b.length) < 0 ∧ NameLt a b) ∨ (strncmp a b (min a.length b.length) > 0 ∧ NameLt b a) ∨
      (strncmp a b (min a.length b.length) = 0 ∧ (a.length < b.length ∧ NameLt a b ∨ a = b ∨
        b.length < a.length ∧ NameLt b a))
  | [], [], _ => by simp [strncmp]
  | [], b :: bs, _ => by simp [strncmp, NameLt]
  | a :: as, [], _ => by simp [strncmp, NameLt]
  | a :: as, b :: bs, h => by
    have hmin : min (a :: as).length (b :: bs).length = min as.length bs.length + 1 := by simp
    rw [hmin]
    simp only [strncmp, if_neg (h a (by simp))]
    by_cases hab : a = b
    · subst hab
      simp only [ne_eq, not_true_eq_false, if_false]
      rcases strncmp_cases as bs (fun c hc => h c (by simp [hc])) with ⟨h1, h2⟩ | ⟨h1, h2⟩ | ⟨h1, h2⟩
      · exact .inl ⟨h1, .cons h2⟩
      · exact .inr (.inl ⟨h1, .cons h2⟩)
      · refine .inr (.inr ⟨h1, ?_⟩)
        rcases h2 with ⟨h2, h3⟩ | h2 | ⟨h2, h3⟩
        · exact .inl ⟨by simpa using h2, .cons h3⟩
        · exact .inr (.inl (by rw [h2]))
        · exact .inr (.inr ⟨by simpa using h2, .cons h3⟩)
    · rw [if_pos hab]
      rcases UInt8.lt_or_lt_of_ne hab with hlt | hlt
      · exact .inl ⟨by have := UInt8.lt_iff_toNat_lt.mp hlt; omega, .rel hlt⟩
      · exact .inr (.inl ⟨by have := UInt8.lt_iff_toNat_lt.mp hlt; omega, .rel hlt⟩)

theorem nameDiff_cases {e : ZipEntry} {name : Bytes} (he : e.Named) (hn : validFilename name = true) :
    (nameDiff e name < 0 ∧ NameLt e.fileName name) ∨ (nameDiff e name > 0 ∧ NameLt name e.fileName) ∨
      (nameDiff e name = 0 ∧ e.fileName = name) := by
  have hl1 := length_lt_of_valid he.valid
  have hl2 := length_lt_of_valid hn
  simp only [pathMax] at hl1 hl2
  have hmin : (if e.fileName.length < name.length then e.fileName.length else name.length)
      = min e.fileName.length name.length := by
    split_ifs <;> omega
  have hs : s32 ((e.fileName.length : ℤ) - name.length) = (e.fileName.length : ℤ) - name.length :=
    s32_of_lt (by omega) (by omega)
  simp only [nameDiff, he.len, hmin, hs]
  rcases strncmp_cases e.fileName name (ne_zero_of_valid he.valid) with ⟨h1, h2⟩ | ⟨h1, h2⟩ | ⟨h1, h2⟩
  · rw [if_neg (by omega)]
    exact .inl ⟨h1, h2⟩
  · rw [if_neg (by omega)]
    exact .inr (.inl ⟨h1, h2⟩)
  · rw [if_pos h1]
    rcases h2 with ⟨h2, h3⟩ | h2 | ⟨h2, h3⟩
    · exact .inl ⟨by omega, h3⟩
    · exact .inr (.inr ⟨by rw [h2]; omega, h2⟩)
    · exact .inr (.inl ⟨by omega, h3⟩)

/-! ### The binary search -/

def Sorted (es : List ZipEntry) : Prop := es.Pairwise fun e e' => NameLe e.fileName e'.fileName

theorem Sorted.le {es : List ZipEntry} (hs : Sorted es) {i j : ℕ} {e e' : ZipEntry} (hij : i ≤ j)
    (hi : es[i]? = some e) (hj : es[j]? = some e') : NameLe e.fileName e'.fileName := by
  obtain ⟨hi', rfl⟩ := List.getElem?_eq_some_iff.mp hi
  obtain ⟨hj', rfl⟩ := List.getElem?_eq_some_iff.mp hj
  rcases Nat.lt_or_eq_of_le hij with h | rfl
  · exact List.pairwise_iff_getElem.mp hs i j hi' hj' h
  · exact .inl rfl

/-- What lies below `low` is smaller, what lies above `high` is larger. -/
structure Narrowed (es : List ZipEntry) (name : Bytes) (low high : ℤ) : Prop where
  low_nonneg : 0 ≤ low
  high_lt : high < es.length
  low_le : low ≤ high + 1
  below : ∀ (i : ℕ) (e : ZipEntry), (i : ℤ) < low → es[i]? = some e → NameLe e.fileName name
  above : ∀ (i : ℕ) (e : ZipEntry), high < (i : ℤ) → es[i]? = some e → NameLe name e.fileName

/-- The search ends with a place behind smaller names and in front of larger ones. -/
theorem searchEntry_spec {es : List ZipEntry} {name : Bytes} (hs : Sorted es) (hv : ∀ e ∈ es, e.Named)
    (hn : validFilename name = true) : ∀ (n : ℕ) (low high : ℤ), Narrowed es name low high → high + 1 - low < n →
    ∃ h, searchEntry es name n low high = .ok h ∧ Narrowed es name (h + 1) h
  | 0, low, high, hi, hfuel => absurd hi.low_le (by omega)
  | n + 1, low, high, hi, hfuel => by
    have h0 := hi.low_nonneg
    have h1 := hi.high_lt
    have h2 := hi.low_le
    unfold searchEntry
    by_cases hle : low ≤ high
    · rw [if_pos hle]
      set mid := low + (high - low) / 2 with hmid
      have hmid0 : 0 ≤ mid := by omega
      have hlow : low ≤ mid := by omega
      have hhigh : mid ≤ high := by omega
      have hlt : mid.toNat < es.length := by omega
      have hget : es[mid.toNat]? = some (es.get ⟨mid.toNat, hlt⟩) := List.getElem?_eq_getElem hlt
      set e := es.get ⟨mid.toNat, hlt⟩
      have hbelow : NameLe e.fileName name → ∀ (i : ℕ) (e' : ZipEntry), (i : ℤ) < mid + 1 → es[i]? = some e' →
          NameLe e'.fileName name := fun hle i e' hi he' =>
        (hs.le (show i ≤ mid.toNat by omega) he' hget).trans hle
      have habove : NameLe name e.fileName → ∀ (i : ℕ) (e' : ZipEntry), mid - 1 < (i : ℤ) → es[i]? = some e' →
          NameLe name e'.fileName := fun hle i e' hi he' =>
        hle.trans (hs.le (show mid.toNat ≤ i by omega) hget he')
      simp only [hget]
      rcases nameDiff_cases (hv e (List.get_mem es _)) hn with ⟨hd, hc⟩ | ⟨hd, hc⟩ | ⟨hd, hc⟩
      · rw [if_pos hd]
        exact searchEntry_spec hs hv hn n (mid + 1) high
          ⟨by omega, h1, by omega, hbelow (.inr hc), hi.above⟩ (by omega)
      · rw [if_neg (by omega), if_pos hd]
        exact searchEntry_spec hs hv hn n low (mid - 1)
          ⟨h0, by omega, by omega, hi.below, habove (.inr hc)⟩ (by omega)
      · rw [if_neg (by omega), if_neg (by omega)]
        exact ⟨mid, rfl, by omega, by omega, le_rfl, hbelow (.inl hc),
          fun i e' hi he' => habove (.inl hc.symm) i e' (by omega) he'⟩
    · rw [if_neg hle]
      exact ⟨high, rfl, by omega, h1, le_rfl, fun i e he => hi.below i e (by omega), hi.above⟩

/-- Inserting between what is related to the new element and what it is related to. -/
theorem pairwise_insertIdx {α : Type} {R : α → α → Prop} {x : α} : ∀ {l : List α} {k : ℕ}, l.Pairwise R → k ≤ l.length →
    (∀ (i : ℕ) (y : α), i < k → l[i]? = some y → R y x) → (∀ (i : ℕ) (y : α), k ≤ i → l[i]? = some y → R x y) →
    (l.insertIdx k x).Pairwise R
  | l, 0, h, _, _, ha => by
    rw [List.insertIdx_zero]
    refine List.pairwise_cons.mpr ⟨fun y hy => ?_, h⟩
    obtain ⟨i, hi⟩ := List.mem_iff_getElem?.mp hy
    exact ha i y (by omega) hi
  | y :: l, k + 1, h, hk, hb, ha => by
    obtain ⟨hy, hl⟩ := List.pairwise_cons.mp h
    have hk' : k ≤ l.length := by simpa using hk
    rw [List.insertIdx_succ_cons]
    refine List.pairwise_cons.mpr ⟨fun z hz => ?_, pairwise_insertIdx hl hk'
      (fun i z hi hz => hb (i + 1) z (by omega) (by simpa using hz))
      (fun i z hi hz => ha (i + 1) z (by omega) (by simpa using hz))⟩
    rcases (List.mem_insertIdx hk').mp hz with rfl | hz
    · exact hb 0 y (by omega) (by simp)
    · exact hy z hz

/-! ### The walk over the central directory -/

/-- One record of the central directory, and where the next one begins. -/
def readRecord (m : MemMapping) (ptr : ℕ) : Except Stop (ZipEntry × ℕ) := do
  let hdr ← readHeader m ptr
  let entry ← readFields m ptr hdr
  pure (entry, ptrAdd ptr (cenHdr + hdr.fileName.length + hdr.extraLen + hdr.commentLen))

/-- The `n` records from `ptr` on, in the order of the file. -/
def walk (m : MemMapping) : ℕ → ℕ → Except Stop (List ZipEntry)
  | 0, _ => pure []
  | n + 1, ptr => do
    let (entry, next) ← readRecord m ptr
    let rest ← walk m n next
    pure (entry :: rest)

theorem readHeader_valid {m : MemMapping} {ptr : ℕ} {hdr : Header} (h : readHeader m ptr = .ok hdr) :
    validFilename hdr.fileName = true := by
  simp only [readHeader, bind_eq_ok, failIf_eq_ok, pure_eq_ok] at h
  obtain ⟨_, -, _, -, _, -, _, -, _, -, _, -, _, -, _, -, _, -, _, hv, rfl⟩ := h
  simpa using hv

theorem readFields_name {m : MemMapping} {ptr : ℕ} {hdr : Header} {e : ZipEntry} (h : readFields m ptr hdr = .ok e) :
    e.fileName = hdr.fileName ∧ e.fileNameLen = hdr.fileName.length := by
  simp only [readFields, bind_eq_ok, failIf_eq_ok, pure_eq_ok] at h
  obtain ⟨_, -, _, -, _, -, _, -, _, -, _, -, _, -, _, -, _, -, _, -, _, -, _, -, _, -, _, -, _, -, _, -, rfl⟩ := h
  exact ⟨rfl, rfl⟩

theorem searchEntry_place {es : List ZipEntry} {name : Bytes} (hs : Sorted es) (hv : ∀ e ∈ es, e.Named)
    (hvalid : validFilename name = true) :
    ∃ high, searchEntry es name (es.length + 1) 0 ((es.length : ℤ) - 1) = .ok high ∧ (high + 1).toNat ≤ es.length ∧
      ∀ e : ZipEntry, e.fileName = name → e.fileNameLen = name.length →
        Sorted (es.insertIdx (high + 1).toNat e) ∧ ∀ x ∈ es.insertIdx (high + 1).toNat e, x.Named := by
  obtain ⟨high, hsearch, hn⟩ := searchEntry_spec hs hv hvalid (es.length + 1) 0 ((es.length : ℤ) - 1)
    ⟨le_rfl, by omega, by omega, fun i e hi => absurd hi (by omega), fun i e hi he =>
      absurd (List.getElem?_eq_some_iff.mp he).1 (by omega)⟩ (by omega)
  have h1 := hn.high_lt
  have h2 := hn.low_nonneg
  have hk : (high + 1).toNat ≤ es.length := by omega
  refine ⟨high, hsearch, hk, fun e hname hlen => ⟨?_, fun x hx => ?_⟩⟩
  · exact pairwise_insertIdx hs hk (fun i y hi hy => hname ▸ hn.below i y (by omega) hy)
      (fun i y hi hy => hname ▸ hn.above i y (by omega) hy)
  · rcases (List.mem_insertIdx hk).mp hx with rfl | hx
    · exact ⟨hlen.trans (hname ▸ rfl), hname ▸ hvalid⟩
    · exact hv x hx

/-- The loop of `parseZipArchive` over records keeps the entries sorted and loses none. -/
theorem readEntries_spec {m : MemMapping} : ∀ {n ptr : ℕ} {es es' : List ZipEntry}, Sorted es → (∀ e ∈ es, e.Named) →
    readEntries m n ptr es = .ok es' →
    Sorted es' ∧ (∀ e ∈ es', e.Named) ∧ ∃ rs, walk m n ptr = .ok rs ∧ rs.length = n ∧ es'.Perm (es ++ rs)
  | 0, _, es, es', hs, hv, h => by
    obtain rfl := pure_eq_ok.mp h
    exact ⟨hs, hv, [], rfl, rfl, by simp⟩
  | n + 1, ptr, es, es', hs, hv, h => by
    simp only [readEntries] at h
    obtain ⟨hdr, hhdr, h⟩ := bind_eq_ok.mp h
    obtain ⟨high, hsearch, hk, hplace⟩ := searchEntry_place hs hv (readHeader_valid hhdr)
    rw [hsearch, ok_bind, failIf_bind, if_neg (not_lt.mpr hk)] at h
    obtain ⟨e, he, h⟩ := bind_eq_ok.mp h
    obtain ⟨hname, hlen⟩ := readFields_name he
    obtain ⟨hsorted, hnamed⟩ := hplace e hname hlen
    obtain ⟨hs', hv', rs, hwalk, hrs, hperm⟩ := readEntries_spec hsorted hnamed h
    refine ⟨hs', hv', e :: rs, ?_, by simp [hrs], ?_⟩
    · simp only [walk, readRecord, hhdr, he, ok_bind, pure, Except.pure, hwalk]
    · calc es'.Perm (es.insertIdx (high + 1).toNat e ++ rs) := hperm
        _ |>.Perm ((e :: es) ++ rs) := (List.perm_insertIdx e es hk).append_right rs
        _ |>.Perm (es ++ e :: rs) := List.perm_middle.symm

/-! ### The hash table of the entries -/

theorem memcmp_eq_zero : ∀ {a b : Bytes} {n : ℕ}, a.length = n → b.length = n → (memcmp a b n = 0 ↔ a = b)
  | [], [], 0, _, _ => by simp [memcmp]
  | a :: as, b :: bs, n + 1, ha, hb => by
    have ih : memcmp as bs n = 0 ↔ as = bs := memcmp_eq_zero (by simpa using ha) (by simpa using hb)
    by_cases hab : a = b
    · simp [memcmp, hab, ih]
    · have hne : (a.toNat : ℤ) - b.toNat ≠ 0 := fun h => hab (UInt8.toNat_inj.mp (by omega))
      simp [memcmp, hab, hne]

theorem lengthThenBytes_eq_zero {a b : Bytes} (ha : a.length < 2 ^ 31) (hb : b.length < 2 ^ 32) :
    (if a.length ≠ b.length then s32 ((a.length : ℤ) - b.length) else memcmp a b b.length) = 0 ↔ a = b := by
  split_ifs with h
  · have hs : ¬ s32 ((a.length : ℤ) - b.length) = 0 := fun h0 => by
      have hdvd := Int.dvd_of_bmod_eq_zero h0
      norm_num at hdvd
      omega
    simp only [hs, false_iff]
    rintro rfl
    exact h rfl
  · exact memcmp_eq_zero (not_not.mp h) rfl

theorem hashcmpZipEntry_eq_zero {e e' : ZipEntry} (he : e.Named) (he' : e'.Named) :
    hashcmpZipEntry e e' = 0 ↔ e.fileName = e'.fileName := by
  have h1 := length_lt_of_valid he.valid
  have h2 := length_lt_of_valid he'.valid
  simp only [pathMax] at h1 h2
  rw [← lengthThenBytes_eq_zero (a := e.fileName) (b := e'.fileName) (by omega) (by omega), hashcmpZipEntry, he.len,
    he'.len]
  split_ifs with h
  · rfl
  · rw [not_not.mp h]

theorem hashcmpZipName_eq_zero {e : ZipEntry} {name : Bytes} (he : e.Named) (hn : name.length < 2 ^ 32) :
    hashcmpZipName e name = 0 ↔ e.fileName = name := by
  have h1 := length_lt_of_valid he.valid
  simp only [pathMax] at h1
  rw [← lengthThenBytes_eq_zero (a := e.fileName) (b := name) (by omega) hn, hashcmpZipName, he.len]

/-- Entries under the hash of their name, and for each of the first `k` one of that name. -/
structure Entered (es : List ZipEntry) (k : ℕ) (t : HashTable ℕ) : Prop where
  fits : t.Fits
  room : es.length * loadDenom ≤ t.tableSize * loadNumer
  small : t.tableSize ≤ 2 ^ 28
  few : t.numEntries ≤ k
  dead : t.numDeadEntries = 0
  sound : ∀ h i, t.Holds h i → ∃ e, es[i]? = some e ∧ h = computeHash e.fileName
  complete : ∀ i e, i < k → es[i]? = some e →
    ∃ i' e', es[i']? = some e' ∧ e'.fileName = e.fileName ∧ t.Holds (computeHash e.fileName) i'

theorem Entered.add {es : List ZipEntry} {k : ℕ} {t : HashTable ℕ} {e : ZipEntry} (ht : Entered es k t)
    (hv : ∀ e ∈ es, e.Named) (he : es[k]? = some e) :
    ∃ t', addEntryToHashTable es t k e = .ok t' ∧ Entered es (k + 1) t' := by
  have hk : k < es.length := (List.getElem?_eq_some_iff.mp he).1
  have hnamed : ∀ {i : ℕ} {x : ZipEntry}, es[i]? = some x → x.Named := fun h => hv _ (List.mem_of_getElem? h)
  have hroom : (t.numEntries + 1 + t.numDeadEntries) * loadDenom ≤ t.tableSize * loadNumer := by
    have := ht.room
    have := ht.few
    have := ht.dead
    simp only [loadDenom, loadNumer] at *
    omega
  obtain ⟨r, t', hadd, hfits, hsize, hfew, hdead, hcase⟩ := ht.fits.add (computeHash e.fileName) k
    (cmpAt es (hashcmpZipEntry · e)) hroom ht.small
  refine ⟨t', by simp only [addEntryToHashTable, hadd, ok_bind]; rfl, hfits, hsize ▸ ht.room, hsize ▸ ht.small,
    hfew.trans (Nat.add_le_add_right ht.few 1), hdead.trans ht.dead, ?_, ?_⟩
  · intro h i hi
    rcases hcase with ⟨rfl, -⟩ | hiff
    · exact ht.sound h i hi
    · rcases (hiff h i).mp hi with hi | ⟨rfl, rfl⟩
      · exact ht.sound h i hi
      · exact ⟨e, he, rfl⟩
  · intro i x hi hx
    rcases Nat.lt_succ_iff_lt_or_eq.mp hi with hlt | rfl
    · obtain ⟨i', x', hx', hname, hholds⟩ := ht.complete i x hlt hx
      refine ⟨i', x', hx', hname, ?_⟩
      rcases hcase with ⟨rfl, -⟩ | hiff
      · exact hholds
      · exact (hiff _ _).mpr (.inl hholds)
    · obtain rfl : e = x := Option.some.inj (he.symm.trans hx)
      rcases hcase with ⟨rfl, i', hholds, hcmp⟩ | hiff
      -- an entry of the same name is there already
      · obtain ⟨x', hx', -⟩ := ht.sound _ _ hholds
        refine ⟨i', x', hx', ?_, hholds⟩
        simp only [cmpAt, hx', decide_eq_true_eq] at hcmp
        exact (hashcmpZipEntry_eq_zero (hnamed hx') (hnamed he)).mp hcmp
      · exact ⟨i, e, he, rfl, (hiff _ _).mpr (.inr ⟨rfl, rfl⟩)⟩

theorem addEntries_spec {es : List ZipEntry} (hv : ∀ e ∈ es, e.Named) : ∀ {k : ℕ} {rest : List ZipEntry}
    {t : HashTable ℕ}, es.drop k = rest → k ≤ es.length → Entered es k t →
    ∃ t', addEntries es k rest t = .ok t' ∧ Entered es es.length t'
  | k, [], t, hrest, hk, ht => by
    have : k = es.length := le_antisymm hk (List.drop_eq_nil_iff.mp hrest)
    exact ⟨t, rfl, this ▸ ht⟩
  | k, e :: rest, t, hrest, _, ht => by
    have he : es[k]? = some e := by
      rw [← List.head?_drop, hrest, List.head?_cons]
    obtain ⟨t', hadd, ht'⟩ := ht.add hv he
    have htail : es.drop (k + 1) = rest := by rw [← List.tail_drop, hrest, List.tail_cons]
    obtain ⟨t'', hadds, ht''⟩ := addEntries_spec hv htail (List.getElem?_eq_some_iff.mp he).1 ht'
    exact ⟨t'', by simp only [addEntries, hadd, ok_bind, hadds], ht''⟩

theorem Entered.find {es : List ZipEntry} {t : HashTable ℕ} (ht : Entered es es.length t) (hv : ∀ e ∈ es, e.Named)
    (n : ℕ) (entryName : Bytes) (hlen : (cstr entryName).length < 2 ^ 32) :
    ∃ r, mzFindZipEntry ⟨n, es, t⟩ entryName = .ok r ∧
      (r = none → ∀ e ∈ es, e.fileName ≠ cstr entryName) ∧
      ∀ e, r = some e → e ∈ es ∧ e.fileName = cstr entryName := by
  obtain ⟨r, hr, hsome, hnone⟩ := ht.fits.lookup (computeHash (cstr entryName))
    (cmpAt es (hashcmpZipName · (cstr entryName)))
  cases r with
  | none =>
    refine ⟨none, by simp only [mzFindZipEntry, hr, ok_bind]; rfl, fun _ e he hname => ?_, by simp⟩
    obtain ⟨i, hi⟩ := List.mem_iff_getElem?.mp he
    obtain ⟨i', e', hi', hname', hholds⟩ := ht.complete i e (List.getElem?_eq_some_iff.mp hi).1 hi
    have hcmp := hnone rfl i' (hname ▸ hholds)
    have hn : e'.Named := hv e' (List.mem_of_getElem? hi')
    simp only [cmpAt, hi', (hashcmpZipName_eq_zero hn hlen).mpr (hname'.trans hname)] at hcmp
    simp at hcmp
  | some i =>
    obtain ⟨hholds, hcmp⟩ := hsome i rfl
    obtain ⟨e, he, -⟩ := ht.sound _ _ hholds
    have hmem : e ∈ es := List.mem_of_getElem? he
    refine ⟨some e, by simp only [mzFindZipEntry, hr, ok_bind, he]; rfl, by simp, ?_⟩
    rintro e' ⟨⟩
    simp only [cmpAt, he, decide_eq_true_eq] at hcmp
    exact ⟨hmem, (hashcmpZipName_eq_zero (hv e hmem) hlen).mp hcmp⟩

/-! ### The archive -/

theorem readEnd_pos {m : MemMapping} {off n cdOffset : ℕ} (h : readEnd m = .ok (off, n, cdOffset)) :
    0 < n ∧ n < 2 ^ 16 := by
  simp only [readEnd, bind_eq_ok, failIf_eq_ok, pure_eq_ok] at h
  obtain ⟨_, -, k, hk, _, -, _, hc, h⟩ := h
  obtain ⟨-, rfl, -⟩ : _ ∧ k = n ∧ _ := by simpa using h
  exact ⟨by omega, sliceLE_lt hk⟩

theorem readDirectory_spec {m : MemMapping} {n cdOffset : ℕ} {a : ZipArchive} (h0 : 0 < n) (hn : n < 2 ^ 16)
    (h : readDirectory m n cdOffset = .ok a) :
    a.numEntries = n ∧ Sorted a.pEntries ∧ (∀ e ∈ a.pEntries, e.Named) ∧
      Entered a.pEntries a.pEntries.length a.pHash ∧
      ∃ rs, walk m n (m.addr + cdOffset) = .ok rs ∧ rs.length = n ∧ a.pEntries.Perm rs := by
  simp only [readDirectory, bind_eq_ok, pure_eq_ok] at h
  obtain ⟨t, ht, es, hes, t', ht', rfl⟩ := h
  obtain ⟨hs, hv, rs, hwalk, hrs, hperm⟩ := readEntries_spec List.Pairwise.nil (by simp) hes
  rw [List.nil_append] at hperm
  have hlen : es.length = n := hperm.length_eq.trans hrs
  obtain ⟨t0, ht0, hfits, hnum, hdead, hroom, hsmall, hempty⟩ := mzHashTableCreate_spec ℕ h0 (by omega)
  obtain rfl : t = t0 := Except.ok.inj (ht.symm.trans ht0)
  have hent : Entered es 0 t := ⟨hfits, hlen ▸ hroom, hsmall, hnum.le, hdead, fun h i hh => absurd hh (hempty h i),
    fun i e hi => absurd hi (by omega)⟩
  obtain ⟨t1, hadds, hent'⟩ := addEntries_spec hv rfl (Nat.zero_le _) hent
  obtain rfl : t' = t1 := Except.ok.inj (ht'.symm.trans hadds)
  exact ⟨rfl, hs, hv, hent', rs, hwalk, hrs, hperm⟩

theorem parseZipArchive_eq_ok {m : MemMapping} {a : ZipArchive} (h : parseZipArchive m = .ok a) :
    ∃ off numEntries cdOffset, readEnd m = .ok (off, numEntries, cdOffset) ∧
      readDirectory m numEntries cdOffset = .ok a := by
  simp only [parseZipArchive, bind_eq_ok, failIf_eq_ok] at h
  obtain ⟨_, -, _, -, _, -, ⟨off, n, cd⟩, hend, hdir⟩ := h
  exact ⟨off, n, cd, hend, hdir⟩

/-- **The directory is complete.** The entries of an accepted archive are the
records of its central directory, sorted by name, and a lookup finds an entry
exactly for the names some record has, an entry with the fields of such a
record. -/
theorem directory_complete {m : MemMapping} {a : ZipArchive} (h : parseZipArchive m = .ok a) :
    ∃ off cdOffset rs, readEnd m = .ok (off, a.numEntries, cdOffset) ∧
      walk m a.numEntries (m.addr + cdOffset) = .ok rs ∧ rs.length = a.numEntries ∧
      a.pEntries.Perm rs ∧ a.pEntries.Pairwise (fun e e' => NameLe e.fileName e'.fileName) ∧
      ∀ entryName : Bytes, (cstr entryName).length < 2 ^ 32 →
        ∃ r, mzFindZipEntry a entryName = .ok r ∧
          (r.isSome ↔ ∃ e ∈ rs, e.fileName = cstr entryName) ∧
          ∀ e, r = some e → e ∈ rs ∧ e.fileName = cstr entryName := by
  obtain ⟨off, n, cd, hend, hdir⟩ := parseZipArchive_eq_ok h
  obtain ⟨h0, hn⟩ := readEnd_pos hend
  obtain ⟨rfl, hs, hv, hent, rs, hwalk, hrs, hperm⟩ := readDirectory_spec h0 hn hdir
  refine ⟨off, cd, rs, hend, hwalk, hrs, hperm, hs, fun entryName hlen => ?_⟩
  obtain ⟨r, hr, hnone, hsome⟩ := hent.find hv a.numEntries entryName hlen
  refine ⟨r, hr, ?_, fun e he => ⟨hperm.mem_iff.mp (hsome e he).1, (hsome e he).2⟩⟩
  cases r with
  | none =>
    simp only [Option.isSome_none, Bool.false_eq_true, false_iff, not_exists, not_and]
    exact fun e he => hnone rfl e (hperm.mem_iff.mpr he)
  | some e =>
    simp only [Option.isSome_some, true_iff]
    exact ⟨e, hperm.mem_iff.mp (hsome e rfl).1, (hsome e rfl).2⟩

def sampleLocal : Bytes := [0x50, 0x4b, 3, 4] ++ List.replicate 22 0 ++ [1, 0, 0, 0] ++ lit "a"

def sampleCentral : Bytes := [0x50, 0x4b, 1, 2] ++ List.replicate 24 0 ++ [1, 0] ++ List.replicate 16 0 ++ lit "a"

/-- An archive with the file `a`, which its central directory names twice. -/
def sampleZip : MemMapping where
  addr := 4096
  data := sampleLocal ++ sampleCentral ++ sampleCentral ++
    [0x50, 0x4b, 5, 6, 0, 0, 0, 0, 2, 0, 2, 0, 94, 0, 0, 0, 31, 0, 0, 0, 0, 0]
  addr_pos := page_pos
  addr_add_length_lt := by decide +kernel

theorem sampleZip_accepted : ∃ a, parseZipArchive sampleZip = .ok a ∧ a.pEntries.map (·.fileName) = [lit "a", lit "a"] := by
  have h : (match parseZipArchive sampleZip with
      | .ok a => decide (a.pEntries.map (·.fileName) = [lit "a", lit "a"])
      | .error _ => false) = true := by decide +kernel
  split at h
  · rename_i a ha
    exact ⟨a, ha, of_decide_eq_true h⟩
  · cases h

/-- The lookups in `sampleZip`: the name that occurs twice is found, another is not. -/
theorem sampleZip_lookup : ∃ a, parseZipArchive sampleZip = .ok a ∧
    (∃ e, mzFindZipEntry a (lit "a") = .ok (some e)) ∧ mzFindZipEntry a (lit "b") = .ok none := by
  obtain ⟨a, ha, hnames⟩ := sampleZip_accepted
  obtain ⟨-, -, rs, -, -, -, hperm, -, hfind⟩ := directory_complete ha
  have hmem : ∀ name, (∃ e ∈ rs, e.fileName = name) ↔ name = lit "a" := fun name => by
    rw [← List.mem_map, ← (hperm.map (·.fileName)).mem_iff, hnames]
    simp
  obtain ⟨r, hr, hiff, -⟩ := hfind (lit "a") (by decide)
  obtain ⟨r', hr', hiff', -⟩ := hfind (lit "b") (by decide)
  rw [hmem] at hiff hiff'
  refine ⟨a, ha, ?_, ?_⟩
  · obtain ⟨e, rfl⟩ := Option.isSome_iff_exists.mp (hiff.mpr (by decide))
    exact ⟨e, hr⟩
  · cases r' with
    | none => exact hr'
    | some e => exact absurd (hiff'.mp rfl) (by decide)

end Zip
end Recovery
