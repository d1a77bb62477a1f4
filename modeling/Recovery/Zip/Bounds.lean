/-
# The entries of an archive lie inside the mapping

The header fields are unsigned 32-bit numbers in signed `long`s, and pointers wrap around.
Nothing is checked about the uncompressed size, and a compressed size of 2 GiB or more is
negative. So `parseZipArchive` accepts entries of negative sizes and can be led to read
outside the mapping (`unbounded_entries`). Just if no local header wraps around the address
space, and the numbers of an accepted archive fit into a `long`, it reads only inside the
mapping and every entry lies in it.

Key definitions: `Unwrapped`, `Small`, `Bounded`.
Key theorems: `parseZipArchive_inside`, `unbounded_entries`.
-/
import Recovery.Zip.Directory

namespace Recovery
namespace Zip

variable {α β : Type} {m : MemMapping} {ptr : ℕ}

/-! ### Functions that only stop with `goto bail` -/

/-- The function stops only by `goto bail`, so it reads inside its buffers. -/
def Bails (x : Except Stop α) : Prop := ∀ stop, x = .error stop → stop = bail

theorem error_ne_ok {stop : Stop} {a : α} : (.error stop : Except Stop α) ≠ .ok a := by
  intro h
  cases h

theorem Bails.of_ok {x : Except Stop α} {a : α} (h : x = .ok a) : Bails x := by
  intro stop hstop
  rw [h] at hstop
  cases hstop

theorem Bails.bind {x : Except Stop α} {f : α → Except Stop β} (hx : Bails x) (hf : ∀ a, x = .ok a → Bails (f a)) :
    Bails (x >>= f) := by
  intro stop hstop
  rcases bind_eq_error.mp hstop with h | ⟨a, ha, h⟩
  · exact hx stop h
  · exact hf a ha stop h

theorem Bails.check {c : Prop} [Decidable c] {f : Unit → Except Stop β} (hf : ¬ c → Bails (f ())) :
    Bails (failIf c bail >>= f) := by
  rw [failIf_bind]
  split_ifs with h
  · intro stop hstop
    exact (Except.error.inj hstop).symm
  · exact hf h

theorem sliceLE_inside {p n : ℕ} (hlo : m.addr ≤ p) (hhi : p + n ≤ m.addr + m.length) :
    ∃ v, sliceLE m.data ((p : ℤ) - m.addr) n = .ok v := by
  unfold MemMapping.length at hhi
  exact ⟨_, sliceLE_eq_ok.mpr ⟨_, slice_of_le m.data (by omega) (by omega), rfl⟩⟩

theorem get4LE_bails {p : ℕ} (hlo : m.addr ≤ p) (hhi : p + 4 ≤ m.addr + m.length) : Bails (get4LE m p) := by
  obtain ⟨v, hv⟩ := sliceLE_inside hlo hhi
  exact .of_ok hv

theorem get2LE_bails {p : ℕ} (hlo : m.addr ≤ p) (hhi : p + 2 ≤ m.addr + m.length) : Bails (get2LE m p) := by
  obtain ⟨v, hv⟩ := sliceLE_inside hlo hhi
  exact .of_ok hv

theorem ptrAdd_of_lt {p n : ℕ} (h : p + n < 2 ^ 32) : ptrAdd p n = p + n := Nat.mod_eq_of_lt h

/-! ### Records -/

/-- The system that made the file is not one whose files are taken. -/
def Refused (versionMadeBy : ℕ) : Prop := versionMadeBy &&& 0xff00 ≠ 0 ∧ versionMadeBy &&& 0xff00 ≠ cenVemUnix

/-- The local header of a record that is not refused begins in the address space and ends
behind it. -/
def WrapsAt (m : MemMapping) (ptr : ℕ) : Prop :=
  ∃ hdr versionMadeBy, readHeader m ptr = .ok hdr ∧ get2LE m (ptrAdd ptr cenVem) = .ok versionMadeBy ∧ ¬ Refused versionMadeBy ∧
    m.addr + hdr.localHdrOffset < 2 ^ 32 ∧ 2 ^ 32 ≤ m.addr + hdr.localHdrOffset + locHdr

/-- None of the first `n` records from `ptr` on that are read names such a local header. -/
def Unwrapped (m : MemMapping) : ℕ → ℕ → Prop
  | 0, _ => True
  | n + 1, ptr => ¬ WrapsAt m ptr ∧ ∀ e next, readRecord m ptr = .ok (e, next) → Unwrapped m n next

/-- The two sizes of the record and the place of its data fit into a `long`. -/
structure SmallAt (m : MemMapping) (ptr : ℕ) : Prop where
  compLen : ∀ v, get4LE m (ptrAdd ptr cenSiz) = .ok v → v < 2 ^ 31
  uncompLen : ∀ v, get4LE m (ptrAdd ptr cenLen) = .ok v → v < 2 ^ 31
  offset : ∀ off nameLen extraLen, get4LE m (ptrAdd ptr cenOff) = .ok off → get2LE m (ptrAdd (m.addr + off) locNam) = .ok nameLen →
    get2LE m (ptrAdd (m.addr + off) locExt) = .ok extraLen → off + locHdr + nameLen + extraLen < 2 ^ 31

def Small (m : MemMapping) : ℕ → ℕ → Prop
  | 0, _ => True
  | n + 1, ptr => SmallAt m ptr ∧ ∀ e next, readRecord m ptr = .ok (e, next) → Small m n next

/-- No local header wraps around, and if all records can be read, their numbers fit. -/
def Bounded (m : MemMapping) : Prop :=
  ∀ off n cdOffset, get4LE m m.addr = .ok locSig → readEnd m = .ok (off, n, cdOffset) →
    Unwrapped m n (m.addr + cdOffset) ∧ ∀ rs, walk m n (m.addr + cdOffset) = .ok rs → Small m n (m.addr + cdOffset)

/-- An entry lies inside the mapping. -/
structure Inside (m : MemMapping) (e : ZipEntry) : Prop where
  offset : 0 ≤ e.offset
  compLen : 0 ≤ e.compLen
  uncompLen : 0 ≤ e.uncompLen
  data : e.offset + e.compLen ≤ m.length
  name : ∃ i : ℤ, slice m.data i e.fileNameLen = .ok e.fileName

/-- The address space behind the mapping that a record can name. -/
def Roomy (m : MemMapping) : Prop := m.addr + m.length + 2 ^ 18 ≤ 2 ^ 32

theorem readHeader_eq_ok {hdr : Header} (h : readHeader m ptr = .ok hdr) :
    ¬ ptrAdd ptr cenHdr > m.addr + m.length ∧ get4LE m (ptrAdd ptr cenOff) = .ok hdr.localHdrOffset ∧
      hdr.extraLen < 2 ^ 16 ∧ hdr.commentLen < 2 ^ 16 ∧
      ¬ ptrAdd (ptrAdd ptr cenHdr) hdr.fileName.length > m.addr + m.length ∧ hdr.fileName.length < 2 ^ 16 ∧
      slice m.data ((ptrAdd ptr cenHdr : ℕ) - m.addr : ℤ) hdr.fileName.length = .ok hdr.fileName := by
  simp only [readHeader, bind_eq_ok, failIf_eq_ok, pure_eq_ok] at h
  obtain ⟨_, hin, _, -, _, -, off, hoff, nameLen, hnameLen, _, hextra, _, hcomment, _, hend, name, hname, _, -, rfl⟩ := h
  have hlen := slice_length hname
  subst hlen
  exact ⟨hin, hoff, sliceLE_lt hextra, sliceLE_lt hcomment, hend, sliceLE_lt hnameLen, hname⟩

/-- A record in front of which the directory still had room is read inside the mapping. -/
theorem readHeader_bails (hroom : Roomy m) (hlo : m.addr ≤ ptr) (hhi : ptr ≤ m.addr + m.length + 2 ^ 17) :
    Bails (readHeader m ptr) := by
  unfold Roomy at hroom
  have hadd : ∀ n, n ≤ cenHdr → ptrAdd ptr n = ptr + n := fun n hn => ptrAdd_of_lt (by simp only [cenHdr] at hn; omega)
  unfold readHeader
  refine .check fun hin => ?_
  rw [hadd cenHdr le_rfl] at hin
  simp only [cenHdr] at hin
  refine .bind (get4LE_bails hlo (by omega)) fun sig _ => .check fun _ => ?_
  rw [hadd cenOff (by decide), hadd cenNam (by decide), hadd cenExt (by decide), hadd cenCom (by decide),
    hadd cenHdr le_rfl]
  simp only [cenOff, cenNam, cenExt, cenCom, cenHdr]
  refine .bind (get4LE_bails (by omega) (by omega)) fun off _ => ?_
  refine .bind (get2LE_bails (by omega) (by omega)) fun nameLen hnameLen => ?_
  refine .bind (get2LE_bails (by omega) (by omega)) fun extraLen _ => ?_
  refine .bind (get2LE_bails (by omega) (by omega)) fun commentLen _ => .check fun hend => ?_
  have hlen : nameLen < 2 ^ 16 := sliceLE_lt hnameLen
  rw [ptrAdd_of_lt (by omega)] at hend
  have hname := slice_of_le m.data (i := ((ptr + 46 : ℕ) : ℤ) - m.addr) (n := nameLen) (by omega)
    (by unfold MemMapping.length at hend; omega)
  refine .bind (.of_ok hname) fun name _ => .check fun _ => .of_ok rfl

theorem readFields_bails {hdr : Header} (hroom : Roomy m) (hlo : m.addr ≤ ptr) (hin : ptr + cenHdr ≤ m.addr + m.length)
    (hhdr : readHeader m ptr = .ok hdr) (hwrap : ¬ WrapsAt m ptr) : Bails (readFields m ptr hdr) := by
  unfold Roomy at hroom
  simp only [cenHdr] at hin
  have hadd' : ∀ n, n ≤ cenHdr → ptrAdd ptr n = ptr + n := fun n hn => ptrAdd_of_lt (by simp only [cenHdr] at hn; omega)
  unfold readFields
  rw [hadd' cenSiz (by decide), hadd' cenLen (by decide), hadd' cenHow (by decide), hadd' cenTim (by decide),
    hadd' cenCrc (by decide), hadd' cenVem (by decide), hadd' cenAtx (by decide)]
  simp only [cenSiz, cenLen, cenHow, cenTim, cenCrc, cenVem, cenAtx]
  refine .bind (get4LE_bails (by omega) (by omega)) fun compLen _ => ?_
  refine .bind (get4LE_bails (by omega) (by omega)) fun uncompLen _ => ?_
  refine .bind (get2LE_bails (by omega) (by omega)) fun compression _ => ?_
  refine .bind (get4LE_bails (by omega) (by omega)) fun modTime _ => ?_
  refine .bind (get4LE_bails (by omega) (by omega)) fun crc32 _ => ?_
  refine .bind (get2LE_bails (by omega) (by omega)) fun versionMadeBy hversion => .check fun hmade => ?_
  refine .bind (get4LE_bails (by omega) (by omega)) fun attributes _ => .check fun hadd => ?_
  -- the local header ends before the address space does, so the comparison means what it says
  have hoff : m.addr + hdr.localHdrOffset + locHdr < 2 ^ 32 := by
    by_contra hlt
    exact hwrap ⟨hdr, versionMadeBy, hhdr, by rwa [hadd' cenVem (by decide)], hmade, not_le.mp hadd, not_lt.mp hlt⟩
  simp only [locHdr] at hoff
  rw [ptrAdd_of_lt (show m.addr + hdr.localHdrOffset + locHdr < 2 ^ 32 by simpa [locHdr] using hoff),
    ptrAdd_of_lt (show m.addr + hdr.localHdrOffset + locNam < 2 ^ 32 by simp only [locNam]; omega),
    ptrAdd_of_lt (show m.addr + hdr.localHdrOffset + locExt < 2 ^ 32 by simp only [locExt]; omega)]
  refine .check fun hlocal => ?_
  simp only [locHdr] at hlocal
  refine .bind (get4LE_bails (by omega) (by omega)) fun sig _ => .check fun _ => ?_
  simp only [locNam, locExt]
  refine .bind (get2LE_bails (by omega) (by omega)) fun nameLen _ => ?_
  refine .bind (get2LE_bails (by omega) (by omega)) fun extraLen _ => ?_
  exact .check fun _ => .check fun _ => .of_ok rfl

theorem get4LE_behind {p : ℕ} (h : m.addr + m.length < p + 4) : get4LE m p = .error .fault := by
  unfold MemMapping.length at h
  have hslice : slice m.data ((p : ℤ) - m.addr) 4 = .error .fault := if_neg (by omega)
  rw [get4LE, sliceLE, hslice]
  rfl

/-- **A local header that wraps around** passes the comparison, and is read behind the mapping. -/
theorem readFields_wraps {hdr : Header} (hroom : Roomy m) (hlo : m.addr ≤ ptr) (hin : ptr + cenHdr ≤ m.addr + m.length)
    (hhdr : readHeader m ptr = .ok hdr) (hwrap : WrapsAt m ptr) : readFields m ptr hdr = .error .fault := by
  obtain ⟨hdr', versionMadeBy, hhdr', hversion, hmade, hlt, hwrap⟩ := hwrap
  obtain rfl := Except.ok.inj (hhdr.symm.trans hhdr')
  unfold Roomy at hroom
  simp only [cenHdr] at hin
  simp only [locHdr] at hwrap
  have hadd : ∀ n, n ≤ cenHdr → ptrAdd ptr n = ptr + n := fun n hn => ptrAdd_of_lt (by simp only [cenHdr] at hn; omega)
  have h4 : ∀ n, n + 4 ≤ cenHdr → ∃ v, get4LE m (ptrAdd ptr n) = .ok v := fun n hn => by
    rw [hadd n (by omega)]
    exact sliceLE_inside (by omega) (by simp only [cenHdr] at hn; omega)
  have h2 : ∀ n, n + 2 ≤ cenHdr → ∃ v, get2LE m (ptrAdd ptr n) = .ok v := fun n hn => by
    rw [hadd n (by omega)]
    exact sliceLE_inside (by omega) (by simp only [cenHdr] at hn; omega)
  obtain ⟨_, hsiz⟩ := h4 cenSiz (by decide)
  obtain ⟨_, hlen⟩ := h4 cenLen (by decide)
  obtain ⟨_, hhow⟩ := h2 cenHow (by decide)
  obtain ⟨_, htim⟩ := h4 cenTim (by decide)
  obtain ⟨_, hcrc⟩ := h4 cenCrc (by decide)
  obtain ⟨_, hatx⟩ := h4 cenAtx (by decide)
  have hpass : ¬ ptrAdd (m.addr + hdr.localHdrOffset) locHdr > m.addr + m.length := by
    have := m.addr_pos
    unfold ptrAdd
    simp only [locHdr]
    omega
  have hread : get4LE m (m.addr + hdr.localHdrOffset) = .error .fault := get4LE_behind (by omega)
  unfold readFields
  rw [hsiz, ok_bind, hlen, ok_bind, hhow, ok_bind, htim, ok_bind, hcrc, ok_bind, hversion, ok_bind, failIf_bind,
    if_neg (show ¬ (_ ∧ _) from hmade), hatx, ok_bind, failIf_bind, if_neg (not_le.mpr hlt)]
  dsimp only
  rw [failIf_bind, if_neg hpass, hread]
  rfl

theorem s32_nonneg_iff {v : ℤ} (h0 : 0 ≤ v) (h : v < 2 ^ 32) : 0 ≤ s32 v ↔ v < 2 ^ 31 := by
  unfold s32
  rw [Int.bmod_def]
  split_ifs <;> omega

/-- **The entry of a record lies inside the mapping** just if its numbers fit into a `long`. -/
theorem readFields_inside_iff {hdr : Header} {e : ZipEntry} (hroom : Roomy m) (hhdr : readHeader m ptr = .ok hdr)
    (h : readFields m ptr hdr = .ok e) : Inside m e ↔ SmallAt m ptr := by
  obtain ⟨-, hoff, -, -, -, -, hname⟩ := readHeader_eq_ok hhdr
  simp only [readFields, bind_eq_ok, failIf_eq_ok, pure_eq_ok] at h
  obtain ⟨compLen, hcomp, uncompLen, huncomp, _, -, _, -, _, -, _, -, _, -, _, -, _, -, _, -, sig, hsig, _, -, nameLen, hnameLen,
    extraLen, hextraLen, _, hadd, _, hend, rfl⟩ := h
  have hc : compLen < 2 ^ 32 := sliceLE_lt hcomp
  have hu : uncompLen < 2 ^ 32 := sliceLE_lt huncomp
  have hn : nameLen < 2 ^ 16 := sliceLE_lt hnameLen
  have hx : extraLen < 2 ^ 16 := sliceLE_lt hextraLen
  -- the local header was read inside the mapping, so the place of the data is a `size_t`
  have hlocal : m.addr + hdr.localHdrOffset + 4 ≤ m.addr + m.length := by
    obtain ⟨r, hr, -⟩ := sliceLE_eq_ok.mp hsig
    have hle := (slice_eq_ok.mp hr).2.1
    unfold MemMapping.length
    omega
  unfold Roomy at hroom
  have hx1 : (hdr.localHdrOffset : ℤ) + locHdr + nameLen + extraLen < 2 ^ 32 := by
    simp only [locHdr]
    omega
  have hoffset := s32_nonneg_iff (v := hdr.localHdrOffset + locHdr + nameLen + extraLen) (by positivity) hx1
  have hcomp' := s32_nonneg_iff (v := compLen) (by positivity) (by omega)
  have huncomp' := s32_nonneg_iff (v := uncompLen) (by positivity) (by omega)
  constructor
  · rintro ⟨h0, h1, h2, -, -⟩
    dsimp only at h0 h1 h2
    refine ⟨fun v hv => ?_, fun v hv => ?_, fun off k l hof hk hl => ?_⟩
    · obtain rfl := Except.ok.inj (hcomp.symm.trans hv)
      exact_mod_cast hcomp'.mp h1
    · obtain rfl := Except.ok.inj (huncomp.symm.trans hv)
      exact_mod_cast huncomp'.mp h2
    · obtain rfl := Except.ok.inj (hoff.symm.trans hof)
      obtain rfl := Except.ok.inj (hnameLen.symm.trans hk)
      obtain rfl := Except.ok.inj (hextraLen.symm.trans hl)
      exact_mod_cast hoffset.mp h0
  · intro hsmall
    have h0 := hoffset.mpr (by exact_mod_cast hsmall.offset _ _ _ hoff hnameLen hextraLen)
    have h1 := hcomp'.mpr (by exact_mod_cast hsmall.compLen _ hcomp)
    have h2 := huncomp'.mpr (by exact_mod_cast hsmall.uncompLen _ huncomp)
    suffices hend : s32 (hdr.localHdrOffset + locHdr + nameLen + extraLen) + s32 compLen ≤ m.length by
      constructor <;> dsimp only
      exacts [h0, h1, h2, hend, ⟨_, hname⟩]
    -- the sum of offset and size is a `long`, so the comparison as `size_t`s is the one of the numbers
    generalize s32 (hdr.localHdrOffset + locHdr + nameLen + extraLen) = offset at hadd hend h0 ⊢
    have hsum : offset + s32 compLen < 2 ^ 31 := by
      rw [← not_not.mp hadd]
      exact Int.bmod_lt (by norm_num)
    rw [u32_of_lt (by omega) (by omega)] at hend
    exact not_lt.mp hend

/-! ### The directory -/

theorem next_in_range {hdr : Header} (hroom : Roomy m) (hlo : m.addr ≤ ptr) (hhi : ptr ≤ m.addr + m.length + 2 ^ 17)
    (hhdr : readHeader m ptr = .ok hdr) :
    ptr + cenHdr ≤ m.addr + m.length ∧
      m.addr ≤ ptrAdd ptr (cenHdr + hdr.fileName.length + hdr.extraLen + hdr.commentLen) ∧
      ptrAdd ptr (cenHdr + hdr.fileName.length + hdr.extraLen + hdr.commentLen) ≤ m.addr + m.length + 2 ^ 17 := by
  obtain ⟨hin, -, hextra, hcomment, hend, hname, -⟩ := readHeader_eq_ok hhdr
  unfold Roomy at hroom
  have hhdr : ptrAdd ptr cenHdr = ptr + cenHdr := ptrAdd_of_lt (by simp only [cenHdr]; omega)
  rw [hhdr] at hin hend
  rw [ptrAdd_of_lt (by omega)] at hend
  rw [ptrAdd_of_lt (by omega)]
  refine ⟨by omega, by omega, by omega⟩

theorem readRecord_eq {hdr : Header} {e : ZipEntry} (hhdr : readHeader m ptr = .ok hdr) (he : readFields m ptr hdr = .ok e) :
    readRecord m ptr = .ok (e, ptrAdd ptr (cenHdr + hdr.fileName.length + hdr.extraLen + hdr.commentLen)) := by
  unfold readRecord
  rw [hhdr, ok_bind, he, ok_bind]
  rfl

/-- **The records are read inside the mapping** just if none of them wraps around. -/
theorem walk_bails_iff (hroom : Roomy m) : ∀ (n ptr : ℕ), m.addr ≤ ptr → ptr ≤ m.addr + m.length + 2 ^ 17 →
    (Bails (walk m n ptr) ↔ Unwrapped m n ptr)
  | 0, _, _, _ => iff_of_true (.of_ok rfl) trivial
  | n + 1, ptr, hlo, hhi => by
    unfold walk Unwrapped
    cases hhdr : readHeader m ptr with
    | error stop =>
      have hread : readRecord m ptr = .error stop := by
        unfold readRecord
        rw [hhdr]
        rfl
      rw [hread]
      refine iff_of_true (fun stop' hstop => ?_) ⟨?_, fun _ _ h => absurd h error_ne_ok⟩
      · cases hstop
        exact readHeader_bails hroom hlo hhi _ hhdr
      · rintro ⟨_, _, hhdr', _⟩
        exact error_ne_ok (hhdr.symm.trans hhdr')
    | ok hdr =>
      obtain ⟨hin, hlo', hhi'⟩ := next_in_range hroom hlo hhi hhdr
      by_cases hwrap : WrapsAt m ptr
      · have hread : readRecord m ptr = .error .fault := by
          unfold readRecord
          rw [hhdr, ok_bind, readFields_wraps hroom hlo hin hhdr hwrap]
          rfl
        rw [hread]
        exact iff_of_false (fun h => absurd (h .fault rfl) (by decide)) fun h => h.1 hwrap
      · cases he : readFields m ptr hdr with
        | error stop =>
          have hread : readRecord m ptr = .error stop := by
            unfold readRecord
            rw [hhdr, ok_bind, he]
            rfl
          rw [hread]
          refine iff_of_true (fun stop' hstop => ?_) ⟨hwrap, fun _ _ h => absurd h error_ne_ok⟩
          cases hstop
          exact readFields_bails hroom hlo hin hhdr hwrap _ he
        | ok e =>
          rw [readRecord_eq hhdr he, ok_bind]
          have ih := walk_bails_iff hroom n _ hlo' hhi'
          constructor
          · intro h
            refine ⟨hwrap, fun e' next hread => ?_⟩
            obtain ⟨-, rfl⟩ := Prod.mk.inj (Except.ok.inj hread)
            refine ih.mp fun stop hstop => h stop ?_
            dsimp only
            rw [hstop]
            rfl
          · rintro ⟨-, h⟩
            exact .bind (ih.mpr (h _ _ rfl)) fun _ _ => .of_ok rfl

theorem walk_inside_iff (hroom : Roomy m) : ∀ (n ptr : ℕ) {rs : List ZipEntry}, walk m n ptr = .ok rs →
    ((∀ e ∈ rs, Inside m e) ↔ Small m n ptr)
  | 0, _, _, h => by
    obtain rfl := pure_eq_ok.mp h
    simp [Small]
  | n + 1, ptr, rs, h => by
    unfold walk at h
    obtain ⟨⟨e, next⟩, hread, h⟩ := bind_eq_ok.mp h
    obtain ⟨rest, hrest, h⟩ := bind_eq_ok.mp h
    obtain rfl := pure_eq_ok.mp h
    have hsmall : Small m (n + 1) ptr ↔ SmallAt m ptr ∧ Small m n next := by
      simp [Small, hread]
    rw [hsmall, List.forall_mem_cons, walk_inside_iff hroom n next hrest]
    unfold readRecord at hread
    obtain ⟨hdr, hhdr, hread⟩ := bind_eq_ok.mp hread
    obtain ⟨e', he', hread⟩ := bind_eq_ok.mp hread
    obtain ⟨rfl, -⟩ := Prod.mk.inj (pure_eq_ok.mp hread)
    rw [readFields_inside_iff hroom hhdr he']

/-- The loop of `parseZipArchive` goes as far as the records can be read. -/
theorem readEntries_walk : ∀ (n ptr : ℕ) (es : List ZipEntry), Sorted es → (∀ e ∈ es, e.Named) →
    (∀ stop, walk m n ptr = .error stop → readEntries m n ptr es = .error stop) ∧
    ∀ rs, walk m n ptr = .ok rs → ∃ es', readEntries m n ptr es = .ok es'
  | 0, _, es, _, _ => ⟨fun _ h => absurd h.symm error_ne_ok, fun _ _ => ⟨es, rfl⟩⟩
  | n + 1, ptr, es, hs, hv => by
    unfold walk readRecord readEntries
    cases hhdr : readHeader m ptr with
    | error stop => exact ⟨fun _ h => by cases h; rfl, fun _ h => absurd h error_ne_ok⟩
    | ok hdr =>
      obtain ⟨high, hsearch, hk, hplace⟩ := searchEntry_place hs hv (readHeader_valid hhdr)
      simp only [ok_bind, hsearch, failIf_bind, if_neg (not_lt.mpr hk)]
      cases he : readFields m ptr hdr with
      | error stop => exact ⟨fun _ h => by cases h; rfl, fun _ h => absurd h error_ne_ok⟩
      | ok e =>
        obtain ⟨hname, hlen⟩ := readFields_name he
        obtain ⟨hsorted, hnamed⟩ := hplace e hname hlen
        obtain ⟨herror, hok⟩ := readEntries_walk n (ptrAdd ptr
          (cenHdr + hdr.fileName.length + hdr.extraLen + hdr.commentLen)) _ hsorted hnamed
        refine ⟨fun stop h => herror stop ?_, fun rs h => ?_⟩
        · simp only [ok_bind, pure_bind] at h
          refine (bind_eq_error.mp h).resolve_right ?_
          rintro ⟨_, _, h⟩
          exact error_ne_ok h.symm
        · simp only [ok_bind, pure_bind] at h
          obtain ⟨rest, hrest, -⟩ := bind_eq_ok.mp h
          exact hok rest hrest

/-- The scan for the end record reads below its start, and finds a place there. -/
theorem findEocd_bails {m : MemMapping} (hlen : endHdr ≤ m.length) : ∀ n, n ≤ m.length + 1 - endHdr →
    Bails (findEocd m n) ∧ ∀ off, findEocd m n = .ok off → off < n
  | 0, _ => by
    refine ⟨fun stop h => (Except.error.inj h).symm, fun off h => ?_⟩
    cases h
  | n + 1, hn => by
    obtain ⟨ih, ih'⟩ := findEocd_bails hlen n (by omega)
    simp only [endHdr] at hn hlen
    unfold findEocd
    constructor
    · refine .bind (get4LE_bails (by omega) (by omega)) fun val _ => ?_
      split_ifs
      · exact .of_ok rfl
      · exact ih
    · intro off h
      obtain ⟨val, -, h⟩ := bind_eq_ok.mp h
      split_ifs at h
      · obtain rfl := pure_eq_ok.mp h
        omega
      · have := ih' off h
        omega

theorem readEnd_bails (hlen : endHdr ≤ m.length) : Bails (readEnd m) := by
  obtain ⟨hfind, hlt⟩ := findEocd_bails hlen (m.length + 1 - endHdr) le_rfl
  unfold readEnd
  refine .bind hfind fun off hoff => ?_
  have hoff := hlt off hoff
  simp only [endHdr, endSub, endOff] at hoff hlen ⊢
  refine .bind (get2LE_bails (by omega) (by omega)) fun numEntries _ => ?_
  refine .bind (get4LE_bails (by omega) (by omega)) fun cdOffset _ => ?_
  exact .check fun _ => .of_ok rfl

theorem readEnd_cdOffset {off n cdOffset : ℕ} (h : readEnd m = .ok (off, n, cdOffset)) : cdOffset < m.length := by
  simp only [readEnd, bind_eq_ok, failIf_eq_ok, pure_eq_ok] at h
  obtain ⟨_, -, _, -, cd, -, _, hc, h⟩ := h
  obtain ⟨-, -, rfl⟩ : _ ∧ _ ∧ cd = cdOffset := by simpa using h
  omega

theorem readDirectory_walk {n cdOffset : ℕ} (h0 : 0 < n) (hn : n < 2 ^ 16) :
    (∀ stop, walk m n (m.addr + cdOffset) = .error stop → readDirectory m n cdOffset = .error stop) ∧
    ∀ rs, walk m n (m.addr + cdOffset) = .ok rs → ∃ a, readDirectory m n cdOffset = .ok a ∧ a.pEntries.Perm rs := by
  obtain ⟨t, ht, hfits, hnum, hdead, hfill, hsmall, hempty⟩ := mzHashTableCreate_spec ℕ h0 (by omega)
  obtain ⟨herror, hok⟩ := readEntries_walk (m := m) n (m.addr + cdOffset) [] .nil (by simp)
  unfold readDirectory
  rw [ht, ok_bind]
  refine ⟨fun stop h => by rw [herror stop h]; rfl, fun rs h => ?_⟩
  obtain ⟨es, hes⟩ := hok rs h
  obtain ⟨-, hv, rs', hwalk, hrs, hperm⟩ := readEntries_spec .nil (by simp) hes
  obtain rfl := Except.ok.inj (h.symm.trans hwalk)
  have hlen : es.length = n := by rw [hperm.length_eq, List.nil_append, hrs]
  have hent : Entered es 0 t := ⟨hfits, hlen ▸ hfill, hsmall, hnum.le, hdead, fun h i hh => absurd hh (hempty h i),
    fun i e hi => absurd hi (by omega)⟩
  obtain ⟨t', hadds, -⟩ := addEntries_spec hv rfl (Nat.zero_le _) hent
  rw [List.drop_zero] at hadds
  rw [hes, ok_bind, hadds, ok_bind]
  exact ⟨_, rfl, hperm⟩

/-- **Entries lie inside the mapping** just if no local header wraps around the address space and, if all records can be read, their
numbers fit into a `long`: then `parseZipArchive` reads only inside the mapping, and the data and the name of every entry of an
accepted archive lie in it. -/
theorem parseZipArchive_inside (hlen : endHdr ≤ m.length) (hroom : Roomy m) :
    ((∀ stop, parseZipArchive m = .error stop → stop = bail) ∧
      ∀ a, parseZipArchive m = .ok a → ∀ e ∈ a.pEntries, 0 ≤ e.offset ∧ 0 ≤ e.compLen ∧ 0 ≤ e.uncompLen ∧
        e.offset + e.compLen ≤ m.length ∧ ∃ i : ℤ, slice m.data i e.fileNameLen = .ok e.fileName) ↔ Bounded m := by
  have hinside : ∀ e : ZipEntry, (0 ≤ e.offset ∧ 0 ≤ e.compLen ∧ 0 ≤ e.uncompLen ∧ e.offset + e.compLen ≤ m.length ∧
      ∃ i : ℤ, slice m.data i e.fileNameLen = .ok e.fileName) ↔ Inside m e := by
    intro e
    constructor
    · rintro ⟨h0, h1, h2, h3, h4⟩
      exact ⟨h0, h1, h2, h3, h4⟩
    · rintro ⟨h0, h1, h2, h3, h4⟩
      exact ⟨h0, h1, h2, h3, h4⟩
  simp only [hinside]
  obtain ⟨val, hval⟩ := sliceLE_inside (m := m) (p := m.addr) (n := 4) le_rfl (by simp only [endHdr] at hlen; omega)
  have hval : get4LE m m.addr = .ok val := hval
  unfold Bounded
  rw [parseZipArchive, hval, ok_bind, failIf_bind, failIf_bind]
  by_cases hsig : val = locSig
  swap
  · have hstop : ∀ x : Except Stop ZipArchive, (if val = endSig then .error bail else if val ≠
      locSig then .error bail else x) = .error bail := by
      intro x
      split_ifs <;> rfl
    rw [hstop]
    refine iff_of_true ⟨fun _ h => (Except.error.inj h).symm, fun _ h => absurd h error_ne_ok⟩ fun off n cd h => ?_
    exact absurd (Except.ok.inj h) hsig
  rw [if_neg (by rw [hsig]; decide), if_neg (not_not.mpr hsig)]
  cases hend : readEnd m with
  | error stop =>
    refine iff_of_true ⟨fun stop' h => ?_, fun _ h => absurd h error_ne_ok⟩
      fun off n cd _ h => absurd h error_ne_ok
    cases h
    exact readEnd_bails hlen _ hend
  | ok r =>
    obtain ⟨off, n, cd⟩ := r
    obtain ⟨h0, hn⟩ := readEnd_pos hend
    have hcd := readEnd_cdOffset hend
    obtain ⟨herror, hok⟩ := @readDirectory_walk m n cd h0 hn
    have hbails := walk_bails_iff hroom n (m.addr + cd) (by omega) (by omega)
    have hbounded : (∀ off' n' cd', .ok val = (.ok locSig : Except Stop ℕ) →
      (.ok (off, n, cd) : Except Stop (ℕ × ℕ × ℕ)) = .ok (off', n', cd') →
        Unwrapped m n' (m.addr + cd') ∧ ∀ rs, walk m n' (m.addr + cd') = .ok rs → Small m n' (m.addr + cd')) ↔
        Bails (walk m n (m.addr + cd)) ∧ ∀ rs, walk m n (m.addr + cd) = .ok rs → ∀ e ∈ rs, Inside m e := by
      rw [hbails]
      constructor
      · intro h
        obtain ⟨hunwrapped, hsmall⟩ := h off n cd (congrArg _ hsig) rfl
        exact ⟨hunwrapped, fun rs hrs => (walk_inside_iff hroom n _ hrs).mpr (hsmall rs hrs)⟩
      · rintro ⟨hunwrapped, hsmall⟩ _ _ _ - ⟨⟩
        exact ⟨hunwrapped, fun rs hrs => (walk_inside_iff hroom n _ hrs).mp (hsmall rs hrs)⟩
    rw [hbounded, ok_bind]
    dsimp only
    cases hwalk : walk m n (m.addr + cd) with
    | error stop =>
      rw [herror stop hwalk]
      exact ⟨fun h => ⟨fun stop' h' => h.1 stop' (by cases h'; rfl), fun _ h => absurd h error_ne_ok⟩,
        fun h => ⟨fun stop' h' => h.1 stop' (by cases h'; rfl), fun _ h => absurd h error_ne_ok⟩⟩
    | ok rs =>
      obtain ⟨a, ha, hperm⟩ := hok rs hwalk
      rw [ha]
      refine ⟨fun h => ⟨fun _ h => absurd h.symm error_ne_ok, fun rs' h' => ?_⟩,
        fun h => ⟨fun _ h => absurd h.symm error_ne_ok, fun a' h' => ?_⟩⟩
      · obtain rfl := Except.ok.inj h'
        exact fun e he => h.2 a rfl e (hperm.mem_iff.mpr he)
      · obtain rfl := Except.ok.inj h'
        exact fun e he => h.2 rs rfl e (hperm.mem_iff.mp he)

/-! ### Deciding whether an archive is bounded -/

/-- A property of the value that is read, if one is. -/
def okAll (x : Except Stop α) (p : α → Bool) : Bool :=
  match x with
  | .ok a => p a
  | .error _ => true

theorem okAll_eq_true {x : Except Stop α} {p : α → Bool} : okAll x p = true ↔ ∀ a, x = .ok a → p a = true := by
  cases x with
  | error e => simp [okAll]
  | ok a => simp [okAll]

/-- Enough for a record: its sizes are below `2 ^ 31`, and its local header is far from it. -/
def plainAt (m : MemMapping) (ptr : ℕ) : Bool :=
  okAll (get4LE m (ptrAdd ptr cenSiz)) (fun v => v < 2 ^ 31) && okAll (get4LE m (ptrAdd ptr cenLen)) (fun v => v < 2 ^ 31) &&
    okAll (get4LE m (ptrAdd ptr cenOff)) (fun v => v + 2 ^ 18 ≤ 2 ^ 31 && m.addr + v + locHdr < 2 ^ 32)

theorem plainAt_sound (h : plainAt m ptr = true) : ¬ WrapsAt m ptr ∧ SmallAt m ptr := by
  simp only [plainAt, Bool.and_eq_true, okAll_eq_true, decide_eq_true_eq] at h
  refine ⟨fun ⟨hdr, _, hhdr, _, _, _, hwrap⟩ => ?_, h.1.1, h.1.2, fun off k l hoff hk hl => ?_⟩
  · have := (h.2 _ (readHeader_eq_ok hhdr).2.1).2
    omega
  · have hfar := (h.2 _ hoff).1
    have hk : k < 2 ^ 16 := sliceLE_lt hk
    have hl : l < 2 ^ 16 := sliceLE_lt hl
    simp only [locHdr]
    omega

/-- The first `n` records from `ptr` on are plain. -/
def plainFrom (m : MemMapping) : ℕ → ℕ → Bool
  | 0, _ => true
  | n + 1, ptr => plainAt m ptr && okAll (readRecord m ptr) (fun r => plainFrom m n r.2)

theorem plainFrom_sound : ∀ {n ptr : ℕ}, plainFrom m n ptr = true → Unwrapped m n ptr ∧ Small m n ptr
  | 0, _, _ => ⟨trivial, trivial⟩
  | n + 1, ptr, h => by
    simp only [plainFrom, Bool.and_eq_true, okAll_eq_true] at h
    obtain ⟨hunwrapped, hsmall⟩ := plainAt_sound h.1
    exact ⟨⟨hunwrapped, fun e next hread => (plainFrom_sound (h.2 _ hread)).1⟩, hsmall,
      fun e next hread => (plainFrom_sound (h.2 _ hread)).2⟩

theorem bounded_of_plainFrom (h : okAll (readEnd m) (fun r => plainFrom m r.2.1 (m.addr + r.2.2)) = true) : Bounded m := by
  intro off n cdOffset _ hend
  obtain ⟨hunwrapped, hsmall⟩ := plainFrom_sound (okAll_eq_true.mp h _ hend)
  exact ⟨hunwrapped, fun _ _ => hsmall⟩

/-- The two entries of `sampleZip` lie inside it. -/
theorem sampleZip_inside : endHdr ≤ sampleZip.length ∧ Roomy sampleZip ∧ Bounded sampleZip ∧
    ∃ a, parseZipArchive sampleZip = .ok a ∧ a.pEntries.map (·.fileName) = [lit "a", lit "a"] ∧
      ∀ e ∈ a.pEntries, 0 ≤ e.offset ∧ 0 ≤ e.compLen ∧ 0 ≤ e.uncompLen ∧ e.offset + e.compLen ≤ sampleZip.length ∧
        ∃ i : ℤ, slice sampleZip.data i e.fileNameLen = .ok e.fileName := by
  have hlen : endHdr ≤ sampleZip.length := by decide +kernel
  have hroom : Roomy sampleZip := by unfold Roomy; decide +kernel
  have hbounded : Bounded sampleZip := bounded_of_plainFrom (by decide +kernel)
  obtain ⟨a, ha, hnames⟩ := sampleZip_accepted
  exact ⟨hlen, hroom, hbounded, a, ha, hnames, ((parseZipArchive_inside hlen hroom).mpr hbounded).2 a ha⟩

/-! ### Records that are not plain -/

/-- An archive with one stored file `a`, with these sizes and this offset. -/
def oneEntryZip (compLen uncompLen localHdrOffset : ℕ) : Bytes :=
  sampleLocal ++
    ([0x50, 0x4b, 1, 2] ++ List.replicate 16 0 ++ LittleEndian.toBytes 4 compLen ++ LittleEndian.toBytes 4 uncompLen ++
      [1, 0] ++ List.replicate 12 0 ++ LittleEndian.toBytes 4 localHdrOffset ++ lit "a") ++
    [0x50, 0x4b, 5, 6, 0, 0, 0, 0, 1, 0, 1, 0, 47, 0, 0, 0, 31, 0, 0, 0, 0, 0]

def negativeZip : MemMapping := ⟨4096, oneEntryZip 0xffffffff 0x80000000 0, page_pos, by decide +kernel⟩

/-- A local header 16 bytes before the end of the address space. -/
def wrappingZip : MemMapping := ⟨4096, oneEntryZip 0 0 (2 ^ 32 - 16 - 4096), page_pos, by decide +kernel⟩

/-- **Entries that do not lie in the mapping.** An archive is accepted whose entry has a compressed size of -1 and an
uncompressed size of -2^31, and for another one `parseZipArchive` reads outside the mapping. -/
theorem unbounded_entries : endHdr ≤ negativeZip.length ∧ Roomy negativeZip ∧
    (∃ a, parseZipArchive negativeZip = .ok a ∧ a.pEntries.map (fun e => (e.offset, e.compLen, e.uncompLen)) = [(31, -1, -2 ^ 31)]) ∧
    endHdr ≤ wrappingZip.length ∧ Roomy wrappingZip ∧ parseZipArchive wrappingZip = .error .fault := by
  have hneg : ∃ a, parseZipArchive negativeZip = .ok a ∧
      a.pEntries.map (fun e => (e.offset, e.compLen, e.uncompLen)) = [(31, -1, -2 ^ 31)] := by
    have h : (match parseZipArchive negativeZip with
        | .ok a => decide (a.pEntries.map (fun e => (e.offset, e.compLen, e.uncompLen)) = [(31, -1, -2 ^ 31)])
        | .error _ => false) = true := by decide +kernel
    split at h
    · rename_i a ha
      exact ⟨a, ha, of_decide_eq_true h⟩
    · cases h
  have hwrap : parseZipArchive wrappingZip = .error .fault := by
    have h : (match parseZipArchive wrappingZip with
        | .error stop => decide (stop = .fault)
        | .ok _ => false) = true := by decide +kernel
    split at h
    · rename_i stop hstop
      rw [hstop, of_decide_eq_true h]
    · cases h
  refine ⟨by decide +kernel, by unfold Roomy; decide +kernel, hneg, by decide +kernel, by unfold Roomy; decide +kernel, hwrap⟩

end Zip
end Recovery
