/-
# An image patch is read back

`Applies`: what the patch of a chunk has to be for the decoder to make `out` of it. If that
holds for every chunk, `ApplyImagePatch` returns 0 and emits the outputs in order
(`apply_imagePatch`).
-/
import Recovery.Diff.ImgDiff

namespace Recovery
namespace Diff

open Arrays Patch

variable {cod : Codecs} (bz : Bzip cod)

/-- `patch` is a bsdiff patch from `old` to `new`, with sizes the decoder can handle. -/
structure Bridges (old new patch : Bytes) : Prop where
  small : new.length < 2 ^ 31
  script : ∃ out : Streams, patch = patchFile bz.compress new.length out ∧
    Script old new 0 0 out.ctrl out.db out.eb ∧ out.ctrl.length < cod.steps

/-- The parameters fit into an `int` each. -/
structure FitsInt (p : DeflateParams) : Prop where
  level : -2 ^ 31 ≤ p.level ∧ p.level < 2 ^ 31
  method : -2 ^ 31 ≤ p.method ∧ p.method < 2 ^ 31
  windowBits : -2 ^ 31 ≤ p.windowBits ∧ p.windowBits < 2 ^ 31
  memLevel : -2 ^ 31 ≤ p.memLevel ∧ p.memLevel < 2 ^ 31
  strategy : -2 ^ 31 ≤ p.strategy ∧ p.strategy < 2 ^ 31

/-- The decoder makes `out` of the chunk and its patch. -/
inductive Applies (source : Bytes) : Patched → Bytes → Prop
  | raw {c : ImageChunk} {out : Bytes} (htype : c.type = .raw) : Applies source (c, out) out
  | normal {c : ImageChunk} {patch out : Bytes} (htype : c.type = .normal)
      (hsrc : c.sourceStart + c.sourceLen ≤ source.length)
      (hpatch : Bridges bz ((source.drop c.sourceStart).take c.sourceLen) out patch) : Applies source (c, patch) out
  | deflate {c : ImageChunk} {data new patch out : Bytes} (htype : c.type = .deflate)
      (hsrc : c.sourceStart + c.sourceLen ≤ source.length) (hsmall : data.length < 2 ^ 31)
      (hinf : cod.inflate ((source.drop c.sourceStart).take c.sourceLen) c.sourceUncompressedLen = (zStreamEnd, data))
      (hlen : data.length = c.sourceUncompressedLen) (hpatch : Bridges bz data new patch) (hfits : FitsInt c.params)
      (hdef : cod.deflate c.params new = some out) : Applies source (c, patch) out

variable {bz}

/-! ### Fields -/

@[simp] theorem length_write4 (v : ℤ) : (write4 v).length = 4 := LittleEndian.length_toBytes _ _
@[simp] theorem length_write8 (v : ℕ) : (write8 v).length = 8 := LittleEndian.length_toBytes _ _

/-- The bytes are in the file at the offset. -/
def Holds (file : Bytes) (i : ℤ) (x : Bytes) : Prop := ∃ a b, file = a ++ (x ++ b) ∧ i = a.length

variable {file x y : Bytes} {i : ℤ}

theorem Holds.left (h : Holds file i (x ++ y)) : Holds file i x := by
  obtain ⟨a, b, hfile, hi⟩ := h
  exact ⟨a, y ++ b, by rw [hfile, List.append_assoc], hi⟩

theorem Holds.right (h : Holds file i (x ++ y)) {k : ℤ} (hk : k = i + x.length) : Holds file k y := by
  obtain ⟨a, b, hfile, hi⟩ := h
  exact ⟨a ++ x, b, by rw [hfile, List.append_assoc, List.append_assoc], by rw [hk, hi, List.length_append, Nat.cast_add]⟩

theorem Holds.slice (h : Holds file i x) {n : ℕ} (hn : n = x.length) : slice file i n = .ok x := by
  obtain ⟨a, b, rfl, hi⟩ := h
  exact slice_append a x b hi hn

theorem Holds.read8 {v : ℕ} (h : Holds file i (write8 v)) (hv : v < 2 ^ 31) : read8 file i = .ok v := by
  have hslice : sliceLE file i 8 = .ok v := by
    refine sliceLE_eq_ok.mpr ⟨write8 v, h.slice (length_write8 v).symm, ?_⟩
    rw [write8, LittleEndian.ofBytes_toBytes (by omega)]
  unfold Patch.read8
  rw [hslice, ok_bind, u32_of_lt (by omega) (by omega)]
  rfl

theorem Holds.read4 {v : ℤ} (h : Holds file i (write4 v)) (h₁ : -2 ^ 31 ≤ v) (h₂ : v < 2 ^ 31) : read4 file i = .ok v := by
  have hslice : sliceLE file i 4 = .ok (v % 2 ^ 32).toNat := by
    refine sliceLE_eq_ok.mpr ⟨write4 v, h.slice (length_write4 v).symm, ?_⟩
    rw [write4, LittleEndian.ofBytes_toBytes (by omega)]
  unfold Patch.read4
  rw [hslice, ok_bind]
  have hs : s32 ((v % 2 ^ 32).toNat : ℤ) = v := by
    unfold s32
    rw [Int.toNat_of_nonneg (by omega), show (2 : ℤ) ^ 32 = ((2 ^ 32 : ℕ) : ℤ) by norm_num, Int.emod_bmod]
    exact s32_of_lt h₁ h₂
  rw [hs]
  rfl

theorem Holds.next8 {v : ℕ} (h : Holds file i (write8 v ++ y)) (hv : v < 2 ^ 31) :
    Patch.read8 file i = .ok v ∧ Holds file (i + 8) y :=
  ⟨h.left.read8 hv, h.right (by rw [length_write8]; rfl)⟩

theorem Holds.next4 {v : ℤ} (h : Holds file i (write4 v ++ y)) (h₁ : -2 ^ 31 ≤ v) (h₂ : v < 2 ^ 31) :
    Patch.read4 file i = .ok v ∧ Holds file (i + 4) y :=
  ⟨h.left.read4 h₁ h₂, h.right (by rw [length_write4]; rfl)⟩

@[simp] theorem length_record (offset : ℕ) (p : Patched) : (record offset p).length = recordSize p := by
  unfold record recordSize
  cases p.1.type <;> simp

/-! ### Chunks -/

theorem Bridges.apply {old new patch : Bytes} (hb : Bridges bz old new patch) {o : OldData} (hv : Views o old)
    {file a b : Bytes} (hfile : file = a ++ (patch ++ b)) (hsmall : file.length < 2 ^ 31) :
    applyBSDiffPatchMem cod o file a.length = .ok new := by
  obtain ⟨out, rfl, hscript, hsteps⟩ := hb.script
  subst hfile
  exact apply_patchFile bz hv hb.small hscript hsteps a b hsmall

theorem views_slice {source : Bytes} {start len : ℕ} (hle : start + len ≤ source.length) (hsmall : source.length < 2 ^ 31) :
    Views ⟨source, start, len⟩ ((source.drop start).take len) := by
  have hlen : ((source.drop start).take len).length = len := by rw [List.length_take, List.length_drop]; omega
  refine ⟨by simp, by rw [hlen]; simp only; omega, hsmall, by rw [hlen], ?_⟩
  rw [hlen]
  simp

def flatChunk : Chunk → Bytes
  | .normal newData => newData.getD []
  | .raw data => data
  | .deflate pieces => pieces.flatten

theorem piecesOf_flatten (size : ℕ) : ∀ (n : ℕ) (out : Bytes), (piecesOf size n out).flatten = out
  | 0, out => by simp [piecesOf]
  | n + 1, out => by
    unfold piecesOf
    split_ifs
    · simp
    · rw [List.flatten_cons, piecesOf_flatten size n, List.take_append_drop]

section Records

variable {source out : Bytes} {ch : ImageChunk} {c d patch : Bytes}

theorem rawChunk_ok (h : Holds file i (write4 out.length ++ out)) (hi : i + 4 + out.length ≤ file.length) (h0 : 0 ≤ i)
    (hfile : file.length < 2 ^ 31) : rawChunk file i = .ok (.raw out, i + 4 + out.length) := by
  obtain ⟨hlen, hdata⟩ := h.next4 (by omega) (by omega)
  unfold rawChunk
  rw [failIf_bind, if_neg (by rw [s32_of_lt (by omega) (by omega)]; omega), hlen, ok_bind, failIf_bind,
    if_neg (by rw [s32_of_lt (by omega) (by omega)]; omega), failIf_bind, if_neg (by omega),
      Int.toNat_natCast, hdata.slice rfl, ok_bind]
  rfl

theorem normalChunk_ok (hsrc : ch.sourceStart + ch.sourceLen ≤ source.length) (hsource : source.length < 2 ^ 31)
    (hpatch : Bridges bz ((source.drop ch.sourceStart).take ch.sourceLen) out patch) (hbody : file = c ++ (patch ++ d))
    (h : Holds file i (write8 ch.sourceStart ++ (write8 ch.sourceLen ++ write8 c.length))) (hi : i + 24 ≤ file.length) (h0 : 0 ≤ i)
    (hfile : file.length < 2 ^ 31) : normalChunk cod source file i = .ok (.normal (some out), i + 24) := by
  have hclen : c.length ≤ file.length := by simp [hbody]
  obtain ⟨hstart, h⟩ := h.next8 (by omega)
  obtain ⟨hlen, h⟩ := h.next8 (by omega)
  simp only [add_assoc, Int.reduceAdd] at h
  unfold normalChunk
  rw [failIf_bind, if_neg (by rw [s32_of_lt (by omega) (by omega)]; omega), hstart, ok_bind,
    hlen, ok_bind, h.read8 (by omega), ok_bind,
    s32_of_lt (x := (ch.sourceLen : ℤ)) (by omega) (by omega), s32_of_lt (x := (c.length : ℤ)) (by omega) (by omega),
    hpatch.apply (views_slice hsrc hsource) hbody hfile]
  rfl

theorem expandSource_ok {data : Bytes} (hsrc : ch.sourceStart + ch.sourceLen ≤ source.length) (hsource : source.length < 2 ^ 31)
    (hinf : cod.inflate ((source.drop ch.sourceStart).take ch.sourceLen) ch.sourceUncompressedLen = (zStreamEnd, data))
    (hdlen : data.length = ch.sourceUncompressedLen) :
    expandSource cod source ch.sourceStart ch.sourceLen ch.sourceUncompressedLen [] = .ok data := by
  unfold expandSource inputAt
  rw [s32_of_lt (by omega) (by omega), if_pos (by omega), Int.toNat_natCast, Int.toNat_natCast, Int.toNat_natCast]
  simp only [hinf, failIf_bind]
  rw [if_neg (by simp), if_neg (by simp), if_neg (by simp [hdlen]), List.append_nil]
  rfl

theorem deflateChunk_ok {data new : Bytes} (hsrc : ch.sourceStart + ch.sourceLen ≤ source.length) (hsource : source.length < 2 ^ 31)
    (hsmall : data.length < 2 ^ 31)
    (hinf : cod.inflate ((source.drop ch.sourceStart).take ch.sourceLen) ch.sourceUncompressedLen = (zStreamEnd, data))
    (hdlen : data.length = ch.sourceUncompressedLen) (hpatch : Bridges bz data new patch) (hfits : FitsInt ch.params)
    (hdef : cod.deflate ch.params new = some out) (hbody : file = c ++ (patch ++ d))
    (h : Holds file i (write8 ch.sourceStart ++ (write8 ch.sourceLen ++ (write8 c.length ++ (write8 ch.sourceUncompressedLen ++
      (write8 ch.len ++ (write4 ch.params.level ++ (write4 ch.params.method ++ (write4 ch.params.windowBits ++
        (write4 ch.params.memLevel ++ write4 ch.params.strategy))))))))))
    (hi : i + 60 ≤ file.length) (h0 : 0 ≤ i) (hfile : file.length < 2 ^ 31) :
    ∃ pieces, deflateChunk cod source file [] i = .ok (.deflate pieces, i + 60) ∧ pieces.flatten = out := by
  have hclen : c.length ≤ file.length := by simp [hbody]
  obtain ⟨hstart, h⟩ := h.next8 (by omega)
  obtain ⟨hlen, h⟩ := h.next8 (by omega)
  obtain ⟨hoffset, h⟩ := h.next8 (by omega)
  obtain ⟨hexpanded, h⟩ := h.next8 (by omega)
  -- the length of the target chunk is not read
  replace h := h.right (k := i + 40) (by rw [length_write8]; push_cast; ring)
  obtain ⟨hlevel, h⟩ := h.next4 hfits.level.1 hfits.level.2
  obtain ⟨hmethod, h⟩ := h.next4 hfits.method.1 hfits.method.2
  obtain ⟨hwindow, h⟩ := h.next4 hfits.windowBits.1 hfits.windowBits.2
  obtain ⟨hmem, h⟩ := h.next4 hfits.memLevel.1 hfits.memLevel.2
  have hstrategy := h.read4 hfits.strategy.1 hfits.strategy.2
  simp only [add_assoc, Int.reduceAdd] at hoffset hexpanded hmethod hwindow hmem hstrategy
  have hsu : s32 (ch.sourceUncompressedLen : ℤ) = data.length := by
    rw [s32_of_lt (by omega) (by omega), hdlen]
  have happly : applyBSDiffPatchMem cod ⟨data, 0, data.length⟩ file c.length = .ok new :=
    hpatch.apply (views_whole hsmall) hbody hfile
  unfold deflateChunk
  rw [failIf_bind, if_neg (by rw [s32_of_lt (by omega) (by omega)]; omega), hstart, ok_bind, hlen, ok_bind, hoffset, ok_bind,
    hexpanded, ok_bind, hlevel, ok_bind, hmethod, ok_bind, hwindow, ok_bind, hmem, ok_bind, hstrategy, ok_bind,
    expandSource_ok hsrc hsource hinf hdlen, ok_bind, hsu, s32_of_lt (x := (c.length : ℤ)) (by omega) (by omega), happly]
  simp only [orReturn, ok_bind, hdef]
  exact ⟨_, rfl, piecesOf_flatten _ _ _⟩

end Records

/-- The record of a chunk is read, and the chunk is what its patch makes of the source. -/
theorem Applies.chunkAt {source out : Bytes} {p : Patched} (happ : Applies bz source p out)
    (hsource : source.length < 2 ^ 31) {file a b c d : Bytes} (hfile : file.length < 2 ^ 31)
    (hrec : file = a ++ (record c.length p ++ b)) (hbody : file = c ++ (body p ++ d)) (i : ℕ) :
    ∃ chunk, chunkAt cod source file none i a.length = .ok (chunk, (a.length + recordSize p : ℕ)) ∧
      flatChunk chunk = out := by
  have hlen : file.length = a.length + (recordSize p + b.length) := by simp [hrec]
  have h : Holds file a.length (record c.length p) := ⟨a, b, hrec, rfl⟩
  have hroom : 4 ≤ recordSize p := by
    unfold recordSize
    cases p.1.type <;> simp only <;> omega
  have hbonus : (if i = 1 then ((none : Option Value).map (·.data)).getD [] else []) = ([] : Bytes) := ite_self _
  unfold Patch.chunkAt
  rw [failIf_bind, if_neg (by rw [s32_of_lt (by omega) (by omega)]; omega), hbonus]
  cases happ with
  | @raw ch _ htype =>
    have hsize : recordSize (ch, out) = 8 + out.length := by simp [recordSize, htype]; omega
    obtain ⟨htag, h⟩ := Holds.next4 (v := chunkRaw) (y := write4 out.length ++ out) (by simpa [record, htype, ChunkType.code] using h)
      (by decide) (by decide)
    rw [htag, ok_bind, if_neg (by decide), if_pos rfl, rawChunk_ok h (by omega) (by omega) hfile, hsize]
    exact ⟨.raw out, by congr 2; push_cast; ring, rfl⟩
  | @normal ch patch _ htype hsrc hpatch =>
    have hsize : recordSize (ch, patch) = 28 := by simp [recordSize, htype]
    have hb : body (ch, patch) = patch := by simp [body, htype]
    rw [hb] at hbody
    obtain ⟨htag, h⟩ := Holds.next4 (v := chunkNormal) (y := write8 ch.sourceStart ++ (write8 ch.sourceLen ++ write8 c.length))
      (by simpa [record, htype, ChunkType.code] using h) (by decide) (by decide)
    rw [htag, ok_bind, if_pos rfl, normalChunk_ok hsrc hsource hpatch hbody h (by omega) (by omega) hfile, hsize]
    exact ⟨.normal (some out), rfl, rfl⟩
  | @deflate ch data new patch _ htype hsrc hsmall hinf hdlen hpatch hfits hdef =>
    have hsize : recordSize (ch, patch) = 64 := by simp [recordSize, htype]
    have hb : body (ch, patch) = patch := by simp [body, htype]
    rw [hb] at hbody
    simp only [record, htype, ChunkType.code] at h
    obtain ⟨htag, h⟩ := h.next4 (by decide) (by decide)
    obtain ⟨pieces, hrun, hflat⟩ := deflateChunk_ok hsrc hsource hsmall hinf hdlen hpatch hfits
      hdef hbody h (by omega) (by omega) hfile
    rw [htag, ok_bind, if_neg (by decide), if_neg (by decide), if_pos rfl, hrun, hsize]
    exact ⟨.deflate pieces, rfl, hflat⟩

/-! ### The whole patch -/

def memorySink : Sink Bytes := fun token data => pure (data.length, token ++ data)

theorem run_pure_bind {α β : Type} (a : α) (f : α → Run β) : (pure a >>= f) = f a := by
  funext ev n s
  rfl

theorem sinkPieces_memory : ∀ (pieces : List Bytes) (o : Sunk Bytes),
    sinkPieces memorySink pieces o = pure (0, ⟨o.token ++ pieces.flatten, o.ctx ++ pieces.flatten⟩)
  | [], o => by simp [sinkPieces]
  | piece :: pieces, o => by
    show (if (piece.length : ℤ) ≠ piece.length then _ else sinkPieces memorySink pieces ⟨o.token ++ piece, o.ctx ++ piece⟩) = _
    rw [if_neg (by simp), sinkPieces_memory pieces]
    simp

theorem sinkChunk_memory (c : Chunk) (o : Sunk Bytes) :
    sinkChunk memorySink c o = pure (0, ⟨o.token ++ flatChunk c, o.ctx ++ flatChunk c⟩) := by
  cases c with
  | normal newData =>
    cases newData with
    | none => simp [sinkChunk, flatChunk]
    | some data =>
      have hsink : sinkThenHash memorySink data o = pure (0, ⟨o.token ++ data, o.ctx ++ data⟩) := by
        show (if (data.length : ℤ) < data.length then _ else _) = _
        rw [if_neg (by simp)]
      simp only [sinkChunk, hsink]
      rfl
  | raw data =>
    show (pure (if (data.length : ℤ) ≠ data.length then -1 else 0, _) : Run _) = _
    rw [if_neg (by simp)]
    rfl
  | deflate pieces => exact sinkPieces_memory pieces o

theorem imageLoop_step {old patch : Bytes} {n i : ℕ} {pos pos' : ℤ} {o : Sunk Bytes} {chunk : Chunk}
    (h : chunkAt cod old patch none i pos = .ok (chunk, pos')) :
    imageLoop cod memorySink old patch none (n + 1) i pos o =
      imageLoop cod memorySink old patch none n (i + 1) pos' ⟨o.token ++ flatChunk chunk, o.ctx ++ flatChunk chunk⟩ := by
  rw [imageLoop, h]
  show (sinkChunk memorySink chunk o >>= fun r => if r.1 ≠ 0 then pure (r.1, r.2) else
    imageLoop cod memorySink old patch none n (i + 1) pos' r.2) = _
  rw [sinkChunk_memory, run_pure_bind, if_neg (by simp)]

theorem imageLoop_records {source : Bytes} (hsource : source.length < 2 ^ 31) {file : Bytes} (hfile : file.length < 2 ^ 31) :
    ∀ (ps : List Patched) (outs : List Bytes), List.Forall₂ (Applies bz source) ps outs → ∀ (i : ℕ) (a b c d : Bytes)
      (o : Sunk Bytes), file = a ++ (records c.length ps ++ b) → file = c ++ (ps.flatMap body ++ d) →
    imageLoop cod memorySink source file none ps.length i a.length o =
      pure (0, ⟨o.token ++ outs.flatten, o.ctx ++ outs.flatten⟩) := by
  intro ps outs happ
  induction happ with
  | nil =>
    intro i a b c d o _ _
    simp [imageLoop]
  | @cons p out ps outs hp _ ih =>
    intro i a b c d o hrec hbody
    rw [records, List.append_assoc] at hrec
    rw [List.flatMap_cons, List.append_assoc] at hbody
    obtain ⟨chunk, hchunk, hflat⟩ := hp.chunkAt hsource hfile hrec hbody i
    have hrest := ih (i + 1) (a ++ record c.length p) b (c ++ body p) d
      ⟨o.token ++ flatChunk chunk, o.ctx ++ flatChunk chunk⟩ (by simpa using hrec) (by simpa using hbody)
    rw [List.length_append, length_record, hflat] at hrest
    rw [List.length_cons, imageLoop_step hchunk, hflat, hrest]
    simp

theorem length_records : ∀ (ps : List Patched) (offset : ℕ), (records offset ps).length = (ps.map recordSize).sum
  | [], _ => rfl
  | p :: ps, offset => by simp [records, length_records ps]

/-- **An image patch whose chunks apply is applied as a whole.** -/
theorem apply_imagePatch {source : Bytes} (hsource : source.length < 2 ^ 31) {ps : List Patched} {outs : List Bytes}
    (happ : List.Forall₂ (Applies bz source) ps outs) (patch : Value) (hpatch : patch.data = imagePatch ps) :
    applyImagePatch cod memorySink source patch none ⟨[], []⟩ = pure (0, ⟨outs.flatten, outs.flatten⟩) := by
  have hsmall := patch.size_lt
  generalize hrecs : records (12 + (ps.map recordSize).sum) ps = recs
  have hlen : recs.length = (ps.map recordSize).sum := by rw [← hrecs, length_records]
  have hmagic : (lit "IMGDIFF2").length = 8 := by decide
  have hdata : patch.data = lit "IMGDIFF2" ++ (write4 ps.length ++ (recs ++ ps.flatMap body)) := by
    rw [hpatch, imagePatch, hrecs]
  have hsize : patch.data.length = 12 + ((ps.map recordSize).sum + (ps.flatMap body).length) := by
    simp only [hdata, List.length_append, length_write4, hmagic, hlen]
    omega
  have hcount : ps.length ≤ (ps.map recordSize).sum := by
    have hle : ∀ n ∈ ps.map recordSize, 1 ≤ n := by
      intro n hn
      obtain ⟨p, -, rfl⟩ := List.mem_map.mp hn
      unfold recordSize
      cases p.1.type <;> simp only <;> omega
    simpa using List.length_le_sum_of_one_le _ hle
  unfold applyImagePatch
  rw [if_neg (by omega), if_neg (by rw [hdata, List.take_left' hmagic]; simp),
    Holds.read4 ⟨_, _, hdata, by simp [hmagic]⟩ (by omega) (by omega)]
  have hloop := imageLoop_records hsource hsmall ps outs happ 0 (lit "IMGDIFF2" ++ write4 ps.length) (ps.flatMap body)
    (lit "IMGDIFF2" ++ (write4 ps.length ++ recs)) [] ⟨[], []⟩ (by
      have : (lit "IMGDIFF2" ++ (write4 ps.length ++ recs)).length = 12 + (ps.map recordSize).sum := by
        simp only [List.length_append, length_write4, hmagic, hlen]
        omega
      rw [this, hrecs, hdata]
      simp) (by simp [hdata])
  have h12 : (((lit "IMGDIFF2" ++ write4 ps.length).length : ℕ) : ℤ) = 12 := by simp [hmagic]
  rw [h12] at hloop
  show imageLoop cod memorySink source patch.data none (ps.length : ℤ).toNat 0 12 ⟨[], []⟩ = _
  rw [Int.toNat_natCast, hloop]
  rfl

end Diff
end Recovery
