/-
# The decoder inverts the encoder

bzip2 is assumed to invert itself (`Bzip`). Then `ApplyBSDiffPatchMem` runs the script of
the encoder and ends with the new data (`apply_patchFile`), for every call of `bsdiff` in a
row that shares the suffix list (`bsdiff_round_trip`).
-/
import Recovery.Diff.Encode
import Recovery.Diff.SuffixList
import Recovery.Patch.ImgPatch

namespace Recovery
namespace Diff

open Arrays Patch

/-- bzip2, with what its streams still have to deliver. -/
structure Bzip (cod : Codecs) where
  compress : Bytes → Bytes
  Holds : cod.BzStream → Bytes → Prop
  holds_init : ∀ d rest, Holds (cod.bzInit (compress d ++ rest)) d
  holds_step : ∀ st d n, Holds st d → 0 < n → n ≤ d.length → ∃ k code st',
    cod.bzDecompress st n = (code, d.take k, st') ∧ 0 < k ∧ k ≤ n ∧ (code = bzOk ∨ code = bzStreamEnd) ∧
      Holds st' (d.drop k)

variable {cod : Codecs} (bz : Bzip cod)

/-- The stream has `d` to deliver, and its input is all there. -/
def Delivers (s : Stream cod) (d : Bytes) : Prop := bz.Holds s.st d ∧ s.overruns = false

variable {bz}

theorem fillLoop_returns (room : ℕ) : ∀ (n avail : ℕ) (acc : Bytes) (s : Stream cod) (d : Bytes), Delivers bz s d →
    avail ≤ d.length → acc.length + avail ≤ room → avail < n →
    Returns (fillLoop cod room n avail acc s) fun r => r.1 = acc ++ d.take avail ∧ Delivers bz r.2 (d.drop avail)
  | 0, _, _, _, _, _, _, _, hn => by omega
  | n + 1, 0, acc, s, d, hs, _, _, _ => .pure ⟨by simp, by simpa using hs⟩
  | n + 1, avail + 1, acc, s, d, hs, hd, hroom, hn => by
    obtain ⟨k, code, st', hdec, hk₀, hk₁, hcode, hst'⟩ := bz.holds_step s.st d (avail + 1) hs.1 (by omega) hd
    have hlen : (d.take k).length = k := by rw [List.length_take]; omega
    unfold fillLoop
    simp only [hdec, hlen]
    rw [if_neg (by rcases hcode with rfl | rfl <;> simp [bzOk, bzStreamEnd]), if_neg (by omega),
      if_neg (by simp [hs.2]), if_neg (by rw [← List.length_eq_zero_iff, hlen]; omega)]
    refine (fillLoop_returns room n (avail + 1 - k) (acc ++ d.take k) ⟨st', s.overruns⟩ (d.drop k) ⟨hst', hs.2⟩
      (by rw [List.length_drop]; omega) (by rw [List.length_append, hlen]; omega) (by omega)).mono fun r hr => ?_
    refine ⟨?_, ?_⟩
    · rw [hr.1, List.append_assoc, ← List.take_add]
      congr 2
      omega
    · have := hr.2
      rwa [List.drop_drop, show k + (avail + 1 - k) = avail + 1 by omega] at this

theorem fillBuffer_returns (room size : ℕ) {s : Stream cod} {a d : Bytes} (hs : Delivers bz s (a ++ d))
    (ha : a.length = size) (hroom : size ≤ room) (code : ℤ) :
    Returns (orReturn code (fillBuffer cod room size s)) fun r => r.1 = a ∧ Delivers bz r.2 d := by
  subst ha
  obtain ⟨r, hr, h₁, h₂⟩ := fillLoop_returns room (a.length + 2) a.length [] s (a ++ d) hs (by simp)
    (by simpa using hroom) (by omega)
  rw [List.nil_append, List.take_left] at h₁
  rw [List.drop_left] at h₂
  exact ⟨r, by rw [fillBuffer, hr]; rfl, h₁, h₂⟩

/-! ### Numbers -/

theorem off_of_lt (cod : Codecs) {x : ℤ} (h₁ : -2 ^ 31 ≤ x) (h₂ : x < 2 ^ 31) : off cod x = x := by
  have hle : (2 : ℕ) ^ 32 ≤ 2 ^ cod.offBits := Nat.pow_le_pow_right (by omega) cod.offBits_le
  refine Int.bmod_eq_of_le ?_ ?_
  · omega
  · omega

@[simp] theorem length_offtout (x : ℤ) : (offtout x).length = 8 := by
  unfold offtout
  simp only
  split_ifs <;> simp

/-- **`offtin` inverts `offtout`** on the numbers of a patch. -/
theorem offtin_offtout (cod : Codecs) {x : ℤ} (h₁ : -2 ^ 31 ≤ x) (h₂ : x < 2 ^ 31) (rest : Bytes) :
    offtin cod (offtout x ++ rest) = x := by
  have htake : (offtout x ++ rest).take 8 = offtout x := by
    rw [← length_offtout x, List.take_left]
  unfold offtin
  rw [htake]
  have hx : x.natAbs < 256 ^ 4 := by omega
  -- the upper four bytes of the magnitude are zero
  have hbytes : LittleEndian.toBytes 8 x.natAbs = LittleEndian.toBytes 4 x.natAbs ++ [0, 0, 0, 0] := by
    have h4 : x.natAbs / 256 / 256 / 256 / 256 = 0 := by omega
    simp [LittleEndian.toBytes, h4]
  have hval := LittleEndian.ofBytes_toBytes hx
  simp only [LittleEndian.toBytes, LittleEndian.ofBytes] at hval
  unfold offtout
  simp only [hbytes]
  by_cases hneg : x < 0
  · rw [if_pos hneg]
    have hv : LittleEndian.ofBytes ((LittleEndian.toBytes 4 x.natAbs ++ [0, 0, 0, 0]).set 7
        (val (LittleEndian.toBytes 4 x.natAbs ++ [0, 0, 0, 0]) 7 ||| 0x80)) = x.natAbs + 2 ^ 63 := by
      have h80 : ((0 : UInt8) ||| 0x80).toNat = 128 := by decide
      simp [LittleEndian.toBytes, LittleEndian.ofBytes, val] at hval ⊢
      omega
    rw [hv, if_pos (by omega), off_of_lt cod (by omega) (by omega)]
    omega
  · rw [if_neg hneg]
    have hv : LittleEndian.ofBytes (LittleEndian.toBytes 4 x.natAbs ++ [0, 0, 0, 0]) = x.natAbs := by
      simp [LittleEndian.toBytes, LittleEndian.ofBytes] at hval ⊢
      omega
    rw [hv, if_neg (by omega), off_of_lt cod (by omega) (by omega)]
    omega

/-! ### Running a script -/

/-- The decoder sees `data` as the old data. -/
structure Views (o : OldData) (data : Bytes) : Prop where
  start : 0 ≤ o.start
  fits : o.start + data.length ≤ o.buf.length
  small : o.buf.length < 2 ^ 31
  size : o.size = data.length
  data_eq : (o.buf.drop o.start.toNat).take data.length = data

theorem views_whole {old : Bytes} (h : old.length < 2 ^ 31) : Views (OldData.whole old) old :=
  ⟨le_rfl, by simp [OldData.whole], h, rfl, by simp [OldData.whole]⟩

variable {o : OldData} {data new : Bytes}

theorem Views.get (hv : Views o data) {p : ℕ} (hp : p < data.length) :
    slice o.buf (o.start + p) 1 = .ok [val data p] := by
  have hfits := hv.fits
  have h0 := hv.start
  rw [slice_of_le _ (by omega) (by push_cast; omega), show (o.start + p).toNat = o.start.toNat + p by omega]
  have hget : data[p]? = o.buf[o.start.toNat + p]? := by
    conv_lhs => rw [← hv.data_eq]
    rw [List.getElem?_take_of_lt hp, List.getElem?_drop]
  have hlt : o.start.toNat + p < o.buf.length := by omega
  rw [List.getElem?_eq_getElem hp, List.getElem?_eq_getElem hlt, Option.some.injEq] at hget
  rw [List.drop_eq_getElem_cons hlt, List.take_succ_cons, List.take_zero, ← hget]
  simp [val, List.getD_eq_getElem?_getD, hp]

theorem addOld_ok (cod : Codecs) (hv : Views o data) (pos : ℕ) : ∀ (news : Bytes) (i : ℕ), pos + i + news.length ≤ data.length →
    addOld cod o pos i (List.zipWith (· - ·) news ((data.drop (pos + i)).take news.length)) = .ok news
  | [], _, _ => rfl
  | b :: news, i, hle => by
    have hsmall := hv.small
    have hfits := hv.fits
    have hstart := hv.start
    simp only [List.length_cons] at hle ⊢
    have hlt : pos + i < data.length := by omega
    have hoff : off cod ((pos : ℤ) + i) = (pos + i : ℕ) := by
      rw [off_of_lt cod (by omega) (by omega)]
      push_cast
      rfl
    have hs32 : s32 (o.start + (pos + i : ℕ)) = o.start + (pos + i : ℕ) := s32_of_lt (by omega) (by omega)
    have ih := addOld_ok cod hv pos news (i + 1) (by omega)
    rw [List.drop_eq_getElem_cons hlt, List.take_succ_cons, List.zipWith_cons_cons]
    unfold addOld
    rw [hoff, if_pos (by rw [hv.size]; omega), hs32, hv.get hlt, ok_bind,
      show pos + i + 1 = pos + (i + 1) by omega, ih, ok_bind]
    simp [val, List.getD_eq_getElem?_getD, hlt, pure, Except.pure]

theorem bsLoop_ok (hv : Views o data) (hnew : new.length < 2 ^ 31) : ∀ {lastscan lastpos : ℕ}
    {ctrl : List (ℤ × ℤ × ℤ)} {db eb : Bytes}, Script data new lastscan lastpos ctrl db eb → lastpos ≤ data.length →
    ∀ (n : ℕ) (c d e : Stream cod), ctrl.length < n → Delivers bz c (ctrl.flatMap tripleBytes) → Delivers bz d db →
    Delivers bz e eb → bsLoop cod o new.length n (new.take lastscan) lastpos c d e = .ok new := by
  intro lastscan lastpos ctrl db eb hs
  induction hs with
  | done lastpos =>
    intro _ n c d e hn _ _ _
    obtain ⟨n, rfl⟩ := Nat.exists_eq_succ_of_ne_zero (by omega : n ≠ 0)
    unfold bsLoop
    rw [List.take_length, if_neg (by omega)]
    rfl
  | @block lastscan lastpos x y p ctrl db eb hlt hold hfit hpos rest ih =>
    intro _ n c d e hn hc hd he
    obtain ⟨n, rfl⟩ := Nat.exists_eq_succ_of_ne_zero (by omega : n ≠ 0)
    have hsmall := hv.small
    have hfits := hv.fits
    have hstart := hv.start
    have hlen : (new.take lastscan).length = lastscan := by rw [List.length_take]; omega
    have hnews : ((new.drop lastscan).take x).length = x := by rw [List.length_take, List.length_drop]; omega
    have holds : ((data.drop lastpos).take x).length = x := by rw [List.length_take, List.length_drop]; omega
    have hextra : ((new.drop (lastscan + x)).take y).length = y := by rw [List.length_take, List.length_drop]; omega
    rw [List.flatMap_cons] at hc
    obtain ⟨⟨buf, c'⟩, hbuf, hbuf', hc'⟩ := fillBuffer_returns 24 24 hc (by simp [tripleBytes]) le_rfl 1
    simp only at hbuf' hc'
    -- the three numbers of the triple
    have h0 : offtin cod buf = x := by
      rw [hbuf', tripleBytes, List.append_assoc, offtin_offtout cod (by simp only; omega) (by simp only; omega)]
    have h1 : offtin cod (buf.drop 8) = y := by
      rw [hbuf', tripleBytes, List.append_assoc, List.drop_left' (length_offtout _),
        offtin_offtout cod (by simp only; omega) (by simp only; omega)]
    have h2 : offtin cod (buf.drop 16) = (p : ℤ) - (lastpos + x) := by
      rw [hbuf', tripleBytes, List.drop_left' (by simp), ← List.append_nil (offtout _),
        offtin_offtout cod (by simp only; omega) (by simp only; omega)]
    obtain ⟨⟨diff, d'⟩, hdiff, hdiff', hd'⟩ := fillBuffer_returns (new.length - lastscan) x hd
      (by simp; omega) (by omega) 1
    obtain ⟨⟨extra, e'⟩, hext, hext', he'⟩ := fillBuffer_returns (new.length - (lastscan + x)) y he
      hextra (by omega) 1
    simp only at hdiff' hd' hext' he'
    have hadd := addOld_ok cod hv lastpos ((new.drop lastscan).take x) 0 (by omega)
    rw [hnews, Nat.add_zero] at hadd
    have happ : new.take lastscan ++ (new.drop lastscan).take x = new.take (lastscan + x) := List.take_add.symm
    have happ' : new.take (lastscan + x) ++ (new.drop (lastscan + x)).take y = new.take (lastscan + x + y) :=
      List.take_add.symm
    have hlen' : (new.take (lastscan + x)).length = lastscan + x := by rw [List.length_take]; omega
    unfold bsLoop
    rw [hlen, if_pos (by omega), hbuf, ok_bind]
    simp only [h0, h1, h2, failIf_bind]
    rw [if_neg (by omega), if_neg (by rw [off_of_lt cod (by omega) (by omega)]; omega),
      show ((new.length : ℤ) - lastscan).toNat = new.length - lastscan by omega, u32_of_lt (by omega) (by omega), Int.toNat_natCast,
      hdiff, ok_bind]
    simp only [hdiff']
    rw [if_neg (by omega), hadd, ok_bind, happ, hlen', if_neg (by rw [off_of_lt cod (by omega) (by omega)]; omega),
      show ((new.length : ℤ) - (lastscan + x : ℕ)).toNat = new.length - (lastscan + x) by omega, u32_of_lt (by omega) (by omega),
      Int.toNat_natCast, hext, ok_bind]
    simp only [hext']
    rw [if_neg (by push_cast; omega), happ', off_of_lt cod (x := (lastpos : ℤ) + x) (by omega)
      (by omega), off_of_lt cod (by omega) (by omega),
      show (lastpos : ℤ) + x + (p - (lastpos + x)) = p by omega]
    exact ih hpos n c' d' e' (by simpa using hn) hc' hd' he'

/-! ### The patch file -/

theorem openStream_delivers {patch a b d : Bytes} {i n : ℤ} (hpatch : patch = a ++ (bz.compress d ++ b))
    (hsmall : patch.length < 2 ^ 31) (hi : i = a.length)
    (hn : n = (bz.compress d).length ∨ n = (bz.compress d ++ b).length) : Delivers bz (openStream cod patch i n) d := by
  have hlen : patch.length = a.length + ((bz.compress d).length + b.length) := by simp [hpatch]
  have hn' : n ≤ (bz.compress d).length + b.length ∧ 0 ≤ n := by
    rcases hn with rfl | rfl
    · omega
    · rw [List.length_append]
      omega
  unfold openStream Delivers
  rw [s32_of_lt (by omega) (by omega), u32_of_lt hn'.2 (by omega)]
  unfold inputAt
  rw [if_pos (by omega), hi, Int.toNat_natCast]
  refine ⟨?_, decide_eq_false (by omega)⟩
  simp only
  rw [hpatch, List.drop_left]
  rcases hn with rfl | rfl
  · rw [Int.toNat_natCast, List.take_left]
    simpa using bz.holds_init d []
  · rw [Int.toNat_natCast, List.take_length]
    exact bz.holds_init d b

/-- **The decoder rebuilds the new data** from a script, wherever the patch begins in its file. -/
theorem apply_patchFile (bz : Bzip cod) (hv : Views o data) (hnew : new.length < 2 ^ 31) {out : Streams}
    (hs : Script data new 0 0 out.ctrl out.db out.eb) (hsteps : out.ctrl.length < cod.steps) (pre rest : Bytes)
    (hsmall : (pre ++ (patchFile bz.compress new.length out ++ rest)).length < 2 ^ 31) :
    applyBSDiffPatchMem cod o (pre ++ (patchFile bz.compress new.length out ++ rest)) pre.length = .ok new := by
  generalize hctrl : bz.compress (out.ctrl.flatMap tripleBytes) = ctrl
  generalize hdiff : bz.compress out.db = diff
  generalize hextra : bz.compress out.eb = extra
  generalize hnums : offtout ctrl.length ++ (offtout diff.length ++ offtout new.length) = nums
  have hnlen : nums.length = 24 := by simp [← hnums]
  have hfile : patchFile bz.compress new.length out = (lit "BSDIFF40" ++ nums) ++ (ctrl ++ (diff ++ extra)) := by
    simp only [patchFile, hctrl, hdiff, hextra, ← hnums, List.append_assoc]
  have hmagic : (lit "BSDIFF40").length = 8 := by decide
  generalize hpatch : pre ++ (patchFile bz.compress new.length out ++ rest) = patch at hsmall ⊢
  have hsize : patch.length = pre.length + (32 + (ctrl.length + (diff.length + extra.length)) + rest.length) := by
    simp only [← hpatch, hfile, List.length_append, hnlen, hmagic]
  have h₁ : slice patch pre.length 8 = .ok (lit "BSDIFF40") := by
    rw [← hpatch, hfile, List.append_assoc, List.append_assoc]
    exact slice_append _ _ _ rfl hmagic.symm
  have h₂ : slice patch pre.length 32 = .ok (lit "BSDIFF40" ++ nums) := by
    rw [← hpatch, hfile, List.append_assoc]
    exact slice_append _ _ _ rfl (by simp [hnlen, hmagic])
  -- the three lengths of the header
  have hc : s32 (offtin cod ((lit "BSDIFF40" ++ nums).drop 8)) = ctrl.length := by
    rw [List.drop_left' hmagic, ← hnums, offtin_offtout cod (by omega) (by omega), s32_of_lt (by omega) (by omega)]
  have hd : s32 (offtin cod ((lit "BSDIFF40" ++ nums).drop 16)) = diff.length := by
    rw [← hnums, ← List.append_assoc, List.drop_left' (by simp [hmagic]), offtin_offtout cod (by omega) (by omega),
      s32_of_lt (by omega) (by omega)]
  have hn : s32 (offtin cod ((lit "BSDIFF40" ++ nums).drop 24)) = new.length := by
    rw [← hnums, ← List.append_assoc, ← List.append_assoc, List.drop_left' (by simp [hmagic]),
      ← List.append_nil (offtout (new.length : ℤ)), offtin_offtout cod (by omega) (by omega), s32_of_lt (by omega) (by omega)]
  have hcs : Delivers bz (openStream cod patch (pre.length + 32) ctrl.length) (out.ctrl.flatMap tripleBytes) :=
    openStream_delivers (a := pre ++ (lit "BSDIFF40" ++ nums)) (b := diff ++ extra ++ rest)
      (by simp [← hpatch, hfile, hctrl]) hsmall (by simp [hnlen, hmagic]) (.inl (by rw [hctrl]))
  have hds : Delivers bz (openStream cod patch (pre.length + 32 + ctrl.length) diff.length) out.db :=
    openStream_delivers (a := pre ++ (lit "BSDIFF40" ++ nums) ++ ctrl) (b := extra ++ rest)
      (by simp [← hpatch, hfile, hdiff]) hsmall (by simp [hnlen, hmagic]; omega) (.inl (by rw [hdiff]))
  have hes : Delivers bz (openStream cod patch (pre.length + 32 + ctrl.length + diff.length)
      (patch.length - (pre.length + 32 + ctrl.length + diff.length))) out.eb :=
    openStream_delivers (a := pre ++ (lit "BSDIFF40" ++ nums) ++ ctrl ++ diff) (b := rest)
      (by simp [← hpatch, hfile, hextra]) hsmall (by simp [hnlen, hmagic]; omega)
      (.inr (by rw [hextra, hsize, List.length_append]; push_cast; omega))
  unfold applyBSDiffPatchMem
  rw [h₁, ok_bind, failIf_bind, if_neg (by simp), h₂, ok_bind]
  simp only [hc, hd, hn, failIf_bind]
  rw [if_neg (by omega)]
  have hloop := bsLoop_ok hv hnew hs (Nat.zero_le _) cod.steps _ _ _ hsteps hcs hds hes
  simpa using hloop

/-! ### Calls of the encoder -/

theorem qsufsort_suffixList {old : Bytes} {s : Suffixes} (hI : s.I.length = old.length + 1)
    (hV : s.V.length = old.length + 1) : Returns (qsufsort s old) (SuffixList old) := by
  refine (qsufsort_returns hI hV).mono fun I hI => ?_
  obtain ⟨hlen, A, hA, hval⟩ := hI
  refine ⟨hlen, fun t ht => ?_⟩
  have hlt : A t < old.length + 1 := hA.mapsTo ht
  rw [hval t ht]
  omega

/-- A call of `bsdiff` returns a patch from which the decoder rebuilds the new data. -/
theorem bsdiff_returns {old new : Bytes} {IP : Option (List ℤ)} (hIP : ∀ I, IP = some I → SuffixList old I)
    (compress : Bytes → Bytes) : Returns (bsdiff compress old IP new) fun r => SuffixList old r.1 ∧
      ∃ out : Streams, r.2 = patchFile compress new.length out ∧ Script old new 0 0 out.ctrl out.db out.eb ∧
        out.ctrl.length < new.length + 2 := by
  have hcur : Cursor.Ok old new ⟨0, 0, 0, 0, 0, 0⟩ :=
    ⟨⟨le_rfl, le_rfl⟩, by simp, ⟨le_rfl, by simp⟩, ⟨le_rfl, by simp⟩, rfl⟩
  have hencode : ∀ I, SuffixList old I → Returns
      (encodeLoop old new I (new.length + 2) ⟨0, 0, 0, 0, 0, 0⟩ ⟨[], [], []⟩ >>= fun o =>
        pure (I, patchFile compress new.length o)) fun r =>
      SuffixList old r.1 ∧ ∃ out : Streams, r.2 = patchFile compress new.length out ∧ Script old new 0 0 out.ctrl out.db out.eb ∧
        out.ctrl.length < new.length + 2 := by
    intro I hI
    refine (encodeLoop_returns hI (new.length + 2) ⟨0, 0, 0, 0, 0, 0⟩ ⟨[], [], []⟩ hcur le_rfl (by simp) (by simp)
      (by omega) (by simp only; omega) (by simp) (by simp)).bind fun out hout => ?_
    obtain ⟨ctrl, db, eb, hout, hscript, hcount⟩ := hout
    refine .pure ⟨hI, out, rfl, ?_⟩
    rw [hout]
    simpa using ⟨hscript, hcount⟩
  unfold bsdiff
  cases IP with
  | none => exact (qsufsort_suffixList (by simp) (by simp)).bind hencode
  | some I => exact (Returns.pure (hIP I rfl)).bind hencode

/-- Calls in a row with one old buffer; each leaves its suffix list to the next. -/
def bsdiffCalls (compress : Bytes → Bytes) (old : Bytes) : Option (List ℤ) → List Bytes → Except Stop (List Bytes)
  | _, [] => pure []
  | IP, new :: news => do
    let (I, patch) ← bsdiff compress old IP new
    let patches ← bsdiffCalls compress old (some I) news
    pure (patch :: patches)

theorem bsdiffCalls_returns {old : Bytes} (hold : old.length < 2 ^ 31) : ∀ (news : List Bytes) (IP : Option (List ℤ)),
    (∀ I, IP = some I → SuffixList old I) → (∀ new ∈ news, new.length < 2 ^ 31 ∧ new.length + 2 ≤ cod.steps) →
    Returns (bsdiffCalls bz.compress old IP news) fun patches => List.Forall₂ (fun new patch =>
      ∀ v : Value, v.data = patch → applyBSDiffPatchMem cod (.whole old) v.data 0 = .ok new) news patches
  | [], _, _, _ => .pure .nil
  | new :: news, IP, hIP, hnews => by
    obtain ⟨hnew, hsteps⟩ := hnews new (by simp)
    refine (bsdiff_returns hIP bz.compress).bind fun r hr => ?_
    obtain ⟨hI, out, hpatch, hscript, hcount⟩ := hr
    refine (bsdiffCalls_returns hold news (some r.1) (fun I h => Option.some.inj h ▸ hI)
      fun new' h => hnews new' (by simp [h])).bind fun patches hpatches => ?_
    refine .pure (.cons (fun v hv => ?_) hpatches)
    have happly := apply_patchFile bz (views_whole hold) hnew hscript (by omega) [] []
      (by simpa [← hpatch, ← hv] using v.size_lt)
    rw [hv, hpatch]
    simpa using happly

/-- **The round trip.** Whatever the old and the new data are, `bsdiff` ends with a patch from which
`ApplyBSDiffPatchMem` rebuilds the new data, also when it is called again and again with the same
old data and the suffix list of its first call. -/
theorem bsdiff_round_trip (bz : Bzip cod) (old : Bytes) (hold : old.length < 2 ^ 31) (news : List Bytes)
    (hnews : ∀ new ∈ news, new.length < 2 ^ 31 ∧ new.length + 2 ≤ cod.steps) :
    ∃ patches, bsdiffCalls bz.compress old none news = .ok patches ∧ List.Forall₂ (fun new patch =>
      ∀ v : Value, v.data = patch → applyBSDiffPatchMem cod (.whole old) v.data 0 = .ok new) news patches :=
  bsdiffCalls_returns hold news none (fun I h => by simp at h) hnews

/-! ### Libraries that know a few streams

The streams are those of bzip2 and zlib. Any other data is escaped byte by byte, so that the
compression can be undone whatever it is used on. -/

def bzStreams : List (Bytes × Bytes) :=
  [(tripleBytes (3, 0, -3),
    [0x42, 0x5a, 0x68, 0x39, 0x31, 0x41, 0x59, 0x26, 0x53, 0x59, 0x7a, 0x4d, 0xa0, 0xa3, 0x00, 0x00, 0x05, 0x40, 0x40, 0x58,
     0x08, 0x40, 0x00, 0x20, 0x00, 0x30, 0xcd, 0x00, 0xda, 0x04, 0x4c, 0x2e, 0x9b, 0x8b, 0xb9, 0x22, 0x9c, 0x28, 0x48, 0x3d,
     0x26, 0xd0, 0x51, 0x80]),
   (tripleBytes (0, 4, 2),
    [0x42, 0x5a, 0x68, 0x39, 0x31, 0x41, 0x59, 0x26, 0x53, 0x59, 0x0d, 0xce, 0xc6, 0xb9, 0x00, 0x00, 0x01, 0x40, 0x00, 0x5c,
     0x00, 0x20, 0x00, 0x30, 0xcd, 0x34, 0x12, 0x9e, 0xa7, 0xa3, 0x57, 0x02, 0x9e, 0xe1, 0x77, 0x24, 0x53, 0x85, 0x09, 0x00,
     0xdc, 0xec, 0x6b, 0x90]),
   (tripleBytes (3, 1, -1),
    [0x42, 0x5a, 0x68, 0x39, 0x31, 0x41, 0x59, 0x26, 0x53, 0x59, 0xe2, 0xb9, 0xa6, 0x0d, 0x00, 0x00, 0x07, 0xc0, 0x40, 0x78,
     0x00, 0x40, 0x00, 0x20, 0x00, 0x30, 0xcd, 0x00, 0x93, 0x49, 0xa2, 0x75, 0x80, 0x8e, 0x4d, 0xe2, 0xee, 0x48, 0xa7, 0x0a,
     0x12, 0x1c, 0x57, 0x34, 0xc1, 0xa0]),
   ([0, 0, 0],
    [0x42, 0x5a, 0x68, 0x39, 0x31, 0x41, 0x59, 0x26, 0x53, 0x59, 0x48, 0x9b, 0x82, 0xff, 0x00, 0x00, 0x01, 0x40, 0x00, 0x40,
     0x00, 0x20, 0x00, 0x30, 0x8c, 0x14, 0x18, 0xbb, 0x92, 0x29, 0xc2, 0x84, 0x82, 0x44, 0xdc, 0x17, 0xf8]),
   ([],
    [0x42, 0x5a, 0x68, 0x39, 0x17, 0x72, 0x45, 0x38, 0x50, 0x90, 0x00, 0x00, 0x00, 0x00]),
   (lit "xabc",
    [0x42, 0x5a, 0x68, 0x39, 0x31, 0x41, 0x59, 0x26, 0x53, 0x59, 0x21, 0xe8, 0x78, 0x05, 0x00, 0x00, 0x01, 0x81, 0x80, 0x38,
     0x00, 0x00, 0x40, 0x20, 0x00, 0x21, 0x9a, 0x68, 0x33, 0x4d, 0x13, 0x3c, 0x5d, 0xc9, 0x14, 0xe1, 0x42, 0x40, 0x87, 0xa1,
     0xe0, 0x14]),
   (lit "d",
    [0x42, 0x5a, 0x68, 0x39, 0x31, 0x41, 0x59, 0x26, 0x53, 0x59, 0x0e, 0x56, 0xf0, 0x00, 0x00, 0x00, 0x00, 0x01, 0x00, 0x04,
     0x00, 0x20, 0x00, 0x21, 0x18, 0x46, 0x82, 0xee, 0x48, 0xa7, 0x0a, 0x12, 0x01, 0xca, 0xde, 0x00, 0x00])]

/-- Data and their deflate streams, with a window of 32 KiB and level 6 or 9. -/
def zStreams : List (Bytes × Bytes) :=
  [(lit "abc", [0x4b, 0x4c, 0x4a, 0x06, 0x00]),
   (lit "abcd", [0x4b, 0x4c, 0x4a, 0x4e, 0x01, 0x00]),
   (lit "xyz", [0xab, 0xa8, 0xac, 0x02, 0x00])]

def escape : Bytes → Bytes
  | [] => [0]
  | b :: d => 1 :: b :: escape d

def unescape : Bytes → Bytes
  | 1 :: b :: d => b :: unescape d
  | _ => []

theorem unescape_escape : ∀ d rest : Bytes, unescape (escape d ++ rest) = d
  | [], _ => rfl
  | b :: d, rest => congrArg (b :: ·) (unescape_escape d rest)

/-- The stream of some data, and the data of the stream at the start of the input. -/
def knownCompress (d : Bytes) : Bytes :=
  match bzStreams.find? (·.1 == d) with
  | some s => s.2
  | none => escape d

def knownExpand (input : Bytes) : Bytes :=
  match bzStreams.find? (·.2.isPrefixOf input) with
  | some s => s.1
  | none => unescape input

theorem bzStreams_apart : ∀ s ∈ bzStreams, ∀ t ∈ bzStreams, s.2.isPrefixOf t.2 = true → s = t := by decide +kernel

theorem bzStreams_head : ∀ s ∈ bzStreams, s.2.head? = some 0x42 := by decide +kernel

theorem knownExpand_stream {s : Bytes × Bytes} (hs : s ∈ bzStreams) (rest : Bytes) : knownExpand (s.2 ++ rest) = s.1 := by
  unfold knownExpand
  cases hfind : bzStreams.find? (·.2.isPrefixOf (s.2 ++ rest)) with
  | none =>
    have := List.find?_eq_none.mp hfind s hs
    simp at this
  | some t =>
    have ht := List.mem_of_find?_eq_some hfind
    have hp := List.isPrefixOf_iff_prefix.mp (List.find?_some (p := fun t : Bytes × Bytes => t.2.isPrefixOf (s.2 ++ rest)) hfind)
    -- both begin the input, so one begins the other
    rcases List.prefix_or_prefix_of_prefix hp (List.prefix_append s.2 rest) with h | h
    · rw [bzStreams_apart t ht s hs ( List.isPrefixOf_iff_prefix.mpr h)]
    · rw [bzStreams_apart s hs t ht ( List.isPrefixOf_iff_prefix.mpr h)]

theorem knownExpand_escape (d rest : Bytes) : knownExpand (escape d ++ rest) = d := by
  unfold knownExpand
  cases hfind : bzStreams.find? (·.2.isPrefixOf (escape d ++ rest)) with
  | none => exact unescape_escape d rest
  | some t =>
    have hhead := bzStreams_head t (List.mem_of_find?_eq_some hfind)
    obtain ⟨tail, htail⟩ :=
      List.isPrefixOf_iff_prefix.mp (List.find?_some (p := fun t : Bytes × Bytes => t.2.isPrefixOf (escape d ++ rest)) hfind)
    have hfirst : (t.2 ++ tail).head? = some 0x42 := by rw [List.head?_append, hhead, Option.some_or]
    rw [htail] at hfirst
    cases d <;> simp [escape] at hfirst

theorem knownExpand_knownCompress (d rest : Bytes) : knownExpand (knownCompress d ++ rest) = d := by
  unfold knownCompress
  cases hfind : bzStreams.find? (·.1 == d) with
  | none => exact knownExpand_escape d rest
  | some s =>
    have hd : s.1 = d := beq_iff_eq.mp (List.find?_some (p := fun t : Bytes × Bytes => t.1 == d) hfind)
    rw [← hd]
    exact knownExpand_stream (List.mem_of_find?_eq_some hfind) rest

def readKnown (left : Bytes) (n : ℕ) : ℤ × Bytes × Bytes :=
  if n < left.length then (bzOk, left.take n, left.drop n) else (bzStreamEnd, left, [])

theorem readKnown_le (left : Bytes) (n : ℕ) : (readKnown left n).2.1.length ≤ n := by
  unfold readKnown
  split_ifs
  · exact List.length_take_le n left
  · simp only
    omega

theorem readKnown_step (left : Bytes) {n : ℕ} (hn : n ≤ left.length) :
    ∃ code, readKnown left n = (code, left.take n, left.drop n) ∧ (code = bzOk ∨ code = bzStreamEnd) := by
  unfold readKnown
  by_cases hlt : n < left.length
  · exact ⟨bzOk, if_pos hlt, .inl rfl⟩
  · obtain rfl : n = left.length := by omega
    exact ⟨bzStreamEnd, by rw [if_neg hlt, List.take_length, List.drop_length], .inr rfl⟩

def knownCodecs : Codecs where
  BzStream := Bytes
  bzInit := knownExpand
  bzDecompress := readKnown
  bzDecompress_le := readKnown_le
  inflate := fun input n =>
    match zStreams.find? (·.2 == input) with
    | some s => if n < s.1.length then (zOk, s.1.take n) else (zStreamEnd, s.1)
    | none => (-3, [])
  inflate_le := fun input n => by
    split
    · split_ifs
      · exact List.length_take_le n _
      · simp only
        omega
    · simp
  deflate := fun params d =>
    if params.windowBits = -15 ∧ (params.level = 6 ∨ params.level = 9) then
      match zStreams.find? (·.1 == d) with
      | some s => some s.2
      | none => some (escape d)
    else none
  offBits := 32
  offBits_le := le_rfl
  steps := 2 ^ 31 + 1

def knownBzip : Bzip knownCodecs where
  compress := knownCompress
  Holds := fun st d => st = d
  holds_init := knownExpand_knownCompress
  holds_step := by
    intro st d n hst hn hle
    subst hst
    obtain ⟨code, hread, hcode⟩ := readKnown_step st hle
    exact ⟨n, code, _, hread, hn, le_rfl, hcode, rfl⟩

/-- Two calls that share a suffix list: the same data, and data with a byte in front. -/
theorem bsdiff_round_trip_abc : (lit "abc").length < 2 ^ 31 ∧
    (∀ new ∈ [lit "abc", lit "xabc"], new.length < 2 ^ 31 ∧ new.length + 2 ≤ knownCodecs.steps) ∧
    ∃ patches, bsdiffCalls knownCompress (lit "abc") none [lit "abc", lit "xabc"] = .ok patches ∧
      List.Forall₂ (fun new patch => ∀ v : Value, v.data = patch →
        applyBSDiffPatchMem knownCodecs (.whole (lit "abc")) v.data 0 = .ok new) [lit "abc", lit "xabc"] patches := by
  have hnews : ∀ new ∈ [lit "abc", lit "xabc"], new.length < 2 ^ 31 ∧ new.length + 2 ≤ knownCodecs.steps := by
    decide +kernel
  exact ⟨by decide, hnews, bsdiff_round_trip knownBzip (lit "abc") (by decide) [lit "abc", lit "xabc"] hnews⟩

end Diff
end Recovery
