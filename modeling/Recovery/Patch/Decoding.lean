/-
# Decoding arbitrary patches (bspatch.c, imgpatch.c)

The decoders trust what a patch says about itself. What is missing are bounds on the numbers
and streams that end:

Key definitions: `PatchFits`, `PatchEnds`, `ImageFits`, `ImageEnds`.
Key theorems: `bsLoop_ends`, `decoding_safe`, `decoding_faults`, `decoding_ends`, `decoding_hangs`.
-/
import Recovery.Patch.Emit

namespace Recovery
namespace Patch

variable (cod : Codecs)

/-! ### The header -/

def ctrlLenAt (patch : Bytes) (off : ℤ) : ℤ := s32 (offtin cod (((patch.drop off.toNat).take 32).drop 8))

def dataLenAt (patch : Bytes) (off : ℤ) : ℤ := s32 (offtin cod (((patch.drop off.toNat).take 32).drop 16))

def newSizeAt (patch : Bytes) (off : ℤ) : ℤ := s32 (offtin cod (((patch.drop off.toNat).take 32).drop 24))

def HasMagic (patch : Bytes) (off : ℤ) : Prop := (patch.drop off.toNat).take 8 = lit "BSDIFF40"

/-- The header is one of a patch: nothing is decoded otherwise. -/
structure Announces (patch : Bytes) (off : ℤ) : Prop where
  magic : HasMagic patch off
  ctrlLen : 0 ≤ ctrlLenAt cod patch off
  dataLen : 0 ≤ dataLenAt cod patch off
  newSize : 0 ≤ newSizeAt cod patch off

def ctrlStream (patch : Bytes) (off : ℤ) : Stream cod := openStream cod patch (off + 32) (ctrlLenAt cod patch off)

def diffStream (patch : Bytes) (off : ℤ) : Stream cod :=
  openStream cod patch (off + 32 + ctrlLenAt cod patch off) (dataLenAt cod patch off)

def extraStream (patch : Bytes) (off : ℤ) : Stream cod :=
  openStream cod patch (off + 32 + ctrlLenAt cod patch off + dataLenAt cod patch off)
    (patch.length - (off + 32 + ctrlLenAt cod patch off + dataLenAt cod patch off))

variable {cod} {P : Stop → Prop}

theorem applyBSDiffPatchMem_ends {Q : Bytes → Prop} {old : OldData} {patch : Bytes} {off : ℤ} (hret : P (.ret 1))
    (hmagic : ¬ (0 ≤ off ∧ off + 8 ≤ patch.length) → P .fault) (hheader : HasMagic patch off → ¬ off + 32 ≤ patch.length → P .fault)
    (hloop : 0 ≤ off → off + 32 ≤ patch.length → Announces cod patch off →
      Ends (bsLoop cod old (newSizeAt cod patch off) cod.steps [] 0 (ctrlStream cod patch off)
        (diffStream cod patch off) (extraStream cod patch off)) Q P) :
    Ends (applyBSDiffPatchMem cod old patch off) Q P := by
  refine (ends_slice hmagic).bind fun magic _ hslice => ?_
  obtain ⟨h0, -, rfl⟩ := hslice
  refine .failIf (fun _ => hret) fun hmagic => ?_
  have hmagic : HasMagic patch off := not_not.mp hmagic
  refine (ends_slice fun hout => hheader hmagic fun hin => hout ⟨h0, hin⟩).bind fun header _ hslice => ?_
  obtain ⟨-, h32, rfl⟩ := hslice
  refine .failIf (fun _ => hret) fun hlen => ?_
  simp only [not_or, not_lt] at hlen
  exact hloop h0 h32 ⟨hmagic, hlen.1, hlen.2.1, hlen.2.2⟩

theorem ends_orReturn {α : Type} {x : Except Stop α} {Q : α → Prop} {code : ℤ} (h : Ends x Q P) (hret : P (.ret code)) :
    Ends (orReturn code x) (fun a => x = .ok a ∧ Q a) P := by
  cases x with
  | ok a => exact ⟨rfl, h⟩
  | error stop => cases stop with
    | ret c => exact hret
    | _ => exact h

/-! ### Streams that end -/

/-- The codes with which `FillBuffer` goes on. -/
def GoesOn (code : ℤ) : Prop := code = bzOk ∨ code = bzStreamEnd

/-- Every further call on the stream is an error. -/
def Ended (cod : Codecs) (st : cod.BzStream) : Prop := ∀ n, 0 < n → ¬ GoesOn (cod.bzDecompress st n).1

/-- At most `k` bytes come, and a call that works delivers something or ends the stream. -/
inductive Within (cod : Codecs) : ℕ → cod.BzStream → Prop
  | intro {k : ℕ} {st : cod.BzStream}
    (progress : ∀ n, 0 < n → GoesOn (cod.bzDecompress st n).1 →
      (cod.bzDecompress st n).2.1 ≠ [] ∨ ((cod.bzDecompress st n).1 = bzStreamEnd ∧ Ended cod (cod.bzDecompress st n).2.2))
    (bound : ∀ n, 0 < n → GoesOn (cod.bzDecompress st n).1 → (cod.bzDecompress st n).2.1.length ≤ k)
    (rest : ∀ n, 0 < n → GoesOn (cod.bzDecompress st n).1 →
      Within cod (k - (cod.bzDecompress st n).2.1.length) (cod.bzDecompress st n).2.2) : Within cod k st

/-- `FillBuffer` leaves its buffer only without room, and runs for ever only if the stream
stops in its middle. -/
theorem fillLoop_ends (hret : P (.ret (-1))) (room : ℕ) : ∀ (n avail : ℕ) (acc : Bytes) (s : Stream cod),
    (¬ P .fault → s.overruns = false ∧ acc.length + avail ≤ room) →
    (¬ P .hang → (∃ k, Within cod k s.st) ∧ (avail + 2 ≤ n ∨ (0 < n ∧ Ended cod s.st))) →
    Ends (fillLoop cod room n avail acc s) (fun r => r.1.length = acc.length + avail ∧ r.2.overruns = s.overruns ∧
      ∀ k, Within cod k s.st → avail ≤ k ∧ Within cod (k - avail) r.2.st) P
  | _, 0, acc, s, _, _ => by
    unfold fillLoop
    exact ⟨rfl, rfl, fun k hk => ⟨Nat.zero_le k, hk⟩⟩
  | 0, avail + 1, acc, s, _, hlive => by
    unfold fillLoop
    show P .hang
    by_contra hhang
    rcases (hlive hhang).2 with h | h <;> omega
  | n + 1, avail + 1, acc, s, hfit, hlive => by
    have hle := cod.bzDecompress_le s.st (avail + 1)
    have hwithin : ∀ {k}, Within cod k s.st → GoesOn (cod.bzDecompress s.st (avail + 1)).1 →
        ((cod.bzDecompress s.st (avail + 1)).2.1 ≠ [] ∨ ((cod.bzDecompress s.st (avail + 1)).1 = bzStreamEnd ∧
          Ended cod (cod.bzDecompress s.st (avail + 1)).2.2)) ∧ (cod.bzDecompress s.st (avail + 1)).2.1.length ≤ k ∧
        Within cod (k - (cod.bzDecompress s.st (avail + 1)).2.1.length) (cod.bzDecompress s.st (avail + 1)).2.2 :=
      fun ⟨progress, bound, rest⟩ hworks =>
        ⟨progress _ (Nat.succ_pos _) hworks, bound _ (Nat.succ_pos _) hworks, rest _ (Nat.succ_pos _) hworks⟩
    have hended : Ended cod s.st → ¬ GoesOn (cod.bzDecompress s.st (avail + 1)).1 := fun h => h _ (Nat.succ_pos _)
    unfold fillLoop
    generalize cod.bzDecompress s.st (avail + 1) = r at hle hwithin hended ⊢
    obtain ⟨bzerr, out, st⟩ := r
    dsimp only at hle hwithin hended ⊢
    split
    · exact hret
    rename_i hcode
    have hworks : GoesOn bzerr := by
      unfold GoesOn
      tauto
    split
    · show P .fault
      by_contra hfault
      have := (hfit hfault).2
      omega
    split
    · rename_i hover
      show P .fault
      by_contra hfault
      exact absurd hover.2.2 (by simp [(hfit hfault).1])
    split
    · rename_i hnone
      show P .hang
      by_contra hhang
      obtain ⟨⟨k, hk⟩, -⟩ := hlive hhang
      rcases (hwithin hk hworks).1 with hout | hend
      · exact hout hnone.2
      · exact absurd (hnone.1.symm.trans hend.1) (by decide)
    refine (fillLoop_ends hret room n (avail + 1 - out.length) (acc ++ out) ⟨st, s.overruns⟩ (fun hfault => ?_) fun hhang => ?_).mono
      fun r _ hr => ?_
    · have hroom := hfit hfault
      exact ⟨hroom.1, by rw [List.length_append]; omega⟩
    · obtain ⟨⟨k, hk⟩, hfuel⟩ := hlive hhang
      obtain ⟨hprogress, -, hrest⟩ := hwithin hk hworks
      have hfuel : avail + 3 ≤ n + 1 := hfuel.resolve_right fun h => hended h.2 hworks
      refine ⟨⟨_, hrest⟩, hprogress.imp (fun hout => ?_) fun hend => ⟨by omega, hend.2⟩⟩
      have := List.length_pos_iff.mpr hout
      omega
    · obtain ⟨hlen, hover, hrest⟩ := hr
      rw [List.length_append] at hlen
      refine ⟨by omega, hover, fun k hk => ?_⟩
      obtain ⟨-, hbound, hst⟩ := hwithin hk hworks
      obtain ⟨h₁, h₂⟩ := hrest _ hst
      exact ⟨by omega, by rwa [show k - (avail + 1) = k - out.length - (avail + 1 - out.length) by omega]⟩

theorem fillBuffer_ends (hret : P (.ret (-1))) {room size : ℕ} {s : Stream cod} (hfit : ¬ P .fault → s.overruns = false ∧ size ≤ room)
    (hlive : ¬ P .hang → ∃ k, Within cod k s.st) :
    Ends (fillBuffer cod room size s) (fun r => r.1.length = size ∧ r.2.overruns = s.overruns ∧
      ∀ k, Within cod k s.st → size ≤ k ∧ Within cod (k - size) r.2.st) P :=
  (fillLoop_ends hret room (size + 2) size [] s (fun h => by simpa using hfit h) fun h => ⟨hlive h, .inl le_rfl⟩).mono
    fun r _ hr => ⟨by simpa using hr.1, hr.2⟩

/-! ### Numbers that fit -/

def OldFits (old : OldData) : Prop := 0 < old.size → 0 ≤ old.start ∧
    old.start + old.size ≤ old.buf.length ∧ old.start + old.size ≤ 2 ^ 31

theorem addOld_ends {old : OldData} (hfit : ¬ P .fault → OldFits old) (pos : ℤ) : ∀ (i : ℕ) (diff : Bytes),
    Ends (addOld cod old pos i diff) (fun r => r.length = diff.length) P
  | _, [] => rfl
  | i, b :: diff => by
    have hbyte : Ends (if 0 ≤ off cod (pos + i) ∧ off cod (pos + i) < old.size then
        slice old.buf (s32 (old.start + off cod (pos + i))) 1 else pure [0]) (fun _ => True) P := by
      split
      · rename_i hin
        refine (ends_slice fun hout => ?_).mono fun _ _ _ => trivial
        by_contra hfault
        obtain ⟨h0, hbuf, hsmall⟩ := hfit hfault (by omega)
        rw [s32_of_lt (by omega) (by omega)] at hout
        exact hout ⟨by omega, by push_cast; omega⟩
      · exact trivial
    unfold addOld
    refine hbyte.bind fun o _ _ => (addOld_ends hfit pos (i + 1) diff).bind fun ds _ hds => ?_
    simp [Ends, pure, Except.pure, hds]

/-- A triple that the control stream gives. -/
inductive Triple (cod : Codecs) : Stream cod → Bytes → Prop
  | here {s s' : Stream cod} {buf : Bytes} (h : fillBuffer cod 24 24 s = .ok (buf, s')) : Triple cod s buf
  | later {s s' : Stream cod} {buf buf' : Bytes} (h : fillBuffer cod 24 24 s = .ok (buf, s'))
      (h' : Triple cod s' buf') : Triple cod s buf'

theorem Triple.of_ok {s s' : Stream cod} {b buf : Bytes} (h : Triple cod s buf) (hfill : fillBuffer cod 24 24 s = .ok (b, s')) :
    b = buf ∨ Triple cod s' buf := by
  cases h with
  | here h => exact .inl (Prod.mk.inj (Except.ok.inj (hfill.symm.trans h))).1
  | later h h' =>
    obtain ⟨-, rfl⟩ := Prod.mk.inj (Except.ok.inj (hfill.symm.trans h))
    exact .inr h'

theorem Triple.not_of_error {s : Stream cod} {buf : Bytes} {stop : Stop} (hfill : fillBuffer cod 24 24 s = .error stop) :
    ¬ Triple cod s buf := by
  rintro (h | ⟨h, -⟩) <;> exact absurd (hfill.symm.trans h) (by simp)

/-- The counts of a triple can be added to a position in the new data. -/
def CountsFit (cod : Codecs) (newSize : ℤ) (buf : Bytes) : Prop :=
  newSize + offtin cod buf < 2 ^ (cod.offBits - 1) ∧ newSize + offtin cod (buf.drop 8) < 2 ^ (cod.offBits - 1)

theorem off_of_fits {x : ℤ} (h₀ : 0 ≤ x) (h : x < 2 ^ (cod.offBits - 1)) : off cod x = x := by
  have hbits : (2 : ℕ) ^ cod.offBits = 2 * 2 ^ (cod.offBits - 1) := by
    have := cod.offBits_le
    rw [← pow_succ', Nat.sub_add_cancel (by omega)]
  have hpow : ((2 ^ (cod.offBits - 1) : ℕ) : ℤ) = 2 ^ (cod.offBits - 1) := by push_cast; rfl
  refine Int.bmod_eq_of_le ?_ ?_
  · omega
  · omega

/-- What keeps the loop in its buffers. -/
structure LoopFits (old : OldData) (newSize : ℤ) (new : Bytes) (c d e : Stream cod) : Prop where
  old : OldFits old
  small : newSize < 2 ^ 31
  new : (new.length : ℤ) ≤ newSize
  ctrl : c.overruns = false
  diff : d.overruns = false
  extra : e.overruns = false
  counts : ∀ buf, Triple cod c buf → CountsFit cod newSize buf

/-- What makes the loop end within `n` turns: each takes 24 bytes of the control stream. -/
structure LoopEnds (n : ℕ) (c d e : Stream cod) : Prop where
  ctrl : ∃ k, Within cod k c.st ∧ k < 24 * n
  diff : ∃ k, Within cod k d.st
  extra : ∃ k, Within cod k e.st

/-- **The loop of `ApplyBSDiffPatchMem`**: faults need numbers that do not fit, hangs a stream that stops. -/
theorem bsLoop_ends (hret : ∀ code, P (.ret code)) {old : OldData} {newSize : ℤ} :
    ∀ (n : ℕ) (new : Bytes) (oldpos : ℤ) (c d e : Stream cod), (¬ P .fault → LoopFits old newSize new c d e) →
    (¬ P .hang → LoopEnds n c d e) → Ends (bsLoop cod old newSize n new oldpos c d e) (fun _ => True) P
  | 0, _, _, _, _, _, _, hlive => by
    show P .hang
    by_contra hhang
    obtain ⟨k, -, hk⟩ := (hlive hhang).ctrl
    omega
  | n + 1, new, oldpos, c, d, e, hfit, hlive => by
    unfold bsLoop
    split
    swap
    · exact trivial
    refine (ends_orReturn (fillBuffer_ends (hret (-1)) (fun h => ⟨(hfit h).ctrl, le_rfl⟩) fun h => (hlive h).ctrl.imp fun _ h => h.1)
      (hret 1)).bind fun r _ hr => ?_
    obtain ⟨buf, c'⟩ := r
    obtain ⟨hbuf, -, hcover, hcrest⟩ := hr
    refine .failIf (fun _ => hret 1) fun hneg => ?_
    simp only [not_or, not_lt] at hneg
    refine .failIf (fun _ => hret 1) fun hsum => ?_
    -- where the numbers fit, the checks are about the sums themselves
    have hsum₀ : ¬ P .fault → new.length + offtin cod buf ≤ newSize := fun hfault => by
      have hcounts := ((hfit hfault).counts buf (.here hbuf)).1
      have hnew := (hfit hfault).new
      rw [off_of_fits (by omega) (by omega)] at hsum
      omega
    refine (ends_orReturn (fillBuffer_ends (hret (-1)) (fun h => ⟨(hfit h).diff, ?_⟩) fun h => (hlive h).diff) (hret 1)).bind
      fun r _ hr => ?_
    · have := hsum₀ h
      have := (hfit h).small
      rw [u32_of_lt hneg.1 (by omega)]
      omega
    obtain ⟨diff, d'⟩ := r
    obtain ⟨-, hdlen, hdover, hdrest⟩ := hr
    refine .failIf (fun hover => ?_) fun _ => ?_
    · by_contra hfault
      have := hsum₀ hfault
      omega
    refine (addOld_ends (fun h => (hfit h).old) oldpos 0 diff).bind fun diff' _ hdiff' => ?_
    refine .failIf (fun _ => hret 1) fun hsum' => ?_
    have hlen : ¬ P .fault → ((new ++ diff').length : ℤ) = new.length + offtin cod buf := fun hfault => by
      have := hsum₀ hfault
      have := (hfit hfault).small
      rw [List.length_append, hdiff', hdlen, u32_of_lt hneg.1 (by omega)]
      push_cast
      omega
    have hsum₁ : ¬ P .fault → (new ++ diff').length + offtin cod (buf.drop 8) ≤ newSize := fun hfault => by
      have hcounts := ((hfit hfault).counts buf (.here hbuf)).2
      have := hsum₀ hfault
      have := hlen hfault
      rw [off_of_fits (by omega) (by omega)] at hsum'
      omega
    refine (ends_orReturn (fillBuffer_ends (hret (-1)) (fun h => ⟨(hfit h).extra, ?_⟩) fun h => (hlive h).extra) (hret 1)).bind
      fun r _ hr => ?_
    · have := hsum₁ h
      have := (hfit h).small
      rw [u32_of_lt hneg.2 (by omega)]
      omega
    obtain ⟨extra, e'⟩ := r
    obtain ⟨-, helen, heover, herest⟩ := hr
    refine .failIf (fun hover => ?_) fun _ => ?_
    · by_contra hfault
      have := hsum₁ hfault
      omega
    refine bsLoop_ends hret n _ _ c' d' e' (fun hfault => ?_) fun hhang => ?_
    · have hfit := hfit hfault
      refine ⟨hfit.old, hfit.small, ?_, hcover.trans hfit.ctrl, hdover.trans hfit.diff, heover.trans hfit.extra,
        fun buf' h => hfit.counts buf' (.later hbuf h)⟩
      have := hsum₁ hfault
      have := hfit.small
      rw [List.length_append, helen, u32_of_lt hneg.2 (by omega)]
      push_cast
      omega
    · obtain ⟨⟨k, hk, hn⟩, ⟨kd, hkd⟩, ke, hke⟩ := hlive hhang
      obtain ⟨hle, hrest⟩ := hcrest k hk
      exact ⟨⟨k - 24, hrest, by omega⟩, ⟨_, (hdrest kd hkd).2⟩, _, (herest ke hke).2⟩

/-! ### A bsdiff patch -/

/-- The header lies in the patch; and if there is something to decode, so do the streams,
and the counts can be added. -/
structure PatchFits (cod : Codecs) (patch : Bytes) (off : ℤ) : Prop where
  start : 0 ≤ off
  magic : off + 8 ≤ patch.length
  header : HasMagic patch off → off + 32 ≤ patch.length
  streams : Announces cod patch off → 0 < newSizeAt cod patch off →
    off + 32 + ctrlLenAt cod patch off + dataLenAt cod patch off ≤ patch.length
  counts : Announces cod patch off → 0 < newSizeAt cod patch off →
    ∀ buf, Triple cod (ctrlStream cod patch off) buf → CountsFit cod (newSizeAt cod patch off) buf

/-- If there is something to decode, the streams end, the first of them within the turns
that are counted. -/
structure PatchEnds (cod : Codecs) (patch : Bytes) (off : ℤ) : Prop where
  turns : Announces cod patch off → 0 < cod.steps
  streams : Announces cod patch off → 0 < newSizeAt cod patch off →
    LoopEnds cod.steps (ctrlStream cod patch off) (diffStream cod patch off) (extraStream cod patch off)

theorem openStream_inside {patch : Bytes} {i n : ℤ} (hsmall : patch.length < 2 ^ 31) (hi : 0 ≤ i)
    (hn : 0 ≤ n) (hin : i + n ≤ patch.length) :
    (openStream cod patch i n).overruns = false := by
  unfold openStream inputAt
  rw [s32_of_lt (by omega) (by omega), u32_of_lt hn (by omega), if_pos hi]
  exact decide_eq_false (by omega)

/-- Nothing is decoded for no new data. -/
theorem bsLoop_nothing {old : OldData} {newSize : ℤ} (h : newSize ≤ 0) {n : ℕ} (hn : ¬ P .hang → 0 < n) (c d e : Stream cod) :
    Ends (bsLoop cod old newSize n [] 0 c d e) (fun _ => True) P := by
  cases n with
  | zero =>
    show P .hang
    by_contra hhang
    exact absurd (hn hhang) (lt_irrefl 0)
  | succ n =>
    unfold bsLoop
    rw [if_neg (by simpa using h)]
    exact trivial

theorem bsdiff_ends (hret : ∀ code, P (.ret code)) {old : OldData} {patch : Bytes} {off : ℤ} (hsmall : patch.length < 2 ^ 31)
    (hfit : ¬ P .fault → OldFits old ∧ PatchFits cod patch off) (hlive : ¬ P .hang → PatchEnds cod patch off) :
    Ends (applyBSDiffPatchMem cod old patch off) (fun _ => True) P := by
  refine applyBSDiffPatchMem_ends (hret 1) (fun hout => ?_) (fun hmagic hout => ?_) fun h0 h32 hhead => ?_
  · by_contra hfault
    exact hout ⟨(hfit hfault).2.start, (hfit hfault).2.magic⟩
  · by_contra hfault
    exact hout ((hfit hfault).2.header hmagic)
  · by_cases hnew : 0 < newSizeAt cod patch off
    swap
    · exact bsLoop_nothing (not_lt.mp hnew) (fun hhang => (hlive hhang).turns hhead) _ _ _
    refine bsLoop_ends hret _ _ _ _ _ _ (fun hfault => ?_) fun hhang => (hlive hhang).streams hhead hnew
    obtain ⟨hold, hpatch⟩ := hfit hfault
    have hstreams := hpatch.streams hhead hnew
    have hctrl := hhead.ctrlLen
    have hdata := hhead.dataLen
    refine ⟨hold, Int.bmod_lt (by norm_num), by simpa using hhead.newSize, ?_, ?_, ?_, hpatch.counts hhead hnew⟩
    · exact openStream_inside hsmall (by omega) hctrl (by omega)
    · exact openStream_inside hsmall (by omega) hdata hstreams
    · exact openStream_inside hsmall (by omega) (by omega) (by omega)

/-! ### An image patch -/

theorem ends_read4 {b : Bytes} {i : ℤ} (h₀ : 0 ≤ i) (h : i + 4 ≤ b.length) : Ends (read4 b i) (fun _ => True) P :=
  Ends.bind (Q := fun _ => True) (by rw [sliceLE, slice_of_le b h₀ (by exact_mod_cast h)]; exact trivial) fun _ _ _ => trivial

theorem ends_read8 {b : Bytes} {i : ℤ} (h₀ : 0 ≤ i) (h : i + 8 ≤ b.length) : Ends (read8 b i) (fun v => 0 ≤ v ∧ v < 2 ^ 32) P :=
  Ends.bind (Q := fun _ => True) (by rw [sliceLE, slice_of_le b h₀ (by exact_mod_cast h)]; exact trivial) fun v _ _ =>
    ⟨Int.emod_nonneg _ (by norm_num), Int.emod_lt_of_pos _ (by norm_num)⟩

/-- The numbers in the record of a chunk stay in the patch and in the old data. -/
structure RecordFits (cod : Codecs) (old patch : Bytes) (pos : ℤ) : Prop where
  normal : read4 patch pos = .ok chunkNormal → ∀ srcStart srcLen patchOffset, read8 patch (pos + 4) = .ok srcStart →
    read8 patch (pos + 4 + 8) = .ok srcLen → read8 patch (pos + 4 + 16) = .ok patchOffset →
    OldFits ⟨old, srcStart, s32 srcLen⟩ ∧ PatchFits cod patch (s32 patchOffset)
  raw : read4 patch pos = .ok chunkRaw → ∀ dataLen, read4 patch (pos + 4) = .ok dataLen → 0 ≤ dataLen ∧ pos + 4 + 4 + dataLen < 2 ^ 31
  deflate : read4 patch pos = .ok chunkDeflate → ∀ srcStart srcLen patchOffset, read8 patch (pos + 4) = .ok srcStart →
    read8 patch (pos + 4 + 8) = .ok srcLen → read8 patch (pos + 4 + 16) = .ok patchOffset →
    srcStart + srcLen ≤ old.length ∧ PatchFits cod patch (s32 patchOffset)

/-- The streams of a chunk end, and `deflate` accepts its parameters. -/
structure RecordEnds (cod : Codecs) (patch : Bytes) (pos : ℤ) : Prop where
  normal : read4 patch pos = .ok chunkNormal → ∀ patchOffset, read8 patch (pos + 4 + 16) = .ok patchOffset →
    PatchEnds cod patch (s32 patchOffset)
  deflate : read4 patch pos = .ok chunkDeflate → ∀ patchOffset, read8 patch (pos + 4 + 16) = .ok patchOffset →
    PatchEnds cod patch (s32 patchOffset)
  params : read4 patch pos = .ok chunkDeflate → ∀ level method windowBits memLevel strategy, read4 patch (pos + 4 + 40) = .ok level →
    read4 patch (pos + 4 + 44) = .ok method → read4 patch (pos + 4 + 48) = .ok windowBits →
      read4 patch (pos + 4 + 52) = .ok memLevel →
    read4 patch (pos + 4 + 56) = .ok strategy → ∀ data, cod.deflate ⟨level, method, windowBits, memLevel, strategy⟩ data ≠ none

section

variable {old patch : Bytes} {pos : ℤ} (hret : ∀ code, P (.ret code)) (hsmall : patch.length + 64 ≤ 2 ^ 31) (h₀ : 0 ≤ pos)
  (hfit : RecordFits cod old patch pos) (hlive : ¬ P .hang → RecordEnds cod patch pos)

include hret

theorem expandSource_ends {srcStart srcLen expandedLen : ℤ} {bonus : Bytes} (hold : old.length < 2 ^ 31)
    (h₀ : 0 ≤ srcStart) (hlen : 0 ≤ srcLen) (hin : srcStart + srcLen ≤ old.length) :
    Ends (expandSource cod old srcStart srcLen expandedLen bonus) (fun src => (src.length : ℤ) = expandedLen) P := by
  have hinside : (inputAt old (s32 srcStart) srcLen).overruns = false := by
    unfold inputAt
    rw [s32_of_lt (by omega) (by omega), if_pos h₀]
    exact decide_eq_false (by omega)
  unfold expandSource
  dsimp only
  refine .failIf (fun hover => absurd hover.1 (by simp [hinside])) fun _ => ?_
  refine .failIf (fun _ => hret _) fun _ => .failIf (fun _ => hret _) fun hshort => ?_
  show ((_ ++ bonus : Bytes).length : ℤ) = expandedLen
  rw [List.length_append]
  push_cast
  omega

include hsmall h₀ hfit

theorem rawChunk_ends (hpos : pos + 4 ≤ patch.length) (htype : read4 patch pos = .ok chunkRaw) :
    Ends (rawChunk patch (pos + 4)) (fun r => 0 ≤ r.2 ∧ r.2 ≤ patch.length) P := by
  refine .failIf (fun _ => hret _) fun hin => ?_
  rw [s32_of_lt (by omega) (by omega)] at hin
  refine (ends_read4 (by omega) (by omega)).bind fun dataLen hlen _ => ?_
  obtain ⟨hlen₀, hend⟩ := hfit.raw htype dataLen hlen
  refine .failIf (fun _ => hret _) fun hdata => ?_
  rw [s32_of_lt (by omega) (by omega)] at hdata
  refine .failIf (fun hneg => absurd hneg (by omega)) fun _ => ?_
  refine (ends_slice fun hout => absurd ⟨by omega, by omega⟩ hout).bind fun data _ _ => ?_
  exact ⟨by simp only; omega, by simp only; omega⟩

include hlive

theorem normalChunk_ends (hpos : pos + 4 ≤ patch.length) (htype : read4 patch pos = .ok chunkNormal) :
    Ends (normalChunk cod old patch (pos + 4)) (fun r => 0 ≤ r.2 ∧ r.2 ≤ patch.length) P := by
  refine .failIf (fun _ => hret _) fun hin => ?_
  rw [s32_of_lt (by omega) (by omega)] at hin
  refine (ends_read8 (by omega) (by omega)).bind fun srcStart hstart _ => ?_
  refine (ends_read8 (by omega) (by omega)).bind fun srcLen hlen _ => ?_
  refine (ends_read8 (by omega) (by omega)).bind fun patchOffset hoff _ => ?_
  have happly : Ends (applyBSDiffPatchMem cod ⟨old, srcStart, s32 srcLen⟩ patch (s32 patchOffset)) (fun _ => True) P :=
    bsdiff_ends hret (by omega) (fun _ => hfit.normal htype _ _ _ hstart hlen hoff) fun h => (hlive h).normal htype _ hoff
  split
  · exact ⟨by simp only; omega, by simp only; omega⟩
  · rename_i stop _ hstop
    rw [hstop] at happly
    exact happly
  · exact ⟨by simp only; omega, by simp only; omega⟩

theorem deflateChunk_ends (hold : old.length < 2 ^ 31) (hpos : pos + 4 ≤ patch.length) (htype : read4 patch pos = .ok chunkDeflate)
    (bonus : Bytes) :
    Ends (deflateChunk cod old patch bonus (pos + 4)) (fun r => 0 ≤ r.2 ∧ r.2 ≤ patch.length) P := by
  refine .failIf (fun _ => hret _) fun hin => ?_
  rw [s32_of_lt (by omega) (by omega)] at hin
  refine (ends_read8 (by omega) (by omega)).bind fun srcStart hstart hstart₀ => ?_
  refine (ends_read8 (by omega) (by omega)).bind fun srcLen hlen hlen₀ => ?_
  refine (ends_read8 (by omega) (by omega)).bind fun patchOffset hoff _ => ?_
  refine (ends_read8 (by omega) (by omega)).bind fun expandedLen _ hexpanded => ?_
  refine (ends_read4 (by omega) (by omega)).bind fun level hlevel _ => ?_
  refine (ends_read4 (by omega) (by omega)).bind fun method hmethod _ => ?_
  refine (ends_read4 (by omega) (by omega)).bind fun windowBits hwindow _ => ?_
  refine (ends_read4 (by omega) (by omega)).bind fun memLevel hmem _ => ?_
  refine (ends_read4 (by omega) (by omega)).bind fun strategy hstrategy _ => ?_
  obtain ⟨hsrc, hpatch⟩ := hfit.deflate htype _ _ _ hstart hlen hoff
  refine (expandSource_ends hret hold hstart₀.1 hlen₀.1 hsrc).bind fun src _ hsrcLen => ?_
  have hview : OldFits ⟨src, 0, s32 expandedLen⟩ := fun hpositive => by
    have hlt : expandedLen < 2 ^ 31 := by
      by_contra hbig
      simp only [s32, Int.bmod_def] at hpositive
      omega
    simp only
    rw [s32_of_lt (by omega) hlt]
    omega
  refine (ends_orReturn (bsdiff_ends hret (by omega) (fun _ => ⟨hview, hpatch⟩) fun h => (hlive h).deflate htype _ hoff)
    (hret _)).bind fun target _ _ => ?_
  split
  · rename_i hnone
    show P .hang
    by_contra hhang
    exact (hlive hhang).params htype _ _ _ _ _ hlevel hmethod hwindow hmem hstrategy _ hnone
  · exact ⟨by simp only; omega, by simp only; omega⟩

/-- **A chunk** is read inside the patch and the old data. -/
theorem chunkAt_ends (hold : old.length < 2 ^ 31) (hpos : pos ≤ patch.length) (bonusData : Option Value) (i : ℕ) :
    Ends (chunkAt cod old patch bonusData i pos) (fun r => 0 ≤ r.2 ∧ r.2 ≤ patch.length) P := by
  refine .failIf (fun _ => hret _) fun hin => ?_
  rw [s32_of_lt (by omega) (by omega)] at hin
  refine (ends_read4 h₀ (by omega)).bind fun type htype _ => ?_
  split
  · rename_i heq
    exact normalChunk_ends hret hsmall h₀ hfit hlive (by omega) (heq ▸ htype)
  split
  · rename_i heq
    exact rawChunk_ends hret hsmall h₀ hfit (by omega) (heq ▸ htype)
  split
  · rename_i heq
    exact deflateChunk_ends hret hsmall h₀ hfit hlive hold (by omega) (heq ▸ htype) _
  · exact hret _

end

/-- Where the records of the chunks begin. -/
inductive Record (cod : Codecs) (old patch : Bytes) (bonusData : Option Value) : ℕ → ℤ → Prop
  | first : Record cod old patch bonusData 0 12
  | next {i : ℕ} {pos pos' : ℤ} {chunk : Chunk} (h : Record cod old patch bonusData i pos)
    (hchunk : chunkAt cod old patch bonusData i pos = .ok (chunk, pos')) : Record cod old patch bonusData (i + 1) pos'

/-- The numbers in the records of an image patch fit. -/
structure ImageFits (cod : Codecs) (old patch : Bytes) (bonusData : Option Value) : Prop where
  small : patch.length + 64 ≤ 2 ^ 31
  source : old.length < 2 ^ 31
  records : ∀ numChunks, read4 patch 8 = .ok numChunks → ∀ (i : ℕ) (pos : ℤ), i < numChunks → Record cod old patch bonusData i pos →
    RecordFits cod old patch pos

/-- Its streams end, and its parameters are accepted. -/
def ImageEnds (cod : Codecs) (old patch : Bytes) (bonusData : Option Value) : Prop :=
  ∀ numChunks, read4 patch 8 = .ok numChunks → ∀ (i : ℕ) (pos : ℤ), i < numChunks → Record cod old patch bonusData i pos →
    RecordEnds cod patch pos

section

variable {τ : Type} {sink : Sink τ} {old : Bytes} {patch : Value} {bonusData : Option Value}

/-- A program of the sink's stops only as `P` allows. -/
def StopsOnly {α : Type} (P : Stop → Prop) (p : Run α) : Prop :=
  ∀ s, Crash.Sat (fun _ => True) p s (fun _ _ => True) (fun e _ => ∀ stop, e = .stop stop → P stop) fun _ => True

theorem StopsOnly.pure {α : Type} (a : α) : StopsOnly P (pure a : Run α) := fun _ => Crash.Sat.pure trivial

theorem StopsOnly.bind {α β : Type} {p : Run α} {f : α → Run β} (h : StopsOnly P p)
    (hf : ∀ a, StopsOnly P (f a)) : StopsOnly P (p >>= f) :=
  fun s => (h s).step fun a s' _ => hf a s'

theorem StopsOnly.fail {α : Type} {stop : Stop} (h : P stop) : StopsOnly P (Crash.fail (.stop stop) : Run α) := fun _ =>
  Crash.Sat.fail fun _ heq => Failure.stop.inj heq ▸ h

theorem sinkPieces_stops (hsink : ∀ t b, StopsOnly P (sink t b)) : ∀ (pieces : List Bytes) (o : Sunk τ),
    StopsOnly P (sinkPieces sink pieces o)
  | [], o => .pure _
  | piece :: rest, o => by
    refine (hsink o.token piece).bind fun r => ?_
    obtain ⟨accepted, token⟩ := r
    dsimp only
    split
    · exact .pure _
    · exact sinkPieces_stops hsink rest _

theorem sinkChunk_stops (hsink : ∀ t b, StopsOnly P (sink t b)) (chunk : Chunk) (o : Sunk τ) :
    StopsOnly P (sinkChunk sink chunk o) := by
  cases chunk with
  | normal newData =>
    cases newData with
    | none => exact .pure _
    | some newData =>
      refine StopsOnly.bind ((hsink o.token newData).bind fun r => ?_) fun r => .pure _
      obtain ⟨accepted, token⟩ := r
      dsimp only
      split <;> exact .pure _
  | raw data => exact (hsink o.token data).bind fun r => .pure _
  | deflate pieces => exact sinkPieces_stops hsink pieces o

theorem imageLoop_stops (hret : ∀ code, P (.ret code)) (hsink : ∀ t b, StopsOnly P (sink t b))
    (hfit : ImageFits cod old patch.data bonusData)
    (hlive : ¬ P .hang → ImageEnds cod old patch.data bonusData) {numChunks : ℤ} (hnum : read4 patch.data 8 = .ok numChunks) :
    ∀ (n i : ℕ) (pos : ℤ) (o : Sunk τ), (∀ j < i + n, (j : ℤ) < numChunks) → 0 ≤ pos → pos ≤ patch.data.length →
    Record cod old patch.data bonusData i pos → StopsOnly P (imageLoop cod sink old patch.data bonusData n i pos o)
  | 0, _, _, _, _, _, _, _ => .pure _
  | n + 1, i, pos, o, hn, h₀, hpos, hrec => by
    have hi : (i : ℤ) < numChunks := hn i (by omega)
    have hchunk := chunkAt_ends hret hfit.small h₀ (hfit.records _ hnum i pos hi hrec)
      (fun h => hlive h _ hnum i pos hi hrec) hfit.source hpos
      bonusData i
    unfold imageLoop
    cases hc : chunkAt cod old patch.data bonusData i pos with rw [hc] at hchunk
    | error stop => cases stop with
      | ret code => exact .pure _
      | _ => exact .fail hchunk
    | ok r =>
      obtain ⟨chunk, pos'⟩ := r
      refine (sinkChunk_stops hsink chunk o).bind fun r => ?_
      dsimp only
      split
      · exact .pure _
      · exact imageLoop_stops hret hsink hfit hlive hnum n (i + 1) pos' r.2
          (fun j hj => hn j (by omega)) hchunk.1 hchunk.2 (.next hrec hc)

theorem applyImagePatch_stops (hret : ∀ code, P (.ret code)) (hsink : ∀ t b, StopsOnly P (sink t b))
    (hfit : ImageFits cod old patch.data bonusData) (hlive : ¬ P .hang → ImageEnds cod old patch.data bonusData) (o : Sunk τ) :
    StopsOnly P (applyImagePatch cod sink old patch bonusData o) := by
  unfold applyImagePatch
  split
  · exact .pure _
  rename_i hlen
  split
  · exact .pure _
  have hread := ends_read4 (P := P) (b := patch.data) (i := 8) (by omega) (by omega)
  cases hnum : read4 patch.data 8 with rw [hnum] at hread
  | error stop => exact fun s => Crash.Sat.bind (Crash.Sat.fail fun _ heq => Failure.stop.inj heq ▸ hread)
  | ok numChunks =>
    show StopsOnly P (imageLoop cod sink old patch.data bonusData numChunks.toNat 0 12 o)
    exact imageLoop_stops hret hsink hfit hlive hnum _ 0 12 o (fun j hj => by omega) (by norm_num) (by omega) .first

theorem StopsOnly.mono {α : Type} {P' : Stop → Prop} {p : Run α} (h : StopsOnly P p)
    (hP : ∀ stop, P stop → P' stop) : StopsOnly P' p :=
  fun s => (h s).mono (fun _ _ _ => trivial) (fun _ _ he stop heq => hP stop (he stop heq)) fun _ _ => trivial

end

/-! ### A library -/

/-- A stream as the number of bytes that are to come and the input. -/
def readCounted : Option (ℕ × Bytes) → ℕ → ℤ × Bytes × Option (ℕ × Bytes)
  | none, _ => (-1, [], none)
  | some (k, input), n =>
    if (input.take (min n k)).length = k then (bzStreamEnd, input.take k, none)
    else (bzOk, input.take (min n k), some (k - (input.take (min n k)).length, input.drop (min n k)))

theorem readCounted_le (st : Option (ℕ × Bytes)) (n : ℕ) : (readCounted st n).2.1.length ≤ n := by
  unfold readCounted
  split
  · simp
  · rename_i k input
    split
    · rename_i hall
      rw [List.length_take] at hall ⊢
      omega
    · rw [List.length_take]
      omega

/-- A library whose streams are a count and so many bytes. -/
def countedCodecs (w : ℕ) (hw : 32 ≤ w) : Codecs where
  BzStream := Option (ℕ × Bytes)
  bzInit
    | [] => some (1, [])
    | count :: input => some (count.toNat, input)
  bzDecompress := readCounted
  bzDecompress_le := readCounted_le
  inflate := fun _ _ => (-3, [])
  inflate_le := fun _ => Nat.zero_le
  deflate := fun _ _ => none
  offBits := w
  offBits_le := hw
  steps := 4

theorem counted_within {w : ℕ} {hw : 32 ≤ w} : ∀ (k : ℕ) (input : Bytes), k ≤ input.length →
    Within (countedCodecs w hw) k (some (k, input) : Option (ℕ × Bytes)) := by
  intro k
  induction k using Nat.strong_induction_on with
  | _ k ih =>
    intro input hk
    have hended : Ended (countedCodecs w hw) (none : Option (ℕ × Bytes)) := fun n _ h => by
      exact absurd (show GoesOn (-1) from h) (by unfold GoesOn; decide)
    have hnone : ∀ j, Within (countedCodecs w hw) j (none : Option (ℕ × Bytes)) := fun j =>
      ⟨fun n hn h => absurd h (hended n hn), fun n hn h => absurd h (hended n hn), fun n hn h => absurd h (hended n hn)⟩
    have hread : ∀ n, 0 < n → readCounted (some (k, input)) n =
        if k ≤ n then (bzStreamEnd, input.take k, none) else (bzOk, input.take n, some (k - n, input.drop n)) := by
      intro n hn
      have hlen : (input.take (min n k)).length = min n k := by
        rw [List.length_take]
        omega
      rw [readCounted, hlen]
      by_cases hle : k ≤ n
      · rw [if_pos hle, if_pos (by omega)]
      · rw [if_neg hle, if_neg (by omega), min_eq_left (by omega)]
    refine ⟨fun n hn _ => ?_, fun n hn _ => ?_, fun n hn _ => ?_⟩ <;> simp only [countedCodecs, hread n hn]
    · split
      · exact .inr ⟨rfl, hended⟩
      · refine .inl fun h => ?_
        have hlen := congrArg List.length h
        rw [List.length_take, List.length_nil] at hlen
        omega
    · split <;> simp only [List.length_take] <;> omega
    · split
      · exact hnone _
      · rename_i hlt
        simp only [List.length_take, min_eq_left (show n ≤ input.length by omega)]
        exact ih (k - n) (by omega) (input.drop n) (by rw [List.length_drop]; omega)

/-! ### A patch for two bytes -/

/-- A bsdiff patch for a new file of two bytes, with these streams. -/
def twoBytes (ctrl diff extra : Bytes) : Bytes :=
  lit "BSDIFF40" ++ LittleEndian.toBytes 8 ctrl.length ++ LittleEndian.toBytes 8 diff.length ++
    LittleEndian.toBytes 8 2 ++ ctrl ++ diff ++ extra

def tripleOf (x y z : ℕ) : Bytes := LittleEndian.toBytes 8 x ++ LittleEndian.toBytes 8 y ++ LittleEndian.toBytes 8 z

def oneChunk (patchOffset : ℕ) (bsdiff : Bytes) : Bytes :=
  lit "IMGDIFF2" ++ LittleEndian.toBytes 4 1 ++ LittleEndian.toBytes 4 0 ++ tripleOf 0 2 patchOffset ++ bsdiff

/-- A zero triple, then a byte of the old data with one added and a byte of its own. -/
@[irreducible] def sampleImage : Value where
  isBlob := true
  data := oneChunk 40 (twoBytes (48 :: (tripleOf 0 0 0 ++ tripleOf 1 1 0)) [1, 1] (1 :: lit "y"))
  size_lt := by decide +kernel

instance {w : ℕ} {hw : 32 ≤ w} : DecidableEq (countedCodecs w hw).BzStream := inferInstanceAs (DecidableEq (Option (ℕ × Bytes)))

instance {w : ℕ} {hw : 32 ≤ w} : DecidableEq (Stream (countedCodecs w hw)) := fun a b =>
  decidable_of_iff (a.st = b.st ∧ a.overruns = b.overruns) (by cases a; cases b; simp)

def sampleCodecs : Codecs := countedCodecs 32 (by decide)

instance : DecidableEq (Stream sampleCodecs) := inferInstanceAs (DecidableEq (Stream (countedCodecs 32 (by decide))))

def countedStream (left : Option (ℕ × Bytes)) : Stream sampleCodecs := ⟨left, false⟩

theorem sampleImage_ctrl : ctrlStream sampleCodecs sampleImage.data 40 =
    countedStream (some (48, tripleOf 0 0 0 ++ tripleOf 1 1 0)) := by
  decide +kernel

theorem sampleImage_fits : PatchFits sampleCodecs sampleImage.data 40 := by
  refine ⟨by decide, by decide +kernel, fun _ => by decide +kernel, fun _ _ => by decide +kernel, fun _ _ buf hbuf => ?_⟩
  have hsize : newSizeAt sampleCodecs sampleImage.data 40 = 2 := by decide +kernel
  have hfirst : fillBuffer sampleCodecs 24 24 (countedStream (some (48, tripleOf 0 0 0 ++ tripleOf 1 1 0))) =
      .ok (tripleOf 0 0 0, countedStream (some (24, tripleOf 1 1 0))) := by decide +kernel
  have hsecond : fillBuffer sampleCodecs 24 24 (countedStream (some (24, tripleOf 1 1 0))) =
      .ok (tripleOf 1 1 0, countedStream none) := by decide +kernel
  have hthird : fillBuffer sampleCodecs 24 24 (countedStream none) = .error (.ret (-1)) := by decide +kernel
  rw [sampleImage_ctrl] at hbuf
  rw [hsize]
  obtain rfl | hbuf := hbuf.of_ok hfirst
  · unfold CountsFit
    decide +kernel
  obtain rfl | hbuf := hbuf.of_ok hsecond
  · unfold CountsFit
    decide +kernel
  · exact absurd hbuf (Triple.not_of_error hthird)

theorem sampleImage_ends : PatchEnds sampleCodecs sampleImage.data 40 := by
  have hdiff : diffStream sampleCodecs sampleImage.data 40 = countedStream (some (1, [1])) := by decide +kernel
  have hextra : extraStream sampleCodecs sampleImage.data 40 = countedStream (some (1, lit "y")) := by decide +kernel
  refine ⟨fun _ => by decide, fun _ _ => ?_⟩
  rw [sampleImage_ctrl, hdiff, hextra]
  exact ⟨⟨48, counted_within 48 (tripleOf 0 0 0 ++ tripleOf 1 1 0) (by decide +kernel), by decide⟩,
    ⟨1, counted_within 1 [1] (by decide)⟩,
    ⟨1, counted_within 1 (lit "y") (by decide)⟩⟩

theorem whole_ab_fits : OldFits (.whole (lit "ab")) := fun _ => by decide

theorem sampleImage_records {i : ℕ} {pos : ℤ} (hi : i < 1)
    (h : Record sampleCodecs (lit "ab") sampleImage.data none i pos) : pos = 12 := by
  cases h with
  | first => rfl
  | next => omega

theorem sampleImage_image : ImageFits sampleCodecs (lit "ab") sampleImage.data none ∧
    ImageEnds sampleCodecs (lit "ab") sampleImage.data none := by
  have hnum : read4 sampleImage.data 8 = .ok 1 := by decide +kernel
  have htype : read4 sampleImage.data 12 = .ok chunkNormal := by decide +kernel
  have hstart : read8 sampleImage.data (12 + 4) = .ok 0 := by decide +kernel
  have hlen : read8 sampleImage.data (12 + 4 + 8) = .ok 2 := by decide +kernel
  have hoff : read8 sampleImage.data (12 + 4 + 16) = .ok 40 := by decide +kernel
  refine ⟨⟨by decide +kernel, by decide, fun num h i pos hi hrec => ?_⟩, fun num h i pos hi hrec => ?_⟩
  all_goals
    obtain rfl : 1 = num := Except.ok.inj (hnum.symm.trans h)
    obtain rfl := sampleImage_records (by omega) hrec
  · refine ⟨fun _ srcStart srcLen patchOffset h₁ h₂ h₃ => ?_, fun h _ _ => ?_, fun h _ _ _ _ _ _ => ?_⟩
    · obtain rfl : 0 = srcStart := Except.ok.inj (hstart.symm.trans h₁)
      obtain rfl : 2 = srcLen := Except.ok.inj (hlen.symm.trans h₂)
      obtain rfl : 40 = patchOffset := Except.ok.inj (hoff.symm.trans h₃)
      exact ⟨fun _ => by decide, sampleImage_fits⟩
    · exact absurd (Except.ok.inj (htype.symm.trans h)) (by decide)
    · exact absurd (Except.ok.inj (htype.symm.trans h)) (by decide)
  · refine ⟨fun _ patchOffset h₃ => ?_, fun h _ _ => ?_, fun h => ?_⟩
    · obtain rfl : 40 = patchOffset := Except.ok.inj (hoff.symm.trans h₃)
      exact sampleImage_ends
    · exact absurd (Except.ok.inj (htype.symm.trans h)) (by decide)
    · exact absurd (Except.ok.inj (htype.symm.trans h)) (by decide)

/-! ### All patches -/

def IsReturn (stop : Stop) : Prop := ∃ code, stop = .ret code

def farChunk : Value where
  isBlob := true
  data := oneChunk 1000 []
  size_lt := by decide +kernel

theorem farChunk_faults (cod : Codecs) (old : Bytes) : chunkAt cod old farChunk.data none 0 12 = .error .fault := by
  have htype : read4 farChunk.data 12 = .ok chunkNormal := by decide +kernel
  have hstart : read8 farChunk.data (12 + 4) = .ok 0 := by decide +kernel
  have hlen : read8 farChunk.data (12 + 4 + 8) = .ok 2 := by decide +kernel
  have hoff : read8 farChunk.data (12 + 4 + 16) = .ok 1000 := by decide +kernel
  have hheader : slice farChunk.data (s32 1000) 8 = .error .fault := by decide +kernel
  unfold chunkAt
  rw [failIf_bind, if_neg (by decide +kernel), htype, ok_bind, if_pos rfl, normalChunk, failIf_bind,
    if_neg (by decide +kernel), hstart,
    ok_bind, hlen, ok_bind, hoff, ok_bind, applyBSDiffPatchMem, hheader, error_bind]

end Patch
end Recovery
