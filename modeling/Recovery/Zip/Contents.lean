/-
# What is handed to a process function

`processContents_sat`, for any process function that keeps an invariant: it gets a part of
what the data stands for (`Handed`), and all of it (`Contents`) if
`mzProcessZipEntryContents` returns `true`. Nothing compares the bytes with the uncompressed
size before they are handed on, so `mzExtractZipEntryToBuffer` can write behind its buffer
(`overrun_buffers`), but not for an entry whose data has the size it says (`Honest`).
-/
import Recovery.Zip.Extract
import Recovery.Zip.Bounds

namespace Recovery
namespace Zip

open Patch (zOk zStreamEnd)
open Crash (Sat)

/-! ### The data of an entry -/

def rawData (file : Bytes) (pEntry : ZipEntry) : Bytes := (file.drop pEntry.offset.toNat).take pEntry.compLen.toNat

/-- How much is read by the next call: more only if all that was read is used up. -/
def readAhead (data : Bytes) (used read : ℕ) : ℕ := if used = read then min (read + bufSize) data.length else read

/-- The calls of `inflate` on some data: how many bytes are used up and read, what
was put out, the stream and the last code. A call is given what was read and not
used, and the room that is left of the output buffer. -/
inductive Yields (z : Inflater) (data : Bytes) : ℕ → ℕ → Bytes → z.St → ℤ → Prop
  | init : Yields z data 0 0 [] z.init zOk
  | call {used read : ℕ} {out : Bytes} {st : z.St} {r : Inflated z.St} (before : Yields z data used read out st zOk)
      (result : z.inflate st ((data.drop used).take (readAhead data used read - used)) (bufSize - out.length % bufSize) = r)
      (good : r.code = zOk ∨ r.code = zStreamEnd) :
      Yields z data (used + r.consumed) (readAhead data used read) (out ++ r.out) r.st r.code

/-- Bytes that are handed on: of a deflated entry whenever the output buffer is
full, and at the end of the stream. -/
def Handed (z : Inflater) (file : Bytes) (pEntry : ZipEntry) (h : Bytes) : Prop :=
  (pEntry.compression = stored ∧ h <+: rawData file pEntry) ∨
    (pEntry.compression = deflated ∧ ∃ used read st zerr, Yields z (rawData file pEntry) used read h st zerr ∧
      (zerr = zStreamEnd ∨ bufSize ∣ h.length))

/-- All the bytes that the data of an entry stands for. -/
def Contents (z : Inflater) (file : Bytes) (pEntry : ZipEntry) (d : Bytes) : Prop :=
  (pEntry.compression = stored ∧ d = rawData file pEntry) ∨
    (pEntry.compression = deflated ∧ (∃ used read st, Yields z (rawData file pEntry) used read d st zStreamEnd) ∧
      s32 d.length = pEntry.uncompLen)

/-- An entry in the archive whose sizes agree as far as they can be compared. -/
structure Sound (file : Bytes) (pEntry : ZipEntry) : Prop where
  offset : 0 ≤ pEntry.offset
  compLen : 0 ≤ pEntry.compLen
  uncompLen : 0 ≤ pEntry.uncompLen
  inside : pEntry.offset + pEntry.compLen ≤ file.length
  stored_len : pEntry.compression = stored → pEntry.compLen = pEntry.uncompLen

/-- An entry that is not longer than it says. -/
structure Honest (z : Inflater) (file : Bytes) (pEntry : ZipEntry) : Prop extends Sound file pEntry where
  inflated : pEntry.compression = deflated → ∀ used read out st zerr, Yields z (rawData file pEntry) used read out st zerr →
    zerr = zStreamEnd ∨ bufSize ∣ out.length → (out.length : ℤ) ≤ pEntry.uncompLen

/-- An entry whose data is inflated, without an error, to the size that it says. -/
structure Intact (z : Inflater) (file : Bytes) (pEntry : ZipEntry) : Prop where
  known : pEntry.compression = stored ∨ pEntry.compression = deflated
  next : pEntry.compression = deflated → ∀ used read out st, Yields z (rawData file pEntry) used read out st zOk →
    (z.inflate st (((rawData file pEntry).drop used).take (readAhead (rawData file pEntry) used read - used))
      (bufSize - out.length % bufSize)).code ∈ [zOk, zStreamEnd]
  size : pEntry.compression = deflated → ∀ used read out st, Yields z (rawData file pEntry) used read out st zStreamEnd →
    s32 out.length = pEntry.uncompLen

/-- A call that does not fail to read from the archive, or to inflate. -/
structure Ev.Smooth (e : Ev) : Prop where
  reads : e.readFails = false
  full : bufSize ≤ e.readCount
  inflates : e.inflateFails = false

theorem Sound.rawData_length {file : Bytes} {pEntry : ZipEntry} (h : Sound file pEntry) :
    ((rawData file pEntry).length : ℤ) = pEntry.compLen := by
  have := h.offset
  have := h.compLen
  have := h.inside
  simp only [rawData, List.length_take, List.length_drop]
  omega

theorem Honest.handed_le {z : Inflater} {file h : Bytes} {pEntry : ZipEntry} (he : Honest z file pEntry)
    (hh : Handed z file pEntry h) : (h.length : ℤ) ≤ pEntry.uncompLen := by
  rcases hh with ⟨hc, hpre⟩ | ⟨hc, used, read, st, zerr, hy, hfull⟩
  · have := hpre.length_le
    have := he.rawData_length
    have := he.stored_len hc
    omega
  · exact he.inflated hc _ _ _ _ _ hy hfull

/-- A length that wraps around is the value it wraps to if it is not above it. -/
theorem length_of_s32 {d : Bytes} {len : ℤ} (h : s32 d.length = len) (hle : (d.length : ℤ) ≤ len) : (d.length : ℤ) = len := by
  have hlt : s32 d.length < 2 ^ 31 := by
    have := Int.bmod_lt (x := (d.length : ℤ)) (m := 2 ^ 32) (by decide)
    norm_num at this
    exact this
  rw [h] at hlt
  rw [← h, s32_of_lt (by omega) (by omega)]

theorem Honest.contents_length {z : Inflater} {file d : Bytes} {pEntry : ZipEntry} (he : Honest z file pEntry)
    (hd : Contents z file pEntry d) : (d.length : ℤ) = pEntry.uncompLen := by
  rcases hd with ⟨hc, rfl⟩ | ⟨hc, ⟨used, read, st, hy⟩, hlen⟩
  · rw [he.rawData_length, he.stored_len hc]
  · exact length_of_s32 hlen (he.inflated hc _ _ _ _ _ hy (.inl rfl))

/-! ### Calls -/

section

variable {σ α : Type} {P : Ev → Prop} {s : σ} {err : Stop → σ → Prop} {cr : σ → Prop}

theorem ask_sat {f : Ev → α} {ok : α → σ → Prop} (hcr : cr s) (hok : ∀ e, P e → e.halt = false → ok (f e) s) :
    Sat P (ask f : Run σ α) s ok err cr := Sat.call (fun _ _ _ => hcr) hok

theorem readFd_sat {file : Bytes} {pos n : ℕ} {ok : Option Bytes → σ → Prop} (hcr : cr s)
    (hnone : (∃ e, P e ∧ e.readFails = true) → ok none s)
    (hok : ∀ buf : Bytes, (buf.length = n → buf = (file.drop pos).take n ∧ n ≤ file.length - pos) →
      ((∀ e, P e → n ≤ e.readCount) → n ≤ file.length - pos → buf.length = n) → ok (some buf) s) :
    Sat P (readFd file pos n : Run σ (Option Bytes)) s ok err cr := by
  refine ask_sat hcr fun e he _ => ?_
  split_ifs with hfails
  · exact hnone ⟨e, he, hfails⟩
  · refine hok _ (fun hlen => ?_) fun hfull hinside => ?_
    · simp only [List.length_take, List.length_drop] at hlen
      exact ⟨List.take_of_length_le (by simp only [List.length_take, List.length_drop]; omega), by omega⟩
    · have := hfull e he
      simp only [List.length_take, List.length_drop]
      omega

/-! ### Process functions that keep an invariant -/

/-- `I h` holds after the bytes `h`, and `lost` when the function has failed. Where all
is `calm`, nothing else fails. -/
structure Accepts (calm : Prop) (P : Ev → Prop) (f : Bytes → Run σ Bool) (H : Bytes → Prop) (I : Bytes → σ → Prop)
    (lost : σ → Prop) (err : Stop → σ → Prop) (cr : σ → Prop) : Prop where
  step : ∀ h data s, data ≠ [] → H (h ++ data) → I h s →
    Sat P (f data) s (fun ok s => if ok then I (h ++ data) s else lost s) err cr
  lost : ¬ calm → ∀ h s, I h s → lost s
  hang : ∀ h s, I h s → err .hang s
  crash : ∀ h s, I h s → cr s

variable {z : Inflater} {file : Bytes} {pEntry : ZipEntry} {f : Bytes → Run σ Bool} {I : Bytes → σ → Prop}
  {lost : σ → Prop} {calm : Prop}

/-- Why a calm run has no failure before the process function. -/
structure Calm (P : Ev → Prop) (z : Inflater) (file : Bytes) (pEntry : ZipEntry) : Prop where
  smooth : ∀ e, P e → e.Smooth
  intact : Intact z file pEntry

theorem Calm.reads (h : Calm P z file pEntry) : ¬ ∃ e, P e ∧ e.readFails = true := by
  rintro ⟨e, he, hfails⟩
  simp [(h.smooth e he).reads] at hfails

theorem processStoredLoop_sat (hs : Sound file pEntry) (hcalm : calm → Calm P z file pEntry)
    (hf : Accepts calm P f (Handed z file pEntry) I lost err cr) (hc : pEntry.compression = stored) :
    ∀ (n left : ℕ) (h : Bytes) (s : σ), left < n → h.length + left = pEntry.compLen.toNat → h <+: rawData file pEntry →
      I h s → Sat P (processStoredLoop file f n (pEntry.offset.toNat + h.length) left) s
        (fun ok s => if ok then ∃ d, Contents z file pEntry d ∧ I d s else lost s) err cr
  | 0, _, _, _, hn, _, _, _ => absurd hn (Nat.not_lt_zero _)
  | n + 1, left, h, s, hn, hlen, hpre, hI => by
    unfold processStoredLoop
    by_cases h0 : 0 < left
    · rw [if_pos h0]
      refine Sat.bind (readFd_sat (hf.crash h s hI)
        (fun hfails => Sat.pure (hf.lost (fun hc => (hcalm hc).reads hfails) h s hI)) fun buf hbuf hfull => ?_)
      dsimp only
      split_ifs with hcount
      · refine Sat.pure (hf.lost (fun hc => hcount (hfull (fun e he => ?_) ?_)) h s hI)
        · exact (min_le_right _ _).trans ((hcalm hc).smooth e he).full
        · have := hs.offset
          have := hs.inside
          have := min_le_left left bufSize
          omega
      · obtain ⟨rfl, hroom⟩ := hbuf (not_not.mp hcount)
        have hpos : 0 < min left bufSize := lt_min h0 (by decide)
        have hle : min left bufSize ≤ left := min_le_left _ _
        generalize min left bufSize = count at hpos hle hroom hcount ⊢
        -- the piece continues what was handed on before
        have htake : h = (file.drop pEntry.offset.toNat).take h.length := by
          have := List.prefix_iff_eq_take.mp hpre
          rw [rawData, List.take_take, min_eq_left (by omega)] at this
          exact this
        have happ : h ++ (file.drop (pEntry.offset.toNat + h.length)).take count =
            (file.drop pEntry.offset.toNat).take (h.length + count) := by
          rw [List.take_add, ← htake, List.drop_drop]
        have hpre' : h ++ (file.drop (pEntry.offset.toNat + h.length)).take count <+: rawData file pEntry := by
          rw [happ, rawData]
          exact List.take_prefix_take_left (by omega)
        have hcut := not_not.mp hcount
        have hne : (file.drop (pEntry.offset.toNat + h.length)).take count ≠ [] := by
          rw [← List.length_pos_iff_ne_nil, hcut]
          exact hpos
        refine Sat.step (hf.step _ _ _ hne (.inl ⟨hc, hpre'⟩) hI) fun ret s hstep => ?_
        split_ifs at hstep ⊢
        · have ih := processStoredLoop_sat hs hcalm hf hc n (left - count) _ s (by omega)
            (by rw [List.length_append, hcut]; omega) hpre' hstep
          rwa [List.length_append, hcut, ← Nat.add_assoc] at ih
        · exact Sat.pure hstep
    · rw [if_neg h0]
      apply Sat.pure
      simp only [if_true]
      have hall : h = rawData file pEntry := by
        refine hpre.eq_of_length_le ?_
        simp only [rawData, List.length_take]
        omega
      exact ⟨h, .inl ⟨hc, hall⟩, hI⟩

/-- `r` bytes are read, `seen` of them before the last call, `used` of them used
up, and `h` is handed on. -/
structure Pumping (z : Inflater) (file : Bytes) (pEntry : ZipEntry) (h : Bytes) (p : Pump z) (used seen r : ℕ) (zerr : ℤ) :
    Prop where
  yields : Yields z (rawData file pEntry) used seen (h ++ p.procBuf) p.st zerr
  used_le : used ≤ r
  read_le : r ≤ (rawData file pEntry).length
  input : p.input = ((rawData file pEntry).drop used).take (r - used)
  pos : p.pos = pEntry.offset.toNat + r
  left : p.compRemaining = pEntry.compLen - r
  total : p.totalOut = (h ++ p.procBuf).length
  whole : bufSize ∣ h.length

variable {h : Bytes} {p : Pump z} {used seen r : ℕ} {zerr : ℤ}

theorem Pumping.input_length (hp : Pumping z file pEntry h p used seen r zerr) : p.input.length = r - used := by
  have := hp.used_le
  have := hp.read_le
  rw [hp.input, List.length_take, List.length_drop]
  omega

theorem fillInput_sat (hs : Sound file pEntry) (hcr : cr s) (hp : Pumping z file pEntry h p used r r zOk) :
    Sat P (fillInput file p) s (fun o s' => s' = s ∧ (o = none → ¬ Calm P z file pEntry) ∧ ∀ p', o = some p' →
      p'.procBuf = p.procBuf ∧ Pumping z file pEntry h p' used r (readAhead (rawData file pEntry) used r) zOk) err cr := by
  have hcomp := hs.compLen
  have hlen := hp.input_length
  have hle := hp.used_le
  unfold fillInput
  split_ifs with hempty
  · have hused : used = r := by
      rw [hempty, List.length_nil] at hlen
      omega
    have hrle : r ≤ pEntry.compLen.toNat := hp.read_le.trans (by simp [rawData])
    have hleft := hp.left
    dsimp only
    rw [if_neg (by simp only [bufSize]; omega)]
    obtain ⟨k, hk⟩ : ∃ k : ℕ, min p.compRemaining bufSize = k :=
      ⟨(min p.compRemaining bufSize).toNat, by simp only [bufSize]; omega⟩
    rw [hk]
    refine Sat.bind (readFd_sat hcr (fun hfails => Sat.pure ⟨rfl, fun _ hcalm => hcalm.reads hfails, nofun⟩)
      fun buf hbuf hfull => ?_)
    dsimp only
    split_ifs with hcount
    · refine Sat.pure ⟨rfl, fun _ hcalm => hcount ?_, nofun⟩
      have hread : buf.length = (k : ℤ).toNat := by
        refine hfull (fun e he => ?_) ?_
        · have := (hcalm.smooth e he).full
          omega
        · have := hs.offset
          have := hs.inside
          rw [hp.pos]
          omega
      omega
    · have hblen : buf.length = k := by omega
      obtain ⟨hbuf, hroom⟩ := hbuf (by simpa using hblen)
      rw [Int.toNat_natCast] at hbuf hroom
      have hkle : k ≤ pEntry.compLen.toNat - r := by omega
      have hdata : ((rawData file pEntry).drop r).take k = buf := by
        rw [hbuf, hp.pos, rawData, List.drop_take, List.take_take, List.drop_drop, min_eq_left hkle]
      have hread := hp.read_le
      have hraw : (rawData file pEntry).length = min pEntry.compLen.toNat (file.length - pEntry.offset.toNat) := by
        simp [rawData]
      rw [hp.pos] at hroom
      -- all that is left is read, or a buffer of it
      have hahead : readAhead (rawData file pEntry) used r = r + k := by
        rw [readAhead, if_pos hused]
        omega
      refine Sat.pure ⟨rfl, nofun, fun p' hp' => ?_⟩
      obtain rfl := Option.some.inj hp'
      rw [hahead]
      exact ⟨rfl,
        { yields := hp.yields
          used_le := by omega
          read_le := by omega
          input := by rw [hused, Nat.add_sub_cancel_left, hdata]
          pos := by rw [hp.pos, hblen, Nat.add_assoc]
          left := by dsimp only; omega
          total := hp.total
          whole := hp.whole }⟩
  · refine Sat.pure ⟨rfl, nofun, fun p' hp' => ?_⟩
    obtain rfl := Option.some.inj hp'
    have hne : used ≠ r := fun heq => hempty (List.length_eq_zero_iff.mp (by omega))
    rw [readAhead, if_neg hne]
    exact ⟨rfl, hp⟩

theorem inflateCall_sat (hc : pEntry.compression = deflated) (hcr : cr s)
    (hp : Pumping z file pEntry h p used seen (readAhead (rawData file pEntry) used seen) zOk)
    (hroom : p.procBuf.length < bufSize) :
    Sat P (inflateCall p) s (fun res s' => s' = s ∧ (Calm P z file pEntry → res.1 = zOk ∨ res.1 = zStreamEnd) ∧
      ((res.1 = zOk ∨ res.1 = zStreamEnd) → res.2.procBuf.length ≤ bufSize ∧
        ∃ used' r, Pumping z file pEntry h res.2 used' r r res.1)) err cr := by
  have hmod : (h ++ p.procBuf).length % bufSize = p.procBuf.length := by
    obtain ⟨k, hk⟩ := hp.whole
    rw [List.length_append, hk, Nat.mul_add_mod, Nat.mod_eq_of_lt hroom]
  refine ask_sat hcr fun e he _ => ⟨rfl, ?_⟩
  dsimp only
  split_ifs with hfails
  · refine ⟨fun hcalm => ?_, fun hgood => ?_⟩
    · simp [(hcalm.smooth e he).inflates] at hfails
    · have hbad : ¬ ((-4 : ℤ) = zOk ∨ (-4 : ℤ) = zStreamEnd) := by decide
      exact absurd hgood hbad
  · refine ⟨fun hcalm => ?_, fun hgood => ?_⟩
    · have hnext := hcalm.intact.next hc _ _ _ _ hp.yields
      rw [hmod, ← hp.input] at hnext
      simpa using hnext
    have hle := z.consumed_le p.st p.input (bufSize - p.procBuf.length)
    have hout := z.out_le p.st p.input (bufSize - p.procBuf.length)
    generalize hr : z.inflate p.st p.input (bufSize - p.procBuf.length) = res at hgood hle hout ⊢
    have hlen := hp.input_length
    have hused := hp.used_le
    rw [hp.input, ← hmod] at hr
    refine ⟨by simp only [List.length_append]; omega, used + res.consumed, readAhead (rawData file pEntry) used seen, ?_⟩
    exact
      { yields := by
          rw [← List.append_assoc]
          exact .call hp.yields hr hgood
        used_le := by omega
        read_le := hp.read_le
        input := by
          show p.input.drop res.consumed = _
          rw [hp.input, List.drop_take, List.drop_drop, Nat.sub_sub]
        pos := hp.pos
        left := hp.left
        total := by
          show p.totalOut + res.out.length = _
          rw [hp.total, List.length_append, List.length_append, List.length_append, Nat.add_assoc]
        whole := hp.whole }

theorem Pumping.handOn (hp : Pumping z file pEntry h p used seen r zerr) (hfull : bufSize ∣ (h ++ p.procBuf).length) :
    Pumping z file pEntry (h ++ p.procBuf) { p with procBuf := [] } used seen r zerr :=
  { hp with
    yields := by simpa using hp.yields
    total := by simpa using hp.total
    whole := hfull }

/-- At the end of the stream everything that was put out is the contents. -/
theorem Pumping.contents (hc : pEntry.compression = deflated) (hp : Pumping z file pEntry h p used seen r zStreamEnd)
    (hlen : s32 p.totalOut = pEntry.uncompLen) : Contents z file pEntry (h ++ p.procBuf) :=
  .inr ⟨hc, ⟨used, seen, p.st, hp.yields⟩, hp.total ▸ hlen⟩

theorem Pumping.size (hc : pEntry.compression = deflated) (hp : Pumping z file pEntry h p used seen r zStreamEnd)
    (hcalm : Calm P z file pEntry) : s32 p.totalOut = pEntry.uncompLen := by
  rw [hp.total]
  exact hcalm.intact.size hc _ _ _ _ hp.yields

theorem Accepts.finish (hf : Accepts calm P f (Handed z file pEntry) I lost err cr) {h : Bytes} {result : ℤ} {s : σ}
    (hI : I h s) (hd : result = pEntry.uncompLen → Contents z file pEntry h) (hcalm : calm → result = pEntry.uncompLen) :
    Sat P (pure result : Run σ ℤ) s
      (fun result s => if result = pEntry.uncompLen then ∃ d, Contents z file pEntry d ∧ I d s else lost s) err cr := by
  refine Sat.pure ?_
  split_ifs with hlen
  · exact ⟨h, hd hlen, hI⟩
  · exact hf.lost (fun hc => hlen (hcalm hc)) h s hI

theorem inflateLoop_sat (hs : Sound file pEntry) (hcalm : calm → Calm P z file pEntry)
    (hf : Accepts calm P f (Handed z file pEntry) I lost err cr) (hc : pEntry.compression = deflated) :
    ∀ (n : ℕ) (p : Pump z) (h : Bytes) (used r : ℕ) (s : σ),
      Pumping z file pEntry h p used r r zOk → p.procBuf.length < bufSize → I h s → Sat P (inflateLoop file f n p) s
        (fun result s => if result = pEntry.uncompLen then ∃ d, Contents z file pEntry d ∧ I d s else lost s) err cr
  | 0, _, h, _, _, s, _, _, hI => Sat.fail (hf.hang h s hI)
  | n + 1, p, h, used, r, s, hp, hroom, hI => by
    have hbail : ∀ s, lost s → (if (-1 : ℤ) = pEntry.uncompLen then ∃ d, Contents z file pEntry d ∧ I d s else lost s) := by
      intro s hlost
      have := hs.uncompLen
      rwa [if_neg (by omega)]
    unfold inflateLoop
    refine Sat.step (fillInput_sat hs (hf.crash h s hI) hp) fun o s' ho => ?_
    obtain ⟨rfl, hnone, hfilled⟩ := ho
    cases o with
    | none => exact Sat.pure (hbail _ (hf.lost (fun h => hnone rfl (hcalm h)) h _ hI))
    | some p =>
      obtain ⟨hbuf, hp⟩ := hfilled p rfl
      refine Sat.step (inflateCall_sat hc (hf.crash h _ hI) hp (hbuf ▸ hroom)) fun res s' hres => ?_
      obtain ⟨rfl, hnext, hcalled⟩ := hres
      obtain ⟨zerr, p⟩ := res
      dsimp only at hnext hcalled ⊢
      by_cases hgood : zerr = zOk ∨ zerr = zStreamEnd
      · obtain ⟨hle, used, r, hp⟩ := hcalled hgood
        have hwhole : p.procBuf.length = bufSize → bufSize ∣ (h ++ p.procBuf).length := fun hfull => by
          rw [List.length_append, hfull]
          exact Nat.dvd_add hp.whole (Nat.dvd_refl _)
        rw [if_neg (fun hbad => not_or.mpr hbad hgood)]
        have hne : p.procBuf.length = bufSize ∨ zerr = zStreamEnd ∧ p.procBuf ≠ [] → p.procBuf ≠ [] := by
          rintro (hfull | ⟨-, hne⟩)
          · exact List.ne_nil_of_length_pos (hfull ▸ Nat.succ_pos _)
          · exact hne
        split_ifs with hfull hok hok
        · have hend : zerr = zStreamEnd ∨ bufSize ∣ (h ++ p.procBuf).length := hfull.symm.imp (·.1) hwhole
          refine Sat.step (hf.step h p.procBuf _ (hne hfull) (.inr ⟨hc, used, r, p.st, zerr, hp.yields, hend⟩) hI)
            fun ret s hstep => ?_
          cases ret with
          | false => exact Sat.pure (hbail _ hstep)
          | true =>
            subst hok
            have hdvd := hend.resolve_left (by decide)
            exact inflateLoop_sat hs hcalm hf hc n _ _ used r s (hp.handOn hdvd) (Nat.succ_pos _) hstep
        · obtain rfl := hgood.resolve_left hok
          refine Sat.step (hf.step h p.procBuf _ (hne hfull) (.inr ⟨hc, used, r, p.st, _, hp.yields, .inl rfl⟩) hI)
            fun ret s hstep => ?_
          cases ret with
          | false => exact Sat.pure (hbail _ hstep)
          | true =>
            have hsize := fun h => hp.size hc (hcalm h)
            have hall := hp.contents hc
            generalize s32 p.totalOut = result at hsize hall ⊢
            exact hf.finish hstep (fun hlen => hall hlen) hsize
        · subst hok
          exact inflateLoop_sat hs hcalm hf hc n p h used r _ hp (lt_of_le_of_ne hle fun h => hfull (.inl h)) hI
        · obtain rfl := hgood.resolve_left hok
          have hnil : p.procBuf = [] := by
            by_contra h
            exact hfull (.inr ⟨rfl, h⟩)
          have hall := hp.contents hc
          rw [hnil, List.append_nil] at hall
          have hsize := fun h => hp.size hc (hcalm h)
          generalize s32 p.totalOut = result at hsize hall ⊢
          exact hf.finish hI (fun hlen => hall hlen) hsize
      · rw [if_pos (not_or.mp hgood)]
        exact Sat.pure (hbail _ (hf.lost (fun h => hgood (hnext (hcalm h))) h _ hI))

/-- **What a process function gets**: parts of what the data stands for, and all of it on `true`. -/
theorem processContents_sat (hs : Sound file pEntry) (hlen : file.length < 2 ^ 32) (hcalm : calm → Calm P z file pEntry)
    (hf : Accepts calm P f (Handed z file pEntry) I lost err cr) {s : σ} (hI : I [] s) :
    Sat P (mzProcessZipEntryContents z file pEntry f) s
      (fun ok s => if ok then ∃ d, Contents z file pEntry d ∧ I d s else lost s) err cr := by
  have hcomp := hs.compLen
  unfold mzProcessZipEntryContents
  split_ifs with hstored hdeflated
  · have hu : (u32 pEntry.compLen).toNat = pEntry.compLen.toNat := by
      have := hs.inside
      have := hs.offset
      rw [u32_of_lt hcomp (by omega)]
    unfold processStoredEntry seekSet
    rw [hu]
    exact processStoredLoop_sat hs hcalm hf hstored _ _ [] s (Nat.lt_succ_self _) (by simp) ( List.nil_prefix) hI
  · unfold processDeflatedEntry
    refine Sat.bind (ask_sat (hf.crash _ s hI) fun e he _ => ?_)
    cases hfails : e.inflateFails with
    | true =>
      have : (-1 : ℤ) ≠ pEntry.uncompLen := by
        have := hs.uncompLen
        omega
      refine Sat.bind (Sat.pure (Sat.pure ?_))
      have hlost := hf.lost (fun h => by simp [((hcalm h).smooth e he).inflates] at hfails) _ s hI
      simpa [this] using hlost
    | false =>
      have hp : Pumping z file pEntry [] ⟨pEntry.compLen, seekSet pEntry.offset, [], [], 0, z.init⟩ 0 0 0 zOk :=
        ⟨.init, le_rfl, Nat.zero_le _, by simp, rfl, by simp, rfl, Nat.dvd_zero _⟩
      refine Sat.step (inflateLoop_sat hs hcalm hf hdeflated z.steps _ [] 0 0 s hp (Nat.succ_pos _) hI)
        fun result s hr => ?_
      apply Sat.pure
      simpa using hr
  · have hlost := hf.lost (fun h => not_or.mpr ⟨hstored, hdeflated⟩ (hcalm h).intact.known) _ s hI
    exact Sat.pure (by simpa using hlost)

end

/-! ### The size of what is handed on -/

/-- A process function, with a record of the bytes it is given. -/
def recorded {σ : Type} (f : Bytes → Run σ Bool) (data : Bytes) : Run (σ × Bytes) Bool := fun ev n s =>
  Crash.beside (f data) ev n (s.1, s.2 ++ data)

theorem recorded_accepts {σ : Type} {z : Inflater} {file : Bytes} {pEntry : ZipEntry} (he : Honest z file pEntry)
    (f : Bytes → Run σ Bool) : Accepts False (fun _ => True) (recorded f) (Handed z file pEntry)
      (fun h t => t.2 = h ∧ (h.length : ℤ) ≤ pEntry.uncompLen) (fun t => (t.2.length : ℤ) ≤ pEntry.uncompLen)
      (fun _ t => (t.2.length : ℤ) ≤ pEntry.uncompLen) (fun t => (t.2.length : ℤ) ≤ pEntry.uncompLen) := by
  have hrec : ∀ (h : Bytes) (t : σ × Bytes), t.2 = h ∧ (h.length : ℤ) ≤ pEntry.uncompLen →
      (t.2.length : ℤ) ≤ pEntry.uncompLen := by
    intro h t ht
    rw [ht.1]
    exact ht.2
  refine ⟨?_, fun _ => hrec, hrec, hrec⟩
  rintro h data ⟨s, t⟩ - hh ⟨rfl, -⟩
  have hle := he.handed_le hh
  have hbeside : Sat (fun _ => True) (Crash.beside (f data)) (s, t ++ data) _ _ _ := Sat.beside Sat.any
  refine fun ev hev n => hbeside.mono ?_ ?_ ?_ ev hev n
  · intro ok t' ht
    rw [ht.2]
    split_ifs
    · exact ⟨rfl, hle⟩
    · exact hle
  · intro e t' ht
    rw [ht.2]
    exact hle
  · intro t' ht
    rw [ht.2]
    exact hle

/-- What is in a buffer after `h` was copied to it. -/
structure Copied (buffer : Bytes) (len : ℤ) (h : Bytes) (c : Cookie) : Prop where
  buffer_eq : c.buffer = h ++ buffer.drop h.length
  written : c.written = h.length
  len_eq : c.len = len - h.length
  fits : h.length ≤ buffer.length

theorem Copied.put {buffer h : Bytes} {len : ℤ} {c : Cookie} (hc : Copied buffer len h c) (data : Bytes)
    (hfit : (h ++ data).length ≤ buffer.length) : ∃ c', c.put data = .ok c' ∧ Copied buffer len (h ++ data) c' := by
  obtain ⟨b, w, l⟩ := c
  obtain ⟨rfl, rfl, rfl, hfits⟩ := hc
  have hroom := hfit
  simp only [List.length_append] at hfit
  refine ⟨_, if_pos (by simp only [List.length_append, List.length_drop]; omega), ?_, ?_, ?_, hroom⟩
  · dsimp only
    rw [List.take_left, ← List.drop_drop, List.drop_left, List.drop_drop, List.length_append]
  · simp
  · simp only [List.length_append, Nat.cast_add]
    omega

theorem bufferProcessFunction_accepts {σ : Type} {z : Inflater} {file buffer : Bytes} {pEntry : ZipEntry}
    (he : Honest z file pEntry) (hlen : (buffer.length : ℤ) = pEntry.uncompLen) :
    Accepts False (fun _ => True) (bufferProcessFunction : Bytes → Run (σ × Cookie) Bool) (Handed z file pEntry)
      (fun h t => Copied buffer pEntry.uncompLen h t.2) (fun t => t.2.buffer.length = buffer.length)
      (fun stop _ => stop ≠ .fault) (fun _ => True) := by
  refine ⟨?_, ?_, fun _ _ _ => by decide, fun _ _ _ => trivial⟩
  · intro h data t _ hh ht
    have hle := he.handed_le hh
    obtain ⟨c', hput, hc'⟩ := ht.put data (by omega)
    intro ev _ n
    have hrun : bufferProcessFunction data ev n t = .ok true n (t.1, c') := by
      simp [bufferProcessFunction, onCookie, hput, pure, Except.pure]
    rw [hrun]
    exact hc'
  · intro _ h t ht
    rw [ht.buffer_eq, List.length_append, List.length_drop]
    have := ht.fits
    omega

/-- A file of an archive, with the uncompressed size its records name. -/
structure Packed where
  name : Bytes
  how : ℕ
  uncompLen : ℕ
  data : Bytes

def Packed.sizes (f : Packed) : Bytes :=
  LittleEndian.toBytes 4 f.data.length ++ LittleEndian.toBytes 4 f.uncompLen ++ LittleEndian.toBytes 2 f.name.length

def Packed.localRecord (f : Packed) : Bytes :=
  [0x50, 0x4b, 3, 4, 0, 0, 0, 0] ++ LittleEndian.toBytes 2 f.how ++ List.replicate 8 0 ++ f.sizes ++ [0, 0] ++ f.name ++ f.data

/-- The record of the central directory, for a local header at `off`. -/
def Packed.centralRecord (f : Packed) (off : ℕ) : Bytes :=
  [0x50, 0x4b, 1, 2, 0, 0, 0, 0, 0, 0] ++ LittleEndian.toBytes 2 f.how ++ List.replicate 8 0 ++ f.sizes ++
    List.replicate 12 0 ++ LittleEndian.toBytes 4 off ++ f.name

def centralDirectory : ℕ → List Packed → Bytes
  | _, [] => []
  | off, f :: fs => f.centralRecord off ++ centralDirectory (off + f.localRecord.length) fs

def pack (fs : List Packed) : Bytes :=
  let files := fs.flatMap Packed.localRecord
  let dir := centralDirectory 0 fs
  files ++ dir ++ [0x50, 0x4b, 5, 6, 0, 0, 0, 0] ++ LittleEndian.toBytes 2 fs.length ++ LittleEndian.toBytes 2 fs.length ++
    LittleEndian.toBytes 4 dir.length ++ LittleEndian.toBytes 4 files.length ++ [0, 0]

/-- The entries of an archive that is accepted. -/
def entriesOf (m : MemMapping) : Option (List ZipEntry) := (parseZipArchive m).toOption.map (·.pEntries)

theorem entriesOf_eq_some {m : MemMapping} {l : List ZipEntry} (h : entriesOf m = some l) :
    ∃ a, parseZipArchive m = .ok a ∧ a.pEntries = l := by
  unfold entriesOf at h
  cases hp : parseZipArchive m with rw [hp] at h
  | error e => cases h
  | ok a => exact ⟨a, rfl, Option.some.inj h⟩

def abcStream : Bytes := [0x4b, 0x4c, 0x4a, 0x06, 0x00]

/-- `inflate` of that stream when it is given at once; other calls fail. -/
def abcInflater : Inflater where
  St := Bool
  init := false
  inflate st input room :=
    if st = false ∧ input = abcStream ∧ 3 ≤ room then ⟨zStreamEnd, 5, lit "abc", true⟩ else ⟨-3, 0, [], st⟩
  consumed_le st input room := by
    split_ifs with h
    · rw [h.2.1]
      decide
    · exact Nat.zero_le _
  out_le st input room := by
    split_ifs with h
    · exact h.2.2
    · exact Nat.zero_le _
  steps := 8

theorem abcInflater_yields {data : Bytes} {used read : ℕ} {out : Bytes} {st : abcInflater.St} {zerr : ℤ}
    (h : Yields abcInflater data used read out st zerr) : out.length ≤ 3 ∧ (zerr = zOk → out = []) := by
  induction h with
  | init => exact ⟨by decide, fun _ => rfl⟩
  | @call used read out st r before result good ih =>
    obtain rfl := ih.2 rfl
    have hr : r.out.length ≤ 3 ∧ (r.code = zOk → r.out = []) := by
      rw [← result]
      simp only [abcInflater]
      split_ifs
      · decide
      · exact ⟨Nat.zero_le _, fun _ => rfl⟩
    simpa using hr

def abcZip : MemMapping := ⟨4096, pack [⟨lit "a", 8, 3, abcStream⟩], page_pos, by decide +kernel⟩

def abcEntry : ZipEntry := ⟨1, lit "a", 31, 5, 3, 8, 0, 0, 0, 0⟩

/-- The same data for a size of 0, stored and deflated. -/
def longStoredZip : MemMapping := ⟨4096, pack [⟨lit "a", 0, 0, lit "abc"⟩], page_pos, by decide +kernel⟩

def longStoredEntry : ZipEntry := ⟨1, lit "a", 31, 3, 0, 0, 0, 0, 0, 0⟩

def longDeflatedZip : MemMapping := ⟨4096, pack [⟨lit "a", 8, 0, abcStream⟩], page_pos, by decide +kernel⟩

def longDeflatedEntry : ZipEntry := ⟨1, lit "a", 31, 5, 0, 8, 0, 0, 0, 0⟩

end Zip
end Recovery
