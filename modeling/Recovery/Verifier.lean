/-
# Whole-file signatures (verifier.c)

`verify_file` reads the footer of an update package, finds the end-of-central-directory
record (EOCD), rejects the package if the EOCD marker occurs again behind it, hashes
everything up to the archive comment and tries the keys on the bytes before the footer. The
RSA check and the hash functions stay parameters.

Key theorem: `signature_placement`.
-/
import Recovery.Bytes

namespace Recovery
namespace Verifier

/-- `RSANUMBYTES`, `FOOTER_SIZE`, `EOCD_HEADER_SIZE` and `BUFFER_SIZE`. -/
def rsaNumBytes : ℕ := 256
def footerSize : ℕ := 6
def eocdHeaderSize : ℕ := 22
def bufferSize : ℕ := 4096

def verifyFailure : Stop := .ret 1

/-- The four bytes an EOCD record begins with. -/
def eocdMark : Bytes := [0x50, 0x4b, 0x05, 0x06]

structure Certificate (K : Type) where
  hash_len : ℤ
  public_key : K

/-- What verifier.c takes from mincrypt. -/
structure Lib (K : Type) where
  rsaVerify : K → Bytes → Bytes → Bool
  sha1 : Bytes → Bytes
  sha256 : Bytes → Bytes

section

variable {K : Type} (lib : Lib K)

/-- The scan for a second marker, `n` positions from `i` on. -/
def laterMark (eocd : Bytes) : ℕ → ℕ → Except Stop Unit
  | 0, _ => pure ()
  | n + 1, i => do
    let m ← slice eocd i 4
    failIf (m = eocdMark) verifyFailure
    laterMark eocd n (i + 1)

/-- The loop that feeds the signed part to the hashes, one buffer at a time. -/
def hashLoop (io : ℕ → Bool) (f : Bytes) (signedLen : ℕ) (needSha1 needSha256 : Bool) :
    ℕ → ℕ → ℕ → Bytes → Bytes → Except Stop (Bytes × Bytes)
  | 0, _, _, _, _ => .error .hang
  | n + 1, k, soFar, sha1Ctx, sha256Ctx =>
    if soFar < signedLen then do
      let size := min bufferSize (signedLen - soFar)
      failIf (io (7 + k) = false) verifyFailure
      let buffer ← slice f soFar size
      hashLoop io f signedLen needSha1 needSha256 n (k + 1) (soFar + size)
        (if needSha1 then sha1Ctx ++ buffer else sha1Ctx)
        (if needSha256 then sha256Ctx ++ buffer else sha256Ctx)
    else pure (sha1Ctx, sha256Ctx)

/-- The hash a certificate signs, for the hash lengths that are supported. -/
def hashFor (sha1 sha256 : Bytes) (c : Certificate K) : Option Bytes :=
  if c.hash_len = 20 then some sha1 else if c.hash_len = 32 then some sha256 else none

def tryKeys (eocd sha1 sha256 : Bytes) : List (Certificate K) → Except Stop Unit
  | [] => .error verifyFailure
  | c :: cs =>
    match hashFor sha1 sha256 c with
    | none => tryKeys eocd sha1 sha256 cs
    | some hash => do
      -- the pointer is `eocd + eocd_size - 6 - RSANUMBYTES`
      let sig ← slice eocd ((eocd.length : ℤ) - footerSize - rsaNumBytes) rsaNumBytes
      if lib.rsaVerify c.public_key sig hash then pure () else tryKeys eocd sha1 sha256 cs

/-- Up to the size check: the comment size and the signature start. `io k`: the `k`-th call
succeeds. -/
def readFooter (io : ℕ → Bool) (f : Bytes) : Except Stop (ℕ × ℕ) := do
  failIf (io 0 = false) verifyFailure
  failIf (io 1 = false ∨ f.length < footerSize) verifyFailure
  failIf (io 2 = false) verifyFailure
  let footer ← slice f ((f.length : ℤ) - footerSize) footerSize
  let marks ← slice footer 2 2
  failIf (marks ≠ [0xff, 0xff]) verifyFailure
  let commentSize ← sliceLE footer 4 2
  let signatureStart ← sliceLE footer 0 2
  pure (commentSize, signatureStart)

/-- The EOCD record and the comment, checked for markers. -/
def readEocd (io : ℕ → Bool) (f : Bytes) (eocdSize : ℕ) : Except Stop Bytes := do
  failIf (io 3 = false ∨ f.length < eocdSize) verifyFailure
  failIf (io 4 = false) verifyFailure
  failIf (io 5 = false) verifyFailure
  let eocd ← slice f ((f.length : ℤ) - eocdSize) eocdSize
  let mark ← slice eocd 0 4
  failIf (mark ≠ eocdMark) verifyFailure
  laterMark eocd (eocdSize - 3 - 4) 4
  pure eocd

/-- It ends in `.ok` where the C function returns `VERIFY_SUCCESS`. -/
def verifyFile (io : ℕ → Bool) (f : Bytes) (pKeys : List (Certificate K)) : Except Stop Unit := do
  let (commentSize, signatureStart) ← readFooter io f
  failIf ((signatureStart : ℤ) - footerSize < rsaNumBytes) verifyFailure
  let eocdSize := commentSize + eocdHeaderSize
  let eocd ← readEocd io f eocdSize
  failIf (io 6 = false) verifyFailure
  let signedLen := f.length - eocdSize + eocdHeaderSize - 2
  let (sha1Ctx, sha256Ctx) ← hashLoop io f signedLen (pKeys.any fun c => c.hash_len = 20)
    (pKeys.any fun c => c.hash_len = 32) (signedLen + 1) 0 0 [] []
  tryKeys lib eocd (lib.sha1 sha1Ctx) (lib.sha256 sha256Ctx) pKeys

end

/-! ### What the footer announces -/

/-- The comment size and the signature start in the footer. -/
def commentSize (f : Bytes) : ℕ := LittleEndian.ofBytes (f.drop (f.length - 2))
def signatureStart (f : Bytes) : ℕ := LittleEndian.ofBytes ((f.drop (f.length - 6)).take 2)

/-- The EOCD record and the comment, as far as the footer is right. -/
def eocd (f : Bytes) : Bytes := f.drop (f.length - (commentSize f + 22))

/-- The part of the file the signature covers. -/
def signedLen (f : Bytes) : ℕ := f.length - (commentSize f + 22) + 20

/-- The checks `verify_file` makes before it looks at a key. -/
structure Checked (f : Bytes) : Prop where
  long : 6 ≤ f.length
  marks : (f.drop (f.length - 4)).take 2 = [0xff, 0xff]
  sig : 262 ≤ signatureStart f
  fits : commentSize f + 22 ≤ f.length
  mark : (eocd f).take 4 = eocdMark
  once : ∀ i, 4 ≤ i → i + 3 < (eocd f).length → ((eocd f).drop i).take 4 ≠ eocdMark

/-- Every library call of `verify_file` on `f` succeeds. -/
def Reads (io : ℕ → Bool) (f : Bytes) : Prop :=
  ∀ k < 7 + (signedLen f + (bufferSize - 1)) / bufferSize, io k = true

theorem Checked.eocd_length {f : Bytes} (h : Checked f) : (eocd f).length = commentSize f + 22 := by
  have := h.fits
  simp only [eocd, List.length_drop]
  omega

/-! ### The loops -/

theorem laterMark_eq (e : Bytes) : ∀ n i : ℕ, i + n + 3 ≤ e.length →
    laterMark e n i = if ∀ j, i ≤ j → j < i + n → (e.drop j).take 4 ≠ eocdMark
      then .ok () else .error verifyFailure
  | 0, i, _ => by
    rw [if_pos fun j h1 h2 => by omega]
    rfl
  | n + 1, i, h => by
    have hs : slice e i 4 = .ok ((e.drop i).take 4) := by
      have := slice_of_le e (i := i) (n := 4) (by omega) (by omega)
      simpa using this
    unfold laterMark
    rw [hs]
    by_cases hm : (e.drop i).take 4 = eocdMark
    · rw [if_neg fun hall => hall i le_rfl (by omega) hm]
      simp [hm]
    · have ih := laterMark_eq e n (i + 1) (by omega)
      simp only [ok_bind, failIf_bind, if_neg hm, ih]
      congr 1
      refine propext ⟨fun hall j h1 h2 => ?_, fun hall j h1 h2 => hall j (by omega) (by omega)⟩
      rcases Nat.eq_or_lt_of_le h1 with rfl | h1
      · exact hm
      · exact hall j h1 (by omega)

/-- Buffer by buffer, the loop feeds the whole signed part, unless a read fails. -/
theorem hashLoop_eq (io : ℕ → Bool) (f : Bytes) (len : ℕ) (n1 n256 : Bool) (hlen : len ≤ f.length) :
    ∀ (n k soFar : ℕ) (c1 c256 : Bytes), len - soFar < n → soFar ≤ len →
      hashLoop io f len n1 n256 n k soFar c1 c256 =
        if ∀ j < (len - soFar + (bufferSize - 1)) / bufferSize, io (7 + k + j) = true then
          .ok (if n1 then c1 ++ (f.take len).drop soFar else c1,
            if n256 then c256 ++ (f.take len).drop soFar else c256)
        else .error verifyFailure
  | 0, _, _, _, _, h, _ => by omega
  | n + 1, k, soFar, c1, c256, h, hle => by
    unfold hashLoop
    by_cases hlt : soFar < len
    · rw [if_pos hlt]
      set size := min bufferSize (len - soFar) with hsize
      have hb : bufferSize = 4096 := rfl
      have hs : slice f soFar size = .ok ((f.drop soFar).take size) := by
        have := slice_of_le f (i := soFar) (n := size) (by omega) (by omega)
        simpa using this
      -- one buffer and the rest of the blocks
      have hcount : (len - soFar + (bufferSize - 1)) / bufferSize =
          (len - (soFar + size) + (bufferSize - 1)) / bufferSize + 1 := by
        rw [hb]
        omega
      have hcat : ∀ c : Bytes, c ++ (f.take len).drop soFar =
          c ++ (f.drop soFar).take size ++ (f.take len).drop (soFar + size) := by
        intro c
        have h1 : (f.take len).drop soFar = (f.drop soFar).take size ++ (f.take len).drop (soFar + size) := by
          rw [← List.take_append_drop size ((f.take len).drop soFar), List.drop_drop]
          congr 1
          rw [List.drop_take, List.take_take, min_eq_left (by omega)]
        rw [h1, List.append_assoc]
      by_cases hio : io (7 + k) = true
      · have ih := hashLoop_eq io f len n1 n256 hlen n (k + 1) (soFar + size)
          (if n1 then c1 ++ (f.drop soFar).take size else c1)
          (if n256 then c256 ++ (f.drop soFar).take size else c256) (by omega) (by omega)
        simp only [failIf_bind, hio, Bool.true_eq_false, if_false, hs, ok_bind]
        rw [ih, hcount]
        have hiff : (∀ j < (len - (soFar + size) + (bufferSize - 1)) / bufferSize, io (7 + (k + 1) + j) = true) ↔
            ∀ j < (len - (soFar + size) + (bufferSize - 1)) / bufferSize + 1, io (7 + k + j) = true := by
          refine ⟨fun hall j hj => ?_, fun hall j hj => ?_⟩
          · rcases j with _ | j
            · exact hio
            · have := hall j (by omega)
              rwa [show 7 + (k + 1) + j = 7 + k + (j + 1) by omega] at this
          · have := hall (j + 1) (by omega)
            rwa [show 7 + k + (j + 1) = 7 + (k + 1) + j by omega] at this
        simp only [hiff, hcat]
        cases n1 <;> cases n256 <;> rfl
      · have hio' : io (7 + k) = false := by simpa using hio
        have hneg : ¬ ∀ j < (len - soFar + (bufferSize - 1)) / bufferSize, io (7 + k + j) = true :=
          fun hall => hio (by simpa using hall 0 (by rw [hcount]; exact Nat.succ_pos _))
        rw [if_neg hneg]
        simp [hio']
    · have h0 : soFar = len := by omega
      subst h0
      rw [if_neg hlt, if_pos (fun j hj => by simp [bufferSize] at hj)]
      simp [pure, Except.pure]

/-! ### The whole function -/

theorem slice_footer {f : Bytes} (h : 6 ≤ f.length) {i : ℕ} (hi : i ≤ 4) :
    slice (f.drop (f.length - 6)) i 2 = .ok ((f.drop (f.length - 6 + i)).take 2) := by
  rw [slice_of_le _ (by omega) (by simp only [List.length_drop]; omega), List.drop_drop, Int.toNat_natCast]

theorem slice_last {f : Bytes} (h : 6 ≤ f.length) : slice f ((f.length : ℤ) - (6 : ℕ)) 6 = .ok (f.drop (f.length - 6)) := by
  rw [slice_of_le f (by omega) (by omega), List.take_of_length_le (by simp only [List.length_drop]; omega)]
  congr 2
  omega

theorem readFooter_ok {io : ℕ → Bool} {f : Bytes} (h0 : io 0 = true) (h1 : io 1 = true) (h2 : io 2 = true)
    (hlong : 6 ≤ f.length) (hm : (f.drop (f.length - 4)).take 2 = [0xff, 0xff]) :
    readFooter io f = .ok (commentSize f, signatureStart f) := by
  have hmarks : slice (f.drop (f.length - 6)) 2 2 = .ok [0xff, 0xff] := by
    rw [← hm, show f.length - 4 = f.length - 6 + 2 by omega]
    exact slice_footer hlong (i := 2) (by omega)
  have hcs : sliceLE (f.drop (f.length - 6)) 4 2 = .ok (commentSize f) := by
    refine sliceLE_eq_ok.mpr ⟨_, slice_footer hlong (i := 4) le_rfl, ?_⟩
    rw [commentSize, show f.length - 6 + 4 = f.length - 2 by omega,
      List.take_of_length_le (by simp only [List.length_drop]; omega)]
  have hss : sliceLE (f.drop (f.length - 6)) 0 2 = .ok (signatureStart f) :=
    sliceLE_eq_ok.mpr ⟨_, slice_footer hlong (i := 0) (by omega), rfl⟩
  have hnl : ¬ f.length < 6 := by omega
  unfold readFooter
  simp only [failIf_bind, footerSize, h0, h1, h2, hnl, Bool.true_eq_false, or_self, if_false, slice_last hlong, ok_bind,
    hmarks, hcs, hss, ne_eq, not_true_eq_false]
  rfl

theorem readFooter_cases (io : ℕ → Bool) (f : Bytes) : readFooter io f = .error verifyFailure ∨
    (io 0 = true ∧ io 1 = true ∧ io 2 = true) ∧ 6 ≤ f.length ∧ (f.drop (f.length - 4)).take 2 = [0xff, 0xff] := by
  by_cases h0 : io 0 = false
  · left; simp [readFooter, h0]
  by_cases h1 : io 1 = false ∨ f.length < footerSize
  · left; simp [readFooter, h0, h1]
  by_cases h2 : io 2 = false
  · left; simp [readFooter, h0, h1, h2]
  simp only [Bool.not_eq_false, footerSize, not_or, not_lt] at h0 h1 h2
  by_cases hm : (f.drop (f.length - 4)).take 2 = [0xff, 0xff]
  · exact Or.inr ⟨⟨h0, h1.1, h2⟩, h1.2, hm⟩
  · left
    have hnl : ¬ f.length < 6 := by omega
    have hmarks := slice_footer h1.2 (i := 2) (by omega)
    rw [show f.length - 6 + 2 = f.length - 4 by omega] at hmarks
    unfold readFooter
    simp only [failIf_bind, footerSize, h0, h1.1, h2, hnl, Bool.true_eq_false, or_self, if_false, slice_last h1.2, ok_bind]
    rw [show (2 : ℤ) = (2 : ℕ) from rfl, hmarks, ok_bind, if_pos hm]

theorem slice_eocd {f : Bytes} (h : commentSize f + 22 ≤ f.length) :
    slice f ((f.length : ℤ) - (commentSize f + eocdHeaderSize : ℕ)) (commentSize f + eocdHeaderSize) =
      .ok (eocd f) := by
  simp only [eocdHeaderSize]
  rw [slice_of_le f (by omega) (by omega), List.take_of_length_le (by simp only [List.length_drop]; omega), eocd]
  congr 2
  omega

theorem readEocd_ok {io : ℕ → Bool} {f : Bytes} (h3 : io 3 = true) (h4 : io 4 = true) (h5 : io 5 = true)
    (hC : Checked f) : readEocd io f (commentSize f + eocdHeaderSize) = .ok (eocd f) := by
  have hlen := hC.eocd_length
  have hmark : slice (eocd f) 0 4 = .ok eocdMark := hC.mark ▸ slice_of_le _ (by omega) (by omega)
  have honce : laterMark (eocd f) (commentSize f + eocdHeaderSize - 3 - 4) 4 = .ok () := by
    simp only [eocdHeaderSize]
    rw [laterMark_eq _ _ _ (by omega)]
    exact if_pos fun j hj hj' => hC.once j hj (by omega)
  have hnl : ¬ f.length < commentSize f + eocdHeaderSize := by
    have := hC.fits
    simp only [eocdHeaderSize]; omega
  unfold readEocd
  simp only [failIf_bind, h3, h4, h5, hnl, Bool.true_eq_false, or_self, if_false, slice_eocd hC.fits, ok_bind, hmark,
    ne_eq, not_true_eq_false, honce]
  rfl

theorem readEocd_cases (io : ℕ → Bool) (f : Bytes) :
    readEocd io f (commentSize f + eocdHeaderSize) = .error verifyFailure ∨
      (io 3 = true ∧ io 4 = true ∧ io 5 = true) ∧ commentSize f + 22 ≤ f.length ∧ (eocd f).take 4 = eocdMark ∧
        ∀ i, 4 ≤ i → i + 3 < (eocd f).length → ((eocd f).drop i).take 4 ≠ eocdMark := by
  by_cases h3 : io 3 = false ∨ f.length < commentSize f + eocdHeaderSize
  · left; simp [readEocd, h3]
  by_cases h4 : io 4 = false
  · left; simp [readEocd, h3, h4]
  by_cases h5 : io 5 = false
  · left; simp [readEocd, h3, h4, h5]
  have hfits : commentSize f + 22 ≤ f.length := by simp only [eocdHeaderSize] at h3; omega
  have hlen : (eocd f).length = commentSize f + 22 := by simp only [eocd, List.length_drop]; omega
  have hmark : slice (eocd f) 0 4 = .ok ((eocd f).take 4) := slice_of_le _ (by omega) (by omega)
  by_cases hm : (eocd f).take 4 = eocdMark
  swap
  · left
    unfold readEocd
    simp only [failIf_bind, if_neg h3, if_neg h4, if_neg h5, slice_eocd hfits, ok_bind, hmark, ne_eq, hm,
      not_false_eq_true, if_true]
  by_cases ho : ∀ i, 4 ≤ i → i + 3 < (eocd f).length → ((eocd f).drop i).take 4 ≠ eocdMark
  · refine Or.inr ⟨⟨?_, by simpa using h4, by simpa using h5⟩, hfits, hm, ho⟩
    simpa using (not_or.mp h3).1
  · left
    have hl : laterMark (eocd f) (commentSize f + eocdHeaderSize - 3 - 4) 4 = .error verifyFailure := by
      simp only [eocdHeaderSize]
      rw [laterMark_eq _ _ _ (by omega)]
      exact if_neg fun h => ho fun i hi hi' => h i hi (by omega)
    unfold readEocd
    simp only [failIf_bind, if_neg h3, if_neg h4, if_neg h5, slice_eocd hfits, ok_bind, hmark, ne_eq, hm,
      not_true_eq_false, if_false, hl, error_bind]

section

variable {K : Type} (lib : Lib K)

/-- The bytes fed to one kind of hash: none when no key needs it. -/
def fed (f : Bytes) (len : ℤ) (pKeys : List (Certificate K)) : Bytes :=
  if pKeys.any (fun c => c.hash_len = len) then f.take (signedLen f) else []

/-- **On a file that passes the checks, `verify_file` is the key loop.** -/
theorem verifyFile_checked {io : ℕ → Bool} {f : Bytes} (pKeys : List (Certificate K)) (hC : Checked f)
    (hR : Reads io f) : verifyFile lib io f pKeys =
      tryKeys lib (eocd f) (lib.sha1 (fed f 20 pKeys)) (lib.sha256 (fed f 32 pKeys)) pKeys := by
  have hlow : ∀ k < 7, io k = true := fun k hk => hR k (Nat.lt_of_lt_of_le hk (Nat.le_add_right _ _))
  have hfits := hC.fits
  have hsl : f.length - (commentSize f + eocdHeaderSize) + eocdHeaderSize - 2 = signedLen f := by
    simp only [signedLen, eocdHeaderSize]; omega
  have hsig : ¬ (signatureStart f : ℤ) - footerSize < rsaNumBytes := by
    have := hC.sig
    simp only [footerSize, rsaNumBytes]; omega
  unfold verifyFile
  rw [readFooter_ok (hlow 0 (by omega)) (hlow 1 (by omega)) (hlow 2 (by omega)) hC.long hC.marks, ok_bind]
  simp only [failIf_bind, hsig, if_false, hlow 6 (by omega), Bool.true_eq_false]
  rw [readEocd_ok (hlow 3 (by omega)) (hlow 4 (by omega)) (hlow 5 (by omega)) hC, ok_bind, hsl,
    hashLoop_eq io f (signedLen f) _ _ (by simp only [signedLen]; omega) _ _ _ _ _ (by omega) (by omega)]
  simp only [Nat.sub_zero, Nat.add_zero, List.nil_append, List.drop_zero]
  rw [if_pos fun j hj => hR _ (Nat.add_lt_add_left hj 7), ok_bind]
  rfl

theorem verifyFile_unchecked {io : ℕ → Bool} {f : Bytes} (pKeys : List (Certificate K))
    (h : ¬ (Checked f ∧ Reads io f)) : verifyFile lib io f pKeys = .error verifyFailure := by
  unfold verifyFile
  rcases readFooter_cases io f with hF | ⟨⟨h0, h1, h2⟩, hlong, hm⟩
  · rw [hF]; rfl
  rw [readFooter_ok h0 h1 h2 hlong hm, ok_bind]
  simp only [failIf_bind]
  by_cases hs : (signatureStart f : ℤ) - footerSize < rsaNumBytes
  · rw [if_pos hs]
  have hsig : 262 ≤ signatureStart f := by simp only [footerSize, rsaNumBytes] at hs; omega
  rw [if_neg hs]
  rcases readEocd_cases io f with hE | ⟨⟨h3, h4, h5⟩, hfits, hmark, honce⟩
  · rw [hE]; rfl
  have hC : Checked f := ⟨hlong, hm, hsig, hfits, hmark, honce⟩
  rw [readEocd_ok h3 h4 h5 hC, ok_bind]
  by_cases h6 : io 6 = false
  · rw [if_pos h6]
  have hsl : f.length - (commentSize f + eocdHeaderSize) + eocdHeaderSize - 2 = signedLen f := by
    simp only [signedLen, eocdHeaderSize]; omega
  rw [if_neg h6, hsl,
    hashLoop_eq io f (signedLen f) _ _ (by simp only [signedLen]; omega) _ _ _ _ _ (by omega) (by omega), if_neg]
  · rfl
  -- only a failed read of the signed part is left
  intro hall
  refine h ⟨hC, fun k hk => ?_⟩
  rcases Nat.lt_or_ge k 7 with hk7 | hk7
  · have hk' : k = 0 ∨ k = 1 ∨ k = 2 ∨ k = 3 ∨ k = 4 ∨ k = 5 ∨ k = 6 := by omega
    rcases hk' with rfl | rfl | rfl | rfl | rfl | rfl | rfl <;> first | assumption | simpa using h6
  · obtain ⟨j, rfl⟩ := Nat.exists_eq_add_of_le hk7
    exact hall j (Nat.lt_of_add_lt_add_left hk)

end

/-! ### Where the signature lies -/

section

variable {K : Type} (lib : Lib K)

/-- The key has a hash length `verify_file` supports. -/
def Supported (c : Certificate K) : Prop := c.hash_len = 20 ∨ c.hash_len = 32

/-- The hash of the signed part, of the kind a supported key signs. -/
def hashOf (f : Bytes) (c : Certificate K) : Bytes :=
  if c.hash_len = 20 then lib.sha1 (f.take (f.length - commentSize f - 2))
  else lib.sha256 (f.take (f.length - commentSize f - 2))

/-- The `RSANUMBYTES` bytes that end six bytes before the end of the file. -/
def signature (f : Bytes) : Bytes := (f.drop (f.length - 262)).take 256

/-- Some key accepts the bytes before the footer. -/
def Signs (f : Bytes) (c : Certificate K) : Prop :=
  Supported c ∧ lib.rsaVerify c.public_key (signature f) (hashOf lib f c) = true

/-- `verify_file` stays in its buffer, and accepts only a signature in the comment, behind
the signed part. -/
def SignaturePlaced (io : ℕ → Bool) (f : Bytes) (pKeys : List (Certificate K)) : Prop :=
  verifyFile lib io f pKeys ≠ .error .fault ∧
    (verifyFile lib io f pKeys = .ok () → (∃ c ∈ pKeys, Signs lib f c) ∧
      f.length - commentSize f + (256 + 6) ≤ f.length ∧ 256 + 6 ≤ signatureStart f)

theorem hashFor_none {s1 s256 : Bytes} {c : Certificate K} : hashFor s1 s256 c = none ↔ ¬ Supported c := by
  unfold hashFor Supported
  split_ifs <;> simp_all

/-- The first supported key reads in front of a record too short for a signature. -/
theorem tryKeys_short (s1 s256 : Bytes) {e : Bytes} (he : e.length < 262) : ∀ pKeys : List (Certificate K),
    tryKeys lib e s1 s256 pKeys = .error .fault ∧ (∃ c ∈ pKeys, Supported c) ∨
      tryKeys lib e s1 s256 pKeys = .error verifyFailure ∧ ∀ c ∈ pKeys, ¬ Supported c
  | [] => by simp [tryKeys]
  | c :: cs => by
    unfold tryKeys
    cases hh : hashFor s1 s256 c with
    | none =>
      have hn := hashFor_none.mp hh
      rcases tryKeys_short s1 s256 he cs with ⟨h, c', hc', hs⟩ | ⟨h, hall⟩
      · exact Or.inl ⟨h, c', List.mem_cons_of_mem _ hc', hs⟩
      · exact Or.inr ⟨h, by simpa [hn] using hall⟩
    | some hash =>
      have hs : Supported c := by
        by_contra hn
        rw [hashFor_none.mpr hn] at hh
        cases hh
      refine Or.inl ⟨?_, c, List.mem_cons_self, hs⟩
      have hf : slice e ((e.length : ℤ) - footerSize - rsaNumBytes) rsaNumBytes = .error .fault := by
        unfold slice
        rw [if_neg]
        simp only [footerSize, rsaNumBytes]
        omega
      simp only [hf, error_bind]

/-- With room for a signature, the keys are tried on the bytes before the footer. -/
theorem tryKeys_long (s1 s256 : Bytes) {e : Bytes} (he : 262 ≤ e.length) : ∀ pKeys : List (Certificate K),
    tryKeys lib e s1 s256 pKeys = .ok () ∧ (∃ c ∈ pKeys, ∃ h, hashFor s1 s256 c = some h ∧
        lib.rsaVerify c.public_key ((e.drop (e.length - 262)).take 256) h = true) ∨
      tryKeys lib e s1 s256 pKeys = .error verifyFailure ∧ ∀ c ∈ pKeys, ∀ h, hashFor s1 s256 c = some h →
        lib.rsaVerify c.public_key ((e.drop (e.length - 262)).take 256) h = false
  | [] => by simp [tryKeys]
  | c :: cs => by
    have ih := tryKeys_long s1 s256 he cs
    unfold tryKeys
    cases hh : hashFor s1 s256 c with
    | none =>
      rcases ih with ⟨h, c', hc', hs⟩ | ⟨h, hall⟩
      · exact Or.inl ⟨h, c', List.mem_cons_of_mem _ hc', hs⟩
      · refine Or.inr ⟨h, fun c' hc' h' hs => ?_⟩
        rcases List.mem_cons.mp hc' with rfl | hc'
        · rw [hh] at hs; cases hs
        · exact hall c' hc' h' hs
    | some hash =>
      have hsig : slice e ((e.length : ℤ) - footerSize - rsaNumBytes) rsaNumBytes =
          .ok ((e.drop (e.length - 262)).take 256) := by
        simp only [footerSize, rsaNumBytes]
        rw [show (e.length : ℤ) - (6 : ℕ) - (256 : ℕ) = (e.length - 262 : ℕ) by omega,
          slice_of_le e (by omega) (by omega), Int.toNat_natCast]
      simp only [hsig, ok_bind]
      by_cases hv : lib.rsaVerify c.public_key ((e.drop (e.length - 262)).take 256) hash = true
      · exact Or.inl ⟨by rw [if_pos hv]; rfl, c, List.mem_cons_self, hash, hh, hv⟩
      · rw [if_neg hv]
        rcases ih with ⟨h, c', hc', hs⟩ | ⟨h, hall⟩
        · exact Or.inl ⟨h, c', List.mem_cons_of_mem _ hc', hs⟩
        · refine Or.inr ⟨h, fun c' hc' h' hs => ?_⟩
          rcases List.mem_cons.mp hc' with rfl | hc'
          · rw [hh] at hs; cases hs; simpa using hv
          · exact hall c' hc' h' hs

theorem signs_iff {f : Bytes} (hC : Checked f) (hlen : 240 ≤ commentSize f) {pKeys : List (Certificate K)}
    {c : Certificate K} (hc : c ∈ pKeys) :
    (∃ h, hashFor (lib.sha1 (fed f 20 pKeys)) (lib.sha256 (fed f 32 pKeys)) c = some h ∧
      lib.rsaVerify c.public_key (((eocd f).drop ((eocd f).length - 262)).take 256) h = true) ↔ Signs lib f c := by
  have hfits := hC.fits
  have hsig : ((eocd f).drop ((eocd f).length - 262)).take 256 = signature f := by
    rw [hC.eocd_length, eocd, List.drop_drop, signature,
      show f.length - (commentSize f + 22) + (commentSize f + 22 - 262) = f.length - 262 by omega]
  have hsl : signedLen f = f.length - commentSize f - 2 := by simp only [signedLen]; omega
  have hfed : ∀ n, c.hash_len = n → fed f n pKeys = f.take (f.length - commentSize f - 2) := by
    intro n hn
    rw [fed, if_pos (List.any_eq_true.mpr ⟨c, hc, by simpa using hn⟩), hsl]
  rw [hsig]
  unfold Signs hashFor Supported hashOf
  by_cases h20 : c.hash_len = 20
  · simp [h20, hfed 20 h20]
  · by_cases h32 : c.hash_len = 32
    · simp [h32, hfed 32 h32]
    · simp [h20, h32]

/-- **Exactly when the signature is where it should be.** `verify_file` keeps
its promise on a file and a list of keys if and only if the file is rejected
before the key loop, or the comment has room for a signature and the footer,
or no key is supported, or the bytes in front of the footer lie in the record
and no key accepts them. -/
theorem signature_placement (io : ℕ → Bool) (f : Bytes) (pKeys : List (Certificate K)) :
    SignaturePlaced lib io f pKeys ↔
      ¬ (Checked f ∧ Reads io f) ∨ 262 ≤ commentSize f ∨ (∀ c ∈ pKeys, ¬ Supported c) ∨
        (240 ≤ commentSize f ∧ ∀ c ∈ pKeys, ¬ Signs lib f c) := by
  unfold SignaturePlaced
  by_cases hCR : Checked f ∧ Reads io f
  swap
  · simp [verifyFile_unchecked lib pKeys hCR, hCR, verifyFailure]
  obtain ⟨hC, hR⟩ := hCR
  have hfits := hC.fits
  have hsig := hC.sig
  rw [verifyFile_checked lib pKeys hC hR]
  by_cases h240 : 240 ≤ commentSize f
  · have hlen : 262 ≤ (eocd f).length := by rw [hC.eocd_length]; omega
    rcases tryKeys_long lib (lib.sha1 (fed f 20 pKeys)) (lib.sha256 (fed f 32 pKeys)) hlen pKeys with
      ⟨hok, c, hc, hv⟩ | ⟨herr, hall⟩
    · have hS : Signs lib f c := (signs_iff lib hC h240 hc).mp hv
      rw [hok]
      constructor
      · rintro ⟨-, hp⟩
        exact Or.inr (Or.inl (by have := (hp rfl).2.1; omega))
      · rintro (h | h | h | h)
        · exact absurd ⟨hC, hR⟩ h
        · exact ⟨by simp, fun _ => ⟨⟨c, hc, hS⟩, by omega, by omega⟩⟩
        · exact absurd hS.1 (h c hc)
        · exact absurd hS (h.2 c hc)
    · rw [herr]
      refine ⟨fun _ => Or.inr (Or.inr (Or.inr ⟨h240, fun c hc hS => ?_⟩)), fun _ => by simp [verifyFailure]⟩
      obtain ⟨h, hh, hv⟩ := (signs_iff lib hC h240 hc).mpr hS
      rw [hall c hc h hh] at hv
      cases hv
  · have hlen : (eocd f).length < 262 := by rw [hC.eocd_length]; omega
    rcases tryKeys_short lib (lib.sha1 (fed f 20 pKeys)) (lib.sha256 (fed f 32 pKeys)) hlen pKeys with
      ⟨hflt, c, hc, hs⟩ | ⟨herr, hall⟩
    · rw [hflt]
      constructor
      · rintro ⟨hp, -⟩
        exact absurd rfl hp
      · rintro (h | h | h | h)
        · exact absurd ⟨hC, hR⟩ h
        · omega
        · exact absurd hs (h c hc)
        · exact absurd h.1 h240
    · rw [herr]
      exact ⟨fun _ => Or.inr (Or.inr (Or.inl hall)), fun _ => by simp [verifyFailure]⟩

end

/-- A record without a comment whose last bytes announce a signature of 262 bytes. -/
def bareEocd : Bytes :=
  eocdMark ++ List.replicate 12 0 ++ [0x06, 0x01, 0xff, 0xff, 0x00, 0x00]

/-- The bytes handed to `RSA_verify` for `bareEocd` begin 240 bytes in front of the buffer. -/
theorem bareEocd_not_placed :
    ¬ SignaturePlaced (⟨fun _ _ _ => false, fun _ => [], fun _ => []⟩ : Lib Unit) (fun _ => true) bareEocd
      [⟨20, ()⟩] := by
  intro h
  exact h.1 (by decide)

end Verifier
end Recovery
