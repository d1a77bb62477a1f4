/-
# The verifier and the installer read the same archive

`verify_file` looks for the end-of-central-directory record forwards from where the footer
says it is, `parseZipArchive` backwards from the end of the file.

Key theorems: `findEocd_signed`, `archive_from_signed_record`.
-/
import Recovery.Verifier
import Recovery.Zip.Directory

namespace Recovery
namespace Zip

open Verifier

/-- Four bytes that read as `ENDSIG` are the marker `verify_file` compares with. -/
theorem ofBytes_eq_endSig {r : Bytes} (h : r.length = 4) : LittleEndian.ofBytes r = endSig ↔ r = eocdMark := by
  refine ⟨fun hr => ?_, fun hr => hr ▸ rfl⟩
  obtain ⟨a, b, c, d, rfl⟩ := List.length_eq_four.mp h
  have ha := a.toNat_lt
  have hb := b.toNat_lt
  have hc := c.toNat_lt
  have hd := d.toNat_lt
  simp only [LittleEndian.ofBytes, endSig] at hr
  have : a.toNat = 0x50 ∧ b.toNat = 0x4b ∧ c.toNat = 0x05 ∧ d.toNat = 0x06 := by omega
  simp only [eocdMark, List.cons.injEq, and_true]
  exact ⟨UInt8.toNat_inj.mp this.1, UInt8.toNat_inj.mp this.2.1, UInt8.toNat_inj.mp this.2.2.1,
    UInt8.toNat_inj.mp this.2.2.2⟩

theorem get4LE_at {m : MemMapping} {n : ℕ} (h : n + 4 ≤ m.data.length) :
    get4LE m (m.addr + n) = .ok (LittleEndian.ofBytes ((m.data.drop n).take 4)) := by
  refine sliceLE_eq_ok.mpr ⟨_, slice_of_le _ (by omega) (by omega), ?_⟩
  congr 3
  omega

theorem findEocd_last {m : MemMapping} {off : ℕ} (hoff : (m.data.drop off).take 4 = eocdMark) : ∀ n : ℕ, off < n →
    n + 3 ≤ m.data.length → (∀ j, off < j → j < n → (m.data.drop j).take 4 ≠ eocdMark) → findEocd m n = .ok off
  | n + 1, hlt, hn, hlast => by
    have hlen : ((m.data.drop n).take 4).length = 4 := by simp only [List.length_take, List.length_drop]; omega
    simp only [findEocd, get4LE_at (show n + 4 ≤ m.data.length by omega), ok_bind, ofBytes_eq_endSig hlen]
    rcases Nat.lt_succ_iff_lt_or_eq.mp hlt with h | rfl
    · rw [if_neg (hlast n h (by omega))]
      exact findEocd_last hoff n h (by omega) fun j h1 h2 => hlast j h1 (by omega)
    · rw [if_pos hoff]
      rfl

theorem eocdMark_no_overlap {f : Bytes} {off i : ℕ} (h : (f.drop off).take 4 = eocdMark) (h1 : 0 < i) (h4 : i < 4) :
    (f.drop (off + i)).take 4 ≠ eocdMark := by
  intro h'
  have hi : f[off + i]? = eocdMark[i]? := by
    rw [← h, List.getElem?_take_of_lt h4, List.getElem?_drop]
  have h0 : f[off + i]? = eocdMark[0]? := by
    rw [← h', List.getElem?_take_of_lt (by omega), List.getElem?_drop, Nat.add_zero]
  have : i = 1 ∨ i = 2 ∨ i = 3 := by omega
  rcases this with rfl | rfl | rfl <;> exact absurd (hi.symm.trans h0) (by decide)

/-- The record `verify_file` checked begins 20 bytes before the end of the signed part. -/
theorem eocd_eq_drop (f : Bytes) : eocd f = f.drop (signedLen f - 20) := by
  rw [eocd, signedLen, Nat.add_sub_cancel]

/-- After the checks of `verify_file` the backward scan finds the record it checked. -/
theorem findEocd_signed {m : MemMapping} (h : Checked m.data) :
    findEocd m (m.length + 1 - endHdr) = .ok (signedLen m.data - 20) := by
  have hfits := h.fits
  have hlen := h.eocd_length
  have hoff : signedLen m.data - 20 = m.data.length - (commentSize m.data + 22) := Nat.add_sub_cancel _ _
  have hmark : (m.data.drop (signedLen m.data - 20)).take 4 = eocdMark := eocd_eq_drop m.data ▸ h.mark
  refine findEocd_last hmark _ ?_ ?_ fun j h1 h2 => ?_ <;> simp only [MemMapping.length, endHdr] at *
  · omega
  · omega
  -- behind the record: inside the marker, or where `verify_file` looked for a second one
  obtain ⟨i, rfl⟩ := Nat.exists_eq_add_of_le h1.le
  rcases Nat.lt_or_ge i 4 with hi | hi
  · exact eocdMark_no_overlap hmark (by omega) hi
  · have := h.once i hi (by omega)
    rwa [eocd_eq_drop, List.drop_drop] at this

/-- **The verifier and the installer agree on the archive.** If `verify_file`
accepts the file and `parseZipArchive` opens it, the record the installer
uses is the one that was verified, and the number of entries and the offset
of the central directory are read from the signed part. -/
theorem archive_from_signed_record {K : Type} (lib : Lib K) (io : ℕ → Bool) (pKeys : List (Certificate K))
    {m : MemMapping} {a : ZipArchive} (hv : verifyFile lib io m.data pKeys = .ok ())
    (hp : parseZipArchive m = .ok a) :
    findEocd m (m.length + 1 - endHdr) = .ok (signedLen m.data - 20) ∧
      m.data.drop (signedLen m.data - 20) = eocd m.data ∧
      ∃ cdOffset, readDirectory m a.numEntries cdOffset = .ok a ∧
        sliceLE (m.data.take (signedLen m.data)) ((signedLen m.data - 20 : ℕ) + endSub) 2 = .ok a.numEntries ∧
        sliceLE (m.data.take (signedLen m.data)) ((signedLen m.data - 20 : ℕ) + endOff) 4 = .ok cdOffset := by
  have hC : Checked m.data := by
    by_contra hn
    rw [verifyFile_unchecked lib pKeys fun h => hn h.1] at hv
    cases hv
  refine ⟨findEocd_signed hC, (eocd_eq_drop m.data).symm, ?_⟩
  obtain ⟨off, n, cdOffset, hend, hdir⟩ := parseZipArchive_eq_ok hp
  obtain ⟨rfl, -⟩ := readDirectory_spec (readEnd_pos hend).1 (readEnd_pos hend).2 hdir
  simp only [readEnd, findEocd_signed hC, ok_bind, bind_eq_ok, failIf_eq_ok, pure_eq_ok] at hend
  obtain ⟨n, hn, cd, hcd, -, -, heq⟩ := hend
  obtain ⟨rfl, rfl, rfl⟩ : _ ∧ n = a.numEntries ∧ cd = cdOffset := by simpa using heq
  refine ⟨cd, hdir, sliceLE_take ?_ ?_, sliceLE_take ?_ ?_⟩
  · rwa [get2LE, show ((m.addr + (signedLen m.data - 20) + endSub : ℕ) : ℤ) - m.addr
      = (signedLen m.data - 20 : ℕ) + endSub by push_cast; omega] at hn
  · simp only [endSub, signedLen]; omega
  · rwa [get4LE, show ((m.addr + (signedLen m.data - 20) + endOff : ℕ) : ℤ) - m.addr
      = (signedLen m.data - 20 : ℕ) + endOff by push_cast; omega] at hcd
  · simp only [endOff, signedLen]; omega

/-- An archive with the file `a` and a comment that holds a signature block of zeros. -/
def sampleSigned : MemMapping where
  addr := 4096
  data := sampleLocal ++ sampleCentral ++
    [0x50, 0x4b, 5, 6, 0, 0, 0, 0, 1, 0, 1, 0, 47, 0, 0, 0, 31, 0, 0, 0, 6, 1] ++
    List.replicate 256 0 ++ [6, 1, 0xff, 0xff, 6, 1]
  addr_pos := page_pos
  addr_add_length_lt := by decide +kernel

theorem sampleSigned_agrees : ∃ a, parseZipArchive sampleSigned = .ok a ∧
    findEocd sampleSigned (sampleSigned.length + 1 - endHdr) = .ok (signedLen sampleSigned.data - 20) := by
  have hv : (match verifyFile ⟨fun _ _ _ => true, id, id⟩ (fun _ => true) sampleSigned.data [⟨20, ()⟩] with
      | .ok () => true
      | .error _ => false) = true := by decide +kernel
  have hp : (match parseZipArchive sampleSigned with
      | .ok _ => true
      | .error _ => false) = true := by decide +kernel
  split at hv
  · rename_i hv'
    split at hp
    · rename_i a ha
      exact ⟨a, ha, (archive_from_signed_record _ _ _ hv' ha).1⟩
    · cases hp
  · cases hv

end Zip
end Recovery
