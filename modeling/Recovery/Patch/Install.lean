/-
# What GenerateTarget writes and renames

Writing the output file touches that file alone and follows the plan of the patch; renaming
it makes the target what was written (`produceFile_touches`, `installFile_sat`).
-/
import Recovery.Patch.Emit
import Recovery.Patch.Frame

namespace Recovery
namespace Patch

section

variable {cod : Codecs} {lib : Lib} {P : Ev → Prop} {a : Args} {source : FileContents} {patch : Value} {s : Sys}

/-- A `FileSink` may stop short if calls may fail. -/
def ShortWrite (P : Ev → Prop) (d : Bytes) (m : ℕ) : Prop := AnyShort d m ∧ ¬ Works P

theorem ShortWrite.any (d : Bytes) (m : ℕ) (h : ShortWrite P d m) : AnyShort d m := h.1

/-- The plan of a patch for loaded contents. -/
def planFor (cod : Codecs) (a : Args) (source : FileContents) (patch : Value) : List Output × Option Stop :=
  planOf cod (source.data.getD []) patch a.bonusData

def MayFail (cod : Codecs) (P : Ev → Prop) (a : Args) (source : FileContents) (patch : Value) : Prop :=
  patch.isBlob = false ∨ (planFor cod a source patch).2 ≠ none ∨ ¬ Works P

theorem fileSinkFn_sat {p : Path} {err : Failure → Sys → Prop} : SinkSat P (fileSinkFn p) (ShortWrite P)
    (fun _ s' b => Changes (· = p) s s' ∧ HasBytes s' p b) err fun s' => ∃ s₁, Changes (· = p) s s₁ ∧ Lost P s₁ s' := by
  rintro t s' b d ⟨hc, hb⟩
  refine Crash.Sat.step (Crash.Sat.mono ((fileSink_touches d hb).after hc) (fun _ _ h => h) (fun _ _ h => h.2.elim) fun _ h => h)
    fun r s'' ⟨hc', hr, hb', hw⟩ => Crash.Sat.pure ?_
  rcases hr.eq_or_lt with rfl | hlt
  · exact .inl ⟨rfl, hc', by simpa using hb'⟩
  · exact .inr ⟨Nat.cast_lt.mpr hlt, r, ⟨hlt, fun h => absurd (hw h) hlt.ne⟩, hc', hb'⟩

/-- **Writing the output file**: the file has what the sink took, and the hash what was hashed. -/
theorem produceFile_touches : Touches (· = outname a) P (produceFile cod a source patch) s
    (fun r s' => ∃ w, HasSynced s' (outname a) w ∧ patch.isBlob = true ∧
      ((r.1 = 0 ∧ (planFor cod a source patch).2 = none ∧
          Emits (ShortWrite P) (planFor cod a source patch).1 true r.2 w) ∨
        (r.1 ≠ 0 ∧ MayFail cod P a source patch)))
    fun _ _ => MayFail cod P a source patch := by
  refine Touches.guard .inl fun hblob => ?_
  rw [Bool.not_eq_false] at hblob
  refine openTrunc_touches.step fun opened s₂ _ ho => ?_
  cases opened with
  | false => exact Touches.fail (.inr (.inr fun hw => absurd (ho.2 hw) (by simp)))
  | true =>
    have happly : Touches (· = outname a) P (applyAny cod (fileSinkFn (outname a)) a (source.data.getD []) patch ()) s₂
        (fun r s' => ∃ w, HasBytes s' (outname a) w ∧ patch.isBlob = true ∧
          ((r.1 = 0 ∧ (planFor cod a source patch).2 = none ∧
              Emits (ShortWrite P) (planFor cod a source patch).1 true r.2.ctx w) ∨
            (r.1 ≠ 0 ∧ MayFail cod P a source patch)))
        fun _ _ => MayFail cod P a source patch := by
      refine Crash.Sat.imp (applyAny_sat (fileSinkFn_sat (s := s₂)) (fun hstop _ _ _ _ h => ⟨h.1, .inr (.inl hstop)⟩)
        ⟨.refl _ s₂, ho.1 rfl⟩) ?_
      rintro ⟨result, o⟩ s' ⟨h, w, ⟨hc, hw⟩, hcase⟩
      refine ⟨hc, w, by simpa using hw, hblob, ?_⟩
      rcases hcase with ⟨hr, hstop, he, hctx⟩ | ⟨hr, hstop | he⟩
      · exact .inl ⟨hr, not_not.mp hstop, by rwa [show o.ctx = h from hctx]⟩
      · exact .inr ⟨hr, .inr (.inl hstop)⟩
      · refine .inr ⟨hr, .inr (.inr fun hworks => ?_)⟩
        have hnever : ShortWrite P = fun _ _ => False := by
          funext d m
          exact eq_false fun h => h.2 hworks
        rw [hnever] at he
        exact absurd he.of_full.1 (by simp)
    refine Touches.guard (by simp) fun _ => ?_
    refine happly.bind fun r s' _ ⟨w, hw, hcase⟩ => ?_
    obtain ⟨result, o⟩ := r
    exact (fsync_touches hw).step fun _ s'' _ hs => Touches.pure ⟨w, hs, hcase⟩

/-- **Saving the source** touches only the cache. If no call fails it works, or the cache is full. -/
theorem backUp_touches (hsize : source.Sized) : Touches (fun q => Expendable q ∨ q = cacheTempSource) P (backUp source) s
    (fun _ s' => HasSynced s' cacheTempSource (source.data.getD []))
    fun e _ => Works P → source.data ≠ none → e = .cacheSpace ∧ ∃ ev, P ev ∧ ev.reported < (u32 source.size).toNat := by
  unfold backUp
  refine Touches.step ((makeFreeSpaceOnCache_touches _).mono (fun _ h => .inl h) (fun _ _ _ h => h) fun _ _ _ h => h)
    fun room s₁ _ hroom => ?_
  refine Touches.guard (fun h _ _ => ⟨rfl, hroom h⟩) fun _ => ?_
  refine Touches.step ((saveFileContents_touches hsize).mono (fun _ h => .inr h) (fun _ _ _ h => h) fun _ _ _ h => h)
    fun saved s₂ _ hsaved => ?_
  refine Touches.failIf (fun hno hw hd => ?_) fun hyes => hsaved.1 (by simpa using hyes)
  exact absurd (hsaved.2 hw hd) (by simp [hno])

/-- The target has been replaced by the output file. -/
def Installed (a : Args) (s : Sys) (w : Bytes) (s' : Sys) : Prop :=
  Changes (fun q => q = outname a ∨ q = a.targetFilename ∨ q = cacheTempSource) s s' ∧ HasSynced s' a.targetFilename w

theorem rename_sat {p q : Path} {w : Bytes} (h : HasSynced s p w) :
    Crash.Sat P (rename p q) s
      (fun r s' => (r = true ∧ Changes (fun x => x = p ∨ x = q) s s' ∧ HasSynced s' q w) ∨ (r = false ∧ s' = s ∧ ¬ Works P))
      (fun _ _ => False) (Lost P s) := by
  obtain ⟨f, hf, hd, hr, hs⟩ := h
  unfold rename onFile
  refine sat_call (fun _ h => h) fun e he => ?_
  simp only [hf]
  split_ifs with hfails
  · exact .inr ⟨rfl, rfl, fun hw => by simp [(hw e he).1] at hfails⟩
  · exact .inl ⟨rfl, (changes_setFile (.inl rfl)).trans (changes_setFile (.inr rfl)), f, setFile_files _ _ _, hd, hr, hs⟩

/-- **The second half**: once the hash is right the target becomes the output file, at one moment. -/
theorem installFile_sat {targetSha1 hashed w : Bytes} {madeCopy : Bool} (hcopy : a.targetFilename ≠ cacheTempSource)
    (h : HasSynced s (outname a) w) :
    Crash.Sat P (installFile lib a targetSha1 source madeCopy hashed) s
      (fun r s' => r = hashed ∧ lib.sha1 hashed = targetSha1 ∧ Installed a s w s')
      (fun _ s' => Changes (· = outname a) s s' ∧ (lib.sha1 hashed ≠ targetSha1 ∨ ¬ Works P))
      fun s' => ∃ s₁, Lost P s₁ s' ∧
        (Changes (· = outname a) s s₁ ∨ (lib.sha1 hashed = targetSha1 ∧ Installed a s w s₁)) := by
  -- up to the rename only the output file changes
  have before {α : Type} {p : Run α} {s₁ : Sys} {ok : α → Sys → Prop} (hs : Changes (· = outname a) s s₁)
      (hp : Touches (· = outname a) P p s₁ ok fun _ _ => False) :
      Crash.Sat P p s₁ (fun r s₂ => Changes (· = outname a) s s₂ ∧ ok r s₂)
        (fun _ s' => Changes (· = outname a) s s' ∧ (lib.sha1 hashed ≠ targetSha1 ∨ ¬ Works P))
        fun s' => ∃ s₁, Lost P s₁ s' ∧
          (Changes (· = outname a) s s₁ ∨ (lib.sha1 hashed = targetSha1 ∧ Installed a s w s₁)) :=
    Crash.Sat.mono (hp.after hs) (fun _ _ h => h) (fun _ _ h => h.2.elim) fun _ ⟨s₁, h, hl⟩ => ⟨s₁, hl, .inl h⟩
  unfold installFile
  refine Crash.Sat.guard (fun hne => ⟨.refl _ _, .inl hne⟩) fun heq => ?_
  have hsha := not_not.mp heq
  refine Crash.Sat.step (before (.refl _ _) (chmod_touches source.mode h)) fun moded s₂ ⟨hc₂, h₂, hw₂⟩ => ?_
  cases moded with
  | false => exact Crash.Sat.fail ⟨hc₂, .inr fun hw => absurd (hw₂ hw) (by simp)⟩
  | true =>
    refine Crash.Sat.bind (Crash.Sat.pure ?_)
    refine Crash.Sat.step (before hc₂ (chown_touches source.uid source.gid h₂)) fun owned s₃ ⟨hc₃, h₃, hw₃⟩ => ?_
    cases owned with
    | false => exact Crash.Sat.fail ⟨hc₃, .inr fun hw => absurd (hw₃ hw) (by simp)⟩
    | true =>
      refine Crash.Sat.bind (Crash.Sat.pure ?_)
      refine Crash.Sat.step (Crash.Sat.mono (rename_sat h₃) (fun _ _ h => h) (fun _ _ h => h.elim)
        fun s' hl => ⟨s₃, hl, .inl hc₃⟩) fun renamed s₄ h₄ => ?_
      rcases h₄ with ⟨rfl, hc₄, h₄⟩ | ⟨rfl, rfl, hw⟩
      · refine Crash.Sat.bind (Crash.Sat.pure ?_)
        have hinst : ∀ s', Changes (· = cacheTempSource) s₄ s' → Installed a s w s' := fun s' hc' =>
          ⟨(hc₃.mono fun _ h => .inl h).trans ((hc₄.mono fun _ h => h.imp_right .inl).trans
            (hc'.mono fun _ h => .inr (.inr h))), by simpa only [HasSynced, hc'.2 _ hcopy] using h₄⟩
        have hlast : Touches (· = cacheTempSource) P (if madeCopy = true then unlink cacheTempSource else pure true) s₄
            (fun _ _ => True) fun _ _ => False := by
          split_ifs
          · exact (unlink_touches (A := (· = cacheTempSource)) rfl).mono (fun _ h => h) (fun _ _ _ _ => trivial) fun _ _ _ h => h
          · exact Touches.pure trivial
        refine Crash.Sat.step (Crash.Sat.mono hlast (fun _ _ h => h) (fun _ _ h => h.2.elim)
          fun s' ⟨s₁, hc', hl⟩ => ⟨s₁, hl, .inr ⟨hsha, hinst s₁ hc'⟩⟩) fun _ s₅ h₅ => ?_
        exact Crash.Sat.pure ⟨rfl, hsha, hinst s₅ h₅.1⟩
      · exact Crash.Sat.fail ⟨hc₃, .inr hw⟩

/-- The target has what the sink took, and the hash of what was hashed is the one asked for. -/
def Generated (cod : Codecs) (lib : Lib) (P : Ev → Prop) (a : Args) (targetSha1 : Bytes) (source : FileContents)
    (patch : Value) (h : Bytes) (s' : Sys) : Prop :=
  ∃ w, HasBytes s' a.targetFilename w ∧ patch.isBlob = true ∧ (planFor cod a source patch).2 = none ∧
    Emits (ShortWrite P) (planFor cod a source patch).1 true h w ∧ lib.sha1 h = targetSha1

theorem Touches.ok {α : Type} {A : Path → Prop} {p : Run α} {ok : α → Sys → Prop} {err : Failure → Sys → Prop}
    (h : Touches A P p s ok err) : Crash.Sat P p s ok (fun _ _ => True) fun _ => True :=
  Crash.Sat.mono h (fun _ _ h => h.2) (fun _ _ _ => trivial) fun _ _ => trivial

theorem sat_any {α : Type} (p : Run α) : Crash.Sat P p s (fun _ _ => True) (fun _ _ => True) fun _ => True := by
  intro ev _ n
  cases p ev n s <;> trivial

theorem produce_install_ok {targetSha1 : Bytes} {madeCopy : Bool} (hcopy : a.targetFilename ≠ cacheTempSource)
    {result : ℤ} {hashed w : Bytes} (hw : HasSynced s (outname a) w) (hblob : patch.isBlob = true)
    (hcase : (result = 0 ∧ (planFor cod a source patch).2 = none ∧
      Emits (ShortWrite P) (planFor cod a source patch).1 true hashed w) ∨ (result ≠ 0 ∧ MayFail cod P a source patch))
    (hr : result = 0) : Crash.Sat P (installFile lib a targetSha1 source madeCopy hashed) s
      (Generated cod lib P a targetSha1 source patch) (fun _ _ => True) fun _ => True := by
  obtain ⟨-, hstop, he⟩ := hcase.resolve_right fun h => h.1 hr
  exact Crash.Sat.mono (installFile_sat hcopy hw) (fun r s' ⟨hh, hsha, hinst⟩ =>
    ⟨w, hinst.2.bytes, hblob, hstop, hh ▸ he, hh ▸ hsha⟩) (fun _ _ _ => trivial) fun _ _ => trivial

theorem lowSpace_ok {targetSha1 : Bytes} {fromSource : Bool} (hcopy : a.targetFilename ≠ cacheTempSource) :
    Crash.Sat P (lowSpace cod lib a targetSha1 fromSource source patch) s
      (Generated cod lib P a targetSha1 source patch) (fun _ _ => True) fun _ => True := by
  refine Crash.Sat.step (sat_any _) fun _ s₁ _ => ?_
  refine Crash.Sat.step produceFile_touches.ok fun r s₂ ⟨w, hw, hblob, hcase⟩ => ?_
  obtain ⟨result, hashed⟩ := r
  exact Crash.Sat.guard (fun _ => trivial) fun h => produce_install_ok hcopy hw hblob hcase (not_not.mp h)

/-- **Whenever `GenerateTarget` returns 0 for a file**, the target has what the sink took. -/
theorem generateFile_ok {targetSha1 : Bytes} {fromSource : Bool} (hcopy : a.targetFilename ≠ cacheTempSource) :
    Crash.Sat P (generateFile cod lib a targetSha1 fromSource source patch) s
      (Generated cod lib P a targetSha1 source patch) (fun _ _ => True) fun _ => True := by
  refine Crash.Sat.step (sat_any _) fun freeSpace s₁ _ => ?_
  split_ifs
  · refine Crash.Sat.step produceFile_touches.ok fun r s₂ ⟨w, hw, hblob, hcase⟩ => ?_
    obtain ⟨result, hashed⟩ := r
    simp only
    split_ifs with hr
    · exact produce_install_ok hcopy hw hblob hcase hr
    · exact Crash.Sat.step (sat_any _) fun _ s₃ _ => lowSpace_ok hcopy
  · exact lowSpace_ok hcopy

end

end Patch
end Recovery
