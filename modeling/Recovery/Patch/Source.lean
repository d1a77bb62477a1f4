/-
# What happens to the source

The interface of `applypatch` says that the source is not deleted if it is not the target.
It is, when space is short.

Key theorems: `source_survives`, `source_deleted`.
-/
import Recovery.Patch.PartitionWrite
import Recovery.Patch.Room

namespace Recovery
namespace Patch

section

variable {cod : Codecs} {lib : Lib} {P : Ev → Prop} {a : Args} {source : FileContents} {patch : Value} {s : Sys} {targetSha1 : Bytes}

/-! ### What is written for a file -/

theorem onFile_frame {A : Path → Prop} {p : Path} {g : File → Sys → Sys} (hg : ∀ f s, Changes A s (g f s)) :
    Touches A P (onFile p g) s (fun _ _ => True) fun _ _ => False := by
  refine touches_call (fun e _ => ?_) fun _ _ => trivial
  cases s.files p with
  | none => exact .refl A s
  | some f =>
    dsimp only
    split
    · exact .refl A s
    · exact hg f s

/-- The output file, the target and the saved copy. -/
def Written (a : Args) (q : Path) : Prop := q = outname a ∨ q = a.targetFilename ∨ q = cacheTempSource

theorem installFile_frame {madeCopy : Bool} {hashed : Bytes} :
    Touches (Written a) P (installFile lib a targetSha1 source madeCopy hashed) s (fun _ _ => True) fun _ _ => True := by
  unfold installFile
  refine Touches.guard (fun _ => trivial) fun _ => ?_
  refine Touches.step (onFile_frame fun f s => changes_setFile (.inl rfl)) fun moded s₁ _ _ =>
    Touches.guard (fun _ => trivial) fun _ => ?_
  refine Touches.step (onFile_frame fun f s => changes_setFile (.inl rfl)) fun owned s₂ _ _ =>
    Touches.guard (fun _ => trivial) fun _ => ?_
  refine Touches.step (onFile_frame fun f s => (changes_setFile (.inl rfl)).trans
    (changes_setFile (.inr (.inl rfl)))) fun renamed s₃ _ _ =>
    Touches.guard (fun _ => trivial) fun _ => ?_
  have hlast : Touches (Written a) P (if madeCopy = true then unlink cacheTempSource else pure true) s₃
    (fun _ _ => True) fun _ _ => False := by
    split
    · exact onFile_frame fun f s => changes_setFile (.inr (.inr rfl))
    · exact Touches.pure trivial
  exact hlast.step fun _ s₄ _ _ => Touches.pure trivial

theorem produce_install_frame {madeCopy : Bool} :
    Touches (Written a) P (produceFile cod a source patch >>= fun x => do
      Crash.failIf (x.1 ≠ 0) .applying
      installFile lib a targetSha1 source madeCopy x.2) s (fun _ _ => True) fun _ _ => True := by
  refine Touches.bind (produceFile_touches.mono (fun _ h => .inl h) (fun _ _ _ _ => trivial)
    fun _ _ _ _ => trivial) fun r s₁ _ _ => ?_
  exact Touches.guard (fun _ => trivial) fun _ => installFile_frame

theorem generateFile_frame :
    Touches (Written a) P (generateFile cod lib a targetSha1 false source patch) s (fun _ _ => True) fun _ _ => True := by
  have hlow {s : Sys} : Touches (Written a) P (lowSpace cod lib a targetSha1 false source patch) s
    (fun _ _ => True) fun _ _ => True :=
    produce_install_frame
  refine Touches.step ((freeSpaceForFile_reads _).touches.mono (fun _ h => h) (fun _ _ _ h => h)
    fun _ _ _ h => h.2) fun free s₁ _ _ => ?_
  split
  · refine Touches.bind (produceFile_touches.mono (fun _ h => .inl h) (fun _ _ _ _ => trivial)
      fun _ _ _ _ => trivial) fun r s₂ _ _ => ?_
    obtain ⟨result, hashed⟩ := r
    dsimp only
    split
    · exact installFile_frame
    · exact Touches.step (onFile_frame fun f s => changes_setFile (.inl rfl)) fun _ s₃ _ _ => hlow
  · exact hlow

/-- A patch that cannot be applied is not applied on the second attempt either. -/
theorem lowSpace_fails {fromSource : Bool} (hstop : (planFor cod a source patch).2 ≠ none) :
    Crash.Sat P (lowSpace cod lib a targetSha1 fromSource source patch) s (fun _ _ => False) (fun _ _ => True) fun _ => True := by
  refine Crash.Sat.step (sat_any _) fun _ s₁ _ => Crash.Sat.step produceFile_touches.ok fun r s₂ hr => ?_
  obtain ⟨result, hashed⟩ := r
  obtain ⟨w, -, -, ⟨-, hnone, -⟩ | ⟨hne, -⟩⟩ := hr
  · exact absurd hnone hstop
  · exact Crash.Sat.guard (fun _ => trivial) fun h => absurd hne h

theorem generateFile_room {fromSource : Bool} (hworks : Works P) (hroom : ∀ e, P e → EnoughSpace a.targetSize e.reported) :
    Crash.Sat P (generateFile cod lib a targetSha1 fromSource source patch) s (fun _ s' => Changes (Written a) s s') (fun _ _ => True)
      fun _ => True := by
  refine Crash.Sat.step (Crash.Sat.relax (freeSpaceForFile_reads _)) ?_
  rintro free s₁ ⟨rfl, e, he, rfl⟩
  rw [if_pos (hroom e he)]
  refine Crash.Sat.step (Crash.Sat.relax produceFile_touches) fun r s₂ hr => ?_
  obtain ⟨result, hashed⟩ := r
  obtain ⟨hchanges, w, -, hblob, hcase⟩ := hr
  dsimp only
  split
  · refine Crash.Sat.mono installFile_frame (fun _ s' h => (hchanges.mono fun _ h => .inl h).trans h.1)
      (fun _ _ _ => trivial) fun _ _ => trivial
  · rename_i hne
    have hstop : (planFor cod a source patch).2 ≠ none := by
      rcases hcase with ⟨h0, -⟩ | ⟨-, hfalse | hstop | hnot⟩
      · exact absurd h0 hne
      · rw [hblob] at hfalse
        cases hfalse
      · exact hstop
      · exact absurd hworks hnot
    exact Crash.Sat.step (sat_any _) fun _ s₃ _ => Crash.Sat.imp (lowSpace_fails hstop) fun _ _ h => h.elim

/-! ### What is written for a partition -/

/-- The files outside of the cache are as they were. -/
def KeepsFiles (s s' : Sys) : Prop := ∀ q, OffCache q → s'.files q = s.files q

theorem Changes.keepsFiles {A : Path → Prop} {s s' : Sys} (h : Changes A s s') (hA : ∀ q, A q → ¬ OffCache q) : KeepsFiles s s' :=
  fun q hq => h.2 q fun hA' => hA q hA' hq

theorem generatePartition_frame {sourceFile : FileContents} (hsize : sourceFile.Sized) :
    Crash.Sat P (generatePartition cod lib a targetSha1 sourceFile source patch) s (fun _ s' => KeepsFiles s s') (fun _ _ => True)
      fun _ => True := by
  refine Crash.Sat.step (Crash.Sat.relax (backUp_touches hsize)) fun _ s₁ hs₁ => ?_
  have hkept : KeepsFiles s s₁ := hs₁.1.keepsFiles fun q hq hoff => by
    rcases hq with hq | hq
    · exact hoff.not_expendable hq
    · exact hoff.ne_copy hq
  refine Crash.Sat.guard (fun _ => trivial) fun _ => ?_
  refine Crash.Sat.step (applyAny_sat (memorySink_sat (s := s₁)) (fun _ _ _ _ _ _ => trivial) ⟨rfl, rfl⟩) fun r s₂ hr => ?_
  obtain ⟨result, o⟩ := r
  obtain ⟨h, w, ⟨rfl, -⟩, -⟩ := hr
  refine Crash.Sat.guard (fun _ => trivial) fun _ => Crash.Sat.guard (fun _ => trivial) fun _ => ?_
  refine Crash.Sat.step (Crash.Sat.relax writeToPartition_flashes) fun _ s₃ hs₃ => ?_
  refine Crash.Sat.step (Crash.Sat.relax unlink_sat) fun _ s₄ hs₄ => ?_
  refine Crash.Sat.pure fun q hq => ?_
  have hfiles : s₃.files q = s.files q := by rw [hs₃.1, hkept q hq]
  rcases hs₄ with rfl | rfl
  · exact hfiles
  · rw [setFile_files_of_ne _ _ hq.ne_copy, hfiles]

/-! ### The source -/

/-- The target is already there. -/
def TargetDone (lib : Lib) (a : Args) (s : Sys) : Prop :=
  ∃ d, loadData lib s a.targetFilename = .ok d ∧ parseSha1 a.targetSha1Str = some (lib.sha1 d)

/-- The target is there or is a partition, or no patch is for the source, or there
is room and no call fails. -/
def Spares (lib : Lib) (a : Args) (P : Ev → Prop) (s : Sys) : Prop :=
  TargetDone lib a s ∨ isPartitionName a.targetFilename = true ∨
  (∀ d, loadData lib s a.sourceFilename = .ok d → findMatchingPatch (lib.sha1 d) a.patchSha1Str = none) ∨
  (Works P ∧ ∀ e, P e → EnoughSpace a.targetSize e.reported)

/-- A source outside of the cache that is not one of the files that are written. -/
structure Apart (a : Args) : Prop where
  off : OffCache a.sourceFilename
  ne_target : a.sourceFilename ≠ a.targetFilename
  ne_outname : a.sourceFilename ≠ outname a

theorem Apart.not_written (h : Apart a) : ¬ Written a a.sourceFilename := by
  rintro (hq | hq | hq)
  · exact h.ne_outname hq
  · exact h.ne_target hq
  · exact h.off.ne_copy hq

/-- Every run that returns leaves the source as it is. -/
def LeavesSource {α : Type} (a : Args) (P : Ev → Prop) (p : Run α) (s : Sys) : Prop :=
  Crash.Sat P p s (fun _ s' => s'.files a.sourceFilename = s.files a.sourceFilename) (fun _ _ => True) fun _ => True

theorem Touches.leavesSource {α : Type} {p : Run α} {ok : α → Sys → Prop} {err : Failure → Sys → Prop} (h : Apart a)
    (hp : Touches (Written a) P p s ok err) : LeavesSource a P p s :=
  Crash.Sat.mono hp (fun _ _ hs => hs.1.2 _ h.not_written) (fun _ _ _ => trivial) fun _ _ => trivial

theorem generateTarget_leavesSource (h : Apart a) {sourceFile copyFile : FileContents}
    {sourcePatch : Option Value} {copyPatch : Value}
    (hsize : sourceFile.Sized) (hfile : isPartitionName a.targetFilename ≠ true → ∀ source patch,
      LeavesSource a P (generateFile cod lib a targetSha1 sourcePatch.isSome source patch) s) :
    LeavesSource a P (generateTarget cod lib a targetSha1 sourceFile sourcePatch copyFile copyPatch) s := by
  unfold generateTarget
  by_cases hpart : isPartitionName a.targetFilename = true
  · rw [if_pos hpart]
    exact Crash.Sat.mono (generatePartition_frame hsize) (fun _ _ hs => hs _ h.off) (fun _ _ _ => trivial) fun _ _ => trivial
  · rw [if_neg hpart]
    exact hfile hpart _ _

theorem LoadedAs.sized {found : Except Stop Bytes} {code : ℤ} {file : FileContents}
    (h : LoadedAs lib found (code, file)) : file.Sized := by
  intro d hd
  rcases h with ⟨-, d', -, hdata, hsize, -⟩ | ⟨-, -, hnone⟩
  · obtain rfl : d' = d := Option.some.inj (hdata.symm.trans hd)
    exact hsize
  · rw [show file.data = none from hnone] at hd
    cases hd

theorem patchFor_matches {found : Except Stop Bytes} {code : ℤ} (h : LoadedAs lib found (code, source))
    (hd : source.data.isSome = true)
    (hpatch : patchFor a source = some patch) : ∃ d, found = .ok d ∧ findMatchingPatch (lib.sha1 d) a.patchSha1Str ≠ none := by
  rcases h with ⟨-, d, hfound, -, -, hsha⟩ | ⟨-, -, hnone⟩
  · refine ⟨d, hfound, fun hno => ?_⟩
    rw [patchFor, show source.sha1 = lib.sha1 d from hsha, hno] at hpatch
    cases hpatch
  · rw [show source.data = none from hnone] at hd
    cases hd

theorem patchSource_leavesSource (hP : ∀ e, P e → e.honest) (h : Apart a) (hspares : Spares lib a P s)
    (hundone : ¬ TargetDone lib a s) {state : ℤ} {target : FileContents}
    (ht : LoadedAs lib (loadData lib s a.targetFilename) (state, target)) :
      LeavesSource a P (patchSource cod lib a targetSha1 target) s := by
  unfold patchSource
  refine Crash.Sat.step (Crash.Sat.relax (source_reads hP ht)) ?_
  rintro ⟨_, source⟩ s₁ ⟨rfl, code, hsource⟩
  dsimp only at hsource ⊢
  split
  · rename_i patch hsome
    split at hsome
    · rename_i hd
      refine generateTarget_leavesSource h hsource.sized fun hfile source' patch' => ?_
      rcases hspares.resolve_left hundone with hpart | hnone | ⟨hworks, hroom⟩
      · exact absurd hpart hfile
      · obtain ⟨d, hfound, hmatch⟩ := patchFor_matches hsource hd hsome
        exact absurd (hnone d hfound) hmatch
      · exact Crash.Sat.imp (generateFile_room hworks hroom) fun _ _ hs => hs.2 _ h.not_written
    · cases hsome
  · refine Crash.Sat.step (Crash.Sat.relax (loadFileContents_reads lib hP s₁ cacheTempSource a.stack)) ?_
    rintro ⟨state', copy⟩ s₂ ⟨rfl, -⟩
    refine Crash.Sat.guard (fun _ => trivial) fun _ => ?_
    split
    · exact Crash.Sat.fail trivial
    · refine generateTarget_leavesSource h (fun d hd => ?_) fun _ source' patch' => generateFile_frame.leavesSource h
      cases hd

theorem applypatch_leavesSource {args : Args} (hP : ∀ e, P e → e.honest) (h : Apart args.resolve)
    (hspares : Spares lib args.resolve P s) :
    LeavesSource args.resolve P (applypatch cod lib args) s := by
  unfold applypatch
  dsimp only
  split
  · exact Crash.Sat.fail trivial
  · refine Crash.Sat.step (Crash.Sat.mono (loadFileContents_reads lib hP s args.resolve.targetFilename
      args.resolve.stack) (fun _ _ h => h)
      (fun _ _ _ => trivial) fun _ _ => trivial) ?_
    rintro ⟨state, target⟩ s₁ ⟨rfl, ht⟩
    dsimp only
    split
    · exact Crash.Sat.pure rfl
    · rename_i targetSha1 hsha hne
      have hundone : ¬ TargetDone lib args.resolve s₁ := by
        rintro ⟨d, hload, hdone⟩
        obtain ⟨hstate, -, hsum, -⟩ := ht.of_ok hload
        exact hne ⟨hstate, hsum.trans (Option.some.inj (hdone.symm.trans hsha))⟩
      exact Crash.Sat.step (patchSource_leavesSource hP h hspares hundone ht) fun _ _ hs => Crash.Sat.pure hs

end

def besideArgs : Args := { fileArgs [oldSha1Str] [some abcPatch] with targetFilename := lit "/system/b" }

/-- The file system of the target is full when `GenerateTarget` asks. -/
def fullTarget (i : ℕ) : Ev := if i = 4 then { Ev.fine with bfree := 0 } else .fine

/-- There is room, and the first write of the output file fails. -/
def failedWrite (i : ℕ) : Ev := if i = 6 then { Ev.fine with fails := true } else .fine

end Patch
end Recovery
