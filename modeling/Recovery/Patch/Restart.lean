/-
# Runs of applypatch that are cut off: file targets

However often applypatch is stopped: the target is done, the source is untouched, or the
saved copy is complete.

Key definitions: `FileJob`, `Going`, `Safe`.
Key theorems: `FileJob.restartable`, `restart_fails`.
-/
import Recovery.Patch.Installed

namespace Recovery
namespace Patch

/-! ### What a crash leaves alone -/

/-- The file is there, is synced and loads as `d`. -/
def LoadsAs (s : Sys) (p : Path) (d : Bytes) : Prop :=
  ∃ f, s.files p = some f ∧ f.readable = true ∧ f.synced = true ∧ maskData f.data = .ok (some d)

section

variable {P : Ev → Prop} {s s' : Sys} {p : Path} {d : Bytes}

theorem LoadsAs.fileData (h : LoadsAs s p d) : fileData s p = .ok d := by
  obtain ⟨f, hf, hr, -, hm⟩ := h
  simp [Patch.fileData, hf, hr, hm]

theorem loadsAs_of_fileData (h : Patch.fileData s p = .ok d) (hs : ∀ f, s.files p = some f → f.synced = true) : LoadsAs s p d := by
  unfold Patch.fileData at h
  cases hf : s.files p with
  | none => simp [hf] at h
  | some f =>
    obtain ⟨masked, hmask, -⟩ := maskData_ok f.data
    simp only [hf, hmask, ok_bind] at h
    split_ifs at h with hr
    cases masked with
    | none => cases h
    | some d' => exact ⟨f, hf, by simpa using hr, hs f hf, by rw [hmask, Except.ok.inj h]⟩

theorem HasSynced.loadsAs (h : HasSynced s p d) (hmask : maskData d = .ok (some d)) : LoadsAs s p d := by
  obtain ⟨f, hf, rfl, hr, hs⟩ := h
  exact ⟨f, hf, hr, hs, hmask⟩

theorem Lost.file {f : File} (h : Lost P s s') (hf : s.files p = some f) (hs : f.synced = true) : s'.files p = some f := by
  obtain ⟨e, -, -, rfl⟩ := h
  simp [machine, hf, File.lose, hs]

theorem Lost.none (h : Lost P s s') (hf : s.files p = none) : s'.files p = none := by
  obtain ⟨e, -, -, rfl⟩ := h
  simp [machine, hf]

theorem LoadsAs.lost (h : LoadsAs s p d) (hl : Lost P s s') : LoadsAs s' p d := by
  obtain ⟨f, hf, hr, hs, hm⟩ := h
  exact ⟨f, hl.file hf hs, hr, hs, hm⟩

theorem LoadsAs.congr (h : LoadsAs s p d) (hp : s'.files p = s.files p) : LoadsAs s' p d := by
  unfold LoadsAs at h ⊢
  rwa [hp]

theorem unlink_sat : Crash.Sat P (unlink p) s (fun _ s' => s' = s ∨ s' = s.setFile p none) (fun _ _ => False) (Lost P s) := by
  unfold unlink onFile
  refine sat_call (fun _ h => h) fun e _ => ?_
  cases s.files p with
  | none => exact .inl rfl
  | some f =>
    simp only
    split_ifs
    · exact .inl rfl
    · exact .inr rfl

theorem fileData_not_dies {e : Failure} : ¬ DiesOf (fileData s p) e := by
  rintro ⟨stop, -, hstop, hdies⟩
  unfold Patch.fileData at hstop
  cases hf : s.files p with
  | none =>
    simp only [hf] at hstop
    cases hstop
    cases hdies
  | some f =>
    obtain ⟨masked, hmask, -⟩ := maskData_ok f.data
    simp only [hf, hmask, ok_bind] at hstop
    split_ifs at hstop
    · cases hstop
      cases hdies
    · cases masked with
      | none =>
        cases hstop
        cases hdies
      | some d => cases hstop

end

/-! ### The job -/

def OffCache (p : Path) : Prop := (lit "/cache/").isPrefixOf p = false

theorem OffCache.ne_copy {p : Path} (h : OffCache p) : p ≠ cacheTempSource := by
  rintro rfl
  exact absurd h (by unfold OffCache; decide +kernel)

theorem OffCache.not_expendable {p : Path} (h : OffCache p) : ¬ Expendable p := fun he => by
  simp [Expendable, show (lit "/cache/").isPrefixOf p = false from h] at he

/-- The entry for `S` is `patch`, which makes `T` of it. Both are their own masked contents,
and nothing else hashed on the way has the hash of `T`. -/
structure FileJob (cod : Codecs) (lib : Lib) (a : Args) (S T : Bytes) (patch : Value) : Prop where
  target : parseSha1 a.targetSha1Str = some (lib.sha1 T)
  source_file : isPartitionName a.sourceFilename = false
  target_file : isPartitionName a.targetFilename = false
  source_off : OffCache a.sourceFilename
  target_off : OffCache a.targetFilename
  source_ne : a.sourceFilename ≠ outname a
  entry : ∃ i, findMatchingPatch (lib.sha1 S) a.patchSha1Str = some i ∧ a.patchData[i]? = some (some patch)
  blob : patch.isBlob = true
  stops : (planOf cod S patch a.bonusData).2 = none
  makes : flat (planOf cod S patch a.bonusData).1 = T
  source_masked : maskData S = .ok (some S)
  target_masked : maskData T = .ok (some T)
  no_collision : ∀ h w, Emits AnyShort (planOf cod S patch a.bonusData).1 true h w →
    lib.sha1 h = lib.sha1 T → h = T

/-- The source can still be had: it is there, or saved and gone. -/
def Kept (a : Args) (S : Bytes) (s : Sys) : Prop :=
  LoadsAs s a.sourceFilename S ∨ (LoadsAs s cacheTempSource S ∧ s.files a.sourceFilename = none)

/-- The target is not mistaken for being done. -/
def NoClash (lib : Lib) (a : Args) (T : Bytes) (s : Sys) : Prop :=
  (∀ f, s.files a.targetFilename = some f → f.synced = true) ∧
    ∀ X, fileData s a.targetFilename = .ok X → lib.sha1 X = lib.sha1 T → X = T

/-- The state in front of an attempt, which may be one that uses the source itself. -/
structure Ready (lib : Lib) (a : Args) (S T : Bytes) (fromSource : Bool) (s : Sys) : Prop where
  kept : Kept a S s
  no_clash : NoClash lib a T s
  source : fromSource = true → LoadsAs s a.sourceFilename S

/-- **The invariant**: the target is done, or the source can still be had. -/
def Going (lib : Lib) (a : Args) (S T : Bytes) (s : Sys) : Prop :=
  LoadsAs s a.targetFilename T ∨ (Kept a S s ∧ NoClash lib a T s)

section

variable {lib : Lib} {a : Args} {S T : Bytes} {P : Ev → Prop} {s s' : Sys}

theorem Kept.lost (h : Kept a S s) (hl : Lost P s s') : Kept a S s' :=
  h.imp (fun h => h.lost hl) fun h => ⟨h.1.lost hl, hl.none h.2⟩

theorem NoClash.congr (h : NoClash lib a T s) (hp : s'.files a.targetFilename = s.files a.targetFilename) :
    NoClash lib a T s' := by
  unfold NoClash fileData at h ⊢
  rwa [hp]

theorem NoClash.lost (h : NoClash lib a T s) (hl : Lost P s s') : NoClash lib a T s' := by
  refine h.congr ?_
  cases hs : s.files a.targetFilename with
  | none => exact hl.none hs
  | some g => exact hl.file hs (h.1 g hs)

theorem Going.lost (h : Going lib a S T s) (hl : Lost P s s') : Going lib a S T s' :=
  h.imp (fun h => h.lost hl) fun h => ⟨h.1.lost hl, h.2.lost hl⟩

theorem Ready.lost {fromSource : Bool} (h : Ready lib a S T fromSource s) (hl : Lost P s s') : Ready lib a S T fromSource s' :=
  ⟨h.kept.lost hl, h.no_clash.lost hl, fun hs => (h.source hs).lost hl⟩

theorem Ready.going {fromSource : Bool} (h : Ready lib a S T fromSource s) : Going lib a S T s := .inr ⟨h.kept, h.no_clash⟩

theorem Kept.congr (h : Kept a S s) (hsrc : s'.files a.sourceFilename = s.files a.sourceFilename)
    (hcopy : s'.files cacheTempSource = s.files cacheTempSource) : Kept a S s' :=
  h.imp (fun h => h.congr hsrc) fun h => ⟨h.1.congr hcopy, hsrc.trans h.2⟩

end

/-! ### One run -/

theorem outname_ne_target (a : Args) : outname a ≠ a.targetFilename := by
  intro h
  have := congrArg List.length h
  simp [outname, lit] at this

theorem outname_ne_copy (a : Args) : outname a ≠ cacheTempSource := by
  intro h
  have hsuffix : lit ".patch" <:+ cacheTempSource := h ▸ List.suffix_append _ _
  exact absurd hsuffix (by decide +kernel)

section

variable {cod : Codecs} {lib : Lib} {a : Args} {S T : Bytes} {patch : Value} {P : Ev → Prop} {s s' : Sys} {source : FileContents}

theorem FileJob.ready_changes (job : FileJob cod lib a S T patch) {fromSource : Bool} (h : Ready lib a S T fromSource s)
    (hc : Changes (· = outname a) s s') : Ready lib a S T fromSource s' :=
  ⟨h.kept.congr (hc.2 _ job.source_ne) (hc.2 _ (outname_ne_copy a).symm), h.no_clash.congr (hc.2 _ (outname_ne_target a).symm),
    fun hs => (h.source hs).congr (hc.2 _ job.source_ne)⟩

theorem planFor_eq (hd : source.data = some S) : planFor cod a source patch = planOf cod S patch a.bonusData := by
  simp [planFor, hd]

/-- A stream with the right hash is the target, and then all of it was written. -/
theorem FileJob.written (job : FileJob cod lib a S T patch) {h w : Bytes}
    (he : Emits (ShortWrite P) (planOf cod S patch a.bonusData).1 true h w) (hsha : lib.sha1 h = lib.sha1 T) : w = T := by
  have hT := job.no_collision h w (he.mono ShortWrite.any) hsha
  have hlen := (he.of_length (fun d m hm hd => by simp [hd, ShortWrite, AnyShort] at hm) rfl).2 (by rw [hT, job.makes])
  exact hlen.2.trans job.makes

theorem FileJob.hashed (job : FileJob cod lib a S T patch) {h w : Bytes}
    (he : Emits (ShortWrite P) (planOf cod S patch a.bonusData).1 true h w) (hw : Works P) : h = T := by
  have hnever : ShortWrite P = fun _ _ => False := by
    funext d m
    exact eq_false fun h => h.2 hw
  rw [hnever] at he
  exact he.of_full.2.1.trans job.makes

theorem FileJob.not_mayFail (job : FileJob cod lib a S T patch) (hd : source.data = some S) (hw : Works P) :
    ¬ MayFail cod P a source patch := by
  rintro (h | h | h)
  · simp [job.blob] at h
  · exact h (by rw [planFor_eq hd, job.stops])
  · exact h hw

/-- The target is done, or a call failed and nothing is lost, or the run was cut off. -/
def RunsOn {α : Type} (lib : Lib) (a : Args) (S T : Bytes) (P : Ev → Prop) (p : Run α) (s : Sys) : Prop :=
  Crash.Sat P p s (fun _ s' => LoadsAs s' a.targetFilename T)
    (fun e s' => Going lib a S T s' ∧ (Works P → e = .cacheSpace ∧ ∃ ev, P ev ∧ ev.reported < S.length))
      fun s' => Going lib a S T s' ∧ Halts P

theorem FileJob.install (job : FileJob cod lib a S T patch) {fromSource madeCopy : Bool} {hashed w : Bytes}
    (h : Ready lib a S T fromSource s) (hw : HasSynced s (outname a) w)
    (he : Emits (ShortWrite P) (planOf cod S patch a.bonusData).1 true hashed w) :
    RunsOn lib a S T P (installFile lib a (lib.sha1 T) source madeCopy hashed) s := by
  have hdone : ∀ s', lib.sha1 hashed = lib.sha1 T → Installed a s w s' → LoadsAs s' a.targetFilename T := by
    rintro s' hsha ⟨-, hs⟩
    rw [job.written he hsha] at hs
    exact hs.loadsAs job.target_masked
  refine Crash.Sat.mono (installFile_sat job.target_off.ne_copy hw) ?_ ?_ ?_
  · rintro r s' ⟨-, hsha, hinst⟩
    exact hdone s' hsha hinst
  · rintro e s' ⟨hc, hfail⟩
    refine ⟨(job.ready_changes h hc).going, fun hworks => ?_⟩
    rcases hfail with hne | hno
    · exact absurd (by rw [job.hashed he hworks]) hne
    · exact absurd hworks hno
  · rintro s' ⟨s₁, hl, hc | ⟨hsha, hinst⟩⟩
    · exact ⟨((job.ready_changes h hc).lost hl).going, hl.halts⟩
    · exact ⟨.inl ((hdone s₁ hsha hinst).lost hl), hl.halts⟩

theorem FileJob.produce (job : FileJob cod lib a S T patch) {fromSource : Bool} (hd : source.data = some S)
    (h : Ready lib a S T fromSource s) {β : Type} {f : ℤ × Bytes → Run β}
    (hzero : ∀ hashed w s', Ready lib a S T fromSource s' → HasSynced s' (outname a) w →
      Emits (ShortWrite P) (planOf cod S patch a.bonusData).1 true hashed w → RunsOn lib a S T P (f (0, hashed)) s')
    (hfail : ∀ result hashed s', result ≠ 0 → Ready lib a S T fromSource s' → ¬ Works P →
      RunsOn lib a S T P (f (result, hashed)) s') :
    RunsOn lib a S T P (produceFile cod a source patch >>= f) s := by
  refine Crash.Sat.step (Crash.Sat.mono (produceFile_touches.keeps (fun s' => job.ready_changes h) fun s' s'' hK hl => hK.lost hl)
    (fun _ _ h => h) ?_ fun s' hK => ⟨hK.1.going, hK.2⟩) ?_
  · rintro e s' ⟨hK, -, hmay⟩
    exact ⟨hK.going, fun hw => absurd hmay (job.not_mayFail hd hw)⟩
  · rintro ⟨result, hashed⟩ s' ⟨hK, -, w, hw, -, hcase⟩
    rcases hcase with ⟨hr, -, he⟩ | ⟨hr, hmay⟩
    · rw [planFor_eq hd] at he
      obtain rfl : result = 0 := hr
      exact hzero hashed w s' hK hw he
    · exact hfail result hashed s' hr hK fun hw => job.not_mayFail hd hw hmay

/-- **Moving the source to the cache**: at no time is it in neither place. -/
theorem FileJob.move (job : FileJob cod lib a S T patch) (hd : source.data = some S) (hsize : source.Sized)
    (h : Ready lib a S T true s) {β : Type} {f : Unit → Run β}
    (hf : ∀ s', Ready lib a S T false s' → RunsOn lib a S T P (f ()) s') :
    RunsOn lib a S T P (moveSource a source >>= f) s := by
  -- the part that touches only the cache
  have hK : ∀ s', Changes (fun q => Expendable q ∨ q = cacheTempSource) s s' → Ready lib a S T true s' := fun s' hc =>
    have hsrc := (h.source rfl).congr (hc.2 _ (not_or.mpr ⟨job.source_off.not_expendable, job.source_off.ne_copy⟩))
    ⟨.inl hsrc, h.no_clash.congr (hc.2 _ (not_or.mpr ⟨job.target_off.not_expendable, job.target_off.ne_copy⟩)), fun _ => hsrc⟩
  have hback := (backUp_touches (P := P) (s := s) hsize).keeps hK fun s' s'' h hl => h.lost hl
  refine Crash.Sat.bind ?_
  unfold moveSource
  rw [job.source_file]
  refine Crash.Sat.bind (Crash.Sat.pure ?_)
  refine Crash.Sat.step (Crash.Sat.mono hback (fun _ _ h => h)
    (fun e s' ⟨h, _, he⟩ => ⟨h.going, fun hw => ?_⟩) fun s' h => ⟨h.1.going, h.2⟩) ?_
  · -- no more is needed than the source has bytes
    obtain ⟨hspace, ev, hev, hless⟩ := he hw (by simp [hd])
    rw [hsize S hd, u32, Int.toNat_emod (by omega) (by norm_num)] at hless
    exact ⟨hspace, ev, hev, hless.trans_le (Nat.mod_le _ _)⟩
  rintro _ s₁ ⟨h₁, -, hcopy⟩
  have hcopy₁ : LoadsAs s₁ cacheTempSource S := HasSynced.loadsAs (by simpa [hd] using hcopy) job.source_masked
  refine Crash.Sat.step (Crash.Sat.mono unlink_sat (fun _ _ h => h) (fun _ _ h => h.elim)
    fun s' hl => ⟨(h₁.lost hl).going, hl.halts⟩) fun _ s₂ h₂ => ?_
  have hready : Ready lib a S T false s₂ := by
    rcases h₂ with rfl | rfl
    · exact ⟨h₁.kept, h₁.no_clash, by simp⟩
    · refine ⟨.inr ⟨hcopy₁.congr (setFile_files_of_ne _ _ job.source_off.ne_copy.symm), setFile_files _ _ _⟩, ?_, by simp⟩
      by_cases hne : a.targetFilename = a.sourceFilename
      · exact ⟨by simp [hne], by simp [hne, fileData]⟩
      · exact h₁.no_clash.congr (setFile_files_of_ne _ _ hne)
  refine Crash.Sat.step (Crash.Sat.mono (freeSpaceForFile_reads _) (fun _ _ h => h) (fun _ _ h => h.2.elim)
    fun s' hl => ⟨(hready.lost hl).going, hl.halts⟩) fun _ s₃ ⟨h₃, _⟩ => Crash.Sat.pure ?_
  exact hf s₃ (h₃ ▸ hready)

theorem FileJob.low (job : FileJob cod lib a S T patch) {fromSource : Bool} (hd : source.data = some S) (hsize : source.Sized)
    (h : Ready lib a S T fromSource s) :
    RunsOn lib a S T P (lowSpace cod lib a (lib.sha1 T) fromSource source patch) s := by
  have hrest : ∀ s', Ready lib a S T false s' → RunsOn lib a S T P (produceFile cod a source patch >>= fun x => do
      Crash.failIf (x.1 ≠ 0) .applying
      installFile lib a (lib.sha1 T) source fromSource x.2) s' := fun s' h' =>
    job.produce hd h' (fun hashed w s'' hK hw he => Crash.Sat.bind (Crash.Sat.pure (job.install hK hw he)))
      fun result hashed s'' hr hK hw => Crash.Sat.guard (fun _ => ⟨hK.going, fun h => absurd h hw⟩) fun h => absurd hr h
  unfold lowSpace
  cases fromSource with
  | true => exact job.move hd hsize h hrest
  | false => exact Crash.Sat.bind (Crash.Sat.pure (hrest s h))

/-- **`GenerateTarget` for a file** loses nothing, and makes the target if it returns 0. -/
theorem FileJob.generate (job : FileJob cod lib a S T patch) {fromSource : Bool} (hd : source.data = some S)
    (hsize : source.Sized) (h : Ready lib a S T fromSource s) :
    RunsOn lib a S T P (generateFile cod lib a (lib.sha1 T) fromSource source patch) s := by
  refine Crash.Sat.step (Crash.Sat.mono (freeSpaceForFile_reads _) (fun _ _ h => h) (fun _ _ h => h.2.elim)
    fun s' hl => ⟨(h.lost hl).going, hl.halts⟩) fun freeSpace s₁ ⟨h₁, _⟩ => ?_
  subst s₁
  split_ifs
  · refine job.produce hd h (fun hashed w s' hK hw he => ?_) fun result hashed s' hr hK hw => ?_
    · exact job.install hK hw he
    · simp only [if_neg hr]
      have htouches : Touches (· = outname a) P (unlink (outname a)) s' (fun _ _ => True) fun _ _ => False :=
        (unlink_touches (A := (· = outname a)) rfl).mono (fun _ h => h) (fun _ _ _ _ => trivial) fun _ _ _ h => h
      have hunlink := htouches.keeps (fun s'' => job.ready_changes hK) fun _ _ h hl => h.lost hl
      exact Crash.Sat.step (Crash.Sat.mono hunlink (fun _ _ h => h) (fun _ _ h => h.2.2.elim) fun _ h => ⟨h.1.going, h.2⟩)
        fun _ s'' h'' => job.low hd hsize h''.1
  · exact job.low hd hsize h

theorem source_reads (hP : ∀ e, P e → e.honest) {state : ℤ} {target : FileContents}
    (ht : LoadedAs lib (loadData lib s a.targetFilename) (state, target)) :
    Reads P (if target.data = none ∨ a.targetFilename ≠ a.sourceFilename then
        loadFileContents lib a.sourceFilename { target with data := none } else pure (0, target)) s
      (fun r => ∃ code, LoadedAs lib (loadData lib s a.sourceFilename) (code, r.2)) (DiesOf (loadData lib s a.sourceFilename)) := by
  split_ifs with hload
  · exact (loadFileContents_reads lib hP s a.sourceFilename _).mono (fun r hr => ⟨r.1, hr⟩) fun e he => he
  · obtain ⟨-, heq⟩ := not_or.mp hload
    exact Reads.pure ⟨state, not_not.mp heq ▸ ht⟩

theorem LoadedAs.of_ok {found : Except Stop Bytes} {d : Bytes} {code : ℤ} {file : FileContents} (h : LoadedAs lib found (code, file))
    (hf : found = .ok d) : code = 0 ∧ file.data = some d ∧ file.sha1 = lib.sha1 d ∧ file.Sized := by
  rw [hf] at h
  rcases h with ⟨hcode, d', hd', hdata, hsize, hsha⟩ | ⟨-, h, -⟩
  · obtain rfl : d = d' := Except.ok.inj hd'
    refine ⟨hcode, hdata, hsha, fun x hx => ?_⟩
    obtain rfl : d = x := Option.some.inj (hdata.symm.trans hx)
    exact hsize
  · cases h

theorem loadData_file {p : Path} (h : isPartitionName p = false) : loadData lib s p = fileData s p := by simp [loadData, h]

theorem FileJob.patchFor (job : FileJob cod lib a S T patch) (hsha : source.sha1 = lib.sha1 S) :
    patchFor a source = some patch := by
  obtain ⟨i, hi, hp⟩ := job.entry
  simp [Patch.patchFor, hsha, hi, hp]

theorem NoClash.done (h : NoClash lib a T s) {X : Bytes} (hX : fileData s a.targetFilename = .ok X) (hsha : lib.sha1 X = lib.sha1 T) :
    LoadsAs s a.targetFilename T := by
  obtain rfl := h.2 X hX hsha
  exact loadsAs_of_fileData hX h.1

/-- **Behind the early exit**, where the source or its copy is loaded. -/
theorem FileJob.patchSource (job : FileJob cod lib a S T patch) (hP : ∀ e, P e → e.honest) (h : Kept a S s ∧ NoClash lib a T s)
    {state : ℤ} {target : FileContents} (ht : LoadedAs lib (loadData lib s a.targetFilename) (state, target)) :
    RunsOn lib a S T P (patchSource cod lib a (lib.sha1 T) target) s := by
  have hgoing : ∀ s', Lost P s s' → Going lib a S T s' ∧ Halts P := fun s' hl => ⟨Going.lost (.inr h) hl, hl.halts⟩
  unfold Patch.patchSource
  have hread := source_reads hP ht
  rw [loadData_file job.source_file] at hread
  refine Crash.Sat.step (Crash.Sat.mono hread (fun _ _ h => h) (fun _ _ h => (fileData_not_dies h.2).elim) hgoing) ?_
  rintro ⟨_, source⟩ s₁ ⟨hs₁, code, hsource⟩
  subst s₁
  simp only at hsource
  rcases h.1 with hsrc | ⟨hcopy, hgone⟩
  · obtain ⟨-, hd, hsha, hsize⟩ := hsource.of_ok hsrc.fileData
    simp only [hd, Option.isSome_some, if_true, job.patchFor hsha]
    rw [generateTarget, job.target_file]
    exact job.generate hd hsize ⟨h.1, h.2, fun _ => hsrc⟩
  · have hnone : source.data = none := by
      rcases hsource with ⟨-, d, hd, -⟩ | ⟨-, -, hd⟩
      · simp [Patch.fileData, hgone] at hd
      · exact hd
    simp only [hnone, Option.isSome_none, Bool.false_eq_true, if_false]
    have hload := loadFileContents_reads lib hP s cacheTempSource a.stack
    rw [loadData_file (by decide)] at hload
    refine Crash.Sat.step (Crash.Sat.mono hload (fun _ _ h => h) (fun _ _ h => (fileData_not_dies h.2).elim) hgoing) ?_
    rintro ⟨code', copy⟩ s₁ ⟨hs₁, hcopied⟩
    subst s₁
    obtain ⟨rfl, hd, hsha, hsize⟩ := hcopied.of_ok hcopy.fileData
    refine Crash.Sat.bind (Crash.Sat.pure ?_)
    simp only [job.patchFor hsha]
    rw [generateTarget, job.target_file]
    exact job.generate hd hsize ⟨h.1, h.2, by simp⟩

/-- **One run of `applypatch`** keeps the invariant however it ends. -/
theorem FileJob.applypatch_sat {args : Args} (job : FileJob cod lib args.resolve S T patch) (hP : ∀ e, P e → e.honest)
    (h : Going lib args.resolve S T s) : RunsOn lib args.resolve S T P (applypatch cod lib args) s := by
  unfold applypatch
  simp only [job.target]
  have hload := loadFileContents_reads lib hP s args.resolve.targetFilename args.resolve.stack
  refine Crash.Sat.step (Crash.Sat.mono hload (fun _ _ h => h)
    (fun _ _ h => (fileData_not_dies (loadData_file job.target_file ▸ h.2)).elim) fun _ hl => ⟨h.lost hl, hl.halts⟩) ?_
  rintro ⟨state, target⟩ s₁ ⟨hs₁, ht⟩
  subst s₁
  simp only
  rcases h with hdone | hkept
  · obtain ⟨rfl, -, hsha, -⟩ := ht.of_ok ((loadData_file job.target_file).trans hdone.fileData)
    rw [if_pos ⟨rfl, hsha⟩]
    exact Crash.Sat.pure hdone
  · split_ifs with hexit
    · obtain ⟨rfl, hsha⟩ := hexit
      obtain ⟨-, X, hX, -, -, hX'⟩ := ht.resolve_right fun h => absurd h.1 (by simp)
      exact Crash.Sat.pure (hkept.2.done (loadData_file job.target_file ▸ hX) (hX'.symm.trans hsha))
    · exact Crash.Sat.step (job.patchSource hP hkept ht) fun _ _ h => Crash.Sat.pure h

end

/-! ### Run after run -/

/-- The target is done, or the source or its copy is there (as they load). -/
def Safe (a : Args) (S T : Bytes) (s : Sys) : Prop :=
  fileData s a.targetFilename = .ok T ∨ fileData s a.sourceFilename = .ok S ∨ fileData s cacheTempSource = .ok S

theorem Going.safe {lib : Lib} {a : Args} {S T : Bytes} {s : Sys} (h : Going lib a S T s) : Safe a S T s := by
  rcases h with h | ⟨h | h, -⟩
  · exact .inl h.fileData
  · exact .inr (.inl h.fileData)
  · exact .inr (.inr h.1.fileData)

/-- Nothing is being written, the source loads as `S`, and the target is not mistaken for
being done. -/
structure Starts (lib : Lib) (a : Args) (S T : Bytes) (s : Sys) : Prop where
  at_rest : ∀ p f, s.files p = some f → f.synced = true
  source : fileData s a.sourceFilename = .ok S
  no_clash : ∀ X, fileData s a.targetFilename = .ok X → lib.sha1 X = lib.sha1 T → X = T

theorem Starts.going {lib : Lib} {a : Args} {S T : Bytes} {s : Sys} (h : Starts lib a S T s) : Going lib a S T s :=
  .inr ⟨.inl (loadsAs_of_fileData h.source fun _ hf => h.at_rest _ _ hf), fun _ hf => h.at_rest _ _ hf, h.no_clash⟩

def Ev.clean (e : Ev) : Prop := e.honest ∧ e.fails = false ∧ 0 < e.count ∧ e.halt = false

/-- **Restartable.** In every state that runs reach which are cut off anywhere, with any writes failing
and any free space, nothing is lost; and from there a run in which no call fails completes the target,
unless `statfs` reports less room than the source needs on the cache. -/
theorem FileJob.restartable {cod : Codecs} {lib : Lib} {args : Args} {S T : Bytes} {patch : Value} {s s' : Sys}
    (job : FileJob cod lib args.resolve S T patch) (hs : Starts lib args.resolve S T s)
    (hr : Crash.Reachable Ev.honest (applypatch cod lib args) s s') :
    Safe args.resolve S T s' ∧ ∀ ev, (∀ i, (ev i).clean) →
      (∃ n s'', applypatch cod lib args ev 0 s' = .ok () n s'' ∧ fileData s'' args.resolve.targetFilename = .ok T) ∨
        (∃ n s'', applypatch cod lib args ev 0 s' = .error .cacheSpace n s'') ∧ ∃ i, (ev i).reported < S.length := by
  have hgoing : Going lib args.resolve S T s' := hr.invariant (fun s h => Crash.Sat.mono (job.applypatch_sat (fun _ h => h) h)
    (fun _ _ h => .inl h) (fun _ _ h => h.1) fun _ h => h.1) hs.going
  refine ⟨hgoing.safe, fun ev hev => ?_⟩
  have hworks : Works fun e => ∃ i, ev i = e := by
    rintro e ⟨i, rfl⟩
    exact ⟨(hev i).2.1, (hev i).2.2.1⟩
  have hhonest : ∀ e, (∃ i, ev i = e) → e.honest := by
    rintro e ⟨i, rfl⟩
    exact (hev i).1
  have hend := (job.applypatch_sat hhonest hgoing) ev (fun i => ⟨i, rfl⟩) 0
  cases hrun : applypatch cod lib args ev 0 s' with rw [hrun] at hend
  | ok _ n s'' => exact .inl ⟨n, s'', rfl, LoadsAs.fileData hend⟩
  | error e n s'' =>
    obtain ⟨rfl, _, ⟨i, rfl⟩, hless⟩ := hend.2 hworks
    exact .inr ⟨⟨n, s'', rfl⟩, i, hless⟩
  | crash s'' =>
    obtain ⟨-, _, ⟨i, rfl⟩, hhalt⟩ := hend
    simp [(hev i).2.2.2] at hhalt

/-! ### Where it does not hold -/

def onlyFile (data : Bytes) : Sys := Sys.ofFiles [(lit "/system/a", ⟨data, 0o644, 0, 0, true, true⟩)]

/-- "abc" from "old": nothing is lost, and with room on the cache a run completes the target. -/
theorem old_restartable : Safe (fileArgs [oldSha1Str] [some abcPatch]) (lit "old") (lit "abc") (onlyFile (lit "old")) ∧
    ∃ n s'', applypatch xyCodecs abcLib (fileArgs [oldSha1Str] [some abcPatch]) (fun _ => Ev.fine) 0 (onlyFile (lit "old")) =
      .ok () n s'' ∧ fileData s'' (lit "/system/a") = .ok (lit "abc") := by
  have hplan : planOf xyCodecs (lit "old") abcPatch none = ([⟨false, lit "abc"⟩], none) := by decide +kernel
  have job : FileJob xyCodecs abcLib (fileArgs [oldSha1Str] [some abcPatch]).resolve (lit "old") (lit "abc") abcPatch := {
    target := by decide +kernel
    source_file := by decide +kernel
    target_file := by decide +kernel
    source_off := by unfold OffCache; decide +kernel
    target_off := by unfold OffCache; decide +kernel
    source_ne := by decide +kernel
    entry := ⟨0, by decide +kernel, rfl⟩
    blob := rfl
    stops := congrArg Prod.snd hplan
    makes := by decide +kernel
    source_masked := by decide +kernel
    target_masked := by decide +kernel
    no_collision := fun h w he _ => by
      rw [show (planOf xyCodecs (lit "old") abcPatch (fileArgs [oldSha1Str] [some abcPatch]).resolve.bonusData).1 =
        [⟨false, lit "abc"⟩] from congrArg Prod.fst hplan] at he
      cases he with
      | full hos => cases hos; decide
      | skip ho => cases ho }
  have starts : Starts abcLib (fileArgs [oldSha1Str] [some abcPatch]).resolve (lit "old") (lit "abc") (onlyFile (lit "old")) := {
    at_rest := fun p f hf => by
      simp only [onlyFile, Sys.ofFiles, List.lookup_cons, List.lookup_nil] at hf
      split at hf
      · cases hf; rfl
      · cases hf
    source := by decide +kernel
    no_clash := fun X hX => by
      obtain rfl : lit "old" = X := Except.ok.inj (Eq.trans (by decide +kernel) hX)
      decide +kernel }
  obtain ⟨hsafe, hrun⟩ := job.restartable starts .refl
  refine ⟨hsafe, (hrun (fun _ => Ev.fine) fun _ => ⟨rfl, rfl, by norm_num [Ev.fine], rfl⟩).resolve_right fun hspace => ?_⟩
  obtain ⟨-, i, hless⟩ := hspace
  exact absurd hless (by decide +kernel)

/-- A file whose listed word lies over the list itself, and the file once masked. -/
def retouched : Bytes := [0] ++ [0, 0, 0, 0, 0, 0, 1, 0] ++ lit "RETOUCH " ++ [8, 0, 0, 0] ++ [0, 0, 0, 0] ++ lit "PRE "

def retouchedMasked : Bytes := [0, 1, 0, 0] ++ retouched.drop 4

def retouchedSha1Str : Bytes := lit "1a172d0203397af9c56f36db19de7fff771b4455"

def retouchedSha1 : Bytes :=
  [0x1a, 0x17, 0x2d, 0x02, 0x03, 0x39, 0x7a, 0xf9, 0xc5, 0x6f, 0x36, 0xdb, 0x19, 0xde, 0x7f, 0xff, 0x77, 0x1b, 0x44, 0x55]

def retouchedLib : Lib := Lib.ofSha1 (fun b => if b = retouchedMasked then retouchedSha1 else if b = lit "abc" then abcSha1 else []) 0

/-- The target file system is full, and the machine stops once the source was moved. -/
def fullThenStop (i : ℕ) : Ev := if i = 3 then { Ev.fine with bfree := 0 } else if i = 11 then
    { Ev.fine with halt := true } else .fine

def oldPatch : Value where
  isBlob := true
  data := lit "IMGDIFF2" ++ LittleEndian.toBytes 4 1 ++ (LittleEndian.toBytes 4 3 ++ LittleEndian.toBytes 4 3 ++ lit "old")
  size_lt := by decide +kernel

/-- Two ways to fail. A source that masking does not leave alone is lost when it is moved:
the saved copy no longer loads. And of two entries for one hash only the first counts, so a
run in which no call fails stops with the wrong hash. -/
theorem restart_fails :
    (fileData (onlyFile retouched) (lit "/system/a") = .ok retouchedMasked ∧
      flat (planOf xyCodecs retouchedMasked abcPatch none).1 = lit "abc" ∧
      ∃ s', Crash.Reachable Ev.honest (applypatch xyCodecs retouchedLib (fileArgs [retouchedSha1Str] [some abcPatch]))
        (onlyFile retouched) s' ∧ ¬ Safe (fileArgs [retouchedSha1Str] [some abcPatch]) retouchedMasked (lit "abc") s') ∧
    (flat (planOf xyCodecs (lit "old") abcPatch none).1 = lit "abc" ∧
      (applypatch xyCodecs abcLib (fileArgs [oldSha1Str, oldSha1Str] [some oldPatch, some abcPatch]) (fun _ => Ev.fine) 0
        (onlyFile (lit "old"))).error? = some .wrongSha1) := by
  refine ⟨⟨by decide +kernel, by decide +kernel, _, .single ⟨fullThenStop, fun i => ?_, rfl⟩,
    ?_⟩, by decide +kernel, by decide +kernel⟩
  · unfold fullThenStop
    split_ifs <;> rfl
  · unfold Safe
    decide +kernel

end Patch
end Recovery
