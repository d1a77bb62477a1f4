/-
# Arguments that abort

When an argument evaluates to `NULL`, a function has to return `NULL` at once. Three of the
updater's functions do not (`missed_aborts`): `delete` frees its first path over and over,
`apply_patch` and `apply_patch_check` use an array that was not returned. The others do
(`aborting_argument`).
-/
import Recovery.Edify.Updater

namespace Recovery
namespace Edify

variable {σ α β : Type}

/-- The arguments up to the `k`th are evaluated, and the `k`th one is `NULL`. -/
inductive AbortsAt (ev : Arg σ → M σ (Option α)) : List (Arg σ) → ℕ → State σ → State σ → Prop
  | here {a : Arg σ} {argv : List (Arg σ)} {s s' : State σ} (h : ev a s = .ok (none, s')) : AbortsAt ev (a :: argv) 0 s s'
  | later {a : Arg σ} {argv : List (Arg σ)} {k : ℕ} {v : α} {s s₁ s' : State σ} (h : ev a s = .ok (some v, s₁))
      (rest : AbortsAt ev argv k s₁ s') : AbortsAt ev (a :: argv) (k + 1) s s'

theorem bind_run {p : M σ α} {f : α → M σ β} {s s' : State σ} {a : α} (h : p s = .ok (a, s')) : (p >>= f) s = f a s' := by
  show (p s >>= fun r => f r.1 r.2) = _
  rw [h]
  rfl

theorem bind_error {p : M σ α} {f : α → M σ β} {s : State σ} {e : Stop} (h : p s = .error e) : (p >>= f) s = .error e := by
  show (p s >>= fun r => f r.1 r.2) = _
  rw [h]
  rfl

theorem AbortsAt.readWith {ev : Arg σ → M σ (Option α)} : ∀ {argv : List (Arg σ)} {k count : ℕ} {s s' : State σ},
    AbortsAt ev argv k s s' → k < count → Edify.readWith ev argv count s = .ok (none, s')
  | _, _, 0, _, _, _, hk => absurd hk (Nat.not_lt_zero _)
  | _, _, count + 1, _, _, .here h, _ => by
    rw [Edify.readWith, bind_run h]
    rfl
  | _, _, count + 1, _, _, .later h rest, hk => by
    rw [Edify.readWith, bind_run h]
    dsimp only
    rw [bind_run (rest.readWith (Nat.lt_of_succ_lt_succ hk))]
    rfl

variable (S : System σ)

/-- The numbers of arguments that a function accepts. -/
def UpdaterFn.admits : UpdaterFn → ℕ → Bool
  | .symlink, argc => argc ≠ 0
  | .setPerm, argc => 4 ≤ argc
  | .setPermRecursive, argc => 5 ≤ argc
  | .setMetadata, argc => argc % 2 = 1
  | .setMetadataRecursive, argc => argc % 2 = 1
  | .packageExtractDir, argc => argc = 2
  | .packageExtractFile, argc => argc = 1 ∨ argc = 2
  | .applyPatch, argc => 6 ≤ argc ∧ argc % 2 = 0
  | .applyPatchCheck, argc => 1 ≤ argc
  | _, _ => true

/-- The arguments whose abort a function notices. -/
def UpdaterFn.notices : UpdaterFn → ℕ → Bool
  | .delete, k => k = 0
  | .deleteRecursive, k => k = 0
  | .applyPatch, k => k < 4
  | .applyPatchCheck, k => k = 0
  | _, _ => true

/-- `ApplyPatchFn` has read its first four arguments and goes on to the patches. -/
def PatchesRead (argv : List (Arg σ)) (s s₁ : State σ) : Prop :=
  ∃ source target sha1 sizeStr : CString, readArgs argv 4 s = .ok (some [source, target, sha1, sizeStr], s₁) ∧
    isBakfile S source s₁ = .ok (false, s₁) ∧ ¬((strtol sizeStr.bytes).1 = 0 ∧ (strtol sizeStr.bytes).2 = sizeStr.bytes)

/-- `ApplyPatchCheckFn` has read its first argument and goes on to the checksums. -/
def Sha1sRead (argv : List (Arg σ)) (s s₁ : State σ) : Prop :=
  ∃ filename : CString, readArgs argv 1 s = .ok (some [filename], s₁) ∧ isBakfile S filename s₁ = .ok (false, s₁)

/-- The function evaluates its `k`th argument, and this one aborts. `write_raw_image` and
the patches of `apply_patch` are values, the others have to be strings; `file_getprop` and
`write_raw_image` only look at two. -/
def UpdaterFn.Aborts (argv : List (Arg σ)) (k : ℕ) (s s' : State σ) : UpdaterFn → Prop
  | .writeRawImage => k < 2 ∧ AbortsAt evaluateValue argv k s s'
  | .fileGetprop => k < 2 ∧ AbortsAt evaluate argv k s s'
  | .applyPatch => (k < 4 ∧ AbortsAt evaluate argv k s s') ∨
      4 ≤ k ∧ ∃ s₁, PatchesRead S argv s s₁ ∧ AbortsAt evaluateValue (argv.drop 4) (k - 4) s₁ s'
  | .applyPatchCheck => (k = 0 ∧ AbortsAt evaluate argv k s s') ∨
      1 ≤ k ∧ ∃ s₁, Sha1sRead S argv s s₁ ∧ AbortsAt evaluate (argv.drop 1) (k - 1) s₁ s'
  | _ => AbortsAt evaluate argv k s s'

theorem AbortsAt.lt_length {ev : Arg σ → M σ (Option α)} {argv : List (Arg σ)} {k : ℕ} {s s' : State σ}
    (h : AbortsAt ev argv k s s') : k < argv.length := by
  induction h with
  | here => exact Nat.succ_pos _
  | later _ _ ih => exact Nat.succ_lt_succ ih

section

variable {S} {argv : List (Arg σ)} {k : ℕ} {s s' : State σ}

theorem deleteFn_aborts {recursive : Bool} (h : AbortsAt evaluate argv 0 s s') : deleteFn S recursive argv s = .ok (none, s') := by
  cases h with
  | @here a rest _ _ h =>
    -- nothing was evaluated before, so that there is nothing to free
    have hpaths : deletePaths [] (a :: rest) s = .ok (none, s') := by
      rw [deletePaths, bind_run h]
      rfl
    rw [deleteFn, bind_run hpaths]
    rfl

/-- A path that was read before the one that aborts is freed, and then freed again. -/
theorem deletePaths_faults (h : AbortsAt evaluate argv k s s') :
    ∀ path paths, deletePaths (path :: paths) argv s = .error .fault := by
  induction h with
  | here h =>
    intro path paths
    rw [deletePaths, bind_run h]
    rfl
  | later h _ ih =>
    intro path paths
    rw [deletePaths, bind_run h]
    exact ih path _

theorem deleteFn_faults {recursive : Bool} (h : AbortsAt evaluate argv k s s') (hk : k ≠ 0) :
    deleteFn S recursive argv s = .error .fault := by
  cases h with
  | here => exact absurd rfl hk
  | @later a argv _ _ _ _ _ h rest =>
    have hpaths : deletePaths [] (a :: argv) s = .error .fault := by
      rw [deletePaths, bind_run h]
      exact deletePaths_faults rest _ []
    rw [deleteFn, bind_error hpaths]

theorem symlinkFn_aborts (h : AbortsAt evaluate argv k s s') (hk : k < argv.length) : symlinkFn S argv s = .ok (none, s') := by
  cases h with
  | here h =>
    rw [symlinkFn, bind_run h]
    rfl
  | later h rest =>
    have hread : readVarArgs _ _ = .ok (none, s') := rest.readWith (Nat.lt_of_succ_lt_succ hk)
    rw [symlinkFn, bind_run h]
    dsimp only
    rw [bind_run hread]
    rfl

theorem setPermFn_aborts {recursive : Bool} (hargs : ¬ argv.length < if recursive then 5 else 4)
    (h : AbortsAt evaluate argv k s s') (hk : k < argv.length) : setPermFn S recursive argv s = .ok (none, s') := by
  have hread : readVarArgs argv s = .ok (none, s') := h.readWith hk
  rw [setPermFn, if_neg hargs, bind_run hread]
  rfl

theorem setMetadataFn_aborts {recursive : Bool} (hargs : argv.length % 2 = 1) (h : AbortsAt evaluate argv k s s')
    (hk : k < argv.length) : setMetadataFn S recursive argv s = .ok (none, s') := by
  have hread : readVarArgs argv s = .ok (none, s') := h.readWith hk
  rw [setMetadataFn, if_neg (not_not.mpr hargs), bind_run hread]
  rfl

theorem packageExtractDirFn_aborts (hargs : argv.length = 2) (h : AbortsAt evaluate argv k s s') (hk : k < argv.length) :
    packageExtractDirFn S argv s = .ok (none, s') := by
  have hread : readArgs argv 2 s = .ok (none, s') := h.readWith (hargs ▸ hk)
  rw [packageExtractDirFn, if_neg (not_not.mpr hargs), bind_run hread]
  rfl

theorem packageExtractFileFn_aborts (hargs : argv.length = 1 ∨ argv.length = 2) (h : AbortsAt evaluate argv k s s')
    (hk : k < argv.length) : packageExtractFileFn S argv s = .ok (none, s') := by
  have hread : readArgs argv argv.length s = .ok (none, s') := h.readWith hk
  rw [packageExtractFileFn, if_neg (by omega), bind_run hread]
  rfl

theorem fileGetPropFn_aborts (h : AbortsAt evaluate argv k s s') (hk : k < 2) : fileGetPropFn S argv s = .ok (none, s') := by
  have hread : readArgs argv 2 s = .ok (none, s') := h.readWith hk
  rw [fileGetPropFn, bind_run hread]
  rfl

theorem writeRawImageFn_aborts (h : AbortsAt evaluateValue argv k s s') (hk : k < 2) :
    writeRawImageFn S argv s = .ok (none, s') := by
  have hread : readValueArgs argv 2 s = .ok (none, s') := h.readWith hk
  rw [writeRawImageFn, bind_run hread]
  rfl

theorem applyPatchFn_aborts (hargs : 6 ≤ argv.length ∧ argv.length % 2 = 0) (h : AbortsAt evaluate argv k s s') (hk : k < 4) :
    applyPatchFn S argv s = .ok (none, s') := by
  have hread : readArgs argv 4 s = .ok (none, s') := h.readWith hk
  rw [applyPatchFn, if_neg (by omega), bind_run hread]
  rfl

theorem applyPatchCheckFn_aborts (hargs : 1 ≤ argv.length) (h : AbortsAt evaluate argv k s s') (hk : k < 1) :
    applyPatchCheckFn S argv s = .ok (none, s') := by
  have hread : readArgs argv 1 s = .ok (none, s') := h.readWith hk
  rw [applyPatchCheckFn, if_neg (by omega), bind_run hread]
  rfl

theorem applyPatchFn_faults {s₁ : State σ} (hargs : 6 ≤ argv.length ∧ argv.length % 2 = 0) (hread : PatchesRead S argv s s₁)
    (h : AbortsAt evaluateValue (argv.drop 4) k s₁ s') : applyPatchFn S argv s = .error .fault := by
  obtain ⟨source, target, sha1, sizeStr, hread, hbak, hsize⟩ := hread
  have hpatches : readValueVarArgs (argv.drop 4) s₁ = .ok (none, s') := h.readWith h.lt_length
  rw [applyPatchFn, if_neg (by omega), bind_run hread]
  dsimp only
  rw [bind_run hbak, if_neg Bool.false_ne_true, if_neg hsize, applyPatches, bind_run hpatches]
  rfl

theorem applyPatchCheckFn_faults {s₁ : State σ} (hargs : 1 ≤ argv.length) (hread : Sha1sRead S argv s s₁)
    (h : AbortsAt evaluate (argv.drop 1) k s₁ s') : applyPatchCheckFn S argv s = .error .fault := by
  obtain ⟨filename, hread, hbak⟩ := hread
  have hsha1s : readVarArgs (argv.drop 1) s₁ = .ok (none, s') := h.readWith h.lt_length
  rw [applyPatchCheckFn, if_neg (by omega), bind_run hread]
  dsimp only
  rw [bind_run hbak, if_neg Bool.false_ne_true, checkSha1s, bind_run hsha1s]
  rfl

theorem uiPrintFn_aborts (h : AbortsAt evaluate argv k s s') (hk : k < argv.length) : uiPrintFn S argv s = .ok (none, s') := by
  have hread : readVarArgs argv s = .ok (none, s') := h.readWith hk
  rw [uiPrintFn, bind_run hread]
  rfl

end

theorem errorAbort_run (msg : Bytes) (s : State σ) :
    ∃ msg', (errorAbort msg : M σ (Option Value)) s = .ok (none, { s with errmsg := some msg' }) := ⟨_, rfl⟩

/-- With a number of arguments that the function does not accept, none is evaluated. -/
theorem unadmitted_aborts {fn : UpdaterFn} {argv : List (Arg σ)} (hno : fn.admits argv.length = false) (s : State σ) :
    ∃ msg, fn.call S argv s = .ok (none, { s with errmsg := some msg }) := by
  cases fn with
  | symlink =>
    obtain rfl : argv = [] := by simpa [UpdaterFn.admits] using hno
    exact errorAbort_run _ s
  | setPerm =>
    have hargs : argv.length < if false then 5 else 4 := by simpa [UpdaterFn.admits] using hno
    rw [UpdaterFn.call, setPermFn, if_pos hargs]
    exact errorAbort_run _ s
  | setPermRecursive =>
    have hargs : argv.length < if true then 5 else 4 := by simpa [UpdaterFn.admits] using hno
    rw [UpdaterFn.call, setPermFn, if_pos hargs]
    exact errorAbort_run _ s
  | setMetadata =>
    have hargs : argv.length % 2 ≠ 1 := by simpa [UpdaterFn.admits] using hno
    rw [UpdaterFn.call, setMetadataFn, if_pos hargs]
    exact errorAbort_run _ s
  | setMetadataRecursive =>
    have hargs : argv.length % 2 ≠ 1 := by simpa [UpdaterFn.admits] using hno
    rw [UpdaterFn.call, setMetadataFn, if_pos hargs]
    exact errorAbort_run _ s
  | packageExtractDir =>
    have hargs : argv.length ≠ 2 := by simpa [UpdaterFn.admits] using hno
    rw [UpdaterFn.call, packageExtractDirFn, if_pos hargs]
    exact errorAbort_run _ s
  | packageExtractFile =>
    have hargs : argv.length ≠ 1 ∧ argv.length ≠ 2 := by simpa [UpdaterFn.admits] using hno
    rw [UpdaterFn.call, packageExtractFileFn, if_pos hargs]
    exact errorAbort_run _ s
  | applyPatch =>
    have hargs : argv.length < 6 ∨ argv.length % 2 = 1 := by
      simp only [UpdaterFn.admits, decide_eq_false_iff_not] at hno
      omega
    rw [UpdaterFn.call, applyPatchFn, if_pos hargs]
    exact errorAbort_run _ s
  | applyPatchCheck =>
    have hargs : argv.length < 1 := by simpa [UpdaterFn.admits] using hno
    rw [UpdaterFn.call, applyPatchCheckFn, if_pos hargs]
    exact errorAbort_run _ s
  | _ => cases hno

theorem noticed_iff {x : Except Stop (Option Value × State σ)} {s' : State σ} {b : Bool} (hyes : b = true → x = .ok (none, s'))
    (hno : b = false → x = .error .fault) : x = .ok (none, s') ↔ b = true := by
  cases b with
  | true => exact iff_of_true (hyes rfl) rfl
  | false => simp [hno rfl]

/-- **An argument that aborts ends the function** just if it is one that is noticed. With a number of arguments that the function does
not accept, none is evaluated. Otherwise, if the one that it evaluates aborts, the function returns `NULL` in the state that the
evaluation left; where the abort is not noticed it never does. -/
theorem aborting_argument (fn : UpdaterFn) (argv : List (Arg σ)) (s : State σ) :
    (fn.admits argv.length = false → ∃ msg, fn.call S argv s = .ok (none, { s with errmsg := some msg })) ∧
    ∀ (k : ℕ) (s' : State σ), fn.admits argv.length = true → fn.Aborts S argv k s s' →
      (fn.call S argv s = .ok (none, s') ↔ fn.notices k = true) := by
  refine ⟨fun hno => unadmitted_aborts S hno s, ?_⟩
  intro k s' hadmits hab
  cases fn with
  | delete =>
    refine noticed_iff (fun hk => ?_) fun hk => deleteFn_faults hab (of_decide_eq_false hk)
    obtain rfl : k = 0 := of_decide_eq_true hk
    exact deleteFn_aborts hab
  | deleteRecursive =>
    refine noticed_iff (fun hk => ?_) fun hk => deleteFn_faults hab (of_decide_eq_false hk)
    obtain rfl : k = 0 := of_decide_eq_true hk
    exact deleteFn_aborts hab
  | symlink => exact iff_of_true (symlinkFn_aborts hab hab.lt_length) rfl
  | setPerm => exact iff_of_true (setPermFn_aborts (by simpa [UpdaterFn.admits] using hadmits) hab hab.lt_length) rfl
  | setPermRecursive => exact iff_of_true (setPermFn_aborts (by simpa [UpdaterFn.admits] using hadmits) hab hab.lt_length) rfl
  | setMetadata => exact iff_of_true (setMetadataFn_aborts (of_decide_eq_true hadmits) hab hab.lt_length) rfl
  | setMetadataRecursive => exact iff_of_true (setMetadataFn_aborts (of_decide_eq_true hadmits) hab hab.lt_length) rfl
  | packageExtractDir => exact iff_of_true (packageExtractDirFn_aborts (of_decide_eq_true hadmits) hab hab.lt_length) rfl
  | packageExtractFile => exact iff_of_true (packageExtractFileFn_aborts (of_decide_eq_true hadmits) hab hab.lt_length) rfl
  | fileGetprop => exact iff_of_true (fileGetPropFn_aborts hab.2 hab.1) rfl
  | writeRawImage => exact iff_of_true (writeRawImageFn_aborts hab.2 hab.1) rfl
  | applyPatch =>
    have hargs : 6 ≤ argv.length ∧ argv.length % 2 = 0 := of_decide_eq_true hadmits
    rcases hab with ⟨hk, hab⟩ | ⟨hk, s₁, hread, hab⟩
    · exact iff_of_true (applyPatchFn_aborts hargs hab hk) (decide_eq_true hk)
    · exact noticed_iff (fun h => absurd (of_decide_eq_true h) (by omega)) fun _ => applyPatchFn_faults hargs hread hab
  | applyPatchCheck =>
    have hargs : 1 ≤ argv.length := of_decide_eq_true hadmits
    rcases hab with ⟨hk, hab⟩ | ⟨hk, s₁, hread, hab⟩
    · exact iff_of_true (applyPatchCheckFn_aborts hargs hab (by omega)) (decide_eq_true hk)
    · exact noticed_iff (fun h => absurd (of_decide_eq_true h) (by omega)) fun _ => applyPatchCheckFn_faults hargs hread hab
  | uiPrint => exact iff_of_true (uiPrintFn_aborts hab hab.lt_length) rfl

/-! ### Aborts that are missed -/

def countingSystem : System ℕ where
  unlink _ n := (none, n + 1)
  dirUnlinkHierarchy _ n := (none, n + 1)
  mkdir _ n := (none, n + 1)
  symlink _ _ n := (none, n + 1)
  chown _ _ _ n := (none, n + 1)
  chmod _ _ n := (none, n + 1)
  lstat _ n := (some .regular, n + 1)
  opendir _ n := (some [], n + 1)
  readdir n := (false, n + 1)
  closedir n := (none, n + 1)
  walk _ n := (some [], n + 1)
  lsetfilecon _ _ n := (none, n + 1)
  removeCapabilities _ n := (none, n + 1)
  setCapabilities _ _ n := (none, n + 1)
  extractRecursive _ _ n := (true, n + 1)
  findZipEntry _ n := (some 0, n + 1)
  openForWrite _ n := (true, n + 1)
  extractToFile _ _ n := (true, n + 1)
  malloc _ n := (true, n + 1)
  extractToBuffer _ n := (some [], n + 1)
  statSize _ n := (some 0, n + 1)
  openForRead _ n := (true, n + 1)
  readFile _ _ n := ([], n + 1)
  restoreRawPartition _ _ n := (true, n + 1)
  applypatch _ _ _ _ _ n := (0, n + 1)
  applypatchCheck _ _ n := (0, n + 1)
  bakfiles _ := []
  pushBakfile _ n := ((), n + 1)
  print _ n := ((), n + 1)

/-- An argument that evaluates to a string, and one that aborts. -/
def textArg (s : String) : Arg ℕ := ⟨pure (stringValue (str s)), 0, 0⟩

def abortArg : Arg ℕ := ⟨pure none, 0, 0⟩

def freshState : State ℕ := ⟨0, [], none, []⟩

/-- `symlink("a", "b", abort())` makes no link. -/
theorem symlink_aborts : UpdaterFn.symlink.Aborts countingSystem [textArg "a", textArg "b", abortArg] 2 freshState freshState ∧
    UpdaterFn.symlink.call countingSystem [textArg "a", textArg "b", abortArg] freshState = .ok (none, freshState) := by
  have hab : UpdaterFn.symlink.Aborts countingSystem [textArg "a", textArg "b", abortArg] 2 freshState freshState :=
    .later (v := str "a") rfl (.later (v := str "b") rfl (.here rfl))
  exact ⟨hab, (aborting_argument countingSystem .symlink _ freshState).2 2 freshState rfl hab |>.mpr rfl⟩

/-- **Aborts that are not noticed.** `delete("a", abort())` frees a path twice; `apply_patch` with a patch that aborts and
`apply_patch_check` with a checksum that aborts use an array that is not there. -/
theorem missed_aborts :
    UpdaterFn.delete.call countingSystem [textArg "a", abortArg] freshState = .error .fault ∧
    UpdaterFn.applyPatch.call countingSystem [textArg "a", textArg "b", textArg "c", textArg "1", abortArg, textArg "d"] freshState =
      .error .fault ∧
    UpdaterFn.applyPatchCheck.call countingSystem [textArg "a", abortArg] freshState = .error .fault :=
  ⟨rfl, rfl, rfl⟩

end Edify
end Recovery
