/-
# Which entries are extracted, and to where

`mzExtractRecursive` skips the entries that do not begin with the directory and stops at the
first such one after a match. The names are sorted, so nothing is missed (`prefix_convex`,
`extractLoop_sat`). The path of each is put together in a buffer that grows
(`targetEntryPath_sat`). With `DRY_RUN` the callback gets all these paths in order
(`dryRun_callbacks`).
-/
import Recovery.Zip.Contents

namespace Recovery
namespace Zip

open Crash (Sat)

/-! ### Names with a common beginning -/

theorem prefix_convex : ∀ {zpath x e y : Bytes}, zpath <+: x → zpath <+: y → NameLe x e → NameLe e y → zpath <+: e
  | [], _, _, _, _, _, _, _ => List.nil_prefix
  | c :: cs, x, e, y, hx, hy, hxe, hey => by
    obtain ⟨x', rfl⟩ : ∃ x', x = c :: x' := by
      obtain ⟨t, rfl⟩ := hx
      exact ⟨cs ++ t, rfl⟩
    obtain ⟨y', rfl⟩ : ∃ y', y = c :: y' := by
      obtain ⟨t, rfl⟩ := hy
      exact ⟨cs ++ t, rfl⟩
    rcases hxe with rfl | hxe
    · exact hx
    rcases hey with rfl | hey
    · exact hy
    have hx' := (List.cons_prefix_cons.mp hx).2
    have hy' := (List.cons_prefix_cons.mp hy).2
    cases hxe with
    | rel hcd =>
      cases hey with
      | rel hdc => exact absurd (UInt8.lt_trans hcd hdc) (UInt8.lt_irrefl c)
      | cons _ => exact absurd hcd (UInt8.lt_irrefl c)
    | cons hxe =>
      cases hey with
      | rel hcc => exact absurd hcc (UInt8.lt_irrefl c)
      | cons hey => exact List.cons_prefix_cons.mpr ⟨rfl, prefix_convex hx' hy' (.inr hxe) (.inr hey)⟩

theorem strncmp_eq_zero_iff : ∀ {a b : Bytes}, (∀ c ∈ a, c ≠ 0) → b.length ≤ a.length →
    (strncmp a b b.length = 0 ↔ b <+: a)
  | a, [], _, _ => by simp [strncmp]
  | [], b :: bs, _, hlen => absurd hlen (by simp)
  | a :: as, b :: bs, hz, hlen => by
    have ih : strncmp as bs bs.length = 0 ↔ bs <+: as :=
      strncmp_eq_zero_iff (fun c hc => hz c (List.mem_cons_of_mem _ hc)) (by simpa using hlen)
    rw [List.length_cons, strncmp, List.cons_prefix_cons]
    by_cases hab : a = b
    · subst hab
      rw [if_neg (not_not.mpr rfl), if_neg (hz a List.mem_cons_self), ih]
      simp
    · have hne : ¬ (a.toNat : ℤ) - b.toNat = 0 := by
        intro h
        exact hab (UInt8.toNat_inj.mp (by omega))
      rw [if_pos hab]
      simp [hne, Ne.symm hab]

theorem startsWith_iff {zpath : Bytes} {e : ZipEntry} (he : e.Named) : startsWith zpath e = true ↔ zpath <+: e.fileName := by
  have hz := ne_zero_of_valid he.valid
  by_cases hlen : zpath.length ≤ e.fileName.length
  · rw [← strncmp_eq_zero_iff hz hlen]
    simp [startsWith, he.len, hlen]
  · have : ¬ zpath <+: e.fileName := fun h => hlen h.length_le
    simp only [this, iff_false, startsWith, he.len]
    simp [Nat.lt_of_not_le hlen]

def selected (zpath : Bytes) (entries : List ZipEntry) : List ZipEntry := entries.filter (startsWith zpath)

theorem selected_after {zpath : Bytes} {skipped rest : List ZipEntry} {x e : ZipEntry} (hs : Sorted (skipped ++ e :: rest))
    (hv : ∀ y ∈ skipped ++ e :: rest, y.Named) (hx : x ∈ skipped) (hmatch : startsWith zpath x = true)
    (hmiss : startsWith zpath e = false) : selected zpath (e :: rest) = [] := by
  have hmem : ∀ {e'}, e' ∈ e :: rest → e' ∈ skipped ++ e :: rest := fun h => List.mem_append_right _ h
  have hxe : NameLe x.fileName e.fileName := (List.pairwise_append.mp hs).2.2 x hx e List.mem_cons_self
  have hafter := List.pairwise_cons.mp (List.pairwise_append.mp hs).2.1
  refine List.filter_eq_nil_iff.mpr fun y hy hym => ?_
  have hey : NameLe e.fileName y.fileName := by
    rcases List.mem_cons.mp hy with hy | hy
    · exact .inl (by rw [hy])
    · exact hafter.1 y hy
  have hpre := prefix_convex ((startsWith_iff (hv x (List.mem_append_left _ hx))).mp hmatch)
    ((startsWith_iff (hv y (hmem hy))).mp hym) hxe hey
  rw [(startsWith_iff (hv e (hmem List.mem_cons_self))).mpr hpre] at hmiss
  cases hmiss

/-! ### The loop -/

section

variable {z : Inflater} {a : Opened} {flags : Flags} {timestamp callback : Bool} {P : Ev → Prop} {zpath : Bytes}
  {I : List ZipEntry → MzPathHelper → Log → Prop} {Q : Bool → Log → Prop} {err : Stop → Log → Prop} {cr : Log → Prop}

/-- `I` holds of the entries that are done, or the loop ends with `Q`. -/
def StepOk (z : Inflater) (a : Opened) (flags : Flags) (timestamp callback : Bool) (P : Ev → Prop) (zpath : Bytes)
    (I : List ZipEntry → MzPathHelper → Log → Prop) (Q : Bool → Log → Prop) (err : Stop → Log → Prop) (cr : Log → Prop) :
    Prop :=
  ∀ done e helper log, e ∈ a.entries → startsWith zpath e = true → done ++ [e] <+: selected zpath a.entries →
    helper.zipDir = zpath → I done helper log →
    Sat P (extractMatch z a flags timestamp callback helper e) log (fun r log => r.2.zipDir = zpath ∧
      match r.1 with
      | .next => I (done ++ [e]) r.2 log
      | .stop ok => Q ok log) err cr

theorem extractLoop_sat (hs : Sorted a.entries) (hv : ∀ e ∈ a.entries, e.Named)
    (hstep : StepOk z a flags timestamp callback P zpath I Q err cr) :
    ∀ (rest skipped : List ZipEntry) (seenMatch : Bool) (helper : MzPathHelper) (log : Log), a.entries = skipped ++ rest →
      (seenMatch = true → ∃ e ∈ skipped, startsWith zpath e = true) → helper.zipDir = zpath →
      I (selected zpath skipped) helper log →
      Sat P (extractLoop z a flags timestamp callback helper seenMatch rest) log
        (fun ok log => (ok = true ∧ ∃ helper, I (selected zpath a.entries) helper log) ∨ Q ok log) err cr
  | [], skipped, _, helper, log, hsplit, _, _, hI => by
    rw [List.append_nil] at hsplit
    exact Sat.pure (.inl ⟨rfl, helper, hsplit ▸ hI⟩)
  | e :: rest, skipped, seenMatch, helper, log, hsplit, hseen, hzip, hI => by
    have hsplit' : a.entries = (skipped ++ [e]) ++ rest := by simp [hsplit]
    unfold extractLoop
    rw [hzip]
    split_ifs with hmatch hsaw
    · have hdone : selected zpath (skipped ++ [e]) = selected zpath skipped ++ [e] := by simp [selected, hmatch]
      have hpre : selected zpath skipped ++ [e] <+: selected zpath a.entries := by
        rw [← hdone, hsplit']
        exact ( List.prefix_append _ _).filter _
      refine Sat.step (hstep _ e helper log (by simp [hsplit]) hmatch hpre hzip hI) fun r log hr => ?_
      obtain ⟨step, helper⟩ := r
      cases step with
      | stop ok => exact Sat.pure (.inr hr.2)
      | next =>
        exact extractLoop_sat hs hv hstep rest (skipped ++ [e]) true helper log hsplit' (fun _ => ⟨e, by simp, hmatch⟩) hr.1
          (hdone ▸ hr.2)
    · -- the early exit
      obtain ⟨x, hx, hxm⟩ := hseen hsaw
      have hnone := selected_after (hsplit ▸ hs) (hsplit ▸ hv) hx hxm (by simpa using hmatch)
      have hall : selected zpath a.entries = selected zpath skipped := by
        rw [hsplit, selected, List.filter_append, ← selected, ← selected, hnone, List.append_nil]
      exact Sat.pure (.inl ⟨rfl, helper, hall ▸ hI⟩)
    · have hdone : selected zpath (skipped ++ [e]) = selected zpath skipped := by simp [selected, hmatch]
      exact extractLoop_sat hs hv hstep rest (skipped ++ [e]) seenMatch helper log hsplit' (fun h => absurd h hsaw) hzip
        (hdone ▸ hI)

end

/-! ### The path of an entry -/

section

variable {σ : Type} {P : Ev → Prop} {s : σ} {err : Stop → σ → Prop} {cr : σ → Prop}

/-- The target directory, with a slash at its end. -/
def joined (targetDir : Path) : Path := if targetDir.getLast? = some slash then targetDir else targetDir ++ [slash]

def targetPath (targetDir : Path) (zpath : Bytes) (e : ZipEntry) : Path := joined targetDir ++ e.fileName.drop zpath.length

theorem joined_length_le (targetDir : Path) : (joined targetDir).length ≤ targetDir.length + 1 := by
  unfold joined
  split_ifs
  · exact Nat.le_succ _
  · simp

/-- The buffer begins with the target directory, once there is one. -/
structure HelperOk (targetDir : Path) (zpath : Bytes) (helper : MzPathHelper) : Prop where
  targetDir_eq : helper.targetDir = targetDir
  zipDir_eq : helper.zipDir = zpath
  fresh : helper.buf = none → helper.targetDirLen = targetDir.length
  begins : ∀ buf, helper.buf = some buf → helper.targetDirLen = (joined targetDir).length ∧ joined targetDir <+: buf

/-- No allocation fails, and the paths are not too long for one. -/
structure Allocates (P : Ev → Prop) (zipDir targetDir : Bytes) : Prop where
  succeeds : ∀ e, P e → e.allocFails = false
  zipDir_short : zipDir.length + 2 < 2 ^ 31
  targetDir_short : 2 * (targetDir.length + pathMax + 2) < 2 ^ 31

theorem malloc_sat {n : ℕ} {ok : Option Bytes → σ → Prop} (hcr : cr s)
    (hnone : ((∀ e, P e → e.allocFails = false) → 2 ^ 31 ≤ n) → ok none s) (hok : ∀ b : Bytes, b.length = n → ok (some b) s) :
    Sat P (malloc n : Run σ (Option Bytes)) s ok err cr := by
  refine ask_sat hcr fun e he _ => ?_
  split_ifs with h
  · refine hnone fun hP => ?_
    rcases h with h | h
    · rw [hP e he] at h
      cases h
    · exact h
  · exact hok _ (List.length_replicate)

theorem store_append {pre buf : Bytes} (data : Bytes) (hpre : pre <+: buf) (hroom : pre.length + data.length ≤ buf.length) :
    ∃ rest, store buf pre.length data = .ok (pre ++ data ++ rest) := by
  obtain ⟨t, rfl⟩ := hpre
  exact ⟨_, by rw [store, if_pos hroom, List.take_left]⟩

theorem growBuf_sat {targetDir : Path} {zpath : Bytes} (zipDir : Bytes) {helper : MzPathHelper} {e : ZipEntry}
    (hh : HelperOk targetDir zpath helper) (he : e.Named) (hcr : cr s) : Sat P (growBuf helper e) s
      (fun o s' => s' = s ∧ match o with
        | none => ¬ Allocates P zipDir targetDir
        | some buf => helper.targetDirLen + 1 + (e.fileName.length - zpath.length) + 1 ≤ buf.length ∧
          ∀ old, helper.buf = some old → old <+: buf) err cr := by
  have hname := length_lt_of_valid he.valid
  unfold growBuf
  rw [he.len, hh.zipDir_eq]
  dsimp only
  split_ifs with hshort
  · refine Sat.bind (malloc_sat hcr (fun hnone => ?_) fun new hnew => ?_)
    · refine Sat.pure ⟨rfl, fun halloc => ?_⟩
      have := hnone halloc.succeeds
      have := halloc.targetDir_short
      have hdir : helper.targetDirLen ≤ targetDir.length + 1 := by
        cases hb : helper.buf with
        | none => rw [hh.fresh hb]; exact Nat.le_succ _
        | some buf => rw [(hh.begins buf hb).1]; exact joined_length_le targetDir
      omega
    · refine Sat.pure ⟨rfl, ?_, fun old hold => ?_⟩
      · rw [List.length_append, List.length_drop]
        omega
      · rw [hold, Option.getD_some]
        exact ( List.prefix_append _ _)
  · refine Sat.pure ⟨rfl, ?_⟩
    cases hb : helper.buf with
    | none => simp [hb] at hshort
    | some buf =>
      refine ⟨by simpa [hb] using hshort, fun old hold => ?_⟩
      rw [Option.some.inj hold]

theorem startBuf_spec {targetDir : Path} {zpath buf : Bytes} {helper : MzPathHelper} {n : ℕ} (hh : HelperOk targetDir zpath helper)
    (hlen : helper.targetDirLen + 1 + n ≤ buf.length) (hold : ∀ old, helper.buf = some old → old <+: buf) :
    ∃ helper' buf', startBuf helper buf = .ok helper' ∧ helper'.buf = some buf' ∧ buf'.length = buf.length ∧
      HelperOk targetDir zpath helper' := by
  unfold startBuf
  cases hb : helper.buf with
  | some old =>
    obtain ⟨hdir, hpre⟩ := hh.begins old hb
    refine ⟨_, buf, if_neg (by simp), rfl, rfl, hh.targetDir_eq, hh.zipDir_eq, nofun, fun b hb' => ?_⟩
    rw [← Option.some.inj hb']
    exact ⟨hdir, hpre.trans (hold old hb)⟩
  | none =>
    have hdir := hh.fresh hb
    rw [if_pos rfl, hh.targetDir_eq]
    obtain ⟨rest, hstore⟩ := store_append targetDir ( List.nil_prefix (l := buf)) (by simp; omega)
    have hrest : (targetDir ++ rest).length = buf.length := by
      have h := hstore
      rw [store, if_pos (by simp; omega)] at h
      rw [← List.nil_append (targetDir ++ rest), ← List.append_assoc, ← Except.ok.inj h]
      simp
      omega
    rw [List.length_nil, List.nil_append] at hstore
    rw [hstore, ok_bind]
    by_cases hslash : targetDir.getLast? = some slash
    · have hj : joined targetDir = targetDir := if_pos hslash
      refine ⟨_, _, if_pos hslash, rfl, hrest, rfl, hh.zipDir_eq, nofun, fun b hb' => ?_⟩
      rw [← Option.some.inj hb', hj]
      exact ⟨hdir, List.prefix_append _ _⟩
    · have hj : joined targetDir = targetDir ++ [slash] := if_neg hslash
      obtain ⟨rest', hstore'⟩ := store_append [slash] (List.prefix_append targetDir rest)
        (by rw [hrest]; simp; omega)
      have hrest' : (targetDir ++ [slash] ++ rest').length = buf.length := by
        have h := hstore'
        rw [store, if_pos (by rw [hrest]; simp; omega)] at h
        rw [← Except.ok.inj h, ← hrest]
        simp at hrest ⊢
        omega
      rw [if_neg hslash, hdir, hstore', ok_bind]
      refine ⟨_, _, rfl, rfl, hrest', rfl, hh.zipDir_eq, nofun, fun b hb' => ?_⟩
      rw [← Option.some.inj hb', hj]
      exact ⟨by simp, List.prefix_append _ _⟩

theorem cstr_append : ∀ path rest : Bytes, cstr (path ++ [0] ++ rest) = cstr path
  | [], _ => by simp [cstr]
  | c :: path, rest => by
    have ih := cstr_append path rest
    rw [cstr, cstr, List.cons_append, List.cons_append, List.takeWhile_cons, List.takeWhile_cons]
    split_ifs
    · rw [← cstr, ← cstr, ih]
    · rfl

theorem targetPath_no_nul {targetDir : Path} {zpath : Bytes} {e : ZipEntry} (he : e.Named) (hnul : 0 ∉ targetDir) :
    0 ∉ targetPath targetDir zpath e := by
  have hslash : (0 : UInt8) ≠ slash := by decide
  have hj : 0 ∉ joined targetDir := by
    unfold joined
    split_ifs
    · exact hnul
    · simp [hnul, hslash]
  have hname : 0 ∉ e.fileName.drop zpath.length := by
    intro h
    exact ne_zero_of_valid he.valid 0 (List.mem_of_mem_drop h) rfl
  simp [targetPath, hj, hname]

/-- The target directory, a slash and the rest of the name, whatever was in the buffer. -/
theorem targetEntryPath_sat {targetDir : Path} {zpath : Bytes} (zipDir : Bytes) {helper : MzPathHelper} {e : ZipEntry}
    (hh : HelperOk targetDir zpath helper) (he : e.Named) (hnul : 0 ∉ targetDir) (hcr : cr s) :
    Sat P (targetEntryPath helper e) s (fun o s' => s' = s ∧ match o with
      | none => ¬ Allocates P zipDir targetDir
      | some (path, helper') => path = targetPath targetDir zpath e ∧ HelperOk targetDir zpath helper') err cr := by
  unfold targetEntryPath
  refine Sat.step (growBuf_sat zipDir hh he hcr) fun o s' ho => ?_
  obtain ⟨rfl, ho⟩ := ho
  cases o with
  | none => exact Sat.pure ⟨rfl, ho⟩
  | some buf =>
    obtain ⟨hlen, hold⟩ := ho
    obtain ⟨helper', buf', hstart, hbuf', hlen', hh'⟩ := startBuf_spec (n := e.fileName.length - zpath.length + 1) hh
      (by omega) hold
    obtain ⟨hdir, hpre⟩ := hh'.begins buf' hbuf'
    have hj := joined_length_le targetDir
    have hroom : (joined targetDir).length + (e.fileName.drop zpath.length ++ [0]).length ≤ buf'.length := by
      have hfirst : (joined targetDir).length ≤ helper.targetDirLen + 1 := by
        cases hb : helper.buf with
        | none => rw [hh.fresh hb]; exact hj
        | some old => rw [(hh.begins old hb).1]; exact Nat.le_succ _
      simp only [List.length_append, List.length_drop, List.length_singleton]
      omega
    obtain ⟨rest, hstore⟩ := store_append (e.fileName.drop zpath.length ++ [0]) hpre hroom
    dsimp only
    rw [hstart]
    refine Sat.bind (Sat.pure ?_)
    rw [hbuf', Option.getD_some, hdir, hh'.zipDir_eq, hstore]
    refine Sat.bind (Sat.pure (Sat.pure ⟨rfl, ?_, hh'.targetDir_eq, rfl, nofun, fun b hb => ?_⟩))
    · rw [← List.append_assoc (joined targetDir), ← targetPath, cstr_append, cstr_of_no_nul (targetPath_no_nul he hnul)]
    · rw [← Option.some.inj hb, List.append_assoc]
      exact ⟨rfl, List.prefix_append _ _⟩

end

/-! ### mzExtractRecursive -/

section

variable {z : Inflater} {a : Opened} {flags : Flags} {timestamp callback : Bool} {P : Ev → Prop} {zipDir : Bytes}
  {targetDir : Path} {I : List ZipEntry → Log → Prop} {Q : Bool → Log → Prop} {err : Stop → Log → Prop} {cr : Log → Prop}

/-- What the body does for an entry and its path. -/
def EntryOk (z : Inflater) (a : Opened) (flags : Flags) (timestamp callback : Bool) (P : Ev → Prop) (zpath : Bytes)
    (targetDir : Path) (I : List ZipEntry → Log → Prop) (Q : Bool → Log → Prop) (err : Stop → Log → Prop)
    (cr : Log → Prop) : Prop :=
  ∀ done e log, e ∈ a.entries → done ++ [e] <+: selected zpath a.entries → I done log →
    Sat P (extractTarget z a flags timestamp callback e (targetPath targetDir zpath e)) log (fun step log =>
      match step with
      | .next => I (done ++ [e]) log
      | .stop ok => Q ok log) err cr

theorem EntryOk.step {zpath : Bytes} (hv : ∀ e ∈ a.entries, e.Named) (hnul : 0 ∉ targetDir)
    (hentry : EntryOk z a flags timestamp callback P zpath targetDir I Q err cr)
    (hfail : ∀ done log, done <+: selected zpath a.entries → I done log → ¬ Allocates P zipDir targetDir → Q false log)
    (hcr : ∀ done log, done <+: selected zpath a.entries → I done log → cr log) :
    StepOk z a flags timestamp callback P zpath (fun done helper log => HelperOk targetDir zpath helper ∧ I done log) Q err
      cr := by
  intro done e helper log he _ hdone hzip hI
  have hpre : done <+: selected zpath a.entries := (List.prefix_append _ _).trans hdone
  refine Sat.step (targetEntryPath_sat zipDir hI.1 (hv e he) hnul (hcr done log hpre hI.2)) fun o log' ho => ?_
  obtain ⟨rfl, ho⟩ := ho
  cases o with
  | none => exact Sat.pure ⟨hzip, hfail done log' hpre hI.2 ho⟩
  | some t =>
    obtain ⟨targetFile, helper'⟩ := t
    obtain ⟨rfl, hh'⟩ := ho
    refine Sat.step (hentry done e log' he hdone hI.2) fun step log hstep => Sat.pure ⟨hh'.zipDir_eq, ?_⟩
    cases step with
    | next => exact ⟨hh', hstep⟩
    | stop ok => exact hstep

/-- **A rule for `mzExtractRecursive`**: what the body keeps holds of all entries below the directory. -/
theorem mzExtractRecursive_sat {log : Log} (hs : Sorted a.entries) (hv : ∀ e ∈ a.entries, e.Named) (hnul : 0 ∉ targetDir)
    (hentry : EntryOk z a flags timestamp callback P (canonicalDir zipDir) targetDir I Q err cr)
    (hfail : ∀ done log, done <+: selected (canonicalDir zipDir) a.entries → I done log →
      ¬ Allocates P zipDir targetDir → Q false log)
    (hcr : ∀ done log, done <+: selected (canonicalDir zipDir) a.entries → I done log → cr log)
    (hpaths : zipDir.head? = some slash ∨ targetDir.head? ≠ some slash → Q false log) (hI : I [] log) :
    Sat P (mzExtractRecursive z a zipDir targetDir flags timestamp callback) log
      (fun ok log => (ok = true ∧ I (selected (canonicalDir zipDir) a.entries) log) ∨ Q ok log) err cr := by
  unfold mzExtractRecursive
  split_ifs with hrel habs
  · exact Sat.pure (.inr (hpaths (.inl hrel)))
  · exact Sat.pure (.inr (hpaths (.inr habs)))
  refine Sat.bind (malloc_sat (hcr [] log List.nil_prefix hI) (fun hnone => ?_) fun _ _ => ?_)
  · refine Sat.pure (.inr (hfail [] log List.nil_prefix hI fun halloc => ?_))
    exact absurd (hnone halloc.succeeds) (Nat.not_le.mpr halloc.zipDir_short)
  · have hstart : HelperOk targetDir (canonicalDir zipDir) ⟨targetDir, canonicalDir zipDir, none, targetDir.length⟩ :=
      ⟨rfl, rfl, fun _ => rfl, nofun⟩
    refine (extractLoop_sat hs hv (hentry.step hv hnul hfail hcr) a.entries [] false _ log rfl nofun rfl ⟨hstart, hI⟩).imp ?_
    intro ok log hend
    rcases hend with ⟨hok, _, -, hI⟩ | hQ
    · exact .inl ⟨hok, hI⟩
    · exact .inr hQ

end

/-! ### DRY_RUN -/

theorem say_sat {P : Ev → Prop} {op : Op} {log : Log} {ok : Unit → Log → Prop} {err : Stop → Log → Prop} {cr : Log → Prop}
    (hcr : cr log) (hok : ok () (log ++ [op])) : Sat P (say op) log ok err cr := Sat.call (fun _ _ _ => hcr) fun _ _ _ => hok

theorem callBack_sat {P : Ev → Prop} {callback : Bool} {path : Path} {log : Log} {ok : Unit → Log → Prop}
    {err : Stop → Log → Prop} {cr : Log → Prop} (hcr : cr log)
    (hok : ok () (if callback then log ++ [.callback path] else log)) : Sat P (callBack callback path) log ok err cr := by
  unfold callBack
  cases callback with
  | true => exact say_sat hcr hok
  | false => exact Sat.pure hok

/-- The archive that `parseZipArchive` accepted, with any bytes in front of the names. -/
def opened (m : MemMapping) (pArchive : ZipArchive) (lead : ZipEntry → UInt8) : Opened := ⟨m.data, pArchive.pEntries, lead⟩

theorem opened_sorted {m : MemMapping} {pArchive : ZipArchive} (h : parseZipArchive m = .ok pArchive) :
    Sorted pArchive.pEntries ∧ ∀ e ∈ pArchive.pEntries, e.Named := by
  obtain ⟨off, n, cd, hend, hdir⟩ := parseZipArchive_eq_ok h
  obtain ⟨h0, hn⟩ := readEnd_pos hend
  obtain ⟨-, hs, hv, -⟩ := readDirectory_spec h0 hn hdir
  exact ⟨hs, hv⟩

/-- The callbacks for the entries below a directory. -/
def callbacks (zipDir : Bytes) (targetDir : Path) (entries : List ZipEntry) : Log :=
  (entries.filter fun e => (canonicalDir zipDir).isPrefixOf e.fileName).map fun e =>
    .callback (joined targetDir ++ e.fileName.drop (canonicalDir zipDir).length)

/-- **`DRY_RUN` calls back for the entries below the directory.** The entries are those a filter of all the names picks,
in their order, and each path is the target directory, a slash and the rest of the name. If an allocation fails, the
result is `false` and the last ones are missing. -/
theorem dryRun_callbacks {m : MemMapping} {pArchive : ZipArchive} (h : parseZipArchive m = .ok pArchive) (z : Inflater)
    (lead : ZipEntry → UInt8) {zipDir : Bytes} {targetDir : Path} (hzip : zipDir.head? ≠ some slash)
    (htarget : targetDir.head? = some slash) (hnul : 0 ∉ targetDir) (filesOnly timestamp : Bool) :
    (∀ P : Ev → Prop, Sat P (mzExtractRecursive z (opened m pArchive lead) zipDir targetDir ⟨filesOnly, true⟩ timestamp true) []
      (fun ok log => log <+: callbacks zipDir targetDir pArchive.pEntries ∧
        (ok = true → log = callbacks zipDir targetDir pArchive.pEntries) ∧ (Allocates P zipDir targetDir → ok = true))
      (fun _ _ => False) (fun log => log <+: callbacks zipDir targetDir pArchive.pEntries)) ∧
    pArchive.pEntries.Pairwise fun e e' => NameLe e.fileName e'.fileName := by
  obtain ⟨hs, hv⟩ := opened_sorted h
  refine ⟨fun P => ?_, hs⟩
  have hcalls : callbacks zipDir targetDir pArchive.pEntries = (selected (canonicalDir zipDir) pArchive.pEntries).map
      fun e => .callback (targetPath targetDir (canonicalDir zipDir) e) := by
    unfold callbacks selected targetPath
    congr 1
    refine List.filter_congr fun e he => ?_
    rw [Bool.eq_iff_iff, startsWith_iff (hv e he), List.isPrefixOf_iff_prefix]
  have hpart : ∀ done, done <+: selected (canonicalDir zipDir) pArchive.pEntries →
      (done.map fun e => Op.callback (targetPath targetDir (canonicalDir zipDir) e)) <+:
        callbacks zipDir targetDir pArchive.pEntries := by
    intro done hdone
    rw [hcalls]
    exact hdone.map _
  refine (mzExtractRecursive_sat (P := P)
    (I := fun done log => log = done.map fun e => .callback (targetPath targetDir (canonicalDir zipDir) e))
    (Q := fun ok log => ok = false ∧ ¬ Allocates P zipDir targetDir ∧ log <+: callbacks zipDir targetDir pArchive.pEntries)
    hs hv hnul ?_ ?_ ?_ ?_ rfl).mono ?_ (fun _ _ (h : False) => h)
      fun log (h : log <+: callbacks zipDir targetDir pArchive.pEntries) => h
  · rintro done e log - hdone rfl
    have hpre := hpart done (( List.prefix_append _ _).trans hdone)
    refine Sat.bind (callBack_sat hpre (Sat.pure ?_))
    simp
  · rintro done log hdone rfl halloc
    exact ⟨rfl, halloc, hpart done hdone⟩
  · rintro done log hdone rfl
    exact hpart done hdone
  · intro hbad
    exact absurd hbad (by simp [hzip, htarget])
  · rintro ok log (⟨rfl, rfl⟩ | ⟨rfl, halloc, hpre⟩)
    · exact ⟨hpart _ (List.prefix_refl _), fun _ => hcalls.symm, fun _ => rfl⟩
    · exact ⟨hpre, nofun, fun h => absurd h halloc⟩

def dirZip : MemMapping :=
  ⟨4096, pack [⟨lit "d/y", 0, 0, []⟩, ⟨lit "dx", 0, 0, []⟩, ⟨lit "d/", 0, 0, []⟩], page_pos, by decide +kernel⟩

/-- The callbacks for the directory of `dirZip`. -/
theorem dirZip_callbacks : ∃ pArchive, parseZipArchive dirZip = .ok pArchive ∧
    Sat (fun e => e.allocFails = false)
      (mzExtractRecursive abcInflater (opened dirZip pArchive fun _ => 0) (lit "d") (lit "/t") ⟨true, true⟩ true true) []
      (fun ok log => ok = true ∧ log = [.callback (lit "/t/"), .callback (lit "/t/y")]) (fun _ _ => False)
      (fun log => log <+: [.callback (lit "/t/"), .callback (lit "/t/y")]) := by
  obtain ⟨pArchive, h, hentries⟩ := entriesOf_eq_some (m := dirZip) (l := [⟨2, lit "d/", 97, 0, 0, 0, 0, 0, 0, 0⟩,
    ⟨3, lit "d/y", 33, 0, 0, 0, 0, 0, 0, 0⟩, ⟨2, lit "dx", 65, 0, 0, 0, 0, 0, 0, 0⟩]) (by decide +kernel)
  have halloc : Allocates (fun e => e.allocFails = false) (lit "d") (lit "/t") := ⟨fun _ h => h, by decide, by decide⟩
  have hcalls : callbacks (lit "d") (lit "/t") pArchive.pEntries = [.callback (lit "/t/"), .callback (lit "/t/y")] := by
    rw [hentries]
    decide
  have hrun := (dryRun_callbacks h abcInflater (fun _ => 0) (by decide : (lit "d").head? ≠ some slash)
    (by decide : (lit "/t").head? = some slash) (by decide) true true).1 fun e => e.allocFails = false
  rw [hcalls] at hrun
  exact ⟨pArchive, h, hrun.imp fun _ _ h => ⟨h.2.2 halloc, h.2.1 (h.2.2 halloc)⟩⟩

end Zip
end Recovery
