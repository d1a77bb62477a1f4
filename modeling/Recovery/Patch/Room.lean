/-
# Room for a file

What `MakeFreeSpaceOnCache` deletes, for a view of the directories and of `/proc` that does
not change. What counts is the room that is reported: `FreeSpaceForFile` multiplies into a
`size_t` and answers -1 if it fails, which as a `size_t` is more than anything.

Key definitions: `View`, `Deletable`, `Freed`, `Judged`.
Key theorems: `cleanup_expendable`, `space_exact`, `space_misjudged`.
-/
import Recovery.Patch.Frame
import Recovery.Patch.Check
import Recovery.Patch.Installed

namespace Recovery
namespace Patch

/-! ### Views -/

/-- What the calls that only look can see. -/
structure View where
  names : Path → Option (List Bytes)
  link : Path → Option Bytes
  regular : Path → Bool

/-- An event of a run in which nothing stops the machine and the view is this one. -/
def Ev.sees (W : View) (e : Ev) : Prop :=
  e.quiet ∧ e.names = W.names ∧ e.link = W.link ∧ e.regular = W.regular

def fdDir (pid : Bytes) : Path := lit "/proc/" ++ pid ++ lit "/fd/"

/-- One of the links under `/proc` names the file. -/
def View.IsOpen (W : View) (q : Path) : Prop :=
  ∃ procs pid fds fd, W.names (lit "/proc") = some procs ∧ pid ∈ procs ∧ (pid.all fun c => 0x30 ≤ c ∧ c ≤ 0x39) = true ∧
    W.names (fdDir pid) = some fds ∧ fd ∈ fds ∧ W.link (fdDir pid ++ fd) = some q

/-- An entry of one of the two directories. -/
def View.Lists (W : View) (q : Path) : Prop :=
  ∃ dir ∈ [lit "/cache", lit "/cache/recovery/otatest"], ∃ names, W.names dir = some names ∧
    ∃ name ∈ names, q = dir ++ lit "/" ++ name

/-- A file that may be deleted. -/
structure Deletable (W : View) (s : Sys) (q : Path) : Prop where
  listed : W.Lists q
  there : (s.files q).isSome = true
  regular : W.regular q = true
  not_copy : q ≠ cacheTempSource
  not_open : ¬ W.IsOpen q

/-! ### What is left of the list -/

section

variable {W : View} {P : Ev → Prop} {s : Sys}

theorem Ev.sees.readdir {e : Ev} (h : e.sees W) (p : Path) : (if e.readFails then none else e.names p) = W.names p := by
  rw [show e.readFails = false from h.1.1, h.2.1]
  rfl

theorem Ev.sees.readlink {e : Ev} (h : e.sees W) (p : Path) : (if e.readFails then none else e.link p) = W.link p := by
  rw [show e.readFails = false from h.1.1, h.2.2.1]
  rfl

theorem readdir_sees (p : Path) : Reads (Ev.sees W) (readdir p) s (fun r => r = W.names p) fun _ => False :=
  reads_call (fun _ => rfl) fun _ he => he.readdir p

theorem readlink_sees (p : Path) : Reads (Ev.sees W) (readlink p) s (fun r => r = W.link p) fun _ => False :=
  reads_call (fun _ => rfl) fun _ he => he.readlink p

theorem eliminateLinks_sees (path : Path) : ∀ (names : List Bytes) (files : List (Option Path)),
    Reads (Ev.sees W) (eliminateLinks path names files) s
      (fun r => ∀ q, some q ∈ r → some q ∈ files ∧ ((lit "/cache/").isPrefixOf q = true →
        ∀ name ∈ names, W.link (path ++ name) ≠ some q))
      fun _ => False
  | [], files => Reads.pure fun q hq => ⟨hq, by simp⟩
  | name :: rest, files => by
    refine (readlink_sees (path ++ name)).step fun link hlink => ?_
    subst hlink
    cases hlink : W.link (path ++ name) with
    | none =>
      exact (eliminateLinks_sees path rest files).mono (fun r hr q hq =>
        ⟨(hr q hq).1, fun hcache => List.forall_mem_cons.mpr ⟨by simp [hlink], (hr q hq).2 hcache⟩⟩) fun _ h => h
    | some link =>
      refine (eliminateLinks_sees path rest _).mono (fun r hr q hq => ?_) fun _ h => h
      obtain ⟨hfiles, hrest⟩ := hr q hq
      have hkept : some q ∈ files ∧ ((lit "/cache/").isPrefixOf q = true → link ≠ q) := by
        split at hfiles
        · obtain ⟨f, hf, hfq⟩ := List.mem_map.mp hfiles
          split at hfq
          · cases hfq
          · rename_i hne
            subst hfq
            exact ⟨hf, fun _ heq => hne (by rw [heq])⟩
        · rename_i hcache
          exact ⟨hfiles, fun hq heq => hcache (by rw [heq]; exact hq)⟩
      refine ⟨hkept.1, fun hcache => List.forall_mem_cons.mpr ⟨?_, hrest hcache⟩⟩
      rw [hlink]
      exact fun heq => hkept.2 hcache (Option.some.inj heq)

theorem eliminateProcesses_sees : ∀ (names : List Bytes) (files : List (Option Path)),
    Reads (Ev.sees W) (eliminateProcesses names files) s
      (fun r => ∀ q, some q ∈ r → some q ∈ files ∧ ((lit "/cache/").isPrefixOf q = true →
        ∀ pid ∈ names, (pid.all fun c => 0x30 ≤ c ∧ c ≤ 0x39) = true → ∀ fds, W.names (fdDir pid) = some fds →
          ∀ fd ∈ fds, W.link (fdDir pid ++ fd) ≠ some q)) fun _ => False
  | [], files => Reads.pure fun q hq => ⟨hq, by simp⟩
  | name :: rest, files => by
    unfold eliminateProcesses
    split
    · refine (readdir_sees (fdDir name)).step fun fds hfds => ?_
      subst hfds
      cases hnames : W.names (fdDir name) with
      | none =>
        exact (eliminateProcesses_sees rest files).mono (fun r hr q hq => ⟨(hr q hq).1, fun hcache =>
          List.forall_mem_cons.mpr ⟨fun _ fds hfds => absurd hfds (by simp [hnames]), (hr q hq).2 hcache⟩⟩) fun _ h => h
      | some fds =>
        refine (eliminateLinks_sees (fdDir name) fds files).step fun files' hfiles' => ?_
        refine (eliminateProcesses_sees rest files').mono (fun r hr q hq => ?_) fun _ h => h
        obtain ⟨hmem, hrest⟩ := hr q hq
        refine ⟨(hfiles' q hmem).1, fun hcache => List.forall_mem_cons.mpr ⟨fun _ fds' hfds' => ?_, hrest hcache⟩⟩
        obtain rfl : fds = fds' := Option.some.inj (hnames.symm.trans hfds')
        exact (hfiles' q hmem).2 hcache
    · rename_i hdigits
      exact (eliminateProcesses_sees rest files).mono (fun r hr q hq => ⟨(hr q hq).1, fun hcache =>
        List.forall_mem_cons.mpr ⟨fun hd => absurd hd hdigits, (hr q hq).2 hcache⟩⟩) fun _ h => h

theorem View.Lists.cache {q : Path} (h : W.Lists q) : (lit "/cache/").isPrefixOf q = true := by
  obtain ⟨dir, hdir, names, -, name, -, rfl⟩ := h
  rw [ List.isPrefixOf_iff_prefix]
  rcases List.mem_pair.mp hdir with rfl | rfl
  · exact List.prefix_append _ _
  · exact (List.prefix_append (lit "/cache/") (lit "recovery/otatest/")).trans (List.prefix_append _ name)

/-- **Only what may be deleted is on the list.** -/
theorem findExpendableFiles_sees :
    Reads (Ev.sees W) findExpendableFiles s (fun r => ∀ names, r = some names → ∀ q, some q ∈ names →
      Deletable W s q) fun _ => False := by
  have hfind : Reads (Ev.sees W) (expendableDirs [lit "/cache", lit "/cache/recovery/otatest"]) s
      (fun found => ∀ q ∈ found, W.Lists q ∧ (s.files q).isSome = true ∧ W.regular q = true ∧
        q ≠ cacheTempSource) fun _ => False := by
    refine expendableDirs_reads fun dir hdir names hnames name hname hcopy hregular hthere => ?_
    obtain ⟨e, he, hnames⟩ := hnames
    obtain ⟨e', he', hregular⟩ := hregular
    exact ⟨⟨dir, hdir, names, he.2.1 ▸ hnames, name, hname, rfl⟩, hthere, he'.2.2.2 ▸ hregular, hcopy⟩
  refine hfind.step fun files hfiles => ?_
  refine (readdir_sees (lit "/proc")).step fun procs hprocs => ?_
  subst hprocs
  cases hprocs : W.names (lit "/proc") with
  | none => exact Reads.pure (by simp)
  | some procs =>
    refine (eliminateProcesses_sees procs (files.map some)).step fun files' hfiles' => Reads.pure fun names hnames q hq => ?_
    obtain rfl : files' = names := Option.some.inj hnames
    obtain ⟨hmem, hopen⟩ := hfiles' q hq
    obtain ⟨q', hq', heq⟩ := List.mem_map.mp hmem
    obtain rfl : q' = q := Option.some.inj heq
    obtain ⟨hlisted, hthere, hregular, hcopy⟩ := hfiles q' hq'
    refine ⟨hlisted, hthere, hregular, hcopy, ?_⟩
    rintro ⟨procs', pid, fds, fd, hprocs', hpid, hdigits, hfds, hfd, hlink⟩
    obtain rfl : procs = procs' := Option.some.inj (hprocs.symm.trans hprocs')
    exact hopen hlisted.cache pid hpid hdigits fds hfds fd hfd hlink

end

/-! ### The deletions -/

def unlinked (e : Ev) (q : Path) (s : Sys) : Sys := match s.files q with
  | some _ => if e.fails then s else s.setFile q none
  | none => s

/-- The files are deleted by the calls from number `n` on, each while the last report is
below what is needed. -/
inductive Freed (ev : ℕ → Ev) (needed : ℕ) : ℕ → ℕ → Sys → List Path → ℕ → ℕ → Sys → Prop
  | done (n free : ℕ) (s : Sys) : Freed ev needed n free s [] n free s
  | delete {n free n' free' : ℕ} {s s' : Sys} {q : Path} {rest : List Path} (hfree : free < needed)
      (h : Freed ev needed (n + 2) (ev (n + 1)).reported (unlinked (ev n) q s) rest n' free' s') :
        Freed ev needed n free s (q :: rest) n' free' s'

section

variable {ev : ℕ → Ev} (hev : ∀ i, (ev i).halt = false)

include hev

theorem freeSpaceForFile_run (p : Path) (n : ℕ) (s : Sys) : freeSpaceForFile p ev n s = .ok (ev n).reported (n + 1) s := by
  have hstatfs : statfs p ev n s = .ok (if (ev n).fails then none else some ((ev n).bsize, (ev n).bfree)) (n + 1) s := by
    unfold statfs Crash.call
    rw [if_neg (by simpa [machine] using hev n)]
  show Crash.Prog.bind (statfs p) _ ev n s = _
  rw [Crash.Prog.bind, hstatfs]
  unfold Ev.reported
  cases (ev n).fails <;> rfl

theorem unlink_run (q : Path) (n : ℕ) (s : Sys) : ∃ r, unlink q ev n s = .ok r (n + 1) (unlinked (ev n) q s) := by
  unfold unlink onFile Crash.call unlinked
  rw [if_neg (by simpa [machine] using hev n)]
  dsimp only
  cases s.files q with
  | none => exact ⟨_, rfl⟩
  | some f => cases (ev n).fails <;> exact ⟨_, rfl⟩

theorem deleteUntil_run (needed : ℕ) : ∀ (names : List (Option Path)) (free n : ℕ) (s : Sys), ∃ paths free' n' s',
    deleteUntil needed names free ev n s = .ok free' n' s' ∧ Freed ev needed n free s paths n' free' s' ∧ ∀ q ∈ paths, some q ∈ names
  | [], free, n, s => ⟨[], free, n, s, rfl, .done n free s, by simp⟩
  | none :: rest, free, n, s => by
    unfold deleteUntil
    split
    · obtain ⟨paths, free', n', s', hrun, hfreed, hmem⟩ := deleteUntil_run needed rest free n s
      exact ⟨paths, free', n', s', hrun, hfreed, fun q hq => List.mem_cons_of_mem _ (hmem q hq)⟩
    · exact ⟨[], free, n, s, rfl, .done n free s, by simp⟩
  | some q :: rest, free, n, s => by
    unfold deleteUntil
    split
    · rename_i hfree
      obtain ⟨r, hunlink⟩ := unlink_run hev q n s
      obtain ⟨paths, free', n', s', hrun, hfreed, hmem⟩ := deleteUntil_run needed rest
        (ev (n + 1)).reported (n + 2) (unlinked (ev n) q s)
      refine ⟨q :: paths, free', n', s', ?_, .delete hfree hfreed, ?_⟩
      · show Crash.Prog.bind (unlink q) _ ev n s = _
        rw [Crash.Prog.bind, hunlink]
        show Crash.Prog.bind (freeSpaceForFile (lit "/cache")) _ ev (n + 1) (unlinked (ev n) q s) = _
        rw [Crash.Prog.bind, freeSpaceForFile_run hev]
        exact hrun
      · intro p hp
        rcases List.mem_cons.mp hp with rfl | hp
        · exact List.mem_cons_self
        · exact List.mem_cons_of_mem _ (hmem p hp)
    · exact ⟨[], free, n, s, rfl, .done n free s, by simp⟩

end

/-- `MakeFreeSpaceOnCache` asks for the room, deletes some files and answers by the last report. -/
theorem makeFreeSpaceOnCache_run {P : Ev → Prop} {K : Path → Prop} {s : Sys} (hP : ∀ e, P e → e.halt = false)
    (hfind : Reads P findExpendableFiles s (fun r => ∀ names, r = some names → ∀ q, some q ∈ names → K q) fun _ => False)
    {ev : ℕ → Ev} (hev : ∀ i, P (ev i)) (needed n : ℕ) :
    ∃ r m paths free' n' s', makeFreeSpaceOnCache needed ev n s = .ok r n' s' ∧ (m = n + 1 ∨ (ev n).reported < needed) ∧
      Freed ev needed m (ev n).reported s paths n' free' s' ∧ (∀ q ∈ paths, K q) ∧ (r = true ↔ needed ≤ free') := by
  have hhalt : ∀ i, (ev i).halt = false := fun i => hP _ (hev i)
  show ∃ r m paths free' n' s', Crash.Prog.bind (freeSpaceForFile (lit "/cache")) _ ev n s = _ ∧ _
  rw [Crash.Prog.bind, freeSpaceForFile_run hhalt]
  dsimp only
  by_cases henough : needed ≤ (ev n).reported
  · rw [if_pos henough]
    exact ⟨true, n + 1, [], _, n + 1, s, rfl, .inl rfl, .done _ _ s, by simp, by simp [henough]⟩
  · have hless : (ev n).reported < needed := Nat.lt_of_not_le henough
    rw [if_neg henough]
    obtain ⟨found, m, hrunFind, hnames⟩ := hfind.runs hP (fun _ h => h) hev (n + 1)
    show ∃ r m paths free' n' s', Crash.Prog.bind findExpendableFiles _ ev (n + 1) s = _ ∧ _
    rw [Crash.Prog.bind, hrunFind]
    dsimp only
    have hnothing : ∃ r m' paths free' n' s', (pure false : Run Bool) ev m s = .ok r n' s' ∧ (m' = n + 1 ∨ (ev n).reported < needed) ∧
        Freed ev needed m' (ev n).reported s paths n' free' s' ∧ (∀ q ∈ paths, K q) ∧ (r = true ↔ needed ≤ free') :=
      ⟨false, m, [], _, m, s, rfl, .inr hless, .done _ _ s, by simp, by simp [henough]⟩
    rcases found with _ | _ | ⟨name, rest⟩
    · exact hnothing
    · exact hnothing
    · obtain ⟨paths, free', n', s', hrun, hfreed, hmem⟩ := deleteUntil_run hhalt needed (name :: rest) (ev n).reported m s
      refine ⟨decide (needed ≤ free'), m, paths, free', n', s', ?_, .inr hless, hfreed, fun q hq =>
        hnames _ rfl q (hmem q hq), by simp⟩
      show Crash.Prog.bind (deleteUntil needed (name :: rest) (ev n).reported) _ ev m s = _
      rw [Crash.Prog.bind, hrun]
      rfl

/-- **Only expendable files are deleted, and no more than needed.** The first report is that of the first call; each file that is deleted may be,
and is deleted while the last report is below what is needed; and the answer is 0 exactly if the last report is not. -/
theorem cleanup_expendable (W : View) (ev : ℕ → Ev) (hev : ∀ i, (ev i).sees W) (needed : ℕ) (s : Sys) :
    ∃ r m paths free' n' s', makeFreeSpaceOnCache needed ev 0 s = .ok r n' s' ∧
      Freed ev needed m (ev 0).reported s paths n' free' s' ∧
      (∀ q ∈ paths, Deletable W s q) ∧ (r = true ↔ needed ≤ free') := by
  obtain ⟨r, m, paths, free', n', s', hrun, -, hrest⟩ :=
    makeFreeSpaceOnCache_run (P := Ev.sees W) (fun e he => he.1.2) (findExpendableFiles_sees (s := s)) hev needed 0
  exact ⟨r, m, paths, free', n', s', hrun, hrest⟩

def smallView : View where
  names p := if p = lit "/cache" then some [lit "a", lit "b"] else if p = lit "/proc" then some [lit "7", lit "self"]
    else if p = fdDir (lit "7") then some [lit "3"] else none
  link p := if p = fdDir (lit "7") ++ lit "3" then some (lit "/cache/a") else none
  regular _ := true

def smallEv : Ev := { Ev.fine with bfree := 1, names := smallView.names, link := smallView.link }

def smallCache : Sys := Sys.ofFiles [(lit "/cache/a", ⟨[], 0o644, 0, 0, true, true⟩), (lit "/cache/b", ⟨[], 0o644, 0, 0, true, true⟩)]

/-- The other one is deleted, and that does not help. -/
theorem small_cleanup :
    ∃ m paths free' n' s', makeFreeSpaceOnCache 5000 (fun _ => smallEv) 0 smallCache = .ok false n' s' ∧
      Freed (fun _ => smallEv) 5000 m 4096 smallCache paths n' free' s' ∧ ∀ q ∈ paths,
        Deletable smallView smallCache q ∧ q ≠ lit "/cache/a" := by
  obtain ⟨r, m, paths, free', n', s', hrun, hfreed, hpaths, hr⟩ :=
    cleanup_expendable smallView (fun _ => smallEv) (fun _ => ⟨⟨rfl, rfl⟩, rfl, rfl, rfl⟩) 5000 smallCache
  have hdone : (makeFreeSpaceOnCache 5000 (fun _ => smallEv) 0 smallCache).returned.map Prod.fst = some false := by decide +kernel
  rw [hrun] at hdone
  obtain rfl : r = false := Option.some.inj hdone
  have hopen : smallView.IsOpen (lit "/cache/a") := ⟨[lit "7", lit "self"], lit "7", [lit "3"],
    lit "3", rfl, by simp, rfl, rfl, by simp, rfl⟩
  exact ⟨m, paths, free', n', s', hrun, hfreed, fun q hq => ⟨hpaths q hq, fun heq => (hpaths q hq).not_open (heq ▸ hopen)⟩⟩

/-! ### The decisions -/

def Ev.free (e : Ev) : ℕ := e.bsize * e.bfree

theorem reported_le {e : Ev} (h : e.fails = false) : e.reported ≤ e.free := by
  unfold Ev.reported Ev.free
  rw [h]
  exact Nat.mod_le _ _

theorem reported_eq {e : Ev} (h : e.fails = false) : e.reported = e.free % 2 ^ 32 := by
  unfold Ev.reported Ev.free
  rw [h]
  rfl

/-- The decision for a target, by the answer to `statfs` that it rests on, is right: it is
only made with that much room. -/
def DecidesRightly (targetSize : ℕ) (e : Ev) : Prop :=
  EnoughSpace targetSize e.reported → e.fails = false ∧ 256 * 1024 < e.free ∧ 3 * targetSize < 2 * e.free

/-- `statfs` did not fail, and three times the target either fits into a `size_t`, or is
less than twice the room there is, or leaves less than that of the report where it wraps
around. -/
def Judged (targetSize : ℕ) (e : Ev) : Prop :=
  e.fails = false ∧ (3 * targetSize < 2 ^ 32 ∨ 3 * targetSize < 2 * e.free ∨ e.free % 2 ^ 32 ≤ 256 * 1024 ∨
    e.free % 2 ^ 32 ≤ 3 * targetSize % 2 ^ 32 / 2)

theorem decidesRightly_iff (targetSize : ℕ) (e : Ev) : DecidesRightly targetSize e ↔ Judged targetSize e := by
  unfold DecidesRightly Judged EnoughSpace
  cases hfails : e.fails with
  | true =>
    -- the answer -1 is more than anything
    have hmost : e.reported = 2 ^ 32 - 1 := if_pos hfails
    rw [hmost]
    refine iff_of_false (fun h => ?_) fun h => Bool.noConfusion h.1
    exact Bool.noConfusion (h ⟨by norm_num, by omega⟩).1
  | false =>
    rw [reported_eq hfails, Nat.mul_comm targetSize 3]
    have hle := Nat.mod_le e.free (2 ^ 32)
    constructor
    · intro h
      refine ⟨rfl, ?_⟩
      by_contra hno
      push Not at hno
      have hright := h ⟨hno.2.2.1, hno.2.2.2⟩
      omega
    · rintro ⟨-, hcase⟩ ⟨hmin, hmargin⟩
      exact ⟨rfl, by omega, by omega⟩

/-- `GenerateTarget` takes its first answer to `statfs` for the decision. -/
theorem generateFile_decides {ev : ℕ → Ev} (hhalt : ∀ i, (ev i).halt = false) (cod : Codecs)
    (lib : Lib) (a : Args) (targetSha1 : Bytes)
    (fromSource : Bool) (source : FileContents) (patch : Value) (n : ℕ) (s : Sys) :
    generateFile cod lib a targetSha1 fromSource source patch ev n s =
      (if EnoughSpace a.targetSize (ev n).reported then roomyAttempt cod lib a targetSha1 fromSource source patch
        else lowSpace cod lib a targetSha1 fromSource source patch) ev (n + 1) s := by
  show Crash.Prog.bind (freeSpaceForFile (targetFs a)) _ ev n s = _
  rw [Crash.Prog.bind, freeSpaceForFile_run hhalt]

theorem Freed.last {ev : ℕ → Ev} {needed m free n' free' : ℕ} {s s' : Sys} {paths : List Path}
    (h : Freed ev needed m free s paths n' free' s') :
    (n' = m ∧ free' = free) ∨ free' = (ev (n' - 1)).reported := by
  induction h with
  | done n free s => exact .inl ⟨rfl, rfl⟩
  | delete _ _ ih =>
    rcases ih with ⟨rfl, rfl⟩ | hlast
    · exact .inr rfl
    · exact .inr hlast

theorem makeFreeSpaceOnCache_true {ev : ℕ → Ev} (hhalt : ∀ i, (ev i).halt = false) {needed n n' : ℕ} {s s' : Sys}
    (hrun : makeFreeSpaceOnCache needed ev n s = .ok true n' s') : needed ≤ (ev (n' - 1)).reported := by
  obtain ⟨r, m, paths, free', n₁, s₁, hrun₁, hfirst, hfreed, -, hr⟩ :=
    makeFreeSpaceOnCache_run (P := fun e => e.halt = false) (fun _ h => h) (findExpendableFiles_reads (s := s)) hhalt needed n
  obtain ⟨rfl, rfl, rfl⟩ : true = r ∧ n' = n₁ ∧ s' = s₁ := by simpa using hrun.symm.trans hrun₁
  have henough := hr.mp rfl
  rcases hfreed.last with ⟨rfl, rfl⟩ | hlast
  · rcases hfirst with rfl | hless
    · exact henough
    · omega
  · exact hlast ▸ henough

/-- **The decisions are right** about the room there is just where `statfs` did not fail and the margin does not wrap around to less
than the report: for the attempt of `GenerateTarget` that needs room for both files, and for `MakeFreeSpaceOnCache`. -/
theorem space_exact (ev : ℕ → Ev) (hhalt : ∀ i, (ev i).halt = false) :
    (∀ cod lib a targetSha1 fromSource source patch n s,
      generateFile cod lib a targetSha1 fromSource source patch ev n s =
        (if EnoughSpace a.targetSize (ev n).reported then roomyAttempt cod lib a targetSha1 fromSource source patch
          else lowSpace cod lib a targetSha1 fromSource source patch) ev (n + 1) s ∧
      (DecidesRightly a.targetSize (ev n) ↔ Judged a.targetSize (ev n))) ∧
    ∀ needed n s n' s', makeFreeSpaceOnCache needed ev n s = .ok true n' s' →
      ((ev (n' - 1)).fails = false ∧ needed ≤ (ev (n' - 1)).free ↔ (ev (n' - 1)).fails = false) := by
  refine ⟨fun cod lib a targetSha1 fromSource source patch n s =>
    ⟨generateFile_decides hhalt cod lib a targetSha1 fromSource source patch n s, decidesRightly_iff _ _⟩, ?_⟩
  intro needed n s n' s' hrun
  refine ⟨And.left, fun hfails => ⟨hfails, ?_⟩⟩
  exact (makeFreeSpaceOnCache_true hhalt hrun).trans (reported_le hfails)

/-- With 1 GiB free, there is room for a target of 600 MiB and for 1 GiB on the cache. -/
theorem gib_exact : EnoughSpace (600 * 2 ^ 20) Ev.fine.reported ∧
    256 * 1024 < Ev.fine.free ∧ 3 * (600 * 2 ^ 20) < 2 * Ev.fine.free ∧ 2 ^ 30 ≤ Ev.fine.free := by
  obtain ⟨hdecide, hcache⟩ := space_exact (fun _ => Ev.fine) fun _ => rfl
  have henough : EnoughSpace (600 * 2 ^ 20) Ev.fine.reported := by decide +kernel
  let args : Args := { fileArgs [oldSha1Str] [some abcPatch] with targetSize := 600 * 2 ^ 20 }
  obtain ⟨-, hright⟩ := hdecide xyCodecs abcLib args [] true args.stack abcPatch 0 copyOnly
  obtain ⟨-, hmin, hmargin⟩ := hright.mpr ⟨rfl, .inl (by norm_num [args])⟩ henough
  exact ⟨henough, hmin, hmargin, ((hcache (2 ^ 30) 0 copyOnly 1 copyOnly rfl).mpr rfl).2⟩

def Ev.broken : Ev := { Ev.fine with fails := true }

/-- Little more than 1 GiB is free. -/
def Ev.gib : Ev := { Ev.fine with bfree := 2 ^ 18 + 1 }

/-- **Otherwise not.** A `statfs` that fails is taken for room enough, in both places; and a target of 2 GiB is taken to fit where little more
than 1 GiB is free. -/
theorem space_misjudged : ¬ DecidesRightly (600 * 2 ^ 20) Ev.broken ∧
    makeFreeSpaceOnCache (2 ^ 31) (fun _ => Ev.broken) 0 copyOnly = .ok true 1 copyOnly ∧ ¬ DecidesRightly (2 ^ 31) Ev.gib := by
  refine ⟨fun h => Bool.noConfusion (h (by decide +kernel)).1, rfl, fun h => ?_⟩
  exact absurd (h (by decide +kernel)).2.2 (by decide +kernel)

end Patch
end Recovery
