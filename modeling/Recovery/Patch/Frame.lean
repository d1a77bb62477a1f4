/-
# What a run of applypatch can change

`Touches A P p s ok err`: every run of `p` changes no file outside `A` and no partition, and
so does one that crashes.

Key theorems: `saveFileContents_touches`, `makeFreeSpaceOnCache_touches`.
-/
import Recovery.Patch.FreeCache
import Recovery.Patch.Flash

namespace Recovery
namespace Patch

def Changes (A : Path → Prop) (s s' : Sys) : Prop := s'.partitions = s.partitions ∧ ∀ q, ¬ A q → s'.files q = s.files q

section

variable {A B : Path → Prop} {s s' s'' : Sys}

theorem Changes.refl (A : Path → Prop) (s : Sys) : Changes A s s := ⟨rfl, fun _ _ => rfl⟩

theorem Changes.trans (h : Changes A s s') (h' : Changes A s' s'') : Changes A s s'' :=
  ⟨h'.1.trans h.1, fun q hq => (h'.2 q hq).trans (h.2 q hq)⟩

theorem Changes.mono (h : Changes A s s') (hAB : ∀ q, A q → B q) : Changes B s s' :=
  ⟨h.1, fun q hq => h.2 q fun ha => hq (hAB q ha)⟩

theorem changes_setFile {p : Path} {f : Option File} (hp : A p) : Changes A s (s.setFile p f) :=
  ⟨rfl, fun q hq => Function.update_of_ne (by rintro rfl; exact hq hp) _ _⟩

end

@[simp] theorem setFile_files (s : Sys) (p : Path) (f : Option File) : (s.setFile p f).files p = f := by
  simp [Sys.setFile]

theorem setFile_files_of_ne (s : Sys) {p q : Path} (f : Option File) (h : q ≠ p) : (s.setFile p f).files q = s.files q := by
  simp [Sys.setFile, h]

/-! ### Runs that touch some files -/

/-- Every run changes only files in `A`, and ends in one of the ways described. -/
def Touches {α : Type} (A : Path → Prop) (P : Ev → Prop) (p : Run α) (s : Sys) (ok : α → Sys → Prop)
    (err : Failure → Sys → Prop) : Prop :=
  Crash.Sat P p s (fun a s' => Changes A s s' ∧ ok a s') (fun e s' => Changes A s s' ∧ err e s')
    fun s' => ∃ s₁, Changes A s s₁ ∧ Lost P s₁ s'

section

variable {α β : Type} {A B : Path → Prop} {P : Ev → Prop} {p : Run α} {s : Sys} {ok ok' : α → Sys → Prop}
  {err err' : Failure → Sys → Prop}

theorem Touches.pure {a : α} (h : ok a s) : Touches A P (pure a) s ok err := Crash.Sat.pure ⟨.refl A s, h⟩

theorem Touches.fail {e : Failure} (h : err e s) : Touches A P (Crash.fail e : Run α) s ok err :=
  Crash.Sat.fail ⟨.refl A s, h⟩

theorem Touches.failIf {c : Prop} [Decidable c] {e : Failure} {ok : Unit → Sys → Prop} (hc : c → err e s)
    (hn : ¬ c → ok () s) : Touches A P (Crash.failIf c e) s ok err :=
  Crash.Sat.failIf (fun h => ⟨.refl A s, hc h⟩) fun h => ⟨.refl A s, hn h⟩

theorem Touches.guard {c : Prop} [Decidable c] {e : Failure} {f : Unit → Run β} {okb : β → Sys → Prop} (hc : c → err e s)
    (hn : ¬ c → Touches A P (f ()) s okb err) : Touches A P (Crash.failIf c e >>= f) s okb err :=
  Crash.Sat.guard (fun h => ⟨.refl A s, hc h⟩) hn

theorem Touches.mono (h : Touches A P p s ok err) (hAB : ∀ q, A q → B q) (hok : ∀ a s', Changes A s s' → ok a s' → ok' a s')
    (herr : ∀ e s', Changes A s s' → err e s' → err' e s') : Touches B P p s ok' err' :=
  Crash.Sat.mono h (fun a s' h => ⟨h.1.mono hAB, hok a s' h.1 h.2⟩) (fun e s' h => ⟨h.1.mono hAB, herr e s' h.1 h.2⟩)
    fun _ ⟨s₁, h, hl⟩ => ⟨s₁, h.mono hAB, hl⟩

theorem Touches.after {s' : Sys} (hs : Changes A s s') (h : Touches A P p s' ok err) :
    Crash.Sat P p s' (fun a s'' => Changes A s s'' ∧ ok a s'') (fun e s'' => Changes A s s'' ∧ err e s'')
      fun s'' => ∃ s₁, Changes A s s₁ ∧ Lost P s₁ s'' :=
  Crash.Sat.mono h (fun _ _ h => ⟨hs.trans h.1, h.2⟩) (fun _ _ h => ⟨hs.trans h.1, h.2⟩)
    fun _ ⟨s₁, h, hl⟩ => ⟨s₁, hs.trans h, hl⟩

theorem Touches.bind {f : α → Run β} {okb : β → Sys → Prop} (h : Touches A P p s ok err)
    (hf : ∀ a s', Changes A s s' → ok a s' → Touches A P (f a) s' okb err) : Touches A P (p >>= f) s okb err :=
  Crash.Sat.step h fun a s' h => (hf a s' h.1 h.2).after h.1

theorem Touches.step {f : α → Run β} {okb : β → Sys → Prop} (h : Touches A P p s ok fun _ _ => False)
    (hf : ∀ a s', Changes A s s' → ok a s' → Touches A P (f a) s' okb err) : Touches A P (p >>= f) s okb err :=
  (h.mono (fun _ h => h) (fun _ _ _ h => h) fun _ _ _ h => h.elim).bind hf

theorem touches_call {f : Ev → Sys → α × Sys} (hs : ∀ e, P e → Changes A s (f e s).2)
    (h : ∀ e, P e → ok (f e s).1 (f e s).2) : Touches A P (Crash.call machine f) s ok err :=
  sat_call (fun _ hl => ⟨s, .refl A s, hl⟩) fun e he => ⟨hs e he, h e he⟩

theorem Reads.touches {okr : α → Prop} {errr : Failure → Prop} (h : Reads P p s okr errr) :
    Touches A P p s (fun a s' => s' = s ∧ okr a) fun e s' => s' = s ∧ errr e :=
  Crash.Sat.mono h (fun _ _ h => ⟨h.1 ▸ .refl A s, h⟩) (fun _ _ h => ⟨h.1 ▸ .refl A s, h⟩) fun _ h => ⟨s, .refl A s, h⟩

theorem Touches.keeps {K : Sys → Prop} (h : Touches A P p s ok err) (hA : ∀ s', Changes A s s' → K s')
    (hl : ∀ s' s'', K s' → Lost P s' s'' → K s'') :
    Crash.Sat P p s (fun a s' => K s' ∧ Changes A s s' ∧ ok a s') (fun e s' => K s' ∧ Changes A s s' ∧ err e s')
      fun s' => K s' ∧ Halts P :=
  Crash.Sat.mono h (fun _ s' h => ⟨hA s' h.1, h⟩) (fun _ s' h => ⟨hA s' h.1, h⟩)
    fun s'' ⟨s₁, h, hl'⟩ => ⟨hl s₁ s'' (hA s₁ h) hl', hl'.halts⟩

end

/-! ### One file -/

/-- The events are all of calls that work: those that write get on. -/
def Works (P : Ev → Prop) : Prop := ∀ e, P e → e.fails = false ∧ 0 < e.count

def HasBytes (s : Sys) (p : Path) (b : Bytes) : Prop := ∃ f, s.files p = some f ∧ f.data = b ∧ f.readable = true

/-- A file with these contents that a crash does not hurt. -/
def HasSynced (s : Sys) (p : Path) (b : Bytes) : Prop :=
  ∃ f, s.files p = some f ∧ f.data = b ∧ f.readable = true ∧ f.synced = true

theorem HasSynced.bytes {s : Sys} {p : Path} {b : Bytes} (h : HasSynced s p b) : HasBytes s p b := by
  obtain ⟨f, hf, hd, hr, -⟩ := h
  exact ⟨f, hf, hd, hr⟩

section

variable {P : Ev → Prop} {s : Sys} {p : Path} {b : Bytes}

theorem openTrunc_touches : Touches (· = p) P (openTrunc p) s
    (fun r s' => (r = true → HasBytes s' p []) ∧ (Works P → r = true)) fun _ _ => False := by
  refine touches_call (fun e _ => ?_) fun e he => ?_
  · split_ifs
    · exact .refl _ _
    · exact changes_setFile rfl
  · split_ifs with hf
    · exact ⟨by simp, fun hw => by simp [(hw e he).1] at hf⟩
    · refine ⟨fun _ => ?_, fun _ => rfl⟩
      cases s.files p with
      | none => exact ⟨_, setFile_files _ _ _, rfl, rfl⟩
      | some f => exact ⟨_, setFile_files _ _ _, rfl, rfl⟩

theorem write_touches (d : Bytes) (h : HasBytes s p b) : Touches (· = p) P (write p d) s
    (fun r s' => (r = -1 ∧ ¬ Works P ∧ HasBytes s' p b) ∨
      ∃ m, m ≤ d.length ∧ r = m ∧ HasBytes s' p (b ++ d.take m) ∧ (Works P → d ≠ [] → 0 < m)) fun _ _ => False := by
  obtain ⟨f, hf, rfl, hr⟩ := h
  refine touches_call (fun e _ => ?_) fun e he => ?_
  · split_ifs
    · exact .refl _ _
    · exact changes_setFile rfl
  · split_ifs with hfails
    · exact .inl ⟨rfl, fun hw => by simp [(hw e he).1] at hfails, f, hf, rfl, hr⟩
    · refine .inr ⟨min e.count d.length, min_le_right _ _, rfl, ?_, fun hw hd => ?_⟩
      · exact ⟨{ f with data := f.data ++ d.take e.count, synced := false }, by simp [hf],
          by simp only [← List.take_take, List.take_length], hr⟩
      · exact lt_min (hw e he).2 (List.length_pos_iff.mpr hd)

theorem fsync_touches (h : HasBytes s p b) :
    Touches (· = p) P (fsync p) s (fun _ s' => HasSynced s' p b) fun _ _ => False := by
  obtain ⟨f, hf, hd, hr⟩ := h
  exact touches_call (fun _ _ => changes_setFile rfl) fun _ _ => ⟨{ f with synced := true }, by simp [hf], hd, hr, rfl⟩

/-- A call on a file that is there, which works unless the event says otherwise. -/
theorem onFile_touches {A : Path → Prop} {g : File → Sys → Sys} {f : File} {err : Failure → Sys → Prop}
    (hf : s.files p = some f) (hg : Changes A s (g f s)) : Touches A P (onFile p g) s
      (fun r s' => (r = true ∧ s' = g f s) ∨ (r = false ∧ s' = s ∧ ¬ Works P)) err := by
  refine touches_call (fun e _ => ?_) fun e he => ?_
  · simp only [hf]
    split_ifs
    · exact .refl _ _
    · exact hg
  · simp only [hf]
    split_ifs with hfails
    · exact .inr ⟨rfl, rfl, fun hw => by simp [(hw e he).1] at hfails⟩
    · exact .inl ⟨rfl, rfl⟩

theorem setAttributes_touches {g : File → File} (hg : ∀ f, (g f).data = f.data ∧
    (g f).readable = f.readable ∧ (g f).synced = f.synced)
    (h : HasSynced s p b) : Touches (· = p) P (onFile p fun f s => s.setFile p (some (g f))) s
      (fun r s' => HasSynced s' p b ∧ (Works P → r = true)) fun _ _ => False := by
  obtain ⟨f, hf, rfl, hr, hs⟩ := h
  refine (onFile_touches hf (changes_setFile (A := (· = p)) rfl)).mono (fun _ h => h) ?_ fun _ _ _ h => h
  rintro r s' - (⟨rfl, rfl⟩ | ⟨rfl, rfl, hw⟩)
  · obtain ⟨h1, h2, h3⟩ := hg f
    exact ⟨⟨g f, setFile_files _ _ _, h1, h2.trans hr, h3.trans hs⟩, fun _ => rfl⟩
  · exact ⟨⟨f, hf, rfl, hr, hs⟩, fun h => absurd h hw⟩

theorem chmod_touches (mode : ℕ) (h : HasSynced s p b) : Touches (· = p) P (chmod p mode) s
    (fun r s' => HasSynced s' p b ∧ (Works P → r = true)) fun _ _ => False :=
  setAttributes_touches (g := fun f => { f with mode := mode }) (fun _ => ⟨rfl, rfl, rfl⟩) h

theorem chown_touches (uid gid : ℕ) (h : HasSynced s p b) : Touches (· = p) P (chown p uid gid) s
    (fun r s' => HasSynced s' p b ∧ (Works P → r = true)) fun _ _ => False :=
  setAttributes_touches (g := fun f => { f with uid := uid, gid := gid }) (fun _ => ⟨rfl, rfl, rfl⟩) h

theorem unlink_touches {A : Path → Prop} {err : Failure → Sys → Prop} (hp : A p) :
    Touches A P (unlink p) s (fun _ s' => s'.files p = none ∨ s' = s) err := by
  cases hf : s.files p with
  | none =>
    unfold unlink onFile
    refine touches_call (fun e _ => ?_) fun e _ => ?_
    · simp only [hf]
      exact .refl _ _
    · exact .inr (by simp only [hf])
  | some f =>
    refine (onFile_touches hf (changes_setFile hp)).mono (fun _ h => h) ?_ fun _ _ _ h => h
    rintro r s' - (⟨rfl, rfl⟩ | ⟨rfl, rfl, -⟩)
    · exact .inl (setFile_files _ _ _)
    · exact .inr rfl

/-! ### FileSink -/

theorem fileSinkLoop_touches : ∀ (n : ℕ) (data : Bytes) (done : ℕ) {s : Sys} {b : Bytes}, HasBytes s p b →
    Touches (· = p) P (fileSinkLoop p n data done) s
      (fun r s' => ∃ m, m ≤ data.length ∧ r = done + m ∧ HasBytes s' p (b ++ data.take m) ∧
        (Works P → data.length ≤ n → m = data.length)) fun _ _ => False
  | 0, data, done, s, b, h => Touches.pure ⟨0, by simp, rfl, by simpa using h, fun _ hn => by omega⟩
  | n + 1, data, done, s, b, h => by
    unfold fileSinkLoop
    split_ifs with hd
    · subst hd
      exact Touches.pure ⟨0, le_rfl, rfl, by simpa using h, fun _ _ => rfl⟩
    · refine (write_touches data h).step fun r s' _ hr => ?_
      rcases hr with ⟨rfl, hw, h⟩ | ⟨m, hm, rfl, h, hw⟩
      · rw [if_pos (by decide)]
        exact Touches.pure ⟨0, by simp, rfl, by simpa using h, fun h => absurd h hw⟩
      · by_cases hm0 : m = 0
        · subst hm0
          rw [if_pos (by simp)]
          exact Touches.pure ⟨0, by simp, rfl, h, fun hw' _ => absurd (hw hw' hd) (by simp)⟩
        · rw [if_neg (by omega), Int.toNat_natCast]
          refine (fileSinkLoop_touches n (data.drop m) (done + m) h).mono (fun _ h => h) ?_ fun _ _ _ h => h
          rintro r s'' - ⟨k, hk, rfl, h, hw'⟩
          rw [List.length_drop] at hk hw'
          refine ⟨m + k, by omega, by omega, ?_, fun h1 h2 => ?_⟩
          · rwa [List.append_assoc, ← List.take_add] at h
          · have := hw' h1 (by omega)
            omega

/-- **`FileSink` writes a prefix**, which is everything if no call fails. -/
theorem fileSink_touches (data : Bytes) (h : HasBytes s p b) : Touches (· = p) P (fileSink p data) s
    (fun r s' => r ≤ data.length ∧ HasBytes s' p (b ++ data.take r) ∧ (Works P → r = data.length)) fun _ _ => False :=
  (fileSinkLoop_touches data.length data 0 h).mono (fun _ h => h)
    (fun r _ _ ⟨m, hm, hr, h, hw⟩ => by
      obtain rfl : r = m := by omega
      exact ⟨hm, h, fun h1 => hw h1 le_rfl⟩) fun _ _ _ h => h

/-- The size that goes with the data, as every load leaves it. -/
def FileContents.Sized (file : FileContents) : Prop := ∀ d, file.data = some d → file.size = d.length

/-- **A save that returns 0 left the whole contents.** -/
theorem saveFileContents_touches {file : FileContents} (hsize : file.Sized) :
    Touches (· = p) P (saveFileContents p file) s
      (fun r s' => (r = true → HasSynced s' p (file.data.getD [])) ∧ (Works P → file.data ≠ none → r = true))
      fun _ _ => False := by
  unfold saveFileContents
  refine openTrunc_touches.step fun opened s' _ ho => ?_
  cases opened with
  | false => exact Touches.pure ⟨by simp, fun hw => absurd (ho.2 hw) (by simp)⟩
  | true =>
    rw [if_neg (by simp)]
    have hsink : Touches (· = p) P (fileSinkOf p file) s'
        (fun r s'' => (r = file.size → HasBytes s'' p (file.data.getD [])) ∧ (Works P → file.data ≠ none → r = file.size))
        fun _ _ => False := by
      unfold fileSinkOf
      cases hd : file.data with
      | none => exact Touches.pure ⟨fun _ => ho.1 rfl, fun _ h => absurd rfl h⟩
      | some d =>
        refine (fileSink_touches d (ho.1 rfl)).step fun r s'' _ ⟨_, h, hw⟩ => Touches.pure ⟨fun hr => ?_, fun h1 _ => ?_⟩
        · obtain rfl : r = d.length := by simpa [hsize d hd] using hr
          simpa using h
        · rw [hsize d hd, hw h1]
    refine hsink.step fun r s'' _ hr => ?_
    split_ifs with hshort
    · exact Touches.pure ⟨by simp, fun hw hd => absurd (hr.2 hw hd) hshort⟩
    · refine (fsync_touches (hr.1 (not_not.mp hshort))).step fun _ s₁ _ h1 => ?_
      refine (chmod_touches file.mode h1).step fun moded s₂ _ h2 => ?_
      cases moded with
      | false => exact Touches.pure ⟨by simp, fun hw => absurd (h2.2 hw) (by simp)⟩
      | true =>
        rw [if_neg (by simp)]
        exact (chown_touches file.uid file.gid h2.1).mono (fun _ h => h)
          (fun _ _ _ h => ⟨fun _ => h.1, fun hw _ => h.2 hw⟩) fun _ _ _ h => h

end

/-! ### Making room on the cache -/

/-- The files of the cache, but not the saved copy. -/
def Expendable (q : Path) : Prop := (lit "/cache/").isPrefixOf q = true ∧ q ≠ cacheTempSource

section

variable {P : Ev → Prop} {s : Sys}

theorem freeSpaceForFile_reads (p : Path) :
    Reads P (freeSpaceForFile p) s (fun free => ∃ e, P e ∧ free = e.reported) fun _ => False := by
  have hstat : Reads P (statfs p) s (fun r => ∃ e, P e ∧ r = if e.fails then none else some (e.bsize, e.bfree)) fun _ => False :=
    reads_call (fun _ => rfl) fun e he => ⟨e, he, rfl⟩
  refine hstat.step fun sf ⟨e, he, hsf⟩ => ?_
  subst hsf
  unfold Ev.reported
  cases hfails : e.fails with
  | true => exact Reads.pure ⟨e, he, by simp [hfails]⟩
  | false => exact Reads.pure ⟨e, he, by simp [hfails]⟩

/-- Of each name but that of the copy, what there is if it is a regular file. -/
theorem expendableIn_reads {K : Path → Prop} {dir : Path} : ∀ {names : List Bytes},
    (∀ name ∈ names, dir ++ lit "/" ++ name ≠ cacheTempSource → (∃ e, P e ∧ e.regular (dir ++ lit "/" ++ name) = true) →
      (s.files (dir ++ lit "/" ++ name)).isSome = true → K (dir ++ lit "/" ++ name)) →
    Reads P (expendableIn dir names) s (fun found => ∀ q ∈ found, K q) fun _ => False
  | [], _ => Reads.pure (by simp)
  | name :: rest, hK => by
    unfold expendableIn
    extract_lets path
    have hrest := expendableIn_reads fun n hn => hK n (List.mem_cons_of_mem _ hn)
    split_ifs with hcopy
    · exact hrest
    · have hregular : Reads P (isRegular path) s (fun r => r = true → K path) fun _ => False := by
        refine reads_call (fun _ => rfl) fun e he hr => ?_
        simp only [Bool.and_eq_true] at hr
        exact hK name List.mem_cons_self hcopy ⟨e, he, hr.2⟩ hr.1.2
      refine hregular.step fun regular hr => hrest.step fun found hfound => Reads.pure ?_
      split
      · rename_i htrue
        simpa using ⟨hr htrue, hfound⟩
      · exact hfound

theorem expendableDirs_reads {K : Path → Prop} : ∀ {dirs : List Path},
    (∀ dir ∈ dirs, ∀ names, (∃ e, P e ∧ e.names dir = some names) → ∀ name ∈ names, dir ++ lit "/" ++ name ≠ cacheTempSource →
      (∃ e, P e ∧ e.regular (dir ++ lit "/" ++ name) = true) →
        (s.files (dir ++ lit "/" ++ name)).isSome = true → K (dir ++ lit "/" ++ name)) →
    Reads P (expendableDirs dirs) s (fun found => ∀ q ∈ found, K q) fun _ => False
  | [], _ => Reads.pure (by simp)
  | dir :: rest, hK => by
    have hread : Reads P (readdir dir) s (fun r => ∀ names, r = some names → ∃ e, P e ∧ e.names dir = some names) fun _ => False := by
      refine reads_call (fun _ => rfl) fun e he names hnames => ⟨e, he, ?_⟩
      split at hnames
      · cases hnames
      · exact hnames
    refine hread.step fun names hnames => ?_
    have hin : Reads P (expendableIn dir (names.getD [])) s (fun found => ∀ q ∈ found, K q) fun _ => False := by
      refine expendableIn_reads fun name hname => ?_
      cases names with
      | none => cases hname
      | some names => exact hK dir List.mem_cons_self names (hnames names rfl) name hname
    refine hin.step fun found hfound =>
      (expendableDirs_reads fun d hd => hK d (List.mem_cons_of_mem _ hd)).step fun others hothers => Reads.pure fun q hq => ?_
    rcases List.mem_append.mp hq with hq | hq
    · exact hfound q hq
    · exact hothers q hq

theorem eliminateLinks_reads {K : Path → Prop} (path : Path) : ∀ (names : List Bytes) (files : List (Option Path)),
    (∀ q, some q ∈ files → K q) → Reads P (eliminateLinks path names files) s (fun r => ∀ q, some q ∈ r → K q) fun _ => False
  | [], _, h => Reads.pure h
  | name :: rest, files, h => by
    have hlink : Reads P (readlink (path ++ name)) s (fun _ => True) fun _ => False :=
      reads_call (fun _ => rfl) fun _ _ => trivial
    refine hlink.step fun link _ => ?_
    cases link with
    | none => exact eliminateLinks_reads path rest files h
    | some link =>
      refine eliminateLinks_reads path rest _ fun q hq => ?_
      split_ifs at hq
      · obtain ⟨f, hf, hfq⟩ := List.mem_map.mp hq
        split_ifs at hfq
        exact h q (hfq ▸ hf)
      · exact h q hq

theorem eliminateProcesses_reads {K : Path → Prop} : ∀ (names : List Bytes) (files : List (Option Path)),
    (∀ q, some q ∈ files → K q) → Reads P (eliminateProcesses names files) s (fun r => ∀ q, some q ∈ r → K q) fun _ => False
  | [], _, h => Reads.pure h
  | name :: rest, files, h => by
    unfold eliminateProcesses
    split_ifs
    · have hread : ∀ path, Reads P (readdir path) s (fun _ => True) fun _ => False := fun _ =>
        reads_call (fun _ => rfl) fun _ _ => trivial
      refine (hread _).step fun fds _ => ?_
      cases fds with
      | none => exact eliminateProcesses_reads rest files h
      | some fds =>
        exact (eliminateLinks_reads _ fds files h).step fun files' h' => eliminateProcesses_reads rest files' h'
    · exact eliminateProcesses_reads rest files h

theorem findExpendableFiles_reads :
    Reads P findExpendableFiles s (fun r => ∀ names, r = some names → ∀ q, some q ∈ names → Expendable q) fun _ => False := by
  have hdirs : ∀ dir ∈ [lit "/cache", lit "/cache/recovery/otatest"], ∀ name,
      (lit "/cache/").isPrefixOf (dir ++ lit "/" ++ name) = true := by
    intro dir hdir name
    rw [ List.isPrefixOf_iff_prefix]
    rcases List.mem_pair.mp hdir with rfl | rfl
    · exact List.prefix_append _ _
    · exact (List.prefix_append (lit "/cache/") (lit "recovery/otatest/")).trans (List.prefix_append _ name)
  have hfind : Reads P (expendableDirs [lit "/cache", lit "/cache/recovery/otatest"]) s
    (fun found => ∀ q ∈ found, Expendable q) fun _ => False :=
    expendableDirs_reads fun dir hdir _ _ name _ hcopy _ _ => ⟨hdirs dir hdir name, hcopy⟩
  refine hfind.step fun files hfiles => ?_
  have hread : Reads P (readdir (lit "/proc")) s (fun _ => True) fun _ => False := reads_call (fun _ => rfl) fun _ _ => trivial
  refine hread.step fun procs _ => ?_
  cases procs with
  | none => exact Reads.pure (by simp)
  | some names =>
    refine (eliminateProcesses_reads names (files.map some) (K := Expendable) (by simpa using hfiles)).step
      fun files' h' => Reads.pure fun names hnames => ?_
    obtain rfl : files' = names := by simpa using hnames
    exact h'

theorem deleteUntil_touches (bytesNeeded : ℕ) : ∀ {s : Sys} (names : List (Option Path)) (freeNow : ℕ),
    (∀ q, some q ∈ names → Expendable q) →
    Touches Expendable P (deleteUntil bytesNeeded names freeNow) s (fun _ _ => True) fun _ _ => False
  | _, [], _, _ => Touches.pure trivial
  | _, none :: rest, freeNow, h => by
    unfold deleteUntil
    split_ifs
    · exact deleteUntil_touches bytesNeeded rest freeNow fun q hq => h q (by simp [hq])
    · exact Touches.pure trivial
  | _, some name :: rest, freeNow, h => by
    unfold deleteUntil
    split_ifs
    · refine (unlink_touches (h name (by simp))).step fun _ _ _ _ => ?_
      refine Touches.step ((freeSpaceForFile_reads (lit "/cache")).touches.mono (fun _ h => h) (fun _ _ _ h => h) fun _ _ _ h => h.2)
        fun _ _ _ _ => deleteUntil_touches bytesNeeded rest _ fun q hq => h q (by simp [hq])
    · exact Touches.pure trivial

/-- **Making room deletes only files that may be deleted**, and fails only after a report of less than is needed. -/
theorem makeFreeSpaceOnCache_touches (bytesNeeded : ℕ) :
    Touches Expendable P (makeFreeSpaceOnCache bytesNeeded) s (fun r _ => r = false → ∃ e, P e ∧ e.reported < bytesNeeded)
      fun _ _ => False := by
  have hfree := (freeSpaceForFile_reads (P := P) (s := s) (lit "/cache")).touches (A := Expendable)
  refine Touches.step (hfree.mono (fun _ h => h) (fun _ _ _ h => h.2) fun _ _ _ h => h.2) fun freeNow s' _ ⟨e, he, hreport⟩ => ?_
  split_ifs with henough
  · exact Touches.pure fun h => Bool.noConfusion h
  · have hless : ∃ e, P e ∧ e.reported < bytesNeeded := ⟨e, he, by omega⟩
    have hfind := (findExpendableFiles_reads (P := P) (s := s')).touches (A := Expendable)
    refine Touches.step (hfind.mono (fun _ h => h) (fun _ _ _ h => h.2) fun _ _ _ h => h.2) fun names s'' _ hnames => ?_
    match names, hnames with
    | none, _ => exact Touches.pure fun _ => hless
    | some [], _ => exact Touches.pure fun _ => hless
    | some (name :: rest), hnames =>
      exact (deleteUntil_touches bytesNeeded (name :: rest) freeNow (hnames _ rfl)).step fun _ _ _ _ => Touches.pure fun _ => hless

end

end Patch
end Recovery
