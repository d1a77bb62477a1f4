/-
# Is what is installed what was hashed?

`GenerateTarget` checks the hash of what it fed to the hash, and renames what the sink took.

Key theorems: `generateFile_can`, `installed_iff`.
-/
import Recovery.Patch.Install

namespace Recovery
namespace Patch

/-! ### Every way to write a plan is a run -/

instance : Inhabited Ev := ⟨.fine⟩

def Ev.failing : Ev := { Ev.fine with fails := true }

def Ev.upTo (n : ℕ) : Ev := { Ev.fine with count := n }

section

variable {cod : Codecs} {lib : Lib} {a : Args} {source : FileContents} {patch : Value} {s : Sys} {p : Path} {b : Bytes}

theorem write_can (d : Bytes) {m : ℕ} (hm : m ≤ d.length) (h : HasBytes s p b) :
    ∃ s', Crash.Can (write p d) s (m : ℤ) s' ∧ HasBytes s' p (b ++ d.take m) := by
  obtain ⟨f, hf, rfl, hr⟩ := h
  refine ⟨s.setFile p (some { f with data := f.data ++ d.take m, synced := false }),
    .call (.upTo m) rfl ?_, _, setFile_files _ _ _, rfl, hr⟩
  simp [Ev.upTo, Ev.fine, hf, hm]

theorem write_can_fail (d : Bytes) : Crash.Can (write p d) s (-1) s := .call .failing rfl (by simp [Ev.failing])

theorem fileSink_can (d : Bytes) {m : ℕ} (hm : m ≤ d.length) (h : HasBytes s p b) :
    ∃ s', Crash.Can (fileSinkFn p () d) s ((m : ℤ), ()) s' ∧ HasBytes s' p (b ++ d.take m) := by
  suffices hloop : ∃ s', Crash.Can (fileSinkLoop p d.length d 0) s m s' ∧ HasBytes s' p (b ++ d.take m) by
    obtain ⟨s', hcan, hb⟩ := hloop
    exact ⟨s', hcan.bind (.pure _ _), hb⟩
  -- a loop that starts with bytes left can stop at once
  have hstop : ∀ (n : ℕ) (d : Bytes) (done : ℕ) (s : Sys), d.length ≤ n → Crash.Can (fileSinkLoop p n d done) s done s := by
    intro n d done s hn
    cases n with
    | zero => exact .pure _ _
    | succ n =>
      unfold fileSinkLoop
      split_ifs
      · exact .pure _ _
      · exact (write_can_fail d).bind (by rw [if_pos (by decide)]; exact .pure _ _)
  by_cases hm0 : m = 0
  · subst hm0
    exact ⟨s, hstop _ _ _ _ le_rfl, by simpa using h⟩
  · obtain ⟨s', hcan, hb⟩ := write_can d hm h
    refine ⟨s', ?_, hb⟩
    obtain ⟨n, hn⟩ : ∃ n, d.length = n + 1 := ⟨d.length - 1, by omega⟩
    rw [hn, fileSinkLoop, if_neg (by rintro rfl; simp at hn)]
    refine hcan.bind ?_
    rw [if_neg (by omega)]
    simpa using hstop n (d.drop m) m s' (by simp; omega)

theorem Emits.split {short : Bytes → ℕ → Prop} : ∀ {os os' : List Output} {h w : Bytes}, Emits short (os ++ os') true h w →
    ∃ h₁ w₁ h₂ w₂, Emits short os true h₁ w₁ ∧ Emits short os' true h₂ w₂ ∧ h = h₁ ++ h₂ ∧ w = w₁ ++ w₂
  | [], _, h, w, he => ⟨[], [], h, w, .done, he, rfl, rfl⟩
  | o :: os, os', _, _, he => by
    cases he with
    | full hos =>
      obtain ⟨h₁, w₁, h₂, w₂, he₁, he₂, rfl, rfl⟩ := hos.split
      exact ⟨_, _, h₂, w₂, .full he₁, he₂, by simp, by simp⟩
    | skip ho hm hos =>
      obtain ⟨h₁, w₁, h₂, w₂, he₁, he₂, rfl, rfl⟩ := hos.split
      exact ⟨_, _, h₂, w₂, .skip ho hm he₁, he₂, rfl, by simp⟩

theorem sinkPieces_can : ∀ (pieces : List Bytes) (ctx : Bytes) {s : Sys} {b h w : Bytes}, HasBytes s p b →
    Emits AnyShort (pieces.map fun piece => ⟨false, piece⟩) true h w →
    ∃ s', Crash.Can (sinkPieces (fileSinkFn p) pieces ⟨(), ctx⟩) s (0, ⟨(), ctx ++ h⟩) s' ∧ HasBytes s' p (b ++ w)
  | [], ctx, s, b, _, _, hb, he => by
    cases he
    exact ⟨s, by simpa using .pure _ _, by simpa using hb⟩
  | piece :: rest, ctx, s, b, _, _, hb, he => by
    cases he with
    | skip ho => cases ho
    | @full _ _ _ h w hos =>
      obtain ⟨s₁, hcan, hb₁⟩ := fileSink_can piece le_rfl hb
      obtain ⟨s₂, hcan₂, hb₂⟩ := sinkPieces_can rest (ctx ++ piece) hb₁ hos
      refine ⟨s₂, ?_, by simpa using hb₂⟩
      rw [sinkPieces, ← List.append_assoc]
      exact hcan.bind (by simpa using hcan₂)

theorem sinkChunk_can (c : Chunk) (ctx : Bytes) {h w : Bytes} (hb : HasBytes s p b) (he : Emits AnyShort c.outputs true h w) :
    ∃ s', Crash.Can (sinkChunk (fileSinkFn p) c ⟨(), ctx⟩) s (0, ⟨(), ctx ++ h⟩) s' ∧ HasBytes s' p (b ++ w) := by
  cases c with
  | normal newData =>
    cases newData with
    | none =>
      cases he
      exact ⟨s, by simpa using .pure _ _, by simpa using hb⟩
    | some d =>
      cases he with
      | @full _ _ _ h w hos =>
        cases hos
        obtain ⟨s₁, hcan, hb₁⟩ := fileSink_can d le_rfl hb
        refine ⟨s₁, ?_, by simpa using hb₁⟩
        refine Crash.Can.bind (a := (0, ⟨(), ctx ++ d⟩)) (hcan.bind ?_) (by simpa using .pure _ _)
        simpa using .pure _ _
      | @skip _ _ _ h w m _ hm hos =>
        cases hos
        obtain ⟨s₁, hcan, hb₁⟩ := fileSink_can d (le_of_lt hm) hb
        refine ⟨s₁, ?_, by simpa using hb₁⟩
        refine Crash.Can.bind (a := (1, ⟨(), ctx⟩)) (hcan.bind ?_) (by simpa using .pure _ _)
        simp only [Nat.cast_lt, if_pos (show m < d.length from hm)]
        exact .pure _ _
  | raw d =>
    cases he with
    | skip ho => cases ho
    | @full _ _ _ h w hos =>
      cases hos
      obtain ⟨s₁, hcan, hb₁⟩ := fileSink_can d le_rfl hb
      exact ⟨s₁, hcan.bind (by simpa using .pure _ _), by simpa using hb₁⟩
  | deflate pieces => exact sinkPieces_can pieces ctx hb he

theorem imageLoop_can {old patch : Bytes} {bonusData : Option Value} : ∀ (n i : ℕ) (pos : ℤ) (ctx : Bytes) {s : Sys} {b h w : Bytes},
    HasBytes s p b → (chunksFrom cod old patch bonusData n i pos).2 = none →
    Emits AnyShort ((chunksFrom cod old patch bonusData n i pos).1.flatMap Chunk.outputs) true h w →
    ∃ s', Crash.Can (imageLoop cod (fileSinkFn p) old patch bonusData n i pos ⟨(), ctx⟩) s (0, ⟨(), ctx ++ h⟩) s' ∧
      HasBytes s' p (b ++ w)
  | 0, i, pos, ctx, s, b, _, _, hb, _, he => by
    cases he
    exact ⟨s, by simpa using .pure _ _, by simpa using hb⟩
  | n + 1, i, pos, ctx, s, b, _, _, hb, hstop, he => by
    unfold chunksFrom at hstop he
    unfold imageLoop
    cases hc : chunkAt cod old patch bonusData i pos with
    | error stop => simp [hc] at hstop
    | ok r =>
      obtain ⟨chunk, pos'⟩ := r
      simp only [hc, List.flatMap_cons] at hstop he
      obtain ⟨h₁, w₁, h₂, w₂, he₁, he₂, rfl, rfl⟩ := he.split
      obtain ⟨s₁, hcan₁, hb₁⟩ := sinkChunk_can chunk ctx hb he₁
      obtain ⟨s₂, hcan₂, hb₂⟩ := imageLoop_can n (i + 1) pos' (ctx ++ h₁) hb₁ hstop he₂
      refine ⟨s₂, ?_, by simpa using hb₂⟩
      rw [← List.append_assoc]
      exact hcan₁.bind (by simpa using hcan₂)

theorem applyAny_can {src : Bytes} {h w : Bytes} (hb : HasBytes s p []) (hstop : (planOf cod src patch a.bonusData).2 = none)
    (he : Emits AnyShort (planOf cod src patch a.bonusData).1 true h w) :
    ∃ s', Crash.Can (applyAny cod (fileSinkFn p) a src patch ()) s (0, ⟨(), h⟩) s' ∧ HasBytes s' p w := by
  unfold planOf at hstop he
  unfold applyAny
  by_cases hbs : patch.data.take 8 = lit "BSDIFF40"
  · rw [if_pos hbs] at hstop he ⊢
    unfold applyBSDiffPatch
    cases hmem : applyBSDiffPatchMem cod (OldData.whole src) patch.data 0 with
    | error stop => simp [hmem] at hstop
    | ok newData =>
      rw [hmem] at he
      cases he with
      | skip ho => cases ho
      | @full _ _ _ h w hos =>
        cases hos
        obtain ⟨s₁, hcan, hb₁⟩ := fileSink_can newData le_rfl hb
        exact ⟨s₁, hcan.bind (by simpa using .pure _ _), by simpa using hb₁⟩
  · rw [if_neg hbs] at hstop he ⊢
    unfold chunksOf at hstop he
    split_ifs at hstop he with hhead
    obtain ⟨hlen, himg⟩ := not_or.mp hhead
    rw [if_pos (not_not.mp himg), applyImagePatch, if_neg hlen, if_neg himg]
    cases hn : read4 patch.data 8 with
    | error stop => simp [hn] at hstop
    | ok numChunks =>
      rw [hn] at hstop he
      obtain ⟨s₁, hcan, hb₁⟩ := imageLoop_can numChunks.toNat 0 12 [] hb hstop he
      exact ⟨s₁, Crash.Can.bind (.pure _ _) hcan, hb₁⟩

theorem produceFile_can {h w : Bytes} (hblob : patch.isBlob = true) (hstop : (planFor cod a source patch).2 = none)
    (he : Emits AnyShort (planFor cod a source patch).1 true h w) :
    ∃ s', Crash.Can (produceFile cod a source patch) s (0, h) s' ∧ HasBytes s' (outname a) w := by
  have hopen : ∃ s', Crash.Can (openTrunc (outname a)) s true s' ∧ HasBytes s' (outname a) [] := by
    refine ⟨_, .call .fine rfl rfl, ?_⟩
    cases s.files (outname a) with
    | none => exact ⟨_, setFile_files _ _ _, rfl, rfl⟩
    | some f => exact ⟨_, setFile_files _ _ _, rfl, rfl⟩
  obtain ⟨s₁, hcan₁, hb₁⟩ := hopen
  obtain ⟨s₂, hcan₂, f, hf, hd, hr⟩ := applyAny_can hb₁ hstop he
  refine ⟨s₂.setFile (outname a) (some { f with synced := true }), ?_, _, setFile_files _ _ _, hd, hr⟩
  unfold produceFile
  rw [hblob]
  refine Crash.Can.bind (.pure _ _) (hcan₁.bind (Crash.Can.bind (.pure _ _) (hcan₂.bind ?_)))
  exact Crash.Can.bind (.call .fine rfl (by rw [hf]; rfl)) (.pure _ _)

theorem onFile_can {q : Path} {g : File → Sys → Sys} (hg : ∀ f s, ∃ f', (g f s).files q = some f' ∧
    f'.data = f.data ∧ f'.readable = f.readable)
    (h : HasBytes s p b) : ∃ s', Crash.Can (onFile p g) s true s' ∧ HasBytes s' q b := by
  obtain ⟨f, hf, rfl, hr⟩ := h
  obtain ⟨f', hf', hd', hr'⟩ := hg f s
  exact ⟨g f s, .call .fine rfl (by simp [hf, Ev.fine]), f', hf', hd', hr'.trans hr⟩

theorem installFile_can (source : FileContents) {targetSha1 h w : Bytes} (hsha : lib.sha1 h = targetSha1)
    (hw : HasBytes s (outname a) w) :
    ∃ s', Crash.Can (installFile lib a targetSha1 source false h) s h s' ∧ HasBytes s' a.targetFilename w := by
  obtain ⟨s₁, hmod, h₁⟩ : ∃ s', Crash.Can (chmod (outname a) source.mode) s true s' ∧ HasBytes s' (outname a) w :=
    onFile_can (fun _ _ => ⟨_, setFile_files _ _ _, rfl, rfl⟩) hw
  obtain ⟨s₂, hown, h₂⟩ : ∃ s', Crash.Can (chown (outname a) source.uid source.gid) s₁ true s' ∧ HasBytes s' (outname a) w :=
    onFile_can (fun _ _ => ⟨_, setFile_files _ _ _, rfl, rfl⟩) h₁
  obtain ⟨s₃, hren, h₃⟩ : ∃ s', Crash.Can (rename (outname a) a.targetFilename) s₂ true s' ∧ HasBytes s' a.targetFilename w :=
    onFile_can (fun _ _ => ⟨_, setFile_files _ _ _, rfl, rfl⟩) h₂
  refine ⟨s₃, ?_, h₃⟩
  unfold installFile
  rw [hsha]
  exact Crash.Can.bind (by simpa [Crash.failIf] using .pure _ _) (hmod.bind (Crash.Can.bind (.pure _ _) (hown.bind
    (Crash.Can.bind (.pure _ _) (hren.bind (Crash.Can.bind (.pure _ _) (Crash.Can.bind (.pure _ _) (.pure _ _))))))))

/-- **Every way to write a plan is a run of `GenerateTarget`.** -/
theorem generateFile_can {targetSha1 h w : Bytes} (fromSource : Bool) (hblob : patch.isBlob = true)
    (hstop : (planFor cod a source patch).2 = none) (he : Emits AnyShort (planFor cod a source patch).1 true h w)
    (hsha : lib.sha1 h = targetSha1) (s : Sys) :
    ∃ s', Crash.Can (generateFile cod lib a targetSha1 fromSource source patch) s h s' ∧ HasBytes s' a.targetFilename w := by
  obtain ⟨s₁, hcan₁, hw₁⟩ := produceFile_can (s := s) hblob hstop he
  obtain ⟨s₂, hcan₂, hw₂⟩ := installFile_can source hsha hw₁
  refine ⟨s₂, ?_, hw₂⟩
  -- there is as much room as there can be
  have hfree : Crash.Can (freeSpaceForFile (targetFs a)) s (2 ^ 32 - 1) s :=
    Crash.Can.bind (.call { Ev.fine with bsize := 1, bfree := 2 ^ 32 - 1 } rfl rfl) (by simpa using .pure _ _)
  refine hfree.bind ?_
  rw [if_pos ⟨by norm_num, by omega⟩]
  exact hcan₁.bind (by simpa using hcan₂)

end

/-! ### Leaving outputs out -/

/-- Outputs of normal chunks can be left out such that the rest has the hash asked for. -/
def Droppable (lib : Lib) (targetSha1 : Bytes) (os : List Output) : Prop :=
  ∃ marks : List (Output × Bool), marks.map Prod.fst = os ∧ (∀ m ∈ marks, m.2 = false → m.1.lenient = true) ∧
    (∃ m ∈ marks, m.2 = false ∧ 2 ≤ m.1.data.length) ∧
    lib.sha1 (flat ((marks.filter (·.2)).map Prod.fst)) = targetSha1

/-- Which outputs an emission left out. Those of one byte leave no trace in the file. -/
theorem Emits.marks {os : List Output} {ok : Bool} {h w : Bytes} (he : Emits AnyShort os ok h w) (hok : ok = true) :
    ∃ marks : List (Output × Bool), marks.map Prod.fst = os ∧ (∀ m ∈ marks, m.2 = false → m.1.lenient = true) ∧
      h = flat ((marks.filter (·.2)).map Prod.fst) ∧ ((∃ m ∈ marks, m.2 = false ∧ 2 ≤ m.1.data.length) ∨ w = h) := by
  induction he with
  | done => exact ⟨[], rfl, by simp, rfl, .inr rfl⟩
  | @full o os ok h w _ ih =>
    obtain ⟨marks, rfl, hlen, rfl, hcase⟩ := ih hok
    refine ⟨(o, true) :: marks, rfl, by simpa using hlen, by simp [flat], hcase.imp (fun ⟨m, hm, h⟩ => ⟨m, by simp [hm], h⟩) ?_⟩
    rintro rfl
    rfl
  | @skip o os ok h w m ho hm _ ih =>
    obtain ⟨marks, rfl, hlen, rfl, hcase⟩ := ih hok
    refine ⟨(o, false) :: marks, rfl, List.forall_mem_cons.mpr ⟨fun _ => ho, hlen⟩, by simp, ?_⟩
    by_cases h2 : 2 ≤ o.data.length
    · exact .inl ⟨(o, false), by simp, rfl, h2⟩
    · refine hcase.imp (fun ⟨m, hm, h⟩ => ⟨m, by simp [hm], h⟩) fun hw => ?_
      have hm0 : m = 0 := by
        have : m < o.data.length := hm
        omega
      simpa [hm0] using hw
  | stop => cases hok

/-- Marked outputs can be left out, with one byte of each of the longer ones written. -/
theorem emits_of_marks : ∀ marks : List (Output × Bool), (∀ m ∈ marks, m.2 = false → m.1.lenient = true) →
    ∃ w, Emits AnyShort (marks.map Prod.fst) true (flat ((marks.filter (·.2)).map Prod.fst)) w ∧
      (flat ((marks.filter (·.2)).map Prod.fst)).length ≤ w.length ∧
      ((∃ m ∈ marks, m.2 = false ∧ 2 ≤ m.1.data.length) → (flat ((marks.filter (·.2)).map Prod.fst)).length < w.length)
  | [], _ => ⟨[], .done, le_rfl, by simp⟩
  | (o, true) :: marks, h => by
    obtain ⟨w, he, hle, hlt⟩ := emits_of_marks marks fun m hm => h m (by simp [hm])
    have hflat : flat ((((o, true) :: marks).filter (·.2)).map Prod.fst) = o.data ++ flat ((marks.filter (·.2)).map Prod.fst) := by
      simp [flat]
    rw [hflat]
    refine ⟨o.data ++ w, .full he, by simpa using hle, fun hex => ?_⟩
    simpa using hlt (by simpa using hex)
  | (o, false) :: marks, h => by
    obtain ⟨w, he, hle, hlt⟩ := emits_of_marks marks fun m hm => h m (by simp [hm])
    have hlen : o.lenient = true := h (o, false) (by simp) rfl
    have hflat : flat ((((o, false) :: marks).filter (·.2)).map Prod.fst) = flat ((marks.filter (·.2)).map Prod.fst) := by simp
    rw [hflat]
    rcases Nat.lt_or_ge o.data.length 2 with h2 | h2
    · -- an empty output is written as a whole, and nothing of a single byte
      by_cases h0 : o.data = []
      · exact ⟨o.data ++ w, by simpa [h0] using Emits.full (o := o) he, by simpa [h0] using hle,
          fun hex => by simpa [h0] using hlt (by simpa [h0] using hex)⟩
      · exact ⟨o.data.take 0 ++ w, .skip hlen (List.length_pos_iff.mpr h0) he, by simpa using hle,
          fun hex => by simpa using hlt (by simpa [not_le.mpr h2] using hex)⟩
    · have h1 : (o.data.take 1).length = 1 := by
        rw [List.length_take]
        omega
      refine ⟨o.data.take 1 ++ w, .skip hlen (show 1 < o.data.length by omega) he, ?_, fun _ => ?_⟩
      · rw [List.length_append]
        omega
      · rw [List.length_append]
        omega

theorem droppable_iff {lib : Lib} {targetSha1 : Bytes} {os : List Output} :
    Droppable lib targetSha1 os ↔ ∃ h w, Emits AnyShort os true h w ∧ lib.sha1 h = targetSha1 ∧ w ≠ h := by
  constructor
  · rintro ⟨marks, rfl, hlen, hex, hsha⟩
    obtain ⟨w, he, -, hlt⟩ := emits_of_marks marks hlen
    exact ⟨_, w, he, hsha, fun h => by simpa [h] using hlt hex⟩
  · rintro ⟨h, w, he, hsha, hne⟩
    obtain ⟨marks, rfl, hlen, rfl, hex⟩ := he.marks rfl
    exact ⟨marks, rfl, hlen, hex.resolve_right hne, hsha⟩

/-! ### The two properties -/

section

variable (cod : Codecs) (lib : Lib) (a : Args)

/-- In every run that returns 0 the target is what was hashed. -/
def InstallsHashed (targetSha1 : Bytes) (sourceFile : FileContents) (sourcePatch : Option Value) (copyFile : FileContents)
    (copyPatch : Value) : Prop :=
  ∀ ev s h n s', generateTarget cod lib a targetSha1 sourceFile sourcePatch copyFile copyPatch ev 0 s = .ok h n s' →
    HasBytes s' a.targetFilename h ∧ lib.sha1 h = targetSha1

/-- In every run that returns 0 the file has what was hashed. -/
def AppliesAll (source : Bytes) (patch : Value) : Prop :=
  ∀ p ev s o n s', HasBytes s p [] → applyAny cod (fileSinkFn p) a source patch () ev 0 s = .ok (0, o) n s' →
    (∀ c ∈ (chunksOf cod source patch a.bonusData).1, c ≠ .normal none) ∧
      o.ctx = flat (planOf cod source patch a.bonusData).1 ∧ HasBytes s' p o.ctx

/-- A chunk that cannot go missing: not a normal one, or one with nothing to write. -/
def Chunk.Firm (c : Chunk) : Prop := ∀ newData, c = .normal newData → newData = some []

variable {cod lib a}

theorem generateTarget_eq {targetSha1 : Bytes} {sourceFile copyFile : FileContents} {sourcePatch : Option Value} {copyPatch : Value}
    (hfile : isPartitionName a.targetFilename = false) :
    generateTarget cod lib a targetSha1 sourceFile sourcePatch copyFile copyPatch =
      generateFile cod lib a targetSha1 sourcePatch.isSome (if sourcePatch.isSome then sourceFile else copyFile)
        (sourcePatch.getD copyPatch) := by
  simp [generateTarget, hfile]

theorem installsHashed_iff {targetSha1 : Bytes} {sourceFile copyFile : FileContents} {sourcePatch : Option Value} {copyPatch : Value}
    (hfile : isPartitionName a.targetFilename = false) (hcopy : a.targetFilename ≠ cacheTempSource) :
    InstallsHashed cod lib a targetSha1 sourceFile sourcePatch copyFile copyPatch ↔
      ¬ ((sourcePatch.getD copyPatch).isBlob = true ∧
        (planFor cod a (if sourcePatch.isSome then sourceFile else copyFile) (sourcePatch.getD copyPatch)).2 = none ∧
        Droppable lib targetSha1
          (planFor cod a (if sourcePatch.isSome then sourceFile else copyFile) (sourcePatch.getD copyPatch)).1) := by
  unfold InstallsHashed
  rw [generateTarget_eq hfile]
  constructor
  · rintro hall ⟨hblob, hstop, hdrop⟩
    obtain ⟨h, w, he, hsha, hne⟩ := droppable_iff.mp hdrop
    obtain ⟨s', hcan, f, hf, hd, -⟩ := generateFile_can sourcePatch.isSome hblob hstop he hsha (Sys.ofFiles [])
    obtain ⟨ev, n, hrun⟩ := hcan.run
    obtain ⟨⟨f', hf', hd', -⟩, -⟩ := hall ev _ h n s' hrun
    obtain rfl : f = f' := Option.some.inj (hf.symm.trans hf')
    exact hne (hd.symm.trans hd')
  · intro hno ev s h n s' hrun
    obtain ⟨w, hw, hblob, hstop, he, hsha⟩ := (generateFile_ok (P := fun _ => True) hcopy).of_ok (fun _ => trivial) hrun
    have hwh : w = h := by
      by_contra hne
      exact hno ⟨hblob, hstop, droppable_iff.mpr ⟨h, w, he.mono ShortWrite.any, hsha, hne⟩⟩
    exact ⟨hwh ▸ hw, hsha⟩

theorem Emits.of_firm {os : List Output} {ok : Bool} {h w : Bytes} (he : Emits AnyShort os ok h w) (hok : ok = true)
    (hfirm : ∀ o ∈ os, o.lenient = true → o.data = []) : h = flat os ∧ w = flat os := by
  induction he with
  | done => exact ⟨rfl, rfl⟩
  | full _ ih =>
    obtain ⟨rfl, rfl⟩ := ih hok fun o ho => hfirm o (by simp [ho])
    exact ⟨rfl, rfl⟩
  | @skip o _ _ _ _ m ho hm =>
    have : m < o.data.length := hm
    simp [hfirm o (by simp) ho] at this
  | stop => cases hok

theorem Chunk.Firm.outputs {c : Chunk} (h : c.Firm) : ∀ o ∈ c.outputs, o.lenient = true → o.data = [] := by
  intro o ho hlen
  cases c with
  | normal newData =>
    obtain rfl := h newData rfl
    simp [Chunk.outputs] at ho
    simp [ho]
  | raw d =>
    simp [Chunk.outputs] at ho
    simp [ho] at hlen
  | deflate pieces =>
    obtain ⟨_, _, rfl⟩ := List.mem_map.mp ho
    simp at hlen

theorem chunksOf_bsdiff {source : Bytes} {patch : Value} {bonusData : Option Value} (h : patch.data.take 8 = lit "BSDIFF40") :
    (chunksOf cod source patch bonusData).1 = [] := by
  have hne : patch.data.take 8 ≠ lit "IMGDIFF2" := by
    rw [h]
    decide
  rw [chunksOf, if_pos (Or.inr hne)]

theorem exists_emits_lt {os : List Output} {o : Output} (ho : o ∈ os) (hlen : o.lenient = true) (hd : o.data ≠ []) :
    ∃ h w, Emits AnyShort os true h w ∧ h.length < (flat os).length := by
  obtain ⟨os₁, os₂, rfl⟩ := List.append_of_mem ho
  refine ⟨flat os₁ ++ flat os₂, flat os₁ ++ (o.data.take 0 ++ flat os₂),
    (emits_flat _ os₁).append (.skip hlen (List.length_pos_iff.mpr hd) (emits_flat _ os₂)), ?_⟩
  have := List.length_pos_iff.mpr hd
  simp [flat]
  omega

theorem appliesAll_iff {source : Bytes} {patch : Value} :
    AppliesAll cod a source patch ↔ (planOf cod source patch a.bonusData).2 ≠ none ∨
      ∀ c ∈ (chunksOf cod source patch a.bonusData).1, c.Firm := by
  constructor
  · intro hall
    by_contra hno
    obtain ⟨hstop, hsoft⟩ := not_or.mp hno
    rw [not_not] at hstop
    -- whatever can be emitted is emitted by some run, on an empty file
    have hemit : ∀ h w, Emits AnyShort (planOf cod source patch a.bonusData).1 true h w →
        (∀ c ∈ (chunksOf cod source patch a.bonusData).1, c ≠ .normal none) ∧
          h = flat (planOf cod source patch a.bonusData).1 := by
      intro h w he
      have hb : HasBytes (Sys.ofFiles [([], ⟨[], 0, 0, 0, true, true⟩)]) [] [] := ⟨_, rfl, rfl, rfl⟩
      obtain ⟨s', hcan, -⟩ := applyAny_can hb hstop he
      obtain ⟨ev, n, hrun⟩ := hcan.run
      obtain ⟨hne, hctx, -⟩ := hall [] ev _ _ n s' hb hrun
      exact ⟨hne, hctx⟩
    have happ := (hemit _ _ (emits_flat _ _)).1
    apply hsoft
    rintro c hc newData rfl
    cases newData with
    | none => exact absurd rfl (happ _ hc)
    | some d =>
      by_contra hd
      have hmem : (⟨true, d⟩ : Output) ∈ (planOf cod source patch a.bonusData).1 := by
        have himg : patch.data.take 8 ≠ lit "BSDIFF40" := fun h => by simp [chunksOf_bsdiff h] at hc
        rw [planOf, if_neg himg]
        exact List.mem_flatMap.mpr ⟨_, hc, by simp [Chunk.outputs]⟩
      obtain ⟨h, w, he, hlt⟩ := exists_emits_lt hmem rfl (fun h => hd (congrArg some h))
      exact hlt.ne (congrArg List.length (hemit h w he).2)
  · intro hcond p ev s o n s' hb hrun
    have hsink : SinkSat (fun _ => True) (fileSinkFn p) (ShortWrite fun _ => True)
        (fun _ s' b => Changes (· = p) s s' ∧ HasBytes s' p b) (fun _ _ => True) fun s' => ∃ s₁,
          Changes (· = p) s s₁ ∧ Lost (fun _ => True) s₁ s' :=
      fileSinkFn_sat
    obtain ⟨h, w, ⟨-, hw⟩, hcase⟩ := (applyAny_sat hsink (fun _ _ _ _ _ _ => trivial) ⟨.refl _ s, hb⟩).of_ok (fun _ => trivial) hrun
    obtain ⟨-, hstop, he, hctx⟩ := hcase.resolve_right fun h => h.1 rfl
    have hfirm := hcond.resolve_left hstop
    have hos : ∀ o ∈ (planOf cod source patch a.bonusData).1, o.lenient = true → o.data = [] := by
      intro o ho hlen
      by_cases hbs : patch.data.take 8 = lit "BSDIFF40"
      · rw [planOf, if_pos hbs] at ho
        cases hmem : applyBSDiffPatchMem cod (OldData.whole source) patch.data 0 with
        | error stop => simp [hmem] at ho
        | ok newData =>
          simp only [hmem, List.mem_singleton] at ho
          simp [ho] at hlen
      · rw [planOf, if_neg hbs] at ho
        obtain ⟨c, hc, ho⟩ := List.mem_flatMap.mp ho
        exact (hfirm c hc).outputs o ho hlen
    obtain ⟨rfl, rfl⟩ := (he.mono ShortWrite.any).of_firm rfl hos
    refine ⟨fun c hc hnone => by simpa using hfirm c hc none hnone, by simpa using hctx, ?_⟩
    simpa [show o.ctx = _ from hctx] using hw

end

/-- **Is what is installed what was hashed?** For a file target (other than the saved copy itself)
it is, in every run that returns 0, exactly if the outputs of the patch are not droppable. And the
patch functions apply all chunks whenever they return 0 exactly if they stop before the end, or no
normal chunk has anything to write. -/
theorem installed_iff (cod : Codecs) (lib : Lib) (a : Args) (targetSha1 : Bytes) (sourceFile : FileContents)
    (sourcePatch : Option Value) (copyFile : FileContents) (copyPatch : Value)
    (hfile : isPartitionName a.targetFilename = false) (hcopy : a.targetFilename ≠ cacheTempSource) :
    (InstallsHashed cod lib a targetSha1 sourceFile sourcePatch copyFile copyPatch ↔
      ¬ ((sourcePatch.getD copyPatch).isBlob = true ∧
        (planFor cod a (if sourcePatch.isSome then sourceFile else copyFile) (sourcePatch.getD copyPatch)).2 = none ∧
        Droppable lib targetSha1
          (planFor cod a (if sourcePatch.isSome then sourceFile else copyFile) (sourcePatch.getD copyPatch)).1)) ∧
    ∀ source patch, AppliesAll cod a source patch ↔ (planOf cod source patch a.bonusData).2 ≠ none ∨
      ∀ c ∈ (chunksOf cod source patch a.bonusData).1, c.Firm :=
  ⟨installsHashed_iff hfile hcopy, fun _ _ => appliesAll_iff⟩

/-! ### A patch that loses a chunk -/

/-- The bzip2 stream of one control triple: no difference, two extra bytes. -/
def bzCtrl : Bytes :=
  [0x42, 0x5a, 0x68, 0x39, 0x31, 0x41, 0x59, 0x26, 0x53, 0x59, 0x5b, 0x3c, 0xfd, 0xb1, 0x00, 0x00, 0x00, 0x40, 0x00, 0x54, 0x08,
    0x20, 0x00, 0x21, 0x8c, 0x83, 0x34, 0xd1, 0x09, 0x5d, 0x38, 0xbb, 0x92, 0x29, 0xc2, 0x84, 0x82, 0xd9, 0xe7, 0xed, 0x88]

def bzNone : Bytes := [0x42, 0x5a, 0x68, 0x39, 0x17, 0x72, 0x45, 0x38, 0x50, 0x90, 0x00, 0x00, 0x00, 0x00]

def bzExtra : Bytes :=
  [0x42, 0x5a, 0x68, 0x39, 0x31, 0x41, 0x59, 0x26, 0x53, 0x59, 0xc6, 0xc9, 0xf4, 0x41, 0x00, 0x00, 0x00, 0x00, 0x80, 0x00, 0x60,
    0x20, 0x00, 0x21, 0x00, 0x82, 0xb1, 0x77, 0x24, 0x53, 0x85, 0x09, 0x0c, 0x6c, 0x9f, 0x44, 0x10]

/-- A 32-bit `off_t` is wide enough. -/
theorem off_t_bits : 32 ≤ 32 := Nat.le_refl _

def xyCodecs : Codecs where
  BzStream := Bytes
  bzInit := fun input =>
    if input = bzCtrl then LittleEndian.toBytes 8 0 ++ LittleEndian.toBytes 8 2 ++ LittleEndian.toBytes 8 0
    else if input = bzExtra then lit "xy" else []
  bzDecompress := fun st n => if n < st.length then (bzOk, st.take n, st.drop n) else (bzStreamEnd, st, [])
  bzDecompress_le := fun st n => by
    split_ifs
    · exact List.length_take_le n st
    · simp only
      omega
  inflate := fun _ _ => (-3, [])
  inflate_le := fun _ => Nat.zero_le
  deflate := fun _ _ => none
  offBits := 32
  offBits_le := off_t_bits
  steps := 4

/-- An image patch: a normal chunk that adds "xy", then "abc". -/
def xyabcPatch : Value where
  isBlob := true
  data := lit "IMGDIFF2" ++ LittleEndian.toBytes 4 2 ++
    (LittleEndian.toBytes 4 0 ++ LittleEndian.toBytes 8 0 ++ LittleEndian.toBytes 8 0 ++ LittleEndian.toBytes 8 51) ++
    (LittleEndian.toBytes 4 3 ++ LittleEndian.toBytes 4 3 ++ lit "abc") ++
    (lit "BSDIFF40" ++ LittleEndian.toBytes 8 bzCtrl.length ++ LittleEndian.toBytes 8 bzNone.length ++ LittleEndian.toBytes 8 2 ++
      bzCtrl ++ bzNone ++ bzExtra)
  size_lt := by decide +kernel

def abcPatch : Value where
  isBlob := true
  data := lit "IMGDIFF2" ++ LittleEndian.toBytes 4 1 ++ (LittleEndian.toBytes 4 3 ++ LittleEndian.toBytes 4 3 ++ lit "abc")
  size_lt := by decide +kernel

def fileArgs (patchSha1Str : List Bytes) (patchData : List (Option Value)) : Args where
  sourceFilename := lit "/system/a"
  targetFilename := lit "/system/a"
  targetSha1Str := abcSha1Str
  targetSize := 3
  patchSha1Str := patchSha1Str
  patchData := patchData
  bonusData := none
  stack := .blank

def FileContents.empty : FileContents := { FileContents.blank with data := some [] }

theorem planFor_xyabc : planFor xyCodecs (fileArgs [] []) .empty xyabcPatch = ([⟨true, lit "xy"⟩, ⟨false, lit "abc"⟩], none) := by
  decide +kernel

/-- The write of "xy" fails after one byte: `GenerateTarget` returns 0 for the hash of
"abc", and the target is "xabc". -/
theorem xyabc_installs_xabc : ∃ ev n s',
    generateTarget xyCodecs abcLib (fileArgs [] []) abcSha1 .empty (some xyabcPatch) .blank xyabcPatch ev 0 (Sys.ofFiles []) =
      .ok (lit "abc") n s' ∧ HasBytes s' (lit "/system/a") (lit "xabc") := by
  have he : Emits AnyShort [⟨true, lit "xy"⟩, ⟨false, lit "abc"⟩] true (lit "abc") (lit "xabc") :=
    .skip (o := ⟨true, lit "xy"⟩) (m := 1) rfl (show 1 < 2 by decide) (.full (o := ⟨false, lit "abc"⟩) .done)
  have hplan : (planFor xyCodecs (fileArgs [] []) .empty xyabcPatch).1 = [⟨true, lit "xy"⟩, ⟨false, lit "abc"⟩] :=
    congrArg Prod.fst planFor_xyabc
  rw [← hplan] at he
  rw [generateTarget_eq (by decide +kernel)]
  have hsha : abcLib.sha1 (lit "abc") = abcSha1 := by decide +kernel
  obtain ⟨s', hcan, hw⟩ := generateFile_can true rfl (congrArg Prod.snd planFor_xyabc) he hsha (Sys.ofFiles [])
  obtain ⟨ev, n, hrun⟩ := hcan.run
  exact ⟨ev, n, s', hrun, hw⟩

/-- A patch without normal chunks loses nothing. -/
theorem abc_installs_hashed :
    InstallsHashed xyCodecs abcLib (fileArgs [] []) abcSha1 .empty (some abcPatch) .blank abcPatch := by
  refine (installed_iff xyCodecs abcLib (fileArgs [] []) abcSha1 .empty (some abcPatch) .blank abcPatch (by decide +kernel)
    (by decide +kernel)).1.mpr ?_
  have hplan : (planFor xyCodecs (fileArgs [] []) .empty abcPatch).1 = [⟨false, lit "abc"⟩] := by decide +kernel
  rintro ⟨-, -, marks, hmap, hlen, ⟨m, hm, hf, -⟩, -⟩
  have hmem : m.1 ∈ [(⟨false, lit "abc"⟩ : Output)] := by
    rw [← hplan]
    exact hmap ▸ List.mem_map_of_mem hm
  have := hlen m hm hf
  simp [List.mem_singleton.mp hmem] at this

end Patch
end Recovery
