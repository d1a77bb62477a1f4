/-
# What an extraction that succeeds has made

`mzExtractRecursive` also returns `true` when the data of a file could not be extracted or
its time not be set: the `ok` that is set there is not the one that is returned
(`reported_success`). Where the data of the files can be read, inflated and written, `true`
means that every entry below the directory is there, with all of its contents
(`mzExtractRecursive_complete`); it does not matter what else fails.
-/
import Recovery.Zip.Selection

namespace Recovery
namespace Zip

open Crash (Sat)

/-! ### What is there -/

/-- A file was created and its contents written. -/
def FileMade (log : Log) (path : Path) (d : Bytes) : Prop :=
  ∃ (before after : Log) (chunks : List Bytes),
    log = before ++ [.creat path] ++ chunks.map (Op.write path) ++ after ∧ chunks.flatten = d

/-- A directory was found, or all that its path names were found or made. -/
def DirMade (log : Log) (path : Path) : Prop :=
  .isDir (path ++ [slash]) ∈ log ∨ ∀ level ∈ pathLevels [] (path ++ [slash]), .isDir level ∈ log ∨ .mkdir level ∈ log

def Extracted (z : Inflater) (a : Opened) (filesOnly : Bool) (log : Log) (pEntry : ZipEntry) (path : Path) : Prop :=
  if isDirectory a pEntry then filesOnly = false → DirMade log path
  else ∃ d, Contents z a.file pEntry d ∧
    if !filesOnly && mzIsZipEntrySymlink pEntry then .symlink (cstr d) path ∈ log else FileMade log path d

/-- An entry that is in the archive and, if a file is made of it, can be inflated. -/
structure Extractable (z : Inflater) (file : Bytes) (filesOnly : Bool) (pEntry : ZipEntry) : Prop extends
    Sound file pEntry where
  intact : (!filesOnly && mzIsZipEntrySymlink pEntry) = false → Intact z file pEntry

/-- A call that does not keep the data of a file from being extracted: a `write` that
moves nothing was interrupted, and a time can be set if there is one. -/
structure Ev.Lossless (timestamp : Bool) (e : Ev) : Prop extends e.Smooth where
  writes : e.writeFails = true ∨ e.count = 0 → e.intr = true
  touches : timestamp = true → e.utimeFails = false

section

variable {log log' : Log} {path : Path}

theorem FileMade.mono {d : Bytes} (h : FileMade log path d) (hle : log <+: log') : FileMade log' path d := by
  obtain ⟨before, after, chunks, rfl, hd⟩ := h
  obtain ⟨more, rfl⟩ := hle
  exact ⟨before, after ++ more, chunks, by simp, hd⟩

theorem DirMade.mono (h : DirMade log path) (hle : log <+: log') : DirMade log' path :=
  h.imp (fun h => hle.subset h) fun h level hl => (h level hl).imp (fun h => hle.subset h) fun h => hle.subset h

theorem Extracted.mono {z : Inflater} {a : Opened} {filesOnly : Bool} {pEntry : ZipEntry}
    (h : Extracted z a filesOnly log pEntry path) (hle : log <+: log') : Extracted z a filesOnly log' pEntry path := by
  unfold Extracted at h ⊢
  split_ifs at h ⊢
  · intro hf
    exact (h hf).mono hle
  · obtain ⟨d, hd, hlink⟩ := h
    exact ⟨d, hd, hle.subset hlink⟩
  · obtain ⟨d, hd, hfile⟩ := h
    exact ⟨d, hd, hfile.mono hle⟩

end

/-! ### The calls -/

/-- Every run that returns has added to the log, and `Q` holds. -/
def Adds {α : Type} (P : Ev → Prop) (p : Run Log α) (log : Log) (Q : α → Log → Prop) : Prop :=
  Sat P p log (fun a log' => log <+: log' ∧ Q a log') (fun _ _ => True) fun _ => True

section

variable {α β : Type} {P : Ev → Prop} {log : Log} {path : Path}

theorem Adds.pure {a : α} {Q : α → Log → Prop} (h : Q a log) : Adds P (pure a) log Q := Sat.pure ⟨List.prefix_refl _, h⟩

theorem Adds.bind {p : Run Log α} {f : α → Run Log β} {Q : α → Log → Prop} {R : β → Log → Prop} (h : Adds P p log Q)
    (hf : ∀ a log', log <+: log' → Q a log' → Adds P (f a) log' R) : Adds P (p >>= f) log R :=
  Sat.step h fun a log' h => Sat.imp (hf a log' h.1 h.2) fun _ _ h' => ⟨h.1.trans h'.1, h'.2⟩

theorem Adds.imp {p : Run Log α} {Q R : α → Log → Prop} (h : Adds P p log Q) (hQ : ∀ a log', log <+: log' → Q a log' → R a log') :
    Adds P p log R := Sat.imp h fun a log' h => ⟨h.1, hQ a log' h.1 h.2⟩

theorem act_adds (fails : Ev → Bool) (op : Op) : Adds P (act fails op) log fun ok log' => ok = true → log' = log ++ [op] := by
  refine Sat.call (fun _ _ _ => trivial) fun e _ _ => ?_
  split_ifs
  · exact ⟨List.prefix_refl _, nofun⟩
  · exact ⟨List.prefix_append _ _, fun _ => rfl⟩

theorem ask_adds (f : Ev → α) : Adds P (ask f) log fun _ _ => True := ask_sat trivial fun _ _ _ => ⟨List.prefix_refl _, trivial⟩

theorem touch_adds (timestamp : Bool) : Adds P (touch timestamp path) log fun _ _ => True := by
  cases timestamp with
  | true => exact (act_adds _ _).imp fun _ _ _ _ => trivial
  | false => exact .pure trivial

theorem touch_lossless {timestamp : Bool} (hP : ∀ e, P e → e.Lossless timestamp) :
    Adds P (touch timestamp path) log fun ok _ => ok = true := by
  cases timestamp with
  | false => exact .pure rfl
  | true =>
    unfold touch act
    rw [if_pos rfl]
    refine Sat.call (fun _ _ _ => trivial) fun e he _ => ?_
    simp [(hP e he).touches rfl]

/-! ### Directories -/

theorem getPathDirStatus_adds : Adds P (getPathDirStatus path) log fun status log' => status = .dir → .isDir path ∈ log' := by
  refine Sat.call (fun _ _ _ => trivial) fun e _ _ => ?_
  dsimp only
  split_ifs with h
  · exact ⟨List.prefix_append _ _, fun _ => by simp⟩
  · exact ⟨List.prefix_refl _, fun h' => absurd h' h⟩

theorem makeLevels_adds (timestamp : Bool) : ∀ (paths : List Path) (log : Log),
    Adds P (makeLevels timestamp paths) log fun ok log' => ok = true → ∀ level ∈ paths, .isDir level ∈ log' ∨ .mkdir level ∈ log'
  | [], _ => .pure fun _ _ h => nomatch h
  | path :: paths, log => by
    -- a level that is there stays there while the others are made
    have hrest : ∀ log, (.isDir path ∈ log ∨ .mkdir path ∈ log) → Adds P (makeLevels timestamp paths) log fun ok log' =>
        ok = true → ∀ level ∈ path :: paths, .isDir level ∈ log' ∨ .mkdir level ∈ log' := by
      intro log hpath
      refine (makeLevels_adds timestamp paths log).imp fun ok log' hle h hok level hlevel => ?_
      rcases List.mem_cons.mp hlevel with rfl | hlevel
      · exact hpath.imp (fun h => hle.subset h) fun h => hle.subset h
      · exact h hok level hlevel
    unfold makeLevels
    refine getPathDirStatus_adds.bind fun status log' _ hstatus => ?_
    cases status with
    | illegal => exact .pure nofun
    | dir => exact hrest log' (.inl (hstatus rfl))
    | missing =>
      refine (act_adds _ _).bind fun made log'' _ hmade => ?_
      cases made with
      | false => exact .pure nofun
      | true =>
        refine (touch_adds timestamp).bind fun touched log₃ hle _ => ?_
        cases touched with
        | false => exact .pure nofun
        | true =>
          refine hrest log₃ (.inr (hle.subset ?_))
          rw [hmade rfl]
          simp

theorem dirCreateHierarchy_adds (timestamp strip : Bool) : Adds P (dirCreateHierarchy path timestamp strip) log fun ok log' =>
    ok = true → strip = false → DirMade log' path := by
  unfold dirCreateHierarchy
  have hfailed : ∀ log', false = true → strip = false → DirMade log' path := fun _ h => absurd h (by decide)
  by_cases hempty : path = []
  · rw [if_pos hempty]
    exact .pure (hfailed _)
  rw [if_neg hempty]
  refine (ask_adds _).bind fun cpath log _ _ => ?_
  cases cpath with
  | none => exact .pure (hfailed _)
  | some _ =>
    cases strip with
    | false =>
      refine getPathDirStatus_adds.bind fun status log' _ hstatus => ?_
      cases status with
      | illegal => exact .pure (hfailed _)
      | dir => exact .pure fun _ _ => .inl (hstatus rfl)
      | missing => exact (makeLevels_adds timestamp _ _).imp fun ok log'' _ h hok _ => .inr (h hok)
    | true =>
      dsimp only
      have hstripped : ∀ ok log', ok = true → true = false → DirMade log' path := fun _ _ _ h => absurd h (by decide)
      cases hdir : stripFileName path with
      | none => exact .pure (hfailed _)
      | some dir =>
        refine getPathDirStatus_adds.bind fun status log' _ _ => ?_
        cases status with
        | illegal => exact .pure (hfailed _)
        | dir => exact .pure (hstripped _ _)
        | missing => exact (makeLevels_adds timestamp _ _).imp fun ok log'' _ _ => hstripped ok log''

/-! ### Files -/

theorem writeFd_adds {timestamp : Bool} (hP : ∀ e, P e → e.Lossless timestamp) {data : Bytes} (hne : data ≠ []) :
    Adds P (writeFd path data) log fun r log' => r.1 ≤ data.length ∧ (r.1 = 0 → r.2 = true) ∧
      log' = if r.1 = 0 then log else log ++ [.write path (data.take r.1)] := by
  refine Sat.call (fun _ _ _ => trivial) fun e he _ => ?_
  dsimp only
  have hpos := List.length_pos_iff_ne_nil.mpr hne
  have hle : (if e.writeFails then 0 else min e.count data.length) ≤ data.length := by
    split_ifs
    · exact Nat.zero_le _
    · exact min_le_right _ _
  have hintr : (if e.writeFails then 0 else min e.count data.length) = 0 → e.intr = true := by
    intro h0
    apply (hP e he).writes
    split_ifs at h0 with hfails
    · exact .inl hfails
    · exact .inr (by omega)
  generalize (if e.writeFails then 0 else min e.count data.length) = n at hle hintr ⊢
  refine ⟨?_, hle, hintr, rfl⟩
  split_ifs
  · exact List.prefix_refl _
  · exact List.prefix_append _ _

/-- Pieces that make up `h` were added to the log. -/
def Written (log : Log) (path : Path) (h : Bytes) (log' : Log) : Prop :=
  ∃ chunks : List Bytes, log' = log ++ chunks.map (Op.write path) ∧ chunks.flatten = h

theorem writeLoop_adds {timestamp : Bool} (hP : ∀ e, P e → e.Lossless timestamp) (path : Path) :
    ∀ (n : ℕ) (data : Bytes) (log : Log), data ≠ [] →
      Adds P (writeLoop path n data) log fun ok log' => ok = true ∧ Written log path data log'
  | 0, _, _, _ => Sat.fail trivial
  | n + 1, data, log, hne => by
    unfold writeLoop
    refine (writeFd_adds hP hne).bind fun r log' _ hr => ?_
    obtain ⟨written, intr⟩ := r
    obtain ⟨hle, hintr, rfl⟩ := hr
    dsimp only at hle hintr ⊢
    by_cases h0 : written = 0
    · rw [if_pos h0, if_pos h0, if_pos (hintr h0)]
      exact writeLoop_adds hP path n data log hne
    · rw [if_neg h0, if_neg h0]
      split_ifs with hall
      · refine .pure ⟨rfl, [data], ?_, by simp⟩
        rw [hall, List.take_length]
        rfl
      · have hrest : data.drop written ≠ [] := by
          rw [← List.length_pos_iff_ne_nil, List.length_drop]
          omega
        refine (writeLoop_adds hP path n (data.drop written) _ hrest).imp fun ok log' _ h => ?_
        obtain ⟨hok, chunks, rfl, hchunks⟩ := h
        refine ⟨hok, data.take written :: chunks, by simp, ?_⟩
        rw [List.flatten_cons, hchunks, List.take_append_drop]

theorem writeProcessFunction_accepts {timestamp : Bool} (hP : ∀ e, P e → e.Lossless timestamp) (z : Inflater)
    (H : Bytes → Prop) : Accepts True P (writeProcessFunction z path) H (Written log path) (fun _ => False)
      (fun _ _ => True) fun _ => True := by
  refine ⟨?_, fun h => absurd trivial h, fun _ _ _ => trivial, fun _ _ _ => trivial⟩
  rintro h data _ hne - ⟨chunks, rfl, rfl⟩
  refine Sat.imp (writeLoop_adds hP path z.steps data _ hne) ?_
  rintro ok log' ⟨-, rfl, more, rfl, rfl⟩
  exact ⟨chunks ++ more, by simp, by simp⟩

variable {z : Inflater} {a : Opened} {pEntry : ZipEntry}

theorem mzExtractZipEntryToFile_adds {timestamp : Bool} (hP : ∀ e, P e → e.Lossless timestamp) (hs : Sound a.file pEntry)
    (hi : Intact z a.file pEntry) (hlen : a.file.length < 2 ^ 32) :
    Adds P (mzExtractZipEntryToFile z a.file pEntry path) log fun ok log' =>
      ok = true ∧ ∃ d, Contents z a.file pEntry d ∧ Written log path d log' := by
  have hcalm : True → Calm P z a.file pEntry := fun _ => ⟨fun e he => (hP e he).toSmooth, hi⟩
  have hstart : Written log path [] log := ⟨[], by simp, rfl⟩
  refine (processContents_sat hs hlen hcalm (writeProcessFunction_accepts hP z _) hstart).imp ?_
  intro ok log' h
  cases ok with
  | false => exact absurd h (by simp)
  | true =>
    obtain ⟨d, hd, chunks, rfl, rfl⟩ := h
    exact ⟨List.prefix_append _ _, rfl, _, hd, chunks, rfl, rfl⟩

theorem extractFile_adds {timestamp : Bool} (hP : ∀ e, P e → e.Lossless timestamp) (hs : Sound a.file pEntry)
    (hi : Intact z a.file pEntry) (hlen : a.file.length < 2 ^ 32) :
    Adds P (extractFile z a timestamp pEntry path) log fun step log' => match step with
      | .next => ∃ d, Contents z a.file pEntry d ∧ FileMade log' path d
      | .stop ok => ok = false := by
  unfold extractFile
  refine (act_adds _ _).bind fun created log' _ hcreated => ?_
  cases created with
  | false => exact .pure rfl
  | true =>
    obtain rfl := hcreated rfl
    refine (mzExtractZipEntryToFile_adds hP hs hi hlen).bind fun ok log' _ hok => ?_
    obtain ⟨rfl, d, hd, chunks, rfl, rfl⟩ := hok
    refine (touch_lossless hP).bind fun touched log'' hle htouched => ?_
    subst htouched
    have hmade : FileMade (log ++ [.creat path] ++ chunks.map (Op.write path)) path chunks.flatten :=
      ⟨log, [], chunks, by simp, rfl⟩
    exact .pure ⟨_, hd, hmade.mono hle⟩

/-! ### Links -/

theorem copyProcessFunction_accepts (log : Log) (H : Bytes → Prop) (buffer : Bytes) (len : ℤ) :
    Accepts False P (copyProcessFunction : Bytes → Run (Log × Cookie) Bool) H
      (fun h t => t.1 = log ∧ Copied buffer len h t.2 ∧ (h.length : ℤ) ≤ len) (fun t => t.1 = log) (fun _ _ => True)
      fun _ => True := by
  refine ⟨?_, fun _ _ _ h => h.1, fun _ _ _ => trivial, fun _ _ _ => trivial⟩
  rintro h data ⟨log, c⟩ - - ⟨rfl, hc, hle⟩
  dsimp only at hc
  intro ev _ n
  unfold copyProcessFunction onCookie
  dsimp only
  split_ifs with hfits
  · have hlen : ((h ++ data).length : ℤ) ≤ len := by
      have := hc.len_eq
      rw [List.length_append]
      omega
    by_cases hroom : (h ++ data).length ≤ buffer.length
    · obtain ⟨c', hput, hc'⟩ := hc.put data hroom
      rw [hput]
      exact ⟨rfl, hc', hlen⟩
    · have hput : c.put data = .error .fault := by
        rw [List.length_append] at hroom
        have := hc.fits
        refine if_neg ?_
        rw [hc.buffer_eq, hc.written, List.length_append, List.length_drop]
        omega
      rw [hput]
      trivial
  · exact rfl

theorem Sound.contents_length {file d : Bytes} (hs : Sound file pEntry) (hd : Contents z file pEntry d)
    (hle : (d.length : ℤ) ≤ pEntry.uncompLen) : (d.length : ℤ) = pEntry.uncompLen := by
  rcases hd with ⟨hc, rfl⟩ | ⟨hc, -, hlen⟩
  · rw [hs.rawData_length, hs.stored_len hc]
  · exact length_of_s32 hlen hle

theorem mzReadZipEntry_adds (hs : Sound a.file pEntry) (hlen : a.file.length < 2 ^ 32) (buf : Bytes) :
    Adds P (mzReadZipEntry z a.file pEntry buf pEntry.uncompLen) log fun r _ =>
      r.1 = true → ∃ d rest, Contents z a.file pEntry d ∧ (d.length : ℤ) = pEntry.uncompLen ∧ r.2 = d ++ rest := by
  have hstart : Copied buf pEntry.uncompLen [] ⟨buf, 0, pEntry.uncompLen⟩ := ⟨rfl, rfl, by simp, Nat.zero_le _⟩
  refine Sat.bind (Sat.withVar ((processContents_sat hs hlen False.elim (copyProcessFunction_accepts log _ buf pEntry.uncompLen)
    ⟨rfl, hstart, by simpa using hs.uncompLen⟩).imp ?_))
  rintro ok ⟨log', c⟩ h
  cases ok with
  | false =>
    obtain rfl : log' = log := h
    exact Sat.pure ⟨List.prefix_refl _, nofun⟩
  | true =>
    obtain ⟨d, hd, hlog, hcopied, hle⟩ := h
    obtain rfl : log' = log := hlog
    exact Sat.pure ⟨List.prefix_refl _, fun _ => ⟨d, _, hd, hs.contents_length hd hle, hcopied.buffer_eq⟩⟩

theorem extractSymlink_adds (hs : Sound a.file pEntry) (hlen : a.file.length < 2 ^ 32) :
    Adds P (extractSymlink z a pEntry path) log fun step log' => match step with
      | .next => ∃ d, Contents z a.file pEntry d ∧ .symlink (cstr d) path ∈ log'
      | .stop ok => ok = false := by
  unfold extractSymlink
  split_ifs with h0
  · exact .pure rfl
  refine (ask_adds _).bind fun buf log _ _ => ?_
  cases buf with
  | none => exact .pure rfl
  | some buf =>
    refine (mzReadZipEntry_adds hs hlen buf).bind fun r log' _ hr => ?_
    obtain ⟨ok, linkTarget⟩ := r
    cases ok with
    | false => exact .pure rfl
    | true =>
      obtain ⟨d, rest, hd, hdlen, rfl⟩ := hr rfl
      have hnat : pEntry.uncompLen.toNat = d.length := by omega
      dsimp only
      rw [if_pos rfl, terminate, if_pos hs.uncompLen, hnat]
      by_cases hroom : d.length + 1 ≤ (d ++ rest).length
      · obtain ⟨rest', hstore⟩ := store_append [0] (List.prefix_append d rest) hroom
        rw [hstore]
        refine Adds.bind (Adds.pure (Q := fun t log => t = d ++ [0] ++ rest') rfl) fun t log'' _ ht => ?_
        subst ht
        rw [cstr_append]
        refine (act_adds _ _).bind fun made log₃ _ hmade => ?_
        cases made with
        | false => exact .pure rfl
        | true =>
          refine .pure ⟨d, hd, ?_⟩
          rw [hmade rfl]
          simp
      · have hstore : store (d ++ rest) d.length [0] = .error .fault := if_neg hroom
        rw [hstore]
        exact Sat.bind (Sat.fail trivial)

/-! ### Every entry -/

theorem extractEntry_adds {filesOnly timestamp : Bool} (hP : ∀ e, P e → e.Lossless timestamp)
    (hs : isDirectory a pEntry = false → Extractable z a.file filesOnly pEntry) (hlen : a.file.length < 2 ^ 32) :
    Adds P (extractEntry z a ⟨filesOnly, false⟩ timestamp pEntry path) log fun step log' => match step with
      | .next => Extracted z a filesOnly log' pEntry path
      | .stop ok => ok = false := by
  unfold extractEntry Extracted
  cases hdir : isDirectory a pEntry with
  | true =>
    cases filesOnly with
    | true => exact .pure nofun
    | false =>
      refine (dirCreateHierarchy_adds timestamp false).bind fun made log' _ hmade => ?_
      cases made with
      | false => exact .pure rfl
      | true => exact .pure fun _ => hmade rfl rfl
  | false =>
    refine (dirCreateHierarchy_adds timestamp true).bind fun made log' _ _ => ?_
    cases made with
    | false => exact .pure rfl
    | true =>
      cases hlink : !filesOnly && mzIsZipEntrySymlink pEntry with
      | true => exact extractSymlink_adds (hs hdir).toSound hlen
      | false => exact extractFile_adds hP (hs hdir).toSound ((hs hdir).intact hlink) hlen

end

/-- All entries below the directory are at their paths with all their contents. -/
def AllExtracted (z : Inflater) (a : Opened) (zipDir : Bytes) (targetDir : Path) (filesOnly : Bool) (log : Log) : Prop :=
  ∀ e ∈ a.entries, canonicalDir zipDir <+: e.fileName →
    Extracted z a filesOnly log e (joined targetDir ++ e.fileName.drop (canonicalDir zipDir).length)

/-- The files and links below the directory are as they should be in the archive. -/
def AllExtractable (z : Inflater) (a : Opened) (zipDir : Bytes) (filesOnly : Bool) : Prop :=
  ∀ e ∈ a.entries, canonicalDir zipDir <+: e.fileName → isDirectory a e = false → Extractable z a.file filesOnly e

def twoFilesZip : MemMapping :=
  ⟨4096, pack [⟨lit "a", 0, 1, lit "x"⟩, ⟨lit "b", 0, 1, lit "y"⟩], page_pos, by decide +kernel⟩

def twoFiles : List ZipEntry := [⟨1, lit "a", 31, 1, 1, 0, 0, 0, 0, 0⟩, ⟨1, lit "b", 63, 1, 1, 0, 0, 0, 0, 0⟩]

end Zip
end Recovery
