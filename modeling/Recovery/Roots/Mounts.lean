/-
# What is mounted (mounts.c, roots.c)

`scan_mounted_volumes` reads `/proc/mounts` once, into a buffer of 2048 bytes, and takes a
line apart with `%63s %63s %63s %127s`. The entries go into a table of 32 that does not
grow. There is memory for the table and the strings.

Key definitions: `scannedPoints`, `Legible`.

Key theorems: `scanLoop_eq`, `scan_faithful`, `long_table_behind`.
-/
import Recovery.Zip.Archive
import Recovery.Roots.Volumes
import Recovery.Vold.Dispatcher
import Recovery.Lib.Shell

namespace Recovery
namespace Mounts

open Roots
open Zip (cstr pathMax)

/-! ### The mount table -/

structure MountedVolume where
  device : Bytes
  mountPoint : Bytes
  filesystem : Bytes
  flags : Bytes
  deriving DecidableEq

/-- `%s` with a width: the word, and what is behind it. -/
def scanWord (width : ℕ) (s : Bytes) : Option (Bytes × Bytes) :=
  let s := s.dropWhile isspace
  let word := (s.take width).takeWhile (! isspace ·)
  if word = [] then none else some (word, s.drop word.length)

/-- `sscanf` with words only: the widths, and the sizes of the arrays for the words. -/
def scanWords : List (ℕ × ℕ) → Bytes → Except Stop (List Bytes)
  | [], _ => .ok []
  | (width, size) :: rest, s =>
    match scanWord width s with
    | none => .ok []
    | some (word, s) => do
      failIf (size ≤ word.length) .fault
      let words ← scanWords rest s
      .ok (word :: words)

/-- `"%63s %63s %63s %127s"`, into `device`, `mount_point`, `filesystem` and `flags`. -/
def mountFormat : List (ℕ × ℕ) := [(63, pathMax), (63, pathMax), (63, 64), (127, 256)]

/-- The entry that `sscanf` makes of what begins at `bufp`. -/
def scanMount (bufp : Bytes) : Except Stop (Option MountedVolume) := do
  let words ← scanWords mountFormat (cstr bufp)
  match words with
  | [device, mountPoint, filesystem, flags] => .ok (some ⟨device, mountPoint, filesystem, flags⟩)
  | _ => .ok none

def eatLine (bufp : Bytes) : Bytes := (bufp.dropWhile (· ≠ 0x0a)).drop 1

def numVolumes : ℕ := 32

def addVolume (volumes : List MountedVolume) (v : MountedVolume) : Except Stop (List MountedVolume) := do
  failIf (numVolumes ≤ volumes.length) .fault
  .ok (volumes ++ [v])

def scanLoop : ℕ → Bytes → List MountedVolume → Except Stop (List MountedVolume)
  | 0, _, _ => .error .hang
  | fuel + 1, bufp, volumes =>
    if bufp = [] then .ok volumes
    else do
      let v ← scanMount bufp
      let volumes ← match v with
        | some v => addVolume volumes v
        | none => .ok volumes
      scanLoop fuel (eatLine bufp) volumes

def scanMountedVolumes (procMounts : Option Bytes) : Except Stop (ℤ × List MountedVolume) :=
  match procMounts with
  | none => .ok (-1, [])
  | some content => do
    let buf := content.take 2047
    let volumes ← scanLoop (buf.length + 1) buf []
    .ok (0, volumes)

def findMountedVolumeByMountPoint (volumes : List MountedVolume) (mountPoint : CString) : Option MountedVolume :=
  volumes.find? fun v => v.mountPoint = mountPoint.bytes

/-! ### Mounting -/

inductive Call where
  | mkdir (path : CString)
  | rmdir (path : CString)
  | symlink (target path : CString)
  /-- `vold_command` with `volume mount`. -/
  | voldMount (path : CString)
  | mtdFindPartition (name : CString)
  | mtdMountPartition (name mountPoint fsType : CString)
  | mount (device mountPoint fsType : CString)
  | system (command : Bytes)
  deriving DecidableEq

/-- Whether a call mounts something. The only commands here are mount commands. -/
def Call.mounts : Call → Bool
  | .voldMount _ | .mtdMountPartition .. | .mount .. | .system _ => true
  | _ => false

structure Env where
  /-- what `open` and `read` give of `/proc/mounts` -/
  procMounts : Option Bytes
  fsType2 : Volume → Option CString
  fsOptions : Volume → Option CString
  fsOptions2 : Volume → Option CString
  /-- `vold_get_volume_state` -/
  volumeState : CString → ℤ
  /-- what a call returns after the calls before it -/
  answer : List Call → Call → ℤ

abbrev Mounting := StateT (List Call) (Except Stop)

variable (fstab : Fstab) (env : Env)

def issue (c : Call) : Mounting ℤ := fun log => .ok (env.answer log c, log ++ [c])

/-- `sprintf` into `mount_cmd`, and `__system`. -/
def mountCommand (command : Bytes) : Mounting ℤ := do
  if pathMax ≤ command.length then throw .fault
  issue env (.system command)

def tryMount (device : Option CString) (mountPoint : CString) (fsType fsOptions : Option CString) : Mounting ℤ :=
  match device, fsType with
  | some device, some fsType =>
    match fsOptions with
    | none => issue env (.mount device mountPoint fsType)
    | some options => mountCommand env (lit "mount -t " ++ fsType.bytes ++ lit " -o" ++ options.bytes ++ lit " " ++ device.bytes ++
        lit " " ++ mountPoint.bytes)
  | _, _ => pure (-1)

def voldMountVolumeWait (path : CString) : Mounting ℤ :=
  if env.volumeState path = Vold.stateMounted then pure 0
  else if env.volumeState path ≠ Vold.stateIdle then pure (-1)
  else issue env (.voldMount path)

/-- The part of `ensure_path_mounted_at_mount_point` that mounts. -/
def mountVolume (v : Volume) (mountPoint : CString) : Mounting ℤ := do
  let _ ← issue env (.mkdir mountPoint)
  if v.voldmanaged then
    let code ← voldMountVolumeWait env mountPoint
    pure (if code = Vold.commandOkay then 0 else -1)
  else if v.fsType = str "yaffs2" then
    let found ← issue env (.mtdFindPartition v.blkDevice)
    if found = 0 then pure (-1) else issue env (.mtdMountPartition v.blkDevice mountPoint v.fsType)
  else if v.fsType = str "ext4" ∨ v.fsType = str "ext3" ∨ v.fsType = str "rfs" ∨ v.fsType = str "vfat" then
    let result ← tryMount env (some v.blkDevice) mountPoint (some v.fsType) (env.fsOptions v)
    if result = 0 then pure 0
    else
      let result ← tryMount env (some v.blkDevice) mountPoint (env.fsType2 v) (env.fsOptions2 v)
      if result = 0 then pure 0 else tryMount env v.blkDevice2 mountPoint (env.fsType2 v) (env.fsOptions2 v)
  else mountCommand env (lit "mount " ++ mountPoint.bytes)

/-- A path that is not on the SD card of `/data`. -/
def ensureVolumeMounted (path : CString) (mountPoint : Option CString) : Mounting ℤ :=
  match volumeForPath fstab path with
  | none => pure (-1)
  | some v =>
    if v.fsType = str "ramdisk" then pure 0
    else do
      let (result, volumes) ← (scanMountedVolumes env.procMounts : Except Stop _)
      if result < 0 then pure (-1)
      else
        let mountPoint := mountPoint.getD v.mountPoint
        match findMountedVolumeByMountPoint volumes mountPoint with
        | some _ => pure 0
        | none => mountVolume env v mountPoint

def setupDataMedia : Mounting Unit := do
  let mountPoint := ((fstab.recs.find? fun vol => vol.fsType = str "datamedia").map (·.mountPoint)).getD (str "/sdcard")
  let _ ← issue env (.rmdir mountPoint)
  let _ ← issue env (.mkdir (str "/data/media"))
  let _ ← issue env (.symlink (str "/data/media") mountPoint)

/-- It calls itself for `/data`, and does not come back if that is data media too. -/
def ensurePathMountedAtMountPoint (path : CString) (mountPoint : Option CString) : Mounting ℤ :=
  if isDataMediaVolumePath fstab path then
    if isDataMediaVolumePath fstab (str "/data") then throw .hang
    else do
      let ret ← ensureVolumeMounted fstab env (str "/data") none
      if ret ≠ 0 then pure ret
      else
        setupDataMedia fstab env
        pure 0
  else ensureVolumeMounted fstab env path mountPoint

def ensurePathMounted (path : CString) : Mounting ℤ := ensurePathMountedAtMountPoint fstab env path none

/-! ### What a line gives -/

theorem scanWord_word {b w t : Bytes} (hb : ∀ c ∈ b, isspace c = true) (hw : ∀ c ∈ w, isspace c = false) (hne : w ≠ [])
    (ht : ∀ c ∈ t.head?, isspace c = true) {width : ℕ} (hwidth : 0 < width) :
    scanWord width (b ++ (w ++ t)) = some (w.take width, w.drop width ++ t) := by
  have hskip : (b ++ (w ++ t)).dropWhile isspace = w ++ t := by
    obtain ⟨c, w', rfl⟩ := List.exists_cons_of_ne_nil hne
    rw [List.dropWhile_append_of_pos hb]
    simp [hw c List.mem_cons_self]
  have hword : ((w ++ t).take width).takeWhile (! isspace ·) = w.take width := by
    rw [List.take_append, List.takeWhile_append_of_pos fun c hc => by simpa using hw c (List.mem_of_mem_take hc)]
    cases t with
    | nil => simp
    | cons x t =>
      cases width - w.length with
      | zero => simp
      | succ k => simp [ht x rfl]
  have hlen : (w ++ t).drop (w.take width).length = w.drop width ++ t := by
    rw [List.drop_append, List.length_take]
    rcases Nat.le_total width w.length with h | h
    · rw [min_eq_left h, Nat.sub_eq_zero_of_le h, List.drop_zero]
    · rw [min_eq_right h, List.drop_of_length_le h, List.drop_length, Nat.sub_self, List.drop_zero]
  have hpos : w.take width ≠ [] := fun h => by
    rcases List.take_eq_nil_iff.mp h with h0 | h0
    · omega
    · exact hne h0
  unfold scanWord
  simp only [hskip, hword, if_neg hpos, hlen]

/-- Only blanks and line ends stand between the words. -/
def Plain (text : Bytes) : Prop := ∀ c ∈ text, c ≠ 0 ∧ (isspace c = true → c = 0x20 ∨ c = 0x0a)

theorem isspace_of_isBlank : ∀ c : UInt8, Shell.isBlank c = true → isspace c = true := forall_byte (by decide +kernel)

theorem Plain.isspace_eq {text : Bytes} (h : Plain text) {c : UInt8} (hc : c ∈ text)
    (hb : Shell.isBlank c = false) : isspace c = false := by
  by_contra hs
  rcases (h c hc).2 (by simpa using hs) with rfl | rfl <;> exact absurd hb (by decide)

/-- The words of the conversions: what is left of a field that is longer than
the width is the next word. -/
def cutFields : List ℕ → List Bytes → List Bytes
  | [], _ => []
  | _ :: _, [] => []
  | width :: widths, f :: fs =>
    f.take width :: cutFields widths (if f.length ≤ width then fs else f.drop width :: fs)

theorem scanWord_blank {text : Bytes} (h : ∀ c ∈ text, isspace c = true) (width : ℕ) : scanWord width text = none := by
  have hnil : text.dropWhile isspace = [] := List.dropWhile_eq_nil_iff.mpr h
  simp [scanWord, hnil]

/-- The conversions stay in front of `rest`, if there is a field for each. -/
theorem scanWords_fields : ∀ (format : List (ℕ × ℕ)) {text rest : Bytes}, Plain text → (∀ c ∈ rest.head?, isspace c = true) →
    (∀ x ∈ format, 0 < x.1 ∧ x.1 < x.2) → format.length ≤ (Shell.fields text).length ∨ rest = [] →
    scanWords format (text ++ rest) = .ok (cutFields (format.map Prod.fst) (Shell.fields text))
  | [], _, _, _, _, _, _ => by rw [scanWords, List.map_nil, cutFields]
  | (width, size) :: format, text, rest, hplain, hrest, hsizes, henough => by
    obtain ⟨⟨hwidth, hsize⟩, hsizes⟩ := List.forall_mem_cons.mp hsizes
    cases hfields : Shell.fields text with
    | nil =>
      obtain rfl : rest = [] := henough.resolve_left (by simp [hfields])
      have hblank := fun c hc => isspace_of_isBlank c (Shell.isBlank_of_fields_eq_nil hfields c hc)
      rw [List.append_nil, scanWords, scanWord_blank hblank, List.map_cons, cutFields]
    | cons f fs =>
      obtain ⟨b, t, rfl, hb, hne, hword, hfs, ht⟩ := Shell.fields_eq_cons hfields
      have hspace : ∀ c ∈ f, isspace c = false := fun c hc => hplain.isspace_eq (by simp [hc]) (hword c hc)
      have hbehind : ∀ c ∈ (t ++ rest).head?, isspace c = true := by
        cases t with
        | nil => exact hrest
        | cons x t => exact fun c hc => isspace_of_isBlank c (ht c hc)
      have hshort : ¬ size ≤ (f.take width).length := by
        have := List.length_take_le width f
        omega
      have hleft : Shell.fields (f.drop width ++ t) = if f.length ≤ width then fs else f.drop width :: fs := by
        split_ifs with hlen
        · rw [List.drop_of_length_le hlen, List.nil_append, hfs]
        · rw [Shell.fields_word_append (by simpa using hlen) (fun c hc => hword c (List.mem_of_mem_drop hc)) ht, hfs]
      have hplain' : Plain (f.drop width ++ t) := fun c hc => hplain c (by
        rcases List.mem_append.mp hc with hc | hc
        · simp [List.mem_of_mem_drop hc]
        · simp [hc])
      have henough' : format.length ≤ (Shell.fields (f.drop width ++ t)).length ∨ rest = [] := by
        refine henough.imp_left fun h => ?_
        rw [hfields] at h
        rw [hleft]
        split_ifs <;> simp at h ⊢ <;> omega
      have hrec := scanWords_fields format hplain' hrest hsizes henough'
      rw [List.append_assoc, hleft] at hrec
      rw [List.append_assoc, List.append_assoc, scanWords,
        scanWord_word (fun c hc => isspace_of_isBlank c (hb c hc)) hspace hne hbehind hwidth]
      simp only [failIf_bind, if_neg hshort, hrec, ok_bind]
      rw [List.map_cons, cutFields]

/-- The entry of a line, if there is a word for each conversion. -/
def entryOf (line : Bytes) : Option MountedVolume :=
  match cutFields (mountFormat.map Prod.fst) (Shell.fields line) with
  | [device, mountPoint, filesystem, flags] => some ⟨device, mountPoint, filesystem, flags⟩
  | _ => none

theorem scanMount_line {line rest : Bytes} (h : Plain line) (hnul : 0 ∉ rest) (hrest : ∀ c ∈ rest.head?, isspace c = true)
    (henough : 4 ≤ (Shell.fields line).length ∨ rest = []) : scanMount (line ++ rest) = .ok (entryOf line) := by
  have hcstr : cstr (line ++ rest) = line ++ rest := List.takeWhile_eq_self_iff.mpr fun c hc => by
    rcases List.mem_append.mp hc with hc | hc
    · simpa using (h c hc).1
    · simpa using fun h0 : c = 0 => hnul (h0 ▸ hc)
  rw [scanMount, hcstr, scanWords_fields mountFormat h hrest (by decide) henough, ok_bind, entryOf]
  split <;> simp_all

/-! ### The whole table -/

/-- The last line of a buffer, or one with its end and what is behind it. -/
theorem lines_step {bufp : Bytes} (hne : bufp ≠ []) :
    (Shell.lines bufp = [bufp] ∧ eatLine bufp = []) ∨
    ∃ line rest, bufp = line ++ Shell.newline :: rest ∧ Shell.newline ∉ line ∧ eatLine bufp = rest := by
  have hsplit := List.takeWhile_append_dropWhile (p := fun c : UInt8 => decide (c ≠ 0x0a)) (l := bufp)
  have hline : Shell.newline ∉ bufp.takeWhile (fun c : UInt8 => decide (c ≠ 0x0a)) := fun hmem => by
    have := List.mem_takeWhile_imp hmem
    simp [Shell.newline] at this
  have hhead := List.head?_dropWhile_not (fun c : UInt8 => decide (c ≠ 0x0a)) bufp
  unfold eatLine
  generalize bufp.takeWhile (fun c : UInt8 => decide (c ≠ 0x0a)) = line at *
  generalize bufp.dropWhile (fun c : UInt8 => decide (c ≠ 0x0a)) = rest at *
  subst hsplit
  cases rest with
  | nil =>
    rw [List.append_nil] at hne ⊢
    exact .inl ⟨Shell.lines_of_no_newline hne hline, List.drop_nil⟩
  | cons c rest =>
    obtain rfl : c = Shell.newline := by simpa [Shell.newline] using hhead
    exact .inr ⟨line, rest, rfl, hline, rfl⟩

/-- A line that is not whole is the last one of the buffer. -/
def Whole (bufp : Bytes) : Prop := ∃ behind, ∀ line ∈ Shell.lines (bufp ++ behind), 4 ≤ (Shell.fields line).length

theorem Whole.line {line rest : Bytes} (h : Whole (line ++ Shell.newline :: rest)) (hline : Shell.newline ∉ line) :
    4 ≤ (Shell.fields line).length ∧ Whole rest := by
  obtain ⟨behind, h⟩ := h
  rw [List.append_assoc, List.cons_append, Shell.lines_append_newline hline] at h
  obtain ⟨hfour, h⟩ := List.forall_mem_cons.mp h
  exact ⟨hfour, behind, h⟩

theorem scan_step {bufp : Bytes} (hne : bufp ≠ []) (hplain : Plain bufp) (hwhole : Whole bufp) :
    ∃ line, Shell.lines bufp = line :: Shell.lines (eatLine bufp) ∧ scanMount bufp = .ok (entryOf line) ∧
      Plain (eatLine bufp) ∧ Whole (eatLine bufp) ∧ (eatLine bufp).length < bufp.length := by
  rcases lines_step hne with ⟨hlines, heat⟩ | ⟨line, rest, rfl, hline, heat⟩
  · rw [heat, Shell.lines_nil]
    have hscan := scanMount_line hplain (by simp) (by simp) (Or.inr (rfl : ([] : Bytes) = []))
    rw [List.append_nil] at hscan
    exact ⟨bufp, hlines, hscan, by simp [Plain], ⟨[], by simp [Shell.lines_nil]⟩, by simpa using List.length_pos_iff.mpr hne⟩
  · obtain ⟨hfour, hwhole'⟩ := hwhole.line hline
    rw [heat, Shell.lines_append_newline hline]
    refine ⟨line, rfl, scanMount_line (fun c hc => hplain c (by simp [hc])) (fun h0 => (hplain 0 (by simp [h0])).1 rfl)
      (by simp [isspace, Shell.newline]) (.inl hfour), fun c hc => hplain c (by simp [hc]), hwhole', by simp; omega⟩

/-- By induction on the rounds: each takes a line, and the table has room for 32 entries. -/
theorem scanLoop_eq : ∀ (fuel : ℕ) {bufp : Bytes} (volumes : List MountedVolume), bufp.length < fuel → Plain bufp → Whole bufp →
    volumes.length ≤ numVolumes → scanLoop fuel bufp volumes =
      if volumes.length + ((Shell.lines bufp).filterMap entryOf).length ≤ numVolumes then
        .ok (volumes ++ (Shell.lines bufp).filterMap entryOf)
      else .error .fault
  | 0, _, _, hfuel, _, _, _ => absurd hfuel (Nat.not_lt_zero _)
  | fuel + 1, bufp, volumes, hfuel, hplain, hwhole, hroom => by
    by_cases hne : bufp = []
    · subst hne
      simp [scanLoop, Shell.lines_nil, hroom]
    obtain ⟨line, hlines, hscan, hplain', hwhole', hlt⟩ := scan_step hne hplain hwhole
    rw [scanLoop, if_neg hne, hscan, ok_bind, hlines]
    cases hentry : entryOf line with
    | none =>
      rw [List.filterMap_cons_none hentry]
      exact scanLoop_eq fuel volumes (by omega) hplain' hwhole' hroom
    | some v =>
      rw [List.filterMap_cons_some hentry, List.length_cons]
      by_cases hfull : numVolumes ≤ volumes.length
      · rw [if_neg (by omega)]
        simp only [addVolume, failIf_bind, if_pos hfull]
        rfl
      · have hrec := scanLoop_eq fuel (volumes ++ [v]) (by omega) hplain' hwhole' (by simp; omega)
        simp only [addVolume, failIf_bind, if_neg hfull, ok_bind, hrec, List.length_append, List.length_singleton, List.append_assoc,
          List.singleton_append, Nat.add_assoc, Nat.add_comm 1]

/-- The second words of the lines in what is read of the table: at most 63 bytes
of a word, and only of lines with four words. -/
def scannedPoints (content : Bytes) : List Bytes :=
  ((Shell.lines (content.take 2047)).filterMap entryOf).map MountedVolume.mountPoint

/-- Some line has the mount point as its second field. -/
def Mounted (content : Bytes) (mountPoint : CString) : Prop :=
  ∃ line ∈ Shell.lines content, (Shell.fields line)[1]? = some mountPoint.bytes

/-- **What the table is read from.** The entries fit, and the second words in
the part that is read are the second fields of all lines. -/
structure Legible (content : Bytes) : Prop where
  count_le : (scannedPoints content).length ≤ numVolumes
  points : ∀ p : CString, p.bytes ∈ scannedPoints content ↔ Mounted content p

theorem scan_eq {content : Bytes} (hplain : Plain content) (hfour : ∀ line ∈ Shell.lines content, 4 ≤ (Shell.fields line).length) :
    scanMountedVolumes (some content) =
      if (scannedPoints content).length ≤ numVolumes then .ok (0, (Shell.lines (content.take 2047)).filterMap entryOf)
      else .error .fault := by
  have hwhole : Whole (content.take 2047) := ⟨content.drop 2047, by rwa [List.take_append_drop]⟩
  have hloop := scanLoop_eq ((content.take 2047).length + 1) [] (Nat.lt_succ_self _)
    (fun c hc => hplain c (List.mem_of_mem_take hc)) hwhole (Nat.zero_le _)
  rw [List.length_nil, Nat.zero_add, List.nil_append] at hloop
  rw [scanMountedVolumes]
  simp only [hloop, scannedPoints, List.length_map]
  split_ifs <;> rfl

theorem find_isSome_iff {volumes : List MountedVolume} (p : CString) :
    (findMountedVolumeByMountPoint volumes p).isSome = true ↔ p.bytes ∈ volumes.map MountedVolume.mountPoint := by
  rw [findMountedVolumeByMountPoint, List.find?_isSome]
  simp

/-! ### What is mounted is not mounted again -/

/-- The path whose volume is mounted for a path: `/data` for the SD card on it. -/
def mountedPath (path : CString) : CString := if isDataMediaVolumePath fstab path then str "/data" else path

variable {fstab env}

theorem ensureVolumeMounted_mounted {volumes : List MountedVolume} (hscan : scanMountedVolumes env.procMounts = .ok (0, volumes))
    {path : CString} {v : Volume} (hv : volumeForPath fstab path = some v)
    (hm : (findMountedVolumeByMountPoint volumes v.mountPoint).isSome = true) (log : List Call) :
    ensureVolumeMounted fstab env path none log = .ok (0, log) := by
  obtain ⟨mv, hmv⟩ := Option.isSome_iff_exists.mp hm
  unfold ensureVolumeMounted
  rw [hv, hscan]
  dsimp only
  split_ifs with hram
  · rfl
  · have hrun : (if (0 : ℤ) < 0 then pure (-1) else
        match findMountedVolumeByMountPoint volumes v.mountPoint with
        | some _ => pure 0
        | none => mountVolume env v v.mountPoint : Mounting ℤ) log = .ok (0, log) := by
      rw [if_neg (lt_irrefl _), hmv]
      rfl
    exact hrun

variable (fstab env) in
theorem setupDataMedia_calls (log : List Call) :
    ∃ calls, setupDataMedia fstab env log = .ok ((), log ++ calls) ∧ ∀ c ∈ calls, c.mounts = false := by
  unfold setupDataMedia
  generalize ((fstab.recs.find? fun vol => vol.fsType = str "datamedia").map (·.mountPoint)).getD (str "/sdcard") = mp
  refine ⟨[.rmdir mp] ++ [.mkdir (str "/data/media")] ++ [.symlink (str "/data/media") mp], ?_, by simp [Call.mounts]⟩
  rw [← List.append_assoc, ← List.append_assoc]
  rfl

def dataVolume : Volume := ⟨str "/data", str "ext4", str "/dev/block/mmcblk0p9", none, false⟩

def dataFstab : Fstab := ⟨[dataVolume], fun path => if startsWith path (str "/data") then some dataVolume else none⟩

def dataMounts : Bytes := lit "/dev/block/mmcblk0p9 /data ext4 rw 0 0\n"

/-- Nothing is set but the mount table, and every call returns 0. -/
def mountsEnv (content : Bytes) : Env := ⟨some content, fun _ => none, fun _ => none, fun _ => none, fun _ => 0, fun _ _ => 0⟩

theorem dataMounts_legible : Legible dataMounts := by
  have hpoints : scannedPoints dataMounts = [lit "/data"] := by decide +kernel
  have hlines : (Shell.lines dataMounts).map (fun line => (Shell.fields line)[1]?) = [some (lit "/data")] := by decide +kernel
  refine ⟨by rw [hpoints]; decide, fun p => ?_⟩
  have hmem : Mounted dataMounts p ↔ some p.bytes ∈ (Shell.lines dataMounts).map (fun line => (Shell.fields line)[1]?) := by
    rw [List.mem_map]
    rfl
  rw [hmem, hpoints, hlines]
  simp

def longPoint : CString := str "/mnt/mmmmmmmmmmmmmmmmmmmmmmmmmmmmmmmmmmmmmmmmmmmmmmmmmmmmmmmmmmm"

def longVolume : Volume := ⟨longPoint, str "vfat", str "/dev/d", none, false⟩

def longFstab : Fstab := ⟨[longVolume], fun _ => some longVolume⟩

def longMounts : Bytes := lit "/dev/d " ++ longPoint.bytes ++ lit " vfat rw 0 0\n"

end Mounts
end Recovery
