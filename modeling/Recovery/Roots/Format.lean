/-
# Formatting volumes (roots.c, extendedcommands.c)

A volume is emptied by a command to `vold`, by erasing an MTD partition, by making a new
file system, or by removing what is in the directory it is mounted at. What the system is
made to do is a log; an event decides what a call returns.

Key definitions: `formatVolume`, `formatDevice`, `Emits`.
Key theorems: `formatVolume_only`, `formatDevice_only`.
-/
import Recovery.Lib.Crash
import Recovery.Mtd.Utils
import Recovery.Roots.Volumes

namespace Recovery

namespace Raw

/-- The drivers for raw partitions (flashutils/flashutils.c). -/
inductive FlashType
  | unsupported
  | mtd
  | mmc
  | bml
  deriving DecidableEq

def getFlashType (partitionType : CString) : FlashType :=
  if partitionType = str "mtd" then .mtd
  else if partitionType = str "emmc" then .mmc
  else if partitionType = str "bml" then .bml
  else .unsupported

end Raw

namespace Roots

open Crash (Sat)
open Raw (getFlashType)

/-! ### The system -/

structure Ev where
  /-- the machine stops -/
  halt : Bool
  /-- what the call returns -/
  ret : ℤ
  /-- the file system that the mount table has for a mount point -/
  filesystem : Option CString

/-- What is done to a volume. -/
inductive FormatOp
  /-- `rm -rf path/*`, or `rm -rf path/.*` -/
  | removeEntries (path : CString) (hidden : Bool)
  /-- everything in `/data` but `media` -/
  | removeData
  /-- `/data/.layout_version` is written -/
  | layoutVersion
  | eraseRaw (fsType : CString) (device : Option CString)
  | voldFormat (mountPoint : CString) (fsType : Option CString)
  | eraseMtd (device : CString)
  | makeExt4 (device mountPoint : CString)
  | makeF2fs (device : CString)
  | makeExt3 (device : Option CString)
  | makeExt2 (device : Option CString)
  | makeRfs (device path : CString)
  deriving DecidableEq

/-- A device, with what is known about it. -/
structure Board where
  fstab : Fstab
  /-- `is_data_media_preserved` -/
  preserved : Bool
  /-- `USE_F2FS` -/
  useF2fs : Bool
  /-- what `stat` finds -/
  present : CString → Bool

abbrev Run (O α : Type) := Crash.Prog Ev Stop (List O) α

variable {O α β : Type}

def machine (O : Type) : Crash.Machine Ev (List O) := ⟨Ev.halt, fun _ log => log⟩

def ask (f : Ev → α) : Run O α := Crash.call (machine O) fun e log => (f e, log)

/-- A call that changes something, also when it fails. -/
def act (op : O) : Run O ℤ := Crash.call (machine O) fun e log => (e.ret, log ++ [op])

/-- Mounting with any result. Formatting only asks whether it succeeded; what it does to
the mounted volumes is `Mounts.ensurePathMounted`. -/
def ensurePathMounted (_path : CString) : Run O ℤ := ask Ev.ret

def ensurePathUnmounted (_path : CString) : Run O ℤ := ask Ev.ret

def andThen (p q : Run O ℤ) : Run O ℤ := do
  let ret ← p
  if ret ≠ 0 then pure ret else q

/-- `CommandOkay`, or a call that returns 0: the result is 0 or -1. -/
def zeroOrMinusOne (ret : ℤ) : ℤ := if ret = 0 then 0 else -1

/-! ### format_volume and format_device -/

section

variable (b : Board) (emit : FormatOp → O)

def removeAll (path : CString) : Run O Unit :=
  if path = str "/data" then do
    let _ ← act (emit .removeData)
    -- `lstat` of `/data/media/0`
    let media ← ask Ev.ret
    if media ≠ 0 then pure ()
    else do
      let file ← ask Ev.ret
      if file ≠ 0 then pure ()
      else do
        let _ ← act (emit .layoutVersion)
        pure ()
  else do
    let _ ← act (emit (.removeEntries path false))
    let _ ← act (emit (.removeEntries path true))
    pure ()

/-- The part of `format_unknown_device` behind the file systems it knows. -/
def removeMounted (path : CString) : Run O ℤ := do
  let mounted ← ensurePathMounted path
  if mounted ≠ 0 then pure 0
  else do
    removeAll emit path
    let _ ← ensurePathUnmounted path
    pure 0

/-- An `ext3` or `ext2` file system on an unmounted device. -/
def makeUnmounted (path : CString) (op : FormatOp) : Run O ℤ := do
  let unmounted ← ensurePathUnmounted path
  if unmounted ≠ 0 then pure (-12) else act (emit op)

/-- Whether there is no device for `/sd-ext`. -/
def noSdExt : Bool := match volumeForPath b.fstab (str "/sd-ext") with
  | none => true
  | some vol => !b.present vol.blkDevice

def formatUnknownDevice (device : Option CString) (path : CString) : Option CString → Run O ℤ
  | some fsType =>
    if getFlashType fsType ≠ .unsupported then act (emit (.eraseRaw fsType device))
    else if path = str "/sd-ext" ∧ noSdExt b then pure 0
    else if fsType = str "ext3" then makeUnmounted emit path (.makeExt3 device)
    else if fsType = str "ext2" then makeUnmounted emit path (.makeExt2 device)
    else removeMounted emit path
  | none => if path = str "/sd-ext" ∧ noSdExt b then pure 0 else removeMounted emit path

def eraseMtdPartition (device : CString) : Run O ℤ := do
  let found ← ask Ev.ret
  if found ≠ 0 then pure (-1)
  else do
    let opened ← ask Ev.ret
    if opened ≠ 0 then pure (-1)
    else do
      let erased ← act (emit (.eraseMtd device))
      let closed ← ask Ev.ret
      pure (if erased ≠ 0 ∨ closed ≠ 0 then -1 else 0)

def makeFs (op : FormatOp) : Run O ℤ := do
  let result ← act (emit op)
  pure (zeroOrMinusOne result)

/-- The command to `vold`, after the volume was unmounted or not. -/
def voldFormatVolume (v : Volume) (volume : CString) : Run O ℤ := do
  let _ ← ensurePathUnmounted volume
  makeFs emit (.voldFormat v.mountPoint (if v.fsType = str "auto" then none else some v.fsType))

/-- A volume that is unmounted and formatted by its type. -/
def formatByType (v : Volume) (volume : CString) : Run O ℤ := do
  let unmounted ← ensurePathUnmounted volume
  if unmounted ≠ 0 then pure (-1)
  else if v.fsType = str "yaffs2" ∨ v.fsType = str "mtd" then eraseMtdPartition emit v.blkDevice
  else if v.fsType = str "ext4" then makeFs emit (.makeExt4 v.blkDevice volume)
  else if b.useF2fs ∧ v.fsType = str "f2fs" then makeFs emit (.makeF2fs v.blkDevice)
  else formatUnknownDevice b emit (some v.blkDevice) volume (some v.fsType)

def formatVolume (volume : CString) : Run O ℤ :=
  if isDataMediaVolumePath b.fstab volume then formatUnknownDevice b emit none volume none
  else if startsWith volume (str "/data") ∧ isDataMedia b.fstab ∧ b.preserved then formatUnknownDevice b emit none volume none
  else match volumeForPath b.fstab volume with
    | none => pure (-1)
    | some v =>
      if volume = str "/sd-ext" ∧ !b.present v.blkDevice then pure (-1)
      else if v.voldmanaged ∧ volume = v.mountPoint then voldFormatVolume emit v volume
      else if v.fsType = str "ramdisk" then pure (-1)
      else if v.mountPoint ≠ volume then formatUnknownDevice b emit (some v.blkDevice) volume none
      else formatByType b emit v volume

/-- The part of `format_device` for a path that is a mount point. -/
def formatDeviceAs (v : Volume) (device path fsType : CString) : Run O ℤ := do
  let unmounted ← ensurePathUnmounted path
  if unmounted ≠ 0 then pure (-1)
  else if fsType = str "yaffs2" ∨ fsType = str "mtd" then eraseMtdPartition emit device
  else if fsType = str "ext4" then makeFs emit (.makeExt4 device v.mountPoint)
  -- the device of the volume, and not the one that was given
  else if b.useF2fs ∧ fsType = str "f2fs" then makeFs emit (.makeF2fs v.blkDevice)
  else formatUnknownDevice b emit (some device) path (some fsType)

/-- An `rfs` file system on an unmounted device. -/
def makeRfsUnmounted (device path : CString) : Run O ℤ := do
  let unmounted ← ensurePathUnmounted path
  if unmounted ≠ 0 then pure (-1) else makeFs emit (.makeRfs device path)

/-- `format_device`, which does not ask whether `/data/media` is kept. -/
def formatDevice (device path fsType : CString) : Run O ℤ :=
  if isDataMediaVolumePath b.fstab path then formatUnknownDevice b emit none path none
  else if startsWith path (str "/data") ∧ isDataMedia b.fstab then formatUnknownDevice b emit none path none
  else match volumeForPath b.fstab path with
    | none => pure (-1)
    | some v =>
      if fsType = str "ramdisk" then pure (-1)
      else if fsType = str "rfs" then makeRfsUnmounted emit device path
      else if v.mountPoint ≠ path then formatUnknownDevice b emit (some v.blkDevice) path none
      else formatDeviceAs b emit v device path fsType

end

/-! ### What is added to the log -/

/-- A program adds to any log what `Q` says if it returns, and what `S` says in any case. -/
def Emits (p : Run O α) (Q : α → List O → Prop) (S : List O → Prop) : Prop :=
  ∀ log, Sat (fun _ => True) p log (fun a log' => ∃ ops, log' = log ++ ops ∧ Q a ops) (fun _ log' => ∃ ops, log' = log ++ ops ∧ S ops)
    fun log' => ∃ ops, log' = log ++ ops ∧ S ops

variable {p : Run O α} {Q Q' : α → List O → Prop} {S : List O → Prop}

theorem Emits.pure {a : α} (h : Q a []) : Emits (pure a : Run O α) Q S := fun _ => Sat.pure ⟨[], by simp, h⟩

theorem Emits.bind {f : α → Run O β} {R : β → List O → Prop} (h : Emits p Q S)
    (hf : ∀ a ops, Q a ops → Emits (f a) (fun b ops' => R b (ops ++ ops')) fun ops' => S (ops ++ ops')) : Emits (p >>= f) R S := by
  intro log
  refine Sat.step (h log) fun a log' hlog => ?_
  obtain ⟨ops, rfl, hQ⟩ := hlog
  refine (hf a ops hQ (log ++ ops)).mono ?_ ?_ ?_
  · rintro b log' ⟨ops', rfl, hR⟩
    exact ⟨ops ++ ops', by simp, hR⟩
  · rintro stop log' ⟨ops', rfl, hS⟩
    exact ⟨ops ++ ops', by simp, hS⟩
  · rintro log' ⟨ops', rfl, hS⟩
    exact ⟨ops ++ ops', by simp, hS⟩

theorem Emits.imp (h : Emits p Q S) (hQ : ∀ a ops, Q a ops → Q' a ops) : Emits p Q' S := by
  intro log
  refine (h log).imp ?_
  rintro a log' ⟨ops, rfl, h⟩
  exact ⟨ops, rfl, hQ a ops h⟩

theorem Emits.returned (h : Emits p Q S) {ev : ℕ → Ev} {n : ℕ} {a : α} {log : List O} (hrun : (p ev n []).returned = some (a, log)) :
    Q a log := by
  have hends := h [] ev (fun _ => trivial) n
  cases hp : p ev n [] with
  | ok a' m log' =>
    rw [hp] at hends hrun
    obtain ⟨rfl, rfl⟩ := Prod.mk.inj (Option.some.inj hrun)
    obtain ⟨ops, rfl, hQ⟩ := hends
    exact hQ
  | error _ _ _ => simp [hp, Crash.Out.returned] at hrun
  | crash _ => simp [hp, Crash.Out.returned] at hrun

theorem Emits.state (h : Emits p (fun _ ops => S ops) S) (ev : ℕ → Ev) (n : ℕ) : S (p ev n []).state := by
  have hends := h [] ev (fun _ => trivial) n
  cases hp : p ev n [] with
  | ok _ _ _ | error _ _ _ | crash _ =>
    rw [hp] at hends
    obtain ⟨ops, rfl, hS⟩ := hends
    exact hS

theorem ask_emits {f : Ev → α} (hS : S []) (h : ∀ e, Q (f e) []) : Emits (ask f : Run O α) Q S := fun _ =>
  Sat.call (fun _ _ _ => ⟨[], by simp [machine], hS⟩) fun e _ _ => ⟨[], by simp, h e⟩

theorem Emits.ask {f : Ev → α} {q : α → Run O β} {R : β → List O → Prop} (hS : S []) (h : ∀ a, Emits (q a) R S) :
    Emits (ask f >>= q) R S :=
  Emits.bind (ask_emits (Q := fun _ ops => ops = []) hS fun _ => rfl) fun a ops hops => by
    subst hops
    exact h a

theorem act_emits {op : O} {Q : ℤ → List O → Prop} (hS : S []) (h : ∀ ret, Q ret [op]) : Emits (act op) Q S := fun _ =>
  Sat.call (fun _ _ _ => ⟨[], by simp [machine], hS⟩) fun e _ _ => ⟨[op], rfl, h e.ret⟩

/-- A program that returned has gone on with the answer to its first question. -/
theorem returned_of_ask {f : Ev → α} {q : α → Run O β} {ev : ℕ → Ev} {n : ℕ} {log : List O} {r : β × List O}
    (h : ((ask f >>= q) ev n log).returned = some r) : (q (f (ev n)) ev (n + 1) log).returned = some r := by
  by_cases hhalt : (machine O).halts (ev n) = true
  · have hask : (ask f : Run O α) ev n log = .crash log := if_pos hhalt
    simp [bind, Crash.Prog.bind, hask, Crash.Out.returned] at h
  · have hask : (ask f : Run O α) ev n log = .ok (f (ev n)) (n + 1) log := if_neg hhalt
    simpa [bind, Crash.Prog.bind, hask] using h

/-! ### Programs all of whose calls are of one kind -/

/-- Everything the program adds to the log satisfies `G`. -/
def Only (G : O → Prop) (p : Run O α) : Prop := Emits p (fun _ ops => ∀ op ∈ ops, G op) fun ops => ∀ op ∈ ops, G op

variable {G : O → Prop}

theorem Only.pure (a : α) : Only G (pure a : Run O α) := Emits.pure (by simp)

theorem Only.bind {f : α → Run O β} (h : Only G p) (hf : ∀ a, Only G (f a)) : Only G (p >>= f) := by
  refine Emits.bind h fun a ops hops log => (hf a log).mono ?_ ?_ ?_
  · rintro b log' ⟨ops', rfl, h'⟩
    exact ⟨ops', rfl, fun op hop => (List.mem_append.mp hop).elim (hops op) (h' op)⟩
  · rintro stop log' ⟨ops', rfl, h'⟩
    exact ⟨ops', rfl, fun op hop => (List.mem_append.mp hop).elim (hops op) (h' op)⟩
  · rintro log' ⟨ops', rfl, h'⟩
    exact ⟨ops', rfl, fun op hop => (List.mem_append.mp hop).elim (hops op) (h' op)⟩

theorem Only.ask (f : Ev → α) : Only G (ask f : Run O α) := ask_emits (by simp) (by simp)

theorem Only.act {op : O} (h : G op) : Only G (act op) := act_emits (by simp) (by simpa using h)

theorem Only.ite {c : Prop} [Decidable c] {q : Run O α} (hp : c → Only G p) (hq : ¬ c → Only G q) : Only G (if c then p else q) := by
  split_ifs with h
  · exact hp h
  · exact hq h

theorem Only.andThen {p q : Run O ℤ} (hp : Only G p) (hq : Only G q) : Only G (andThen p q) :=
  hp.bind fun _ => .ite (fun _ => .pure _) fun _ => hq

/-! ### What is formatted -/

/-- Where something is changed. -/
inductive Target
  | path (path : CString)
  | device (device : Option CString)
  deriving DecidableEq

def FormatOp.target : FormatOp → Target
  | .removeEntries path _ => .path path
  | .removeData => .path (str "/data")
  | .layoutVersion => .path (str "/data")
  | .eraseRaw _ device => .device device
  | .voldFormat mountPoint _ => .path mountPoint
  | .eraseMtd device => .device (some device)
  | .makeExt4 device _ => .device (some device)
  | .makeF2fs device => .device (some device)
  | .makeExt3 device => .device device
  | .makeExt2 device => .device device
  | .makeRfs device _ => .device (some device)

/-- The target is a path, or the device that is mounted there: not the device
of a volume that only has the path as one of its directories. -/
def Target.Of (fstab : Fstab) (path : CString) (t : Target) : Prop :=
  t = .path path ∨
    ∃ v, volumeForPath fstab path = some v ∧ v.mountPoint = path ∧ t = .device (some v.blkDevice)

section

variable {b : Board} {emit : FormatOp → O} {path : CString}

theorem removeAll_only (h : ∀ op : FormatOp, op.target = .path path → G (emit op)) : Only G (removeAll emit path) := by
  unfold removeAll
  refine .ite (fun hdata => ?_) fun _ => ?_
  · have hat : ∀ op : FormatOp, op.target = .path (str "/data") → Only G (act (emit op)) :=
      fun op hop => Only.act (h op (by rw [hop, hdata]))
    refine (hat _ rfl).bind fun _ => (Only.ask _).bind fun media => .ite (fun _ => .pure _) fun _ => ?_
    exact (Only.ask _).bind fun file => .ite (fun _ => .pure _) fun _ => (hat _ rfl).bind fun _ => .pure _
  · exact (Only.act (h _ rfl)).bind fun _ => (Only.act (h _ rfl)).bind fun _ => .pure _

theorem removeMounted_only (h : ∀ op : FormatOp, op.target = .path path → G (emit op)) : Only G (removeMounted emit path) :=
  (Only.ask _).bind fun _ => .ite (fun _ => .pure _) fun _ => (removeAll_only h).bind fun _ => (Only.ask _).bind fun _ => .pure _

theorem formatUnknownDevice_path_only {device : Option CString} (h : ∀ op : FormatOp, op.target = .path path → G (emit op)) :
    Only G (formatUnknownDevice b emit device path none) :=
  .ite (fun _ => .pure _) fun _ => removeMounted_only h

theorem formatUnknownDevice_only {device : Option CString} {fsType : CString}
    (h : ∀ op : FormatOp, op.target = .path path ∨ op.target = .device device → G (emit op)) :
    Only G (formatUnknownDevice b emit device path (some fsType)) := by
  have hmake : ∀ op : FormatOp, op.target = .device device → Only G (makeUnmounted emit path op) := fun op hop =>
    (Only.ask _).bind fun _ => .ite (fun _ => .pure _) fun _ => Only.act (h op (.inr hop))
  exact .ite (fun _ => Only.act (h _ (.inr rfl))) fun _ => .ite (fun _ => .pure _) fun _ => .ite (fun _ => hmake _ rfl) fun _ =>
    .ite (fun _ => hmake _ rfl) fun _ => removeMounted_only fun op hop => h op (.inl hop)

theorem eraseMtdPartition_only {device : CString} (h : G (emit (.eraseMtd device))) : Only G (eraseMtdPartition emit device) :=
  (Only.ask _).bind fun _ => .ite (fun _ => .pure _) fun _ => (Only.ask _).bind fun _ => .ite (fun _ => .pure _) fun _ =>
    (Only.act h).bind fun _ => (Only.ask _).bind fun _ => .pure _

theorem makeFs_only {op : FormatOp} (h : G (emit op)) : Only G (makeFs emit op) := (Only.act h).bind fun _ => .pure _

/-- **`format_volume` changes what it is asked to.** -/
theorem formatVolume_only (h : ∀ op : FormatOp, op.target.Of b.fstab path → G (emit op)) : Only G (formatVolume b emit path) := by
  have hpath : ∀ op : FormatOp, op.target = .path path → G (emit op) := fun op hop => h op (.inl hop)
  refine .ite (fun _ => formatUnknownDevice_path_only hpath) fun _ => .ite (fun _ => formatUnknownDevice_path_only hpath) fun _ => ?_
  cases hv : volumeForPath b.fstab path with
  | none => exact .pure _
  | some v =>
    refine .ite (fun _ => .pure _) fun _ => .ite (fun hvold => ?_) fun _ => .ite (fun _ => .pure _) fun _ =>
      .ite (fun _ => formatUnknownDevice_path_only hpath) fun hmount => ?_
    · exact (Only.ask _).bind fun _ => makeFs_only (hpath _ (by rw [hvold.2]; rfl))
    · have hdev : ∀ op : FormatOp, op.target = .device (some v.blkDevice) → G (emit op) := fun op hop =>
        h op (.inr ⟨v, hv, not_not.mp hmount, hop⟩)
      refine (Only.ask _).bind fun _ => .ite (fun _ => .pure _) fun _ => .ite (fun _ => eraseMtdPartition_only (hdev _ rfl)) fun _ =>
        .ite (fun _ => makeFs_only (hdev _ rfl)) fun _ => .ite (fun _ => makeFs_only (hdev _ rfl)) fun _ =>
        formatUnknownDevice_only fun op hop => hop.elim (hpath op) (hdev op)

/-- An `rfs` file system is made on the device that was given, also for a path
inside a volume. -/
theorem formatDevice_only {v : Volume} {fsType : CString} (hv : volumeForPath b.fstab path = some v)
    (hrfs : fsType = str "rfs" → v.mountPoint = path ∨ isDataMediaVolumePath b.fstab path = true ∨
      startsWith path (str "/data") = true ∧ isDataMedia b.fstab = true)
    (h : ∀ op : FormatOp, op.target.Of b.fstab path → G (emit op)) :
    Only G (formatDevice b emit v.blkDevice path fsType) := by
  have hpath : ∀ op : FormatOp, op.target = .path path → G (emit op) := fun op hop => h op (.inl hop)
  have hdev : v.mountPoint = path → ∀ op : FormatOp, op.target = .device (some v.blkDevice) → G (emit op) :=
    fun hmount op hop => h op (.inr ⟨v, hv, hmount, hop⟩)
  refine .ite (fun _ => formatUnknownDevice_path_only hpath) fun hmedia =>
    .ite (fun _ => formatUnknownDevice_path_only hpath) fun hdata => ?_
  rw [hv]
  refine .ite (fun _ => .pure _) fun _ => .ite (fun hfs => ?_) fun _ =>
    .ite (fun _ => formatUnknownDevice_path_only hpath) fun hmount => ?_
  · have hmount := (hrfs hfs).resolve_right fun h' => h'.elim hmedia hdata
    exact (Only.ask _).bind fun _ => .ite (fun _ => .pure _) fun _ => makeFs_only (hdev hmount _ rfl)
  · have hdev := hdev (not_not.mp hmount)
    exact (Only.ask _).bind fun _ => .ite (fun _ => .pure _) fun _ =>
      .ite (fun _ => eraseMtdPartition_only (hdev _ rfl)) fun _ =>
      .ite (fun _ => makeFs_only (hdev _ rfl)) fun _ => .ite (fun _ => makeFs_only (hdev _ rfl)) fun _ =>
      formatUnknownDevice_only fun op hop => hop.elim (hpath op) (hdev op)

end

end Roots
end Recovery
