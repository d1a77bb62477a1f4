/-
# The system below applypatch

What is written to a file is safe once `fsync` returned; until then a crash leaves any
prefix of it, and any contents of a partition that is being written. Renames and removals
are atomic. An event decides the answer of one call, or that the machine stops in front of
it.
-/
import Recovery.Bytes
import Recovery.Lib.Crash

namespace Recovery
namespace Patch

abbrev Path := Bytes

structure File where
  data : Bytes
  mode : ℕ
  uid : ℕ
  gid : ℕ
  readable : Bool
  synced : Bool
  deriving DecidableEq

structure Partition where
  data : Bytes
  synced : Bool
  deriving DecidableEq

inductive PartitionType
  | mtd
  | emmc
  deriving DecidableEq, Repr

structure Sys where
  files : Path → Option File
  partitions : PartitionType → Bytes → Option Partition

def Sys.ofFiles (files : List (Path × File)) : Sys := ⟨fun p => files.lookup p, fun _ _ => none⟩

/-- What the environment decides about one call. -/
structure Ev where
  /-- the machine stops -/
  halt : Bool
  /-- a call that reads fails -/
  readFails : Bool
  /-- a call that writes or asks for space fails -/
  fails : Bool
  /-- the failure is `EINTR` -/
  intr : Bool
  /-- the bytes a `write` accepts at most -/
  count : ℕ
  /-- `f_bsize` and `f_bfree` -/
  bsize : ℕ
  bfree : ℕ
  /-- the names in a directory that can be opened -/
  names : Path → Option (List Bytes)
  /-- what a link names -/
  link : Path → Option Bytes
  /-- what is a regular file -/
  regular : Path → Bool
  /-- how much of an unsynced file a crash leaves -/
  cut : Path → ℕ
  /-- what is in a partition after the device wrote to it, or after a crash -/
  flash : Bytes → Bytes

def Ev.fine : Ev where
  halt := false
  readFails := false
  fails := false
  intr := false
  count := 2 ^ 32
  bsize := 4096
  bfree := 2 ^ 18
  names := fun _ => some []
  link := fun _ => none
  regular := fun _ => true
  cut := fun _ => 0
  flash := id

def File.lose (k : ℕ) (f : File) : File := if f.synced then f else { f with data := f.data.take k, synced := true }

def Partition.lose (flash : Bytes → Bytes) (p : Partition) : Partition :=
  if p.synced then p else { p with data := flash p.data, synced := true }

def machine : Crash.Machine Ev Sys where
  halts := Ev.halt
  lose := fun e s =>
    { files := fun p => (s.files p).map (File.lose (e.cut p))
      partitions := fun t p => (s.partitions t p).map (Partition.lose e.flash) }

/-- Why applypatch returns 1, by its message, or dies. -/
inductive Failure
  /-- the process dies or runs for ever -/
  | stop (s : Stop)
  /-- "failed to parse tgt-sha1" -/
  | targetSha1
  /-- "failed to read copy file" -/
  | readCopy
  /-- "copy file doesn't match source SHA-1s either" -/
  | copySha1
  /-- "not enough free space on /cache" -/
  | cacheSpace
  /-- "failed to back up source file" -/
  | backUp
  /-- "not enough free space for target but source is partition" -/
  | sourceIsPartition
  /-- "patch is not a blob" -/
  | notBlob
  /-- "failed to open output file" -/
  | openOutput
  /-- "Unknown patch file format" -/
  | unknownFormat
  /-- "applying patch failed" -/
  | applying
  /-- "patch did not produce expected sha1" -/
  | wrongSha1
  /-- "write of patched data to ... failed" -/
  | writePartition
  /-- "chmod of ... failed" -/
  | chmod
  /-- "chown of ... failed" -/
  | chown
  /-- "rename of .patch to ... failed" -/
  | rename
  deriving DecidableEq

abbrev Run (α : Type) := Crash.Prog Ev Failure Sys α

def ofExcept {α : Type} : Except Stop α → Run α
  | .ok a => pure a
  | .error s => Crash.fail (.stop s)

/-! ### Calls -/

/-- `errno` of a failed `stat`, as far as it is looked at. -/
inductive StatError
  | enoent
  | other

def stat (p : Path) : Run (Except StatError File) := Crash.call machine fun e s =>
  (if e.readFails then .error .other else match s.files p with
    | some f => .ok f
    | none => .error .enoent, s)

def fopen (p : Path) : Run Bool := Crash.call machine fun e s => (!e.readFails && (s.files p).any (·.readable), s)

/-- `fread` of `n` bytes from the start: `none` if it is short. -/
def fread (p : Path) (n : ℕ) : Run (Option Bytes) := Crash.call machine fun e s =>
  (match s.files p with
    | some f => if e.readFails ∨ f.data.length < n then none else some (f.data.take n)
    | none => none, s)

def Sys.setFile (s : Sys) (p : Path) (f : Option File) : Sys := { s with files := Function.update s.files p f }

/-- `open` with `O_WRONLY | O_CREAT | O_TRUNC`, mode 0600. -/
def openTrunc (p : Path) : Run Bool := Crash.call machine fun e s =>
  if e.fails then (false, s)
  else (true, s.setFile p (some (match s.files p with
    | some f => { f with data := [], readable := true, synced := false }
    | none => ⟨[], 0o600, 0, 0, true, false⟩)))

def write (p : Path) (d : Bytes) : Run ℤ := Crash.call machine fun e s =>
  if e.fails then (-1, s)
  else ((min e.count d.length : ℕ),
    s.setFile p ((s.files p).map fun f => { f with data := f.data ++ d.take e.count, synced := false }))

def fsync (p : Path) : Run Unit := Crash.call machine fun _ s =>
  ((), s.setFile p ((s.files p).map fun f => { f with synced := true }))

/-- A call on a file that is there: `false` if it fails or the file is not. -/
def onFile (p : Path) (f : File → Sys → Sys) : Run Bool := Crash.call machine fun e s =>
  match s.files p with
  | some file => if e.fails then (false, s) else (true, f file s)
  | none => (false, s)

def chmod (p : Path) (mode : ℕ) : Run Bool := onFile p fun f s => s.setFile p (some { f with mode := mode })

def chown (p : Path) (uid gid : ℕ) : Run Bool := onFile p fun f s => s.setFile p (some { f with uid := uid, gid := gid })

def rename (p q : Path) : Run Bool := onFile p fun f s => (s.setFile p none).setFile q (some f)

def unlink (p : Path) : Run Bool := onFile p fun _ s => s.setFile p none

/-- The block size and the number of free blocks. -/
def statfs (_ : Path) : Run (Option (ℕ × ℕ)) := Crash.call machine fun e s =>
  (if e.fails then none else some (e.bsize, e.bfree), s)

/-- The names in a directory, or `none` if it cannot be opened. -/
def readdir (p : Path) : Run (Option (List Bytes)) := Crash.call machine fun e s =>
  (if e.readFails then none else e.names p, s)

def readlink (p : Path) : Run (Option Bytes) := Crash.call machine fun e s =>
  (if e.readFails then none else e.link p, s)

def isRegular (p : Path) : Run Bool := Crash.call machine fun e s =>
  (!e.readFails && (s.files p).isSome && e.regular p, s)

/-! ### Runs of calls that only read -/

/-- What a crash in one of the events can leave of a state. -/
def Lost (P : Ev → Prop) (s s' : Sys) : Prop := ∃ e, P e ∧ e.halt = true ∧ s' = machine.lose e s

def Halts (P : Ev → Prop) : Prop := ∃ e, P e ∧ e.halt = true

theorem Lost.halts {P : Ev → Prop} {s s' : Sys} (h : Lost P s s') : Halts P := by
  obtain ⟨e, he, hh, -⟩ := h
  exact ⟨e, he, hh⟩

/-- No call that reads fails on a readable file. -/
def Ev.honest (e : Ev) : Prop := e.readFails = false

theorem sat_call {α : Type} {P : Ev → Prop} {s : Sys} {f : Ev → Sys → α × Sys} {ok : α → Sys → Prop}
    {err : Failure → Sys → Prop} {cr : Sys → Prop} (hcr : ∀ s', Lost P s s' → cr s')
    (hok : ∀ e, P e → ok (f e s).1 (f e s).2) : Crash.Sat P (Crash.call machine f : Run α) s ok err cr :=
  Crash.Sat.call (fun e he hh => hcr _ ⟨e, he, hh, rfl⟩) fun e he _ => hok e he

/-- Every run leaves the state as it is, and ends in one of the ways described. -/
def Reads {α : Type} (P : Ev → Prop) (p : Run α) (s : Sys) (ok : α → Prop) (err : Failure → Prop) : Prop :=
  Crash.Sat P p s (fun a s' => s' = s ∧ ok a) (fun e s' => s' = s ∧ err e) (Lost P s)

section

variable {α β : Type} {P : Ev → Prop} {p : Run α} {s : Sys} {ok ok' : α → Prop} {err err' : Failure → Prop}

theorem Reads.pure {a : α} (h : ok a) : Reads P (pure a) s ok err := Crash.Sat.pure ⟨rfl, h⟩

theorem Reads.fail {e : Failure} (h : err e) : Reads P (Crash.fail e : Run α) s ok err := Crash.Sat.fail ⟨rfl, h⟩

theorem Reads.bind {f : α → Run β} {okb : β → Prop} (h : Reads P p s ok err)
    (hf : ∀ a, ok a → Reads P (f a) s okb err) : Reads P (p >>= f) s okb err :=
  Crash.Sat.step h fun a _ ⟨hs, ha⟩ => hs ▸ hf a ha

theorem Reads.step {f : α → Run β} {okb : β → Prop} (h : Reads P p s ok fun _ => False)
    (hf : ∀ a, ok a → Reads P (f a) s okb err) : Reads P (p >>= f) s okb err :=
  Crash.Sat.step (Crash.Sat.mono h (fun _ _ h => h) (fun _ _ h => h.2.elim) fun _ h => h)
    fun a _ ⟨hs, ha⟩ => hs ▸ hf a ha

theorem Reads.mono (h : Reads P p s ok err) (hok : ∀ a, ok a → ok' a) (herr : ∀ e, err e → err' e) :
    Reads P p s ok' err' :=
  Crash.Sat.mono h (fun a _ h => ⟨h.1, hok a h.2⟩) (fun e _ h => ⟨h.1, herr e h.2⟩) fun _ h => h

theorem reads_call {f : Ev → Sys → α × Sys} (hs : ∀ e, (f e s).2 = s) (h : ∀ e, P e → ok (f e s).1) :
    Reads P (Crash.call machine f) s ok err :=
  sat_call (fun _ h => h) fun e he => ⟨hs e, h e he⟩

theorem Reads.runs (h : Reads P p s ok err) (hP : ∀ e, P e → e.halt = false) (herr : ∀ e, ¬ err e)
    {ev : ℕ → Ev} (hev : ∀ i, P (ev i)) (n : ℕ) :
    ∃ a n', p ev n s = .ok a n' s ∧ ok a := by
  have hrun := h ev hev n
  cases heq : p ev n s with
  | ok a n' s' =>
    rw [heq] at hrun
    obtain ⟨rfl, ha⟩ := hrun
    exact ⟨a, n', rfl, ha⟩
  | error e n' s' =>
    rw [heq] at hrun
    exact absurd hrun.2 (herr e)
  | crash s' =>
    rw [heq] at hrun
    obtain ⟨e, he, hh, -⟩ := hrun
    rw [hP e he] at hh
    cases hh

end

end Patch
end Recovery
