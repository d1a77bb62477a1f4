/-
# Writing a partition (WriteToPartition of applypatch.c)

An MTD partition is written through mtdutils; an EMMC one is written, read back, and written
once more from the first block that differs. A device may accept fewer bytes, be
interrupted, and keep something else than it was given (`Ev.flash`).
-/
import Recovery.Patch.Load

namespace Recovery
namespace Patch

def Sys.setPartition (s : Sys) (t : PartitionType) (p : Bytes) (part : Partition) : Sys :=
  { s with partitions := Function.update s.partitions t (Function.update (s.partitions t) p (some part)) }

/-! ### EMMC -/

def openDevice (p : Bytes) : Run Bool := Crash.call machine fun e s => (!e.fails && (s.partitions .emmc p).isSome, s)

/-- The result of a `read` or `write` on a device. -/
inductive Moved (α : Type)
  | moved (a : α)
  | interrupted
  | failed

/-- `b` with `d` written over it from `i` on. -/
def overwrite (b : Bytes) (i : ℕ) (d : Bytes) : Bytes := b.take i ++ d ++ b.drop (i + d.length)

/-- `write` at offset `i` of a device, which ends at its size. -/
def deviceWrite (p : Bytes) (e : Ev) (s : Sys) (i : ℕ) (d : Bytes) : Moved ℕ × Sys :=
  match s.partitions .emmc p with
  | none => (.failed, s)
  | some part =>
    if e.fails then (if e.intr then .interrupted else .failed, s)
    else if part.data.length ≤ i then (.failed, s)
    else
      let k := min e.count (min d.length (part.data.length - i))
      (.moved k, s.setPartition .emmc p ⟨e.flash (overwrite part.data i (d.take k)), false⟩)

def writeDevice (p : Bytes) (i : ℕ) (d : Bytes) : Run (Moved ℕ) := Crash.call machine fun e s => deviceWrite p e s i d

def deviceSync (p : Bytes) (s : Sys) : Sys :=
  match s.partitions .emmc p with
  | none => s
  | some part => s.setPartition .emmc p { part with synced := true }

def fsyncDevice (p : Bytes) : Run Unit := Crash.call machine fun _ s => ((), deviceSync p s)

/-- `read` of at most `n` bytes at offset `i`, with the caches dropped. -/
def deviceRead (p : Bytes) (e : Ev) (s : Sys) (i n : ℕ) : Moved Bytes × Sys :=
  (match s.partitions .emmc p with
    | none => .failed
    | some part =>
      if e.readFails then if e.intr then .interrupted else .failed
      else .moved (((part.data.drop i).take n).take e.count), s)

def readDevice (p : Bytes) (i n : ℕ) : Run (Moved Bytes) := Crash.call machine fun e s => deviceRead p e s i n

/-- The loop that writes the data from `start` on. -/
def writeLoop (p data : Bytes) : ℕ → ℕ → Run Unit
  | 0, _ => Crash.fail (.stop .hang)
  | n + 1, start =>
    if start < data.length then do
      let toWrite := min (data.length - start) (2 ^ 20)
      let written ← writeDevice p start ((data.drop start).take toWrite)
      match written with
      | .failed => Crash.fail .writePartition
      | .interrupted => writeLoop p data n start
      | .moved k => writeLoop p data n (start + k)
    else pure ()

/-- One buffer of the verification: `toRead` bytes at `i`, after those read so far. -/
def readBack (p : Bytes) (i toRead : ℕ) : ℕ → Bytes → Run Bytes
  | 0, _ => Crash.fail (.stop .hang)
  | n + 1, soFar =>
    if soFar.length < toRead then do
      let read ← readDevice p (i + soFar.length) (toRead - soFar.length)
      match read with
      | .failed => Crash.fail .writePartition
      | .interrupted => readBack p i toRead n soFar
      | .moved bytes => readBack p i toRead n (soFar ++ bytes)
    else pure soFar

/-- Where the first buffer that differs begins, from `i` on, or the end. -/
def verifyLoop (steps : ℕ) (p data : Bytes) : ℕ → ℕ → Run ℕ
  | 0, _ => pure data.length
  | n + 1, i =>
    if i < data.length then do
      let toRead := min (data.length - i) 4096
      let buffer ← readBack p i toRead steps []
      if buffer ≠ (data.drop i).take toRead then pure i else verifyLoop steps p data n (i + 4096)
    else pure data.length

/-- Write from `start` on, sync and verify: where to start again. -/
def emmcAttempt (steps : ℕ) (p data : Bytes) (start : ℕ) : Run ℕ := do
  writeLoop p data steps start
  fsyncDevice p
  verifyLoop steps p data (data.length + 1) 0

def closeDevice : Run Bool := Crash.call machine fun e s => (!e.fails, s)

def writeEmmc (steps : ℕ) (p data : Bytes) : Run Unit := do
  let opened ← openDevice p
  Crash.failIf (opened = false) .writePartition
  let start ← emmcAttempt steps p data 0
  let start ← (if start = data.length then pure start else emmcAttempt steps p data start)
  Crash.failIf (start ≠ data.length) .writePartition
  let closed ← closeDevice
  Crash.failIf (closed = false) .writePartition

/-! ### MTD -/

/-- A step fails, or leaves the contents `f`; the partition is safe after the last one. -/
def mtdStep (p : Bytes) (last : Bool) (f : Ev → Bytes → Option Bytes) : Run Bool := Crash.call machine fun e s =>
  match s.partitions .mtd p with
  | none => (false, s)
  | some part =>
    match f e part.data with
    | none => (false, s.setPartition .mtd p ⟨e.flash part.data, false⟩)
    | some data => if e.fails then (false, s.setPartition .mtd p ⟨e.flash data, false⟩)
      else (true, s.setPartition .mtd p ⟨data, last⟩)

/-- The calls of mtdutils: the data ends up in front of what the erased blocks hold. -/
def writeMtd (p data : Bytes) : Run Unit := do
  let opened ← openPartition .mtd p
  Crash.failIf (opened = false) .writePartition
  let written ← mtdStep p false fun e old =>
    if old.length < data.length then none else some (data ++ e.flash (old.drop data.length))
  Crash.failIf (written = false) .writePartition
  let erased ← mtdStep p false fun e old => some (data ++ e.flash (old.drop data.length))
  Crash.failIf (erased = false) .writePartition
  let closed ← mtdStep p true fun _ old => some old
  Crash.failIf (closed = false) .writePartition

variable (lib : Lib)

def writeToPartition (data : Bytes) (target : Bytes) : Run Unit :=
  match strtok target with
  | magic :: partition :: _ =>
    if magic = lit "MTD" then writeMtd partition data
    else if magic = lit "EMMC" then writeEmmc lib.steps partition data
    else Crash.fail .writePartition
  | _ => Crash.fail .writePartition

end Patch
end Recovery
