/-
# Reading and writing MTD partitions (mtdutils/mtdutils.c)

A partition is a sequence of erase blocks; reader and writer skip those that the factory has
marked as bad. The events decide what the device does. A crash in an `ioctl` or a `write`
leaves a part of its effect. Messages are left out.
-/
import Recovery.Buffer
import Recovery.Lib.Crash

namespace Recovery

/-- An array with these bytes in front, and 0xff where there are too few. -/
def Buffer.fill (n : ℕ) (b : Bytes) : Buffer n := ⟨(b ++ List.replicate n 0xff).take n, by simp⟩

/-- The first `k` bytes of an array are written over another. -/
def Buffer.overlay {n : ℕ} (new old : Buffer n) (k : ℕ) : Buffer n :=
  ⟨new.bytes.take k ++ old.bytes.drop k, by
    have := new.length_eq
    have := old.length_eq
    simp only [List.length_append, List.length_take, List.length_drop]
    omega⟩

namespace Mtd

/-- `MtdPartition`, and the blocks that are marked as bad. -/
structure MtdPartition where
  size : ℕ
  eraseSize : ℕ
  size_lt : size < 2 ^ 32
  eraseSize_lt : eraseSize < 2 ^ 32
  bad : ℕ → Bool

/-- What is on the flash, in blocks of `n` bytes. -/
structure Flash (n : ℕ) where
  blocks : ℕ → Buffer n
  /-- the errors that `ECCGETSTATS` counts as failed -/
  eccFailed : ℕ

def Flash.set {n : ℕ} (f : Flash n) (b : ℕ) (data : Buffer n) : Flash n := { f with blocks := Function.update f.blocks b data }

structure Ev where
  /-- the machine stops -/
  halt : Bool
  /-- how many bytes a call moves that a crash or an error cuts off -/
  cut : ℕ
  /-- a call fails, whatever block it is on -/
  err : Bool
  /-- a file cannot be opened or closed -/
  denied : Bool
  /-- the device knows no bad blocks: `EOPNOTSUPP` -/
  unsupported : Bool
  /-- a call on the block fails -/
  fails : ℕ → Bool
  /-- the errors in a block that is read -/
  ecc : ℕ → ℕ
  /-- what is in a block that is to hold these bytes -/
  leaves : ℕ → Bytes → Bytes

variable (p : MtdPartition)

abbrev Run (α : Type) := Crash.Prog Ev Stop (Flash p.eraseSize) α

def ask {α : Type} (f : Ev → Flash p.eraseSize → α) : Run p α := Crash.call ⟨Ev.halt, fun _ s => s⟩ fun e s => (f e s, s)

def MtdPartition.blockAt (pos : ℤ) : Option ℕ :=
  if 0 ≤ pos ∧ pos % p.eraseSize = 0 ∧ pos + p.eraseSize ≤ p.size then some (pos / p.eraseSize).toNat else none

/-- A call on the block at an offset. A crash leaves a part of the new contents. -/
def onBlock {α : Type} (pos : ℤ) (new : Buffer p.eraseSize) (missing : α)
    (f : Ev → ℕ → Flash p.eraseSize → α × Flash p.eraseSize) : Run p α :=
  match p.blockAt pos with
  | none => ask p fun _ _ => missing
  | some b => Crash.call ⟨Ev.halt, fun e s => s.set b (new.overlay (s.blocks b) e.cut)⟩ fun e s => f e b s

/-! ### The calls -/

/-- The answers of `MEMGETBADBLOCK`. -/
inductive BadBlock
  | good
  | bad
  | unsupported
  | error
  deriving DecidableEq

def memGetBadBlock (pos : ℤ) : Run p BadBlock := ask p fun e _ =>
  if e.unsupported then .unsupported
  else if e.err then .error
  else if 0 ≤ pos ∧ pos < p.size then if p.bad (pos / p.eraseSize).toNat then .bad else .good
  else .error

def memErase (pos : ℤ) : Run p Bool :=
  onBlock p pos (.fill p.eraseSize []) false fun e b s =>
    if e.fails b then (false, s.set b (.fill _ (e.leaves b (s.blocks b).bytes)))
    else (true, s.set b (.fill _ (e.leaves b (Buffer.fill p.eraseSize []).bytes)))

def eccGetStats : Run p (Option ℕ) := ask p fun e s => if e.err then none else some s.eccFailed

/-- `lseek` and `write` of a block: whether it was written, and the position. -/
def writeAt (cur pos : ℤ) (data : Buffer p.eraseSize) : Run p (Bool × ℤ) :=
  onBlock p pos data (false, pos) fun e b s =>
    if e.err then ((false, cur), s)
    else if e.fails b then ((false, pos + min e.cut p.eraseSize), s.set b (.fill _ (e.leaves b data.bytes)))
    else ((p.eraseSize < 2 ^ 31, pos + p.eraseSize), s.set b (.fill _ (e.leaves b data.bytes)))

def readAt (cur pos : ℤ) : Run p (Option (Buffer p.eraseSize) × ℤ) :=
  match p.blockAt pos with
  | none => ask p fun _ _ => (none, pos)
  | some b => Crash.call ⟨Ev.halt, fun _ s => s⟩ fun e s =>
    if e.err then ((none, cur), s)
    else if e.fails b ∨ 2 ^ 31 ≤ p.eraseSize then
      ((none, pos + min e.cut p.eraseSize), { s with eccFailed := s.eccFailed + e.ecc b })
    else ((some (s.blocks b), pos + p.eraseSize), { s with eccFailed := s.eccFailed + e.ecc b })

def malloc : Run p Bool := ask p fun e _ => ! e.err

def close : Run p Bool := ask p fun e _ => ! e.denied

@[irreducible] def asInt (n : ℕ) : ℤ := s32 n

/-- More than any loop over the blocks of a partition takes. -/
@[irreducible] def forever : ℕ := 2 ^ 33

/-! ### Reading -/

structure MtdReadContext (n : ℕ) where
  buffer : Buffer n
  consumed : ℕ
  consumed_le : consumed ≤ n
  /-- the position of the file descriptor -/
  pos : ℤ

/-- The loop of `read_block`. It is 64 bits wide. -/
def readLoop : ℕ → ℕ → ℤ → ℤ → Run p (Option (Buffer p.eraseSize) × ℤ)
  | 0, _, _, _ => Crash.fail .hang
  | n + 1, before, cur, pos =>
    if pos + s32 p.eraseSize ≤ s32 p.size then do
      let (data, cur) ← readAt p cur pos
      match data with
      | none => readLoop n before cur (pos + p.eraseSize)
      | some data => do
        let stats ← eccGetStats p
        match stats with
        | none => pure (none, cur)
        | some after =>
          if after ≠ before then readLoop n after cur (pos + p.eraseSize)
          else do
            let mgbb ← memGetBadBlock p pos
            if mgbb ≠ .good then readLoop n before cur (pos + p.eraseSize) else pure (some data, cur)
    else pure (none, cur)

/-- The next block that can be read, and the position behind it. -/
def readBlock (pos : ℤ) : Run p (Option (Buffer p.eraseSize) × ℤ) := do
  let stats ← eccGetStats p
  match stats with
  | none => pure (none, pos)
  | some before => readLoop p forever before pos pos

/-- The loop that reads complete blocks into the user's buffer. -/
def readDirect (len : ℕ) : ℕ → Bytes → MtdReadContext p.eraseSize → Run p (Option Bytes × MtdReadContext p.eraseSize)
  | 0, _, _ => Crash.fail .hang
  | n + 1, data, ctx =>
    if ctx.consumed = p.eraseSize ∧ p.eraseSize ≤ len - data.length then do
      let (block, pos) ← readBlock p ctx.pos
      match block with
      | none => pure (none, { ctx with pos := pos })
      | some block => readDirect len n (data ++ block.bytes) { ctx with pos := pos }
    else pure (some data, ctx)

def takeBuffered {n : ℕ} (len : ℕ) (data : Bytes) (ctx : MtdReadContext n) : Bytes × MtdReadContext n :=
  let copy := min (len - data.length) (n - ctx.consumed)
  (data ++ (ctx.buffer.bytes.drop ctx.consumed).take copy,
    { ctx with consumed := ctx.consumed + copy, consumed_le := by have := ctx.consumed_le; omega })

def readDataLoop (len : ℕ) : ℕ → Bytes → MtdReadContext p.eraseSize → Run p (Option Bytes × MtdReadContext p.eraseSize)
  | 0, _, _ => Crash.fail .hang
  | n + 1, data, ctx =>
    if (data.length : ℤ) < asInt len then do
      let (data, ctx) := takeBuffered len data ctx
      let (direct, ctx) ← readDirect p len (len + 1) data ctx
      match direct with
      | none => pure (none, ctx)
      | some data =>
        if (data.length : ℤ) ≥ asInt len then pure (some data, ctx)
        else if ctx.consumed = p.eraseSize then do
          let (block, pos) ← readBlock p ctx.pos
          match block with
          | none => pure (none, { ctx with pos := pos })
          | some block => readDataLoop len n data ⟨block, 0, Nat.zero_le _, pos⟩
        else readDataLoop len n data ctx
    else pure (some data, ctx)

def mtdReadData (ctx : MtdReadContext p.eraseSize) (len : ℕ) : Run p (Option Bytes × MtdReadContext p.eraseSize) :=
  readDataLoop p len (len + 1) [] ctx

def mtdReadPartition : Run p (Option (MtdReadContext p.eraseSize)) :=
  ask p fun e _ => if e.denied then none else some ⟨.zero _, p.eraseSize, le_rfl, 0⟩

/-! ### Writing -/

structure MtdWriteContext (n : ℕ) where
  buffer : Buffer n
  stored : ℕ
  stored_le : stored ≤ n
  /-- the position of the file descriptor -/
  pos : ℤ
  badBlockOffsets : List ℤ

theorem stored_le_eraseSize (p : MtdPartition) (ctx : MtdWriteContext p.eraseSize) : ctx.stored ≤ p.eraseSize := ctx.stored_le

/-- One try to write a block: whether it can be read back, and the position then. -/
def tryWrite (cur pos : ℤ) (data : Buffer p.eraseSize) : Run p (Bool × ℤ) := do
  let erased ← memErase p pos
  if erased then do
    -- an error is reported, and the block is read back all the same
    let (_, cur) ← writeAt p cur pos data
    let (verify, cur) ← readAt p cur pos
    pure (verify = some data, cur)
  else pure (false, cur)

/-- The loop of `write_block`. It is 32 bits wide. -/
def writeLoop (data : Buffer p.eraseSize) : ℕ → MtdWriteContext p.eraseSize → ℤ → Run p (ℤ × MtdWriteContext p.eraseSize)
  | 0, _, _ => Crash.fail .hang
  | n + 1, ctx, pos =>
    if s32 (pos + s32 p.eraseSize) ≤ s32 p.size then do
      let ret ← memGetBadBlock p pos
      if ret = .bad ∨ ret = .error then
        writeLoop data n { ctx with badBlockOffsets := ctx.badBlockOffsets ++ [pos] } (s32 (pos + p.eraseSize))
      else do
        let (written, cur) ← tryWrite p ctx.pos pos data
        if written then pure (0, { ctx with pos := cur })
        else do
          let (written, cur) ← tryWrite p cur pos data
          if written then pure (0, { ctx with pos := cur })
          else do
            let _ ← memErase p pos
            writeLoop data n { ctx with pos := cur, badBlockOffsets := ctx.badBlockOffsets ++ [pos] } (s32 (pos + p.eraseSize))
    else pure (-1, ctx)

/-- An offset that an `off_t` cannot hold makes `lseek` fail. -/
def writeBlock (ctx : MtdWriteContext p.eraseSize) (data : Buffer p.eraseSize) : Run p (ℤ × MtdWriteContext p.eraseSize) :=
  if ctx.pos < 2 ^ 31 then do
    let verify ← malloc p
    if verify then writeLoop p data forever ctx ctx.pos else pure (1, ctx)
  else pure (1, ctx)

/-- Partial writes are coalesced in the buffer. -/
def store {n : ℕ} (ctx : MtdWriteContext n) (data : Bytes) : Bytes × MtdWriteContext n :=
  let copy := min data.length (n - ctx.stored)
  (data.drop copy,
    { ctx with
      buffer := ctx.buffer.store ctx.stored (data.take copy) (by
        have := ctx.stored_le
        rw [List.length_take]
        omega)
      stored := ctx.stored + copy
      stored_le := by have := ctx.stored_le; omega })

def writeFull (ctx : MtdWriteContext p.eraseSize) : Run p (Bool × MtdWriteContext p.eraseSize) :=
  if ctx.stored = p.eraseSize then do
    let (r, ctx) ← writeBlock p ctx ctx.buffer
    if r ≠ 0 then pure (false, ctx) else pure (true, { ctx with stored := 0, stored_le := Nat.zero_le _ })
  else pure (true, ctx)

def firstBlock {n : ℕ} (data : Bytes) (h : n ≤ data.length) : Buffer n := ⟨data.take n, by rw [List.length_take]; omega⟩

/-- The loop that writes complete blocks from the user's buffer. -/
def writeDirect : ℕ → MtdWriteContext p.eraseSize → Bytes → Run p (Option Bytes × MtdWriteContext p.eraseSize)
  | 0, _, _ => Crash.fail .hang
  | n + 1, ctx, data =>
    if h : ctx.stored = 0 ∧ p.eraseSize ≤ data.length then do
      let (r, ctx) ← writeBlock p ctx (firstBlock data h.2)
      if r ≠ 0 then pure (none, ctx) else writeDirect n ctx (data.drop p.eraseSize)
    else pure (some data, ctx)

/-- The loop of `mtd_write_data` over what is left: whether all was written. -/
def writeDataLoop : ℕ → MtdWriteContext p.eraseSize → Bytes → Run p (Bool × MtdWriteContext p.eraseSize)
  | 0, _, _ => Crash.fail .hang
  | n + 1, ctx, data =>
    if data = [] then pure (true, ctx)
    else do
      let (data, ctx) := if 0 < ctx.stored ∨ data.length < p.eraseSize then store ctx data else (data, ctx)
      let (ok, ctx) ← writeFull p ctx
      if ok then do
        let (left, ctx) ← writeDirect p (data.length + 1) ctx data
        match left with
        | none => pure (false, ctx)
        | some data => writeDataLoop n ctx data
      else pure (false, ctx)

def written (ok : Bool) (len : ℕ) : ℤ :=
  match ok with
  | true => s32 len
  | false => -1

def mtdWriteData (ctx : MtdWriteContext p.eraseSize) (data : Bytes) : Run p (ℤ × MtdWriteContext p.eraseSize) := do
  let (ok, ctx) ← writeDataLoop p (data.length + 1) ctx data
  pure (written ok data.length, ctx)

/-- What is in the buffer is padded with zeros and written: whether that worked. -/
def flushBuffer (ctx : MtdWriteContext p.eraseSize) : Run p (Bool × MtdWriteContext p.eraseSize) :=
  if 0 < ctx.stored then do
    let buffer := ctx.buffer.store ctx.stored (List.replicate (p.eraseSize - ctx.stored) 0) (by
      have := ctx.stored_le
      rw [List.length_replicate]
      omega)
    let (r, ctx) ← writeBlock p { ctx with buffer := buffer } buffer
    if r ≠ 0 then pure (false, ctx) else pure (true, { ctx with stored := 0, stored_le := Nat.zero_le _ })
  else pure (true, ctx)

/-- The loop that erases blocks: the offset behind them. -/
def eraseLoop : ℕ → ℤ → Run p ℤ
  | 0, pos => pure pos
  | n + 1, pos => do
    let ret ← memGetBadBlock p pos
    if ret = .bad then eraseLoop n (s32 (pos + p.eraseSize))
    else do
      let _ ← memErase p pos
      eraseLoop n (s32 (pos + p.eraseSize))

/-- The blocks from an offset on to the end of the partition, as an `int`. -/
def totalBlocks (pos : ℤ) : ℤ := s32 (u32 (p.size - pos) / p.eraseSize)

/-- The blocks from an offset on are erased if there are so many. -/
def eraseFrom (pos blocks : ℤ) : Run p ℤ := if blocks > totalBlocks p pos then pure (-1) else eraseLoop p blocks.toNat pos

def mtdEraseBlocks (ctx : MtdWriteContext p.eraseSize) (blocks : ℤ) : Run p (ℤ × MtdWriteContext p.eraseSize) := do
  let (ok, ctx) ← flushBuffer p ctx
  if ok ∧ ctx.pos < 2 ^ 31 then
    -- the division by zero
    if p.eraseSize = 0 then Crash.fail .fault
    else do
      let pos ← eraseFrom p ctx.pos (if blocks < 0 then totalBlocks p ctx.pos else blocks)
      pure (pos, ctx)
  else pure (-1, ctx)

def mtdWriteClose (ctx : MtdWriteContext p.eraseSize) : Run p ℤ := do
  let (pos, _) ← mtdEraseBlocks p ctx 0
  let closed ← close p
  pure (if pos = -1 ∨ closed = false then -1 else 0)

def mtdWritePartition : Run p (Option (MtdWriteContext p.eraseSize)) :=
  ask p fun e _ => if e.denied then none else some ⟨.zero _, 0, Nat.zero_le _, 0, []⟩

end Mtd
end Recovery
