/-
# Streams of bytes on a partition

Key definitions: `Laid`.
Key theorems: `mtdWriteData_sat`, `mtdReadData_sat`.
-/
import Recovery.Mtd.Reader
import Recovery.Mtd.Writer

namespace Recovery
namespace Mtd

open Slots

variable {p : MtdPartition}

/-- What the good blocks from `i` up to `j` hold. -/
def held (p : MtdPartition) (f : Flash p.eraseSize) (i j : ℕ) : Bytes := contents p.bad (fun b => (f.blocks b).bytes) i j

/-! ### Blocks in a row -/

/-- The blocks are laid from `j` on, each on the next good block. -/
inductive Laid (p : MtdPartition) : Flash p.eraseSize → ℕ → List (Buffer p.eraseSize) → Flash p.eraseSize → ℕ → Prop
  | nil (f : Flash p.eraseSize) (j : ℕ) : Laid p f j [] f j
  | cons {f f' : Flash p.eraseSize} {j j' b : ℕ} {x : Buffer p.eraseSize} {bs : List (Buffer p.eraseSize)} (h : Next p j b)
      (rest : Laid p (f.set b x) (b + 1) bs f' j') : Laid p f j (x :: bs) f' j'

section

variable {f f' f'' : Flash p.eraseSize} {j j' j'' : ℕ} {bs cs : List (Buffer p.eraseSize)}

theorem Laid.append (h : Laid p f j bs f' j') (h' : Laid p f' j' cs f'' j'') : Laid p f j (bs ++ cs) f'' j'' := by
  induction h with
  | nil => exact h'
  | cons hnext _ ih => exact .cons hnext (ih h')

theorem Laid.le (h : Laid p f j bs f' j') : j ≤ j' := by
  induction h with
  | nil => exact le_rfl
  | cons hnext _ ih => exact hnext.1.le.trans ((Nat.le_succ _).trans ih)

theorem Laid.front (h : Laid p f j bs f' j') {c : ℕ} (hc : c < j) : f'.blocks c = f.blocks c := by
  induction h with
  | nil => rfl
  | @cons f _ _ _ b x _ hnext _ ih =>
    have hlt : c < b := lt_of_lt_of_le hc hnext.1.le
    rw [ih (Nat.lt_succ_of_lt hlt)]
    exact Function.update_of_ne hlt.ne _ _

theorem Next.not_full {b : ℕ} (h : Next p j b) : ¬ Full p j := fun hfull => by
  have := hfull b h.1.le h.2
  rw [h.1.kept] at this
  cases this

theorem Laid.of_full (h : Laid p f j bs f' j') (hfull : Full p j) : bs = [] ∧ f' = f ∧ j' = j := by
  cases h with
  | nil => exact ⟨rfl, rfl, rfl⟩
  | cons hnext => exact absurd hfull hnext.not_full

theorem held_append {i k l : ℕ} (hik : i ≤ k) (hkl : k ≤ l) : held p f i l = held p f i k ++ held p f k l := contents_append hik hkl

theorem Laid.held (h : Laid p f j bs f' j') : held p f' j j' = flat bs := by
  induction h with
  | nil => exact contents_self _
  | @cons f f' j j' b x bs hnext rest ih =>
    have hb : f'.blocks b = x := by
      rw [rest.front (Nat.lt_succ_self b)]
      exact Function.update_self _ _ _
    rw [held_append (hnext.1.le.trans (Nat.le_succ b)) rest.le, ih, flat_cons, ← hb]
    congr 1
    exact contents_first hnext.1

/-- The offsets of the bad blocks from `i` up to `j`. -/
def badOffsets (p : MtdPartition) (i j : ℕ) : List ℤ := ((List.range' i (j - i)).filter p.bad).map p.offset

theorem badOffsets_append {i k : ℕ} (hij : i ≤ j) (hjk : j ≤ k) : badOffsets p i k = badOffsets p i j ++ badOffsets p j k :=
  skippedOffsets_append hij hjk

@[simp] theorem badOffsets_self (i : ℕ) : badOffsets p i i = [] := by simp [badOffsets]

theorem Next.skipped {b : ℕ} (h : Next p j b) : skipped p j b = badOffsets p j (b + 1) := (skippedOffsets_first h.1).symm

end

/-! ### What a run leaves -/

/-- The partition is full: a part of the stream has been laid. -/
def Stuck (p : MtdPartition) (f : Flash p.eraseSize) (j : ℕ) (stream : Bytes) (ctx : MtdWriteContext p.eraseSize)
    (f' : Flash p.eraseSize) : Prop :=
  ∃ bs j', Laid p f j bs f' j' ∧ flat bs <+: stream ∧ j' ≤ p.count ∧ Full p j' ∧ ctx.pos = p.offset j'

/-- A crash leaves whole blocks of the stream, and perhaps a part of the next one. -/
def Unfinished (p : MtdPartition) (f : Flash p.eraseSize) (j : ℕ) (stream : Bytes) (f' : Flash p.eraseSize) : Prop :=
  ∃ bs f₁ j₁, Laid p f j bs f₁ j₁ ∧ flat bs <+: stream ∧
    (f' = f₁ ∨ ∃ b new x, Next p j₁ b ∧ Torn (f₁.blocks b) new x ∧ flat (bs ++ [new]) <+: stream ∧ f' = f₁.set b x)

section

variable {f f₁ f' : Flash p.eraseSize} {j j₁ : ℕ} {bs : List (Buffer p.eraseSize)} {stream rest : Bytes}
  {ctx : MtdWriteContext p.eraseSize}

theorem Unfinished.start : Unfinished p f j stream f := ⟨[], f, j, .nil _ _, List.nil_prefix, .inl rfl⟩

theorem Cut.unfinished {data : Buffer p.eraseSize} (h : Cut j data f f') (hs : data.bytes <+: stream) :
    Unfinished p f j stream f' := by
  rcases h with rfl | ⟨b, x, hnext, htorn, hf'⟩
  · exact .start
  · exact ⟨[], f, j, .nil _ _, List.nil_prefix, .inr ⟨b, data, x, hnext, htorn, by simpa using hs, hf'⟩⟩

end

/-! ### Writing -/

/-- The blocks of a stream have been laid, and the rest is in the buffer. -/
def Streamed (p : MtdPartition) (ctx : MtdWriteContext p.eraseSize) (f : Flash p.eraseSize) (j : ℕ) (stream : Bytes)
    (ctx' : MtdWriteContext p.eraseSize) (f' : Flash p.eraseSize) : Prop :=
  ∃ bs j' buf, Laid p f j bs f' j' ∧ stream = flat bs ++ buf ∧ Ready p ctx' j' buf ∧
    ctx'.badBlockOffsets = ctx.badBlockOffsets ++ badOffsets p j j'

section

variable {ctx ctx' : MtdWriteContext p.eraseSize} {f f' : Flash p.eraseSize} {j j' : ℕ} {stream rest buf : Bytes}

def Goes (p : MtdPartition) (ctx : MtdWriteContext p.eraseSize) (f : Flash p.eraseSize) (j : ℕ) (stream : Bytes)
    (r : Bool × MtdWriteContext p.eraseSize) (f' : Flash p.eraseSize) : Prop :=
  (r.1 = true ∧ Streamed p ctx f j stream r.2 f') ∨ (r.1 = false ∧ Stuck p f j stream r.2 f')

/-- On a device that works, a block is laid on the next good block. -/
def works (hr : Roomy p) : Mode p where
  events := Works p
  Put s j x s' j' := ∃ b, Next p j b ∧ s' = (s.1.set b x, s.2 ++ badOffsets p j (b + 1)) ∧ j' = b + 1
  Fails f j ctx' f' := Full p j ∧ f' = f ∧ ctx'.pos = p.offset j
  Cut f j x f' := Cut j x f f'
  le_count := fun ⟨_, hnext, _, hj'⟩ => hj' ▸ hnext.2
  write := fun {ctx j} hj hpos x f => by
    refine (writeBlock_sat hr hj hpos x f).imp ?_
    rintro r f' (⟨b, hnext, hf', rfl⟩ | ⟨hfull, hf', rfl⟩)
    · refine .inl ⟨b + 1, _, ⟨b, hnext, Prod.ext hf' rfl, rfl⟩, ?_⟩
      rw [hnext.skipped]
    · exact .inr ⟨ctx.pos, _, (by decide : (-1 : ℤ) ≠ 0), rfl, hfull, hf', hpos⟩

theorem Chain.laid {hr : Roomy p} {s s' : Laying p} {bs : List (Buffer p.eraseSize)} (h : Chain (works hr) s j bs s' j') :
    Laid p s.1 j bs s'.1 j' ∧ s'.2 = s.2 ++ badOffsets p j j' := by
  induction h with
  | nil => exact ⟨.nil _ _, by simp⟩
  | cons hput _ ih =>
    obtain ⟨b, hnext, rfl, rfl⟩ := hput
    refine ⟨.cons hnext ih.1, ?_⟩
    rw [ih.2, badOffsets_append (hnext.1.le.trans (Nat.le_succ b)) ih.1.le, List.append_assoc]

theorem Stuck.of_works {hr : Roomy p} {s : Laying p} (h : (works hr).Stuck s j stream ctx' f') : Stuck p s.1 j stream ctx' f' := by
  obtain ⟨bs, s₁, j₁, hchain, hpre, hj₁, hfull, rfl, hpos⟩ := h
  exact ⟨bs, j₁, hchain.laid.1, hpre, hj₁, hfull, hpos⟩

theorem Unfinished.of_works {hr : Roomy p} {s : Laying p} (h : (works hr).Unfinished s j stream f') :
    Unfinished p s.1 j stream f' := by
  obtain ⟨bs, s₁, j₁, hchain, hpre, hend⟩ := h
  refine ⟨bs, s₁.1, j₁, hchain.laid.1, hpre, ?_⟩
  rcases hend with hf' | ⟨new, hf' | ⟨b, x, hnext, htorn, hf'⟩, hpre'⟩
  · exact .inl hf'
  · exact .inl hf'
  · exact .inr ⟨b, new, x, hnext, htorn, hpre', hf'⟩

theorem Goes.of_works {hr : Roomy p} {r : Bool × MtdWriteContext p.eraseSize}
    (h : (works hr).Goes (f, ctx.badBlockOffsets) j stream r f') :
    Goes p ctx f j stream r f' := by
  rcases h with ⟨hok, bs, j', buf, hchain, hs, hready⟩ | ⟨hok, hstuck⟩
  · exact .inl ⟨hok, bs, j', buf, hchain.laid.1, hs, hready, hchain.laid.2⟩
  · exact .inr ⟨hok, .of_works hstuck⟩

/-- **`mtd_write_data`** goes on with the stream. -/
theorem mtdWriteData_sat (hr : Roomy p) (hready : Ready p ctx j buf) (data : Bytes) (f : Flash p.eraseSize) :
    Crash.Sat (Works p) (mtdWriteData p ctx data) f
      (fun r f' => ∃ ok, r.1 = written ok data.length ∧ Goes p ctx f j (buf ++ data) (ok, r.2) f')
      (fun _ _ => False) (Unfinished p f j (buf ++ data)) := by
  refine ((works hr).mtdWriteData_sat hr hready data f).mono ?_ (fun _ _ h => h) fun _ h => .of_works h
  rintro r f' ⟨ok, hok, hgoes⟩
  exact ⟨ok, hok, .of_works hgoes⟩

/-- **`mtd_write_partition`** gives a context at the first block, if the device can be opened. -/
theorem mtdWritePartition_sat (hr : Roomy p) (f : Flash p.eraseSize) :
    Crash.Sat (Works p) (mtdWritePartition p) f
      (fun r f' => (∀ ctx, r = some ctx → Ready p ctx 0 [] ∧ ctx.badBlockOffsets = []) ∧ f' = f)
        (fun _ _ => False) fun f' => f' = f := by
  refine ask_sat fun e _ ctx h => ?_
  split_ifs at h
  obtain rfl := Option.some.inj h
  exact ⟨⟨by simp [MtdPartition.offset], Nat.zero_le _, hr.pos, rfl⟩, rfl⟩

/-- The buffer has been written, with zeros behind it. -/
def Flushed (p : MtdPartition) (ctx : MtdWriteContext p.eraseSize) (f : Flash p.eraseSize) (j : ℕ) (buf : Bytes) (j' : ℕ)
    (ctx' : MtdWriteContext p.eraseSize) (f' : Flash p.eraseSize) : Prop :=
  ∃ bs, Laid p f j bs f' j' ∧ flat bs = padded p.eraseSize buf ∧ Ready p ctx' j' [] ∧
    ctx'.badBlockOffsets = ctx.badBlockOffsets ++ badOffsets p j j'

/-- There is no block left for what is in the buffer. -/
structure Blocked (p : MtdPartition) (ctx : MtdWriteContext p.eraseSize) (j : ℕ) (buf : Bytes) : Prop where
  ready : Ready p ctx j buf
  full : Full p j
  ne : buf ≠ []

theorem Flushed.of_works {hr : Roomy p} (h : (works hr).Flushed
    (f, ctx.badBlockOffsets) j buf j' ctx' f') : Flushed p ctx f j buf j' ctx' f' := by
  obtain ⟨bs, hchain, hbs, hready⟩ := h
  exact ⟨bs, hchain.laid.1, hbs, hready, hchain.laid.2⟩

theorem Blocked.of_works {hr : Roomy p} (hready : Ready p ctx j buf) (h : (works hr).Unflushed ctx f j buf ctx' f') :
    Blocked p ctx' j buf ∧ f' = f := by
  obtain ⟨hne, ⟨hfull, hf', hpos⟩, hstored, hbuffer⟩ := h
  refine ⟨⟨⟨hpos, hready.le, hstored ▸ hready.lt, ?_⟩, hfull, hne⟩, hf'⟩
  rw [hbuffer, padded, if_neg hne, hstored, ← hready.length, List.take_left]

/-- **`mtd_erase_blocks(ctx, 0)`** writes the buffer and returns the offset of the next block. -/
theorem mtdEraseBlocks_zero_sat (hr : Roomy p) (hready : Ready p ctx j buf) (f : Flash p.eraseSize) :
    Crash.Sat (Works p) (mtdEraseBlocks p ctx 0) f
      (fun r f' => (∃ j', r.1 = p.offset j' ∧ Flushed p ctx f j buf j' r.2 f') ∨
        (r.1 = -1 ∧ Blocked p r.2 j buf ∧ f' = f))
      (fun _ _ => False) (Unfinished p f j (padded p.eraseSize buf)) := by
  refine ((works hr).mtdEraseBlocks_zero_sat hr hready f).mono ?_ (fun _ _ h => h) fun _ h => .of_works h
  rintro r f' (⟨j', hpos, hflushed⟩ | ⟨hpos, hunflushed⟩)
  · exact .inl ⟨j', hpos, .of_works hflushed⟩
  · exact .inr ⟨hpos, Blocked.of_works hready hunflushed⟩

/-- **`mtd_write_close`** writes the buffer. -/
theorem mtdWriteClose_sat (hr : Roomy p) (hready : Ready p ctx j buf) (f : Flash p.eraseSize) :
    Crash.Sat (Works p) (mtdWriteClose p ctx) f
      (fun r f' => (∃ bs j', Laid p f j bs f' j' ∧ flat bs = padded p.eraseSize buf ∧ j' ≤ p.count) ∨
        (r = -1 ∧ Full p j ∧ buf ≠ [] ∧ f' = f))
      (fun _ _ => False) (Unfinished p f j (padded p.eraseSize buf)) := by
  rw [mtdWriteClose]
  refine (mtdEraseBlocks_zero_sat hr hready f).step ?_
  intro ⟨pos, ctx₁⟩ f₁ h
  have hclose : Crash.Sat (Works p) (close p) f₁ (fun _ f' => True ∧ f' = f₁) (fun _ _ => False)
      (Unfinished p f j (padded p.eraseSize buf)) := by
    refine (ask_sat fun _ _ => trivial).mono (fun _ _ h => h) (fun _ _ h => h) ?_
    rintro f' rfl
    rcases h with ⟨j', -, bs, hlaid, hbs, -⟩ | ⟨-, -, hf₁⟩
    · exact ⟨bs, f', j', hlaid, hbs ▸ List.prefix_rfl, .inl rfl⟩
    · exact hf₁ ▸ .start
  refine hclose.step ?_
  rintro closed f' ⟨-, rfl⟩
  rcases h with ⟨j', -, bs, hlaid, hbs, hready', -⟩ | ⟨hpos, hblocked, hf'⟩
  · exact .pure (.inl ⟨bs, j', hlaid, hbs, hready'.le⟩)
  · exact .pure (.inr ⟨if_pos (.inl hpos), hblocked.full, hblocked.ne, hf'⟩)

theorem Unfinished.of_full {stream : Bytes} (h : Unfinished p f j stream f') (hfull : Full p j) : f' = f := by
  obtain ⟨bs, f₁, j₁, hlaid, -, hend⟩ := h
  obtain ⟨rfl, rfl, rfl⟩ := hlaid.of_full hfull
  rcases hend with rfl | ⟨b, new, x, hnext, -⟩
  · rfl
  · exact absurd hfull hnext.not_full

theorem writeBlock_full (hr : Roomy p) {x : Buffer p.eraseSize} (hj : j ≤ p.count) (hpos : ctx.pos = p.offset j) (hfull : Full p j) :
    Crash.Sat (Works p) (writeBlock p ctx x) f (fun _ f' => f' = f) (fun _ _ => False) fun f' => f' = f := by
  refine (writeBlock_sat hr hj hpos x f).mono ?_ (fun _ _ h => h) fun f' h => (h.unfinished List.prefix_rfl).of_full hfull
  rintro r f' (⟨b, hnext, -⟩ | ⟨-, hf', -⟩)
  · exact absurd hfull hnext.not_full
  · exact hf'

theorem mtdWriteClose_full (hr : Roomy p) (hj : j ≤ p.count) (hpos : ctx.pos = p.offset j) (hfull : Full p j) :
    Crash.Sat (Works p) (mtdWriteClose p ctx) f (fun _ f' => f' = f) (fun _ _ => False) fun f' => f' = f := by
  have hflush : Crash.Sat (Works p) (flushBuffer p ctx) f (fun _ f' => f' = f) (fun _ _ => False) fun f' => f' = f := by
    rw [flushBuffer]
    split_ifs
    · refine Crash.Sat.step (writeBlock_full hr hj (by exact hpos) hfull) ?_
      rintro ⟨ret, ctx₁⟩ f₁ hf₁
      dsimp only
      split_ifs <;> exact .pure hf₁
    · exact .pure rfl
  have herase : Crash.Sat (Works p) (mtdEraseBlocks p ctx 0) f (fun _ f' => f' = f) (fun _ _ => False) fun f' => f' = f := by
    refine hflush.step ?_
    rintro ⟨ok, ctx₁⟩ f₁ rfl
    dsimp only
    rcases Decidable.em (ok = true ∧ ctx₁.pos < 2 ^ 31) with hok | hok
    · rw [if_pos hok, if_neg hr.pos.ne', if_neg (lt_irrefl _), eraseFrom_zero]
      exact .pure rfl
    · rw [if_neg hok]
      exact .pure rfl
  refine herase.step ?_
  rintro r f₁ rfl
  refine (ask_sat (P := fun _ => True) fun _ _ => trivial).step ?_
  rintro closed f₂ ⟨-, rfl⟩
  exact .pure rfl

end

/-! ### Reading -/

section

variable {f s : Flash p.eraseSize} {ctx : MtdReadContext p.eraseSize} {J len : ℕ} {rest : Bytes}

/-- From the context, `rest` can be read up to block `J`. -/
def Reads (p : MtdPartition) (f : Flash p.eraseSize) (J : ℕ) (ctx : MtdReadContext p.eraseSize) (rest : Bytes) : Prop :=
  ∃ j, j ≤ J ∧ ctx.pos = p.offset j ∧ rest = ctx.buffer.bytes.drop ctx.consumed ++ held p f j J

/-- **`mtd_read_data`** returns the next bytes of the stream. -/
theorem mtdReadData_sat (hr : Roomy p) (hJ : J ≤ p.count) (hreads : Reads p f J ctx rest) (hlen : len ≤ rest.length)
    (hlt : len < 2 ^ 31) (hs : s.blocks = f.blocks) :
    Crash.Sat (Works p) (mtdReadData p ctx len) s
      (fun r s' => s'.blocks = f.blocks ∧ ∃ ctx', r = (some (rest.take len), ctx') ∧ Reads p f J ctx' (rest.drop len))
      (fun _ _ => False) fun s' => s'.blocks = f.blocks :=
  (Shows.mtdReadData_sat hr hJ hreads hlen hlt hs).events fun _ he => he.shows

end

end Mtd
end Recovery
