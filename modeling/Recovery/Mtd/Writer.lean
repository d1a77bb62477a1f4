/-
# Writing a stream, whatever the device does

`mtd_write_data` cuts what it is given into blocks, whatever becomes of them. A `Mode` says
what becomes of one: it is put somewhere, it cannot be written, or a crash cuts it off.

Key definitions: `Mode`, `Chain`.
Key theorems: `Mode.mtdWriteData_sat`, `Mode.flushBuffer_sat`.
-/
import Recovery.Mtd.Blocks

namespace Recovery
namespace Mtd

variable {p : MtdPartition}

def flat {n : ℕ} (bs : List (Buffer n)) : Bytes := bs.flatMap Buffer.bytes

@[simp] theorem flat_nil {n : ℕ} : flat ([] : List (Buffer n)) = [] := rfl

@[simp] theorem flat_cons {n : ℕ} (b : Buffer n) (bs : List (Buffer n)) : flat (b :: bs) = b.bytes ++ flat bs := by simp [flat]

@[simp] theorem flat_append {n : ℕ} (bs cs : List (Buffer n)) : flat (bs ++ cs) = flat bs ++ flat cs := by simp [flat]

theorem flat_length {n : ℕ} : ∀ bs : List (Buffer n), (flat bs).length = n * bs.length
  | [] => rfl
  | b :: bs => by
    rw [flat_cons, List.length_append, flat_length bs, b.length_eq, List.length_cons, Nat.mul_succ, Nat.add_comm]

/-! ### Blocks that are skipped -/

/-- The offsets of the blocks from `i` up to `j` that are skipped. -/
def skippedOffsets (p : MtdPartition) (skip : ℕ → Bool) (i j : ℕ) : List ℤ := ((List.range' i (j - i)).filter skip).map p.offset

section

variable {skip skip' : ℕ → Bool} {i j k : ℕ}

@[simp] theorem skippedOffsets_self (i : ℕ) : skippedOffsets p skip i i = [] := by simp [skippedOffsets]

theorem skippedOffsets_append (hij : i ≤ j) (hjk : j ≤ k) :
    skippedOffsets p skip i k = skippedOffsets p skip i j ++ skippedOffsets p skip j k := by
  obtain ⟨a, rfl⟩ := Nat.exists_eq_add_of_le hij
  obtain ⟨c, rfl⟩ := Nat.exists_eq_add_of_le hjk
  have hsplit : List.range' i (a + c) = List.range' i a ++ List.range' (i + a) c := by
    rw [← List.range'_append, Nat.one_mul]
  simp only [skippedOffsets, Nat.add_assoc, Nat.add_sub_cancel_left, hsplit, List.filter_append, List.map_append]
  rw [show i + (a + c) - (i + a) = c by omega]

theorem skippedOffsets_first {b : ℕ} (h : Slots.IsFirst skip j b) : skippedOffsets p skip j (b + 1) = skipped p j b := by
  have hlast : skippedOffsets p skip b (b + 1) = [] := by simp [skippedOffsets, h.kept]
  rw [skippedOffsets_append h.le (Nat.le_succ b), hlast, List.append_nil, skippedOffsets, skipped, List.filter_eq_self.mpr]
  intro c hc
  rw [List.mem_range'_1] at hc
  exact h.before c hc.1 (by omega)

end

/-! ### The buffer -/

/-- The context is at block `j`, with `buf` in its buffer. -/
structure Ready (p : MtdPartition) (ctx : MtdWriteContext p.eraseSize) (j : ℕ) (buf : Bytes) : Prop where
  pos : ctx.pos = p.offset j
  le : j ≤ p.count
  lt : ctx.stored < p.eraseSize
  buf : ctx.buffer.bytes.take ctx.stored = buf

section

variable {ctx : MtdWriteContext p.eraseSize} {j : ℕ} {buf : Bytes}

theorem Ready.length (h : Ready p ctx j buf) : buf.length = ctx.stored := by
  rw [← h.buf, List.length_take, ctx.buffer.length_eq]
  exact min_eq_left ctx.stored_le

theorem store_spec (ctx : MtdWriteContext p.eraseSize) (data : Bytes) :
    (store ctx data).2.buffer.bytes.take (store ctx data).2.stored =
      ctx.buffer.bytes.take ctx.stored ++ data.take (p.eraseSize - ctx.stored) ∧
    (store ctx data).1 = data.drop (p.eraseSize - ctx.stored) ∧
    (store ctx data).2.stored = ctx.stored + min data.length (p.eraseSize - ctx.stored) ∧
    (store ctx data).2.pos = ctx.pos ∧ (store ctx data).2.badBlockOffsets = ctx.badBlockOffsets := by
  have hle := ctx.stored_le
  have hlen : (ctx.buffer.bytes.take ctx.stored).length = ctx.stored := by
    rw [List.length_take, ctx.buffer.length_eq]
    exact min_eq_left hle
  have htake : data.take (min data.length (p.eraseSize - ctx.stored)) = data.take (p.eraseSize - ctx.stored) := by
    rw [Nat.min_comm, ← List.take_eq_take_min]
  have hdrop : data.drop (min data.length (p.eraseSize - ctx.stored)) = data.drop (p.eraseSize - ctx.stored) := by
    rcases Nat.le_total data.length (p.eraseSize - ctx.stored) with h | h
    · rw [min_eq_left h, List.drop_length, List.drop_of_length_le h]
    · rw [min_eq_right h]
  refine ⟨?_, hdrop, rfl, rfl, rfl⟩
  show (ctx.buffer.bytes.take ctx.stored ++ (data.take _ ++ _)).take (ctx.stored + min data.length (p.eraseSize - ctx.stored)) = _
  rw [← List.append_assoc, htake]
  apply List.take_left'
  rw [List.length_append, hlen, List.length_take, Nat.min_comm]

/-- What is in the buffer, with zeros up to the end of a block. -/
def padded (n : ℕ) (buf : Bytes) : Bytes := if buf = [] then [] else buf ++ List.replicate (n - buf.length) 0

/-- The data, with zeros up to the end of the last block. -/
def wholeBlocks (n : ℕ) (data : Bytes) : Bytes := data ++ List.replicate ((n - data.length % n) % n) 0

theorem wholeBlocks_eq {n : ℕ} (bs : List (Buffer n)) {buf : Bytes} (hlt : buf.length < n) :
    flat bs ++ padded n buf = wholeBlocks n (flat bs ++ buf) := by
  have hmod : (flat bs ++ buf).length % n = buf.length := by
    rw [List.length_append, flat_length, Nat.mul_add_mod, Nat.mod_eq_of_lt hlt]
  rw [wholeBlocks, hmod, padded]
  split_ifs with hnil
  · simp [hnil]
  · have hpos : 0 < buf.length := List.length_pos_iff.mpr hnil
    rw [Nat.mod_eq_of_lt (by omega), List.append_assoc]

theorem Roomy.totalBlocks (hr : Roomy p) (hj : j ≤ p.count) : 0 ≤ totalBlocks p (p.offset j) := by
  have hle := hr.offset_le hj
  have hnonneg : 0 ≤ p.offset j := offset_nonneg
  have hsize := hr.size
  have hpos := hr.pos
  have hdiv : 0 ≤ (p.size - p.offset j) / p.eraseSize := Int.ediv_nonneg (by omega) (by omega)
  have hdiv' : (p.size - p.offset j) / p.eraseSize ≤ p.size - p.offset j := Int.ediv_le_self _ (by omega)
  rw [Mtd.totalBlocks, u32_of_lt (by omega) (by omega), s32_of_lt (by omega) (by omega)]
  exact hdiv

theorem eraseFrom_zero (pos : ℤ) : eraseFrom p pos 0 = pure (if 0 > totalBlocks p pos then -1 else pos) := by
  rw [eraseFrom]
  rcases Decidable.em (0 > totalBlocks p pos) with h | h
  · rw [if_pos h, if_pos h]
  · rw [if_neg h, if_neg h]
    rfl

end

/-! ### Modes -/

/-- The flash, and the offsets that the context has skipped. -/
abbrev Laying (p : MtdPartition) := Flash p.eraseSize × List ℤ

/-- What becomes of a block from `j` on, on events of some kind. -/
structure Mode (p : MtdPartition) where
  events : Ev → Prop
  /-- it is put on the flash, and the next one comes at `j'` or behind it -/
  Put : Laying p → ℕ → Buffer p.eraseSize → Laying p → ℕ → Prop
  /-- it cannot be written -/
  Fails : Flash p.eraseSize → ℕ → MtdWriteContext p.eraseSize → Flash p.eraseSize → Prop
  /-- a crash cuts it off -/
  Cut : Flash p.eraseSize → ℕ → Buffer p.eraseSize → Flash p.eraseSize → Prop
  le_count : ∀ {s s' : Laying p} {j j' : ℕ} {x : Buffer p.eraseSize}, Put s j x s' j' → j' ≤ p.count
  write : ∀ {ctx : MtdWriteContext p.eraseSize} {j : ℕ}, j ≤ p.count → ctx.pos = p.offset j → ∀ (x : Buffer p.eraseSize) (f : Flash p.eraseSize),
    Crash.Sat events (writeBlock p ctx x) f
      (fun r f' => (∃ j' offsets, Put (f, ctx.badBlockOffsets) j x (f', offsets) j' ∧
          r = (0, { ctx with pos := p.offset j', badBlockOffsets := offsets, stored_le := stored_le_eraseSize p ctx })) ∨
        (∃ pos offsets, r.1 ≠ 0 ∧
          r.2 = { ctx with pos := pos, badBlockOffsets := offsets, stored_le := stored_le_eraseSize p ctx } ∧ Fails f j r.2 f'))
      (fun _ _ => False) (Cut f j x)

/-- Blocks are put on the flash one after the other. -/
inductive Chain (m : Mode p) : Laying p → ℕ → List (Buffer p.eraseSize) → Laying p → ℕ → Prop
  | nil (s : Laying p) (j : ℕ) : Chain m s j [] s j
  | cons {s s₁ s' : Laying p} {j j₁ j' : ℕ} {x : Buffer p.eraseSize} {bs : List (Buffer p.eraseSize)} (h : m.Put s j x s₁ j₁)
      (rest : Chain m s₁ j₁ bs s' j') : Chain m s j (x :: bs) s' j'

section

variable {m : Mode p} {s s' s'' : Laying p} {j j' j'' : ℕ} {bs cs : List (Buffer p.eraseSize)}

theorem Chain.append (h : Chain m s j bs s' j') (h' : Chain m s' j' cs s'' j'') : Chain m s j (bs ++ cs) s'' j'' := by
  induction h with
  | nil => exact h'
  | cons hput _ ih => exact .cons hput (ih h')

end

namespace Mode

variable (m : Mode p)

/-- The blocks of a stream have been put on the flash, and the rest is in the buffer. -/
def Streamed (s : Laying p) (j : ℕ) (stream : Bytes) (ctx' : MtdWriteContext p.eraseSize) (f' : Flash p.eraseSize) : Prop :=
  ∃ bs j' buf, Chain m s j bs (f', ctx'.badBlockOffsets) j' ∧ stream = flat bs ++ buf ∧ Ready p ctx' j' buf

def Stuck (s : Laying p) (j : ℕ) (stream : Bytes) (ctx' : MtdWriteContext p.eraseSize) (f' : Flash p.eraseSize) : Prop :=
  ∃ bs s₁ j₁, Chain m s j bs s₁ j₁ ∧ flat bs <+: stream ∧ j₁ ≤ p.count ∧ m.Fails s₁.1 j₁ ctx' f'

/-- A crash leaves whole blocks of the stream, and perhaps a part of the next one. -/
def Unfinished (s : Laying p) (j : ℕ) (stream : Bytes) (f' : Flash p.eraseSize) : Prop :=
  ∃ bs s₁ j₁, Chain m s j bs s₁ j₁ ∧ flat bs <+: stream ∧
    (f' = s₁.1 ∨ ∃ new, m.Cut s₁.1 j₁ new f' ∧ flat (bs ++ [new]) <+: stream)

def Goes (s : Laying p) (j : ℕ) (stream : Bytes) (r : Bool × MtdWriteContext p.eraseSize) (f' : Flash p.eraseSize) : Prop :=
  (r.1 = true ∧ m.Streamed s j stream r.2 f') ∨ (r.1 = false ∧ m.Stuck s j stream r.2 f')

variable {m} {s s₁ : Laying p} {j j₁ : ℕ} {bs : List (Buffer p.eraseSize)} {stream rest : Bytes} {ctx ctx' : MtdWriteContext p.eraseSize}
  {f f' : Flash p.eraseSize} {buf : Bytes}

theorem Stuck.after (h : Chain m s j bs s₁ j₁) (hs : stream = flat bs ++ rest) (h' : m.Stuck s₁ j₁ rest ctx' f') :
    m.Stuck s j stream ctx' f' := by
  obtain ⟨cs, s₂, j₂, hchain, hpre, hend⟩ := h'
  refine ⟨bs ++ cs, s₂, j₂, h.append hchain, ?_, hend⟩
  rw [hs, flat_append]
  exact (List.prefix_append_right_inj _).mpr hpre

theorem Streamed.after (h : Chain m s j bs s₁ j₁) (hs : stream = flat bs ++ rest) (h' : m.Streamed s₁ j₁ rest ctx' f') :
    m.Streamed s j stream ctx' f' := by
  obtain ⟨cs, j', buf, hchain, hrest, hready⟩ := h'
  refine ⟨bs ++ cs, j', buf, h.append hchain, ?_, hready⟩
  rw [hs, hrest, flat_append, List.append_assoc]

theorem Goes.after {r : Bool × MtdWriteContext p.eraseSize} (h : Chain m s j bs s₁ j₁) (hs : stream = flat bs ++ rest)
    (h' : m.Goes s₁ j₁ rest r f') : m.Goes s j stream r f' :=
  h'.imp (fun h' => ⟨h'.1, h'.2.after h hs⟩) fun h' => ⟨h'.1, h'.2.after h hs⟩

theorem Unfinished.after (h : Chain m s j bs s₁ j₁) (hs : stream = flat bs ++ rest) (h' : m.Unfinished s₁ j₁ rest f') :
    m.Unfinished s j stream f' := by
  obtain ⟨cs, s₂, j₂, hchain, hpre, hend⟩ := h'
  refine ⟨bs ++ cs, s₂, j₂, h.append hchain, ?_, hend.imp id ?_⟩
  · rw [hs, flat_append]
    exact (List.prefix_append_right_inj _).mpr hpre
  · rintro ⟨new, hcut, hpre'⟩
    refine ⟨new, hcut, ?_⟩
    rw [hs, List.append_assoc, flat_append]
    exact (List.prefix_append_right_inj _).mpr hpre'

theorem unfinished_of_cut {x : Buffer p.eraseSize} (h : m.Cut s.1 j x f') (hs : x.bytes <+: stream) : m.Unfinished s j stream f' :=
  ⟨[], s, j, .nil _ _, List.nil_prefix, .inr ⟨x, h, by simpa using hs⟩⟩

/-! ### Writing -/

theorem writeDirect_sat (m : Mode p) (hr : Roomy p) : ∀ (fuel : ℕ) (ctx : MtdWriteContext p.eraseSize) (data : Bytes) (j : ℕ)
    (f : Flash p.eraseSize), data.length < fuel → ctx.stored = 0 → ctx.pos = p.offset j → j ≤ p.count →
    Crash.Sat m.events (writeDirect p fuel ctx data) f
      (fun r f' => (∃ bs j' offsets left, r = (some left, { ctx with pos := p.offset j', badBlockOffsets := offsets }) ∧
          Chain m (f, ctx.badBlockOffsets) j bs (f', offsets) j' ∧ data = flat bs ++ left ∧ left.length < p.eraseSize ∧ j' ≤ p.count) ∨
        (r.1 = none ∧ m.Stuck (f, ctx.badBlockOffsets) j data r.2 f'))
      (fun _ _ => False) (m.Unfinished (f, ctx.badBlockOffsets) j data)
  | 0, _, _, _, _, h, _, _, _ => absurd h (Nat.not_lt_zero _)
  | fuel + 1, ctx, data, j, f, hfuel, hstored, hpos, hj => by
    rw [writeDirect]
    rcases Nat.lt_or_ge data.length p.eraseSize with hlt | hge
    · rw [dif_neg fun h => absurd h.2 (not_le.mpr hlt)]
      refine .pure (.inl ⟨[], j, ctx.badBlockOffsets, data, ?_, .nil _ _, rfl, hlt, hj⟩)
      rw [← hpos]
    · rw [dif_pos ⟨hstored, hge⟩]
      have hsplit : data = (firstBlock data hge).bytes ++ data.drop p.eraseSize := (List.take_append_drop _ _).symm
      refine ((m.write hj hpos _ f).mono (fun _ _ h => h) (fun _ _ h => h) ?_).step ?_
      · exact fun f' h => unfinished_of_cut h ⟨_, hsplit.symm⟩
      · rintro ⟨ret, ctx₁⟩ f₁ (⟨j₁, offsets, hput, hw⟩ | ⟨pos, offsets, hne, hw, hfails⟩)
        · obtain ⟨rfl, rfl⟩ := Prod.mk.inj hw
          dsimp only
          rw [if_neg (not_not.mpr rfl)]
          have hchain : Chain m (f, ctx.badBlockOffsets) j [firstBlock data hge] (f₁, offsets) j₁ := .cons hput (.nil _ _)
          have hdata : data = flat [firstBlock data hge] ++ data.drop p.eraseSize := by simpa using hsplit
          have hpos' := hr.pos
          refine (writeDirect_sat m hr fuel { ctx with pos := p.offset j₁, badBlockOffsets := offsets } (data.drop p.eraseSize) j₁ f₁
            (by rw [List.length_drop]; omega) hstored rfl (m.le_count hput)).mono ?_ (fun _ _ h => h) fun f' h => h.after hchain hdata
          rintro r f' (⟨bs, j', offsets', left, hr', hchain', hleft, hlt, hj'⟩ | ⟨hnone, hstuck⟩)
          · refine .inl ⟨_, j', offsets', left, hr', hchain.append hchain', ?_, hlt, hj'⟩
            rw [flat_append, List.append_assoc, ← hleft]
            exact hdata
          · exact .inr ⟨hnone, hstuck.after hchain hdata⟩
        · dsimp only at hne ⊢
          rw [if_pos hne]
          exact .pure (.inr ⟨rfl, [], _, j, .nil _ _, List.nil_prefix, hj, hfails⟩)

theorem writeFull_sat (m : Mode p) {stream left : Bytes} (hj : j ≤ p.count) (hpos : ctx.pos = p.offset j) (hfull : ctx.stored = p.eraseSize)
    (hstream : stream = flat [ctx.buffer] ++ left) (f : Flash p.eraseSize) : Crash.Sat m.events (writeFull p ctx) f
      (fun r f' => (∃ j' offsets, r = (true, { ctx with pos := p.offset j', badBlockOffsets := offsets, stored := 0, stored_le := Nat.zero_le _ }) ∧
          Chain m (f, ctx.badBlockOffsets) j [ctx.buffer] (f', offsets) j' ∧ j' ≤ p.count) ∨
        (r.1 = false ∧ m.Stuck (f, ctx.badBlockOffsets) j stream r.2 f'))
      (fun _ _ => False) (m.Unfinished (f, ctx.badBlockOffsets) j stream) := by
  rw [writeFull, if_pos hfull]
  refine Crash.Sat.step ((m.write hj hpos ctx.buffer f).mono (fun _ _ h => h) (fun _ _ h => h) ?_) ?_
  · exact fun f' h => unfinished_of_cut h ⟨left, by simpa using hstream.symm⟩
  · rintro ⟨ret, ctx₁⟩ f₁ (⟨j₁, offsets, hput, hw⟩ | ⟨pos, offsets, hne, hw, hfails⟩)
    · obtain ⟨rfl, rfl⟩ := Prod.mk.inj hw
      dsimp only
      rw [if_neg (not_not.mpr rfl)]
      exact .pure (.inl ⟨j₁, offsets, rfl, .cons hput (.nil _ _), m.le_count hput⟩)
    · dsimp only at hne ⊢
      rw [if_pos hne]
      exact .pure (.inr ⟨rfl, [], _, j, .nil _ _, List.nil_prefix, hj, hfails⟩)

theorem afterStore_sat (m : Mode p) (hr : Roomy p) {fuel : ℕ} {data : Bytes} (hready : Ready p ctx j buf) (hempty : buf = [] ∨ data = [])
    (hloop : ∀ (ctx' : MtdWriteContext p.eraseSize) (left buf' : Bytes) (j' : ℕ) (f' : Flash p.eraseSize),
      left.length ≤ data.length → left.length < p.eraseSize → Ready p ctx' j' buf' →
      Crash.Sat m.events (writeDataLoop p fuel ctx' left) f' (m.Goes (f', ctx'.badBlockOffsets) j' (buf' ++ left)) (fun _ _ => False)
        (m.Unfinished (f', ctx'.badBlockOffsets) j' (buf' ++ left))) :
    Crash.Sat m.events (do
      let (left, ctx) ← writeDirect p (data.length + 1) ctx data
      match left with
      | none => pure (false, ctx)
      | some data => writeDataLoop p fuel ctx data) f (m.Goes (f, ctx.badBlockOffsets) j (buf ++ data)) (fun _ _ => False)
      (m.Unfinished (f, ctx.badBlockOffsets) j (buf ++ data)) := by
  rcases Nat.eq_zero_or_pos ctx.stored with hzero | hpos
  · have hbuf : buf = [] := List.length_eq_zero_iff.mp (hready.length.trans hzero)
    subst hbuf
    refine (writeDirect_sat m hr _ ctx data j f (Nat.lt_succ_self _) hzero hready.pos hready.le).step ?_
    rintro r f₁ (⟨bs, j₁, offsets, left, hr₁, hchain, hdata, hlt, hj₁⟩ | ⟨hnone, hstuck⟩)
    · subst hr₁
      have hready' : Ready p { ctx with pos := p.offset j₁, badBlockOffsets := offsets } j₁ [] :=
        ⟨rfl, hj₁, hready.lt, by rw [← hready.buf]⟩
      have hle : left.length ≤ data.length := by
        rw [hdata, List.length_append]
        omega
      refine (hloop _ left [] j₁ f₁ hle hlt hready').mono ?_ (fun _ _ h => h) ?_
      · exact fun r f' h => h.after hchain (by simpa using hdata)
      · exact fun f' h => h.after hchain (by simpa using hdata)
    · rcases r with ⟨left, ctx₁⟩
      obtain rfl : left = none := hnone
      exact .pure (.inr ⟨rfl, hstuck⟩)
  · have hdata : data = [] := by
      refine hempty.resolve_left fun hbuf => ?_
      rw [← hready.length, hbuf] at hpos
      exact Nat.lt_irrefl 0 hpos
    subst hdata
    have hdirect : writeDirect p (List.length ([] : Bytes) + 1) ctx [] = pure (some [], ctx) := by
      rw [writeDirect, dif_neg fun h => absurd h.1 hpos.ne']
    rw [hdirect]
    exact hloop ctx [] buf j f le_rfl hr.pos hready

theorem writeDataLoop_sat (m : Mode p) (hr : Roomy p) : ∀ (fuel : ℕ) (ctx : MtdWriteContext p.eraseSize) (data buf : Bytes) (j : ℕ)
    (f : Flash p.eraseSize), data.length < fuel → Ready p ctx j buf →
    Crash.Sat m.events (writeDataLoop p fuel ctx data) f (m.Goes (f, ctx.badBlockOffsets) j (buf ++ data)) (fun _ _ => False)
      (m.Unfinished (f, ctx.badBlockOffsets) j (buf ++ data))
  | 0, _, _, _, _, _, h, _ => absurd h (Nat.not_lt_zero _)
  | fuel + 1, ctx, data, buf, j, f, hfuel, hready => by
    rw [writeDataLoop]
    rcases data with _ | ⟨c, data⟩
    · rw [if_pos rfl]
      refine .pure (.inl ⟨rfl, [], j, buf, .nil _ _, by simp, hready⟩)
    rw [if_neg (List.cons_ne_nil _ _)]
    generalize hdata : c :: data = data' at hfuel ⊢
    have hne : 0 < data'.length := by rw [← hdata]; exact Nat.succ_pos _
    have hlen := hready.length
    have hlt := hready.lt
    have hloop : ∀ (bound : ℕ), bound ≤ fuel → ∀ (ctx' : MtdWriteContext p.eraseSize) (left buf' : Bytes) (j' : ℕ)
        (f' : Flash p.eraseSize), left.length < bound → Ready p ctx' j' buf' →
        Crash.Sat m.events (writeDataLoop p fuel ctx' left) f' (m.Goes (f', ctx'.badBlockOffsets) j' (buf' ++ left)) (fun _ _ => False)
          (m.Unfinished (f', ctx'.badBlockOffsets) j' (buf' ++ left)) :=
      fun _ hb ctx' left buf' j' f' h hready' => writeDataLoop_sat m hr fuel ctx' left buf' j' f' (lt_of_lt_of_le h hb) hready'
    rcases Decidable.em (0 < ctx.stored ∨ data'.length < p.eraseSize) with hcond | hcond
    · rw [if_pos hcond]
      obtain ⟨hbuf, hleft, hstored, hpos, hbad⟩ := store_spec ctx data'
      rw [hready.buf] at hbuf
      generalize store ctx data' = st at hbuf hleft hstored hpos hbad ⊢
      rcases st with ⟨left, ctx₀⟩
      dsimp only at hbuf hleft hstored hpos hbad ⊢
      rw [← hbad]
      rcases Nat.lt_or_ge data'.length (p.eraseSize - ctx.stored) with hfit | hfull
      · -- all of it is in the buffer
        have hleft' : left = [] := by rw [hleft, List.drop_of_length_le hfit.le]
        have hready₀ : Ready p ctx₀ j (buf ++ data') := by
          refine ⟨hpos.trans hready.pos, hready.le, by omega, ?_⟩
          rw [hbuf, List.take_of_length_le hfit.le]
        have hfull : writeFull p ctx₀ = pure (true, ctx₀) := by
          rw [writeFull, if_neg (by have := hready₀.lt; omega)]
        subst hleft'
        rw [hfull]
        have hrest := afterStore_sat m (f := f) hr hready₀ (.inr rfl) fun ctx' left buf' j' f' h _ =>
          hloop 1 (by omega) ctx' left buf' j' f' (Nat.lt_succ_of_le h)
        rw [List.append_nil] at hrest
        exact hrest
      · -- a block is complete
        have hstored' : ctx₀.stored = p.eraseSize := by omega
        have hblock : ctx₀.buffer.bytes = buf ++ data'.take (p.eraseSize - ctx.stored) := by
          rw [← hbuf, hstored', List.take_of_length_le ctx₀.buffer.length_eq.le]
        have hstream : buf ++ data' = flat [ctx₀.buffer] ++ left := by
          simp [hblock, hleft]
        refine (writeFull_sat m hready.le (hpos.trans hready.pos) hstored' hstream f).step ?_
        rintro ⟨ok, ctx₁⟩ f₁ (⟨j₁, offsets, hw, hchain, hj₁⟩ | ⟨hfalse, hstuck⟩)
        · obtain ⟨rfl, rfl⟩ := Prod.mk.inj hw
          dsimp only
          rw [if_pos rfl]
          have hready₁ : Ready p { ctx₀ with pos := p.offset j₁, badBlockOffsets := offsets, stored := 0, stored_le := Nat.zero_le _ } j₁ [] :=
            ⟨rfl, hj₁, hr.pos, rfl⟩
          refine Crash.Sat.mono (afterStore_sat m hr hready₁ (.inl rfl) ?_) ?_ (fun _ _ h => h) ?_
          · intro ctx' left' buf' j' f' h _
            refine hloop data'.length (by omega) ctx' left' buf' j' f' (lt_of_le_of_lt h ?_)
            rw [hleft, List.length_drop]
            omega
          · exact fun r f' h => h.after hchain hstream
          · exact fun f' h => h.after hchain hstream
        · obtain rfl : ok = false := hfalse
          exact .pure (.inr ⟨rfl, hstuck⟩)
    · obtain ⟨hzero, hge⟩ := not_or.mp hcond
      have hbuf : buf = [] := List.length_eq_zero_iff.mp (by omega)
      have hfull : writeFull p ctx = pure (true, ctx) := by
        rw [writeFull, if_neg (by omega)]
      rw [if_neg hcond]
      dsimp only
      rw [hfull]
      refine afterStore_sat m hr hready (.inl hbuf) ?_
      exact fun ctx' left buf' j' f' _ h => hloop p.eraseSize (by omega) ctx' left buf' j' f' h

/-- **`mtd_write_data`** goes on with the stream. -/
theorem mtdWriteData_sat (m : Mode p) (hr : Roomy p) (hready : Ready p ctx j buf) (data : Bytes) (f : Flash p.eraseSize) :
    Crash.Sat m.events (mtdWriteData p ctx data) f
      (fun r f' => ∃ ok, r.1 = written ok data.length ∧ m.Goes (f, ctx.badBlockOffsets) j (buf ++ data) (ok, r.2) f')
      (fun _ _ => False) (m.Unfinished (f, ctx.badBlockOffsets) j (buf ++ data)) := by
  refine (writeDataLoop_sat m hr _ ctx data buf j f (Nat.lt_succ_self _) hready).step ?_
  intro ⟨ok, ctx'⟩ f' h
  exact .pure ⟨ok, rfl, h⟩

/-! ### Flushing -/

variable (m) in
/-- The buffer has been written, with zeros behind it. -/
def Flushed (s : Laying p) (j : ℕ) (buf : Bytes) (j' : ℕ) (ctx' : MtdWriteContext p.eraseSize) (f' : Flash p.eraseSize) : Prop :=
  ∃ bs, Chain m s j bs (f', ctx'.badBlockOffsets) j' ∧ flat bs = padded p.eraseSize buf ∧ Ready p ctx' j' []

variable (m) in
def Unflushed (ctx : MtdWriteContext p.eraseSize) (f : Flash p.eraseSize) (j : ℕ) (buf : Bytes) (ctx' : MtdWriteContext p.eraseSize)
    (f' : Flash p.eraseSize) : Prop :=
  buf ≠ [] ∧ m.Fails f j ctx' f' ∧ ctx'.stored = ctx.stored ∧ ctx'.buffer.bytes = padded p.eraseSize buf

theorem flushBuffer_sat (m : Mode p) (hr : Roomy p) (hready : Ready p ctx j buf) (f : Flash p.eraseSize) :
    Crash.Sat m.events (flushBuffer p ctx) f
      (fun r f' => (r.1 = true ∧ ∃ j', m.Flushed (f, ctx.badBlockOffsets) j buf j' r.2 f') ∨ (r.1 = false ∧ m.Unflushed ctx f j buf r.2 f'))
      (fun _ _ => False) (m.Unfinished (f, ctx.badBlockOffsets) j (padded p.eraseSize buf)) := by
  have hlen := hready.length
  have hlt := hready.lt
  rw [flushBuffer]
  rcases Nat.eq_zero_or_pos ctx.stored with hzero | hpos
  · obtain rfl : buf = [] := List.length_eq_zero_iff.mp (hlen.trans hzero)
    rw [if_neg (by omega)]
    exact .pure (.inl ⟨rfl, j, [], .nil _ _, rfl, hready⟩)
  · have hne : buf ≠ [] := fun h => by rw [h] at hlen; exact hpos.ne hlen
    rw [if_pos hpos]
    dsimp only
    generalize hb : ctx.buffer.store ctx.stored (List.replicate (p.eraseSize - ctx.stored) 0) _ = buffer
    have hbytes : buffer.bytes = padded p.eraseSize buf := by
      rw [← hb, padded, if_neg hne, hlen]
      show ctx.buffer.bytes.take ctx.stored ++ (_ ++ ctx.buffer.bytes.drop _) = _
      rw [hready.buf, List.length_replicate, List.drop_of_length_le (by rw [ctx.buffer.length_eq]; omega), List.append_nil]
    refine Crash.Sat.step ((m.write hready.le (by exact hready.pos) buffer f).mono (fun _ _ h => h) (fun _ _ h => h) ?_) ?_
    · exact fun f' h => unfinished_of_cut h (hbytes ▸ List.prefix_rfl)
    · rintro ⟨ret, ctx₁⟩ f₁ (⟨j₁, offsets, hput, hw⟩ | ⟨pos, offsets, hfail, hw, hfails⟩)
      · obtain ⟨rfl, rfl⟩ := Prod.mk.inj hw
        dsimp only
        rw [if_neg (not_not.mpr rfl)]
        exact .pure (.inl ⟨rfl, j₁, [buffer], .cons hput (.nil _ _), by simpa using hbytes, rfl, m.le_count hput, hr.pos, rfl⟩)
      · dsimp only at hfail hw hfails ⊢
        rw [if_pos hfail]
        exact .pure (.inr ⟨rfl, hne, hfails, by rw [hw], by rw [hw]; exact hbytes⟩)

/-- **`mtd_erase_blocks(ctx, 0)`** writes the buffer and returns the offset of the next block. -/
theorem mtdEraseBlocks_zero_sat (m : Mode p) (hr : Roomy p) (hready : Ready p ctx j buf) (f : Flash p.eraseSize) :
    Crash.Sat m.events (mtdEraseBlocks p ctx 0) f
      (fun r f' => (∃ j', r.1 = p.offset j' ∧ m.Flushed (f, ctx.badBlockOffsets) j buf j' r.2 f') ∨ (r.1 = -1 ∧ m.Unflushed ctx f j buf r.2 f'))
      (fun _ _ => False) (m.Unfinished (f, ctx.badBlockOffsets) j (padded p.eraseSize buf)) := by
  rw [mtdEraseBlocks]
  refine (flushBuffer_sat m hr hready f).step ?_
  rintro ⟨ok, ctx₁⟩ f₁ (⟨hok, j₁, hflushed⟩ | ⟨hok, hunflushed⟩)
  · obtain rfl : ok = true := hok
    obtain ⟨bs, hchain, hbs, hready₁⟩ := id hflushed
    have hpos : ctx₁.pos < 2 ^ 31 := by
      have := hr.offset_le hready₁.le
      have := hr.size
      rw [hready₁.pos]
      omega
    dsimp only
    rw [if_pos ⟨rfl, hpos⟩, if_neg hr.pos.ne', if_neg (lt_irrefl _), eraseFrom_zero, hready₁.pos,
      if_neg (not_lt.mpr (hr.totalBlocks hready₁.le))]
    exact .pure (.inl ⟨j₁, rfl, hflushed⟩)
  · obtain rfl : ok = false := hok
    dsimp only
    rw [if_neg fun h => Bool.false_ne_true h.1]
    exact .pure (.inr ⟨rfl, hunflushed⟩)

end Mode

end Mtd
end Recovery
