/-
# Blocks on a device that works

What `write_block` does on a device whose good blocks can be erased, written and read
(`Works`). `Roomy` keeps its 32-bit offsets from overflowing.

Key theorem: `writeBlock_sat`.
-/
import Recovery.Lib.Slots
import Recovery.Mtd.Utils

namespace Recovery

theorem Buffer.fill_bytes {n : ℕ} (b : Buffer n) : Buffer.fill n b.bytes = b := by
  apply Buffer.ext
  show (b.bytes ++ List.replicate n 0xff).take n = b.bytes
  exact List.take_left' b.length_eq

namespace Mtd

open Slots

variable {p : MtdPartition}

/-- Good blocks can be erased, written and read, bad ones are known, and a failed `read` is
no error of the ECC. -/
structure Works (p : MtdPartition) (e : Ev) : Prop where
  err : e.err = false
  supported : e.unsupported = false
  good : ∀ b, p.bad b = false → e.fails b = false ∧ e.ecc b = 0
  keeps : ∀ b d, p.bad b = false → e.leaves b d = d
  quiet : ∀ b, e.fails b = true → e.ecc b = 0

/-- The offset behind a block at the end of the partition is an `off_t`. -/
structure Roomy (p : MtdPartition) : Prop where
  pos : 0 < p.eraseSize
  size : p.size + p.eraseSize < 2 ^ 31

def MtdPartition.count (p : MtdPartition) : ℕ := p.size / p.eraseSize

def MtdPartition.offset (p : MtdPartition) (j : ℕ) : ℤ := (j * p.eraseSize : ℕ)

def Next (p : MtdPartition) (j b : ℕ) : Prop := IsFirst p.bad j b ∧ b < p.count

def Full (p : MtdPartition) (j : ℕ) : Prop := ∀ c, j ≤ c → c < p.count → p.bad c = true

/-! ### Offsets -/

section

variable {j : ℕ}

theorem offset_succ : p.offset (j + 1) = p.offset j + p.eraseSize := by
  unfold MtdPartition.offset
  rw [Nat.succ_mul]
  push_cast
  rfl

theorem offset_nonneg : 0 ≤ p.offset j := Int.natCast_nonneg _

theorem lt_count_iff (hpos : 0 < p.eraseSize) : j < p.count ↔ p.offset j + p.eraseSize ≤ p.size := by
  rw [← offset_succ, MtdPartition.offset, Nat.cast_le, ← Nat.succ_le_iff, MtdPartition.count]
  exact Nat.le_div_iff_mul_le hpos

theorem offset_div (hpos : 0 < p.eraseSize) : (p.offset j / p.eraseSize).toNat = j := by
  rw [MtdPartition.offset, Nat.cast_mul, Int.mul_ediv_cancel _ (by omega), Int.toNat_natCast]

theorem blockAt_offset (hpos : 0 < p.eraseSize) (hj : j < p.count) : p.blockAt (p.offset j) = some j := by
  have hmod : p.offset j % p.eraseSize = 0 := by
    rw [MtdPartition.offset, Nat.cast_mul]
    exact Int.mul_emod_left _ _
  rw [MtdPartition.blockAt, if_pos ⟨offset_nonneg, hmod, (lt_count_iff hpos).mp hj⟩, offset_div hpos]

theorem Roomy.lt_count (hr : Roomy p) : j < p.count ↔ p.offset j + p.eraseSize ≤ p.size := lt_count_iff hr.pos

theorem Roomy.offset_le (hr : Roomy p) (hj : j ≤ p.count) : p.offset j ≤ p.size := by
  rw [MtdPartition.offset, Nat.cast_le]
  exact (Nat.le_div_iff_mul_le hr.pos).mp hj

theorem Roomy.eraseSize_s32 (hr : Roomy p) : s32 p.eraseSize = p.eraseSize := by
  have := hr.size
  exact s32_of_lt (by omega) (by omega)

theorem Roomy.size_s32 (hr : Roomy p) : s32 p.size = p.size := by
  have := hr.size
  exact s32_of_lt (by omega) (by omega)

theorem Roomy.next_s32 (hr : Roomy p) (hj : j ≤ p.count) : s32 (p.offset j + p.eraseSize) = p.offset (j + 1) := by
  have := hr.offset_le hj
  have := hr.size
  have : 0 ≤ p.offset j := offset_nonneg
  rw [offset_succ]
  exact s32_of_lt (by omega) (by omega)

theorem Roomy.writes_iff (hr : Roomy p) (hj : j ≤ p.count) :
    s32 (p.offset j + s32 p.eraseSize) ≤ s32 p.size ↔ j < p.count := by
  rw [hr.eraseSize_s32, hr.next_s32 hj, hr.size_s32, hr.lt_count, offset_succ]

theorem Roomy.reads_iff (hr : Roomy p) : p.offset j + s32 p.eraseSize ≤ s32 p.size ↔ j < p.count := by
  rw [hr.eraseSize_s32, hr.size_s32, hr.lt_count]

theorem Roomy.block_of_offset (hr : Roomy p) : (p.offset j / p.eraseSize).toNat = j := offset_div hr.pos

theorem Roomy.blockAt (hr : Roomy p) (hj : j < p.count) : p.blockAt (p.offset j) = some j := blockAt_offset hr.pos hj

end

/-! ### Calls -/

section

variable {f : Flash p.eraseSize} {j : ℕ}

theorem ask_sat {α : Type} {E : Ev → Prop} {g : Ev → Flash p.eraseSize → α} {P : α → Prop} (h : ∀ e, E e → P (g e f)) :
    Crash.Sat E (ask p g) f (fun r f' => P r ∧ f' = f) (fun _ _ => False) fun f' => f' = f :=
  .call (fun _ _ _ => rfl) fun e he _ => ⟨h e he, rfl⟩

theorem memGetBadBlock_sat (hr : Roomy p) (hj : j < p.count) : Crash.Sat (Works p) (memGetBadBlock p (p.offset j)) f
    (fun r f' => r = (if p.bad j then .bad else .good) ∧ f' = f) (fun _ _ => False) fun f' => f' = f := by
  apply ask_sat
  intro e he
  have hin : 0 ≤ p.offset j ∧ p.offset j < p.size := by
    have := hr.lt_count.mp hj
    have := hr.pos
    exact ⟨offset_nonneg, by omega⟩
  rw [he.supported, he.err, if_neg Bool.false_ne_true, if_neg Bool.false_ne_true, if_pos hin, hr.block_of_offset]

theorem malloc_sat : Crash.Sat (Works p) (malloc p) f (fun r f' => r = true ∧ f' = f) (fun _ _ => False) fun f' => f' = f :=
  ask_sat fun e he => by rw [he.err]; rfl

/-- What a crash leaves of a block that is erased and written. -/
inductive Torn {n : ℕ} (old new : Buffer n) : Buffer n → Prop
  | erasing (k : ℕ) : Torn old new ((Buffer.fill n []).overlay old k)
  | writing (k : ℕ) : Torn old new (new.overlay (.fill n []) k)
  | written : Torn old new new

theorem Flash.set_set {n : ℕ} (f : Flash n) (b : ℕ) (x y : Buffer n) : (f.set b x).set b y = f.set b y := by
  simp [Flash.set, Function.update_idem]

@[simp] theorem Flash.set_self {n : ℕ} (f : Flash n) (b : ℕ) (x : Buffer n) : (f.set b x).blocks b = x := by simp [Flash.set]

theorem readAt_good_sat (hr : Roomy p) (hj : j < p.count) (hgood : p.bad j = false) (cur : ℤ) :
    Crash.Sat (Works p) (readAt p cur (p.offset j)) f (fun r f' => r = (some (f.blocks j), p.offset (j + 1)) ∧ f' = f)
      (fun _ _ => False) fun f' => f' = f := by
  rw [readAt, hr.blockAt hj]
  refine .call (fun _ _ _ => rfl) fun e he _ => ?_
  have hsize := hr.size
  rw [he.err, if_neg Bool.false_ne_true, if_neg (by rw [(he.good j hgood).1]; simp; omega), (he.good j hgood).2, offset_succ]
  exact ⟨rfl, rfl⟩

theorem memErase_sat (hr : Roomy p) (hj : j < p.count) (hgood : p.bad j = false) :
    Crash.Sat (Works p) (memErase p (p.offset j)) f (fun r f' => r = true ∧ f' = f.set j (.fill _ [])) (fun _ _ => False)
      fun f' => ∃ k, f' = f.set j ((Buffer.fill _ []).overlay (f.blocks j) k) := by
  rw [memErase, onBlock, hr.blockAt hj]
  refine .call (fun e _ _ => ⟨e.cut, rfl⟩) fun e he _ => ?_
  rw [(he.good j hgood).1, if_neg Bool.false_ne_true, he.keeps _ _ hgood, Buffer.fill_bytes]
  exact ⟨rfl, rfl⟩

theorem tryWrite_sat (hr : Roomy p) (hj : j < p.count) (hgood : p.bad j = false) (cur : ℤ) (data : Buffer p.eraseSize) :
    Crash.Sat (Works p) (tryWrite p cur (p.offset j) data) f (fun r f' => r = (true, p.offset (j + 1)) ∧ f' = f.set j data)
      (fun _ _ => False) fun f' => ∃ x, Torn (f.blocks j) data x ∧ f' = f.set j x := by
  have hwrite : ∀ cur, Crash.Sat (Works p) (writeAt p cur (p.offset j) data) (f.set j (.fill _ []))
      (fun r f' => f' = f.set j data) (fun _ _ => False) fun f' => ∃ x, Torn (f.blocks j) data x ∧ f' = f.set j x := by
    intro cur
    rw [writeAt, onBlock, hr.blockAt hj]
    refine .call (fun e _ _ => ⟨_, .writing e.cut, ?_⟩) fun e he _ => ?_
    · show (f.set j _).set j (data.overlay ((f.set j _).blocks j) e.cut) = _
      rw [Flash.set_self, Flash.set_set]
    · rw [he.err, if_neg Bool.false_ne_true, (he.good j hgood).1, if_neg Bool.false_ne_true, he.keeps _ _ hgood,
        Buffer.fill_bytes, Flash.set_set]
  refine ((memErase_sat hr hj hgood).mono (fun _ _ h => h) (fun _ _ h => h) fun f' ⟨k, hf'⟩ => ⟨_, .erasing k, hf'⟩).step ?_
  intro r f' ⟨hr', hf'⟩
  subst hr' hf'
  refine (hwrite cur).step ?_
  intro r f' hf'
  subst hf'
  refine ((readAt_good_sat hr hj hgood r.2).mono (fun _ _ h => h) (fun _ _ h => h) ?_).step ?_
  · intro f' hf'
    exact ⟨data, .written, hf'⟩
  · intro r f' ⟨hr', hf'⟩
    subst hr' hf'
    exact .pure ⟨by simp, rfl⟩

end

/-! ### Writing a block -/

/-- The offsets of the bad blocks from `j` on to `b`. -/
def skipped (p : MtdPartition) (j b : ℕ) : List ℤ := (List.range' j (b - j)).map p.offset

theorem skipped_cons {j b : ℕ} (h : j < b) : skipped p j b = p.offset j :: skipped p (j + 1) b := by
  obtain ⟨d, rfl⟩ := Nat.exists_eq_add_of_lt h
  simp only [skipped]
  rw [show j + d + 1 - j = d + 1 by omega, show j + d + 1 - (j + 1) = d by omega, List.range'_succ, List.map_cons]

theorem Next.of_bad {j b : ℕ} (hbad : p.bad j = true) (h : Next p (j + 1) b) : Next p j b := by
  refine ⟨⟨by have := h.1.le; omega, h.1.kept, fun c hj hc => ?_⟩, h.2⟩
  rcases Nat.eq_or_lt_of_le hj with rfl | hlt
  · exact hbad
  · exact h.1.before c hlt hc

theorem Full.of_bad {j : ℕ} (hbad : p.bad j = true) (h : Full p (j + 1)) : Full p j := by
  intro c hj hc
  rcases Nat.eq_or_lt_of_le hj with rfl | hlt
  · exact hbad
  · exact h c hlt hc

def Wrote (ctx : MtdWriteContext p.eraseSize) (j : ℕ) (data : Buffer p.eraseSize) (f : Flash p.eraseSize)
    (r : ℤ × MtdWriteContext p.eraseSize) (f' : Flash p.eraseSize) : Prop :=
  (∃ b, Next p j b ∧ f' = f.set b data ∧
    r = (0, { ctx with
      pos := p.offset (b + 1), badBlockOffsets := ctx.badBlockOffsets ++ skipped p j b, stored_le := stored_le_eraseSize p ctx })) ∨
  (Full p j ∧ f' = f ∧ r = (-1, { ctx with
    badBlockOffsets := ctx.badBlockOffsets ++ skipped p j p.count, stored_le := stored_le_eraseSize p ctx }))

def Cut (j : ℕ) (data : Buffer p.eraseSize) (f f' : Flash p.eraseSize) : Prop :=
  f' = f ∨ ∃ b x, Next p j b ∧ Torn (f.blocks b) data x ∧ f' = f.set b x

theorem writeLoop_sat (hr : Roomy p) (data : Buffer p.eraseSize) (f : Flash p.eraseSize) :
    ∀ (fuel : ℕ) (ctx : MtdWriteContext p.eraseSize) (j : ℕ), j ≤ p.count → p.count - j < fuel →
      Crash.Sat (Works p) (writeLoop p data fuel ctx (p.offset j)) f (Wrote ctx j data f) (fun _ _ => False) (Cut j data f)
  | 0, _, _, _, h => absurd h (Nat.not_lt_zero _)
  | fuel + 1, ctx, j, hj, hfuel => by
    rw [writeLoop]
    rcases Nat.lt_or_ge j p.count with hlt | hge
    · rw [if_pos ((hr.writes_iff hj).mpr hlt)]
      refine ((memGetBadBlock_sat hr hlt).mono (fun _ _ h => h) (fun _ _ h => h) fun _ h => Or.inl h).step ?_
      intro ret f' ⟨hret, hf'⟩
      subst hret hf'
      by_cases hbad : p.bad j = true
      · -- a bad block is skipped
        rw [if_pos hbad, if_pos (Or.inl rfl), hr.next_s32 hj]
        refine (writeLoop_sat hr data f' fuel _ (j + 1) hlt (by omega)).mono ?_ (fun _ _ h => h) ?_
        · rintro r f₁ (⟨b, hb, hf₁, hr₁⟩ | ⟨hfull, hf₁, hr₁⟩)
          · refine .inl ⟨b, hb.of_bad hbad, hf₁, ?_⟩
            rw [hr₁, skipped_cons (Nat.lt_of_succ_le hb.1.le), List.append_assoc]
            rfl
          · refine .inr ⟨hfull.of_bad hbad, hf₁, ?_⟩
            rw [hr₁, skipped_cons hlt, List.append_assoc]
            rfl
        · rintro f₁ (hf₁ | ⟨b, x, hb, hx, hf₁⟩)
          · exact .inl hf₁
          · exact .inr ⟨b, x, hb.of_bad hbad, hx, hf₁⟩
      · have hgood : p.bad j = false := by simpa using hbad
        have hnext : Next p j j := ⟨⟨le_rfl, hgood, fun c h1 h2 => absurd h2 (not_lt.mpr h1)⟩, hlt⟩
        rw [if_neg hbad, if_neg (by decide)]
        refine ((tryWrite_sat hr hlt hgood ctx.pos data).mono (fun _ _ h => h) (fun _ _ h => h) ?_).step ?_
        · rintro f₁ ⟨x, hx, hf₁⟩
          exact .inr ⟨j, x, hnext, hx, hf₁⟩
        · intro r f₁ ⟨hr₁, hf₁⟩
          subst hr₁ hf₁
          refine .pure (.inl ⟨j, hnext, rfl, ?_⟩)
          simp [skipped]
    · have heq : j = p.count := le_antisymm hj hge
      rw [if_neg (mt (hr.writes_iff hj).mp (not_lt.mpr hge))]
      refine .pure (.inr ⟨fun c h1 h2 => absurd h2 (by omega), rfl, ?_⟩)
      simp [skipped, heq]

theorem Roomy.count_lt (hr : Roomy p) : p.count < forever := by
  have := hr.size
  have hle : p.count ≤ p.size := Nat.div_le_self _ _
  exact lt_of_le_of_lt hle (lt_trans (by omega : p.size < 2 ^ 31) (by norm_num [forever]))

/-- **`write_block`** writes the next good block. -/
theorem writeBlock_sat (hr : Roomy p) {ctx : MtdWriteContext p.eraseSize} {j : ℕ} (hj : j ≤ p.count)
    (hpos : ctx.pos = p.offset j) (data : Buffer p.eraseSize) (f : Flash p.eraseSize) :
    Crash.Sat (Works p) (writeBlock p ctx data) f (Wrote ctx j data f) (fun _ _ => False) (Cut j data f) := by
  have hlt : ctx.pos < 2 ^ 31 := by
    have := hr.offset_le hj
    have := hr.size
    omega
  rw [writeBlock, if_pos hlt]
  refine (malloc_sat.mono (fun _ _ h => h) (fun _ _ h => h) fun _ h => Or.inl h).step ?_
  intro r f' ⟨hr', hf'⟩
  subst hr' hf'
  rw [if_pos rfl, hpos]
  exact writeLoop_sat hr data f' forever ctx j hj (by have := hr.count_lt; omega)

end Mtd
end Recovery
