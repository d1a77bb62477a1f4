/-
# Reading a stream, whatever blocks are skipped

`Shows p skip J`: the blocks that `read_block` leaves out, up to block `J`, are those of
`skip`. Then `mtd_read_data` returns what the others hold, in whatever pieces it is read
(`Shows.mtdReadData_sat`).
-/
import Recovery.Mtd.Blocks

namespace Recovery
namespace Mtd

open Slots

variable {p : MtdPartition} {skip : ℕ → Bool}

/-- The reader leaves out the blocks of `skip` up to `J`, and the others have no errors. -/
structure Shows (p : MtdPartition) (skip : ℕ → Bool) (J : ℕ) (e : Ev) : Prop where
  err : e.err = false
  supported : e.unsupported = false
  good : ∀ b, b < J → skip b = false → p.bad b = false ∧ e.fails b = false ∧ e.ecc b = 0
  skips : ∀ b, b < J → skip b = true → p.bad b = true ∨ e.fails b = true ∨ 0 < e.ecc b
  quiet : ∀ b, b < J → e.fails b = true → e.ecc b = 0

theorem Works.shows {J : ℕ} {e : Ev} (h : Works p e) : Shows p p.bad J e :=
  ⟨h.err, h.supported, fun b _ hb => ⟨hb, h.good b hb⟩, fun _ _ hb => .inl hb, fun b _ => h.quiet b⟩

/-- What the blocks from `i` up to `j` hold that are not skipped. -/
def shown (p : MtdPartition) (skip : ℕ → Bool) (f : Flash p.eraseSize) (i j : ℕ) : Bytes :=
    contents skip (fun b => (f.blocks b).bytes) i j

/-- From the context, `rest` can be read up to block `J`. -/
def ReadsOn (p : MtdPartition) (skip : ℕ → Bool) (f : Flash p.eraseSize) (J : ℕ)
    (ctx : MtdReadContext p.eraseSize) (rest : Bytes) : Prop :=
  ∃ j, j ≤ J ∧ ctx.pos = p.offset j ∧ rest = ctx.buffer.bytes.drop ctx.consumed ++ shown p skip f j J

theorem ReadsOn.start (f : Flash p.eraseSize) (J : ℕ) :
    ReadsOn p skip f J ⟨.zero _, p.eraseSize, le_rfl, 0⟩ (shown p skip f 0 J) := by
  refine ⟨0, Nat.zero_le _, by simp [MtdPartition.offset], ?_⟩
  rw [List.drop_of_length_le (Buffer.zero _).length_eq.le, List.nil_append]

theorem asInt_of_lt {n : ℕ} (h : n < 2 ^ 31) : asInt n = n := by
  unfold asInt
  exact s32_of_lt (by omega) (by omega)

namespace Shows

variable {f s : Flash p.eraseSize} {J j : ℕ}

/-! ### Blocks -/

theorem eccGetStats_sat : Crash.Sat (Shows p skip J) (eccGetStats p) f (fun r f' => r = some f.eccFailed ∧ f' = f) (fun _ _ => False)
    fun f' => f' = f :=
  ask_sat fun e he => by rw [he.err]; rfl

theorem memGetBadBlock_sat (hr : Roomy p) (hJ : J ≤ p.count) (hj : j < J) :
    Crash.Sat (Shows p skip J) (memGetBadBlock p (p.offset j)) f
    (fun r f' => (r = (if p.bad j then .bad else .good) ∧ (skip j = false → p.bad j = false)) ∧ f' = f) (fun _ _ => False)
    fun f' => f' = f := by
  apply ask_sat
  intro e he
  have hin : 0 ≤ p.offset j ∧ p.offset j < p.size := by
    have := hr.lt_count.mp (lt_of_lt_of_le hj hJ)
    have := hr.pos
    exact ⟨offset_nonneg, by omega⟩
  refine ⟨?_, fun h => (he.good j hj h).1⟩
  rw [he.supported, he.err, if_neg Bool.false_ne_true, if_neg Bool.false_ne_true, if_pos hin, hr.block_of_offset]

theorem readAt_good_sat (hr : Roomy p) (hJ : J ≤ p.count) (hj : j < J) (hkept : skip j = false) (cur : ℤ) :
    Crash.Sat (Shows p skip J) (readAt p cur (p.offset j)) f (fun r f' => r = (some (f.blocks j), p.offset (j + 1)) ∧ f' = f)
      (fun _ _ => False) fun f' => f' = f := by
  rw [readAt, hr.blockAt (lt_of_lt_of_le hj hJ)]
  refine .call (fun _ _ _ => rfl) fun e he _ => ?_
  obtain ⟨-, hfails, hecc⟩ := he.good j hj hkept
  have hsize := hr.size
  rw [he.err, if_neg Bool.false_ne_true, if_neg (by rw [hfails]; simp; omega), hecc, offset_succ]
  exact ⟨rfl, rfl⟩

/-- One that is skipped cannot be read, or there is an error in it, or it is marked. -/
theorem readAt_skip_sat (hr : Roomy p) (hJ : J ≤ p.count) (hj : j < J) (hskip : skip j = true) (cur : ℤ) :
    Crash.Sat (Shows p skip J) (readAt p cur (p.offset j)) f
      (fun r f' => f'.blocks = f.blocks ∧ (r.1 = none → f'.eccFailed = f.eccFailed) ∧
        (r.1 ≠ none → f'.eccFailed = f.eccFailed → p.bad j = true))
      (fun _ _ => False) fun f' => f'.blocks = f.blocks := by
  rw [readAt, hr.blockAt (lt_of_lt_of_le hj hJ)]
  refine .call (fun _ _ _ => rfl) fun e he _ => ?_
  have hsize := hr.size
  rw [he.err, if_neg Bool.false_ne_true]
  rcases Bool.eq_false_or_eq_true (e.fails j) with hfails | hfails
  · rw [if_pos (Or.inl hfails), he.quiet j hj hfails]
    exact ⟨rfl, fun _ => rfl, fun h => absurd rfl h⟩
  · rw [if_neg (by simp [hfails]; omega)]
    refine ⟨rfl, (fun h => by cases h), fun _ hecc => ?_⟩
    have hzero : e.ecc j = 0 := by
      have : f.eccFailed + e.ecc j = f.eccFailed := hecc
      omega
    rcases he.skips j hj hskip with hbad | hf | hpos
    · exact hbad
    · rw [hfails] at hf
      cases hf
    · omega

theorem readLoop_skip (hr : Roomy p) (hJ : J ≤ p.count) (hj : j < J) (hskip : skip j = true) {fuel n : ℕ} (hn : n = fuel + 1)
    {cur : ℤ} {ok : Option (Buffer p.eraseSize) × ℤ → Flash p.eraseSize → Prop}
    (hrest : ∀ (f' : Flash p.eraseSize) (cur : ℤ), f'.blocks = f.blocks →
      Crash.Sat (Shows p skip J) (readLoop p fuel f'.eccFailed cur (p.offset (j + 1))) f' ok
        (fun _ _ => False) fun f' => f'.blocks = f.blocks) :
    Crash.Sat (Shows p skip J) (readLoop p n f.eccFailed cur (p.offset j)) f ok (fun _ _ => False)
      fun f' => f'.blocks = f.blocks := by
  rw [hn, readLoop, if_pos (hr.reads_iff.mpr (lt_of_lt_of_le hj hJ))]
  refine (readAt_skip_sat hr hJ hj hskip cur).step ?_
  intro r f₁ ⟨hf₁, hecc, hmarked⟩
  rw [← offset_succ]
  rcases r with ⟨_ | data, cur⟩
  · dsimp only
    rw [← hecc rfl]
    exact hrest f₁ cur hf₁
  · dsimp only
    refine (eccGetStats_sat.mono (fun _ _ h => h) (fun _ _ h => h) fun _ h => h ▸ hf₁).step ?_
    intro r f₂ ⟨hr₂, hf₂⟩
    subst hr₂ hf₂
    dsimp only
    by_cases hsame : f₂.eccFailed = f.eccFailed
    · have hbad := hmarked (Option.some_ne_none _) hsame
      rw [if_neg (not_not.mpr hsame), ← hsame]
      refine ((memGetBadBlock_sat hr hJ hj).mono (fun _ _ h => h) (fun _ _ h => h) fun _ h => h ▸ hf₁).step ?_
      rintro r f₃ ⟨⟨hr₃, -⟩, hf₃⟩
      subst hr₃ hf₃
      rw [if_pos hbad, if_pos (by decide)]
      exact hrest f₃ cur hf₁
    · rw [if_pos hsame]
      exact hrest f₂ cur hf₁

theorem readLoop_sat (hr : Roomy p) (hJ : J ≤ p.count) {b : ℕ} (hb : b < J) : ∀ (fuel : ℕ) (f : Flash p.eraseSize) (cur : ℤ) (j : ℕ),
    IsFirst skip j b → b - j < fuel →
    Crash.Sat (Shows p skip J) (readLoop p fuel f.eccFailed cur (p.offset j)) f
      (fun r f' => r = (some (f.blocks b), p.offset (b + 1)) ∧ f'.blocks = f.blocks) (fun _ _ => False)
      fun f' => f'.blocks = f.blocks
  | 0, _, _, _, _, h => absurd h (Nat.not_lt_zero _)
  | fuel + 1, f, cur, j, hfirst, hfuel => by
    have hjb : j ≤ b := hfirst.le
    have hj : j < J := lt_of_le_of_lt hjb hb
    rcases Nat.eq_or_lt_of_le hjb with rfl | hlt
    · -- the block that is not skipped
      rw [readLoop, if_pos (hr.reads_iff.mpr (lt_of_lt_of_le hj hJ))]
      refine ((readAt_good_sat hr hJ hj hfirst.kept cur).mono (fun _ _ h => h) (fun _ _ h => h) fun _ h => congrArg _ h).step ?_
      intro r f' ⟨hr', hf'⟩
      subst hr' hf'
      refine (eccGetStats_sat.mono (fun _ _ h => h) (fun _ _ h => h) fun _ h => congrArg _ h).step ?_
      intro r f ⟨hr', hf⟩
      subst hr' hf
      dsimp only
      rw [if_neg (not_not.mpr rfl)]
      refine ((memGetBadBlock_sat hr hJ hj).mono (fun _ _ h => h) (fun _ _ h => h) fun _ h => congrArg _ h).step ?_
      intro r f' ⟨⟨hr', hgood⟩, hf'⟩
      subst hr' hf'
      rw [hgood hfirst.kept, if_neg Bool.false_ne_true, if_neg (not_not.mpr rfl)]
      exact .pure ⟨rfl, rfl⟩
    · generalize hn : fuel + 1 = n
      refine readLoop_skip hr hJ hj (hfirst.before j le_rfl hlt) hn.symm fun f' cur hf' => ?_
      rw [← hf']
      exact readLoop_sat hr hJ hb fuel f' cur (j + 1) ⟨hlt, hfirst.kept, fun c hc => hfirst.before c (by omega)⟩ (by omega)

/-- **`read_block`** reads the next block that is not skipped. -/
theorem readBlock_sat (hr : Roomy p) (hJ : J ≤ p.count) {b : ℕ} (hfirst : IsFirst skip j b) (hb : b < J) (f : Flash p.eraseSize) :
    Crash.Sat (Shows p skip J) (readBlock p (p.offset j)) f
      (fun r f' => r = (some (f.blocks b), p.offset (b + 1)) ∧ f'.blocks = f.blocks) (fun _ _ => False)
      fun f' => f'.blocks = f.blocks := by
  refine (eccGetStats_sat.mono (fun _ _ h => h) (fun _ _ h => h) fun _ h => congrArg _ h).step ?_
  intro r f' ⟨hr', hf'⟩
  subst hr' hf'
  exact readLoop_sat hr hJ hb forever f' _ j hfirst (by have := hr.count_lt; omega)

theorem readLoop_end (hr : Roomy p) : ∀ (fuel : ℕ) (f : Flash p.eraseSize) (cur : ℤ) (j : ℕ), j ≤ p.count →
    (∀ c, j ≤ c → c < p.count → skip c = true) → p.count - j < fuel →
    Crash.Sat (Shows p skip p.count) (readLoop p fuel f.eccFailed cur (p.offset j)) f (fun r f' => r.1 = none ∧ f'.blocks = f.blocks)
      (fun _ _ => False) fun f' => f'.blocks = f.blocks
  | 0, _, _, _, _, _, h => absurd h (Nat.not_lt_zero _)
  | fuel + 1, f, cur, j, hj, hskip, hfuel => by
    rcases Nat.lt_or_ge j p.count with hlt | hge
    · generalize hn : fuel + 1 = n
      refine readLoop_skip hr le_rfl hlt (hskip j le_rfl hlt) hn.symm fun f' cur hf' => ?_
      rw [← hf']
      exact readLoop_end hr fuel f' cur (j + 1) hlt (fun c hc => hskip c (by omega)) (by omega)
    · rw [readLoop, if_neg (mt hr.reads_iff.mp (not_lt.mpr hge))]
      exact .pure ⟨rfl, rfl⟩

theorem readBlock_end (hr : Roomy p) (hj : j ≤ p.count) (hskip : ∀ c, j ≤ c → c < p.count → skip c = true) (f : Flash p.eraseSize) :
    Crash.Sat (Shows p skip p.count) (readBlock p (p.offset j)) f (fun r f' => r.1 = none ∧ f'.blocks = f.blocks) (fun _ _ => False)
      fun f' => f'.blocks = f.blocks := by
  refine (eccGetStats_sat.mono (fun _ _ h => h) (fun _ _ h => h) fun _ h => congrArg _ h).step ?_
  intro r f' ⟨hr', hf'⟩
  subst hr' hf'
  exact readLoop_end hr forever f' _ j hj hskip (by have := hr.count_lt; omega)

/-! ### The stream -/

variable {ctx : MtdReadContext p.eraseSize} {len : ℕ} {data rest : Bytes}

theorem shown_append {i k l : ℕ} (hik : i ≤ k) (hkl : k ≤ l) : shown p skip f i l = shown p skip f i k ++ shown p skip f k l :=
  contents_append hik hkl

theorem buffered_length (ctx : MtdReadContext p.eraseSize) :
    (ctx.buffer.bytes.drop ctx.consumed).length = p.eraseSize - ctx.consumed := by rw [List.length_drop, ctx.buffer.length_eq]

theorem takeBuffered_spec (h : ReadsOn p skip f J ctx rest) (len : ℕ) (data : Bytes) :
    (takeBuffered len data ctx).1 = data ++ rest.take (min (len - data.length) (p.eraseSize - ctx.consumed)) ∧
    ReadsOn p skip f J (takeBuffered len data ctx).2 (rest.drop (min (len - data.length) (p.eraseSize - ctx.consumed))) ∧
    (takeBuffered len data ctx).2.consumed = ctx.consumed + min (len - data.length) (p.eraseSize - ctx.consumed) := by
  obtain ⟨j, hj, hpos, hrest⟩ := h
  have hlen := buffered_length ctx
  have hle : min (len - data.length) (p.eraseSize - ctx.consumed) ≤ (ctx.buffer.bytes.drop ctx.consumed).length := by
    rw [hlen]
    exact min_le_right _ _
  refine ⟨?_, ⟨j, hj, hpos, ?_⟩, rfl⟩
  · rw [hrest, List.take_append_of_le_length hle]
    rfl
  · rw [hrest, List.drop_append_of_le_length hle, List.drop_drop]
    rfl

theorem nextBlock_sat (hr : Roomy p) (hJ : J ≤ p.count) (h : ReadsOn p skip f J ctx rest) (hempty : ctx.consumed = p.eraseSize)
    (hne : rest ≠ []) (hs : s.blocks = f.blocks) :
    Crash.Sat (Shows p skip J) (readBlock p ctx.pos) s
      (fun r s' => s'.blocks = f.blocks ∧ ∃ (block : Buffer p.eraseSize) (j : ℕ), j ≤ J ∧ r = (some block, p.offset j) ∧
        rest = block.bytes ++ shown p skip f j J)
      (fun _ _ => False) fun s' => s'.blocks = f.blocks := by
  obtain ⟨j, hj, hpos, hrest⟩ := h
  have hheld : rest = shown p skip f j J := by
    rw [hrest, hempty, List.drop_of_length_le ctx.buffer.length_eq.le, List.nil_append]
  have hne' : shown p skip f j J ≠ [] := hheld ▸ hne
  obtain ⟨b, hfirst, hb⟩ := exists_first hne'
  have hblock : shown p skip f j (b + 1) = (f.blocks b).bytes := contents_first hfirst
  rw [hpos]
  refine (readBlock_sat hr hJ hfirst hb s).mono ?_ (fun _ _ h => h) fun s' hs' => hs'.trans hs
  intro r s' ⟨hr', hs'⟩
  refine ⟨hs'.trans hs, f.blocks b, b + 1, hb, hr'.trans (by rw [hs]), ?_⟩
  rw [hheld, shown_append (hfirst.le.trans (Nat.le_succ b)) hb, hblock]

theorem readDirect_sat (hr : Roomy p) (hJ : J ≤ p.count) : ∀ (fuel : ℕ) (data rest : Bytes) (ctx : MtdReadContext p.eraseSize)
    (s : Flash p.eraseSize), len - data.length < fuel → len - data.length ≤ rest.length → ReadsOn p skip f J ctx rest →
    s.blocks = f.blocks →
    Crash.Sat (Shows p skip J) (readDirect p len fuel data ctx) s
      (fun r s' => s'.blocks = f.blocks ∧ ∃ k ctx', r = (some (data ++ rest.take k), ctx') ∧ ReadsOn p skip f J ctx' (rest.drop k) ∧
        ctx'.consumed = ctx.consumed ∧ k ≤ len - data.length ∧
        (ctx.consumed = p.eraseSize → len - data.length - k < p.eraseSize))
      (fun _ _ => False) fun s' => s'.blocks = f.blocks
  | 0, _, _, _, _, h, _, _, _ => absurd h (Nat.not_lt_zero _)
  | fuel + 1, data, rest, ctx, s, hfuel, hlen, hreads, hs => by
    have hpos := hr.pos
    rw [readDirect]
    rcases Decidable.em (ctx.consumed = p.eraseSize ∧ p.eraseSize ≤ len - data.length) with hcond | hcond
    · rw [if_pos hcond]
      have hne : rest ≠ [] := fun h => by
        rw [h, List.length_nil] at hlen
        omega
      refine (nextBlock_sat hr hJ hreads hcond.1 hne hs).step ?_
      rintro r s₁ ⟨hs₁, block, j, hj, rfl, hrest⟩
      have hblock := block.length_eq
      have hreads₁ : ReadsOn p skip f J { ctx with pos := p.offset j } (shown p skip f j J) := by
        refine ⟨j, hj, rfl, ?_⟩
        show _ = ctx.buffer.bytes.drop ctx.consumed ++ _
        rw [hcond.1, List.drop_of_length_le ctx.buffer.length_eq.le, List.nil_append]
      have hlen₁ : (data ++ block.bytes).length = data.length + p.eraseSize := by rw [List.length_append, hblock]
      refine (readDirect_sat hr hJ fuel (data ++ block.bytes) (shown p skip f j J) { ctx with pos := p.offset j } s₁ (by omega) ?_
        hreads₁ hs₁).imp ?_
      · rw [hrest, List.length_append, hblock] at hlen
        omega
      · rintro r s₂ ⟨hs₂, k, ctx', hr', hreads', hconsumed, hk, hleft⟩
        refine ⟨hs₂, p.eraseSize + k, ctx', ?_, ?_, hconsumed, by omega, fun h => ?_⟩
        · have htake : block.bytes.take (p.eraseSize + k) = block.bytes := List.take_of_length_le (by omega)
          rw [hr', hrest, List.take_append, htake, hblock, Nat.add_sub_cancel_left, List.append_assoc]
        · have hdrop : block.bytes.drop (p.eraseSize + k) = [] := List.drop_of_length_le (by omega)
          rwa [hrest, List.drop_append, hdrop, hblock, Nat.add_sub_cancel_left, List.nil_append]
        · have := hleft h
          omega
    · rw [if_neg hcond]
      refine .pure ⟨hs, 0, ctx, by simp, by simpa using hreads, rfl, Nat.zero_le _, fun h => ?_⟩
      by_contra hge
      exact hcond ⟨h, by omega⟩

theorem readDataLoop_buffered (hr : Roomy p) (hlt : len < 2 ^ 31) (fuel : ℕ) (data : Bytes) (hreads : ReadsOn p skip f J ctx rest)
    (hdata : data.length ≤ len) (hneed : len - data.length ≤ p.eraseSize - ctx.consumed) (hs : s.blocks = f.blocks) :
    Crash.Sat (Shows p skip J) (readDataLoop p len (fuel + 1) data ctx) s
      (fun r s' => s'.blocks = f.blocks ∧ ∃ ctx', r = (some (data ++ rest.take (len - data.length)), ctx') ∧
        ReadsOn p skip f J ctx' (rest.drop (len - data.length)))
      (fun _ _ => False) fun s' => s'.blocks = f.blocks := by
  have hs32 : asInt len = len := asInt_of_lt hlt
  have hpos := hr.pos
  rw [readDataLoop, hs32]
  rcases Nat.lt_or_ge data.length len with hlt' | hge
  · obtain ⟨hdata₁, hreads₁, -⟩ := takeBuffered_spec hreads len data
    rw [min_eq_left hneed] at hdata₁ hreads₁
    generalize takeBuffered len data ctx = st at hdata₁ hreads₁ ⊢
    rcases st with ⟨data₁, ctx₁⟩
    dsimp only at hdata₁ hreads₁ ⊢
    have hlen : len ≤ data₁.length := by
      obtain ⟨j, -, -, hrest⟩ := hreads
      have : p.eraseSize - ctx.consumed ≤ rest.length := by
        rw [hrest, List.length_append, buffered_length]
        omega
      rw [hdata₁, List.length_append, List.length_take]
      omega
    have hdirect : readDirect p len (len + 1) data₁ ctx₁ = pure (some data₁, ctx₁) := by
      rw [readDirect, if_neg (by omega)]
    rw [if_pos (by omega), hdirect, hdata₁]
    show Crash.Sat _ (if _ then _ else _) _ _ _ _
    rw [if_pos (by rw [← hdata₁]; omega)]
    exact .pure ⟨hs, ctx₁, rfl, hreads₁⟩
  · rw [if_neg (by omega), show len - data.length = 0 by omega]
    exact .pure ⟨hs, ctx, by simp, by simpa using hreads⟩

/-- **`mtd_read_data`** returns the next bytes of the stream. -/
theorem mtdReadData_sat (hr : Roomy p) (hJ : J ≤ p.count) (hreads : ReadsOn p skip f J ctx rest) (hlen : len ≤ rest.length)
    (hlt : len < 2 ^ 31) (hs : s.blocks = f.blocks) :
    Crash.Sat (Shows p skip J) (mtdReadData p ctx len) s
      (fun r s' => s'.blocks = f.blocks ∧ ∃ ctx', r = (some (rest.take len), ctx') ∧ ReadsOn p skip f J ctx' (rest.drop len))
      (fun _ _ => False) fun s' => s'.blocks = f.blocks := by
  have hs32 : asInt len = len := asInt_of_lt hlt
  have hconsumed := ctx.consumed_le
  rw [mtdReadData]
  rcases le_or_gt len (p.eraseSize - ctx.consumed) with hneed | hmore
  · have h := readDataLoop_buffered hr hlt len [] hreads (by simp) (by simpa using hneed) hs
    simpa using h
  · -- the buffer is emptied, whole blocks are read, and the rest comes from a new buffer
    obtain ⟨n, rfl⟩ : ∃ n, len = n + 1 := ⟨len - 1, by omega⟩
    rw [readDataLoop, hs32, if_pos (by simp)]
    obtain ⟨hdata₁, hreads₁, hconsumed₁⟩ := takeBuffered_spec hreads (n + 1) []
    rw [List.nil_append, List.length_nil, Nat.sub_zero, min_eq_right hmore.le] at hdata₁
    rw [List.length_nil, Nat.sub_zero, min_eq_right hmore.le] at hreads₁ hconsumed₁
    generalize takeBuffered (n + 1) [] ctx = st at hdata₁ hreads₁ hconsumed₁ ⊢
    rcases st with ⟨data₁, ctx₁⟩
    dsimp only at hdata₁ hreads₁ hconsumed₁ ⊢
    have hfull : ctx₁.consumed = p.eraseSize := by omega
    have hlen₁ : data₁.length = p.eraseSize - ctx.consumed := by
      rw [hdata₁, List.length_take]
      omega
    refine (readDirect_sat hr hJ _ data₁ _ ctx₁ s (by omega) (by rw [List.length_drop]; omega) hreads₁ hs).step ?_
    rintro r s₂ ⟨hs₂, k, ctx₂, rfl, hreads₂, hconsumed₂, hk, hleft⟩
    have hleft := hleft hfull
    -- what has been read is the start of what was to be read
    have hsofar : data₁ ++ (rest.drop (p.eraseSize - ctx.consumed)).take k = rest.take (p.eraseSize - ctx.consumed + k) := by
      rw [hdata₁, List.take_add]
    rw [hsofar] 
    rw [List.drop_drop] at hreads₂
    generalize hm : p.eraseSize - ctx.consumed + k = m at hreads₂ ⊢
    have hmlen : (rest.take m).length = m := by
      rw [List.length_take]
      omega
    dsimp only
    rw [hmlen]
    rcases Nat.lt_or_ge m (n + 1) with hlt' | hge
    · have hne : rest.drop m ≠ [] := fun h => by
        have := congrArg List.length h
        rw [List.length_drop, List.length_nil] at this
        omega
      rw [if_neg (by omega), if_pos (hconsumed₂.trans hfull)]
      refine (nextBlock_sat hr hJ hreads₂ (hconsumed₂.trans hfull) hne hs₂).step ?_
      rintro r s₃ ⟨hs₃, block, j, hj, rfl, hrest⟩
      have hreads₃ : ReadsOn p skip f J ⟨block, 0, Nat.zero_le _, p.offset j⟩ (rest.drop m) := ⟨j, hj, rfl, hrest⟩
      have hneed : n + 1 - (rest.take m).length ≤ p.eraseSize - 0 := by omega
      have hbuffered := readDataLoop_buffered hr hlt n (rest.take m) hreads₃ (by omega) hneed hs₃
      refine hbuffered.imp ?_
      rintro r s₄ ⟨hs₄, ctx', hr', hreads'⟩
      rw [hmlen] at hr' hreads'
      refine ⟨hs₄, ctx', ?_, ?_⟩
      · rw [hr', ← List.take_add, Nat.add_sub_cancel' hlt'.le]
      · rwa [List.drop_drop, Nat.add_sub_cancel' hlt'.le] at hreads'
    · obtain rfl : m = n + 1 := by omega
      rw [if_pos (by omega)]
      exact .pure ⟨hs₂, ctx₂, rfl, hreads₂⟩

theorem mtdReadData_end (hr : Roomy p) (hreads : ReadsOn p skip f p.count ctx []) (hpos : 0 < len)
    (hlt : len < 2 ^ 31) (s : Flash p.eraseSize) :
    Crash.Sat (Shows p skip p.count) (mtdReadData p ctx len) s (fun r s' => r.1 = none ∧ s'.blocks = s.blocks) (fun _ _ => False)
      fun s' => s'.blocks = s.blocks := by
  obtain ⟨j, hj, hctx, hnil⟩ := hreads
  obtain ⟨hbuffer, hshown⟩ := List.append_eq_nil_iff.mp hnil.symm
  have hempty : ctx.consumed = p.eraseSize := by
    have h := congrArg List.length hbuffer
    rw [buffered_length, List.length_nil] at h
    have := ctx.consumed_le
    omega
  have hskip : ∀ c, j ≤ c → c < p.count → skip c = true := by
    intro c hjc hc
    by_contra hkept
    have hnone := List.flatMap_eq_nil_iff.mp hshown c (by
      rw [List.mem_filter, List.mem_range'_1]
      exact ⟨⟨hjc, by omega⟩, by simpa using hkept⟩)
    have hlen := (f.blocks c).length_eq
    rw [hnone, List.length_nil] at hlen
    exact hr.pos.ne hlen
  have hblock := readBlock_end hr hj hskip s
  rw [← hctx] at hblock
  have hnothing : takeBuffered len [] ctx = ([], ctx) := by
    have hcopy : min (len - ([] : Bytes).length) (p.eraseSize - ctx.consumed) = 0 := by rw [hempty, Nat.sub_self, Nat.min_zero]
    unfold takeBuffered
    simp only [hcopy, List.take_zero, List.append_nil, Nat.add_zero]
  rw [mtdReadData, readDataLoop, asInt_of_lt hlt, if_pos (by simpa using hpos), hnothing]
  dsimp only
  rw [readDirect]
  rcases Decidable.em (ctx.consumed = p.eraseSize ∧ p.eraseSize ≤ len - ([] : Bytes).length) with hcond | hcond
  · rw [if_pos hcond]
    refine Crash.Sat.bind (hblock.step ?_)
    rintro ⟨block, pos⟩ s₁ ⟨hnone, hs₁⟩
    obtain rfl : block = none := hnone
    exact .pure (.pure ⟨rfl, hs₁⟩)
  · rw [if_neg hcond]
    refine Crash.Sat.bind (.pure ?_)
    dsimp only
    rw [if_neg (not_le.mpr (by simpa using hpos)), if_pos hempty]
    refine hblock.step ?_
    rintro ⟨block, pos⟩ s₁ ⟨hnone, hs₁⟩
    obtain rfl : block = none := hnone
    exact .pure ⟨rfl, hs₁⟩

end Shows

end Mtd
end Recovery
