/-
# What the encoder writes

A `Script` is a list of control triples, with the bytes they take, that rebuilds the new data from some point on. Whatever
match the search returns inside the old data, the encoder ends with a script (`encodeLoop_returns`).
-/
import Recovery.Diff.BsDiff

namespace Recovery
namespace Diff

open Arrays

/-- The triples rebuild the new data from `lastscan` on, with the old data at `lastpos`. -/
inductive Script (old new : Bytes) : ℕ → ℕ → List (ℤ × ℤ × ℤ) → Bytes → Bytes → Prop
  | done (lastpos : ℕ) : Script old new new.length lastpos [] [] []
  | block {lastscan lastpos x y p : ℕ} {ctrl : List (ℤ × ℤ × ℤ)} {db eb : Bytes}
      (hlt : lastscan < new.length) (hold : lastpos + x ≤ old.length) (hnew : lastscan + x + y ≤ new.length)
      (hpos : p ≤ old.length) (rest : Script old new (lastscan + x + y) p ctrl db eb) :
      Script old new lastscan lastpos (((x : ℤ), (y : ℤ), (p : ℤ) - (lastpos + x)) :: ctrl)
        (List.zipWith (· - ·) ((new.drop lastscan).take x) ((old.drop lastpos).take x) ++ db)
        ((new.drop (lastscan + x)).take y ++ eb)

/-- A list of suffixes of the old data. -/
structure SuffixList (old : Bytes) (I : List ℤ) : Prop where
  len : I.length = old.length + 1
  mem : ∀ t, t < old.length + 1 → 0 ≤ val I t ∧ val I t ≤ old.length

variable {old new : Bytes} {I : List ℤ} {lastoffset : ℤ}

theorem matchlen_le : ∀ a b : Bytes, matchlen a b ≤ b.length
  | [], b => by simp [matchlen]
  | _ :: _, [] => by simp [matchlen]
  | x :: a, y :: b => by
    have := matchlen_le a b
    simp only [matchlen, List.length_cons]
    split_ifs <;> omega

theorem suffixAt_ok {p : ℤ} (h : 0 ≤ p ∧ p ≤ old.length) : suffixAt old p = .ok (old.drop p.toNat) := if_pos h

theorem search_returns (hI : SuffixList old I) (new : Bytes) : ∀ (n st en : ℕ), st ≤ en → en ≤ old.length → en - st < n →
    Returns (search I old new n st en) fun r => 0 ≤ r.1 ∧ r.1 ≤ new.length ∧ 0 ≤ r.2 ∧ r.2 ≤ old.length
  | 0, _, _, _, _, hn => by omega
  | n + 1, st, en, hst, hen, hn => by
    have hlen := hI.len
    unfold search
    by_cases hsmall : en - st < 2
    · rw [if_pos hsmall]
      have hp := hI.mem st (by omega)
      have hq := hI.mem en (by omega)
      refine .step (load_ok rfl (by omega)) (.step (suffixAt_ok hp) ?_)
      refine .step (load_ok rfl (by omega)) (.step (suffixAt_ok hq) ?_)
      by_cases hx : matchlen (old.drop (val I st).toNat) new > matchlen (old.drop (val I en).toNat) new
      · rw [if_pos hx]
        exact .pure ⟨by simp, Int.ofNat_le.mpr (matchlen_le _ _), hp⟩
      · rw [if_neg hx]
        exact .pure ⟨by simp, Int.ofNat_le.mpr (matchlen_le _ _), hq⟩
    · rw [if_neg hsmall]
      refine .step (load_ok rfl (by omega)) (.step (suffixAt_ok (hI.mem _ (by omega))) ?_)
      split_ifs
      · exact search_returns hI new n _ en (by omega) hen (by omega)
      · exact search_returns hI new n st _ (by omega) (by omega) (by omega)

theorem sameAt_returns {k : ℤ} (hk : 0 ≤ k) (hk' : k < new.length) (ho : 0 ≤ k + lastoffset) :
    Returns (sameAt old new lastoffset k) fun _ => True := by
  unfold sameAt
  split_ifs with h
  · exact .step (load_mem ho h) (.step (load_mem hk hk') (.pure trivial))
  · exact .pure trivial

theorem score_returns : ∀ (n : ℕ) (scsc oldscore : ℤ), 0 ≤ scsc → scsc + n ≤ new.length → 0 ≤ scsc + lastoffset →
    Returns (score old new lastoffset n scsc oldscore) fun r => oldscore ≤ r
  | 0, _, _, _, _, _ => .pure le_rfl
  | n + 1, scsc, oldscore, h₀, hn, ho => by
    refine (sameAt_returns h₀ (by omega) ho).bind fun same _ => ?_
    refine (score_returns n (scsc + 1) _ (by omega) (by omega) (by omega)).mono fun r hr => ?_
    split_ifs at hr <;> omega

/-- Where the search for a match may stand. -/
structure Found.Ok (old new : Bytes) (f : Found) : Prop where
  scan : 0 ≤ f.scan ∧ f.scan ≤ new.length
  len : 0 ≤ f.len
  pos : 0 ≤ f.pos ∧ f.pos ≤ old.length

theorem findMatch_returns (hI : SuffixList old I) (start : ℤ) : ∀ (n : ℕ) (scsc : ℤ) (f : Found), f.Ok old new →
    (new.length - f.scan).toNat < n → 0 ≤ scsc → scsc ≤ new.length → 0 ≤ scsc + lastoffset →
    0 ≤ f.scan + lastoffset → start ≤ f.scan → (0 ≤ f.oldscore ∨ start < f.scan) →
    Returns (findMatch old new I lastoffset n scsc f) fun r => r.Ok old new ∧ f.scan ≤ r.scan ∧
      (r.scan = new.length ∨ r.scan + r.len ≤ new.length ∧ start < r.scan + r.len)
  | 0, _, _, _, hn, _, _, _, _, _, _ => by omega
  | n + 1, scsc, f, hf, hn, hs₀, hs₁, hso, hfo, hstart, hscore => by
    have hscan := hf.scan
    unfold findMatch
    by_cases hlt : f.scan < new.length
    · rw [if_pos hlt]
      refine (search_returns hI (new.drop f.scan.toNat) (old.length + 1) 0 old.length (Nat.zero_le _) le_rfl
        (by omega)).bind fun r hr => ?_
      obtain ⟨len, pos⟩ := r
      obtain ⟨hl₀, hl₁, hp⟩ := hr
      simp only [List.length_drop] at hl₀ hl₁ hp
      refine (score_returns (f.scan + len - scsc).toNat scsc f.oldscore hs₀ (by omega) hso).bind fun oldscore hsc => ?_
      by_cases hbreak : (len = oldscore ∧ len ≠ 0) ∨ len > oldscore + 8
      · rw [if_pos hbreak]
        exact .pure ⟨⟨hscan, hl₀, hp⟩, le_rfl, .inr ⟨by simp only; omega, by simp only; omega⟩⟩
      · rw [if_neg hbreak]
        refine (sameAt_returns hscan.1 hlt hfo).bind fun same _ => ?_
        refine (findMatch_returns hI start n _ _ ⟨by simp only; omega, hl₀, hp⟩ (by simp only; omega) (by omega) (by omega)
          (by omega) (by simp only; omega) (by simp only; omega) (.inr (by simp only; omega))).mono fun r hr => ?_
        simp only at hr
        exact ⟨hr.1, by omega, hr.2.2⟩
    · rw [if_neg hlt]
      exact .pure ⟨hf, le_rfl, .inl (by omega)⟩

/-! ### The extensions -/

variable {scan lastscan lastpos pos : ℤ}

theorem extendForward_returns (hls : 0 ≤ lastscan) (hlp : 0 ≤ lastpos) (hscan : scan ≤ new.length) :
    ∀ (n : ℕ) (i s sf lenf : ℤ), 0 ≤ i → (scan - (lastscan + i)).toNat < n →
    0 ≤ lenf → lastscan + lenf ≤ scan → lastpos + lenf ≤ old.length →
    Returns (extendForward old new scan lastscan lastpos n i s sf lenf) fun r =>
      0 ≤ r ∧ lastscan + r ≤ scan ∧ lastpos + r ≤ old.length
  | 0, _, _, _, _, _, hn, _, _, _ => by omega
  | n + 1, i, s, sf, lenf, hi, hn, h₀, h₁, h₂ => by
    unfold extendForward
    by_cases hc : lastscan + i < scan ∧ lastpos + i < old.length
    · rw [if_pos hc]
      refine .step (load_mem (by omega) hc.2) (.step (load_mem (by omega) (by omega)) ?_)
      simp only
      generalize (if val old (lastpos + i).toNat = val new (lastscan + i).toNat then s + 1 else s) = s'
      split_ifs
      · exact extendForward_returns hls hlp hscan n _ _ _ _ (by omega) (by omega) (by omega) (by omega) (by omega)
      · exact extendForward_returns hls hlp hscan n _ _ _ _ (by omega) (by omega) h₀ h₁ h₂
    · rw [if_neg hc]
      exact .pure ⟨h₀, h₁, h₂⟩

theorem extendBackward_returns (hls : 0 ≤ lastscan) (hscan : scan ≤ new.length) (hpos : pos ≤ old.length) :
    ∀ (n : ℕ) (i s sb lenb : ℤ), 1 ≤ i → (pos + 1 - i).toNat < n → 0 ≤ lenb → lenb ≤ scan - lastscan → lenb ≤ pos →
    Returns (extendBackward old new scan lastscan pos n i s sb lenb) fun r =>
      0 ≤ r ∧ r ≤ scan - lastscan ∧ r ≤ pos
  | 0, _, _, _, _, _, hn, _, _, _ => by omega
  | n + 1, i, s, sb, lenb, hi, hn, h₀, h₁, h₂ => by
    unfold extendBackward
    by_cases hc : scan ≥ lastscan + i ∧ pos ≥ i
    · rw [if_pos hc]
      refine .step (load_mem (by omega) (by omega)) (.step (load_mem (by omega) (by omega)) ?_)
      simp only
      generalize (if val old (pos - i).toNat = val new (scan - i).toNat then s + 1 else s) = s'
      split_ifs
      · exact extendBackward_returns hls hscan hpos n _ _ _ _ (by omega) (by omega) (by omega) (by omega) (by omega)
      · exact extendBackward_returns hls hscan hpos n _ _ _ _ (by omega) (by omega) h₀ h₁ h₂
    · rw [if_neg hc]
      exact .pure ⟨h₀, h₁, h₂⟩

theorem splitOverlap_returns {fnew fold gnew gold : ℤ} (h₁ : 0 ≤ fnew) (h₂ : 0 ≤ fold) (h₃ : 0 ≤ gnew)
    (h₄ : 0 ≤ gold) : ∀ (n : ℕ) (i s ss lens : ℤ), 0 ≤ i → fnew + i + n ≤ new.length → fold + i + n ≤ old.length →
    gnew + i + n ≤ new.length → gold + i + n ≤ old.length → 0 ≤ lens → lens ≤ i →
    Returns (splitOverlap old new fnew fold gnew gold n i s ss lens) fun r => 0 ≤ r ∧ r ≤ i + n
  | 0, i, _, _, lens, _, _, _, _, _, hl₀, hl₁ => .pure ⟨hl₀, by omega⟩
  | n + 1, i, s, ss, lens, hi, ha, hb, hc, hd, hl₀, hl₁ => by
    refine .step (load_mem (by omega) (by omega)) (.step (load_mem (by omega) (by omega)) ?_)
    refine .step (load_mem (by omega) (by omega)) (.step (load_mem (by omega) (by omega)) ?_)
    simp only
    generalize (if val new (gnew + i).toNat = val old (gold + i).toNat then
      (if val new (fnew + i).toNat = val old (fold + i).toNat then s + 1 else s) - 1
      else if val new (fnew + i).toNat = val old (fold + i).toNat then s + 1 else s) = s'
    have hgo : ∀ ss' lens', 0 ≤ lens' → lens' ≤ i + 1 →
        Returns (splitOverlap old new fnew fold gnew gold n (i + 1) s' ss' lens') fun r => 0 ≤ r ∧ r ≤ i + ↑(n + 1) := by
      intro ss' lens' h₅ h₆
      refine (splitOverlap_returns h₁ h₂ h₃ h₄ n (i + 1) s' ss' lens' (by omega) (by omega) (by omega) (by omega)
        (by omega) h₅ h₆).mono fun r hr => ?_
      omega
    split_ifs
    · exact hgo _ _ (by omega) le_rfl
    · exact hgo _ _ hl₀ (by omega)

/-- The main loop's variables stay inside the data. -/
structure Cursor.Ok (old new : Bytes) (c : Cursor) : Prop where
  lastscan : 0 ≤ c.lastscan ∧ c.lastscan ≤ c.scan
  scan : c.scan ≤ new.length
  lastpos : 0 ≤ c.lastpos ∧ c.lastpos ≤ old.length
  pos : 0 ≤ c.pos ∧ c.pos ≤ old.length
  offset : c.lastoffset = c.lastpos - c.lastscan

theorem blockLengths_returns {c : Cursor} (hc : c.Ok old new) :
    Returns (blockLengths old new c) fun r => 0 ≤ r.1 ∧ 0 ≤ r.2 ∧ c.lastscan + r.1 ≤ c.scan - r.2 ∧
      c.lastpos + r.1 ≤ old.length ∧ r.2 ≤ c.pos ∧ (c.scan = new.length → r.2 = 0) := by
  have hls := hc.lastscan
  have hs := hc.scan
  have hlp := hc.lastpos
  have hp := hc.pos
  unfold blockLengths
  refine (extendForward_returns hls.1 hlp.1 hs _ 0 0 0 0 le_rfl (by omega) le_rfl (by omega) (by omega)).bind
    fun lenf hf => ?_
  have hback : Returns (if c.scan < new.length then
      extendBackward old new c.scan c.lastscan c.pos (c.pos.toNat + 1) 1 0 0 0 else pure 0) fun r =>
      0 ≤ r ∧ r ≤ c.scan - c.lastscan ∧ r ≤ c.pos ∧ (c.scan = new.length → r = 0) := by
    by_cases hlt : c.scan < new.length
    · rw [if_pos hlt]
      refine (extendBackward_returns hls.1 hs hp.2 _ 1 0 0 0 le_rfl (by omega) le_rfl (by omega) hp.1).mono
        fun r hr => ?_
      exact ⟨hr.1, hr.2.1, hr.2.2, fun h => by omega⟩
    · rw [if_neg hlt]
      exact .pure ⟨le_rfl, by omega, hp.1, fun _ => rfl⟩
  refine hback.bind fun lenb hb => ?_
  by_cases hover : c.lastscan + lenf > c.scan - lenb
  · rw [if_pos hover]
    refine (splitOverlap_returns (by omega) (by omega) (by omega) (by omega) _ 0 0 0 0 le_rfl (by omega) (by omega)
      (by omega) (by omega) le_rfl le_rfl).bind fun lens hl => ?_
    exact .pure ⟨by simp only; omega, by simp only; omega, by simp only; omega, by simp only; omega,
      by simp only; omega, fun h => by simp only; omega⟩
  · rw [if_neg hover]
    exact .pure ⟨hf.1, hb.1, by simp only; omega, hf.2.2, hb.2.2.1, hb.2.2.2⟩

theorem closeBlock_returns {c : Cursor} {o : Streams} (hc : c.Ok old new) (hlt : c.lastscan < new.length)
    (hdb : o.db.length ≤ c.lastscan) (heb : o.eb.length ≤ c.lastscan) :
    Returns (closeBlock old new c o) fun r => r.1.Ok old new ∧ r.1.scan = c.scan ∧ r.1.len = c.len ∧
      (c.scan = new.length → r.1.lastscan = new.length) ∧
      ∃ triple db eb, r.2 = ⟨o.ctrl ++ [triple], o.db ++ db, o.eb ++ eb⟩ ∧
        r.2.db.length ≤ r.1.lastscan ∧ r.2.eb.length ≤ r.1.lastscan ∧
        ∀ {ctrl' db' eb'}, Script old new r.1.lastscan.toNat r.1.lastpos.toNat ctrl' db' eb' →
          Script old new c.lastscan.toNat c.lastpos.toNat (triple :: ctrl') (db ++ db') (eb ++ eb') := by
  have hls := hc.lastscan
  have hs := hc.scan
  have hlp := hc.lastpos
  have hp := hc.pos
  unfold closeBlock
  refine (blockLengths_returns hc).bind fun r hr => ?_
  obtain ⟨lenf, lenb⟩ := r
  obtain ⟨hf, hb, hfb, hfo, hbp, hend⟩ := hr
  simp only at hf hb hfb hfo hbp hend
  simp only [failIf_bind]
  rw [if_neg (by omega)]
  refine .step (slice_of_le new hls.1 (by omega)) (.step (slice_of_le old hlp.1 (by omega))
    (.step (slice_of_le new (by omega) (by omega)) (.pure ?_)))
  refine ⟨⟨by simp only; omega, hs, by simp only; omega, hp, by simp only; omega⟩, rfl, rfl,
    fun h => by have := hend h; simp only; omega, _, _, _, rfl, ?_, ?_, ?_⟩
  · simp only [List.length_append, List.length_zipWith, List.length_take, List.length_drop]
    omega
  · simp only [List.length_append, List.length_take, List.length_drop]
    omega
  · intro ctrl' db' eb' hrest
    simp only at hrest
    have hstep : Script old new c.lastscan.toNat c.lastpos.toNat _ _ _ :=
      .block (x := lenf.toNat) (y := (c.scan - lenb - (c.lastscan + lenf)).toNat) (p := (c.pos - lenb).toNat)
        (by omega) (by omega) (by omega) (by omega)
        (by rwa [show c.lastscan.toNat + lenf.toNat + (c.scan - lenb - (c.lastscan + lenf)).toNat =
          (c.scan - lenb).toNat by omega])
    rw [show (lenf.toNat : ℤ) = lenf by omega,
      show ((c.scan - lenb - (c.lastscan + lenf)).toNat : ℤ) = c.scan - lenb - (c.lastscan + lenf) by omega,
      show ((c.pos - lenb).toNat : ℤ) = c.pos - lenb by omega, show (c.lastpos.toNat : ℤ) = c.lastpos by omega] at hstep
    rwa [show (c.lastscan + lenf).toNat = c.lastscan.toNat + lenf.toNat by omega]

/-- **The encoder ends with a script**, of at most one triple more than there are new bytes. -/
theorem encodeLoop_returns (hI : SuffixList old I) : ∀ (n : ℕ) (c : Cursor) (o : Streams), c.Ok old new →
    0 ≤ c.len → (c.scan < new.length → c.scan + c.len ≤ new.length) → (c.scan = new.length → c.lastscan = new.length) →
    0 < n → (c.scan < new.length → (new.length + 1 - (c.scan + c.len)).toNat < n) →
      o.db.length ≤ c.lastscan → o.eb.length ≤ c.lastscan →
    Returns (encodeLoop old new I n c o) fun r => ∃ ctrl db eb, r = ⟨o.ctrl ++ ctrl, o.db ++ db, o.eb ++ eb⟩ ∧
      Script old new c.lastscan.toNat c.lastpos.toNat ctrl db eb ∧ ctrl.length < n
  | 0, _, _, _, _, _, _, hn, _, _, _ => by omega
  | n + 1, c, o, hc, hlen, hle, hdone, _, hn, hdb, heb => by
    have hls := hc.lastscan
    have hs := hc.scan
    have hlp := hc.lastpos
    have hoff := hc.offset
    unfold encodeLoop
    by_cases hlt : c.scan < new.length
    · rw [if_pos hlt]
      have hle := hle hlt
      have hn := hn hlt
      refine (findMatch_returns hI (c.scan + c.len) (new.length + 1) (c.scan + c.len) _
        ⟨by simp only; omega, hlen, hc.pos⟩ (by simp only; omega) (by omega) hle (by omega) (by simp only; omega) le_rfl
        (.inl le_rfl)).bind fun f hf => ?_
      obtain ⟨hfok, hfs, hfend⟩ := hf
      simp only at hfs
      have hfscan := hfok.scan
      have hflen := hfok.len
      have hc₁ : Cursor.Ok old new { c with scan := f.scan, len := f.len, pos := f.pos } :=
        ⟨by simp only; omega, hfok.scan.2, hlp, hfok.pos, hoff⟩
      by_cases hclose : f.len ≠ f.oldscore ∨ f.scan = new.length
      · simp only
        rw [if_pos hclose]
        refine (closeBlock_returns hc₁ (by simp only; omega) hdb heb).bind fun r hr => ?_
        obtain ⟨c₂, o₂⟩ := r
        obtain ⟨hc₂, hscan₂, hlen₂, hend₂, triple, db, eb, ho₂, hdb₂, heb₂, hscript⟩ := hr
        simp only at hc₂ hscan₂ hlen₂ hend₂ ho₂ hdb₂ heb₂ hscript ⊢
        refine (encodeLoop_returns hI n c₂ o₂ hc₂ (by omega) (by omega) (by omega) (by omega) (by omega) hdb₂ heb₂).mono
          fun r hr => ?_
        obtain ⟨ctrl', db', eb', hr', hrest, hcount⟩ := hr
        refine ⟨triple :: ctrl', db ++ db', eb ++ eb', ?_, hscript hrest, by simpa using hcount⟩
        rw [hr', ho₂]
        simp
      · simp only
        rw [if_neg hclose]
        refine (encodeLoop_returns hI n _ o hc₁ hflen (by simp only; omega) (by simp only; omega) (by omega)
          (by simp only; omega) hdb heb).mono fun r hr => ?_
        obtain ⟨ctrl', db', eb', hr', hrest, hcount⟩ := hr
        exact ⟨ctrl', db', eb', hr', hrest, by omega⟩
    · rw [if_neg hlt]
      have hlast := hdone (by omega)
      refine .pure ⟨[], [], [], by simp, ?_, by simp⟩
      rw [hlast, Int.toNat_natCast]
      exact .done _

end Diff
end Recovery
