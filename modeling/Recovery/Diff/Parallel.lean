/-
# Parallel chunk lists (imgdiff.c)

In image mode the chunks of source and target are compared index by index, so the lists must
have the same types. `MergeAdjacentNormalChunks` compacts its array in place; what stays in
it is `mergeAdjacent` of what was there.

Key theorem: `chunks_stay_parallel`.
-/
import Recovery.Diff.ImgRoundTrip

namespace Recovery
namespace Diff

open Patch

variable {cod : Codecs} {z : Zlib cod} {file : Bytes} {c : ImageChunk} {cs : List ImageChunk} {pos : ℕ}

/-! ### Compaction in place -/

/-- The run that a chunk begins: how many chunks follow in it, and its last one. -/
def runOf : ImageChunk → List ImageChunk → ℕ × ImageChunk
  | last, [] => (0, last)
  | last, c :: rest => if last.joins c then ((runOf c rest).1 + 1, (runOf c rest).2) else (0, last)

/-- `out` chunks are done, and those from `inStart` on are not. -/
def compactLoop : ℕ → List ImageChunk → ℕ → ℕ → Except Stop (List ImageChunk)
  | 0, _, _, _ => .error .hang
  | n + 1, chunks, out, inStart =>
    match chunks.drop inStart with
    | [] => pure (chunks.take out)
    | c :: rest =>
      let (k, last) := runOf c rest
      let inEnd := inStart + 1 + k
      if inEnd = inStart + 1 then
        compactLoop n (if out = inStart then chunks else chunks.set out c) (out + 1) inEnd
      else
        -- the other fields of the slot keep what they had
        compactLoop n (chunks.modify out fun slot =>
          { slot with type := .normal, start := c.start, data := c.data, len := last.len + (last.start - c.start) })
          (out + 1) inEnd

def mergeAdjacentNormalChunks (chunks : List ImageChunk) : Except Stop (List ImageChunk) :=
  compactLoop (chunks.length + 1) chunks 0 0

/-- The same chunk: of a normal chunk only the place counts. -/
structure SameChunk (a b : ImageChunk) : Prop where
  type : a.type = b.type
  start : a.start = b.start
  len : a.len = b.len
  data : a.data = b.data
  eq_or_normal : a = b ∨ b.type = .normal

theorem mergeFrom_runOf : ∀ (rest : List ImageChunk) (first last : ImageChunk),
    mergeFrom first last rest = collapse first (runOf last rest).2 :: mergeAdjacent (rest.drop (runOf last rest).1)
  | [], _, _ => rfl
  | c :: rest, first, last => by
    rw [mergeFrom, runOf]
    by_cases hj : last.joins c = true
    · rw [if_pos hj, if_pos hj, mergeFrom_runOf rest first c]
      rfl
    · rw [if_neg hj, if_neg hj]
      rfl

theorem runOf_le : ∀ (rest : List ImageChunk) (last : ImageChunk), (runOf last rest).1 ≤ rest.length
  | [], _ => le_rfl
  | c :: rest, last => by
    rw [runOf]
    split
    · exact Nat.succ_le_succ (runOf_le rest c)
    · exact Nat.zero_le _

/-- A run of one ends where it begins, and a longer one is of normal chunks. -/
theorem runOf_cases (rest : List ImageChunk) (c : ImageChunk) :
    (runOf c rest).1 = 0 ∧ (runOf c rest).2 = c ∨ (runOf c rest).1 ≠ 0 ∧ c.type = .normal := by
  cases rest with
  | nil => exact .inl ⟨rfl, rfl⟩
  | cons d rest =>
    rw [runOf]
    by_cases hj : c.joins d = true
    · rw [if_pos hj]
      simp only [ImageChunk.joins, Bool.and_eq_true, beq_iff_eq] at hj
      exact .inr ⟨Nat.succ_ne_zero _, hj.1.1.1⟩
    · rw [if_neg hj]
      exact .inl ⟨rfl, rfl⟩

theorem take_succ_set {α : Type} {l : List α} {i : ℕ} (a : α) (h : i < l.length) : (l.set i a).take (i + 1) = l.take i ++ [a] := by
  rw [List.take_add_one, List.take_set_of_le le_rfl, List.getElem?_set_self h]
  rfl

/-- The compaction leaves what was done and the merge of what was not: a slot is written at
or in front of the run that was read last. -/
theorem compactLoop_eq : ∀ (n : ℕ) (chunks : List ImageChunk) (out inStart : ℕ), out ≤ inStart → inStart ≤ chunks.length →
    chunks.length < n + inStart → ∃ tail, compactLoop n chunks out inStart = .ok (chunks.take out ++ tail) ∧
      List.Forall₂ SameChunk tail (mergeAdjacent (chunks.drop inStart))
  | 0, _, _, _, _, hin, hn => absurd hn (by omega)
  | n + 1, chunks, out, inStart, hle, hin, hn => by
    rw [compactLoop]
    cases hdrop : chunks.drop inStart with
    | nil => exact ⟨[], by rw [List.append_nil]; rfl, .nil⟩
    | cons c rest =>
      simp only
      have hlen : inStart + 1 + rest.length = chunks.length := by
        have := congrArg List.length hdrop
        rw [List.length_drop, List.length_cons] at this
        omega
      have hk := runOf_le rest c
      -- what the round does to the array, whichever branch it takes
      suffices hround : ∀ slot, SameChunk slot (collapse c (runOf c rest).2) →
          ∃ tail, compactLoop n (chunks.set out slot) (out + 1) (inStart + 1 + (runOf c rest).1) = .ok (chunks.take out ++ tail) ∧
            List.Forall₂ SameChunk tail (mergeFrom c c rest) by
        rcases runOf_cases rest c with ⟨hk0, hlast⟩ | ⟨hk0, htype⟩
        · have hset : (if out = inStart then chunks else chunks.set out c) = chunks.set out c := by
            split_ifs with heq
            · rw [List.drop_eq_getElem_cons (show inStart < chunks.length by omega), List.cons.injEq] at hdrop
              subst heq
              rw [← hdrop.1, List.set_getElem_self]
            · rfl
          rw [if_pos (by omega), hset]
          exact hround c (by rw [hlast, collapse_self]; exact ⟨rfl, rfl, rfl, rfl, .inl rfl⟩)
        · rw [if_neg (by omega), List.modify_eq_set_getElem?, List.getElem?_eq_getElem (by omega)]
          exact hround _ ⟨htype.symm, rfl, rfl, rfl, .inr htype⟩
      intro slot hslot
      obtain ⟨tail, hrun, hsame⟩ := compactLoop_eq n (chunks.set out slot) (out + 1) (inStart + 1 + (runOf c rest).1) (by omega)
        (by rw [List.length_set]; omega) (by rw [List.length_set]; omega)
      rw [take_succ_set slot (by omega), List.append_assoc] at hrun
      refine ⟨slot :: tail, hrun, ?_⟩
      rw [mergeFrom_runOf]
      refine .cons hslot ?_
      rw [List.drop_set_of_lt (by omega), Nat.add_assoc, ← List.drop_drop, hdrop, Nat.add_comm 1, List.drop_succ_cons] at hsame
      exact hsame

/-- **Compaction in place is the merge.** -/
theorem mergeAdjacentNormalChunks_eq (chunks : List ImageChunk) :
    ∃ out, mergeAdjacentNormalChunks chunks = .ok out ∧ List.Forall₂ SameChunk out (mergeAdjacent chunks) :=
  compactLoop_eq (chunks.length + 1) chunks 0 0 le_rfl (Nat.zero_le _) (by omega)

theorem types_of_same {as bs : List ImageChunk} (h : List.Forall₂ SameChunk as bs) : as.map (·.type) = bs.map (·.type) := by
  induction h with
  | nil => rfl
  | cons hab _ ih => rw [List.map_cons, List.map_cons, hab.type, ih]

/-! ### Chunks one behind the other -/

/-- A chunk in place of another one: where it was, for as many bytes. -/
structure InPlaceOf (a b : ImageChunk) : Prop where
  start : a.start = b.start
  extent : a.extent = b.extent
  placed : b.Placed → a.Placed

theorem InPlaceOf.refl (c : ImageChunk) : InPlaceOf c c := ⟨rfl, rfl, id⟩

theorem SameChunk.inPlaceOf {a b : ImageChunk} (h : SameChunk a b) : InPlaceOf a b := by
  rcases h.eq_or_normal with rfl | hn
  · exact .refl a
  · exact ⟨h.start, by simp [ImageChunk.extent, hn, h.type, h.len], fun hb =>
      .inl ⟨h.type.trans hn, by rw [h.data, h.start, hb.data_of_normal hn]⟩⟩

theorem Laid.inPlace {as bs : List ImageChunk} (h : List.Forall₂ InPlaceOf as bs) : ∀ {pos : ℕ}, Laid pos bs → Laid pos as := by
  induction h with
  | nil => exact fun h => h
  | cons hab _ ih =>
    intro pos hl
    cases hl with
    | cons hstart hplaced rest => exact .cons (hab.start.trans hstart) (hab.placed hplaced) (hab.extent ▸ ih rest)

/-- A merge leaves the chunks one behind the other. The run goes from `first` to `last`. -/
theorem mergeFrom_laid : ∀ (cs : List ImageChunk) (first last : ImageChunk), first.Placed → last.Placed →
    (first = last ∨ first.type = .normal ∧ last.type = .normal ∧ first.start ≤ last.start) →
    Laid (last.start + last.extent) cs → Laid first.start (mergeFrom first last cs)
  | cs, first, last, hf, hl, hshape, hlaid => by
    have hplaced : (collapse first last).Placed := by
      rcases hshape with rfl | ⟨hn, -⟩
      · rwa [collapse_self]
      · exact .inl ⟨hn, hf.data_of_normal hn⟩
    have hends : first.start + (collapse first last).extent = last.start + last.extent := by
      rcases hshape with rfl | ⟨hn, hn', hle⟩
      · rw [collapse_self]
      · simp only [ImageChunk.extent, collapse, hn, hn', reduceCtorEq, if_false]
        omega
    cases hlaid with
    | nil => exact .cons rfl hplaced .nil
    | @cons _ c cs hstart hc rest =>
      rw [mergeFrom]
      by_cases hj : last.joins c = true
      · obtain ⟨hln, hcn⟩ := (joins_iff hl hc hstart).mp hj
        rw [if_pos hj]
        refine mergeFrom_laid cs first c hf hc (.inr ?_) (hstart ▸ rest)
        rcases hshape with rfl | ⟨hn, -, hle⟩
        · exact ⟨hln, hcn, by omega⟩
        · exact ⟨hn, hcn, by omega⟩
      · rw [if_neg hj]
        refine .cons rfl hplaced ?_
        rw [hends, ← hstart]
        exact mergeFrom_laid cs c c hc hc (.inl rfl) (hstart ▸ rest)

theorem mergeAdjacent_laid (h : Laid pos cs) : Laid pos (mergeAdjacent cs) := by
  cases h with
  | nil => exact .nil
  | cons hstart hplaced rest =>
    rw [← hstart]
    exact mergeFrom_laid _ _ _ hplaced hplaced (.inl rfl) (hstart ▸ rest)

theorem normalAt_placed (start len : ℕ) : (normalAt start len).Placed := .inl ⟨rfl, rfl⟩

theorem gzipMember_laid {pos' : ℕ} {member rest : List ImageChunk} (hrun : gzipMember z file pos = .ok (member, pos'))
    (hrest : Laid pos' rest) : Laid pos (member ++ rest) := by
  unfold gzipMember at hrun
  obtain ⟨_, _, hrun⟩ := bind_eq_ok.mp hrun
  cases hall : z.inflateAll (file.drop (pos + gzipHeaderLen)) with
  | none => simp [hall] at hrun
  | some r =>
    simp only [hall] at hrun
    obtain ⟨_, _, hrun⟩ := bind_eq_ok.mp hrun
    obtain ⟨_, _, hrun⟩ := bind_eq_ok.mp hrun
    obtain ⟨rfl, rfl⟩ := Prod.mk.inj (pure_eq_ok.mp hrun)
    exact .cons rfl (normalAt_placed _ _) (.cons rfl (.inr ⟨rfl, rfl⟩) (.cons rfl (normalAt_placed _ _) hrest))

theorem readChunks_laid : ∀ (n pos : ℕ) {cs : List ImageChunk}, readChunks z file n pos = .ok cs → Laid pos cs
  | 0, _, _, hrun => by simp [readChunks] at hrun
  | n + 1, pos, cs, hrun => by
    unfold readChunks at hrun
    split_ifs at hrun
    · obtain ⟨⟨member, pos'⟩, hmember, hrun⟩ := bind_eq_ok.mp hrun
      obtain ⟨chunks, hchunks, hrun⟩ := bind_eq_ok.mp hrun
      obtain rfl := pure_eq_ok.mp hrun
      exact gzipMember_laid hmember (readChunks_laid n pos' hchunks)
    · obtain ⟨chunks, hchunks, hrun⟩ := bind_eq_ok.mp hrun
      obtain rfl := pure_eq_ok.mp hrun
      exact .cons rfl (normalAt_placed _ _) (readChunks_laid n _ hchunks)
    · obtain rfl := pure_eq_ok.mp hrun
      exact .nil

/-- **The chunks of `ReadImage` lie one behind the other**, on any file. -/
theorem readImage_laid (hrun : readImage z file = .ok cs) : Laid 0 cs := readChunks_laid _ 0 hrun

/-! ### Demoting -/

theorem changeDeflateChunkToNormal_inPlace (c : ImageChunk) : InPlaceOf (changeDeflateChunkToNormal c) c := by
  unfold changeDeflateChunkToNormal
  split_ifs with htype
  · refine ⟨rfl, by simp [ImageChunk.extent, htype], fun hp => .inl ⟨rfl, ?_⟩⟩
    rcases hp with ⟨hn, -⟩ | ⟨-, hdata⟩
    · simp [htype] at hn
    · exact congrArg Ptr.image hdata
  · exact .refl c

theorem changeDeflateChunkToNormal_type {a b : ImageChunk} (h : a.type = b.type) :
    (changeDeflateChunkToNormal a).type = (changeDeflateChunkToNormal b).type := by
  unfold changeDeflateChunkToNormal
  rw [h]
  split_ifs
  · rfl
  · exact h

theorem reconstructDeflateChunk_some {img : Bytes} {c' : ImageChunk} (h : reconstructDeflateChunk cod img c = .ok (some c')) :
    ∃ params, c' = { c with params } := by
  unfold reconstructDeflateChunk at h
  split_ifs at h
  · simp [pure_eq_ok] at h
  obtain ⟨ok6, _, h⟩ := bind_eq_ok.mp h
  cases ok6 with
  | true => exact ⟨_, (Option.some.inj (pure_eq_ok.mp h)).symm⟩
  | false =>
    obtain ⟨ok9, _, h⟩ := bind_eq_ok.mp h
    cases ok9 with
    | true => exact ⟨_, (Option.some.inj (pure_eq_ok.mp h)).symm⟩
    | false => simp [pure_eq_ok] at h

/-- What the demoting pass does to a pair of equal type: both or none is demoted. -/
structure PairKept (p q : ImageChunk × ImageChunk) : Prop where
  src : InPlaceOf q.1 p.1
  tgt : InPlaceOf q.2 p.2
  types : p.1.type = p.2.type → q.1.type = q.2.type

theorem demotePair_kept {srcImg tgtImg : Bytes} {src tgt : ImageChunk} {q : ImageChunk × ImageChunk}
    (h : demotePair cod srcImg tgtImg src tgt = .ok q) : PairKept (src, tgt) q := by
  have hboth : ∀ tgt' : ImageChunk, InPlaceOf tgt' tgt → tgt'.type = tgt.type →
      PairKept (src, tgt) (changeDeflateChunkToNormal src, changeDeflateChunkToNormal tgt') := by
    intro tgt' hplace htype
    have htgt := changeDeflateChunkToNormal_inPlace tgt'
    exact ⟨changeDeflateChunkToNormal_inPlace src, ⟨htgt.start.trans hplace.start, htgt.extent.trans hplace.extent,
      fun hp => htgt.placed (hplace.placed hp)⟩, fun htypes => changeDeflateChunkToNormal_type (htypes.trans htype.symm)⟩
  unfold demotePair at h
  split_ifs at h
  · obtain ⟨rebuilt, hrebuilt, h⟩ := bind_eq_ok.mp h
    cases rebuilt with
    | none =>
      obtain rfl := pure_eq_ok.mp h
      exact hboth tgt (.refl tgt) rfl
    | some tgt' =>
      obtain ⟨params, rfl⟩ := reconstructDeflateChunk_some hrebuilt
      have hplace : InPlaceOf { tgt with params } tgt := ⟨rfl, rfl, id⟩
      obtain ⟨equal, _, h⟩ := bind_eq_ok.mp h
      cases equal with
      | true =>
        obtain rfl := pure_eq_ok.mp h
        exact hboth _ hplace rfl
      | false =>
        obtain rfl := pure_eq_ok.mp h
        exact ⟨.refl src, hplace, id⟩
  · obtain rfl := pure_eq_ok.mp h
    exact ⟨.refl src, .refl tgt, id⟩

theorem demoteAll_kept {srcImg tgtImg : Bytes} : ∀ {pairs pairs' : List (ImageChunk × ImageChunk)},
    demoteAll cod srcImg tgtImg pairs = .ok pairs' → List.Forall₂ PairKept pairs pairs'
  | [], pairs', h => by
    obtain rfl := pure_eq_ok.mp h
    exact .nil
  | (src, tgt) :: pairs, pairs', h => by
    unfold demoteAll at h
    obtain ⟨q, hpair, h⟩ := bind_eq_ok.mp h
    obtain ⟨rest, hrest, h⟩ := bind_eq_ok.mp h
    obtain rfl := pure_eq_ok.mp h
    exact .cons (demotePair_kept hpair) (demoteAll_kept hrest)

theorem demoteAll_laid {srcImg tgtImg : Bytes} {src tgt : List ImageChunk} {pairs : List (ImageChunk × ImageChunk)}
    {pos pos' : ℕ} (hsrc : Laid pos src) (htgt : Laid pos' tgt) (htypes : src.map (·.type) = tgt.map (·.type))
    (h : demoteAll cod srcImg tgtImg (src.zip tgt) = .ok pairs) :
    Laid pos (pairs.map (·.1)) ∧ Laid pos' (pairs.map (·.2)) ∧
      (pairs.map (·.1)).map (·.type) = (pairs.map (·.2)).map (·.type) := by
  have hkept := demoteAll_kept h
  have hlen : src.length = tgt.length := by simpa using congrArg List.length htypes
  have hfst : (src.zip tgt).map (·.1) = src := List.map_fst_zip hlen.le
  have hsnd : (src.zip tgt).map (·.2) = tgt := List.map_snd_zip hlen.ge
  refine ⟨.inPlace ?_ hsrc, .inPlace ?_ htgt, ?_⟩
  · rw [← hfst, List.forall₂_map_left_iff, List.forall₂_map_right_iff]
    exact hkept.flip.imp fun _ _ hk => hk.src
  · rw [← hsnd, List.forall₂_map_left_iff, List.forall₂_map_right_iff]
    exact hkept.flip.imp fun _ _ hk => hk.tgt
  · rw [List.map_map, List.map_map, List.map_inj_left]
    intro q hq
    obtain ⟨p, hp, hk⟩ := forall_right hkept q hq
    exact hk.types (types_zip htypes p hp)

/-- `main` in image mode, up to the second comparison of the lists. -/
def chunksInParallel (z : Zlib cod) (source target : Bytes) : Except Stop (List ImageChunk × List ImageChunk) := do
  let src ← readImage z source
  let tgt ← readImage z target
  let tgt ← mergeAdjacentNormalChunks tgt
  let src ← mergeAdjacentNormalChunks src
  failIf (src.length ≠ tgt.length) (.ret 1)
  failIf (src.map (·.type) ≠ tgt.map (·.type)) (.ret 1)
  let pairs ← demoteAll cod (padded source) (padded target) (src.zip tgt)
  let tgt ← mergeAdjacentNormalChunks (pairs.map (·.2))
  let src ← mergeAdjacentNormalChunks (pairs.map (·.1))
  pure (src, tgt)

theorem mergeAdjacentNormalChunks_laid {out : List ImageChunk} (h : mergeAdjacentNormalChunks cs = .ok out) (hcs : Laid pos cs) :
    Laid pos out ∧ out.map (·.type) = (mergeAdjacent cs).map (·.type) := by
  obtain ⟨out', hout, hsame⟩ := mergeAdjacentNormalChunks_eq cs
  obtain rfl := Except.ok.inj (hout.symm.trans h)
  exact ⟨.inPlace (hsame.imp fun _ _ h => h.inPlaceOf) (mergeAdjacent_laid hcs), types_of_same hsame⟩

/-- **The lists stay parallel.** Whatever the files, what is left behind the second
merge is equally long in both, with the same type at every index: merging never
goes awry. -/
theorem chunks_stay_parallel {source target : Bytes} {src tgt : List ImageChunk}
    (h : chunksInParallel z source target = .ok (src, tgt)) :
    src.length = tgt.length ∧ src.map (·.type) = tgt.map (·.type) := by
  obtain ⟨src₀, hsrc₀, h⟩ := bind_eq_ok.mp h
  obtain ⟨tgt₀, htgt₀, h⟩ := bind_eq_ok.mp h
  obtain ⟨tgt₁, htgt₁, h⟩ := bind_eq_ok.mp h
  obtain ⟨src₁, hsrc₁, h⟩ := bind_eq_ok.mp h
  obtain ⟨_, _, h⟩ := bind_eq_ok.mp h
  obtain ⟨_, htypes, h⟩ := bind_eq_ok.mp h
  obtain ⟨pairs, hpairs, h⟩ := bind_eq_ok.mp h
  obtain ⟨tgt₂, htgt₂, h⟩ := bind_eq_ok.mp h
  obtain ⟨src₂, hsrc₂, h⟩ := bind_eq_ok.mp h
  obtain ⟨rfl, rfl⟩ := Prod.mk.inj (pure_eq_ok.mp h)
  have hs₁ := mergeAdjacentNormalChunks_laid hsrc₁ (readImage_laid hsrc₀)
  have ht₁ := mergeAdjacentNormalChunks_laid htgt₁ (readImage_laid htgt₀)
  obtain ⟨hs, ht, hparallel⟩ := demoteAll_laid hs₁.1 ht₁.1 (not_not.mp (failIf_eq_ok.mp htypes)) hpairs
  have heq : src₂.map (·.type) = tgt₂.map (·.type) := by
    rw [(mergeAdjacentNormalChunks_laid hsrc₂ hs).2, (mergeAdjacentNormalChunks_laid htgt₂ ht).2,
      mergeAdjacent_types hs ht hparallel]
  exact ⟨by simpa using congrArg List.length heq, heq⟩

theorem chunks_stay_parallel_abcGz : ∃ src tgt, chunksInParallel knownZlib abcGz abcGz = .ok (src, tgt) ∧
    src.length = tgt.length ∧ src.map (·.type) = tgt.map (·.type) := by
  have hrun : (chunksInParallel knownZlib abcGz abcGz).isOk = true := by decide +kernel
  cases h : chunksInParallel knownZlib abcGz abcGz with
  | ok p => exact ⟨p.1, p.2, rfl, chunks_stay_parallel h⟩
  | error e =>
    rw [h] at hrun
    exact absurd hrun Bool.false_ne_true

end Diff
end Recovery
