/-
# Merging chunks (imgdiff.c)

`MergeAdjacentNormalChunks` on any list of chunks: a run is merged as long as each chunk
begins where the one before it ends, in the file and in memory (`Spans`).

Key theorem: `chunks_merged`.
-/
import Recovery.Diff.Parallel

namespace Recovery
namespace Diff

/-- Where the raw bytes of a chunk are in the file. -/
def ImageChunk.positions (c : ImageChunk) : List ℕ := List.range' c.start c.extent

/-! ### Runs -/

theorem joins_spec {a b : ImageChunk} : a.joins b = true ↔
    a.type = .normal ∧ b.type = .normal ∧ b.start = a.start + a.len ∧ ∃ x, a.data = .image x ∧ b.data = .image (x + a.len) := by
  unfold ImageChunk.joins Ptr.follows
  cases ha : a.data <;> cases hb : b.data <;> simp [and_assoc]

/-- One chunk, or normal chunks that move on in memory as they do in the file. -/
inductive Spans : ImageChunk → ImageChunk → Prop
  | single (c : ImageChunk) : Spans c c
  | normal {first last : ImageChunk} {x : ℕ} (hfirst : first.type = .normal) (hlast : last.type = .normal)
      (hle : first.start ≤ last.start) (hx : first.data = .image x) (hy : last.data = .image (x + (last.start - first.start))) :
      Spans first last

variable {first last c : ImageChunk} {cs : List ImageChunk}

theorem Spans.type_eq (h : Spans first last) : first.type = last.type := by
  cases h with
  | single => rfl
  | normal hf hl => exact hf.trans hl.symm

theorem Spans.start_le (h : Spans first last) : first.start ≤ last.start := by
  cases h with
  | single => exact le_rfl
  | normal _ _ hle => exact hle

theorem Spans.join (h : Spans first last) (hj : last.joins c = true) : Spans first c := by
  obtain ⟨hl, hc, hstart, y, hlast, hdata⟩ := joins_spec.mp hj
  cases h with
  | single =>
    refine .normal hl hc (by omega) hlast ?_
    rw [hdata, hstart, Nat.add_sub_cancel_left]
  | normal hf _ hle hx hy =>
    rw [hy] at hlast
    obtain rfl := Ptr.image.inj hlast
    refine .normal hf hc (by omega) hx ?_
    rw [hdata, hstart]
    congr 1
    omega

theorem Spans.collapse_joins (h : Spans first last) : (collapse first last).joins c = last.joins c := by
  cases h with
  | single => rw [collapse_self]
  | @normal _ x hf hl hle hx hy =>
    have hends : first.start + (last.len + (last.start - first.start)) = last.start + last.len := by omega
    have hnext : x + (last.len + (last.start - first.start)) = x + (last.start - first.start) + last.len := by omega
    rw [Bool.eq_iff_iff, joins_spec, joins_spec]
    simp only [collapse, hf, hl, hx, hy, hends, hnext, Ptr.image.injEq, exists_eq_left']

theorem Spans.positions_join (h : Spans first last) (hj : last.joins c = true) :
    (collapse first c).positions = (collapse first last).positions ++ c.positions := by
  obtain ⟨hl, hc, hstart, -⟩ := joins_spec.mp hj
  have hf : first.type = .normal := h.type_eq.trans hl
  have hle := h.start_le
  have hends : c.start = first.start + (last.len + (last.start - first.start)) := by omega
  have hlen : c.len + (c.start - first.start) = last.len + (last.start - first.start) + c.len := by omega
  simp only [ImageChunk.positions, ImageChunk.extent, collapse, hf, hc, reduceCtorEq, if_false]
  rw [hlen, hends, ← List.range'_append_1]

/-! ### The merge -/

theorem mergeFrom_positions : ∀ (cs : List ImageChunk) {first last : ImageChunk}, Spans first last →
    (mergeFrom first last cs).flatMap ImageChunk.positions =
      (collapse first last).positions ++ cs.flatMap ImageChunk.positions
  | [], _, _, _ => by simp [mergeFrom]
  | c :: cs, first, last, h => by
    rw [mergeFrom]
    by_cases hj : last.joins c = true
    · rw [if_pos hj, mergeFrom_positions cs (h.join hj), h.positions_join hj, List.flatMap_cons, List.append_assoc]
    · rw [if_neg hj, List.flatMap_cons, mergeFrom_positions cs (.single c), collapse_self, List.flatMap_cons]

def others (cs : List ImageChunk) : List ImageChunk := cs.filter fun c => c.type ≠ .normal

theorem others_cons_normal (h : c.type = .normal) : others (c :: cs) = others cs := List.filter_cons_of_neg (by simp [h])

theorem others_cons_congr {cs' : List ImageChunk} (h : others cs = others cs') : others (c :: cs) = others (c :: cs') := by
  unfold others at *
  rw [List.filter_cons, List.filter_cons, h]

theorem mergeFrom_others : ∀ (cs : List ImageChunk) {first last : ImageChunk}, Spans first last →
    others (mergeFrom first last cs) = others (collapse first last :: cs)
  | [], _, _, _ => rfl
  | c :: cs, first, last, h => by
    rw [mergeFrom]
    by_cases hj : last.joins c = true
    · obtain ⟨hl, hc, -⟩ := joins_spec.mp hj
      have hcollapse : ∀ k, (collapse first k).type = .normal := fun _ => h.type_eq.trans hl
      rw [if_pos hj, mergeFrom_others cs (h.join hj), others_cons_normal (hcollapse c), others_cons_normal (hcollapse last),
        others_cons_normal hc]
    · rw [if_neg hj]
      refine others_cons_congr ?_
      rw [mergeFrom_others cs (.single c), collapse_self]

def Merged (cs : List ImageChunk) : Prop := cs.IsChain fun a b => a.joins b = false

theorem mergeFrom_merged : ∀ (cs : List ImageChunk) {first last : ImageChunk}, Spans first last → Merged (mergeFrom first last cs)
  | [], _, _, _ => .singleton _
  | c :: cs, first, last, h => by
    rw [mergeFrom]
    by_cases hj : last.joins c = true
    · rw [if_pos hj]
      exact mergeFrom_merged cs (h.join hj)
    · rw [if_neg hj]
      have htail := mergeFrom_merged cs (.single c)
      rw [mergeFrom_runOf] at htail ⊢
      exact .cons_cons (h.collapse_joins.trans (Bool.eq_false_of_not_eq_true hj)) htail

/-! ### The array -/

theorem SameChunk.positions {a b : ImageChunk} (h : SameChunk a b) : a.positions = b.positions := by
  unfold ImageChunk.positions
  rw [h.start, h.inPlaceOf.extent]

theorem SameChunk.joins {a b a' b' : ImageChunk} (h : SameChunk a a') (h' : SameChunk b b') : a.joins b = a'.joins b' := by
  unfold ImageChunk.joins Ptr.follows
  rw [h.type, h.start, h.len, h.data, h'.type, h'.start, h'.data]

theorem positions_of_same {as bs : List ImageChunk} (h : List.Forall₂ SameChunk as bs) :
    as.flatMap ImageChunk.positions = bs.flatMap ImageChunk.positions := by
  induction h with
  | nil => rfl
  | cons hab _ ih => rw [List.flatMap_cons, List.flatMap_cons, hab.positions, ih]

theorem others_of_same {as bs : List ImageChunk} (h : List.Forall₂ SameChunk as bs) : others as = others bs := by
  induction h with
  | nil => rfl
  | @cons a b as bs hab _ ih =>
    rcases hab.eq_or_normal with rfl | hn
    · exact others_cons_congr ih
    · rw [others_cons_normal hn, others_cons_normal (hab.type.trans hn), ih]

theorem merged_of_same {as bs : List ImageChunk} (h : List.Forall₂ SameChunk as bs) (hbs : Merged bs) : Merged as := by
  induction h with
  | nil => exact .nil
  | cons hab htail ih =>
    cases htail with
    | nil => exact .singleton _
    | cons hcd _ =>
      obtain ⟨hjoins, hrest⟩ := List.isChain_cons_cons.mp hbs
      exact .cons_cons ((hab.joins hcd).trans hjoins) (ih hrest)

theorem Merged.drop (h : Merged cs) (i : ℕ) : Merged (cs.drop i) := List.IsChain.drop h i

theorem compactLoop_merged (h : Merged cs) : ∀ (n i : ℕ), i ≤ cs.length → cs.length < n + i → compactLoop n cs i i = .ok cs
  | 0, _, hi, hn => absurd hn (by omega)
  | n + 1, i, hi, hn => by
    rw [compactLoop]
    cases hdrop : cs.drop i with
    | nil =>
      rw [List.take_of_length_le (List.drop_eq_nil_iff.mp hdrop)]
      rfl
    | cons c rest =>
      have hlt : i < cs.length := by
        by_contra hge
        simp [List.drop_eq_nil_iff.mpr (Nat.not_lt.mp hge)] at hdrop
      have hrun : runOf c rest = (0, c) := by
        have hrest := hdrop ▸ h.drop i
        cases rest with
        | nil => rfl
        | cons d rest => rw [runOf, if_neg (by simp [(List.isChain_cons_cons.mp hrest).1])]
      simp only [hrun, if_true]
      exact compactLoop_merged h n (i + 1) hlt (by omega)

/-! ### Rounds -/

/-- The array, `out` and `in_start`. -/
structure Compaction where
  chunks : List ImageChunk
  out : ℕ
  inStart : ℕ

/-- A round of the loop of `MergeAdjacentNormalChunks`. -/
def compactStep (s : Compaction) : Option Compaction :=
  match s.chunks.drop s.inStart with
  | [] => none
  | c :: rest =>
    let (k, last) := runOf c rest
    let inEnd := s.inStart + 1 + k
    if inEnd = s.inStart + 1 then some ⟨if s.out = s.inStart then s.chunks else s.chunks.set s.out c, s.out + 1, inEnd⟩
    else
      some ⟨s.chunks.modify s.out fun slot =>
        { slot with type := .normal, start := c.start, data := c.data, len := last.len + (last.start - c.start) }, s.out + 1, inEnd⟩

/-- The chunks from `in_start` on are still those of the input. -/
structure Compaction.Unread (input : List ImageChunk) (s : Compaction) : Prop where
  out_le : s.out ≤ s.inStart
  unread : s.chunks.drop s.inStart = input.drop s.inStart

theorem Compaction.Unread.step {input : List ImageChunk} {s s' : Compaction} (h : s.Unread input) (hstep : compactStep s = some s') :
    s'.Unread input := by
  have hle := h.out_le
  -- a write at `out` is in front of what the next round reads
  have hwrite : ∀ (chunks : List ImageChunk) (k : ℕ), (∀ j, s.out < j → chunks.drop j = s.chunks.drop j) →
      Compaction.Unread input ⟨chunks, s.out + 1, s.inStart + 1 + k⟩ := by
    intro chunks k hkept
    refine ⟨by dsimp only; omega, ?_⟩
    dsimp only
    rw [hkept _ (by omega), Nat.add_assoc, ← List.drop_drop, h.unread, List.drop_drop]
  unfold compactStep at hstep
  cases hdrop : s.chunks.drop s.inStart with
  | nil => simp [hdrop] at hstep
  | cons c rest =>
    simp only [hdrop] at hstep
    split_ifs at hstep <;> obtain rfl := Option.some.inj hstep <;> refine hwrite _ _ fun j hj => ?_
    · rfl
    · exact List.drop_set_of_lt hj
    · exact List.drop_modify_of_lt _ _ _ _ hj

/-- **Merging.** The raw bytes are the same in the same order, the chunks that are not normal stay, nothing is left to merge, and
a second merge changes nothing. In every round the chunks that were not read yet are those of the input. -/
theorem chunks_merged (chunks : List ImageChunk) :
    (∃ out, mergeAdjacentNormalChunks chunks = .ok out ∧
      out.flatMap ImageChunk.positions = chunks.flatMap ImageChunk.positions ∧
      others out = others chunks ∧ Merged out ∧ mergeAdjacentNormalChunks out = .ok out) ∧
    ∀ s, Relation.ReflTransGen (fun s s' => compactStep s = some s') ⟨chunks, 0, 0⟩ s → s.Unread chunks := by
  constructor
  · obtain ⟨out, hrun, hsame⟩ := mergeAdjacentNormalChunks_eq chunks
    have hmerged : Merged (mergeAdjacent chunks) := by
      cases chunks with
      | nil => exact .nil
      | cons c cs => exact mergeFrom_merged cs (.single c)
    have hout := merged_of_same hsame hmerged
    refine ⟨out, hrun, ?_, ?_, hout, compactLoop_merged hout _ 0 (Nat.zero_le _) (by omega)⟩
    · rw [positions_of_same hsame]
      cases chunks with
      | nil => rfl
      | cons c cs => rw [mergeAdjacent, mergeFrom_positions cs (.single c), collapse_self, List.flatMap_cons]
    · rw [others_of_same hsame]
      cases chunks with
      | nil => rfl
      | cons c cs => rw [mergeAdjacent, mergeFrom_others cs (.single c), collapse_self]
  · intro s hs
    induction hs with
    | refl => exact ⟨le_rfl, rfl⟩
    | tail _ hstep ih => exact ih.step hstep

end Diff
end Recovery
