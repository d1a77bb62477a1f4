/-
# Chunk lists that tile a file

`Tiles`: the chunks lie one behind the other up to the end of the file, and each is what the
file has there. Merging, demoting and patching keep this.

Key theorems: `mergeAdjacent_tiles`, `demotePair_ok`, `makePatch_applies`.
-/
import Recovery.Diff.Layout

namespace Recovery
namespace Diff

open Arrays Patch

/-- How many bytes of the file a chunk stands for, and which. -/
def ImageChunk.extent (c : ImageChunk) : ℕ := if c.type = .deflate then c.deflateLen else c.len

def ImageChunk.span (file : Bytes) (c : ImageChunk) : Bytes := (file.drop c.start).take c.extent

/-- The chunk is what the file has at its place. -/
inductive ChunkOk (cod : Codecs) (file : Bytes) : ImageChunk → Prop
  | normal {c : ImageChunk} (htype : c.type = .normal) (hdata : c.data = .image c.start)
      (hle : c.start + c.len ≤ file.length) : ChunkOk cod file c
  | deflate {c : ImageChunk} {d : Bytes} (htype : c.type = .deflate) (hdata : c.data = .heap d) (hlen : c.len = d.length)
      (hsmall : d.length < 2 ^ 31) (hplace : c.deflateData = c.start) (hle : c.start + c.deflateLen ≤ file.length)
      (hinf : cod.inflate ((file.drop c.start).take c.deflateLen) d.length = (zStreamEnd, d)) : ChunkOk cod file c

/-- The chunks lie one behind the other, from `pos` to the end of the file. -/
inductive Tiles (cod : Codecs) (file : Bytes) : ℕ → List ImageChunk → Prop
  | nil {pos : ℕ} (hpos : pos = file.length) : Tiles cod file pos []
  | cons {pos : ℕ} {c : ImageChunk} {cs : List ImageChunk} (hstart : c.start = pos) (hok : ChunkOk cod file c)
      (rest : Tiles cod file (pos + c.extent) cs) : Tiles cod file pos (c :: cs)

variable {cod : Codecs} {file : Bytes} {pos : ℕ} {c : ImageChunk} {cs : List ImageChunk}

theorem ChunkOk.extent_le (hc : ChunkOk cod file c) : c.start + c.extent ≤ file.length := by
  unfold ImageChunk.extent
  cases hc with
  | normal htype hdata hle => simpa [htype] using hle
  | deflate htype hdata hlen hsmall hplace hle hinf => simpa [htype] using hle

theorem Tiles.flatten (ht : Tiles cod file pos cs) : (cs.map (·.span file)).flatten = file.drop pos := by
  induction ht with
  | nil hpos => simp [hpos]
  | @cons pos c cs hstart hok rest ih =>
    rw [List.map_cons, List.flatten_cons, ih, ImageChunk.span, hstart, ← List.drop_drop, List.take_append_drop]

/-! What a chunk's data pointer yields, in an image that has the file at its start. -/

theorem bytes_heap {d : Bytes} (hdata : c.data = .heap d) (img : Bytes) : c.bytes img = .ok d := by
  unfold ImageChunk.bytes
  rw [hdata]
  rfl

theorem ChunkOk.bytes_normal (hc : ChunkOk cod file c) (htype : c.type = .normal) (pad : Bytes) :
    c.bytes (file ++ pad) = .ok (c.span file) := by
  cases hc with
  | deflate htype' => simp [htype] at htype'
  | normal _ hdata hle =>
    unfold ImageChunk.bytes ImageChunk.span ImageChunk.extent
    rw [hdata]
    simp only [htype]
    rw [slice_of_le _ (by omega) (by rw [List.length_append]; omega), Int.toNat_natCast,
      List.drop_append_of_le_length (by omega), List.take_append_of_le_length (by rw [List.length_drop]; omega)]
    rfl

theorem ChunkOk.bytes_lt {pad d : Bytes} (hc : ChunkOk cod file c) (hfile : file.length < 2 ^ 31)
    (hbytes : c.bytes (file ++ pad) = .ok d) : d.length < 2 ^ 31 := by
  by_cases htype : c.type = .normal
  · rw [hc.bytes_normal htype pad, Except.ok.injEq] at hbytes
    rw [← hbytes, ImageChunk.span, List.length_take, List.length_drop]
    omega
  · cases hc with
    | normal htype' => exact absurd htype' htype
    | deflate _ hdata _ hsmall =>
      rw [bytes_heap hdata, Except.ok.injEq] at hbytes
      exact hbytes ▸ hsmall

/-! ### Places -/

/-- The chunk points to its own place in the image. -/
def ImageChunk.Placed (c : ImageChunk) : Prop :=
  c.type = .normal ∧ c.data = .image c.start ∨ c.type = .deflate ∧ c.deflateData = c.start

/-- The chunks lie one behind the other, from `pos` on, wherever the last one ends. -/
inductive Laid : ℕ → List ImageChunk → Prop
  | nil {pos : ℕ} : Laid pos []
  | cons {pos : ℕ} {c : ImageChunk} {cs : List ImageChunk} (hstart : c.start = pos) (hplaced : c.Placed)
      (rest : Laid (pos + c.extent) cs) : Laid pos (c :: cs)

theorem ChunkOk.placed (hc : ChunkOk cod file c) : c.Placed := by
  cases hc with
  | normal htype hdata hle => exact .inl ⟨htype, hdata⟩
  | deflate htype hdata hlen hsmall hplace hle hinf => exact .inr ⟨htype, hplace⟩

theorem Tiles.laid (ht : Tiles cod file pos cs) : Laid pos cs := by
  induction ht with
  | nil => exact .nil
  | cons hstart hok rest ih => exact .cons hstart hok.placed ih

/-! ### Merging -/

@[simp] theorem collapse_self (c : ImageChunk) : collapse c c = c := by simp [collapse]

/-- A run of the merge: one chunk, or normal chunks. -/
structure InRun (cod : Codecs) (file : Bytes) (first last : ImageChunk) : Prop where
  shape : first = last ∨ first.type = .normal ∧ last.type = .normal
  ok : ChunkOk cod file (collapse first last)
  last_ok : ChunkOk cod file last
  ends : first.start + (collapse first last).extent = last.start + last.extent
  order : first.start ≤ last.start

theorem InRun.single (hc : ChunkOk cod file c) : InRun cod file c c :=
  ⟨.inl rfl, by simpa using hc, hc, by simp, le_rfl⟩

theorem InRun.type_eq {first last : ImageChunk} (hr : InRun cod file first last) : first.type = last.type := by
  rcases hr.shape with rfl | ⟨h₁, h₂⟩
  · rfl
  · rw [h₁, h₂]

theorem ImageChunk.Placed.data_of_normal (hc : c.Placed) (hn : c.type = .normal) : c.data = .image c.start := by
  rcases hc with ⟨-, hdata⟩ | ⟨hd, -⟩
  · exact hdata
  · simp [hn] at hd

/-- Of chunks one behind the other every normal chunk joins the normal chunk before it. -/
theorem joins_iff {last c : ImageChunk} (hl : last.Placed) (hc : c.Placed) (hstart : c.start = last.start + last.extent) :
    last.joins c = true ↔ last.type = .normal ∧ c.type = .normal := by
  unfold ImageChunk.joins Ptr.follows
  constructor
  · intro h
    simp only [Bool.and_eq_true, beq_iff_eq] at h
    exact h.1.1
  · intro ⟨h₁, h₂⟩
    have hext : last.extent = last.len := by simp [ImageChunk.extent, h₁]
    rw [hl.data_of_normal h₁, hc.data_of_normal h₂]
    simp only [h₁, h₂, hstart, hext, beq_self_eq_true, Bool.and_self]

theorem InRun.join {first last c : ImageChunk} (hr : InRun cod file first last) (hc : ChunkOk cod file c)
    (hstart : c.start = last.start + last.extent) (hl : last.type = .normal) (hn : c.type = .normal) :
    InRun cod file first c := by
  have hf : first.type = .normal := hr.type_eq.trans hl
  have horder := hr.order
  cases hc with
  | deflate htype => simp [hn] at htype
  | normal _ hdata hle =>
    refine ⟨.inr ⟨hf, hn⟩, .normal hf ?_ ?_, .normal hn hdata hle, ?_, by omega⟩
    · have hok := hr.ok
      generalize hcol : collapse first last = k at hok
      have hk : k.type = .normal := by rw [← hcol]; exact hf
      cases hok with
      | deflate htype => simp [hk] at htype
      | normal _ hdata' => rw [← hcol] at hdata'; exact hdata'
    · simp only [collapse]
      omega
    · simp only [ImageChunk.extent, collapse, hf, hn, reduceCtorEq, if_false]
      omega

theorem mergeFrom_tiles : ∀ (cs : List ImageChunk) (first last : ImageChunk), InRun cod file first last →
    Tiles cod file (last.start + last.extent) cs → Tiles cod file first.start (mergeFrom first last cs)
  | [], first, last, hr, ht => by
    unfold mergeFrom
    refine .cons rfl hr.ok ?_
    rw [show first.start + (collapse first last).extent = last.start + last.extent from hr.ends]
    exact ht
  | c :: cs, first, last, hr, ht => by
    unfold mergeFrom
    cases ht with
    | cons hstart hok rest =>
      by_cases hj : last.joins c = true
      · rw [if_pos hj]
        obtain ⟨hl, hn⟩ := (joins_iff hr.last_ok.placed hok.placed hstart).mp hj
        exact mergeFrom_tiles cs first c (hr.join hok hstart hl hn) (hstart ▸ rest)
      · rw [if_neg hj]
        refine .cons rfl hr.ok ?_
        rw [show first.start + (collapse first last).extent = last.start + last.extent from hr.ends, ← hstart]
        exact mergeFrom_tiles cs c c (.single hok) (hstart ▸ rest)

/-- **A merge keeps the tiling.** -/
theorem mergeAdjacent_tiles (ht : Tiles cod file 0 cs) : Tiles cod file 0 (mergeAdjacent cs) := by
  cases ht with
  | nil hpos => exact .nil hpos
  | cons hstart hok rest =>
    rw [← hstart]
    exact mergeFrom_tiles _ _ _ (.single hok) (hstart ▸ rest)

/-- The types behind a merge, from those before it. -/
def mergedTypes : ChunkType → List ChunkType → List ChunkType
  | t, [] => [t]
  | t, u :: ts => if t = .normal ∧ u = .normal then mergedTypes u ts else t :: mergedTypes u ts

theorem mergeFrom_types : ∀ (cs : List ImageChunk) (first last : ImageChunk), first.type = last.type → last.Placed →
    Laid (last.start + last.extent) cs → (mergeFrom first last cs).map (·.type) = mergedTypes last.type (cs.map (·.type))
  | [], first, last, htype, _, _ => congrArg (fun t => [t]) htype
  | c :: cs, first, last, htype, hlast, hlaid => by
    unfold mergeFrom
    cases hlaid with
    | cons hstart hplaced rest =>
      have hiff := joins_iff hlast hplaced hstart
      simp only [List.map_cons, mergedTypes]
      by_cases hj : last.joins c = true
      · obtain ⟨hl, hn⟩ := hiff.mp hj
        rw [if_pos hj, if_pos ⟨hl, hn⟩]
        exact mergeFrom_types cs first c (htype.trans (hl.trans hn.symm)) hplaced (hstart ▸ rest)
      · rw [if_neg hj, if_neg (fun h => hj (hiff.mpr h)), List.map_cons, mergeFrom_types cs c c rfl hplaced (hstart ▸ rest)]
        exact congrArg (· :: _) htype

/-- **Parallel lists stay parallel** under a merge. -/
theorem mergeAdjacent_types {pos' : ℕ} {cs' : List ImageChunk} (hlaid : Laid pos cs) (hlaid' : Laid pos' cs')
    (htypes : cs.map (·.type) = cs'.map (·.type)) :
    (mergeAdjacent cs).map (·.type) = (mergeAdjacent cs').map (·.type) := by
  cases hlaid with
  | nil =>
    cases hlaid' with
    | nil => rfl
    | cons => simp at htypes
  | cons hstart hplaced rest =>
    cases hlaid' with
    | nil => simp at htypes
    | cons hstart' hplaced' rest' =>
      simp only [List.map_cons, List.cons.injEq] at htypes
      show (mergeFrom _ _ _).map _ = (mergeFrom _ _ _).map _
      rw [mergeFrom_types _ _ _ rfl hplaced (hstart ▸ rest), mergeFrom_types _ _ _ rfl hplaced' (hstart' ▸ rest'),
        htypes.1, htypes.2]

/-- What holds of all chunks, and of runs of normal ones, holds behind a merge. -/
theorem forall_mergeFrom {P : ImageChunk → Prop} (hP : ∀ first last, first.type = .normal → P first → P (collapse first last)) :
    ∀ (cs : List ImageChunk) (first last : ImageChunk), (first = last ∨ first.type = .normal) → P first →
      (∀ c ∈ cs, P c) → ∀ c ∈ mergeFrom first last cs, P c
  | [], first, last, hshape, hf, _ => by
    intro c hc
    obtain rfl := List.mem_singleton.mp hc
    rcases hshape with rfl | hn
    · simpa using hf
    · exact hP first last hn hf
  | k :: cs, first, last, hshape, hf, hcs => by
    intro c hc
    unfold mergeFrom at hc
    by_cases hj : last.joins k = true
    · rw [if_pos hj] at hc
      have hn : first.type = .normal := by
        rcases hshape with rfl | hn
        · simp only [ImageChunk.joins, Bool.and_eq_true, beq_iff_eq] at hj
          exact hj.1.1.1
        · exact hn
      exact forall_mergeFrom hP cs first k (.inr hn) hf (fun c hc => hcs c (by simp [hc])) c hc
    · rw [if_neg hj] at hc
      rcases List.mem_cons.mp hc with rfl | hc
      · rcases hshape with rfl | hn
        · simpa using hf
        · exact hP first last hn hf
      · exact forall_mergeFrom hP cs k k (.inl rfl) (hcs k (by simp)) (fun c hc => hcs c (by simp [hc])) c hc

theorem forall_mergeAdjacent {P : ImageChunk → Prop}
    (hP : ∀ first last, first.type = .normal → P first → P (collapse first last)) (h : ∀ c ∈ cs, P c) :
    ∀ c ∈ mergeAdjacent cs, P c := by
  cases cs with
  | nil => exact h
  | cons k cs => exact forall_mergeFrom hP cs k k (.inl rfl) (h k (by simp)) fun c hc => h c (by simp [hc])

/-! ### Demoting -/

/-- The chunk, if it is still a deflate chunk, is what its parameters make of its data. -/
def Rebuildable (cod : Codecs) (file : Bytes) (c : ImageChunk) : Prop :=
  c.type = .deflate → ∀ d, c.data = .heap d → cod.deflate c.params d = some (c.span file) ∧ FitsInt c.params

/-- The chunk stands for the same bytes. -/
structure SamePlace (c c' : ImageChunk) : Prop where
  start : c'.start = c.start
  extent : c'.extent = c.extent
  I : c'.I = c.I
  filename : c'.filename = c.filename

theorem SamePlace.refl (c : ImageChunk) : SamePlace c c := ⟨rfl, rfl, rfl, rfl⟩

theorem SamePlace.trans {c c' c'' : ImageChunk} (h : SamePlace c c') (h' : SamePlace c' c'') : SamePlace c c'' :=
  ⟨h'.start.trans h.start, h'.extent.trans h.extent, h'.I.trans h.I, h'.filename.trans h.filename⟩

theorem change_ok (hc : ChunkOk cod file c) : ChunkOk cod file (changeDeflateChunkToNormal c) ∧
    (changeDeflateChunkToNormal c).type = .normal ∧ SamePlace c (changeDeflateChunkToNormal c) := by
  unfold changeDeflateChunkToNormal
  cases hc with
  | normal htype hdata hle =>
    rw [if_neg (by simp [htype])]
    exact ⟨.normal htype hdata hle, htype, .refl c⟩
  | deflate htype hdata hlen hsmall hplace hle hinf =>
    rw [if_pos htype]
    exact ⟨.normal rfl (by rw [hplace]) hle, rfl, rfl, by simp [ImageChunk.extent, htype], rfl, rfl⟩

theorem rebuildable_of_normal (htype : c.type = .normal) : Rebuildable cod file c := fun h => by simp [htype] at h

theorem ChunkOk.withParams (hc : ChunkOk cod file c) (params : DeflateParams) :
    ChunkOk cod file { c with params := params } := by
  cases hc with
  | normal htype hdata hle => exact .normal htype hdata hle
  | deflate htype hdata hlen hsmall hplace hle hinf => exact .deflate htype hdata hlen hsmall hplace hle hinf

theorem take_drop_pad (file pad : Bytes) {start len : ℕ} (hle : start + len ≤ file.length) :
    ((file ++ pad).drop start).take len = (file.drop start).take len := by
  rw [List.drop_append_of_le_length (by omega), List.take_append_of_le_length (by rw [List.length_drop]; omega)]

theorem tryReconstruction_ok {pad : Bytes} {params : DeflateParams} (hc : ChunkOk cod file c) (htype : c.type = .deflate)
    (hrun : tryReconstruction cod (file ++ pad) c params = .ok true) (d : Bytes) (hd : c.data = .heap d) :
    cod.deflate params d = some (c.span file) := by
  have hle := hc.extent_le
  have hext : c.extent = c.deflateLen := by simp [ImageChunk.extent, htype]
  unfold tryReconstruction at hrun
  rw [bytes_heap hd, ok_bind] at hrun
  cases hdef : cod.deflate params d with
  | none => simp [hdef] at hrun
  | some out =>
    simp only [hdef, pure_eq_ok, decide_eq_true_eq] at hrun
    obtain ⟨hout, hlen⟩ := hrun
    cases hc with
    | normal htype' => simp [htype] at htype'
    | deflate _ _ _ _ hplace hle' _ =>
      rw [hlen, hplace, take_drop_pad file pad hle'] at hout
      rw [← hout, ImageChunk.span, hext]

theorem fitsInt_paramsAt {level : ℤ} (h₁ : -2 ^ 31 ≤ level) (h₂ : level < 2 ^ 31) : FitsInt (paramsAt level) := by
  constructor <;> simp only [paramsAt] <;> omega

theorem reconstruct_ok {pad : Bytes} {c' : ImageChunk} (hc : ChunkOk cod file c) (htype : c.type = .deflate)
    (hrun : reconstructDeflateChunk cod (file ++ pad) c = .ok (some c')) :
    Rebuildable cod file c' ∧ ∃ params, c' = { c with params := params } := by
  -- whichever level succeeded
  have hlevel : ∀ level : ℤ, -2 ^ 31 ≤ level → level < 2 ^ 31 →
      tryReconstruction cod (file ++ pad) c (paramsAt level) = .ok true →
      Rebuildable cod file { c with params := paramsAt level } := by
    intro level h₁ h₂ htry _ d hd
    exact ⟨tryReconstruction_ok hc htype htry d hd, fitsInt_paramsAt h₁ h₂⟩
  unfold reconstructDeflateChunk at hrun
  rw [if_neg (by simp [htype])] at hrun
  obtain ⟨ok6, h6, hrun⟩ := bind_eq_ok.mp hrun
  cases ok6 with
  | true =>
    obtain rfl : { c with params := paramsAt 6 } = c' := by simpa [pure_eq_ok] using hrun
    exact ⟨hlevel 6 (by decide) (by decide) h6, _, rfl⟩
  | false =>
    simp only [Bool.false_eq_true, if_false] at hrun
    obtain ⟨ok9, h9, hrun⟩ := bind_eq_ok.mp hrun
    cases ok9 with
    | false => simp [pure_eq_ok] at hrun
    | true =>
      obtain rfl : { c with params := paramsAt 9 } = c' := by simpa [pure_eq_ok] using hrun
      exact ⟨hlevel 9 (by decide) (by decide) h9, _, rfl⟩

/-- What a pair of parallel chunks is after it was looked at. -/
structure PairOk (cod : Codecs) (source target : Bytes) (src tgt src' tgt' : ImageChunk) : Prop where
  src_ok : ChunkOk cod source src'
  tgt_ok : ChunkOk cod target tgt'
  src_place : SamePlace src src'
  tgt_place : SamePlace tgt tgt'
  types : src'.type = tgt'.type
  rebuildable : Rebuildable cod target tgt'

theorem demotePair_ok {source target pad pad' : Bytes} {src tgt src' tgt' : ImageChunk} (hsrc : ChunkOk cod source src)
    (htgt : ChunkOk cod target tgt) (htypes : src.type = tgt.type)
    (hrun : demotePair cod (source ++ pad) (target ++ pad') src tgt = .ok (src', tgt')) :
    PairOk cod source target src tgt src' tgt' := by
  unfold demotePair at hrun
  obtain ⟨hs₁, hs₂, hs₃⟩ := change_ok hsrc
  by_cases htype : tgt.type = .deflate
  · rw [if_pos htype] at hrun
    obtain ⟨rebuilt, hreb, hrun⟩ := bind_eq_ok.mp hrun
    cases rebuilt with
    | none =>
      obtain ⟨ht₁, ht₂, ht₃⟩ := change_ok htgt
      obtain ⟨rfl, rfl⟩ := Prod.mk.inj (pure_eq_ok.mp hrun)
      exact ⟨hs₁, ht₁, hs₃, ht₃, hs₂.trans ht₂.symm, rebuildable_of_normal ht₂⟩
    | some tgt₁ =>
      obtain ⟨hr, params, rfl⟩ := reconstruct_ok htgt htype hreb
      have htgt₁ := htgt.withParams params
      have hplace : SamePlace tgt { tgt with params := params } := ⟨rfl, rfl, rfl, rfl⟩
      obtain ⟨equal, _, hrun⟩ := bind_eq_ok.mp hrun
      cases equal with
      | true =>
        obtain ⟨ht₁, ht₂, ht₃⟩ := change_ok htgt₁
        obtain ⟨rfl, rfl⟩ := Prod.mk.inj (pure_eq_ok.mp hrun)
        exact ⟨hs₁, ht₁, hs₃, hplace.trans ht₃, hs₂.trans ht₂.symm, rebuildable_of_normal ht₂⟩
      | false =>
        obtain ⟨rfl, rfl⟩ := Prod.mk.inj (pure_eq_ok.mp hrun)
        exact ⟨hsrc, htgt₁, .refl _, hplace, htypes, hr⟩
  · rw [if_neg htype] at hrun
    obtain ⟨rfl, rfl⟩ := Prod.mk.inj (pure_eq_ok.mp hrun)
    exact ⟨hsrc, htgt, .refl _, .refl _, htypes, fun h => absurd h htype⟩

/-! ### Patching -/

variable {bz : Bzip cod}

theorem bsdiff_bridges {old new patch : Bytes} {IP : Option (List ℤ)} {I : List ℤ} (hIP : ∀ I, IP = some I → SuffixList old I)
    (hnew : new.length < 2 ^ 31) (hsteps : 2 ^ 31 < cod.steps) (hrun : bsdiff bz.compress old IP new = .ok (I, patch)) :
    SuffixList old I ∧ Bridges bz old new patch := by
  obtain ⟨r, hr, hI, out, hpatch, hscript, hcount⟩ := bsdiff_returns hIP bz.compress
  rw [hrun, Except.ok.injEq] at hr
  subst hr
  exact ⟨hI, hnew, out, hpatch, hscript, by omega⟩

/-- The suffix list a chunk has is one of its data. -/
def Cached (img : Bytes) (c : ImageChunk) : Prop := ∀ I old, c.I = some I → c.bytes img = .ok old → SuffixList old I

/-- A bsdiff patch between the data of two chunks is a patch of the target chunk. -/
theorem withSource_applies {source target pad pad' old new patch : Bytes} {src tgt : ImageChunk}
    (hsrc : ChunkOk cod source src) (htgt : ChunkOk cod target tgt) (hreb : Rebuildable cod target tgt)
    (htypes : src.type = tgt.type) (hold : src.bytes (source ++ pad) = .ok old)
    (hnew : tgt.bytes (target ++ pad') = .ok new) (hbridge : Bridges bz old new patch) :
    Applies bz source (tgt.withSource src, patch) (tgt.span target) := by
  unfold ImageChunk.withSource
  by_cases htype : tgt.type = .normal
  · have hstype := htypes.trans htype
    have hext : src.extent = src.len := by simp [ImageChunk.extent, hstype]
    have hle := hsrc.extent_le
    rw [htgt.bytes_normal htype pad', Except.ok.injEq] at hnew
    rw [hsrc.bytes_normal hstype pad, Except.ok.injEq] at hold
    subst hnew hold
    rw [ImageChunk.span, hext] at hbridge
    rw [if_neg (by simp [htype])]
    exact .normal htype (by simp only; omega) hbridge
  · cases htgt with
    | normal htype' => exact absurd htype' htype
    | deflate htype hdata =>
      have hstype := htypes.trans htype
      cases hsrc with
      | normal htype' => simp [hstype] at htype'
      | deflate _ hsdata hslen hsmall _ hle hinf =>
        rw [bytes_heap hdata, Except.ok.injEq] at hnew
        rw [bytes_heap hsdata, Except.ok.injEq] at hold
        subst hnew hold
        obtain ⟨hdef, hfits⟩ := hreb htype _ hdata
        rw [if_pos htype]
        exact .deflate htype hle hsmall (by simp only; rw [hslen]; exact hinf) hslen.symm hbridge hfits hdef

/-- **The patch of a chunk applies**, whether it is raw, normal or deflated. -/
theorem makePatch_applies {source target pad pad' patch : Bytes} {src tgt src' tgt' : ImageChunk}
    (hsrc : ChunkOk cod source src) (htgt : ChunkOk cod target tgt) (hreb : Rebuildable cod target tgt)
    (htypes : src.type = tgt.type) (hcached : Cached (source ++ pad) src) (htarget : target.length < 2 ^ 31)
    (hsteps : 2 ^ 31 < cod.steps)
    (hrun : makePatch bz (source ++ pad) (target ++ pad') src tgt = .ok (src', tgt', patch)) :
    Applies bz source (tgt', patch) (tgt.span target) ∧ Cached (source ++ pad) src' ∧ ∃ I, src' = { src with I := I } := by
  unfold makePatch at hrun
  obtain ⟨new, hnew, hrun⟩ := bind_eq_ok.mp hrun
  -- a chunk that is sent as it is
  have hraw : tgt.type = .normal → Applies bz source ({ tgt with type := .raw }, new) (tgt.span target) := by
    intro htype
    rw [htgt.bytes_normal htype pad', Except.ok.injEq] at hnew
    exact hnew ▸ .raw rfl
  by_cases hshort : tgt.type = .normal ∧ tgt.len ≤ 160
  · rw [if_pos hshort, pure_eq_ok] at hrun
    simp only [Prod.mk.injEq] at hrun
    obtain ⟨rfl, rfl, rfl⟩ := hrun
    exact ⟨hraw hshort.1, hcached, src.I, rfl⟩
  rw [if_neg hshort] at hrun
  obtain ⟨old, hold, hrun⟩ := bind_eq_ok.mp hrun
  obtain ⟨⟨I, p⟩, hdiff, hrun⟩ := bind_eq_ok.mp hrun
  obtain ⟨hI, hbridge⟩ := bsdiff_bridges (fun I h => hcached I old h hold) (htgt.bytes_lt htarget hnew) hsteps hdiff
  have hcached' : Cached (source ++ pad) { src with I := some I } := by
    intro I' old' hI' hold'
    obtain rfl := Option.some.inj hI'
    have : old' = old := Except.ok.inj (hold'.symm.trans hold)
    exact this ▸ hI
  simp only at hrun
  by_cases hbig : tgt.type = .normal ∧ tgt.len ≤ p.length
  · rw [if_pos hbig, pure_eq_ok] at hrun
    simp only [Prod.mk.injEq] at hrun
    obtain ⟨rfl, rfl, rfl⟩ := hrun
    exact ⟨hraw hbig.1, hcached', some I, rfl⟩
  · rw [if_neg hbig, pure_eq_ok] at hrun
    simp only [Prod.mk.injEq] at hrun
    obtain ⟨rfl, rfl, rfl⟩ := hrun
    have happ : Applies bz source (tgt.withSource src, p) (tgt.span target) :=
      withSource_applies hsrc htgt hreb htypes hold hnew hbridge
    exact ⟨happ, hcached', some I, rfl⟩

end Diff
end Recovery
