/-
# imgdiff and back, image mode

`ReadImage` tiles a file whose gzip members are complete (`readChunks_tiles`), the passes of
`main` keep source and target tiled and parallel (`demoteAll_ok`), and the patches apply
(`imgdiff_round_trip`).
-/
import Recovery.Diff.Chunks

namespace Recovery
namespace Diff

open Arrays Patch

variable {cod : Codecs} {z : Zlib cod} {bz : Bzip cod} {file source target : Bytes} {pos : ℕ}

/-- Every gzip member in the file is complete. -/
def Complete (z : Zlib cod) (file : Bytes) : Prop :=
  ∀ chunks, readImage z file = .ok chunks → ∀ c ∈ chunks, c.start + c.extent ≤ file.length

instance (z : Zlib cod) (file : Bytes) : Decidable (Complete z file) :=
  match h : readImage z file with
  | .ok cs => decidable_of_iff (∀ c ∈ cs, c.start + c.extent ≤ file.length)
      ⟨fun hall chunks hrun => by rw [h, Except.ok.injEq] at hrun; exact hrun ▸ hall, fun hc => hc cs h⟩
  | .error _ => isTrue fun chunks hrun => by rw [h] at hrun; cases hrun

/-! ### Reading -/

theorem findGzip_le (img : Bytes) : ∀ n i, findGzip img n i ≤ n
  | 0, _ => le_rfl
  | n + 1, i => by
    unfold findGzip
    split_ifs
    · omega
    · have := findGzip_le img n (i + 1)
      omega

theorem normalAt_ok {start len : ℕ} (hle : start + len ≤ file.length) : ChunkOk cod file (normalAt start len) :=
  .normal rfl rfl hle

@[simp] theorem extent_normalAt (start len : ℕ) : (normalAt start len).extent = len := rfl

theorem gzipMember_tiles (cs : List ImageChunk) {pos' : ℕ} {member : List ImageChunk}
    (hrun : gzipMember z file pos = .ok (member, pos'))
    (hin : ∀ c ∈ member, c.start + c.extent ≤ file.length) :
    pos' ≤ file.length ∧ (Tiles cod file pos' cs → Tiles cod file pos (member ++ cs)) := by
  unfold gzipMember at hrun
  obtain ⟨_, hhead, hrun⟩ := bind_eq_ok.mp hrun
  have hhead := failIf_eq_ok.mp hhead
  cases hall : z.inflateAll (file.drop (pos + gzipHeaderLen)) with
  | none => simp [hall] at hrun
  | some r =>
    obtain ⟨data, n⟩ := r
    simp only [hall] at hrun
    obtain ⟨footerSize, _, hrun⟩ := bind_eq_ok.mp hrun
    obtain ⟨_, hsize, hrun⟩ := bind_eq_ok.mp hrun
    have hsize := failIf_eq_ok.mp hsize
    obtain ⟨rfl, rfl⟩ := Prod.mk.inj (pure_eq_ok.mp hrun)
    have hfooter := hin (normalAt (pos + gzipHeaderLen + n) gzipFooterLen) (by simp)
    simp only [ImageChunk.extent, normalAt, reduceCtorEq, if_false] at hfooter
    -- the footer was compared as an `int`
    have hsmall : data.length < 2 ^ 31 := by
      have : s32 footerSize < 2 ^ 31 := Int.bmod_lt (by norm_num)
      push Not at hsize
      omega
    have hdeflate : ChunkOk cod file { type := .deflate, start := pos + gzipHeaderLen, len := data.length,
                                       data := .heap data, deflateLen := n, deflateData := pos + gzipHeaderLen } :=
      .deflate rfl rfl rfl hsmall rfl (by simp only; omega) (z.inflate_exact _ _ _ hall)
    refine ⟨hfooter, fun ht => .cons rfl (normalAt_ok (by omega)) (.cons rfl hdeflate (.cons rfl (normalAt_ok hfooter) ?_))⟩
    exact ht

/-- **`ReadImage` tiles the file** if all gzip members are complete. -/
theorem readChunks_tiles : ∀ (n pos : ℕ) {cs : List ImageChunk}, readChunks z file n pos = .ok cs →
    (∀ c ∈ cs, c.start + c.extent ≤ file.length) → pos ≤ file.length → Tiles cod file pos cs
  | 0, _, _, hrun, _, _ => by simp [readChunks] at hrun
  | n + 1, pos, cs, hrun, hin, hpos => by
    unfold readChunks at hrun
    by_cases hlt : pos < file.length
    · rw [if_pos hlt] at hrun
      by_cases hgz : 4 ≤ file.length - pos ∧ gzipAt (padded file) pos = true
      · rw [if_pos hgz] at hrun
        obtain ⟨⟨member, pos'⟩, hmember, hrun⟩ := bind_eq_ok.mp hrun
        obtain ⟨chunks, hchunks, hrun⟩ := bind_eq_ok.mp hrun
        obtain rfl := pure_eq_ok.mp hrun
        obtain ⟨hpos', hcons⟩ := gzipMember_tiles chunks hmember (fun c hc => hin c (List.mem_append_left _ hc))
        exact hcons (readChunks_tiles n pos' hchunks (fun c hc => hin c (List.mem_append_right _ hc)) hpos')
      · rw [if_neg hgz] at hrun
        obtain ⟨chunks, hchunks, hrun⟩ := bind_eq_ok.mp hrun
        obtain rfl := pure_eq_ok.mp hrun
        have hlen := findGzip_le (padded file) (file.length - pos) pos
        refine .cons rfl (normalAt_ok (by omega)) ?_
        rw [extent_normalAt]
        exact readChunks_tiles n _ hchunks (fun c hc => hin c (List.mem_cons_of_mem _ hc)) (by omega)
    · rw [if_neg hlt] at hrun
      obtain rfl := pure_eq_ok.mp hrun
      exact .nil (by omega)

theorem gzipMember_fresh {pos' : ℕ} {member : List ImageChunk} (hrun : gzipMember z file pos = .ok (member, pos')) :
    ∀ c ∈ member, c.I = none := by
  unfold gzipMember at hrun
  obtain ⟨_, _, hrun⟩ := bind_eq_ok.mp hrun
  cases hall : z.inflateAll (file.drop (pos + gzipHeaderLen)) with
  | none => simp [hall] at hrun
  | some r =>
    simp only [hall] at hrun
    obtain ⟨_, _, hrun⟩ := bind_eq_ok.mp hrun
    obtain ⟨_, _, hrun⟩ := bind_eq_ok.mp hrun
    obtain ⟨rfl, _⟩ := Prod.mk.inj (pure_eq_ok.mp hrun)
    simp [normalAt]

theorem readChunks_fresh : ∀ (n pos : ℕ) {cs : List ImageChunk}, readChunks z file n pos = .ok cs → ∀ c ∈ cs, c.I = none
  | 0, _, _, hrun => by simp [readChunks] at hrun
  | n + 1, pos, cs, hrun => by
    unfold readChunks at hrun
    intro c hc
    split_ifs at hrun
    · obtain ⟨⟨member, pos'⟩, hmember, hrun⟩ := bind_eq_ok.mp hrun
      obtain ⟨chunks, hchunks, hrun⟩ := bind_eq_ok.mp hrun
      obtain rfl := pure_eq_ok.mp hrun
      rcases List.mem_append.mp hc with hc | hc
      · exact gzipMember_fresh hmember c hc
      · exact readChunks_fresh n pos' hchunks c hc
    · obtain ⟨chunks, hchunks, hrun⟩ := bind_eq_ok.mp hrun
      obtain rfl := pure_eq_ok.mp hrun
      rcases List.mem_cons.mp hc with rfl | hc
      · rfl
      · exact readChunks_fresh n _ hchunks c hc
    · obtain rfl := pure_eq_ok.mp hrun
      simp at hc

theorem Complete.tiles {chunks : List ImageChunk} (hc : Complete z file) (hrun : readImage z file = .ok chunks) :
    Tiles cod file 0 chunks := readChunks_tiles _ 0 hrun (hc chunks hrun) (by omega)

/-! ### Parallel chunks -/

/-- A pair of parallel chunks that `MakePatch` can be called on. -/
structure Paired (cod : Codecs) (source target : Bytes) (p : ImageChunk × ImageChunk) : Prop where
  src_ok : ChunkOk cod source p.1
  tgt_ok : ChunkOk cod target p.2
  types : p.1.type = p.2.type

theorem demoteAll_ok {pad pad' : Bytes} : ∀ {pairs pairs' : List (ImageChunk × ImageChunk)},
    (∀ p ∈ pairs, Paired cod source target p) → demoteAll cod (source ++ pad) (target ++ pad') pairs = .ok pairs' →
    List.Forall₂ (fun p p' => PairOk cod source target p.1 p.2 p'.1 p'.2) pairs pairs'
  | [], pairs', _, hrun => by
    obtain rfl := pure_eq_ok.mp hrun
    exact .nil
  | (src, tgt) :: pairs, pairs', hpairs, hrun => by
    unfold demoteAll at hrun
    obtain ⟨⟨src', tgt'⟩, hpair, hrun⟩ := bind_eq_ok.mp hrun
    obtain ⟨rest, hrest, hrun⟩ := bind_eq_ok.mp hrun
    obtain rfl := pure_eq_ok.mp hrun
    have h := hpairs (src, tgt) (by simp)
    exact .cons (demotePair_ok h.src_ok h.tgt_ok h.types hpair)
      (demoteAll_ok (fun p hp => hpairs p (List.mem_cons_of_mem _ hp)) hrest)

theorem patchAll_applies {pad pad' : Bytes} (htarget : target.length < 2 ^ 31) (hsteps : 2 ^ 31 < cod.steps) :
    ∀ {pairs : List (ImageChunk × ImageChunk)} {ps : List Patched},
    (∀ p ∈ pairs, Paired cod source target p ∧ Rebuildable cod target p.2 ∧ p.1.I = none) →
    patchAll bz (source ++ pad) (target ++ pad') pairs = .ok ps →
    List.Forall₂ (Applies bz source) ps (pairs.map (·.2.span target))
  | [], ps, _, hrun => by
    obtain rfl := pure_eq_ok.mp hrun
    exact .nil
  | (src, tgt) :: pairs, ps, hpairs, hrun => by
    unfold patchAll at hrun
    obtain ⟨⟨src', tgt', patch⟩, hmake, hrun⟩ := bind_eq_ok.mp hrun
    obtain ⟨rest, hrest, hrun⟩ := bind_eq_ok.mp hrun
    obtain rfl := pure_eq_ok.mp hrun
    obtain ⟨hpair, hreb, hI⟩ := hpairs (src, tgt) (by simp)
    have hcached : Cached (source ++ pad) src := fun I old h => by rw [show src.I = none from hI] at h; cases h
    refine .cons (makePatch_applies hpair.src_ok hpair.tgt_ok hreb hpair.types hcached htarget hsteps hmake).1 ?_
    exact patchAll_applies htarget hsteps (fun p hp => hpairs p (List.mem_cons_of_mem _ hp)) hrest

theorem types_zip {src tgt : List ImageChunk} (htypes : src.map (·.type) = tgt.map (·.type)) :
    ∀ p ∈ src.zip tgt, p.1.type = p.2.type := by
  have hall : List.Forall₂ (fun a b : ImageChunk => a.type = b.type) src tgt := by
    rw [← List.forall₂_eq_eq_eq, List.forall₂_map_left_iff, List.forall₂_map_right_iff] at htypes
    exact htypes
  exact fun p hp => (List.forall₂_iff_zip.mp hall).2 hp

theorem paired_zip {src tgt : List ImageChunk} (hsrc : ∀ c ∈ src, ChunkOk cod source c)
    (htgt : ∀ c ∈ tgt, ChunkOk cod target c) (htypes : src.map (·.type) = tgt.map (·.type)) :
    ∀ p ∈ src.zip tgt, Paired cod source target p := by
  intro p hp
  obtain ⟨h₁, h₂⟩ := List.of_mem_zip hp
  exact ⟨hsrc _ h₁, htgt _ h₂, types_zip htypes p hp⟩

theorem Tiles.forall_ok {cs : List ImageChunk} (ht : Tiles cod file pos cs) : ∀ c ∈ cs, ChunkOk cod file c := by
  induction ht with
  | nil => simp
  | cons _ hok _ ih => exact List.forall_mem_cons.mpr ⟨hok, ih⟩

theorem Tiles.replace {cs cs' : List ImageChunk} (ht : Tiles cod file pos cs)
    (hall : List.Forall₂ (fun c c' => SamePlace c c' ∧ ChunkOk cod file c') cs cs') : Tiles cod file pos cs' := by
  induction ht generalizing cs' with
  | nil hpos =>
    cases hall
    exact .nil hpos
  | cons hstart hok rest ih =>
    cases hall with
    | cons h hrest =>
      obtain ⟨hplace, hok'⟩ := h
      refine .cons (hplace.start.trans hstart) hok' ?_
      rw [hplace.extent]
      exact ih hrest

theorem forall_right {α β : Type} {R : α → β → Prop} {as : List α} {bs : List β} (h : List.Forall₂ R as bs) :
    ∀ b ∈ bs, ∃ a ∈ as, R a b := by
  induction h with
  | nil => simp
  | cons hab _ ih =>
    intro b hb
    rcases List.mem_cons.mp hb with rfl | hb
    · exact ⟨_, List.mem_cons_self, hab⟩
    · obtain ⟨a, ha, hr⟩ := ih b hb
      exact ⟨a, List.mem_cons_of_mem _ ha, hr⟩

/-- What the demoting pass leaves of two tiled, parallel lists. -/
structure Demoted (cod : Codecs) (source target : Bytes) (pairs : List (ImageChunk × ImageChunk)) : Prop where
  src : Tiles cod source 0 (pairs.map (·.1))
  tgt : Tiles cod target 0 (pairs.map (·.2))
  types : (pairs.map (·.1)).map (·.type) = (pairs.map (·.2)).map (·.type)
  rebuildable : ∀ c ∈ pairs.map (·.2), Rebuildable cod target c
  fresh : ∀ c ∈ pairs.map (·.1), c.I = none

theorem demoteAll_demoted {pad pad' : Bytes} {src tgt : List ImageChunk} {pairs : List (ImageChunk × ImageChunk)}
    (hsrc : Tiles cod source 0 src) (htgt : Tiles cod target 0 tgt) (htypes : src.map (·.type) = tgt.map (·.type))
    (hfresh : ∀ c ∈ src, c.I = none)
    (hrun : demoteAll cod (source ++ pad) (target ++ pad') (src.zip tgt) = .ok pairs) : Demoted cod source target pairs := by
  have hlen : src.length = tgt.length := by simpa using congrArg List.length htypes
  have hall := demoteAll_ok (paired_zip hsrc.forall_ok htgt.forall_ok htypes) hrun
  have hfst : (src.zip tgt).map (·.1) = src := List.map_fst_zip hlen.le
  have hsnd : (src.zip tgt).map (·.2) = tgt := List.map_snd_zip hlen.ge
  refine ⟨hsrc.replace ?_, htgt.replace ?_, ?_, ?_, ?_⟩
  · rw [← hfst, List.forall₂_map_left_iff, List.forall₂_map_right_iff]
    exact hall.imp fun p p' h => ⟨h.src_place, h.src_ok⟩
  · rw [← hsnd, List.forall₂_map_left_iff, List.forall₂_map_right_iff]
    exact hall.imp fun p p' h => ⟨h.tgt_place, h.tgt_ok⟩
  · rw [List.map_map, List.map_map]
    refine List.map_congr_left fun p' hp' => ?_
    obtain ⟨p, _, h⟩ := forall_right hall p' hp'
    exact h.types
  · intro c hc
    obtain ⟨p', hp', rfl⟩ := List.mem_map.mp hc
    obtain ⟨p, _, h⟩ := forall_right hall p' hp'
    exact h.rebuildable
  · intro c hc
    obtain ⟨p', hp', rfl⟩ := List.mem_map.mp hc
    obtain ⟨p, hp, h⟩ := forall_right hall p' hp'
    exact h.src_place.I.trans (hfresh _ (List.of_mem_zip hp).1)

theorem mergeAdjacent_fresh {cs : List ImageChunk} (hfresh : ∀ c ∈ cs, c.I = none) : ∀ c ∈ mergeAdjacent cs, c.I = none :=
  forall_mergeAdjacent (fun _ _ _ h => h) hfresh

theorem mergeAdjacent_rebuildable {cs : List ImageChunk} (hreb : ∀ c ∈ cs, Rebuildable cod target c) :
    ∀ c ∈ mergeAdjacent cs, Rebuildable cod target c :=
  forall_mergeAdjacent (fun _ _ hn _ => rebuildable_of_normal hn) hreb

theorem Demoted.applies {pad pad' : Bytes} {pairs : List (ImageChunk × ImageChunk)} {ps : List Patched}
    (hd : Demoted cod source target pairs) (htarget : target.length < 2 ^ 31) (hsteps : 2 ^ 31 < cod.steps)
    (hrun : patchAll bz (source ++ pad) (target ++ pad')
      ((mergeAdjacent (pairs.map (·.1))).zip (mergeAdjacent (pairs.map (·.2)))) = .ok ps) :
    ∃ outs, List.Forall₂ (Applies bz source) ps outs ∧ outs.flatten = target := by
  have hsrc := mergeAdjacent_tiles hd.src
  have htgt := mergeAdjacent_tiles hd.tgt
  have htypes := mergeAdjacent_types hd.src.laid hd.tgt.laid hd.types
  have hlen := congrArg List.length htypes
  rw [List.length_map, List.length_map] at hlen
  have happ := patchAll_applies htarget hsteps (fun p hp => ⟨paired_zip hsrc.forall_ok htgt.forall_ok htypes p hp,
    mergeAdjacent_rebuildable hd.rebuildable _ (List.of_mem_zip hp).2,
    mergeAdjacent_fresh hd.fresh _ (List.of_mem_zip hp).1⟩) hrun
  refine ⟨_, happ, ?_⟩
  have hspans := htgt.flatten
  rw [List.drop_zero, ← List.map_snd_zip hlen.ge, List.map_map] at hspans
  exact hspans

/-- **imgdiff round trip, image mode.** If every gzip member found in source and target is complete and `imgdiff`
exits with 0, `ApplyImagePatch` makes the target of the source and the patch. -/
theorem imgdiff_round_trip (z : Zlib cod) (bz : Bzip cod) (hsteps : 2 ^ 31 < cod.steps) (source target : Bytes)
    (hsource : source.length < 2 ^ 31) (htarget : target.length < 2 ^ 31) (hcs : Complete z source)
    (hct : Complete z target) (p : Bytes) (hrun : imgdiff z bz source target = .ok p) (patch : Value)
    (hpatch : patch.data = p) :
    applyImagePatch cod memorySink source patch none ⟨[], []⟩ = pure (0, ⟨target, target⟩) := by
  unfold imgdiff at hrun
  obtain ⟨src, hsrc, hrun⟩ := bind_eq_ok.mp hrun
  obtain ⟨tgt, htgt, hrun⟩ := bind_eq_ok.mp hrun
  obtain ⟨_, _, hrun⟩ := bind_eq_ok.mp hrun
  obtain ⟨_, htypes, hrun⟩ := bind_eq_ok.mp hrun
  obtain ⟨pairs, hpairs, hrun⟩ := bind_eq_ok.mp hrun
  obtain ⟨_, _, hrun⟩ := bind_eq_ok.mp hrun
  obtain ⟨ps, hps, hrun⟩ := bind_eq_ok.mp hrun
  have hd : Demoted cod source target pairs :=
    demoteAll_demoted (mergeAdjacent_tiles (hcs.tiles hsrc)) (mergeAdjacent_tiles (hct.tiles htgt))
      (not_not.mp (failIf_eq_ok.mp htypes)) (mergeAdjacent_fresh (readChunks_fresh _ _ hsrc)) hpairs
  obtain ⟨outs, happ, hflat⟩ := hd.applies htarget hsteps hps
  rw [apply_imagePatch hsource happ patch (hpatch.trans (pure_eq_ok.mp hrun).symm), hflat]

/-! ### A gzip member that grows by a byte -/

theorem zStreams_unique : ∀ s ∈ zStreams, ∀ t ∈ zStreams, s.2 = t.2 → s = t := by decide +kernel

def knownZlib : Zlib knownCodecs where
  inflateAll := fun b => (zStreams.find? (·.2.isPrefixOf b)).map fun s => (s.1, s.2.length)
  inflateAll_le := by
    intro b d n h
    obtain ⟨s, hfind, hs⟩ := Option.map_eq_some_iff.mp h
    have hp := List.isPrefixOf_iff_prefix.mp (List.find?_some (p := fun t : Bytes × Bytes => t.2.isPrefixOf b) hfind)
    rw [← (Prod.mk.inj hs).2]
    exact hp.length_le
  inflate_exact := by
    intro b d n h
    obtain ⟨s, hfind, hs⟩ := Option.map_eq_some_iff.mp h
    obtain ⟨rfl, rfl⟩ := Prod.mk.inj hs
    have hmem := List.mem_of_find?_eq_some hfind
    obtain ⟨rest, rfl⟩ :=
      List.isPrefixOf_iff_prefix.mp (List.find?_some (p := fun t : Bytes × Bytes => t.2.isPrefixOf b) hfind)
    have hkey : zStreams.find? (·.2 == s.2) = some s := by
      cases hk : zStreams.find? (·.2 == s.2) with
      | none =>
        have := List.find?_eq_none.mp hk s hmem
        simp at this
      | some t =>
        have ht : t.2 = s.2 := beq_iff_eq.mp (List.find?_some (p := fun t : Bytes × Bytes => t.2 == s.2) hk)
        rw [zStreams_unique t (List.mem_of_find?_eq_some hk) s hmem ht]
    rw [List.take_left]
    show (match zStreams.find? (·.2 == s.2) with
      | some s' => if s.1.length < s'.1.length then (zOk, s'.1.take s.1.length) else (zStreamEnd, s'.1)
      | none => (-3, [])) = _
    rw [hkey]
    exact if_neg (lt_irrefl _)

def abcGz : Bytes :=
  [0x1f, 0x8b, 0x08, 0x00, 0x00, 0x00, 0x00, 0x00, 0x00, 0x03, 0x4b, 0x4c, 0x4a, 0x06, 0x00, 0xc2, 0x41, 0x24, 0x35, 0x03,
   0x00, 0x00, 0x00]

def abcdGz : Bytes :=
  [0x1f, 0x8b, 0x08, 0x00, 0x00, 0x00, 0x00, 0x00, 0x00, 0x03, 0x4b, 0x4c, 0x4a, 0x4e, 0x01, 0x00, 0x11, 0xcd, 0x82, 0xed,
   0x04, 0x00, 0x00, 0x00]

def abcdDiff : Bytes := patchFile knownCompress 4 ⟨[(3, 1, -1)], [0, 0, 0], lit "d"⟩

/-- The image patch: the header as it is, the data patched uncompressed, the footer as it is. -/
def gzPatch : Value where
  isBlob := true
  data := lit "IMGDIFF2" ++ (write4 3 ++
    ((write4 3 ++ (write4 10 ++ abcdGz.take 10)) ++
     ((write4 2 ++ (write8 10 ++ (write8 5 ++ (write8 110 ++ (write8 3 ++ (write8 4 ++
       (write4 6 ++ (write4 8 ++ (write4 (-15) ++ (write4 8 ++ write4 0)))))))))) ++
      ((write4 3 ++ (write4 8 ++ abcdGz.drop 16)) ++ abcdDiff))))
  size_lt := by decide +kernel

theorem imgdiff_round_trip_gz : imgdiff knownZlib knownBzip abcGz abcdGz = .ok gzPatch.data ∧ Complete knownZlib abcGz ∧
    Complete knownZlib abcdGz ∧
    applyImagePatch knownCodecs memorySink abcGz gzPatch none ⟨[], []⟩ = pure (0, ⟨abcdGz, abcdGz⟩) := by
  have hrun : imgdiff knownZlib knownBzip abcGz abcdGz = .ok gzPatch.data := by decide +kernel
  have hs : Complete knownZlib abcGz := by decide +kernel
  have ht : Complete knownZlib abcdGz := by decide +kernel
  have hsteps : 2 ^ 31 < knownCodecs.steps := Nat.lt_succ_self _
  exact ⟨hrun, hs, ht, imgdiff_round_trip knownZlib knownBzip hsteps abcGz abcdGz (by decide) (by decide) hs ht _ hrun
    gzPatch rfl⟩

end Diff
end Recovery
