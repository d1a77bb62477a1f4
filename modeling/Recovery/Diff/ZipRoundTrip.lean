/-
# imgdiff and back, zip mode

`ReadZip` tiles an archive whose deflated entries lie apart (`readZip_returns`). The
demoting loop takes source chunks away while it goes over the target, but with distinct
names every deflate chunk left in the target finds its source chunk (`Backed`,
`demoteZip_backed`).

Key theorem: `imgdiffZip_round_trip`.
-/
import Recovery.Diff.ImgRoundTrip

namespace Recovery
namespace Diff

open Arrays Patch

variable {cod : Codecs} {bz : Bzip cod} {file source target : Bytes} {pos : ℕ}

/-! ### Well-formed archives -/

def ZipFileEntry.stored (file : Bytes) (e : ZipFileEntry) : Bytes :=
  (file.drop e.dataOffset.toNat).take e.deflateLen.toNat

def ZipFileEntry.before (a b : ZipFileEntry) : Prop := a.dataOffset + a.deflateLen ≤ b.dataOffset

/-- The deflated entries are disjoint, have the sizes the directory says and distinct names. -/
structure WellFormedZip (cod : Codecs) (file : Bytes) (entries : List ZipFileEntry) : Prop where
  read : zipEntries file = .ok entries
  inside : ∀ e ∈ entries, 0 ≤ e.dataOffset ∧ 0 < e.deflateLen ∧ e.dataOffset + e.deflateLen ≤ file.length
  disjoint : entries.Pairwise fun a b => a.before b ∨ b.before a
  sizes : ∀ e ∈ entries, ∃ d : Bytes, (d.length : ℤ) = e.uncompLen ∧
    cod.inflate (e.stored file) d.length = (zStreamEnd, d)
  names : entries.Pairwise fun a b => a.filename ≠ b.filename

/-! ### Reading -/

theorem read4_lt {b : Bytes} {i v : ℤ} (h : read4 b i = .ok v) : v < 2 ^ 31 := by
  obtain ⟨r, _, h⟩ := bind_eq_ok.mp h
  rw [← pure_eq_ok.mp h]
  exact Int.bmod_lt (by norm_num)

theorem readEntry_small {img : Bytes} {cd next : ℤ} {e : ZipFileEntry} (hrun : readEntry img cd = .ok (some e, next)) :
    e.uncompLen < 2 ^ 31 := by
  simp only [readEntry, bind_eq_ok] at hrun
  obtain ⟨_, -, _, -, _, -, ulen, hulen, _, -, _, -, _, -, _, -, _, -, method, -, hrun⟩ := hrun
  by_cases hmethod : method ≠ 8
  · rw [if_pos hmethod] at hrun
    exact absurd (Prod.mk.inj (pure_eq_ok.mp hrun)).1 (by simp)
  · simp only [if_neg hmethod, bind_eq_ok] at hrun
    obtain ⟨_, -, _, -, _, -, _, -, _, -, _, -, _, -, hrun⟩ := hrun
    obtain rfl := Option.some.inj (Prod.mk.inj (pure_eq_ok.mp hrun)).1
    exact read4_lt hulen

theorem readEntries_small {img : Bytes} : ∀ (n : ℕ) (cd : ℤ) {entries : List ZipFileEntry},
    readEntries img n cd = .ok entries → ∀ e ∈ entries, e.uncompLen < 2 ^ 31
  | 0, _, _, hrun => by
    obtain rfl := pure_eq_ok.mp hrun
    simp
  | n + 1, cd, entries, hrun => by
    unfold readEntries at hrun
    obtain ⟨⟨entry, next⟩, hentry, hrun⟩ := bind_eq_ok.mp hrun
    obtain ⟨rest, hrest, hrun⟩ := bind_eq_ok.mp hrun
    obtain rfl := pure_eq_ok.mp hrun
    intro e he
    rcases List.mem_append.mp he with he | he
    · obtain rfl := Option.mem_toList.mp he
      exact readEntry_small hentry
    · exact readEntries_small n next hrest e he

theorem zipEntries_small {img : Bytes} {entries : List ZipFileEntry} (hrun : zipEntries img = .ok entries) :
    ∀ e ∈ entries, e.uncompLen < 2 ^ 31 := by
  simp only [zipEntries, bind_eq_ok] at hrun
  obtain ⟨_, -, _, -, _, -, _, -, _, -, hrun⟩ := hrun
  exact readEntries_small _ _ hrun

/-- An entry that the loop of `ReadZip` can make a chunk of. -/
structure EntryOk (cod : Codecs) (file : Bytes) (e : ZipFileEntry) : Prop where
  inside : 0 ≤ e.dataOffset ∧ 0 < e.deflateLen ∧ e.dataOffset + e.deflateLen ≤ file.length
  small : e.uncompLen < 2 ^ 31
  size : ∃ d : Bytes, (d.length : ℤ) = e.uncompLen ∧ cod.inflate (e.stored file) d.length = (zStreamEnd, d)

theorem entryChunk_returns {e : ZipFileEntry} (he : EntryOk cod file e) :
    Returns (entryChunk cod file e) fun c => ChunkOk cod file c ∧ c.start = e.dataOffset.toNat ∧
      c.type = .deflate ∧ c.deflateLen = e.deflateLen.toNat ∧ c.filename = some e.filename ∧ c.I = none := by
  obtain ⟨h0, hpos, hle⟩ := he.inside
  obtain ⟨d, hd, hinf⟩ := he.size
  have hsmall := he.small
  have hulen : e.uncompLen.toNat = d.length := by omega
  have hinput : inputAt file e.dataOffset e.deflateLen = ⟨e.stored file, false⟩ := by
    unfold inputAt
    rw [if_pos h0, Input.mk.injEq]
    exact ⟨rfl, decide_eq_false (by omega)⟩
  unfold entryChunk
  rw [failIf_bind, if_neg (by omega), hinput, hulen]
  simp only [hinf]
  refine .step rfl (.step rfl (.pure ⟨.deflate rfl (d := d) ?_ rfl (by omega) rfl ?_ hinf, rfl, rfl, rfl, rfl, rfl⟩))
  · simp
  · show e.dataOffset.toNat + e.deflateLen.toNat ≤ file.length
    omega

/-- The chunks of an archive from `pos` on, where `entries` are left. -/
structure ZipChunks (cod : Codecs) (file : Bytes) (pos : ℕ) (entries : List ZipFileEntry) (cs : List ImageChunk) : Prop where
  tiles : Tiles cod file pos cs
  fresh : ∀ c ∈ cs, c.I = none
  named : ∀ c ∈ cs, c.type = .deflate → ∃ e ∈ entries, c.filename = some e.filename
  distinct : cs.Pairwise fun a b => a.type = .deflate → b.type = .deflate → a.filename ≠ b.filename

theorem ZipChunks.normal {len : ℕ} {entries : List ZipFileEntry} {cs : List ImageChunk} (hle : pos + len ≤ file.length)
    (h : ZipChunks cod file (pos + len) entries cs) : ZipChunks cod file pos entries (normalAt pos len :: cs) where
  tiles := .cons rfl (normalAt_ok hle) h.tiles
  fresh := List.forall_mem_cons.mpr ⟨rfl, h.fresh⟩
  named := List.forall_mem_cons.mpr ⟨fun h => by simp [normalAt] at h, h.named⟩
  distinct := List.pairwise_cons.mpr ⟨fun b _ ha => by simp [normalAt] at ha, h.distinct⟩

theorem ZipChunks.deflate {e : ZipFileEntry} {entries : List ZipFileEntry} {c : ImageChunk} {cs : List ImageChunk}
    (hstart : c.start = pos) (hok : ChunkOk cod file c) (htype : c.type = .deflate) (hI : c.I = none)
    (hname : c.filename = some e.filename) (hne : ∀ e' ∈ entries, e.filename ≠ e'.filename)
    (h : ZipChunks cod file (pos + c.deflateLen) entries cs) : ZipChunks cod file pos (e :: entries) (c :: cs) where
  tiles := .cons hstart hok (by rw [show c.extent = c.deflateLen by simp [ImageChunk.extent, htype]]; exact h.tiles)
  fresh := List.forall_mem_cons.mpr ⟨hI, h.fresh⟩
  named := by
    refine List.forall_mem_cons.mpr ⟨fun _ => ⟨e, by simp, hname⟩, fun c' hc' htype' => ?_⟩
    obtain ⟨e', he', hn⟩ := h.named c' hc' htype'
    exact ⟨e', List.mem_cons_of_mem _ he', hn⟩
  distinct := by
    refine List.pairwise_cons.mpr ⟨fun c' hc' _ htype' => ?_, h.distinct⟩
    obtain ⟨e', he', hn⟩ := h.named c' hc' htype'
    rw [hname, hn]
    exact fun heq => hne e' he' (Option.some.inj heq)

/-- **The loop of `ReadZip` tiles the file** with entries that lie one behind the other. -/
theorem tileZip_returns : ∀ (entries : List ZipFileEntry) (n pos : ℕ), 2 * entries.length + 2 ≤ n → pos ≤ file.length →
    (∀ e ∈ entries, EntryOk cod file e ∧ (pos : ℤ) ≤ e.dataOffset) → entries.Pairwise ZipFileEntry.before →
    entries.Pairwise (fun a b => a.filename ≠ b.filename) →
    Returns (tileZip cod file n pos entries) (ZipChunks cod file pos entries)
  | [], 0, _, hn, _, _, _, _ | [], 1, _, hn, _, _, _, _ | _ :: _, 0, _, hn, _, _, _, _ => by simp at hn
  | _ :: _, 1, _, hn, _, _, _, _ => by simp at hn
  | [], n + 2, pos, _, hpos, _, _, _ => by
    have hend : ZipChunks cod file file.length [] [] := ⟨.nil rfl, by simp, by simp, .nil⟩
    unfold tileZip
    by_cases hlt : pos < file.length
    · rw [if_pos hlt]
      have hrest : tileZip cod file (n + 1) file.length [] = .ok [] := by
        unfold tileZip
        rw [if_neg (by omega)]
        rfl
      refine .step hrest (.pure (ZipChunks.normal (by omega) ?_))
      rw [Nat.add_sub_cancel' hpos]
      exact hend
    · rw [if_neg hlt]
      obtain rfl : pos = file.length := by omega
      exact .pure hend
  | e :: entries, n + 2, pos, hn, hpos, hok, hsorted, hnames => by
    obtain ⟨hentry, hle⟩ := hok e (by simp)
    obtain ⟨h0, h1, h2⟩ := hentry.inside
    have hbefore := (List.pairwise_cons.mp hsorted).1
    have hplace : ∀ c : ImageChunk, c.deflateLen = e.deflateLen.toNat →
        ((e.dataOffset.toNat + c.deflateLen : ℕ) : ℤ) ≤ e.dataOffset + e.deflateLen := fun c hlen => by omega
    simp only [List.length_cons] at hn
    -- from the entry's place on
    have hhere : ∀ m, 2 * entries.length + 2 ≤ m →
        Returns (tileZip cod file (m + 1) e.dataOffset.toNat (e :: entries))
          (ZipChunks cod file e.dataOffset.toNat (e :: entries)) := by
      intro m hm
      unfold tileZip
      rw [if_pos (by omega)]
      simp only
      rw [if_pos (by omega)]
      refine .bind (entryChunk_returns hentry) ?_
      intro c ⟨hc, hstart, htype, hlen, hname, hI⟩
      have hrest := tileZip_returns entries m (e.dataOffset.toNat + c.deflateLen) hm (by omega)
        (fun e' he' => ⟨(hok e' (List.mem_cons_of_mem _ he')).1, (hplace c hlen).trans (hbefore e' he')⟩)
        (List.pairwise_cons.mp hsorted).2 (List.pairwise_cons.mp hnames).2
      refine .bind hrest ?_
      intro cs hcs
      exact .pure (hcs.deflate hstart hc htype hI hname (List.pairwise_cons.mp hnames).1)
    by_cases hat : (pos : ℤ) = e.dataOffset
    · obtain rfl : pos = e.dataOffset.toNat := by omega
      exact hhere (n + 1) (by omega)
    · unfold tileZip
      rw [if_pos (by omega)]
      simp only
      rw [if_neg hat, failIf_bind, if_neg (by omega)]
      refine .bind (hhere n (by omega)) ?_
      intro cs hcs
      refine .pure (ZipChunks.normal (by omega) ?_)
      rw [show pos + (e.dataOffset.toNat - pos) = e.dataOffset.toNat by omega]
      exact hcs

instance : Std.Total entryLe := ⟨fun a b => le_total a.dataOffset b.dataOffset⟩
instance : IsTrans ZipFileEntry entryLe := ⟨fun _ _ _ h₁ h₂ => Int.le_trans h₁ h₂⟩

/-- **`ReadZip` tiles a well-formed archive.** -/
theorem readZip_returns {entries : List ZipFileEntry} (hw : WellFormedZip cod file entries) :
    Returns (readZip cod file) (ZipChunks cod file 0 (entries.insertionSort entryLe)) := by
  have hperm := List.perm_insertionSort entryLe entries
  have hmem : ∀ e, e ∈ entries.insertionSort entryLe → e ∈ entries := fun e => hperm.mem_iff.mp
  refine .step hw.read (tileZip_returns _ _ _ ?_ (by omega) ?_ ?_ ?_)
  · rw [hperm.length_eq]
  · intro e he
    have hin := hw.inside e (hmem e he)
    exact ⟨⟨hin, zipEntries_small hw.read e (hmem e he), hw.sizes e (hmem e he)⟩, by omega⟩
  · -- of two entries that lie apart, the one with the smaller offset is in front
    have hapart := (hperm.pairwise_iff (fun h => h.symm)).mpr hw.disjoint
    refine ((List.pairwise_insertionSort entryLe entries).and hapart).imp_of_mem ?_
    intro a b ha hb ⟨hle, h⟩
    rcases h with h | h
    · exact h
    · have := (hw.inside b (hmem b hb)).2.1
      unfold entryLe at hle
      unfold ZipFileEntry.before at h ⊢
      omega
  · exact (hperm.pairwise_iff (fun h => h.symm)).mpr hw.names

/-! ### Demoting -/

/-- A deflate chunk of the name is among the source chunks. -/
def Backed (srcs : List ImageChunk) (name : Option Bytes) : Prop :=
  name.isSome ∧ ∃ c ∈ srcs, c.type = .deflate ∧ c.filename = name

theorem findChunkByName_some {name : Option Bytes} {srcs : List ImageChunk} {i : ℕ}
    (h : findChunkByName name srcs = some i) :
    name.isSome ∧ ∃ hi : i < srcs.length, srcs[i].type = .deflate ∧ srcs[i].filename = name := by
  obtain ⟨hi, hp, _⟩ := List.findIdx?_eq_some_iff_getElem.mp h
  simp only [Bool.and_eq_true, beq_iff_eq] at hp
  exact ⟨hp.2 ▸ hp.1.2, hi, hp.1.1, hp.2⟩

theorem Backed.find {name : Option Bytes} {srcs : List ImageChunk} (h : Backed srcs name) :
    ∃ i, findChunkByName name srcs = some i := by
  obtain ⟨hsome, c, hc, htype, hname⟩ := h
  have hex : (findChunkByName name srcs).isSome := by
    unfold findChunkByName
    rw [List.findIdx?_isSome]
    exact List.any_eq_true.mpr ⟨c, hc, by simp [htype, hname, hsome]⟩
  exact Option.isSome_iff_exists.mp hex

theorem backed_of_find {name : Option Bytes} {srcs : List ImageChunk} {i : ℕ} (h : findChunkByName name srcs = some i) :
    Backed srcs name := by
  obtain ⟨hsome, hi, htype, hname⟩ := findChunkByName_some h
  exact ⟨hsome, srcs[i], List.getElem_mem hi, htype, hname⟩

/-- The first source chunk is normal, and the suffix list of each is one of its data. -/
structure SourcesOk (cod : Codecs) (source : Bytes) (srcs : List ImageChunk) : Prop where
  first : ∃ c, srcs[0]? = some c ∧ c.type = .normal
  ok : ∀ c ∈ srcs, ChunkOk cod source c ∧ Cached source c

theorem mem_modify {α : Type} {f : α → α} : ∀ {l : List α} {i : ℕ} {a : α}, a ∈ l.modify i f → a ∈ l ∨ ∃ b ∈ l, a = f b
  | [], _, _, h => by simp at h
  | b :: l, 0, a, h => by
    rw [List.modify_zero_cons] at h
    rcases List.mem_cons.mp h with rfl | h
    · exact .inr ⟨b, List.mem_cons_self, rfl⟩
    · exact .inl (List.mem_cons_of_mem _ h)
  | b :: l, i + 1, a, h => by
    rw [List.modify_succ_cons] at h
    rcases List.mem_cons.mp h with rfl | h
    · exact .inl List.mem_cons_self
    · rcases mem_modify h with h | ⟨b', hb', rfl⟩
      · exact .inl (List.mem_cons_of_mem _ h)
      · exact .inr ⟨b', List.mem_cons_of_mem _ hb', rfl⟩

theorem mem_modify_of_ne {α : Type} {f : α → α} {l : List α} {i : ℕ} {a : α} (ha : a ∈ l) (hne : ∀ hi : i < l.length, l[i] ≠ a) :
    a ∈ l.modify i f := by
  obtain ⟨j, hj, rfl⟩ := List.mem_iff_getElem.mp ha
  have hij : i ≠ j := fun h => hne (h ▸ hj) (by simp [h])
  refine List.mem_iff_getElem.mpr ⟨j, by rwa [List.length_modify], ?_⟩
  rw [List.getElem_modify, if_neg hij]

theorem SourcesOk.demote {srcs : List ImageChunk} (hs : SourcesOk cod source srcs) (hfresh : ∀ c ∈ srcs, c.I = none) (i : ℕ) :
    SourcesOk cod source (srcs.modify i changeDeflateChunkToNormal) ∧
      ∀ c ∈ srcs.modify i changeDeflateChunkToNormal, c.I = none := by
  have hmem : ∀ c ∈ srcs.modify i changeDeflateChunkToNormal, ChunkOk cod source c ∧ c.I = none := by
    intro c hc
    rcases mem_modify hc with hc | ⟨b, hb, rfl⟩
    · exact ⟨(hs.ok c hc).1, hfresh c hc⟩
    · obtain ⟨hok, _, hplace⟩ := change_ok (hs.ok b hb).1
      exact ⟨hok, hplace.I.trans (hfresh b hb)⟩
  refine ⟨⟨?_, fun c hc => ⟨(hmem c hc).1, fun I old h => ?_⟩⟩, fun c hc => (hmem c hc).2⟩
  · obtain ⟨c, hc, hn⟩ := hs.first
    rw [List.getElem?_modify, hc]
    split_ifs
    · exact ⟨_, rfl, by simp [changeDeflateChunkToNormal, hn]⟩
    · exact ⟨c, rfl, hn⟩
  · rw [(hmem c hc).2] at h
    cases h

theorem Backed.demote {srcs : List ImageChunk} {name other : Option Bytes} {i : ℕ} (h : Backed srcs other) (hne : other ≠ name)
    (hfind : findChunkByName name srcs = some i) : Backed (srcs.modify i changeDeflateChunkToNormal) other := by
  obtain ⟨hsome, c, hc, htype, hname⟩ := h
  refine ⟨hsome, c, mem_modify_of_ne hc fun hi heq => hne ?_, htype, hname⟩
  obtain ⟨_, _, _, hfound⟩ := findChunkByName_some hfind
  rw [← hname, ← heq, hfound]

/-- What a round, or the whole loop, leaves of the source chunks with the names in `keeps`. -/
structure Kept (cod : Codecs) (source : Bytes) (srcs srcs' : List ImageChunk) (keeps : Option Bytes → Prop) : Prop where
  sources : SourcesOk cod source srcs'
  fresh : ∀ c ∈ srcs', c.I = none
  backed : ∀ name, keeps name → Backed srcs name → Backed srcs' name

/-- A target chunk that can be patched. -/
structure Patchable (cod : Codecs) (target : Bytes) (srcs : List ImageChunk) (tgt : ImageChunk) : Prop where
  rebuildable : Rebuildable cod target tgt
  backed : tgt.type = .deflate → Backed srcs tgt.filename

theorem Patchable.normal {srcs : List ImageChunk} {tgt : ImageChunk} (h : tgt.type = .normal) :
    Patchable cod target srcs tgt := ⟨rebuildable_of_normal h, fun h' => by simp [h] at h'⟩

/-- **One round of the demoting loop** takes away only the source chunk of the target chunk's name. -/
theorem demoteEntry_ok {srcs srcs' : List ImageChunk} {tgt tgt' : ImageChunk} (hs : SourcesOk cod source srcs)
    (hfresh : ∀ c ∈ srcs, c.I = none) (htgt : ChunkOk cod target tgt)
    (hrun : demoteEntry cod source target srcs tgt = .ok (srcs', tgt')) :
    Kept cod source srcs srcs' (fun name => tgt.type = .deflate → name ≠ tgt.filename) ∧ SamePlace tgt tgt' ∧
      ChunkOk cod target tgt' ∧ Patchable cod target srcs' tgt' ∧ (tgt'.type = .deflate → tgt.type = .deflate) := by
  have hsame : ∀ keeps, Kept cod source srcs srcs keeps := fun _ => ⟨hs, hfresh, fun _ _ h => h⟩
  unfold demoteEntry at hrun
  by_cases htype : tgt.type = .deflate
  · rw [if_pos htype] at hrun
    -- the source chunk of the name is taken away
    have htaken : ∀ i, findChunkByName tgt.filename srcs = some i →
        Kept cod source srcs (srcs.modify i changeDeflateChunkToNormal)
          (fun name => tgt.type = .deflate → name ≠ tgt.filename) := by
      intro i hi
      obtain ⟨h₁, h₂⟩ := hs.demote hfresh i
      exact ⟨h₁, h₂, fun name hk hb => hb.demote (hk htype) hi⟩
    -- the target chunk becomes normal
    have hnormal : ∀ c, ChunkOk cod target c → SamePlace tgt c → ∀ srcs', SamePlace tgt (changeDeflateChunkToNormal c) ∧
        ChunkOk cod target (changeDeflateChunkToNormal c) ∧ Patchable cod target srcs' (changeDeflateChunkToNormal c) ∧
          ((changeDeflateChunkToNormal c).type = .deflate → tgt.type = .deflate) := by
      intro c hc hplace srcs'
      obtain ⟨h₁, h₂, h₃⟩ := change_ok hc
      exact ⟨hplace.trans h₃, h₁, .normal h₂, fun _ => htype⟩
    obtain ⟨rebuilt, hreb, hrun⟩ := bind_eq_ok.mp hrun
    cases rebuilt with
    | none =>
      obtain ⟨rfl, rfl⟩ := Prod.mk.inj (pure_eq_ok.mp hrun)
      cases hfind : findChunkByName tgt.filename srcs with
      | none => exact ⟨hsame _, hnormal tgt htgt (.refl _) _⟩
      | some i => exact ⟨htaken i hfind, hnormal tgt htgt (.refl _) _⟩
    | some tgt₁ =>
      rw [← List.append_nil target] at hreb
      obtain ⟨hr, params, rfl⟩ := reconstruct_ok htgt htype hreb
      have htgt₁ := htgt.withParams params
      have hplace : SamePlace tgt { tgt with params := params } := ⟨rfl, rfl, rfl, rfl⟩
      cases hfind : findChunkByName tgt.filename srcs with
      | none =>
        simp only [hfind] at hrun
        obtain ⟨rfl, rfl⟩ := Prod.mk.inj (pure_eq_ok.mp hrun)
        exact ⟨hsame _, hnormal _ htgt₁ hplace _⟩
      | some i =>
        simp only [hfind] at hrun
        obtain ⟨equal, _, hrun⟩ := bind_eq_ok.mp hrun
        cases equal with
        | true =>
          obtain ⟨rfl, rfl⟩ := Prod.mk.inj (pure_eq_ok.mp hrun)
          exact ⟨htaken i hfind, hnormal _ htgt₁ hplace _⟩
        | false =>
          obtain ⟨rfl, rfl⟩ := Prod.mk.inj (pure_eq_ok.mp hrun)
          exact ⟨hsame _, hplace, htgt₁, ⟨hr, fun _ => backed_of_find hfind⟩, fun _ => htype⟩
  · rw [if_neg htype] at hrun
    obtain ⟨rfl, rfl⟩ := Prod.mk.inj (pure_eq_ok.mp hrun)
    exact ⟨hsame _, .refl _, htgt, ⟨fun h => absurd h htype, fun h => absurd h htype⟩, fun h => h⟩

/-- **The demoting loop keeps the source chunk of every deflate chunk it leaves.** -/
theorem demoteZip_backed : ∀ (tgts : List ImageChunk) {srcs srcs' tgts' : List ImageChunk}, SourcesOk cod source srcs →
    (∀ c ∈ srcs, c.I = none) → (∀ c ∈ tgts, ChunkOk cod target c) →
    tgts.Pairwise (fun a b => a.type = .deflate → b.type = .deflate → a.filename ≠ b.filename) →
    demoteZip cod source target srcs tgts = .ok (srcs', tgts') →
    Kept cod source srcs srcs' (fun name => ∀ t ∈ tgts, t.type = .deflate → name ≠ t.filename) ∧
      List.Forall₂ (fun t t' => SamePlace t t' ∧ ChunkOk cod target t') tgts tgts' ∧
      ∀ t' ∈ tgts', Patchable cod target srcs' t'
  | [], srcs, srcs', tgts', hs, hfresh, _, _, hrun => by
    obtain ⟨rfl, rfl⟩ := Prod.mk.inj (pure_eq_ok.mp hrun)
    exact ⟨⟨hs, hfresh, fun _ _ h => h⟩, .nil, by simp⟩
  | tgt :: tgts, srcs, srcs', tgts', hs, hfresh, hok, hdistinct, hrun => by
    unfold demoteZip at hrun
    obtain ⟨⟨srcs₁, tgt'⟩, hentry, hrun⟩ := bind_eq_ok.mp hrun
    obtain ⟨⟨srcs₂, rest⟩, hrest, hrun⟩ := bind_eq_ok.mp hrun
    obtain ⟨rfl, rfl⟩ := Prod.mk.inj (pure_eq_ok.mp hrun)
    obtain ⟨hhead, htail⟩ := List.pairwise_cons.mp hdistinct
    obtain ⟨hkept, hplace, hok', hpatch, htype⟩ := demoteEntry_ok hs hfresh (hok tgt (by simp)) hentry
    obtain ⟨hkept', hall, hpatches⟩ := demoteZip_backed tgts hkept.sources hkept.fresh
      (fun c hc => hok c (List.mem_cons_of_mem _ hc)) htail hrest
    refine ⟨⟨hkept'.sources, hkept'.fresh, fun name hk hb => ?_⟩, .cons ⟨hplace, hok'⟩ hall, ?_⟩
    · have hb₁ := hkept.backed name (hk tgt (by simp)) hb
      exact hkept'.backed name (fun t ht => hk t (List.mem_cons_of_mem _ ht)) hb₁
    · refine List.forall_mem_cons.mpr ⟨⟨hpatch.rebuildable, fun h => ?_⟩, hpatches⟩
      -- no later target chunk has the name of this one
      refine hkept'.backed _ (fun t ht hdef => ?_) (hpatch.backed h)
      rw [hplace.filename]
      exact hhead t ht (htype h) hdef

/-! ### Patching -/

theorem sourceIndex_ok {srcs : List ImageChunk} {tgt : ImageChunk} (hs : SourcesOk cod source srcs)
    (htgt : ChunkOk cod target tgt) (hp : Patchable cod target srcs tgt) :
    ∃ hi : sourceIndex srcs tgt < srcs.length, srcs[sourceIndex srcs tgt].type = tgt.type := by
  unfold sourceIndex
  cases htgt with
  | normal htype =>
    obtain ⟨c, hc, hn⟩ := hs.first
    obtain ⟨h0, rfl⟩ := List.getElem?_eq_some_iff.mp hc
    have hneg : tgt.type ≠ .deflate := by simp [htype]
    simp only [if_neg hneg]
    exact ⟨h0, hn.trans htype.symm⟩
  | deflate htype =>
    obtain ⟨i, hi⟩ := (hp.backed htype).find
    obtain ⟨_, hlt, hdef, _⟩ := findChunkByName_some hi
    simp only [if_pos htype, hi, Option.getD_some]
    exact ⟨hlt, hdef.trans htype.symm⟩

theorem SourcesOk.cache {srcs : List ImageChunk} {i : ℕ} (hs : SourcesOk cod source srcs) (hi : i < srcs.length)
    (I : Option (List ℤ)) (hc : Cached source { srcs[i] with I := I }) :
    SourcesOk cod source (srcs.set i { srcs[i] with I := I }) := by
  have hmem := List.getElem_mem hi
  refine ⟨?_, fun c hc' => ?_⟩
  · obtain ⟨c, hc, hn⟩ := hs.first
    obtain ⟨h0, rfl⟩ := List.getElem?_eq_some_iff.mp hc
    rw [List.getElem?_set]
    split_ifs with heq
    · subst heq
      exact ⟨_, rfl, hn⟩
    · exact ⟨_, hc, hn⟩
  · rcases List.mem_or_eq_of_mem_set hc' with hc' | rfl
    · exact hs.ok c hc'
    · refine ⟨?_, hc⟩
      cases (hs.ok _ hmem).1 with
      | normal htype hdata hle => exact .normal htype hdata hle
      | deflate htype hdata hlen hsmall hplace hle hinf => exact .deflate htype hdata hlen hsmall hplace hle hinf

theorem Backed.cache {srcs : List ImageChunk} {name : Option Bytes} {i : ℕ} (h : Backed srcs name) (hi : i < srcs.length)
    (I : Option (List ℤ)) : Backed (srcs.set i { srcs[i] with I := I }) name := by
  obtain ⟨hsome, c, hc, htype, hname⟩ := h
  obtain ⟨j, hj, rfl⟩ := List.mem_iff_getElem.mp hc
  have hlen : j < (srcs.set i { srcs[i] with I := I }).length := by rwa [List.length_set]
  by_cases hij : i = j
  · subst hij
    exact ⟨hsome, _, List.mem_iff_getElem.mpr ⟨i, hlen, List.getElem_set_self hlen⟩, htype, hname⟩
  · exact ⟨hsome, srcs[j], List.mem_iff_getElem.mpr ⟨j, hlen, List.getElem_set_ne hij hlen⟩, htype, hname⟩

/-- **The patches of the target chunks apply**. -/
theorem patchZip_applies (htarget : target.length < 2 ^ 31) (hsteps : 2 ^ 31 < cod.steps) :
    ∀ (tgts : List ImageChunk) {srcs : List ImageChunk} {ps : List Patched}, SourcesOk cod source srcs →
    (∀ t ∈ tgts, ChunkOk cod target t ∧ Patchable cod target srcs t) →
    patchZip bz source target srcs tgts = .ok ps →
    List.Forall₂ (Applies bz source) ps (tgts.map (·.span target))
  | [], srcs, ps, _, _, hrun => by
    obtain rfl := pure_eq_ok.mp hrun
    exact .nil
  | tgt :: tgts, srcs, ps, hs, htgts, hrun => by
    unfold patchZip at hrun
    obtain ⟨⟨src', tgt', patch⟩, hmake, hrun⟩ := bind_eq_ok.mp hrun
    obtain ⟨rest, hrest, hrun⟩ := bind_eq_ok.mp hrun
    obtain rfl := pure_eq_ok.mp hrun
    obtain ⟨htgt, hpatch⟩ := htgts tgt (by simp)
    obtain ⟨hi, htypes⟩ := sourceIndex_ok hs htgt hpatch
    obtain ⟨hsrc, hcached⟩ := hs.ok _ (List.getElem_mem hi)
    rw [List.getD_eq_getElem _ _ hi, ← List.append_nil source, ← List.append_nil target] at hmake
    rw [← List.append_nil source] at hcached
    obtain ⟨happ, hcached', I, rfl⟩ :=
      makePatch_applies hsrc htgt hpatch.rebuildable htypes hcached htarget hsteps hmake
    rw [List.append_nil] at hcached'
    refine .cons happ (patchZip_applies htarget hsteps tgts (hs.cache hi I hcached') (fun t ht => ?_) hrest)
    obtain ⟨htok, htp⟩ := htgts t (List.mem_cons_of_mem _ ht)
    exact ⟨htok, htp.rebuildable, fun h => (htp.backed h).cache hi I⟩

theorem sourcesOk_read {entries : List ZipFileEntry} {src : List ImageChunk} (h : ZipChunks cod source 0 entries src) :
    SourcesOk cod source (pseudoChunk source :: src) ∧ ∀ c ∈ pseudoChunk source :: src, c.I = none := by
  have hfresh : ∀ c ∈ pseudoChunk source :: src, c.I = none := List.forall_mem_cons.mpr ⟨rfl, h.fresh⟩
  have hok : ∀ c ∈ pseudoChunk source :: src, ChunkOk cod source c :=
    List.forall_mem_cons.mpr ⟨normalAt_ok (by omega), h.tiles.forall_ok⟩
  refine ⟨⟨⟨_, rfl, rfl⟩, fun c hc => ⟨hok c hc, fun I old hI => ?_⟩⟩, hfresh⟩
  rw [hfresh c hc] at hI
  cases hI

/-- **imgdiff round trip, zip mode.** For two archives with disjoint, correctly sized and distinctly named deflated
entries, in whatever order and however they differ: if `imgdiff -z` exits with 0, `ApplyImagePatch` makes the target
of the source and the patch. -/
theorem imgdiffZip_round_trip (bz : Bzip cod) (hsteps : 2 ^ 31 < cod.steps) (source target : Bytes)
    (hsource : source.length < 2 ^ 31) (htarget : target.length < 2 ^ 31) (sourceEntries targetEntries : List ZipFileEntry)
    (hws : WellFormedZip cod source sourceEntries) (hwt : WellFormedZip cod target targetEntries) (p : Bytes)
    (hrun : imgdiffZip bz source target = .ok p) (patch : Value) (hpatch : patch.data = p) :
    applyImagePatch cod memorySink source patch none ⟨[], []⟩ = pure (0, ⟨target, target⟩) := by
  obtain ⟨src, hsrc, hsrcs⟩ := readZip_returns hws
  obtain ⟨tgt, htgt, htgts⟩ := readZip_returns hwt
  unfold imgdiffZip at hrun
  rw [hsrc, htgt, ok_bind, ok_bind] at hrun
  obtain ⟨⟨srcs, tgts⟩, hdemote, hrun⟩ := bind_eq_ok.mp hrun
  obtain ⟨ps, hps, hrun⟩ := bind_eq_ok.mp hrun
  obtain ⟨hs, hfresh⟩ := sourcesOk_read hsrcs
  obtain ⟨hkept, hall, hready⟩ := demoteZip_backed tgt hs hfresh htgts.tiles.forall_ok htgts.distinct hdemote
  have htiles := mergeAdjacent_tiles (htgts.tiles.replace hall)
  have hready' := forall_mergeAdjacent (fun _ _ hn _ => Patchable.normal hn) hready
  have happ := patchZip_applies htarget hsteps _ hkept.sources
    (fun t ht => ⟨htiles.forall_ok t ht, hready' t ht⟩) hps
  rw [apply_imagePatch hsource happ patch (hpatch.trans (pure_eq_ok.mp hrun).symm), htiles.flatten, List.drop_zero]

/-! ### Two archives in different orders -/

def abZip : Bytes :=
  [0x50, 0x4b, 0x03, 0x04, 0x14, 0x00, 0x00, 0x00, 0x08, 0x00, 0x00, 0x00, 0x21, 0x00, 0xc2, 0x41, 0x24, 0x35, 0x05, 0x00,
   0x00, 0x00, 0x03, 0x00, 0x00, 0x00, 0x01, 0x00, 0x00, 0x00, 0x61, 0x4b, 0x4c, 0x4a, 0x06, 0x00, 0x50, 0x4b, 0x03, 0x04,
   0x14, 0x00, 0x00, 0x00, 0x08, 0x00, 0x00, 0x00, 0x21, 0x00, 0x67, 0xba, 0x8e, 0xeb, 0x05, 0x00, 0x00, 0x00, 0x03, 0x00,
   0x00, 0x00, 0x01, 0x00, 0x00, 0x00, 0x62, 0xab, 0xa8, 0xac, 0x02, 0x00, 0x50, 0x4b, 0x01, 0x02, 0x14, 0x00, 0x14, 0x00,
   0x00, 0x00, 0x08, 0x00, 0x00, 0x00, 0x21, 0x00, 0xc2, 0x41, 0x24, 0x35, 0x05, 0x00, 0x00, 0x00, 0x03, 0x00, 0x00, 0x00,
   0x01, 0x00, 0x00, 0x00, 0x00, 0x00, 0x00, 0x00, 0x00, 0x00, 0x00, 0x00, 0x00, 0x00, 0x00, 0x00, 0x00, 0x00, 0x61, 0x50,
   0x4b, 0x01, 0x02, 0x14, 0x00, 0x14, 0x00, 0x00, 0x00, 0x08, 0x00, 0x00, 0x00, 0x21, 0x00, 0x67, 0xba, 0x8e, 0xeb, 0x05,
   0x00, 0x00, 0x00, 0x03, 0x00, 0x00, 0x00, 0x01, 0x00, 0x00, 0x00, 0x00, 0x00, 0x00, 0x00, 0x00, 0x00, 0x00, 0x00, 0x00,
   0x00, 0x24, 0x00, 0x00, 0x00, 0x62, 0x50, 0x4b, 0x05, 0x06, 0x00, 0x00, 0x00, 0x00, 0x02, 0x00, 0x02, 0x00, 0x5e, 0x00,
   0x00, 0x00, 0x48, 0x00, 0x00, 0x00, 0x00, 0x00]

def baZip : Bytes :=
  [0x50, 0x4b, 0x03, 0x04, 0x14, 0x00, 0x00, 0x00, 0x08, 0x00, 0x00, 0x00, 0x21, 0x00, 0x67, 0xba, 0x8e, 0xeb, 0x05, 0x00,
   0x00, 0x00, 0x03, 0x00, 0x00, 0x00, 0x01, 0x00, 0x00, 0x00, 0x62, 0xab, 0xa8, 0xac, 0x02, 0x00, 0x50, 0x4b, 0x03, 0x04,
   0x14, 0x00, 0x00, 0x00, 0x08, 0x00, 0x00, 0x00, 0x21, 0x00, 0x11, 0xcd, 0x82, 0xed, 0x06, 0x00, 0x00, 0x00, 0x04, 0x00,
   0x00, 0x00, 0x01, 0x00, 0x00, 0x00, 0x61, 0x4b, 0x4c, 0x4a, 0x4e, 0x01, 0x00, 0x50, 0x4b, 0x01, 0x02, 0x14, 0x00, 0x14,
   0x00, 0x00, 0x00, 0x08, 0x00, 0x00, 0x00, 0x21, 0x00, 0x67, 0xba, 0x8e, 0xeb, 0x05, 0x00, 0x00, 0x00, 0x03, 0x00, 0x00,
   0x00, 0x01, 0x00, 0x00, 0x00, 0x00, 0x00, 0x00, 0x00, 0x00, 0x00, 0x00, 0x00, 0x00, 0x00, 0x00, 0x00, 0x00, 0x00, 0x62,
   0x50, 0x4b, 0x01, 0x02, 0x14, 0x00, 0x14, 0x00, 0x00, 0x00, 0x08, 0x00, 0x00, 0x00, 0x21, 0x00, 0x11, 0xcd, 0x82, 0xed,
   0x06, 0x00, 0x00, 0x00, 0x04, 0x00, 0x00, 0x00, 0x01, 0x00, 0x00, 0x00, 0x00, 0x00, 0x00, 0x00, 0x00, 0x00, 0x00, 0x00,
   0x00, 0x00, 0x24, 0x00, 0x00, 0x00, 0x61, 0x50, 0x4b, 0x05, 0x06, 0x00, 0x00, 0x00, 0x00, 0x02, 0x00, 0x02, 0x00, 0x5e,
   0x00, 0x00, 0x00, 0x49, 0x00, 0x00, 0x00, 0x00, 0x00]

def abEntries : List ZipFileEntry := [⟨31, 5, 3, lit "a"⟩, ⟨67, 5, 3, lit "b"⟩]
def baEntries : List ZipFileEntry := [⟨31, 5, 3, lit "b"⟩, ⟨67, 6, 4, lit "a"⟩]

theorem abZip_wellFormed : WellFormedZip knownCodecs abZip abEntries where
  read := by decide +kernel
  inside := by decide +kernel
  disjoint := by simp [abEntries, ZipFileEntry.before]
  sizes := List.forall_mem_cons.mpr ⟨⟨lit "abc", rfl, by decide +kernel⟩,
    List.forall_mem_cons.mpr ⟨⟨lit "xyz", rfl, by decide +kernel⟩, by simp⟩⟩
  names := by decide +kernel

theorem baZip_wellFormed : WellFormedZip knownCodecs baZip baEntries where
  read := by decide +kernel
  inside := by decide +kernel
  disjoint := by simp [baEntries, ZipFileEntry.before]
  sizes := List.forall_mem_cons.mpr ⟨⟨lit "xyz", rfl, by decide +kernel⟩,
    List.forall_mem_cons.mpr ⟨⟨lit "abcd", rfl, by decide +kernel⟩, by simp⟩⟩
  names := by decide +kernel

/-- The image patch: b is the same and stays compressed, a is patched uncompressed. -/
def zipPatch : Value where
  isBlob := true
  data := lit "IMGDIFF2" ++ (write4 3 ++
    ((write4 3 ++ (write4 67 ++ baZip.take 67)) ++
     ((write4 2 ++ (write8 31 ++ (write8 5 ++ (write8 275 ++ (write8 3 ++ (write8 4 ++
       (write4 6 ++ (write4 8 ++ (write4 (-15) ++ (write4 8 ++ write4 0)))))))))) ++
      ((write4 3 ++ (write4 116 ++ baZip.drop 73)) ++ abcdDiff))))
  size_lt := by decide +kernel

theorem imgdiffZip_round_trip_ab : imgdiffZip knownBzip abZip baZip = .ok zipPatch.data ∧
    applyImagePatch knownCodecs memorySink abZip zipPatch none ⟨[], []⟩ = pure (0, ⟨baZip, baZip⟩) := by
  have hrun : imgdiffZip knownBzip abZip baZip = .ok zipPatch.data := by decide +kernel
  have hsteps : 2 ^ 31 < knownCodecs.steps := Nat.lt_succ_self _
  exact ⟨hrun, imgdiffZip_round_trip knownBzip hsteps abZip baZip (by decide +kernel) (by decide +kernel) abEntries
    baEntries abZip_wellFormed baZip_wellFormed _ hrun zipPatch rfl⟩

end Diff
end Recovery
