/-
# What reaches the sink and the hash

A plan: the outputs of the chunks of a patch, and how the decoding ends. `Emits`: what a
sink that may take only a part of an output makes of a plan. A failure to write the output
of a normal chunk is ignored, so hash and sink may differ.

Key theorems: `applyAny_sat`, `Emits.of_full`, `Emits.of_length`.
-/
import Recovery.Patch.ApplyPatch

namespace Recovery
namespace Patch

/-- An output of a patch, and whether a failure to write it is ignored. -/
structure Output where
  lenient : Bool
  data : Bytes
  deriving DecidableEq

def Chunk.outputs : Chunk → List Output
  | .normal none => []
  | .normal (some newData) => [⟨true, newData⟩]
  | .raw data => [⟨false, data⟩]
  | .deflate pieces => pieces.map fun piece => ⟨false, piece⟩

/-- The chunks of an image patch, and what stops the decoding before its end. -/
def chunksFrom (cod : Codecs) (old patch : Bytes) (bonusData : Option Value) : ℕ → ℕ → ℤ → List Chunk × Option Stop
  | 0, _, _ => ([], none)
  | n + 1, i, pos =>
    match chunkAt cod old patch bonusData i pos with
    | .error stop => ([], some stop)
    | .ok (chunk, pos) =>
      (chunk :: (chunksFrom cod old patch bonusData n (i + 1) pos).1,
        (chunksFrom cod old patch bonusData n (i + 1) pos).2)

def chunksOf (cod : Codecs) (source : Bytes) (patch : Value) (bonusData : Option Value) : List Chunk × Option Stop :=
  if patch.data.length < 12 ∨ patch.data.take 8 ≠ lit "IMGDIFF2" then ([], some (.ret (-1)))
  else
    match read4 patch.data 8 with
    | .error stop => ([], some stop)
    | .ok numChunks => chunksFrom cod source patch.data bonusData numChunks.toNat 0 12

/-- The plan of a patch: its outputs, and what stops the decoding before its end. -/
def planOf (cod : Codecs) (source : Bytes) (patch : Value) (bonusData : Option Value) : List Output × Option Stop :=
  if patch.data.take 8 = lit "BSDIFF40" then
    match applyBSDiffPatchMem cod (OldData.whole source) patch.data 0 with
    | .error stop => ([], some stop)
    | .ok newData => ([⟨false, newData⟩], none)
  else
    ((chunksOf cod source patch bonusData).1.flatMap Chunk.outputs, (chunksOf cod source patch bonusData).2)

def flat (os : List Output) : Bytes := os.flatMap (·.data)

/-! ### Emission -/

/-- Whether all outputs were gone through, what was hashed and what was accepted, by a sink
that may be `short`. -/
inductive Emits (short : Bytes → ℕ → Prop) : List Output → Bool → Bytes → Bytes → Prop
  | done : Emits short [] true [] []
  | full {o : Output} {os : List Output} {ok : Bool} {h w : Bytes} (hos : Emits short os ok h w) :
      Emits short (o :: os) ok (o.data ++ h) (o.data ++ w)
  | skip {o : Output} {os : List Output} {ok : Bool} {h w : Bytes} {m : ℕ} (ho : o.lenient = true)
      (hm : short o.data m) (hos : Emits short os ok h w) : Emits short (o :: os) ok h (o.data.take m ++ w)
  | stop {o : Output} {os : List Output} {h : Bytes} {m : ℕ} (ho : o.lenient = false) (hm : short o.data m) :
      Emits short (o :: os) false h (o.data.take m)

def AnyShort (d : Bytes) (m : ℕ) : Prop := m < d.length

theorem Emits.mono {short short' : Bytes → ℕ → Prop} (hs : ∀ d m, short d m → short' d m) {os : List Output} {ok : Bool}
    {h w : Bytes} (he : Emits short os ok h w) : Emits short' os ok h w := by
  induction he with
  | done => exact .done
  | full _ ih => exact .full ih
  | skip ho hm _ ih => exact .skip ho (hs _ _ hm) ih
  | stop ho hm => exact .stop ho (hs _ _ hm)

theorem Emits.of_full {os : List Output} {ok : Bool} {h w : Bytes} (he : Emits (fun _ _ => False) os ok h w) :
    ok = true ∧ h = flat os ∧ w = flat os := by
  induction he with
  | done => exact ⟨rfl, rfl, rfl⟩
  | full _ ih => exact ⟨ih.1, by rw [ih.2.1]; rfl, by rw [ih.2.2]; rfl⟩
  | skip _ hm => exact hm.elim
  | stop _ hm => exact hm.elim

theorem emits_flat (short : Bytes → ℕ → Prop) : ∀ os : List Output, Emits short os true (flat os) (flat os)
  | [] => .done
  | _ :: os => .full (emits_flat short os)

/-- A hash as long as the whole output missed nothing, and neither did the sink. -/
theorem Emits.of_length {short : Bytes → ℕ → Prop} (hshort : ∀ d m, short d m → d ≠ []) {os : List Output} {ok : Bool}
    {h w : Bytes} (he : Emits short os ok h w) (hok : ok = true) :
    h.length ≤ (flat os).length ∧ (h.length = (flat os).length → h = flat os ∧ w = flat os) := by
  induction he with
  | done => exact ⟨le_rfl, fun _ => ⟨rfl, rfl⟩⟩
  | @full o os ok h w _ ih =>
    obtain ⟨hle, heq⟩ := ih hok
    have hflat : flat (o :: os) = o.data ++ flat os := rfl
    rw [hflat, List.length_append, List.length_append]
    refine ⟨by omega, fun hl => ?_⟩
    obtain ⟨rfl, rfl⟩ := heq (by omega)
    exact ⟨rfl, rfl⟩
  | @skip o os ok h w m _ hm _ ih =>
    obtain ⟨hle, -⟩ := ih hok
    have hflat : flat (o :: os) = o.data ++ flat os := rfl
    have hpos : 0 < o.data.length := List.length_pos_iff.mpr (hshort _ _ hm)
    rw [hflat, List.length_append]
    exact ⟨by omega, fun hl => by omega⟩
  | stop => cases hok

theorem Emits.append {short : Bytes → ℕ → Prop} {os os' : List Output} {ok : Bool} {h w h' w' : Bytes}
    (he : Emits short os true h w) (he' : Emits short os' ok h' w') : Emits short (os ++ os') ok (h ++ h') (w ++ w') := by
  generalize hb : true = b at he
  induction he with
  | done => exact he'
  | full _ ih =>
    rw [List.append_assoc, List.append_assoc]
    exact .full (ih hb)
  | skip ho hm _ ih =>
    rw [List.append_assoc]
    exact .skip ho hm (ih hb)
  | stop => cases hb

theorem Emits.append_stop {short : Bytes → ℕ → Prop} {os : List Output} (os' : List Output) {h w : Bytes}
    (he : Emits short os false h w) : Emits short (os ++ os') false h w := by
  generalize hb : false = b at he
  induction he with
  | done => cases hb
  | full _ ih => exact .full (ih hb)
  | skip ho hm _ ih => exact .skip ho hm (ih hb)
  | stop ho hm => exact .stop ho hm

/-! ### A chunk that cannot be read ends the patch with -1 -/

theorem sliceLE_error {b : Bytes} {i : ℤ} {n : ℕ} {e : Stop} (h : sliceLE b i n = .error e) : e = .fault := by
  unfold sliceLE at h
  cases hs : slice b i n with
  | ok r => rw [hs] at h; cases h
  | error e' =>
    rw [hs] at h
    cases h
    exact slice_error hs

theorem read4_error {b : Bytes} {i : ℤ} {e : Stop} (h : read4 b i = .error e) : e = .fault := by
  rcases bind_eq_error.mp h with h | ⟨_, -, h⟩
  · exact sliceLE_error h
  · cases h

theorem read8_error {b : Bytes} {i : ℤ} {e : Stop} (h : read8 b i = .error e) : e = .fault := by
  rcases bind_eq_error.mp h with h | ⟨_, -, h⟩
  · exact sliceLE_error h
  · cases h

/-- Every failure with a return code is one with -1. -/
def OnlyNegOne {α : Type} (x : Except Stop α) : Prop := ∀ code, x = .error (.ret code) → code = -1

section

variable {α β : Type}

theorem OnlyNegOne.pure (a : α) : OnlyNegOne (pure a : Except Stop α) := fun _ h => by cases h

theorem OnlyNegOne.bind {x : Except Stop α} {f : α → Except Stop β} (hx : OnlyNegOne x) (hf : ∀ a, OnlyNegOne (f a)) :
    OnlyNegOne (x >>= f) := fun code h => by
  rcases bind_eq_error.mp h with h | ⟨a, -, h⟩
  · exact hx code h
  · exact hf a code h

theorem OnlyNegOne.failIf {c : Prop} [Decidable c] {e : Stop} (he : ∀ code, e = .ret code → code = -1) :
    OnlyNegOne (Recovery.failIf c e) := fun code h => by
  unfold Recovery.failIf at h
  split_ifs at h
  exact he code (Except.error.inj h)

theorem OnlyNegOne.of_fault {x : Except Stop α} (hx : ∀ e, x = .error e → e = .fault) : OnlyNegOne x := fun code h => by
  cases hx _ h

theorem OnlyNegOne.orReturn (x : Except Stop α) : OnlyNegOne (orReturn (-1) x) := fun code h => by
  cases x with
  | ok a => cases h
  | error e =>
    cases e <;> cases h
    rfl

end

theorem failIf_ret {c : Prop} [Decidable c] : OnlyNegOne (failIf c (.ret (-1))) :=
  OnlyNegOne.failIf fun _ h => (Stop.ret.inj h).symm

theorem failIf_fault {c : Prop} [Decidable c] : OnlyNegOne (failIf c .fault) :=
  OnlyNegOne.failIf fun _ h => by cases h

theorem onlyNegOne_read8 (b : Bytes) (i : ℤ) : OnlyNegOne (read8 b i) := .of_fault fun _ => read8_error
theorem onlyNegOne_read4 (b : Bytes) (i : ℤ) : OnlyNegOne (read4 b i) := .of_fault fun _ => read4_error

theorem chunkAt_ret (cod : Codecs) (old patch : Bytes) (bonusData : Option Value) (i : ℕ) (pos : ℤ) :
    OnlyNegOne (chunkAt cod old patch bonusData i pos) := by
  have hnormal : OnlyNegOne (normalChunk cod old patch (pos + 4)) := by
    refine failIf_ret.bind fun _ => (onlyNegOne_read8 _ _).bind fun _ => (onlyNegOne_read8 _ _).bind fun _ =>
      (onlyNegOne_read8 _ _).bind fun _ code h => ?_
    split at h
    · cases h
    · rename_i stop hne _
      cases h
      exact absurd rfl (hne code)
    · cases h
  have hraw : OnlyNegOne (rawChunk patch (pos + 4)) :=
    failIf_ret.bind fun _ => (onlyNegOne_read4 _ _).bind fun _ => failIf_ret.bind fun _ => failIf_fault.bind fun _ =>
      (OnlyNegOne.of_fault fun _ => slice_error).bind fun _ => .pure _
  have hdeflate : ∀ bonus, OnlyNegOne (deflateChunk cod old patch bonus (pos + 4)) := fun bonus => by
    have hexpand : ∀ a b c, OnlyNegOne (expandSource cod old a b c bonus) := fun a b c =>
      failIf_fault.bind fun _ => failIf_ret.bind fun _ => failIf_ret.bind fun _ => .pure _
    refine failIf_ret.bind fun _ => (onlyNegOne_read8 _ _).bind fun _ => (onlyNegOne_read8 _ _).bind fun _ =>
      (onlyNegOne_read8 _ _).bind fun _ => (onlyNegOne_read8 _ _).bind fun _ => (onlyNegOne_read4 _ _).bind fun _ =>
      (onlyNegOne_read4 _ _).bind fun _ => (onlyNegOne_read4 _ _).bind fun _ => (onlyNegOne_read4 _ _).bind fun _ =>
      (onlyNegOne_read4 _ _).bind fun _ => (hexpand _ _ _).bind fun _ => (OnlyNegOne.orReturn _).bind fun _ code h => ?_
    split at h <;> cases h
  refine failIf_ret.bind fun _ => (onlyNegOne_read4 _ _).bind fun type => ?_
  split_ifs
  · exact hnormal
  · exact hraw
  · exact hdeflate _
  · exact hdeflate _
  · exact fun code h => by cases h; rfl

/-! ### Any sink -/

section

variable {τ : Type} {P : Ev → Prop} {sink : Sink τ} {short : Bytes → ℕ → Prop} {acc : τ → Sys → Bytes → Prop}
  {err : Failure → Sys → Prop} {cr : Sys → Prop} {cod : Codecs}

/-- A sink takes all it is given, or answers less. `acc` is what it has taken. -/
def SinkSat (P : Ev → Prop) (sink : Sink τ) (short : Bytes → ℕ → Prop) (acc : τ → Sys → Bytes → Prop)
    (err : Failure → Sys → Prop) (cr : Sys → Prop) : Prop :=
  ∀ t s b d, acc t s b → Crash.Sat P (sink t d) s (fun r s' => (r.1 = d.length ∧ acc r.2 s' (b ++ d)) ∨
    (r.1 < d.length ∧ ∃ m, short d m ∧ acc r.2 s' (b ++ d.take m))) err cr

/-- The end of an emission from `b` on: 0 if everything was gone through. -/
def Emitted (short : Bytes → ℕ → Prop) (acc : τ → Sys → Bytes → Prop) (os : List Output) (stopped : Prop) (b ctx : Bytes)
    (r : ℤ × Sunk τ) (s' : Sys) : Prop :=
  ∃ h w, acc r.2.token s' (b ++ w) ∧
    ((r.1 = 0 ∧ ¬ stopped ∧ Emits short os true h w ∧ r.2.ctx = ctx ++ h) ∨
      (r.1 ≠ 0 ∧ (stopped ∨ Emits short os false h w)))

theorem sinkThenHash_sat (hsink : SinkSat P sink short acc err cr) {s : Sys} {b d : Bytes} {o : Sunk τ}
    (ho : acc o.token s b) : Crash.Sat P (sinkThenHash sink d o) s
      (fun r s' => (r.1 = 0 ∧ acc r.2.token s' (b ++ d) ∧ r.2.ctx = o.ctx ++ d) ∨
        (r.1 = 1 ∧ (∃ m, short d m ∧ acc r.2.token s' (b ++ d.take m)) ∧ r.2.ctx = o.ctx)) err cr := by
  refine (hsink o.token s b d ho).step fun r s' hr => ?_
  obtain ⟨accepted, token⟩ := r
  rcases hr with ⟨rfl, hacc⟩ | ⟨hlt, hm⟩
  · simp only [lt_irrefl, if_false]
    exact Crash.Sat.pure (.inl ⟨rfl, hacc, rfl⟩)
  · simp only at hlt
    simp only [if_pos hlt]
    exact Crash.Sat.pure (.inr ⟨rfl, hm, rfl⟩)

theorem sinkPieces_sat (hsink : SinkSat P sink short acc err cr) : ∀ (pieces : List Bytes) {s : Sys} {b : Bytes} {o : Sunk τ},
    acc o.token s b → Crash.Sat P (sinkPieces sink pieces o) s
      (Emitted short acc (pieces.map fun piece => ⟨false, piece⟩) False b o.ctx) err cr
  | [], s, b, o, ho => Crash.Sat.pure ⟨[], [], by simpa using ho, .inl ⟨rfl, id, .done, by simp⟩⟩
  | piece :: rest, s, b, o, ho => by
    refine (hsink o.token s b piece ho).step fun r s' hr => ?_
    obtain ⟨accepted, token⟩ := r
    rcases hr with ⟨rfl, hacc⟩ | ⟨hlt, m, hm, hacc⟩
    · simp only [ne_eq, not_true_eq_false, if_false]
      refine (sinkPieces_sat hsink rest (o := ⟨token, o.ctx ++ piece⟩) hacc).imp ?_
      rintro r s' ⟨h, w, hacc, hcase⟩
      refine ⟨piece ++ h, piece ++ w, by rwa [← List.append_assoc], ?_⟩
      rcases hcase with ⟨hr, -, he, hctx⟩ | ⟨hr, he⟩
      · exact .inl ⟨hr, id, .full he, by rw [hctx, List.append_assoc]⟩
      · exact .inr ⟨hr, .inr (.full (he.resolve_left id))⟩
    · simp only at hlt
      simp only [if_pos (show accepted ≠ piece.length by omega)]
      exact Crash.Sat.pure ⟨[], piece.take m, hacc, .inr ⟨by simp, .inr (.stop rfl hm)⟩⟩

theorem sinkChunk_sat (hsink : SinkSat P sink short acc err cr) (c : Chunk) {s : Sys} {b : Bytes} {o : Sunk τ}
    (ho : acc o.token s b) : Crash.Sat P (sinkChunk sink c o) s (Emitted short acc c.outputs False b o.ctx) err cr := by
  cases c with
  | normal newData =>
    cases newData with
    | none => exact Crash.Sat.pure ⟨[], [], by simpa using ho, .inl ⟨rfl, id, .done, by simp⟩⟩
    | some d =>
      refine (sinkThenHash_sat hsink ho).step fun r s' hr => Crash.Sat.pure ?_
      rcases hr with ⟨-, hacc, hctx⟩ | ⟨-, ⟨m, hm, hacc⟩, hctx⟩
      · exact ⟨d ++ [], d ++ [], by simpa using hacc, .inl ⟨rfl, id, .full .done, by simp [hctx]⟩⟩
      · exact ⟨[], d.take m ++ [], by simpa using hacc, .inl ⟨rfl, id, .skip rfl hm .done, by simp [hctx]⟩⟩
  | raw d =>
    refine (hsink o.token s b d ho).step fun r s' hr => Crash.Sat.pure ?_
    obtain ⟨accepted, token⟩ := r
    rcases hr with ⟨rfl, hacc⟩ | ⟨hlt, m, hm, hacc⟩
    · exact ⟨d ++ [], d ++ [], by simpa using hacc, .inl ⟨by simp, id, .full .done, by simp⟩⟩
    · simp only at hlt
      exact ⟨[], d.take m, hacc, .inr ⟨by simp [show accepted ≠ (d.length : ℤ) by omega], .inr (.stop rfl hm)⟩⟩
  | deflate pieces => exact sinkPieces_sat hsink pieces ho

theorem imageLoop_sat (hsink : SinkSat P sink short acc err cr) {old patch : Bytes} {bonusData : Option Value} :
    ∀ (n i : ℕ) (pos : ℤ) {s : Sys} {b : Bytes} {o : Sunk τ},
    ((chunksFrom cod old patch bonusData n i pos).2 ≠ none → ∀ t s b e, acc t s b → err e s) →
    acc o.token s b → Crash.Sat P (imageLoop cod sink old patch bonusData n i pos o) s
      (Emitted short acc ((chunksFrom cod old patch bonusData n i pos).1.flatMap Chunk.outputs)
        ((chunksFrom cod old patch bonusData n i pos).2 ≠ none) b o.ctx) err cr
  | 0, i, pos, s, b, o, _, ho =>
    Crash.Sat.pure ⟨[], [], by simpa using ho, .inl ⟨rfl, by simp [chunksFrom], .done, by simp⟩⟩
  | n + 1, i, pos, s, b, o, herr, ho => by
    unfold imageLoop
    unfold chunksFrom at herr ⊢
    cases hc : chunkAt cod old patch bonusData i pos with
    | error stop =>
      cases stop with
      | ret code =>
        have : code = -1 := chunkAt_ret cod old patch bonusData i pos code hc
        exact Crash.Sat.pure ⟨[], [], by simpa using ho, .inr ⟨by simp [this], .inl (by simp)⟩⟩
      | _ => exact Crash.Sat.fail (herr (by simp [hc]) _ _ _ _ ho)
    | ok r =>
      obtain ⟨chunk, pos'⟩ := r
      rw [hc] at herr
      refine (sinkChunk_sat hsink chunk ho).step fun r s' hr => ?_
      obtain ⟨h, w, hacc, hcase⟩ := hr
      rcases hcase with ⟨hr, -, he, hctx⟩ | ⟨hr, he⟩
      · simp only [hr, ne_eq, not_true_eq_false, if_false]
        refine (imageLoop_sat hsink n (i + 1) pos' herr hacc).imp ?_
        rintro r' s'' ⟨h', w', hacc', hcase'⟩
        refine ⟨h ++ h', w ++ w', by rwa [← List.append_assoc], ?_⟩
        simp only [List.flatMap_cons]
        rcases hcase' with ⟨hr', hst, he', hctx'⟩ | ⟨hr', hst | he'⟩
        · exact .inl ⟨hr', hst, he.append he', by rw [hctx', hctx, List.append_assoc]⟩
        · exact .inr ⟨hr', .inl hst⟩
        · exact .inr ⟨hr', .inr (he.append he')⟩
      · simp only [if_pos hr]
        exact Crash.Sat.pure ⟨h, w, hacc, .inr ⟨hr, .inr ((he.resolve_left id).append_stop _)⟩⟩

/-- **Applying a patch follows its plan**, whatever the sink does. -/
theorem applyAny_sat (hsink : SinkSat P sink short acc err cr) {a : Args} {source : Bytes} {patch : Value} {t : τ} {s : Sys}
    (herr : (planOf cod source patch a.bonusData).2 ≠ none → ∀ t s b e, acc t s b → err e s) (ht : acc t s []) :
    Crash.Sat P (applyAny cod sink a source patch t) s
      (Emitted short acc (planOf cod source patch a.bonusData).1 ((planOf cod source patch a.bonusData).2 ≠ none) [] [])
      err cr := by
  unfold applyAny
  unfold planOf at herr ⊢
  by_cases hbs : patch.data.take 8 = lit "BSDIFF40"
  · rw [if_pos hbs] at herr ⊢
    rw [if_pos hbs]
    unfold applyBSDiffPatch
    cases hmem : applyBSDiffPatchMem cod (OldData.whole source) patch.data 0 with
    | error stop =>
      cases stop with
      | ret code => exact Crash.Sat.pure ⟨[], [], ht, .inr ⟨by simp, .inl (by simp)⟩⟩
      | _ => exact Crash.Sat.fail (herr (by simp [hmem]) _ _ _ _ ht)
    | ok newData =>
      refine (sinkThenHash_sat hsink (o := ⟨t, []⟩) ht).imp ?_
      rintro r s' (⟨hr, hacc, hctx⟩ | ⟨hr, ⟨m, hm, hacc⟩, -⟩)
      · exact ⟨newData ++ [], newData ++ [], by simpa using hacc, .inl ⟨hr, by simp, .full .done, by simpa using hctx⟩⟩
      · exact ⟨[], newData.take m, hacc, .inr ⟨by simp [hr], .inr (.stop rfl hm)⟩⟩
  rw [if_neg hbs] at herr ⊢
  rw [if_neg hbs]
  by_cases himg : patch.data.take 8 = lit "IMGDIFF2"
  · rw [if_pos himg]
    unfold applyImagePatch
    unfold chunksOf at herr ⊢
    by_cases hlen : patch.data.length < 12
    · rw [if_pos hlen, if_pos (Or.inl hlen)]
      exact Crash.Sat.pure ⟨[], [], ht, .inr ⟨by simp, .inl (by simp)⟩⟩
    · rw [if_neg (not_or.mpr ⟨hlen, not_not.mpr himg⟩)] at herr ⊢
      rw [if_neg hlen, if_neg (not_not.mpr himg)]
      cases hn : read4 patch.data 8 with
      | error stop => exact Crash.Sat.bind (Crash.Sat.fail (herr (by simp [hn]) _ _ _ _ ht))
      | ok numChunks =>
        rw [hn] at herr
        exact Crash.Sat.bind (Crash.Sat.pure (imageLoop_sat hsink _ 0 12 (o := ⟨t, []⟩) herr ht))
  · rw [if_neg himg]
    exact Crash.Sat.fail (herr (by simp [chunksOf, himg]) _ _ _ _ ht)

end

end Patch
end Recovery
