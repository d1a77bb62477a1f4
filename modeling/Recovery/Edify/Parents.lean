/-
# The buffer of `make_parents` (updater/install.c)

`make_parents` cuts the path at the last slash and puts the slash back after the inner call.
If that one fails it returns with the path cut, and `symlink` makes its link at the cut path
(`parents_cut`).

Key definition: `MakesAll`.
Key theorems: `makeParents_keeps`, `parents_cut`.
-/
import Recovery.Edify.Discipline

namespace Recovery
namespace Edify

variable {σ : Type} {S : System σ}

/-- The directories of a path with at most `n` slashes, the outermost first. -/
def parentDirs : ℕ → Bytes → List Bytes
  | 0, _ => []
  | n + 1, path =>
    match lastSlash path with
    | none => []
    | some p => parentDirs n (path.take p) ++ [path.take p]

/-- Making the directory succeeds, or it is there. -/
def Makes (S : System σ) (dir : Bytes) (w : σ) : Prop := (S.mkdir dir w).1 = none ∨ (S.mkdir dir w).1 = some eExist

/-- So do all of them, made one after the other. -/
def MakesAll (S : System σ) : List Bytes → σ → Prop
  | [], _ => True
  | dir :: dirs, w => Makes S dir w ∧ MakesAll S dirs (S.mkdir dir w).2

/-- The system after making the directories. -/
def afterMkdirs (S : System σ) (dirs : List Bytes) (w : σ) : σ := dirs.foldl (fun w dir => (S.mkdir dir w).2) w

theorem makesAll_concat (dir : Bytes) : ∀ (dirs : List Bytes) (w : σ),
    MakesAll S (dirs ++ [dir]) w ↔ MakesAll S dirs w ∧ Makes S dir (afterMkdirs S dirs w)
  | [], _ => by simp [MakesAll, afterMkdirs]
  | _ :: dirs, w => by
    simp only [List.cons_append, MakesAll, makesAll_concat dir dirs, and_assoc]
    rfl

theorem lastSlash_spec {path : Bytes} {p : ℕ} (h : lastSlash path = some p) : p < path.length ∧ path[p]? = some 0x2f := by
  have hmem := List.mem_of_getLast? h
  rw [List.mem_filter, List.mem_range] at hmem
  exact ⟨hmem.1, (of_decide_eq_true hmem.2).2⟩

theorem set_set_self {buf : Bytes} {p : ℕ} {b : UInt8} (h : buf[p]? = some b) : (buf.set p 0).set p b = buf := by
  rw [List.set_set]
  refine List.ext_getElem? fun i => ?_
  by_cases hi : p = i
  · subst hi
    rw [List.getElem?_set_self (List.getElem?_eq_some_iff.mp h).1, h]
  · rw [List.getElem?_set_ne hi]

section

variable {buf : Bytes} {p : ℕ}

theorem exists_cstr_append (buf : Bytes) : ∃ rest, Zip.cstr buf ++ rest = buf := List.takeWhile_prefix _

theorem cstr_getElem? (hp : p < (Zip.cstr buf).length) : buf[p]? = (Zip.cstr buf)[p]? := by
  obtain ⟨rest, hrest⟩ := exists_cstr_append buf
  conv_lhs => rw [← hrest]
  exact List.getElem?_append_left hp

theorem cstr_cut (hp : p < (Zip.cstr buf).length) : Zip.cstr (buf.set p 0) = (Zip.cstr buf).take p := by
  obtain ⟨rest, hrest⟩ := exists_cstr_append buf
  have hsplit : buf.set p 0 = (Zip.cstr buf).take p ++ 0 :: ((Zip.cstr buf).drop (p + 1) ++ rest) := by
    conv_lhs => rw [← hrest]
    rw [List.set_append_left _ _ hp, List.set_eq_take_append_cons_drop, if_pos hp]
    simp
  have hall : ∀ b ∈ (Zip.cstr buf).take p, decide (b ≠ 0) = true := fun b hb =>
    decide_eq_true fun heq : b = 0 => cstr_no_nul buf (heq ▸ List.mem_of_mem_take hb)
  conv_lhs => rw [hsplit, Zip.cstr, List.takeWhile_append_of_pos hall]
  simp

theorem makeParents_level {n : ℕ} {s s₁ : State σ} (hp : lastSlash (Zip.cstr buf) = some p)
    (hinner : makeParents S n (buf.set p 0) s = .ok ((true, buf.set p 0), s₁)) :
    makeParents S (n + 1) buf s =
      .ok ((decide ((S.mkdir ((Zip.cstr buf).take p) s₁.cookie).1 = none ∨
        (S.mkdir ((Zip.cstr buf).take p) s₁.cookie).1 = some eExist),
        buf), { s₁ with cookie := (S.mkdir ((Zip.cstr buf).take p) s₁.cookie).2 }) := by
  obtain ⟨hlt, hslash⟩ := lastSlash_spec hp
  have hback : (buf.set p 0).set p 0x2f = buf := set_set_self (by rw [cstr_getElem? hlt, hslash])
  have hmkdir : sys (S.mkdir (Zip.cstr (buf.set p 0))) s₁ = .ok ((S.mkdir ((Zip.cstr buf).take p) s₁.cookie).1,
      { s₁ with cookie := (S.mkdir ((Zip.cstr buf).take p) s₁.cookie).2 }) := by
    rw [cstr_cut hlt]
    rfl
  rw [makeParents, hp]
  dsimp only
  rw [bind_run hinner]
  dsimp only
  rw [if_pos rfl, bind_run hmkdir, hback]
  rfl

theorem makeParents_fails {n : ℕ} {s s₁ : State σ} {buf' : Bytes} (hp : lastSlash (Zip.cstr buf) = some p)
    (hinner : makeParents S n (buf.set p 0) s = .ok ((false, buf'), s₁)) : makeParents S (n + 1) buf s = .ok ((false, buf'), s₁) := by
  rw [makeParents, hp]
  dsimp only
  rw [bind_run hinner]
  rfl

end

theorem makeParents_true : ∀ {n : ℕ} {buf : Bytes} {s : State σ}, MakesAll S (parentDirs n (Zip.cstr buf)) s.cookie →
    makeParents S n buf s = .ok ((true, buf), { s with cookie := afterMkdirs S (parentDirs n (Zip.cstr buf)) s.cookie })
  | 0, _, s, _ => rfl
  | n + 1, buf, s, h => by
    unfold parentDirs at h ⊢
    cases hp : lastSlash (Zip.cstr buf) with
    | none =>
      rw [makeParents, hp]
      rfl
    | some p =>
      simp only [hp, makesAll_concat] at h
      rw [← cstr_cut (lastSlash_spec hp).1] at h
      have hlevel := makeParents_level hp (makeParents_true (s := s) h.1)
      rw [cstr_cut (lastSlash_spec hp).1] at h hlevel
      rw [hlevel, decide_eq_true (show _ ∨ _ from h.2)]
      simp [afterMkdirs]

/-- A call that fails leaves what is behind the string as it was, its own cuts included. -/
theorem makeParents_false : ∀ {n : ℕ} {buf : Bytes} {s : State σ}, ¬ MakesAll S (parentDirs n (Zip.cstr buf)) s.cookie →
    ∃ buf' s', makeParents S n buf s = .ok ((false, buf'), s') ∧ ∀ i, (Zip.cstr buf).length ≤ i → buf'[i]? = buf[i]?
  | 0, _, _, h => absurd trivial h
  | n + 1, buf, s, h => by
    unfold parentDirs at h
    cases hp : lastSlash (Zip.cstr buf) with
    | none => exact absurd (by simp [hp, MakesAll]) h
    | some p =>
      obtain ⟨hlt, -⟩ := lastSlash_spec hp
      simp only [hp, makesAll_concat] at h
      rw [← cstr_cut hlt] at h
      by_cases hinner : MakesAll S (parentDirs n (Zip.cstr (buf.set p 0))) s.cookie
      · have hlevel := makeParents_level hp (makeParents_true (s := s) hinner)
        rw [cstr_cut hlt] at h hlevel
        rw [cstr_cut hlt] at hinner
        rw [decide_eq_false (show ¬ (_ ∨ _) from fun hlast => h ⟨hinner, hlast⟩)] at hlevel
        exact ⟨_, _, hlevel, fun _ _ => rfl⟩
      · obtain ⟨buf', s', hrun, hkeep⟩ := makeParents_false hinner
        refine ⟨buf', s', makeParents_fails hp hrun, fun i hi => ?_⟩
        rw [cstr_cut hlt, List.length_take] at hkeep
        rw [hkeep i (by omega), List.getElem?_set_ne (by omega)]

/-- **The buffer is as it was just if no directory but the last one fails to be made**, and then the link is made where the script
says. -/
theorem makeParents_keeps (src : CString) (s : State σ) :
    (∃ ok s', makeParents S src.bytes.length src.bytes s = .ok ((ok, src.bytes), s') ∧ Zip.cstr src.bytes = src.bytes) ↔
      MakesAll S (parentDirs src.bytes.length src.bytes).dropLast s.cookie := by
  have hstr : Zip.cstr src.bytes = src.bytes :=
    List.takeWhile_eq_self_iff.mpr fun b hb => decide_eq_true fun heq : b = 0 => src.no_nul (heq ▸ hb)
  generalize src.bytes.length = n
  cases n with
  | zero => exact iff_of_true ⟨true, s, rfl, hstr⟩ trivial
  | succ n =>
    unfold parentDirs
    cases hp : lastSlash src.bytes with
    | none => exact iff_of_true ⟨true, s, by rw [makeParents, hstr, hp]; rfl, hstr⟩ trivial
    | some p =>
      have hp' : lastSlash (Zip.cstr src.bytes) = some p := by rw [hstr, hp]
      have hcut : Zip.cstr (src.bytes.set p 0) = src.bytes.take p := by rw [cstr_cut (lastSlash_spec hp').1, hstr]
      simp only [List.dropLast_concat]
      rw [← hcut]
      by_cases hinner : MakesAll S (parentDirs n (Zip.cstr (src.bytes.set p 0))) s.cookie
      · exact iff_of_true ⟨_, _, makeParents_level hp' (makeParents_true hinner), hstr⟩ hinner
      · refine iff_of_false (fun ⟨ok, s', hrun, _⟩ => ?_) hinner
        -- the cut of this level stays, and a string of the script has no NUL
        obtain ⟨buf', s₁, hfail, hkeep⟩ := makeParents_false hinner
        obtain ⟨⟨-, rfl⟩, -⟩ := Prod.mk.inj (Except.ok.inj ((makeParents_fails hp' hfail).symm.trans hrun)) |>.imp Prod.mk.inj id
        have hcut0 := hkeep p (by rw [hcut, List.length_take]; omega)
        rw [List.getElem?_set_self (lastSlash_spec hp).1] at hcut0
        exact src.no_nul (List.mem_of_getElem? hcut0)

/-- No directory can be made. The state is 1000 when a link was made at `/a/b`. -/
def readOnlySystem : System ℕ := { countingSystem with
  mkdir := fun _ n => (some 30, n + 1)
  symlink := fun _ path n => (none, if path = lit "/a/b" then 1000 else n + 1) }

/-- **A directory that cannot be made leaves the path cut.** For `symlink("t", "/a/b/c")` the directory `/a` cannot be made, and
the link is made at `/a/b`. -/
theorem parents_cut : (∃ s', makeParents readOnlySystem 6 (lit "/a/b/c") freshState = .ok ((false, lit "/a/b" ++ 0 :: lit "c"), s')) ∧
    ∃ msg, symlinkFn readOnlySystem [textArg "t", textArg "/a/b/c"] freshState = .ok (none, ⟨1000, [], some msg, []⟩) := by
  refine ⟨⟨⟨1, [], none, []⟩, ?_⟩, lit "symlink: some symlinks failed", ?_⟩
  · rfl
  · rfl

end Edify
end Recovery
