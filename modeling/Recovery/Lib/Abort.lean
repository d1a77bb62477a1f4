/-
# Computations that abort

A computation acts on a world, leaves a trace of events and ends with a value or aborts. A C
program returns a pointer that may be `NULL`, and every caller has to look at it.

Key definitions: `Comp`, `stop`, `Final`, `Implements`.
Key theorems: `Final.bind`, `Implements.andThen`.
-/
import Mathlib.Tactic.Common

namespace Abort

variable {W E α β : Type}

/-- How a computation ends: its value unless it aborted, the world and the events. -/
structure Result (W E α : Type) where
  value : Option α
  world : W
  events : List E

def Comp (W E α : Type) := W → Result W E α

namespace Comp

protected def pure (a : α) : Comp W E α := fun w => ⟨some a, w, []⟩

protected def bind (c : Comp W E α) (f : α → Comp W E β) : Comp W E β := fun w =>
  match (c w).value with
  | none => ⟨none, (c w).world, (c w).events⟩
  | some a => ⟨(f a (c w).world).value, (f a (c w).world).world, (c w).events ++ (f a (c w).world).events⟩

instance : Monad (Comp W E) where
  pure := Comp.pure
  bind := Comp.bind

end Comp

def stop : Comp W E α := fun w => ⟨none, w, []⟩

def emit (e : E) : Comp W E Unit := fun w => ⟨some (), w, [e]⟩

theorem bind_of_none {c : Comp W E α} {f : α → Comp W E β} {w : W} (h : (c w).value = none) :
    (c >>= f) w = ⟨none, (c w).world, (c w).events⟩ := by
  show Comp.bind c f w = _
  unfold Comp.bind
  rw [h]

theorem bind_of_some {c : Comp W E α} {f : α → Comp W E β} {w : W} {a : α} (h : (c w).value = some a) :
    (c >>= f) w = ⟨(f a (c w).world).value, (f a (c w).world).world, (c w).events ++ (f a (c w).world).events⟩ := by
  show Comp.bind c f w = _
  unfold Comp.bind
  rw [h]

/-! ### The last event -/

/-- After an event of the kind `bad` nothing happens, and the computation aborts. -/
def Final (bad : E → Prop) (c : Comp W E α) : Prop :=
  ∀ w before e after, (c w).events = before ++ e :: after → bad e → after = [] ∧ (c w).value = none

variable {bad : E → Prop}

theorem Final.pure (a : α) : Final bad (pure a : Comp W E α) := by
  intro w before e after h
  exact absurd h (by simp [Pure.pure, Comp.pure])

theorem Final.stop : Final bad (stop : Comp W E α) := by
  intro w before e after h
  exact absurd h (by simp [Abort.stop])

theorem Final.not_bad {c : Comp W E α} (h : Final bad c) {w : W} {a : α} (ha : (c w).value = some a) :
    ∀ e ∈ (c w).events, ¬ bad e := by
  intro e he hbad
  obtain ⟨before, after, hsplit⟩ := List.append_of_mem he
  have hnone := (h w before e after hsplit hbad).2
  rw [ha] at hnone
  cases hnone

theorem Final.bind {c : Comp W E α} {f : α → Comp W E β} (hc : Final bad c) (hf : ∀ a, Final bad (f a)) :
    Final bad (c >>= f) := by
  intro w before e after hsplit hbad
  cases ha : (c w).value with
  | none =>
    rw [bind_of_none ha] at hsplit ⊢
    exact ⟨(hc w before e after hsplit hbad).1, rfl⟩
  | some a =>
    rw [bind_of_some ha] at hsplit ⊢
    dsimp only at hsplit ⊢
    -- the event is one of the second part
    rcases List.append_eq_append_iff.mp hsplit with ⟨more, hbefore, hevents⟩ | ⟨more, hevents, hafter⟩
    · exact hf a _ more e after hevents hbad
    · cases more with
      | nil => exact hf a _ [] e after hafter.symm hbad
      | cons e' more =>
        obtain ⟨rfl, -⟩ := List.cons.inj hafter
        exact absurd hbad (hc.not_bad ha e (by simp [hevents]))

theorem Final.emit_stop (e : E) : Final bad (do emit e; Abort.stop : Comp W E α) := by
  intro w before e' after hsplit _
  have hone : [e] = before ++ e' :: after := hsplit
  cases before with
  | nil => exact ⟨(List.cons.inj hone).2.symm, rfl⟩
  | cons b before => exact absurd (List.cons.inj hone).2 (by simp)

/-! ### Programs that return `NULL` -/

section

variable {S F : Type}

/-- What is seen of the state of a program. -/
structure View (S W E : Type) where
  world : S → W
  events : S → List E

variable {v : View S W E} {I : S → Prop}

/-- The program ends with the value of the computation, in the state that it leaves. -/
def Implements (v : View S W E) (I : S → Prop) (p : StateT S (Except F) (Option α)) (c : Comp W E α) : Prop :=
  ∀ s, I s → ∃ s', p s = .ok ((c (v.world s)).value, s') ∧ I s' ∧ v.world s' = (c (v.world s)).world ∧
    v.events s' = v.events s ++ (c (v.world s)).events

def Silent (v : View S W E) (I : S → Prop) (p : StateT S (Except F) (Option α)) (r : Option α) : Prop :=
  ∀ s, I s → ∃ s', p s = .ok (r, s') ∧ I s' ∧ v.world s' = v.world s ∧ v.events s' = v.events s

theorem Silent.pure (r : Option α) : Silent v I (pure r : StateT S (Except F) (Option α)) r := fun s hs => ⟨s, rfl, hs, rfl, rfl⟩

theorem Silent.returns {p : StateT S (Except F) (Option α)} {a : α} (h : Silent v I p (some a)) : Implements v I p (Pure.pure a) := by
  intro s hs
  obtain ⟨s', hp, hI, hw, he⟩ := h s hs
  exact ⟨s', hp, hI, hw, he.trans (List.append_nil _).symm⟩

theorem Silent.stops {p : StateT S (Except F) (Option α)} (h : Silent v I p none) : Implements v I p stop := by
  intro s hs
  obtain ⟨s', hp, hI, hw, he⟩ := h s hs
  exact ⟨s', hp, hI, hw, he.trans (List.append_nil _).symm⟩

theorem Implements.pure (a : α) : Implements v I (Pure.pure (some a) : StateT S (Except F) (Option α)) (Pure.pure a) :=
  Silent.returns (Silent.pure _)

/-- A call and the rest, which does nothing that is seen if the call returned `NULL`. -/
theorem Implements.andThen {p : StateT S (Except F) (Option α)} {c : Comp W E α}
    {f : Option α → StateT S (Except F) (Option β)} {g : α → Comp W E β} (hp : Implements v I p c) (hnone : Silent v I (f none) none)
    (hf : ∀ a, Implements v I (f (some a)) (g a)) : Implements v I (p >>= f) (c >>= g) := by
  intro s hs
  obtain ⟨s₁, hrun, hI, hw, he⟩ := hp s hs
  have hbind : (p >>= f) s = f (c (v.world s)).value s₁ := by
    show (p s >>= fun r => f r.1 r.2) = _
    rw [hrun]
    rfl
  rw [hbind]
  cases ha : (c (v.world s)).value with
  | none =>
    obtain ⟨s₂, hrun', hI', hw', he'⟩ := hnone s₁ hI
    rw [bind_of_none ha]
    exact ⟨s₂, hrun', hI', hw'.trans hw, he'.trans he⟩
  | some a =>
    obtain ⟨s₂, hrun', hI', hw', he'⟩ := hf a s₁ hI
    rw [hw] at hrun' hw' he'
    rw [bind_of_some ha]
    refine ⟨s₂, hrun', hI', hw', ?_⟩
    rw [he', he, List.append_assoc]

end

end Abort
