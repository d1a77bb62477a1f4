/-
# Programs that a crash can stop

Each call of a program takes one event from an infinite supply, which decides how the call
answers and whether the machine stops there. A run ends with a value, with a failure, or in
the state a crash leaves.

Key definitions: `call`, `withVar`, `beside`, `Sat`, `Can`, `Reachable`.
Key theorems: `Sat.bind`, `Sat.step`, `Can.run`, `Reachable.invariant`.
-/
import Mathlib.Logic.Relation
import Mathlib.Tactic.Common

namespace Crash

/-- How a run ends: with a value or a failure after `n` events, or in a crash. -/
inductive Out (ε σ α : Type)
  | ok (a : α) (n : ℕ) (s : σ)
  | error (e : ε) (n : ℕ) (s : σ)
  | crash (s : σ)

def Out.state {ε σ α : Type} : Out ε σ α → σ
  | .ok _ _ s => s
  | .error _ _ s => s
  | .crash s => s

def Out.error? {ε σ α : Type} : Out ε σ α → Option ε
  | .error e _ _ => some e
  | _ => none

/-- The value a run returns and the state it returns in. -/
def Out.returned {ε σ α : Type} : Out ε σ α → Option (α × σ)
  | .ok a _ s => some (a, s)
  | _ => none

theorem Out.exists_ok {ε σ α : Type} {o : Out ε σ α} {a : α} (h : o.returned.map Prod.fst = some a) : ∃ n s, o = .ok a n s := by
  cases o with
  | ok b n s =>
    obtain rfl : b = a := Option.some.inj h
    exact ⟨n, s, rfl⟩
  | error e n s => cases h
  | crash s => cases h

/-- A program: the events, how many of them are used up, and the state. -/
def Prog (E ε σ α : Type) := (ℕ → E) → ℕ → σ → Out ε σ α

section

variable {E ε σ α β : Type}

protected def Prog.pure (a : α) : Prog E ε σ α := fun _ n s => .ok a n s

protected def Prog.bind (p : Prog E ε σ α) (f : α → Prog E ε σ β) : Prog E ε σ β := fun ev n s =>
  match p ev n s with
  | .ok a n s => f a ev n s
  | .error e n s => .error e n s
  | .crash s => .crash s

instance : Monad (Prog E ε σ) where
  pure := Prog.pure
  bind := Prog.bind

def fail (e : ε) : Prog E ε σ α := fun _ n s => .error e n s

def failIf (c : Prop) [Decidable c] (e : ε) : Prog E ε σ Unit := if c then fail e else pure ()

/-- When an event is a crash, and what the crash leaves. -/
structure Machine (E σ : Type) where
  halts : E → Bool
  lose : E → σ → σ

/-- A call: it takes the next event, which stops the machine or answers the call. -/
def call (M : Machine E σ) (f : E → σ → α × σ) : Prog E ε σ α := fun ev n s =>
  if M.halts (ev n) then .crash (M.lose (ev n) s) else .ok (f (ev n) s).1 (n + 1) (f (ev n) s).2

/-- A program with a variable of its own, which begins as `t`. -/
def withVar {τ : Type} (t : τ) (p : Prog E ε (σ × τ) α) : Prog E ε σ (α × τ) := fun ev n s =>
  match p ev n (s, t) with
  | .ok a n s => .ok (a, s.2) n s.1
  | .error e n s => .error e n s.1
  | .crash s => .crash s.1

/-- A program beside a variable that it does not use. -/
def beside {τ : Type} (p : Prog E ε σ α) : Prog E ε (σ × τ) α := fun ev n s =>
  match p ev n s.1 with
  | .ok a n s' => .ok a n (s', s.2)
  | .error e n s' => .error e n (s', s.2)
  | .crash s' => .crash (s', s.2)

/-! ### Every run -/

/-- The end of a run satisfies the postcondition of its kind. -/
def Out.Ends (ok : α → σ → Prop) (err : ε → σ → Prop) (cr : σ → Prop) : Out ε σ α → Prop
  | .ok a _ s => ok a s
  | .error e _ s => err e s
  | .crash s => cr s

/-- Every run from `s` on events that satisfy `P` ends well. -/
def Sat (P : E → Prop) (p : Prog E ε σ α) (s : σ) (ok : α → σ → Prop) (err : ε → σ → Prop) (cr : σ → Prop) : Prop :=
  ∀ ev : ℕ → E, (∀ i, P (ev i)) → ∀ n, (p ev n s).Ends ok err cr

variable {P : E → Prop} {p : Prog E ε σ α} {s : σ} {ok ok' : α → σ → Prop} {err err' : ε → σ → Prop}
  {cr cr' : σ → Prop}

theorem Sat.mono (h : Sat P p s ok err cr) (hok : ∀ a s, ok a s → ok' a s) (herr : ∀ e s, err e s → err' e s)
    (hcr : ∀ s, cr s → cr' s) : Sat P p s ok' err' cr' := by
  intro ev hev n
  have hend := h ev hev n
  cases hp : p ev n s with rw [hp] at hend
  | ok a n s => exact hok _ _ hend
  | error e n s => exact herr _ _ hend
  | crash s => exact hcr _ hend

theorem Sat.imp (h : Sat P p s ok err cr) (hok : ∀ a s, ok a s → ok' a s) : Sat P p s ok' err cr :=
  h.mono hok (fun _ _ h => h) fun _ h => h

/-- Only what a run that returns leaves. -/
theorem Sat.relax (h : Sat P p s ok err cr) : Sat P p s ok (fun _ _ => True) fun _ => True :=
  h.mono (fun _ _ h => h) (fun _ _ _ => trivial) fun _ _ => trivial

theorem Sat.pure {a : α} (h : ok a s) : Sat P (pure a : Prog E ε σ α) s ok err cr := fun _ _ _ => h

theorem Sat.fail {e : ε} (h : err e s) : Sat P (Crash.fail e : Prog E ε σ α) s ok err cr := fun _ _ _ => h

theorem Sat.bind {f : α → Prog E ε σ β} {okb : β → σ → Prop}
    (h : Sat P p s (fun a s => Sat P (f a) s okb err cr) err cr) : Sat P (p >>= f) s okb err cr := by
  intro ev hev n
  have hend := h ev hev n
  show Out.Ends okb err cr (Prog.bind p f ev n s)
  unfold Prog.bind
  cases hp : p ev n s with rw [hp] at hend
  | ok a n s => exact hend ev hev n
  | error e n s => exact hend
  | crash s => exact hend

theorem Sat.step {f : α → Prog E ε σ β} {okb : β → σ → Prop} (h : Sat P p s ok err cr)
    (hf : ∀ a s, ok a s → Sat P (f a) s okb err cr) : Sat P (p >>= f) s okb err cr :=
  Sat.bind (h.mono hf (fun _ _ h => h) fun _ h => h)

theorem Sat.failIf {c : Prop} [Decidable c] {e : ε} {ok : Unit → σ → Prop} (hc : c → err e s) (hn : ¬ c → ok () s) :
    Sat P (Crash.failIf c e : Prog E ε σ Unit) s ok err cr := by
  unfold Crash.failIf
  split_ifs with h
  · exact Sat.fail (hc h)
  · exact Sat.pure (hn h)

theorem Sat.guard {c : Prop} [Decidable c] {e : ε} {f : Unit → Prog E ε σ β} {okb : β → σ → Prop} (hc : c → err e s)
    (hn : ¬ c → Sat P (f ()) s okb err cr) : Sat P (Crash.failIf c e >>= f) s okb err cr :=
  Sat.bind (Sat.failIf hc hn)

theorem Sat.call {M : Machine E σ} {f : E → σ → α × σ} (hcr : ∀ e, P e → M.halts e = true → cr (M.lose e s))
    (hok : ∀ e, P e → M.halts e = false → ok (f e s).1 (f e s).2) : Sat P (Crash.call M f : Prog E ε σ α) s ok err cr := by
  intro ev hev n
  unfold Crash.call
  split_ifs with h
  · exact hcr _ (hev n) h
  · exact hok _ (hev n) (by simpa using h)

theorem Sat.any : Sat P p s (fun _ _ => True) (fun _ _ => True) fun _ => True := by
  intro ev _ n
  cases p ev n s <;> trivial

theorem Sat.withVar {τ : Type} {t : τ} {p : Prog E ε (σ × τ) α} {ok : α × τ → σ → Prop}
    (h : Sat P p (s, t) (fun a s => ok (a, s.2) s.1) (fun e s => err e s.1) (fun s => cr s.1)) :
    Sat P (Crash.withVar t p) s ok err cr := by
  intro ev hev n
  have hend := h ev hev n
  unfold Crash.withVar
  cases hp : p ev n (s, t) with rw [hp] at hend
  | ok a n s => exact hend
  | error e n s => exact hend
  | crash s => exact hend

theorem Sat.beside {τ : Type} {t : τ} (h : Sat P p s ok err cr) : Sat P (Crash.beside p) (s, t)
    (fun a s => ok a s.1 ∧ s.2 = t) (fun e s => err e s.1 ∧ s.2 = t) (fun s => cr s.1 ∧ s.2 = t) := by
  intro ev hev n
  have hend := h ev hev n
  unfold Crash.beside
  cases hp : p ev n s with rw [hp] at hend
  | ok a n s => exact ⟨hend, rfl⟩
  | error e n s => exact ⟨hend, rfl⟩
  | crash s => exact ⟨hend, rfl⟩

theorem Sat.of_ok {ev : ℕ → E} {n n' : ℕ} {a : α} {s' : σ} (h : Sat P p s ok err cr) (hev : ∀ i, P (ev i))
    (hrun : p ev n s = .ok a n' s') : ok a s' := by
  have hend := h ev hev n
  rw [hrun] at hend
  exact hend

theorem Sat.events {P' : E → Prop} (h : Sat P p s ok err cr) (hP : ∀ e, P' e → P e) : Sat P' p s ok err cr :=
  fun ev hev n => h ev (fun i => hP _ (hev i)) n

/-! ### One run -/

theorem bind_of_ok {f : α → Prog E ε σ β} {ev : ℕ → E} {n n' : ℕ} {a : α} {s' : σ} (h : p ev n s = .ok a n' s') :
    (p >>= f) ev n s = f a ev n' s' := by
  show Prog.bind p f ev n s = _
  rw [Prog.bind, h]

/-- On the events `es` the program returns `a`, having used all of them. -/
def Plays (p : Prog E ε σ α) (s : σ) (es : List E) (a : α) (s' : σ) : Prop :=
  ∀ (ev : ℕ → E) (n : ℕ), (∀ i e, es[i]? = some e → ev (n + i) = e) → p ev n s = .ok a (n + es.length) s'

theorem Plays.pure (a : α) (s : σ) : Plays (pure a : Prog E ε σ α) s [] a s := fun _ _ _ => rfl

theorem Plays.bind {f : α → Prog E ε σ β} {s s' s'' : σ} {es es' : List E} {a : α} {b : β}
    (h : Plays p s es a s') (h' : Plays (f a) s' es' b s'') : Plays (p >>= f) s (es ++ es') b s'' := by
  intro ev n hev
  have h1 := h ev n fun i e hi => hev i e (by
    rw [List.getElem?_append_left (List.getElem?_eq_some_iff.mp hi).1]
    exact hi)
  have h2 := h' ev (n + es.length) fun i e hi => by
    rw [Nat.add_assoc]
    exact hev (es.length + i) e (by simpa [List.getElem?_append_right] using hi)
  rw [bind_of_ok h1, h2, List.length_append, Nat.add_assoc]

theorem Plays.call {M : Machine E σ} {f : E → σ → α × σ} {e : E} (s : σ) (h : M.halts e = false) :
    Plays (Crash.call M f : Prog E ε σ α) s [e] (f e s).1 (f e s).2 := by
  intro ev n hev
  have h0 : ev n = e := hev 0 e rfl
  simp [Crash.call, h0, h]

def Can (p : Prog E ε σ α) (s : σ) (a : α) (s' : σ) : Prop := ∃ es : List E, Plays p s es a s'

theorem Can.pure (a : α) (s : σ) : Can (pure a : Prog E ε σ α) s a s := ⟨[], .pure a s⟩

theorem Can.bind {f : α → Prog E ε σ β} {s s' s'' : σ} {a : α} {b : β} (h : Can p s a s') (h' : Can (f a) s' b s'') :
    Can (p >>= f) s b s'' := by
  obtain ⟨es, h⟩ := h
  obtain ⟨es', h'⟩ := h'
  exact ⟨es ++ es', h.bind h'⟩

theorem Can.call {M : Machine E σ} {f : E → σ → α × σ} {a : α} {s s' : σ} (e : E) (h : M.halts e = false)
    (hf : f e s = (a, s')) : Can (Crash.call M f : Prog E ε σ α) s a s' := by
  have hp : Plays (Crash.call M f : Prog E ε σ α) s [e] (f e s).1 (f e s).2 := .call s h
  rw [hf] at hp
  exact ⟨[e], hp⟩

theorem Can.run [Inhabited E] {a : α} {s s' : σ} (h : Can p s a s') : ∃ ev n, p ev 0 s = .ok a n s' := by
  obtain ⟨es, h⟩ := h
  refine ⟨fun i => es.getD i default, _, h _ 0 fun i e hi => ?_⟩
  simp [hi]

/-! ### Run after run -/

/-- One run leads from `s` to `s'`: it ended there in any way. -/
def Leads (P : E → Prop) (p : Prog E ε σ α) (s s' : σ) : Prop :=
  ∃ ev : ℕ → E, (∀ i, P (ev i)) ∧ (p ev 0 s).state = s'

def Reachable (P : E → Prop) (p : Prog E ε σ α) : σ → σ → Prop := Relation.ReflTransGen (Leads P p)

theorem Sat.leads {I : σ → Prop} {s' : σ} (h : Sat P p s (fun _ => I) (fun _ => I) I) (hl : Leads P p s s') : I s' := by
  obtain ⟨ev, hev, rfl⟩ := hl
  have := h ev hev 0
  cases hp : p ev 0 s <;> rw [hp] at this <;> exact this

theorem Reachable.invariant {I : σ → Prop} {s' : σ} (h : ∀ s, I s → Sat P p s (fun _ => I) (fun _ => I) I)
    (hr : Reachable P p s s') (hs : I s) : I s' := by
  induction hr with
  | refl => exact hs
  | tail _ hl ih => exact (h _ ih).leads hl

end

end Crash
