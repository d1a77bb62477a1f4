/-
# What a script means

The meaning of a script is a computation that aborts (`Term.run`). The functions
of the evaluator are programs that return `NULL`, and each implements its part
of the meaning if its arguments do. So the tree of a script (`Builds`) does what
the script means, and after a function that returns `NULL` there is no other
call.

Key definitions: `Term.run`, `Builds`.

Key theorems: `node_does`, `Builds.semantics`.
-/
import Recovery.Lib.Abort
import Recovery.Edify.Expr

namespace Recovery
namespace Edify

open Abort (Comp Final Implements Silent)

/-! ### Meaning -/

/-- A script. `leaf` is a call of a function outside of edify. -/
inductive Term
  | lit (s : CString)
  | leaf (f : CString)
  | seq (a b : Term)
  | add (a b : Term)
  | eq (a b : Term)
  | ne (a b : Term)
  | and (a b : Term)
  | or (a b : Term)
  | not (a : Term)
  | ifThen (a b : Term)
  | ifThenElse (a b c : Term)
  | abort (args : List Term)
  | assert (args : List Term)
  | concat (args : List Term)
  | isSubstring (a b : Term)
  | lessThanInt (a b : Term)
  | greaterThanInt (a b : Term)

/-- The functions outside of edify: an effect, an error message, and a result. -/
abbrev Leaves (σ : Type) := CString → σ → Option Value × Option Bytes × σ

abbrev Meaning (σ α : Type) := Comp σ Event α

variable {σ : Type}

def need (c : Meaning σ Value) : Meaning σ CString := do
  let v ← c
  match v with
  | .string s => pure s
  | .blob data => do
    Abort.emit (.refused (Value.blob data).type)
    Abort.stop

def truth (b : Bool) : Value := .string (if b then str "t" else .empty)

def invoke (leaves : Leaves σ) (f : CString) : Meaning σ Value := fun w =>
  ⟨(leaves f w).1, (leaves f w).2.2, [.called f (leaves f w).1]⟩

def both (test : CString → CString → Bool) (a b : Meaning σ Value) : Meaning σ Value := do
  let l ← need a
  let r ← need b
  pure (truth (test l r))

def needAll : List (Meaning σ Value) → Meaning σ (List CString)
  | [] => pure []
  | c :: cs => do
    let s ← need c
    let rest ← needAll cs
    pure (s :: rest)

/-- Strings from left to right that are not empty. -/
def demand : List (Meaning σ Value) → Meaning σ Value
  | [] => pure (.string .empty)
  | c :: cs => do
    let s ← need c
    if s = .empty then Abort.stop else demand cs

/-- The message is evaluated, then the script is over. -/
def abortWith : List (Meaning σ Value) → Meaning σ Value
  | [] => Abort.stop
  | c :: _ => do
    let _ ← need c
    Abort.stop

/-- The integer a string is, as a `long` holds it: behind white space, an optional
sign and decimal digits to the end. -/
def intOf (s : CString) : Option ℤ :=
  let (minus, digits) := skipSign s.bytes
  if digits ≠ [] ∧ digits.all (isDigit 10) = true then
    some (max (-2 ^ 31) (min (2 ^ 31 - 1) (if minus then -(number 10 digits : ℤ) else number 10 digits)))
  else none

/-- Both strings are integers, and the first is the smaller one. -/
def intLess (l r : CString) : Bool := (intOf l).any fun x => (intOf r).any fun y => x < y

mutual

def Term.run (leaves : Leaves σ) : Term → Meaning σ Value
  | .lit s => pure (.string s)
  | .leaf f => invoke leaves f
  | .seq a b => do
    let _ ← a.run leaves
    b.run leaves
  | .add a b => do
    let l ← need (a.run leaves)
    let r ← need (b.run leaves)
    pure (.string (l.append r))
  | .eq a b => both (fun l r => l = r) (a.run leaves) (b.run leaves)
  | .ne a b => both (fun l r => l ≠ r) (a.run leaves) (b.run leaves)
  | .and a b => do
    let l ← need (a.run leaves)
    if l = .empty then pure (.string l) else b.run leaves
  | .or a b => do
    let l ← need (a.run leaves)
    if l = .empty then b.run leaves else pure (.string l)
  | .not a => do
    let s ← need (a.run leaves)
    pure (truth (s = .empty))
  | .ifThen a b => do
    let cond ← need (a.run leaves)
    if cond = .empty then pure (.string .empty) else b.run leaves
  | .ifThenElse a b c => do
    let cond ← need (a.run leaves)
    if cond = .empty then c.run leaves else b.run leaves
  | .abort args => abortWith (Term.runs leaves args)
  | .assert args => demand (Term.runs leaves args)
  | .concat args => do
    let strings ← needAll (Term.runs leaves args)
    pure (.string (.join strings))
  | .isSubstring a b => both (fun needle haystack => needle.bytes <:+: haystack.bytes) (a.run leaves) (b.run leaves)
  | .lessThanInt a b => both intLess (a.run leaves) (b.run leaves)
  -- the second argument is evaluated first
  | .greaterThanInt a b => both intLess (b.run leaves) (a.run leaves)

def Term.runs (leaves : Leaves σ) : List Term → List (Meaning σ Value)
  | [] => []
  | t :: ts => t.run leaves :: Term.runs leaves ts

end

/-- The event that a function returned `NULL` or that a blob was refused. -/
def Event.isAbort : Event → Bool
  | .called _ result => result.isNone
  | .refused _ => true

section

variable {bad : Event → Prop} {c : Meaning σ Value}

theorem need_final (h : Final bad c) : Final bad (need c) := by
  refine h.bind fun v => ?_
  cases v with
  | string s => exact .pure s
  | blob data => exact .emit_stop _

theorem invoke_final (leaves : Leaves σ) (f : CString) : Final (fun e => e.isAbort = true) (invoke leaves f) := by
  intro w before e after hsplit hbad
  have hone : [Event.called f (leaves f w).1] = before ++ e :: after := hsplit
  cases before with
  | cons b before => exact absurd (List.cons.inj hone).2 (by simp)
  | nil =>
    obtain ⟨rfl, hafter⟩ := List.cons.inj hone
    exact ⟨hafter.symm, Option.isNone_iff_eq_none.mp hbad⟩

theorem both_final {a b : Meaning σ Value} (test : CString → CString → Bool) (ha : Final bad a) (hb : Final bad b) :
    Final bad (both test a b) := (need_final ha).bind fun _ => (need_final hb).bind fun _ => .pure _

theorem needAll_final : ∀ {cs : List (Meaning σ Value)}, (∀ c ∈ cs, Final bad c) → Final bad (needAll cs)
  | [], _ => .pure _
  | c :: _, h => (need_final (h c List.mem_cons_self)).bind fun _ =>
    (needAll_final fun c hc => h c (List.mem_cons_of_mem _ hc)).bind fun _ => .pure _

theorem demand_final : ∀ {cs : List (Meaning σ Value)}, (∀ c ∈ cs, Final bad c) → Final bad (demand cs)
  | [], _ => .pure _
  | c :: cs, h => by
    refine (need_final (h c List.mem_cons_self)).bind fun s => ?_
    split_ifs
    · exact .stop
    · exact demand_final fun c hc => h c (List.mem_cons_of_mem _ hc)

theorem abortWith_final : ∀ {cs : List (Meaning σ Value)}, (∀ c ∈ cs, Final bad c) → Final bad (abortWith cs)
  | [], _ => .stop
  | c :: _, h => (need_final (h c List.mem_cons_self)).bind fun _ => .stop

end

theorem ite_final {bad : Event → Prop} {p : Prop} [Decidable p] {a b : Meaning σ Value} (ha : Final bad a) (hb : Final bad b) :
    Final bad (if p then a else b) := by
  split_ifs
  · exact ha
  · exact hb

mutual

/-- When a function returns `NULL` or a blob is refused, the script is over. -/
theorem Term.run_final (leaves : Leaves σ) : ∀ t : Term, Final (fun e => e.isAbort = true) (t.run leaves)
  | .lit s => by rw [Term.run]; exact .pure _
  | .leaf f => by rw [Term.run]; exact invoke_final leaves f
  | .seq a b => by rw [Term.run]; exact (a.run_final leaves).bind fun _ => b.run_final leaves
  | .add a b => by
    rw [Term.run]
    exact (need_final (a.run_final leaves)).bind fun _ => (need_final (b.run_final leaves)).bind fun _ => .pure _
  | .eq a b => by rw [Term.run]; exact both_final _ (a.run_final leaves) (b.run_final leaves)
  | .ne a b => by rw [Term.run]; exact both_final _ (a.run_final leaves) (b.run_final leaves)
  | .and a b => by
    rw [Term.run]
    exact (need_final (a.run_final leaves)).bind fun _ => ite_final (.pure _) (b.run_final leaves)
  | .or a b => by
    rw [Term.run]
    exact (need_final (a.run_final leaves)).bind fun _ => ite_final (b.run_final leaves) (.pure _)
  | .not a => by rw [Term.run]; exact (need_final (a.run_final leaves)).bind fun _ => .pure _
  | .ifThen a b => by
    rw [Term.run]
    exact (need_final (a.run_final leaves)).bind fun _ => ite_final (.pure _) (b.run_final leaves)
  | .ifThenElse a b c => by
    rw [Term.run]
    exact (need_final (a.run_final leaves)).bind fun _ => ite_final (c.run_final leaves) (b.run_final leaves)
  | .abort args => by rw [Term.run]; exact abortWith_final (Term.runs_final leaves args)
  | .assert args => by rw [Term.run]; exact demand_final (Term.runs_final leaves args)
  | .concat args => by rw [Term.run]; exact (needAll_final (Term.runs_final leaves args)).bind fun _ => .pure _
  | .isSubstring a b => by rw [Term.run]; exact both_final _ (a.run_final leaves) (b.run_final leaves)
  | .lessThanInt a b => by rw [Term.run]; exact both_final _ (a.run_final leaves) (b.run_final leaves)
  | .greaterThanInt a b => by rw [Term.run]; exact both_final _ (b.run_final leaves) (a.run_final leaves)

theorem Term.runs_final (leaves : Leaves σ) : ∀ ts : List Term, ∀ c ∈ Term.runs leaves ts, Final (fun e => e.isAbort = true) c
  | [], _, h => by simp [Term.runs] at h
  | t :: ts, c, h => by
    rw [Term.runs] at h
    rcases List.mem_cons.mp h with rfl | h
    · exact t.run_final leaves
    · exact Term.runs_final leaves ts c h

end

/-! ### The functions implement it -/

theorem wholeInt_eq (s : CString) : wholeInt s = intOf s := by
  unfold wholeInt strtol intOf
  rcases hskip : skipSign s.bytes with ⟨minus, rest⟩
  dsimp only
  by_cases hall : ∀ c ∈ rest, isDigit 10 c = true
  · have htake : rest.takeWhile (isDigit 10) = rest := List.takeWhile_eq_self_iff.mpr hall
    have hdrop : rest.dropWhile (isDigit 10) = [] := List.dropWhile_eq_nil_iff.mpr hall
    by_cases hnil : rest = []
    · by_cases hs : s.bytes = [] <;> simp [hnil, hs]
    · have hs : s.bytes ≠ [] := fun hs => hnil (by simpa [hs, skipSign] using (congrArg Prod.snd hskip).symm)
      simpa [htake, hdrop, hnil, hs] using hall
  · have hdrop : rest.dropWhile (isDigit 10) ≠ [] := fun hnil => hall (List.dropWhile_eq_nil_iff.mp hnil)
    by_cases hs : s.bytes = [] <;> by_cases hdigits : rest.takeWhile (isDigit 10) = [] <;> simp [hs, hdigits, hdrop, hall]

theorem lessThan_eq : lessThan = intLess := by
  funext l r
  rw [lessThan, intLess, wholeInt_eq, wholeInt_eq]
  cases intOf l <;> cases intOf r <;> rfl

/-- What is seen of a state: the world and the trace. -/
def view : Abort.View (State σ) σ Event := ⟨State.cookie, State.trace⟩

section

variable {script : Bytes}

/-- The program does what the computation does, on states with the script. -/
def Does {α : Type} (script : Bytes) (p : M σ (Option α)) (c : Meaning σ α) : Prop :=
  Implements view (fun s => s.script = script) p c

theorem setErrmsg_stops {α : Type} (msg : Bytes) :
    Silent view (fun s : State σ => s.script = script) (do setErrmsg msg; pure (none : Option α)) none :=
  fun s hs => ⟨{ s with errmsg := some msg }, rfl, hs, rfl, rfl⟩

theorem argAt_bind {α : Type} {argv : List (Arg σ)} {i : ℕ} {a : Arg σ} (f : Arg σ → M σ α) (h : argv[i]? = some a) :
    (argAt argv i >>= f) = f a := by
  unfold argAt
  rw [h]
  rfl

variable {a b : Arg σ} {c d : Meaning σ Value}

theorem Does.andThen {α β : Type} {p : M σ (Option α)} {q : Meaning σ α} {f : Option α → M σ (Option β)} {g : α → Meaning σ β}
    (hp : Does script p q) (hnone : f none = pure none) (hf : ∀ v, Does script (f (some v)) (g v)) :
    Does script (p >>= f) (q >>= g) := Implements.andThen hp (hnone ▸ .pure none) hf

theorem Does.pure {α : Type} (v : α) : Does script (Pure.pure (some v) : M σ (Option α)) (Pure.pure v) := Implements.pure v

theorem booleanString_eq (s : CString) : booleanString s = !decide (s = .empty) := by
  obtain ⟨bytes, h⟩ := s
  simp [booleanString, CString.empty]

theorem Does.choose {s : CString} {p q : M σ (Option Value)} (hp : Does script p c) (hq : Does script q d) :
    Does script (if booleanString s then p else q) (if s = .empty then d else c) := by
  rw [booleanString_eq]
  by_cases h : s = .empty
  · simpa [h] using hq
  · simpa [h] using hp

theorem evaluate_does (h : Does script a.eval c) : Does script (evaluate a) (need c) := by
  refine h.andThen rfl fun v => ?_
  cases v with
  | string s => exact .pure s
  | blob data =>
    intro s hs
    exact ⟨_, rfl, hs, rfl, rfl⟩

theorem sequenceFn_does (ha : Does script a.eval c) (hb : Does script b.eval d) :
    Does script (sequenceFn [a, b]) (do let _ ← c; d) := by
  unfold sequenceFn
  rw [argAt_bind _ rfl]
  exact ha.andThen rfl fun _ => hb

theorem testFn_does {test test' : CString → CString → Bool} (htest : ∀ l r, test l r = test' l r) (ha : Does script a.eval c)
    (hb : Does script b.eval d) : Does script (testFn test [a, b]) (both test' c d) := by
  unfold testFn
  rw [argAt_bind _ rfl]
  refine (evaluate_does ha).andThen rfl fun l => ?_
  dsimp only
  rw [argAt_bind _ rfl]
  refine (evaluate_does hb).andThen rfl fun r => ?_
  rw [← htest]
  exact .pure _

theorem logicalAndFn_does (ha : Does script a.eval c) (hb : Does script b.eval d) :
    Does script (logicalAndFn [a, b]) (do let l ← need c; if l = .empty then pure (.string l) else d) := by
  unfold logicalAndFn
  rw [argAt_bind _ rfl]
  exact (evaluate_does ha).andThen rfl fun l => .choose hb (.pure _)

theorem logicalOrFn_does (ha : Does script a.eval c) (hb : Does script b.eval d) :
    Does script (logicalOrFn [a, b]) (do let l ← need c; if l = .empty then d else pure (.string l)) := by
  unfold logicalOrFn
  rw [argAt_bind _ rfl]
  exact (evaluate_does ha).andThen rfl fun l => .choose (.pure _) hb

theorem logicalNotFn_does (ha : Does script a.eval c) :
    Does script (logicalNotFn [a]) (do let s ← need c; pure (truth (s = .empty))) := by
  unfold logicalNotFn
  rw [argAt_bind _ rfl]
  refine (evaluate_does ha).andThen rfl fun s => ?_
  dsimp only
  rw [booleanString_eq, Bool.not_not]
  exact .pure _

theorem ifElseFn_two_does (ha : Does script a.eval c) (hb : Does script b.eval d) :
    Does script (ifElseFn [a, b]) (do let cond ← need c; if cond = .empty then pure (.string .empty) else d) := by
  unfold ifElseFn
  rw [if_neg (by simp), argAt_bind _ rfl]
  refine (evaluate_does ha).andThen rfl fun cond => ?_
  dsimp only
  rw [booleanString_eq]
  by_cases h : cond = .empty
  · subst h
    exact .pure _
  · rw [if_pos (by simp [h]), if_neg h, argAt_bind _ rfl]
    exact hb

theorem ifElseFn_three_does {e : Arg σ} {m : Meaning σ Value} (ha : Does script a.eval c) (hb : Does script b.eval d)
    (he : Does script e.eval m) :
    Does script (ifElseFn [a, b, e]) (do let cond ← need c; if cond = .empty then m else d) := by
  unfold ifElseFn
  rw [if_neg (by simp), argAt_bind _ rfl]
  exact (evaluate_does ha).andThen rfl fun cond => .choose hb he

def AllDo (script : Bytes) : List (Arg σ) → List (Meaning σ Value) → Prop := List.Forall₂ fun a c => Does script a.eval c

/-- The argument is somewhere in the script. -/
def Arg.InScript (script : Bytes) (a : Arg σ) : Prop := 0 ≤ a.start ∧ a.start ≤ a.stop ∧ a.stop ≤ script.length

theorem AllDo.two {argv : List (Arg σ)} {c d : Meaning σ Value} (h : AllDo script argv [c, d]) :
    ∃ a b, Does script a.eval c ∧ Does script b.eval d ∧ argv = [a, b] := by
  cases h with
  | cons ha h =>
    cases h with
    | cons hb h =>
      cases h
      exact ⟨_, _, ha, hb, rfl⟩

theorem AllDo.one {argv : List (Arg σ)} {c : Meaning σ Value} (h : AllDo script argv [c]) :
    ∃ a, Does script a.eval c ∧ argv = [a] := by
  cases h with
  | cons ha h =>
    cases h
    exact ⟨_, ha, rfl⟩

theorem AllDo.three {argv : List (Arg σ)} {c d m : Meaning σ Value} (h : AllDo script argv [c, d, m]) :
    ∃ a b e, Does script a.eval c ∧ Does script b.eval d ∧ Does script e.eval m ∧ argv = [a, b, e] := by
  cases h with
  | cons ha h =>
    obtain ⟨b, e, hb, he, rfl⟩ := AllDo.two h
    exact ⟨_, b, e, ha, hb, he, rfl⟩

theorem readVarArgs_does {argv : List (Arg σ)} {cs : List (Meaning σ Value)} (h : AllDo script argv cs) :
    Does script (readVarArgs argv) (needAll cs) := by
  unfold readVarArgs readArgs
  induction h with
  | nil => exact .pure _
  | cons ha _ ih =>
    refine (evaluate_does ha).andThen rfl fun s => ?_
    exact ih.andThen rfl fun rest => .pure _

theorem concatFn_does {argv : List (Arg σ)} {cs : List (Meaning σ Value)} (h : AllDo script argv cs) :
    Does script (concatFn argv) (do let strings ← needAll cs; pure (.string (.join strings))) :=
  (readVarArgs_does h).andThen rfl fun _ => .pure _

theorem concatFn_two_does (ha : Does script a.eval c) (hb : Does script b.eval d) :
    Does script (concatFn [a, b]) (do let l ← need c; let r ← need d; pure (.string (l.append r))) := by
  unfold concatFn readVarArgs readArgs
  rw [List.length_cons, readWith, bind_assoc]
  refine (evaluate_does ha).andThen rfl fun l => ?_
  dsimp only
  rw [List.length_cons, readWith, bind_assoc, bind_assoc]
  refine (evaluate_does hb).andThen rfl fun r => ?_
  have hjoin : CString.join [l, r] = l.append r := by simp [CString.join, CString.append, CString.empty]
  rw [← hjoin]
  exact .pure _

theorem assertFn_does {argv : List (Arg σ)} {cs : List (Meaning σ Value)} (h : AllDo script argv cs)
    (hplaces : ∀ a ∈ argv, a.InScript script) : Does script (assertFn argv) (demand cs) := by
  induction h with
  | nil => exact .pure _
  | @cons a c argv cs ha _ ih =>
    obtain ⟨hplace, hplaces⟩ := List.forall_mem_cons.mp hplaces
    refine (evaluate_does ha).andThen rfl fun s => ?_
    dsimp only
    rw [booleanString_eq]
    by_cases hs : s = .empty
    · -- the text of the argument lies in the script
      have hstop : Silent view (fun s : State σ => s.script = script)
          (do let source ← sourceText a; setErrmsg (lit "assert failed: " ++ source); pure (none : Option Value)) none := by
        intro st hst
        obtain ⟨h0, hle, hend⟩ := hplace
        have hslice := slice_of_le st.script h0 (n := (a.stop - a.start).toNat) (by rw [hst]; omega)
        have hsource : sourceText a st = .ok ((st.script.drop a.start.toNat).take (a.stop - a.start).toNat, st) := by
          unfold sourceText
          rw [if_pos (by omega), hslice]
          rfl
        refine ⟨{ st with errmsg := some (lit "assert failed: " ++ (st.script.drop a.start.toNat).take (a.stop - a.start).toNat) },
          ?_, hst, rfl, rfl⟩
        show (sourceText a st >>= _) = _
        rw [hsource]
        rfl
      rw [if_neg (by simp [hs]), if_pos hs]
      exact hstop.stops
    · rw [if_pos (by simp [hs]), if_neg hs]
      exact ih hplaces

theorem abortFn_does {argv : List (Arg σ)} {cs : List (Meaning σ Value)} (h : AllDo script argv cs) :
    Does script (abortFn argv) (abortWith cs) := by
  unfold abortFn
  cases h with
  | nil => exact (setErrmsg_stops _).stops
  | cons ha _ => exact Implements.andThen (evaluate_does ha) (setErrmsg_stops _) fun _ => (setErrmsg_stops _).stops

theorem lessThanIntFn_does (ha : Does script a.eval c) (hb : Does script b.eval d) :
    Does script (lessThanIntFn [a, b]) (both intLess c d) := by
  unfold lessThanIntFn
  rw [lessThan_eq]
  rw [if_neg (by simp), readArgs, readWith, bind_assoc]
  refine (evaluate_does ha).andThen rfl fun l => ?_
  dsimp only
  rw [readWith, bind_assoc, bind_assoc]
  exact (evaluate_does hb).andThen rfl fun r => .pure _

theorem greaterThanIntFn_does (ha : Does script a.eval c) (hb : Does script b.eval d) :
    Does script (greaterThanIntFn [a, b]) (both intLess d c) := by
  unfold greaterThanIntFn
  rw [if_neg (by simp), argAt_bind _ rfl, argAt_bind _ rfl]
  exact lessThanIntFn_does hb ha

end

/-! ### Trees -/

/-- The functions outside, as functions of the evaluator. -/
def leafFn (leaves : Leaves σ) (name : CString) (_ : List (Arg σ)) : M σ (Option Value) := fun s =>
  let (v, msg, cookie) := leaves name s.cookie
  .ok (v, { s with cookie := cookie, errmsg := msg <|> s.errmsg, trace := s.trace ++ [.called name v] })

/-- The function of the root of a script's tree, and the scripts of its arguments. -/
def Term.node : Term → Function × List Term
  | .lit _ => (.literal, [])
  | .leaf _ => (.registered, [])
  | .seq a b => (.sequence, [a, b])
  | .add a b => (.concat, [a, b])
  | .eq a b => (.equality, [a, b])
  | .ne a b => (.inequality, [a, b])
  | .and a b => (.logicalAnd, [a, b])
  | .or a b => (.logicalOr, [a, b])
  | .not a => (.logicalNot, [a])
  | .ifThen a b => (.ifElse, [a, b])
  | .ifThenElse a b c => (.ifElse, [a, b, c])
  | .abort args => (.abort, args)
  | .assert args => (.assert, args)
  | .concat args => (.concat, args)
  | .isSubstring a b => (.substring, [a, b])
  | .lessThanInt a b => (.lessThanInt, [a, b])
  | .greaterThanInt a b => (.greaterThanInt, [a, b])

def Term.Named : Term → CString → Prop
  | .lit s, name => name = s
  | .leaf f, name => name = f
  | _, _ => True

/-- The place of a node is somewhere in the script. -/
def Expr.InScript (script : Bytes) : Expr → Prop
  | .mk _ _ _ start stop => 0 ≤ start ∧ start ≤ stop ∧ stop ≤ script.length

mutual

/-- The tree of a script. The arguments of `assert` are somewhere in the text,
which is where the message is from. -/
inductive Builds (script : Bytes) : Term → Expr → Prop
  | node {t : Term} {name : CString} {argv : List Expr} {start stop : ℤ} (hname : t.Named name)
      (hplaces : t.node.1 = .assert → ∀ a ∈ argv, a.InScript script) (hargs : BuildsAll script t.node.2 argv) :
      Builds script t (.mk t.node.1 name argv start stop)

inductive BuildsAll (script : Bytes) : List Term → List Expr → Prop
  | nil : BuildsAll script [] []
  | cons {t : Term} {ts : List Term} {e : Expr} {es : List Expr} (head : Builds script t e) (tail : BuildsAll script ts es) :
      BuildsAll script (t :: ts) (e :: es)

end

theorem BuildsAll.length_eq {script : Bytes} : ∀ {ts : List Term} {es : List Expr}, BuildsAll script ts es → es.length = ts.length
  | _, _, .nil => rfl
  | _, _, .cons _ tail => congrArg Nat.succ tail.length_eq

theorem toArg_inScript {script : Bytes} {ext : CString → List (Arg σ) → M σ (Option Value)} {e : Expr} (h : e.InScript script) :
    (e.toArg ext).InScript script := by
  obtain ⟨fn, name, argv, start, stop⟩ := e
  rw [Expr.toArg]
  exact h

theorem toArgs_inScript {script : Bytes} {ext : CString → List (Arg σ) → M σ (Option Value)} : ∀ {es : List Expr},
    (∀ e ∈ es, e.InScript script) → ∀ a ∈ Expr.toArgs ext es, a.InScript script
  | [], _ => by simp [Expr.toArgs]
  | e :: es, h => by
    obtain ⟨he, hes⟩ := List.forall_mem_cons.mp h
    rw [Expr.toArgs]
    exact List.forall_mem_cons.mpr ⟨toArg_inScript he, toArgs_inScript hes⟩

theorem node_does {script : Bytes} (leaves : Leaves σ) {name : CString} {argv : List (Arg σ)} : ∀ t : Term, t.Named name →
    (t.node.1 = .assert → ∀ a ∈ argv, a.InScript script) → AllDo script argv (Term.runs leaves t.node.2) →
    Does script (t.node.1.call (leafFn leaves) name argv) (t.run leaves) := by
  intro t hname hplaces hargs
  cases t with
  | lit s =>
    obtain rfl : name = s := hname
    rw [Term.run]
    exact .pure _
  | leaf f =>
    obtain rfl : name = f := hname
    rw [Term.run]
    exact fun s hs => ⟨_, rfl, hs, rfl, rfl⟩
  | seq a b =>
    obtain ⟨ea, eb, ha, hb, rfl⟩ := hargs.two
    rw [Term.run]
    exact sequenceFn_does ha hb
  | add a b =>
    obtain ⟨ea, eb, ha, hb, rfl⟩ := hargs.two
    rw [Term.run]
    exact concatFn_two_does ha hb
  | eq a b =>
    obtain ⟨ea, eb, ha, hb, rfl⟩ := hargs.two
    rw [Term.run]
    refine testFn_does (fun l r => ?_) ha hb
    rw [decide_eq_decide, strcmp_eq_zero l.no_nul r.no_nul, CString.ext_iff]
  | ne a b =>
    obtain ⟨ea, eb, ha, hb, rfl⟩ := hargs.two
    rw [Term.run]
    refine testFn_does (fun l r => ?_) ha hb
    rw [decide_eq_decide, Ne, Ne, strcmp_eq_zero l.no_nul r.no_nul, CString.ext_iff]
  | and a b =>
    obtain ⟨ea, eb, ha, hb, rfl⟩ := hargs.two
    rw [Term.run]
    exact logicalAndFn_does ha hb
  | or a b =>
    obtain ⟨ea, eb, ha, hb, rfl⟩ := hargs.two
    rw [Term.run]
    exact logicalOrFn_does ha hb
  | not a =>
    obtain ⟨ea, ha, rfl⟩ := hargs.one
    rw [Term.run]
    exact logicalNotFn_does ha
  | ifThen a b =>
    obtain ⟨ea, eb, ha, hb, rfl⟩ := hargs.two
    rw [Term.run]
    exact ifElseFn_two_does ha hb
  | ifThenElse a b c =>
    obtain ⟨ea, eb, ec, ha, hb, hc, rfl⟩ := hargs.three
    rw [Term.run]
    exact ifElseFn_three_does ha hb hc
  | abort args =>
    rw [Term.run]
    exact abortFn_does hargs
  | assert args =>
    rw [Term.run]
    exact assertFn_does hargs (hplaces rfl)
  | concat args =>
    rw [Term.run]
    exact concatFn_does hargs
  | isSubstring a b =>
    obtain ⟨ea, eb, ha, hb, rfl⟩ := hargs.two
    rw [Term.run]
    refine testFn_does (fun needle haystack => ?_) ha hb
    rw [Bool.eq_iff_iff, strstr_iff, decide_eq_true_iff]
  | lessThanInt a b =>
    obtain ⟨ea, eb, ha, hb, rfl⟩ := hargs.two
    rw [Term.run]
    exact lessThanIntFn_does ha hb
  | greaterThanInt a b =>
    obtain ⟨ea, eb, ha, hb, rfl⟩ := hargs.two
    rw [Term.run]
    exact greaterThanIntFn_does ha hb

mutual

theorem Builds.does {script : Bytes} (leaves : Leaves σ) : ∀ {t : Term} {e : Expr}, Builds script t e →
    Does script (e.toArg (leafFn leaves)).eval (t.run leaves)
  | _, _, .node hname hplaces hargs => by
    rw [Expr.toArg]
    exact node_does leaves _ hname (fun hassert => toArgs_inScript (hplaces hassert)) (hargs.does leaves)

theorem BuildsAll.does {script : Bytes} (leaves : Leaves σ) : ∀ {ts : List Term} {es : List Expr}, BuildsAll script ts es →
    AllDo script (Expr.toArgs (leafFn leaves) es) (Term.runs leaves ts)
  | _, _, .nil => .nil
  | _, _, .cons head tail => by
    rw [Expr.toArgs, Term.runs]
    exact .cons (head.does leaves) (tail.does leaves)

end

/-- **A tree does what its script means.** -/
theorem Builds.semantics {script : Bytes} {t : Term} {e : Expr} (h : Builds script t e) (leaves : Leaves σ) (s : State σ)
    (hs : s.script = script) :
    (∃ s', evaluateValue (e.toArg (leafFn leaves)) s = .ok ((t.run leaves s.cookie).value, s') ∧
      s'.cookie = (t.run leaves s.cookie).world ∧ s'.trace = s.trace ++ (t.run leaves s.cookie).events) ∧
    (∃ s', evaluate (e.toArg (leafFn leaves)) s = .ok ((need (t.run leaves) s.cookie).value, s') ∧
      s'.cookie = (need (t.run leaves) s.cookie).world ∧ s'.trace = s.trace ++ (need (t.run leaves) s.cookie).events) ∧
    ∀ before event after, (need (t.run leaves) s.cookie).events = before ++ event :: after → event.isAbort = true →
      after = [] ∧ (need (t.run leaves) s.cookie).value = none := by
  have hdoes := h.does leaves
  obtain ⟨s₁, hrun, -, hworld, htrace⟩ := hdoes s hs
  obtain ⟨s₂, hrun', -, hworld', htrace'⟩ := evaluate_does hdoes s hs
  exact ⟨⟨s₁, hrun, hworld, htrace⟩, ⟨s₂, hrun', hworld', htrace'⟩, need_final (t.run_final leaves) s.cookie⟩

end Edify
end Recovery
