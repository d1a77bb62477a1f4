/-
# The parser of update scripts (parser.y)

`yyparse` is the automaton that bison makes of the grammar: the rows say which terminals are
shifted in a state and which rule is reduced. An error is recovered from as bison does it:
states are popped until `error` can be shifted, and terminals dropped until one can be
shifted behind it; for three terminals no further error is counted.

Key theorem: `yyparse_result`.
-/
import Recovery.Edify.Expr
import Recovery.Edify.Lexer

namespace Recovery
namespace Edify

/-! ### The grammar -/

inductive NonTerm
  | input
  | expr
  | arglist
  deriving DecidableEq

/-- A symbol of a rule. -/
inductive Symbol
  | t (sym : Sym)
  | nt (n : NonTerm)
  deriving DecidableEq

inductive Rule
  | start
  | input
  | literal
  | paren
  | trailing
  | sequence
  | error
  | concat
  | equal
  | notEqual
  | and
  | or
  | not
  | ifThen
  | ifThenElse
  | call
  | noArgs
  | oneArg
  | moreArgs
  deriving DecidableEq

def Rule.all : List Rule :=
  [.start, .input, .literal, .paren, .trailing, .sequence, .error, .concat, .equal, .notEqual, .and, .or, .not, .ifThen, .ifThenElse,
    .call, .noArgs, .oneArg, .moreArgs]

/-- What a rule is for; `none` for the one that bison adds. -/
def Rule.lhs : Rule → Option NonTerm
  | .start => none
  | .input => some .input
  | .noArgs | .oneArg | .moreArgs => some .arglist
  | _ => some .expr

def Rule.rhs : Rule → List Symbol
  | .start => [.nt .input, .t .eof]
  | .input => [.nt .expr]
  | .literal => [.t .string]
  | .paren => [.t .open, .nt .expr, .t .close]
  | .trailing => [.nt .expr, .t .semicolon]
  | .sequence => [.nt .expr, .t .semicolon, .nt .expr]
  | .error => [.t .error, .t .semicolon, .nt .expr]
  | .concat => [.nt .expr, .t .plus, .nt .expr]
  | .equal => [.nt .expr, .t .eq, .nt .expr]
  | .notEqual => [.nt .expr, .t .ne, .nt .expr]
  | .and => [.nt .expr, .t .and, .nt .expr]
  | .or => [.nt .expr, .t .or, .nt .expr]
  | .not => [.t .not, .nt .expr]
  | .ifThen => [.t .kwIf, .nt .expr, .t .kwThen, .nt .expr, .t .kwEndif]
  | .ifThenElse => [.t .kwIf, .nt .expr, .t .kwThen, .nt .expr, .t .kwElse, .nt .expr, .t .kwEndif]
  | .call => [.t .string, .t .open, .nt .arglist, .t .close]
  | .noArgs => []
  | .oneArg => [.nt .expr]
  | .moreArgs => [.nt .arglist, .t .comma, .nt .expr]

/-! ### The automaton -/

/-- The rows of a state. -/
structure Row where
  shifts : List (Sym × ℕ)
  gotos : List (NonTerm × ℕ) := []
  reduce : Option Rule := none
  /-- the terminals in front of which the rule is reduced, if not all -/
  follow : Option (List Sym) := none
  deriving DecidableEq

/-- The terminals that an expression begins with. -/
def begins : List (Sym × ℕ) := [(.string, 3), (.open, 4), (.error, 5), (.not, 6), (.kwIf, 7)]

def before (expr : ℕ) : Row := { shifts := begins, gotos := [(.expr, expr)] }

/-- The operators, with the strongest first. -/
def operators : List (Sym × ℕ) := [(.plus, 10), (.ne, 12), (.eq, 11), (.and, 13), (.or, 14), (.semicolon, 9)]

def behind (shifts : List (Sym × ℕ)) : Row := { shifts := shifts ++ operators }

/-- A state in which a rule is complete, and `strength` operators are stronger than it. -/
def complete (rule : Rule) (strength : ℕ) : Row := { shifts := operators.take strength, reduce := some rule }

def exprFollow : List Sym :=
  [.eof, .close, .semicolon, .plus, .eq, .ne, .and, .or, .kwThen, .kwEndif, .kwElse, .comma]

def rows : List Row :=
  [{ shifts := begins, gotos := [(.input, 1), (.expr, 2)] },                            -- 0: at the start
    { shifts := [(.eof, 8)] },                                                          -- 1: input
    complete .input 6,                                                                  -- 2: expr
    { shifts := [(.open, 15)], reduce := some .literal },                               -- 3: STRING
    before 16,                                                                          -- 4: '('
    { shifts := [(.semicolon, 17)] },                                                   -- 5: error
    before 18,                                                                          -- 6: '!'
    before 19,                                                                          -- 7: IF
    { shifts := [] },                                                                   -- 8: input $end
    { before 20 with reduce := some .trailing, follow := some exprFollow },             -- 9: expr ';'
    before 21,                                                                          -- 10: expr '+'
    before 22,                                                                          -- 11: expr EQ
    before 23,                                                                          -- 12: expr NE
    before 24,                                                                          -- 13: expr AND
    before 25,                                                                          -- 14: expr OR
    { shifts := begins, gotos := [(.arglist, 26), (.expr, 27)], reduce := some .noArgs,
      follow := some [.close, .comma] },                                                -- 15: STRING '('
    behind [(.close, 28)],                                                              -- 16: '(' expr
    before 29,                                                                          -- 17: error ';'
    complete .not 0,                                                                    -- 18: '!' expr
    behind [(.kwThen, 30)],                                                             -- 19: IF expr
    complete .sequence 5,                                                               -- 20: expr ';' expr
    complete .concat 0,                                                                 -- 21: expr '+' expr
    complete .equal 1,                                                                  -- 22: expr EQ expr
    complete .notEqual 1,                                                               -- 23: expr NE expr
    complete .and 3,                                                                    -- 24: expr AND expr
    complete .or 4,                                                                     -- 25: expr OR expr
    { shifts := [(.close, 31), (.comma, 32)] },                                         -- 26: STRING '(' arglist
    complete .oneArg 6,                                                                 -- 27: STRING '(' expr
    complete .paren 0,                                                                  -- 28: '(' expr ')'
    complete .error 5,                                                                  -- 29: error ';' expr
    before 33,                                                                          -- 30: IF expr THEN
    complete .call 0,                                                                   -- 31: STRING '(' arglist ')'
    before 34,                                                                          -- 32: arglist ','
    behind [(.kwEndif, 35), (.kwElse, 36)],                                             -- 33: IF expr THEN expr
    complete .moreArgs 6,                                                               -- 34: arglist ',' expr
    complete .ifThen 0,                                                                 -- 35: IF expr THEN expr ENDIF
    before 37,                                                                          -- 36: IF expr THEN expr ELSE
    behind [(.kwEndif, 38)],                                                            -- 37: IF expr THEN expr ELSE expr
    complete .ifThenElse 0]                                                             -- 38: IF expr THEN expr ELSE expr ENDIF

def row (state : ℕ) : Row := rows.getD state { shifts := [] }

def Row.shift (r : Row) (sym : Sym) : Option ℕ := r.shifts.lookup sym

def Row.goto (r : Row) (n : NonTerm) : Option ℕ := r.gotos.lookup n

/-- The rule that is reduced in front of a terminal. -/
def Row.reduceOn (r : Row) (sym : Sym) : Option Rule := match r.follow with
  | none => r.reduce
  | some follow => if sym ∈ follow then r.reduce else none

/-- Whether a rule is reduced without looking at the next terminal. -/
def Row.quiet (r : Row) : Bool := r.shifts.isEmpty && r.reduce.isSome

/-! ### The actions -/

/-- A value of the `%union`. -/
inductive Val
  | none
  | str (s : CString)
  | expr (e : Expr)
  | args (argv : List Expr)

/-- An entry of the stacks of states, values and locations. -/
structure Frame where
  state : ℕ
  val : Val
  loc : Loc

def Expr.place : Expr → ℤ → ℤ → Expr
  | .mk fn name argv _ _, start, stop => .mk fn name argv start stop

def build (fn : Function) (loc : Loc) (argv : List Expr) : Expr := .mk fn (str "(operator)") argv loc.start loc.stop

/-- An action gives a value, sets the root or calls `YYERROR`. -/
inductive Action
  | value (v : Val)
  | root (e : Expr)
  | raise

/-- The actions, with the right side of the rule and its location. `known` is `FindFunction`. -/
def reduceAction (known : CString → Option Function) (loc : Loc) : Rule → List Frame → Except Stop Action
  | .input, [⟨_, .expr e, _⟩] => .ok (.root e)
  | .literal, [⟨_, .str s, _⟩] => .ok (.value (.expr (.mk .literal s [] loc.start loc.stop)))
  | .paren, [_, ⟨_, .expr e, _⟩, _] => .ok (.value (.expr (e.place loc.start loc.stop)))
  | .trailing, [⟨_, .expr e, l⟩, _] => .ok (.value (.expr (e.place l.start l.stop)))
  | .sequence, [⟨_, .expr a, _⟩, _, ⟨_, .expr b, _⟩] => .ok (.value (.expr (build .sequence loc [a, b])))
  | .error, [_, _, ⟨_, .expr e, _⟩] => .ok (.value (.expr (e.place loc.start loc.stop)))
  | .concat, [⟨_, .expr a, _⟩, _, ⟨_, .expr b, _⟩] => .ok (.value (.expr (build .concat loc [a, b])))
  | .equal, [⟨_, .expr a, _⟩, _, ⟨_, .expr b, _⟩] => .ok (.value (.expr (build .equality loc [a, b])))
  | .notEqual, [⟨_, .expr a, _⟩, _, ⟨_, .expr b, _⟩] => .ok (.value (.expr (build .inequality loc [a, b])))
  | .and, [⟨_, .expr a, _⟩, _, ⟨_, .expr b, _⟩] => .ok (.value (.expr (build .logicalAnd loc [a, b])))
  | .or, [⟨_, .expr a, _⟩, _, ⟨_, .expr b, _⟩] => .ok (.value (.expr (build .logicalOr loc [a, b])))
  | .not, [_, ⟨_, .expr e, _⟩] => .ok (.value (.expr (build .logicalNot loc [e])))
  | .ifThen, [_, ⟨_, .expr a, _⟩, _, ⟨_, .expr b, _⟩, _] => .ok (.value (.expr (build .ifElse loc [a, b])))
  | .ifThenElse, [_, ⟨_, .expr a, _⟩, _, ⟨_, .expr b, _⟩, _, ⟨_, .expr c, _⟩, _] => .ok (.value (.expr (build .ifElse loc [a, b, c])))
  | .call, [⟨_, .str name, _⟩, _, ⟨_, .args argv, _⟩, _] => match known name with
    | some fn => .ok (.value (.expr (.mk fn name argv loc.start loc.stop)))
    | none => .ok .raise
  | .noArgs, [] => .ok (.value (.args []))
  | .oneArg, [⟨_, .expr e, _⟩] => .ok (.value (.args [e]))
  | .moreArgs, [⟨_, .args argv, _⟩, _, ⟨_, .expr e, _⟩] => .ok (.value (.args (argv ++ [e])))
  | _, _ => .error .fault

/-! ### yyparse -/

/-- The variables of `yyparse`. -/
structure Parser where
  /-- the last entry first -/
  stack : List Frame
  lexer : Lexer
  /-- `yychar`: `none` for `YYEMPTY` -/
  yychar : Option Sym
  yyerrstatus : ℕ
  errorCount : ℕ
  /-- what `*root` was set to -/
  root : Option Expr

/-- What `yyparse` leaves. -/
structure Parsed where
  error : ℤ
  errorCount : ℕ
  root : Option Expr
  lexer : Lexer

def Parser.finish (p : Parser) (error : ℤ) : Parsed := ⟨error, p.errorCount, p.root, p.lexer⟩

/-- The parser goes on, or returns. -/
inductive Outcome
  | next (p : Parser)
  | done (r : Parsed)

def yyMaxDepth : ℕ := 10000

/-- `YYLLOC_DEFAULT` for a right side, the last entry first, and the one below. -/
def defaultLoc (rhs : List Frame) (below : Frame) : Loc := match rhs.getLast?, rhs.head? with
  | some first, some last => ⟨first.loc.start, last.loc.stop⟩
  | _, _ => below.loc

/-- Entries are popped until `error` can be shifted. -/
def popToError : List Frame → Loc → Option (List Frame × ℕ × Loc)
  | [], _ => none
  | f :: rest, loc => match (row f.state).shift .error with
    | some target => some (f :: rest, target, loc)
    | none => if rest = [] then none else popToError rest f.loc

def errlab1 (p : Parser) (loc : Loc) : Outcome :=
  match popToError p.stack loc with
  | none => .done (p.finish 1)
  | some (stack, target, loc) =>
    .next { p with stack := ⟨target, .none, ⟨loc.start, p.lexer.yylloc.stop⟩⟩ :: stack, yyerrstatus := 3 }

def errlab (p : Parser) (sym : Sym) : Outcome :=
  if p.yyerrstatus = 0 then errlab1 { p with errorCount := p.errorCount + 1 } p.lexer.yylloc
  else if p.yyerrstatus = 3 then
    if sym = .eof then .done (p.finish 1) else errlab1 { p with yychar := none } p.lexer.yylloc
  else errlab1 p p.lexer.yylloc

/-- The value of a right side is pushed, with the state that follows. -/
def pushValue (p : Parser) (stack : List Frame) (state : ℕ) (lhs : NonTerm) (v : Val) (loc : Loc) : Except Stop Outcome :=
  match (row state).goto lhs with
  | some target => .ok (.next { p with stack := ⟨target, v, loc⟩ :: stack })
  | none => .error .fault

/-- `yyreduce`, behind the entries of a right side. -/
def reduceTo (known : CString → Option Function) (p : Parser) (rule : Rule) (lhs : NonTerm) (rhs : List Frame) (below : Frame)
    (rest : List Frame) : Except Stop Outcome := do
  match ← reduceAction known (defaultLoc rhs below) rule rhs.reverse with
  | .value v => pushValue p (below :: rest) below.state lhs v (defaultLoc rhs below)
  | .root e => pushValue { p with root := some e } (below :: rest) below.state lhs .none (defaultLoc rhs below)
  | .raise =>
    -- `yyerrorlab`: the location of the first entry that is popped
    .ok (errlab1 { p with stack := below :: rest, errorCount := p.errorCount + 1 } ((rhs.getLast?.map Frame.loc).getD below.loc))

def reduce (known : CString → Option Function) (p : Parser) (rule : Rule) : Except Stop Outcome :=
  match p.stack.drop rule.rhs.length, rule.lhs with
  | below :: rest, some lhs => reduceTo known p rule lhs (p.stack.take rule.rhs.length) below rest
  | _, _ => .error .fault

def onSym (known : CString → Option Function) (p : Parser) (r : Row) (sym : Sym) : Except Stop Outcome :=
  match r.shift sym with
  | some target =>
    let val := if sym = .string then Val.str p.lexer.yylval else .none
    .ok (.next { p with stack := ⟨target, val, p.lexer.yylloc⟩ :: p.stack, yychar := none, yyerrstatus := p.yyerrstatus - 1 })
  | none => match r.reduceOn sym with
    | some rule => reduce known p rule
    | none => .ok (errlab p sym)

def step (known : CString → Option Function) (p : Parser) : Except Stop Outcome :=
  match p.stack with
  | [] => .error .fault
  | top :: _ =>
    if yyMaxDepth ≤ p.stack.length then .ok (.done ({ p with errorCount := p.errorCount + 1 }.finish 2))
    else if top.state = 8 then .ok (.done (p.finish 0))
    else match (row top.state).quiet, (row top.state).reduce, p.yychar with
      | true, some rule, _ => reduce known p rule
      | _, _, some sym => onSym known p (row top.state) sym
      | _, _, none => do
        let (sym, lexer) ← yylex p.lexer
        onSym known { p with lexer := lexer, yychar := some sym } (row top.state) sym

def rounds (known : CString → Option Function) : ℕ → Parser → Except Stop (Option Parsed)
  | 0, _ => .ok none
  | fuel + 1, p => do
    match ← step known p with
    | .next p => rounds known fuel p
    | .done r => .ok (some r)

/-- `yyparse`, of a script that the lexer was given. -/
def yyparse (known : CString → Option Function) (fuel : ℕ) (lexer : Lexer) : Except Stop (Option Parsed) :=
  rounds known fuel ⟨[⟨0, .none, ⟨0, 0⟩⟩], lexer, none, 0, 0, none⟩

/-! ### What holds between the rounds -/

theorem row_forall {P : ℕ → Row → Prop} (h : ∀ s < 39, P s (row s)) (hnone : ∀ s, P s { shifts := [] }) (s : ℕ) : P s (row s) := by
  by_cases hs : s < 39
  · exact h s hs
  · rw [row, List.getD_eq_default _ _ (Nat.not_lt.mp hs)]
    exact hnone s

theorem mem_of_lookup {α β : Type} [DecidableEq α] {l : List (α × β)} {a : α} {b : β} (h : l.lookup a = some b) : (a, b) ∈ l := by
  obtain ⟨l₁, l₂, rfl, -⟩ := List.lookup_eq_some_iff.mp h
  simp

theorem shift_target {s t : ℕ} {sym : Sym} (h : (row s).shift sym = some t) : t ≠ 1 ∧ (t = 8 → s = 1) ∧ (sym = .error → t = 5) := by
  have hall : ∀ x ∈ (row s).shifts, x.2 ≠ 1 ∧ (x.2 = 8 → s = 1) ∧ (x.1 = .error → x.2 = 5) :=
    row_forall (P := fun s r => ∀ x ∈ r.shifts, x.2 ≠ 1 ∧ (x.2 = 8 → s = 1) ∧ (x.1 = .error → x.2 = 5)) (by decide) (by simp) s
  exact hall (sym, t) (mem_of_lookup h)

theorem goto_target {s t : ℕ} {n : NonTerm} (h : (row s).goto n = some t) : t ≠ 8 ∧ (t = 1 → n = .input) := by
  have hall : ∀ x ∈ (row s).gotos, x.2 ≠ 8 ∧ (x.2 = 1 → x.1 = .input) :=
    row_forall (P := fun s r => ∀ x ∈ r.gotos, x.2 ≠ 8 ∧ (x.2 = 1 → x.1 = .input)) (by decide) (by simp) s
  exact hall (n, t) (mem_of_lookup h)

/-- The root has been set, if the input was reduced. -/
def Rooted (root : Option Expr) (stack : List Frame) : Prop := ∀ f ∈ stack, f.state = 1 ∨ f.state = 8 → root.isSome = true

/-- **The invariant.** -/
structure Parser.Inv (p : Parser) : Prop where
  counted : p.yyerrstatus ≠ 0 → 0 < p.errorCount
  rooted : Rooted p.root p.stack

/-- What is true of a result. -/
structure Parsed.Valid (r : Parsed) : Prop where
  counted : r.error ≠ 0 → 0 < r.errorCount
  rooted : r.error = 0 → r.root.isSome = true

def Outcome.Valid : Outcome → Prop
  | .next p => p.Inv
  | .done r => r.Valid

theorem Rooted.subset {root : Option Expr} {stack stack' : List Frame} (h : Rooted root stack)
    (hsub : stack' ⊆ stack) : Rooted root stack' :=
  fun f hf => h f (hsub hf)

theorem Rooted.cons {root : Option Expr} {stack : List Frame} {f : Frame} (h : Rooted root stack)
    (hf : f.state = 1 ∨ f.state = 8 → root.isSome = true) : Rooted root (f :: stack) := by
  intro g hg
  obtain rfl | hg := List.mem_cons.mp hg
  · exact hf
  · exact h g hg

theorem popToError_spec : ∀ {stack stack' : List Frame} {loc loc' : Loc} {target : ℕ},
    popToError stack loc = some (stack', target, loc') → stack' ⊆ stack ∧ target = 5
  | f :: rest, stack', loc, loc', target, h => by
    rw [popToError] at h
    split at h
    · rename_i t ht
      obtain ⟨rfl, rfl, -⟩ : f :: rest = stack' ∧ t = target ∧ loc = loc' := by simpa using h
      exact ⟨List.Subset.refl _, (shift_target ht).2.2 rfl⟩
    · split at h
      · cases h
      · obtain ⟨hsub, htarget⟩ := popToError_spec h
        exact ⟨fun g hg => List.mem_cons_of_mem _ (hsub hg), htarget⟩

variable {known : CString → Option Function} {p : Parser} {o : Outcome}

theorem finish_valid (hcount : 0 < p.errorCount) : (p.finish 1).Valid := ⟨fun _ => hcount, fun h => by cases h⟩

theorem errlab1_valid {loc : Loc} (hcount : 0 < p.errorCount) (hroot : Rooted p.root p.stack) : (errlab1 p loc).Valid := by
  unfold errlab1
  split
  · exact finish_valid hcount
  · rename_i stack target loc' hpop
    obtain ⟨hsub, rfl⟩ := popToError_spec hpop
    refine ⟨fun _ => hcount, (hroot.subset hsub).cons fun h => ?_⟩
    obtain h | h := h <;> cases h

theorem errlab_valid {sym : Sym} (h : p.Inv) : (errlab p sym).Valid := by
  unfold errlab
  split
  · exact errlab1_valid (Nat.succ_pos _) h.rooted
  · rename_i hstatus
    have hcount := h.counted hstatus
    split
    · split
      · exact finish_valid hcount
      · exact errlab1_valid hcount h.rooted
    · exact errlab1_valid hcount h.rooted

theorem reduceAction_input {loc : Loc} {v : Val} (rhs : List Frame) : reduceAction known loc .input rhs ≠ .ok (.value v) := by
  intro h
  rcases rhs with _ | ⟨⟨state, val, l⟩, _ | ⟨g, rest⟩⟩
  · cases h
  · cases val <;> cases h
  · cases val <;> cases h

theorem Rule.lhs_input {rule : Rule} (h : rule.lhs = some .input) : rule = .input := by
  cases rule <;> first | rfl | cases h

theorem reduceTo_valid {rule : Rule} {lhs : NonTerm} {rhs rest : List Frame} {below : Frame} (h : p.Inv) (hlhs : rule.lhs = some lhs)
    (hstack : below :: rest ⊆ p.stack) (hreduce : reduceTo known p rule lhs rhs below rest = .ok o) : o.Valid := by
  obtain ⟨action, haction, hdo⟩ := bind_eq_ok.mp hreduce
  cases action with
  | value v =>
    dsimp only [pushValue] at hdo
    split at hdo
    · rename_i target hgoto
      obtain rfl := Except.ok.inj hdo
      obtain ⟨h8, h1⟩ := goto_target hgoto
      refine ⟨h.counted, (h.rooted.subset hstack).cons fun hf => ?_⟩
      obtain hf | hf := hf
      · obtain rfl := Rule.lhs_input (hlhs.trans (congrArg some (h1 hf)))
        exact absurd haction (reduceAction_input _)
      · exact absurd hf h8
    · cases hdo
  | root e =>
    dsimp only [pushValue] at hdo
    split at hdo
    · obtain rfl := Except.ok.inj hdo
      exact ⟨h.counted, fun _ _ _ => rfl⟩
    · cases hdo
  | raise =>
    obtain rfl := Except.ok.inj hdo
    exact errlab1_valid (Nat.succ_pos _) (h.rooted.subset hstack)

theorem reduce_valid {rule : Rule} (h : p.Inv) (hreduce : reduce known p rule = .ok o) : o.Valid := by
  unfold reduce at hreduce
  split at hreduce
  · rename_i below rest lhs hdrop hlhs
    exact reduceTo_valid h hlhs (hdrop ▸ List.drop_subset _ _) hreduce
  · cases hreduce

theorem onSym_valid {top : Frame} {sym : Sym} (h : p.Inv) (htop : top ∈ p.stack) (hon : onSym known p (row top.state) sym = .ok o) :
    o.Valid := by
  unfold onSym at hon
  split at hon
  · rename_i target hshift
    obtain rfl := Except.ok.inj hon
    obtain ⟨h1, h8, -⟩ := shift_target hshift
    refine ⟨fun hstatus => h.counted fun h0 => hstatus (by simp [h0]), h.rooted.cons fun hf => ?_⟩
    obtain hf | hf := hf
    · exact absurd hf h1
    · exact h.rooted top htop (.inl (h8 hf))
  · split at hon
    · exact reduce_valid h hon
    · obtain rfl := Except.ok.inj hon
      exact errlab_valid h

/-- **One round** keeps the invariant, or gives a result with it. -/
theorem step_valid (h : p.Inv) (hstep : step known p = .ok o) : o.Valid := by
  unfold step at hstep
  split at hstep
  · cases hstep
  rename_i top rest hstack
  have htop : top ∈ p.stack := hstack ▸ List.mem_cons_self
  split_ifs at hstep with hdepth hfinal
  · obtain rfl := Except.ok.inj hstep
    exact ⟨fun _ => Nat.succ_pos _, fun h => by cases h⟩
  · obtain rfl := Except.ok.inj hstep
    exact ⟨fun h => absurd rfl h, fun _ => h.rooted top htop (.inr hfinal)⟩
  · split at hstep
    · exact reduce_valid h hstep
    · exact onSym_valid h htop hstep
    · obtain ⟨⟨sym, lexer⟩, -, hon⟩ := bind_eq_ok.mp hstep
      exact onSym_valid (p := { p with lexer := lexer, yychar := some sym }) ⟨h.counted, h.rooted⟩ htop hon

theorem rounds_induct {I : Parser → Prop} {R : Parsed → Prop} (hnext : ∀ p p', I p → step known p = .ok (.next p') → I p')
    (hdone : ∀ p r, I p → step known p = .ok (.done r) → R r) {fuel : ℕ} {p : Parser} {r : Parsed} (h : I p)
    (hrun : rounds known fuel p = .ok (some r)) : R r := by
  induction fuel generalizing p with
  | zero => cases hrun
  | succ fuel ih =>
    rw [rounds] at hrun
    obtain ⟨o, hstep, hrest⟩ := bind_eq_ok.mp hrun
    cases o with
    | next p' => exact ih (hnext p p' h hstep) hrest
    | done r' =>
      obtain rfl := Option.some.inj (Except.ok.inj hrest)
      exact hdone p r' h hstep

theorem rounds_valid {fuel : ℕ} {p : Parser} {r : Parsed} (h : p.Inv) (hrun : rounds known fuel p = .ok (some r)) : r.Valid :=
  rounds_induct (I := Parser.Inv) (R := Parsed.Valid) (fun _ _ h hstep => step_valid h hstep)
    (fun _ _ h hstep => step_valid h hstep) h hrun

/-- **What `yyparse` returns**: an error was counted, or the root was set. -/
theorem yyparse_result {fuel : ℕ} {lexer : Lexer} {r : Parsed} (h : yyparse known fuel lexer = .ok (some r)) : r.Valid := by
  refine rounds_valid ⟨fun h => absurd rfl h, fun f hf hstate => ?_⟩ h
  rw [List.mem_singleton.mp hf] at hstate
  obtain hstate | hstate := hstate <;> cases hstate

end Edify
end Recovery
