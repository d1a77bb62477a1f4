/-
# The evaluator of update scripts (expr.c)

A function is given its arguments unevaluated. It returns a string, a blob or `NULL`, which
means that the script is to stop. An argument is modelled by what its evaluation does
(`Arg`). A function that reads an argument it does not have stops with `pastArgs`.
-/
import Recovery.Text

namespace Recovery
namespace Edify

inductive Value
  | string (data : CString)
  | blob (data : Option Bytes)
  deriving DecidableEq

def Value.type : Value → ℤ
  | .string _ => 1
  | .blob _ => 2

/-- Calls of functions outside the core of edify, and values that were refused. -/
inductive Event
  | called (name : CString) (result : Option Value)
  | refused (type : ℤ)
  deriving DecidableEq

/-- `State`, and the trace. -/
structure State (σ : Type) where
  cookie : σ
  script : Bytes
  errmsg : Option Bytes
  trace : List Event

variable {σ : Type}

abbrev M (σ α : Type) := StateT (State σ) (Except Stop) α

/-- An argument: what its evaluation does, and where it stands in the script. -/
structure Arg (σ : Type) where
  eval : M σ (Option Value)
  start : ℤ
  stop : ℤ

def fault {α : Type} : M σ α := fun _ => .error .fault

def pastArgs {α : Type} : M σ α := fun _ => .error .pastArgs

def setErrmsg (msg : Bytes) : M σ Unit := fun s => .ok ((), { s with errmsg := some msg })

/-- `ErrorAbort`, which cuts the message to its buffer. -/
def errorAbort {α : Type} (msg : Bytes) : M σ (Option α) := do
  setErrmsg (msg.take 4095)
  pure none

def record (e : Event) : M σ Unit := fun s => .ok ((), { s with trace := s.trace ++ [e] })

/-! ### Evaluation of arguments -/

def booleanString (s : CString) : Bool := s.bytes ≠ []

def evaluateValue (expr : Arg σ) : M σ (Option Value) := expr.eval

def evaluate (expr : Arg σ) : M σ (Option CString) := do
  let v ← expr.eval
  match v with
  | none => pure none
  | some (.string data) => pure (some data)
  | some (.blob data) => do
    record (.refused (Value.blob data).type)
    errorAbort (lit "expecting string, got value type " ++ dec (Value.blob data).type)

def argAt (argv : List (Arg σ)) (i : ℕ) : M σ (Arg σ) :=
  match argv[i]? with
  | some a => pure a
  | none => pastArgs

/-- The first `count` arguments, or `none` for the result -1 or `NULL`. -/
def readWith {α : Type} (ev : Arg σ → M σ (Option α)) : List (Arg σ) → ℕ → M σ (Option (List α))
  | _, 0 => pure (some [])
  | [], _ + 1 => pastArgs
  | a :: argv, count + 1 => do
    let v ← ev a
    match v with
    | none => pure none
    | some v => do
      let rest ← readWith ev argv count
      match rest with
      | none => pure none
      | some rest => pure (some (v :: rest))

def readArgs (argv : List (Arg σ)) (count : ℕ) : M σ (Option (List CString)) := readWith evaluate argv count

def readValueArgs (argv : List (Arg σ)) (count : ℕ) : M σ (Option (List Value)) := readWith evaluateValue argv count

def readVarArgs (argv : List (Arg σ)) : M σ (Option (List CString)) := readArgs argv argv.length

def readValueVarArgs (argv : List (Arg σ)) : M σ (Option (List Value)) := readValueArgs argv argv.length

/-! ### Operators and builtins -/

def stringValue (s : CString) : Option Value := some (.string s)

def boolValue (b : Bool) : Option Value := stringValue (if b then str "t" else .empty)

def concatFn (argv : List (Arg σ)) : M σ (Option Value) := do
  let strings ← readVarArgs argv
  match strings with
  | none => pure none
  | some strings => pure (stringValue (.join strings))

def ifElseFn (argv : List (Arg σ)) : M σ (Option Value) :=
  if argv.length ≠ 2 ∧ argv.length ≠ 3 then do
    setErrmsg (lit "ifelse expects 2 or 3 arguments")
    pure none
  else do
    let cond ← evaluate (← argAt argv 0)
    match cond with
    | none => pure none
    | some cond =>
      if booleanString cond then do evaluateValue (← argAt argv 1)
      else if argv.length = 3 then do evaluateValue (← argAt argv 2)
      else pure (stringValue cond)

/-- The message of `abort`, if it is given one. -/
def abortMessage : List (Arg σ) → M σ (Option CString)
  | [] => pure none
  | a :: _ => evaluate a

def abortFn (argv : List (Arg σ)) : M σ (Option Value) := do
  let msg ← abortMessage argv
  setErrmsg ((msg.map CString.bytes).getD (lit "called abort()"))
  pure none

def sourceText (a : Arg σ) : M σ Bytes := fun s =>
  if 0 ≤ a.stop - a.start then (slice s.script a.start (a.stop - a.start).toNat).map fun text => (text, s)
  else .error .fault

def assertFn : List (Arg σ) → M σ (Option Value)
  | [] => pure (stringValue .empty)
  | a :: argv => do
    let v ← evaluate a
    match v with
    | none => pure none
    | some v =>
      if booleanString v then assertFn argv
      else do
        let source ← sourceText a
        setErrmsg (lit "assert failed: " ++ source)
        pure none

def logicalAndFn (argv : List (Arg σ)) : M σ (Option Value) := do
  let left ← evaluate (← argAt argv 0)
  match left with
  | none => pure none
  | some left => if booleanString left then do evaluateValue (← argAt argv 1) else pure (stringValue left)

def logicalOrFn (argv : List (Arg σ)) : M σ (Option Value) := do
  let left ← evaluate (← argAt argv 0)
  match left with
  | none => pure none
  | some left => if booleanString left then pure (stringValue left) else do evaluateValue (← argAt argv 1)

def logicalNotFn (argv : List (Arg σ)) : M σ (Option Value) := do
  let val ← evaluate (← argAt argv 0)
  match val with
  | none => pure none
  | some val => pure (boolValue !booleanString val)

/-- `SubstringFn`, `EqualityFn` and `InequalityFn`: a test of two strings. -/
def testFn (test : CString → CString → Bool) (argv : List (Arg σ)) : M σ (Option Value) := do
  let left ← evaluate (← argAt argv 0)
  match left with
  | none => pure none
  | some left => do
    let right ← evaluate (← argAt argv 1)
    match right with
    | none => pure none
    | some right => pure (boolValue (test left right))

def substringFn (argv : List (Arg σ)) : M σ (Option Value) :=
  testFn (fun needle haystack => strstr haystack.bytes needle.bytes) argv

def equalityFn (argv : List (Arg σ)) : M σ (Option Value) := testFn (fun left right => strcmp left.bytes right.bytes = 0) argv

def inequalityFn (argv : List (Arg σ)) : M σ (Option Value) := testFn (fun left right => strcmp left.bytes right.bytes ≠ 0) argv

def sequenceFn (argv : List (Arg σ)) : M σ (Option Value) := do
  let left ← evaluateValue (← argAt argv 0)
  match left with
  | none => pure none
  | some _ => do evaluateValue (← argAt argv 1)

/-- The number a string is, if `strtol` takes all of it. -/
def wholeInt (s : CString) : Option ℤ := if s.bytes = [] ∨ (strtol s.bytes).2 ≠ [] then none else some (strtol s.bytes).1

def lessThan (left right : CString) : Bool :=
  match wholeInt left, wholeInt right with
  | some l, some r => l < r
  | _, _ => false

def lessThanIntFn (argv : List (Arg σ)) : M σ (Option Value) :=
  if argv.length ≠ 2 then do
    setErrmsg (lit "less_than_int expects 2 arguments")
    pure none
  else do
    let args ← readArgs argv 2
    match args with
    | some [left, right] => pure (boolValue (lessThan left right))
    | _ => pure none

/-- The arguments are swapped before they are evaluated. -/
def greaterThanIntFn (argv : List (Arg σ)) : M σ (Option Value) :=
  if argv.length ≠ 2 then do
    setErrmsg (lit "greater_than_int expects 2 arguments")
    pure none
  else do lessThanIntFn [← argAt argv 1, ← argAt argv 0]

def literal (name : CString) : M σ (Option Value) := pure (stringValue name)

/-! ### Trees -/

/-- What the `fn` of a node points at. -/
inductive Function
  | literal
  | concat
  | ifElse
  | abort
  | assert
  | logicalAnd
  | logicalOr
  | logicalNot
  | substring
  | equality
  | inequality
  | sequence
  | lessThanInt
  | greaterThanInt
  | registered
  deriving DecidableEq

inductive Expr
  | mk (fn : Function) (name : CString) (argv : List Expr) (start stop : ℤ)

/-- A call of a function. `ext` are the registered ones. -/
def Function.call (ext : CString → List (Arg σ) → M σ (Option Value)) (name : CString) (argv : List (Arg σ)) :
    Function → M σ (Option Value)
  | .literal => Edify.literal name
  | .concat => concatFn argv
  | .ifElse => ifElseFn argv
  | .abort => abortFn argv
  | .assert => assertFn argv
  | .logicalAnd => logicalAndFn argv
  | .logicalOr => logicalOrFn argv
  | .logicalNot => logicalNotFn argv
  | .substring => substringFn argv
  | .equality => equalityFn argv
  | .inequality => inequalityFn argv
  | .sequence => sequenceFn argv
  | .lessThanInt => lessThanIntFn argv
  | .greaterThanInt => greaterThanIntFn argv
  | .registered => ext name argv

mutual

def Expr.toArg (ext : CString → List (Arg σ) → M σ (Option Value)) : Expr → Arg σ
  | .mk fn name argv start stop => ⟨fn.call ext name (Expr.toArgs ext argv), start, stop⟩

def Expr.toArgs (ext : CString → List (Arg σ) → M σ (Option Value)) : List Expr → List (Arg σ)
  | [] => []
  | e :: es => e.toArg ext :: Expr.toArgs ext es

end

end Edify
end Recovery
