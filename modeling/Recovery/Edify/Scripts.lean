/-
# Scripts that are run (edifyscripting.c, updater.c)

The updater stops if `yyparse` returned an error or counted one. `run_script_from_buffer`
and `edify_main` go on `if (error == 0 || error_count > 0)`, which is always so
(`recoveryGate_open`).

Key theorems: `error_free_evaluated`, `erroneous_evaluated`.
-/
import Recovery.Edify.Parser
import Recovery.Edify.Semantics

namespace Recovery
namespace Edify

variable {σ : Type}

/-- `yy_scan_bytes`. The rest of the state of the lexer is what the last script left. -/
def scanBytes (lexer : Lexer) (script : Bytes) : Lexer := { lexer with input := script }

/-- Whether `run_script_from_buffer` and `edify_main` go on. -/
def recoveryGate (r : Parsed) : Bool := r.error = 0 || 0 < r.errorCount

/-- Whether the `main` of the updater does. -/
def updaterGate (r : Parsed) : Bool := !(r.error ≠ 0 || 0 < r.errorCount)

section

variable (known : CString → Option Function) (ext : CString → List (Arg σ) → M σ (Option Value))
  (fuel : ℕ) (lexer : Lexer) (world : σ)

/-- `Evaluate(&state, root)`. A root that was not set points anywhere. -/
def evaluateRoot (root : Option Expr) : M σ (Option CString) := match root with
  | none => fault
  | some e => evaluate (e.toArg ext)

/-- A script is parsed, and evaluated if the gate is open. -/
def runScript (gate : Parsed → Bool) (closed failed : ℤ) (script : Bytes) : Except Stop (Option (ℤ × State σ)) := do
  match ← yyparse known fuel (scanBytes lexer script) with
  | none => .ok none
  | some r =>
    let state : State σ := ⟨world, script, none, []⟩
    if gate r then do
      let (result, state) ← evaluateRoot ext r.root state
      .ok (some (if result.isNone then failed else 0, state))
    else .ok (some (closed, state))

def runScriptFromBuffer (script : Bytes) : Except Stop (Option (ℤ × State σ)) :=
  runScript known ext fuel lexer world recoveryGate 0 (-1) script

/-- `edify_main`, for the contents of its file. -/
def edifyMain (file : Bytes) : Except Stop (Option (ℤ × State σ)) :=
    runScript known ext fuel lexer world recoveryGate 0 0 (file.take 8191)

/-- The part of the updater's `main` that runs the script. -/
def updaterMain (script : CString) : Except Stop (Option (ℤ × State σ)) :=
  runScript known ext fuel lexer world updaterGate 6 7 script.bytes

end

section

variable {known : CString → Option Function} {fuel : ℕ} {lexer : Lexer} {r : Parsed}

/-- **The tree is always evaluated**, with or without errors. -/
theorem recoveryGate_open (h : yyparse known fuel lexer = .ok (some r)) : recoveryGate r = true := by
  have hvalid := yyparse_result h
  by_cases herror : r.error = 0
  · simp [recoveryGate, herror]
  · simp [recoveryGate, hvalid.counted herror]

theorem updaterGate_iff : updaterGate r = true ↔ r.error = 0 ∧ r.errorCount = 0 := by
  simp [updaterGate]

end

/-- What the evaluation of a tree gives: 0 or `failed`, and the state. -/
def evaluated (ext : CString → List (Arg σ) → M σ (Option Value)) (world : σ) (script : Bytes) (e : Expr) (failed : ℤ) :
    Except Stop (Option (ℤ × State σ)) := do
  let (result, state) ← evaluate (e.toArg ext) ⟨world, script, none, []⟩
  .ok (some (if result.isNone then failed else 0, state))

/-- **A script is evaluated as the updater does** just if it has no errors: if `yyparse` returns 0 and has counted no error, it has set
the root, and each of the three programs evaluates it; `run_script_from_buffer` returns 0 only if the result is not `NULL`. With an
error the recovery evaluates all the same. -/
theorem error_free_evaluated (known : CString → Option Function)
    (ext : CString → List (Arg σ) → M σ (Option Value)) (fuel : ℕ) (lexer : Lexer) (world : σ) (script : Bytes)
    (r : Parsed) (hparse : yyparse known fuel (scanBytes lexer script) = .ok (some r)) :
    ((recoveryGate r = true ↔ r.error = 0 ∧ r.errorCount = 0) ∧ recoveryGate r = updaterGate r ∧
      ∃ e, r.root = some e ∧
        runScriptFromBuffer known ext fuel lexer world script = evaluated ext world script e (-1) ∧
        (∀ file, file.take 8191 = script →
          edifyMain known ext fuel lexer world file = evaluated ext world script e 0) ∧
        ∀ c : CString, c.bytes = script →
          updaterMain known ext fuel lexer world c = evaluated ext world script e 7) ↔
    r.error = 0 ∧ r.errorCount = 0 := by
  have hgate := recoveryGate_open hparse
  refine ⟨fun h => h.1.mp hgate, fun herrors => ?_⟩
  have hupdater := updaterGate_iff.mpr herrors
  obtain ⟨e, he⟩ := Option.isSome_iff_exists.mp ((yyparse_result hparse).rooted herrors.1)
  have hrun : ∀ gate closed failed, gate r = true →
      runScript known ext fuel lexer world gate closed failed script = evaluated ext world script e failed := by
    intro gate closed failed hgate
    rw [runScript, hparse, ok_bind]
    dsimp only
    rw [if_pos hgate, he]
    rfl
  refine ⟨iff_of_true hgate herrors, hgate.trans hupdater.symm, e, he, hrun _ _ _ hgate, fun file hfile => ?_, fun c hc => ?_⟩
  · rw [edifyMain, hfile]
    exact hrun _ _ _ hgate
  · rw [updaterMain, hc]
    exact hrun _ _ _ hupdater

def boomOnly (name : CString) : Option Function := if name = str "boom" then some .registered else none

def boomFn : CString → List (Arg ℕ) → M ℕ (Option Value) := leafFn fun _ n => (some (.string (str "t")), none, n + 1)

def freshLexer : Lexer := ⟨[], false, [], 0, .empty, ⟨0, 0⟩⟩

/-- What a run returns, and what it has called. -/
def outcome (x : Except Stop (Option (ℤ × State ℕ))) : Option (ℤ × List Event) := match x with
  | .ok (some (ret, state)) => some (ret, state.trace)
  | _ => none

def errors (x : Except Stop (Option Parsed)) : Option (ℤ × ℕ) := match x with
  | .ok (some r) => some (r.error, r.errorCount)
  | _ => none

theorem exists_parsed {x : Except Stop (Option Parsed)} {error : ℤ} {count : ℕ} (h : errors x = some (error, count)) :
    ∃ r, x = .ok (some r) ∧ r.error = error ∧ r.errorCount = count := by
  unfold errors at h
  split at h
  · rename_i r
    obtain ⟨rfl, rfl⟩ := Prod.mk.inj (Option.some.inj h)
    exact ⟨r, rfl, rfl, rfl⟩
  · cases h

/-- A call without an error. -/
theorem boom_evaluated : ∃ r e, yyparse boomOnly 20 (scanBytes freshLexer (lit "boom()")) = .ok
    (some r) ∧ r.error = 0 ∧ r.errorCount = 0 ∧
    r.root = some e ∧ runScriptFromBuffer boomOnly boomFn 20 freshLexer 0
      (lit "boom()") = evaluated boomFn 0 (lit "boom()") e (-1) := by
  have herrors : errors (yyparse boomOnly 20 (scanBytes freshLexer (lit "boom()"))) = some (0, 0) := by decide +kernel
  obtain ⟨r, hparse, herror, hcount⟩ := exists_parsed herrors
  obtain ⟨-, -, e, he, hrun, -⟩ := (error_free_evaluated boomOnly boomFn 20 freshLexer 0 (lit "boom()") r hparse).mpr ⟨herror, hcount⟩
  exact ⟨r, e, hparse, herror, hcount, he, hrun⟩

/-- **Scripts with errors are run.** Behind a call of a function that is not known the grammar goes on at the semicolon: `yyparse` returns 0
with one error, and the rest of the script is evaluated. For two words it returns 1, and the first one is evaluated. For a lone
parenthesis the root was never set. The updater does not run any of them. -/
theorem erroneous_evaluated :
    errors (yyparse boomOnly 40 (scanBytes freshLexer (lit "nosuch();boom()"))) = some (0, 1) ∧
    outcome (runScriptFromBuffer boomOnly boomFn 40 freshLexer 0 (lit "nosuch();boom()")) =
      some (0, [.called (str "boom") (some (.string (str "t")))]) ∧
    outcome (edifyMain boomOnly boomFn 40 freshLexer 0 (lit "nosuch();boom()")) =
      some (0, [.called (str "boom") (some (.string (str "t")))]) ∧
    outcome (updaterMain boomOnly boomFn 40 freshLexer 0 (str "nosuch();boom()")) = some (6, []) ∧
    errors (yyparse boomOnly 40 (scanBytes freshLexer (lit "boom() b"))) = some (1, 1) ∧
    outcome (runScriptFromBuffer boomOnly boomFn 40 freshLexer 0 (lit "boom() b")) =
      some (0, [.called (str "boom") (some (.string (str "t")))]) ∧
    errors (yyparse boomOnly 40 (scanBytes freshLexer (lit ")"))) = some (1, 1) ∧
    (runScriptFromBuffer boomOnly boomFn 40 freshLexer 0 (lit ")")).toOption.isNone = true := by
  decide +kernel

end Edify
end Recovery
