/-
# Commands to vold (event_loop.c)

Any number of threads call `vold_command`, and one runs `monitor`. A call takes the mutex,
writes its command, counts it in `cmd_inflight` and may wait until nothing is in flight; it
returns what `cmd_result` is then. What is done with the mutex held is one step. A waiter
may also wake up by itself. The numbers of calls only say which response belongs to which.

Key theorems: `commands_attributed`, `results_mixed`.
-/
import Recovery.Vold.Monitor

namespace Recovery
namespace Vold

/-! ### The command -/

def argument (last : Bool) (arg : CString) : Bytes :=
  (if 0x20 ∈ arg.bytes then lit "\"" ++ arg.bytes ++ lit "\"" else arg.bytes) ++ if last then [] else lit " "

def arguments : List CString → Bytes
  | [] => []
  | [arg] => argument true arg
  | arg :: rest => argument false arg ++ arguments rest

/-- `final_cmd`; `none` if it does not fit. -/
def finalCmd (command : List CString) : Option Bytes :=
  if 255 ≤ (lit "0 " ++ arguments command).length then none else some (lit "0 " ++ arguments command)

/-! ### Threads -/

/-- Not in a call, waiting for a signal, or behind it and waiting for the mutex. -/
inductive Phase
  | idle
  | waiting (call : ℕ) (wrote : Bool)
  | awake (call : ℕ) (wrote : Bool)
  deriving DecidableEq

def Phase.isWaiting : Phase → Bool
  | .waiting _ _ => true
  | _ => false

/-- A call that has returned. -/
structure Returned where
  call : ℕ
  wait : Bool
  wrote : Bool
  value : ℤ
  deriving DecidableEq

structure Shared where
  threads : List Phase
  cmdInflight : ℤ
  cmdResult : ℤ
  /-- the commands that were written and not answered -/
  pending : List ℕ
  /-- the responses, each with the command it answers -/
  codes : List (ℕ × ℤ)
  /-- the number of the next call -/
  nextCall : ℕ
  returned : List Returned
  deriving DecidableEq

inductive Act
  /-- `vold_command` in a thread; there is a connection or not, and the write succeeds or not -/
  | call (thread : ℕ) (command : List CString) (wait connected wrote : Bool)
  /-- a final response, and the thread that is woken -/
  | respond (code : ℤ) (wakes : Option ℕ)
  /-- a thread wakes up without a signal -/
  | spurious (thread : ℕ)
  /-- a thread gets the mutex back -/
  | resume (thread : ℕ)

/-- A call with the mutex held, up to its return or to its wait. -/
def enter (s : Shared) (thread : ℕ) (wait wrote : Bool) : Shared :=
  let s' := { s with
    cmdInflight := s.cmdInflight + 1
    pending := if wrote then s.pending ++ [s.nextCall] else s.pending
    nextCall := s.nextCall + 1 }
  if wait ∧ s'.cmdInflight ≠ 0 then { s' with threads := s.threads.set thread (.waiting s.nextCall wrote) }
  else { s' with returned := s.returned ++ [⟨s.nextCall, wait, wrote, if wrote then 0 else -1⟩] }

/-- Whether a call takes the mutex: there is a connection, and the command fits. -/
def sends (command : List CString) (connected : Bool) : Bool := connected && (finalCmd command).isSome

def call (s : Shared) (thread : ℕ) (command : List CString) (wait connected wrote : Bool) : Option Shared :=
  if s.threads[thread]? = some .idle then
    if sends command connected then some (enter s thread wait wrote)
    else some { s with returned := s.returned ++ [⟨s.nextCall, wait, false, -1⟩], nextCall := s.nextCall + 1 }
  else none

/-- `pthread_cond_signal`: one of the waiters wakes up, if there is any. -/
def signal (threads : List Phase) : Option ℕ → Option (List Phase)
  | none => if threads.any Phase.isWaiting then none else some threads
  | some t => match threads[t]? with
    | some (.waiting c wrote) => some (threads.set t (.awake c wrote))
    | _ => none

/-- What `monitor` does for a final response. -/
def respond (s : Shared) (code : ℤ) (wakes : Option ℕ) : Option Shared := match s.pending with
  | [] => none
  | c :: rest =>
    if completes code then (signal s.threads wakes).map fun threads =>
      { s with threads := threads, cmdResult := code, cmdInflight := s.cmdInflight - 1, pending := rest, codes := s.codes ++ [(c, code)] }
    else none

/-- The loop of a call that waits, with the mutex held again. -/
def resume (s : Shared) (thread : ℕ) : Option Shared := match s.threads[thread]? with
  | some (.awake c wrote) =>
    if s.cmdInflight ≠ 0 then some { s with threads := s.threads.set thread (.waiting c wrote) }
    else some { s with threads := s.threads.set thread .idle, returned := s.returned ++ [⟨c, true, wrote, s.cmdResult⟩] }
  | _ => none

def step (s : Shared) : Act → Option Shared
  | .call thread command wait connected wrote => call s thread command wait connected wrote
  | .respond code wakes => respond s code wakes
  | .spurious thread => (signal s.threads (some thread)).map fun threads => { s with threads := threads }
  | .resume thread => resume s thread

def start (threads : ℕ) : Shared := ⟨List.replicate threads .idle, 0, 0, [], [], 0, []⟩

def steps : Shared → List Act → Option Shared
  | s, [] => some s
  | s, a :: as => (step s a).bind fun s => steps s as

/-! ### Runs -/

/-- No command is written while a call waits, and every write succeeds. -/
def Orderly (s : Shared) : Act → Prop
  | .call _ command _ connected wrote => sends command connected → wrote = true ∧ ∀ p ∈ s.threads, p = .idle
  | _ => True

/-- The states that threads come to by steps that are in order. -/
inductive Reached (threads : ℕ) : Shared → Prop
  | start : Reached threads (start threads)
  | step {s s' : Shared} {a : Act} (h : Reached threads s) (horder : Orderly s a) (hstep : step s a = some s') : Reached threads s'

/-- What is asked of the client. -/
structure Attributed (s : Shared) : Prop where
  /-- the counter is the number of commands that were written and not answered -/
  counted : s.cmdInflight = s.pending.length
  /-- a call that waited returned the code of its own response -/
  own : ∀ r ∈ s.returned, r.wait = true → r.wrote = true → (r.call, r.value) ∈ s.codes
  /-- a call that wrote nothing returned a negative value -/
  failed : ∀ r ∈ s.returned, r.wrote = false → r.value < 0
  /-- only calls that wrote something wait, and only while something is not answered -/
  blocked : ∀ c wrote, .waiting c wrote ∈ s.threads → wrote = true ∧ s.pending ≠ []

/-! ### The invariant -/

/-- The command of the thread is the last one written, or all are answered and the result is
its own. -/
def Phase.Last (s : Shared) : Phase → Prop
  | .idle => True
  | .waiting c wrote => wrote = true ∧ s.pending.getLast? = some c
  | .awake c wrote => wrote = true ∧ (s.pending.getLast? = some c ∨ s.pending = [] ∧ (c, s.cmdResult) ∈ s.codes)

structure Inv (s : Shared) : Prop where
  counted : s.cmdInflight = s.pending.length
  own : ∀ r ∈ s.returned, r.wait = true → r.wrote = true → (r.call, r.value) ∈ s.codes
  failed : ∀ r ∈ s.returned, r.wrote = false → r.value < 0
  last : ∀ p ∈ s.threads, p.Last s
  /-- at most one thread is in a call -/
  alone : ∀ (i j : ℕ) (p q : Phase), s.threads[i]? = some p → s.threads[j]? = some q → p ≠ .idle → q ≠ .idle → i = j

theorem inv_start (threads : ℕ) : Inv (start threads) where
  counted := rfl
  own := by simp [start]
  failed := by simp [start]
  last p hp := by
    rw [List.eq_of_mem_replicate hp]
    trivial
  alone i j p q hi _ hp _ := by
    have hmem := List.mem_of_getElem? hi
    exact absurd (List.eq_of_mem_replicate hmem) hp

theorem signal_cases {threads threads' : List Phase} {wakes : Option ℕ} (h : signal threads wakes = some threads') :
    (threads' = threads ∧ wakes = none ∧ ∀ p ∈ threads, p.isWaiting = false) ∨
    ∃ t c wrote, wakes = some t ∧ threads[t]? = some (.waiting c wrote) ∧ threads' = threads.set t (.awake c wrote) := by
  cases wakes with
  | none =>
    rw [signal] at h
    split at h
    · cases h
    · rename_i hnone
      cases h
      simp only [List.any_eq_true, not_exists, not_and, Bool.not_eq_true] at hnone
      exact .inl ⟨rfl, rfl, hnone⟩
  | some t =>
    rw [signal] at h
    split at h
    · rename_i c wrote ht
      cases h
      exact .inr ⟨t, c, wrote, rfl, ht, rfl⟩
    · cases h

theorem Inv.others {s : Shared} (h : Inv s) {t : ℕ} {p : Phase} (ht : s.threads[t]? = some p) (hp : p ≠ .idle) {j : ℕ} {q : Phase}
    (hj : s.threads[j]? = some q) (hne : j ≠ t) : q = .idle := by
  by_contra hq
  exact hne (h.alone j t q p hj ht hq hp)

theorem set_cases {threads : List Phase} {t : ℕ} {q : Phase} (hothers : ∀ (j : ℕ) (r : Phase), threads[j]? = some r → j ≠ t → r = .idle)
    (j : ℕ) (r : Phase) (hj : (threads.set t q)[j]? = some r) : j = t ∧ r = q ∨ r = .idle := by
  rw [List.getElem?_set] at hj
  split_ifs at hj with htj hlt
  · exact .inl ⟨htj.symm, (Option.some.inj hj).symm⟩
  · exact .inr (hothers j r hj (Ne.symm htj))

theorem Inv.change {s s' : Shared} {t : ℕ} {q : Phase} (hothers : ∀ (j : ℕ) (q : Phase), s.threads[j]? = some q → j ≠ t → q = .idle)
    (hthreads : s'.threads = s.threads.set t q) (hq : q.Last s') (counted : s'.cmdInflight = s'.pending.length)
    (own : ∀ r ∈ s'.returned, r.wait = true → r.wrote = true → (r.call, r.value) ∈ s'.codes)
    (failed : ∀ r ∈ s'.returned, r.wrote = false → r.value < 0) : Inv s' := by
  have hsplit : ∀ (j : ℕ) (r : Phase), s'.threads[j]? = some r → j = t ∧ r = q ∨ r = .idle := hthreads ▸ set_cases hothers
  refine ⟨counted, own, failed, fun p hp => ?_, fun i j p r hi hj hp hr => ?_⟩
  · obtain ⟨j, hj⟩ := List.mem_iff_getElem?.mp hp
    rcases hsplit j p hj with ⟨_, rfl⟩ | rfl
    · exact hq
    · trivial
  · obtain ⟨rfl, _⟩ := (hsplit i p hi).resolve_right hp
    obtain ⟨rfl, _⟩ := (hsplit j r hj).resolve_right hr
    rfl

/-! ### The steps -/

theorem Inv.refuse {s : Shared} (h : Inv s) (wait : Bool) :
    Inv { s with returned := s.returned ++ [⟨s.nextCall, wait, false, -1⟩], nextCall := s.nextCall + 1 } where
  counted := h.counted
  own r hr hwait hwrote := by
    rcases List.mem_append.mp hr with hr | hr
    · exact h.own r hr hwait hwrote
    · rw [List.mem_singleton.mp hr] at hwrote
      cases hwrote
  failed r hr hwrote := by
    rcases List.mem_append.mp hr with hr | hr
    · exact h.failed r hr hwrote
    · rw [List.mem_singleton.mp hr]
      exact neg_one_lt_zero
  last p hp := by
    have hlast := h.last p hp
    cases p <;> exact hlast
  alone := h.alone

theorem Inv.enter {s : Shared} (h : Inv s) (hidle : ∀ p ∈ s.threads, p = .idle) (t : ℕ) (wait : Bool) : Inv (enter s t wait true) := by
  have hcount : s.cmdInflight + 1 = ((s.pending ++ [s.nextCall]).length : ℤ) := by
    rw [List.length_append, h.counted]
    push_cast
    rfl
  unfold Vold.enter
  simp only [if_true]
  split
  · refine Inv.change (t := t) (q := .waiting s.nextCall true) (s := s) ?_ rfl ⟨rfl, by simp⟩ hcount h.own h.failed
    exact fun j q hj _ => hidle q (List.mem_of_getElem? hj)
  · rename_i hwait
    refine ⟨hcount, fun r hr hr1 hr2 => ?_, fun r hr hr1 => ?_, fun p hp => ?_, h.alone⟩
    · rcases List.mem_append.mp hr with hr | hr
      · exact h.own r hr hr1 hr2
      · rw [List.mem_singleton.mp hr] at hr1
        -- a call that waits does not come here: its own command is in flight
        refine absurd ⟨hr1, ?_⟩ hwait
        have := h.counted
        omega
    · rcases List.mem_append.mp hr with hr | hr
      · exact h.failed r hr hr1
      · rw [List.mem_singleton.mp hr] at hr1
        cases hr1
    · rw [hidle p hp]
      trivial

theorem Inv.call {s s' : Shared} {t : ℕ} {command : List CString} {wait connected wrote : Bool} (h : Inv s)
    (horder : Orderly s (.call t command wait connected wrote)) (hstep : call s t command wait connected wrote = some s') : Inv s' := by
  unfold Vold.call at hstep
  split at hstep
  · split at hstep
    · rename_i hsends
      obtain ⟨rfl, hidle⟩ := horder hsends
      cases hstep
      exact h.enter hidle t wait
    · cases hstep
      exact h.refuse wait
  · cases hstep

theorem getLast?_tail {c x : ℕ} {rest : List ℕ} (h : (c :: rest).getLast? = some x) : rest.getLast? = some x ∨ rest = [] ∧ x = c := by
  cases rest with
  | nil => exact .inr ⟨rfl, by simpa using h.symm⟩
  | cons d rest => exact .inl (by simpa using h)

theorem Inv.respond {s s' : Shared} {code : ℤ} {wakes : Option ℕ} (h : Inv s) (hstep : respond s code wakes = some s') : Inv s' := by
  unfold Vold.respond at hstep
  split at hstep
  · cases hstep
  rename_i c rest hpending
  split at hstep
  · obtain ⟨threads', hsignal, rfl⟩ := Option.map_eq_some_iff.mp hstep
    have hcount : s.cmdInflight - 1 = (rest.length : ℤ) := by
      rw [h.counted, hpending, List.length_cons]
      push_cast
      ring
    have hown : ∀ r ∈ s.returned, r.wait = true → r.wrote = true → (r.call, r.value) ∈ s.codes ++ [(c, code)] :=
      fun r hr hwait hwrote => List.mem_append_left _ (h.own r hr hwait hwrote)
    -- the thread in a call, whose command was the last one: it still is, or this was its response
    have hlast : ∀ x, s.pending.getLast? = some x →
        rest.getLast? = some x ∨ rest = [] ∧ (x, code) ∈ s.codes ++ [(c, code)] := by
      intro x hx
      rcases getLast?_tail (hpending ▸ hx) with hx | ⟨hrest, rfl⟩
      · exact .inl hx
      · exact .inr ⟨hrest, by simp⟩
    rcases signal_cases hsignal with ⟨rfl, -, hnone⟩ | ⟨t, x, wrote, -, ht, rfl⟩
    · refine ⟨hcount, hown, h.failed, fun p hp => ?_, h.alone⟩
      have hp' := h.last p hp
      cases p with
      | idle => trivial
      | waiting x wrote => exact absurd (hnone _ hp) (by simp [Phase.isWaiting])
      | awake x wrote =>
        refine ⟨hp'.1, ?_⟩
        rcases hp'.2 with hx | ⟨hempty, _⟩
        · exact hlast x hx
        · rw [hpending] at hempty
          cases hempty
    · have hp' := h.last _ (List.mem_of_getElem? ht)
      exact Inv.change (fun j q hj hne => h.others ht (by simp) hj hne) rfl ⟨hp'.1, hlast x hp'.2⟩ hcount hown h.failed
  · cases hstep

theorem Inv.spurious {s : Shared} {t : ℕ} {threads' : List Phase} (h : Inv s) (hsignal : signal s.threads (some t) = some threads') :
    Inv { s with threads := threads' } := by
  rcases signal_cases hsignal with ⟨-, hnone, -⟩ | ⟨t', c, wrote, -, ht, rfl⟩
  · cases hnone
  · have hp := h.last _ (List.mem_of_getElem? ht)
    exact Inv.change (fun j q hj hne => h.others ht (by simp) hj hne) rfl ⟨hp.1, .inl hp.2⟩ h.counted h.own h.failed

theorem Inv.resume {s s' : Shared} {t : ℕ} (h : Inv s) (hstep : resume s t = some s') : Inv s' := by
  unfold Vold.resume at hstep
  split at hstep
  · rename_i c wrote ht
    have hothers : ∀ (j : ℕ) (q : Phase), s.threads[j]? = some q → j ≠ t → q = .idle := fun j q hj hne => h.others ht (by simp) hj hne
    obtain ⟨hwrote, hlast⟩ := h.last _ (List.mem_of_getElem? ht)
    split at hstep
    · rename_i hinflight
      cases hstep
      have hlast : s.pending.getLast? = some c := hlast.resolve_right fun hempty => by
        rw [h.counted, hempty.1] at hinflight
        exact hinflight rfl
      exact Inv.change hothers rfl ⟨hwrote, hlast⟩ h.counted h.own h.failed
    · rename_i hinflight
      cases hstep
      have hempty : s.pending = [] := by
        have := h.counted
        exact List.length_eq_zero_iff.mp (by omega)
      have hmine : (c, s.cmdResult) ∈ s.codes := by
        rcases hlast with hlast | hlast
        · rw [hempty] at hlast
          cases hlast
        · exact hlast.2
      refine Inv.change hothers rfl trivial h.counted (fun r hr hr1 hr2 => ?_) fun r hr hr1 => ?_
      · rcases List.mem_append.mp hr with hr | hr
        · exact h.own r hr hr1 hr2
        · rw [List.mem_singleton.mp hr]
          exact hmine
      · rcases List.mem_append.mp hr with hr | hr
        · exact h.failed r hr hr1
        · rw [List.mem_singleton.mp hr, hwrote] at hr1
          cases hr1
  · cases hstep

theorem step_inv {s s' : Shared} {a : Act} (h : Inv s) (horder : Orderly s a) (hstep : step s a = some s') : Inv s' := by
  cases a with
  | call t command wait connected wrote => exact h.call horder hstep
  | respond code wakes => exact h.respond hstep
  | spurious t =>
    obtain ⟨threads', hsignal, rfl⟩ := Option.map_eq_some_iff.mp hstep
    exact h.spurious hsignal
  | resume t => exact h.resume hstep

theorem reached_inv {threads : ℕ} {s : Shared} (h : Reached threads s) : Inv s := by
  induction h with
  | start => exact inv_start threads
  | step _ horder hstep ih => exact step_inv ih horder hstep

theorem Inv.attributed {s : Shared} (h : Inv s) : Attributed s where
  counted := h.counted
  own := h.own
  failed := h.failed
  blocked c wrote hmem := by
    obtain ⟨hwrote, hlast⟩ := h.last _ hmem
    refine ⟨hwrote, fun hempty => ?_⟩
    rw [hempty] at hlast
    cases hlast

/-- **Results belong to their commands**, in every state that any number of threads comes to, if every write succeeds and no command is
written while a call waits. -/
theorem commands_attributed (threads : ℕ) (s : Shared) (h : Reached threads s) : Attributed s := (reached_inv h).attributed

def mount : List CString := [str "volume", str "mount", str "/sd card"]

/-- A call that waits, and its response. -/
theorem mount_attributed :
    finalCmd mount = some (lit "0 volume mount \"/sd card\"") ∧
    ∃ s, Reached 2 s ∧ Attributed s ∧ s.returned = [⟨0, true, true, 405⟩] ∧ s.codes = [(0, 405)] := by
  have hcall : Reached 2 (Vold.enter (start 2) 0 true true) :=
    .step .start (a := .call 0 mount true true true) (fun _ => by decide) (by decide)
  have hrespond := Reached.step hcall (a := .respond 405 (some 0)) trivial rfl
  have hresume := Reached.step hrespond (a := .resume 0) trivial rfl
  exact ⟨by decide, _, hresume, commands_attributed 2 _ hresume, rfl, rfl⟩

/-- **Otherwise not.** Of two calls that wait, the first one returns the code of the second; and a call that could not write waits, with
nothing to be answered. -/
theorem results_mixed :
    (steps (start 2) [.call 0 mount true true true, .call 1 mount true true true, .respond 200 (some 0), .resume 0, .respond 405 (some 0),
        .resume 0]).map (fun s => (s.returned, s.codes)) = some ([⟨0, true, true, 405⟩], [(0, 200), (1, 405)]) ∧
    (steps (start 1) [.call 0 mount true true false]).map (fun s => (s.threads, s.cmdInflight, s.pending)) =
      some ([.waiting 0 false], 1, []) := by
  constructor <;> rfl

end Vold
end Recovery
