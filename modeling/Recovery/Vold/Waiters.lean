/-
# Waiters and the connection to vold (event_loop.c)

Each response signals one waiter, and a waiter that finds something in flight waits again.
After the connection is lost, the event thread closes the socket and keeps its number, so
`vold_connect` makes no new one. The threads and the responses are those of `Vold.step`; the
connection is beside them. The signal of the first start is left out.

Key theorems: `waiters_left`, `no_waiter_left`.
-/
import Recovery.Vold.Command

namespace Recovery
namespace Vold

/-! ### The connection -/

structure Conn where
  shared : Shared
  /-- `sock`: the descriptor, or what is left of it -/
  sock : ℤ
  /-- the descriptor is one of a connection -/
  connected : Bool
  /-- the event thread is in `monitor` -/
  monitoring : Bool
  deriving DecidableEq

/-- `vold_connect`, where `fd` is what `socket_local_client` returns. -/
def voldConnect (c : Conn) (fd : ℤ) : ℤ × Conn :=
  if c.sock > 0 then (1, c) else (if fd < 0 then -1 else 1, { c with sock := fd, connected := 0 ≤ fd })

/-- A write to what is not a connection fails. -/
def voldCommand (c : Conn) (thread : ℕ) (command : List CString) (wait : Bool) (fd : ℤ) (wrote : Bool) : Option Conn :=
  let (ret, c) := voldConnect c fd
  if wrote ∧ c.connected = false then none
  else (call c.shared thread command wait (ret ≠ 0) wrote).map fun s => { c with shared := s }

def answer (c : Conn) (code : ℤ) (wakes : Option ℕ) : Option Conn :=
  if c.monitoring ∧ c.connected then (respond c.shared code wakes).map fun s => { c with shared := s } else none

/-- `monitor` returns, and the socket is closed. What was not answered never is. -/
def leave (c : Conn) : Option Conn :=
  if c.monitoring then
    some { c with shared := { c.shared with pending := [] }, connected := false, monitoring := false }
  else none

def reconnect (c : Conn) (fd : ℤ) : Option Conn :=
  if c.monitoring then none
  else
    let (ret, c) := voldConnect c fd
    some { c with monitoring := ret ≠ 0 }

inductive Move
  | command (thread : ℕ) (command : List CString) (wait : Bool) (fd : ℤ) (wrote : Bool)
  | answer (code : ℤ) (wakes : Option ℕ)
  /-- a thread that was signalled gets the mutex back -/
  | resume (thread : ℕ)
  | leave
  | reconnect (fd : ℤ)

def move (c : Conn) : Move → Option Conn
  | .command thread command wait fd wrote => voldCommand c thread command wait fd wrote
  | .answer code wakes => answer c code wakes
  | .resume thread => (resume c.shared thread).map fun s => { c with shared := s }
  | .leave => leave c
  | .reconnect fd => reconnect c fd

def moves : Conn → List Move → Option Conn
  | c, [] => some c
  | c, m :: ms => (move c m).bind fun c => moves c ms

def unconnected (threads : ℕ) : Conn := ⟨start threads, -1, false, false⟩

/-! ### Runs -/

/-- Every write succeeds, one call waits at a time, and the connection is not lost in between. -/
def Careful (c : Conn) : Move → Prop
  | .command _ command wait _ wrote => sends command true → wrote = true ∧ (wait = true → ∀ p ∈ c.shared.threads, p = .idle)
  | .leave => c.shared.pending = []
  | _ => True

inductive Led (threads : ℕ) : Conn → Prop
  | start : Led threads (unconnected threads)
  | move {c c' : Conn} {m : Move} (h : Led threads c) (hcare : Careful c m) (hmove : move c m = some c') : Led threads c'

/-- What keeps a waiter from being left behind. -/
structure Heard (s : Shared) : Prop where
  counted : s.cmdInflight = s.pending.length
  /-- while a thread waits, something is not answered -/
  waiting : ∀ p ∈ s.threads, p.isWaiting = true → s.pending ≠ []
  /-- at most one thread is in a call -/
  alone : ∀ (i j : ℕ) (p q : Phase), s.threads[i]? = some p → s.threads[j]? = some q → p ≠ .idle → q ≠ .idle → i = j

section

variable {s s' : Shared} {t : ℕ} {p q : Phase}

theorem heard_start (threads : ℕ) : Heard (start threads) where
  counted := rfl
  waiting p hp hwait := by
    rw [List.eq_of_mem_replicate hp] at hwait
    cases hwait
  alone i j p q hi _ hp _ := absurd (List.eq_of_mem_replicate (List.mem_of_getElem? hi)) hp

theorem Heard.change (hothers : ∀ (j : ℕ) (r : Phase), s.threads[j]? = some r → j ≠ t → r = .idle)
    (hthreads : s'.threads = s.threads.set t q) (hq : q.isWaiting = true → s'.pending ≠ [])
    (hcount : s'.cmdInflight = s'.pending.length) : Heard s' := by
  have hsplit : ∀ (j : ℕ) (r : Phase), s'.threads[j]? = some r → r ≠ .idle → j = t ∧ r = q := by
    intro j r hj hr
    rw [hthreads] at hj
    exact (set_cases hothers j r hj).resolve_right hr
  refine ⟨hcount, fun r hr hwait => ?_, fun i j r r' hi hj hr hr' => ?_⟩
  · obtain ⟨j, hj⟩ := List.mem_iff_getElem?.mp hr
    have hne : r ≠ .idle := by
      rintro rfl
      cases hwait
    obtain ⟨-, rfl⟩ := hsplit j r hj hne
    exact hq hwait
  · rw [(hsplit i r hi hr).1, (hsplit j r' hj hr').1]

theorem Heard.others (h : Heard s) (ht : s.threads[t]? = some p) (hp : p ≠ .idle) (j : ℕ) (r : Phase) (hj : s.threads[j]? = some r)
    (hne : j ≠ t) : r = .idle := by
  by_contra hr
  exact hne (h.alone j t r p hj ht hr hp)

theorem Heard.same (h : Heard s) (hthreads : s'.threads = s.threads) (hpending : s'.pending = [] → s.pending = [])
    (hcount : s'.cmdInflight = s'.pending.length) : Heard s' := by
  refine ⟨hcount, fun p hp hwait hempty => ?_, fun i j p q hi hj => ?_⟩
  · rw [hthreads] at hp
    exact h.waiting p hp hwait (hpending hempty)
  · rw [hthreads] at hi hj
    exact h.alone i j p q hi hj

theorem Heard.call {command : List CString} {wait connected wrote : Bool} (h : Heard s)
    (hcare : sends command connected → wrote = true ∧ (wait = true → ∀ p ∈ s.threads, p = .idle))
    (hcall : call s t command wait connected wrote = some s') : Heard s' := by
  rw [Vold.call] at hcall
  split_ifs at hcall with hidle hsends
  · obtain ⟨rfl, halone⟩ := hcare hsends
    obtain rfl := Option.some.inj hcall
    have hcount : s.cmdInflight + 1 = ((s.pending ++ [s.nextCall]).length : ℤ) := by
      rw [List.length_append, h.counted]
      push_cast
      rfl
    unfold Vold.enter
    simp only [if_true]
    split_ifs with hwait
    · refine Heard.change (s := s) (t := t) (q := .waiting s.nextCall true) ?_ rfl (fun _ => by simp) hcount
      exact fun j r hj _ => halone hwait.1 r (List.mem_of_getElem? hj)
    · exact h.same rfl (fun hempty => absurd hempty (by simp)) hcount
  · obtain rfl := Option.some.inj hcall
    exact h.same rfl (fun hempty => hempty) h.counted

theorem Heard.respond {code : ℤ} {wakes : Option ℕ} (h : Heard s) (hrespond : respond s code wakes = some s') : Heard s' := by
  unfold Vold.respond at hrespond
  split at hrespond
  · cases hrespond
  rename_i c rest hpending
  split_ifs at hrespond
  obtain ⟨threads, hsignal, rfl⟩ := Option.map_eq_some_iff.mp hrespond
  have hcount : s.cmdInflight - 1 = (rest.length : ℤ) := by
    rw [h.counted, hpending, List.length_cons]
    push_cast
    ring
  rcases signal_cases hsignal with ⟨rfl, -, hnone⟩ | ⟨t, x, wrote, -, ht, rfl⟩
  · refine ⟨hcount, fun p hp hwait => ?_, h.alone⟩
    rw [hnone p hp] at hwait
    cases hwait
  · refine Heard.change (h.others ht (by simp)) rfl ?_ hcount
    intro hwait
    cases hwait

theorem Heard.resume (h : Heard s) (hresume : resume s t = some s') : Heard s' := by
  unfold Vold.resume at hresume
  split at hresume
  · rename_i x wrote ht
    have hothers := h.others ht (by simp)
    split_ifs at hresume with hinflight
    · obtain rfl := Option.some.inj hresume
      refine Heard.change hothers rfl (fun _ hempty => hinflight ?_) h.counted
      rw [h.counted, hempty]
      rfl
    · obtain rfl := Option.some.inj hresume
      refine Heard.change hothers rfl ?_ h.counted
      intro hwait
      cases hwait
  · cases hresume

end

theorem voldConnect_shared (c : Conn) (fd : ℤ) : (voldConnect c fd).2.shared = c.shared := by
  unfold voldConnect
  split_ifs <;> rfl

theorem voldConnect_ne_zero (c : Conn) (fd : ℤ) : (voldConnect c fd).1 ≠ 0 := by
  unfold voldConnect
  split_ifs <;> simp

theorem move_heard {c c' : Conn} {m : Move} (h : Heard c.shared) (hcare : Careful c m)
    (hmove : move c m = some c') : Heard c'.shared := by
  cases m with
  | command thread command wait fd wrote =>
    rw [move, voldCommand] at hmove
    dsimp only at hmove
    split_ifs at hmove with hrefused
    obtain ⟨s', hcall, rfl⟩ := Option.map_eq_some_iff.mp hmove
    rw [voldConnect_shared, decide_eq_true (voldConnect_ne_zero c fd)] at hcall
    exact h.call hcare hcall
  | answer code wakes =>
    rw [move, answer] at hmove
    split_ifs at hmove with hlink
    obtain ⟨s', hrespond, rfl⟩ := Option.map_eq_some_iff.mp hmove
    exact h.respond hrespond
  | resume thread =>
    obtain ⟨s', hresume, rfl⟩ := Option.map_eq_some_iff.mp hmove
    exact h.resume hresume
  | leave =>
    rw [move, leave] at hmove
    split_ifs at hmove
    obtain rfl := Option.some.inj hmove
    have hempty : c.shared.pending = [] := hcare
    refine h.same rfl (fun _ => hempty) ?_
    rw [h.counted, hempty]
  | reconnect fd =>
    rw [move, reconnect] at hmove
    split_ifs at hmove
    dsimp only at hmove
    have hshared : c'.shared = c.shared := by
      rw [← Option.some.inj hmove]
      exact voldConnect_shared c fd
    exact hshared ▸ h

theorem led_heard {threads : ℕ} {c : Conn} (h : Led threads c) : Heard c.shared := by
  induction h with
  | start => exact heard_start threads
  | move _ hcare hmove ih => exact move_heard ih hcare hmove

/-- **No waiter is left behind** when everything is answered, if one call waits at a time, every write succeeds and the connection is not
lost while something is not answered. Calls that do not wait may come at any time. -/
theorem no_waiter_left (threads : ℕ) (c : Conn) (h : Led threads c) (hanswered : c.shared.pending = []) :
    ∀ p ∈ c.shared.threads, p.isWaiting = false := by
  intro p hp
  by_contra hwait
  exact (led_heard h).waiting p hp (by simpa using hwait) hanswered

/-- A call waits while another is made that does not. It is woken by the first response,
waits again, and returns after the second. -/
theorem no_waiter_left_two : ∃ c, Led 2 c ∧ c.shared.pending = [] ∧ c.shared.returned = [⟨1, false, true, 0⟩, ⟨0, true, true, 200⟩] ∧
    ∀ p ∈ c.shared.threads, p.isWaiting = false := by
  have hconnect := Led.move (Led.start : Led 2 _) (m := .reconnect 7) trivial rfl
  have hfirst := Led.move hconnect (m := .command 0 mount true 7 true) (fun _ => by decide) rfl
  have hsecond := Led.move hfirst (m := .command 1 mount false 7 true) (fun _ => by decide) rfl
  have hanswer := Led.move hsecond (m := .answer 200 (some 0)) trivial rfl
  have hagain := Led.move hanswer (m := .resume 0) trivial rfl
  have hanswer' := Led.move hagain (m := .answer 200 (some 0)) trivial rfl
  have hresume := Led.move hanswer' (m := .resume 0) trivial rfl
  exact ⟨_, hresume, rfl, rfl, no_waiter_left 2 _ hresume rfl⟩

/-- **Otherwise one is.** Of two calls that wait, the first one is woken by both responses, and the second one waits on. After the
connection was lost, the event thread does not connect again; the write of the next call fails, and it waits for nothing. -/
theorem waiters_left :
    (moves (unconnected 2) [.reconnect 7, .command 0 mount true 7 true, .command 1 mount true 7 true,
      .answer 200 (some 0), .resume 0,
        .answer 200 (some 0), .resume 0]).map (fun c => (c.shared.threads, c.shared.pending)) = some ([.idle, .waiting 1 true], []) ∧
    (moves (unconnected 1) [.reconnect 7, .leave, .reconnect 8, .command 0 mount true 8 false]).map
        (fun c => (c.shared.threads, c.shared.pending, c.sock, c.connected)) = some ([.waiting 0 false], [], 7, false) := by
  constructor <;> rfl

end Vold
end Recovery
