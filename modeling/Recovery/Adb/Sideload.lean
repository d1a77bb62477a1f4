/-
# A package that is sent to the daemon (minadbd/services.c, transport.c)

`sideload_service` runs in a thread of its own for each stream. It reads from its end of the
pair what the daemon writes to the other end, and writes the file that is then installed,
which is the same for all services. The steps of the daemon and of the threads come in any
order.

* `sideloaded`: a service that reports success has written what the host has sent, as many bytes as were announced; and if
  no other one was started, that is what the file has.

The `writex` of the answer and `exit`, after which nothing happens, are left out, as is a
file that cannot be created.
-/
import Recovery.Adb.Streams

namespace Recovery
namespace Adb

open Pouring

/-! ### The service -/

/-- The place in the function: in front of `creat`, in `readx` with a part of the chunk, in
`writex` with what is left of it, or behind the loop. -/
inductive Phase
  | starting
  | reading (buf : Bytes)
  | writing (left : Bytes)
  | finished (okay : Bool)
  deriving DecidableEq

/-- `count` is what is still expected, `consumed` the number of bytes that were read from
the pair, and `out` what was written to the descriptor of the file. -/
structure Service where
  name : Bytes
  count : ℕ
  consumed : ℕ
  out : Bytes
  phase : Phase

/-- The argument of the service: `atoi`, as an unsigned number. -/
def sideloadCount (name : Bytes) : ℕ := (u32 (atoi (name.drop 9))).toNat

def xfer (count : ℕ) : ℕ := min 4096 count

/-- `while(count > 0)`. -/
def atLoop (count : ℕ) : Phase := if count = 0 then .finished true else .reading []

def Service.start (name : Bytes) : Service := ⟨name, sideloadCount name, 0, [], .starting⟩

/-- A `read` that gives `n` bytes, or as many as there are and were asked for. It waits
while there are none. -/
def Service.read (n : ℕ) (pipe buf : Bytes) (v : Service) : Service :=
  let b := (pipe.drop v.consumed).take (min n (xfer v.count - buf.length))
  { v with
    consumed := v.consumed + b.length
    phase := if (buf ++ b).length = xfer v.count then .writing (buf ++ b) else .reading (buf ++ b) }

/-- A `write` that takes `n` bytes, or all there are. -/
def Service.write (n : ℕ) (left : Bytes) (v : Service) : Service :=
  let v' := { v with out := v.out ++ left.take n }
  if left.drop n = [] then { v' with count := v.count - xfer v.count, phase := atLoop (v.count - xfer v.count) }
  else { v' with phase := .writing (left.drop n) }

/-- One call of the thread, with all that was ever written to the other end. -/
def Service.step (answer : Answer ℕ) (pipe : Bytes) (v : Service) : Service :=
  match v.phase, answer with
  | .starting, _ => { v with phase := atLoop v.count }
  | .finished _, _ => v
  | _, .interrupted => v
  | _, .again => { v with phase := .finished false }
  | _, .failed => { v with phase := .finished false }
  | .reading buf, .moved n => v.read (n + 1) pipe buf
  | .writing left, .moved n => v.write (n + 1) left

/-- `write` at an offset. -/
def pwrite (i : ℕ) (b file : Bytes) : Bytes := file.take i ++ List.replicate (i - file.length) 0 ++ b ++ file.drop (i + b.length)

/-- What the call does to the file: `creat` empties it, and each descriptor has its own offset. -/
def Service.touch (answer : Answer ℕ) (file : Bytes) (v : Service) : Bytes :=
  match v.phase, answer with
  | .starting, _ => []
  | .writing left, .moved n => pwrite v.out.length (left.take (n + 1)) file
  | _, _ => file

/-! ### The daemon with its services -/

structure System where
  adbd : Adbd
  services : ℕ → Option Service
  file : Bytes

def System.initial (stale : Bytes) : System := ⟨.initial, fun _ => none, stale⟩

def openedName (h : List Act) : Option Bytes := h.findSome? fun x => match x with | .opened name => some name | _ => none

inductive Move
  | daemon (ev : Event)
  | service (r : ℕ) (answer : Answer ℕ)

/-- The thread of a stream that the event has opened is started. -/
def spawn (a a' : Adbd) (services : ℕ → Option Service) (r : ℕ) : Option Service :=
  (if a.count ≤ r ∧ r < a'.count then (openedName (a'.history r)).map .start else none).or (services r)

def System.step (y : System) : Move → Except Stop System
  | .daemon ev => do
    let a ← Adb.step y.adbd ev
    .ok { y with adbd := a, services := spawn y.adbd a y.services }
  | .service r answer =>
    .ok { y with
      services := Function.update y.services r ((y.services r).map (·.step answer (y.adbd.tally r).written))
      file := (y.services r).elim y.file (·.touch answer y.file) }

def System.run : System → List Move → Except Stop System
  | y, [] => .ok y
  | y, m :: ms => do System.run (← y.step m) ms

/-! ### What the service has -/

/-- The service is at this place, with `w` written to its pair. -/
def Service.At (v : Service) (w : Bytes) : Phase → Prop
  | .starting => v.out = [] ∧ v.consumed = 0 ∧ v.count = sideloadCount v.name
  | .reading buf => v.out ++ buf = w.take v.consumed ∧ v.consumed ≤ w.length ∧ v.out.length + v.count = sideloadCount v.name ∧
      buf.length < xfer v.count
  | .writing left => v.out ++ left = w.take v.consumed ∧ v.consumed ≤ w.length ∧
      v.out.length + left.length + v.count = sideloadCount v.name + xfer v.count ∧ 0 < left.length
  | .finished okay => v.out <+: w ∧ (okay = true → v.out = w.take (sideloadCount v.name) ∧ sideloadCount v.name ≤ w.length)

def Service.Faithful (v : Service) (w : Bytes) : Prop := v.At w v.phase

section

variable {v : Service} {w : Bytes}

theorem Service.Faithful.out (h : v.Faithful w) : v.out <+: w := by
  have htake := List.take_prefix v.consumed w
  unfold Service.Faithful at h
  cases hp : v.phase with
  | starting =>
    rw [hp] at h
    exact h.1 ▸ List.nil_prefix
  | reading buf =>
    rw [hp] at h
    exact (List.prefix_append _ _).trans (h.1 ▸ htake)
  | writing left =>
    rw [hp] at h
    exact (List.prefix_append _ _).trans (h.1 ▸ htake)
  | finished okay =>
    rw [hp] at h
    exact h.1

/-- What the daemon writes later changes nothing. -/
theorem Service.Faithful.mono (h : v.Faithful w) {w' : Bytes} (hw : w <+: w') : v.Faithful w' := by
  obtain ⟨u, rfl⟩ := hw
  have htake : ∀ {n}, n ≤ w.length → (w ++ u).take n = w.take n := fun hn => List.take_append_of_le_length hn
  have hlen : w.length ≤ (w ++ u).length := by simp
  unfold Service.Faithful at h ⊢
  cases hp : v.phase with
  | starting =>
    rw [hp] at h
    exact h
  | reading buf =>
    rw [hp] at h
    exact ⟨h.1.trans (htake h.2.1).symm, h.2.1.trans hlen, h.2.2⟩
  | writing left =>
    rw [hp] at h
    exact ⟨h.1.trans (htake h.2.1).symm, h.2.1.trans hlen, h.2.2⟩
  | finished okay =>
    rw [hp] at h
    refine ⟨h.1.trans (List.prefix_append _ _), fun hok => ?_⟩
    obtain ⟨hfile, hle⟩ := h.2 hok
    exact ⟨hfile.trans (htake hle).symm, hle.trans hlen⟩

/-- At the top of the loop, with a number of whole chunks in the file. -/
theorem at_loop (hfile : v.out = w.take v.consumed) (hle : v.consumed ≤ w.length)
    (hcount : v.out.length + v.count = sideloadCount v.name) : v.At w (atLoop v.count) := by
  unfold atLoop
  by_cases h0 : v.count = 0
  · have hlen : v.consumed = sideloadCount v.name := by
      have := congrArg List.length hfile
      rw [List.length_take] at this
      omega
    rw [if_pos h0]
    exact ⟨hfile ▸ List.take_prefix _ _, fun _ => ⟨hlen ▸ hfile, hlen ▸ hle⟩⟩
  · rw [if_neg h0]
    refine ⟨by rw [List.append_nil]; exact hfile, hle, hcount, ?_⟩
    show 0 < min 4096 v.count
    omega

theorem Service.Faithful.start (name : Bytes) : (Service.start name).Faithful w := ⟨rfl, rfl, rfl⟩

theorem Service.Faithful.read {buf : Bytes} (h : v.At w (.reading buf)) (n : ℕ) : (v.read n w buf).Faithful w := by
  obtain ⟨hfile, hle, hcount, hbuf⟩ := h
  unfold Service.read
  dsimp only
  have hb : (w.drop v.consumed).take (min n (xfer v.count - buf.length)) <+: w.drop v.consumed := List.take_prefix _ _
  have hlen : ((w.drop v.consumed).take (min n (xfer v.count - buf.length))).length ≤ xfer v.count - buf.length :=
    (List.length_take_le _ _).trans (min_le_right _ _)
  revert hb hlen
  generalize (w.drop v.consumed).take (min n (xfer v.count - buf.length)) = b
  intro hb hlen
  have hroom := hb.length_le
  rw [List.length_drop] at hroom
  have hall : v.out ++ (buf ++ b) = w.take (v.consumed + b.length) := by
    rw [List.take_add, ← List.append_assoc, hfile, ← List.prefix_iff_eq_take.mp hb]
  unfold Service.Faithful
  dsimp only
  split_ifs with hfull
  · refine ⟨hall, ?_, ?_, ?_⟩
    · show v.consumed + b.length ≤ w.length
      omega
    · show v.out.length + (buf ++ b).length + v.count = sideloadCount v.name + xfer v.count
      omega
    · omega
  · refine ⟨hall, ?_, hcount, ?_⟩
    · show v.consumed + b.length ≤ w.length
      omega
    · show (buf ++ b).length < xfer v.count
      rw [List.length_append] at hfull ⊢
      omega

theorem Service.Faithful.write {left : Bytes} (h : v.At w (.writing left)) (n : ℕ) : (v.write n left).Faithful w := by
  obtain ⟨hfile, hle, hcount, -⟩ := h
  have hxfer : xfer v.count ≤ v.count := min_le_right _ _
  have hall : v.out ++ left.take n ++ left.drop n = w.take v.consumed := by
    rw [List.append_assoc, List.take_append_drop]
    exact hfile
  have hlen : (left.take n).length + (left.drop n).length = left.length := by
    rw [← List.length_append, List.take_append_drop]
  unfold Service.write Service.Faithful
  dsimp only
  split_ifs with hdone
  · rw [hdone, List.append_nil] at hall
    rw [hdone, List.length_nil] at hlen
    refine at_loop (v := ⟨v.name, v.count - xfer v.count, v.consumed, v.out ++ left.take n, _⟩) hall hle ?_
    show (v.out ++ left.take n).length + (v.count - xfer v.count) = sideloadCount v.name
    rw [List.length_append]
    omega
  · refine ⟨hall, hle, ?_, List.length_pos_of_ne_nil hdone⟩
    show (v.out ++ left.take n).length + (left.drop n).length + v.count = sideloadCount v.name + xfer v.count
    rw [List.length_append]
    omega

theorem Service.Faithful.step (h : v.Faithful w) (answer : Answer ℕ) : (v.step answer w).Faithful w := by
  have hfail : Service.Faithful { v with phase := .finished false } w := ⟨h.out, fun hok => by cases hok⟩
  unfold Service.step
  cases hp : v.phase with
  | starting =>
    obtain ⟨hout, hconsumed, hcount⟩ : v.At w .starting := hp ▸ h
    have hfile : v.out = w.take v.consumed := by rw [hout, hconsumed, List.take_zero]
    exact at_loop (v := { v with phase := atLoop v.count }) hfile (by simp [hconsumed]) (by simp [hout, hcount])
  | finished okay => exact h
  | reading buf =>
    have hat : v.At w (.reading buf) := hp ▸ h
    cases answer with
    | moved n => exact .read hat (n + 1)
    | interrupted => exact h
    | _ => exact hfail
  | writing left =>
    have hat : v.At w (.writing left) := hp ▸ h
    cases answer with
    | moved n => exact .write hat (n + 1)
    | interrupted => exact h
    | _ => exact hfail

theorem pwrite_end (file b : Bytes) : pwrite file.length b file = file ++ b := by simp [pwrite]

/-- A file that only this service writes has what it has written. -/
theorem Service.Faithful.touch (h : v.Faithful w) {file : Bytes} (hfile : v.phase ≠ .starting → file = v.out)
    (answer : Answer ℕ) : v.touch answer file = (v.step answer w).out := by
  unfold Service.touch Service.step
  cases hp : v.phase with
  | starting => exact (hp ▸ h : v.At w .starting).1.symm
  | finished okay => exact hfile (by simp [hp])
  | reading buf =>
    cases answer <;> exact hfile (by simp [hp])
  | writing left =>
    rw [hfile (by simp [hp])]
    cases answer with
    | moved n =>
      dsimp only
      rw [pwrite_end]
      unfold Service.write
      dsimp only
      split_ifs <;> rfl
    | _ => rfl

end

/-! ### Whole runs -/

section

variable {a a' : Adbd} {r : ℕ} {f : Asocket → Turn}

theorem written_addAll : ∀ (acts : List Act) (t : Tally), t.written <+: (t.addAll acts).written
  | [], _ => List.prefix_rfl
  | act :: acts, t => by
    refine List.IsPrefix.trans ?_ (written_addAll acts (t.add act))
    cases act with
    | wrote b => exact List.prefix_append _ _
    | sent p =>
      unfold Tally.add
      dsimp only
      split_ifs <;> exact List.prefix_rfl
    | _ => exact List.prefix_rfl

theorem written_mono (h : a.log <+: a'.log) (r : ℕ) : (a.tally r).written <+: (a'.tally r).written := by
  obtain ⟨later, hlog⟩ := h
  have hhist : a'.history r = a.history r ++ (later.filter fun x => x.1 = some r).map Prod.snd := by
    unfold Adbd.history
    rw [← hlog, List.filter_append, List.map_append]
  rw [Adbd.tally, Adbd.tally, hhist, Tally.addAll_append]
  exact written_addAll _ _

theorem log_on (r : ℕ) (f : Asocket → Turn) (a : Adbd) : a.log <+: (a.on r f).log := by
  unfold Adbd.on
  cases a.socks r with
  | none => exact List.prefix_rfl
  | some s => exact List.prefix_append _ _

theorem log_onAll (f : Asocket → Turn) (a : Adbd) : a.log <+: (a.onAll f).log := by
  unfold Adbd.onAll
  generalize List.range a.count = rs
  induction rs generalizing a with
  | nil => exact List.prefix_rfl
  | cons r rs ih => exact (log_on r (ifOpen f) a).trans (ih _)

theorem log_offline (a : Adbd) : a.log <+: (handleOffline a).log :=
  log_onAll remoteSocketDisconnect { a with connectionState := .offline }

theorem log_handlePacket (p : Apacket) (spawned : Bool) (answers : List (Answer ℕ)) (a : Adbd) :
    a.log <+: (handlePacket p spawned answers a).log := by
  unfold handlePacket
  split_ifs
  · exact List.prefix_append _ _
  · exact (log_offline a).trans (List.prefix_append _ _)
  · exact (log_offline a).trans (List.prefix_append _ _)
  · exact List.prefix_append _ _
  · exact List.prefix_rfl
  · unfold openService
    dsimp only
    split_ifs <;> exact List.prefix_append _ _
  · cases findLocalSocket p.arg1 a with
    | none => exact List.prefix_rfl
    | some r =>
      show a.log <+: (handleStream p answers r a).log
      unfold handleStream
      split_ifs
      · exact log_on _ _ _
      · exact log_on _ _ _
      · exact log_on _ _ _
      · exact List.prefix_rfl

/-- What has happened stays. -/
theorem log_step {ev : Event} (h : step a ev = .ok a') : a.log <+: a'.log := by
  cases ev with
  | packet p spawned answers =>
    cases h
    exact log_handlePacket p spawned answers a
  | select r read write =>
    cases h
    exact log_on _ _ _
  | call r writes reads =>
    have hcall : (a.socks r).elim (.ok a) (fun s => fdeventCallFdfunc writes reads s >>= fun x => .ok (a.leave r x)) =
        .ok a' := h
    cases hs : a.socks r with
    | none =>
      rw [hs] at hcall
      cases hcall
      exact List.prefix_rfl
    | some s =>
      rw [hs] at hcall
      obtain ⟨x, -, hleave⟩ := bind_eq_ok.mp hcall
      cases hleave
      exact List.prefix_append _ _
  | closeAll =>
    cases h
    exact log_onAll _ _
  | removeTransport =>
    cases h
    exact log_offline a

end

structure System.Sound (y : System) : Prop where
  adbd : Adb.Sound y.adbd
  services : ∀ r v, y.services r = some v → v.Faithful (y.adbd.tally r).written
  file : ∀ r v, y.services r = some v → v.phase ≠ .starting → (∀ r' ≠ r, y.services r' = none) → y.file = v.out

theorem System.Sound.daemon {y : System} (h : y.Sound) {ev : Event} {a : Adbd} (hstep : Adb.step y.adbd ev = .ok a)
    (hsound : Adb.Sound a) : System.Sound { y with adbd := a, services := spawn y.adbd a y.services } := by
  have hold {r v} (hv : spawn y.adbd a y.services r = some v) : v.phase = .starting ∧ v.Faithful (a.tally r).written ∨
      y.services r = some v := by
    rcases Option.or_eq_some_iff.mp hv with hnew | ⟨-, hv⟩
    · split_ifs at hnew
      obtain ⟨name, -, rfl⟩ := Option.map_eq_some_iff.mp hnew
      exact .inl ⟨rfl, .start name⟩
    · exact .inr hv
  refine ⟨hsound, fun r v hv => ?_, fun r v hv hphase hothers => ?_⟩
  · rcases hold hv with ⟨-, hv⟩ | hv
    · exact hv
    · exact (h.services r v hv).mono (written_mono (log_step hstep) r)
  · exact h.file r v ((hold hv).resolve_left fun hnew => hphase hnew.1) hphase fun r' hr =>
      (Option.or_eq_none_iff.mp (hothers r' hr)).2

theorem System.Sound.service {y : System} (h : y.Sound) (r : ℕ) (answer : Answer ℕ) :
    ∃ y', y.step (.service r answer) = .ok y' ∧ y'.Sound := by
  have hself := Function.update_self r ((y.services r).map (·.step answer (y.adbd.tally r).written)) y.services
  have hother {r'} (hne : r' ≠ r) :=
    Function.update_of_ne hne ((y.services r).map (·.step answer (y.adbd.tally r).written)) y.services
  refine ⟨_, rfl, h.adbd, fun r' v hv => ?_, fun r' v hv hphase hothers => ?_⟩
  · by_cases heq : r' = r
    · subst heq
      obtain ⟨v0, hv0, rfl⟩ := Option.map_eq_some_iff.mp (hself.symm.trans hv)
      exact (h.services r' v0 hv0).step answer
    · exact h.services r' v ((hother heq).symm.trans hv)
  · by_cases heq : r' = r
    · subst heq
      obtain ⟨v0, hv0, rfl⟩ := Option.map_eq_some_iff.mp (hself.symm.trans hv)
      have halone : ∀ r'' ≠ r', y.services r'' = none := fun r'' hne => (hother hne).symm.trans (hothers r'' hne)
      show (y.services r').elim y.file _ = _
      rw [hv0]
      exact (h.services r' v0 hv0).touch (fun hp => h.file r' v0 hv0 hp halone) answer
    · have hnone : y.services r = none := Option.map_eq_none_iff.mp (hself.symm.trans (hothers r (Ne.symm heq)))
      show (y.services r).elim y.file _ = _
      rw [hnone]
      refine h.file r' v ((hother heq).symm.trans hv) hphase fun r'' hne => ?_
      by_cases hr : r'' = r
      · rw [hr, hnone]
      · exact (hother hr).symm.trans (hothers r'' hne)

theorem System.Sound.step {y : System} (h : y.Sound) : ∀ m : Move, ∃ y', y.step m = .ok y' ∧ y'.Sound
  | .daemon ev => by
    obtain ⟨a, hstep, hsound⟩ := h.adbd.step ev
    exact ⟨_, by rw [System.step, hstep, ok_bind], h.daemon hstep hsound⟩
  | .service r answer => h.service r answer

theorem System.run_sound : ∀ (ms : List Move) {y : System}, y.Sound → ∃ y', y.run ms = .ok y' ∧ y'.Sound
  | [], y, h => ⟨y, rfl, h⟩
  | m :: ms, y, h => by
    obtain ⟨y1, hstep, h1⟩ := h.step m
    obtain ⟨y2, hrun, h2⟩ := System.run_sound ms h1
    exact ⟨y2, by rw [System.run, hstep, ok_bind, hrun], h2⟩

/-- **The package is what was sent**, whatever order the daemon, its threads and the host go in: a service writes only a
beginning of what arrived on its stream, and if it says that it has finished, the number of bytes that it was asked to
expect. If no other service was started the file has just that, whatever it had before. -/
theorem sideloaded (stale : Bytes) (ms : List Move) : ∃ y, (System.initial stale).run ms = .ok y ∧
    ∀ r v, y.services r = some v →
      v.out <+: (y.adbd.tally r).arrived.flatten ∧
      (v.phase = .finished true → v.out = (y.adbd.tally r).arrived.flatten.take (sideloadCount v.name) ∧
        v.out.length = sideloadCount v.name) ∧
      (v.phase ≠ .starting → (∀ r' ≠ r, y.services r' = none) → y.file = v.out) := by
  obtain ⟨y, hrun, h⟩ := System.run_sound ms (y := .initial stale)
    ⟨.initial, fun _ _ hv => (by cases hv), fun _ _ hv => (by cases hv)⟩
  refine ⟨y, hrun, fun r v hv => ?_⟩
  have hfaithful := h.services r v hv
  have hwritten := (h.adbd.sane r).books.ledger.written
  refine ⟨hfaithful.out.trans hwritten, fun hp => ?_, h.file r v hv⟩
  unfold Service.Faithful at hfaithful
  rw [hp] at hfaithful
  obtain ⟨hout, hle⟩ := hfaithful.2 rfl
  obtain ⟨u, hu⟩ := hwritten
  rw [← hu, List.take_append_of_le_length hle]
  refine ⟨hout, ?_⟩
  rw [hout, List.length_take, min_eq_left hle]

end Adb
end Recovery
