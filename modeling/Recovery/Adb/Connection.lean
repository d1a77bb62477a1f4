/-
# Streams and connections of the daemon (minadbd/sockets.c, adb.c)

* `found`: packets find the stream whose id they have, and no id is used twice in `2 ^ 32 - 1` streams;
* `reconnected`: an `A_CNXN` of the transport leaves no stream open;
* `drained`: whatever has happened, a descriptor that takes bytes gets all that has arrived for it.
-/
import Recovery.Adb.Streams

namespace Recovery
namespace Adb

open Pouring

/-! ### Ids and connections -/

theorem Sound.find {a : Adbd} (h : Sound a) (hon : a.connectionState ≠ .offline) (hcount : a.count < 2 ^ 32) (id r : ℕ) :
    findLocalSocket id a = some r ↔ id = r + 1 ∧ ∃ s, a.socks r = some s ∧ s.closing = false := by
  have hid : ∀ {r s}, a.socks r = some s → s.closing = false → s.id = r + 1 := fun {r s} hs hc => by
    have hlt := h.lt hs
    have hident := ((h.sane r).socket s hs).ident hc
    rw [Adbd.idOf, if_neg hon, Nat.mod_eq_of_lt (by omega)] at hident
    exact (Option.some.inj hident).symm
  constructor
  · intro hfind
    obtain ⟨s, hs, hc, rfl⟩ := findLocalSocket_some hfind
    exact ⟨hid hs hc, s, hs, hc⟩
  · rintro ⟨rfl, s, hs, hc⟩
    cases hfind : findLocalSocket (r + 1) a with
    | none =>
      have hno := List.find?_eq_none.mp hfind r (List.mem_range.mpr (h.lt hs))
      simp [hs, hc, hid hs hc] at hno
    | some r' =>
      obtain ⟨s', hs', hc', hid'⟩ := findLocalSocket_some hfind
      have := hid hs' hc'
      rw [show r' = r by omega]

/-- **Packets find their stream**: while fewer than `2 ^ 32` streams have been opened, the packets with an id go to the
stream that was opened with it, if that one takes packets, and to no other one. Offline, none does. -/
theorem found (evs : List Event) : ∃ a, run .initial evs = .ok a ∧
    (a.connectionState = .offline → ∀ r s, a.socks r = some s → s.closing = true) ∧
    (a.connectionState ≠ .offline → a.count < 2 ^ 32 → ∀ id r,
      findLocalSocket id a = some r ↔ id = r + 1 ∧ ∃ s, a.socks r = some s ∧ s.closing = false) := by
  obtain ⟨a, hrun, h⟩ := run_sound evs .initial
  refine ⟨a, hrun, fun hoff r s hs => ?_, h.find⟩
  by_contra hc
  have hident := ((h.sane r).socket s hs).ident (by simpa using hc)
  simp [Adbd.idOf, hoff] at hident

theorem run_append : ∀ (evs later : List Event) (a : Adbd), run a (evs ++ later) = run a evs >>= fun a => run a later
  | [], _, _ => rfl
  | ev :: evs, later, a => by
    rw [List.cons_append, run, run]
    cases hstep : step a ev with
    | error e => rfl
    | ok a1 => exact run_append evs later a1

/-- **A connection starts without streams**: after an `A_CNXN` of the transport, the sockets that are left of its connection
before have no peer to send to, and only write what they had in their queues. -/
theorem reconnected (evs : List Event) {p : Apacket} (hp : p.command = aCnxn) (spawned : Bool)
    (answers : List (Answer ℕ)) : ∃ a, run .initial (evs ++ [.packet p spawned answers]) = .ok a ∧
      ∀ r s, a.socks r = some s → s.closing = true ∧ s.peer = none ∧ s.pkts ≠ [] := by
  obtain ⟨a, hrun, h⟩ := run_sound evs .initial
  refine ⟨handlePacket p spawned answers a, by rw [run_append, hrun]; rfl, fun r s hs => ?_⟩
  have hw := ((h.cnxn hp spawned answers).sane r).socket s hs
  have hc : s.closing = true := by
    by_contra hc
    exact absurd (hw.ident (by simpa using hc)) (by simp)
  exact ⟨hc, hw.closed hc⟩

theorem reconnected_after_open : (⟨aCnxn, aVersion, maxPayload, [0]⟩ : Apacket).command = aCnxn ∧
    ∃ a, run .initial ([.packet ⟨aCnxn, aVersion, maxPayload, [0]⟩ true [],
        .packet ⟨aOpen, 7, 0, lit "sideload:5" ++ [0]⟩ true []] ++
        [.packet ⟨aCnxn, aVersion, maxPayload, [0]⟩ true []]) = .ok a ∧
      ∀ r s, a.socks r = some s → s.closing = true ∧ s.peer = none ∧ s.pkts ≠ [] :=
  ⟨rfl, reconnected _ rfl true []⟩

/-! ### A descriptor that takes bytes -/

section

variable {i : Option ℕ} {s : Asocket} {answers : List (Answer ℕ)}

/-- A whole queue is written: a socket that is closing goes, and one that is open asks its
peer for more. -/
theorem writable_drains (hw : s.WellFormed i) (hdone : (drain answers s.pkts).outcome = .done) :
    (s.closing = true → writable answers s = .ok ((none, [.wrote s.pkts.flatten]), false)) ∧
    (s.closing = false → ∃ s' rid, writable answers s =
      .ok ((some s', [.wrote s.pkts.flatten, .sent ⟨aOkay, s.id, rid, []⟩]), true) ∧ s'.closing = false ∧ s'.pkts = []) := by
  have hleft := (drain_done_iff answers s.pkts).mp hdone
  have hwritten := drain_parts answers s.pkts
  rw [hleft, List.flatten_nil, List.append_nil] at hwritten
  unfold writable
  dsimp only
  rw [hdone, hwritten, hleft]
  refine ⟨fun hc => ?_, fun hc => ?_⟩
  · have hclose : localSocketClose { s with pkts := [] } = (none, []) := by
      unfold localSocketClose closePeer
      simp [(hw.closed hc).1]
    dsimp only
    rw [if_pos hc, hclose]
    rfl
  · obtain ⟨rid, hrid⟩ := Option.isSome_iff_exists.mp (hw.peer hc)
    dsimp only
    rw [if_neg (by simp [hc]), hrid]
    exact ⟨_, rid, rfl, hc, rfl⟩

/-- The same, by the loop: the descriptor is ready to be written, and its function is called. -/
theorem call_drains (hw : s.WellFormed i) (hq : s.pkts ≠ []) (hdone : (drain answers s.pkts).outcome = .done) :
    ∃ x, fdeventCallFdfunc answers [] { s with fde := fdeventProcess false true s.fde } = .ok x ∧
      (∀ t : Tally, (t.addAll x.2).written = t.written ++ s.pkts.flatten ∧ (t.addAll x.2).arrived = t.arrived) ∧
      (s.closing = true → x.1 = none) ∧
      (s.closing = false → (∀ t : Tally, (t.addAll x.2).okays = t.okays + 1) ∧
        ∃ s', x.1 = some s' ∧ s'.closing = false ∧ s'.pkts = []) := by
  have hwrite : s.fde.write = true := hw.notified.mpr hq
  have hfde : (fdeventProcess false true s.fde).pending = true ∧ (fdeventProcess false true s.fde).evWrite = true := by
    simp [fdeventProcess, hwrite]
  have hcalled : ({ s with fde := (fdeventProcess false true s.fde).called } : Asocket).WellFormed i := by
    refine ⟨hw.ident, hw.peer, hw.closed, ?_, fun _ he => (by cases he), fun he => (by cases he)⟩
    simpa [fdeventProcess, hwrite, Fdevent.called] using hq
  obtain ⟨hclosing, hopen⟩ := writable_drains hcalled hdone
  unfold fdeventCallFdfunc localSocketEventFunc
  rw [if_pos hfde.1, if_pos hfde.2]
  dsimp only
  by_cases hc : s.closing = true
  · rw [hclosing hc, ok_bind]
    exact ⟨_, rfl, fun t => ⟨rfl, rfl⟩, fun _ => rfl, fun h => by simp [hc] at h⟩
  · obtain ⟨s', rid, hrun, hc', hpkts⟩ := hopen (by simpa using hc)
    rw [hrun, ok_bind]
    dsimp only
    split_ifs
    · have hread : readable [] s' = (some s', [.took []]) := by
        unfold readable passOn
        cases s'.peer <;> rfl
      rw [hread]
      exact ⟨_, rfl, fun t => ⟨rfl, rfl⟩, fun h => absurd h hc, fun _ => ⟨fun t => rfl, s', rfl, hc', hpkts⟩⟩
    · exact ⟨_, rfl, fun t => ⟨rfl, rfl⟩, fun h => absurd h hc, fun _ => ⟨fun t => rfl, s', rfl, hc', hpkts⟩⟩

end

/-- **Nothing waits for ever**: after any run, a descriptor that takes bytes gets all that has arrived for it when it is next
written to. Then the packet of a stream that is open is acknowledged, and the socket of one that was closed goes. -/
theorem drained (evs : List Event) : ∃ a, run .initial evs = .ok a ∧ ∀ r s answers, a.socks r = some s → s.pkts ≠ [] →
    (∀ x ∈ answers, ∃ n, x = Answer.moved n) → s.pkts.flatten.length ≤ answers.length →
    ∃ a', run a [.select r false true, .call r answers []] = .ok a' ∧
      (a'.tally r).written = (a.tally r).arrived.flatten ∧ (a'.tally r).arrived = (a.tally r).arrived ∧
      (s.closing = true → a'.socks r = none) ∧
      (s.closing = false → (a'.tally r).okays = (a.tally r).okays + 1 ∧
        ∃ s', a'.socks r = some s' ∧ s'.closing = false ∧ s'.pkts = []) := by
  obtain ⟨a, hrun, h⟩ := run_sound evs .initial
  refine ⟨a, hrun, fun r s answers hs hq hall hlen => ?_⟩
  have hsane := hs ▸ h.sane r
  obtain ⟨x, hx, htally, hclosing, hopen⟩ := call_drains (hsane.socket s rfl) hq (drain_enough s.pkts hall hlen)
  have hselect : step a (.select r false true) =
      .ok (a.leave r (some { s with fde := fdeventProcess false true s.fde }, [])) := by
    show Except.ok (a.on r _) = _
    rw [Adbd.on, hs]
    rfl
  have hcall : step (a.leave r (some { s with fde := fdeventProcess false true s.fde }, [])) (.call r answers []) =
      .ok ((a.leave r (some { s with fde := fdeventProcess false true s.fde }, [])).leave r x) := by
    show (Function.update a.socks r _ r).elim _ _ = _
    rw [Function.update_self]
    show (fdeventCallFdfunc answers [] _ >>= fun x => Except.ok (Adbd.leave r x _)) = _
    rw [hx, ok_bind]
  have hhist : ((a.leave r (some { s with fde := fdeventProcess false true s.fde }, [])).leave r x).tally r =
      (a.tally r).addAll x.2 := by
    rw [Adbd.tally, history_leave, history_leave, if_pos rfl, if_pos rfl, List.append_nil, Tally.addAll_append]
    rfl
  have hsocks : ((a.leave r (some { s with fde := fdeventProcess false true s.fde }, [])).leave r x).socks r = x.1 :=
    Function.update_self ..
  refine ⟨_, by rw [run, hselect, ok_bind, run, hcall, ok_bind, run], ?_⟩
  rw [hhist, hsocks, (htally _).1, (htally _).2]
  exact ⟨hsane.books.queued s rfl, rfl, hclosing, fun hc => ⟨(hopen hc).1 _, (hopen hc).2⟩⟩

end Adb
end Recovery
