/-
# Streams of the daemon, whatever order its events come in

The books of a stream: what has arrived for it, what its descriptor took and gave, what was
acknowledged and sent.

* `run_sound`: no run meets a socket without the peer it asks, and the books of every stream are in order;
* `delivered`: a descriptor is given the bytes that arrived, in order, and all of them unless it breaks;
* `acknowledged`, `paced`: the flow control in both directions;
* `never_stuck`: what has something to write waits for its descriptor, and what takes packets has its peer.
-/
import Recovery.Adb.Sockets

namespace Recovery
namespace Adb

open Pouring

/-! ### Books -/

/-- What the history of a stream comes to. `waits` is whether every packet of the host came
after all those before it had been acknowledged. -/
structure Tally where
  arrived : List Bytes
  written : Bytes
  taken : Bytes
  passed : List Bytes
  okays : ℕ
  readies : ℕ
  broken : Bool
  waits : Bool

def Tally.zero : Tally := ⟨[], [], [], [], 0, 0, false, true⟩

def Tally.add (t : Tally) : Act → Tally
  | .opened _ => t
  | .arrived d => { t with arrived := t.arrived ++ [d], waits := t.waits && decide (t.arrived.length + 1 ≤ t.okays) }
  | .readied => { t with readies := t.readies + 1 }
  | .wrote b => { t with written := t.written ++ b }
  | .took b => { t with taken := t.taken ++ b }
  | .broke => { t with broken := true }
  | .sent p =>
    if p.command = aOkay then { t with okays := t.okays + 1 }
    else if p.command = aWrte then { t with passed := t.passed ++ [p.data] }
    else t

def Tally.addAll (t : Tally) (acts : List Act) : Tally := acts.foldl Tally.add t

theorem Tally.addAll_append (t : Tally) (acts later : List Act) : t.addAll (acts ++ later) = (t.addAll acts).addAll later :=
  List.foldl_append

def Adbd.tally (r : ℕ) (a : Adbd) : Tally := Tally.zero.addAll (a.history r)

/-- What is so of every stream. -/
structure Ledger (t : Tally) : Prop where
  written : t.written <+: t.arrived.flatten
  okays : t.okays ≤ t.arrived.length + 1
  passed : t.passed.flatten <+: t.taken
  readies : t.passed.length ≤ t.readies + 1
  sizes : ∀ b ∈ t.passed, b ≠ [] ∧ b.length ≤ maxPayload

/-- A stream whose socket takes packets. `min 1` is the one `A_OKAY` that the queue stands for. -/
structure Open (s : Asocket) (t : Tally) : Prop where
  okays : t.okays + min 1 s.pkts.length ≤ t.arrived.length + 1
  waits : t.waits = true → t.okays + s.pkts.length = t.arrived.length + 1 ∧ s.pkts.length ≤ 1
  passed : t.passed.flatten = t.taken
  readies : t.passed.length + s.fde.read.toNat ≤ t.readies + 1

structure Books (o : Option Asocket) (t : Tally) : Prop where
  ledger : Ledger t
  ended : o = none → t.broken = false → t.written = t.arrived.flatten
  queued : ∀ s ∈ o, t.written ++ s.pkts.flatten = t.arrived.flatten
  opened : ∀ s ∈ o, s.closing = false → Open s t

namespace Books

variable {s : Asocket} {t : Tally}

theorem of_some (hl : Ledger t) (hq : t.written ++ s.pkts.flatten = t.arrived.flatten)
    (ho : s.closing = false → Open s t) : Books (some s) t :=
  ⟨hl, fun h => by simp at h, fun s' hs => by cases hs; exact hq, fun s' hs => by cases hs; exact ho⟩

/-- The events that are asked for may change, if not to more reads. -/
theorem events (h : Books (some s) t) {fde : Fdevent} (hread : fde.read = true → s.fde.read = true) :
    Books (some { s with fde := fde }) t := by
  refine of_some h.ledger (h.queued s rfl) fun hc => ?_
  have ho := h.opened s rfl hc
  refine ⟨ho.okays, ho.waits, ho.passed, ?_⟩
  have hle : fde.read.toNat ≤ s.fde.read.toNat := Bool.toNat_le_toNat hread
  have := ho.readies
  show t.passed.length + fde.read.toNat ≤ t.readies + 1
  omega

theorem arrive (h : Books (some s) t) (hc : s.closing = false) (d : Bytes) :
    Books (some { s with pkts := s.pkts ++ [d] }) (t.add (.arrived d)) := by
  obtain ⟨hokays, hwaits, hpassed, hreadies⟩ := h.opened s rfl hc
  have hflat : (t.arrived ++ [d]).flatten = t.arrived.flatten ++ d := by simp
  have hlen : (t.arrived ++ [d]).length = t.arrived.length + 1 := by simp
  have hl := h.ledger
  refine of_some ⟨?_, ?_, hl.passed, hl.readies, hl.sizes⟩ ?_ fun _ => ⟨?_, fun hw => ?_, hpassed, hreadies⟩
  · exact hflat ▸ hl.written.trans (List.prefix_append _ _)
  · show t.okays ≤ (t.arrived ++ [d]).length + 1
    omega
  · show t.written ++ (s.pkts ++ [d]).flatten = (t.arrived ++ [d]).flatten
    rw [hflat, ← h.queued s rfl]
    simp
  · show t.okays + min 1 (s.pkts ++ [d]).length ≤ (t.arrived ++ [d]).length + 1
    have := hl.okays
    omega
  · -- A host that waits has found the queue empty.
    have hw' : t.waits = true ∧ t.arrived.length + 1 ≤ t.okays := by simpa [Tally.add] using hw
    have hold := hwaits hw'.1
    show t.okays + (s.pkts ++ [d]).length = (t.arrived ++ [d]).length + 1 ∧ (s.pkts ++ [d]).length ≤ 1
    simp only [List.length_append, List.length_singleton]
    omega

/-- A part of the queue is written. -/
theorem write (h : Books (some s) t) {w : Bytes} {q : List Bytes} (hparts : w ++ q.flatten = s.pkts.flatten)
    (hq : s.closing = false → q ≠ []) (hlen : q.length ≤ s.pkts.length) :
    Books (some { s with pkts := q }) (t.add (.wrote w)) := by
  have hall : (t.written ++ w) ++ q.flatten = t.arrived.flatten := by
    rw [List.append_assoc, hparts]
    exact h.queued s rfl
  refine of_some { h.ledger with written := hall ▸ List.prefix_append _ _ } hall fun hc => ?_
  obtain ⟨hokays, hwaits, hpassed, hreadies⟩ := h.opened s rfl hc
  have hpos : 0 < q.length := List.length_pos_of_ne_nil (hq hc)
  refine ⟨?_, fun hw => ?_, hpassed, hreadies⟩
  · show t.okays + min 1 q.length ≤ t.arrived.length + 1
    omega
  · have := hwaits hw
    show t.okays + q.length = t.arrived.length + 1 ∧ q.length ≤ 1
    omega

/-- The whole queue is written and acknowledged. -/
theorem acknowledge (h : Books (some s) t) (hc : s.closing = false) (hq : s.pkts ≠ []) (id rid : ℕ) :
    Books (some { s with pkts := [] }) ((t.add (.wrote s.pkts.flatten)).add (.sent ⟨aOkay, id, rid, []⟩)) := by
  obtain ⟨hokays, hwaits, hpassed, hreadies⟩ := h.opened s rfl hc
  have hpos : 0 < s.pkts.length := List.length_pos_of_ne_nil hq
  have hall : t.written ++ s.pkts.flatten = t.arrived.flatten := h.queued s rfl
  have hl := h.ledger
  refine of_some ⟨?_, ?_, hl.passed, hl.readies, hl.sizes⟩ ?_ fun _ => ⟨?_, fun hw => ?_, hpassed, hreadies⟩
  · exact hall ▸ List.prefix_rfl
  · show t.okays + 1 ≤ t.arrived.length + 1
    omega
  · show t.written ++ s.pkts.flatten ++ [] = _
    rw [List.append_nil]
    exact hall
  · show t.okays + 1 + 0 ≤ t.arrived.length + 1
    omega
  · have := hwaits hw
    show t.okays + 1 + 0 = t.arrived.length + 1 ∧ 0 ≤ 1
    omega

theorem ready (h : Books (some s) t) (peer : Option ℕ) (fde : Fdevent) :
    Books (some { s with peer := peer, fde := fde }) (t.add .readied) := by
  have hl := h.ledger
  refine of_some { hl with readies := hl.readies.trans (Nat.le_succ _) } (h.queued s rfl) fun hc => ?_
  have ho := h.opened s rfl hc
  refine ⟨ho.okays, ho.waits, ho.passed, ?_⟩
  have := hl.readies
  have hle : fde.read.toNat ≤ 1 := Bool.toNat_le _
  show t.passed.length + fde.read.toNat ≤ t.readies + 1 + 1
  omega

/-- What was read is sent, and no more is read. -/
theorem pass (h : Books (some s) t) (hc : s.closing = false) (hread : s.fde.read = true) {b : Bytes} (hb : b ≠ [])
    (hlen : b.length ≤ maxPayload) {fde : Fdevent} (hfde : fde.read = false) (id rid : ℕ) :
    Books (some { s with fde := fde }) ((t.add (.took b)).add (.sent ⟨aWrte, id, rid, b⟩)) := by
  obtain ⟨hokays, hwaits, hpassed, hreadies⟩ := h.opened s rfl hc
  have hl := h.ledger
  have hflat : (t.passed ++ [b]).flatten = t.taken ++ b := by rw [List.flatten_append, hpassed, List.flatten_singleton]
  have hcount : (t.passed ++ [b]).length ≤ t.readies + 1 := by
    rw [hread] at hreadies
    simpa using hreadies
  refine of_some ⟨hl.written, hl.okays, ?_, hcount, ?_⟩ (h.queued s rfl) fun _ => ⟨hokays, hwaits, hflat, ?_⟩
  · exact hflat ▸ List.prefix_rfl
  · intro x hx
    rcases List.mem_append.mp hx with hx | hx
    · exact hl.sizes x hx
    · rw [List.mem_singleton.mp hx]
      exact ⟨hb, hlen⟩
  · show (t.passed ++ [b]).length + fde.read.toNat ≤ t.readies + 1
    rw [hfde]
    exact hcount

/-- What is read of a socket that is closing is dropped. -/
theorem drop (h : Books (some s) t) {b : Bytes} (hb : s.closing = false → b = []) : Books (some s) (t.add (.took b)) := by
  have hl := h.ledger
  refine of_some { hl with passed := hl.passed.trans (List.prefix_append _ _) } (h.queued s rfl) fun hc => ?_
  have ho := h.opened s rfl hc
  refine { ho with passed := ?_ }
  show _ = t.taken ++ b
  rw [hb hc, List.append_nil]
  exact ho.passed

theorem broke (h : Books (some s) t) : Books (some s) (t.add .broke) :=
  of_some { h.ledger with } (h.queued s rfl) fun hc => { h.opened s rfl hc with }

theorem discard (h : Books (some s) t) (hb : t.broken = true) : Books none t :=
  ⟨h.ledger, fun _ hb' => (by simp [hb] at hb'), fun _ hs => (by cases hs), fun _ hs => (by cases hs)⟩

theorem addAll_close (t : Tally) (s : Asocket) : t.addAll (localSocketClose s).2 = t := by
  have hacts : t.addAll (closePeer s) = t := by
    unfold closePeer
    cases s.peer <;> rfl
  unfold localSocketClose
  split_ifs <;> exact hacts

theorem close (h : Books (some s) t) (hend : s.closing = true → t.broken = true ∨ s.pkts = []) :
    Books (localSocketClose s).1 (t.addAll (localSocketClose s).2) := by
  rw [addAll_close]
  unfold localSocketClose
  by_cases hend' : (s.closing || s.pkts.isEmpty) = true
  · rw [if_pos hend']
    refine ⟨h.ledger, fun _ hb => ?_, fun s' hs => (by cases hs), fun s' hs => (by cases hs)⟩
    have hempty : s.pkts = [] := by
      rcases Bool.or_eq_true_iff.mp hend' with hc | he
      · exact (hend hc).resolve_left (by simp [hb])
      · exact List.isEmpty_iff.mp he
    have := h.queued s rfl
    rwa [hempty, List.flatten_nil, List.append_nil] at this
  · rw [if_neg hend']
    exact of_some h.ledger (h.queued s rfl) fun hc => by simp at hc

end Books

/-! ### Sockets -/

/-- A socket that takes packets has a peer, and the id by which it should be found: none is
when the daemon is offline. One that is closing has no peer and something in its queue. -/
structure Asocket.WellFormed (i : Option ℕ) (s : Asocket) : Prop where
  ident : s.closing = false → i = some s.id
  peer : s.closing = false → s.peer.isSome = true
  closed : s.closing = true → s.peer = none ∧ s.pkts ≠ []
  notified : s.fde.write = true ↔ s.pkts ≠ []
  asked : s.closing = false → s.fde.evRead = true → s.fde.read = true
  askedWrite : s.fde.evWrite = true → s.fde.write = true

section

variable (read write : Bool) (fde : Fdevent)

theorem fdeventSet_read : (fdeventSet read write fde).read = read ∧ (fdeventSet read write fde).write = write := by
  unfold fdeventSet
  split_ifs with h
  · exact h
  · exact ⟨rfl, rfl⟩
  · exact ⟨rfl, rfl⟩

/-- No event comes by a change of what is asked for. -/
theorem fdeventSet_events : ((fdeventSet read write fde).evRead = true → fde.evRead = true) ∧
    ((fdeventSet read write fde).evWrite = true → fde.evWrite = true) := by
  unfold fdeventSet
  split_ifs
  · exact ⟨id, id⟩
  · exact ⟨fun h => (Bool.and_eq_true_iff.mp h).1, fun h => (Bool.and_eq_true_iff.mp h).1⟩
  · exact ⟨id, id⟩

@[simp] theorem fdeventAdd_read : (fdeventAdd read write fde).read = (fde.read || read) := (fdeventSet_read ..).1
@[simp] theorem fdeventAdd_write : (fdeventAdd read write fde).write = (fde.write || write) := (fdeventSet_read ..).2
@[simp] theorem fdeventDel_read : (fdeventDel read write fde).read = (fde.read && !read) := (fdeventSet_read ..).1
@[simp] theorem fdeventDel_write : (fdeventDel read write fde).write = (fde.write && !write) := (fdeventSet_read ..).2

end

/-- What is so of a stream: its socket, if it is there, and its books. -/
structure Sane (i : Option ℕ) (o : Option Asocket) (t : Tally) : Prop where
  socket : ∀ s ∈ o, s.WellFormed i
  books : Books o t

/-- A turn that leaves a stream as it should be. -/
def Fine (i : Option ℕ) (t : Tally) (x : Turn) : Prop := Sane i x.1 (t.addAll x.2)

variable {i : Option ℕ}

theorem fine_after {t : Tally} {acts : List Act} {x : Turn} (h : Fine i (t.addAll acts) x) : Fine i t (after acts x) := by
  unfold Fine after at *
  rwa [Tally.addAll_append]

section

variable {s : Asocket} {t : Tally}

theorem Sane.some (hw : s.WellFormed i) (hb : Books (some s) t) : Sane i (some s) t :=
  ⟨fun s' hs => by cases hs; exact hw, hb⟩

theorem localSocketClose_fine (hw : s.closing = false → s.pkts ≠ [] → s.fde.write = true) (hb : Books (some s) t)
    (hend : s.closing = true → t.broken = true ∨ s.pkts = []) : Fine i t (localSocketClose s) := by
  refine ⟨fun s' hs => ?_, hb.close hend⟩
  unfold localSocketClose at hs
  by_cases h : (s.closing || s.pkts.isEmpty) = true
  · rw [if_pos h] at hs
    cases hs
  · rw [if_neg h] at hs
    cases hs
    rw [Bool.or_eq_true_iff, not_or, List.isEmpty_iff, Bool.not_eq_true] at h
    have hwrite : (fdeventDel true false s.fde).write = true := by simp [hw h.1 h.2]
    exact ⟨fun hc => by simp at hc, fun hc => by simp at hc, fun _ => ⟨rfl, h.2⟩, iff_of_true hwrite h.2,
      fun hc => by simp at hc, fun _ => hwrite⟩

theorem remoteSocketDisconnect_fine {j : Option ℕ} (hw : s.WellFormed i) (hc : s.closing = false)
    (hb : Books (some s) t) : Fine j t (remoteSocketDisconnect s) :=
  localSocketClose_fine (fun _ hq => hw.notified.mpr hq)
    (.of_some hb.ledger (hb.queued s rfl) fun _ => { hb.opened s rfl hc with }) fun hc' => by simp [hc] at hc'

theorem Asocket.WellFormed.queue (hw : s.WellFormed i) (hc : s.closing = false) (d : Bytes) : (s.queue d).WellFormed i := by
  have hev := fdeventSet_events (s.fde.read || false) (s.fde.write || true) s.fde
  have hwrite : (s.queue d).fde.write = true := by simp [Asocket.queue]
  refine ⟨hw.ident, hw.peer, fun hc' => by simp [Asocket.queue, hc] at hc', iff_of_true hwrite (by simp [Asocket.queue]),
    fun _ he => ?_, fun _ => hwrite⟩
  simpa [Asocket.queue] using hw.asked hc (hev.1 he)

theorem Books.queue {d : Bytes} (hb : Books (some { s with pkts := s.pkts ++ [d] }) t) : Books (some (s.queue d)) t :=
  hb.events fun h => by simpa using h

theorem handleWrte_fine (hw : s.WellFormed i) (hc : s.closing = false) (hb : Books (some s) t) (rid : ℕ) (data : Bytes)
    (answers : List (Answer ℕ)) : Fine i t (handleWrte rid data answers s) := by
  have harrive := hb.arrive hc data
  have hparts := pour_parts false answers data
  have hdone := pour_done_iff false answers data
  unfold handleWrte localSocketEnqueue
  by_cases hempty : s.pkts = []
  · rw [hempty, List.nil_append] at harrive
    -- the packet as the only one of the queue, with a part of it written
    have hpart : Books (some { s with pkts := [(pour false answers data).left] })
        ((t.add (.arrived data)).add (.wrote (pour false answers data).written)) :=
      harrive.write (by simpa using hparts) (fun _ => by simp) (by simp)
    rw [if_neg (by simp [hempty])]
    dsimp only
    cases hout : (pour false answers data).outcome with
    | done =>
      rw [hdone.mp hout, List.append_nil] at hparts
      have hack := harrive.acknowledge hc (by simp) s.id rid
      have hs : { s with pkts := [] } = s := by rw [← hempty]
      rw [hs, List.flatten_singleton] at hack
      show Sane i (some s) (((t.add (.arrived data)).add (.wrote (pour false answers data).written)).add
        (.sent ⟨aOkay, s.id, rid, []⟩))
      rw [hparts]
      exact .some hw hack
    | blocked =>
      refine .some (hw.queue hc _) (Books.queue ?_)
      rw [hempty]
      exact hpart
    | broken =>
      have hnone : (localSocketClose s).1 = none := by
        unfold localSocketClose
        rw [if_pos (by simp [hempty])]
      show Sane i (localSocketClose s).1 ((t.addAll [.arrived data, .wrote _, .broke]).addAll ((localSocketClose s).2 ++ []))
      rw [List.append_nil, Books.addAll_close, hnone]
      exact ⟨fun _ hs => (by cases hs), hpart.broke.discard rfl⟩
  · rw [if_pos (by simpa using hempty)]
    exact .some (hw.queue hc data) harrive.queue

theorem handleOkay_fine (hw : s.WellFormed i) (hc : s.closing = false) (hb : Books (some s) t) (rid : ℕ) :
    Fine i t (handleOkay rid s) := by
  have hev := fdeventSet_events (s.fde.read || true) (s.fde.write || false) s.fde
  have hread : (fdeventAdd true false s.fde).read = true := by simp
  have hwrite : (fdeventAdd true false s.fde).write = s.fde.write := by simp
  refine .some ⟨hw.ident, fun _ => ?_, fun hc' => ?_, ?_, fun _ _ => hread, fun he => ?_⟩ (hb.ready _ _)
  · show (s.peer.or (some rid)).isSome = true
    simp
  · exact absurd (hc.symm.trans hc') (by simp)
  · show (fdeventAdd true false s.fde).write = true ↔ s.pkts ≠ []
    rw [hwrite]
    exact hw.notified
  · exact hwrite.trans (hw.askedWrite (hev.2 he))

theorem select_fine (hw : s.WellFormed i) (hb : Books (some s) t) (read write : Bool) :
    Fine i t (some { s with fde := fdeventProcess read write s.fde }, []) := by
  unfold fdeventProcess
  split_ifs
  · refine .some ⟨hw.ident, hw.peer, hw.closed, hw.notified, fun hc he => ?_, fun he => ?_⟩ (hb.events id)
    · rcases Bool.or_eq_true_iff.mp he with he | he
      · exact hw.asked hc he
      · exact (Bool.and_eq_true_iff.mp he).1
    · rcases Bool.or_eq_true_iff.mp he with he | he
      · exact hw.askedWrite he
      · exact (Bool.and_eq_true_iff.mp he).1
  · exact .some hw hb

theorem passOn_sane (hw : s.WellFormed i) (hev : s.fde.evRead = false) (hread : s.closing = false → s.fde.read = true)
    (hb : Books (some s) t) {b : Bytes} (hlen : b.length ≤ maxPayload) :
    Sane i (some (passOn b s).1) (t.addAll (.took b :: (passOn b s).2)) := by
  unfold passOn
  cases hpeer : s.peer with
  | none =>
    exact .some hw (hb.drop fun hc => by simpa [hpeer] using hw.peer hc)
  | some rid =>
    have hc : s.closing = false := Bool.eq_false_iff.mpr fun hc => by simp [(hw.closed hc).1] at hpeer
    by_cases hempty : b = []
    · rw [hempty]
      exact .some hw (hb.drop fun _ => rfl)
    · have hevents := fdeventSet_events (s.fde.read && !true) (s.fde.write && !false) s.fde
      have hno : (fdeventDel true false s.fde).read = false := by simp
      have hwrite : (fdeventDel true false s.fde).write = s.fde.write := by simp
      have hpass := hb.pass hc (hread hc) hempty hlen hno s.id rid
      rw [hpeer] at hpass
      dsimp only
      rw [if_neg (by simpa using hempty)]
      refine .some ⟨hw.ident, fun _ => rfl, fun hc' => absurd (hc.symm.trans hc') (by simp), ?_, fun _ he => ?_,
        fun he => hwrite.trans (hw.askedWrite (hevents.2 he))⟩ hpass
      · show (fdeventDel true false s.fde).write = true ↔ s.pkts ≠ []
        rw [hwrite]
        exact hw.notified
      · exact absurd (hev.symm.trans (hevents.1 he)) (by simp)

theorem readable_fine (hw : s.WellFormed i) (hev : s.fde.evRead = false) (hread : s.closing = false → s.fde.read = true)
    (hb : Books (some s) t) (answers : List (Answer Bytes)) : Fine i t (readable answers s) := by
  have hpass := passOn_sane hw hev hread hb (gather_length answers maxPayload)
  unfold readable
  dsimp only
  split_ifs
  · have hbroke : Books (some (passOn (gather maxPayload answers).1 s).1)
        (t.addAll (.took (gather maxPayload answers).1 :: (passOn (gather maxPayload answers).1 s).2 ++ [.broke])) := by
      rw [Tally.addAll_append]
      exact hpass.books.broke
    refine fine_after (localSocketClose_fine (fun _ hq => ?_) hbroke fun _ => .inl ?_)
    · exact (hpass.socket _ rfl).notified.mpr hq
    · rw [Tally.addAll_append]
      rfl
  · exact hpass

theorem writable_fine (hw : s.WellFormed i) (hev : s.fde.evRead = false ∧ s.fde.evWrite = false) (hq : s.pkts ≠ [])
    (hb : Books (some s) t) (answers : List (Answer ℕ)) : ∃ x goesOn, writable answers s = .ok (x, goesOn) ∧ Fine i t x ∧
      (goesOn = true → s.closing = false ∧ ∀ s' ∈ x.1, s'.fde.evRead = false ∧ s'.fde.read = s.fde.read) := by
  have hparts := drain_parts answers s.pkts
  have hdone := drain_done_iff answers s.pkts
  have hlen := drain_left_length answers s.pkts
  have hwrite : s.fde.write = true := hw.notified.mpr hq
  have hpart (h : s.closing = false → (drain answers s.pkts).left ≠ []) :
      Books (some { s with pkts := (drain answers s.pkts).left }) (t.add (.wrote (drain answers s.pkts).written)) :=
    hb.write hparts h hlen
  unfold writable
  dsimp only
  cases hout : (drain answers s.pkts).outcome with
  | blocked =>
    have hleft : (drain answers s.pkts).left ≠ [] := fun h => by simp [hdone.mpr h] at hout
    refine ⟨_, _, rfl, .some ⟨hw.ident, hw.peer, fun hc => ⟨(hw.closed hc).1, hleft⟩, iff_of_true hwrite hleft, hw.asked,
      hw.askedWrite⟩ (hpart fun _ => hleft), fun h => by simp at h⟩
  | broken =>
    have hleft : (drain answers s.pkts).left ≠ [] := fun h => by simp [hdone.mpr h] at hout
    exact ⟨_, _, rfl, fine_after (localSocketClose_fine (fun _ _ => hwrite) (hpart fun _ => hleft).broke fun _ => .inl rfl),
      fun h => by simp at h⟩
  | done =>
    have hleft := hdone.mp hout
    by_cases hc : s.closing = true
    · rw [if_pos hc]
      exact ⟨_, _, rfl, fine_after (localSocketClose_fine (fun _ _ => hwrite)
        (hpart fun hc' => absurd (hc.symm.trans hc') (by simp)) fun _ => .inr hleft), fun h => by simp at h⟩
    · rw [Bool.not_eq_true] at hc
      obtain ⟨rid, hrid⟩ := Option.isSome_iff_exists.mp (hw.peer hc)
      have hevents := fdeventSet_events (s.fde.read && !false) (s.fde.write && !true) s.fde
      have hread : (fdeventDel false true s.fde).read = s.fde.read := by simp
      rw [hleft, List.flatten_nil, List.append_nil] at hparts
      have hack := (hb.acknowledge hc hq s.id rid).events fun h => hread.symm.trans h
      rw [if_neg (by simp [hc]), hrid]
      rw [hrid, ← hparts] at hack
      refine ⟨_, _, rfl, ?_, fun _ => ⟨hc, fun s' hs => ?_⟩⟩
      · rw [hleft]
        exact .some ⟨hw.ident, fun _ => rfl, fun hc' => absurd (hc.symm.trans hc') (by simp),
          iff_of_false (by simp) (by simp), fun _ he => absurd (hev.1.symm.trans (hevents.1 he)) (by simp),
          fun he => absurd (hev.2.symm.trans (hevents.2 he)) (by simp)⟩ hack
      · cases hs
        exact ⟨Bool.eq_false_iff.mpr fun he => absurd (hev.1.symm.trans (hevents.1 he)) (by simp), hread⟩

theorem fdeventCallFdfunc_fine (hw : s.WellFormed i) (hb : Books (some s) t) (writes : List (Answer ℕ))
    (reads : List (Answer Bytes)) : ∃ x, fdeventCallFdfunc writes reads s = .ok x ∧ Fine i t x := by
  have hcalled : ({ s with fde := s.fde.called } : Asocket).WellFormed i :=
    ⟨hw.ident, hw.peer, hw.closed, hw.notified, fun _ he => (by cases he), fun he => (by cases he)⟩
  have hbcalled : Books (some { s with fde := s.fde.called }) t := hb.events id
  unfold fdeventCallFdfunc localSocketEventFunc
  by_cases hp : s.fde.pending = true
  · rw [if_pos hp]
    by_cases hevw : s.fde.evWrite = true
    · have hq : s.pkts ≠ [] := hw.notified.mp (hw.askedWrite hevw)
      obtain ⟨x, goesOn, hrun, hfine, hon⟩ := writable_fine hcalled ⟨rfl, rfl⟩ hq hbcalled writes
      rw [if_pos hevw, hrun, ok_bind]
      dsimp only
      cases hx : x.1 with
      | none => exact ⟨_, rfl, hfine⟩
      | some s' =>
        dsimp only
        by_cases hgo : (goesOn && s.fde.evRead) = true
        · obtain ⟨hc, hs'⟩ := hon (Bool.and_eq_true_iff.mp hgo).1
          obtain ⟨hev, hread⟩ := hs' s' hx
          have hsane : Sane i (some s') (t.addAll x.2) := hx ▸ hfine
          rw [if_pos hgo]
          exact ⟨_, rfl, fine_after (readable_fine (hsane.socket s' rfl) hev
            (fun _ => hread.trans (hw.asked hc (Bool.and_eq_true_iff.mp hgo).2)) hsane.books reads)⟩
        · rw [if_neg hgo]
          exact ⟨_, rfl, hfine⟩
    · rw [if_neg hevw, ok_bind]
      dsimp only
      by_cases hevr : s.fde.evRead = true
      · rw [if_pos (by simp [hevr])]
        exact ⟨_, rfl, fine_after (readable_fine hcalled rfl (fun hc => hw.asked hc hevr) hbcalled reads)⟩
      · rw [if_neg (by simp [hevr])]
        exact ⟨_, rfl, .some hcalled hbcalled⟩
  · rw [if_neg hp]
    exact ⟨_, rfl, .some hcalled hbcalled⟩

theorem createSocket_fine (name : Bytes) (id rid : ℕ) :
    Fine (some id) .zero (some (createSocket id rid), [.opened name, .sent ⟨aOkay, id, rid, []⟩]) := by
  have hfde : (createSocket id rid).fde = ⟨true, false, false, false, false⟩ := rfl
  refine .some ⟨fun _ => rfl, fun _ => rfl, fun hc => (by cases hc), ?_, fun _ _ => rfl, fun he => (by cases he)⟩ ?_
  · exact iff_of_false (by simp [hfde]) fun h => h rfl
  · refine .of_some ⟨List.prefix_rfl, le_rfl, List.prefix_rfl, Nat.zero_le _, fun _ hb => (by cases hb)⟩ rfl fun _ => ?_
    exact ⟨le_rfl, fun _ => ⟨rfl, Nat.zero_le _⟩, rfl, le_rfl⟩

end

/-! ### Whole runs -/

/-- The streams are as they should be, with these ids for those that may be open. -/
structure SoundAs (ids : ℕ → Option ℕ) (a : Adbd) : Prop where
  sane : ∀ r, Sane (ids r) (a.socks r) (a.tally r)
  fresh : ∀ r, a.count ≤ r → a.socks r = none ∧ a.history r = []
  next : a.nextId = (a.count + 1) % 2 ^ 32

def Adbd.idOf (a : Adbd) (r : ℕ) : Option ℕ := if a.connectionState = .offline then none else some ((r + 1) % 2 ^ 32)

/-- The daemon between two events. -/
abbrev Sound (a : Adbd) : Prop := SoundAs a.idOf a

theorem Sound.initial : Sound .initial where
  sane _ := ⟨fun _ hs => (by cases hs), ⟨⟨List.prefix_rfl, Nat.zero_le _, List.prefix_rfl, Nat.zero_le _,
    fun _ hb => (by cases hb)⟩, fun _ _ => rfl, fun _ hs => (by cases hs), fun _ hs => (by cases hs)⟩⟩
  fresh _ _ := ⟨rfl, rfl⟩
  next := rfl

section

variable {a : Adbd} {ids : ℕ → Option ℕ} {r : ℕ} {f : Asocket → Turn}

/-- Where no socket may be open, every id is right. -/
theorem SoundAs.mono (h : SoundAs ids a) {ids' : ℕ → Option ℕ} (hids : ∀ r, ids r = none ∨ ids r = ids' r) :
    SoundAs ids' a := by
  refine ⟨fun r => ⟨fun s hs => ?_, (h.sane r).books⟩, h.fresh, h.next⟩
  have hw := (h.sane r).socket s hs
  refine { hw with ident := fun hc => ?_ }
  rcases hids r with hnone | heq
  · exact absurd (hnone.symm.trans (hw.ident hc)) (by simp)
  · exact heq.symm.trans (hw.ident hc)

theorem history_leave (a : Adbd) (r r' : ℕ) (x : Turn) :
    (a.leave r x).history r' = a.history r' ++ if r = r' then x.2 else [] := by
  unfold Adbd.leave Adbd.history
  dsimp only
  rw [List.filter_append, List.map_append]
  by_cases h : r = r'
  · simp [h, List.filter_map, Function.comp_def]
  · simp [h, List.filter_map, Function.comp_def]

/-- A turn of one stream leaves the others as they are. -/
theorem SoundAs.leave (h : SoundAs ids a) (hr : r < a.count) {x : Turn} (hx : Fine i (a.tally r) x) :
    SoundAs (Function.update ids r i) (a.leave r x) := by
  refine ⟨fun r' => ?_, fun r' hr' => ?_, h.next⟩
  · have htally : (a.leave r x).tally r' = (a.tally r').addAll (if r = r' then x.2 else []) := by
      rw [Adbd.tally, history_leave, Tally.addAll_append]
      rfl
    rw [htally]
    show Sane _ (Function.update a.socks r x.1 r') _
    by_cases heq : r = r'
    · subst heq
      rw [if_pos rfl, Function.update_self, Function.update_self]
      exact hx
    · rw [if_neg heq, Function.update_of_ne (Ne.symm heq), Function.update_of_ne (Ne.symm heq)]
      exact h.sane r'
  · have hne : r' ≠ r := fun heq => absurd (heq ▸ hr' : a.count ≤ r) (by omega)
    rw [history_leave, if_neg hne.symm, List.append_nil]
    exact ⟨(Function.update_of_ne hne _ _).trans (h.fresh r' hr').1, (h.fresh r' hr').2⟩

theorem SoundAs.lt (h : SoundAs ids a) {s : Asocket} (hs : a.socks r = some s) : r < a.count := by
  by_contra hlt
  simp [(h.fresh r (by omega)).1] at hs

theorem SoundAs.on (h : SoundAs ids a) (hf : ∀ s, s.WellFormed (ids r) → Books (some s) (a.tally r) → a.socks r = some s →
    Fine (ids r) (a.tally r) (f s)) : SoundAs ids (a.on r f) := by
  unfold Adbd.on
  cases hs : a.socks r with
  | none => exact h
  | some s =>
    have hsane := hs ▸ h.sane r
    have := h.leave (h.lt hs) (hf s (hsane.socket s rfl) hsane.books hs)
    rwa [Function.update_eq_self] at this

theorem Sound.on (h : Sound a) (hf : ∀ s, s.WellFormed (a.idOf r) → Books (some s) (a.tally r) → a.socks r = some s →
    Fine (a.idOf r) (a.tally r) (f s)) : Sound (a.on r f) := by
  have hstate : (a.on r f).idOf = a.idOf := by
    unfold Adbd.on
    cases a.socks r <;> rfl
  rw [Sound, hstate]
  exact SoundAs.on h hf

/-- A turn of a loop that closes all sockets. -/
theorem SoundAs.closed (h : SoundAs ids a)
    (hf : ∀ {i s t}, s.WellFormed i → s.closing = false → Books (some s) t → Fine none t (f s)) :
    SoundAs (Function.update ids r none) (a.on r (ifOpen f)) := by
  unfold Adbd.on
  cases hs : a.socks r with
  | none =>
    refine ⟨fun r' => ⟨fun s hs' => ?_, (h.sane r').books⟩, h.fresh, h.next⟩
    have hne : r' ≠ r := fun heq => by simp [heq, hs] at hs'
    rw [Function.update_of_ne hne]
    exact (h.sane r').socket s hs'
  | some s =>
    have hsane := hs ▸ h.sane r
    have hw := hsane.socket s rfl
    refine h.leave (h.lt hs) ?_
    unfold ifOpen
    cases hc : s.closing with
    | true => exact .some { hw with ident := fun hc' => by simp [hc] at hc' } hsane.books
    | false =>
      rw [if_neg (by simp [Option.isSome_iff_ne_none.mp (hw.peer hc)])]
      exact hf hw hc hsane.books

/-- The whole loop, if the sockets that may be open are on its list. -/
theorem SoundAs.onEach (hf : ∀ {i s t}, s.WellFormed i → s.closing = false → Books (some s) t → Fine none t (f s)) :
    ∀ (rs : List ℕ) {a : Adbd} {ids : ℕ → Option ℕ}, SoundAs ids a → (∀ r ∉ rs, ids r = none) →
      SoundAs (fun _ => none) (rs.foldl (fun a r => a.on r (ifOpen f)) a)
  | [], a, ids, h, hids => h.mono fun r => .inl (hids r List.not_mem_nil)
  | r :: rs, a, ids, h, hids => by
    refine SoundAs.onEach hf rs (h.closed (r := r) hf) fun r' hr' => ?_
    by_cases heq : r' = r
    · rw [heq, Function.update_self]
    · rw [Function.update_of_ne heq]
      exact hids r' (by simp [heq, hr'])

theorem SoundAs.onAll (h : SoundAs ids a)
    (hf : ∀ {i s t}, s.WellFormed i → s.closing = false → Books (some s) t → Fine none t (f s)) :
    SoundAs (fun _ => none) (a.onAll f) := by
  have hlisted : SoundAs (fun r => if r < a.count then ids r else none) a := by
    refine ⟨fun r => ⟨fun s hs => ?_, (h.sane r).books⟩, h.fresh, h.next⟩
    rw [if_pos (h.lt hs)]
    exact (h.sane r).socket s hs
  exact SoundAs.onEach hf _ hlisted fun r hr => if_neg (by simpa using hr)

theorem SoundAs.closeAll (h : SoundAs ids a) : SoundAs (fun _ => none) (closeAllSockets a) :=
  h.onAll fun hw hc hb => localSocketClose_fine (fun _ hq => hw.notified.mpr hq) hb fun hc' => by simp [hc] at hc'

theorem SoundAs.offline (h : SoundAs ids a) : SoundAs (fun _ => none) (handleOffline a) :=
  SoundAs.onAll (a := { a with connectionState := .offline }) ⟨h.sane, h.fresh, h.next⟩ remoteSocketDisconnect_fine

theorem SoundAs.send (h : SoundAs ids a) (p : Apacket) : SoundAs ids (a.send p) := by
  have hhist : ∀ r, (a.send p).history r = a.history r := fun r => by simp [Adbd.send, Adbd.history]
  refine ⟨fun r => ?_, fun r hr => ⟨(h.fresh r hr).1, (hhist r).trans (h.fresh r hr).2⟩, h.next⟩
  rw [Adbd.tally, hhist]
  exact h.sane r

theorem findLocalSocket_some {id : ℕ} (h : findLocalSocket id a = some r) :
    ∃ s, a.socks r = some s ∧ s.closing = false ∧ s.id = id := by
  have hp := List.find?_some h
  obtain ⟨s, hs, hp⟩ := (Option.any_eq_true _ _).mp hp
  simp only [Bool.and_eq_true, Bool.not_eq_true', beq_iff_eq] at hp
  exact ⟨s, hs, hp⟩

theorem Sound.openService (h : Sound a) (hon : a.connectionState ≠ .offline) (p : Apacket) (spawned : Bool) :
    Sound (openService p spawned a) := by
  unfold Adb.openService
  dsimp only
  split_ifs
  · have hnew : SoundAs a.idOf { a with nextId := (a.nextId + 1) % 2 ^ 32, count := a.count + 1 } := by
      refine ⟨h.sane, fun r hr => h.fresh r (Nat.le_of_succ_le hr), ?_⟩
      show (a.nextId + 1) % 2 ^ 32 = (a.count + 1 + 1) % 2 ^ 32
      rw [h.next, Nat.mod_add_mod]
    have hzero : Adbd.tally a.count { a with nextId := (a.nextId + 1) % 2 ^ 32, count := a.count + 1 } = .zero := by
      show Tally.zero.addAll (a.history a.count) = _
      rw [(h.fresh _ le_rfl).2]
      rfl
    have hid : some a.nextId = a.idOf a.count := by rw [Adbd.idOf, if_neg hon, h.next]
    have hleave := hnew.leave (Nat.lt_succ_self _) (hzero.symm ▸ createSocket_fine (Zip.cstr p.data.dropLast) a.nextId p.arg0)
    rw [hid, Function.update_eq_self] at hleave
    exact hleave
  · exact h.send _

theorem Sound.handleStream (h : Sound a) {s : Asocket} (hs : a.socks r = some s) (hc : s.closing = false) (p : Apacket)
    (answers : List (Answer ℕ)) : Sound (handleStream p answers r a) := by
  have hopen : ∀ {s'}, a.socks r = some s' → s'.closing = false := fun hs' => by
    rw [hs] at hs'
    cases hs'
    exact hc
  unfold Adb.handleStream
  split_ifs
  · exact h.on fun s hw hb hs => handleOkay_fine hw (hopen hs) hb p.arg0
  · exact h.on fun s hw hb hs => localSocketClose_fine (fun _ hq => hw.notified.mpr hq) hb fun hc' => by
      simp [hopen hs] at hc'
  · exact h.on fun s hw hb hs => handleWrte_fine hw (hopen hs) hb p.arg0 p.data answers
  · exact h

/-- After an `A_CNXN` no socket takes packets: offline, none did. -/
theorem Sound.cnxn (h : Sound a) {p : Apacket} (hp : p.command = aCnxn) (spawned : Bool) (answers : List (Answer ℕ)) :
    SoundAs (fun _ => none) (handlePacket p spawned answers a) := by
  have hoff : SoundAs (fun _ => none) (if a.connectionState ≠ .offline then handleOffline a else a) := by
    split_ifs with hon
    · exact h.offline
    · exact h.mono fun r => .inr (if_pos (not_not.mp hon))
  unfold Adb.handlePacket
  rw [if_neg (by rw [hp]; decide), if_pos hp]
  have hset (b : Adbd) (hb : SoundAs (fun _ => none) b) :
      SoundAs (fun _ => none) { b with connectionState := parseBanner p.data } := ⟨hb.sane, hb.fresh, hb.next⟩
  exact (hset _ hoff).send _

theorem Sound.handlePacket (h : Sound a) (p : Apacket) (spawned : Bool) (answers : List (Answer ℕ)) :
    Sound (handlePacket p spawned answers a) := by
  by_cases hcnxn : p.command = aCnxn
  · exact (h.cnxn hcnxn spawned answers).mono fun _ => .inl rfl
  unfold Adb.handlePacket
  rw [if_neg hcnxn]
  split_ifs with hsync harg hoffline hopen
  · exact h.send p
  · exact (h.offline.send p).mono fun _ => .inl rfl
  · exact h
  · exact h.openService hoffline p spawned
  · cases hfind : findLocalSocket p.arg1 a with
    | none => exact h
    | some r =>
      obtain ⟨s, hs, hc, -⟩ := findLocalSocket_some hfind
      exact h.handleStream hs hc p answers

theorem Sound.step (h : Sound a) (ev : Event) : ∃ a', step a ev = .ok a' ∧ Sound a' := by
  cases ev with
  | packet p spawned answers => exact ⟨_, rfl, h.handlePacket p spawned answers⟩
  | select r read write => exact ⟨_, rfl, h.on fun s hw hb _ => select_fine hw hb read write⟩
  | call r writes reads =>
    have hstep : Adb.step a (.call r writes reads) =
        (a.socks r).elim (.ok a) fun s => fdeventCallFdfunc writes reads s >>= fun x => .ok (a.leave r x) := rfl
    rw [hstep]
    cases hs : a.socks r with
    | none => exact ⟨a, rfl, h⟩
    | some s =>
      have hsane := hs ▸ h.sane r
      obtain ⟨x, hx, hfine⟩ := fdeventCallFdfunc_fine (hsane.socket s rfl) hsane.books writes reads
      have hleave := h.leave (h.lt hs) hfine
      rw [Function.update_eq_self] at hleave
      refine ⟨a.leave r x, ?_, hleave⟩
      dsimp only [Option.elim]
      rw [hx, ok_bind]
  | closeAll => exact ⟨_, rfl, h.closeAll.mono fun _ => .inl rfl⟩
  | removeTransport => exact ⟨_, rfl, h.offline.mono fun _ => .inl rfl⟩

/-- **Every run goes through**, whatever the events are and whatever order they come in, and its books are in order. -/
theorem run_sound : ∀ (evs : List Event) {a : Adbd}, Sound a → ∃ a', run a evs = .ok a' ∧ Sound a'
  | [], a, h => ⟨a, rfl, h⟩
  | ev :: evs, a, h => by
    obtain ⟨a1, hstep, h1⟩ := h.step ev
    obtain ⟨a2, hrun, h2⟩ := run_sound evs h1
    exact ⟨a2, by rw [run, hstep, ok_bind, hrun], h2⟩

end

section

variable (evs : List Event)

/-- **The host's bytes are delivered**: to the descriptor of a stream goes a beginning of what has arrived for it. The rest
is in the queue of its socket, also when the host or the transport has closed the stream; and a socket that is gone has
given its descriptor all of it, unless that one was broken. -/
theorem delivered : ∃ a, run .initial evs = .ok a ∧ ∀ r,
    (a.tally r).written <+: (a.tally r).arrived.flatten ∧
    (∀ s, a.socks r = some s → (a.tally r).written ++ s.pkts.flatten = (a.tally r).arrived.flatten) ∧
    (a.socks r = none → (a.tally r).broken = false → (a.tally r).written = (a.tally r).arrived.flatten) := by
  obtain ⟨a, hrun, h⟩ := run_sound evs .initial
  exact ⟨a, hrun, fun r => ⟨(h.sane r).books.ledger.written, (h.sane r).books.queued, (h.sane r).books.ended⟩⟩

/-- **Packets of the host are acknowledged**: never more than have arrived, besides the `A_OKAY` of `A_OPEN`. On a stream that is
open and whose host waits for the `A_OKAY` of the packet before, just those packets are that were written to their last byte,
each once; at most the last one is still in the queue. -/
theorem acknowledged : ∃ a, run .initial evs = .ok a ∧ ∀ r,
    (a.tally r).okays ≤ (a.tally r).arrived.length + 1 ∧
    ∀ s, a.socks r = some s → s.closing = false → (a.tally r).waits = true →
      ((a.tally r).okays = (a.tally r).arrived.length + 1 ∧ s.pkts = [] ∧
        (a.tally r).written = (a.tally r).arrived.flatten) ∨
      ((a.tally r).okays = (a.tally r).arrived.length ∧ ∃ rest, s.pkts = [rest] ∧
        (a.tally r).written ++ rest = (a.tally r).arrived.flatten) := by
  obtain ⟨a, hrun, h⟩ := run_sound evs .initial
  refine ⟨a, hrun, fun r => ⟨(h.sane r).books.ledger.okays, fun s hs hc hwaits => ?_⟩⟩
  obtain ⟨hokays, hlen⟩ := ((h.sane r).books.opened s hs hc).waits hwaits
  have hqueued := (h.sane r).books.queued s hs
  cases hpkts : s.pkts with
  | nil =>
    rw [hpkts] at hokays hqueued
    exact .inl ⟨by simpa using hokays, rfl, by simpa using hqueued⟩
  | cons rest more =>
    rw [hpkts] at hokays hqueued hlen
    obtain rfl : more = [] := List.length_eq_zero_iff.mp (by simpa using hlen)
    exact .inr ⟨by simpa using hokays, rest, rfl, by simpa using hqueued⟩

/-- **The host is not overrun**: a stream sends one packet for each `A_OKAY`, besides the first, and what it sends is what
was read from its descriptor, in order, in packets that the host has room for. Nothing that was read of a stream that is
open is held back. -/
theorem paced : ∃ a, run .initial evs = .ok a ∧ ∀ r,
    (a.tally r).passed.length ≤ (a.tally r).readies + 1 ∧
    (a.tally r).passed.flatten <+: (a.tally r).taken ∧
    (∀ b ∈ (a.tally r).passed, b ≠ [] ∧ b.length ≤ maxPayload) ∧
    ∀ s, a.socks r = some s → s.closing = false → (a.tally r).passed.flatten = (a.tally r).taken := by
  obtain ⟨a, hrun, h⟩ := run_sound evs .initial
  exact ⟨a, hrun, fun r => ⟨(h.sane r).books.ledger.readies, (h.sane r).books.ledger.passed, (h.sane r).books.ledger.sizes,
    fun s hs hc => ((h.sane r).books.opened s hs hc).passed⟩⟩

/-- **Sockets are never stuck**: one that takes packets has its peer; one that is closing has none and still something to
write, and each that has something to write waits for its descriptor. A read event that is pending on a socket that takes
packets was asked for, but not always one on a socket that is closing: `fdevent_set` does not take it back. -/
theorem never_stuck : ∃ a, run .initial evs = .ok a ∧ ∀ r s, a.socks r = some s → s.WellFormed (a.idOf r) := by
  obtain ⟨a, hrun, h⟩ := run_sound evs .initial
  exact ⟨a, hrun, fun r s hs => (h.sane r).socket s hs⟩

end

end Adb
end Recovery
