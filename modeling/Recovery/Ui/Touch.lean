/-
# Contacts of a touch panel (input/touch.c)

For panels of type B the driver counts the contacts in `slot_count_active` and keeps one
tracking id for all slots; a tracking id also sets both slot indices to 0. Overflow of an
`int` is left out.

Key theorems: `contacts_counted`, `contacts_miscounted`.
-/
import Mathlib.Data.Finset.Card
import Recovery.Ui.Keys

namespace Recovery
namespace Ui
namespace Touch

open KeyQueue (InputEvent evSyn evKey)

/-! ### Devices -/

def evAbs : ℕ := 3
def synReport : ℕ := 0
def synMtReport : ℕ := 2
def absMtSlot : ℕ := 0x2f
def absMtPositionX : ℕ := 0x35
def absMtPositionY : ℕ := 0x36
def absMtTrackingId : ℕ := 0x39
def keyEnter : ℕ := 28
def keyVolumeDown : ℕ := 114
def keyVolumeUp : ℕ := 115
def keyBack : ℕ := 158

structure Point where
  x : ℤ
  y : ℤ

structure VirtualKey where
  keycode : ℤ
  centerX : ℤ
  centerY : ℤ
  width : ℤ
  height : ℤ

/-- `input_device`. -/
structure Device where
  slotFirst : ℤ
  slotCurrent : ℤ
  slotCountActive : ℤ
  trackingId : ℤ
  sawPosX : Bool
  sawPosY : Bool
  sawMtReport : Bool
  sawTrackingId : Bool
  inTouch : Bool
  inSwipe : Bool
  touchMin : Point
  touchMax : Point
  touchPos : Point
  touchStart : Point
  touchTrack : Point
  virtualKeys : List VirtualKey

/-- A device after its first event: zero but for the tracking id and what was asked of the panel. -/
def Device.initial (touchMin touchMax touchPos : Point) (virtualKeys : List VirtualKey) : Device :=
  ⟨0, 0, 0, -1, false, false, false, false, false, false, touchMin, touchMax, touchPos, ⟨0, 0⟩, ⟨0, 0⟩, virtualKeys⟩

structure Screen where
  fbWidth : ℤ
  fbHeight : ℤ
  minSwipeDx : ℤ
  minSwipeDy : ℤ

/-- The device, the event, which may become a key, and whether `ui_clear_key_queue` was called. -/
structure Call where
  dev : Device
  ev : InputEvent
  cleared : Bool

variable (scr : Screen)

/-! ### Gestures -/

def handlePress (c : Call) : Call :=
  { c with dev := { c.dev with
      touchStart := c.dev.touchPos, touchTrack := c.dev.touchPos, inTouch := true, inSwipe := false } }

/-- The event as a key. `code` has 16 bits. -/
def asKey (code : ℤ) : InputEvent := ⟨evKey, (code % 65536).toNat, 2⟩

/-- The event of a release that ends no swipe: the last virtual key around the position. -/
def virtualKeyEvent (pos : Point) (keys : List VirtualKey) (ev : InputEvent) : InputEvent :=
  keys.foldl (fun ev key =>
    if |key.centerX - pos.x| < key.width.tdiv 2 ∧ |key.centerY - pos.y| < key.height.tdiv 2 then asKey key.keycode
    else ev) ev

def swipeEvent (dx dy : ℤ) (ev : InputEvent) : InputEvent :=
  if |dy| < |dx| ∧ scr.minSwipeDx < |dx| then asKey (if 0 < dx then keyEnter else keyBack) else ev

def handleRelease (c : Call) : Call :=
  let d := c.dev
  { dev := { d with inTouch := false, inSwipe := false }
    ev := if d.inSwipe then swipeEvent scr (d.touchPos.x - d.touchStart.x) (d.touchPos.y - d.touchStart.y) c.ev
      else virtualKeyEvent d.touchPos d.virtualKeys c.ev
    cleared := true }

def handleGestures (c : Call) : Call :=
  let d := c.dev
  let dx := d.touchPos.x - d.touchStart.x
  if |d.touchPos.y - d.touchStart.y| < |dx| then
    if scr.minSwipeDx < |dx| then { c with dev := { d with inSwipe := true } } else c
  else
    let dy := d.touchPos.y - d.touchTrack.y
    if scr.minSwipeDy < |dy| then
      { c with dev := { d with inSwipe := true, touchTrack := d.touchPos }
               ev := asKey (if dy < 0 then keyVolumeUp else keyVolumeDown) }
    else c

/-! ### Events -/

/-- A release: the handler, and the first slot is forgotten. -/
def release (c : Call) : Call :=
  let c := handleRelease scr c
  { c with dev := { c.dev with slotFirst := 0 } }

def pressOrGesture (c : Call) : Call :=
  if c.dev.inTouch then handleGestures scr c
  else if c.dev.sawTrackingId then handlePress c
  else c

def detectRelease (c : Call) : Call :=
  if c.dev.sawMtReport then
    if !c.dev.sawPosX && !c.dev.sawPosY then release scr c else c
  else if c.dev.sawTrackingId ∧ c.dev.slotCurrent = c.dev.slotFirst ∧ c.dev.trackingId = -1 then release scr c
  else c

def clearSaw (c : Call) : Call :=
  { c with dev := { c.dev with sawPosX := false, sawPosY := false, sawMtReport := false, sawTrackingId := false } }

def processSyn (c : Call) : Call :=
  if c.ev.code = synMtReport then
    let c := if !c.dev.inTouch && (c.dev.sawPosX && c.dev.sawPosY) then handlePress c else c
    { c with dev := { c.dev with sawMtReport := true } }
  else if c.ev.code = synReport then clearSaw (detectRelease scr (pressOrGesture scr c))
  else c

def ignores (d : Device) : Bool :=
  if d.slotCountActive = 0 then d.sawPosX && d.sawPosY else d.slotCurrent != d.slotFirst

def countContact (value : ℤ) (d : Device) : Device :=
  if value ≠ d.trackingId then
    { d with trackingId := value, slotCountActive := if value < 0 then d.slotCountActive - 1 else d.slotCountActive + 1 }
  else d

def setTrackingId (value : ℤ) (d : Device) : Device :=
  countContact value { d with sawTrackingId := true, slotFirst := 0, slotCurrent := 0 }

def processAbs (ev : InputEvent) (d : Device) : Device :=
  if ev.code = absMtSlot then
    { d with slotCurrent := ev.value, slotFirst := if d.slotFirst = -1 then ev.value else d.slotFirst }
  else if ev.code = absMtTrackingId then setTrackingId ev.value d
  else if ignores d then d
  else if ev.code = absMtPositionX then
    { d with sawPosX := true
             touchPos := ⟨(ev.value * scr.fbWidth).tdiv (d.touchMax.x - d.touchMin.x), d.touchPos.y⟩ }
  else if ev.code = absMtPositionY then
    { d with sawPosY := true
             touchPos := ⟨d.touchPos.x, (ev.value * scr.fbHeight).tdiv (d.touchMax.y - d.touchMin.y)⟩ }
  else d

/-- `touch_handle_input` for a device that is calibrated. -/
def touchHandleInput (d : Device) (ev : InputEvent) : Call :=
  if ev.type = evSyn then processSyn scr ⟨d, ev, false⟩
  else if ev.type = evAbs then ⟨processAbs scr ev d, ev, false⟩
  else ⟨d, ev, false⟩

def handleAll (d : Device) (evs : List InputEvent) : Device :=
  evs.foldl (fun d ev => (touchHandleInput scr d ev).dev) d

/-! ### The panel -/

/-- The selected slot, the slots with a contact, the slot of the first contact, and the last
tracking id. -/
structure Panel where
  slot : ℤ
  live : Finset ℤ
  first : Option ℤ
  last : ℤ

def Panel.initial : Panel := ⟨0, ∅, none, -1⟩

def IsTrackingId (ev : InputEvent) : Prop := ev.type = evAbs ∧ ev.code = absMtTrackingId

instance (ev : InputEvent) : Decidable (IsTrackingId ev) := inferInstanceAs (Decidable (_ ∧ _))

/-- A contact in the selected slot begins with a tracking id and ends with `-1`. -/
def Panel.track (value : ℤ) (p : Panel) : Panel :=
  if value < 0 then { p with live := p.live.erase p.slot, last := value }
  else { p with
    live := insert p.slot p.live
    first := if p.live = ∅ then some p.slot else p.first
    last := value }

def Panel.next (p : Panel) (ev : InputEvent) : Panel :=
  if IsTrackingId ev then p.track ev.value
  else if ev.type = evAbs ∧ ev.code = absMtSlot then { p with slot := ev.value }
  else p

def Panel.after (p : Panel) (evs : List InputEvent) : Panel := evs.foldl Panel.next p

/-- Tracking ids for free slots, `-1` for those with a contact, and no event of type A. -/
def Panel.Allows (p : Panel) (ev : InputEvent) : Prop :=
  (IsTrackingId ev → (0 ≤ ev.value ∧ p.slot ∉ p.live) ∨ (ev.value = -1 ∧ p.slot ∈ p.live)) ∧
    (ev.type = evAbs ∧ ev.code = absMtSlot → 0 ≤ ev.value) ∧ ¬(ev.type = evSyn ∧ ev.code = synMtReport)

instance (p : Panel) (ev : InputEvent) : Decidable (p.Allows ev) := inferInstanceAs (Decidable (_ ∧ _ ∧ _))

/-- A tracking id is not the one before it. -/
def Panel.Changes (p : Panel) (ev : InputEvent) : Prop := IsTrackingId ev → ev.value ≠ p.last

instance (p : Panel) (ev : InputEvent) : Decidable (p.Changes ev) := inferInstanceAs (Decidable (_ → _))

/-- The contact of the first slot has been lifted. -/
def Panel.FirstLifted (p : Panel) : Prop := ∀ slot ∈ p.first, slot ∉ p.live

instance (p : Panel) : Decidable p.FirstLifted :=
  decidable_of_iff (∀ slot ∈ p.first.toList, slot ∉ p.live) (by simp [Panel.FirstLifted])

/-- No contact but the one of the first slot is lifted while that one is there. -/
def Panel.LiftsFirst (p : Panel) (ev : InputEvent) : Prop :=
  IsTrackingId ev → ev.value < 0 → p.first = some p.slot ∨ p.FirstLifted

instance (p : Panel) (ev : InputEvent) : Decidable (p.LiftsFirst ev) := inferInstanceAs (Decidable (_ → _ → _))

/-- Every event of a list has the property at the panel it comes from. -/
def Along (P : Panel → InputEvent → Prop) : Panel → List InputEvent → Prop
  | _, [] => True
  | p, ev :: evs => P p ev ∧ Along P (p.next ev) evs

instance Along.decidable (P : Panel → InputEvent → Prop) [∀ p ev, Decidable (P p ev)] :
    ∀ p evs, Decidable (Along P p evs)
  | _, [] => isTrue trivial
  | p, ev :: evs => @instDecidableAnd _ _ _ (Along.decidable P (p.next ev) evs)

theorem along_append {P : Panel → InputEvent → Prop} (evs later : List InputEvent) : ∀ p : Panel,
    Along P p (evs ++ later) ↔ Along P p evs ∧ Along P (p.after evs) later := by
  induction evs with
  | nil => exact fun p => ⟨fun h => ⟨trivial, h⟩, fun h => h.2⟩
  | cons ev evs ih => exact fun p => (and_congr_right fun _ => ih (p.next ev)).trans and_assoc.symm

theorem Along.and {P Q : Panel → InputEvent → Prop} : ∀ {evs : List InputEvent} {p : Panel}, Along P p evs →
    Along Q p evs → Along (fun p ev => P p ev ∧ Q p ev) p evs
  | [], _, _, _ => trivial
  | _ :: _, _, hP, hQ => ⟨⟨hP.1, hQ.1⟩, hP.2.and hQ.2⟩

theorem run_invariant {P : Panel → InputEvent → Prop} {I : Device → Panel → Prop}
    (hstep : ∀ d p ev, P p ev → I d p → I (touchHandleInput scr d ev).dev (p.next ev)) (evs : List InputEvent) :
    ∀ d p, Along P p evs → I d p → I (handleAll scr d evs) (p.after evs) := by
  induction evs with
  | nil => exact fun d p _ hI => hI
  | cons ev evs ih => exact fun d p hP hI => ih _ _ hP.2 (hstep d p ev hP.1 hI)

/-! ### What an event does to the contacts -/

/-- The fields of a device that are about its contacts and not about gestures. -/
structure SameContacts (d d' : Device) : Prop where
  count : d'.slotCountActive = d.slotCountActive
  tracking : d'.trackingId = d.trackingId
  report : d.sawMtReport = false → d'.sawMtReport = false
  saw : d'.sawTrackingId = true → d.sawTrackingId = true

theorem SameContacts.refl (d : Device) : SameContacts d d := ⟨rfl, rfl, id, id⟩

theorem SameContacts.trans {d d' d'' : Device} (h : SameContacts d d') (h' : SameContacts d' d'') : SameContacts d d'' :=
  ⟨h'.count.trans h.count, h'.tracking.trans h.tracking, fun hr => h'.report (h.report hr), fun hs => h.saw (h'.saw hs)⟩

theorem pressOrGesture_same (c : Call) : SameContacts c.dev (pressOrGesture scr c).dev ∧
    (pressOrGesture scr c).cleared = c.cleared := by
  unfold pressOrGesture handleGestures
  dsimp only
  split_ifs <;> exact ⟨⟨rfl, rfl, id, id⟩, rfl⟩

/-- A release of a panel of type B comes after a tracking id, and the last one was `-1`. -/
theorem detectRelease_same {c : Call} (hr : c.dev.sawMtReport = false) :
    SameContacts c.dev (detectRelease scr c).dev ∧
      ((detectRelease scr c).cleared = true → c.cleared = true ∨ (c.dev.sawTrackingId = true ∧ c.dev.trackingId = -1)) := by
  unfold detectRelease
  rw [if_neg (by simp [hr])]
  split_ifs with h
  · exact ⟨⟨rfl, rfl, id, id⟩, fun _ => .inr ⟨h.1, h.2.2⟩⟩
  · exact ⟨.refl _, .inl⟩

theorem processSyn_same {d : Device} {ev : InputEvent} (hev : ev.code ≠ synMtReport)
    (hr : d.sawMtReport = false) : SameContacts d (processSyn scr ⟨d, ev, false⟩).dev ∧
      ((processSyn scr ⟨d, ev, false⟩).cleared = true → d.sawTrackingId = true ∧ d.trackingId = -1) := by
  unfold processSyn
  rw [if_neg hev]
  split_ifs with h
  · obtain ⟨hsame, hcleared⟩ := pressOrGesture_same scr ⟨d, ev, false⟩
    obtain ⟨hsame', hrel⟩ := detectRelease_same scr (hsame.report hr)
    refine ⟨(hsame.trans hsame').trans ⟨rfl, rfl, fun _ => rfl, fun hs => by cases hs⟩, fun hc => ?_⟩
    rcases hrel hc with hc' | ⟨hs, hid⟩
    · rw [hcleared] at hc'
      cases hc'
    · exact ⟨hsame.saw hs, hsame.tracking.symm.trans hid⟩
  · exact ⟨.refl _, fun hc => by cases hc⟩

theorem processAbs_same {ev : InputEvent} (d : Device) (hev : ev.code ≠ absMtTrackingId) :
    SameContacts d (processAbs scr ev d) := by
  unfold processAbs
  rw [if_neg hev]
  split_ifs <;> exact ⟨rfl, rfl, id, id⟩

theorem setTrackingId_id (value : ℤ) (d : Device) : (setTrackingId value d).trackingId = value := by
  unfold setTrackingId countContact
  by_cases h : value = d.trackingId
  · rw [if_neg (not_not.mpr h)]
    exact h.symm
  · rw [if_pos h]

theorem setTrackingId_count {value : ℤ} {d : Device} (h : value ≠ d.trackingId) :
    (setTrackingId value d).slotCountActive = if value < 0 then d.slotCountActive - 1 else d.slotCountActive + 1 := by
  unfold setTrackingId countContact
  rw [if_pos h]

theorem setTrackingId_saw (value : ℤ) (d : Device) : (setTrackingId value d).sawTrackingId = true ∧
    (setTrackingId value d).sawMtReport = d.sawMtReport := by
  unfold setTrackingId countContact
  split_ifs <;> exact ⟨rfl, rfl⟩

/-- A tracking id; or the contacts stay as they are, with a release only after a tracking id
`-1`. -/
theorem event_cases {d : Device} {p : Panel} {ev : InputEvent} (hev : p.Allows ev) (hr : d.sawMtReport = false) :
    (IsTrackingId ev ∧ touchHandleInput scr d ev = ⟨setTrackingId ev.value d, ev, false⟩ ∧ p.next ev = p.track ev.value) ∨
    (SameContacts d (touchHandleInput scr d ev).dev ∧
      ((touchHandleInput scr d ev).cleared = true → d.sawTrackingId = true ∧ d.trackingId = -1) ∧
      (p.next ev).live = p.live ∧ (p.next ev).first = p.first ∧ (p.next ev).last = p.last) := by
  by_cases hid : IsTrackingId ev
  · refine .inl ⟨hid, ?_, if_pos hid⟩
    unfold touchHandleInput processAbs
    rw [if_neg (by rw [hid.1]; decide), if_pos hid.1, if_neg (by rw [hid.2]; decide), if_pos hid.2]
  · have hevent : SameContacts d (touchHandleInput scr d ev).dev ∧
        ((touchHandleInput scr d ev).cleared = true → d.sawTrackingId = true ∧ d.trackingId = -1) := by
      unfold touchHandleInput
      split_ifs with hs ha
      · exact processSyn_same scr (fun hc => hev.2.2 ⟨hs, hc⟩) hr
      · exact ⟨processAbs_same scr d fun hc => hid ⟨ha, hc⟩, fun hc => by cases hc⟩
      · exact ⟨.refl d, fun hc => by cases hc⟩
    refine .inr ⟨hevent.1, hevent.2, ?_⟩
    unfold Panel.next
    rw [if_neg hid]
    split_ifs <;> exact ⟨rfl, rfl, rfl⟩

/-! ### Whole runs -/

/-- A device that follows its panel. -/
structure Follows (d : Device) (p : Panel) : Prop where
  tracking : d.trackingId = p.last
  report : d.sawMtReport = false
  saw : d.sawTrackingId = true → p.first.isSome
  first : p.live.Nonempty → p.first.isSome

theorem track_last (value : ℤ) (p : Panel) : (p.track value).last = value := by
  unfold Panel.track
  split_ifs <;> rfl

theorem track_first {p : Panel} {value : ℤ} (hp : p.live.Nonempty → p.first.isSome)
    (hv : (0 ≤ value ∧ p.slot ∉ p.live) ∨ (value = -1 ∧ p.slot ∈ p.live)) : (p.track value).first.isSome := by
  unfold Panel.track
  rcases hv with ⟨h, -⟩ | ⟨rfl, h⟩
  · rw [if_neg (by omega)]
    rcases p.live.eq_empty_or_nonempty with hl | hl
    · rw [hl, if_pos rfl]
      rfl
    · rw [if_neg hl.ne_empty]
      exact hp hl
  · exact hp ⟨_, h⟩

section

variable {scr} {d : Device} {p : Panel} {ev : InputEvent}

theorem Follows.next (h : Follows d p) (hev : p.Allows ev) : Follows (touchHandleInput scr d ev).dev (p.next ev) := by
  obtain ⟨hid, hrun, hnext⟩ | ⟨hsame, -, hlive, hfirst, hlast⟩ := event_cases scr hev h.report
  · have hfirst := track_first h.first (hev.1 hid)
    rw [hrun, hnext]
    exact ⟨(setTrackingId_id _ d).trans (track_last _ p).symm, (setTrackingId_saw _ d).2.trans h.report,
      fun _ => hfirst, fun _ => hfirst⟩
  · refine ⟨by rw [hsame.tracking, hlast, h.tracking], hsame.report h.report, fun hs => ?_, fun hl => ?_⟩
    · rw [hfirst]
      exact h.saw (hsame.saw hs)
    · rw [hlive] at hl
      rw [hfirst]
      exact h.first hl

theorem Follows.counted (h : Follows d p) (hcount : d.slotCountActive = p.live.card) (hev : p.Allows ev) (hchanges : p.Changes ev) :
    (touchHandleInput scr d ev).dev.slotCountActive = (p.next ev).live.card := by
  obtain ⟨hid, hrun, hnext⟩ | ⟨hsame, -, hlive, -, -⟩ := event_cases scr hev h.report
  · rw [hrun, hnext, setTrackingId_count (h.tracking ▸ hchanges hid), hcount]
    unfold Panel.track
    rcases hev.1 hid with ⟨hv, hslot⟩ | ⟨hv, hslot⟩
    · rw [if_neg (by omega), if_neg (by omega), Finset.card_insert_of_notMem hslot, Nat.cast_add_one]
    · have hcard := Finset.card_pos.mpr ⟨_, hslot⟩
      rw [if_pos (by omega), if_pos (by omega), Finset.card_erase_of_mem hslot]
      omega
  · rw [hsame.count, hlive, hcount]

theorem Follows.lifted (h : Follows d p) (hlifted : d.trackingId = -1 → p.FirstLifted)
    (hev : p.Allows ev) (hfirst : p.LiftsFirst ev) :
    (touchHandleInput scr d ev).dev.trackingId = -1 → (p.next ev).FirstLifted := by
  obtain ⟨hid, hrun, hnext⟩ | ⟨hsame, -, hlive, hf, -⟩ := event_cases scr hev h.report
  · rw [hrun, hnext, setTrackingId_id]
    intro hv slot hslot hlive
    unfold Panel.track at hslot hlive
    rw [if_pos (by omega)] at hslot hlive
    obtain ⟨hne, hmem⟩ := Finset.mem_erase.mp hlive
    rcases hfirst hid (by omega) with hf | hf
    · exact hne (Option.some.inj (hslot.symm.trans hf))
    · exact hf slot hslot hmem
  · rw [hsame.tracking, Panel.FirstLifted, hlive, hf]
    exact hlifted

theorem Follows.released (h : Follows d p) (hlifted : d.trackingId = -1 → p.FirstLifted) (hev : p.Allows ev)
    (hc : (touchHandleInput scr d ev).cleared = true) : ∃ slot, (p.next ev).first = some slot ∧ slot ∉ (p.next ev).live := by
  obtain ⟨-, hrun, -⟩ | ⟨-, hrel, hlive, hf, -⟩ := event_cases scr hev h.report
  · rw [hrun] at hc
    cases hc
  · obtain ⟨hsaw, hid⟩ := hrel hc
    obtain ⟨slot, hslot⟩ := Option.isSome_iff_exists.mp (h.saw hsaw)
    rw [hlive, hf]
    exact ⟨slot, hslot, hlifted hid slot hslot⟩

end

theorem follows_initial (touchMin touchMax touchPos : Point) (keys : List VirtualKey) :
    Follows (.initial touchMin touchMax touchPos keys) .initial :=
  ⟨rfl, rfl, fun h => Bool.noConfusion h, fun h => absurd h Finset.not_nonempty_empty⟩

/-- **Contacts.** After every event of a well-formed panel of type B: if no tracking id is the one before it, the count is
the number of slots with a contact; if no other contact is lifted while the first slot has one, a release is reported only
when the first slot has none. -/
theorem contacts_counted (touchMin touchMax touchPos : Point) (keys : List VirtualKey)
    (evs : List InputEvent) (ev : InputEvent) (h : Along Panel.Allows .initial (evs ++ [ev])) :
    let d := handleAll scr (.initial touchMin touchMax touchPos keys) evs
    let p := Panel.initial.after (evs ++ [ev])
    (Along Panel.Changes .initial (evs ++ [ev]) → (touchHandleInput scr d ev).dev.slotCountActive = p.live.card) ∧
      (Along Panel.LiftsFirst .initial (evs ++ [ev]) → (touchHandleInput scr d ev).cleared = true →
        ∃ slot, p.first = some slot ∧ slot ∉ p.live) := by
  intro d p
  have hp : p = (Panel.initial.after evs).next ev := List.foldl_append ..
  have hinit := follows_initial touchMin touchMax touchPos keys
  obtain ⟨hevs, hev, -⟩ := (along_append ..).mp h
  have hfollows : Follows d (Panel.initial.after evs) :=
    run_invariant scr (fun _ _ _ hP hI => hI.next hP) evs _ _ hevs hinit
  rw [hp]
  refine ⟨fun hch => ?_, fun hl hc => ?_⟩
  · obtain ⟨hchs, hch, -⟩ := (along_append ..).mp hch
    have hcount := run_invariant scr (I := fun d p => Follows d p ∧ d.slotCountActive = p.live.card)
      (fun _ _ _ hP hI => ⟨hI.1.next hP.1, hI.1.counted hI.2 hP.1 hP.2⟩) evs _ _ (hevs.and hchs) ⟨hinit, rfl⟩
    exact hfollows.counted hcount.2 hev hch
  · obtain ⟨hls, -, -⟩ := (along_append ..).mp hl
    have hlifted := run_invariant scr (I := fun d p => Follows d p ∧ (d.trackingId = -1 → p.FirstLifted))
      (fun _ _ _ hP hI => ⟨hI.1.next hP.1, hI.1.lifted hI.2 hP.1 hP.2⟩) evs _ _ (hevs.and hls)
      ⟨hinit, fun _ _ hf => by cases hf⟩
    exact hfollows.released hlifted.2 hev hc

def slotEvent (slot : ℤ) : InputEvent := ⟨evAbs, absMtSlot, slot⟩
def idEvent (id : ℤ) : InputEvent := ⟨evAbs, absMtTrackingId, id⟩
def reportEvent : InputEvent := ⟨evSyn, synReport, 0⟩

/-- A finger in slot 0 and one in slot 1, and the one in slot 0 is lifted. -/
def firstLifted : List InputEvent :=
  [slotEvent 0, idEvent 5, ⟨evAbs, absMtPositionX, 10⟩, ⟨evAbs, absMtPositionY, 20⟩, reportEvent, slotEvent 1, idEvent 6,
    reportEvent, slotEvent 0, idEvent (-1)]

/-- A finger in slot 0, one in slot 1, and the one in slot 1 is lifted. -/
def twoFingers : List InputEvent := [slotEvent 0, idEvent 5, slotEvent 1, idEvent 6, reportEvent, idEvent (-1)]

def smallScreen : Screen := ⟨480, 800, 100, 80⟩

def smallPanel : Device := .initial ⟨0, 0⟩ ⟨480, 800⟩ ⟨0, 0⟩ []

/-- The finger that stays is counted, and the release of the first one reported. -/
theorem contacts_counted_two :
    let d := handleAll smallScreen smallPanel firstLifted
    (touchHandleInput smallScreen d reportEvent).dev.slotCountActive = 1 ∧
      (touchHandleInput smallScreen d reportEvent).cleared = true ∧
      ∃ slot, (Panel.initial.after (firstLifted ++ [reportEvent])).first = some slot ∧
        slot ∉ (Panel.initial.after (firstLifted ++ [reportEvent])).live := by
  have h := contacts_counted smallScreen ⟨0, 0⟩ ⟨480, 800⟩ ⟨0, 0⟩ [] firstLifted reportEvent (by decide)
  have hcleared : (touchHandleInput smallScreen (handleAll smallScreen smallPanel firstLifted) reportEvent).cleared = true := by
    decide
  exact ⟨h.1 (by decide), hcleared, h.2 (by decide) hcleared⟩

/-- The finger in slot 1 is lifted and a release is reported, though slot 0 was first and
still has its contact. When that one is lifted too, the count stays 1. -/
theorem contacts_miscounted :
    let lifted := handleAll smallScreen smallPanel twoFingers
    let evs := twoFingers ++ [reportEvent, slotEvent 0, idEvent (-1)]
    Along Panel.Allows .initial evs ∧
      (touchHandleInput smallScreen lifted reportEvent).cleared = true ∧
      (Panel.initial.after (twoFingers ++ [reportEvent])).first = some 0 ∧
      0 ∈ (Panel.initial.after (twoFingers ++ [reportEvent])).live ∧
      (Panel.initial.after evs).live = ∅ ∧ (handleAll smallScreen smallPanel evs).slotCountActive = 1 := by
  decide

end Touch
end Ui
end Recovery
