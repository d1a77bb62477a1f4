/-
# The queue of keys (ui.c)

The input thread puts keys into `key_queue`, `ui_cancel_wait_key` puts a mark there, and
`ui_wait_key` takes them out. A step is one section under `key_queue_mutex`; threads that
interleave give some list of sections. What `device_reboot_now` does is left out. `KEY_MAX`
and the repeatable keys are arguments.

Key theorem: `queue_sound`.
-/
import Mathlib.Logic.Function.Basic
import Recovery.Bytes

namespace Recovery
namespace Ui
namespace KeyQueue

/-! ### The state -/

def queueMax : ℕ := 256

structure Keys where
  keyQueue : ℕ → ℤ
  keyQueueLen : ℕ
  keyPressed : ℕ → ℤ
  keyPressTime : ℕ → ℕ
  keyLastRepeat : ℕ → ℕ
  enableKeyRepeat : Bool
  relSum : ℤ

/-- The static variables. `ui_init` sets `boardEnableKeyRepeat`. -/
def Keys.initial (enableKeyRepeat : Bool) : Keys := ⟨fun _ => 0, 0, fun _ => 0, fun _ => 0, fun _ => 0, enableKeyRepeat, 0⟩

def Keys.contents (k : Keys) : List ℤ := (List.range k.keyQueueLen).map k.keyQueue

def Keys.push (key : ℤ) (k : Keys) : Keys :=
  { k with keyQueue := Function.update k.keyQueue k.keyQueueLen key, keyQueueLen := k.keyQueueLen + 1 }

def pushKey (key : ℤ) (k : Keys) : Except Stop Keys := do
  failIf (queueMax ≤ k.keyQueueLen) .fault
  .ok (k.push key)

/-- The `memcpy` of all keys but the first. -/
def Keys.pop (k : Keys) : Keys :=
  { k with
    keyQueue := fun i => if i + 1 < k.keyQueueLen then k.keyQueue (i + 1) else k.keyQueue i
    keyQueueLen := k.keyQueueLen - 1 }

/-- The first key. The `memcpy` reads up to `key_queue_len`. -/
def popKey (k : Keys) : Except Stop (ℤ × Keys) := do
  failIf (queueMax < k.keyQueueLen) .fault
  .ok (k.keyQueue 0, k.pop)

/-! ### Events -/

structure InputEvent where
  type : ℕ
  code : ℕ
  value : ℤ

def evSyn : ℕ := 0
def evKey : ℕ := 1
def evRel : ℕ := 2
def relY : ℕ := 1
def keyUp : ℕ := 103
def keyDown : ℕ := 108

/-- The trackball: whether the event became a key of its own, the event, and `rel_sum`. -/
def trackball (ev : InputEvent) (relSum : ℤ) : Bool × InputEvent × ℤ :=
  if ev.type = evSyn then (false, ev, relSum)
  else if ev.type = evRel then
    if ev.code = relY then
      let relSum := relSum + ev.value
      if 3 < relSum then (true, ⟨evKey, keyDown, 1⟩, 0)
      else if relSum < -3 then (true, ⟨evKey, keyUp, 1⟩, 0)
      else (false, ev, relSum)
    else (false, ev, relSum)
  else (false, ev, 0)

/-- What is noted of a key before it is queued. `key_pressed` is an array of `char`. -/
def noteKey (fakeKey : Bool) (ev : InputEvent) (k : Keys) : Keys :=
  { k with
    enableKeyRepeat := k.enableKeyRepeat && ev.value ≠ 2
    keyPressed := if fakeKey then k.keyPressed else Function.update k.keyPressed ev.code (ev.value % 256) }

/-- What a section does, as seen from outside. -/
inductive Effect
  | silent
  | accepted (key : ℤ)
  | returned (key : ℤ)
  /-- `ui_wait_key` comes back with `-1` or `REFRESH` and has taken no key. -/
  | noKey (answer : ℤ)
  | cleared
  deriving DecidableEq

variable (keyMax : ℕ) (repeatable : List ℤ)

/-- The key is put into the queue; `now` is in milliseconds. -/
def acceptKey (code now : ℕ) (k : Keys) : Except Stop (Effect × Keys) := do
  let k ← pushKey code k
  .ok (.accepted code,
    if k.enableKeyRepeat then
      { k with keyPressTime := Function.update k.keyPressTime code now, keyLastRepeat := Function.update k.keyLastRepeat code 0 }
    else k)

def inputCallback (ev : InputEvent) (now : ℕ) (k : Keys) : Except Stop (Effect × Keys) :=
  let (fakeKey, ev, relSum) := trackball ev k.relSum
  let k := { k with relSum := relSum }
  if ev.type ≠ evKey ∨ keyMax < ev.code then .ok (.silent, k)
  else
    let k := noteKey fakeKey ev k
    if 0 < ev.value ∧ k.keyQueueLen < queueMax then acceptKey ev.code now k else .ok (.silent, k)

/-- `ui_cancel_wait_key`, which does not look at the length. -/
def uiCancelWaitKey (k : Keys) : Except Stop (Effect × Keys) := do
  let k ← pushKey (-2) k
  .ok (.accepted (-2), k)

def uiClearKeyQueue (k : Keys) : Keys := { k with keyQueueLen := 0 }

/-! ### Waiting -/

/-- The end of `ui_wait_key`, when it does not wait any longer. -/
def waitSection (k : Keys) : Except Stop (Effect × Keys) :=
  if 0 < k.keyQueueLen then do
    let (key, k) ← popKey k
    .ok (.returned key, k)
  else .ok (.noKey (-1), k)

/-- `now` is far enough from the press and from the last repeat. The sums are `unsigned long`. -/
def readyToRepeat (key now : ℕ) (k : Keys) : Bool :=
  ((k.keyPressTime key + 400) % 2 ^ 32 < now && (k.keyLastRepeat key + 80) % 2 ^ 32 < now) || k.keyLastRepeat key == 0

/-- A key that is still down goes back into the queue. -/
def putBack (key : ℕ) (k : Keys) : Except Stop Keys := if k.keyPressed key = 0 then .ok k else pushKey key k

def repeatKey (key now : ℕ) (k : Keys) : Except Stop (Effect × Keys) := do
  let k ← putBack key k
  if readyToRepeat key now k then
    .ok (.returned key, { k with keyLastRepeat := Function.update k.keyLastRepeat key now })
  else .ok (.silent, k)

/-- What `ui_wait_key_with_repeat` does with a key it took. -/
def takeKey (key now : ℕ) (k : Keys) : Except Stop (Effect × Keys) :=
  if k.keyPressed key = 0 ∧ 0 < k.keyLastRepeat key then .ok (.silent, k)
  else if (key : ℤ) ∈ repeatable then repeatKey key now k
  else .ok (.returned key, k)

/-- One round of the inner loop of `ui_wait_key_with_repeat`. -/
def repeatSection (now : ℕ) (k : Keys) : Except Stop (Effect × Keys) :=
  if k.keyQueueLen = 0 then .ok (.silent, k)
  else do
    let (key, k) ← popKey k
    if key < 0 then .ok (.returned key, k)
    else if (keyMax : ℤ) < key then .error .fault
    else takeKey repeatable key.toNat now k

/-! ### Sections of all threads -/

inductive Section
  | input (ev : InputEvent) (now : ℕ)
  | cancel
  | wait
  /-- Either waiting function comes back because volumes changed (`-3`). -/
  | refresh
  /-- `ui_wait_key_with_repeat` gives up (`-1`). -/
  | giveUp
  | repeatRound (now : ℕ)
  | clear

def Section.repeats : Section → Bool
  | .repeatRound _ => true
  | _ => false

def runSection : Section → Keys → Except Stop (Effect × Keys)
  | .input ev now, k => inputCallback keyMax ev now k
  | .cancel, k => uiCancelWaitKey k
  | .wait, k => waitSection k
  | .refresh, k => .ok (.noKey (-3), k)
  | .giveUp, k => .ok (.noKey (-1), k)
  | .repeatRound now, k => repeatSection keyMax repeatable now k
  | .clear, k => .ok (.cleared, uiClearKeyQueue k)

def runSections : List Section → Keys → Except Stop (List Effect × Keys)
  | [], k => .ok ([], k)
  | s :: rest, k => do
    let (e, k) ← runSection keyMax repeatable s k
    let (trace, k) ← runSections rest k
    .ok (e :: trace, k)

/-! ### First in, first out -/

/-- A queue: what an effect does to the keys that wait. -/
inductive Fifo : Effect → List ℤ → List ℤ → Prop
  | silent (q) : Fifo .silent q q
  | accepted (key q) : Fifo (.accepted key) q (q ++ [key])
  | returned (key q) : Fifo (.returned key) (key :: q) q
  | noKey (answer q) : Fifo (.noKey answer) q q
  | cleared (q) : Fifo .cleared q []

/-- The keys that were accepted and those that were returned since the last clear. -/
structure Ledger where
  accepted : List ℤ
  returned : List ℤ
  deriving DecidableEq

def Ledger.enter (l : Ledger) : Effect → Ledger
  | .accepted key => { l with accepted := l.accepted ++ [key] }
  | .returned key => { l with returned := l.returned ++ [key] }
  | .cleared => ⟨[], []⟩
  | .silent => l
  | .noKey _ => l

def ledger (trace : List Effect) : Ledger := trace.foldl Ledger.enter ⟨[], []⟩

/-- What was accepted is what was returned, and then what waits. -/
def Ledger.Balanced (l : Ledger) (q : List ℤ) : Prop := l.accepted = l.returned ++ q

theorem Ledger.Balanced.enter {l : Ledger} {e : Effect} {q q' : List ℤ} (hl : l.Balanced q) (he : Fifo e q q') :
    (l.enter e).Balanced q' := by
  unfold Ledger.Balanced at *
  cases he with
  | silent => exact hl
  | accepted key => simp [Ledger.enter, hl]
  | returned key => simp [Ledger.enter, hl]
  | noKey answer => exact hl
  | cleared => rfl

/-! ### The array holds the queue -/

/-- The length is that of a queue, and the tables have an entry for every key. -/
structure Sound (k : Keys) : Prop where
  len_le : k.keyQueueLen ≤ queueMax
  key_le : ∀ key ∈ k.contents, key ≤ (keyMax : ℤ)

theorem sound_initial (enableKeyRepeat : Bool) : Sound keyMax (Keys.initial enableKeyRepeat) :=
  ⟨Nat.zero_le _, fun _ hkey => absurd hkey List.not_mem_nil⟩

variable {keyMax repeatable} {k : Keys}

theorem Sound.of_queue {k' : Keys} (hk : Sound keyMax k) (hqueue : k'.keyQueue = k.keyQueue)
    (hlen : k'.keyQueueLen = k.keyQueueLen) : Sound keyMax k' := by
  refine ⟨hlen ▸ hk.len_le, ?_⟩
  unfold Keys.contents
  rw [hqueue, hlen]
  exact hk.key_le

theorem contents_push (key : ℤ) (k : Keys) : (k.push key).contents = k.contents ++ [key] := by
  simp only [Keys.contents, Keys.push, List.range_succ, List.map_append, List.map_singleton, Function.update_self]
  congr 1
  apply List.map_congr_left
  intro i hi
  exact Function.update_of_ne (List.mem_range.mp hi).ne _ _

theorem contents_pop (hpos : 0 < k.keyQueueLen) : k.contents = k.keyQueue 0 :: k.pop.contents := by
  obtain ⟨n, hn⟩ := Nat.exists_eq_add_one.mpr hpos
  simp only [Keys.contents, Keys.pop, hn, List.range_succ_eq_map, List.map_cons, List.map_map]
  congr 1
  apply List.map_congr_left
  intro i hi
  exact (if_pos (Nat.succ_lt_succ (List.mem_range.mp hi))).symm

theorem pushKey_ok (key : ℤ) (hroom : k.keyQueueLen < queueMax) : pushKey key k = .ok (k.push key) := by
  rw [pushKey, failIf_bind, if_neg (Nat.not_le.mpr hroom)]

theorem popKey_ok (hk : Sound keyMax k) : popKey k = .ok (k.keyQueue 0, k.pop) := by
  rw [popKey, failIf_bind, if_neg (Nat.not_lt.mpr hk.len_le)]

theorem Sound.push {key : ℤ} (hk : Sound keyMax k) (hroom : k.keyQueueLen < queueMax) (hkey : key ≤ (keyMax : ℤ)) :
    Sound keyMax (k.push key) := by
  refine ⟨hroom, fun x hx => ?_⟩
  rw [contents_push] at hx
  rcases List.mem_append.mp hx with hx | hx
  · exact hk.key_le x hx
  · exact (List.mem_singleton.mp hx).trans_le hkey

theorem Sound.pop (hk : Sound keyMax k) (hpos : 0 < k.keyQueueLen) : Sound keyMax k.pop := by
  refine ⟨(Nat.sub_le _ _).trans hk.len_le, fun key hkey => hk.key_le key ?_⟩
  rw [contents_pop hpos]
  exact List.mem_cons_of_mem _ hkey

theorem Sound.room_of_pop (hk : Sound keyMax k) (hpos : 0 < k.keyQueueLen) : k.pop.keyQueueLen < queueMax :=
  (Nat.sub_lt hpos one_pos).trans_le hk.len_le

/-! ### Sections -/

/-- The section ran, the queue is sound, and unless keys repeat it made a step. -/
def Kept (keyMax : ℕ) (repeats : Bool) (k : Keys) (r : Except Stop (Effect × Keys)) : Prop :=
  ∃ e k', r = .ok (e, k') ∧ Sound keyMax k' ∧ (repeats = false → Fifo e k.contents k'.contents)

theorem acceptKey_kept {code now : ℕ} (hk : Sound keyMax k) (hroom : k.keyQueueLen < queueMax) (hcode : code ≤ keyMax) :
    Kept keyMax false k (acceptKey code now k) := by
  have hpush := hk.push hroom (Int.ofNat_le.mpr hcode)
  have hfifo : Fifo (.accepted code) k.contents (k.push code).contents := contents_push code k ▸ .accepted _ _
  rw [acceptKey, pushKey_ok _ hroom, ok_bind]
  split_ifs
  · exact ⟨_, _, rfl, hpush.of_queue rfl rfl, fun _ => hfifo⟩
  · exact ⟨_, _, rfl, hpush, fun _ => hfifo⟩

theorem inputCallback_kept (ev : InputEvent) (now : ℕ) (hk : Sound keyMax k) :
    Kept keyMax false k (inputCallback keyMax ev now k) := by
  unfold inputCallback
  rcases trackball ev k.relSum with ⟨fakeKey, ev', relSum⟩
  dsimp only
  split_ifs with hout hroom
  · exact ⟨_, _, rfl, hk.of_queue rfl rfl, fun _ => .silent _⟩
  · exact acceptKey_kept (k := noteKey fakeKey ev' { k with relSum := relSum }) (hk.of_queue rfl rfl) hroom.2
      (Nat.not_lt.mp (not_or.mp hout).2)
  · exact ⟨_, _, rfl, hk.of_queue rfl rfl, fun _ => .silent _⟩

theorem uiCancelWaitKey_kept (hk : Sound keyMax k) (hroom : k.keyQueueLen < queueMax) : Kept keyMax false k (uiCancelWaitKey k) := by
  rw [uiCancelWaitKey, pushKey_ok _ hroom, ok_bind]
  exact ⟨_, _, rfl, hk.push hroom (by omega), fun _ => contents_push (-2) k ▸ .accepted _ _⟩

theorem waitSection_kept (hk : Sound keyMax k) : Kept keyMax false k (waitSection k) := by
  unfold waitSection
  split_ifs with hpos
  · rw [popKey_ok hk]
    exact ⟨_, _, rfl, hk.pop hpos, fun _ => contents_pop hpos ▸ .returned _ _⟩
  · exact ⟨_, k, rfl, hk, fun _ => .noKey _ _⟩

theorem kept_of_sound {k₀ : Keys} {e : Effect} (hk : Sound keyMax k) : Kept keyMax true k₀ (.ok (e, k)) :=
  ⟨e, k, rfl, hk, fun h => Bool.noConfusion h⟩

theorem repeatKey_kept {key now : ℕ} {k₀ : Keys} (hk : Sound keyMax k) (hroom : k.keyQueueLen < queueMax) (hkey : key ≤ keyMax) :
    Kept keyMax true k₀ (repeatKey key now k) := by
  have hback : ∃ k', putBack key k = .ok k' ∧ Sound keyMax k' := by
    unfold putBack
    split_ifs
    · exact ⟨k, rfl, hk⟩
    · exact ⟨k.push key, pushKey_ok _ hroom, hk.push hroom (Int.ofNat_le.mpr hkey)⟩
  obtain ⟨k', hk', hsound⟩ := hback
  rw [repeatKey, hk', ok_bind]
  split_ifs
  · exact kept_of_sound (hsound.of_queue rfl rfl)
  · exact kept_of_sound hsound

theorem repeatSection_kept (now : ℕ) (hk : Sound keyMax k) : Kept keyMax true k (repeatSection keyMax repeatable now k) := by
  unfold repeatSection
  by_cases hlen : k.keyQueueLen = 0
  · rw [if_pos hlen]
    exact kept_of_sound hk
  have hpos := Nat.pos_of_ne_zero hlen
  have hkey : k.keyQueue 0 ≤ (keyMax : ℤ) := hk.key_le _ (contents_pop hpos ▸ List.mem_cons_self)
  simp only [if_neg hlen, popKey_ok hk, ok_bind, if_neg (not_lt.mpr hkey), takeKey]
  split_ifs
  · exact kept_of_sound (hk.pop hpos)
  · exact kept_of_sound (hk.pop hpos)
  · exact repeatKey_kept (hk.pop hpos) (hk.room_of_pop hpos) (Int.toNat_le.mpr hkey)
  · exact kept_of_sound (hk.pop hpos)

/-- **One section** stays inside of the arrays if there is room for the mark of `ui_cancel_wait_key`. -/
theorem runSection_kept (repeatable : List ℤ) (s : Section) (hk : Sound keyMax k) (hroom : s = .cancel → k.keyQueueLen < queueMax) :
    Kept keyMax s.repeats k (runSection keyMax repeatable s k) := by
  cases s with
  | input ev now => exact inputCallback_kept ev now hk
  | cancel => exact uiCancelWaitKey_kept hk (hroom rfl)
  | wait => exact waitSection_kept hk
  | refresh => exact ⟨_, k, rfl, hk, fun _ => .noKey _ _⟩
  | giveUp => exact ⟨_, k, rfl, hk, fun _ => .noKey _ _⟩
  | repeatRound now => exact repeatSection_kept now hk
  | clear => exact ⟨_, _, rfl, ⟨Nat.zero_le _, fun _ hkey => absurd hkey List.not_mem_nil⟩, fun _ => .cleared _⟩

/-! ### Runs -/

/-- Whether `ui_cancel_wait_key` finds room each time it is called. -/
def roomForMarks (keyMax : ℕ) (repeatable : List ℤ) : List Section → Keys → Bool
  | [], _ => true
  | s :: rest, k =>
    (match s with
      | .cancel => decide (k.keyQueueLen < queueMax)
      | _ => true) &&
    match runSection keyMax repeatable s k with
    | .ok (_, k) => roomForMarks keyMax repeatable rest k
    | .error _ => true

theorem runSections_kept : ∀ {sections : List Section} {k : Keys} {l : Ledger}, Sound keyMax k →
    roomForMarks keyMax repeatable sections k = true →
    ∃ trace k', runSections keyMax repeatable sections k = .ok (trace, k') ∧ Sound keyMax k' ∧
      ((∀ s ∈ sections, s.repeats = false) → l.Balanced k.contents → (trace.foldl Ledger.enter l).Balanced k'.contents)
  | [], k, l, hk, _ => ⟨[], k, rfl, hk, fun _ hl => hl⟩
  | s :: rest, k, l, hk, hmarks => by
    have hroom : s = .cancel → k.keyQueueLen < queueMax := by
      rintro rfl
      exact of_decide_eq_true (Bool.and_eq_true_iff.mp hmarks).1
    obtain ⟨e, k₁, hrun, hk₁, hfifo⟩ := runSection_kept repeatable s hk hroom
    have hmarks₁ : roomForMarks keyMax repeatable rest k₁ = true := by
      have hrest := (Bool.and_eq_true_iff.mp hmarks).2
      rwa [hrun] at hrest
    obtain ⟨trace, k', hruns, hk', hbalanced⟩ := runSections_kept (l := l.enter e) hk₁ hmarks₁
    refine ⟨e :: trace, k', by simp only [runSections, hrun, hruns, ok_bind], hk', fun hno hl => ?_⟩
    exact hbalanced (fun s' hs' => hno s' (List.mem_cons_of_mem _ hs')) (hl.enter (hfifo (hno s List.mem_cons_self)))

/-- **The queue of keys.** Whatever the order of the sections: as long as `ui_cancel_wait_key` is not called while the queue
is full, every access is inside of its array and the queue has at most 256 keys. Without key repeat, the keys that were
accepted since the last clear are those that were returned and then those that wait, in this order. -/
theorem queue_sound (keyMax : ℕ) (repeatable : List ℤ) (enableKeyRepeat : Bool) (sections : List Section)
    (hmarks : roomForMarks keyMax repeatable sections (Keys.initial enableKeyRepeat) = true) :
    ∃ trace k, runSections keyMax repeatable sections (Keys.initial enableKeyRepeat) = .ok (trace, k) ∧
      k.keyQueueLen ≤ queueMax ∧
      ((∀ s ∈ sections, s.repeats = false) → (ledger trace).accepted = (ledger trace).returned ++ k.contents) := by
  obtain ⟨trace, k, hrun, hk, hbalanced⟩ :=
    runSections_kept (l := ⟨[], []⟩) (sound_initial keyMax enableKeyRepeat) hmarks
  exact ⟨trace, k, hrun, hk.len_le, fun hno => hbalanced hno rfl⟩

/-- A key is pressed, waiting is cancelled, and both are returned. -/
def pressThenCancel : List Section := [.input ⟨evKey, keyDown, 1⟩ 0, .cancel, .wait, .input ⟨evKey, keyUp, 1⟩ 0, .wait]

theorem queue_sound_pressThenCancel :
    roomForMarks 511 [] pressThenCancel (Keys.initial false) = true ∧
    ∃ trace k, runSections 511 [] pressThenCancel (Keys.initial false) = .ok (trace, k) ∧ k.keyQueueLen ≤ queueMax ∧
      ((∀ s ∈ pressThenCancel, s.repeats = false) → (ledger trace).accepted = (ledger trace).returned ++ k.contents) :=
  ⟨by decide +kernel, queue_sound 511 [] false pressThenCancel (by decide +kernel)⟩

def pressMany : List Section := List.replicate queueMax (.input ⟨evKey, keyDown, 1⟩ 0)

/-- **`ui_cancel_wait_key` on a full queue writes behind the array.** -/
theorem cancel_overruns :
    (runSections 511 [] pressMany (Keys.initial false)).map (fun r => r.2.keyQueueLen) = .ok queueMax ∧
    (runSections 511 [] (pressMany ++ [.cancel]) (Keys.initial false)).map (fun r => r.2.keyQueueLen) = .error .fault := by
  decide +kernel

end KeyQueue
end Ui
end Recovery
