/-
# A command is not lost

Once `get_args` has written the arguments to the message, the recovery finds the same ones
after every crash (`getArgs_restartable`), until another message is set. An update with
firmware does so early (`handOff_replaces`).
-/
import Recovery.Boot.Message

namespace Recovery

namespace Boot

open Zip (cstr)

/-! ### Arguments -/

def IsArg (a : CString) : Prop := a.bytes ≠ [] ∧ 0x0a ∉ a.bytes

theorem isArg_of_token {delim : UInt8 → Bool} {k : ℕ} {s t : Bytes} (hdelim : delim 0x0a = true) (hs : 0 ∉ s)
    (h : t ∈ tokens delim k s) : IsArg (.of t) := by
  obtain ⟨hne, hno, hsub⟩ := mem_tokens h
  unfold IsArg
  rw [CString.of_bytes_eq fun h0 => hs (hsub 0 h0)]
  refine ⟨hne, fun hm => ?_⟩
  rw [hno _ hm] at hdelim
  cases hdelim

theorem fileArgs_isArg : ∀ {fuel k : ℕ} {file : Bytes}, ∀ a ∈ fileArgs fuel k file, IsArg a
  | 0, _, _ => by simp [fileArgs]
  | _ + 1, 0, _ => by simp [fileArgs]
  | fuel + 1, k + 1, file => by
    intro a ha
    rw [fileArgs] at ha
    split at ha
    · cases ha
    · next line rest hline =>
      split at ha
      · exact fileArgs_isArg a ha
      · next token _ htok =>
        rcases List.mem_cons.mp ha with rfl | ha
        · exact isArg_of_token rfl (cstr_no_nul line) (htok ▸ List.mem_cons_self)
        · exact fileArgs_isArg a ha

theorem fileArgs_length : ∀ {fuel k : ℕ} {file : Bytes}, (fileArgs fuel k file).length ≤ k
  | 0, _, _ => by simp [fileArgs]
  | _ + 1, 0, _ => by simp [fileArgs]
  | fuel + 1, k + 1, file => by
    rw [fileArgs]
    split
    · simp
    · split
      · exact fileArgs_length
      · exact Nat.succ_le_succ fileArgs_length

/-! ### The arguments in a message -/

theorem messageArgs_some {r : Buffer 1024} {args : List CString} {b : Buffer 1024} :
    messageArgs r = (some args, b) ↔ Buffer.strtoks isNewline maxArgs (r.set 1023 0) 0 = (str "recovery" :: args, b) := by
  rw [show maxArgs = maxArgs - 1 + 1 from rfl, messageArgs, Buffer.strtoks]
  rcases Buffer.strtok isNewline (r.set 1023 0) 0 with ⟨_ | ⟨arg, pos⟩, b₁⟩
  · simp
  · simp only [strcmp_eq_zero arg.no_nul (str "recovery").no_nul]
    by_cases h : arg = str "recovery"
    · simp [h, Prod.ext_iff]
    · simp [h, ← CString.ext_iff]

theorem messageArgs_kept {r : Buffer 1024} {j : ℕ} (hj : (cstr (r.set 1023 0).bytes).length ≤ j) :
    (messageArgs r).2.bytes.drop j = (r.set 1023 0).bytes.drop j := by
  rw [messageArgs]
  cases htok : Buffer.nextToken isNewline (cstr (r.set 1023 0).bytes) with | mk tok stop =>
  obtain ⟨-, heq⟩ | ⟨-, pos, b, heq, hs, hpos, hkept⟩ := Buffer.strtok_spec (r.set 1023 0) 0 rfl htok
  · rw [heq]
  · have hb : b.bytes.drop j = (r.set 1023 0).bytes.drop j := hkept j (by simpa using hj)
    rw [heq]
    dsimp only
    split_ifs
    · rw [← hb]
      apply (Buffer.strtoks_spec isNewline (maxArgs - 1) b pos).2
      rw [hs, hpos]
      simpa using hj
    · exact hb

theorem set_last (r : Buffer 1024) : (r.set 1023 0).bytes = r.bytes.take 1023 ++ [0] := by
  have hlen := r.length_eq
  show r.bytes.set 1023 0 = _
  rw [List.set_eq_take_append_cons_drop, if_pos (by omega), List.drop_of_length_le (by omega)]

theorem string_length_le (r : Buffer 1024) : (cstr (r.set 1023 0).bytes).length ≤ 1023 := by
  rw [set_last]
  unfold cstr
  rw [List.takeWhile_append]
  split_ifs
  · simp
  · exact (List.takeWhile_sublist _).length_le.trans (List.length_take_le _ _)

theorem messageArgs_last (r : Buffer 1024) : (messageArgs r).2.bytes.drop 1023 = [0] := by
  have hlen : (r.bytes.take 1023).length = 1023 := by rw [List.length_take, r.length_eq]; rfl
  rw [messageArgs_kept (string_length_le r), set_last, List.drop_append, List.drop_of_length_le hlen.le, hlen]
  rfl

theorem messageArgs_isArg {r b : Buffer 1024} {args : List CString} (h : messageArgs r = (some args, b)) :
    args.length ≤ maxArgs - 1 ∧ ∀ a ∈ args, IsArg a := by
  rw [messageArgs_some] at h
  have htoks := (Buffer.strtoks_spec isNewline maxArgs (r.set 1023 0) 0).1
  rw [h] at htoks
  constructor
  · have hlen := congrArg List.length htoks
    have hle : (tokens isNewline maxArgs (cstr ((r.set 1023 0).bytes.drop 0))).length ≤ maxArgs := tokens_length
    rw [List.length_cons, List.length_map] at hlen
    omega
  · intro a ha
    have hmem : a ∈ (tokens isNewline maxArgs (cstr ((r.set 1023 0).bytes.drop 0))).map .of :=
      htoks ▸ List.mem_cons_of_mem _ ha
    obtain ⟨t, ht, rfl⟩ := List.mem_map.mp hmem
    exact isArg_of_token rfl (cstr_no_nul _) ht

/-! ### Messages that restart the recovery -/

/-- The message starts the recovery with these arguments. -/
structure Restarts (m : BootloaderMessage) (args : List CString) : Prop where
  command : m.command.Holds (str "boot-recovery").bytes m.command
  recovery : m.recovery.Holds ((Buffer.lines (str "recovery" :: args)).take 1023) m.recovery
  last : m.recovery.bytes.drop 1023 = [0]

theorem Restarts.boots {m : BootloaderMessage} {args : List CString} (h : Restarts m args) : m.boots = .recovery := by
  have hcommand : m.command.string = str "boot-recovery" := CString.ext h.command.string
  rw [BootloaderMessage.boots, if_pos hcommand]

theorem holds_command (b : Buffer 32) :
    (b.strlcpy (str "boot-recovery") 32 (by decide)).Holds (str "boot-recovery").bytes b :=
  Buffer.holds_strlcpy b (str "boot-recovery") (by decide)

theorem holds_recovery (b : Buffer 1024) (args : List CString) :
    ((b.strlcpy (str "recovery\n") 1024 (by decide)).catLines args).Holds
      ((Buffer.lines (str "recovery" :: args)).take 1023) b :=
  (Buffer.holds_strlcpy b (str "recovery\n") (by decide)).catLines args

theorem restarts_restartMessage {boot : BootloaderMessage} {recovery : Buffer 1024} {args : List CString}
    (hlast : recovery.bytes.drop 1023 = [0]) : Restarts (restartMessage boot recovery args) args := by
  have hrec := holds_recovery recovery args
  refine ⟨(holds_command boot.command).self, hrec.self, ?_⟩
  by_cases hlen : ((Buffer.lines (str "recovery" :: args)).take 1023).length < 1023
  · exact (hrec.drop hlen).trans hlast
  · -- the string ends at the last byte
    have hlen : ((Buffer.lines (str "recovery" :: args)).take 1023).length = 1023 :=
      le_antisymm (List.length_take_le _ _) (not_lt.mp hlen)
    have hb : (restartMessage boot recovery args).recovery.bytes = _ := hrec.2.2
    rw [hb, List.drop_append, List.drop_of_length_le hlen.le, hlen, List.drop_of_length_le recovery.length_eq.le]
    rfl

section

variable {m : BootloaderMessage} {args : List CString}

theorem Restarts.terminated (h : Restarts m args) : m.recovery.set 1023 0 = m.recovery := by
  apply Buffer.ext
  rw [set_last, ← h.last, List.take_append_drop]

theorem Restarts.messageArgs (h : Restarts m args) (hlen : args.length ≤ maxArgs - 1) (hargs : ∀ a ∈ args, IsArg a)
    (hfit : (Buffer.lines (str "recovery" :: args)).length ≤ 1024) : ∃ b, Boot.messageArgs m.recovery = (some args, b) := by
  have hs : cstr (m.recovery.bytes.drop 0) = (Buffer.lines (str "recovery" :: args)).take 1023 := h.recovery.string
  have htoks := (Buffer.strtoks_spec isNewline maxArgs m.recovery 0).1
  rw [hs] at htoks
  have hlines : tokens isNewline maxArgs ((Buffer.lines (str "recovery" :: args)).take 1023) =
      (str "recovery" :: args).map CString.bytes := by
    apply tokens_lines
    · exact Nat.succ_le_succ hlen
    · exact hfit
    · intro a ha
      rcases List.mem_cons.mp ha with rfl | ha
      · decide
      · exact hargs a ha
  rw [hlines, List.map_map, show CString.of ∘ CString.bytes = id from funext CString.of_bytes, List.map_id] at htoks
  refine ⟨(Buffer.strtoks isNewline maxArgs m.recovery 0).2, messageArgs_some.mpr ?_⟩
  rw [h.terminated, ← htoks]

theorem Restarts.again (h : Restarts m args) : restartMessage m (Boot.messageArgs m.recovery).2 args = m := by
  have hcommand : m.command.strlcpy (str "boot-recovery") 32 (by decide) = m.command :=
    (holds_command m.command).unique h.command rfl
  have hrecovery : ((Boot.messageArgs m.recovery).2.strlcpy (str "recovery\n") 1024 (by decide)).catLines args = m.recovery := by
    apply (holds_recovery _ args).unique h.recovery
    have hs : cstr m.recovery.bytes = (Buffer.lines (str "recovery" :: args)).take 1023 := h.recovery.string
    rw [messageArgs_kept (by rw [h.terminated, hs]; exact Nat.le_succ _), h.terminated]
  rw [restartMessage, hcommand, hrecovery]

end

/-! ### Runs -/

def Works (e : Ev) : Prop := e.fails = false

def commandArgs (d : Device) : List CString := (d.commandFile.map fun file => fileArgs file.length (maxArgs - 1) file).getD []

/-- The arguments without a command line, and what is left of the message. -/
def argsFound (argv0 : CString) (d : Device) : CString × List CString × Buffer 1024 :=
  let (name, args, recovery) := argsOrMessage argv0 [] false d.bcb.recovery
  (name, if args = [] then commandArgs d else args, recovery)

theorem call_sat {α : Type} {f : Ev → Device → α × Device} {d d' : Device} {a : α} (h : ∀ e, Works e → f e d = (a, d')) :
    Crash.Sat Works (Crash.call (machine Device) f : Run α) d (fun r s => r = a ∧ s = d') (fun _ _ => False) fun s => s = d := by
  refine Crash.Sat.call (fun e _ _ => rfl) fun e he _ => ?_
  rw [h e he]
  exact ⟨rfl, rfl⟩

theorem getBootloaderMessage_sat (d : Device) : Crash.Sat Works getBootloaderMessage d (fun r s => r = some d.bcb ∧ s = d)
    (fun _ _ => False) fun s => s = d := by
  refine call_sat fun e he => ?_
  rw [show e.fails = false from he]
  rfl

theorem setBootloaderMessage_sat (boot : BootloaderMessage) (d : Device) : Crash.Sat Works (setBootloaderMessage boot) d
    (fun r s => r = true ∧ s = { d with bcb := boot }) (fun _ _ => False) fun s => s = d := by
  refine call_sat fun e he => ?_
  rw [show e.fails = false from he]
  rfl

theorem argsOrFile_sat (args : List CString) (d : Device) : Crash.Sat Works (argsOrFile args) d
    (fun r s => r = (if args = [] then commandArgs d else args) ∧ s = d) (fun _ _ => False) fun s => s = d := by
  rw [argsOrFile]
  by_cases hargs : args = []
  · rw [if_pos hargs, if_pos hargs]
    have hopen : Crash.Sat Works openCommandFile d (fun r s => r = d.commandFile ∧ s = d) (fun _ _ => False) fun s => s = d := by
      refine call_sat fun e he => ?_
      rw [show e.fails = false from he]
      rfl
    refine hopen.step ?_
    intro r s ⟨hr, hs⟩
    subst hr hs
    rw [commandArgs]
    cases s.commandFile with
    | none => exact .pure ⟨hargs, rfl⟩
    | some file => exact .pure ⟨rfl, rfl⟩
  · rw [if_neg hargs, if_neg hargs]
    exact .pure ⟨rfl, rfl⟩

/-- **What `get_args` does**: a crash changes nothing, and else the message is written. -/
theorem getArgs_sat (argv0 : CString) {d : Device} (hd : d.ignoreBootMessage = false) :
    Crash.Sat Works (getArgs argv0 []) d
      (fun r s => r = ((argsFound argv0 d).1, (argsFound argv0 d).2.1) ∧
        s = { d with bcb := restartMessage d.bcb (argsFound argv0 d).2.2 (argsFound argv0 d).2.1 })
      (fun _ _ => False) fun s => s = d := by
  refine (getBootloaderMessage_sat d).step ?_
  intro message s ⟨hm, hs⟩
  subst hm hs
  have hstat : Crash.Sat Works statIgnoreBootMessage s (fun r s' => r = false ∧ s' = s) (fun _ _ => False) fun s' => s' = s :=
    call_sat fun _ _ => by rw [hd]
  refine hstat.step ?_
  intro ignored s' ⟨hi, hs⟩
  subst hi hs
  rw [argsFound]
  dsimp only [Option.getD_some]
  refine (argsOrFile_sat _ s').step ?_
  intro args s ⟨ha, hs⟩
  subst ha hs
  refine (setBootloaderMessage_sat _ s).step ?_
  intro _ s' ⟨_, hs⟩
  exact .pure ⟨rfl, hs⟩

/-- The arguments that are found are tokens, and the last byte of the message is 0. -/
theorem argsFound_spec (argv0 : CString) (d : Device) : (argsFound argv0 d).2.1.length ≤ maxArgs - 1 ∧
    (∀ a ∈ (argsFound argv0 d).2.1, IsArg a) ∧ (argsFound argv0 d).2.2.bytes.drop 1023 = [0] := by
  have hfile : (commandArgs d).length ≤ maxArgs - 1 ∧ ∀ a ∈ commandArgs d, IsArg a := by
    rw [commandArgs]
    cases d.commandFile with
    | none => simp
    | some file => exact ⟨fileArgs_length, fileArgs_isArg⟩
  have hlast := messageArgs_last d.bcb.recovery
  rw [argsFound, argsOrMessage, if_pos ⟨rfl, rfl⟩]
  rcases hm : messageArgs d.bcb.recovery with ⟨_ | args, b⟩
  · rw [hm] at hlast
    exact ⟨hfile.1, hfile.2, hlast⟩
  · rw [hm] at hlast
    dsimp only
    by_cases hargs : args = []
    · rw [if_pos hargs]
      exact ⟨hfile.1, hfile.2, hlast⟩
    · rw [if_neg hargs]
      exact ⟨(messageArgs_isArg hm).1, (messageArgs_isArg hm).2, hlast⟩

theorem Restarts.getArgs {d : Device} {args : List CString} (h : Restarts d.bcb args) (argv0 : CString)
    (hd : d.ignoreBootMessage = false) (hne : args ≠ []) (hlen : args.length ≤ maxArgs - 1) (hargs : ∀ a ∈ args, IsArg a)
    (hfit : (Buffer.lines (str "recovery" :: args)).length ≤ 1024) :
    Crash.Sat Works (Boot.getArgs argv0 []) d (fun r s => r = (str "recovery", args) ∧ s = d) (fun _ _ => False) fun s => s = d := by
  obtain ⟨b, hm⟩ := h.messageArgs hlen hargs hfit
  have hfound : argsFound argv0 d = (str "recovery", args, b) := by
    rw [argsFound, argsOrMessage, if_pos ⟨rfl, rfl⟩, hm]
    dsimp only
    rw [if_neg hne]
  have hagain : restartMessage d.bcb b args = d.bcb := by
    have := h.again
    rwa [hm] at this
  refine (getArgs_sat argv0 hd).imp ?_
  intro r s ⟨hr, hs⟩
  rw [hfound] at hr hs
  rw [hagain] at hs
  exact ⟨hr, hs⟩

/-- From one start to the next: the arguments are taken, the run is cut off, or `/cache` changes. -/
inductive Step : Device → Device → Prop
  | start {d d' : Device} (argv0 : CString) (h : Crash.Leads Works (getArgs argv0 []) d d') : Step d d'
  | cache (d : Device) (file : Option Bytes) : Step d { d with commandFile := file }

theorem finishRecovery_sat (d : Device) : Crash.Sat Works finishRecovery d (fun _ s => s.bcb = .zero ∧ s.commandFile = none)
    (fun _ _ => False) fun s => s = d ∨ s.bcb = .zero := by
  refine ((setBootloaderMessage_sat .zero d).mono (fun _ _ h => h) (fun _ _ h => h) fun _ h => Or.inl h).step ?_
  intro _ s ⟨_, hs⟩
  subst hs
  refine Crash.Sat.call (fun _ _ _ => .inr rfl) fun e he _ => ?_
  rw [show e.fails = false from he]
  exact ⟨rfl, rfl⟩

theorem zero_boots : BootloaderMessage.zero.boots = .normal := by decide

/-- **A command is not lost.** The recovery has been started without arguments on the command line and has found some, which
fit into the message.

Before the message was written, a crash leaves the device as it was, and the next start finds the same arguments. Once it is
written, then after any number of starts, cut off anywhere, and of changes to `/cache`, the bootloader starts the recovery,
which finds the same arguments and writes the same message. When `finish_recovery` has cleared the message, and not before,
the bootloader boots the system. -/
theorem getArgs_restartable {argv0 name : CString} {args : List CString} {d d₁ : Device} {ev : ℕ → Ev} {n : ℕ}
    (hd : d.ignoreBootMessage = false) (hev : ∀ i, Works (ev i)) (hrun : getArgs argv0 [] ev 0 d = .ok (name, args) n d₁)
    (hne : args ≠ []) (hfit : (Buffer.lines (str "recovery" :: args)).length ≤ 1024) :
    Crash.Sat Works (getArgs argv0 []) d (fun r s => r.2 = args ∧ s = d₁) (fun _ _ => False) (fun s => s = d) ∧
    ∀ d₂, Relation.ReflTransGen Step d₁ d₂ → d₂.bcb = d₁.bcb ∧ d₂.bcb.boots = .recovery ∧
      (∀ argv0', Crash.Sat Works (getArgs argv0' []) d₂ (fun r s => r = (str "recovery", args) ∧ s = d₂) (fun _ _ => False)
        fun s => s = d₂) ∧
      Crash.Sat Works finishRecovery d₂ (fun _ s => s.bcb.boots = .normal) (fun _ _ => False)
        fun s => s = d₂ ∨ s.bcb.boots = .normal := by
  obtain ⟨hr, hs⟩ := (getArgs_sat argv0 hd).of_ok hev hrun
  obtain ⟨hlen, hargs, hlast⟩ := argsFound_spec argv0 d
  obtain ⟨-, rfl⟩ := Prod.mk.inj hr
  have hstart : Restarts d₁.bcb (argsFound argv0 d).2.1 := hs ▸ restarts_restartMessage hlast
  have hinv : ∀ d₂, Relation.ReflTransGen Step d₁ d₂ → d₂.bcb = d₁.bcb ∧ d₂.ignoreBootMessage = false := by
    intro d₂ hsteps
    induction hsteps with
    | refl => exact ⟨rfl, by rw [hs, ← hd]⟩
    | tail _ hstep ih =>
      cases hstep with
      | start argv0' hl =>
        have hsat := Restarts.getArgs (ih.1 ▸ hstart) argv0' ih.2 hne hlen hargs hfit
        have hsame := (hsat.mono (fun _ _ h => h.2) (fun _ _ h => h.elim) fun _ h => h).leads hl
        exact hsame ▸ ih
      | cache file => exact ih
  constructor
  · refine (getArgs_sat argv0 hd).imp ?_
    intro r s ⟨hr, hs'⟩
    exact ⟨congrArg Prod.snd hr, hs'.trans hs.symm⟩
  · intro d₂ hsteps
    obtain ⟨hbcb, hd₂⟩ := hinv d₂ hsteps
    have hstart₂ : Restarts d₂.bcb (argsFound argv0 d).2.1 := hbcb ▸ hstart
    refine ⟨hbcb, hstart₂.boots, fun argv0' => hstart₂.getArgs argv0' hd₂ hne hlen hargs hfit, ?_⟩
    refine (finishRecovery_sat d₂).mono ?_ (fun _ _ h => h) ?_
    · intro _ s hzero
      rw [hzero.1, zero_boots]
    · intro s hcr
      refine hcr.imp id fun hzero => ?_
      rw [hzero, zero_boots]

/-! ### An update from `/cache` -/

/-- The main system has written the command for an update. -/
def updateDevice : Device := ⟨.zero, some (lit "--update_package=/cache/u.zip\n"), false⟩

def updateArgs : List CString := [str "--update_package=/cache/u.zip"]

def fine : ℕ → Ev := fun _ => .fine

theorem fine_works (i : ℕ) : Works (fine i) := rfl

def updateStarted : Device :=
  { updateDevice with bcb := restartMessage updateDevice.bcb (messageArgs updateDevice.bcb.recovery).2 updateArgs }

/-- The update is started again, also when `/cache` has been erased. -/
theorem update_restartable : getArgs (str "/sbin/recovery") [] fine 0 updateDevice =
      .ok (str "/sbin/recovery", updateArgs) 4 updateStarted ∧
    Crash.Sat Works (getArgs (str "/sbin/recovery") []) { updateStarted with commandFile := none }
      (fun r s => r = (str "recovery", updateArgs) ∧ s = { updateStarted with commandFile := none }) (fun _ _ => False)
      fun s => s = { updateStarted with commandFile := none } := by
  have hrun : getArgs (str "/sbin/recovery") [] fine 0 updateDevice = .ok (str "/sbin/recovery", updateArgs) 4 updateStarted := by
    rfl
  have hlater := (getArgs_restartable rfl fine_works hrun (by decide) (by decide)).2 _ (.single (.cache _ none))
  exact ⟨hrun, hlater.2.2.1 _⟩

/-- **Firmware replaces the command.** The package had firmware for the radio: `maybe_install_firmware_update` has set its
message, and `finish_recovery` has not been called. The next start finds other arguments. -/
theorem handOff_replaces :
    ((getArgs (str "/sbin/recovery") [] fine 0 updateDevice).returned.map fun r => r.1.2) = some updateArgs ∧
    ((getArgs (str "/sbin/recovery") [] fine 0 updateDevice).returned.bind fun r =>
      (setBootloaderMessage (handOffMessage none) fine 0 r.2).returned.bind fun r =>
      (getArgs (str "/sbin/recovery") [] fine 0 r.2).returned.map fun r => r.1.2) = some [str "--wipe_cache"] := by
  decide +kernel

end Boot
end Recovery
