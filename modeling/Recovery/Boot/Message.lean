/-
# The bootloader message and the arguments of the recovery (bootloader.h, recovery.c)

`get_args` takes the arguments from the command line, the message or the command file and
writes them back to the message; `finish_recovery` clears the message and removes the
command file.

An event decides whether a call works, and whether the machine stops in front of it. The
intent and the log files are left out.
-/
import Recovery.Buffer
import Recovery.Lib.Crash

namespace Recovery
namespace Boot

open Zip (cstr)

structure BootloaderMessage where
  command : Buffer 32
  status : Buffer 32
  recovery : Buffer 1024
  deriving DecidableEq

theorem command_room : 0 < 32 ∧ 32 ≤ 32 := by decide

def BootloaderMessage.zero : BootloaderMessage := ⟨.zero 32, .zero 32, .zero 1024⟩

/-- What the bootloader boots. -/
inductive Target
  | recovery
  | updateRadio
  | updateHboot
  | normal
  deriving DecidableEq

/-- The flow of the bootloader, as firmware.c describes it. -/
def BootloaderMessage.boots (m : BootloaderMessage) : Target :=
  if m.command.string = str "boot-recovery" then .recovery
  else if m.command.string = str "update-radio" then .updateRadio
  else if m.command.string = str "update-hboot" then .updateHboot
  else .normal

/-- What lasts from boot to boot. -/
structure Device where
  bcb : BootloaderMessage
  /-- what is in `COMMAND_FILE`, or `none` if it cannot be opened -/
  commandFile : Option Bytes
  /-- `/tmp/.ignorebootmessage` is there -/
  ignoreBootMessage : Bool
  deriving DecidableEq

structure Ev where
  /-- the machine stops -/
  halt : Bool
  /-- the call fails -/
  fails : Bool
  /-- a call that fails has written the message -/
  applied : Bool

def Ev.fine : Ev := ⟨false, false, false⟩

def machine (σ : Type) : Crash.Machine Ev σ := ⟨Ev.halt, fun _ s => s⟩

abbrev Run (α : Type) := Crash.Prog Ev Stop Device α

/-- The message, or `none` if it cannot be read. -/
def getBootloaderMessage : Run (Option BootloaderMessage) :=
  Crash.call (machine Device) fun e d => (if e.fails then none else some d.bcb, d)

def setBootloaderMessage (boot : BootloaderMessage) : Run Bool :=
  Crash.call (machine Device) fun e d => (! e.fails, if e.fails ∧ ¬ e.applied then d else { d with bcb := boot })

def statIgnoreBootMessage : Run Bool := Crash.call (machine Device) fun _ d => (d.ignoreBootMessage, d)

/-- `fopen_path` of the command file, and all that can be read of it. -/
def openCommandFile : Run (Option Bytes) := Crash.call (machine Device) fun e d => (if e.fails then none else d.commandFile, d)

def unlinkCommandFile : Run Unit := Crash.call (machine Device) fun e d => ((), if e.fails then d else { d with commandFile := none })

/-! ### get_args -/

def maxArgLength : ℕ := 4096
def maxArgs : ℕ := 100

def isNewline (c : UInt8) : Bool := c = 0x0a
def isCrLf (c : UInt8) : Bool := c = 0x0d ∨ c = 0x0a

/-- The arguments in a message for the recovery, and what `strtok` leaves of it. -/
def messageArgs (recovery : Buffer 1024) : Option (List CString) × Buffer 1024 :=
  match Buffer.strtok isNewline (recovery.set 1023 0) 0 with
  | (none, b) => (none, b)
  | (some (arg, pos), b) =>
    if strcmp arg.bytes (str "recovery").bytes = 0 then
      let (args, b) := Buffer.strtoks isNewline (maxArgs - 1) b pos
      (some args, b)
    else (none, b)

/-- The loop over the command file, with room for `k` arguments. Every line takes at least a
byte of it. -/
def fileArgs : ℕ → ℕ → Bytes → List CString
  | 0, _, _ => []
  | _ + 1, 0, _ => []
  | fuel + 1, k + 1, file =>
    match fgets maxArgLength file with
    | none => []
    | some (line, file) =>
      match tokens isCrLf 1 (cstr line) with
      | [] => fileArgs fuel (k + 1) file
      | token :: _ => .of token :: fileArgs fuel k file

/-- The arguments from the message if there are none on the command line. -/
def argsOrMessage (argv0 : CString) (args : List CString) (ignored : Bool) (recovery : Buffer 1024) :
    CString × List CString × Buffer 1024 :=
  if args = [] ∧ ignored = false then
    match messageArgs recovery with
    | (some args, b) => (str "recovery", args, b)
    | (none, b) => (argv0, args, b)
  else (argv0, args, recovery)

/-- The arguments from the command file if there are none. -/
def argsOrFile (args : List CString) : Run (List CString) :=
  if args = [] then do
    let file ← openCommandFile
    match file with
    | none => pure args
    | some file => pure (fileArgs file.length (maxArgs - 1) file)
  else pure args

/-- The message with which the recovery is started again. -/
def restartMessage (boot : BootloaderMessage) (recovery : Buffer 1024) (args : List CString) : BootloaderMessage :=
  { boot with
    command := boot.command.strlcpy (str "boot-recovery") 32 command_room
    recovery := (recovery.strlcpy (str "recovery\n") 1024 (by decide)).catLines args }

def getArgs (argv0 : CString) (args : List CString) : Run (CString × List CString) := do
  let message ← getBootloaderMessage
  let boot := message.getD .zero
  let ignored ← statIgnoreBootMessage
  let (argv0, args, recovery) := argsOrMessage argv0 args ignored boot.recovery
  let args ← argsOrFile args
  let _ ← setBootloaderMessage (restartMessage boot recovery args)
  pure (argv0, args)

/-! ### finish_recovery and other messages -/

def finishRecovery : Run Unit := do
  let _ ← setBootloaderMessage .zero
  unlinkCommandFile

/-- The arguments for the next start. The size given to `strlcpy` is that of the other field. -/
def handOffRecovery (sendIntent : Option CString) : Buffer 1024 :=
  let recovery := (Buffer.zero 1024).strlcpy (str "recovery\n--wipe_cache\n") 32 (by decide)
  match sendIntent with
  | none => recovery
  | some intent =>
    ((recovery.strlcat (str "--send_intent=") 1024 le_rfl).strlcat intent 1024 le_rfl).strlcat (str "\n") 1024 le_rfl

/-- The first message of `maybe_install_firmware_update`. -/
def handOffMessage (sendIntent : Option CString) : BootloaderMessage :=
  { BootloaderMessage.zero with
    command := (Buffer.zero 32).strlcpy (str "boot-recovery") 32 command_room
    recovery := handOffRecovery sendIntent }

end Boot
end Recovery
