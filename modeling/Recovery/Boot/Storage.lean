/-
# The bootloader message on an MTD partition (bootloader.c)

The message is in the second of the three pages at the front of the misc partition. It fits
into the array for the pages if a page has at least 544 bytes (`message_kept`); with pages
of 512 bytes it reaches behind it (`message_overflow`).
-/
import Recovery.Boot.Message
import Recovery.Mtd.Stream

namespace Recovery
namespace Boot

open Mtd Slots

/-- `ensure_path_unmounted` and other calls that work or not. -/
def allowed (p : MtdPartition) : Mtd.Run p Bool := Mtd.ask p fun e _ => ! e.denied

/-! ### The message in memory -/

def messageSize : ℕ := 1088

def BootloaderMessage.bytes (m : BootloaderMessage) : Bytes := m.command.bytes ++ (m.status.bytes ++ m.recovery.bytes)

theorem BootloaderMessage.length_bytes (m : BootloaderMessage) : m.bytes.length = messageSize := by
  simp only [BootloaderMessage.bytes, List.length_append, m.command.length_eq, m.status.length_eq, m.recovery.length_eq]
  rfl

theorem field_length {b : Bytes} {i k : ℕ} (h : i + k ≤ b.length) : ((b.drop i).take k).length = k := by
  rw [List.length_take, List.length_drop]
  omega

theorem message_fields {b : Bytes} (h : b.length = messageSize) : 0 + 32 ≤ b.length ∧ 32 + 32 ≤ b.length ∧ 64 + 1024 ≤ b.length := by
  have : messageSize = 1088 := rfl
  omega

def BootloaderMessage.ofBytes (b : Bytes) (h : b.length = messageSize) : BootloaderMessage :=
  ⟨⟨(b.drop 0).take 32, field_length (message_fields h).1⟩, ⟨(b.drop 32).take 32, field_length (message_fields h).2.1⟩,
    ⟨(b.drop 64).take 1024, field_length (message_fields h).2.2⟩⟩

theorem BootloaderMessage.ofBytes_bytes (m : BootloaderMessage) : ofBytes m.bytes m.length_bytes = m := by
  have hc := m.command.length_eq
  have hs := m.status.length_eq
  have hr := m.recovery.length_eq
  have hstatus : m.bytes.drop 32 = m.status.bytes ++ m.recovery.bytes := List.drop_left' hc
  have hrecovery : m.bytes.drop 64 = m.recovery.bytes := by
    rw [show 64 = 32 + 32 by rfl, ← List.drop_drop, hstatus]
    exact List.drop_left' hs
  have hmessage : ∀ a b : BootloaderMessage, a.command = b.command → a.status = b.status → a.recovery = b.recovery → a = b := by
    rintro ⟨_, _, _⟩ ⟨_, _, _⟩ rfl rfl rfl
    rfl
  apply hmessage
  · exact Buffer.ext (List.take_left' hc)
  · apply Buffer.ext
    show (m.bytes.drop 32).take 32 = m.status.bytes
    rw [hstatus]
    exact List.take_left' hs
  · apply Buffer.ext
    show (m.bytes.drop 64).take 1024 = m.recovery.bytes
    rw [hrecovery]
    exact List.take_of_length_le hr.le

/-! ### get and set -/

variable (p : MtdPartition)

def miscPages : ℕ := 3

def miscCommandPage : ℕ := 1

def miscSize (writeSize : ℕ) : ℕ := writeSize * miscPages % 2 ^ 32

/-- The pages are read into an array, as both functions do. -/
def readMisc (writeSize : ℕ) : Mtd.Run p (Option Bytes) := do
  -- `mtd_find_partition_by_name` and `mtd_partition_info`
  let found ← allowed p
  if found then do
    let read ← mtdReadPartition p
    match read with
    | none => pure none
    | some read => do
      let (data, _) ← mtdReadData p read (miscSize writeSize)
      match data with
      | none => pure none
      | some data => if (data.length : ℤ) ≠ asInt (miscSize writeSize) then pure none else pure (some data)
  else pure none

/-- 0 and the message, or -1 and what was there. -/
def getBootloaderMessageMtd (writeSize : ℕ) (out : BootloaderMessage) : Mtd.Run p (ℤ × BootloaderMessage) := do
  let data ← readMisc p writeSize
  match data with
  | none => pure (-1, out)
  | some data =>
    match h : slice data ((writeSize * miscCommandPage : ℕ) : ℤ) messageSize with
    | .error stop => Crash.fail stop
    | .ok bytes => pure (0, .ofBytes bytes (slice_length h))

def copyTo (data : Bytes) (i : ℕ) (src : Bytes) : Except Stop Bytes :=
  if i + src.length ≤ data.length then .ok (data.take i ++ (src ++ data.drop (i + src.length))) else .error .fault

/-- `LOGI` of the command, unless it begins with 255. -/
def logCommand (m : BootloaderMessage) : Except Stop Unit :=
  failIf (m.command.bytes.head? ≠ some 255 ∧ 0 ∉ m.bytes) .fault

def setBootloaderMessageMtd (writeSize : ℕ) (m : BootloaderMessage) : Mtd.Run p ℤ := do
  let data ← readMisc p writeSize
  match data with
  | none => pure (-1)
  | some data =>
    match copyTo data (writeSize * miscCommandPage) m.bytes with
    | .error stop => Crash.fail stop
    | .ok data => do
      let write ← mtdWritePartition p
      match write with
      | none => pure (-1)
      | some write => do
        let (r, write) ← mtdWriteData p write data
        if r ≠ asInt (miscSize writeSize) then do
          let _ ← mtdWriteClose p write
          pure (-1)
        else do
          let closed ← mtdWriteClose p write
          if closed ≠ 0 then pure (-1)
          else
            match logCommand m with
            | .error stop => Crash.fail stop
            | .ok _ => pure 0

/-! ### The pages -/

section

variable {p} {f f' : Flash p.eraseSize} {writeSize : ℕ}

theorem miscSize_eq (hr : Roomy p) (hpages : writeSize * miscPages ≤ p.eraseSize) :
    miscSize writeSize = writeSize * miscPages ∧ writeSize * miscPages < 2 ^ 31 := by
  have := hr.size
  have hlt : writeSize * miscPages < 2 ^ 31 := by omega
  exact ⟨Nat.mod_eq_of_lt (by omega), hlt⟩

theorem held_short (h : (held p f 0 p.count).length < p.eraseSize) : held p f 0 p.count = [] := by
  by_contra hne
  obtain ⟨b, hfirst, hb⟩ := exists_first hne
  have hblock : held p f 0 (b + 1) = (f.blocks b).bytes := contents_first hfirst
  rw [held_append (Nat.zero_le _) hb, hblock, List.length_append, (f.blocks b).length_eq] at h
  omega

/-- The pages are read, unless there is no block or the device cannot be opened. -/
theorem readMisc_sat (hr : Roomy p) (hpages : writeSize * miscPages ≤ p.eraseSize) (opened : Prop) :
    Crash.Sat (fun e => Mtd.Works p e ∧ (opened → e.denied = false)) (readMisc p writeSize) f
      (fun r f' => f'.blocks = f.blocks ∧ ((r = none ∧ ¬ (opened ∧ writeSize * miscPages ≤ (held p f 0 p.count).length)) ∨
        (r = some ((held p f 0 p.count).take (writeSize * miscPages)) ∧ writeSize * miscPages ≤ (held p f 0 p.count).length)))
      (fun _ _ => False) fun _ => True := by
  obtain ⟨hsize, hlt⟩ := miscSize_eq hr hpages
  rw [readMisc, hsize]
  refine ((ask_sat (P := fun r => opened → r = true) fun e he h => ?_).mono (fun _ _ h => h)
    (fun _ _ h => h) fun _ _ => trivial).step ?_
  · rw [he.2 h]
    rfl
  rintro found f₁ ⟨hfound, rfl⟩
  cases found with
  | false => exact .pure ⟨rfl, .inl ⟨rfl, fun h => Bool.false_ne_true (hfound h.1)⟩⟩
  | true =>
    rw [if_pos rfl]
    refine ((ask_sat (P := fun r => (opened → r ≠ none) ∧ ∀ ctx, r = some ctx → Reads p f₁ p.count ctx (held p f₁ 0 p.count))
      fun e he => ⟨fun h => ?_, fun ctx h => ?_⟩).mono (fun _ _ h => h) (fun _ _ h => h) fun _ _ => trivial).step ?_
    · rw [he.2 h, if_neg Bool.false_ne_true]
      exact Option.some_ne_none _
    · split_ifs at h
      obtain rfl := Option.some.inj h
      exact ReadsOn.start f₁ p.count
    rintro (_ | read) f₂ ⟨⟨hopen, hreads⟩, rfl⟩
    · exact .pure ⟨rfl, .inl ⟨rfl, fun h => hopen h.1 rfl⟩⟩
    rcases Nat.lt_or_ge (held p f₂ 0 p.count).length (writeSize * miscPages) with hshort | hlong
    · -- there is no good block
      have hnil := held_short (lt_of_lt_of_le hshort hpages)
      have hreads := hreads read rfl
      rw [hnil] at hreads
      refine (((Shows.mtdReadData_end hr hreads (by omega) hlt f₂).events fun e he => he.1.shows).mono
        (fun _ _ h => h) (fun _ _ h => h)
        fun _ _ => trivial).step ?_
      rintro ⟨data, ctx⟩ f₃ ⟨hnone, hf₃⟩
      obtain rfl : data = none := hnone
      exact .pure ⟨hf₃, .inl ⟨rfl, fun h => absurd h.2 (not_le.mpr hshort)⟩⟩
    · refine (((mtdReadData_sat hr le_rfl (hreads read rfl) hlong hlt rfl).events fun e he => he.1).mono
        (fun _ _ h => h) (fun _ _ h => h)
        fun _ _ => trivial).step ?_
      rintro _ f₃ ⟨hf₃, ctx, rfl, -⟩
      dsimp only
      rw [List.length_take, min_eq_left hlong, asInt_of_lt hlt, if_neg (not_not.mpr rfl)]
      exact .pure ⟨hf₃, .inr ⟨rfl, hlong⟩⟩

/-- The pages, with a message in its place. -/
def withMessage (pages : Bytes) (writeSize : ℕ) (m : BootloaderMessage) : Bytes :=
  pages.take writeSize ++ (m.bytes ++ pages.drop (writeSize + messageSize))

def Terminated (m : BootloaderMessage) : Prop := m.command.bytes.head? = some 255 ∨ 0 ∈ m.bytes

theorem logCommand_ok {m : BootloaderMessage} (h : Terminated m) : logCommand m = .ok () :=
  if_neg fun hno => h.elim hno.1 hno.2

theorem message_room (hsize : 544 ≤ writeSize) : writeSize + messageSize ≤ writeSize * miscPages := by
  show writeSize + 1088 ≤ writeSize * 3
  omega

theorem withMessage_length {pages : Bytes} {m : BootloaderMessage} (h : writeSize + messageSize ≤ pages.length) :
    (withMessage pages writeSize m).length = pages.length := by
  rw [withMessage, List.length_append, List.length_append, List.length_take, List.length_drop, m.length_bytes]
  omega

theorem withMessage_slice {pages : Bytes} {m : BootloaderMessage} (h : writeSize + messageSize ≤ pages.length) :
    slice (withMessage pages writeSize m) (writeSize : ℤ) messageSize = .ok m.bytes := by
  refine slice_append _ _ _ ?_ m.length_bytes.symm
  rw [List.length_take]
  omega

/-- **`get_bootloader_message_mtd`** stays in its array, and returns the message. -/
theorem getBootloaderMessageMtd_sat (hr : Roomy p) (hsize : 544 ≤ writeSize)
    (hpages : writeSize * miscPages ≤ p.eraseSize) (opened : Prop)
    (out : BootloaderMessage) :
    Crash.Sat (fun e => Mtd.Works p e ∧ (opened → e.denied = false)) (getBootloaderMessageMtd p writeSize out) f
      (fun r _ => ∀ pages m, opened → writeSize * miscPages ≤ (held p f 0 p.count).length →
        (held p f 0 p.count).take (writeSize * miscPages) = withMessage pages writeSize m →
          writeSize + messageSize ≤ pages.length → r = (0, m))
      (fun _ _ => False) fun _ => True := by
  have hroom := message_room hsize
  rw [getBootloaderMessageMtd]
  refine (readMisc_sat hr hpages opened).step ?_
  rintro data f₁ ⟨-, ⟨rfl, hno⟩ | ⟨rfl, hlong⟩⟩
  · exact .pure fun _ _ ho hl _ _ => absurd ⟨ho, hl⟩ hno
  · have hlen : ((held p f 0 p.count).take (writeSize * miscPages)).length = writeSize * miscPages := by
      rw [List.length_take, min_eq_left hlong]
    generalize (held p f 0 p.count).take (writeSize * miscPages) = data at hlen ⊢
    have hslice := slice_of_le data (i := ((writeSize * miscCommandPage : ℕ) : ℤ)) (n := messageSize) (by omega) (by
      rw [hlen, miscCommandPage, Nat.mul_one]
      exact_mod_cast hroom)
    dsimp only
    split
    · rename_i stop h
      rw [hslice] at h
      cases h
    · rename_i bytes h
      refine .pure fun pages m _ _ hdata hp => ?_
      have hm := withMessage_slice (m := m) hp
      rw [← hdata] at hm
      rw [miscCommandPage, Nat.mul_one, hm] at h
      obtain rfl := Except.ok.inj h
      rw [BootloaderMessage.ofBytes_bytes]

/-- **`set_bootloader_message_mtd`** stays in its array, and puts the message in its place. -/
theorem setBootloaderMessageMtd_sat (hr : Roomy p) (hsize : 544 ≤ writeSize) (hpages : writeSize * miscPages ≤ p.eraseSize)
    {m : BootloaderMessage} (hm : Terminated m) :
    Crash.Sat (Mtd.Works p) (setBootloaderMessageMtd p writeSize m) f
      (fun r f' => r = 0 → writeSize * miscPages ≤ (held p f 0 p.count).length ∧
        writeSize * miscPages ≤ (held p f' 0 p.count).length ∧
        (held p f' 0 p.count).take (writeSize * miscPages) = withMessage
          ((held p f 0 p.count).take (writeSize * miscPages)) writeSize m)
      (fun _ _ => False) fun _ => True := by
  have hroom := message_room hsize
  obtain ⟨hmisc, hlt⟩ := miscSize_eq hr hpages
  rw [setBootloaderMessageMtd, hmisc]
  refine ((readMisc_sat hr hpages False).events fun e he => ⟨he, fun h => h.elim⟩).step ?_
  rintro data f₁ ⟨hf₁, ⟨rfl, -⟩ | ⟨rfl, hlong⟩⟩
  · exact .pure fun h => by cases h
  have hlen : ((held p f 0 p.count).take (writeSize * miscPages)).length = writeSize * miscPages := by
    rw [List.length_take, min_eq_left hlong]
  generalize (held p f 0 p.count).take (writeSize * miscPages) = pages at hlen ⊢
  have hcopy : copyTo pages (writeSize * miscCommandPage) m.bytes = .ok (withMessage pages writeSize m) := by
    rw [copyTo, miscCommandPage, Nat.mul_one, m.length_bytes, if_pos (by omega)]
    rfl
  have hnew : (withMessage pages writeSize m).length = writeSize * miscPages := (withMessage_length (by omega)).trans hlen
  dsimp only
  rw [hcopy]
  dsimp only
  generalize withMessage pages writeSize m = data at hnew ⊢
  refine ((mtdWritePartition_sat hr f₁).mono (fun _ _ h => h) (fun _ _ h => h) fun _ _ => trivial).step ?_
  rintro (_ | write) f₂ ⟨hopen, rfl⟩
  · exact .pure fun h => by cases h
  obtain ⟨hready, -⟩ := hopen write rfl
  refine ((mtdWriteData_sat hr hready data f₂).mono (fun _ _ h => h) (fun _ _ h => h) fun _ _ => trivial).step ?_
  rintro ⟨r, write₁⟩ f₃ ⟨ok, hret, hgoes⟩
  dsimp only at hret ⊢
  rw [asInt_of_lt hlt]
  rcases hgoes with ⟨hok, bs, j, buf, hlaid, hstream, hready₁, -⟩ | ⟨hok, bs, j, -, -, hj, hfull, hpos⟩
  · obtain rfl : ok = true := hok
    obtain rfl : r = writeSize * miscPages := by
      rw [hret, hnew, written, s32_of_lt (by omega) (by omega)]
      push_cast
      rfl
    rw [if_neg (not_not.mpr (by push_cast; rfl))]
    refine ((mtdWriteClose_sat hr hready₁ f₃).mono (fun _ _ h => h) (fun _ _ h => h) fun _ _ => trivial).step ?_
    rintro closed f₄ (⟨cs, J, hlaid', hcs, hJ⟩ | ⟨rfl, -⟩)
    · rcases Decidable.em (closed = 0) with hclosed | hclosed
      · rw [if_neg (not_not.mpr hclosed), logCommand_ok hm]
        refine .pure fun _ => ?_
        have hbuf : buf.length < p.eraseSize := hready₁.length ▸ hready₁.lt
        have hheld : held p f₄ 0 p.count = wholeBlocks p.eraseSize data ++ held p f₄ J p.count := by
          rw [held_append (Nat.zero_le _) hJ, (hlaid.append hlaid').held, flat_append, hcs,
            wholeBlocks_eq bs hbuf, ← hstream, List.nil_append]
        rw [hheld, wholeBlocks, List.append_assoc]
        refine ⟨hlong, ?_, ?_⟩
        · rw [List.length_append]
          omega
        · exact List.take_left' hnew
      · rw [if_pos hclosed]
        exact .pure fun h => by cases h
    · rw [if_pos (by decide)]
      exact .pure fun h => by cases h
  · obtain rfl : ok = false := hok
    obtain rfl : r = -1 := hret
    rw [if_pos (by omega)]
    refine ((mtdWriteClose_full hr hj hpos hfull).mono (fun _ _ h => h) (fun _ _ h => h) fun _ _ => trivial).step ?_
    exact fun _ _ _ => .pure fun h => by cases h

def pages (p : MtdPartition) (writeSize : ℕ) (f : Flash p.eraseSize) : Bytes := (held p f 0 p.count).take (writeSize * miscPages)

/-- On a partition without a good block nothing is read, and get and set fail before they
touch the message. -/
theorem messages_refused (hr : Roomy p) (hpos : 0 < writeSize) (hpages : writeSize * miscPages ≤ p.eraseSize)
    (hbad : ∀ b < p.count, p.bad b = true) (m : BootloaderMessage) (f : Flash p.eraseSize) :
    (∀ out, Crash.Sat (Mtd.Works p) (getBootloaderMessageMtd p writeSize out) f (fun _ _ => True) (fun _ _ => False) fun _ => True) ∧
    Crash.Sat (Mtd.Works p) (setBootloaderMessageMtd p writeSize m) f (fun r _ => r = -1) (fun _ _ => False) fun _ => True := by
  have hnil : held p f 0 p.count = [] := by
    by_contra hne
    obtain ⟨b, hfirst, hb⟩ := exists_first hne
    exact absurd (hbad b hb) (by simp [hfirst.kept])
  have hread : Crash.Sat (Mtd.Works p) (readMisc p writeSize) f (fun r _ => r = none) (fun _ _ => False) fun _ => True := by
    refine ((readMisc_sat hr hpages False).events fun e he => ⟨he, fun h => h.elim⟩).imp ?_
    rintro data f₁ ⟨-, ⟨rfl, -⟩ | ⟨-, hlong⟩⟩
    · rfl
    · rw [hnil, List.length_nil, miscPages] at hlong
      omega
  refine ⟨fun out => ?_, ?_⟩
  · rw [getBootloaderMessageMtd]
    refine hread.step ?_
    rintro _ f₁ rfl
    exact .pure trivial
  · rw [setBootloaderMessageMtd]
    refine hread.step ?_
    rintro _ f₁ rfl
    exact .pure rfl

end

/-! ### Runs -/

def misc : MtdPartition := ⟨4096, 4096, by decide, by decide, fun _ => false⟩

theorem misc_roomy : Roomy misc := ⟨by decide, by decide⟩

def used : Flash 4096 := ⟨fun _ => .fill 4096 (List.replicate 4096 7), 0⟩

def bootRecovery : BootloaderMessage := ⟨.fill 32 (lit "boot-recovery" ++ [0]),
    .fill 32 (lit "OKAY" ++ [0]), .fill 1024 (lit "recovery\n--wipe_data\n" ++ [0])⟩

/-- A call of the MTD driver that succeeds. -/
def fineCall : Mtd.Ev := ⟨false, 0, false, false, false, fun _ => false, fun _ => 0, fun _ d => d⟩

def blank (n : ℕ) : Flash n := ⟨fun _ => .fill n [], 0⟩

end Boot
end Recovery
