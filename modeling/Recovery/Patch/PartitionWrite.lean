/-
# Writing a partition leaves the files alone

A partition is written by way of the MTD layer, or as a device that is read back and
compared. Either way the partition begins with the data when `WriteToPartition` returns 0,
and no file has changed.

Key definitions: `Flashes`, `Held`.
Key theorems: `writeToPartition_flashes`, `memorySink_sat`.
-/
import Recovery.Patch.Restart

namespace Recovery
namespace Patch

/-! ### Runs that write only partitions -/

/-- Every run leaves the files alone, and ends in one of the ways described. -/
def Flashes {α : Type} (P : Ev → Prop) (p : Run α) (s : Sys) (ok : α → Sys → Prop) : Prop :=
  Crash.Sat P p s (fun a s' => s'.files = s.files ∧ ok a s') (fun _ s' => s'.files = s.files)
    fun s' => ∃ s₁, s₁.files = s.files ∧ Lost P s₁ s'

section

variable {α β : Type} {P : Ev → Prop} {p : Run α} {s : Sys} {ok ok' : α → Sys → Prop}

theorem Flashes.pure {a : α} (h : ok a s) : Flashes P (pure a) s ok := Crash.Sat.pure ⟨rfl, h⟩

theorem Flashes.fail (e : Failure) : Flashes P (Crash.fail e : Run α) s ok := Crash.Sat.fail rfl

theorem Flashes.failIf {c : Prop} [Decidable c] {e : Failure} {ok : Unit → Sys → Prop} (hn : ¬ c → ok () s) :
    Flashes P (Crash.failIf c e) s ok := Crash.Sat.failIf (fun _ => rfl) fun h => ⟨rfl, hn h⟩

theorem Flashes.guard {c : Prop} [Decidable c] {e : Failure} {f : Unit → Run β} {okb : β → Sys → Prop}
    (hn : ¬ c → Flashes P (f ()) s okb) : Flashes P (Crash.failIf c e >>= f) s okb := Crash.Sat.guard (fun _ => rfl) hn

theorem Flashes.bind {f : α → Run β} {okb : β → Sys → Prop} (h : Flashes P p s ok)
    (hf : ∀ a s', ok a s' → Flashes P (f a) s' okb) : Flashes P (p >>= f) s okb := by
  refine Crash.Sat.step h fun a s' ⟨hs, ha⟩ => Crash.Sat.mono (hf a s' ha) ?_ ?_ ?_
  · exact fun b s'' h => ⟨h.1.trans hs, h.2⟩
  · exact fun e s'' h => h.trans hs
  · exact fun s'' ⟨s₁, h, hl⟩ => ⟨s₁, h.trans hs, hl⟩

theorem flashes_call {f : Ev → Sys → α × Sys} (h : ∀ e, P e → (f e s).2.files = s.files ∧ ok (f e s).1 (f e s).2) :
    Flashes P (Crash.call machine f) s ok :=
  sat_call (fun _ hl => ⟨s, rfl, hl⟩) h

theorem Reads.flashes {okr : α → Prop} {err : Failure → Prop} (h : Reads P p s okr err) :
    Flashes P p s fun a s' => s' = s ∧ okr a :=
  Crash.Sat.mono h (fun _ _ h => ⟨by rw [h.1], h⟩) (fun _ _ h => by rw [h.1]) fun _ h => ⟨s, rfl, h⟩

end

/-- The partition begins with `data`, and a crash does not hurt it. -/
def Held (s : Sys) (t : PartitionType) (p data : Bytes) : Prop :=
  ∃ part, s.partitions t p = some part ∧ part.data.take data.length = data ∧ part.synced = true

@[simp] theorem setPartition_self (s : Sys) (t : PartitionType) (p : Bytes) (part : Partition) :
    (s.setPartition t p part).partitions t p = some part := by
  simp [Sys.setPartition]

section

variable {P : Ev → Prop} {s : Sys} {p data : Bytes}

theorem writeDevice_flashes (i : ℕ) (d : Bytes) (hp : (s.partitions .emmc p).isSome) :
    Flashes P (writeDevice p i d) s fun _ s' => (s'.partitions .emmc p).isSome := by
  refine flashes_call fun e _ => ?_
  unfold deviceWrite
  cases hpart : s.partitions .emmc p with
  | none => simp [hpart] at hp
  | some part =>
    simp only
    split_ifs
    · exact ⟨rfl, hp⟩
    · exact ⟨rfl, hp⟩
    · exact ⟨rfl, hp⟩
    · exact ⟨rfl, by simp⟩

theorem writeLoop_flashes : ∀ (n start : ℕ) {s : Sys}, (s.partitions .emmc p).isSome →
    Flashes P (writeLoop p data n start) s fun _ s' => (s'.partitions .emmc p).isSome
  | 0, _, _, _ => Flashes.fail _
  | n + 1, start, s, hp => by
    unfold writeLoop
    split_ifs
    · refine (writeDevice_flashes start _ hp).bind fun written s' hp' => ?_
      cases written with
      | failed => exact Flashes.fail _
      | interrupted => exact writeLoop_flashes n start hp'
      | moved k => exact writeLoop_flashes n (start + k) hp'
    · exact Flashes.pure hp

theorem readBack_reads {part : Partition} (hp : s.partitions .emmc p = some part) (i toRead : ℕ) :
    ∀ (n : ℕ) (soFar : Bytes), soFar.length ≤ toRead → soFar <+: part.data.drop i →
      Reads P (readBack p i toRead n soFar) s (fun b => b = (part.data.drop i).take toRead) fun _ => True
  | 0, _, _, _ => Reads.fail trivial
  | n + 1, soFar, hle, hpre => by
    unfold readBack
    split_ifs with hlt
    · have hread : Reads P (readDevice p (i + soFar.length) (toRead - soFar.length)) s
          (fun r => ∀ b, r = .moved b → b <+: part.data.drop (i + soFar.length) ∧ b.length ≤ toRead - soFar.length)
          fun _ => True := by
        refine reads_call (fun _ => rfl) fun e _ => ?_
        simp only [deviceRead, hp]
        intro b hb
        split_ifs at hb
        obtain rfl := Moved.moved.inj hb
        refine ⟨( List.take_prefix _ _).trans ( List.take_prefix _ _), ?_⟩
        simp only [List.length_take]
        omega
      refine hread.bind fun r hr => ?_
      cases r with
      | failed => exact Reads.fail trivial
      | interrupted => exact readBack_reads hp i toRead n soFar hle hpre
      | moved b =>
        obtain ⟨hb, hlen⟩ := hr b rfl
        refine readBack_reads hp i toRead n _ (by rw [List.length_append]; omega) ?_
        obtain ⟨rest, hrest⟩ := hpre
        rw [← List.drop_drop, ← hrest, List.drop_left] at hb
        rw [← hrest]
        exact (List.prefix_append_right_inj soFar).mpr hb
    · have hfull : soFar.length = toRead := by omega
      exact Reads.pure (hfull ▸ List.prefix_iff_eq_take.mp hpre)

theorem verifyLoop_reads {part : Partition} (hp : s.partitions .emmc p = some part) (steps : ℕ) :
    ∀ (n i : ℕ), i ≤ data.length + 4096 → data.length < n + i →
      Reads P (verifyLoop steps p data n i) s
        (fun r => r = data.length → (part.data.drop i).take (data.length - i) = data.drop i) fun _ => True
  | 0, i, _, hn => Reads.pure fun _ => by simp [show data.length - i = 0 by omega, show data.length ≤ i by omega]
  | n + 1, i, hi, hn => by
    unfold verifyLoop
    split_ifs with hlt
    · refine (readBack_reads hp i _ steps [] (by simp) List.nil_prefix).bind fun buffer hb => ?_
      split_ifs with hne
      · exact Reads.pure fun h => by omega
      · have heq : (part.data.drop i).take (min (data.length - i) 4096) = (data.drop i).take (min (data.length - i) 4096) := by
          rw [← hb]
          exact not_not.mp hne
        refine (verifyLoop_reads hp steps n (i + 4096) (by omega) (by omega)).mono (fun r hr hend => ?_) fun _ h => h
        have hrest := hr hend
        rcases Nat.lt_or_ge (data.length - i) 4096 with h | h
        · rw [Nat.min_eq_left h.le] at heq
          rw [heq, List.take_of_length_le (by simp)]
        · rw [Nat.min_eq_right h] at heq
          rw [show data.length - i = 4096 + (data.length - (i + 4096)) by omega, List.take_add, heq, List.drop_drop, hrest,
            ← List.drop_drop, List.take_append_drop]
    · exact Reads.pure fun _ => by simp [show data.length - i = 0 by omega, show data.length ≤ i by omega]

theorem emmcAttempt_flashes (steps start : ℕ) (hp : (s.partitions .emmc p).isSome) :
    Flashes P (emmcAttempt steps p data start) s
      fun r s' => (s'.partitions .emmc p).isSome ∧ (r = data.length → Held s' .emmc p data) := by
  refine (writeLoop_flashes steps start hp).bind fun _ s₁ hp₁ => ?_
  obtain ⟨part, hpart⟩ := Option.isSome_iff_exists.mp hp₁
  have hsync : Flashes P (fsyncDevice p) s₁ fun _ s₂ => s₂.partitions .emmc p = some { part with synced := true } := by
    refine flashes_call fun e _ => ?_
    simp only [deviceSync, hpart]
    exact ⟨rfl, setPartition_self _ _ _ _⟩
  refine hsync.bind fun _ s₂ hp₂ => ?_
  refine Crash.Sat.imp (verifyLoop_reads hp₂ steps (data.length + 1) 0 (by omega) (by omega)).flashes ?_
  rintro r s₃ ⟨hfiles, rfl, hr⟩
  exact ⟨hfiles, by simp [hp₂], fun h => ⟨_, hp₂, by simpa using hr h, rfl⟩⟩

theorem writeEmmc_flashes (steps : ℕ) : Flashes P (writeEmmc steps p data) s fun _ s' => Held s' .emmc p data := by
  have hopen : Flashes P (openDevice p) s fun r s' => r = true → (s'.partitions .emmc p).isSome :=
    flashes_call fun e _ => ⟨rfl, fun h => by simpa using (Bool.and_eq_true_iff.mp h).2⟩
  refine hopen.bind fun opened s₁ hp₁ => ?_
  refine Flashes.guard fun h => ?_
  refine (emmcAttempt_flashes steps 0 (hp₁ (by simpa using h))).bind fun start s₃ h₃ => ?_
  have hsecond : Flashes P (if start = data.length then pure start else emmcAttempt steps p data start) s₃
      fun r s' => r = data.length → Held s' .emmc p data := by
    split_ifs with hend
    · exact Flashes.pure fun _ => h₃.2 hend
    · exact Crash.Sat.imp (emmcAttempt_flashes steps start h₃.1) fun _ _ h => ⟨h.1, h.2.2⟩
  refine hsecond.bind fun start' s₄ h₄ => ?_
  refine Flashes.guard fun h => ?_
  have hclose : Flashes P closeDevice s₄ fun _ s' => Held s' .emmc p data := flashes_call fun e _ => ⟨rfl, h₄ (not_not.mp h)⟩
  exact hclose.bind fun closed s₅ h₅ => Flashes.failIf fun _ => h₅

theorem mtdStep_flashes {last : Bool} {f : Ev → Bytes → Option Bytes} {K : Bytes → Prop} {part : Partition}
    (hp : s.partitions .mtd p = some part) (hf : ∀ e d, f e part.data = some d → K d) :
    Flashes P (mtdStep p last f) s fun r s' => r = true → ∃ part', s'.partitions .mtd p = some part' ∧
      K part'.data ∧ part'.synced = last := by
  refine flashes_call fun e _ => ?_
  simp only [hp]
  cases hfe : f e part.data with
  | none => exact ⟨rfl, by simp⟩
  | some d =>
    simp only
    split_ifs
    · exact ⟨rfl, by simp⟩
    · exact ⟨rfl, fun _ => ⟨_, setPartition_self _ _ _ _, hf e d hfe, rfl⟩⟩

theorem writeMtd_flashes : Flashes P (writeMtd p data) s fun _ s' => Held s' .mtd p data := by
  -- a step, and the check of its answer
  have step {s : Sys} {K : Bytes → Prop} {last : Bool} {f : Ev → Bytes → Option Bytes} {part : Partition}
      (hp : s.partitions .mtd p = some part) (hf : ∀ e d, f e part.data = some d → K d) {β : Type}
        {k : Unit → Run β} {ok : β → Sys → Prop}
      (hk : ∀ s' part', s'.partitions .mtd p = some part' → K part'.data → part'.synced = last → Flashes P (k ()) s' ok) :
      Flashes P (mtdStep p last f >>= fun r => Crash.failIf (r = false) .writePartition >>= k) s ok := by
    refine (mtdStep_flashes hp hf).bind fun r s₁ h₁ => ?_
    refine Flashes.guard fun h => ?_
    obtain ⟨part', hp', hK, hsync⟩ := h₁ (by simpa using h)
    exact hk s₁ part' hp' hK hsync
  have hopen : Flashes P (openPartition .mtd p) s fun r s' => r = true → (s'.partitions .mtd p).isSome :=
    flashes_call fun e _ => ⟨rfl, fun h => by simpa using (Bool.and_eq_true_iff.mp h).2⟩
  refine hopen.bind fun opened s₁ hp₁ => ?_
  refine Flashes.guard fun h => ?_
  obtain ⟨part, hpart⟩ := Option.isSome_iff_exists.mp (hp₁ (by simpa using h))
  refine step (K := fun _ => True) hpart (fun _ _ _ => trivial) fun s₃ part₃ hp₃ _ _ => ?_
  refine step (K := fun d => d.take data.length = data) hp₃ (fun e d hd => by simp [← Option.some.inj hd])
    fun s₄ part₄ hp₄ h₄ _ => ?_
  refine (mtdStep_flashes (K := fun d => d.take data.length = data) hp₄ (fun e d hd => by rwa [← Option.some.inj hd])).bind
    fun closed s₅ h₅ => Flashes.failIf fun h => ?_
  exact h₅ (by simpa using h)

def partitionOf (target : Bytes) : Option (PartitionType × Bytes) :=
  match strtok target with
  | magic :: partition :: _ =>
    if magic = lit "MTD" then some (.mtd, partition) else if magic = lit "EMMC" then some (.emmc, partition) else none
  | _ => none

/-- **`WriteToPartition` leaves the data in the partition** if it returns 0, and touches no file. -/
theorem writeToPartition_flashes {lib : Lib} {target : Bytes} : Flashes P (writeToPartition lib data target) s
    fun _ s' => ∃ t p, partitionOf target = some (t, p) ∧ Held s' t p data := by
  unfold writeToPartition partitionOf
  match strtok target with
  | [] => exact Flashes.fail _
  | [_] => exact Flashes.fail _
  | magic :: partition :: _ =>
    simp only
    split_ifs
    · exact Crash.Sat.imp writeMtd_flashes fun _ _ h => ⟨h.1, _, _, rfl, h.2⟩
    · exact Crash.Sat.imp (writeEmmc_flashes _) fun _ _ h => ⟨h.1, _, _, rfl, h.2⟩
    · exact Flashes.fail _

end

/-! ### Output that is kept in memory -/

theorem memorySink_sat {P : Ev → Prop} {s : Sys} {size : ℤ} {err : Failure → Sys → Prop} {cr : Sys → Prop} :
    SinkSat P (memorySink size) (fun _ m => m = 0) (fun t s' b => s' = s ∧ t = b) err cr := by
  rintro t s' b d ⟨rfl, rfl⟩
  unfold memorySink
  split_ifs
  · exact Crash.Sat.pure (.inr ⟨by simp; omega, 0, rfl, rfl, by simp⟩)
  · exact Crash.Sat.pure (.inl ⟨rfl, rfl, rfl⟩)

end Patch
end Recovery
