/-
# Loops over partial transfers

A `write` or a `read` on a descriptor moves a part of what it is asked for, would block, is
interrupted or fails. The loops around such calls, for any kind of items and any answers of
the descriptor.

* `pour_parts`, `drain_parts`: what was written and what is left are the items, in order;
* `gather_length`: a reader does not get more than it has room for.
-/
import Mathlib.Data.List.Basic

namespace Pouring

/-- What a call on a descriptor answers. -/
inductive Answer (β : Type)
  | moved (b : β)
  | again
  | interrupted
  | failed

/-- How a loop over such calls ends: there is nothing more to do, the descriptor would
block, or it is broken. -/
inductive Outcome
  | done
  | blocked
  | broken
  deriving DecidableEq

variable {α : Type}

/-- What a loop has written and what it has left, and the answers that were not asked for. -/
structure Poured (β : Type) (α : Type) where
  written : List α
  left : β
  answers : List (Answer ℕ)
  outcome : Outcome

def Poured.behind {β : Type} (w : List α) (p : Poured β α) : Poured β α := { p with written := w ++ p.written }

/-- A loop of writes. `moved n` takes `n + 1` items, or all there are. `retries` is whether
the loop goes on after an interrupted call. -/
def pour (retries : Bool) : List (Answer ℕ) → List α → Poured (List α) α
  | [], b => ⟨[], b, [], if b.isEmpty then .done else .blocked⟩
  | answer :: answers, b =>
    if b.isEmpty then ⟨[], b, answer :: answers, .done⟩
    else match answer with
      | .moved n => (pour retries answers (b.drop (n + 1))).behind (b.take (n + 1))
      | .again => ⟨[], b, answers, .blocked⟩
      | .interrupted => if retries then pour retries answers b else ⟨[], b, answers, .broken⟩
      | .failed => ⟨[], b, answers, .broken⟩

/-- The writes of a queue of packets, one after the other, with retries. -/
def drain : List (Answer ℕ) → List (List α) → Poured (List (List α)) α
  | answers, [] => ⟨[], [], answers, .done⟩
  | answers, packet :: packets =>
    if (pour true answers packet).outcome = .done then
      (drain (pour true answers packet).answers packets).behind (pour true answers packet).written
    else { pour true answers packet with left := (pour true answers packet).left :: packets }

/-- A loop of reads into a buffer with room for `avail` items, and whether it met the end or
an error. No items are the end. -/
def gather : ℕ → List (Answer (List α)) → List α × Bool
  | _, [] => ([], false)
  | avail, answer :: answers =>
    if avail = 0 then ([], false)
    else match answer with
      | .moved b =>
        if b.isEmpty then ([], true)
        else (gather (avail - (b.take avail).length) answers).map (b.take avail ++ ·) id
      | .again => ([], false)
      | .interrupted => gather avail answers
      | .failed => ([], true)

section

variable (retries : Bool) (answers : List (Answer ℕ)) (b : List α) (packets : List (List α))

theorem pour_parts : (pour retries answers b).written ++ (pour retries answers b).left = b := by
  fun_induction pour retries answers b <;> simp_all [Poured.behind]

/-- A loop ends well exactly if nothing is left. -/
theorem pour_done_iff : (pour retries answers b).outcome = .done ↔ (pour retries answers b).left = [] := by
  fun_induction pour retries answers b <;> simp_all [Poured.behind]

theorem drain_parts : (drain answers packets).written ++ (drain answers packets).left.flatten = packets.flatten := by
  fun_induction drain answers packets with
  | case1 => rfl
  | case2 answers packet packets hdone ih =>
    have hparts := pour_parts true answers packet
    rw [(pour_done_iff true answers packet).mp hdone, List.append_nil] at hparts
    simp only [Poured.behind, List.append_assoc, List.flatten_cons, ih, hparts]
  | case3 answers packet packets hdone =>
    rw [List.flatten_cons, ← List.append_assoc, pour_parts, List.flatten_cons]

theorem drain_done_iff : (drain answers packets).outcome = .done ↔ (drain answers packets).left = [] := by
  fun_induction drain answers packets with
  | case1 => simp
  | case2 answers packet packets hdone ih => exact ih
  | case3 answers packet packets hdone => exact iff_of_false hdone (by simp)

theorem drain_left_length : (drain answers packets).left.length ≤ packets.length := by
  fun_induction drain answers packets with
  | case1 => exact Nat.le_refl _
  | case2 answers packet packets hdone ih => exact Nat.le_succ_of_le ih
  | case3 answers packet packets hdone => exact Nat.le_refl _

theorem gather_length (answers : List (Answer (List α))) (avail : ℕ) : (gather avail answers).1.length ≤ avail := by
  fun_induction gather avail answers <;> simp_all
  omega

variable {answers}

/-- A descriptor that takes something at each call takes everything, if it is called often
enough. -/
theorem pour_enough (hall : ∀ x ∈ answers, ∃ n, x = .moved n) (k : ℕ) (hlen : b.length + k ≤ answers.length) :
    (pour retries answers b).outcome = .done ∧ k ≤ (pour retries answers b).answers.length ∧
      ∀ x ∈ (pour retries answers b).answers, ∃ n, x = .moved n := by
  fun_induction pour retries answers b with
  | case1 b => simp_all
  | case2 answer answers b hb => exact ⟨rfl, Nat.le_trans (Nat.le_add_left k _) hlen, hall⟩
  | case3 answers b hb n ih =>
    have hpos : 0 < b.length := List.length_pos_of_ne_nil (by simpa using hb)
    refine ih (fun x hx => hall x (List.mem_cons_of_mem _ hx)) ?_
    rw [List.length_drop]
    rw [List.length_cons] at hlen
    omega
  | _ => simp at hall

theorem drain_enough (hall : ∀ x ∈ answers, ∃ n, x = .moved n) (hlen : packets.flatten.length ≤ answers.length) :
    (drain answers packets).outcome = .done := by
  fun_induction drain answers packets with
  | case1 => rfl
  | case2 answers packet packets hdone ih =>
    rw [List.flatten_cons, List.length_append] at hlen
    obtain ⟨-, hk, hall'⟩ := pour_enough true packet hall _ hlen
    exact ih hall' hk
  | case3 answers packet packets hdone =>
    rw [List.flatten_cons, List.length_append] at hlen
    exact absurd (pour_enough true packet hall _ hlen).1 hdone

end

end Pouring
