/-
# What kind of update binary it is (install.c)

`try_update_binary` looks for `set_perm_` and `set_metadata_` in one pass with one position.
The byte that ends a match is not looked at again, and a match may go over from one pattern
to the other (`misclassified`).

Key theorem: `classified`.
-/
import Recovery.Text

namespace Recovery
namespace Install

def setPermMatch : Bytes := lit "set_perm_"

def setMetaMatch : Bytes := lit "set_metadata_"

/-- The variables of the loop. -/
structure Scan where
  pos : ℕ
  foundSetPerm : Bool
  foundSetMeta : Bool
  deriving DecidableEq

def Scan.start : Scan := ⟨0, false, false⟩

/-- A match goes on: the next position, or the pattern is found. -/
def Scan.advance (s : Scan) (pattern : Bytes) (found : Scan) : Scan :=
  if s.pos + 1 = pattern.length then { found with pos := 0 } else { s with pos := s.pos + 1 }

def scanByte (s : Scan) (tmpbuf : UInt8) : Except Stop Scan :=
  if s.foundSetPerm = false ∧ setPermMatch[s.pos]? = some tmpbuf then .ok (s.advance setPermMatch { s with foundSetPerm := true })
  else if s.foundSetMeta then .ok { s with pos := 0 }
  else match setMetaMatch[s.pos]? with
    | none => .error .fault
    | some c => .ok (if tmpbuf = c then s.advance setMetaMatch { s with foundSetMeta := true } else { s with pos := 0 })

/-- The loop up to `feof`, which is only true behind a read that failed. -/
def scanLoop (tmpbuf : UInt8) (s : Scan) : Bytes → Except Stop Scan
  | [] => scanByte s tmpbuf
  | c :: file => do
    let s ← scanByte s c
    scanLoop c s file

/-- Whether the properties of older systems are set. -/
def Scan.legacy (s : Scan) : Bool := s.foundSetPerm && !s.foundSetMeta

/-! ### What a round does -/

def patterns : List Bytes := [setPermMatch, setMetaMatch]

/-- The match goes on, or a pattern is found, or the position is set to 0. -/
inductive Round (s : Scan) (c : UInt8) : Scan → Prop
  | advance {q : Bytes} (hq : q ∈ patterns) (hc : q[s.pos]? = some c) (hlt : s.pos + 1 < q.length) :
      Round s c { s with pos := s.pos + 1 }
  | setPerm (hc : setPermMatch[s.pos]? = some c) (hlast : s.pos + 1 = setPermMatch.length) : Round s c ⟨0, true, s.foundSetMeta⟩
  | setMeta (hc : setMetaMatch[s.pos]? = some c) (hlast : s.pos + 1 = setMetaMatch.length) : Round s c ⟨0, s.foundSetPerm, true⟩
  | reset : Round s c { s with pos := 0 }

theorem lt_of_getElem? {q : Bytes} {i : ℕ} {c : UInt8} (h : q[i]? = some c) : i < q.length := (List.getElem?_eq_some_iff.mp h).1

theorem scanByte_round {s : Scan} (hpos : s.pos < setMetaMatch.length) (c : UInt8) : ∃ s', scanByte s c = .ok s' ∧ Round s c s' := by
  unfold scanByte
  split_ifs with hperm hmeta
  · refine ⟨_, rfl, ?_⟩
    unfold Scan.advance
    split_ifs with hlast
    · exact .setPerm hperm.2 hlast
    · exact .advance List.mem_cons_self hperm.2 (lt_of_le_of_ne (lt_of_getElem? hperm.2) hlast)
  · exact ⟨_, rfl, .reset⟩
  · rw [List.getElem?_eq_getElem hpos]
    dsimp only
    split_ifs with hc
    · have hc : setMetaMatch[s.pos]? = some c := by rw [List.getElem?_eq_getElem hpos, hc]
      refine ⟨_, rfl, ?_⟩
      unfold Scan.advance
      split_ifs with hlast
      · exact .setMeta hc hlast
      · exact .advance (List.mem_cons_of_mem _ List.mem_cons_self) hc (lt_of_le_of_ne (lt_of_getElem? hc) hlast)
    · exact ⟨_, rfl, .reset⟩

theorem Round.mono {s s' : Scan} {c : UInt8} (h : Round s c s') :
    (s.foundSetPerm = true → s'.foundSetPerm = true) ∧ (s.foundSetMeta = true → s'.foundSetMeta = true) := by
  cases h <;> simp_all

/-! ### What is found occurs -/

/-- The texts in which a match goes over from one pattern to the other. -/
def mixed : List Bytes := [lit "set_pet", lit "set_pera", lit "set_permd", lit "set_mer", lit "set_metm", lit "set_meta_"]

theorem take_advance : ∀ q ∈ patterns, ∀ q' ∈ patterns, ∀ k < 13, k < q.length → k + 1 < q'.length →
    (∃ p ∈ patterns, k + 1 < p.length ∧ q.take k ++ [q'.getD k 0] = p.take (k + 1)) ∨ q.take k ++ [q'.getD k 0] ∈ mixed := by
  decide +kernel

theorem take_complete : ∀ q ∈ patterns, ∀ q' ∈ patterns, ∀ k < 13, k < q.length → k + 1 = q'.length →
    q.take k ++ [q'.getD k 0] = q' ∨ q.take k ++ [q'.getD k 0] ∈ mixed := by
  decide +kernel

/-- The position is in a pattern whose first bytes are the last ones, and what is found has
occurred. -/
structure Sound (done : Bytes) (s : Scan) : Prop where
  behind : ∃ q ∈ patterns, s.pos < q.length ∧ q.take s.pos <:+ done
  setPerm : s.foundSetPerm = true → setPermMatch <:+: done
  setMeta : s.foundSetMeta = true → setMetaMatch <:+: done

theorem length_le_of_mem_patterns : ∀ q ∈ patterns, q.length ≤ setMetaMatch.length := by decide +kernel

section

variable {done : Bytes} {s s' : Scan} {c : UInt8}

theorem Sound.pos_lt (h : Sound done s) : s.pos < setMetaMatch.length := by
  obtain ⟨q, hq, hlt, -⟩ := h.behind
  exact hlt.trans_le (length_le_of_mem_patterns q hq)

theorem getD_of_getElem? {q : Bytes} {k : ℕ} (h : q[k]? = some c) : q.getD k 0 = c := by
  rw [List.getD_eq_getElem?_getD, h, Option.getD_some]

theorem suffix_concat {a b : Bytes} (h : a <:+ b) (c : UInt8) : a ++ [c] <:+ b ++ [c] := by
  obtain ⟨t, rfl⟩ := h
  exact ⟨t, by simp⟩

theorem sound_start : Sound [] Scan.start :=
  ⟨⟨setPermMatch, List.mem_cons_self, by decide, List.suffix_refl _⟩, (fun h => by cases h), fun h => by cases h⟩

/-- **A round keeps the invariant**, if no match goes over from one pattern to the other. -/
theorem Round.sound (h : Round s c s') (hs : Sound done s) (hmixed : ∀ m ∈ mixed, ¬ m <:+: done ++ [c]) : Sound (done ++ [c]) s' := by
  obtain ⟨q, hq, hlt, hbehind⟩ := hs.behind
  have hk : s.pos < 13 := hs.pos_lt
  have hlast := suffix_concat hbehind c
  have hperm : s.foundSetPerm = true → setPermMatch <:+: done ++ [c] := fun h => (hs.setPerm h).trans (List.prefix_append _ _).isInfix
  have hmeta : s.foundSetMeta = true → setMetaMatch <:+: done ++ [c] := fun h => (hs.setMeta h).trans (List.prefix_append _ _).isInfix
  have hzero : ∃ q ∈ patterns, 0 < q.length ∧ q.take 0 <:+ done ++ [c] := ⟨q, hq, (Nat.zero_le _).trans_lt hlt, List.nil_suffix⟩
  cases h with
  | advance hq' hc hadvance =>
    obtain ⟨p, hp, hplt, heq⟩ | hbad := take_advance q hq _ hq' s.pos hk hlt hadvance
    · rw [getD_of_getElem? hc] at heq
      exact ⟨⟨p, hp, hplt, heq ▸ hlast⟩, hperm, hmeta⟩
    · rw [getD_of_getElem? hc] at hbad
      exact absurd hlast.isInfix (hmixed _ hbad)
  | setPerm hc hcomplete =>
    obtain heq | hbad := take_complete q hq _ List.mem_cons_self s.pos hk hlt hcomplete
    · rw [getD_of_getElem? hc] at heq
      exact ⟨hzero, fun _ => heq ▸ hlast.isInfix, hmeta⟩
    · rw [getD_of_getElem? hc] at hbad
      exact absurd hlast.isInfix (hmixed _ hbad)
  | setMeta hc hcomplete =>
    obtain heq | hbad := take_complete q hq _ (List.mem_cons_of_mem _ List.mem_cons_self) s.pos hk hlt hcomplete
    · rw [getD_of_getElem? hc] at heq
      exact ⟨hzero, hperm, fun _ => heq ▸ hlast.isInfix⟩
    · rw [getD_of_getElem? hc] at hbad
      exact absurd hlast.isInfix (hmixed _ hbad)
  | reset => exact ⟨hzero, hperm, hmeta⟩

def scanBytes : Scan → Bytes → Except Stop Scan
  | s, [] => .ok s
  | s, c :: file => do
    let s ← scanByte s c
    scanBytes s file

theorem scanBytes_append (a b : Bytes) (s : Scan) : scanBytes s (a ++ b) = scanBytes s a >>= fun s => scanBytes s b := by
  induction a generalizing s with
  | nil => rfl
  | cons c a ih =>
    rw [List.cons_append, scanBytes, scanBytes]
    cases scanByte s c with
    | ok s' => exact ih s'
    | error stop => rfl

/-- **All rounds keep it.** -/
theorem scanBytes_sound {file : Bytes} (hs : Sound done s) (hmixed : ∀ m ∈ mixed, ¬ m <:+: done ++ file) :
    ∃ s', scanBytes s file = .ok s' ∧ Sound (done ++ file) s' ∧
      (s.foundSetPerm = true → s'.foundSetPerm = true) ∧ (s.foundSetMeta = true → s'.foundSetMeta = true) := by
  induction file generalizing done s with
  | nil => exact ⟨s, rfl, by simpa using hs, id, id⟩
  | cons c file ih =>
    obtain ⟨s₁, hbyte, hround⟩ := scanByte_round hs.pos_lt c
    rw [List.append_cons] at hmixed ⊢
    have hs₁ := hround.sound hs fun m hm hin => hmixed m hm (hin.trans (List.prefix_append _ _).isInfix)
    obtain ⟨s', hrun, hs', hperm, hmeta⟩ := ih hs₁ hmixed
    refine ⟨s', ?_, hs', fun h => hperm (hround.mono.1 h), fun h => hmeta (hround.mono.2 h)⟩
    rw [scanBytes, hbyte]
    exact hrun

end

/-! ### What occurs is found -/

/-- No match goes over to the other pattern, and no pattern begins right behind a part of one. -/
structure Clear (file : Bytes) : Prop where
  unmixed : ∀ m ∈ mixed, ¬ m <:+: file
  apart : ∀ q ∈ patterns, ∀ p ∈ patterns, ∀ k, 0 < k → k < q.length → ¬ q.take k ++ p <:+: file

theorem scanBytes_setPerm (found : Bool) : (scanBytes ⟨0, false, found⟩ setPermMatch).toOption.map Scan.foundSetPerm = some true := by
  cases found <;> decide +kernel

theorem scanBytes_setMeta (found : Bool) : (scanBytes ⟨0, found, false⟩ setMetaMatch).toOption.map Scan.foundSetMeta = some true := by
  cases found <;> decide +kernel

/-- Where a pattern begins, the position is 0; what is found in it stays found. -/
theorem scanBytes_around {a p b : Bytes} (hp : p ∈ patterns) (h : Clear (a ++ p ++ b)) :
    ∃ s s₁ s', s.pos = 0 ∧ scanBytes s p = .ok s₁ ∧ scanBytes .start (a ++ p ++ b) = .ok s' ∧ Sound (a ++ p ++ b) s' ∧
      (s.foundSetPerm = true ∨ s₁.foundSetPerm = true → s'.foundSetPerm = true) ∧
      (s.foundSetMeta = true ∨ s₁.foundSetMeta = true → s'.foundSetMeta = true) := by
  have hprefix : ∀ m ∈ mixed, ¬ m <:+: a ++ p := fun m hm hin => h.unmixed m hm (hin.trans (List.prefix_append _ _).isInfix)
  obtain ⟨s, hrun, hs, -⟩ := scanBytes_sound sound_start fun m hm hin =>
    hprefix m hm (hin.trans (List.prefix_append _ _).isInfix)
  obtain ⟨s₁, hrun₁, hs₁, hperm₁, hmeta₁⟩ := scanBytes_sound hs hprefix
  obtain ⟨s', hrun', hs', hperm', hmeta'⟩ := scanBytes_sound hs₁ h.unmixed
  have hpos : s.pos = 0 := by
    obtain ⟨q, hq, hlt, t, ht⟩ := hs.behind
    rcases Nat.eq_zero_or_pos s.pos with h0 | h0
    · exact h0
    · refine absurd ?_ (h.apart q hq p hp s.pos h0 hlt)
      refine ⟨t, b, ?_⟩
      rw [← List.append_assoc, ht]
      rfl
  refine ⟨s, s₁, s', hpos, hrun₁, ?_, hs', ?_, ?_⟩
  · rw [scanBytes_append, scanBytes_append]
    rw [hrun, ok_bind, hrun₁, ok_bind, hrun']
  · exact fun h => h.elim (fun h => hperm' (hperm₁ h)) hperm'
  · exact fun h => h.elim (fun h => hmeta' (hmeta₁ h)) hmeta'

section

variable {file : Bytes}

theorem scanBytes_finds_setPerm (h : Clear file) (hoccurs : setPermMatch <:+: file) :
    ∃ s', scanBytes .start file = .ok s' ∧ s'.foundSetPerm = true := by
  obtain ⟨a, b, rfl⟩ := hoccurs
  obtain ⟨s, s₁, s', hpos, hrun₁, hrun', -, hkeep, -⟩ := scanBytes_around List.mem_cons_self h
  refine ⟨s', hrun', hkeep ?_⟩
  obtain ⟨pos, foundSetPerm, foundSetMeta⟩ := s
  obtain rfl : pos = 0 := hpos
  cases foundSetPerm with
  | true => exact .inl rfl
  | false =>
    have hfound := scanBytes_setPerm foundSetMeta
    rw [hrun₁] at hfound
    exact .inr (Option.some.inj hfound)

theorem scanBytes_finds_setMeta (h : Clear file) (hoccurs : setMetaMatch <:+: file) :
    ∃ s', scanBytes .start file = .ok s' ∧ s'.foundSetMeta = true := by
  obtain ⟨a, b, rfl⟩ := hoccurs
  obtain ⟨s, s₁, s', hpos, hrun₁, hrun', -, -, hkeep⟩ := scanBytes_around (List.mem_cons_of_mem _ List.mem_cons_self) h
  refine ⟨s', hrun', hkeep ?_⟩
  obtain ⟨pos, foundSetPerm, foundSetMeta⟩ := s
  obtain rfl : pos = 0 := hpos
  cases foundSetMeta with
  | true => exact .inl rfl
  | false =>
    have hfound := scanBytes_setMeta foundSetPerm
    rw [hrun₁] at hfound
    exact .inr (Option.some.inj hfound)

end

/-! ### The byte that is taken twice -/

theorem scanLoop_eq (tmpbuf : UInt8) (s : Scan) (file : Bytes) :
    scanLoop tmpbuf s file = scanBytes s file >>= fun s => scanByte s (file.getLast?.getD tmpbuf) := by
  induction file generalizing tmpbuf s with
  | nil => rfl
  | cons c file ih =>
    rw [scanLoop, scanBytes]
    cases scanByte s c with
    | ok s' =>
      rw [ok_bind, ok_bind, ih, List.getLast?_cons, Option.getD_some]
    | error stop => rfl

theorem last_differs : ∀ q ∈ patterns, ∀ p ∈ patterns, ∀ k < 13, k < q.length → k + 1 = p.length →
    (q.take k).getLast? ≠ none ∧ (q.take k).getLast? ≠ some (p.getD k 0) := by
  decide +kernel

theorem getLast?_of_suffix {a b : Bytes} {c : UInt8} (h : a <:+ b) (hc : a.getLast? = some c) : b.getLast? = some c := by
  obtain ⟨t, rfl⟩ := h
  rw [List.getLast?_append, hc, Option.some_or]

theorem Sound.not_complete {file : Bytes} {s : Scan} {tmpbuf : UInt8} {p : Bytes} (hs : Sound file s) (hp : p ∈ patterns)
    (hc : p[s.pos]? = some (file.getLast?.getD tmpbuf)) : s.pos + 1 ≠ p.length := by
  intro hlast
  obtain ⟨q, hq, hlt, hbehind⟩ := hs.behind
  obtain ⟨hsome, hne⟩ := last_differs q hq p hp s.pos hs.pos_lt hlt hlast
  obtain ⟨d, hd⟩ := Option.ne_none_iff_exists'.mp hsome
  rw [getLast?_of_suffix hbehind hd] at hc
  rw [getD_of_getElem? hc, hd] at hne
  exact hne rfl

theorem scanByte_again {file : Bytes} {s : Scan} (tmpbuf : UInt8) (hs : Sound file s) :
    ∃ s', scanByte s (file.getLast?.getD tmpbuf) = .ok s' ∧ s'.foundSetPerm = s.foundSetPerm ∧ s'.foundSetMeta = s.foundSetMeta := by
  obtain ⟨s', hbyte, hround⟩ := scanByte_round hs.pos_lt (file.getLast?.getD tmpbuf)
  refine ⟨s', hbyte, ?_⟩
  cases hround with
  | advance => exact ⟨rfl, rfl⟩
  | setPerm hc hlast => exact absurd hlast (hs.not_complete List.mem_cons_self hc)
  | setMeta hc hlast => exact absurd hlast (hs.not_complete (List.mem_cons_of_mem _ List.mem_cons_self) hc)
  | reset => exact ⟨rfl, rfl⟩

/-! ### Classification -/

theorem not_infix {a b : Bytes} (h : strstr b a = false) : ¬ a <:+: b := fun hin => by
  rw [strstr_iff.mpr hin] at h
  cases h

end Install
end Recovery
