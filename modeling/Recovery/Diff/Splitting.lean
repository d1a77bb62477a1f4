/-
# When ReadImage ends (imgdiff.c)

`ReadImage` inflates a gzip member call by call, doubling its buffer. The loops have a bound on their rounds (`growLoop`,
`chunkLoop`); one that answers `hang` under every bound never ends. It returns just on the files whose members are whole and that
do not end in three bytes of a magic. What zlib promises of `inflate` (`Streaming`) makes the calls on a member one call.

Key definitions: `splitImage`, `StreamEnds`, `Splittable`, `Streaming`.
Key theorems: `splitImage_returns`, `splitImage_hangs`, `splitImage_eq`.
-/
import Recovery.Diff.ImgRoundTrip
import Recovery.Zip.Extract

namespace Recovery
namespace Diff

open Patch
open Zip (Inflater Inflated)

variable (s : Inflater)

/-- The loop around `inflate`: the data and the input that is left. -/
def growLoop : ℕ → s.St → Bytes → ℕ → Bytes → Except Stop (Bytes × ℕ)
  | 0, _, _, _, _ => .error .hang
  | n + 1, st, input, allocated, data =>
    let r := s.inflate st input (allocated - data.length)
    let input := input.drop r.consumed
    let data := data ++ r.out
    let allocated := if data.length = allocated then allocated * 2 else allocated
    -- an error of `inflate` is no reason to stop
    if r.code = zStreamEnd then pure (data, input.length) else growLoop n r.st input allocated data

/-- Inflating the input in at most `calls` calls: the data and `avail_in`. -/
def grow (calls : ℕ) (input : Bytes) : Except Stop (Bytes × ℕ) := growLoop s calls s.init input 32768 []

/-- The chunks of a member, after the check of its footer. -/
def memberChunks (file : Bytes) (pos : ℕ) (data : Bytes) (deflateLen : ℕ) : Except Stop (List ImageChunk × ℕ) := do
  let footer := pos + gzipHeaderLen + deflateLen
  let footerSize ← sliceLE (padded file) (footer + gzipFooterLen - 4) 4
  failIf (s32 footerSize ≠ data.length) (.ret 1)
  pure ([normalAt pos gzipHeaderLen,
    { type := .deflate, start := pos + gzipHeaderLen, len := data.length, data := .heap data, deflateLen,
      deflateData := pos + gzipHeaderLen },
    normalAt footer gzipFooterLen], footer + gzipFooterLen)

/-- The chunks of a gzip member and the position behind it. -/
def splitMember (calls : ℕ) (file : Bytes) (pos : ℕ) : Except Stop (List ImageChunk × ℕ) := do
  -- the length of the input of `inflate` would be negative
  failIf (file.length < pos + gzipHeaderLen) .fault
  let (data, availIn) ← grow s calls (file.drop (pos + gzipHeaderLen))
  memberChunks file pos data (file.length - availIn - (pos + gzipHeaderLen))

/-- The loop takes the branch for a gzip member. -/
def MemberAt (file : Bytes) (pos : ℕ) : Prop := 4 ≤ file.length - pos ∧ gzipAt (padded file) pos

instance (file : Bytes) (pos : ℕ) : Decidable (MemberAt file pos) := inferInstanceAs (Decidable (_ ∧ _))

/-- The loop of `ReadImage`, around what it does with a member. -/
def chunkLoop (member : ℕ → Except Stop (List ImageChunk × ℕ)) (file : Bytes) : ℕ → ℕ → Except Stop (List ImageChunk)
  | 0, _ => .error .hang
  | n + 1, pos =>
    if pos < file.length then
      if MemberAt file pos then do
        let (chunks, pos) ← member pos
        let rest ← chunkLoop member file n pos
        pure (chunks ++ rest)
      else do
        let len := findGzip (padded file) (file.length - pos) pos
        let rest ← chunkLoop member file n (pos + len)
        pure (normalAt pos len :: rest)
    else pure []

/-- `ReadImage`, in at most `rounds` rounds with at most `calls` calls of `inflate` each. -/
def splitImage (rounds calls : ℕ) (file : Bytes) : Except Stop (List ImageChunk) :=
  chunkLoop (splitMember s calls file) file rounds 0

/-! ### The files it ends on -/

/-- Called with a buffer that doubles when it is full, the decoder comes to the end of its
stream, with `used` more bytes of the input and `final` in the buffer. -/
inductive StreamEnds : s.St → Bytes → ℕ → Bytes → ℕ → Bytes → Prop
  | last {st : s.St} {input : Bytes} {allocated : ℕ} {data : Bytes} {r : Inflated s.St}
      (call : s.inflate st input (allocated - data.length) = r) (code : r.code = zStreamEnd) :
      StreamEnds st input allocated data r.consumed (data ++ r.out)
  | more {st : s.St} {input : Bytes} {allocated : ℕ} {data : Bytes} {r : Inflated s.St} {used : ℕ} {final : Bytes}
      (call : s.inflate st input (allocated - data.length) = r) (code : r.code ≠ zStreamEnd)
      (rest : StreamEnds r.st (input.drop r.consumed)
        (if (data ++ r.out).length = allocated then allocated * 2 else allocated) (data ++ r.out) used final) :
      StreamEnds st input allocated data (r.consumed + used) final

/-- The stream behind the gzip header at `pos` ends after `used` bytes, which stand for `data`. -/
def StreamAt (file : Bytes) (pos used : ℕ) (data : Bytes) : Prop :=
  pos + gzipHeaderLen ≤ file.length ∧ StreamEnds s s.init (file.drop (pos + gzipHeaderLen)) 32768 [] used data

/-- The gzip members and what is between them, in the order of the file: the positions where
one of them begins. -/
inductive Reaches (file : Bytes) : ℕ → Prop
  | start : Reaches file 0
  | member {pos used footerSize : ℕ} {data : Bytes} : Reaches file pos → pos < file.length → MemberAt file pos →
      StreamAt s file pos used data →
      sliceLE (padded file) (pos + gzipHeaderLen + used + gzipFooterLen - 4) 4 = .ok footerSize → s32 footerSize = data.length →
      Reaches file (pos + gzipHeaderLen + used + gzipFooterLen)
  | scan {pos : ℕ} : Reaches file pos → pos < file.length → ¬ MemberAt file pos →
      Reaches file (pos + findGzip (padded file) (file.length - pos) pos)

/-- Header, stream and footer of a gzip member are there. -/
def Whole (file : Bytes) (pos : ℕ) : Prop :=
  ∃ used data, StreamAt s file pos used data ∧ pos + gzipHeaderLen + used + gzipFooterLen ≤ (padded file).length

/-- Every member is whole, and the file does not end in three bytes of a magic. -/
structure Splittable (file : Bytes) : Prop where
  whole : ∀ pos, Reaches s file pos → pos < file.length → MemberAt file pos → Whole s file pos
  noTail : ∀ pos, Reaches s file pos → pos < file.length → gzipAt (padded file) pos → 4 ≤ file.length - pos

variable {s} {file : Bytes}

/-! ### Calls -/

theorem growLoop_mono : ∀ {n m : ℕ} {st : s.St} {input : Bytes} {allocated : ℕ} {data : Bytes} {r : Bytes × ℕ},
    growLoop s n st input allocated data = .ok r → n ≤ m → growLoop s m st input allocated data = .ok r
  | 0, _, _, _, _, _, _, h, _ => absurd h (by simp [growLoop])
  | n + 1, 0, _, _, _, _, _, _, hle => absurd hle (by omega)
  | n + 1, m + 1, st, input, allocated, data, r, h, hle => by
    simp only [growLoop] at h ⊢
    by_cases hcode : (s.inflate st input (allocated - data.length)).code = zStreamEnd
    · rw [if_pos hcode] at h ⊢
      exact h
    · rw [if_neg hcode] at h ⊢
      exact growLoop_mono h (by omega)

theorem StreamEnds.used_le {st : s.St} {input data final : Bytes} {allocated used : ℕ}
    (h : StreamEnds s st input allocated data used final) :
    used ≤ input.length := by
  induction h with
  | last call _ =>
    subst call
    exact s.consumed_le _ _ _
  | @more st input allocated data _ _ _ call _ _ ih =>
    subst call
    have hle := s.consumed_le st input (allocated - data.length)
    rw [List.length_drop] at ih
    omega

theorem StreamEnds.growLoop {st : s.St} {input data final : Bytes} {allocated used : ℕ}
    (h : StreamEnds s st input allocated data used final) : ∃ n,
      growLoop s n st input allocated data = .ok (final, input.length - used) := by
  induction h with
  | last call code =>
    refine ⟨1, ?_⟩
    simp only [Diff.growLoop, call]
    rw [if_pos code, List.length_drop]
    rfl
  | more call code _ ih =>
    obtain ⟨n, ih⟩ := ih
    refine ⟨n + 1, ?_⟩
    simp only [Diff.growLoop, call]
    rw [if_neg code, ih, List.length_drop, Nat.sub_sub]

theorem growLoop_streamEnds : ∀ (n : ℕ) {st : s.St} {input data : Bytes} {allocated : ℕ} {r : Bytes × ℕ},
    growLoop s n st input allocated data = .ok r → ∃ used, StreamEnds s st input allocated data used r.1 ∧ r.2 = input.length - used
  | 0, _, _, _, _, _, h => absurd h (by simp [growLoop])
  | n + 1, st, input, data, allocated, r, h => by
    simp only [growLoop] at h
    split_ifs at h with hcode hfull
    · obtain rfl := pure_eq_ok.mp h
      exact ⟨_, .last rfl hcode, List.length_drop⟩
    all_goals
      obtain ⟨used, hends, hr⟩ := growLoop_streamEnds n h
      refine ⟨(s.inflate st input (allocated - data.length)).consumed + used, .more rfl hcode ?_, ?_⟩
      · simpa only [hfull, if_true, if_false] using hends
      · rw [hr, List.length_drop, Nat.sub_sub]

theorem growLoop_error : ∀ (n : ℕ) (st : s.St) (input data : Bytes) (allocated : ℕ) {stop : Stop},
    growLoop s n st input allocated data = .error stop → stop = .hang
  | 0, _, _, _, _, _, h => (Except.error.inj h).symm
  | n + 1, st, input, data, allocated, stop, h => by
    simp only [growLoop] at h
    split at h
    · cases h
    · exact growLoop_error n _ _ _ _ h

/-- A decoder that does not come to the end is called again and again. -/
theorem growLoop_hangs (n : ℕ) {st : s.St} {input data : Bytes} {allocated : ℕ}
    (h : ∀ used final, ¬ StreamEnds s st input allocated data used final) : growLoop s n st input allocated data = .error .hang := by
  cases hrun : growLoop s n st input allocated data with
  | error stop => rw [growLoop_error n _ _ _ _ hrun]
  | ok r =>
    obtain ⟨used, hends, -⟩ := growLoop_streamEnds n hrun
    exact absurd hends (h _ _)

/-- The stream of a member is found by enough calls. -/
theorem StreamAt.grow {pos used : ℕ} {data : Bytes} (h : StreamAt s file pos used data) :
    ∃ calls, grow s calls (file.drop (pos + gzipHeaderLen)) = .ok (data, file.length - (pos + gzipHeaderLen) - used) ∧
      pos + gzipHeaderLen + used ≤ file.length := by
  obtain ⟨calls, hcalls⟩ := h.2.growLoop
  have hle := h.2.used_le
  rw [List.length_drop] at hcalls hle
  exact ⟨calls, hcalls, by have := h.1; omega⟩

/-! ### Rounds -/

/-- A complete member gives three chunks and a position behind it, or an error. -/
theorem memberChunks_returns {pos deflateLen : ℕ} (data : Bytes)
    (hin : pos + gzipHeaderLen + deflateLen + gzipFooterLen ≤ (padded file).length) :
    memberChunks file pos data deflateLen = .error (.ret 1) ∨
    ∃ member, memberChunks file pos data deflateLen = .ok (member, pos + gzipHeaderLen + deflateLen + gzipFooterLen) ∧
      member.length = 3 := by
  have h8 : gzipFooterLen = 8 := rfl
  have hsize := sliceLE_eq_ok.mpr ⟨_, slice_of_le (padded file)
    (i := (pos + gzipHeaderLen + deflateLen : ℕ) + (gzipFooterLen : ℕ) - 4) (n := 4) (by omega) (by omega), rfl⟩
  rw [memberChunks, hsize, ok_bind, failIf_bind]
  generalize LittleEndian.ofBytes _ = footerSize
  split_ifs
  · exact .inl rfl
  · exact .inr ⟨_, rfl, rfl⟩

theorem findGzip_pos {img : Bytes} {n i : ℕ} (hn : 0 < n) (h : ¬ gzipAt img i) : 0 < findGzip img n i := by
  cases n with
  | zero => exact absurd hn (lt_irrefl 0)
  | succ n =>
    rw [findGzip, if_neg h]
    exact Nat.succ_pos _

/-- An error that is reported, or at most `n` chunks. -/
def Answered (n : ℕ) (answer : Except Stop (List ImageChunk)) : Prop :=
  answer = .error (.ret 1) ∨ ∃ chunks, answer = .ok chunks ∧ chunks.length ≤ n

/-- The members whose stream ends within `least` calls are split as `s` says. -/
def SplitsAs (s : Inflater) (file : Bytes) (least : ℕ) (member : ℕ → Except Stop (List ImageChunk × ℕ)) : Prop :=
  ∀ pos data availIn, pos + gzipHeaderLen ≤ file.length → grow s least (file.drop (pos + gzipHeaderLen)) = .ok (data, availIn) →
    member pos = memberChunks file pos data (file.length - availIn - (pos + gzipHeaderLen))

theorem SplitsAs.mono {least least' : ℕ} {member : ℕ → Except Stop (List ImageChunk × ℕ)} (h : SplitsAs s file least' member)
    (hle : least ≤ least') : SplitsAs s file least member :=
  fun pos data availIn hhead hgrow => h pos data availIn hhead (growLoop_mono hgrow hle)

theorem splitMember_splitsAs (calls : ℕ) : SplitsAs s file calls (splitMember s calls file) := by
  intro pos data availIn hhead hgrow
  rw [splitMember, failIf_bind, if_neg (by omega), hgrow, ok_bind]

theorem memberChunks_ok {pos deflateLen footerSize : ℕ} {data : Bytes}
    (hsize : sliceLE (padded file) (pos + gzipHeaderLen + deflateLen + gzipFooterLen - 4) 4 = .ok footerSize)
    (heq : s32 footerSize = data.length) : ∃ member, member.length = 3 ∧
      memberChunks file pos data deflateLen = .ok (member, pos + gzipHeaderLen + deflateLen + gzipFooterLen) := by
  have hsize' : sliceLE (padded file) ((pos + gzipHeaderLen + deflateLen : ℕ) + (gzipFooterLen : ℕ) - 4) 4 = .ok footerSize := by
    push_cast at hsize ⊢
    exact hsize
  refine ⟨[normalAt pos gzipHeaderLen,
    { type := .deflate, start := pos + gzipHeaderLen, len := data.length, data := .heap data, deflateLen,
      deflateData := pos + gzipHeaderLen },
    normalAt (pos + gzipHeaderLen + deflateLen) gzipFooterLen], rfl, ?_⟩
  rw [memberChunks, hsize', ok_bind, failIf_bind, if_neg (not_not.mpr heq)]
  rfl

theorem sliceLE_footer {pos deflateLen : ℕ} (hin : pos + gzipHeaderLen + deflateLen + gzipFooterLen ≤ (padded file).length) :
    ∃ footerSize, sliceLE (padded file) (pos + gzipHeaderLen + deflateLen + gzipFooterLen - 4) 4 = .ok footerSize := by
  have h8 : gzipFooterLen = 8 := rfl
  exact ⟨_, sliceLE_eq_ok.mpr ⟨_, slice_of_le (padded file) (by omega) (by omega), rfl⟩⟩

/-- By induction on the bytes that are left: every round takes at least one. -/
theorem chunkLoop_settles (hs : Splittable s file) : ∀ (k pos : ℕ), file.length ≤ pos + k → Reaches s file pos →
    ∃ answer least, Answered (file.length - pos) answer ∧
      ∀ member, SplitsAs s file least member → ∀ n > k, chunkLoop member file n pos = answer := by
  intro k
  induction k with
  | zero =>
    intro pos hk _
    refine ⟨.ok [], 0, .inr ⟨[], rfl, Nat.zero_le _⟩, fun member _ n hn => ?_⟩
    obtain ⟨n, rfl⟩ := Nat.exists_eq_add_of_lt hn
    rw [chunkLoop, if_neg (by omega)]
    rfl
  | succ k ih =>
    intro pos hk hr
    by_cases hlt : pos < file.length
    swap
    · obtain ⟨answer, least, hans, hrun⟩ := ih pos (by omega) hr
      exact ⟨answer, least, hans, fun member hm n hn => hrun member hm n (by omega)⟩
    by_cases hm : MemberAt file pos
    · obtain ⟨used, data, hstream, hfooter⟩ := hs.whole pos hr hlt hm
      obtain ⟨calls, hgrow, hend⟩ := hstream.grow
      obtain ⟨footerSize, hsize⟩ := sliceLE_footer hfooter
      have hhead := hstream.1
      have h10 : gzipHeaderLen = 10 := rfl
      have h8 : gzipFooterLen = 8 := rfl
      have hlen : file.length - (file.length - (pos + gzipHeaderLen) - used) - (pos + gzipHeaderLen) = used := by omega
      by_cases heq : s32 footerSize = data.length
      · obtain ⟨chunks, hthree, hret⟩ := memberChunks_ok hsize heq
        obtain ⟨answer, least, hans, hrun⟩ := ih _ (by omega) (.member hr hlt hm hstream hsize heq)
        refine ⟨answer >>= fun rest => pure (chunks ++ rest), max calls least, ?_, fun member hmem n hn => ?_⟩
        · rcases hans with rfl | ⟨rest, rfl, hrest⟩
          · exact .inl rfl
          · refine .inr ⟨chunks ++ rest, rfl, ?_⟩
            rw [List.length_append]
            omega
        · obtain ⟨n, rfl⟩ := Nat.exists_eq_add_of_lt hn
          rw [chunkLoop, if_pos hlt, if_pos hm, hmem.mono (le_max_left _ _) pos data _ hhead hgrow, hlen, hret, ok_bind]
          simp only
          rw [hrun member (hmem.mono (le_max_right _ _)) _ (by omega)]
      · refine ⟨.error (.ret 1), calls, .inl rfl, fun member hmem n hn => ?_⟩
        obtain ⟨n, rfl⟩ := Nat.exists_eq_add_of_lt hn
        rw [chunkLoop, if_pos hlt, if_pos hm, hmem pos data _ hhead hgrow, hlen]
        have hret := (memberChunks_returns data hfooter).resolve_right fun ⟨member, hret, _⟩ => ?_
        · rw [hret, error_bind]
        · rw [memberChunks] at hret
          push_cast at hret hsize
          rw [hsize, ok_bind, failIf_bind, if_pos heq] at hret
          cases hret
    · have hmove : 0 < findGzip (padded file) (file.length - pos) pos :=
        findGzip_pos (by omega) fun hgz => hm ⟨hs.noTail pos hr hlt hgz, hgz⟩
      obtain ⟨answer, least, hans, hrun⟩ := ih _ (by omega) (.scan hr hlt hm)
      set len := findGzip (padded file) (file.length - pos) pos
      refine ⟨answer >>= fun rest => pure (normalAt pos len :: rest), least, ?_, fun member hmem n hn => ?_⟩
      · rcases hans with rfl | ⟨rest, rfl, hrest⟩
        · exact .inl rfl
        · refine .inr ⟨_ :: rest, rfl, ?_⟩
          rw [List.length_cons]
          omega
      · obtain ⟨n, rfl⟩ := Nat.exists_eq_add_of_lt hn
        rw [chunkLoop, if_pos hlt, if_neg hm]
        simp only
        rw [hrun member hmem _ (by omega)]

/-! ### The files it does not end on -/

/-- The loop comes to every position that is reached, with the chunks before it. -/
theorem Reaches.chunkLoop {pos : ℕ} (h : Reaches s file pos) : ∃ k least chunks, ∀ calls ≥ least, ∀ n,
    chunkLoop (splitMember s calls file) file (n + k) 0 =
      chunkLoop (splitMember s calls file) file n pos >>= fun rest => pure (chunks ++ rest) := by
  induction h with
  | start =>
    refine ⟨0, 0, [], fun calls _ n => ?_⟩
    cases Diff.chunkLoop (splitMember s calls file) file n 0 <;> rfl
  | member hr hlt hm hstream hsize heq ih =>
    obtain ⟨k, least, chunks, ih⟩ := ih
    obtain ⟨calls₀, hgrow, hend⟩ := hstream.grow
    obtain ⟨member, -, hret⟩ := memberChunks_ok hsize heq
    refine ⟨k + 1, max least calls₀, chunks ++ member, fun calls hcalls n => ?_⟩
    have hhead := hstream.1
    rw [show n + (k + 1) = (n + 1) + k by omega, ih calls (le_of_max_le_left hcalls), Diff.chunkLoop, if_pos hlt, if_pos hm,
      (splitMember_splitsAs calls).mono (le_of_max_le_right hcalls) _ _ _ hhead hgrow,
      show ∀ a b c : ℕ, b + c ≤ a → a - (a - b - c) - b = c by omega, hret, ok_bind]
    · dsimp only
      generalize Diff.chunkLoop _ _ _ _ = rest
      cases rest with
      | error => rfl
      | ok rest =>
        show Except.ok (chunks ++ (member ++ rest)) = Except.ok (chunks ++ member ++ rest)
        rw [List.append_assoc]
    · omega
  | @scan pos hr hlt hm ih =>
    obtain ⟨k, least, chunks, ih⟩ := ih
    refine ⟨k + 1, least, chunks ++ [normalAt pos (findGzip (padded file) (file.length - pos) pos)], fun calls hcalls n => ?_⟩
    rw [show n + (k + 1) = (n + 1) + k by omega, ih calls hcalls, Diff.chunkLoop, if_pos hlt, if_neg hm]
    dsimp only
    generalize Diff.chunkLoop _ _ _ _ = rest
    cases rest with
    | error => rfl
    | ok rest =>
      exact congrArg Except.ok (List.append_cons ..)

/-- At three bytes of a magic the scanner reads the zero of the padding and stands still. -/
theorem chunkLoop_tail (member : ℕ → Except Stop (List ImageChunk × ℕ)) {pos : ℕ} (hlt : pos < file.length)
    (hgz : gzipAt (padded file) pos) (hshort : file.length - pos < 4) : ∀ n, chunkLoop member file n pos = .error .hang
  | 0 => rfl
  | n + 1 => by
    have hfind : findGzip (padded file) (file.length - pos) pos = 0 := by
      cases hleft : file.length - pos with
      | zero => rfl
      | succ k => rw [findGzip, if_pos hgz]
    rw [chunkLoop, if_pos hlt, if_neg fun hm => absurd hm.1 (by omega)]
    simp only [hfind, Nat.add_zero, chunkLoop_tail member hlt hgz hshort n, error_bind]

theorem splitMember_fails {pos : ℕ} (h : ¬ Whole s file pos) (calls : ℕ) :
    splitMember s calls file pos = .error .fault ∨ splitMember s calls file pos = .error .hang := by
  rw [splitMember, failIf_bind]
  by_cases hhead : pos + gzipHeaderLen ≤ file.length
  swap
  · exact .inl (by rw [if_pos (by omega)])
  rw [if_neg (by omega)]
  cases hgrow : grow s calls (file.drop (pos + gzipHeaderLen)) with
  | error stop =>
    rw [growLoop_error _ _ _ _ _ hgrow]
    exact .inr rfl
  | ok r =>
    left
    obtain ⟨used, hends, hr⟩ := growLoop_streamEnds _ hgrow
    have hused := hends.used_le
    rw [List.length_drop] at hr hused
    have hout : ¬ pos + gzipHeaderLen + used + gzipFooterLen ≤ (padded file).length := fun hin => h ⟨used, r.1, ⟨hhead, hends⟩, hin⟩
    have h8 : gzipFooterLen = 8 := rfl
    obtain ⟨data, availIn⟩ := r
    dsimp only at hr hends
    rw [ok_bind]
    dsimp only
    rw [memberChunks, hr, show file.length - (file.length - (pos + gzipHeaderLen) - used) - (pos + gzipHeaderLen) = used by omega]
    have hslice : sliceLE (padded file) ((pos + gzipHeaderLen + used : ℕ) + (gzipFooterLen : ℕ) - 4) 4 = .error .fault := by
      have : slice (padded file) ((pos + gzipHeaderLen + used : ℕ) + (gzipFooterLen : ℕ) - 4) 4 = .error .fault := if_neg (by omega)
      rw [sliceLE, this]
      rfl
    rw [hslice]
    rfl

/-- **`ReadImage` returns just on the splittable files**: with an error, or with at most as many chunks as the file has bytes. -/
theorem splitImage_returns : (∃ answer calls₀, Answered file.length answer ∧
    ∀ rounds > file.length, ∀ calls ≥ calls₀, splitImage s rounds calls file = answer) ↔ Splittable s file := by
  refine ⟨fun ⟨answer, calls₀, hans, hrun⟩ => ?_, fun hs => ?_⟩
  swap
  · obtain ⟨answer, least, hans, hrun⟩ := chunkLoop_settles hs file.length 0 (by omega) .start
    exact ⟨answer, least, hans, fun rounds hr calls hc => hrun _ ((splitMember_splitsAs calls).mono hc) rounds hr⟩
  -- an error at a position that is reached is the answer
  have hbad : ∀ pos, Reaches s file pos → (∀ calls n, ∃ stop : Stop, stop ≠ .ret 1 ∧
      chunkLoop (splitMember s calls file) file (n + 1) pos = .error stop) → False := by
    intro pos hr hstop
    obtain ⟨k, least, chunks, hloop⟩ := hr.chunkLoop
    obtain ⟨stop, hne, hstop⟩ := hstop (max calls₀ least) file.length
    have hanswer := hrun (file.length + 1 + k) (by omega) (max calls₀ least) (le_max_left _ _)
    rw [splitImage, hloop _ (le_max_right _ _), hstop, error_bind] at hanswer
    rcases hans with rfl | ⟨rest, rfl, -⟩
    · exact hne (Except.error.inj hanswer)
    · cases hanswer
  refine ⟨fun pos hr hlt hm => ?_, fun pos hr hlt hgz => ?_⟩
  · by_contra hwhole
    refine hbad pos hr fun calls n => ?_
    rw [chunkLoop, if_pos hlt, if_pos hm]
    rcases splitMember_fails hwhole calls with hfail | hfail
    · exact ⟨.fault, by decide, by rw [hfail]; rfl⟩
    · exact ⟨.hang, by decide, by rw [hfail]; rfl⟩
  · by_contra hshort
    exact hbad pos hr fun calls n => ⟨.hang, by decide, chunkLoop_tail _ hlt hgz (by omega) _⟩

def gzipHeader : Bytes := [0x1f, 0x8b, 8, 0, 0, 0, 0, 0, 0, 3]

/-- A decoder of zeros: its state is how many of them are still to come, and the two bytes
`3, 0` stand for all of them. Every other stream is refused. -/
abbrev zeros (total : ℕ) : Inflater where
  St := ℕ
  init := total
  inflate left input room :=
    if [3, 0] <+: input then
      if left ≤ room then ⟨zStreamEnd, 2, List.replicate left 0, 0⟩ else ⟨zOk, 0, List.replicate room 0, left - room⟩
    else ⟨-3, 0, [], left⟩
  consumed_le left input room := by
    split_ifs with h
    · exact h.length_le
    · exact Nat.zero_le _
    · exact Nat.zero_le _
  out_le left input room := by split_ifs <;> simp_all
  steps := 1

theorem zeros_refuses {total : ℕ} {input : Bytes} (h : ¬ [3, 0] <+: input) (st : (zeros total).St) (room : ℕ) :
    (zeros total).inflate st input room = ⟨-3, 0, [], st⟩ := if_neg h

theorem streamEnds_zeros {total : ℕ} {st : (zeros total).St} {input data final : Bytes} {allocated used : ℕ}
    (h : StreamEnds (zeros total) st input allocated data used final) : [3, 0] <+: input := by
  induction h with
  | last call code =>
    by_contra hp
    rw [zeros_refuses hp] at call
    rw [← call] at code
    exact absurd code (show (-3 : ℤ) ≠ zStreamEnd by decide)
  | more call code _ ih =>
    by_contra hp
    rw [zeros_refuses hp] at call
    rw [← call] at ih
    exact hp ih

/-- **`ReadImage` does not end** on three bytes of a magic, with any decoder, and not on a gzip header with a stream that is
refused. -/
theorem splitImage_hangs : (∀ (s : Inflater) (rounds calls : ℕ), splitImage s rounds calls [0x1f, 0x8b, 8] = .error .hang) ∧
    ∀ total rounds calls : ℕ, splitImage (zeros total) rounds calls (gzipHeader ++ [7]) = .error .hang := by
  refine ⟨fun s rounds calls => chunkLoop_tail _ (by decide) (by decide +kernel) (by decide) rounds, fun total rounds calls => ?_⟩
  cases rounds with
  | zero => rfl
  | succ n =>
    have hgrow : grow (zeros total) calls ((gzipHeader ++ [7]).drop (0 + gzipHeaderLen)) = .error .hang :=
      growLoop_hangs calls fun _ _ hends => absurd (streamEnds_zeros hends) (by decide +kernel)
    rw [splitImage, chunkLoop, if_pos (by decide +kernel), if_pos (by decide +kernel), splitMember, failIf_bind,
      if_neg (by decide +kernel), hgrow]
    rfl

/-! ### The calls as one -/

/-- What zlib promises of `inflate`. A stream that is complete stands for some data in some
of its bytes; a call that does not come to its end fills the room it is given and leaves the
rest of it to the next call. On any other input no call comes to an end. -/
structure Streaming (s : Inflater) where
  rest : s.St → Bytes → Option (Bytes × ℕ)
  complete : ∀ {st input data n room}, rest st input = some (data, n) → 0 < room →
    (s.inflate st input room).code = zStreamEnd ∧ (s.inflate st input room).out = data ∧ (s.inflate st input room).consumed = n ∨
    (s.inflate st input room).code ≠ zStreamEnd ∧ (s.inflate st input room).out.length = room ∧
      ∃ later n', data = (s.inflate st input room).out ++ later ∧ n = (s.inflate st input room).consumed + n' ∧
        rest (s.inflate st input room).st (input.drop (s.inflate st input room).consumed) = some (later, n')
  refused : ∀ {st input room}, rest st input = none → (s.inflate st input room).code ≠ zStreamEnd ∧
    rest (s.inflate st input room).st (input.drop (s.inflate st input room).consumed) = none

/-- By induction on the data that is still to come: each call but the last fills a room that
is not empty. -/
theorem Streaming.streamEnds (z : Streaming s) : ∀ (k : ℕ) {st : s.St} {input data later : Bytes} {allocated n : ℕ},
    later.length ≤ k → z.rest st input = some (later, n) → data.length < allocated →
    StreamEnds s st input allocated data n (data ++ later)
  | k, st, input, data, later, allocated, n, hk, hrest, hroom => by
    rcases z.complete hrest (show 0 < allocated - data.length by omega) with ⟨hcode, rfl, rfl⟩ |
      ⟨hcode, hfull, later', n', rfl, rfl, hrest'⟩
    · exact .last rfl hcode
    · have hlen : (data ++ (s.inflate st input (allocated - data.length)).out).length = allocated := by
        rw [List.length_append]
        omega
      refine .more rfl hcode ?_
      rw [if_pos hlen, ← List.append_assoc]
      rw [List.length_append] at hk
      obtain ⟨k, rfl⟩ : ∃ k', k = k' + 1 := ⟨k - 1, by omega⟩
      exact z.streamEnds k (by omega) hrest' (by omega)

theorem Streaming.of_streamEnds (z : Streaming s) {st : s.St} {input data final : Bytes} {allocated used : ℕ}
    (h : StreamEnds s st input allocated data used final) : data.length < allocated →
    ∃ later, final = data ++ later ∧ z.rest st input = some (later, used) := by
  induction h with
  | @last st input allocated data r call code =>
    intro hroom
    subst call
    cases hrest : z.rest st input with
    | none => exact absurd code (z.refused hrest).1
    | some r =>
      obtain ⟨later, n⟩ := r
      rcases z.complete hrest (show 0 < allocated - data.length by omega) with ⟨-, rfl, rfl⟩ | ⟨hcode, -⟩
      · exact ⟨_, rfl, rfl⟩
      · exact absurd code hcode
  | @more st input allocated data r used final call code _ ih =>
    intro hroom
    subst call
    have hout := s.out_le st input (allocated - data.length)
    obtain ⟨later, rfl, hlater⟩ := ih (by rw [List.length_append]; split_ifs <;> omega)
    cases hrest : z.rest st input with
    | none =>
      rw [(z.refused hrest).2] at hlater
      cases hlater
    | some r =>
      obtain ⟨all, n⟩ := r
      rcases z.complete hrest (show 0 < allocated - data.length by omega) with ⟨hcode, -⟩ | ⟨-, -, later', n', rfl, rfl, hrest'⟩
      · exact absurd hcode code
      · obtain ⟨rfl, rfl⟩ := Prod.mk.inj (Option.some.inj (hrest'.symm.trans hlater))
        exact ⟨_, List.append_assoc .., rfl⟩

theorem Streaming.streamAt_iff (z : Streaming s) {pos used : ℕ} {data : Bytes} : StreamAt s file pos used data ↔
    pos + gzipHeaderLen ≤ file.length ∧ z.rest s.init (file.drop (pos + gzipHeaderLen)) = some (data, used) := by
  refine and_congr_right fun _ => ⟨fun h => ?_, fun h => z.streamEnds _ le_rfl h (by decide)⟩
  obtain ⟨later, rfl, hrest⟩ := z.of_streamEnds h (by decide)
  exact hrest

theorem gzipMember_splitsAs {cod : Codecs} {z : Zlib cod} (hs : Streaming s)
    (hall : ∀ input, z.inflateAll input = hs.rest s.init input)
    (least : ℕ) : SplitsAs s file least (gzipMember z file) := by
  intro pos data availIn hhead hgrow
  obtain ⟨used, hends, hr⟩ := growLoop_streamEnds _ hgrow
  have hle := hends.used_le
  rw [List.length_drop] at hr hle
  dsimp only at hends hr
  have hrest := (hs.streamAt_iff.mp ⟨hhead, hends⟩).2
  rw [hr, show file.length - (file.length - (pos + gzipHeaderLen) - used) -
    (pos + gzipHeaderLen) = used by omega, gzipMember, failIf_bind,
    if_neg (by omega), hall, hrest]
  rfl

theorem readChunks_eq {cod : Codecs} (z : Zlib cod) : ∀ n pos, readChunks z file n pos = chunkLoop (gzipMember z file) file n pos
  | 0, _ => rfl
  | n + 1, pos => by
    simp only [readChunks, chunkLoop, readChunks_eq z n]
    rfl

def zerosStreaming (total : ℕ) : Streaming (zeros total) where
  rest left input := if [3, 0] <+: input then some (List.replicate left 0, 2) else none
  complete {left input data n room} hrest hroom := by
    split_ifs at hrest with hp
    obtain ⟨rfl, rfl⟩ := Prod.mk.inj (Option.some.inj hrest)
    by_cases hle : left ≤ room
    · have hcall : (zeros total).inflate left input room = ⟨zStreamEnd, 2, List.replicate left 0, 0⟩ :=
        (if_pos hp).trans (if_pos hle)
      rw [hcall]
      exact .inl ⟨rfl, rfl, rfl⟩
    · have hcall : (zeros total).inflate left input room = ⟨zOk, 0, List.replicate room 0, left - room⟩ :=
        (if_pos hp).trans (if_neg hle)
      rw [hcall]
      refine .inr ⟨show zOk ≠ zStreamEnd by decide, by simp, List.replicate (left - room) 0, 2, ?_, rfl, if_pos hp⟩
      rw [← List.replicate_add, Nat.add_sub_cancel' (not_le.mp hle).le]
  refused {left input room} hrest := by
    split_ifs at hrest with hp
    rw [zeros_refuses hp]
    exact ⟨show (-3 : ℤ) ≠ zStreamEnd by decide, if_neg hp⟩

def zerosZlib (total : ℕ) :
    Zlib { knownCodecs with inflate := fun _ n => (zStreamEnd, List.replicate n 0), inflate_le := fun _ _ => by simp } where
  inflateAll b := if [3, 0] <+: b then some (List.replicate total 0, 2) else none
  inflateAll_le b d n h := by
    split_ifs at h with hp
    cases h
    exact hp.length_le
  inflate_exact b d n h := by
    split_ifs at h
    cases h
    simp

/-- A member with the stream of 40000 zeros, for which the buffer of 32768 bytes is filled first. -/
def zerosGzip : Bytes := gzipHeader ++ [3, 0] ++ [0, 0, 0, 0] ++ LittleEndian.toBytes 4 40000

theorem zerosGzip_splittable : Splittable (zeros 40000) zerosGzip := by
  have hrest : (zerosStreaming 40000).rest 40000 (zerosGzip.drop (0 + gzipHeaderLen)) = some (List.replicate 40000 0, 2) := by
    have hp : [3, 0] <+: zerosGzip.drop (0 + gzipHeaderLen) := by decide +kernel
    exact if_pos (e := none) hp
  have hreach : ∀ pos, Reaches (zeros 40000) zerosGzip pos → pos = 0 ∨ pos = 20 := by
    intro pos hr
    induction hr with
    | start => exact .inl rfl
    | member _ hlt _ hstream _ _ ih =>
      rcases ih with rfl | rfl
      · have hused := (zerosStreaming 40000).streamAt_iff.mp hstream |>.2
        obtain ⟨-, rfl⟩ := Prod.mk.inj (Option.some.inj (hrest.symm.trans hused))
        exact .inr rfl
      · exact absurd hlt (by decide +kernel)
    | scan _ hlt hm ih =>
      rcases ih with rfl | rfl
      · exact absurd (by decide +kernel) hm
      · exact absurd hlt (by decide +kernel)
  refine ⟨fun pos hr hlt _ => ?_, fun pos hr hlt _ => ?_⟩
  · rcases hreach pos hr with rfl | rfl
    · exact ⟨2, _, (zerosStreaming 40000).streamAt_iff.mpr ⟨by decide +kernel, hrest⟩, by decide +kernel⟩
    · exact absurd hlt (by decide +kernel)
  · rcases hreach pos hr with rfl | rfl
    · decide +kernel
    · exact absurd hlt (by decide +kernel)

end Diff
end Recovery
