/-
# The prefix of a partition that its name announces

A name `EMMC:<device>:<size>:<sha1>:...` lists sizes with hashes. `LoadPartitionContents`
sorts them by size and loads the smallest listed prefix with a hash that is listed for its
size (`partition_loaded`). A size that no `long` holds is read as the greatest one
(`long_size_misread`).
-/
import Recovery.Patch.Check
import Mathlib.Data.List.TakeWhile

namespace Recovery
namespace Patch

/-! ### Well-formed names -/

def PartitionType.magic : PartitionType → Bytes
  | .mtd => lit "MTD"
  | .emmc => lit "EMMC"

/-- A name that lists pairs of a size and a hash, both as text. -/
def partitionName (type : PartitionType) (partition : Bytes) (pairs : List (Bytes × Bytes)) : Bytes :=
  [0x3a].intercalate (type.magic :: partition :: pairs.flatMap fun p => [p.1, p.2])

def isDigit (c : UInt8) : Bool := 0x30 ≤ c ∧ c ≤ 0x39

def number (digits : Bytes) : ℕ := digits.foldl (fun v c => v * 10 + (c.toNat - 0x30)) 0

/-- A listed pair: a positive size that a `long` holds, and 40 hexadecimal digits. -/
structure GoodPair (p : Bytes × Bytes) : Prop where
  digits : ∀ c ∈ p.1, isDigit c = true
  pos : 0 < number p.1
  fits : number p.1 < 2 ^ 31
  length : p.2.length = 40
  hex : ∀ c ∈ p.2, (hexDigit c).isSome = true

structure GoodName (partition : Bytes) (pairs : List (Bytes × Bytes)) : Prop where
  partition_ne : partition ≠ []
  partition_colon : 0x3a ∉ partition
  pairs_ne : pairs ≠ []
  pairs : ∀ p ∈ pairs, GoodPair p

/-! ### What is read of them -/

theorem parseHex_of_digits : ∀ {n : ℕ} {b : Bytes}, b.length = 2 * n →
    (∀ c ∈ b, (hexDigit c).isSome = true) → (parseHex n b).isSome = true
  | 0, [], _, _ => rfl
  | n + 1, hi :: lo :: rest, hlen, hhex => by
    obtain ⟨h, hh⟩ := Option.isSome_iff_exists.mp (hhex hi (by simp))
    obtain ⟨l, hl⟩ := Option.isSome_iff_exists.mp (hhex lo (by simp))
    have hrest : rest.length = 2 * n := by simp only [List.length_cons] at hlen; omega
    obtain ⟨d, hd⟩ := Option.isSome_iff_exists.mp (parseHex_of_digits hrest fun c hc => hhex c (by simp [hc]))
    simp [parseHex, hh, hl, hd]

theorem GoodPair.digest {p : Bytes × Bytes} (h : GoodPair p) : ∃ digest, parseSha1 p.2 = some digest :=
  Option.isSome_iff_exists.mp (parseHex_of_digits (n := 20) h.length h.hex)

theorem GoodPair.size_ne {p : Bytes × Bytes} (h : GoodPair p) : p.1 ≠ [] := fun hnil => by
  have hpos := h.pos
  rw [hnil] at hpos
  exact absurd hpos (by decide)

theorem GoodPair.sha1_ne {p : Bytes × Bytes} (h : GoodPair p) : p.2 ≠ [] := fun hnil => by
  have hlen := h.length
  rw [hnil] at hlen
  exact absurd hlen (by decide)

theorem GoodPair.size_colon {p : Bytes × Bytes} (h : GoodPair p) : 0x3a ∉ p.1 := fun hmem => absurd (h.digits _ hmem) (by decide)

theorem GoodPair.sha1_colon {p : Bytes × Bytes} (h : GoodPair p) : 0x3a ∉ p.2 := fun hmem => absurd (h.hex _ hmem) (by decide)

theorem foldl_number : ∀ (digits : Bytes) (v : ℕ), (∀ c ∈ digits, isDigit c = true) →
    digits.foldl (fun (v : ℤ) c => v * 10 + (c.toNat - 0x30 : ℤ)) v =
      ((digits.foldl (fun v c => v * 10 + (c.toNat - 0x30)) v : ℕ) : ℤ)
  | [], _, _ => rfl
  | c :: rest, v, h => by
    have hc : 0x30 ≤ c.toNat := by
      have := h c List.mem_cons_self
      simp only [isDigit, decide_eq_true_eq] at this
      exact this.1
    have hv : (v : ℤ) * 10 + (c.toNat - 0x30 : ℤ) = ((v * 10 + (c.toNat - 0x30) : ℕ) : ℤ) := by omega
    rw [List.foldl_cons, List.foldl_cons, hv, foldl_number rest _ fun c' hc' => h c' (List.mem_cons_of_mem _ hc')]

theorem digit_not_sign {c : UInt8} (h : isDigit c = true) : isSpace c = false ∧ c ≠ 0x2d ∧ c ≠ 0x2b := by
  have hlow : (0x30 : UInt8) ≤ c := (of_decide_eq_true h).1
  have hhigh : c ≤ (0x39 : UInt8) := (of_decide_eq_true h).2
  simp only [UInt8.le_iff_toNat_le, UInt8.reduceToNat] at hlow hhigh
  refine ⟨?_, ?_, ?_⟩
  · simp only [isSpace, decide_eq_false_iff_not, not_or, not_and, UInt8.le_iff_toNat_le, UInt8.reduceToNat, ← UInt8.toNat_inj]
    omega
  · rintro rfl
    exact absurd hlow (by decide)
  · rintro rfl
    exact absurd hlow (by decide)

theorem strtol_digits : ∀ {digits : Bytes}, (∀ c ∈ digits, isDigit c = true) → strtol digits = min (number digits : ℤ) (2 ^ 31 - 1)
  | [], _ => by decide
  | c :: rest, h => by
    obtain ⟨hspace, hminus, hplus⟩ := digit_not_sign (h c List.mem_cons_self)
    have htake : ((c :: rest).takeWhile fun c => 0x30 ≤ c ∧ c ≤ 0x39) = c :: rest := List.takeWhile_eq_self_iff.mpr fun c hc => h c hc
    unfold strtol
    rw [List.dropWhile_cons_of_neg (by simp [hspace])]
    have hvalue := foldl_number (c :: rest) 0 h
    rw [Nat.cast_zero] at hvalue
    dsimp only
    split
    · rename_i heq
      exact absurd (List.cons.inj heq).1 hminus
    · rename_i heq
      exact absurd (List.cons.inj heq).1 hplus
    · simp only [htake, hvalue, Bool.false_eq_true, if_false, number]
      exact max_eq_right (le_min (by omega) (by norm_num))

theorem GoodPair.size {p : Bytes × Bytes} (h : GoodPair p) : (u32 (strtol p.1)).toNat = number p.1 := by
  have hfits := h.fits
  rw [strtol_digits h.digits, min_eq_left (by omega), u32]
  omega

theorem readPairs_good : ∀ {pairs : List (Bytes × Bytes)}, (∀ p ∈ pairs, GoodPair p) →
    readPairs pairs.length (pairs.flatMap fun p => [p.1, p.2]) = .ok (pairs.map fun p => (number p.1, some p.2))
  | [], _ => rfl
  | p :: pairs, h => by
    have hp := h p List.mem_cons_self
    have hpos := hp.pos
    rw [List.flatMap_cons, List.length_cons, List.cons_append, List.singleton_append, readPairs,
      failIf_bind, hp.size, if_neg (by omega),
      List.tail_cons, readPairs_good fun q hq => h q (List.mem_cons_of_mem _ hq)]
    rfl

theorem count_intercalate {x : UInt8} : ∀ {ls : List Bytes}, (∀ l ∈ ls, x ∉ l) → ([x].intercalate ls).count x = ls.length - 1
  | [], _ => rfl
  | [l], h => by simpa [List.intercalate] using List.count_eq_zero.mpr (h l List.mem_cons_self)
  | l :: l' :: ls, h => by
    have ih := count_intercalate fun l'' hl'' => h l'' (List.mem_cons_of_mem l hl'')
    have hl : l.count x = 0 := List.count_eq_zero.mpr (h l List.mem_cons_self)
    have hcons : [x].intercalate (l :: l' :: ls) = l ++ x :: [x].intercalate (l' :: ls) := by simp [List.intercalate]
    rw [hcons, List.count_append, List.count_cons_self, ih, hl]
    simp only [List.length_cons]
    omega

section

variable {type : PartitionType} {partition : Bytes} {pairs : List (Bytes × Bytes)}

theorem GoodName.tokens (h : GoodName partition pairs) {t : Bytes}
    (ht : t ∈ type.magic :: partition :: pairs.flatMap fun p => [p.1, p.2]) : 0x3a ∉ t ∧ t ≠ [] := by
  rcases List.mem_cons.mp ht with rfl | ht
  · cases type <;> decide
  rcases List.mem_cons.mp ht with rfl | ht
  · exact ⟨h.partition_colon, h.partition_ne⟩
  obtain ⟨p, hp, ht⟩ := List.mem_flatMap.mp ht
  have hpair := h.pairs p hp
  rcases List.mem_cons.mp ht with rfl | ht
  · exact ⟨hpair.size_colon, hpair.size_ne⟩
  · rw [List.mem_singleton.mp ht]
    exact ⟨hpair.sha1_colon, hpair.sha1_ne⟩

/-- **A well-formed name is taken apart** as it was put together. -/
theorem parsePartitionName_partitionName (h : GoodName partition pairs) :
    parsePartitionName (partitionName type partition pairs) = .ok
      ⟨type, some partition, pairs.map fun p => (number p.1, some p.2)⟩ := by
  have htokens : strtok (partitionName type partition pairs) = type.magic :: partition :: pairs.flatMap fun p => [p.1, p.2] := by
    rw [strtok, partitionName, List.splitOn_intercalate _ (fun t ht => (h.tokens ht).1) (List.cons_ne_nil _ _), List.filter_eq_self]
    exact fun t ht => decide_eq_true (h.tokens ht).2
  have hcolons : ((partitionName type partition pairs).count 0x3a - 1) / 2 = pairs.length := by
    rw [partitionName, count_intercalate fun t ht => (h.tokens ht).1]
    have hlen : (pairs.flatMap fun p => [p.1, p.2]).length = 2 * pairs.length := by
      rw [List.length_flatMap]
      simp [Nat.mul_comm]
    simp only [List.length_cons, hlen]
    omega
  unfold parsePartitionName
  simp only [htokens, hcolons, failIf_bind, List.head?_cons, List.drop_succ_cons, List.drop_zero, readPairs_good h.pairs, ok_bind,
    List.getElem?_cons_succ, List.getElem?_cons_zero]
  cases type <;> rfl

end

/-! ### The loop over the sizes -/

variable (lib : Lib)

def PairMatches (contents : Bytes) (p : ℕ × Option Bytes) : Prop :=
  p.1 ≤ contents.length ∧ p.2.bind parseSha1 = some (lib.sha1 (contents.take p.1))

/-- **The loop finds the smallest match** of the sorted pairs. -/
theorem sizesData_spec (part : Bytes) : ∀ {pairs : List (ℕ × Option Bytes)} (data : Bytes), pairs.Pairwise (fun a b => a.1 ≤ b.1) →
    (∀ p ∈ pairs, data.length ≤ p.1) → (∀ p ∈ pairs, ∃ digest, p.2.bind parseSha1 = some digest) → data = part.take data.length →
    (∃ p ∈ pairs, PairMatches lib part p ∧ (∀ q ∈ pairs, PairMatches lib part q → p.1 ≤ q.1) ∧
      sizesData lib part pairs data = .ok (part.take p.1)) ∨
    ((∀ p ∈ pairs, ¬ PairMatches lib part p) ∧ sizesData lib part pairs data = .error (.ret (-1)))
  | [], data, _, _, _, _ => .inr ⟨by simp, rfl⟩
  | (size, sha1sum) :: rest, data, hsorted, hsizes, hdigests, hdata => by
    obtain ⟨hhead, hrest⟩ := List.pairwise_cons.mp hsorted
    have hsize : data.length ≤ size := hsizes _ List.mem_cons_self
    obtain ⟨digest, hdigest⟩ := hdigests _ List.mem_cons_self
    obtain ⟨str, rfl, hparse⟩ := Option.bind_eq_some_iff.mp hdigest
    have hlen : data.length ≤ part.length := by
      rw [hdata, List.length_take]
      omega
    rw [sizesData]
    by_cases hshort : data.length < size ∧ part.length < size
    · -- neither this prefix nor a longer one can be read
      rw [if_pos hshort]
      refine .inr ⟨fun p hp hmatch => ?_, rfl⟩
      have hle : size ≤ p.1 := by
        rcases List.mem_cons.mp hp with rfl | hp
        · exact le_refl size
        · exact hhead p hp
      exact absurd hmatch.1 (by omega)
    · have hpart : size ≤ part.length := by omega
      have hnext : data ++ (part.drop data.length).take (size - data.length) = part.take size := by
        conv_lhs => rw [hdata, List.length_take, min_eq_left hlen]
        rw [← List.take_add, Nat.add_sub_cancel' hsize]
      rw [if_neg hshort]
      simp only [hnext, hparse]
      split
      · rename_i hhash
        refine .inl ⟨_, List.mem_cons_self, ⟨hpart, hdigest.trans (by rw [hhash])⟩, fun q hq _ => ?_, rfl⟩
        rcases List.mem_cons.mp hq with rfl | hq
        · exact le_refl size
        · exact hhead q hq
      · rename_i hhash
        have hno : ¬ PairMatches lib part (size, some str) := fun hmatch => hhash (Option.some.inj (hmatch.2.symm.trans hdigest))
        have hlength : (part.take size).length = size := by rw [List.length_take, min_eq_left hpart]
        rcases sizesData_spec part (part.take size) hrest (fun p hp => by rw [hlength]; exact hhead p hp)
          (fun p hp => hdigests p (List.mem_cons_of_mem _ hp)) (by rw [hlength]) with ⟨p, hp, hmatch, hleast, heq⟩ | ⟨hnone, heq⟩
        · refine .inl ⟨p, List.mem_cons_of_mem _ hp, hmatch, fun q hq hq' => ?_, heq⟩
          rcases List.mem_cons.mp hq with rfl | hq
          · exact absurd hq' hno
          · exact hleast q hq hq'
        · refine .inr ⟨fun p hp => ?_, heq⟩
          rcases List.mem_cons.mp hp with rfl | hp
          · exact hno
          · exact hnone p hp

/-! ### What is loaded -/

/-- What can be read of a partition: nothing if there is none. -/
def Sys.contents (s : Sys) (type : PartitionType) (partition : Bytes) : Bytes := ((s.partitions type partition).map (·.data)).getD []

/-- The prefix of the listed size has the listed hash. -/
def Listed (contents : Bytes) (p : Bytes × Bytes) : Prop :=
  number p.1 ≤ contents.length ∧ parseSha1 p.2 = some (lib.sha1 (contents.take (number p.1)))

def Smallest (contents : Bytes) (pairs : List (Bytes × Bytes)) (p : Bytes × Bytes) : Prop :=
  p ∈ pairs ∧ Listed lib contents p ∧ ∀ q ∈ pairs, Listed lib contents q → number p.1 ≤ number q.1

theorem partitionData_good (type : PartitionType) {partition : Bytes} {pairs : List (Bytes × Bytes)}
    (h : GoodName partition pairs) (s : Sys) :
    (∃ p, Smallest lib (s.contents type partition) pairs p ∧
      partitionData lib s (partitionName type partition pairs) = .ok ((s.contents type partition).take (number p.1))) ∨
    ((∀ p ∈ pairs, ¬ Listed lib (s.contents type partition) p) ∧
      partitionData lib s (partitionName type partition pairs) = .error (.ret (-1))) := by
  unfold partitionData
  rw [parsePartitionName_partitionName h, ok_bind]
  dsimp only
  cases hpart : s.partitions type partition with
  | none =>
    have hcontents : s.contents type partition = [] := by simp [Sys.contents, hpart]
    refine .inr ⟨fun p hp hlisted => ?_, rfl⟩
    have hpos := (h.pairs p hp).pos
    have hle := hlisted.1
    rw [hcontents, List.length_nil] at hle
    omega
  | some part =>
    have hcontents : s.contents type partition = part.data := by simp [Sys.contents, hpart]
    have hmem : ∀ q, q ∈ lib.qsort (pairs.map fun p => (number p.1, some p.2)) ↔ ∃ p ∈ pairs,
      (number p.1, some p.2) = q := fun q => by
      rw [(lib.qsort_perm _).mem_iff, List.mem_map]
    have hdigests : ∀ q ∈ lib.qsort (pairs.map fun p => (number p.1, some p.2)), ∃ digest, q.2.bind parseSha1 = some digest := by
      intro q hq
      obtain ⟨p, hp, rfl⟩ := (hmem q).mp hq
      exact (h.pairs p hp).digest
    dsimp only
    rw [if_neg (by simp [h.pairs_ne]), hcontents]
    rcases sizesData_spec lib part.data [] (lib.qsort_sorted _) (fun _ _ => Nat.zero_le _) hdigests rfl with
      ⟨q, hq, hmatch, hleast, heq⟩ | ⟨hnone, heq⟩
    · obtain ⟨p, hp, rfl⟩ := (hmem q).mp hq
      exact .inl ⟨p, ⟨hp, hmatch, fun q hq hq' => hleast _ ((hmem _).mpr ⟨q, hq, rfl⟩) hq'⟩, heq⟩
    · exact .inr ⟨fun p hp hlisted => hnone _ ((hmem _).mpr ⟨p, hp, rfl⟩) hlisted, heq⟩

theorem not_diesOf {α : Type} {found : Except Stop α} (h : ∀ stop, found = .error stop →
    stop.dies = false) (e : Failure) : ¬ DiesOf found e := by
  rintro ⟨stop, -, hstop, hdies⟩
  rw [h stop hstop] at hdies
  cases hdies

/-- **The smallest match is loaded.** `LoadPartitionContents` of a well-formed name succeeds exactly if one of the listed prefixes has the hash
that is listed for it; it loads the smallest one, and otherwise it fails with the null pointer. -/
theorem partition_loaded (ev : ℕ → Ev) (hev : ∀ i, (ev i).quiet) (s : Sys) (type : PartitionType) (partition : Bytes)
    (pairs : List (Bytes × Bytes)) (h : GoodName partition pairs) (file : FileContents) (hfile : file.data = none) :
    ∃ code file' n, loadPartitionContents lib (partitionName type partition pairs) file ev 0 s = .ok (code, file') n s ∧
      (code = 0 ↔ ∃ p ∈ pairs, Listed lib (s.contents type partition) p) ∧
      (code = 0 → ∃ p, Smallest lib (s.contents type partition) pairs p ∧
        file'.data = some ((s.contents type partition).take (number p.1)) ∧ file'.size = number p.1 ∧
        file'.sha1 = lib.sha1 ((s.contents type partition).take (number p.1))) ∧
      (code ≠ 0 → code < 0 ∧ file'.data = none) := by
  have hreads := loadPartitionContents_reads lib (P := Ev.quiet) (fun _ hq => hq.1) s (partitionName type partition pairs) file hfile
  rcases partitionData_good lib type h s with ⟨p, hleast, hdata⟩ | ⟨hnone, hdata⟩
  · obtain ⟨⟨code, file'⟩, n, hrun, hloaded⟩ := hreads.runs (fun _ hq => hq.2)
      (not_diesOf fun stop hstop => by rw [hdata] at hstop; cases hstop) hev 0
    refine ⟨code, file', n, hrun, ?_⟩
    rcases hloaded with ⟨hcode, data, hfound, hd, hsize, hsha⟩ | ⟨-, hfound, -⟩
    · have hcode : code = 0 := hcode
      obtain rfl : (s.contents type partition).take (number p.1) = data := Except.ok.inj (hdata.symm.trans hfound)
      refine ⟨⟨fun _ => ⟨p, hleast.1, hleast.2.1⟩, fun _ => hcode⟩, fun _ =>
        ⟨p, hleast, hd, hsize.trans ?_, hsha⟩, fun hne => absurd hcode hne⟩
      rw [List.length_take, min_eq_left hleast.2.1.1]
    · rw [hdata] at hfound
      cases hfound
  · obtain ⟨⟨code, file'⟩, n, hrun, hloaded⟩ := hreads.runs (fun _ hq => hq.2)
      (not_diesOf fun stop hstop => by rw [hdata] at hstop; cases hstop; rfl) hev 0
    refine ⟨code, file', n, hrun, ?_⟩
    rcases hloaded with ⟨-, data, hfound, -⟩ | ⟨hcode, -, hd⟩
    · rw [hdata] at hfound
      cases hfound
    · have hcode : code < 0 := hcode
      exact ⟨⟨fun h0 => absurd h0 (by omega), fun ⟨p, hp, hlisted⟩ => absurd hlisted (hnone p hp)⟩, fun h0 => absurd h0 (by omega),
        fun _ => ⟨hcode, hd⟩⟩

def device (data : Bytes) : Sys := ⟨fun _ => none, fun t p => if t = .emmc ∧ p = lit "/dev/x" then some ⟨data, true⟩ else none⟩

def abcPairs : List (Bytes × Bytes) := [(lit "6", oldSha1Str), (lit "3", oldSha1Str), (lit "03", abcSha1Str)]

/-- Of two hashes for the same size, the second one is that of the prefix. -/
theorem abc_loaded : ∃ file' n, loadPartitionContents abcLib
    (lit "EMMC:/dev/x:6:" ++ oldSha1Str ++ lit ":3:" ++ oldSha1Str ++ lit ":03:" ++ abcSha1Str)
    .blank (fun _ => Ev.fine) 0 (device (lit "abcold")) = .ok (0, file') n (device (lit "abcold")) ∧
      file'.data = some (lit "abc") := by
  have hgood : GoodName (lit "/dev/x") abcPairs :=
    ⟨by decide, by decide, by decide, fun p hp => by
      simp only [abcPairs, List.mem_cons, List.not_mem_nil, or_false] at hp
      rcases hp with rfl | rfl | rfl <;>
        exact ⟨List.all_eq_true.mp (by decide), by decide, by decide, by decide +kernel, List.all_eq_true.mp (by decide +kernel)⟩⟩
  obtain ⟨code, file', n, hrun, hiff, hok, -⟩ :=
    partition_loaded abcLib (fun _ => Ev.fine) (fun _ => ⟨rfl, rfl⟩) (device (lit "abcold")) .emmc
      (lit "/dev/x") abcPairs hgood .blank rfl
  have hlisted : Listed abcLib ((device (lit "abcold")).contents .emmc (lit "/dev/x")) (lit "03", abcSha1Str) := by
    constructor <;> decide +kernel
  obtain rfl : code = 0 := hiff.mpr ⟨_, by simp [abcPairs], hlisted⟩
  obtain ⟨p, ⟨hp, -, hleast⟩, hdata, -⟩ := hok rfl
  have hthree : number p.1 = 3 := by
    have hle : number p.1 ≤ 3 := hleast _ (by simp [abcPairs]) hlisted
    have hall : ∀ p ∈ abcPairs, 3 ≤ number p.1 := by decide
    exact le_antisymm hle (hall p hp)
  rw [hthree] at hdata
  exact ⟨file', n, hrun, hdata⟩

def zerosSha1Str : Bytes := lit "91d50642dd930e9542c39d36f0516d45f4e1af0d"

def zerosSha1 : Bytes :=
  [0x91, 0xd5, 0x06, 0x42, 0xdd, 0x93, 0x0e, 0x95, 0x42, 0xc3, 0x9d, 0x36, 0xf0, 0x51, 0x6d, 0x45, 0xf4, 0xe1, 0xaf, 0x0d]

def zerosLib : Lib := Lib.ofSha1 (fun b => if b.length = 2 ^ 31 then zerosSha1 else []) 64

theorem long_size_data {zeros : Bytes} (hlen : zeros.length = 2 ^ 31) :
    partitionData zerosLib (device zeros) (lit "EMMC:/dev/x:2147483648:" ++ zerosSha1Str) = .error (.ret (-1)) := by
  have hname : parsePartitionName (lit "EMMC:/dev/x:2147483648:" ++ zerosSha1Str)
      = .ok ⟨.emmc, some (lit "/dev/x"), [(2147483647, some zerosSha1Str)]⟩ := by rfl
  have hparse : parseSha1 zerosSha1Str = some zerosSha1 := by decide +kernel
  have hhash : zerosLib.sha1 (zeros.take 2147483647) ≠ zerosSha1 := by
    simp only [zerosLib, Lib.ofSha1, List.length_take, hlen]
    decide
  have hloop : sizesData zerosLib zeros [(2147483647, some zerosSha1Str)] [] = .error (.ret (-1)) := by
    rw [sizesData, if_neg (by rw [hlen]; decide)]
    simp only [List.length_nil, List.drop_zero, Nat.sub_zero, List.nil_append, hparse]
    rw [if_neg hhash]
    rfl
  unfold partitionData
  rw [hname, ok_bind]
  exact hloop

/-- **A size that no `long` holds is misread.** The device holds 2 GiB of zeros, and the name lists this size and the hash of the zeros; one byte
less is looked at, and the load fails. -/
theorem long_size_misread :
    Listed zerosLib (List.replicate (2 ^ 31) 0) (lit "2147483648", zerosSha1Str) ∧
    (device (List.replicate (2 ^ 31) 0)).contents .emmc (lit "/dev/x") = List.replicate (2 ^ 31) 0 ∧
    partitionName .emmc (lit "/dev/x") [(lit "2147483648", zerosSha1Str)] = lit "EMMC:/dev/x:2147483648:" ++ zerosSha1Str ∧
    ∃ code file' n, loadPartitionContents zerosLib (lit "EMMC:/dev/x:2147483648:" ++ zerosSha1Str) .blank (fun _ => Ev.fine) 0
      (device (List.replicate (2 ^ 31) 0)) = .ok (code, file') n (device (List.replicate (2 ^ 31) 0)) ∧ code < 0 := by
  have hlen : (List.replicate (2 ^ 31) (0 : UInt8)).length = 2 ^ 31 := List.length_replicate
  generalize List.replicate (2 ^ 31) (0 : UInt8) = zeros at hlen
  refine ⟨⟨?_, ?_⟩, rfl, by decide, ?_⟩
  · rw [hlen]
    decide
  · have hnumber : number (lit "2147483648") = 2 ^ 31 := by decide
    have hparse : parseSha1 zerosSha1Str = some zerosSha1 := by decide +kernel
    simp only [hnumber, hparse, ← hlen, List.take_length]
    simp [zerosLib, Lib.ofSha1, hlen]
  · have hfine : ∀ i : ℕ, ((fun _ => Ev.fine : ℕ → Ev) i).quiet := fun _ => ⟨rfl, rfl⟩
    obtain ⟨⟨code, file'⟩, n, hrun, hloaded⟩ :=
      (loadPartitionContents_reads zerosLib (P := Ev.quiet) (fun _ hq => hq.1) (device zeros) _ .blank rfl).runs (fun _ hq => hq.2)
        (not_diesOf fun stop hstop => by rw [long_size_data hlen] at hstop; cases hstop; rfl) hfine 0
    refine ⟨code, file', n, hrun, ?_⟩
    rcases hloaded with ⟨-, data, hfound, -⟩ | ⟨hcode, -⟩
    · rw [long_size_data hlen] at hfound
      cases hfound
    · exact hcode

end Patch
end Recovery
