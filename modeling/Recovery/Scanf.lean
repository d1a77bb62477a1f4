/-
# Scanning formatted text

`fscanf` and `sscanf`: a format is a list of directives, a scan gives the values that were
converted and the text behind the last directive that matched. A text is `Spaced` when it is
a list of tokens with any white space around them, and what a format makes of it is put
together token by token (`Scans`).
-/
import Recovery.Text

namespace Recovery

/-! ### Formats -/

inductive Directive
  /-- White space, which matches any amount of it. -/
  | space
  /-- Any other character, which matches itself. -/
  | text (c : UInt8)
  /-- `%c`. -/
  | char
  /-- A number: base 10 for `%d` and `%u`, 16 for `%x`, and 0 for `%i`, which finds it from the text. -/
  | int (base : ℕ)
  deriving DecidableEq, Repr

def directives : List Char → List Directive
  | '%' :: 'c' :: rest => .char :: directives rest
  | '%' :: 'd' :: rest => .int 10 :: directives rest
  | '%' :: 'u' :: rest => .int 10 :: directives rest
  | '%' :: 'x' :: rest => .int 16 :: directives rest
  | '%' :: 'i' :: rest => .int 0 :: directives rest
  | c :: rest => (if c.isWhitespace then .space else .text (UInt8.ofNat c.toNat)) :: directives rest
  | [] => []

def format (s : String) : List Directive := directives s.toList

/-- The base of the digits, and the text behind a `0x` that belongs to it. -/
def scanBase (base : ℕ) (s : Bytes) : ℕ × Bytes :=
  if base = 0 then detectBase s
  else if base = 16 ∧ (detectBase s).1 = 16 then detectBase s
  else (base, s)

/-- White space, a sign and digits: the number and the text behind it. -/
def scanInt (base : ℕ) (s : Bytes) : Option (ℤ × Bytes) :=
  let (minus, rest) := skipSign s
  let (base, rest) := scanBase base rest
  let digits := rest.takeWhile (isDigit base)
  if digits = [] then none
  else some (if minus then -(number base digits : ℤ) else number base digits, rest.dropWhile (isDigit base))

/-- The values up to the first directive that does not match, and the text that is left. -/
def fscanf : List Directive → Bytes → List ℤ × Bytes
  | [], s => ([], s)
  | .space :: fs, s => fscanf fs (s.dropWhile isspace)
  | .text c :: fs, s => match s with
    | [] => ([], [])
    | d :: rest => if c = d then fscanf fs rest else ([], d :: rest)
  | .char :: fs, s => match s with
    | [] => ([], [])
    | d :: rest => ((d.toNat : ℤ) :: (fscanf fs rest).1, (fscanf fs rest).2)
  | .int base :: fs, s => match scanInt base s with
    | none => ([], s)
    | some (v, rest) => (v :: (fscanf fs rest).1, (fscanf fs rest).2)

@[simp] theorem fscanf_nil (s : Bytes) : fscanf [] s = ([], s) := rfl

@[simp] theorem fscanf_space (fs : List Directive) (s : Bytes) : fscanf (.space :: fs) s = fscanf fs (s.dropWhile isspace) := rfl

@[simp] theorem fscanf_char_cons (fs : List Directive) (d : UInt8) (rest : Bytes) :
    fscanf (.char :: fs) (d :: rest) = ((d.toNat : ℤ) :: (fscanf fs rest).1, (fscanf fs rest).2) := rfl

@[simp] theorem fscanf_char_nil (fs : List Directive) : fscanf (.char :: fs) [] = ([], []) := rfl

/-! ### Tokens between white space -/

def Blank (ws : Bytes) : Prop := ∀ c ∈ ws, isspace c = true

/-- The tokens, with white space before, between and behind them. -/
def Spaced : List Bytes → Bytes → Prop
  | [], s => Blank s
  | t :: ts, s => ∃ ws rest, Blank ws ∧ s = ws ++ (t ++ rest) ∧ Spaced ts rest

/-- A token starts with a character that is no white space. -/
def Token (t : Bytes) : Prop := ∃ c rest, t = c :: rest ∧ isspace c = false

theorem Blank.dropWhile_append {ws : Bytes} (h : Blank ws) (s : Bytes) :
    (ws ++ s).dropWhile isspace = s.dropWhile isspace := List.dropWhile_append_of_pos h

theorem Blank.dropWhile_eq {ws : Bytes} (h : Blank ws) : ws.dropWhile isspace = [] :=
  List.dropWhile_eq_nil_iff.mpr h

theorem Token.dropWhile_append {t : Bytes} (h : Token t) (s : Bytes) :
    (t ++ s).dropWhile isspace = t ++ s := by
  obtain ⟨c, rest, rfl, hc⟩ := h
  simp [hc]

theorem Spaced.skip {t s : Bytes} {ts : List Bytes} (h : Spaced (t :: ts) s) (ht : Token t) :
    ∃ rest, s.dropWhile isspace = t ++ rest ∧ Spaced ts rest := by
  obtain ⟨ws, rest, hws, rfl, hrest⟩ := h
  exact ⟨rest, by rw [hws.dropWhile_append, ht.dropWhile_append], hrest⟩

theorem Spaced.flatten : ∀ ts : List Bytes, Spaced ts ts.flatten
  | [] => by simp [Spaced, Blank]
  | t :: ts => ⟨[], ts.flatten, by simp [Blank], rfl, flatten ts⟩

theorem Spaced.length_le : ∀ {ts : List Bytes} {s : Bytes}, Spaced ts s → ts.flatten.length ≤ s.length
  | [], _, _ => Nat.zero_le _
  | t :: ts, s, ⟨ws, rest, _, hs, hrest⟩ => by
    have ih := hrest.length_le
    rw [hs, List.flatten_cons]
    simp only [List.length_append]
    omega

/-! ### Numbers in a text -/

def Numeral (base n : ℕ) (digits : Bytes) : Prop :=
  digits ≠ [] ∧ (∀ c ∈ digits, isDigit base c = true) ∧ number base digits = n

instance (base n : ℕ) (digits : Bytes) : Decidable (Numeral base n digits) := inferInstanceAs (Decidable (_ ∧ _ ∧ _))

/-- The text stands for the number, with a minus if it is negative. -/
def SignedNumeral (base : ℕ) (v : ℤ) (t : Bytes) : Prop :=
  (∃ n, Numeral base n t ∧ v = n) ∨ ∃ n digits, t = 0x2d :: digits ∧ Numeral base n digits ∧ v = -n

def printNat (base n : ℕ) : Bytes := (Nat.toDigits base n).map fun c => UInt8.ofNat c.toNat

/-- The character ends a number: it is no digit in any base, and no `x` behind a zero. -/
def Delimiter (c : UInt8) : Prop := digit c = none ∧ c ≠ 0x78 ∧ c ≠ 0x58

instance (c : UInt8) : Decidable (Delimiter c) := inferInstanceAs (Decidable (_ ∧ _ ∧ _))

theorem Delimiter.of_isspace : ∀ c : UInt8, isspace c = true → Delimiter c := forall_byte (by decide +kernel)

theorem Delimiter.isDigit_eq {c : UInt8} (h : Delimiter c) (base : ℕ) : isDigit base c = false := by
  simp [isDigit, h.1]

theorem digit_plain : ∀ c : UInt8, (digit c).isSome = true →
    isspace c = false ∧ c ≠ 0x2d ∧ c ≠ 0x2b ∧ c ≠ 0x78 ∧ c ≠ 0x58 := forall_byte (by decide +kernel)

theorem isDigit_plain {base : ℕ} {c : UInt8} (h : isDigit base c = true) :
    isspace c = false ∧ c ≠ 0x2d ∧ c ≠ 0x2b ∧ c ≠ 0x78 ∧ c ≠ 0x58 := by
  apply digit_plain
  unfold isDigit at h
  exact Option.isSome_of_any h

/-- The text behind a number does not go on with it. -/
def Ended (s : Bytes) : Prop := ∀ c rest, s = c :: rest → Delimiter c

theorem Spaced.ended {c : UInt8} {t s : Bytes} {ts : List Bytes} (h : Spaced ((c :: t) :: ts) s) (hc : Delimiter c) :
    Ended s := by
  obtain ⟨ws, rest, hws, rfl, -⟩ := h
  intro d tail hd
  cases ws with
  | nil => exact (List.cons.inj hd).1 ▸ hc
  | cons w ws => exact (List.cons.inj hd).1 ▸ Delimiter.of_isspace w (hws w List.mem_cons_self)

theorem Numeral.takeWhile_eq {base n : ℕ} {digits s : Bytes} (h : Numeral base n digits) (hs : Ended s) :
    (digits ++ s).takeWhile (isDigit base) = digits ∧ (digits ++ s).dropWhile (isDigit base) = s := by
  rw [List.takeWhile_append_of_pos h.2.1, List.dropWhile_append_of_pos h.2.1]
  cases s with
  | nil => simp
  | cons c rest => simp [(hs c rest rfl).isDigit_eq base]

theorem detectBase_hex {s : Bytes} (h : (detectBase s).1 = 16) :
    ∃ x rest, s = 0x30 :: x :: rest ∧ (x = 0x78 ∨ x = 0x58) := by
  unfold detectBase at h
  split at h
  · rename_i x c rest
    split_ifs at h with hx
    · exact ⟨x, c :: rest, rfl, hx.1⟩
    · simp at h
  · simp at h
  · simp at h

theorem Numeral.scanBase_eq {base n : ℕ} {digits s : Bytes} (h : Numeral base n digits) (hs : Ended s) (hb : base ≠ 0) :
    scanBase base (digits ++ s) = (base, digits ++ s) := by
  obtain ⟨hne, hall, -⟩ := h
  rw [scanBase, if_neg hb, if_neg]
  rintro ⟨-, hhex⟩
  obtain ⟨x, rest, heq, hx⟩ := detectBase_hex hhex
  -- the `x` would be the second digit or the first character behind the number
  match digits, hne with
  | [d], _ =>
    obtain ⟨-, hs'⟩ := List.cons.inj heq
    have hdelim := hs x rest hs'
    exact hx.elim hdelim.2.1 hdelim.2.2
  | d :: e :: tail, _ =>
    obtain ⟨-, rfl, -⟩ : d = 0x30 ∧ e = x ∧ tail ++ s = rest := by simpa using heq
    have hplain := isDigit_plain (hall e (by simp))
    exact hx.elim hplain.2.2.2.1 hplain.2.2.2.2

theorem Numeral.scanBase_zero {n : ℕ} {digits s : Bytes} (h : Numeral 10 n digits) (h0 : digits.head? ≠ some 0x30) :
    scanBase 0 (digits ++ s) = (10, digits ++ s) := by
  match digits, h.1 with
  | d :: tail, _ =>
    have hd : d ≠ 0x30 := fun hd => h0 (by simp [hd])
    rw [scanBase, if_pos rfl, List.cons_append, detectBase]
    · intro x c rest heq
      exact hd (List.cons.inj heq).1
    · intro rest heq
      exact hd (List.cons.inj heq).1

theorem Numeral.token {base n : ℕ} {digits : Bytes} (h : Numeral base n digits) : Token digits := by
  match digits, h.1 with
  | d :: tail, _ => exact ⟨d, tail, rfl, (isDigit_plain (h.2.1 d List.mem_cons_self)).1⟩

theorem SignedNumeral.token {base : ℕ} {v : ℤ} {t : Bytes} (h : SignedNumeral base v t) : Token t := by
  obtain ⟨n, hn, -⟩ | ⟨n, digits, rfl, -, -⟩ := h
  · exact hn.token
  · exact ⟨0x2d, digits, rfl, by decide⟩

theorem skipSign_digits {base n : ℕ} {digits s rest : Bytes} (h : Numeral base n digits)
    (hs : s.dropWhile isspace = digits ++ rest) : skipSign s = (false, digits ++ rest) := by
  match digits, h.1 with
  | d :: tail, _ =>
    have hplain := isDigit_plain (h.2.1 d List.mem_cons_self)
    rw [skipSign, hs]
    simp [hplain]

theorem skipSign_minus {s rest : Bytes} (hs : s.dropWhile isspace = 0x2d :: rest) : skipSign s = (true, rest) := by
  rw [skipSign, hs]
  simp

theorem scanInt_of_skipSign {base base' n : ℕ} {minus : Bool} {digits s rest : Bytes} (hn : Numeral base' n digits)
    (hsign : skipSign s = (minus, digits ++ rest)) (hb : scanBase base (digits ++ rest) = (base', digits ++ rest))
    (hend : Ended rest) : scanInt base s = some (if minus then -(n : ℤ) else n, rest) := by
  obtain ⟨htake, hdrop⟩ := hn.takeWhile_eq hend
  simp only [scanInt, hsign, hb, htake, hdrop, if_neg hn.1, hn.2.2]

theorem scanInt_signed {base : ℕ} {v : ℤ} {t s rest : Bytes} (hv : SignedNumeral base v t) (hb : base ≠ 0)
    (hs : s.dropWhile isspace = t ++ rest) (hend : Ended rest) : scanInt base s = some (v, rest) := by
  obtain ⟨n, hn, rfl⟩ | ⟨n, digits, rfl, hn, rfl⟩ := hv
  · exact scanInt_of_skipSign hn (skipSign_digits hn hs) (hn.scanBase_eq hend hb) hend
  · exact scanInt_of_skipSign hn (skipSign_minus hs) (hn.scanBase_eq hend hb) hend

/-! ### What a format makes of tokens -/

/-- On every text with these tokens the format converts the values. -/
def Scans (fs : List Directive) (vs : List ℤ) (ts : List Bytes) (Q : Bytes → Prop) : Prop :=
  ∀ s, Spaced ts s → ∃ rest, fscanf fs s = (vs, rest) ∧ Q rest

namespace Scans

variable {fs : List Directive} {vs : List ℤ} {ts : List Bytes} {Q : Bytes → Prop}

theorem nil (ts : List Bytes) : Scans [] [] ts (Spaced ts) := fun s hs => ⟨s, rfl, hs⟩

theorem fscanf_text (t rest : Bytes) (fs : List Directive) : fscanf (t.map .text ++ fs) (t ++ rest) = fscanf fs rest := by
  induction t with
  | nil => rfl
  | cons c t ih => exact (if_pos rfl).trans ih

theorem text {t : Bytes} (ht : Token t) (h : Scans fs vs ts Q) : Scans (.space :: (t.map .text ++ fs)) vs (t :: ts) Q := by
  intro s hs
  obtain ⟨rest, hskip, hrest⟩ := hs.skip ht
  rw [fscanf_space, hskip, fscanf_text]
  exact h rest hrest

theorem fscanf_int {base : ℕ} {v : ℤ} {s rest : Bytes} (h : scanInt base s = some (v, rest)) (fs : List Directive) :
    fscanf (.int base :: fs) s = (v :: (fscanf fs rest).1, (fscanf fs rest).2) := by
  rw [fscanf, h]

theorem int {base : ℕ} {v : ℤ} {c : UInt8} {t u : Bytes} (hv : SignedNumeral base v t) (hb : base ≠ 0) (hc : Delimiter c)
    (h : Scans fs vs ((c :: u) :: ts) Q) : Scans (.int base :: fs) (v :: vs) (t :: (c :: u) :: ts) Q := by
  intro s hs
  obtain ⟨rest, hskip, hrest⟩ := hs.skip hv.token
  obtain ⟨last, hscan, hlast⟩ := h rest hrest
  refine ⟨last, ?_, hlast⟩
  rw [fscanf_int (scanInt_signed hv hb hskip (hrest.ended hc)), hscan]

theorem int_zero {n : ℕ} {c : UInt8} {t u : Bytes} (hn : Numeral 10 n t) (h0 : t.head? ≠ some 0x30) (hc : Delimiter c)
    (h : Scans fs vs ((c :: u) :: ts) Q) : Scans (.int 0 :: fs) ((n : ℤ) :: vs) (t :: (c :: u) :: ts) Q := by
  intro s hs
  obtain ⟨rest, hskip, hrest⟩ := hs.skip hn.token
  obtain ⟨last, hscan, hlast⟩ := h rest hrest
  refine ⟨last, ?_, hlast⟩
  have hint : scanInt 0 s = some ((n : ℤ), rest) :=
    scanInt_of_skipSign hn (skipSign_digits hn hskip) (hn.scanBase_zero h0) (hrest.ended hc)
  rw [fscanf_int hint, hscan]

theorem space {t : Bytes} (ht : Token t) (h : Scans fs vs (t :: ts) Q) : Scans (.space :: fs) vs (t :: ts) Q := by
  intro s hs
  obtain ⟨rest, hskip, hrest⟩ := hs.skip ht
  rw [fscanf_space, hskip]
  exact h _ ⟨[], rest, by simp [Blank], rfl, hrest⟩

theorem char {c : UInt8} (hc : isspace c = false) (ts : List Bytes) :
    Scans [.space, .char] [(c.toNat : ℤ)] ([c] :: ts) (Spaced ts) := by
  intro s hs
  obtain ⟨rest, hskip, hrest⟩ := hs.skip ⟨c, [], rfl, hc⟩
  exact ⟨rest, by simp [hskip], hrest⟩

theorem trim {t : Bytes} (ht : Token t) (ts : List Bytes) :
    Scans [.space] [] (t :: ts) fun s => ∃ rest, s = t ++ rest ∧ Spaced ts rest := by
  intro s hs
  obtain ⟨rest, hskip, hrest⟩ := hs.skip ht
  exact ⟨t ++ rest, by simp [hskip], rest, rfl, hrest⟩

theorem trim_nil : Scans [.space] [] [] fun s => s = [] :=
  fun s hs => ⟨[], by simp [Blank.dropWhile_eq hs], rfl⟩

end Scans

end Recovery
