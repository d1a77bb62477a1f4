/-
# String literals (lexer.l)

A byte of a string can be written as itself, with a named escape, or as two hexadecimal
digits. What a backslash means depends on what is behind it (`StartsEscape`).

Key definitions: `StartsEscape`, `Rendering`.
Key theorems: `literal_lexed`.
-/
import Recovery.Edify.Lexer
import Recovery.Buffer

namespace Recovery
namespace Edify

/-! ### Ways to write a string -/

/-- The characters with a name, and the letter behind the backslash. -/
def namedEscapes : List (UInt8 × UInt8) := [(0x0a, 0x6e), (0x09, 0x74), (quoteChar, quoteChar), (backslash, backslash)]

/-- A backslash in front of the text is an escape. -/
def StartsEscape (text : Bytes) : Prop :=
  (∃ e rest, text = e :: rest ∧ e ∈ namedEscapes.map Prod.snd) ∨
  ∃ a b rest, text = 0x78 :: a :: b :: rest ∧ (digit a).isSome = true ∧ (digit b).isSome = true

/-- `text` is a way to write `s` between quotes. -/
inductive Rendering : Bytes → Bytes → Prop
  | nil : Rendering [] []
  | itself {c : UInt8} {s text : Bytes} (hquote : c ≠ quoteChar) (hescape : c = backslash → ¬ StartsEscape (text ++ [quoteChar]))
      (h : Rendering s text) : Rendering (c :: s) (c :: text)
  | named {c e : UInt8} {s text : Bytes} (he : (c, e) ∈ namedEscapes) (h : Rendering s text) :
      Rendering (c :: s) (backslash :: e :: text)
  | hex {a b : UInt8} {x y : ℕ} {s text : Bytes} (ha : digit a = some x) (hb : digit b = some y) (h : Rendering s text) :
      Rendering (UInt8.ofNat (16 * x + y) :: s) (backslash :: 0x78 :: a :: b :: text)

/-! ### Escapes -/

theorem escape_named : ∀ p ∈ namedEscapes, ∀ rest, escape (p.2 :: rest) = (p.1, 2) := by
  intro p hp rest
  simp only [namedEscapes, List.mem_cons, List.not_mem_nil, or_false] at hp
  obtain rfl | rfl | rfl | rfl := hp <;> rfl

theorem escape_hex {a b : UInt8} {x y : ℕ} (ha : digit a = some x) (hb : digit b = some y) (rest : Bytes) :
    escape (0x78 :: a :: b :: rest) = (UInt8.ofNat (16 * x + y), 4) := by
  simp [escape, ha, hb]

theorem escape_none {text : Bytes} (h : ¬ StartsEscape (text ++ [quoteChar])) (rest : Bytes) :
    escape (text ++ quoteChar :: rest) = (backslash, 1) := by
  have hquote : digit quoteChar = none := rfl
  cases text with
  | nil => exact absurd (.inl ⟨quoteChar, [], rfl, by decide⟩) h
  | cons e text =>
    have he : e ∉ namedEscapes.map Prod.snd := fun he => h (.inl ⟨e, _, rfl, he⟩)
    simp only [namedEscapes, List.map_cons, List.map_nil, List.mem_cons, List.not_mem_nil, or_false, not_or, quoteChar, backslash] at he
    by_cases hx : e = 0x78
    · subst hx
      -- two digits are wanted behind the letter, and the closing quote is none
      obtain _ | ⟨a, _ | ⟨b, text⟩⟩ := text
      · cases rest <;> simp [escape, hquote]
      · cases ha : digit a <;> simp [escape, hquote, ha]
      · have hab : ¬ ((digit a).isSome = true ∧ (digit b).isSome = true) := fun hab => h (.inr ⟨a, b, _, rfl, hab⟩)
        cases ha : digit a with
        | none => simp [escape, ha]
        | some x =>
          have hb : digit b = none := by simpa [ha] using hab
          simp [escape, ha, hb]
    · simp [escape, he, hx]

/-! ### Inside of a string -/

theorem lexString_quote {fuel : ℕ} {l : Lexer} {after : Bytes} (hinput : l.input = quoteChar :: after) (hroom : l.buffer.length < maxStringLen) :
    lexString (fuel + 1) l = .ok (.string, { l with
      input := after, inString := false, pos := l.pos + 1, yylval := .of l.buffer, yylloc.stop := l.pos + 1 }) := by
  simp [lexString, hinput, Nat.not_le.mpr hroom]

theorem lexString_char {fuel : ℕ} {l : Lexer} {c b : UInt8} {behind rest : Bytes} (hinput : l.input = c :: (behind ++ rest))
    (hroom : l.buffer.length < maxStringLen) (hquote : c ≠ quoteChar)
    (hmatch : (if c = backslash then escape (behind ++ rest) else (c, 1)) = (b, behind.length + 1)) :
    lexString (fuel + 1) l = lexString fuel { l with input := rest, pos := l.pos + (behind.length + 1 : ℕ), buffer := l.buffer ++ [b] } := by
  have hdrop : l.input.drop (behind.length + 1) = rest := by simp [hinput]
  rw [lexString]
  simp only [hinput, Nat.not_le.mpr hroom, hquote, if_false]
  rw [hmatch, ← hinput]
  simp only [hdrop]

/-- From the start of the text, the rules put `s` into the buffer and leave the string. -/
def LexedTo (s text : Bytes) : Prop :=
  ∀ (fuel : ℕ) (l : Lexer) (after : Bytes), l.input = text ++ quoteChar :: after → text.length < fuel →
    l.buffer.length + s.length < maxStringLen → lexString fuel l = .ok (.string, { l with
      input := after, inString := false, buffer := l.buffer ++ s, pos := l.pos + text.length + 1, yylval := .of (l.buffer ++ s),
      yylloc.stop := l.pos + text.length + 1 })

theorem LexedTo.char {c b : UInt8} (behind : Bytes) {s text : Bytes} (h : LexedTo s text) (hquote : c ≠ quoteChar)
    (hmatch : ∀ after, (if c = backslash then escape (behind ++ (text ++ quoteChar :: after)) else (c, 1)) = (b, behind.length + 1)) :
    LexedTo (b :: s) (c :: (behind ++ text)) := by
  intro fuel l after hinput hfuel hroom
  obtain ⟨fuel, rfl⟩ : ∃ n, fuel = n + 1 := ⟨fuel - 1, by omega⟩
  simp only [List.length_cons, List.length_append] at hfuel hroom
  have hpos : l.pos + ((behind.length + 1 : ℕ) : ℤ) + text.length = l.pos + (c :: (behind ++ text)).length := by
    simp only [List.length_cons, List.length_append, Nat.cast_add, Nat.cast_one]
    ring
  have hbuffer : l.buffer ++ [b] ++ s = l.buffer ++ b :: s := by simp
  rw [lexString_char (by simpa using hinput) (by omega) hquote (hmatch after), h fuel _ after rfl (by omega) (by simp; omega)]
  simp only [hpos, hbuffer]

/-- **The rules of a string undo the quoting.** -/
theorem Rendering.lexedTo {s text : Bytes} (h : Rendering s text) : LexedTo s text := by
  induction h with
  | nil =>
    intro fuel l after hinput hfuel hroom
    obtain ⟨fuel, rfl⟩ : ∃ n, fuel = n + 1 := ⟨fuel - 1, by omega⟩
    simp [lexString_quote hinput hroom]
  | @itself c s text hquote hescape _ ih =>
    refine ih.char [] hquote fun after => ?_
    by_cases hc : c = backslash
    · simp [hc, escape_none (hescape hc)]
    · simp [hc]
  | @named c e s text he _ ih => exact ih.char [e] (by decide) fun after => by simpa using escape_named (c, e) he _
  | @hex a b x y s text ha hb _ ih => exact ih.char [0x78, a, b] (by decide) fun after => by simpa using escape_hex ha hb _

/-! ### In front of a token -/

/-- Blanks, ends of lines and comments. -/
inductive Gap : Bytes → Prop
  | nil : Gap []
  | blank {c : UInt8} {gap : Bytes} (hc : isBlankChar c = true) (h : Gap gap) : Gap (c :: gap)
  | line {comment gap : Bytes} (hcomment : comment = [] ∨ comment.head? = some 0x23 ∧ 0x0a ∉ comment) (h : Gap gap) : Gap (comment ++ 0x0a :: gap)

theorem Gap.dropWhile {gap : Bytes} (h : Gap gap) : Gap (gap.dropWhile isBlankChar) := by
  induction h with
  | nil => exact .nil
  | blank hc _ ih => rwa [List.dropWhile_cons_of_pos hc]
  | @line comment gap hcomment h _ =>
    have hhead : (comment ++ 0x0a :: gap).dropWhile isBlankChar = comment ++ 0x0a :: gap := by
      cases comment with
      | nil => rfl
      | cons c comment =>
        obtain ⟨hc, -⟩ : c = 0x23 ∧ _ := by simpa using hcomment
        subst hc
        rfl
    rw [hhead]
    exact .line hcomment h

theorem lineEnd_comment {comment rest : Bytes} (hcomment : comment = [] ∨ comment.head? = some 0x23 ∧ 0x0a ∉ comment) :
    lineEnd (comment ++ 0x0a :: rest) = some (comment.length + 1) := by
  cases comment with
  | nil => rfl
  | cons c comment =>
    obtain ⟨hc, hnl⟩ : c = 0x23 ∧ 0x0a ∉ c :: comment := by simpa using hcomment
    have hall : ∀ b ∈ c :: comment, decide (b ≠ 0x0a) = true := fun b hb => decide_eq_true fun heq : b = 0x0a => hnl (heq ▸ hb)
    have htake : (c :: comment ++ 0x0a :: rest).takeWhile (· ≠ 0x0a) = c :: comment := by
      rw [List.takeWhile_append_of_pos hall]
      simp
    have hhead : (c :: comment ++ 0x0a :: rest).head? = some 0x23 := by simp [hc]
    simp only [lineEnd, hhead, if_true, htake, List.drop_left, List.head?_cons]

theorem lexToken_line {fuel : ℕ} {l : Lexer} {comment rest : Bytes} (hstart : l.inString = false) (hinput : l.input = comment ++ 0x0a :: rest)
    (hcomment : comment = [] ∨ comment.head? = some 0x23 ∧ 0x0a ∉ comment) :
    lexToken (fuel + 1) l = lexToken fuel { l with input := rest, pos := l.pos + (comment.length + 1 : ℕ) } := by
  have hline : lineEnd l.input = some (comment.length + 1) := hinput ▸ lineEnd_comment hcomment
  have hdrop : l.input.drop (comment.length + 1) = rest := by simp [hinput]
  obtain ⟨c, tail, hcons, hc⟩ : ∃ c tail, l.input = c :: tail ∧ (c = 0x23 ∨ c = 0x0a) := by
    cases comment with
    | nil => exact ⟨0x0a, rest, hinput, .inr rfl⟩
    | cons c comment =>
      obtain ⟨hc, -⟩ : c = 0x23 ∧ _ := by simpa using hcomment
      exact ⟨c, _, hinput, .inl hc⟩
  have hother : c ≠ quoteChar ∧ isWord c = false ∧ isBlankChar c = false ∧ operator l.input = none := by
    rw [hcons]
    obtain rfl | rfl := hc <;> exact ⟨by decide, by decide, by decide, rfl⟩
  obtain ⟨hquote, hword, hblank, hop⟩ := hother
  rw [lexToken]
  simp only [hstart, hcons, hquote, hword, hblank, Bool.false_eq_true, if_false]
  rw [← hcons, hop, hline]
  simp only [hdrop]

theorem lexToken_blank {fuel : ℕ} {l : Lexer} {c : UInt8} {rest : Bytes} (hstart : l.inString = false) (hinput : l.input = c :: rest)
    (hc : isBlankChar c = true) :
    lexToken (fuel + 1) l = lexToken fuel (l.advance (l.input.takeWhile isBlankChar).length) := by
  have hother : c ≠ quoteChar ∧ isWord c = false := by
    obtain rfl | rfl : c = 0x20 ∨ c = 0x09 := by simpa [isBlankChar] using hc
    all_goals exact ⟨by decide, by decide⟩
  rw [lexToken]
  simp only [hstart, hinput, hother.1, hother.2, hc, Bool.false_eq_true, if_false, if_true]

theorem lexToken_skip {gap rest : Bytes} (h : Gap gap) (hne : gap ≠ []) (hrest : ∀ c ∈ rest.head?, isBlankChar c = false) {l : Lexer}
    (hstart : l.inString = false) (hinput : l.input = gap ++ rest) (fuel : ℕ) :
    ∃ skipped left loc, gap = skipped ++ left ∧ skipped ≠ [] ∧ Gap left ∧
      lexToken (fuel + 1) l = lexToken fuel { l with input := left ++ rest, pos := l.pos + skipped.length, yylloc := loc } := by
  cases h with
  | nil => exact absurd rfl hne
  | @blank c gap hc h =>
    -- all of the blanks are one match
    have hgap : (c :: gap) = (c :: gap).takeWhile isBlankChar ++ (c :: gap).dropWhile isBlankChar := List.takeWhile_append_dropWhile.symm
    have hrun : l.input.takeWhile isBlankChar = (c :: gap).takeWhile isBlankChar := by
      rw [hinput]
      by_cases hall : ∀ b ∈ c :: gap, isBlankChar b = true
      · rw [List.takeWhile_append_of_pos hall, List.takeWhile_eq_self_iff.mpr hall]
        cases rest with
        | nil => simp
        | cons b rest => rw [List.takeWhile_cons_of_neg (by simp [hrest b rfl]), List.append_nil]
      · rw [List.takeWhile_append, if_neg fun hlen => hall (List.takeWhile_eq_self_iff.mp (List.takeWhile_sublist _ |>.eq_of_length hlen))]
    refine ⟨_, _, ⟨l.pos, l.pos + ((c :: gap).takeWhile isBlankChar).length⟩, hgap, by simp [hc], (Gap.blank hc h).dropWhile, ?_⟩
    rw [lexToken_blank hstart hinput hc, hrun, Lexer.advance, hinput]
    nth_rewrite 2 [hgap]
    rw [List.append_assoc, List.drop_left]
  | @line comment gap hcomment h =>
    refine ⟨comment ++ [0x0a], gap, l.yylloc, by simp, by simp, h, ?_⟩
    rw [lexToken_line hstart (by simpa using hinput) hcomment]
    simp

/-- What is in front of a token is skipped. Only the location of the last token may change. -/
theorem lexToken_gap {rest : Bytes} (hrest : ∀ c ∈ rest.head?, isBlankChar c = false) (gap : Bytes) (h : Gap gap) (fuel : ℕ) (l : Lexer)
    (hstart : l.inString = false) (hinput : l.input = gap ++ rest) (hfuel : gap.length < fuel) :
    ∃ loc n, fuel ≤ n + gap.length ∧ lexToken fuel l = lexToken n { l with input := rest, pos := l.pos + gap.length, yylloc := loc } := by
  by_cases hne : gap = []
  · subst hne
    have hl : { l with input := rest, pos := l.pos + ([] : Bytes).length, yylloc := l.yylloc } = l := by
      simp only [List.length_nil, Nat.cast_zero, add_zero, ← show l.input = rest from hinput]
    exact ⟨l.yylloc, fuel, by simp, by rw [hl]⟩
  · obtain ⟨fuel, rfl⟩ : ∃ n, fuel = n + 1 := ⟨fuel - 1, by omega⟩
    obtain ⟨skipped, left, loc, hgap, hsome, hleft, hskip⟩ := lexToken_skip h hne hrest hstart hinput fuel
    have hlen : gap.length = skipped.length + left.length := by rw [hgap, List.length_append]
    have hpos : 0 < skipped.length := List.length_pos_iff.mpr hsome
    obtain ⟨loc, n, hn, hrun⟩ := lexToken_gap hrest left hleft fuel
      { l with input := left ++ rest, pos := l.pos + skipped.length, yylloc := loc } hstart rfl (by omega)
    refine ⟨loc, n, by omega, ?_⟩
    rw [hskip, hrun, hlen, Nat.cast_add, ← add_assoc]
termination_by gap.length

/-! ### A literal in a script -/

/-- **A literal is one token, and its value is what was quoted.** -/
theorem literal_lexed {s text gap after : Bytes} (hnul : 0 ∉ s) (hlen : s.length < maxStringLen) (h : Rendering s text) (hgap : Gap gap)
    {l : Lexer} (hstart : l.inString = false) (hinput : l.input = gap ++ quoteChar :: (text ++ quoteChar :: after)) :
    yylex l = .ok (.string, {
      input := after, inString := false, buffer := s, pos := l.pos + gap.length + text.length + 2, yylval := ⟨s, hnul⟩
      yylloc := ⟨l.pos + gap.length, l.pos + gap.length + text.length + 2⟩ }) := by
  have hval : CString.of s = ⟨s, hnul⟩ := CString.ext (CString.of_bytes_eq hnul)
  have hquote : ∀ c ∈ (quoteChar :: (text ++ quoteChar :: after)).head?, isBlankChar c = false := by
    intro c hc
    obtain rfl : quoteChar = c := by simpa using hc
    rfl
  have hinputLen : l.input.length = gap.length + text.length + after.length + 2 := by
    simp only [hinput, List.length_append, List.length_cons]
    omega
  obtain ⟨loc, n, hn, hskip⟩ := lexToken_gap hquote gap hgap (l.input.length + 1) l hstart hinput (by omega)
  obtain ⟨n, rfl⟩ : ∃ m, n = m + 1 := ⟨n - 1, by omega⟩
  have hbehind : l.pos + gap.length + 1 + text.length + 1 = l.pos + gap.length + text.length + 2 := by ring
  rw [yylex, hskip, lexToken]
  simp only [hstart, Bool.false_eq_true, if_false, if_true]
  rw [h.lexedTo _ _ after rfl (by simp only [List.length_append, List.length_cons]; omega) (by simpa using hlen)]
  simp only [List.nil_append, hval, hbehind]

/-- Every way to write a byte at once, behind a comment. -/
theorem literal_lexed_mixed :
    yylex ⟨lit "# both\n \"a\\x22\\q\\n\");", false, [], 5, .of [], ⟨4, 5⟩⟩ =
      .ok (.string, ⟨lit ");", false, lit "a\"\\q\n", 24, .of (lit "a\"\\q\n"), ⟨13, 24⟩⟩) := by
  have hnul : 0 ∉ lit "a\"\\q\n" := by decide +kernel
  have hval : CString.of (lit "a\"\\q\n") = ⟨_, hnul⟩ := CString.ext (CString.of_bytes_eq hnul)
  have hq : ¬ StartsEscape (lit "q\\n" ++ [quoteChar]) := by
    rintro (⟨e, rest, heq, he⟩ | ⟨a, b, rest, heq, -⟩)
    · obtain rfl : 0x71 = e := congrArg (·.headD 0) heq
      exact absurd he (by decide)
    · exact absurd (show (0x71 : UInt8) = 0x78 from congrArg (·.headD 0) heq) (by decide)
  have hrendering : Rendering (lit "a\"\\q\n") (lit "a\\x22\\q\\n") :=
    .itself (by decide) (fun h => absurd h (by decide)) <| .hex (x := 2) (y := 2) rfl rfl <| .itself (by decide) (fun _ => hq) <|
      .itself (by decide) (fun h => absurd h (by decide)) <| .named (by decide) .nil
  have hgap : Gap (lit "# both\n ") := @Gap.line (lit "# both") _ (.inr (by decide +kernel)) (.blank rfl .nil)
  rw [hval]
  exact literal_lexed hnul (by decide +kernel) hrendering hgap rfl rfl

end Edify
end Recovery
