/-
# Words of the shell

What an unquoted expansion of a POSIX shell becomes. Words are byte strings in the C locale,
without a slash.
-/
import Mathlib.Data.List.DropRight

namespace Shell

abbrev Word := List UInt8

def newline : UInt8 := 0x0a

/-! ### Fields and lines -/

def isBlank (c : UInt8) : Bool := c = 0x20 || c = 0x09 || c = newline

def fields (text : Word) : List Word := (text.splitOnP isBlank).filter (· ≠ [])

theorem fields_append_blank {c : UInt8} (hc : isBlank c = true) (x y : Word) : fields (x ++ c :: y) = fields x ++ fields y := by
  rw [fields, List.splitOnP_append_cons x y hc, List.filter_append]
  rfl

theorem fields_nil : fields [] = [] := by simp [fields]

theorem fields_of_no_blank {w : Word} (hne : w ≠ []) (h : ∀ c ∈ w, isBlank c = false) : fields w = [w] := by
  rw [fields, List.splitOnP_eq_singleton h]
  simp [hne]

def unlines (ls : List Word) : Word := ls.flatMap (· ++ [newline])

/-- The lines of a text. What is behind the last end is one, unless it is empty. -/
def lines (text : Word) : List Word :=
  let ps := text.splitOnP (· = newline)
  if ps.getLast? = some [] then ps.dropLast else ps

theorem unlines_cons (l : Word) (ls : List Word) : unlines (l :: ls) = l ++ newline :: unlines ls := by simp [unlines]

theorem splitOnP_unlines : ∀ {ls : List Word}, (∀ l ∈ ls, newline ∉ l) → (unlines ls).splitOnP (· = newline) = ls ++ [[]]
  | [], _ => by simp [unlines]
  | l :: ls, h => by
    have hl : ∀ c ∈ l, decide (c = newline) = false := fun c hc => decide_eq_false fun heq => h l List.mem_cons_self (heq ▸ hc)
    rw [unlines_cons, List.splitOnP_append_cons l _ (by simp), List.splitOnP_eq_singleton hl,
      splitOnP_unlines fun l' hl' => h l' (List.mem_cons_of_mem _ hl')]
    rfl

/-- The first field of a text stands behind blanks, and a blank or the end is behind it. -/
theorem fields_eq_cons : ∀ {text f : Word} {fs : List Word}, fields text = f :: fs →
    ∃ b t, text = b ++ (f ++ t) ∧ (∀ c ∈ b, isBlank c = true) ∧ f ≠ [] ∧ (∀ c ∈ f, isBlank c = false) ∧ fields t = fs ∧
      ∀ c ∈ t.head?, isBlank c = true
  | [], f, fs, h => by simp [fields_nil] at h
  | c :: text, f, fs, h => by
    by_cases hc : isBlank c = true
    · have htext : fields text = f :: fs := by
        have := fields_append_blank hc [] text
        rw [List.nil_append, fields_nil, List.nil_append] at this
        rw [← this, h]
      obtain ⟨b, t, rfl, hb, hrest⟩ := fields_eq_cons htext
      exact ⟨c :: b, t, rfl, List.forall_mem_cons.mpr ⟨hc, hb⟩, hrest⟩
    · -- the field is what comes up to the next blank
      have hne : (c :: text).takeWhile (! isBlank ·) ≠ [] := by simp [hc]
      have hword : ∀ x ∈ (c :: text).takeWhile (! isBlank ·), isBlank x = false := fun x hx => by
        simpa using List.mem_takeWhile_imp hx
      have hsplit := List.takeWhile_append_dropWhile (p := (! isBlank ·)) (l := c :: text)
      have hhead : ∀ x ∈ ((c :: text).dropWhile (! isBlank ·)).head?, isBlank x = true := fun x hx => by
        have := List.head?_dropWhile_not (! isBlank ·) (c :: text)
        rw [hx] at this
        simpa using this
      generalize (c :: text).takeWhile (! isBlank ·) = w at *
      generalize (c :: text).dropWhile (! isBlank ·) = t at *
      have hfields : fields (w ++ t) = w :: fields t := by
        cases t with
        | nil => rw [List.append_nil, fields_of_no_blank hne hword, fields_nil]
        | cons x t =>
          have hx := hhead x rfl
          have hcons := fields_append_blank hx [] t
          rw [List.nil_append, fields_nil, List.nil_append] at hcons
          rw [fields_append_blank hx, fields_of_no_blank hne hword, hcons]
          rfl
      rw [← hsplit, hfields] at h
      obtain ⟨rfl, rfl⟩ := List.cons.inj h
      exact ⟨[], t, hsplit.symm, by simp, hne, hword, rfl, hhead⟩

theorem fields_word_append {w t : Word} (hne : w ≠ []) (hw : ∀ c ∈ w, isBlank c = false)
    (ht : ∀ c ∈ t.head?, isBlank c = true) : fields (w ++ t) = w :: fields t := by
  cases t with
  | nil => rw [List.append_nil, fields_of_no_blank hne hw, fields_nil]
  | cons c t =>
    have hc : isBlank c = true := ht c rfl
    have hskip : fields (c :: t) = fields t := by rw [← List.nil_append (c :: t), fields_append_blank hc, fields_nil, List.nil_append]
    rw [fields_append_blank hc, fields_of_no_blank hne hw, hskip, List.singleton_append]

theorem isBlank_of_fields_eq_nil {text : Word} (h : fields text = []) : ∀ c ∈ text, isBlank c = true := by
  induction text with
  | nil => simp
  | cons c text ih =>
    cases hc : isBlank c with
    | true =>
      rw [← List.nil_append (c :: text), fields_append_blank hc, fields_nil, List.nil_append] at h
      exact List.forall_mem_cons.mpr ⟨hc, ih h⟩
    | false =>
      have hsplit := List.takeWhile_append_dropWhile (p := (! isBlank ·)) (l := c :: text)
      have hhead : ∀ d ∈ ((c :: text).dropWhile (! isBlank ·)).head?, isBlank d = true := fun d hd => by
        have := List.head?_dropWhile_not (! isBlank ·) (c :: text)
        rw [hd] at this
        simpa using this
      rw [← hsplit, fields_word_append (by simp [hc]) (fun d hd => by simpa using List.mem_takeWhile_imp hd) hhead] at h
      cases h

theorem lines_nil : lines [] = [] := by simp [lines]

theorem lines_of_no_newline {l : Word} (hne : l ≠ []) (h : newline ∉ l) : lines l = [l] := by
  have hl : ∀ c ∈ l, decide (c = newline) = false := fun c hc => decide_eq_false fun heq => h (heq ▸ hc)
  simp [lines, List.splitOnP_eq_singleton hl, hne]

theorem lines_append_newline {l : Word} (h : newline ∉ l) (text : Word) : lines (l ++ newline :: text) = l :: lines text := by
  have hl : ∀ c ∈ l, decide (c = newline) = false := fun c hc => decide_eq_false fun heq => h (heq ▸ hc)
  have hsplit : (l ++ newline :: text).splitOnP (· = newline) = l :: text.splitOnP (· = newline) := by
    rw [List.splitOnP_append_cons l _ (by simp), List.splitOnP_eq_singleton hl]
    rfl
  have hne : text.splitOnP (· = newline) ≠ [] := List.splitOnP_ne_nil _ _
  unfold lines
  rw [hsplit]
  generalize text.splitOnP (· = newline) = ps at hne
  cases ps with
  | nil => exact absurd rfl hne
  | cons p ps => simp only [List.getLast?_cons_cons, List.dropLast_cons_cons]; split_ifs <;> rfl

theorem lines_unlines {ls : List Word} (h : ∀ l ∈ ls, newline ∉ l) : lines (unlines ls) = ls := by
  simp [lines, splitOnP_unlines h]

theorem fields_unlines : ∀ {ws : List Word}, (∀ w ∈ ws, w ≠ [] ∧ ∀ c ∈ w, isBlank c = false) → fields (unlines ws) = ws
  | [], _ => fields_nil
  | w :: ws, h => by
    obtain ⟨hne, hw⟩ := h w List.mem_cons_self
    rw [unlines_cons, fields_append_blank (by decide), fields_of_no_blank hne hw,
      fields_unlines fun w' hw' => h w' (List.mem_cons_of_mem _ hw')]
    rfl

/-- What `$(..)` gives: the ends of the last lines are left out. -/
def substitute (output : Word) : Word := output.rdropWhile (· = newline)

theorem fields_substitute (output : Word) : fields (substitute output) = fields output := by
  induction output using List.reverseRecOn with
  | nil => rfl
  | append_singleton output c ih =>
    unfold substitute at ih ⊢
    by_cases hc : c = newline
    · rw [List.rdropWhile_concat_pos _ _ _ (by simpa using hc), ih, hc, fields_append_blank (by decide), fields_nil, List.append_nil]
    · rw [List.rdropWhile_concat_neg _ _ _ (by simpa using hc)]

/-! ### Patterns -/

/-- A part of a pattern: any characters, one that is given, or one of a set. -/
inductive Item
  | star
  | char (c : UInt8)
  | set (test : UInt8 → Bool)

def matchItems : List Item → Word → Bool
  | [], s => s.isEmpty
  | .star :: items, s => s.tails.any fun t => matchItems items t
  | .char c :: items, a :: s => a = c && matchItems items s
  | .set test :: items, a :: s => test a && matchItems items s
  | .char _ :: _, [] => false
  | .set _ :: _, [] => false

def between (low high c : UInt8) : Bool := low ≤ c && c ≤ high

def isUpper := between 0x41 0x5a

def isLower := between 0x61 0x7a

def isDigit := between 0x30 0x39

def isAlpha (c : UInt8) : Bool := isUpper c || isLower c

def isAlnum (c : UInt8) : Bool := isAlpha c || isDigit c

def isGraph := between 0x21 0x7e

def ascii (s : String) : Word := s.toList.map fun c => UInt8.ofNat c.toNat

def classes : List (Word × (UInt8 → Bool)) :=
  [(ascii "alpha", isAlpha), (ascii "upper", isUpper), (ascii "lower", isLower), (ascii "digit", isDigit), (ascii "alnum", isAlnum),
    (ascii "xdigit", fun c => isDigit c || between 0x41 0x46 c || between 0x61 0x66 c), (ascii "graph", isGraph),
    (ascii "print", fun c => isGraph c || c = 0x20), (ascii "punct", fun c => isGraph c && !isAlnum c),
    (ascii "blank", fun c => c = 0x20 || c = 0x09), (ascii "space", fun c => c = 0x20 || between 0x09 0x0d c),
    (ascii "cntrl", fun c => c < 0x20 || c = 0x7f)]

/-- A class `:name:]` behind an opening bracket, and what follows it. -/
def classAt : Word → Option ((UInt8 → Bool) × Word)
  | c :: rest =>
    let name := rest.takeWhile (· ≠ 0x3a)
    if c = 0x3a ∧ (rest.drop name.length).take 2 = ascii ":]" then
      (classes.find? (·.1 = name)).map fun k => (k.2, rest.drop (name.length + 2))
    else none
  | [] => none

/-- One element of a bracket expression: a class, a range or a character. -/
def elementAt : Word → Option ((UInt8 → Bool) × Word)
  | [] => none
  | a :: rest =>
    match (if a = 0x5b then classAt rest else none), rest with
    | some k, _ => some k
    | none, dash :: b :: rest' => if dash = 0x2d ∧ b ≠ 0x5d then some (between a b, rest') else some ((· = a), rest)
    | none, _ => some ((· = a), rest)

/-- The elements up to the closing bracket. A bracket that comes first is an element. -/
def elements : ℕ → Bool → Word → Option ((UInt8 → Bool) × Word)
  | 0, _, _ => none
  | fuel + 1, first, w =>
    if !first ∧ w.head? = some 0x5d then some (fun _ => false, w.tail)
    else do
      let (test, w') ← elementAt w
      let (tests, w'') ← elements fuel false w'
      pure (fun c => test c || tests c, w'')

/-- A bracket expression behind its opening bracket. -/
def bracket (w : Word) : Option ((UInt8 → Bool) × Word) :=
  if w.head? = some 0x21 then (elements w.length true w.tail).map fun k => (fun c => !k.1 c, k.2) else elements w.length true w

def items : ℕ → Word → List Item
  | 0, _ => []
  | _ + 1, [] => []
  | fuel + 1, c :: rest =>
    if c = 0x2a then .star :: items fuel rest
    else if c = 0x3f then .set (fun _ => true) :: items fuel rest
    else if c = 0x5c then match rest with
      | [] => [.char c]
      | d :: rest' => .char d :: items fuel rest'
    else if c = 0x5b then match bracket rest with
      | some k => .set k.1 :: items fuel k.2
      | none => .char c :: items fuel rest
    else .char c :: items fuel rest

def pattern (w : Word) : List Item := items w.length w

/-- A period at the start of a name is only matched by one. -/
def showsHidden : List Item → Bool
  | .char c :: _ => c = 0x2e
  | _ => false

def matchName (w name : Word) : Bool := (name.head? ≠ some 0x2e || showsHidden (pattern w)) && matchItems (pattern w) name

example : matchName (ascii "[!a-c]?*") (ascii "media") = true := by decide +kernel

example : matchName (ascii "*[[:digit:]]") (ascii ".x1") = false := by decide +kernel

/-! ### Pathname expansion -/

def isSpecial (c : UInt8) : Bool := c = 0x2a || c = 0x3f || c = 0x5b

/-- The names that a word stands for, in a directory with these names. -/
def expand (names : List Word) (w : Word) : List Word :=
  if w.any isSpecial then
    match names.filter (matchName w) with
    | [] => [w]
    | found => found
  else [w]

/-- The words that an unquoted expansion with this result becomes. -/
def words (names : List Word) (text : Word) : List Word := (fields text).flatMap (expand names)

/-- Without a blank a text is one word, or the names it matches. -/
theorem words_of_no_blank {w : Word} (hne : w ≠ []) (h : ∀ c ∈ w, isBlank c = false)
    (names : List Word) : words names w = expand names w := by
  rw [words, fields_of_no_blank hne h, List.flatMap_singleton]

theorem words_unlines {ws : List Word} (h : ∀ w ∈ ws, w ≠ [] ∧ ∀ c ∈ w, isBlank c = false) (names : List Word) :
    words names (substitute (unlines ws)) = ws.flatMap (expand names) := by
  rw [words, fields_substitute, fields_unlines h]

/-- A word that is no pattern, or matches itself, or matches nothing, stands for itself as well. -/
theorem mem_expand {names : List Word} {w : Word} (h : w.any isSpecial = true → matchName w w = true ∨
    ∀ name ∈ names, matchName w name = false)
    (hw : w ∈ names) : w ∈ expand names w := by
  unfold expand
  split_ifs with hspecial
  · split
    · exact List.mem_singleton_self w
    · rename_i found hfound
      rcases h hspecial with hself | hnone
      · exact List.mem_filter.mpr ⟨hw, hself⟩
      · exact absurd (List.filter_eq_nil_iff.mpr fun name hname => by simp [hnone name hname]) hfound
  · exact List.mem_singleton_self w

theorem expand_cases {names : List Word} {w x : Word} (h : x ∈ expand names w) :
    x = w ∨ w.any isSpecial = true ∧ x ∈ names ∧ matchName w x = true := by
  unfold expand at h
  split_ifs at h with hspecial
  · split at h
    · exact .inl (List.mem_singleton.mp h)
    · obtain ⟨hx, hmatch⟩ := List.mem_filter.mp h
      exact .inr ⟨hspecial, hx, hmatch⟩
  · exact .inl (List.mem_singleton.mp h)

/-! ### Arguments -/

/-- What is behind the options: `none` if one of them is not known. -/
def operands (known : UInt8 → Bool) : List Word → Option (List Word)
  | [] => some []
  | w :: ws =>
    if w = ascii "--" then some ws
    else if w.head? = some 0x2d ∧ w ≠ ascii "-" then if w.tail.all known then operands known ws else none
    else some (w :: ws)

theorem operands_of_no_option {known : UInt8 → Bool} : ∀ {ws : List Word}, (∀ w ∈ ws, w.head? = some 0x2d → w = ascii "-") →
    operands known ws = some ws
  | [], _ => rfl
  | w :: ws, h => by
    have hw := h w List.mem_cons_self
    have hdashes : w ≠ ascii "--" := by
      rintro rfl
      exact absurd (hw (by decide)) (by decide)
    rw [operands, if_neg hdashes, if_neg fun ⟨hhead, hne⟩ => hne (hw hhead)]

end Shell
