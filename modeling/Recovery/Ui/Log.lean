/-
# The log on the screen (ui.c)

`ui_print` writes into a ring of rows, `ui_delete_line` goes back to the row before, and
`draw_screen_locked` takes the rows in front of the cursor, modulo 32. The result of
formatting is the argument of `ui_print`.

Key definitions: `History`, `Displayable`.

Key theorems: `Settled.logCalls`, `log_shown`, `log_rows_lost`.
-/
import Recovery.Ui.Screen
import Recovery.Buffer

namespace Recovery
namespace Ui

open Zip (cstr)

/-! ### The ring of rows -/

abbrev TextArray := ℕ → ℕ → UInt8

def setByte (text : TextArray) (row col : ℕ) (c : UInt8) : TextArray := fun r k => if r = row ∧ k = col then c else text r k

def put (text : TextArray) (row col : ℕ) (c : UInt8) : Except Stop TextArray := do
  failIf (¬ (row < maxRows ∧ col < maxCols)) .fault
  .ok (setByte text row col c)

structure Log where
  text : TextArray
  textCol : ℕ
  textRow : ℕ

variable (g : Geometry)

/-- The row is ended, and the cursor goes to the next one. -/
def nextRow (l : Log) : Except Stop Log := do
  let text ← put l.text l.textRow l.textCol 0
  .ok ⟨text, 0, (l.textRow + 1) % g.textRows⟩

def printChar (l : Log) (c : UInt8) : Except Stop Log := do
  let l ← if c = 0x0a ∨ g.textCols ≤ l.textCol then nextRow g l else .ok l
  if c = 0x0a then .ok l
  else
    let text ← put l.text l.textRow l.textCol c
    .ok ⟨text, l.textCol + 1, l.textRow⟩

def printChars : Bytes → Log → Except Stop Log
  | [], l => .ok l
  | c :: cs, l => do
    let l ← printChar g l c
    printChars cs l

/-- `ui_print`. `vsnprintf` leaves 255 bytes. -/
def uiPrint (s : CString) (l : Log) : Except Stop Log :=
  if 0 < g.textRows ∧ 0 < g.textCols then do
    let l ← printChars g (s.bytes.take 255) l
    let text ← put l.text l.textRow l.textCol 0
    .ok { l with text := text }
  else .ok l

def uiDeleteLine (l : Log) : Except Stop Log := do
  let text ← put l.text l.textRow 0 0
  failIf (g.textRows = 0) .fault
  .ok ⟨text, 0, (l.textRow + g.textRows - 1) % g.textRows⟩

inductive LogCall where
  | print (s : CString)
  | deleteLine

def logCall : LogCall → Log → Except Stop Log
  | .print s, l => uiPrint g s l
  | .deleteLine, l => uiDeleteLine g l

def logCalls : List LogCall → Log → Except Stop Log
  | [], l => .ok l
  | c :: cs, l => do
    let l ← logCall g c l
    logCalls cs l

def emptyLog : Log := ⟨fun _ _ => 0, 0, 0⟩

/-! ### Drawing -/

/-- The string in a row, as `draw_text_line` reads it. -/
def readRow (text : TextArray) (row : ℕ) : Except Stop Bytes := do
  failIf (¬ row < maxRows) .fault
  let bytes := (List.range maxCols).map (text row)
  failIf (0 ∉ bytes) .fault
  .ok (cstr bytes)

/-- The rows of the screen that are left below the menu, which takes the first `row`. -/
def availableRows (row : ℕ) : ℤ := g.totalRows - row - 1

def drawLog (l : Log) (row : ℕ) : Except Stop (List (ℤ × Bytes)) :=
  let available := availableRows g row
  let curRow : ℤ := if available < maxRows then (l.textRow + (maxRows - available)) % maxRows else l.textRow
  let startRow : ℤ := if available < maxRows then row + 1 else g.totalRows - maxRows
  (List.range (min available maxRows).toNat).mapM fun r : ℕ => do
    let line ← readRow l.text ((curRow + r) % maxRows).toNat
    .ok (startRow + r, line)

/-! ### The log as it was written -/

/-- The log, without a screen. -/
structure History where
  /-- the rows that were ended and not deleted -/
  logged : List Bytes
  /-- those of them that a ring of 32 rows still has, the last one first -/
  kept : List Bytes
  /-- the row of the cursor -/
  current : Bytes
  /-- the largest number of rows there were -/
  peak : ℕ
  /-- a row was deleted when there was none -/
  underflow : Bool
  /-- the last call deleted a row with text -/
  stale : Bool

namespace History

/-- The ring has 32 rows, and one of them is the row of the cursor. -/
def endRow (h : History) : History :=
  { h with
    logged := h.logged ++ [h.current], kept := (h.current :: h.kept).take 31, current := []
    peak := max h.peak (h.logged.length + 1) }

def printChar (cols : ℕ) (h : History) (c : UInt8) : History :=
  let h := if c = 0x0a ∨ cols ≤ h.current.length then h.endRow else h
  if c = 0x0a then h else { h with current := h.current ++ [c] }

def print (cols : ℕ) (s : CString) (h : History) : History :=
  if 0 < cols then { (s.bytes.take 255).foldl (printChar cols) h with stale := false } else h

def deleteLine (h : History) : History :=
  { h with
    logged := h.logged.dropLast, kept := h.kept.tail, current := []
    underflow := h.underflow || h.logged.isEmpty, stale := h.kept.headD [] ≠ [] }

def call (cols : ℕ) : LogCall → History → History
  | .print s, h => h.print cols s
  | .deleteLine, h => h.deleteLine

def empty : History := ⟨[], [], [], 0, false, false⟩

/-- The cursor never went around the rows of a screen. -/
def Straight (h : History) (textRows : ℕ) : Prop := h.peak < textRows ∧ h.underflow = false

end History

/-- What was written by a sequence of calls. -/
def history (cols : ℕ) (cs : List LogCall) : History := cs.foldl (fun h c => h.call cols c) .empty

/-! ### No access leaves the array -/

/-- The cursor is inside, and the last column is never used for text. -/
structure Inside (l : Log) : Prop where
  row_lt : l.textRow < g.textRows
  col_le : l.textCol ≤ g.textCols
  last_col : ∀ r, l.text r 95 = 0

variable {g} {l : Log}

theorem put_ok {text : TextArray} {row col : ℕ} (hrow : row < 32) (hcol : col < 96) (c : UInt8) :
    put text row col c = .ok (setByte text row col c) := by
  rw [put, failIf_bind, if_neg (not_not.mpr ⟨hrow, hcol⟩)]

theorem setByte_of_ne {text : TextArray} {row col r k : ℕ} {c : UInt8} (h : r ≠ row ∨ k ≠ col) : setByte text row col c r k = text r k :=
  if_neg fun h' => h.elim (· h'.1) (· h'.2)

theorem setByte_self (text : TextArray) (row col : ℕ) (c : UInt8) : setByte text row col c row col = c := if_pos ⟨rfl, rfl⟩

theorem setByte_zero {text : TextArray} {row col r k : ℕ} (h : text r k = 0) : setByte text row col 0 r k = 0 := by
  unfold setByte
  split_ifs
  · rfl
  · exact h

theorem Inside.row_lt_max (h : Inside g l) : l.textRow < 32 := h.row_lt.trans_le g.textRows_le

theorem Inside.put_zero (h : Inside g l) : put l.text l.textRow l.textCol 0 = .ok (setByte l.text l.textRow l.textCol 0) :=
  put_ok h.row_lt_max (by have := h.col_le; have := g.textCols_le; omega) 0

def ended (g : Geometry) (l : Log) : Log := ⟨setByte l.text l.textRow l.textCol 0, 0, (l.textRow + 1) % g.textRows⟩

theorem Inside.nextRow_eq (h : Inside g l) : nextRow g l = .ok (ended g l) := by
  rw [nextRow, h.put_zero, ok_bind]
  rfl

theorem Inside.ended (h : Inside g l) : Inside g (ended g l) :=
  ⟨Nat.mod_lt _ (Nat.zero_lt_of_lt h.row_lt), Nat.zero_le _, fun r => setByte_zero (h.last_col r)⟩

def written (l : Log) (c : UInt8) : Log := ⟨setByte l.text l.textRow l.textCol c, l.textCol + 1, l.textRow⟩

theorem Inside.written (h : Inside g l) (hcol : l.textCol < g.textCols) (c : UInt8) : Inside g (written l c) :=
  ⟨h.row_lt, hcol, fun r => (setByte_of_ne (.inr (by have := g.textCols_le; omega))).trans (h.last_col r)⟩

/-- What `printChar` does: the row is ended, a character is written, or both. -/
theorem Inside.printChar_eq (h : Inside g l) (c : UInt8) :
    printChar g l c = .ok (
      if c = 0x0a then Ui.ended g l else if g.textCols ≤ l.textCol then Ui.written (Ui.ended g l) c else Ui.written l c) := by
  have hput : ∀ {l' : Log}, Inside g l' → put l'.text l'.textRow l'.textCol c = .ok (setByte l'.text l'.textRow l'.textCol c) := fun h' =>
    put_ok h'.row_lt_max (by have := h'.col_le; have := g.textCols_le; omega) c
  unfold printChar
  by_cases hc : c = 0x0a
  · simp only [hc, true_or, if_true, h.nextRow_eq, ok_bind]
  · by_cases hcol : g.textCols ≤ l.textCol
    · simp only [hc, hcol, or_true, if_true, if_false, h.nextRow_eq, ok_bind, hput h.ended]
      rfl
    · simp only [hc, hcol, or_self, if_false, ok_bind, hput h]
      rfl

/-! ### The ring holds the newest rows -/

def Row (bytes : ℕ → UInt8) (s : Bytes) : Prop := (∀ j c, s[j]? = some c → bytes j = c) ∧ bytes s.length = 0

/-- The row `i` places in front of the one before the cursor. -/
def rowBefore (textRow i : ℕ) : ℕ := (textRow + 31 - i) % 32

theorem Row.setByte {text : TextArray} {r row col : ℕ} {c : UInt8} {s : Bytes} (h : Row (text r) s) (hne : r ≠ row) :
    Row (setByte text row col c r) s :=
  ⟨fun j d hj => (setByte_of_ne (.inl hne)).trans (h.1 j d hj), (setByte_of_ne (.inl hne)).trans h.2⟩

theorem rowBefore_ne {textRow i : ℕ} (h : textRow < 32) (hi : i < 31) : rowBefore textRow i ≠ textRow := by
  unfold rowBefore
  omega

/-- The cursor is at the end of the current row, and the kept rows are in front of it. -/
structure Shows (l : Log) (h : History) : Prop where
  col_eq : l.textCol = h.current.length
  current : ∀ j c, h.current[j]? = some c → l.text l.textRow j = c
  rows : ∀ i < 31, Row (l.text (rowBefore l.textRow i)) (h.kept.getD i [])
  kept_le : h.kept.length ≤ 31
  strings : ∀ s ∈ h.current :: h.kept, 0 ∉ s ∧ s.length ≤ 95
  newest : h.kept <+: h.logged.reverse

variable {h : History}

theorem Shows.ended (hs : Shows l h) (hi : Inside g l) (hnext : (l.textRow + 1) % g.textRows = (l.textRow + 1) % 32) :
    Shows (ended g l) h.endRow := by
  have hlt := hi.row_lt_max
  have hnew : ∀ i < 31, rowBefore ((l.textRow + 1) % 32) (i + 1) = rowBefore l.textRow i := fun i hi => by
    unfold rowBefore
    omega
  have hzero : rowBefore ((l.textRow + 1) % 32) 0 = l.textRow := by
    unfold rowBefore
    omega
  refine ⟨rfl, by simp [History.endRow], fun i hi' => ?_, by simp [History.endRow], ?_, ?_⟩
  · show Row (setByte l.text l.textRow l.textCol 0 (rowBefore ((l.textRow + 1) % g.textRows) i)) (((h.current :: h.kept).take 31).getD i [])
    rw [hnext, List.getD_eq_getElem?_getD, List.getElem?_take_of_lt hi']
    cases i with
    | zero =>
      rw [hzero]
      refine ⟨fun j c hj => ?_, ?_⟩
      · have hlt : j < h.current.length := (List.getElem?_eq_some_iff.mp hj).1
        rw [setByte_of_ne (.inr (by rw [hs.col_eq]; omega))]
        exact hs.current j c hj
      · exact hs.col_eq ▸ setByte_self _ _ _ _
    | succ i =>
      rw [hnew i (by omega), List.getElem?_cons_succ, ← List.getD_eq_getElem?_getD]
      exact (hs.rows i (by omega)).setByte (rowBefore_ne hlt (by omega))
  · intro s hmem
    rcases List.mem_cons.mp hmem with rfl | hmem
    · simp [History.endRow]
    · exact hs.strings s (List.mem_of_mem_take hmem)
  · rw [History.endRow, List.reverse_append, List.reverse_singleton, List.singleton_append]
    exact (List.take_prefix _ _).trans (List.cons_prefix_cons.mpr ⟨rfl, hs.newest⟩)

theorem Shows.written (hs : Shows l h) (hi : Inside g l) (hcol : l.textCol < g.textCols) {c : UInt8} (hc : c ≠ 0) :
    Shows (written l c) { h with current := h.current ++ [c] } := by
  have hlt := hi.row_lt_max
  have hcols := g.textCols_le
  refine ⟨by simp [Ui.written, hs.col_eq], fun j d hj => ?_, fun i hi' => ?_, hs.kept_le, fun s hmem => ?_, hs.newest⟩
  · show setByte l.text l.textRow l.textCol c l.textRow j = d
    dsimp only at hj
    rcases Nat.lt_trichotomy j h.current.length with hlt' | heq | hgt
    · rw [List.getElem?_append_left hlt'] at hj
      rw [setByte_of_ne (.inr (by rw [hs.col_eq]; omega))]
      exact hs.current j d hj
    · rw [heq, List.getElem?_concat_length] at hj
      rw [heq, ← hs.col_eq, setByte_self]
      exact Option.some.inj hj
    · rw [List.getElem?_eq_none (by simp; omega)] at hj
      exact absurd hj (by simp)
  · exact (hs.rows i hi').setByte (rowBefore_ne hlt hi')
  · rcases List.mem_cons.mp hmem with rfl | hmem
    · obtain ⟨hnul, -⟩ := hs.strings h.current List.mem_cons_self
      have := hs.col_eq
      refine ⟨by simp [hnul, hc.symm], by simp; omega⟩
    · exact hs.strings s (List.mem_cons_of_mem _ hmem)

theorem Shows.terminated (hs : Shows l h) (hi : Inside g l) : Shows { l with text := setByte l.text l.textRow l.textCol 0 } h := by
  have hlt := hi.row_lt_max
  refine ⟨hs.col_eq, fun j c hj => ?_, fun i hi' => ?_, hs.kept_le, hs.strings, hs.newest⟩
  · have hlt' : j < h.current.length := (List.getElem?_eq_some_iff.mp hj).1
    exact (setByte_of_ne (.inr (by rw [hs.col_eq]; omega))).trans (hs.current j c hj)
  · exact (hs.rows i hi').setByte (rowBefore_ne hlt hi')

/-- The cursor goes back, and its old row is empty. -/
def deleted (g : Geometry) (l : Log) : Log := ⟨setByte l.text l.textRow 0 0, 0, (l.textRow + g.textRows - 1) % g.textRows⟩

theorem Shows.deleted (hs : Shows l h) (hi : Inside g l)
    (hprev : (l.textRow + g.textRows - 1) % g.textRows = (l.textRow + 32 - 1) % 32) : Shows (deleted g l) h.deleteLine := by
  have hlt := hi.row_lt_max
  have hold : ∀ i < 30, rowBefore ((l.textRow + 32 - 1) % 32) i = rowBefore l.textRow (i + 1) := fun i hi => by
    unfold rowBefore
    omega
  have hlast : rowBefore ((l.textRow + 32 - 1) % 32) 30 = l.textRow := by
    unfold rowBefore
    omega
  have hkept := hs.kept_le
  refine ⟨rfl, by simp [History.deleteLine], fun i hi' => ?_, by simp [History.deleteLine]; omega, fun s hmem => ?_, ?_⟩
  · show Row (setByte l.text l.textRow 0 0 (rowBefore ((l.textRow + g.textRows - 1) % g.textRows) i)) (h.kept.tail.getD i [])
    rw [hprev, List.getD_eq_getElem?_getD, List.getElem?_tail, ← List.getD_eq_getElem?_getD]
    rcases Nat.lt_or_ge i 30 with h30 | h30
    · rw [hold i h30]
      exact (hs.rows (i + 1) (by omega)).setByte (rowBefore_ne hlt (by omega))
    · -- the row that the cursor left
      obtain rfl : i = 30 := by omega
      rw [hlast, List.getD_eq_getElem?_getD, List.getElem?_eq_none (by omega)]
      exact ⟨by simp, setByte_self _ _ _ _⟩
  · rcases List.mem_cons.mp hmem with rfl | hmem
    · simp [History.deleteLine]
    · exact hs.strings s (List.mem_cons_of_mem _ (List.mem_of_mem_tail hmem))
  · rw [History.deleteLine, ← List.tail_reverse, ← List.drop_one, ← List.drop_one]
    exact hs.newest.drop 1

/-! ### Every sequence of calls -/

/-- The rows in front of the cursor are the newest ones: all 32 rows are in use,
or the cursor never went around. -/
def Orderly (g : Geometry) (h : History) : Prop := g.textRows = 32 ∨ h.Straight g.textRows

/-- The log is inside the array, and orderly it holds what was written. -/
structure Tracks (g : Geometry) (l : Log) (h : History) : Prop where
  inside : Inside g l
  shows : Orderly g h → Shows l h
  straight : h.Straight g.textRows → l.textRow = h.logged.length ∧ h.kept = h.logged.reverse ∧ h.logged.length ≤ h.peak

theorem orderly_of_endRow (ho : Orderly g h.endRow) : Orderly g h :=
  ho.imp_right fun hs => ⟨(Nat.le_max_left _ _).trans_lt hs.1, hs.2⟩

theorem Tracks.ended (ht : Tracks g l h) : Tracks g (ended g l) h.endRow := by
  have hmax := g.textRows_le
  have hnext : h.endRow.Straight g.textRows → l.textRow = h.logged.length ∧ h.kept = h.logged.reverse ∧ l.textRow + 1 < g.textRows := by
    intro hs
    obtain ⟨hrow, hkept, -⟩ := ht.straight ⟨(Nat.le_max_left _ _).trans_lt hs.1, hs.2⟩
    have : h.logged.length + 1 < g.textRows := (Nat.le_max_right _ _).trans_lt hs.1
    exact ⟨hrow, hkept, by omega⟩
  refine ⟨ht.inside.ended, fun ho => (ht.shows (orderly_of_endRow ho)).ended ht.inside ?_, fun hs => ?_⟩
  · rcases ho with h32 | hs
    · rw [h32]
    · obtain ⟨-, -, hlt⟩ := hnext hs
      rw [Nat.mod_eq_of_lt hlt, Nat.mod_eq_of_lt (by omega)]
  · obtain ⟨hrow, hkept, hlt⟩ := hnext hs
    refine ⟨?_, ?_, ?_⟩
    · show (l.textRow + 1) % g.textRows = (h.logged ++ [h.current]).length
      rw [Nat.mod_eq_of_lt hlt, hrow, List.length_append, List.length_singleton]
    · show (h.current :: h.kept).take 31 = (h.logged ++ [h.current]).reverse
      rw [hkept, List.take_of_length_le (by simp; omega), List.reverse_append, List.reverse_singleton, List.singleton_append]
    · show (h.logged ++ [h.current]).length ≤ max h.peak (h.logged.length + 1)
      simp

theorem Tracks.written (ht : Tracks g l h) (hcol : l.textCol < g.textCols) {c : UInt8} (hc : c ≠ 0) :
    Tracks g (written l c) { h with current := h.current ++ [c] } :=
  ⟨ht.inside.written hcol c, fun ho => (ht.shows ho).written ht.inside hcol hc, ht.straight⟩

/-- The column of the cursor is the length of its row. -/
structure Cursor (g : Geometry) (l : Log) (h : History) : Prop extends Tracks g l h where
  col : l.textCol = h.current.length

theorem Cursor.printChar (ht : Cursor g l h) (hcols : 0 < g.textCols) {c : UInt8} (hc : c ≠ 0) :
    ∃ l', printChar g l c = .ok l' ∧ Cursor g l' (h.printChar g.textCols c) := by
  refine ⟨_, ht.inside.printChar_eq c, ?_⟩
  by_cases hnl : c = 0x0a
  · rw [if_pos hnl]
    simpa [History.printChar, hnl] using Cursor.mk ht.ended rfl
  rw [if_neg hnl]
  by_cases hcol : g.textCols ≤ l.textCol
  · rw [if_pos hcol]
    have hfull : g.textCols ≤ h.current.length := ht.col ▸ hcol
    simpa [History.printChar, hnl, hfull] using Cursor.mk (ht.ended.written hcols hc) rfl
  · rw [if_neg hcol]
    have hroom : ¬ g.textCols ≤ h.current.length := ht.col ▸ hcol
    have := Cursor.mk (ht.written (Nat.lt_of_not_le hcol) hc) (by simp [Ui.written, ht.col])
    simpa [History.printChar, hnl, hroom] using this

theorem Cursor.printChars (hcols : 0 < g.textCols) : ∀ (cs : Bytes) {l : Log} {h : History}, Cursor g l h → 0 ∉ cs →
    ∃ l', printChars g cs l = .ok l' ∧ Cursor g l' (cs.foldl (History.printChar g.textCols) h)
  | [], l, _, ht, _ => ⟨l, rfl, ht⟩
  | c :: cs, l, h, ht, hnul => by
    obtain ⟨hc, hcs⟩ : c ≠ 0 ∧ 0 ∉ cs := ⟨fun h0 => hnul (h0 ▸ List.mem_cons_self), fun h0 => hnul (List.mem_cons_of_mem _ h0)⟩
    obtain ⟨l₁, hchar, ht₁⟩ := ht.printChar hcols hc
    obtain ⟨l₂, hchars, ht₂⟩ := Cursor.printChars hcols cs ht₁ hcs
    exact ⟨l₂, by rw [Ui.printChars, hchar, ok_bind, hchars], ht₂⟩

/-- Between the calls: an empty row of the cursor has no old text. -/
structure Settled (g : Geometry) (l : Log) (h : History) : Prop extends Cursor g l h where
  clean : Orderly g h → h.current = [] → h.stale = false → l.text l.textRow 0 = 0

theorem Settled.uiPrint (ht : Settled g l h) (s : CString) :
    ∃ l', uiPrint g s l = .ok l' ∧ Settled g l' (h.print g.textCols s) := by
  have hrowsPos : 0 < g.textRows := Nat.zero_lt_of_lt ht.inside.row_lt
  unfold Ui.uiPrint History.print
  by_cases hcols : 0 < g.textCols
  · obtain ⟨l₁, hchars, ⟨hi, hs, hstraight⟩, hcol⟩ := Cursor.printChars hcols (s.bytes.take 255) ht.toCursor fun h0 =>
      s.no_nul (List.mem_of_mem_take h0)
    rw [if_pos ⟨hrowsPos, hcols⟩, if_pos hcols, hchars, ok_bind, hi.put_zero, ok_bind]
    refine ⟨_, rfl, ⟨⟨⟨hi.row_lt, hi.col_le, fun r => setByte_zero (hi.last_col r)⟩, fun ho => ?_, hstraight⟩, hcol⟩,
      fun _ hempty _ => ?_⟩
    · exact ⟨((hs ho).terminated hi).1, ((hs ho).terminated hi).2, ((hs ho).terminated hi).3, ((hs ho).terminated hi).4,
        ((hs ho).terminated hi).5, ((hs ho).terminated hi).6⟩
    · dsimp only at hempty
      rw [hempty, List.length_nil] at hcol
      show setByte l₁.text l₁.textRow l₁.textCol 0 l₁.textRow 0 = 0
      rw [hcol, setByte_self]
  · rw [if_neg fun hboth => hcols hboth.2, if_neg hcols]
    exact ⟨l, rfl, ht⟩

theorem Settled.uiDeleteLine (ht : Settled g l h) : ∃ l', uiDeleteLine g l = .ok l' ∧ Settled g l' h.deleteLine := by
  have hrowsPos : 0 < g.textRows := Nat.zero_lt_of_lt ht.inside.row_lt
  have hmax := g.textRows_le
  have hlt := ht.inside.row_lt
  have hback : h.deleteLine.Straight g.textRows → h.Straight g.textRows ∧ h.logged ≠ [] := fun hs => by
    have hflow : h.underflow = false ∧ h.logged ≠ [] := by simpa [History.deleteLine] using hs.2
    exact ⟨⟨hs.1, hflow.1⟩, hflow.2⟩
  have hprev : Orderly g h.deleteLine → Orderly g h ∧ (l.textRow + g.textRows - 1) % g.textRows = (l.textRow + 32 - 1) % 32 := by
    rintro (h32 | hs)
    · exact ⟨.inl h32, by rw [h32]⟩
    · obtain ⟨hs, hne⟩ := hback hs
      have hpos := List.length_pos_iff.mpr hne
      have hrow := (ht.straight hs).1
      refine ⟨.inr hs, ?_⟩
      rw [show l.textRow + g.textRows - 1 = l.textRow - 1 + g.textRows by omega, Nat.add_mod_right, Nat.mod_eq_of_lt (by omega),
        show l.textRow + 32 - 1 = l.textRow - 1 + 32 by omega, Nat.add_mod_right, Nat.mod_eq_of_lt (by omega)]
  have hrun : Ui.uiDeleteLine g l = .ok (Ui.deleted g l) := by
    rw [Ui.uiDeleteLine, put_ok ht.inside.row_lt_max (by decide), ok_bind, failIf_bind, if_neg hrowsPos.ne']
    rfl
  have hinside : Inside g (Ui.deleted g l) := ⟨Nat.mod_lt _ hrowsPos, Nat.zero_le _, fun r => setByte_zero (ht.inside.last_col r)⟩
  refine ⟨_, hrun, ⟨⟨hinside, fun ho => ?_, fun hs => ?_⟩, rfl⟩, fun ho _ hstale => ?_⟩
  · obtain ⟨ho, hprev⟩ := hprev ho
    exact (ht.shows ho).deleted ht.inside hprev
  · obtain ⟨hs, hne⟩ := hback hs
    obtain ⟨hrow, hkept, hpeak⟩ := ht.straight hs
    have hpos := List.length_pos_iff.mpr hne
    refine ⟨?_, ?_, ?_⟩
    · show (l.textRow + g.textRows - 1) % g.textRows = h.logged.dropLast.length
      rw [show l.textRow + g.textRows - 1 = l.textRow - 1 + g.textRows by omega, Nat.add_mod_right, Nat.mod_eq_of_lt (by omega), hrow,
        List.length_dropLast]
    · show h.kept.tail = h.logged.dropLast.reverse
      rw [hkept, List.tail_reverse]
    · show h.logged.dropLast.length ≤ h.peak
      rw [List.length_dropLast]
      omega
  · obtain ⟨ho, hprev⟩ := hprev ho
    have hempty : h.kept.getD 0 [] = [] := by
      have : h.kept.headD [] = [] := by simpa [History.deleteLine] using hstale
      cases hk : h.kept <;> simp_all
    have hrow := (ht.shows ho).rows 0 (by decide)
    rw [hempty] at hrow
    show setByte l.text l.textRow 0 0 ((l.textRow + g.textRows - 1) % g.textRows) 0 = 0
    rw [hprev]
    exact setByte_zero hrow.2

theorem settled_empty (hrows : 0 < g.textRows) : Settled g emptyLog .empty :=
  ⟨⟨⟨⟨hrows, Nat.zero_le _, fun _ => rfl⟩, fun _ => ⟨rfl, by simp [History.empty], fun _ _ => ⟨by simp [History.empty], rfl⟩,
    Nat.zero_le _, by simp [History.empty], List.nil_prefix⟩, fun _ => ⟨rfl, rfl, Nat.zero_le _⟩⟩, rfl⟩, fun _ _ _ => rfl⟩

theorem Settled.logCalls : ∀ {l : Log} {h : History}, Settled g l h → ∀ cs : List LogCall,
    ∃ l', logCalls g cs l = .ok l' ∧ Settled g l' (cs.foldl (fun h c => h.call g.textCols c) h)
  | l, _, ht, [] => ⟨l, rfl, ht⟩
  | l, h, ht, c :: cs => by
    have hcall : ∃ l₁, logCall g c l = .ok l₁ ∧ Settled g l₁ (h.call g.textCols c) := by
      cases c with
      | print s => exact ht.uiPrint s
      | deleteLine => exact ht.uiDeleteLine
    obtain ⟨l₁, hrun, ht₁⟩ := hcall
    obtain ⟨l₂, hcalls, ht₂⟩ := ht₁.logCalls cs
    exact ⟨l₂, by rw [Ui.logCalls, hrun, ok_bind, hcalls], ht₂⟩

/-! ### What is drawn -/

def rowString (text : TextArray) (row : ℕ) : Bytes := cstr ((List.range maxCols).map (text row))

theorem Inside.readRow_eq (hi : Inside g l) {row : ℕ} (h : row < maxRows) : readRow l.text row = .ok (rowString l.text row) := by
  have hnul : (0 : UInt8) ∈ (List.range maxCols).map (l.text row) := List.mem_map.mpr ⟨95, by decide, hi.last_col row⟩
  rw [readRow, failIf_bind, if_neg (not_not.mpr h), failIf_bind, if_neg (not_not.mpr hnul)]
  rfl

theorem Row.string_eq {text : TextArray} {row : ℕ} {s : Bytes} (h : Row (text row) s) (hnul : 0 ∉ s) (hlen : s.length ≤ 95) :
    rowString text row = s := by
  have hsplit : (List.range maxCols).map (text row) = s ++ 0 :: ((List.range maxCols).map (text row)).drop (s.length + 1) := by
    refine List.ext_getElem? fun j => ?_
    rcases Nat.lt_trichotomy j s.length with hlt | rfl | hgt
    · rw [List.getElem?_append_left hlt, List.getElem?_map, List.getElem?_range (by unfold maxCols; omega), List.getElem?_eq_getElem hlt]
      exact congrArg some (h.1 j s[j] (List.getElem?_eq_getElem hlt))
    · rw [List.getElem?_append_right le_rfl, Nat.sub_self, List.getElem?_map, List.getElem?_range (by unfold maxCols; omega)]
      exact congrArg some h.2
    · rw [List.getElem?_append_right hgt.le, List.getElem?_cons, if_neg (by omega), List.getElem?_drop]
      congr 1
      omega
  rw [rowString, hsplit, cstr_append_nul hnul]

theorem mapM_ok {α β : Type} {f : α → Except Stop β} {k : α → β} : ∀ {xs : List α}, (∀ x ∈ xs, f x = .ok (k x)) → xs.mapM f = .ok (xs.map k)
  | [], _ => rfl
  | x :: xs, hf => by
    obtain ⟨hx, hxs⟩ := List.forall_mem_cons.mp hf
    rw [List.mapM_cons, hx, ok_bind, mapM_ok hxs]
    rfl

/-- The number of log rows that are drawn, and the row of the screen where they begin. -/
def drawnRows (g : Geometry) (row : ℕ) : ℕ := (min (availableRows g row) maxRows).toNat

def drawnStart (g : Geometry) (row : ℕ) : ℤ := if availableRows g row < maxRows then row + 1 else g.totalRows - maxRows

/-- The rows in front of the cursor are drawn; a 32nd row is that of the cursor. -/
theorem Inside.drawLog_eq (hi : Inside g l) (row : ℕ) : drawLog g l row =
    .ok ((List.range (drawnRows g row)).map fun r : ℕ => (drawnStart g row + r, rowString l.text (rowBefore l.textRow (drawnRows g row - 1 - r)))) := by
  have hlt := hi.row_lt_max
  have hmax : maxRows = 32 := rfl
  unfold drawLog
  refine mapM_ok fun r hr => ?_
  have hr' : r < drawnRows g row := List.mem_range.mp hr
  have hindex : (((if availableRows g row < maxRows then ((l.textRow : ℤ) + (maxRows - availableRows g row)) % maxRows else l.textRow) + r) %
      maxRows).toNat = rowBefore l.textRow (drawnRows g row - 1 - r) := by
    unfold drawnRows at hr' ⊢
    unfold rowBefore
    rw [hmax] at *
    split_ifs with havail <;> omega
  have hrow : rowBefore l.textRow (drawnRows g row - 1 - r) < maxRows := Nat.mod_lt _ (by decide)
  rw [hindex, hi.readRow_eq hrow, ok_bind]
  rfl

theorem map_range_getD (kept : List Bytes) (n : ℕ) : (List.range n).map (fun r => kept.getD (n - 1 - r) []) =
    List.replicate (n - (kept.take n).reverse.length) [] ++ (kept.take n).reverse := by
  refine List.ext_getElem (by simp) fun r hr hr' => ?_
  have hr : r < n := by simpa using hr
  rw [List.getElem_map, List.getElem_range, List.getElem_append]
  simp only [List.length_replicate, List.length_reverse, List.length_take]
  split_ifs with hblank
  · rw [List.getElem_replicate, List.getD_eq_getElem?_getD, List.getElem?_eq_none (by omega), Option.getD_none]
  · rw [List.getElem_reverse, List.getElem_take, List.getD_eq_getElem?_getD, List.getElem?_eq_getElem (by omega), Option.getD_some]
    congr 1
    simp only [List.length_take]
    omega

theorem Shows.drawn_eq (hs : Shows l h) (row : ℕ) (hcursor : availableRows g row < maxRows ∨ l.text l.textRow 0 = 0) (hlt : l.textRow < 32) :
    ((List.range (drawnRows g row)).map fun r => rowString l.text (rowBefore l.textRow (drawnRows g row - 1 - r))) =
      List.replicate (drawnRows g row - (h.kept.take (drawnRows g row)).reverse.length) [] ++ (h.kept.take (drawnRows g row)).reverse := by
  rw [← map_range_getD]
  refine List.map_congr_left fun r hr => ?_
  have hr' := List.mem_range.mp hr
  have hmax : maxRows = 32 := rfl
  have hdrawn : drawnRows g row ≤ 32 ∧ (availableRows g row < maxRows → drawnRows g row < 32) := by
    unfold drawnRows
    omega
  rcases Nat.lt_or_ge (drawnRows g row - 1 - r) 31 with hi | hi
  · have hmem : ∀ i, 0 ∉ h.kept.getD i [] ∧ (h.kept.getD i []).length ≤ 95 := fun i => by
      rw [List.getD_eq_getElem?_getD]
      cases hi : h.kept[i]? with
      | none => simp
      | some s => exact hs.strings s (List.mem_cons_of_mem _ (List.mem_of_getElem? hi))
    exact (hs.rows _ hi).string_eq (hmem _).1 (hmem _).2
  · -- the row of the cursor is the first of 32
    have h31 : drawnRows g row - 1 - r = 31 := by omega
    have hrow : rowBefore l.textRow 31 = l.textRow := by
      unfold rowBefore
      omega
    have hempty : l.text l.textRow 0 = 0 := hcursor.resolve_left fun h' => by have := hdrawn.2 h'; omega
    have hkept := hs.kept_le
    rw [h31, hrow, List.getD_eq_getElem?_getD, List.getElem?_eq_none (by omega)]
    exact Row.string_eq ⟨by simp, hempty⟩ (by simp) (by simp)

/-! ### What can be displayed -/

/-- **What can be displayed**: the rows in front of the cursor are the newest
ones, the last row is finished, no row that fits was pushed out of the ring, and
if even the row of the cursor is drawn, it has no old text. -/
structure Displayable (g : Geometry) (cs : List LogCall) (row : ℕ) : Prop where
  orderly : Orderly g (history g.textCols cs)
  finished : (history g.textCols cs).current = []
  kept : min (availableRows g row).toNat (history g.textCols cs).logged.length ≤ (history g.textCols cs).kept.length
  fresh : availableRows g row < maxRows ∨ (history g.textCols cs).stale = false

theorem logCalls_no_rows (hzero : g.textRows = 0) (l : Log) : ∀ {cs : List LogCall}, (∀ c ∈ cs, ∃ s, c = .print s) → logCalls g cs l = .ok l
  | [], _ => rfl
  | c :: cs, h => by
    obtain ⟨⟨s, rfl⟩, hcs⟩ := List.forall_mem_cons.mp h
    have hprint : logCall g (.print s) l = .ok l := if_neg fun hpos => absurd hpos.1 (by omega)
    rw [logCalls, hprint, ok_bind, logCalls_no_rows hzero l hcs]

/-- What is drawn on a screen without rows, and of a log that can be displayed. -/
def NewestDrawn (g : Geometry) (cs : List LogCall) (row : ℕ) (drawn : List (ℤ × Bytes)) : Prop :=
  ∃ rows, rows <:+ (history g.textCols cs).logged ∧
    rows.length = min (availableRows g row).toNat (history g.textCols cs).logged.length ∧
    drawn.map Prod.snd = List.replicate (drawn.length - rows.length) [] ++ rows ∧
    drawn.map Prod.fst = (List.range drawn.length).map fun r : ℕ => drawnStart g row + r

theorem Settled.newestDrawn {cs : List LogCall} {row : ℕ} (ht : Settled g l (history g.textCols cs)) (hd : Displayable g cs row) :
    NewestDrawn g cs row ((List.range (drawnRows g row)).map fun r : ℕ =>
      (drawnStart g row + r, rowString l.text (rowBefore l.textRow (drawnRows g row - 1 - r)))) := by
  have hshows := ht.shows hd.orderly
  have hcursor : availableRows g row < maxRows ∨ l.text l.textRow 0 = 0 := hd.fresh.imp_right (ht.clean hd.orderly hd.finished)
  refine ⟨((history g.textCols cs).kept.take (drawnRows g row)).reverse, ?_, ?_, ?_, ?_⟩
  · rw [← List.reverse_prefix, List.reverse_reverse]
    exact (List.take_prefix _ _).trans hshows.newest
  · have hkept := hd.kept
    have hle := hshows.kept_le
    have hnewest := hshows.newest.length_le
    have hmax : maxRows = 32 := rfl
    rw [List.length_reverse] at hnewest
    rw [List.length_reverse, List.length_take, drawnRows]
    omega
  · rw [List.map_map, List.length_map, List.length_range]
    exact hshows.drawn_eq row hcursor ht.inside.row_lt_max
  · rw [List.map_map, List.length_map, List.length_range]
    rfl

/-- **The log on the screen.** On a screen with rows, and on any without
`ui_delete_line`, no call and no drawing leaves the array; and of a log that can
be displayed the newest rows are drawn in their order, as many as fit below the
menu, with empty rows in front. -/
theorem log_shown {g : Geometry} (cs : List LogCall) (hrows : 0 < g.totalRows ∨ ∀ c ∈ cs, ∃ s, c = .print s) :
    ∃ l, logCalls g cs emptyLog = .ok l ∧ ∀ row, ∃ drawn, drawLog g l row = .ok drawn ∧
      (g.totalRows = 0 ∨ Displayable g cs row → NewestDrawn g cs row drawn) := by
  rcases Nat.eq_zero_or_pos g.totalRows with hzero | hpos
  · have hprints := hrows.resolve_left (by omega)
    refine ⟨emptyLog, logCalls_no_rows (g.textRows_zero hzero) _ hprints, fun row => ⟨[], ?_, fun _ => ?_⟩⟩
    · have hnone : (min (availableRows g row) maxRows).toNat = 0 := by
        unfold availableRows
        omega
      rw [drawLog, hnone]
      rfl
    · have hnone : (availableRows g row).toNat = 0 := by
        unfold availableRows
        omega
      exact ⟨[], List.nil_suffix, by simp [hnone], rfl, rfl⟩
  · obtain ⟨l, hrun, ht⟩ := (settled_empty (g.textRows_pos hpos)).logCalls cs
    exact ⟨l, hrun, fun row => ⟨_, ht.inside.drawLog_eq row, fun hd => ht.newestDrawn (hd.resolve_left hpos.ne')⟩⟩

def letters (n : ℕ) : List LogCall := (List.range n).map fun i => .print (.of [UInt8.ofNat (0x61 + i), 0x0a])

theorem letters_displayable : Displayable (screenOf 40 32) (letters 2) 0 ∧ Displayable (screenOf 40 20) (letters 2) 0 := by
  have hcurrent : (history 40 (letters 2)).current = [] := by decide +kernel
  have hkept : (history 40 (letters 2)).kept.length = 2 ∧ (history 40 (letters 2)).logged.length = 2 := by decide +kernel
  have hpeak : (history 40 (letters 2)).peak < 20 ∧ (history 40 (letters 2)).underflow = false := by decide +kernel
  exact ⟨⟨.inl rfl, hcurrent, by rw [show (screenOf 40 32).textCols = 40 from rfl, hkept.1, hkept.2]; exact Nat.min_le_right _ _, .inl (by decide)⟩,
    ⟨.inr hpeak, hcurrent, by rw [show (screenOf 40 20).textCols = 40 from rfl, hkept.1, hkept.2]; exact Nat.min_le_right _ _, .inl (by decide)⟩⟩

/-- Two rows, on a screen of 32 rows and on one of 20. -/
theorem log_shown_letters : ∃ l drawn l' drawn',
    logCalls (screenOf 40 32) (letters 2) emptyLog = .ok l ∧ drawLog (screenOf 40 32) l 0 = .ok drawn ∧
    NewestDrawn (screenOf 40 32) (letters 2) 0 drawn ∧
    logCalls (screenOf 40 20) (letters 2) emptyLog = .ok l' ∧ drawLog (screenOf 40 20) l' 0 = .ok drawn' ∧
    NewestDrawn (screenOf 40 20) (letters 2) 0 drawn' := by
  obtain ⟨l, hrun, hdraw⟩ := log_shown (g := screenOf 40 32) (letters 2) (.inl (by decide))
  obtain ⟨l', hrun', hdraw'⟩ := log_shown (g := screenOf 40 20) (letters 2) (.inl (by decide))
  obtain ⟨drawn, hdrawn, hnewest⟩ := hdraw 0
  obtain ⟨drawn', hdrawn', hnewest'⟩ := hdraw' 0
  exact ⟨l, drawn, l', drawn', hrun, hdrawn, hnewest (.inr letters_displayable.1), hrun', hdrawn', hnewest' (.inr letters_displayable.2)⟩

/-- What the calls draw on a screen without a menu. -/
def drawnAfter (g : Geometry) (cs : List LogCall) : Except Stop (List Bytes) := do
  let l ← logCalls g cs emptyLog
  let drawn ← drawLog g l 0
  .ok (drawn.map Prod.snd)

/-- On a screen of 20 rows, only 7 of the newest 19 of 25 rows are drawn, with a gap of 12
rows; a row without its newline is not drawn; and on a screen without rows `ui_delete_line`
divides by 0. -/
theorem log_rows_lost :
    (history (screenOf 40 20).textCols (letters 25)).logged.length = 25 ∧
    drawnAfter (screenOf 40 20) (letters 25) =
      .ok ([lit "s", lit "t"] ++ List.replicate 12 [] ++ [lit "u", lit "v", lit "w", lit "x", lit "y"]) ∧
    drawnAfter (screenOf 40 32) [.print (str "a")] = .ok (List.replicate 31 []) ∧
    logCalls (screenOf 40 0) [.deleteLine] emptyLog = .error .fault := by
  have hlogged : (history (screenOf 40 20).textCols (letters 25)).logged.length = 25 := by decide +kernel
  have hgap : drawnAfter (screenOf 40 20) (letters 25) =
    .ok ([lit "s", lit "t"] ++ List.replicate 12 [] ++ [lit "u", lit "v", lit "w", lit "x", lit "y"]) := by decide +kernel
  have hpartial : drawnAfter (screenOf 40 32) [.print (str "a")] = .ok (List.replicate 31 []) := by decide +kernel
  exact ⟨hlogged, hgap, hpartial, rfl⟩

end Ui
end Recovery
