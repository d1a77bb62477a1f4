/-
# The text screen (ui.c)

`ui_init` takes the numbers of rows and columns from the size of a character and cuts them
off at the sizes of the arrays for the log; the menu may take all rows of the screen but
three.
-/
import Recovery.Text

namespace Recovery
namespace Ui

def maxRows : ℕ := 32

def maxCols : ℕ := 96

def menuMaxRows : ℕ := 250

def menuMaxCols : ℕ := 64

def minLogRows : ℕ := 3

/-- The framebuffer and the characters. -/
structure Geometry where
  fbWidth : ℕ
  fbHeight : ℕ
  charWidth : ℕ
  charHeight : ℕ
  charWidth_pos : 0 < charWidth
  charHeight_pos : 0 < charHeight

namespace Geometry

variable (g : Geometry)

def totalRows : ℕ := g.fbHeight / g.charHeight

/-- `text_rows` and `text_cols` after `ui_init`. -/
def textRows : ℕ := if g.totalRows > maxRows then maxRows else g.totalRows

def textCols : ℕ := if g.fbWidth / g.charWidth > maxCols - 1 then maxCols - 1 else g.fbWidth / g.charWidth

/-- `max_menu_rows`, from the rows of the screen before they are cut off. -/
def maxMenuRows : ℤ := if (g.totalRows : ℤ) - minLogRows > menuMaxRows then menuMaxRows else g.totalRows - minLogRows

theorem textRows_le : g.textRows ≤ 32 := by
  unfold textRows maxRows
  split_ifs <;> omega

theorem textCols_le : g.textCols ≤ 95 := by
  unfold textCols maxCols
  split_ifs <;> omega

theorem textRows_pos (h : 0 < g.totalRows) : 0 < g.textRows := by
  unfold textRows maxRows
  split_ifs <;> omega

theorem textRows_zero (h : g.totalRows = 0) : g.textRows = 0 := by
  unfold textRows maxRows
  split_ifs <;> omega

end Geometry

def screenOf (cols rows : ℕ) : Geometry := ⟨cols * 10, rows * 18, 10, 18, Nat.succ_pos 9, Nat.succ_pos 17⟩

end Ui
end Recovery
