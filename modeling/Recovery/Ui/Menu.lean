/-
# Menus (ui.c, recovery.c)

`ui_start_menu` copies headers and items into an array of rows, `ui_menu_select` moves the
selection and the window, `get_menu_selection` turns keys into moves. The array is one area
of 16000 bytes, and every write is checked. What `ui_handle_key` makes of a key is an
argument; the rainbow mode is left out.

Key definitions: `uiStartMenu`, `getMenuSelection`, `drawMenu`.
Key theorems: `selection_visible`, `openMenu_ok_iff`.
-/
import Recovery.Ui.Screen
import Recovery.Lib.Memory

namespace Recovery
namespace Ui

open Memory (Mem)

/-! ### The array of texts -/

def menuAt (row col : ℕ) : ℕ := menuMaxCols * row + col

def storeMenu (m : Mem) (row col : ℕ) (bs : Bytes) : Except Stop Mem :=
  Memory.store (menuMaxRows * menuMaxCols) Stop.fault m (menuAt row col) bs

/-- The bytes that `strncpy` writes: what is behind the string is filled with zeros. -/
def strncpy (s : CString) (n : ℕ) : Bytes := s.bytes.take n ++ List.replicate (n - s.bytes.length) 0

def strcpy (s : CString) : Bytes := s.bytes ++ [0]

def menuItemHeader : CString := str " - "

def goBackText : CString := str " - +++++Go Back+++++"

def storeHeader (cols i : ℕ) (header : CString) (m : Mem) : Except Stop Mem := do
  let m ← storeMenu m i 0 (strncpy header (cols - 1))
  storeMenu m i (cols - 1) [0]

/-- `MENU_MAX_COLS - 1 - MENU_ITEM_HEADER_LENGTH`. -/
def itemMax : ℕ := menuMaxCols - 1 - menuItemHeader.bytes.length

def storeItem (i : ℕ) (item : CString) (m : Mem) : Except Stop Mem := do
  let m ← storeMenu m i 0 (strcpy menuItemHeader)
  let m ← storeMenu m i menuItemHeader.bytes.length (strncpy item itemMax)
  storeMenu m i (menuMaxCols - 1) [0]

/-- A loop over strings, up to a row: the next row, and the array. -/
def storeRows (storeRow : ℕ → CString → Mem → Except Stop Mem) (limit : ℕ) : List CString → ℕ → Mem → Except Stop (ℕ × Mem)
  | [], i, m => .ok (i, m)
  | s :: rest, i, m =>
    if i < limit then do
      let m ← storeRow i s m
      storeRows storeRow limit rest (i + 1) m
    else .ok (i, m)

/-! ### The state of the menu -/

structure Menu where
  showMenu : Bool
  menuTop : ℤ
  menuItems : ℤ
  menuSel : ℤ
  menuShowStart : ℤ
  deriving DecidableEq

variable (g : Geometry)

def storeBack (showBack : Bool) (i : ℕ) (m : Mem) : Except Stop (ℕ × Mem) :=
  if showBack then do
    let m ← storeMenu m i 0 (strcpy goBackText)
    .ok (i + 1, m)
  else .ok (i, m)

/-- The part of `ui_start_menu` for a screen with rows and columns. -/
def openMenu (headers items : List CString) (showBack : Bool) (initialSelection : ℤ) (m : Mem) : Except Stop (Mem × Menu) := do
  let (top, m) ← storeRows (storeHeader g.textCols) g.textRows headers 0 m
  let (i, m) ← storeRows storeItem menuMaxRows items top m
  let (i, m) ← storeBack showBack i m
  .ok (m, ⟨true, top, i - top, initialSelection, initialSelection⟩)

/-- The number of items, the array and the state. `showBack` is `gShowBackButton &&
!ui_root_menu`. -/
def uiStartMenu (headers items : List CString) (showBack : Bool) (initialSelection : ℤ) (m : Mem) (menu : Menu) :
    Except Stop (ℤ × Mem × Menu) := do
  let (m, menu) ← if 0 < g.textRows ∧ 0 < g.textCols then openMenu g headers items showBack initialSelection m else .ok (m, menu)
  .ok (if showBack then menu.menuItems - 1 else menu.menuItems, m, menu)

def uiMenuSelect (sel : ℤ) (menu : Menu) : ℤ × Menu :=
  if menu.showMenu then
    let sel := if sel < 0 then menu.menuItems + sel else sel
    let sel := if menu.menuItems ≤ sel then sel - menu.menuItems else sel
    let start := if sel < menu.menuShowStart ∧ 0 < menu.menuShowStart then sel else menu.menuShowStart
    let start := if g.maxMenuRows ≤ sel - start + menu.menuTop then sel + menu.menuTop - g.maxMenuRows + 1 else start
    (sel, { menu with menuSel := sel, menuShowStart := start })
  else (sel, menu)

def uiEndMenu (menu : Menu) : Menu :=
  if menu.showMenu ∧ 0 < g.textRows ∧ 0 < g.textCols then { menu with showMenu := false } else menu

/-- The loop over the items: rows of the screen, with the rows of the array. -/
def drawItems (maxMenuRows menuShowStart : ℤ) : ℕ → ℤ → ℤ → List (ℤ × ℤ)
  | 0, _, _ => []
  | n + 1, i, row => (i - menuShowStart, i) :: if maxMenuRows ≤ row + 1 then [] else drawItems
      maxMenuRows menuShowStart n (i + 1) (row + 1)

def drawMenu (menu : Menu) : List (ℤ × ℤ) :=
  if menu.showMenu then
    let j := if g.maxMenuRows ≤ menu.menuItems - menu.menuShowStart + menu.menuTop then g.maxMenuRows - menu.menuTop
      else menu.menuItems - menu.menuShowStart
    ((List.range menu.menuTop.toNat).map fun i : ℕ => ((i : ℤ), (i : ℤ))) ++
      drawItems g.maxMenuRows menu.menuShowStart j.toNat (menu.menuShowStart + menu.menuTop) menu.menuTop
  else []

/-! ### Choosing -/

def refresh : ℤ := -3

def noAction : ℤ := -1

def highlightUp : ℤ := -2

def highlightDown : ℤ := -3

def selectItem : ℤ := -4

def goBack : ℤ := -5

def itemReboot : ℤ := 0

/-- No key in time, -2, -3, or a key with its action. -/
inductive MenuEvent where
  | timedOut
  | cancelled
  | usbPlugged
  | action (a : ℤ)

/-- The part of a round behind `ui_handle_key`. -/
def handleAction (itemCount : ℤ) (showBack menuOnly : Bool) (a chosen : ℤ) (menu : Menu) : ℤ × Menu :=
  if a < 0 then
    if a = highlightUp then (chosen, (uiMenuSelect g (menu.menuSel - 1) menu).2)
    else if a = highlightDown then (chosen, (uiMenuSelect g (menu.menuSel + 1) menu).2)
    else if a = selectItem then (if showBack ∧ menu.menuSel = itemCount then goBack else menu.menuSel, menu)
    else if a = goBack then (goBack, menu)
    else (chosen, menu)
  else if menuOnly then (chosen, menu)
  else (a, menu)

/-- The loop of `get_menu_selection`. `everVisible` is `ui_text_ever_visible`. -/
def menuLoop (itemCount : ℤ) (showBack menuOnly everVisible : Bool) : List MenuEvent → ℤ → Menu → Option ℤ × Menu
  | [], _, menu => (none, menu)
  | .timedOut :: es, chosen, menu =>
    if everVisible then menuLoop itemCount showBack menuOnly everVisible es chosen menu else (some itemReboot, uiEndMenu g menu)
  | .cancelled :: _, _, menu => (some goBack, menu)
  | .usbPlugged :: _, _, menu => (some refresh, menu)
  | .action a :: es, chosen, menu =>
    let r := handleAction g itemCount showBack menuOnly a chosen menu
    if r.1 < 0 ∧ r.1 ≠ goBack then menuLoop itemCount showBack menuOnly everVisible es r.1 r.2 else (some r.1, uiEndMenu g r.2)

def getMenuSelection (headers items : List CString) (showBack menuOnly everVisible : Bool)
    (initialSelection : ℤ) (m : Mem) (menu : Menu)
    (events : List MenuEvent) : Except Stop (Option ℤ × Menu) := do
  let (itemCount, _, menu) ← uiStartMenu g headers items showBack initialSelection m menu
  .ok (menuLoop g itemCount showBack menuOnly everVisible events noAction menu)

/-! ### The numbers of a menu -/

/-- The rows that the headers take, and the items behind them. -/
def headerRows (headers : List CString) : ℕ := min g.textRows headers.length

def itemRows (headers items : List CString) : ℕ := min (menuMaxRows - headerRows g headers) items.length

def menuOf (headers items : List CString) (showBack : Bool) (initialSelection : ℤ) : Menu :=
  ⟨true, headerRows g headers, itemRows g headers items + (if showBack then 1 else 0), initialSelection, initialSelection⟩

theorem storeRows_next {storeRow : ℕ → CString → Mem → Except Stop Mem} {limit : ℕ} : ∀ {ss : List CString} {i next : ℕ} {m m' : Mem},
    storeRows storeRow limit ss i m = .ok (next, m') → next = i + min (limit - i) ss.length
  | [], i, next, m, m', h => by
    obtain ⟨rfl, -⟩ := Prod.mk.inj (Except.ok.inj h)
    simp
  | s :: ss, i, next, m, m', h => by
    unfold storeRows at h
    split_ifs at h with hlt
    · obtain ⟨m₁, -, hrest⟩ := bind_eq_ok.mp h
      rw [storeRows_next hrest, List.length_cons]
      omega
    · obtain ⟨rfl, -⟩ := Prod.mk.inj (Except.ok.inj h)
      omega

theorem storeMenu_ok {m : Mem} {row col : ℕ} {bs : Bytes} (h : menuAt row col + bs.length ≤ 16000) :
    storeMenu m row col bs = .ok (Memory.write m (menuAt row col) bs) := Memory.store_ok h

theorem length_strncpy (s : CString) (n : ℕ) : (strncpy s n).length = n := by
  rw [strncpy, List.length_append, List.length_take, List.length_replicate]
  omega

theorem storeRows_total {storeRow : ℕ → CString → Mem → Except Stop Mem} {limit : ℕ}
    (h : ∀ i < limit, ∀ s m, ∃ m', storeRow i s m = .ok m') :
    ∀ (ss : List CString) (i : ℕ) (m : Mem), ∃ m', storeRows storeRow limit ss i m = .ok (i + min (limit - i) ss.length, m')
  | [], i, m => ⟨m, by simp [storeRows]⟩
  | s :: ss, i, m => by
    rw [storeRows]
    split_ifs with hlt
    · obtain ⟨m₁, hrow⟩ := h i hlt s m
      obtain ⟨m₂, hrest⟩ := storeRows_total h ss (i + 1) m₁
      refine ⟨m₂, ?_⟩
      rw [hrow, ok_bind, hrest, List.length_cons]
      congr 2
      omega
    · exact ⟨m, by rw [Nat.sub_eq_zero_of_le (by omega)]; simp⟩

/-- A header may run into the next row, but not out of the array. -/
theorem storeHeader_total {i : ℕ} (hi : i < g.textRows) (header : CString) (m : Mem) : ∃ m',
    storeHeader g.textCols i header m = .ok m' := by
  have hrows := g.textRows_le
  have hcols := g.textCols_le
  have hlen := length_strncpy header (g.textCols - 1)
  have hat : menuAt i 0 = 64 * i ∧ menuAt i (g.textCols - 1) = 64 * i + (g.textCols - 1) := ⟨rfl, rfl⟩
  rw [storeHeader, storeMenu_ok (by omega), ok_bind, storeMenu_ok (by simp; omega)]
  exact ⟨_, rfl⟩

theorem storeItem_total {i : ℕ} (hi : i < menuMaxRows) (item : CString) (m : Mem) : ∃ m', storeItem i item m = .ok m' := by
  have hlen := length_strncpy item itemMax
  have hmax : itemMax = 60 ∧ menuItemHeader.bytes.length = 3 ∧ (strcpy menuItemHeader).length = 4 ∧
    menuMaxRows = 250 := by decide +kernel
  have hat : menuAt i 0 = 64 * i ∧ menuAt i menuItemHeader.bytes.length = 64 * i + menuItemHeader.bytes.length ∧
    menuAt i (menuMaxCols - 1) = 64 * i + 63 := ⟨rfl, rfl, rfl⟩
  rw [storeItem, storeMenu_ok (by omega), ok_bind, storeMenu_ok (by omega), ok_bind, storeMenu_ok (by simp; omega)]
  exact ⟨_, rfl⟩

/-- The row to go back is written without a look at the end of the array. -/
theorem storeBack_ok_iff {showBack : Bool} {i : ℕ} {m : Mem} : (∃ r, storeBack showBack i m = .ok r) ↔
    (showBack = true → i < menuMaxRows) := by
  have hlen : (strcpy goBackText).length = 21 := by decide +kernel
  have hat : menuAt i 0 = 64 * i := rfl
  have hsize : menuMaxRows * menuMaxCols = 16000 := rfl
  have hmax : menuMaxRows = 250 := rfl
  cases showBack with
  | false => exact iff_of_true ⟨_, rfl⟩ fun h => Bool.noConfusion h
  | true =>
    simp only [storeBack, storeMenu, Memory.store, if_true, true_implies]
    split_ifs with hfits
    · exact iff_of_true ⟨_, rfl⟩ (by omega)
    · exact iff_of_false (fun ⟨_, h⟩ => nomatch h) (by omega)

/-- **A menu is stored** just if there is a row left to go back. -/
theorem openMenu_ok_iff {headers items : List CString} {showBack : Bool} {initial : ℤ} {m : Mem} :
    (∃ r, openMenu g headers items showBack initial m = .ok r) ↔
      (showBack = true → headerRows g headers + items.length < menuMaxRows) := by
  have hrows := g.textRows_le
  have hmax : menuMaxRows = 250 := rfl
  obtain ⟨m₁, hheaders⟩ := @storeRows_total (storeHeader g.textCols) _ (fun _ => storeHeader_total g) headers 0 m
  obtain ⟨m₂, hitems⟩ := @storeRows_total storeItem _ (fun _ => storeItem_total) items (headerRows g headers) m₁
  have hback := @storeBack_ok_iff showBack (headerRows g headers + itemRows g headers items) m₂
  have htop : 0 + min (g.textRows - 0) headers.length = headerRows g headers := Nat.zero_add _
  have hrun : openMenu g headers items showBack initial m =
      storeBack showBack (headerRows g headers + itemRows g headers items) m₂ >>= fun r =>
        .ok (r.2, ⟨true, headerRows g headers, r.1 - headerRows g headers, initial, initial⟩) := by
    rw [openMenu, hheaders, ok_bind, htop]
    dsimp only
    rw [hitems, ok_bind]
    rfl
  have hrow : headerRows g headers + itemRows g headers items < menuMaxRows ↔ headerRows g headers + items.length < menuMaxRows := by
    unfold itemRows headerRows
    omega
  rw [hrun, ← hrow, ← hback]
  constructor
  · rintro ⟨r, h⟩
    obtain ⟨r', h', -⟩ := bind_eq_ok.mp h
    exact ⟨r', h'⟩
  · rintro ⟨r, h⟩
    exact ⟨_, by rw [h, ok_bind]⟩

theorem uiStartMenu_menu {g : Geometry} {headers items : List CString} {showBack : Bool}
    {initial count : ℤ} {m m' : Mem} {menu menu' : Menu}
    (hrows : 0 < g.textRows) (hcols : 0 < g.textCols) (h :
      uiStartMenu g headers items showBack initial m menu = .ok (count, m', menu')) :
    menu' = menuOf g headers items showBack initial ∧ count = itemRows g headers items := by
  unfold uiStartMenu at h
  rw [if_pos ⟨hrows, hcols⟩] at h
  obtain ⟨⟨m₁, menu₁⟩, hopen, hret⟩ := bind_eq_ok.mp h
  obtain ⟨⟨top, m₂⟩, hheaders, hopen⟩ := bind_eq_ok.mp hopen
  obtain ⟨⟨i, m₃⟩, hitems, hopen⟩ := bind_eq_ok.mp hopen
  obtain ⟨⟨i', m₄⟩, hback, hopen⟩ := bind_eq_ok.mp hopen
  have htop : top = headerRows g headers := by
    rw [storeRows_next hheaders, headerRows]
    omega
  have hi : i = top + itemRows g headers items := by
    rw [storeRows_next hitems, itemRows, htop]
  have hi' : i' = i + if showBack then 1 else 0 := by
    unfold storeBack at hback
    split_ifs at hback ⊢
    · obtain ⟨m₅, -, hback⟩ := bind_eq_ok.mp hback
      exact (Prod.mk.inj (Except.ok.inj hback)).1.symm
    · exact (Prod.mk.inj (Except.ok.inj hback)).1.symm
  obtain ⟨-, rfl⟩ := Prod.mk.inj (Except.ok.inj hopen)
  obtain ⟨rfl, hpair⟩ := Prod.mk.inj (Except.ok.inj hret)
  obtain ⟨-, rfl⟩ := Prod.mk.inj hpair
  subst hi hi' htop
  unfold menuOf
  cases showBack <;> simp [add_assoc]

/-! ### Moving the selection -/

inductive Move where
  | up
  | down

def Move.action : Move → ℤ
  | .up => highlightUp
  | .down => highlightDown

def Move.apply (menu : Menu) : Move → Menu
  | .up => (uiMenuSelect g (menu.menuSel - 1) menu).2
  | .down => (uiMenuSelect g (menu.menuSel + 1) menu).2

def moved (moves : List Move) (menu : Menu) : Menu := moves.foldl (Move.apply g) menu

/-- The selection is in the menu, and the window of the items that are drawn has it. -/
structure Visible (menu : Menu) : Prop where
  shown : menu.showMenu = true
  top_nonneg : 0 ≤ menu.menuTop
  top_lt : menu.menuTop < g.maxMenuRows
  sel_nonneg : 0 ≤ menu.menuSel
  sel_lt : menu.menuSel < menu.menuItems
  start_nonneg : 0 ≤ menu.menuShowStart
  start_le : menu.menuShowStart ≤ menu.menuSel
  in_window : menu.menuSel - menu.menuShowStart + menu.menuTop < g.maxMenuRows

variable {g} {menu : Menu}

/-- A selection outside of the menu is brought back, and the window follows. -/
theorem Visible.select (h : Visible g menu) {sel : ℤ} (hlow : -1 ≤ sel) (hhigh : sel ≤ menu.menuItems) :
    Visible g (uiMenuSelect g sel menu).2 := by
  obtain ⟨hshown, htop, htop', hsel, hsel', hstart, hle, hwindow⟩ := h
  unfold uiMenuSelect
  rw [if_pos hshown]
  dsimp only
  -- the selection after the two wraps
  generalize hsel₁ : (if sel < 0 then menu.menuItems + sel else sel) = sel₁
  generalize hsel₂ : (if menu.menuItems ≤ sel₁ then sel₁ - menu.menuItems else sel₁) = sel₂
  have hrange : 0 ≤ sel₂ ∧ sel₂ < menu.menuItems := by
    split_ifs at hsel₁ hsel₂ <;> omega
  generalize hstart₁ : (if sel₂ < menu.menuShowStart ∧ 0 < menu.menuShowStart then sel₂ else menu.menuShowStart) = start₁
  have hup : 0 ≤ start₁ ∧ start₁ ≤ sel₂ := by
    split_ifs at hstart₁ <;> omega
  refine ⟨hshown, htop, htop', hrange.1, hrange.2, ?_, ?_, ?_⟩ <;> dsimp only <;> split_ifs <;> omega

theorem Visible.apply (h : Visible g menu) (move : Move) : Visible g (move.apply g menu) := by
  have hsel := h.sel_nonneg
  have hsel' := h.sel_lt
  cases move with
  | up => exact h.select (by omega) (by omega)
  | down => exact h.select (by omega) (by omega)

theorem Visible.moved (h : Visible g menu) (moves : List Move) : Visible g (moved g moves menu) :=
  List.foldlRecOn moves _ h fun _ h move _ => h.apply move

theorem moved_shape : ∀ (moves : List Move) (menu : Menu), (moved g moves menu).menuTop = menu.menuTop ∧
    (moved g moves menu).menuItems = menu.menuItems
  | [], _ => ⟨rfl, rfl⟩
  | move :: moves, menu => by
    have hstep : (move.apply g menu).menuTop = menu.menuTop ∧ (move.apply g menu).menuItems = menu.menuItems := by
      cases move <;> simp only [Move.apply, uiMenuSelect] <;> split_ifs <;> exact ⟨rfl, rfl⟩
    obtain ⟨htop, hitems⟩ := moved_shape moves (move.apply g menu)
    exact ⟨htop.trans hstep.1, hitems.trans hstep.2⟩

/-! ### What is drawn -/

theorem drawItems_eq {maxMenuRows start : ℤ} : ∀ (n : ℕ) {i row : ℤ}, row + n ≤ maxMenuRows →
    drawItems maxMenuRows start n i row = (List.range n).map fun k : ℕ => (i + k - start, i + k)
  | 0, _, _, _ => rfl
  | n + 1, i, row, h => by
    have hrest : (if maxMenuRows ≤ row + 1 then [] else drawItems maxMenuRows start n (i + 1) (row + 1)) =
        (List.range n).map fun k : ℕ => (i + 1 + k - start, i + 1 + k) := by
      split_ifs with hfull
      · obtain rfl : n = 0 := by omega
        rfl
      · exact drawItems_eq n (by omega)
    rw [drawItems, hrest, List.range_succ_eq_map, List.map_cons, List.map_map]
    simp [Function.comp_def, add_assoc, add_comm (1 : ℤ)]

/-- The rows below the headers are drawn in order, from the beginning of the window. -/
theorem Visible.drawMenu_eq (h : Visible g menu) :
    ∃ j : ℕ, menu.menuSel < menu.menuShowStart + j ∧ menu.menuShowStart + j ≤ menu.menuItems ∧ menu.menuTop + j ≤ g.maxMenuRows ∧
      drawMenu g menu = ((List.range menu.menuTop.toNat).map fun i : ℕ => ((i : ℤ), (i : ℤ))) ++
        (List.range j).map fun k : ℕ => (menu.menuTop + k, menu.menuShowStart + menu.menuTop + k) := by
  obtain ⟨hshown, htop, htop', hsel, hsel', hstart, hle, hwindow⟩ := h
  unfold drawMenu
  rw [if_pos hshown]
  dsimp only
  generalize hj : (if g.maxMenuRows ≤ menu.menuItems - menu.menuShowStart + menu.menuTop then g.maxMenuRows - menu.menuTop
    else menu.menuItems - menu.menuShowStart) = j
  have hbounds : menu.menuSel < menu.menuShowStart + j ∧ menu.menuShowStart + j ≤ menu.menuItems ∧
    menu.menuTop + j ≤ g.maxMenuRows := by
    split_ifs at hj <;> omega
  refine ⟨j.toNat, by omega, by omega, by omega, ?_⟩
  rw [drawItems_eq j.toNat (by omega)]
  congr 1
  refine List.map_congr_left fun k _ => ?_
  rw [Prod.mk.injEq]
  omega

/-! ### The choice -/

theorem menuLoop_moves {itemCount : ℤ} {showBack menuOnly everVisible : Bool} {es : List MenuEvent} :
    ∀ (moves : List Move) (menu : Menu),
    menuLoop g itemCount showBack menuOnly everVisible (moves.map (fun move => .action move.action) ++ es) noAction menu =
      menuLoop g itemCount showBack menuOnly everVisible es noAction (moved g moves menu)
  | [], _ => rfl
  | move :: moves, menu => by
    have hmove : handleAction g itemCount showBack menuOnly move.action noAction menu = (noAction, move.apply g menu) := by
      cases move <;> rfl
    rw [List.map_cons, List.cons_append, menuLoop, hmove]
    dsimp only
    rw [if_pos (by decide), menuLoop_moves moves]
    rfl

/-- An item is chosen: its place, or the way back for the row that was added. -/
theorem menuLoop_select {itemCount : ℤ} {showBack menuOnly everVisible : Bool} {rest : List MenuEvent} (h : Visible g menu) :
    menuLoop g itemCount showBack menuOnly everVisible (.action selectItem :: rest) noAction menu =
      (some (if showBack = true ∧ menu.menuSel = itemCount then goBack else menu.menuSel), uiEndMenu g menu) := by
  have hselect : handleAction g itemCount showBack menuOnly selectItem noAction menu =
    (if showBack = true ∧ menu.menuSel = itemCount then goBack else menu.menuSel, menu) := rfl
  have hsel := h.sel_nonneg
  rw [menuLoop, hselect]
  dsimp only
  split_ifs with hback hloop hloop
  · exact absurd rfl hloop.2
  · rfl
  · omega
  · rfl

theorem Visible.menuOf {headers items : List CString} {showBack : Bool} {initial : ℤ}
    (htop : (Ui.menuOf g headers items showBack initial).menuTop < g.maxMenuRows) (hinitial : 0 ≤ initial)
    (hinitial' : initial < (Ui.menuOf g headers items showBack initial).menuItems) :
      Visible g (Ui.menuOf g headers items showBack initial) := by
  refine ⟨rfl, Int.natCast_nonneg _, htop, hinitial, hinitial', hinitial, le_rfl, ?_⟩
  have hzero : (Ui.menuOf g headers items showBack initial).menuSel -
    (Ui.menuOf g headers items showBack initial).menuShowStart = 0 := sub_self _
  rw [hzero, zero_add]
  exact htop

theorem getMenuSelection_eq {headers items : List CString} {showBack menuOnly everVisible : Bool}
    {initial : ℤ} {m : Mem} {menu : Menu}
    {r : ℤ × Mem × Menu} (hrows : 0 < g.textRows) (hcols : 0 < g.textCols)
      (h : uiStartMenu g headers items showBack initial m menu = .ok r)
    (events : List MenuEvent) : getMenuSelection g headers items showBack menuOnly everVisible initial m menu events =
      .ok (menuLoop g (itemRows g headers items) showBack menuOnly everVisible events noAction
        (menuOf g headers items showBack initial)) := by
  obtain ⟨count, m', menu'⟩ := r
  obtain ⟨rfl, rfl⟩ := uiStartMenu_menu hrows hcols h
  rw [getMenuSelection, h, ok_bind]

theorem Visible.selected_drawn (h : Visible g menu) : ∃ row, (row, menu.menuTop + menu.menuSel) ∈ drawMenu g menu := by
  obtain ⟨j, hsel, -, -, hdraw⟩ := h.drawMenu_eq
  have hstart := h.start_le
  rw [hdraw]
  refine ⟨menu.menuTop + (menu.menuSel - menu.menuShowStart).toNat, List.mem_append_right _ (List.mem_map.mpr
    ⟨(menu.menuSel - menu.menuShowStart).toNat, List.mem_range.mpr (by omega), ?_⟩)⟩
  rw [Prod.mk.injEq]
  omega

theorem Visible.drawn_inside (h : Visible g menu) :
    ∀ p ∈ drawMenu g menu, 0 ≤ p.1 ∧ p.1 < g.maxMenuRows ∧ 0 ≤ p.2 ∧ p.2 < menu.menuTop + menu.menuItems := by
  obtain ⟨j, -, hle, hmax, hdraw⟩ := h.drawMenu_eq
  obtain ⟨-, htop₀, htop₁, hsel₀, hsel₁, hstart₀, hstart₁, -⟩ := h
  intro p hp
  rw [hdraw] at hp
  rcases List.mem_append.mp hp with hp | hp <;> obtain ⟨k, hk, rfl⟩ :=
    List.mem_map.mp hp <;> rw [List.mem_range] at hk <;> dsimp only <;> omega

theorem Visible.chosen (h : Visible g menu) {headers items : List CString} {showBack : Bool}
    (hcount : menu.menuItems = itemRows g headers items + if showBack then 1 else 0) {chosen : ℤ}
    (hchosen : chosen = if showBack = true ∧ menu.menuSel = itemRows g headers items then goBack else menu.menuSel) :
    (chosen = goBack ↔ showBack = true ∧ menu.menuSel = itemRows g headers items) ∧
      (chosen ≠ goBack → chosen = menu.menuSel ∧ menu.menuSel < items.length) := by
  have hsel := h.sel_nonneg
  have hsel' := h.sel_lt
  have hshown : (itemRows g headers items : ℤ) ≤ items.length := by
    unfold itemRows
    omega
  by_cases hback : showBack = true ∧ menu.menuSel = itemRows g headers items
  · rw [if_pos hback] at hchosen
    exact ⟨⟨fun _ => hback, fun _ => hchosen⟩, fun hne => absurd hchosen hne⟩
  · rw [if_neg hback] at hchosen
    have hne : chosen ≠ goBack := by
      unfold goBack
      omega
    refine ⟨⟨fun heq => absurd heq hne, fun h' => absurd h' hback⟩, fun _ => ⟨hchosen, ?_⟩⟩
    cases showBack with
    | false =>
      rw [if_neg (by decide)] at hcount
      omega
    | true =>
      rw [if_pos rfl] at hcount
      have hitem : menu.menuSel ≠ itemRows g headers items := fun heq => hback ⟨rfl, heq⟩
      omega

/-- What is wanted of a menu that was opened, whatever was on the screen before: after every
sequence of moves the selection is in the menu, on the screen, and what `get_menu_selection`
returns. -/
def SelectionValid (g : Geometry) (headers items : List CString) (showBack : Bool) (initial : ℤ) : Prop :=
  ∀ (m : Mem) (menu₀ : Menu) (moves : List Move) (menuOnly everVisible : Bool) (rest : List MenuEvent),
    ∃ count m' opened menu, uiStartMenu g headers items showBack initial m menu₀ = .ok
      (count, m', opened) ∧ menu = moved g moves opened ∧
      0 ≤ menu.menuSel ∧ menu.menuSel < menu.menuItems ∧ 0 ≤ menu.menuShowStart ∧ menu.menuShowStart ≤ menu.menuSel ∧
      (∃ row, (row, menu.menuTop + menu.menuSel) ∈ drawMenu g menu) ∧
      (∀ p ∈ drawMenu g menu, 0 ≤ p.1 ∧ p.1 < g.maxMenuRows ∧ 0 ≤ p.2 ∧ p.2 < menu.menuTop + menu.menuItems) ∧
      ∃ menu' chosen, (chosen = goBack ↔ showBack = true ∧ menu.menuSel = itemRows g headers items) ∧
        (chosen ≠ goBack → chosen = menu.menuSel ∧ menu.menuSel < items.length) ∧
        getMenuSelection g headers items showBack menuOnly everVisible initial m menu₀
          (moves.map (fun move => .action move.action) ++ .action selectItem :: rest) = .ok (some chosen, menu')

/-- No menu was opened yet. -/
def noMenu : Menu := ⟨false, 0, 0, 0, 0⟩

/-- **The selected item is in the menu, on the screen, and what is chosen**, after every sequence of moves, just if the screen has
columns and the array a row left to go back. -/
theorem selection_visible {g : Geometry} {headers items : List CString} {showBack : Bool} {initial : ℤ}
    (htop : (menuOf g headers items showBack initial).menuTop < g.maxMenuRows) (hinitial : 0 ≤ initial)
    (hinitial' : initial < (menuOf g headers items showBack initial).menuItems) :
    SelectionValid g headers items showBack initial ↔
      0 < g.textCols ∧ (showBack = true → headerRows g headers + items.length < menuMaxRows) := by
  have htop₀ : (0 : ℤ) ≤ (menuOf g headers items showBack initial).menuTop := Int.natCast_nonneg _
  have hrows : 0 < g.textRows := g.textRows_pos (by
    unfold Geometry.maxMenuRows minLogRows at htop
    split_ifs at htop <;> omega)
  constructor
  · intro h
    obtain ⟨count, m', opened, menu, hstart, rfl, hsel, hlt, -⟩ := h (fun _ => 0) noMenu [] false false []
    unfold uiStartMenu at hstart
    by_cases hcols : 0 < g.textCols
    · rw [if_pos ⟨hrows, hcols⟩] at hstart
      obtain ⟨r, hopen, -⟩ := bind_eq_ok.mp hstart
      exact ⟨hcols, (openMenu_ok_iff g).mp ⟨r, hopen⟩⟩
    · -- without columns nothing is opened, and the menu has no item
      rw [if_neg fun h => hcols h.2] at hstart
      obtain ⟨-, hpair⟩ := Prod.mk.inj (Except.ok.inj hstart)
      obtain ⟨-, rfl⟩ := Prod.mk.inj hpair
      exact absurd hlt (by decide)
  · rintro ⟨hcols, hback⟩ m menu₀ moves menuOnly everVisible rest
    obtain ⟨r, hopen⟩ := (@openMenu_ok_iff g headers items showBack initial m).mpr hback
    obtain ⟨⟨count, m', opened⟩, hstart⟩ : ∃ r, uiStartMenu g headers items showBack initial m menu₀ = .ok r := by
      rw [uiStartMenu, if_pos ⟨hrows, hcols⟩, hopen]
      exact ⟨_, rfl⟩
    obtain ⟨rfl, -⟩ := uiStartMenu_menu hrows hcols hstart
    have hvisible := (Visible.menuOf htop hinitial hinitial').moved moves
    obtain ⟨-, hitems⟩ := moved_shape (g := g) moves (menuOf g headers items showBack initial)
    obtain ⟨hgoBack, hplace⟩ := hvisible.chosen hitems rfl
    refine ⟨count, m', _, _, hstart, rfl, hvisible.sel_nonneg, hvisible.sel_lt, hvisible.start_nonneg, hvisible.start_le,
      hvisible.selected_drawn, hvisible.drawn_inside, uiEndMenu g (moved g moves (menuOf g headers items showBack initial)), _,
      hgoBack, hplace, ?_⟩
    rw [getMenuSelection_eq hrows hcols hstart, menuLoop_moves, menuLoop_select hvisible]

/-- One move up from the first of two items, to the row to go back, on a menu of two rows. -/
theorem selection_visible_back : ∃ menu', getMenuSelection
    (screenOf 40 5) [] [str "a", str "b"] true false false 0 (fun _ => 0) noMenu
    [.action highlightUp, .action selectItem] = .ok (some goBack, menu') := by
  obtain ⟨count, m', opened, menu, hstart, rfl, -, -, -, -, -, -, menu', chosen, hback, -, hrun⟩ :=
    (@selection_visible (screenOf 40 5) [] [str "a", str "b"] true 0 (by decide) (by decide) (by decide)).mpr
      ⟨by decide, fun _ => by decide⟩ (fun _ => 0) noMenu [.up] false false []
  obtain ⟨rfl, -⟩ := uiStartMenu_menu (by decide) (by decide) hstart
  obtain rfl : chosen = goBack := hback.mpr ⟨rfl, by decide⟩
  exact ⟨menu', hrun⟩

/-- **Behind 250 items there is no row to go back**: it is written behind the array, and the menu is never shown. -/
theorem back_row_overrun : ¬ SelectionValid (screenOf 40 20) [] (List.replicate 250 (str "a")) true 0 ∧
    ∀ r, uiStartMenu (screenOf 40 20) [] (List.replicate 250 (str "a")) true 0 (fun _ => 0) noMenu ≠ .ok r := by
  have hfault : ∀ r, uiStartMenu (screenOf 40 20) [] (List.replicate 250 (str "a")) true 0 (fun _ => 0) noMenu ≠ .ok r := by
    intro r hrun
    obtain ⟨r', hopen, -⟩ := bind_eq_ok.mp hrun
    have hfits := (openMenu_ok_iff (screenOf 40 20)).mp ⟨r', hopen⟩ rfl
    rw [List.length_replicate] at hfits
    exact absurd hfits (by decide)
  refine ⟨fun h => ?_, hfault⟩
  obtain ⟨count, m', opened, menu, hstart, -⟩ := h (fun _ => 0) noMenu [] false false []
  exact hfault _ hstart

end Ui
end Recovery
