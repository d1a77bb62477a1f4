/-
# The texts of a menu (ui.c)

The rows of `menu` have 64 bytes. A header is cut off at the columns of the screen, an item
at the end of its row, and the row to go back is written behind the last one without a look
at the end of the array.

Key theorems: `menu_texts_stored`, `menu_row_overrun`.
-/
import Recovery.Ui.Menu
import Recovery.Buffer

namespace Recovery
namespace Ui

open Memory (Mem Agree read write)
open Zip (cstr)

/-! ### What should be stored -/

def headerText (cols : ℕ) (header : CString) : Bytes := header.bytes.take (cols - 1)

def itemText (item : CString) : Bytes := menuItemHeader.bytes ++ item.bytes.take itemMax

variable (g : Geometry)

def menuTexts (headers items : List CString) (showBack : Bool) : List Bytes :=
  (headers.take g.textRows).map (headerText g.textCols) ++ ((items.take (menuMaxRows - headerRows g headers)).map itemText ++
    if showBack then [goBackText.bytes] else [])

def menuText (m : Mem) (row : ℕ) : Bytes := cstr (read m (menuAt row 0) menuMaxCols)

/-- The row holds the text and a NUL behind it, all of it in the row. -/
structure RowHolds (m : Mem) (row : ℕ) (text : Bytes) : Prop where
  short : text.length < menuMaxCols
  no_nul : 0 ∉ text
  stored : read m (menuAt row 0) (text.length + 1) = text ++ [0]

variable {m m' : Mem} {row : ℕ} {text : Bytes}

theorem RowHolds.menuText_eq (h : RowHolds m row text) : menuText m row = text := by
  obtain ⟨rest, hrest⟩ : ∃ rest, menuMaxCols = text.length + 1 + rest := ⟨menuMaxCols - (text.length + 1), by have := h.short; omega⟩
  rw [menuText, hrest, Memory.read_add, h.stored, List.append_assoc, List.singleton_append, cstr_append_nul h.no_nul]

theorem RowHolds.agree (h : RowHolds m row text) {next : ℕ} (hnext : row < next)
    (ha : Agree m m' 0 (menuAt next 0)) : RowHolds m' row text := by
  have hshort := h.short
  refine ⟨h.short, h.no_nul, (Agree.read_eq (ha.mono (Nat.zero_le _) ?_)).trans h.stored⟩
  unfold menuAt menuMaxCols at *
  omega

theorem rowHolds_of_read {n k : ℕ} (hread : read m (menuAt row 0) n = text ++ 0 :: List.replicate k 0)
    (hshort : text.length < menuMaxCols)
    (hnul : 0 ∉ text) : RowHolds m row text := by
  have hn : n = text.length + 1 + k := by
    have := congrArg List.length hread
    simp at this
    omega
  refine ⟨hshort, hnul, ?_⟩
  rw [hn, Memory.read_add, ← List.singleton_append, ← List.append_assoc] at hread
  exact List.append_inj_left hread (by simp)

/-! ### One row -/

theorem strncpy_append_nul (s : CString) (n : ℕ) : strncpy s n ++ [0] = s.bytes.take n ++ 0 ::
    List.replicate (n - s.bytes.length) 0 := by
  rw [strncpy, List.append_assoc, ← List.replicate_succ', List.replicate_succ]

/-- Storing a row ends, writes nothing in front of it, and leaves the text there. -/
def StoresRow (storeRow : ℕ → CString → Mem → Except Stop Mem) (limit : ℕ) (text : CString → Bytes) (s : CString) : Prop :=
  ∀ i < limit, ∀ m, ∃ m', storeRow i s m = .ok m' ∧ Agree m m' 0 (menuAt i 0) ∧ RowHolds m' i (text s)

theorem storesRow_header {header : CString} (hcols : 0 < g.textCols) (hshort : (headerText g.textCols header).length < menuMaxCols) :
    StoresRow (storeHeader g.textCols) g.textRows (headerText g.textCols) header := by
  intro i hi m
  have hrows := g.textRows_le
  have hwidth := g.textCols_le
  have hlen := length_strncpy header (g.textCols - 1)
  have hat : menuAt i 0 = 64 * i ∧ menuAt i (g.textCols - 1) = 64 * i + (g.textCols - 1) := ⟨rfl, rfl⟩
  refine ⟨write (write m (menuAt i 0) (strncpy header (g.textCols - 1))) (menuAt i (g.textCols - 1)) [0], ?_, ?_, ?_⟩
  · rw [storeHeader, storeMenu_ok (by omega), ok_bind, storeMenu_ok (by simp; omega)]
  · exact (Memory.agree_write (.inl (by omega))).trans (Memory.agree_write (.inl (by omega)))
  · have hread : read (write (write m (menuAt i 0) (strncpy header (g.textCols - 1))) (menuAt i (g.textCols - 1)) [0]) (menuAt i 0)
        (g.textCols - 1 + 1) = strncpy header (g.textCols - 1) ++ [0] := by
      rw [Memory.read_add]
      congr 1
      · rw [(Memory.agree_write (.inl (by omega))).read_eq, Memory.read_write hlen]
      · exact Memory.read_write_self _ (menuAt i (g.textCols - 1)) [0]
    rw [strncpy_append_nul] at hread
    exact rowHolds_of_read hread hshort fun h0 => header.no_nul (List.mem_of_mem_take h0)

theorem storesRow_item (item : CString) : StoresRow storeItem menuMaxRows itemText item := by
  intro i hi m
  have hlen := length_strncpy item itemMax
  have hmax : itemMax = 60 ∧ menuItemHeader.bytes.length = 3 ∧ (strcpy menuItemHeader).length = 4 ∧
    menuMaxRows = 250 := by decide +kernel
  have hat : menuAt i 0 = 64 * i ∧ menuAt i menuItemHeader.bytes.length = 64 * i + menuItemHeader.bytes.length ∧
    menuAt i (menuMaxCols - 1) = 64 * i + 63 := ⟨rfl, rfl, rfl⟩
  generalize hm₁ : write m (menuAt i 0) (strcpy menuItemHeader) = m₁
  generalize hm₂ : write m₁ (menuAt i menuItemHeader.bytes.length) (strncpy item itemMax) = m₂
  generalize hm₃ : write m₂ (menuAt i (menuMaxCols - 1)) [0] = m₃
  have h01 : ∀ {a n}, a + n ≤ 64 * i → Agree m m₁ a n := fun h => hm₁ ▸ Memory.agree_write (.inl (by omega))
  have h12 : ∀ {a n}, a + n ≤ 64 * i + 3 → Agree m₁ m₂ a n := fun h => hm₂ ▸ Memory.agree_write (.inl (by omega))
  have h23 : ∀ {a n}, a + n ≤ 64 * i + 63 → Agree m₂ m₃ a n := fun h => hm₃ ▸ Memory.agree_write (.inl (by omega))
  refine ⟨m₃, ?_, ((h01 (by omega)).trans (h12 (by omega))).trans (h23 (by omega)), ?_⟩
  · rw [storeItem, storeMenu_ok (by omega), ok_bind, hm₁, storeMenu_ok (by omega), ok_bind, hm₂, storeMenu_ok (by simp; omega), hm₃]
  · have hheader : read m₃ (64 * i) 3 = menuItemHeader.bytes := by
      have hread : read m₁ (64 * i) (3 + 1) = menuItemHeader.bytes ++ [0] := hm₁ ▸ Memory.read_write hmax.2.2.1
      rw [Memory.read_add] at hread
      rw [((h12 (by omega)).trans (h23 (by omega))).read_eq]
      exact List.append_inj_left hread (by simp [hmax.2.1])
    have hitem : read m₃ (64 * i + 3) 60 = strncpy item itemMax := by
      rw [(h23 (by omega)).read_eq, ← hm₂, hat.2.1, hmax.2.1, Memory.read_write (by omega)]
    have hend : read m₃ (64 * i + (3 + 60)) 1 = [0] := hm₃ ▸ Memory.read_write_self m₂ (menuAt i (menuMaxCols - 1)) [0]
    have hread : read m₃ (menuAt i 0) (3 + 60 + 1) = itemText item ++ 0 :: List.replicate (itemMax - item.bytes.length) 0 := by
      rw [hat.1, Memory.read_add, Memory.read_add, hheader, hitem, hend, List.append_assoc,
        strncpy_append_nul, itemText, List.append_assoc]
    refine rowHolds_of_read hread ?_ fun h0 => ?_
    · rw [itemText, List.length_append, List.length_take, hmax.1, hmax.2.1]
      unfold menuMaxCols
      omega
    · rcases List.mem_append.mp h0 with h0 | h0
      · exact menuItemHeader.no_nul h0
      · exact item.no_nul (List.mem_of_mem_take h0)

/-! ### All rows -/

variable {g}

theorem storeRows_ok {storeRow : ℕ → CString → Mem → Except Stop Mem} {limit : ℕ} {text : CString → Bytes} :
    ∀ (ss : List CString) (i : ℕ) (m : Mem), (∀ s ∈ ss.take (limit - i), StoresRow storeRow limit text s) →
    ∃ m', storeRows storeRow limit ss i m = .ok (i + min (limit - i) ss.length, m') ∧ Agree m m' 0 (menuAt i 0) ∧
      ∀ k t, ((ss.take (limit - i)).map text)[k]? = some t → RowHolds m' (i + k) t
  | [], i, m, _ => ⟨m, by simp [storeRows], fun _ _ _ => rfl, by simp⟩
  | s :: ss, i, m, hss => by
    rw [storeRows]
    split_ifs with hlt
    · obtain ⟨n, hn⟩ : ∃ n, limit - i = n + 1 := ⟨limit - i - 1, by omega⟩
      have hn' : limit - (i + 1) = n := by omega
      rw [hn, List.take_succ_cons] at hss
      obtain ⟨hs, hss⟩ := List.forall_mem_cons.mp hss
      obtain ⟨m₁, hrun, hagree, hholds⟩ := hs i hlt m
      obtain ⟨m₂, hrun', hagree', hholds'⟩ := storeRows_ok ss (i + 1) m₁ (hn'.symm ▸ hss)
      have hle : menuAt i 0 ≤ menuAt (i + 1) 0 := by
        unfold menuAt menuMaxCols
        omega
      refine ⟨m₂, ?_, hagree.trans (hagree'.mono le_rfl (by omega)), fun k t ht => ?_⟩
      · rw [hrun, ok_bind, hrun', hn', hn, List.length_cons]
        congr 2
        omega
      · rw [hn, List.take_succ_cons, List.map_cons] at ht
        cases k with
        | zero => exact Option.some.inj ht ▸ hholds.agree (Nat.lt_succ_self i) hagree'
        | succ k =>
          rw [← Nat.add_assoc, Nat.add_right_comm]
          exact hholds' k t (by rwa [hn'])
    · have hzero : limit - i = 0 := by omega
      exact ⟨m, by rw [hzero]; simp, fun _ _ _ => rfl, by simp [hzero]⟩

theorem storeBack_ok {showBack : Bool} {i : ℕ} (h : showBack = true → i < menuMaxRows) (m : Mem) :
    ∃ next m', storeBack showBack i m = .ok (next, m') ∧ Agree m m' 0 (menuAt i 0) ∧
      (showBack = true → RowHolds m' i goBackText.bytes) := by
  unfold storeBack
  split_ifs with hback
  · have hi : i < 250 := h hback
    have hlen : (strcpy goBackText).length = goBackText.bytes.length + 1 ∧ goBackText.bytes.length = 20 := by decide +kernel
    have hat : menuAt i 0 = 64 * i := rfl
    rw [storeMenu_ok (by omega), ok_bind]
    exact ⟨_, _, rfl, Memory.agree_write (.inl (by omega)), fun _ =>
      ⟨by rw [hlen.2]; decide, goBackText.no_nul, Memory.read_write hlen.1⟩⟩
  · exact ⟨_, _, rfl, fun _ _ _ => rfl, fun h' => absurd h' hback⟩

theorem openMenu_ok {headers items : List CString} {showBack : Bool} (hcols : 0 < g.textCols)
    (hheaders : ∀ header ∈ headers.take g.textRows, min (g.textCols - 1) header.bytes.length < menuMaxCols)
    (hback : showBack = true → headerRows g headers + items.length < menuMaxRows) (initial : ℤ) (m : Mem) :
    ∃ m' menu', openMenu g headers items showBack initial m = .ok (m', menu') ∧
      ∀ i text, (menuTexts g headers items showBack)[i]? = some text → RowHolds m' i text := by
  have hstores : ∀ header ∈ headers.take (g.textRows - 0), StoresRow (storeHeader g.textCols) g.textRows
    (headerText g.textCols) header :=
    fun header hmem => storesRow_header g hcols (by rw [headerText, List.length_take]; exact hheaders header hmem)
  obtain ⟨m₁, hrun₁, -, hholds₁⟩ := storeRows_ok headers 0 m hstores
  have htop : 0 + min (g.textRows - 0) headers.length = headerRows g headers := Nat.zero_add _
  rw [htop] at hrun₁
  obtain ⟨m₂, hrun₂, hagree₂, hholds₂⟩ := storeRows_ok items (headerRows g headers) m₁ fun item _ => storesRow_item item
  obtain ⟨next, m₃, hrun₃, hagree₃, hholds₃⟩ := storeBack_ok (i := headerRows g headers + itemRows g headers items)
    (fun h => by have := hback h; unfold itemRows; omega) m₂
  have hrun₂' : storeRows storeItem menuMaxRows items (headerRows g headers) m₁ = .ok
    (headerRows g headers + itemRows g headers items, m₂) := hrun₂
  refine ⟨m₃, _, by simp only [openMenu, hrun₁, hrun₂', hrun₃, ok_bind]; rfl, fun i text htext => ?_⟩
  have hheaderRows : ((headers.take g.textRows).map (headerText g.textCols)).length = headerRows g headers := by simp [headerRows]
  have hitemRows : ((items.take (menuMaxRows - headerRows g headers)).map itemText).length =
    itemRows g headers items := by simp [itemRows]
  unfold menuTexts at htext
  rcases Nat.lt_or_ge i (headerRows g headers) with hi | hi
  · rw [List.getElem?_append_left (by omega)] at htext
    have hholds := hholds₁ i text (by rwa [Nat.sub_zero])
    rw [Nat.zero_add] at hholds
    exact (hholds.agree hi hagree₂).agree (by omega) hagree₃
  · rw [List.getElem?_append_right (by omega), hheaderRows] at htext
    rcases Nat.lt_or_ge (i - headerRows g headers) (itemRows g headers items) with hi' | hi'
    · rw [List.getElem?_append_left (by omega)] at htext
      have hholds := hholds₂ _ text htext
      rw [Nat.add_sub_cancel' hi] at hholds
      exact hholds.agree (by omega) hagree₃
    · rw [List.getElem?_append_right (by omega), hitemRows] at htext
      split_ifs at htext with hshow
      · rw [List.getElem?_singleton] at htext
        split_ifs at htext with hzero
        obtain rfl : i = headerRows g headers + itemRows g headers items := by omega
        exact Option.some.inj htext ▸ hholds₃ hshow
      · simp at htext

theorem header_text {headers items : List CString} {showBack : Bool} {header : CString} (hmem : header ∈ headers.take g.textRows) :
    ∃ i : ℕ, (menuTexts g headers items showBack)[i]? = some (headerText g.textCols header) := by
  obtain ⟨i, hi⟩ := List.mem_iff_getElem?.mp hmem
  refine ⟨i, ?_⟩
  have hlt : i < (headers.take g.textRows).length := (List.getElem?_eq_some_iff.mp hi).1
  rw [menuTexts, List.getElem?_append_left (by rwa [List.length_map]), List.getElem?_map, hi]
  rfl

/-- **The texts of a menu are stored in their rows**, cut off at the ends of the rows and with a NUL behind them, and nothing
is written outside of the array, just if no header that is stored is longer than its row and a row is left to go back. -/
theorem menu_texts_stored (g : Geometry) (headers items : List CString) (showBack : Bool) (initial : ℤ) (m : Mem) (menu : Menu) :
    (∃ count m' menu', uiStartMenu g headers items showBack initial m menu = .ok (count, m', menu') ∧
      (0 < g.textRows ∧ 0 < g.textCols → ∀ i text, (menuTexts g headers items showBack)[i]? = some text →
        text.length < menuMaxCols ∧ read m' (menuAt i 0) (text.length + 1) = text ++ [0] ∧ menuText m' i = text)) ↔
    (0 < g.textRows ∧ 0 < g.textCols →
      (∀ header ∈ headers.take g.textRows, min (g.textCols - 1) header.bytes.length < menuMaxCols) ∧
      (showBack = true → headerRows g headers + items.length < menuMaxRows)) := by
  unfold uiStartMenu
  by_cases hscreen : 0 < g.textRows ∧ 0 < g.textCols
  swap
  · rw [if_neg hscreen]
    exact iff_of_true ⟨_, _, _, rfl, fun h => absurd h hscreen⟩ fun h => absurd h hscreen
  rw [if_pos hscreen]
  constructor
  · rintro ⟨count, m', menu', hrun, htexts⟩ -
    refine ⟨fun header hmem => ?_, ?_⟩
    · obtain ⟨i, hi⟩ := (header_text hmem : ∃ i : ℕ, (menuTexts g headers items showBack)[i]? = _)
      have hshort := (htexts hscreen i _ hi).1
      rwa [headerText, List.length_take] at hshort
    · obtain ⟨r, hopen, -⟩ := bind_eq_ok.mp hrun
      exact (openMenu_ok_iff g).mp ⟨r, hopen⟩
  · intro hcond
    obtain ⟨hheaders, hback⟩ := hcond hscreen
    obtain ⟨m', menu', hrun, hholds⟩ := openMenu_ok hscreen.2 hheaders hback initial m
    rw [hrun, ok_bind]
    exact ⟨_, m', menu', rfl, fun _ i text htext => ⟨(hholds i text htext).short,
      (hholds i text htext).stored, (hholds i text htext).menuText_eq⟩⟩

def noTexts : Mem := fun _ => 0

def longHeader (n : ℕ) : CString := .of (List.replicate n 0x68)

theorem menu_texts_stored_narrow : ∃ count m' menu', uiStartMenu
    (screenOf 40 20) [longHeader 70] [str "reboot"] true 0 noTexts noMenu =
    .ok (count, m', menu') ∧ menuText m' 0 = List.replicate 39 0x68 ∧ menuText m' 1 = lit " - reboot" ∧
      menuText m' 2 = lit " - +++++Go Back+++++" := by
  obtain ⟨count, m', menu', hrun, htexts⟩ := (menu_texts_stored (screenOf 40 20) [longHeader 70] [str "reboot"] true
    0 noTexts noMenu).mpr fun _ => ⟨by decide +kernel, fun _ => by decide⟩
  have htexts := htexts (by decide)
  exact ⟨count, m', menu', hrun, (htexts 0 _ (by decide +kernel)).2.2,
    (htexts 1 _ (by decide +kernel)).2.2, (htexts 2 _ (by decide +kernel)).2.2⟩

/-- On a screen of 95 columns the text of a long header goes on in the next row; the row to
go back behind 250 rows is not in the array. -/
theorem menu_row_overrun :
    (uiStartMenu (screenOf 95 20) [longHeader 70] [str "reboot"] false 0 noTexts noMenu).map
      (fun r => cstr (read r.2.1 (menuAt 0 0) 128)) =
      .ok (List.replicate 64 0x68 ++ lit " - reboot") ∧
    uiStartMenu (screenOf 40 20) [] (List.replicate 250 (str "a")) true 0 noTexts noMenu = .error .fault := by
  have hheader : (uiStartMenu (screenOf 95 20) [longHeader 70] [str "reboot"] false 0 noTexts noMenu).map
    (fun r => cstr (read r.2.1 (menuAt 0 0) 128)) = .ok (List.replicate 64 0x68 ++ lit " - reboot") := by decide +kernel
  have hback : (uiStartMenu (screenOf 40 20) [] (List.replicate 250 (str "a")) true 0 noTexts noMenu).map
    (fun _ => ()) = .error .fault := by
    decide +kernel
  refine ⟨hheader, ?_⟩
  cases hrun : uiStartMenu (screenOf 40 20) [] (List.replicate 250 (str "a")) true 0 noTexts noMenu with
  | error e => rw [hrun] at hback; exact congrArg Except.error (Except.error.inj hback)
  | ok r => rw [hrun] at hback; exact absurd hback (by simp [Except.map])

end Ui
end Recovery
