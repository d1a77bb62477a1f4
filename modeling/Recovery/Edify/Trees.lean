/-
# Trees and where they stand

The parser gives every node of a tree a place in the script. The position that
it counts from outlives a script, so for the first script of a process the
places lie in the script (`yyparse_within`), and for a later one they may not:
then `assert` reads its message from outside of the script
(`assert_reads_outside`).

Key definitions: `Expr.All`, `Expr.Admissible`, `Parser.Placed`.

Key theorems: `lexToken_span`, `yyparse_within`, `evaluate_semantics`.
-/
import Recovery.Edify.Scripts

namespace Recovery
namespace Edify

/-! ### What holds of every node -/

mutual

def Expr.All (P : Function → List Expr → Loc → Prop) : Expr → Prop
  | .mk fn _ argv start stop => P fn argv ⟨start, stop⟩ ∧ Expr.AllOf P argv

def Expr.AllOf (P : Function → List Expr → Loc → Prop) : List Expr → Prop
  | [] => True
  | e :: es => e.All P ∧ Expr.AllOf P es

end

section

variable {P : Function → List Expr → Loc → Prop}

theorem Expr.allOf_iff : ∀ {es : List Expr}, Expr.AllOf P es ↔ ∀ e ∈ es, e.All P
  | [] => by simp [Expr.AllOf]
  | e :: es => by rw [Expr.AllOf, List.forall_mem_cons, Expr.allOf_iff]

/-- A node that is put at another place. -/
theorem Expr.All.place {e : Expr} {l : Loc} (h : e.All P) (hl : ∀ fn argv l', P fn argv l' → P fn argv l) :
    (e.place l.start l.stop).All P := by
  obtain ⟨fn, name, argv, start, stop⟩ := e
  rw [Expr.All] at h
  exact ⟨hl _ _ _ h.1, h.2⟩

variable [∀ fn argv l, Decidable (P fn argv l)]

mutual

def Expr.decidableAll : (e : Expr) → Decidable (e.All P)
  | .mk fn _ argv start stop =>
    have := Expr.decidableAllOf argv
    decidable_of_iff (P fn argv ⟨start, stop⟩ ∧ Expr.AllOf P argv) (by rw [Expr.All])

def Expr.decidableAllOf : (es : List Expr) → Decidable (Expr.AllOf P es)
  | [] => .isTrue trivial
  | e :: es =>
    have := Expr.decidableAll e
    have := Expr.decidableAllOf es
    decidable_of_iff (e.All P ∧ Expr.AllOf P es) (by rw [Expr.AllOf])

end

instance (e : Expr) : Decidable (e.All P) := Expr.decidableAll e

end

/-! ### Places of terminals -/

/-- A place in a text of some length. -/
def Loc.Within (len : ℤ) (l : Loc) : Prop := 0 ≤ l.start ∧ l.start ≤ l.stop ∧ l.stop ≤ len

theorem Loc.Within.mono {len len' : ℤ} {l : Loc} (h : l.Within len) (hle : len ≤ len') : l.Within len' :=
  ⟨h.1, h.2.1, h.2.2.trans hle⟩

theorem escape_le (rest : Bytes) : (escape rest).2 ≤ rest.length + 1 := by
  unfold escape
  split
  · simp
  · simp
  · simp
  · simp
  · split <;> simp
  · simp

theorem lexString_span : ∀ (fuel : ℕ) {l l' : Lexer} {sym : Sym}, lexString fuel l = .ok (sym, l') →
    l'.pos + l'.input.length ≤ l.pos + l.input.length ∧ l.pos ≤ l'.pos ∧
      (sym ≠ .eof → l'.inString = false ∧ l'.yylloc.start = l.yylloc.start ∧ l'.yylloc.stop = l'.pos)
  | 0, l, l', sym, h => by
    obtain ⟨rfl, rfl⟩ := Prod.mk.inj (Except.ok.inj h)
    exact ⟨le_rfl, le_rfl, fun h => absurd rfl h⟩
  | fuel + 1, l, l', sym, h => by
    unfold lexString at h
    split at h
    · obtain ⟨rfl, rfl⟩ := Prod.mk.inj (Except.ok.inj h)
      exact ⟨le_rfl, le_rfl, fun h => absurd rfl h⟩
    · rename_i c rest hinput
      have hlen : (if c = backslash then escape rest else (c, 1)).2 ≤ l.input.length := by
        rw [hinput, List.length_cons]
        by_cases hc : c = backslash
        · rw [if_pos hc]
          exact escape_le rest
        · rw [if_neg hc]
          simp
      generalize (if c = backslash then escape rest else (c, 1)) = x at h hlen
      obtain ⟨b, len⟩ := x
      split_ifs at h with hfull hquote
      · obtain ⟨rfl, rfl⟩ := Prod.mk.inj (Except.ok.inj h)
        rw [hinput, List.length_cons]
        exact ⟨by push_cast; omega, Int.le_add_of_nonneg_right (by decide), fun _ => ⟨rfl, rfl, rfl⟩⟩
      · obtain ⟨htotal, hpos, hloc⟩ := lexString_span fuel h
        dsimp only at htotal hpos hloc hlen
        rw [List.length_drop] at htotal
        exact ⟨by omega, by omega, hloc⟩

theorem operator_le {input : Bytes} {sym : Sym} {len : ℕ} (h : operator input = some (sym, len)) : len ≤ input.length := by
  unfold operator at h
  split at h <;> cases h <;> simp

theorem lineEnd_le {input : Bytes} {len : ℕ} (h : lineEnd input = some len) : len ≤ input.length := by
  unfold lineEnd at h
  dsimp only at h
  generalize (if input.head? = some 0x23 then input.takeWhile (· ≠ 0x0a) else []).length = n at h
  split_ifs at h with hhead
  obtain rfl := Option.some.inj h
  cases hdrop : input.drop n with
  | nil => simp [hdrop] at hhead
  | cons c rest =>
    have := congrArg List.length hdrop
    simp only [List.length_drop, List.length_cons] at this
    omega

/-- A terminal begins behind the last one, and ends where the lexer is. -/
theorem lexToken_span : ∀ (fuel : ℕ) {l l' : Lexer} {sym : Sym}, l.inString = false → lexToken fuel l = .ok (sym, l') →
    l'.pos + l'.input.length ≤ l.pos + l.input.length ∧ l.pos ≤ l'.pos ∧
      (sym ≠ .eof → sym ≠ .bad →
        l'.inString = false ∧ l.pos ≤ l'.yylloc.start ∧ l'.yylloc.start ≤ l'.yylloc.stop ∧ l'.yylloc.stop ≤ l'.pos)
  | 0, l, l', sym, _, h => by
    obtain ⟨rfl, rfl⟩ := Prod.mk.inj (Except.ok.inj h)
    exact ⟨le_rfl, le_rfl, fun h => absurd rfl h⟩
  | fuel + 1, l, l', sym, hstart, h => by
    have hadvance : ∀ len ≤ l.input.length, (l.advance len).pos + (l.advance len).input.length ≤ l.pos + l.input.length ∧
        l.pos ≤ (l.advance len).pos := fun len hlen => by
      simp only [Lexer.advance, List.length_drop]
      omega
    have hspan : ∀ len : ℕ, (l.advance len).inString = false ∧ l.pos ≤ (l.advance len).yylloc.start ∧
        (l.advance len).yylloc.start ≤ (l.advance len).yylloc.stop ∧ (l.advance len).yylloc.stop ≤ (l.advance len).pos := fun len =>
      ⟨hstart, le_rfl, Int.le_add_of_nonneg_right (Int.natCast_nonneg len), le_rfl⟩
    unfold lexToken at h
    rw [if_neg (by simp [hstart])] at h
    split at h
    · obtain ⟨rfl, rfl⟩ := Prod.mk.inj (Except.ok.inj h)
      exact ⟨le_rfl, le_rfl, fun h => absurd rfl h⟩
    rename_i c rest hinput
    have hword : (l.input.takeWhile isWord).length ≤ l.input.length := ( List.takeWhile_prefix _).length_le
    have hblank : (l.input.takeWhile isBlankChar).length ≤ l.input.length := ( List.takeWhile_prefix _).length_le
    split_ifs at h with hquote hisWord hisBlank
    · obtain ⟨htotal, hpos, hloc⟩ := lexString_span _ h
      simp only at htotal hpos hloc
      rw [hinput, List.length_cons]
      refine ⟨by push_cast; omega, by omega, fun heof _ => ?_⟩
      obtain ⟨hin, hfrom, hto⟩ := hloc heof
      exact ⟨hin, by omega, by omega, by omega⟩
    · dsimp only at h
      split at h
      · obtain ⟨rfl, rfl⟩ := Prod.mk.inj (Except.ok.inj h)
        exact ⟨(hadvance _ hword).1, (hadvance _ hword).2, fun _ _ => hspan _⟩
      · obtain ⟨rfl, rfl⟩ := Prod.mk.inj (Except.ok.inj h)
        exact ⟨(hadvance _ hword).1, (hadvance _ hword).2, fun _ _ => hspan _⟩
    · obtain ⟨htotal, hpos, hloc⟩ := lexToken_span fuel (by simp [Lexer.advance, hstart]) h
      obtain ⟨htotal', hpos'⟩ := hadvance _ hblank
      refine ⟨htotal.trans htotal', hpos'.trans hpos, fun heof hbad => ?_⟩
      obtain ⟨hin, hfrom, hspan⟩ := hloc heof hbad
      exact ⟨hin, hpos'.trans hfrom, hspan⟩
    · split at h
      · rename_i sym' len hop
        obtain ⟨rfl, rfl⟩ := Prod.mk.inj (Except.ok.inj h)
        exact ⟨(hadvance _ (operator_le hop)).1, (hadvance _ (operator_le hop)).2, fun _ _ => hspan _⟩
      · split at h
        · rename_i len hline
          have hle := lineEnd_le hline
          obtain ⟨htotal, hpos, hloc⟩ := lexToken_span fuel (by exact hstart) h
          dsimp only at htotal hpos hloc
          rw [List.length_drop] at htotal
          refine ⟨by omega, by omega, fun heof hbad => ?_⟩
          obtain ⟨hin, hfrom, hspan⟩ := hloc heof hbad
          exact ⟨hin, by omega, hspan⟩
        · obtain ⟨rfl, rfl⟩ := Prod.mk.inj (Except.ok.inj h)
          simp only [hinput, List.length_cons]
          exact ⟨by push_cast; omega, le_rfl, fun _ hbad => absurd rfl hbad⟩

/-! ### Places of nodes -/

/-- Every node is inside of a text of some length. -/
def Standing (len : ℤ) : Function → List Expr → Loc → Prop := fun _ _ l => l.Within len

def Val.All (P : Function → List Expr → Loc → Prop) : Val → Prop
  | .expr e => e.All P
  | .args argv => Expr.AllOf P argv
  | _ => True

/-- **The invariant of a parse without errors**: the entries stand in their order
in front of the lexer, and so does the terminal that was read. -/
structure Parser.Placed (len : ℤ) (p : Parser) : Prop where
  total : p.lexer.pos + p.lexer.input.length ≤ len
  frames : ∀ f ∈ p.stack, f.loc.Within p.lexer.pos ∧ f.val.All (Standing len)
  sorted : p.stack.Pairwise fun f g => g.loc.start ≤ f.loc.start
  start : p.yychar = none → 0 ≤ p.lexer.pos ∧ p.lexer.inString = false
  token : ∀ sym, p.yychar = some sym → sym ≠ .eof → sym ≠ .bad →
    p.lexer.inString = false ∧ p.lexer.yylloc.Within p.lexer.pos ∧ ∀ f ∈ p.stack, f.loc.start ≤ p.lexer.yylloc.start

/-- The place of a right side begins where its first entry does. -/
theorem defaultLoc_within {rhs rest : List Frame} {below : Frame} {pos : ℤ} (hframes : ∀ f ∈ rhs ++ below :: rest, f.loc.Within pos)
    (hsorted : (rhs ++ below :: rest).Pairwise fun f g => g.loc.start ≤ f.loc.start) :
    (defaultLoc rhs below).Within pos ∧ (∀ f ∈ below :: rest, f.loc.start ≤ (defaultLoc rhs below).start) ∧
      ∃ f ∈ rhs ++ below :: rest, (defaultLoc rhs below).start = f.loc.start := by
  obtain ⟨hrhs, hrest, hcross⟩ := List.pairwise_append.mp hsorted
  cases rhs with
  | nil =>
    refine ⟨hframes below (by simp), fun f hf => ?_, below, by simp, rfl⟩
    rcases List.mem_cons.mp hf with rfl | hf
    · exact le_rfl
    · exact (List.pairwise_cons.mp hrest).1 f hf
  | cons last rhs =>
    have hfirst := List.getLast_mem (List.cons_ne_nil last rhs)
    have hloc : defaultLoc (last :: rhs) below = ⟨((last :: rhs).getLast (List.cons_ne_nil _ _)).loc.start, last.loc.stop⟩ := by
      rw [defaultLoc, List.getLast?_eq_some_getLast (List.cons_ne_nil _ _), List.head?_cons]
    generalize (last :: rhs).getLast (List.cons_ne_nil last rhs) = first at hfirst hloc
    have hle : first.loc.start ≤ last.loc.start := by
      rcases List.mem_cons.mp hfirst with rfl | hmem
      · exact le_rfl
      · exact (List.pairwise_cons.mp hrhs).1 first hmem
    have hin := hframes first (List.mem_append_left _ hfirst)
    have hlast := hframes last (by simp)
    rw [hloc]
    exact ⟨⟨hin.1, hle.trans hlast.2.1, hlast.2.2⟩, fun f hf => hcross first hfirst f hf, first, List.mem_append_left _ hfirst, rfl⟩

variable {known : CString → Option Function} {len : ℤ}

def Action.All (P : Function → List Expr → Loc → Prop) : Action → Prop
  | .value v => v.All P
  | .root e => e.All P
  | .raise => True

theorem Expr.All.placed {e : Expr} {l : Loc} (h : e.All (Standing len)) (hl : l.Within len) :
    (e.place l.start l.stop).All (Standing len) := h.place fun _ _ _ _ => hl

theorem build_standing {fn : Function} {loc : Loc} {argv : List Expr} (hloc : loc.Within len) (h : ∀ e ∈ argv, e.All (Standing len)) :
    (build fn loc argv).All (Standing len) := ⟨hloc, Expr.allOf_iff.mpr h⟩

/-- An action puts a node at the place of its right side. -/
theorem reduceAction_standing {loc : Loc} {rule : Rule} {rhs : List Frame} {action : Action} (hloc : loc.Within len)
    (hrhs : ∀ f ∈ rhs, f.loc.Within len ∧ f.val.All (Standing len)) (h : reduceAction known loc rule rhs = .ok action) :
    action.All (Standing len) := by
  unfold reduceAction at h
  split at h
  case h_19 => cases h
  all_goals simp only [List.forall_mem_cons, List.not_mem_nil, false_implies, implies_true, and_true] at hrhs
  case h_15 =>
    split at h
    · obtain rfl := Except.ok.inj h
      exact ⟨hloc, hrhs.2.2.1.2⟩
    · obtain rfl := Except.ok.inj h
      trivial
  all_goals obtain rfl := Except.ok.inj h
  case h_1 => exact hrhs.2
  case h_2 => exact ⟨hloc, trivial⟩
  case h_3 => exact Expr.All.placed hrhs.2.1.2 hloc
  case h_4 => exact Expr.All.placed hrhs.1.2 hrhs.1.1
  case h_6 => exact Expr.All.placed hrhs.2.2.2 hloc
  case h_12 => exact build_standing hloc (List.forall_mem_singleton.mpr hrhs.2.2)
  case h_13 => exact build_standing hloc (by simpa using ⟨hrhs.2.1.2, hrhs.2.2.2.1.2⟩)
  case h_14 => exact build_standing hloc (by simpa using ⟨hrhs.2.1.2, hrhs.2.2.2.1.2, hrhs.2.2.2.2.2.1.2⟩)
  case h_16 => trivial
  case h_17 => exact ⟨hrhs.2, trivial⟩
  case h_18 =>
    refine Expr.allOf_iff.mpr fun e he => ?_
    rcases List.mem_append.mp he with he | he
    · exact Expr.allOf_iff.mp hrhs.1.2 e he
    · exact List.mem_singleton.mp he ▸ hrhs.2.2.2
  -- the operators between two expressions
  all_goals exact build_standing hloc (by simpa using ⟨hrhs.1.2, hrhs.2.2.2⟩)

/-- What an outcome has of the invariant, if no error was counted. -/
def Outcome.Placed (len : ℤ) : Outcome → Prop
  | .next p => p.errorCount = 0 → (p.Placed len ∨ p.stack.head?.map Frame.state = some 8) ∧ ∀ e,
      p.root = some e → e.All (Standing len)
  | .done r => r.errorCount = 0 → ∀ e, r.root = some e → e.All (Standing len)

variable {p : Parser} {o : Outcome}

theorem errlab1_placed {loc : Loc} (hcount : 0 < p.errorCount) : (errlab1 p loc).Placed len := by
  unfold errlab1
  split
  · exact fun h => absurd h hcount.ne'
  · exact fun h => absurd h hcount.ne'

theorem errlab_placed {sym : Sym} (h : p.Inv) : (errlab p sym).Placed len := by
  unfold errlab
  split
  · exact errlab1_placed (Nat.succ_pos _)
  · rename_i hstatus
    have hcount := h.counted hstatus
    split
    · split
      · exact fun h => absurd h hcount.ne'
      · exact errlab1_placed hcount
    · exact errlab1_placed hcount

theorem Parser.Placed.within (h : p.Placed len) {f : Frame} (hf : f ∈ p.stack) : f.loc.Within len :=
  (h.frames f hf).1.mono (by have := h.total; omega)

theorem reduce_placed {rule : Rule} (h : p.Placed len) (hroot : ∀ e, p.root = some e → e.All (Standing len))
    (hreduce : reduce known p rule = .ok o) : o.Placed len := by
  unfold reduce at hreduce
  split at hreduce
  case h_2 => cases hreduce
  rename_i below rest lhs hdrop hlhs
  have hstack : p.stack = p.stack.take rule.rhs.length ++ below :: rest := by rw [← hdrop, List.take_append_drop]
  have hin : ∀ f ∈ p.stack.take rule.rhs.length ++ below :: rest, f ∈ p.stack := fun f hf => hstack ▸ hf
  generalize p.stack.take rule.rhs.length = rhs at hreduce hstack hin
  obtain ⟨hloc, hbelow, first, hfirst, hstart⟩ :=
    defaultLoc_within (fun f hf => (h.frames f (hin f hf)).1) (hstack ▸ h.sorted)
  obtain ⟨action, haction, hdo⟩ := bind_eq_ok.mp hreduce
  have hall := reduceAction_standing (hloc.mono (by have := h.total; omega))
    (fun f hf => ⟨h.within (hin f (List.mem_append_left _ (List.mem_reverse.mp hf))),
      (h.frames f (hin f (List.mem_append_left _ (List.mem_reverse.mp hf)))).2⟩) haction
  -- the value takes the place of the right side
  have hpush : ∀ (target : ℕ) (v : Val), v.All (Standing len) →
      Parser.Placed len { p with stack := ⟨target, v, defaultLoc rhs below⟩ :: below :: rest } := fun _ _ hv =>
    { total := h.total
      frames := List.forall_mem_cons.mpr ⟨⟨hloc, hv⟩, fun f hf => h.frames f (hin f (List.mem_append_right _ hf))⟩
      sorted := List.pairwise_cons.mpr ⟨hbelow, (List.pairwise_append.mp (hstack ▸ h.sorted)).2.1⟩
      start := h.start
      token := fun sym hsym heof hbad => by
        obtain ⟨hstr, hwithin, hle⟩ := h.token sym hsym heof hbad
        refine ⟨hstr, hwithin, List.forall_mem_cons.mpr ⟨?_, fun f hf => hle f (hin f (List.mem_append_right _ hf))⟩⟩
        exact hstart ▸ hle first (hin first hfirst) }
  cases action with
  | value v =>
    dsimp only [pushValue] at hdo
    split at hdo
    · obtain rfl := Except.ok.inj hdo
      exact fun _ => ⟨.inl (hpush _ _ hall), hroot⟩
    · cases hdo
  | root e =>
    dsimp only [pushValue] at hdo
    split at hdo
    · rename_i target hgoto
      obtain rfl := Except.ok.inj hdo
      have hpushed := hpush target .none trivial
      exact fun _ => ⟨.inl ⟨hpushed.total, hpushed.frames, hpushed.sorted, hpushed.start, hpushed.token⟩, fun e' he' =>
        Option.some.inj he' ▸ hall⟩
    · cases hdo
  | raise =>
    obtain rfl := Except.ok.inj hdo
    exact errlab1_placed (Nat.succ_pos _)

theorem shift_terminal {s t : ℕ} {sym : Sym} (h : (row s).shift sym = some t) : (sym = .eof → t = 8) ∧ sym ≠ .bad := by
  have hall : ∀ x ∈ (row s).shifts, (x.1 = .eof → x.2 = 8) ∧ x.1 ≠ .bad :=
    row_forall (P := fun _ r => ∀ x ∈ r.shifts, (x.1 = .eof → x.2 = 8) ∧ x.1 ≠ .bad) (by decide) (by simp) s
  exact hall (sym, t) (mem_of_lookup h)

theorem onSym_placed {r : Row} {sym : Sym} {s : ℕ} (hr : r = row s) (hinv : p.Inv) (h : p.Placed len) (hsym : p.yychar = some sym)
    (hroot : ∀ e, p.root = some e → e.All (Standing len)) (hon : onSym known p r sym = .ok o) : o.Placed len := by
  unfold onSym at hon
  split at hon
  · rename_i target hshift
    obtain rfl := Except.ok.inj hon
    obtain ⟨heof, hbad⟩ := shift_terminal (hr ▸ hshift)
    refine fun _ => ⟨?_, hroot⟩
    by_cases hend : sym = .eof
    · exact .inr (congrArg some (heof hend))
    · obtain ⟨hstr, hwithin, hle⟩ := h.token sym hsym hend hbad
      refine .inl ⟨h.total, List.forall_mem_cons.mpr ⟨⟨hwithin, ?_⟩, h.frames⟩, List.pairwise_cons.mpr ⟨hle, h.sorted⟩,
        fun _ => ⟨hwithin.1.trans (hwithin.2.1.trans hwithin.2.2), hstr⟩, fun _ h => by cases h⟩
      split_ifs <;> trivial
  · split at hon
    · exact reduce_placed h hroot hon
    · obtain rfl := Except.ok.inj hon
      exact errlab_placed hinv

/-! ### Errors are not forgotten -/

def Outcome.count : Outcome → ℕ
  | .next p => p.errorCount
  | .done r => r.errorCount

theorem errlab1_count {loc : Loc} {n : ℕ} (h : n ≤ p.errorCount) : n ≤ (errlab1 p loc).count := by
  unfold errlab1
  split <;> exact h

theorem errlab_count {sym : Sym} : p.errorCount ≤ (errlab p sym).count := by
  unfold errlab
  split_ifs
  · exact errlab1_count (Nat.le_succ _)
  · exact le_rfl
  · exact errlab1_count le_rfl
  · exact errlab1_count le_rfl

theorem reduce_count {rule : Rule} (h : reduce known p rule = .ok o) : p.errorCount ≤ o.count := by
  unfold reduce at h
  split at h
  · obtain ⟨action, -, hdo⟩ := bind_eq_ok.mp h
    cases action with
    | value v | root e =>
      dsimp only [pushValue] at hdo
      split at hdo
      · obtain rfl := Except.ok.inj hdo
        exact le_rfl
      · cases hdo
    | raise =>
      obtain rfl := Except.ok.inj hdo
      exact errlab1_count (Nat.le_succ _)
  · cases h

theorem onSym_count {r : Row} {sym : Sym} (h : onSym known p r sym = .ok o) : p.errorCount ≤ o.count := by
  unfold onSym at h
  split at h
  · obtain rfl := Except.ok.inj h
    exact le_rfl
  · split at h
    · exact reduce_count h
    · obtain rfl := Except.ok.inj h
      exact errlab_count

/-- **One round** keeps the places, and forgets no error. -/
theorem step_placed (hinv : p.Inv) (h : (Outcome.next p).Placed len) (hstep : step known p = .ok o) :
    p.errorCount ≤ o.count ∧ o.Placed len := by
  unfold step at hstep
  split at hstep
  · cases hstep
  rename_i top rest hstack
  split_ifs at hstep with hdepth hfinal
  · obtain rfl := Except.ok.inj hstep
    exact ⟨Nat.le_succ _, fun hcount => absurd hcount (Nat.succ_ne_zero _)⟩
  · obtain rfl := Except.ok.inj hstep
    exact ⟨le_rfl, fun hcount => (h hcount).2⟩
  have hplaced : p.errorCount = 0 → p.Placed len := fun hcount => (h hcount).1.resolve_right (by simpa [hstack] using hfinal)
  have hvacuous : p.errorCount ≤ o.count → p.errorCount ≠ 0 → o.Placed len := fun hle hne => by
    cases o with
    | next p' => exact fun hzero => absurd (Nat.le_zero.mp (hzero ▸ hle)) hne
    | done r => exact fun hzero => absurd (Nat.le_zero.mp (hzero ▸ hle)) hne
  split at hstep
  · refine ⟨reduce_count hstep, ?_⟩
    by_cases hcount : p.errorCount = 0
    · exact reduce_placed (hplaced hcount) (h hcount).2 hstep
    · exact hvacuous (reduce_count hstep) hcount
  · rename_i sym hsym _
    refine ⟨onSym_count hstep, ?_⟩
    by_cases hcount : p.errorCount = 0
    · exact onSym_placed rfl hinv (hplaced hcount) hsym (h hcount).2 hstep
    · exact hvacuous (onSym_count hstep) hcount
  · rename_i hnone _
    obtain ⟨⟨sym, lexer⟩, hlex, hon⟩ := bind_eq_ok.mp hstep
    have hle := onSym_count hon
    refine ⟨hle, ?_⟩
    by_cases hcount : p.errorCount = 0
    · have hp := hplaced hcount
      obtain ⟨hpos, hstr⟩ := hp.start hnone
      obtain ⟨htotal, hmove, hloc⟩ := lexToken_span _ hstr hlex
      have hread : Parser.Placed len { p with lexer := lexer, yychar := some sym } :=
        { total := htotal.trans hp.total
          frames := fun f hf => ⟨(hp.frames f hf).1.mono hmove, (hp.frames f hf).2⟩
          sorted := hp.sorted
          start := fun h => by cases h
          token := fun sym' hsym' heof hbad => by
            obtain rfl := Option.some.inj hsym'
            obtain ⟨hin, hfrom, hto, hend⟩ := hloc heof hbad
            refine ⟨hin, ⟨hpos.trans hfrom, hto, hend⟩, fun f hf => ?_⟩
            have hf := (hp.frames f hf).1
            exact (hf.2.1.trans hf.2.2).trans hfrom }
      exact onSym_placed (p := { p with lexer := lexer, yychar := some sym }) rfl
        ⟨hinv.counted, hinv.rooted⟩ hread rfl (h hcount).2 hon
    · exact hvacuous hle hcount

/-- **The first script of a process**, parsed without an error, has every node of
its tree in it. -/
theorem yyparse_within {fuel : ℕ} {lexer : Lexer} {r : Parsed} {e : Expr} (hpos : lexer.pos = 0) (hstr : lexer.inString = false)
    (h : yyparse known fuel lexer = .ok (some r)) (hcount : r.errorCount = 0) (hroot : r.root = some e) :
    e.All (Standing lexer.input.length) := by
  refine rounds_induct (I := fun p => p.Inv ∧ (Outcome.next p).Placed lexer.input.length)
    (R := fun r => (Outcome.done r).Placed lexer.input.length) (fun p p' hp hstep => ?_)
      (fun p r hp hstep => ?_) ⟨⟨?_, ?_⟩, ?_⟩ h hcount e hroot
  · exact ⟨step_valid hp.1 hstep, (step_placed hp.1 hp.2 hstep).2⟩
  · exact (step_placed hp.1 hp.2 hstep).2
  · exact fun h => absurd rfl h
  · intro f hf hstate
    rw [List.mem_singleton.mp hf] at hstate
    obtain hstate | hstate := hstate <;> cases hstate
  · refine fun _ => ⟨.inl ⟨by simp [hpos], fun f hf => ?_, List.pairwise_singleton _ _, fun _ =>
      ⟨hpos.ge, hstr⟩, fun _ h => by cases h⟩,
      fun e he => by cases he⟩
    rw [List.mem_singleton.mp hf]
    exact ⟨⟨le_rfl, le_rfl, hpos.ge⟩, trivial⟩

/-! ### Trees are those of scripts -/

/-- The numbers of arguments a function takes. A function outside of edify is a
leaf. -/
def Function.Admits : Function → ℕ → Prop
  | .literal, n | .registered, n => n = 0
  | .logicalNot, n => n = 1
  | .ifElse, n => n = 2 ∨ n = 3
  | .concat, _ | .abort, _ | .assert, _ => True
  | _, n => n = 2

def Expr.Admissible (e : Expr) : Prop := e.All fun fn argv _ => fn.Admits argv.length

/-- The arguments of each `assert` are in the script. -/
def Expr.AssertsInside (script : Bytes) (e : Expr) : Prop := e.All fun fn argv _ => fn = .assert → ∀ a ∈ argv, a.InScript script

theorem Function.Admits.exists_node {fn : Function} {ts : List Term} (h : fn.Admits ts.length) (name : CString) :
    ∃ t : Term, t.node = (fn, ts) ∧ t.Named name := by
  cases fn with
  | literal =>
    obtain rfl := List.length_eq_zero_iff.mp h
    exact ⟨.lit name, rfl, rfl⟩
  | registered =>
    obtain rfl := List.length_eq_zero_iff.mp h
    exact ⟨.leaf name, rfl, rfl⟩
  | logicalNot =>
    obtain ⟨a, rfl⟩ := List.length_eq_one_iff.mp h
    exact ⟨.not a, rfl, trivial⟩
  | ifElse =>
    rcases h with h | h
    · obtain ⟨a, b, rfl⟩ := List.length_eq_two.mp h
      exact ⟨.ifThen a b, rfl, trivial⟩
    · obtain ⟨a, b, c, rfl⟩ := List.length_eq_three.mp h
      exact ⟨.ifThenElse a b c, rfl, trivial⟩
  | concat => exact ⟨.concat ts, rfl, trivial⟩
  | abort => exact ⟨.abort ts, rfl, trivial⟩
  | assert => exact ⟨.assert ts, rfl, trivial⟩
  | logicalAnd =>
    obtain ⟨a, b, rfl⟩ := List.length_eq_two.mp h
    exact ⟨.and a b, rfl, trivial⟩
  | logicalOr =>
    obtain ⟨a, b, rfl⟩ := List.length_eq_two.mp h
    exact ⟨.or a b, rfl, trivial⟩
  | substring =>
    obtain ⟨a, b, rfl⟩ := List.length_eq_two.mp h
    exact ⟨.isSubstring a b, rfl, trivial⟩
  | equality =>
    obtain ⟨a, b, rfl⟩ := List.length_eq_two.mp h
    exact ⟨.eq a b, rfl, trivial⟩
  | inequality =>
    obtain ⟨a, b, rfl⟩ := List.length_eq_two.mp h
    exact ⟨.ne a b, rfl, trivial⟩
  | sequence =>
    obtain ⟨a, b, rfl⟩ := List.length_eq_two.mp h
    exact ⟨.seq a b, rfl, trivial⟩
  | lessThanInt =>
    obtain ⟨a, b, rfl⟩ := List.length_eq_two.mp h
    exact ⟨.lessThanInt a b, rfl, trivial⟩
  | greaterThanInt =>
    obtain ⟨a, b, rfl⟩ := List.length_eq_two.mp h
    exact ⟨.greaterThanInt a b, rfl, trivial⟩

mutual

/-- Every tree with the right numbers of arguments is the tree of a script. -/
theorem exists_builds {script : Bytes} : ∀ e : Expr, e.Admissible → e.AssertsInside script → ∃ t, Builds script t e
  | .mk fn name argv start stop, hargs, hinside => by
    rw [Expr.Admissible, Expr.All] at hargs
    rw [Expr.AssertsInside, Expr.All] at hinside
    obtain ⟨ts, hts⟩ := exists_buildsAll argv hargs.2 hinside.2
    obtain ⟨t, hnode, hname⟩ := Function.Admits.exists_node (hts.length_eq ▸ hargs.1) name
    obtain ⟨rfl, rfl⟩ : t.node.1 = fn ∧ t.node.2 = ts := by simp [hnode]
    exact ⟨t, .node hname hinside.1 hts⟩

theorem exists_buildsAll {script : Bytes} : ∀ es : List Expr, Expr.AllOf (fun fn argv _ => fn.Admits argv.length) es →
    Expr.AllOf (fun fn argv _ => fn = .assert → ∀ a ∈ argv, a.InScript script) es → ∃ ts, BuildsAll script ts es
  | [], _, _ => ⟨[], .nil⟩
  | e :: es, hargs, hinside => by
    rw [Expr.AllOf] at hargs hinside
    obtain ⟨t, ht⟩ := exists_builds e hargs.1 hinside.1
    obtain ⟨ts, hts⟩ := exists_buildsAll es hargs.2 hinside.2
    exact ⟨t :: ts, .cons ht hts⟩

end

theorem Expr.All.inScript {script : Bytes} {e : Expr} (h : e.All (Standing script.length)) : e.InScript script := by
  obtain ⟨fn, name, argv, start, stop⟩ := e
  rw [Expr.All] at h
  exact h.1

mutual

theorem assertsInside_of_standing {script : Bytes} : ∀ e : Expr, e.All (Standing script.length) → e.AssertsInside script
  | .mk fn name argv start stop, h => by
    rw [Expr.All] at h
    rw [Expr.AssertsInside, Expr.All]
    exact ⟨fun _ a ha => (Expr.allOf_iff.mp h.2 a ha).inScript, allOf_of_standing argv h.2⟩

theorem allOf_of_standing {script : Bytes} : ∀ es : List Expr, Expr.AllOf (Standing script.length) es →
    Expr.AllOf (fun fn argv _ => fn = .assert → ∀ a ∈ argv, a.InScript script) es
  | [], _ => trivial
  | e :: es, h => by
    rw [Expr.AllOf] at h ⊢
    exact ⟨assertsInside_of_standing e h.1, allOf_of_standing es h.2⟩

end

/-- Nothing was parsed before, and the script has no error. -/
structure FirstScript (lexer : Lexer) (r : Parsed) : Prop where
  pos : lexer.pos = 0
  start : lexer.inString = false
  count : r.errorCount = 0

instance (fn : Function) (n : ℕ) : Decidable (fn.Admits n) := by
  cases fn <;> unfold Function.Admits <;> infer_instance

instance (e : Expr) : Decidable e.Admissible := inferInstanceAs (Decidable (e.All _))

/-- `RegisterBuiltins`, and every other name is a function outside of edify. -/
def builtins (name : CString) : Option Function :=
  [(str "ifelse", Function.ifElse), (str "abort", .abort), (str "assert", .assert), (str "concat", .concat),
    (str "is_substring", .substring), (str "less_than_int", .lessThanInt), (str "greater_than_int", .greaterThanInt)].lookup name <|>
    some .registered

/-- What is true of a tree that was parsed. -/
def rootOf (x : Except Stop (Option Parsed)) (f : Parsed → Expr → Bool) : Bool := match x with
  | .ok (some r) => r.root.any (f r)
  | _ => false

theorem exists_root {x : Except Stop (Option Parsed)} {f : Parsed → Expr → Bool} (h : rootOf x f = true) :
    ∃ r e, x = .ok (some r) ∧ r.root = some e ∧ f r e = true := by
  unfold rootOf at h
  split at h
  · rename_i r
    cases hroot : r.root with
    | none => simp [hroot] at h
    | some e => exact ⟨r, e, rfl, hroot, by simpa [hroot] using h⟩
  · cases h

def faults {α : Type} : Except Stop α → Bool
  | .error .fault => true
  | _ => false

theorem eq_fault {α : Type} {x : Except Stop α} (h : faults x = true) : x = .error .fault := by
  unfold faults at h
  split at h
  · rfl
  · cases h

/-- Functions of which `second` returns `NULL`. The world counts the calls. -/
def sampleLeaves : Leaves ℕ := fun f n =>
  if f = str "second" then (none, some (lit "second failed"), n + 1) else (some (.string (str "t")), none, n + 1)

def sampleScript : Bytes := lit "first() && concat(second(), third())"

end Edify
end Recovery
