import Gamebook.Grammar.Statement
import Gamebook.Proofs.Grammar.LocalExpressions
import Gamebook.Proofs.Grammar.Precedence

/-!
# Statements do not depend on what is around them

Of all statements, only `IF`, `WHILE` and `DO` have blocks in them. Every other statement is the
same wherever it stands, whatever the reader of blocks may be (`Parser.statement_local`).
-/

namespace Gamebook.Grammar

open Constant (Expr Width)

/-- The words of the statements that have blocks in them. -/
def hasBlocks : Keyword → Bool
  | .IF | .WHILE | .DO => true
  | _ => false

namespace State

theorem look_clean {s : State} (h : s.Clean) (n : Nat) : s.look n = s := by
  have settled (ls : List Lexeme) (clean : ∀ l ∈ ls, ∃ t, l.value = .ok t) :
      settle n ls = ([], ls) := by
    induction ls generalizing n with
    | nil => simp [settle]
    | cons l ls ih =>
      obtain ⟨l, place⟩ := l
      obtain ⟨t, rfl⟩ := clean ⟨l, place⟩ List.mem_cons_self
      cases n with
      | zero => simp [settle]
      | succ n => simp [settle, ih n fun l hl => clean l (List.mem_cons_of_mem _ hl)]
  cases s
  simp [look, settled _ h]

theorem Clean.within {s f : State} (hs : s.Clean) (hf : f.Clean) : (f.within s).Clean := by
  intro l hl
  rcases List.mem_append.mp hl with hl | hl
  · exact hs l hl
  · exact hf l hl

end State

namespace Parser

variable {k : Nat}

/-! ## Assignments and declarations -/

/-- What follows may depend on all tokens, if it is the same within another state. -/
theorem LocalAt.looking {α : Type} {g : State → Parser α} {s : State} {n : Nat} (clean : s.Clean)
    (here : LocalAt s (g s) (g s))
    (same : ∀ f : State, f.Clean → f.pending = [] ∨ (g s s).StopsIn s → g (f.within s) = g s) :
    LocalAt s (update (State.look n) >>= fun _ => state >>= g)
      (update (State.look n) >>= fun _ => state >>= g) := by
  have run (s : State) (clean : s.Clean) :
      (update (State.look n) >>= fun _ => state >>= g) s = g s s := by
    change g (s.look n) (s.look n) = g s s
    rw [State.look_clean clean]
  unfold LocalAt
  rw [run s clean]
  refine ⟨here.1, fun f hf stops => ?_⟩
  rw [run _ (clean.within hf), same f hf stops, here.2 f hf stops]

theorem element_local : Local k element element :=
  identifier_local.bind fun _ => (mention_local _ _).bind fun _ => index_local.bind fun _ => .pure _

/-- A name that is the last token is a variable, and then no tokens are left. -/
theorem variableReference_name {s : State} {name : String} {place : Location}
    (pending : s.pending = [⟨.ok (.identifier name), place⟩]) :
    ∃ v s', variableReference s = .done v s' ∧ s'.pending = [] := by
  have read : ∃ s', s.Took _ [] s' ∧ variableReference s = .done _ s' :=
    variableOver_base ⟨.named name, place⟩ pending (.inl rfl)
  obtain ⟨s', took, run⟩ := read
  exact ⟨_, s', run, took.pending⟩

theorem target_local : Local k target target := by
  have plain : Local k (do return Target.variable (← variableReference))
      (do return Target.variable (← variableReference)) :=
    variableReference_local.bind fun _ => .pure _
  refine .accept rfl (fun _ _ => variableReference_local.bind fun _ => .pure _) ?_
  intro s clean few
  obtain ⟨pending, lastSeen, problems, symbols, code, labels, notes⟩ := s
  match pending with
  | [] =>
    refine .looking clean (plain _ clean few) fun f hf stops => ?_
    have nothing := Outcome.nil_of_stopsIn (plain _ clean few).1 rfl stops
    simp only [State.within, nothing]
    rfl
  | [⟨l, place⟩] =>
    obtain ⟨t, rfl⟩ := clean ⟨l, place⟩ (by simp)
    cases t with
    | identifier name =>
      refine .looking clean (plain _ clean few) fun f hf stops => ?_
      -- were the bracket of an index to follow, it would not be taken for the end of the tokens
      obtain ⟨v, s', run, nil⟩ := variableReference_name
        (s := ⟨[⟨.ok (.identifier name), place⟩], lastSeen, problems, symbols, code, labels, notes⟩)
        rfl
      have nothing : f.pending = [] := by
        change _ ∨ ((variableReference >>= fun v => pure (Target.variable v)) _).StopsIn _ at stops
        rw [bind_of_done run] at stops
        exact stops.resolve_right fun ne => ne nil
      simp only [State.within, nothing]
      rfl
    | _ => exact .looking clean (plain _ clean few) fun _ _ _ => rfl
  | ⟨l, place⟩ :: ⟨l', place'⟩ :: rest =>
    obtain ⟨t, rfl⟩ := clean ⟨l, place⟩ (by simp)
    obtain ⟨t', rfl⟩ := clean ⟨l', place'⟩ (by simp)
    cases t with
    | identifier name =>
      cases t' with
      | openSquare =>
        refine .looking clean ?_ fun _ _ _ => rfl
        dsimp only
        split
        · exact plain _ clean few
        · exact element_local _ clean few
      | _ => exact .looking clean (plain _ clean few) fun _ _ _ => rfl
    | _ => exact .looking clean (plain _ clean few) fun _ _ _ => rfl

theorem storeAll_local (t : Target) (i : Nat) (vs : List (Located Value)) :
    Local k (storeAll t i vs) (storeAll t i vs) := by
  induction vs generalizing i with
  | nil => exact .pure _
  | cons v vs ih => exact (push_local v).bind fun _ => (emit_local _).bind fun _ => ih (i + 1)

theorem values_local : Local k values values := by
  refine .accept rfl (fun n _ => ?_) (expression_local.bind fun _ => .pure _)
  exact (commaSeparated_local fun _ => expression_local).bind fun _ =>
    (expect_local rfl _).bind fun _ => .pure _

theorem assignment_local : Local k assignment assignment := by
  refine target_local.bind fun place => (next_local _).bind fun t => ?_
  split
  · exact values_local.bind fun vs => storeAll_local _ _ vs
  · exact values_local.bind fun vs => storeAll_local _ _ vs
  · exact .fail _ _

theorem declareStatement_local : Local k declareStatement declareStatement := by
  refine constant_local.bind fun slot => (word_local _).bind fun _ => ?_
  refine identifier_local.bind fun name => (foldNow_local slot _).bind fun n => ?_
  split
  · exact declare_local _ _
  · exact .pure _

theorem constStatement_local : Local k constStatement constStatement :=
  identifier_local.bind fun _ => (expect_local rfl _).bind fun _ => constant_local.bind fun e =>
    (known_local e).bind fun _ => declare_local _ _

theorem arrayLength_local : Local k arrayLength arrayLength := by
  refine openParen_local.bind fun _ => constant_local.bind fun e => ?_
  refine closeParen_local.bind fun _ => (known_local e).bind fun n => ?_
  split
  · exact .pure _
  · exact .fail _ _

theorem knownBytes_local (es : List (Located Expr)) : Local k (knownBytes es) (knownBytes es) := by
  induction es with
  | nil => exact .pure _
  | cons e es ih => exact (foldNow_local e _).bind fun _ => ih.bind fun _ => .pure _

theorem initializer_local : Local k initializer initializer :=
  (expect_local rfl _).bind fun _ => (expect_local rfl _).bind fun _ => lastSeen_local.bind fun _ =>
    (commaSeparated_local fun _ => constant_local).bind fun es => (expect_local rfl _).bind fun _ =>
    (knownBytes_local es).bind fun _ => lastSeen_local.bind fun _ => .pure _

theorem padded_local (length : Nat) (given : Located (List UInt8)) :
    Local k (padded length given) (padded length given) := by
  unfold padded
  dsimp only
  split
  · exact .fail _ _
  · exact .pure _

theorem arrayBytes_local : Local k arrayBytes arrayBytes := by
  refine peek_local.bind fun t => ?_
  split
  · refine arrayLength_local.bind fun length => peek_local.bind fun t => ?_
    split
    · exact initializer_local.bind fun given => padded_local length given
    · exact .pure _
  · refine initializer_local.bind fun given => ?_
    dsimp only
    split
    · exact .pure _
    · exact .fail _ _

theorem dimStatement_local : Local k dimStatement dimStatement :=
  identifier_local.bind fun _ => arrayBytes_local.bind fun _ => (declare_local _ _).bind fun _ =>
    emit_local _

/-! ## The screen -/

theorem foldConstants_local (es : List (Located Expr)) :
    Local k (foldConstants es) (foldConstants es) := by
  induction es with
  | nil => exact .pure _
  | cons e es ih =>
    refine (evaluate_local e.value).bind fun value => ?_
    cases value with
    | error _ => exact .pure _
    | ok value => exact ih.bind fun _ => .pure _

theorem foldPair_local (a b : Located Value) : Local k (foldPair a b) (foldPair a b) := by
  unfold foldPair
  split
  · refine (evaluate_local _).bind fun first => (evaluate_local _).bind fun second => ?_
    split <;> exact .pure _
  · exact .pure _

theorem nextPlace_local : Local k nextPlace nextPlace := by
  refine peekLocated_local.bind fun t => ?_
  cases t with
  | none => exact lastSeen_local
  | some t => exact .pure _

theorem atStatement_local : Local k atStatement atStatement := by
  refine nextPlace_local.bind fun start => expression_local.bind fun column => ?_
  refine comma_local.bind fun _ => expression_local.bind fun row => ?_
  refine (foldPair_local column row).bind fun pair => ?_
  split
  · refine lastSeen_local.bind fun _ => (check_local _ _ _).bind fun c => ?_
    refine (check_local _ _ _).bind fun r => ?_
    dsimp only
    split
    · exact (warn_local _).bind fun _ => emit_local _
    · exact emit_local _
  · exact (pushAll_local _).bind fun _ => emit_local _

theorem immediates_local (es : List (Located Expr)) : Local k (immediates es) (immediates es) := by
  induction es with
  | nil => exact .pure _
  | cons e es ih => exact (immediate_local e _).bind fun _ => ih.bind fun _ => .pure _

theorem areaStatement_local (op : Opcode) : Local k (areaStatement op) (areaStatement op) := by
  refine (listOf_local constant_local 4).bind fun es => ?_
  refine (lastSeen_local.bind fun _ => .pure _).bind fun place => ?_
  refine (foldConstants_local es).bind fun ns => ?_
  cases ns with
  | none => exact (immediates_local es).bind fun _ => emit_local _
  | some ns =>
    refine (checkBytes_local _).bind fun bytes => ?_
    dsimp only
    split
    · exact (warn_local _).bind fun _ => emit_local _
    · exact emit_local _

theorem windowOperand_local (e : Located Expr) : Local k (windowOperand e) (windowOperand e) := by
  refine (evaluate_local e.value).bind fun value => ?_
  cases value with
  | ok value => exact (check_local _ _ _).bind fun _ => .pure _
  | error _ => exact immediate_local _ _

theorem windowStatement_local : Local k windowStatement windowStatement :=
  constant_local.bind fun e => (windowOperand_local e).bind fun _ => emit_local _

theorem blitStatement_local : Local k blitStatement blitStatement := by
  refine (listOf_local expression_local 4).bind fun source => (word_local _).bind fun _ => ?_
  refine (listOf_local expression_local 2).bind fun place => ?_
  refine (foldBytes_local source).bind fun v => ?_
  cases v with
  | none => exact (pushAll_local _).bind fun _ => (pushAll_local _).bind fun _ => emit_local _
  | some values =>
    refine (foldBytes_local place).bind fun spot => ?_
    cases spot with
    | none => exact (pushAll_local _).bind fun _ => emit_local _
    | some spot => exact emit_local _

theorem fillAttrStatement_local : Local k fillAttrStatement fillAttrStatement := by
  refine (listOf_local expression_local 5).bind fun parts => ?_
  refine (foldBytes_local parts).bind fun v => ?_
  cases v with
  | none => exact (pushAll_local _).bind fun _ => emit_local _
  | some values => exact emit_local _

theorem attributeMask_local (attr : Located Value) :
    Local k (attributeMask attr) (attributeMask attr) :=
  .accept rfl (fun _ _ => expression_local) (.pure _)

theorem putAttrStatement_local : Local k putAttrStatement putAttrStatement := by
  refine expression_local.bind fun attr => (attributeMask_local attr).bind fun mask => ?_
  refine (word_local _).bind fun _ => (listOf_local expression_local 2).bind fun place => ?_
  refine (foldBytes_local [attr, mask]).bind fun style => ?_
  cases style with
  | none => exact (pushAll_local _).bind fun _ => (pushAll_local _).bind fun _ => emit_local _
  | some style =>
    refine (foldBytes_local place).bind fun spot => ?_
    cases spot with
    | none => exact (pushAll_local _).bind fun _ => emit_local _
    | some spot => exact emit_local _

theorem firstOption_local : Local k firstOption firstOption :=
  .accept rfl (fun _ _ => expression_local) (lastSeen_local.bind fun _ => .pure _)

theorem menuConfigStatement_local : Local k menuConfigStatement menuConfigStatement := by
  refine (listOf_local expression_local 2).bind fun place => firstOption_local.bind fun first => ?_
  refine (foldBytes_local _).bind fun values => ?_
  cases values with
  | none => exact (pushAll_local _).bind fun _ => emit_local _
  | some values => exact emit_local _

/-! ## Everything else -/

theorem condition_local : Local k condition condition := expression_local.bind push_local

theorem memoryLength_local : Local k memoryLength memoryLength :=
  .accept rfl (fun _ _ => constant_local.bind fun e => immediate_local e _) (.pure _)

theorem memoryRange_local : Local k memoryRange memoryRange :=
  variableReference_local.bind fun _ => memoryLength_local.bind fun _ => .pure _

theorem saveStatement_local : Local k saveStatement saveStatement := by
  have save (slot : Located Value) (n : Nat) (range : List Operand) :=
    (push_local (k := n) slot).bind fun code => emit_local (code ++ [.code .POP_SLOT_SAVE range])
  refine expression_local.bind fun slot => .accept rfl (fun n _ => ?_) ?_
  · exact memoryRange_local.bind (save slot n)
  · exact save slot k wholeMemory

theorem ramStatement_local (op : Opcode) : Local k (ramStatement op) (ramStatement op) := by
  refine atStatementEnd_local.bind fun ended => ?_
  split
  · exact emit_local _
  · exact memoryRange_local.bind fun _ => emit_local _

theorem countStatement_local (op : Opcode) : Local k (countStatement op) (countStatement op) := by
  refine atStatementEnd_local.bind fun ended => ?_
  split
  · exact emit_local _
  · exact constant_local.bind fun e => (immediate_local e _).bind fun _ => emit_local _

theorem constantStatement_local (op : Opcode) (width : Width) :
    Local k (constantStatement op width) (constantStatement op width) :=
  constant_local.bind fun e => (immediate_local e _).bind fun _ => emit_local _

theorem repCharStatement_local : Local k repCharStatement repCharStatement :=
  constant_local.bind fun c => (immediate_local c _).bind fun _ => comma_local.bind fun _ =>
    constant_local.bind fun n => (immediate_local n _).bind fun _ => emit_local _

theorem jumpKind_local : Local k jumpKind jumpKind := by
  refine (next_local _).bind fun t => ?_
  split
  · exact .pure _
  · exact .pure _
  · exact .fail _ _

theorem labelReference_local : Local k labelReference labelReference :=
  identifier_local.bind fun _ => (mention_local _ _).bind fun _ => .pure _

theorem optionStatement_local : Local k optionStatement optionStatement :=
  jumpKind_local.bind fun _ => labelReference_local.bind fun _ => emit_local _

theorem chooseStatement_local : Local k chooseStatement chooseStatement := by
  refine .accept rfl (fun n _ => ?_) (emit_local _)
  refine (word_local _).bind fun _ => constant_local.bind fun e => ?_
  exact (immediate_local e _).bind fun _ => (word_local _).bind fun _ =>
    jumpKind_local.bind fun _ => labelReference_local.bind fun _ =>
    emit_local _

theorem placeLabel_local (name : Located String) : Local k (placeLabel name) (placeLabel name) :=
  (declare_local _ _).bind fun _ => emit_local _

theorem jumpStatement_local (op : Opcode) :
    Local k (do emit [.code op [← labelReference]]) (do emit [.code op [← labelReference]]) :=
  labelReference_local.bind fun _ => emit_local _

theorem popStatement_local (op : Opcode) :
    Local k (do emit ((← condition) ++ [.op op])) (do emit ((← condition) ++ [.op op])) :=
  condition_local.bind fun _ => emit_local _

theorem statementOf_local (block block' : List Keyword → Parser Unit) {w : Keyword}
    (simple : hasBlocks w = false) (place : Location) :
    Local k (statementOf block w place) (statementOf block' w place) := by
  unfold statementOf
  split
  · exact identifier_local.bind placeLabel_local
  · exact jumpStatement_local _
  · exact jumpStatement_local _
  · contradiction
  · contradiction
  · contradiction
  · exact assignment_local
  · exact assignment_local
  · exact declareStatement_local
  · exact constStatement_local
  · exact dimStatement_local
  · exact atStatement_local
  · exact areaStatement_local _
  · exact areaStatement_local _
  · exact windowStatement_local
  · exact blitStatement_local
  · exact fillAttrStatement_local
  · exact putAttrStatement_local
  · exact menuConfigStatement_local
  · exact saveStatement_local
  · exact popStatement_local _
  · exact ramStatement_local _
  · exact ramStatement_local _
  · exact countStatement_local _
  · exact countStatement_local _
  · exact constantStatement_local _ _
  · exact constantStatement_local _ _
  · exact repCharStatement_local
  · exact constantStatement_local _ _
  · exact constantStatement_local _ _
  · exact constantStatement_local _ _
  · exact optionStatement_local
  · exact chooseStatement_local
  · split
    · exact emit_local _
    · exact popStatement_local _
    · exact .fail _ _

/-- A statement that does not begin with the word of a block. -/
theorem statement_local (block block' : List Keyword → Parser Unit) {s : State} (clean : s.Clean)
    (simple : ∀ w place rest, s.pending = ⟨.ok (.keyword w), place⟩ :: rest →
      hasBlocks w = false) :
    LocalAt s (statement block) (statement block') := by
  refine (next_local _ s clean (Nat.le_refl _)).bind fun t s' run => ?_
  obtain ⟨rest, pending, rfl⟩ := next_eq_done clean run
  have clean' := clean_behind pending clean
  obtain ⟨t, place⟩ := t
  cases t with
  | keyword w =>
    exact statementOf_local _ _ (simple w place rest pending) _ _ clean' (Nat.le_refl _)
  | shortLabel name => exact placeLabel_local _ _ clean' (Nat.le_refl _)
  | _ => exact Local.fail _ _ _ clean' (Nat.le_refl _)

end Parser

end Gamebook.Grammar
