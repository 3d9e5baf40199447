import Gamebook.Proofs.Grammar.Expressions
import Gamebook.Proofs.Grammar.LocalStatements

/-!
# Expressions that are read are spelled

Whatever a reader of expressions takes from tokens without errors spells a tree
(`Parser.levelOver_takes`, `Parser.expression_takes`). This is the other half of what
`opens_of_written` says, and it holds of all that is read, whether or not something is wrong with
it.

`Parser.Takes p R` says that `R` holds of the tokens that `p` takes. Parsers in sequence take tokens
one after the other, so `Takes.bind` goes on behind the tokens that were taken already. What only
computes takes none (`Parser.Keeps`).
-/

namespace Gamebook.Grammar

open Constant (Expr Width Operator)

namespace Parser

/-! ## Tokens that are kept -/

/-- If the parser finds something, it leaves the tokens where they are. -/
def Keeps {α : Type} (p : Parser α) : Prop := ∀ s a s', p s = .done a s' → s'.pending = s.pending

section Keeps

variable {α β : Type}

namespace Keeps

protected theorem pure (a : α) : Keeps (pure a : Parser α) := by
  rintro s _ _ ⟨⟩
  rfl

protected theorem fail (e : SyntaxError) (place : Location) : Keeps (fail e place : Parser α) :=
  nofun

protected theorem report (e : SyntaxError) (place : Location) : Keeps (report e place) := by
  rintro s _ _ ⟨⟩
  rfl

protected theorem bind {p : Parser α} {f : α → Parser β} (hp : Keeps p) (hf : ∀ a, Keeps (f a)) :
    Keeps (p >>= f) := by
  intro s b s'' run
  obtain ⟨a, s', first, second⟩ := bind_eq_done.mp run
  exact (hf a s' b s'' second).trans (hp s a s' first)

end Keeps

theorem left_keeps : Keeps left := by
  rintro s _ _ ⟨⟩
  rfl

theorem lastSeen_keeps : Keeps lastSeen := by
  rintro s _ _ ⟨⟩
  rfl

theorem evaluate_keeps (e : Expr) : Keeps (evaluate e) := by
  intro s a s' run
  unfold evaluate at run
  split at run
  · contradiction
  · cases run
    rfl

theorem check_keeps (width : Width) (v : Int64) (place : Location) :
    Keeps (check width v place) := by
  unfold check
  split
  · exact .pure _
  · exact .bind (.report _ _) fun _ => .pure _

theorem immediate_keeps (e : Located Expr) (width : Width) : Keeps (immediate e width) := by
  refine .bind (evaluate_keeps _) fun found => ?_
  split
  · exact .bind (check_keeps _ _ _) fun _ => .pure _
  · exact .pure _
  · exact .bind (.report _ _) fun _ => .pure _

theorem foldNow_keeps (e : Located Expr) (width : Width) : Keeps (foldNow e width) := by
  refine .bind (.bind (evaluate_keeps _) fun found => ?_) fun v => ?_
  · split
    · exact .pure _
    · exact .fail _ _
    · exact .fail _ _
  · split
    · exact .pure _
    · exact .bind (.report _ _) fun _ => .pure _

theorem push_keeps (v : Located Value) : Keeps (push v) := by
  unfold push
  split
  · exact .pure _
  · exact .bind (immediate_keeps _ _) fun _ => .pure _

theorem runtimeBinary_keeps (op : Opcode) (lhs rhs : Located Value) :
    Keeps (runtimeBinary op lhs rhs) :=
  .bind (push_keeps _) fun _ => .bind (push_keeps _) fun _ => .pure _

theorem join_keeps (op : BinaryOperator) (lhs rhs : Located Value) : Keeps (op.join lhs rhs) := by
  cases ho : op.arithmetic? with
  | none =>
    obtain ⟨opcode, -, join⟩ := BinaryOperator.join_of_arithmetic?_none ho
    rw [join]
    exact runtimeBinary_keeps _ _ _
  | some o =>
    rw [(BinaryOperator.join_of_arithmetic? ho).1]
    unfold arithmetic
    split
    · exact .pure _
    · split
      · exact runtimeBinary_keeps _ _ _
      · exact .fail _ _

theorem complement_keeps (v : Located Value) : Keeps (complement v) := by
  unfold complement
  split <;> exact .pure _

theorem negate_keeps (v : Located Value) : Keeps (negate v) :=
  .bind (push_keeps _) fun _ => .pure _

theorem mention_keeps (name : Located String) (kind : Symbol.Kind) : Keeps (mention name kind) := by
  intro s _ s' run
  rw [mention_apply] at run
  cases run
  exact (State.Took.mention rfl (name, kind)).pending

theorem fieldValue_keeps (name : String) (greatest : UInt16) (e : Located Expr) :
    Keeps (fieldValue name greatest e) := by
  refine .bind (foldNow_keeps _ _) fun found => ?_
  split
  · exact .pure _
  · split
    · exact .pure _
    · exact .bind (.report _ _) fun _ => .pure _

theorem randomBetween_keeps (first second : Located Expr) (place : Location) :
    Keeps (randomBetween first second place) := by
  refine .bind (foldNow_keeps _ _) fun low => .bind (foldNow_keeps _ _) fun high => ?_
  split
  · split
    · exact .pure _
    · exact .fail _ _
  · exact .pure _

end Keeps

/-! ## Tokens that are taken -/

/-- If the parser finds something among tokens without errors, `R` holds of it and of the tokens
that are taken. -/
def Takes {α : Type} (p : Parser α) (R : α → List Lexeme → Prop) : Prop :=
  ∀ s a s', s.Clean → p s = .done a s' → ∃ ls, R a ls ∧ s.pending = ls ++ s'.pending

theorem clean_of_append {s s' : State} {ls : List Lexeme} (clean : s.Clean)
    (pending : s.pending = ls ++ s'.pending) : s'.Clean :=
  fun l hl => clean l (pending ▸ List.mem_append_right ls hl)

namespace Takes

variable {α β : Type} {p : Parser α} {f : α → Parser β} {Q Q' : α → List Lexeme → Prop}
  {R : β → List Lexeme → Prop}

protected theorem pure {a : α} (h : Q a []) : Takes (pure a) Q := by
  rintro s _ _ clean ⟨⟩
  exact ⟨[], h, rfl⟩

protected theorem fail (e : SyntaxError) (place : Location) : Takes (fail e place) Q := by
  rintro s _ _ clean ⟨⟩

theorem mono (h : Takes p Q) (imp : ∀ a ls, Q a ls → Q' a ls) : Takes p Q' := by
  intro s a s' clean run
  obtain ⟨ls, taken, pending⟩ := h s a s' clean run
  exact ⟨ls, imp a ls taken, pending⟩

/-- What comes second takes tokens behind those that were taken first. -/
theorem bind (hp : Takes p Q)
    (hf : ∀ a ls, Q a ls → Takes (f a) fun b ls' => R b (ls ++ ls')) : Takes (p >>= f) R := by
  intro s b s'' clean run
  obtain ⟨a, s', first, second⟩ := bind_eq_done.mp run
  obtain ⟨ls, taken, pending⟩ := hp s a s' clean first
  obtain ⟨ls', taken', pending'⟩ := hf a ls taken s' b s'' (clean_of_append clean pending) second
  exact ⟨ls ++ ls', taken', by rw [pending, pending', List.append_assoc]⟩

/-- What only computes takes nothing. -/
theorem keep (hp : Keeps p) (hf : ∀ a, Takes (f a) R) : Takes (p >>= f) R := by
  intro s b s'' clean run
  obtain ⟨a, s', first, second⟩ := bind_eq_done.mp run
  have kept : s.pending = [] ++ s'.pending := (hp s a s' first).symm
  rw [kept]
  exact hf a s' b s'' (clean_of_append clean kept) second

/-- What follows may begin with taking the token that comes next. -/
theorem peek {g : Option Token → Parser β} (nil : Takes (g none) R)
    (token : ∀ t, Takes (g (some t)) R ∨ ∃ r, g (some t) = advance >>= r ∧
      ∀ place, Takes (r (some ⟨t, place⟩)) fun b ls => R b (⟨.ok t, place⟩ :: ls)) :
    Takes (Parser.peek >>= g) R := by
  intro s b s' clean run
  obtain pending | ⟨t, place, rest, pending⟩ := clean.cases
  · rw [bind_of_done (peek_nil pending)] at run
    exact nil s b s' clean run
  · rw [bind_of_done (peek_token pending)] at run
    obtain left | ⟨r, taking, behind⟩ := token t
    · exact left s b s' clean run
    · rw [taking, bind_of_done (advance_token pending)] at run
      obtain ⟨ls, taken, rest_eq⟩ := behind place _ b s' (clean_behind pending clean) run
      have rest_eq : rest = ls ++ s'.pending := rest_eq
      exact ⟨_, taken, by rw [pending, rest_eq, List.cons_append]⟩

theorem accept {t : Token} {g : Bool → Parser β}
    (yes : ∀ place, Takes (g true) fun b ls => R b (⟨.ok t, place⟩ :: ls))
    (no : Takes (g false) R) : Takes (Parser.accept t >>= g) R := by
  simp only [Parser.accept, bind_assoc]
  refine .peek (by simpa using no) fun t' => ?_
  by_cases same : t' = t
  · subst same
    exact .inr ⟨fun _ => g true, by simp, yes⟩
  · exact .inl (by simpa [same] using no)

theorem next {expected : String} {g : Located Token → Parser β}
    (h : ∀ t, Takes (g t) fun b ls => R b (⟨.ok t.value, t.place⟩ :: ls)) :
    Takes (Parser.next expected >>= g) R := by
  intro s b s'' clean run
  obtain ⟨t, s', first, second⟩ := bind_eq_done.mp run
  obtain ⟨rest, pending, rfl⟩ := next_eq_done clean first
  obtain ⟨ls, taken, rest_eq⟩ := h t _ b s'' (clean_behind pending clean) second
  have rest_eq : rest = ls ++ s''.pending := rest_eq
  exact ⟨_, taken, by rw [pending, rest_eq, List.cons_append]⟩

theorem expect {t : Token} {expected : String} {g : Unit → Parser β}
    (h : ∀ place, Takes (g ()) fun b ls => R b (⟨.ok t, place⟩ :: ls)) :
    Takes (Parser.expect t expected >>= g) R := by
  intro s b s' clean run
  obtain ⟨_, s₁, first, second⟩ := bind_eq_done.mp run
  unfold Parser.expect at first
  obtain pending | ⟨t', place, rest, pending⟩ := clean.cases
  · rw [bind_of_done (peekLocated_nil pending)] at first
    contradiction
  · rw [bind_of_done (peekLocated_token pending)] at first
    by_cases same : t' = t
    · subst same
      simp only [if_true] at first
      rw [bind_of_done (advance_token pending)] at first
      cases first
      obtain ⟨ls, taken, rest_eq⟩ := h place _ b s' (clean_behind pending clean) second
      have rest_eq : rest = ls ++ s'.pending := rest_eq
      exact ⟨_, taken, by rw [pending, rest_eq, List.cons_append]⟩
    · simp only [same, if_false] at first
      contradiction

end Takes

/-! ## Operators -/

/-- What the parser takes spells a tree at this level. -/
abbrev TakesTree {α : Type} (level : Level) (p : Parser α) : Prop :=
  Takes p fun _ ls => ∃ t, Written level t ls

theorem TakesTree.loosen {α : Type} {level : Level} {p : Parser α}
    (h : TakesTree level.tighter p) : TakesTree level p :=
  h.mono fun _ _ ⟨t, written⟩ => ⟨t, .tighter written⟩

/-- The operators of a level are operators between two operands. -/
theorem exists_operator {level : Level} {tok : Token} {join : Join}
    (h : level.operators tok = some join) :
    ∃ op : BinaryOperator, op.level = level ∧ op.token = tok ∧ op.join = join := by
  cases level <;>
    simp only [Level.operators, orLevel, andLevel, bitOrLevel, bitAndLevel, shiftLevel, sumLevel,
      productLevel] at h
  all_goals try contradiction
  all_goals split at h <;> cases h
  · exact ⟨.or, rfl, rfl, rfl⟩
  · exact ⟨.and, rfl, rfl, rfl⟩
  · exact ⟨.bitOr, rfl, rfl, rfl⟩
  · exact ⟨.bitAnd, rfl, rfl, rfl⟩
  · exact ⟨.shiftLeft, rfl, rfl, rfl⟩
  · exact ⟨.shiftRight, rfl, rfl, rfl⟩
  · exact ⟨.add, rfl, rfl, rfl⟩
  · exact ⟨.sub, rfl, rfl, rfl⟩
  · exact ⟨.mul, rfl, rfl, rfl⟩
  · exact ⟨.div, rfl, rfl, rfl⟩

theorem exists_comparison {tok : Token} {opcode : Opcode} (h : comparison? tok = some opcode) :
    ∃ op : Comparison, op.token = tok := by
  unfold comparison? at h
  split at h
  · exact ⟨.equal, rfl⟩
  · exact ⟨.notEqual, rfl⟩
  · exact ⟨.lessEqual, rfl⟩
  · exact ⟨.greaterEqual, rfl⟩
  · exact ⟨.less, rfl⟩
  · exact ⟨.greater, rfl⟩
  · contradiction

section Levels

variable {operand : Parser (Located Value)} {level : Level}

/-- A chain goes on with what spells a tree together with what came before. -/
theorem chainFrom_takes (h : TakesTree level.tighter operand) (fuel : Nat) (lhs : Located Value)
    {t : Tree} {before : List Lexeme} (written : Written level t before) :
    Takes (chainFrom operand level.operators fuel lhs)
      fun _ ls => ∃ t', Written level t' (before ++ ls) := by
  have ended : Takes (pure lhs) fun (_ : Located Value) ls =>
      ∃ t', Written level t' (before ++ ls) :=
    .pure ⟨t, by simpa using written⟩
  induction fuel generalizing lhs t before with
  | zero => exact ended
  | succ fuel ih =>
    refine .peek ended fun tok => ?_
    rw [Option.bind_some]
    cases hop : level.operators tok with
    | none => exact .inl ended
    | some join =>
      obtain ⟨op, rfl, rfl, rfl⟩ := exists_operator hop
      refine .inr ⟨_, rfl, fun place => .bind h fun rhs ls ⟨b, writtenB⟩ => ?_⟩
      refine .keep (join_keeps op lhs rhs) fun v => ?_
      have whole := Written.binary op place written writtenB
      refine (ih v whole (.pure ⟨_, by simpa using whole⟩)).mono fun _ ls' ⟨t', longer⟩ => ?_
      exact ⟨t', by simpa using longer⟩

theorem chain_takes (h : TakesTree level.tighter operand) :
    TakesTree level (chain operand level.operators) := by
  refine .bind h fun v ls ⟨t, written⟩ => ?_
  exact .keep left_keeps fun n => chainFrom_takes h n v (.tighter written)

/-- Signs in front of an operand. -/
theorem prefixed_takes {sign : Token} {wrap : Located Value → Parser Value} {build : Tree → Tree}
    (kept : ∀ v, Keeps (wrap v)) (h : TakesTree level operand)
    (signed : ∀ p t ls, Written level t ls → Written level (build t) (⟨.ok sign, p⟩ :: ls)) :
    TakesTree level (left >>= prefixed sign wrap operand) := by
  refine .keep left_keeps fun fuel => ?_
  induction fuel with
  | zero => exact h
  | succ fuel ih =>
    refine .accept (fun place => .keep lastSeen_keeps fun start => ?_) h
    refine .bind ih fun inner ls ⟨t, written⟩ => .keep (kept inner) fun v => .pure ?_
    exact ⟨build t, by simpa using signed place t ls written⟩

theorem comparisonOver_takes (h : TakesTree .bitOr (arithmeticOver operand)) :
    TakesTree .comparison (comparisonOver operand) := by
  refine .bind h fun lhs las ⟨a, writtenA⟩ => ?_
  have alone : Takes (pure lhs) fun (_ : Located Value) ls =>
      ∃ t, Written .comparison t (las ++ ls) :=
    .pure ⟨a, by rw [List.append_nil]; exact .tighter writtenA⟩
  refine .peek alone fun tok => ?_
  rw [Option.bind_some]
  cases hop : comparison? tok with
  | none => exact .inl alone
  | some opcode =>
    obtain ⟨op, rfl⟩ := exists_comparison hop
    refine .inr ⟨_, rfl, fun place => .bind h fun rhs lbs ⟨b, writtenB⟩ => ?_⟩
    rw [← bind_pure (runtimeBinary opcode lhs rhs)]
    refine .keep (runtimeBinary_keeps _ _ _) fun v => .pure ?_
    exact ⟨_, by simpa using Written.compare op place writtenA writtenB⟩

/-- From the reader of what operators stand between, the readers of all levels. -/
theorem levelOver_takes (h : TakesTree .primary operand) (level : Level) :
    TakesTree level (levelOver operand level) := by
  have complement : TakesTree .complement (levelOver operand .complement) :=
    prefixed_takes complement_keeps (.loosen h) fun p _ _ => .complement p
  have product : TakesTree .product (levelOver operand .product) := chain_takes complement
  have sum : TakesTree .sum (levelOver operand .sum) := chain_takes product
  have shift : TakesTree .shift (levelOver operand .shift) := chain_takes sum
  have bitAnd : TakesTree .bitAnd (levelOver operand .bitAnd) := chain_takes shift
  have bitOr : TakesTree .bitOr (levelOver operand .bitOr) := chain_takes bitAnd
  have comparison : TakesTree .comparison (levelOver operand .comparison) :=
    comparisonOver_takes bitOr
  have not : TakesTree .not (levelOver operand .not) :=
    prefixed_takes negate_keeps (.loosen comparison) fun p _ _ => .negate p
  have and : TakesTree .and (levelOver operand .and) := chain_takes not
  have or : TakesTree .or (levelOver operand .or) := chain_takes and
  cases level with
  | or => exact or
  | and => exact and
  | not => exact not
  | comparison => exact comparison
  | bitOr => exact bitOr
  | bitAnd => exact bitAnd
  | shift => exact shift
  | sum => exact sum
  | product => exact product
  | complement => exact complement
  | primary => exact h

end Levels

/-! ## What operators stand between -/

section Primaries

variable {operand : Parser (Located Value)}

theorem constantOver_takes (h : TakesTree .primary operand) :
    TakesTree .bitOr (constantOver operand) := by
  refine .bind (levelOver_takes h .bitOr) fun v ls written => ?_
  obtain ⟨value, place⟩ := v
  cases value with
  | constant e => exact .pure (by simpa using written)
  | runtime code => exact .fail _ _

theorem indexOver_takes (h : TakesTree .primary operand) :
    Takes (indexOver operand) fun _ ls => ∃ index p q ils, Written .bitOr index ils ∧
      ls = ⟨.ok .openSquare, p⟩ :: (ils ++ [⟨.ok .closeSquare, q⟩]) := by
  refine .expect fun p => .bind (constantOver_takes h) fun e ils ⟨index, written⟩ => ?_
  exact .expect fun q => .pure ⟨index, p, q, ils, written, rfl⟩

/-- The token is the one for the variable. -/
theorem variableFrom_takes (t : Located Token) : Takes (variableFrom t) fun v ls =>
    ls = [] ∧ t.value = variableToken v.base := by
  obtain ⟨token, place⟩ := t
  cases token with
  | number n =>
    unfold variableFrom
    dsimp only
    split
    · next small =>
      refine .pure ⟨rfl, ?_⟩
      change Token.number n = .number n.toUInt8.toNat
      rw [Nat.toUInt8, UInt8.toNat_ofNat', Nat.mod_eq_of_lt (by omega)]
    · exact .fail _ _
  | identifier name => exact .keep (mention_keeps _ _) fun _ => .pure ⟨rfl, rfl⟩
  | _ => exact .fail _ _

/-- A variable is spelled with or without a displacement. -/
theorem variableOver_takes (h : TakesTree .primary operand) :
    Takes (variableOver operand) fun v ls =>
      ∃ place index, VariableWritten ⟨v.base, place⟩ index ls := by
  refine .next fun t => .bind (variableFrom_takes t) fun v _ ⟨nil, token⟩ => ?_
  subst nil
  have alone : Takes (pure v) fun (v : Variable) ls =>
      ∃ place index, VariableWritten ⟨v.base, place⟩ index
        (⟨.ok t.value, t.place⟩ :: ([] ++ ls)) :=
    .pure ⟨t.place, none, by rw [token]; exact .alone⟩
  refine .peek alone fun next => .inl ?_
  split
  · refine .bind (indexOver_takes h) fun e _ ⟨index, p, q, ils, written, bracketed⟩ => ?_
    refine .keep lastSeen_keeps fun seen => .keep (foldNow_keeps _ _) fun n => ?_
    have whole : VariableWritten ⟨v.base, t.place⟩ (some index) _ := .displaced p q written
    subst bracketed
    split <;> exact .pure ⟨_, _, by simpa [token, Variable.offset] using whole⟩
  · exact alone

/-- What is asked of a variable. -/
theorem written_access {access : Access} {signs ls : List Lexeme} {base : Located VariableBase}
    (hsigns : access.Written signs) (h : ∃ index, VariableWritten base index ls) :
    ∃ t, Written .primary t (signs ++ ls) := by
  obtain ⟨index, spelled⟩ := h
  cases spelled with
  | alone => exact ⟨_, .reference base hsigns⟩
  | displaced p q written => exact ⟨_, .displaced base p q hsigns written⟩

theorem attributeOver_takes (h : TakesTree .primary operand) (mask : Bool) (place : Location) :
    Takes (attributeOver operand mask) fun _ ls =>
      ∃ t, Written .primary t (⟨.ok (.keyword (attributeKeyword mask)), place⟩ :: ls) := by
  have field (name : String) (greatest : UInt16) {β : Type} {g : UInt16 → Parser β}
      {R : β → List Lexeme → Prop}
      (rest : ∀ v t ls, Written .bitOr t ls → Takes (g v) fun b ls' => R b (ls ++ ls')) :
      Takes (constantOver operand >>= fun e => fieldValue name greatest e >>= g) R :=
    .bind (constantOver_takes h) fun e ls ⟨t, written⟩ =>
      .keep (fieldValue_keeps _ _ _) fun v => rest v t ls written
  refine .expect fun p₂ => ?_
  rw [fields_eq]
  simp only [fieldsOver, bind_assoc, List.isEmpty_cons, List.isEmpty_nil, Bool.false_eq_true,
    if_false, if_true, pure_bind]
  refine field _ _ fun v₁ a las writtenA => .expect fun p₃ => ?_
  refine field _ _ fun v₂ b lbs writtenB => .expect fun p₄ => ?_
  refine field _ _ fun v₃ c lcs writtenC => .expect fun p₅ => ?_
  refine field _ _ fun v₄ d lds writtenD => .expect fun p₆ => .pure ?_
  exact ⟨_, .colours mask place p₂ p₃ p₄ p₅ p₆ writtenA writtenB writtenC writtenD⟩

theorem randomOver_takes (h : TakesTree .primary operand) (place : Location) :
    Takes (randomOver operand) fun _ ls =>
      ∃ t, Written .primary t (⟨.ok (.keyword .RANDOM), place⟩ :: ls) := by
  refine .expect fun p₂ => .accept (fun p₃ => .pure ⟨_, .query .random place p₂ p₃⟩) ?_
  refine .bind (constantOver_takes h) fun first las ⟨a, writtenA⟩ => .accept (fun p₃ => ?_) ?_
  · refine .bind (constantOver_takes h) fun second lbs ⟨b, writtenB⟩ => .expect fun p₄ => ?_
    refine .keep lastSeen_keeps fun seen => ?_
    rw [← bind_pure (randomBetween _ _ _)]
    refine .keep (randomBetween_keeps _ _ _) fun v => .pure ?_
    exact ⟨_, .between place p₂ p₃ p₄ writtenA writtenB⟩
  · refine .expect fun p₃ => .keep (immediate_keeps _ _) fun limit => .pure ?_
    exact ⟨_, .limited .random place p₂ p₃ writtenA⟩

theorem inkey_takes (h : TakesTree .primary operand) (place : Location) :
    Takes (primaryFrom operand ⟨.keyword .INKEY, place⟩) fun _ ls =>
      ∃ t, Written .primary t (⟨.ok (.keyword .INKEY), place⟩ :: ls) := by
  have limited (p₂ : Location) : Takes (constantOver operand >>= fun e => immediate e .byte >>=
      fun timeout => closeParen >>= fun _ => pure (Value.runtime [.code .PUSH_INKEY [timeout]]))
      fun (_ : Value) ls => ∃ t, Written .primary t
        (⟨.ok (.keyword .INKEY), place⟩ :: ⟨.ok .openParen, p₂⟩ :: ls) := by
    refine .bind (constantOver_takes h) fun e ls ⟨t, written⟩ => ?_
    refine .keep (immediate_keeps _ _) fun _ => ?_
    exact .expect fun p₃ => .pure ⟨_, .limited .inkey place p₂ p₃ written⟩
  refine .expect fun p₂ => ?_
  simp only [timeoutOver, bind_assoc]
  refine .peek (by simpa using limited p₂) fun tok => ?_
  by_cases closed : tok = .closeParen
  · subst closed
    refine .inl ?_
    simp only [if_true, pure_bind]
    exact .expect fun p₃ => .pure ⟨_, .query .inkey place p₂ p₃⟩
  · refine .inl ?_
    simpa [closed] using limited p₂

theorem exists_query {k : Keyword} {i : Instruction} (h : query? k = some i) :
    ∃ q : Query, q.keyword = k := by
  unfold query? at h
  split at h
  · exact ⟨.xPos, rfl⟩
  · exact ⟨.yPos, rfl⟩
  · exact ⟨.isDisk, rfl⟩
  · exact ⟨.saveResult, rfl⟩
  · exact ⟨.numOptions, rfl⟩
  · exact ⟨.optionSel, rfl⟩
  · exact ⟨.optionVal, rfl⟩
  · contradiction

theorem exists_pairing {k : Keyword} {op : Opcode} (h : pairing? k = some op) :
    ∃ f : Pairing, f.keyword = k := by
  unfold pairing? at h
  split at h
  · exact ⟨.min, rfl⟩
  · exact ⟨.max, rfl⟩
  · exact ⟨.getAttr, rfl⟩
  · contradiction

/-- The words that are asked with or without arguments. -/
theorem keyword_takes (h : TakesTree .primary operand) (k : Keyword) (place : Location) :
    Takes (primaryFrom operand ⟨.keyword k, place⟩) fun _ ls =>
      ∃ t, Written .primary t (⟨.ok (.keyword k), place⟩ :: ls) := by
  have whole := levelOver_takes h .or
  unfold primaryFrom
  split
  · next is => cases is
  · next is => cases is
  · next is => cases is
  · next is => cases is
  · next is =>
    cases is
    exact randomOver_takes h place
  · next is =>
    cases is
    exact inkey_takes h place
  · next is =>
    cases is
    exact attributeOver_takes h false place
  · next is =>
    cases is
    exact attributeOver_takes h true place
  · next is =>
    cases is
    split
    · next asked =>
      obtain ⟨q, rfl⟩ := exists_query asked
      exact .expect fun p₂ => .expect fun p₃ => .pure ⟨_, .query q place p₂ p₃⟩
    · next asked =>
      obtain ⟨f, rfl⟩ := exists_pairing asked
      refine .expect fun p₂ => .bind whole fun lhs las ⟨a, writtenA⟩ => .expect fun p₃ => ?_
      refine .bind whole fun rhs lbs ⟨b, writtenB⟩ => .expect fun p₄ => ?_
      refine .keep (push_keeps _) fun _ => .keep (push_keeps _) fun _ => .pure ?_
      exact ⟨_, .pairing f place p₂ p₃ p₄ writtenA writtenB⟩
    · exact .fail _ _
  · exact .fail _ _

theorem indirection_takes (h : TakesTree .primary operand) (place : Location) :
    Takes (primaryFrom operand ⟨.indirection, place⟩) fun _ ls =>
      ∃ t, Written .primary t (⟨.ok .indirection, place⟩ :: ls) := by
  have content : Takes (variableOver operand >>= fun v =>
      pure (Value.runtime [.code .PUSH_I [.variable v]]))
      fun (_ : Value) ls => ∃ t, Written .primary t (⟨.ok .indirection, place⟩ :: ls) :=
    .bind (variableOver_takes h) fun v ls ⟨_, spelled⟩ =>
      .pure (by simpa using written_access (.content place) spelled)
  refine .peek content fun tok => ?_
  cases tok with
  | indirection =>
    refine .inr ⟨_, rfl, fun p => .bind (variableOver_takes h) fun v ls ⟨_, spelled⟩ => .pure ?_⟩
    simpa using written_access (.number place p) spelled
  | openParen =>
    refine .inr ⟨_, rfl, fun p => .bind (levelOver_takes h .or) fun v ls ⟨t, written⟩ => ?_⟩
    refine .expect fun q => .keep (push_keeps _) fun _ => .pure ?_
    exact ⟨_, .indirect place p q written⟩
  | _ => exact .inl content

theorem primaryFrom_takes (h : TakesTree .primary operand) (t : Located Token) :
    Takes (primaryFrom operand t) fun _ ls =>
      ∃ tree, Written .primary tree (⟨.ok t.value, t.place⟩ :: ls) := by
  obtain ⟨token, place⟩ := t
  cases token with
  | number n => exact .pure ⟨_, .number n place⟩
  | identifier name =>
    have constant : Takes (mention ⟨name, place⟩ .constant >>= fun _ =>
        pure (Value.constant (.named name))) fun (_ : Value) ls =>
          ∃ tree, Written .primary tree (⟨.ok (.identifier name), place⟩ :: ls) :=
      .keep (mention_keeps _ _) fun _ => .pure ⟨_, .constant ⟨name, place⟩⟩
    rw [primaryFrom_identifier]
    refine .peek constant fun tok => .inl ?_
    split
    · refine .keep (mention_keeps _ _) fun _ => ?_
      refine .bind (indexOver_takes h) fun e _ ⟨index, p, q, ils, written, bracketed⟩ => .pure ?_
      subst bracketed
      exact ⟨_, by simpa using Written.element ⟨name, place⟩ p q written⟩
    · exact constant
  | indirection => exact indirection_takes h place
  | openParen =>
    refine .bind (levelOver_takes h .or) fun v ls ⟨t, written⟩ => .expect fun q => .pure ?_
    exact ⟨_, .parentheses place q written⟩
  | keyword k => exact keyword_takes h k place
  | _ => exact .fail _ _

theorem primary_takes (depth : Nat) : TakesTree .primary (primary depth) := by
  induction depth with
  | zero => exact .keep lastSeen_keeps fun _ => .fail _ _
  | succ depth ih =>
    refine .next fun t => .bind (primaryFrom_takes ih t) fun v ls ⟨tree, written⟩ => ?_
    exact .keep lastSeen_keeps fun _ => .pure ⟨tree, by simpa using written⟩

end Primaries

/-- An expression is spelled by a tree. -/
theorem expression_takes : TakesTree .or expression :=
  .keep left_keeps fun n => levelOver_takes (primary_takes (n + 1)) .or

end Parser

end Gamebook.Grammar
