import Gamebook.Proofs.Grammar.LocalStatements

/-!
# What holds of all parsers

A property of parsers that is to hold throughout the grammar has to carry over from the parts of a
parser to the whole. `Conduct` is such a property, with what has to be known for it: that it holds
where neither tokens nor names are touched, that it carries over to parsers in sequence, and what it
asks of a parser that reads a token or names something. The pass over the parsers of the grammar is
made here, once for all conducts, up to statements without blocks (`Parser.statementOf_obeys`).

A conduct may rule out that certain tokens are taken, but only words that begin assignments, and it
may take for granted that the tokens read are those of a script. Then it has to hold of a use of a
name only if the name is a token of that script.
-/

namespace Gamebook.Grammar

open Constant (Expr Width Operator)

/-- The word begins an assignment. -/
def assigns : Token → Bool
  | .keyword .SET | .keyword .LET => true
  | _ => false

namespace Parser

/-- However the parser ends, it leaves the tokens and the names alone. -/
def Leaves {α : Type} (p : Parser α) : Prop :=
  ∀ s : State, match p s with
    | .done _ s' | .failed _ s' => s'.pending = s.pending ∧ s'.symbols = s.symbols
    | .overflowed => True

end Parser

/-- A property of parsers that carries over to what is made of them. -/
structure Conduct where
  Holds {α : Type} : Parser α → Prop
  /-- The tokens that may be taken. -/
  takes : Token → Prop
  /-- The tokens that there are to read. -/
  script : Located Token → Prop
  takes_of_not_assigns {t : Token} : assigns t = false → takes t
  leaves {α : Type} {p : Parser α} : p.Leaves → Holds p
  bind {α β : Type} {p : Parser α} {g : α → Parser β} : Holds p → (∀ a, Holds (g a)) →
    Holds (p >>= g)
  look (n : Nat) : Holds (Parser.update (State.look n))
  declare (name : Located String) (what : Symbol.Declaration) : Holds (Parser.declare name what)
  mention {name : Located String} (kind : Symbol.Kind) :
    script ⟨.identifier name.value, name.place⟩ → Holds (Parser.mention name kind)
  /-- What comes next may be taken once it was looked at. -/
  peekLocated {β : Type} {g : Option (Located Token) → Parser β} : Holds (g none) →
    (∀ t, Holds (g (some t)) ∨
      takes t.value ∧ ∃ r, g (some t) = Parser.advance >>= r ∧ ∀ found, Holds (r found)) →
    Holds (Parser.peekLocated >>= g)
  /-- A token that is not to be taken may only be taken if nothing is found behind it. -/
  next {β : Type} {expected : String} {g : Located Token → Parser β} :
    (∀ t, script t → Holds (g t)) → (∀ t, takes t.value ∨ ∀ s b s', g t s ≠ .done b s') →
    Holds (Parser.next expected >>= g)

namespace Parser

/-- The parser has the property. -/
def Obeys {α : Type} (J : Conduct) (p : Parser α) : Prop := J.Holds p

variable {J : Conduct}

section Rules

variable {α β : Type} {p : Parser α} {g : α → Parser β}

namespace Obeys

protected theorem pure (a : α) : Obeys J (pure a : Parser α) := J.leaves fun _ => ⟨rfl, rfl⟩

protected theorem fail (e : SyntaxError) (place : Location) : Obeys J (fail e place : Parser α) :=
  J.leaves fun _ => ⟨rfl, rfl⟩

protected theorem bind (hp : Obeys J p) (hg : ∀ a, Obeys J (g a)) : Obeys J (p >>= g) :=
  J.bind hp hg

/-- What follows may depend on the token that comes next, and may begin with taking it. -/
theorem peek {g : Option Token → Parser β} (nil : Obeys J (g none))
    (token : ∀ t, Obeys J (g (some t)) ∨
      J.takes t ∧ ∃ r, g (some t) = advance >>= r ∧ ∀ found, Obeys J (r found)) :
    Obeys J (Parser.peek >>= g) := by
  rw [Parser.peek, bind_assoc]
  exact J.peekLocated nil fun t => token t.value

/-- A token is read that begins no assignment, or nothing is found behind it. -/
theorem next {expected : String} {g : Located Token → Parser β}
    (refused : ∀ t, assigns t.value = true → ∀ s b s', g t s ≠ .done b s')
    (hg : ∀ t, J.script t → Obeys J (g t)) : Obeys J (Parser.next expected >>= g) := by
  refine J.next hg fun t => ?_
  cases other : assigns t.value with
  | true => exact .inr (refused t other)
  | false => exact .inl (J.takes_of_not_assigns other)

end Obeys

end Rules

/-! ## Tokens, names and code -/

section Primitives

variable {α : Type} {item : Parser α}

theorem peekLocated_obeys : Obeys J peekLocated := by
  rw [← bind_pure peekLocated]
  exact J.peekLocated (Obeys.pure _) fun t => .inl (Obeys.pure _)

theorem peek_obeys : Obeys J peek := peekLocated_obeys.bind fun _ => .pure _

theorem lastSeen_obeys : Obeys J lastSeen := J.leaves fun _ => ⟨rfl, rfl⟩

theorem left_obeys : Obeys J left := J.leaves fun _ => ⟨rfl, rfl⟩

theorem report_obeys (e : SyntaxError) (place : Location) : Obeys J (report e place) :=
  J.leaves fun _ => ⟨rfl, rfl⟩

theorem warn_obeys (text : String) : Obeys J (warn text) := J.leaves fun _ => ⟨rfl, rfl⟩

theorem emit_obeys (code : List Instruction) : Obeys J (emit code) := J.leaves fun _ => ⟨rfl, rfl⟩

theorem declare_obeys (name : Located String) (what : Symbol.Declaration) :
    Obeys J (declare name what) := J.declare name what

theorem mention_obeys {name : Located String} (kind : Symbol.Kind)
    (named : J.script ⟨.identifier name.value, name.place⟩) : Obeys J (mention name kind) :=
  J.mention kind named

theorem accept_obeys {t : Token} (other : assigns t = false) : Obeys J (accept t) := by
  refine .peek (.pure _) fun t' => ?_
  by_cases same : t' = t
  · refine .inr ⟨same ▸ J.takes_of_not_assigns other, fun _ => pure true, ?_, fun _ => .pure _⟩
    rw [if_pos (congrArg some same)]
  · left
    rw [if_neg (by simpa using same)]
    exact .pure _

/-- What follows may depend on whether a token is next that begins no assignment. -/
theorem Obeys.accept {β : Type} {t : Token} {p q : Parser β} (other : assigns t = false)
    (hp : Obeys J p) (hq : Obeys J q) :
    Obeys J (Parser.accept t >>= fun found => if found = true then p else q) := by
  refine (accept_obeys other).bind fun found => ?_
  split
  · exact hp
  · exact hq

theorem expect_obeys {t : Token} (other : assigns t = false) (expected : String) :
    Obeys J (expect t expected) := by
  refine J.peekLocated (lastSeen_obeys.bind fun _ => .fail _ _) fun found => ?_
  by_cases same : found.value = t
  · refine .inr ⟨same ▸ J.takes_of_not_assigns other, fun _ => pure (), ?_, fun _ => Obeys.pure _⟩
    simp only [if_pos same]
  · left
    simp only [if_neg same]
    exact Obeys.fail _ _

theorem word_obeys {w : Keyword} (other : assigns (.keyword w) = false) : Obeys J (word w) :=
  expect_obeys other _

theorem comma_obeys : Obeys J comma := expect_obeys rfl _

theorem openParen_obeys : Obeys J openParen := expect_obeys rfl _

theorem closeParen_obeys : Obeys J closeParen := expect_obeys rfl _

theorem eq_keyword_of_assigns {t : Token} (h : assigns t = true) :
    t = .keyword .SET ∨ t = .keyword .LET := by
  unfold assigns at h
  split at h
  · exact .inl rfl
  · exact .inr rfl
  · contradiction

/-- A name is read, and it is a token of the script. -/
theorem Obeys.identifier {β : Type} {g : Located String → Parser β}
    (hg : ∀ name, J.script ⟨.identifier name.value, name.place⟩ → Obeys J (g name)) :
    Obeys J (Parser.identifier >>= g) := by
  rw [Parser.identifier, bind_assoc]
  refine .next (fun t assigned s b s' run => ?_) fun t read => ?_
  · obtain h | h := eq_keyword_of_assigns assigned <;> rw [h] at run <;> contradiction
  · split
    · next name spelled =>
      rw [pure_bind]
      exact hg ⟨name, t.place⟩ (spelled ▸ read)
    · exact .fail _ _

theorem atStatementEnd_obeys : Obeys J atStatementEnd :=
  peek_obeys.bind fun t => by split <;> exact .pure _

theorem listOf_obeys (h : Obeys J item) (n : Nat) : Obeys J (listOf item n) := by
  induction n using listOf.induct with
  | case1 => exact .pure _
  | case2 => exact h.bind fun _ => .pure _
  | case3 n ih => exact h.bind fun _ => comma_obeys.bind fun _ => ih.bind fun _ => .pure _

theorem commaTail_obeys (h : Obeys J item) (n : Nat) : Obeys J (commaTail item n) := by
  induction n with
  | zero => exact .pure _
  | succ n ih =>
    exact .accept rfl (h.bind fun _ => ih.bind fun _ => .pure _) (.pure _)

theorem commaSeparated_obeys (h : Obeys J item) : Obeys J (commaSeparated item) :=
  h.bind fun _ => left_obeys.bind fun n => (commaTail_obeys h n).bind fun _ => .pure _

end Primitives

/-! ## Values -/

theorem evaluate_obeys (e : Expr) : Obeys J (evaluate e) := J.leaves fun s => by
  unfold evaluate
  cases e.eval s.symbols.value? with
  | ok value => exact ⟨rfl, rfl⟩
  | error e => cases e <;> trivial

theorem check_obeys (width : Width) (value : Int64) (place : Location) :
    Obeys J (check width value place) := by
  unfold check
  split
  · exact .pure _
  · exact (report_obeys _ _).bind fun _ => .pure _

theorem immediate_obeys (e : Located Expr) (width : Width) : Obeys J (immediate e width) := by
  refine (evaluate_obeys e.value).bind fun result => ?_
  split
  · exact (check_obeys _ _ _).bind fun _ => .pure _
  · exact .pure _
  · exact (report_obeys _ _).bind fun _ => .pure _

theorem known_obeys (e : Located Expr) : Obeys J (known e) := by
  refine (evaluate_obeys e.value).bind fun result => ?_
  split
  · exact .pure _
  · exact .fail _ _
  · exact .fail _ _

theorem foldNow_obeys (e : Located Expr) (width : Width) : Obeys J (foldNow e width) := by
  refine (known_obeys e).bind fun value => ?_
  split
  · exact .pure _
  · exact (report_obeys _ _).bind fun _ => .pure _

theorem push_obeys (v : Located Value) : Obeys J (push v) := by
  unfold push
  split
  · exact .pure _
  · exact (immediate_obeys _ _).bind fun _ => .pure _

theorem pushAll_obeys (vs : List (Located Value)) : Obeys J (pushAll vs) := by
  induction vs with
  | nil => exact .pure _
  | cons v vs ih => exact (push_obeys v).bind fun _ => ih.bind fun _ => .pure _

theorem foldAll_obeys (vs : List (Located Value)) : Obeys J (foldAll vs) := by
  induction vs with
  | nil => exact .pure _
  | cons v vs ih =>
    unfold foldAll
    split
    · exact .pure _
    · refine (evaluate_obeys _).bind fun value => ?_
      cases value with
      | error e => exact .pure _
      | ok value => exact ih.bind fun _ => .pure _

theorem checkBytes_obeys (vs : List (Located Int64)) : Obeys J (checkBytes vs) := by
  induction vs with
  | nil => exact .pure _
  | cons v vs ih => exact (check_obeys _ _ _).bind fun _ => ih.bind fun _ => .pure _

theorem foldBytes_obeys (vs : List (Located Value)) : Obeys J (foldBytes vs) := by
  refine (foldAll_obeys vs).bind fun r => ?_
  cases r with
  | none => exact .pure _
  | some values => exact (checkBytes_obeys values).bind fun _ => .pure _

theorem runtimeBinary_obeys (op : Opcode) (lhs rhs : Located Value) :
    Obeys J (runtimeBinary op lhs rhs) :=
  (push_obeys lhs).bind fun _ => (push_obeys rhs).bind fun _ => .pure _

theorem arithmetic_obeys (op : Operator) (lhs rhs : Located Value) :
    Obeys J (arithmetic op lhs rhs) := by
  unfold arithmetic
  dsimp only
  split
  · exact .pure _
  · split
    · exact runtimeBinary_obeys _ _ _
    · exact .fail _ _

theorem negate_obeys (v : Located Value) : Obeys J (negate v) :=
  (push_obeys v).bind fun _ => .pure _

theorem complement_obeys (v : Located Value) : Obeys J (complement v) := by
  unfold complement
  split <;> exact .pure _

/-! ## Operators -/

theorem join_obeys {level : Level} {t : Token} {join : Join} (h : level.operators t = some join)
    (lhs rhs : Located Value) : Obeys J (join lhs rhs) := by
  obtain ⟨op, rfl⟩ | ⟨op, rfl⟩ := join_of_operators h
  · exact runtimeBinary_obeys op lhs rhs
  · exact arithmetic_obeys op lhs rhs

theorem assigns_of_infixLevel? {t : Token} {level : Level} (h : infixLevel? t = some level) :
    assigns t = false := by
  refine Bool.eq_false_iff.mpr fun assigned => ?_
  obtain rfl | rfl := eq_keyword_of_assigns assigned <;> contradiction

theorem assigns_of_comparison? {t : Token} {opcode : Opcode} (h : comparison? t = some opcode) :
    assigns t = false := by
  refine Bool.eq_false_iff.mpr fun assigned => ?_
  obtain rfl | rfl := eq_keyword_of_assigns assigned <;> contradiction

section Operand

variable {operand : Parser (Located Value)}

theorem chainFrom_obeys (level : Level) (h : Obeys J operand) (n : Nat) (lhs : Located Value) :
    Obeys J (chainFrom operand level.operators n lhs) := by
  induction n generalizing lhs with
  | zero => exact .pure _
  | succ n ih =>
    refine .peek (.pure lhs) fun t => ?_
    simp only [Option.bind_some]
    cases found : level.operators t with
    | none => exact .inl (.pure lhs)
    | some join =>
      have other := assigns_of_infixLevel? (Level.infixLevel?_of_operators found)
      exact .inr ⟨J.takes_of_not_assigns other, _, rfl, fun _ =>
        h.bind fun rhs => (join_obeys found lhs rhs).bind ih⟩

theorem chain_obeys (level : Level) (h : Obeys J operand) :
    Obeys J (chain operand level.operators) :=
  h.bind fun first => left_obeys.bind fun n => chainFrom_obeys level h n first

theorem prefixed_obeys {t : Token} (other : assigns t = false)
    {wrap : Located Value → Parser Value} (hwrap : ∀ v, Obeys J (wrap v)) (h : Obeys J operand)
    (n : Nat) : Obeys J (prefixed t wrap operand n) := by
  induction n with
  | zero => exact h
  | succ n ih =>
    refine .accept other ?_ h
    exact lastSeen_obeys.bind fun _ => ih.bind fun inner => (hwrap inner).bind fun _ => .pure _

theorem arithmeticOver_obeys (h : Obeys J operand) : Obeys J (arithmeticOver operand) := by
  refine chain_obeys .bitOr (chain_obeys .bitAnd (chain_obeys .shift (chain_obeys .sum
    (chain_obeys .product ?_))))
  exact left_obeys.bind fun n => prefixed_obeys rfl complement_obeys h n

theorem comparisonOver_obeys (h : Obeys J operand) : Obeys J (comparisonOver operand) := by
  refine (arithmeticOver_obeys h).bind fun lhs => ?_
  refine .peek (.pure lhs) fun t => ?_
  simp only [Option.bind_some]
  cases found : comparison? t with
  | none => exact .inl (.pure lhs)
  | some opcode =>
    exact .inr ⟨J.takes_of_not_assigns (assigns_of_comparison? found), _, rfl, fun _ =>
      (arithmeticOver_obeys h).bind fun rhs => runtimeBinary_obeys opcode lhs rhs⟩

theorem expressionOver_obeys (h : Obeys J operand) : Obeys J (expressionOver operand) := by
  refine chain_obeys .or (chain_obeys .and ?_)
  exact left_obeys.bind fun n => prefixed_obeys rfl negate_obeys (comparisonOver_obeys h) n

theorem constantOver_obeys (h : Obeys J operand) : Obeys J (constantOver operand) := by
  refine (arithmeticOver_obeys h).bind fun v => ?_
  split
  · exact .pure _
  · exact .fail _ _

/-! ## What operators stand between -/

theorem indexOver_obeys (h : Obeys J operand) : Obeys J (indexOver operand) :=
  (expect_obeys rfl _).bind fun _ => (constantOver_obeys h).bind fun _ =>
    (expect_obeys rfl _).bind fun _ => .pure _

theorem variableFrom_obeys {t : Located Token} (read : J.script t) :
    Obeys J (variableFrom t) := by
  unfold variableFrom
  split
  · split
    · exact .pure _
    · exact .fail _ _
  · next name spelled =>
    exact (mention_obeys .variable (spelled ▸ read)).bind fun _ => .pure _
  · exact .fail _ _

theorem variableOver_obeys (h : Obeys J operand) : Obeys J (variableOver operand) := by
  refine .next (fun t assigned s b s' run => ?_) fun t read => ?_
  · obtain ⟨v, s'', first, -⟩ := bind_eq_done.mp run
    unfold variableFrom at first
    obtain word | word := eq_keyword_of_assigns assigned <;> rw [word] at first <;> contradiction
  · refine (variableFrom_obeys read).bind fun v => peek_obeys.bind fun next => ?_
    split
    · refine (indexOver_obeys h).bind fun displacement => lastSeen_obeys.bind fun place => ?_
      refine (foldNow_obeys _ _).bind fun n => ?_
      split <;> exact .pure _
    · exact .pure _

theorem fieldValue_obeys (name : String) (greatest : UInt16) (e : Located Expr) :
    Obeys J (fieldValue name greatest e) := by
  refine (foldNow_obeys e _).bind fun v => ?_
  split
  · exact .pure _
  · split
    · exact .pure _
    · exact (report_obeys _ _).bind fun _ => .pure _

theorem fieldsOver_obeys (h : Obeys J operand) (fields : List (String × UInt16)) :
    Obeys J (fieldsOver operand fields) := by
  induction fields with
  | nil => exact .pure _
  | cons field fields ih =>
    refine (constantOver_obeys h).bind fun e => (fieldValue_obeys _ _ e).bind fun value => ?_
    split
    · exact .pure _
    · exact comma_obeys.bind fun _ => ih.bind fun _ => .pure _

theorem attributeOver_obeys (h : Obeys J operand) (mask : Bool) :
    Obeys J (attributeOver operand mask) :=
  openParen_obeys.bind fun _ => (fieldsOver_obeys h _).bind fun _ =>
    closeParen_obeys.bind fun _ => .pure _

theorem randomBetween_obeys (first second : Located Expr) (place : Location) :
    Obeys J (randomBetween first second place) := by
  refine (foldNow_obeys first _).bind fun low? => (foldNow_obeys second _).bind fun high? => ?_
  split
  · split
    · exact .pure _
    · exact .fail _ _
  · exact .pure _

theorem randomOver_obeys (h : Obeys J operand) : Obeys J (randomOver operand) := by
  refine openParen_obeys.bind fun _ => .accept rfl (.pure _) ?_
  refine (constantOver_obeys h).bind fun first => .accept rfl ?_ ?_
  · exact (constantOver_obeys h).bind fun second => closeParen_obeys.bind fun _ =>
      lastSeen_obeys.bind fun _ => randomBetween_obeys _ _ _
  · exact closeParen_obeys.bind fun _ => (immediate_obeys _ _).bind fun _ => .pure _

theorem timeoutOver_obeys (h : Obeys J operand) : Obeys J (timeoutOver operand) := by
  refine peek_obeys.bind fun t => ?_
  split
  · exact .pure _
  · exact (constantOver_obeys h).bind fun e => immediate_obeys e _

theorem primaryFrom_obeys (h : Obeys J operand) {t : Located Token} (read : J.script t) :
    Obeys J (primaryFrom operand t) := by
  unfold primaryFrom
  split
  · exact .pure _
  · next name spelled =>
    have named : J.script ⟨.identifier name, t.place⟩ := spelled ▸ read
    refine peek_obeys.bind fun next => ?_
    split
    · exact (mention_obeys .array named).bind fun _ => (indexOver_obeys h).bind fun _ => .pure _
    · exact (mention_obeys .constant named).bind fun _ => .pure _
  · have found (op : Opcode) :
        Obeys J (variableOver operand >>= fun v => pure (Value.runtime [.code op [.variable v]])) :=
      (variableOver_obeys h).bind fun _ => .pure _
    refine .peek (found .PUSH_I) fun t => ?_
    cases t with
    | indirection => exact .inr ⟨J.takes_of_not_assigns rfl, _, rfl, fun _ => found .PUSH_D⟩
    | openParen =>
      refine .inr ⟨J.takes_of_not_assigns rfl, _, rfl, fun _ => ?_⟩
      exact (expressionOver_obeys h).bind fun inner => closeParen_obeys.bind fun _ =>
        (push_obeys inner).bind fun _ => .pure _
    | _ => exact .inl (found .PUSH_I)
  · exact (expressionOver_obeys h).bind fun inner => closeParen_obeys.bind fun _ => .pure _
  · exact randomOver_obeys h
  · exact openParen_obeys.bind fun _ => (timeoutOver_obeys h).bind fun timeout =>
      closeParen_obeys.bind fun _ => .pure _
  · exact attributeOver_obeys h false
  · exact attributeOver_obeys h true
  · split
    · exact openParen_obeys.bind fun _ => closeParen_obeys.bind fun _ => .pure _
    · exact openParen_obeys.bind fun _ => (expressionOver_obeys h).bind fun lhs =>
        comma_obeys.bind fun _ => (expressionOver_obeys h).bind fun rhs =>
        closeParen_obeys.bind fun _ => (push_obeys lhs).bind fun _ =>
        (push_obeys rhs).bind fun _ => .pure _
    · exact .fail _ _
  · exact .fail _ _

end Operand

theorem primary_obeys (n : Nat) : Obeys J (primary n) := by
  induction n with
  | zero => exact lastSeen_obeys.bind fun _ => .fail _ _
  | succ n ih =>
    refine .next (fun t assigned s b s' run => ?_) fun t read => ?_
    · obtain ⟨v, s'', first, -⟩ := bind_eq_done.mp run
      unfold primaryFrom at first
      obtain word | word := eq_keyword_of_assigns assigned <;> rw [word] at first <;> contradiction
    · exact (primaryFrom_obeys ih read).bind fun v => lastSeen_obeys.bind fun _ => .pure _

/-! ## Whole expressions -/

theorem nested_obeys {α : Type} {p : Parser (Located Value) → Parser α}
    (h : ∀ {operand}, Obeys J operand → Obeys J (p operand)) : Obeys J (nested p) :=
  left_obeys.bind fun n => h (primary_obeys (n + 1))

theorem expression_obeys : Obeys J expression := nested_obeys expressionOver_obeys

theorem constant_obeys : Obeys J constant := nested_obeys constantOver_obeys

theorem variableReference_obeys : Obeys J variableReference := nested_obeys variableOver_obeys

theorem index_obeys : Obeys J index := nested_obeys indexOver_obeys

/-! ## Assignments and declarations -/

theorem element_obeys : Obeys J element :=
  .identifier fun _ read => (mention_obeys .array read).bind fun _ =>
    index_obeys.bind fun _ => .pure _

theorem target_obeys : Obeys J target := by
  have plain : Obeys J (do return Target.variable (← variableReference)) :=
    variableReference_obeys.bind fun _ => .pure _
  refine .accept rfl (variableReference_obeys.bind fun _ => .pure _) ?_
  refine .bind (J.look 1) fun _ => .bind (J.leaves fun _ => ⟨rfl, rfl⟩) fun s => ?_
  split
  · split
    · exact plain
    · exact element_obeys
  · exact plain

theorem storeAll_obeys (t : Target) (i : Nat) (vs : List (Located Value)) :
    Obeys J (storeAll t i vs) := by
  induction vs generalizing i with
  | nil => exact .pure _
  | cons v vs ih => exact (push_obeys v).bind fun _ => (emit_obeys _).bind fun _ => ih (i + 1)

theorem values_obeys : Obeys J values := by
  refine .accept rfl ?_ (expression_obeys.bind fun _ => .pure _)
  exact (commaSeparated_obeys expression_obeys).bind fun _ =>
    (expect_obeys rfl _).bind fun _ => .pure _

theorem assignment_obeys : Obeys J assignment := by
  refine target_obeys.bind fun place => .next (fun t assigned s b s' run => ?_) fun t _ => ?_
  · obtain word | word := eq_keyword_of_assigns assigned <;> rw [word] at run <;> contradiction
  split
  · exact values_obeys.bind fun vs => storeAll_obeys _ _ vs
  · exact values_obeys.bind fun vs => storeAll_obeys _ _ vs
  · exact .fail _ _

theorem declareStatement_obeys : Obeys J declareStatement := by
  refine constant_obeys.bind fun slot => (word_obeys rfl).bind fun _ => ?_
  refine .identifier fun name _ => (foldNow_obeys slot _).bind fun n => ?_
  split
  · exact declare_obeys _ _
  · exact .pure _

theorem constStatement_obeys : Obeys J constStatement :=
  .identifier fun _ _ => (expect_obeys rfl _).bind fun _ =>
    constant_obeys.bind fun e => (known_obeys e).bind fun _ => declare_obeys _ _

theorem arrayLength_obeys : Obeys J arrayLength := by
  refine openParen_obeys.bind fun _ => constant_obeys.bind fun e => ?_
  refine closeParen_obeys.bind fun _ => (known_obeys e).bind fun n => ?_
  split
  · exact .pure _
  · exact .fail _ _

theorem knownBytes_obeys (es : List (Located Expr)) : Obeys J (knownBytes es) := by
  induction es with
  | nil => exact .pure _
  | cons e es ih => exact (foldNow_obeys e _).bind fun _ => ih.bind fun _ => .pure _

theorem initializer_obeys : Obeys J initializer :=
  (expect_obeys rfl _).bind fun _ => (expect_obeys rfl _).bind fun _ =>
    lastSeen_obeys.bind fun _ => (commaSeparated_obeys constant_obeys).bind fun es =>
    (expect_obeys rfl _).bind fun _ => (knownBytes_obeys es).bind fun _ =>
    lastSeen_obeys.bind fun _ => .pure _

theorem padded_obeys (length : Nat) (given : Located (List UInt8)) :
    Obeys J (padded length given) := by
  unfold padded
  dsimp only
  split
  · exact .fail _ _
  · exact .pure _

theorem arrayBytes_obeys : Obeys J arrayBytes := by
  refine peek_obeys.bind fun t => ?_
  split
  · refine arrayLength_obeys.bind fun length => peek_obeys.bind fun t => ?_
    split
    · exact initializer_obeys.bind fun given => padded_obeys length given
    · exact .pure _
  · refine initializer_obeys.bind fun given => ?_
    dsimp only
    split
    · exact .pure _
    · exact .fail _ _

theorem dimStatement_obeys : Obeys J dimStatement :=
  .identifier fun _ _ => arrayBytes_obeys.bind fun _ =>
    (declare_obeys _ _).bind fun _ => emit_obeys _

/-! ## The screen -/

theorem foldConstants_obeys (es : List (Located Expr)) :
    Obeys J (foldConstants es) := by
  induction es with
  | nil => exact .pure _
  | cons e es ih =>
    refine (evaluate_obeys e.value).bind fun value => ?_
    cases value with
    | error _ => exact .pure _
    | ok value => exact ih.bind fun _ => .pure _

theorem foldPair_obeys (a b : Located Value) : Obeys J (foldPair a b) := by
  unfold foldPair
  split
  · refine (evaluate_obeys _).bind fun first => (evaluate_obeys _).bind fun second => ?_
    split <;> exact .pure _
  · exact .pure _

theorem nextPlace_obeys : Obeys J nextPlace := by
  refine peekLocated_obeys.bind fun t => ?_
  cases t with
  | none => exact lastSeen_obeys
  | some t => exact .pure _

theorem atStatement_obeys : Obeys J atStatement := by
  refine nextPlace_obeys.bind fun start => expression_obeys.bind fun column => ?_
  refine comma_obeys.bind fun _ => expression_obeys.bind fun row => ?_
  refine (foldPair_obeys column row).bind fun pair => ?_
  split
  · refine lastSeen_obeys.bind fun _ => (check_obeys _ _ _).bind fun c => ?_
    refine (check_obeys _ _ _).bind fun r => ?_
    dsimp only
    split
    · exact (warn_obeys _).bind fun _ => emit_obeys _
    · exact emit_obeys _
  · exact (pushAll_obeys _).bind fun _ => emit_obeys _

theorem immediates_obeys (es : List (Located Expr)) : Obeys J (immediates es) := by
  induction es with
  | nil => exact .pure _
  | cons e es ih => exact (immediate_obeys e _).bind fun _ => ih.bind fun _ => .pure _

theorem areaStatement_obeys (op : Opcode) : Obeys J (areaStatement op) := by
  refine (listOf_obeys constant_obeys 4).bind fun es => ?_
  refine (lastSeen_obeys.bind fun _ => .pure _).bind fun place => ?_
  refine (foldConstants_obeys es).bind fun ns => ?_
  cases ns with
  | none => exact (immediates_obeys es).bind fun _ => emit_obeys _
  | some ns =>
    refine (checkBytes_obeys _).bind fun bytes => ?_
    dsimp only
    split
    · exact (warn_obeys _).bind fun _ => emit_obeys _
    · exact emit_obeys _

theorem windowOperand_obeys (e : Located Expr) : Obeys J (windowOperand e) := by
  refine (evaluate_obeys e.value).bind fun value => ?_
  cases value with
  | ok value => exact (check_obeys _ _ _).bind fun _ => .pure _
  | error _ => exact immediate_obeys _ _

theorem windowStatement_obeys : Obeys J windowStatement :=
  constant_obeys.bind fun e => (windowOperand_obeys e).bind fun _ => emit_obeys _

theorem blitStatement_obeys : Obeys J blitStatement := by
  refine (listOf_obeys expression_obeys 4).bind fun source => ?_
  refine (word_obeys rfl).bind fun _ => (listOf_obeys expression_obeys 2).bind fun place => ?_
  refine (foldBytes_obeys source).bind fun v => ?_
  cases v with
  | none => exact (pushAll_obeys _).bind fun _ => (pushAll_obeys _).bind fun _ => emit_obeys _
  | some values =>
    refine (foldBytes_obeys place).bind fun spot => ?_
    cases spot with
    | none => exact (pushAll_obeys _).bind fun _ => emit_obeys _
    | some spot => exact emit_obeys _

theorem fillAttrStatement_obeys : Obeys J fillAttrStatement := by
  refine (listOf_obeys expression_obeys 5).bind fun parts => ?_
  refine (foldBytes_obeys parts).bind fun v => ?_
  cases v with
  | none => exact (pushAll_obeys _).bind fun _ => emit_obeys _
  | some values => exact emit_obeys _

theorem attributeMask_obeys (attr : Located Value) :
    Obeys J (attributeMask attr) :=
  .accept rfl expression_obeys (.pure _)

theorem putAttrStatement_obeys : Obeys J putAttrStatement := by
  refine expression_obeys.bind fun attr => (attributeMask_obeys attr).bind fun mask => ?_
  refine (word_obeys rfl).bind fun _ => (listOf_obeys expression_obeys 2).bind fun place => ?_
  refine (foldBytes_obeys [attr, mask]).bind fun style => ?_
  cases style with
  | none => exact (pushAll_obeys _).bind fun _ => (pushAll_obeys _).bind fun _ => emit_obeys _
  | some style =>
    refine (foldBytes_obeys place).bind fun spot => ?_
    cases spot with
    | none => exact (pushAll_obeys _).bind fun _ => emit_obeys _
    | some spot => exact emit_obeys _

theorem firstOption_obeys : Obeys J firstOption :=
  .accept rfl expression_obeys (lastSeen_obeys.bind fun _ => .pure _)

theorem menuConfigStatement_obeys : Obeys J menuConfigStatement := by
  refine (listOf_obeys expression_obeys 2).bind fun place => ?_
  refine firstOption_obeys.bind fun first => (foldBytes_obeys _).bind fun values => ?_
  cases values with
  | none => exact (pushAll_obeys _).bind fun _ => emit_obeys _
  | some values => exact emit_obeys _

/-! ## Everything else -/

theorem condition_obeys : Obeys J condition := expression_obeys.bind push_obeys

theorem memoryLength_obeys : Obeys J memoryLength :=
  .accept rfl (constant_obeys.bind fun e => immediate_obeys e _) (.pure _)

theorem memoryRange_obeys : Obeys J memoryRange :=
  variableReference_obeys.bind fun _ => memoryLength_obeys.bind fun _ => .pure _

theorem saveStatement_obeys : Obeys J saveStatement := by
  have save (slot : Located Value) (range : List Operand) :
      Obeys J (push slot >>= fun code => emit (code ++ [.code .POP_SLOT_SAVE range])) :=
    (push_obeys slot).bind fun _ => emit_obeys _
  refine expression_obeys.bind fun slot => .accept rfl ?_ (save slot wholeMemory)
  exact memoryRange_obeys.bind (save slot)

theorem ramStatement_obeys (op : Opcode) : Obeys J (ramStatement op) := by
  refine atStatementEnd_obeys.bind fun ended => ?_
  split
  · exact emit_obeys _
  · exact memoryRange_obeys.bind fun _ => emit_obeys _

theorem countStatement_obeys (op : Opcode) : Obeys J (countStatement op) := by
  refine atStatementEnd_obeys.bind fun ended => ?_
  split
  · exact emit_obeys _
  · exact constant_obeys.bind fun e => (immediate_obeys e _).bind fun _ => emit_obeys _

theorem constantStatement_obeys (op : Opcode) (width : Width) :
    Obeys J (constantStatement op width) :=
  constant_obeys.bind fun e => (immediate_obeys e _).bind fun _ => emit_obeys _

theorem repCharStatement_obeys : Obeys J repCharStatement :=
  constant_obeys.bind fun c => (immediate_obeys c _).bind fun _ => comma_obeys.bind fun _ =>
    constant_obeys.bind fun n => (immediate_obeys n _).bind fun _ => emit_obeys _

theorem jumpKind_obeys : Obeys J jumpKind := by
  rw [← bind_pure jumpKind, jumpKind, bind_assoc]
  refine .next (fun t assigned s b s' run => ?_) fun t _ => ?_
  · obtain word | word := eq_keyword_of_assigns assigned <;> rw [word] at run <;> contradiction
  split
  · exact .pure _
  · exact .pure _
  · exact .fail _ _

theorem labelReference_obeys : Obeys J labelReference :=
  .identifier fun _ read => (mention_obeys .label read).bind fun _ => .pure _

theorem optionStatement_obeys : Obeys J optionStatement :=
  jumpKind_obeys.bind fun _ => labelReference_obeys.bind fun _ => emit_obeys _

theorem chooseStatement_obeys : Obeys J chooseStatement := by
  refine .accept rfl ?_ (emit_obeys _)
  refine (word_obeys rfl).bind fun _ => constant_obeys.bind fun e => ?_
  exact (immediate_obeys e _).bind fun _ => (word_obeys rfl).bind fun _ =>
    jumpKind_obeys.bind fun _ => labelReference_obeys.bind fun _ =>
    emit_obeys _

theorem placeLabel_obeys (name : Located String) : Obeys J (placeLabel name) :=
  (declare_obeys _ _).bind fun _ => emit_obeys _

theorem jumpStatement_obeys (op : Opcode) :
    Obeys J (do emit [.code op [← labelReference]]) :=
  labelReference_obeys.bind fun _ => emit_obeys _

theorem popStatement_obeys (op : Opcode) :
    Obeys J (do emit ((← condition) ++ [.op op])) :=
  condition_obeys.bind fun _ => emit_obeys _

/-- Behind the first word of a statement without blocks no other statement begins. -/
theorem statementOf_obeys (block : List Keyword → Parser Unit) {w : Keyword}
    (simple : hasBlocks w = false) (place : Location) : Obeys J (statementOf block w place) := by
  unfold statementOf
  split
  · exact .identifier fun name _ => placeLabel_obeys name
  · exact jumpStatement_obeys _
  · exact jumpStatement_obeys _
  · contradiction
  · contradiction
  · contradiction
  · exact assignment_obeys
  · exact assignment_obeys
  · exact declareStatement_obeys
  · exact constStatement_obeys
  · exact dimStatement_obeys
  · exact atStatement_obeys
  · exact areaStatement_obeys _
  · exact areaStatement_obeys _
  · exact windowStatement_obeys
  · exact blitStatement_obeys
  · exact fillAttrStatement_obeys
  · exact putAttrStatement_obeys
  · exact menuConfigStatement_obeys
  · exact saveStatement_obeys
  · exact popStatement_obeys _
  · exact ramStatement_obeys _
  · exact ramStatement_obeys _
  · exact countStatement_obeys _
  · exact countStatement_obeys _
  · exact constantStatement_obeys _ _
  · exact constantStatement_obeys _ _
  · exact repCharStatement_obeys
  · exact constantStatement_obeys _ _
  · exact constantStatement_obeys _ _
  · exact constantStatement_obeys _ _
  · exact optionStatement_obeys
  · exact chooseStatement_obeys
  · split
    · exact emit_obeys _
    · exact popStatement_obeys _
    · exact .fail _ _

end Parser

end Gamebook.Grammar
