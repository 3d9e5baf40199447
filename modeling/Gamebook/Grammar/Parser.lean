import Gamebook.Bytecode.Instruction
import Gamebook.Grammar.Problem
import Gamebook.Log

/-!
# Reading tokens

A `Parser` reads from the tokens that are left and says what it found. Everything else that reading
brings about is kept in its `State`: the problems found so far, the names, the instructions written
and the labels made up on the way.

Lexical errors stand among the tokens. They become problems when the token behind them is first
looked at (`State.look`), so problems come in the order in which the script is read.

A parser ends in one of three ways (`Outcome`). It may find what it was looking for; it may fail,
in which case whoever called it decides where to go on, with all that was read so far; or it may
meet the one quotient that has no value, and then reading ends for good.
-/

namespace Gamebook.Grammar

/-- Where reading stands. -/
structure State where
  /-- The tokens that are left, and the errors among them. -/
  pending : List Lexeme
  /-- The place of what was last read. -/
  lastSeen : Location
  /-- What was found wrong, the oldest first. -/
  problems : List (Located Problem)
  symbols : Symbol.Table
  /-- The instructions written. -/
  code : List Instruction
  /-- How many labels were made up, counted without a limit. No branch and no loop makes up more
  than two, so 32 bits hold the count for fewer than `2 ^ 31` of these. -/
  hiddenLabels : Nat
  notes : Log

/-- How a parser ends. -/
inductive Outcome (α : Type) where
  | done (value : α) (state : State)
  | failed (error : Located SyntaxError) (state : State)
  /-- A constant without a value was met. -/
  | overflowed

/-- A way to read something from the tokens that are left. -/
def Parser (α : Type) : Type := State → Outcome α

namespace Parser

/-- Finds `a` without reading. -/
protected def pure {α : Type} (a : α) : Parser α := fun s => .done a s

/-- Goes on with what `p` found. -/
protected def bind {α β : Type} (p : Parser α) (f : α → Parser β) : Parser β := fun s =>
  match p s with
  | .done a s' => f a s'
  | .failed e s' => .failed e s'
  | .overflowed => .overflowed

instance : Monad Parser where
  pure := Parser.pure
  bind := Parser.bind

instance : LawfulMonad Parser := LawfulMonad.mk' Parser
  (by
    intro α p
    funext s
    change Parser.bind p Parser.pure s = p s
    unfold Parser.bind
    split <;> simp_all [Parser.pure])
  (by intros; rfl)
  (by
    intro α β γ p f g
    funext s
    change Parser.bind (Parser.bind p f) g s = Parser.bind p (fun a => Parser.bind (f a) g) s
    unfold Parser.bind
    cases p s <;> rfl)

theorem pure_apply {α : Type} (a : α) (s : State) : (pure a : Parser α) s = .done a s := rfl

theorem bind_apply {α β : Type} (p : Parser α) (f : α → Parser β) (s : State) :
    (p >>= f) s = match p s with
      | .done a s' => f a s'
      | .failed e s' => .failed e s'
      | .overflowed => .overflowed := rfl

/-! ## State -/

/-- Where reading stands. -/
def state : Parser State := fun s => .done s s

/-- Changes where reading stands. -/
def update (f : State → State) : Parser Unit := fun s => .done () (f s)

/-- The place of what was last read. -/
def lastSeen : Parser Location := fun s => .done s.lastSeen s

/-- How many lexemes are left, which bounds how often anything can be read again. -/
def left : Parser Nat := fun s => .done s.pending.length s

/-- Gives up on the current statement. -/
def fail {α : Type} (e : SyntaxError) (place : Location) : Parser α := fun s => .failed ⟨e, place⟩ s

/-- Finds something wrong and goes on. -/
def report (e : SyntaxError) (place : Location) : Parser Unit :=
  update fun s => { s with problems := s.problems ++ [⟨.grammar e, place⟩] }

/-- Writes instructions. -/
def emit (code : List Instruction) : Parser Unit :=
  update fun s => { s with code := s.code ++ code }

/-- What `p` writes, taken back. -/
def captured (p : Parser Unit) : Parser (List Instruction) := fun s =>
  match p { s with code := [] } with
  | .done _ s' => .done s'.code { s' with code := s.code }
  | .failed e s' => .failed e { s' with code := s.code }
  | .overflowed => .overflowed

/-- Notes something that is not wrong. -/
def warn (text : String) : Parser Unit :=
  update fun s => { s with notes := s.notes ++ [⟨.warn, .grammar, text⟩] }

/-- The beginning of the names of made-up labels. -/
def hiddenLabelStem : String := "__LABEL_"

/-- The `n`th made-up label. -/
def hiddenLabelName (n : Nat) : String := hiddenLabelStem ++ toString n

/-- Makes up a label that was not there before. -/
def hiddenLabel : Parser String := fun s =>
  .done (hiddenLabelName s.hiddenLabels) { s with hiddenLabels := s.hiddenLabels + 1 }

/-- Takes over a changed table of names, or the problem with it. -/
def record (r : Symbol.Table → Except (Located Symbol.NameError) Symbol.Table) : Parser Unit :=
  update fun s =>
    match r s.symbols with
    | .ok symbols => { s with symbols := symbols }
    | .error e => { s with problems := s.problems ++ [e.map .name] }

/-- Declares a name. -/
def declare (name : Located String) (what : Symbol.Declaration) : Parser Unit :=
  record (·.declare name what)

/-- Uses a name. -/
def mention (name : Located String) (kind : Symbol.Kind) : Parser Unit :=
  record (·.use name kind)

end Parser

/-! ## Looking ahead -/

/-- The errors before the `n + 1`st token from here, and the lexemes without them. -/
def settle : Nat → List Lexeme → List (Located ScanError) × List Lexeme
  | _, [] => ([], [])
  | n, ⟨.error e, place⟩ :: rest =>
    let (errors, settled) := settle n rest
    (⟨e, place⟩ :: errors, settled)
  | 0, ⟨.ok t, place⟩ :: rest => ([], ⟨.ok t, place⟩ :: rest)
  | n + 1, ⟨.ok t, place⟩ :: rest =>
    let (errors, settled) := settle n rest
    (errors, ⟨.ok t, place⟩ :: settled)

/-- Looks as far as the `n + 1`st token from here. -/
def State.look (n : Nat) (s : State) : State :=
  let (errors, settled) := settle n s.pending
  { s with
    pending := settled
    lastSeen := (errors.getLast?.map (·.place)).getD s.lastSeen
    problems := s.problems ++ errors.map (·.map .scan) }

/-- The token a list of lexemes starts with. -/
def firstToken? : List Lexeme → Option (Located Token)
  | ⟨.ok t, place⟩ :: _ => some ⟨t, place⟩
  | _ => none

/-- The tokens that separate statements. -/
def isSeparator : Token → Bool
  | .colon | .lineBreak | .openCode | .closeCode | .text _ => true
  | _ => false

/-- The words that end a block. -/
def isBlockEnd : Keyword → Bool
  | .ENDIF | .ELSE | .ELSEIF | .WEND | .UNTIL => true
  | _ => false

/-- The word that ends a block, if the token is one. -/
def blockEnd? : Token → Option Keyword
  | .keyword k => if isBlockEnd k then some k else none
  | _ => none

/-- The words that stand inside statements and never at their start. -/
def isInnerWord : Keyword → Bool
  | .THEN | .TO | .AS | .AND | .OR | .NOT | .RANDOM | .INKEY | .XPOS | .YPOS | .MIN | .MAX
  | .GETATTR | .ATTRVAL | .ATTRMASK | .ISDISK | .SAVERESULT | .NUMOPTIONS | .OPTIONSEL
  | .OPTIONVAL => true
  | _ => false

namespace Parser

/-- The next token, which stays where it is. -/
def peekLocated : Parser (Option (Located Token)) := fun s =>
  let s := s.look 0
  .done (firstToken? s.pending) s

/-- The next token, which stays where it is. -/
def peek : Parser (Option Token) := do return (← peekLocated).map (·.value)

/-- Reads the next token, whatever it is. -/
def advance : Parser (Option (Located Token)) := fun s =>
  let s := s.look 0
  match firstToken? s.pending with
  | some t => .done (some t) { s with pending := s.pending.tail, lastSeen := t.place }
  | none => .done none s

/-- Reads the next token if it is `t`. -/
def accept (t : Token) : Parser Bool := do
  if (← peek) = some t then
    let _ ← advance
    return true
  else return false

/-- Reads a token that belongs to the statement. A separator is left where it is, so that reading
can go on behind it. -/
def next (expected : String) : Parser (Located Token) := do
  match ← peekLocated with
  | none => fail (.unexpectedEnd expected) (← lastSeen)
  | some t =>
    if isSeparator t.value then fail (.unexpectedToken expected t.value) t.place
    else
      let _ ← advance
      return t

/-- Reads exactly `t`. -/
def expect (t : Token) (expected : String) : Parser Unit := do
  match ← peekLocated with
  | none => fail (.unexpectedEnd expected) (← lastSeen)
  | some found =>
    if found.value = t then
      let _ ← advance
    else fail (.unexpectedToken expected found.value) found.place

/-- Reads exactly the word `k`. -/
def word (k : Keyword) : Parser Unit := expect (.keyword k) ("`" ++ k.name ++ "`")

def comma : Parser Unit := expect .comma "`,`"

def openParen : Parser Unit := expect .openParen "`(`"

def closeParen : Parser Unit := expect .closeParen "`)`"

/-- Reads a name. -/
def identifier : Parser (Located String) := do
  let t ← next "an identifier"
  match t.value with
  | .identifier name => return ⟨name, t.place⟩
  | token => fail (.unexpectedToken "an identifier" token) t.place

/-- Whether the statement has no more parts. -/
def atStatementEnd : Parser Bool := do
  match ← peek with
  | none => return true
  | some (.shortLabel _) => return true
  | some (.keyword k) => return !isInnerWord k
  | some t => return isSeparator t

/-- `n` items with commas between them. -/
def listOf {α : Type} (item : Parser α) : Nat → Parser (List α)
  | 0 => return []
  | 1 => return [← item]
  | n + 2 => do
    let first ← item
    comma
    return first :: (← listOf item (n + 1))

/-- Further items, each behind a comma; at most `fuel` of them. -/
def commaTail {α : Type} (item : Parser α) : Nat → Parser (List α)
  | 0 => return []
  | fuel + 1 => do
    if ← accept .comma then
      let first ← item
      return first :: (← commaTail item fuel)
    else return []

/-- One item or more, with commas between them. -/
def commaSeparated {α : Type} (item : Parser α) : Parser (List α) := do
  let first ← item
  return first :: (← commaTail item (← left))

/-- Passes over tokens up to a separator or the end of a block; at most `fuel` of them. -/
def recoverFor : Nat → Parser Unit
  | 0 => return ()
  | fuel + 1 => do
    match ← peek with
    | none => return ()
    | some t =>
      if isSeparator t || (blockEnd? t).isSome then return ()
      else
        let _ ← advance
        recoverFor fuel

/-- Passes over tokens up to a separator or the end of a block. -/
def recover : Parser Unit := do recoverFor (← left)

/-- Tries `p`. If it fails, that is a problem, and reading goes on behind it. -/
def attempt (p : Parser Unit) : Parser Unit := fun s =>
  match p s with
  | .failed e s' => (do report e.value e.place; recover : Parser Unit) s'
  | outcome => outcome

end Parser

end Gamebook.Grammar
