import Gamebook.Text.Charset
import Gamebook.Token.Number

/-!
# Reading a script as tokens

`scan` gives the tokens of a document, and an error at every place where there is none. Prose and
code alternate: `prose` reads up to the next `[[`, `code` up to the `]]` that closes it. Reading
never gives up: after an error it goes on at the next character.

Every function here leaves a tail of the characters it was given, which is what ends the recursion
(`step_rest_suffix`, `code_shorter`, `prose_shorter`).
-/

namespace Gamebook.Scanner

variable (d : Document)

/-! ## Prose -/

/-- A stretch of prose up to the next `[[` or the end of the script. -/
structure Prose where
  /-- What could not be read, in order. -/
  errors : List Lexeme
  /-- The codes of all other characters. -/
  bytes : List UInt8
  /-- First and last character that counts as part of the stretch. -/
  extent : Option (Position × Position)
  /-- The two brackets that end it and what follows them. -/
  next : Option (Position × Position × List Mark)

namespace Prose

/-- No characters before what ends the stretch. -/
def nil (next : Option (Position × Position × List Mark)) : Prose := ⟨[], [], none, next⟩

/-- Puts an error before the stretch. -/
def fault (e : Lexeme) (p : Prose) : Prose := { p with errors := e :: p.errors }

/-- Puts a code before the stretch. -/
def put (b : UInt8) (p : Prose) : Prose := { p with bytes := b :: p.bytes }

/-- Makes the stretch start at `spot`. -/
def touch (spot : Position) (p : Prose) : Prose :=
  { p with extent := some (spot, (p.extent.map (·.2)).getD spot) }

/-- The token of the stretch, unless it is empty. -/
def token? (p : Prose) : List Lexeme :=
  match p.extent with
  | some (first, last) => if p.bytes.isEmpty then [] else [.token d (.text p.bytes) first last]
  | none => []

end Prose

/-- Reads prose up to the next `[[`. Line ends of all three kinds have one code; a stray `]]` and
the character that ends texts are no part of the stretch, and a character that the target cannot
draw is part of it without giving a code. -/
def prose : List Mark → Prose
  | [] => .nil none
  | ⟨'[', p⟩ :: ⟨'[', q⟩ :: rest => .nil (some (p, q, rest))
  | ⟨']', p⟩ :: ⟨']', q⟩ :: rest => (prose rest).fault (.error d .unmatchedClose p q)
  | ⟨'\r', p⟩ :: ⟨'\n', q⟩ :: rest => (((prose rest).touch q).touch p).put Text.newlineCode
  | ⟨c, p⟩ :: rest =>
    if c = '\r' ∨ c = '\n' then ((prose rest).touch p).put Text.newlineCode
    else if c.toNat = 0 then (prose rest).fault (.error d (.badChar c) p p)
    else match Text.encode c with
      | some b => ((prose rest).touch p).put b
      | none => ((prose rest).touch p).fault (.error d (.unencodable c) p p)

/-! ## Code -/

/-- A character that ends a line. -/
def isBreak (m : Mark) : Bool := m.char = '\r' || m.char = '\n'

/-- A character that a word may start with. -/
def isWordStart (c : Char) : Bool := c.isAlpha || c = '_'

/-- A character that a word may go on with. -/
def isWordChar (m : Mark) : Bool := m.char.isAlphanum || m.char = '_'

/-- A digit in the given base. -/
def isDigit (base : Nat) (m : Mark) : Bool := (Text.digit? base m.char).isSome

/-- The position of the last of some characters, or `p` if there are none. -/
def lastSpot (p : Position) (ms : List Mark) : Position := (ms.getLast?.map (·.spot)).getD p

/-- The next character and what follows it, if it is `c`. -/
def follows (c : Char) : List Mark → Option (Position × List Mark)
  | m :: rest => if m.char = c then some (m.spot, rest) else none
  | [] => none

/-- What follows the end of a comment, if it ends. -/
def skipComment : List Mark → Option (List Mark)
  | [] => none
  | ⟨'*', _⟩ :: ⟨'/', _⟩ :: rest => some rest
  | _ :: rest => skipComment rest

/-- The token that a character is when nothing more has to be looked at. -/
def single? : Char → Option Token
  | ':' => some .colon
  | '@' => some .indirection
  | ',' => some .comma
  | '(' => some .openParen
  | ')' => some .closeParen
  | '\x7b' => some .openCurly
  | '\x7d' => some .closeCurly
  | '+' => some .plus
  | '-' => some .minus
  | '*' => some .times
  | '&' => some .bitAnd
  | '|' => some .bitOr
  | '~' => some .bitNot
  | '=' => some .equals
  | _ => none

/-- What one step through code reads: its lexemes, what is left, how many square brackets are open,
and whether the section was closed. The brackets are counted without a limit; there are no more of
them than characters, so 32 bits hold the count in a script of fewer than `2 ^ 32` characters. -/
structure Step where
  lexemes : List Lexeme
  rest : List Mark
  depth : Nat
  closed : Bool := false

/-- The number from `start` on whose digits are the first characters of `digits`. -/
def number (start : Position) (base : Nat) (digits : List Mark) : List Lexeme :=
  let read := digits.takeWhile (isDigit base)
  let last := lastSpot start read
  if read.isEmpty then [.error d .missingDigit start last]
  else
    let n := Literal.ofDigits base (read.filterMap fun m => Text.digit? base m.char)
    if n.overflow then
      -- A number stands in, so that nothing else is found missing
      [.error d .numberOverflow start last, .token d (.number 0) start last]
    else [.token d (.number n.value.toUInt32.toNat) start last]

/-- The word that starts with `c` and goes on with the first characters of `rest`. -/
def word (c : Char) (rest : List Mark) : String :=
  String.ofList (c :: (rest.takeWhile isWordChar).map (·.char))

/-- The keyword or identifier that starts with `m`. -/
def wordToken (m : Mark) (rest : List Mark) : Lexeme :=
  let w := word m.char rest
  let t := match Keyword.ofWord? w with
    | some k => Token.keyword k
    | none => Token.identifier w
  .token d t m.spot (lastSpot m.spot (rest.takeWhile isWordChar))

/-- The label behind a number sign at `start`. -/
def shortLabel (start : Position) (rest : List Mark) : List Lexeme × List Mark :=
  match rest with
  | m :: rest' =>
    if isWordStart m.char then
      let w := word m.char rest'
      let last := lastSpot m.spot (rest'.takeWhile isWordChar)
      let read := match Keyword.ofWord? w with
        | some k => Lexeme.error d (.reservedLabel k) start last
        | none => Lexeme.token d (.shortLabel w) start last
      ([read], rest'.dropWhile isWordChar)
    else ([.error d .missingLabel start start], rest)
  | [] => ([.error d .missingLabel start start], rest)

/-- A sign of one character, or of two if one of `pairs` follows. -/
def sign (m : Mark) (alone : Token) (pairs : List (Char × Token)) (rest : List Mark) :
    Lexeme × List Mark :=
  match rest with
  | n :: rest' =>
    match pairs.lookup n.char with
    | some t => (.token d t m.spot n.spot, rest')
    | none => (.token d alone m.spot m.spot, rest)
  | [] => (.token d alone m.spot m.spot, rest)

/-- Reads what starts with the character `m` inside code, with `depth` square brackets open. -/
def step (depth : Nat) (m : Mark) (rest : List Mark) : Step :=
  let p := m.spot
  let one (t : Token) (depth : Nat) : Step := ⟨[.token d t p p], rest, depth, false⟩
  let numeral (base : Nat) (digits : List Mark) : Step :=
    ⟨number d p base digits, digits.dropWhile (isDigit base), depth, false⟩
  let decimal : Step :=
    ⟨number d p 10 (m :: rest), rest.dropWhile (isDigit 10), depth, false⟩
  if m.char = ' ' ∨ m.char = '\t' then ⟨[], rest, depth, false⟩
  else if isBreak m then
    ⟨[.token d .lineBreak p (lastSpot p (rest.takeWhile isBreak))], rest.dropWhile isBreak,
      depth, false⟩
  else match m.char with
    | '[' =>
      match follows '[' rest with
      | some (q, rest') => ⟨[.error d .nestedOpen p q], rest', depth, false⟩
      | none => one .openSquare (depth + 1)
    | ']' =>
      if 0 < depth then one .closeSquare (depth - 1)
      else match follows ']' rest with
        | some (q, rest') => ⟨[.token d .closeCode p q], rest', depth, true⟩
        | none => one .closeSquare depth
    | '/' =>
      match follows '*' rest with
      | some (_, rest') =>
        match skipComment rest' with
        | some rest'' => ⟨[], rest'', depth, false⟩
        | none => ⟨[.error d .unterminatedComment p p], [], depth, false⟩
      | none => one .divide depth
    | '<' =>
      let r := sign d m .less [('<', .shiftLeft), ('=', .lessEqual), ('>', .notEquals)] rest
      ⟨[r.1], r.2, depth, false⟩
    | '>' =>
      let r := sign d m .greater [('>', .shiftRight), ('=', .greaterEqual)] rest
      ⟨[r.1], r.2, depth, false⟩
    | '#' =>
      let r := shortLabel d p rest
      ⟨r.1, r.2, depth, false⟩
    | '$' => numeral 16 rest
    | '%' => numeral 2 rest
    | c =>
      match single? c with
      | some t => one t depth
      | none =>
        if c.isDigit then
          match c, rest with
          | '0', n :: rest' =>
            if n.char = 'x' ∨ n.char = 'X' then numeral 16 rest'
            else if n.char = 'b' ∨ n.char = 'B' then numeral 2 rest'
            else decimal
          | _, _ => decimal
        else if isWordStart c then
          ⟨[wordToken d m rest], rest.dropWhile isWordChar, depth, false⟩
        else ⟨[.error d (.badChar c) p p], rest, depth, false⟩

/-! ## What is left is a tail of what was given -/

theorem follows_suffix {c : Char} {ms rest : List Mark} {q : Position}
    (h : follows c ms = some (q, rest)) : rest <:+ ms := by
  cases ms with
  | nil => simp [follows] at h
  | cons m ms =>
    simp only [follows] at h
    split at h
    · cases h
      exact List.suffix_cons ..
    · simp at h

theorem skipComment_suffix {ms rest : List Mark} (h : skipComment ms = some rest) :
    rest <:+ ms := by
  fun_induction skipComment ms with
  | case1 => simp at h
  | case2 p q rest' =>
    cases h
    exact (List.suffix_cons ..).trans (List.suffix_cons ..)
  | case3 m rest' _ ih => exact (ih h).trans (List.suffix_cons ..)

theorem shortLabel_suffix (start : Position) (rest : List Mark) :
    (shortLabel d start rest).2 <:+ rest := by
  unfold shortLabel
  split
  · split
    · exact (List.dropWhile_suffix _).trans (List.suffix_cons ..)
    · exact List.suffix_rfl
  · exact List.suffix_rfl

theorem sign_suffix (m : Mark) (alone : Token) (pairs : List (Char × Token)) (rest : List Mark) :
    (sign d m alone pairs rest).2 <:+ rest := by
  unfold sign
  split
  · split
    · exact List.suffix_cons ..
    · exact List.suffix_rfl
  · exact List.suffix_rfl

theorem step_rest_suffix (depth : Nat) (m : Mark) (rest : List Mark) :
    (step d depth m rest).rest <:+ rest := by
  unfold step
  repeat' split
  all_goals first
    | exact List.suffix_rfl
    | exact List.dropWhile_suffix _
    | exact follows_suffix (by assumption)
    | exact (List.dropWhile_suffix _).trans (List.suffix_cons ..)
    | exact (skipComment_suffix (by assumption)).trans (follows_suffix (by assumption))
    | exact List.nil_suffix
    | exact shortLabel_suffix d _ _
    | exact sign_suffix d _ _ _ _

/-! ## Whole scripts -/

/-- Reads code up to the `]]` that closes the section, or to the end of the script. The second part
is what follows the section, if it was closed. -/
def code (depth : Nat) : List Mark → List Lexeme × Option (List Mark)
  | [] => ([.error d .unterminatedCode d.finish d.finish], none)
  | m :: rest =>
    let s := step d depth m rest
    if s.closed then (s.lexemes, some s.rest)
    else
      let (more, behind) := code s.depth s.rest
      (s.lexemes ++ more, behind)
termination_by ms => ms.length
decreasing_by exact Nat.lt_succ_of_le (step_rest_suffix d depth m rest).length_le

theorem code_suffix {depth : Nat} {ms rest : List Mark}
    (h : (code d depth ms).2 = some rest) : rest <:+ ms := by
  fun_induction code d depth ms with
  | case1 => simp at h
  | case2 depth m ms s closed =>
    cases h
    exact (step_rest_suffix d depth m ms).trans (List.suffix_cons ..)
  | case3 depth m ms s closed more behind read ih =>
    rw [read] at ih
    exact (ih h).trans ((step_rest_suffix d depth m ms).trans (List.suffix_cons ..))

theorem prose_shorter {ms rest : List Mark} {p q : Position}
    (h : (prose d ms).next = some (p, q, rest)) : rest.length < ms.length := by
  fun_induction prose d ms
  case case1 => simp [Prose.nil] at h
  case case2 =>
    simp only [Prose.nil, Option.some.injEq, Prod.mk.injEq] at h
    obtain ⟨-, -, rfl⟩ := h
    simp only [List.length_cons]
    omega
  all_goals
    rename_i ih
    have shorter := ih h
    simp only [List.length_cons]
    omega

/-- Reads prose and code in turn. -/
def scanFrom (ms : List Mark) : List Lexeme :=
  let p := prose d ms
  p.errors ++ p.token? d ++
    match h : p.next with
    | none => []
    | some (first, last, rest) =>
      .token d .openCode first last ::
        match hc : code d 0 rest with
        | (read, none) => read
        | (read, some rest') =>
          have : rest'.length < ms.length :=
            Nat.lt_of_le_of_lt (code_suffix d (congrArg Prod.snd hc)).length_le (prose_shorter d h)
          read ++ scanFrom rest'
termination_by ms.length

end Gamebook.Scanner

namespace Gamebook

/-- The tokens of a document, and an error wherever there is none, in order. -/
def Document.scan (d : Document) : List Lexeme := Scanner.scanFrom d d.marks

end Gamebook
