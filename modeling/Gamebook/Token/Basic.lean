import Gamebook.Source.Location
import Gamebook.Text.Quoted
import Gamebook.Token.Keyword

/-!
# Tokens

A script is prose with code sections between `[[` and `]]`. A token is a stretch of prose, already
in the character set of the target, or one of the words, numbers and signs of a code section.
What cannot be read as a token is a `ScanError`; a `Lexeme` is one or the other, at its place.
-/

namespace Gamebook

/-- The smallest part of a script that has a meaning. -/
inductive Token where
  /-- Prose, as codes of the target. -/
  | text (bytes : List UInt8)
  /-- `[[` -/
  | openCode
  /-- `]]` -/
  | closeCode
  /-- One or more line ends inside code. -/
  | lineBreak
  | colon
  | identifier (name : String)
  /-- A label written with a leading number sign. -/
  | shortLabel (name : String)
  | keyword (word : Keyword)
  | number (value : Nat)
  | plus | minus | times | divide | bitAnd | bitOr | bitNot | shiftLeft | shiftRight
  | equals | notEquals | less | greater | lessEqual | greaterEqual
  /-- `@` -/
  | indirection
  | comma | openParen | closeParen | openSquare | closeSquare | openCurly | closeCurly
deriving DecidableEq

/-- A token as it is named in messages. -/
def Token.describe : Token → String
  | text _ => "text"
  | openCode => "`[[`"
  | closeCode => "`]]`"
  | lineBreak => "line break"
  | colon => "`:`"
  | identifier name => "identifier `" ++ name ++ "`"
  | shortLabel name => "label `#" ++ name ++ "`"
  | keyword word => "keyword `" ++ word.name ++ "`"
  | number value => "literal `" ++ toString value ++ "`"
  | plus => "`+`"
  | minus => "`-`"
  | times => "`*`"
  | divide => "`/`"
  | bitAnd => "`&`"
  | bitOr => "`|`"
  | bitNot => "`~`"
  | shiftLeft => "`<<`"
  | shiftRight => "`>>`"
  | equals => "`=`"
  | notEquals => "`<>`"
  | less => "`<`"
  | greater => "`>`"
  | lessEqual => "`<=`"
  | greaterEqual => "`>=`"
  | indirection => "`@`"
  | comma => "`,`"
  | openParen => "`(`"
  | closeParen => "`)`"
  | openSquare => "`[`"
  | closeSquare => "`]`"
  | openCurly => "`\x7b`"
  | closeCurly => "`\x7d`"

/-- The greatest number that can be written. -/
def maxNumber : Nat := 4294967295

/-- Why a stretch of a script is not a token. -/
inductive ScanError where
  /-- A character that starts nothing, or the one that ends texts. -/
  | badChar (c : Char)
  /-- A character of prose that the target cannot draw. -/
  | unencodable (c : Char)
  | missingDigit
  | missingLabel
  /-- A number above `maxNumber`. -/
  | numberOverflow
  /-- `[[` inside code. -/
  | nestedOpen
  /-- `]]` outside code. -/
  | unmatchedClose
  | unterminatedCode
  | unterminatedComment
  /-- A keyword after a number sign. -/
  | reservedLabel (word : Keyword)
deriving DecidableEq

/-- The wording of the error. -/
def ScanError.message : ScanError → String
  | badChar c => "Illegal character " ++ Text.quoteChar c
  | unencodable c =>
    "Invalid character " ++ Text.quoteChar c ++ " (" ++ toString c.toNat ++ ") in text"
  | missingDigit => "Expected a digit"
  | missingLabel => "Expected a label name after `#`"
  | numberOverflow =>
    "Integer literal overflow, valid range is [0, " ++ toString maxNumber ++ "]"
  | nestedOpen => "Invalid opening code token `[[` inside code"
  | unmatchedClose => "Invalid closing code token `]]` outside code"
  | unterminatedCode => "Unterminated code block, expected `]]`"
  | unterminatedComment => "Unterminated comment, expected `*/`"
  | reservedLabel word => "Keyword `" ++ word.name ++ "` cannot be used as a label"

/-- A token, or what stands in its place, with the stretch of text it was read from. -/
abbrev Lexeme := Located (Except ScanError Token)

namespace Lexeme

/-- The token from the character at `first` to the character at `last`. -/
def token (d : Document) (t : Token) (first last : Position) : Lexeme :=
  ⟨.ok t, ⟨d, first, last.advance⟩⟩

/-- The error from the character at `first` to the character at `last`. -/
def error (d : Document) (e : ScanError) (first last : Position) : Lexeme :=
  ⟨.error e, ⟨d, first, last.advance⟩⟩

end Lexeme

end Gamebook
