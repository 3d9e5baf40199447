/-!
# Bytes as text

Reading bytes as UTF-8. `decode?` accepts well-formed input only. `decodeLossy` reads any bytes: a
byte that starts nothing, or the start of a character that is cut short, counts as one replacement
character, and reading goes on at the byte that did not belong.
-/

namespace Gamebook.Text

/-- A character whose first bytes were read: the bits so far, how many bytes are missing, and the
range the next one has to lie in. -/
structure Opened where
  bits : Nat
  missing : Nat
  low : Nat
  high : Nat

/-- What a byte outside any character is. -/
inductive Lead where
  | whole (c : Char)
  | opens (o : Opened)
  | stray

/-- Reads the first byte of a character. The ranges leave out overlong forms, surrogates and what
lies beyond the last code point. -/
def Lead.ofByte (b : UInt8) : Lead :=
  let n := b.toNat
  if n < 0x80 then .whole (Char.ofNat n)
  else if 0xC2 ≤ n ∧ n ≤ 0xDF then .opens ⟨n % 0x20, 1, 0x80, 0xBF⟩
  else if n = 0xE0 then .opens ⟨n % 0x10, 2, 0xA0, 0xBF⟩
  else if n = 0xED then .opens ⟨n % 0x10, 2, 0x80, 0x9F⟩
  else if 0xE1 ≤ n ∧ n ≤ 0xEF then .opens ⟨n % 0x10, 2, 0x80, 0xBF⟩
  else if n = 0xF0 then .opens ⟨n % 0x08, 3, 0x90, 0xBF⟩
  else if 0xF1 ≤ n ∧ n ≤ 0xF3 then .opens ⟨n % 0x08, 3, 0x80, 0xBF⟩
  else if n = 0xF4 then .opens ⟨n % 0x08, 3, 0x80, 0x8F⟩
  else .stray

/-- The characters of the bytes, with `none` for every malformed part; `pending` is the character
that was begun. -/
def decodeFrom (pending : Option Opened) : List UInt8 → List (Option Char)
  | [] => if pending.isSome then [none] else []
  | b :: bs =>
    let fresh (_ : Unit) : List (Option Char) × Option Opened :=
      match Lead.ofByte b with
      | .whole c => ([some c], none)
      | .opens o => ([], some o)
      | .stray => ([none], none)
    let (out, pending) : List (Option Char) × Option Opened :=
      match pending with
      | none => fresh ()
      | some o =>
        if o.low ≤ b.toNat ∧ b.toNat ≤ o.high then
          let bits := o.bits * 0x40 + b.toNat % 0x40
          if o.missing ≤ 1 then ([some (Char.ofNat bits)], none)
          else ([], some ⟨bits, o.missing - 1, 0x80, 0xBF⟩)
        else
          let (out, next) := fresh ()
          (none :: out, next)
    out ++ decodeFrom pending bs

/-- The text the bytes spell, if they are well formed. -/
def decode? (bytes : List UInt8) : Option String :=
  ((decodeFrom none bytes).mapM id).map String.ofList

/-- The text the bytes spell, with a replacement character for every malformed part. -/
def decodeLossy (bytes : List UInt8) : String :=
  String.ofList ((decodeFrom none bytes).map (·.getD '\uFFFD'))

end Gamebook.Text
