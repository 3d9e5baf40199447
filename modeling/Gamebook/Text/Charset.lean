/-!
# The character set of the target

The target draws ASCII, and fourteen letters and signs of Spanish that it keeps at the codes from
16 on. Other common characters are drawn as the nearest ASCII one. The byte zero ends a text, so
the character with that code is not encoded; nor is any character that is not named here.
-/

namespace Gamebook.Text

/-- The code of a line end inside a text. -/
def newlineCode : UInt8 := 0x0D

/-- The characters drawn from code 16 on, in order. -/
def specialCharacters : List Char :=
  ['ª', '¡', '¿', '«', '»', 'á', 'é', 'í', 'ó', 'ú', 'ñ', 'Ñ', 'ü', 'Ü']

/-- Characters without a drawing of their own, and the ASCII character drawn for each. -/
def approximations : List (Char × Char) :=
  [('Á', 'A'), ('É', 'E'), ('Í', 'I'), ('Ó', 'O'), ('Ú', 'U'),
   ('À', 'A'), ('È', 'E'), ('Ì', 'I'), ('Ò', 'O'), ('Ù', 'U'),
   ('à', 'a'), ('è', 'e'), ('ì', 'i'), ('ò', 'o'), ('ù', 'u'),
   ('â', 'a'), ('ê', 'e'), ('î', 'i'), ('ô', 'o'), ('û', 'u'),
   ('ä', 'a'), ('ë', 'e'), ('ï', 'i'), ('ö', 'o'), ('ç', 'c'), ('Ç', 'C'),
   ('‘', '\''), ('’', '\''), ('´', '\''), ('“', '"'), ('”', '"'),
   ('–', '-'), ('—', '-'), ('\u00a0', ' ')]

/-- The code the target draws a character with. -/
def encode (c : Char) : Option UInt8 :=
  if c.toNat = 0 then none
  else if c.toNat < 128 then some c.toNat.toUInt8
  else match specialCharacters.findIdx? (· == c) with
    | some i => some (16 + i).toUInt8
    | none => (approximations.lookup c).map (·.toNat.toUInt8)

end Gamebook.Text
