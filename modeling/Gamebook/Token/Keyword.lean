/-!
# Keywords

The words of the script language. They are written in any letter case: `Keyword.ofWord?` compares a
word with the upper-case spelling of each.
-/

namespace Gamebook

/-- A keyword; the constructors are the words themselves. -/
inductive Keyword where
  | END | GOTO | GOSUB | RETURN | LABEL | IF | THEN | ELSE | ELSEIF | ENDIF | WHILE | WEND | DO
  | UNTIL | SET | LET | TO | DECLARE | AS | CONST | DIM | AND | OR | NOT | INK | PAPER | BORDER
  | BRIGHT | FLASH | AT | PRINT | CHAR | MARGINS | PICTURE | DISPLAY | SFX | TRACK | PLAY | LOOP
  | RANDOM | RANDOMIZE | CENTER | OPTION | CHOOSE | WAITKEY | INKEY | WAIT | PAUSE | TYPERATE
  | CLEAR | PAGEPAUSE | TAB | NEWLINE | BACKSPACE | REPCHAR | XPOS | YPOS | MIN | MAX
  | CLEAROPTIONS | WINDOW | BLIT | FILLATTR | PUTATTR | FADEOUT | MENUCONFIG | SAVE | LOAD
  | RAMSAVE | RAMLOAD | GETATTR | ATTRVAL | ATTRMASK | ISDISK | SAVERESULT | NUMOPTIONS
  | OPTIONSEL | OPTIONVAL
deriving DecidableEq

namespace Keyword

/-- The upper-case spelling. -/
def name : Keyword → String
  | END => "END"
  | GOTO => "GOTO"
  | GOSUB => "GOSUB"
  | RETURN => "RETURN"
  | LABEL => "LABEL"
  | IF => "IF"
  | THEN => "THEN"
  | ELSE => "ELSE"
  | ELSEIF => "ELSEIF"
  | ENDIF => "ENDIF"
  | WHILE => "WHILE"
  | WEND => "WEND"
  | DO => "DO"
  | UNTIL => "UNTIL"
  | SET => "SET"
  | LET => "LET"
  | TO => "TO"
  | DECLARE => "DECLARE"
  | AS => "AS"
  | CONST => "CONST"
  | DIM => "DIM"
  | AND => "AND"
  | OR => "OR"
  | NOT => "NOT"
  | INK => "INK"
  | PAPER => "PAPER"
  | BORDER => "BORDER"
  | BRIGHT => "BRIGHT"
  | FLASH => "FLASH"
  | AT => "AT"
  | PRINT => "PRINT"
  | CHAR => "CHAR"
  | MARGINS => "MARGINS"
  | PICTURE => "PICTURE"
  | DISPLAY => "DISPLAY"
  | SFX => "SFX"
  | TRACK => "TRACK"
  | PLAY => "PLAY"
  | LOOP => "LOOP"
  | RANDOM => "RANDOM"
  | RANDOMIZE => "RANDOMIZE"
  | CENTER => "CENTER"
  | OPTION => "OPTION"
  | CHOOSE => "CHOOSE"
  | WAITKEY => "WAITKEY"
  | INKEY => "INKEY"
  | WAIT => "WAIT"
  | PAUSE => "PAUSE"
  | TYPERATE => "TYPERATE"
  | CLEAR => "CLEAR"
  | PAGEPAUSE => "PAGEPAUSE"
  | TAB => "TAB"
  | NEWLINE => "NEWLINE"
  | BACKSPACE => "BACKSPACE"
  | REPCHAR => "REPCHAR"
  | XPOS => "XPOS"
  | YPOS => "YPOS"
  | MIN => "MIN"
  | MAX => "MAX"
  | CLEAROPTIONS => "CLEAROPTIONS"
  | WINDOW => "WINDOW"
  | BLIT => "BLIT"
  | FILLATTR => "FILLATTR"
  | PUTATTR => "PUTATTR"
  | FADEOUT => "FADEOUT"
  | MENUCONFIG => "MENUCONFIG"
  | SAVE => "SAVE"
  | LOAD => "LOAD"
  | RAMSAVE => "RAMSAVE"
  | RAMLOAD => "RAMLOAD"
  | GETATTR => "GETATTR"
  | ATTRVAL => "ATTRVAL"
  | ATTRMASK => "ATTRMASK"
  | ISDISK => "ISDISK"
  | SAVERESULT => "SAVERESULT"
  | NUMOPTIONS => "NUMOPTIONS"
  | OPTIONSEL => "OPTIONSEL"
  | OPTIONVAL => "OPTIONVAL"

/-- Every keyword. -/
def all : List Keyword :=
  [.END, .GOTO, .GOSUB, .RETURN, .LABEL, .IF, .THEN, .ELSE, .ELSEIF, .ENDIF, .WHILE, .WEND, .DO,
   .UNTIL, .SET, .LET, .TO, .DECLARE, .AS, .CONST, .DIM, .AND, .OR, .NOT, .INK, .PAPER, .BORDER,
   .BRIGHT, .FLASH, .AT, .PRINT, .CHAR, .MARGINS, .PICTURE, .DISPLAY, .SFX, .TRACK, .PLAY, .LOOP,
   .RANDOM, .RANDOMIZE, .CENTER, .OPTION, .CHOOSE, .WAITKEY, .INKEY, .WAIT, .PAUSE, .TYPERATE,
   .CLEAR, .PAGEPAUSE, .TAB, .NEWLINE, .BACKSPACE, .REPCHAR, .XPOS, .YPOS, .MIN, .MAX,
   .CLEAROPTIONS, .WINDOW, .BLIT, .FILLATTR, .PUTATTR, .FADEOUT, .MENUCONFIG, .SAVE, .LOAD,
   .RAMSAVE, .RAMLOAD, .GETATTR, .ATTRVAL, .ATTRMASK, .ISDISK, .SAVERESULT, .NUMOPTIONS,
   .OPTIONSEL, .OPTIONVAL]

theorem mem_all (k : Keyword) : k ∈ all := by cases k <;> decide

/-- The keyword a word spells in any letter case. -/
def ofWord? (word : String) : Option Keyword :=
  all.find? fun k => k.name == String.ofList (word.toList.map Char.toUpper)

end Keyword

end Gamebook
