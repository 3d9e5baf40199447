import Gamebook.Grammar.Expression
import Gamebook.Grammar.Screen

/-!
# Statements

Every statement begins with a word and is turned into instructions as it is read. There is no tree
in between: a condition or a loop becomes jumps to labels that are made up on the way
(`Parser.branches`, `Parser.whileLoop`, `Parser.doLoop`).

What a loop or a branch encloses is a block of statements, so those three take the reader of a
block as an argument; `Program` closes the circle.
-/

namespace Gamebook.Grammar

open Constant (Expr Width)

/-- What a value can be stored to. -/
inductive Target where
  | variable (v : Variable)
  /-- The variable whose number is in a variable. -/
  | pointer (v : Variable)
  | element (array : String) (index : Expr)

/-- Stores the value on the stack to the `i`th place from the target on. -/
def Target.store (i : Nat) : Target → Instruction
  | .variable v => .code .POP_SET [.variable (v.offset i.toUInt16)]
  | .pointer v => .code .POP_SET_DI [.variable (v.offset i.toUInt16)]
  | .element array index =>
    let index := if i = 0 then index else index.binary .add (.value (Int64.ofNat i))
    .code .POP_SET_A [.element ⟨array, index⟩]

/-- The opcode of a statement that is one word. -/
def plainOpcode? : Keyword → Option Opcode
  | .END => some .END
  | .RETURN => some .RETURN
  | .CENTER => some .CENTER
  | .WAITKEY => some .WAITKEY
  | .CLEAR => some .CLEAR
  | .CLEAROPTIONS => some .CLEAR_OPTIONS
  | .RANDOMIZE => some .RANDOMIZE
  | _ => none

/-- The opcode of a statement that takes one value from the stack. -/
def popOpcode? : Keyword → Option Opcode
  | .PRINT => some .POP_PRINT
  | .CHAR => some .POP_CHAR
  | .INK => some .POP_INK
  | .PAPER => some .POP_PAPER
  | .BORDER => some .POP_BORDER
  | .BRIGHT => some .POP_BRIGHT
  | .FLASH => some .POP_FLASH
  | .PICTURE => some .POP_PICTURE
  | .DISPLAY => some .POP_DISPLAY
  | .SFX => some .POP_SFX
  | .TRACK => some .POP_TRACK
  | .PLAY => some .POP_PLAY
  | .LOOP => some .POP_LOOP
  | _ => none

/-- The memory that is saved when none is named: from the first variable on, all of it. -/
def wholeMemory : List Operand := [.variable (.slot 0), .literal 0]

/-- The byte for a jump that does not come back. -/
def jumpFlag : UInt8 := 0x00

/-- The byte for a jump that comes back. -/
def callFlag : UInt8 := 0xFF

namespace Parser

/-! ## Conditions and loops -/

/-- An expression as code that leaves its value on the stack. -/
def condition : Parser (List Instruction) := do push (← expression)

/-- Behind `THEN`: the block, and `ELSEIF` branches, `ELSE` and `ENDIF` as they come. At most
`fuel` branches. -/
def branches (block : List Keyword → Parser Unit) : Nat → List Instruction → Parser Unit
  | 0, _ => do fail (.unexpectedEnd "`ENDIF`") (← lastSeen)
  | fuel + 1, test => do
    let otherwise ← hiddenLabel
    emit (test ++ [.jump .IF_N_GOTO otherwise])
    block [.ELSE, .ELSEIF, .ENDIF]
    let t ← next "`ENDIF`"
    match t.value with
    | .keyword .ENDIF => emit [.label otherwise]
    | .keyword .ELSE => do
      let body ← captured (block [.ENDIF])
      word .ENDIF
      if body.isEmpty then emit [.label otherwise]
      else
        let done ← hiddenLabel
        emit ([.jump .GOTO done, .label otherwise] ++ body ++ [.label done])
    | .keyword .ELSEIF => do
      let done ← hiddenLabel
      emit [.jump .GOTO done, .label otherwise]
      let test ← condition
      word .THEN
      branches block fuel test
      emit [.label done]
    | token => fail (.unexpectedToken "`ENDIF`" token) t.place

/-- `IF c THEN ... [ELSEIF c THEN ...]* [ELSE ...] ENDIF` -/
def ifStatement (block : List Keyword → Parser Unit) : Parser Unit := do
  let test ← condition
  word .THEN
  branches block ((← left) + 1) test

/-- The condition of a loop, if it has one. -/
def loopCondition : Parser (Option (List Instruction)) := do
  if (← peek) = some .closeParen then return none
  else return some (← condition)

/-- `WHILE (c) ... WEND`, or without a condition `WHILE () ... WEND`. -/
def whileLoop (block : List Keyword → Parser Unit) : Parser Unit := do
  openParen
  let test? ← loopCondition
  closeParen
  let start ← hiddenLabel
  emit [.label start]
  match test? with
  | some test => do
    let done ← hiddenLabel
    emit (test ++ [.jump .IF_N_GOTO done])
    block [.WEND]
    word .WEND
    emit [.jump .GOTO start, .label done]
  | none => do
    block [.WEND]
    word .WEND
    emit [.jump .GOTO start]

/-- `DO ... UNTIL c` -/
def doLoop (block : List Keyword → Parser Unit) : Parser Unit := do
  let start ← hiddenLabel
  emit [.label start]
  block [.UNTIL]
  word .UNTIL
  let test ← condition
  emit (test ++ [.jump .IF_N_GOTO start])

/-! ## Assignments and declarations -/

/-- The name of an array and an index. -/
def element : Parser Target := do
  let array ← identifier
  mention array .array
  return .element array.value (← index)

/-- What a value is stored to. A name with an index is an array unless it is known to be a
variable. -/
def target : Parser Target := do
  if ← accept .indirection then return .pointer (← variableReference)
  else
    update (State.look 1)
    let s ← state
    match s.pending with
    | ⟨.ok (.identifier name), _⟩ :: ⟨.ok .openSquare, _⟩ :: _ =>
      if s.symbols.kindOf name = some .variable then return .variable (← variableReference)
      else element
    | _ => return .variable (← variableReference)

/-- Stores values one after the other, from the `i`th place of the target on. -/
def storeAll (t : Target) : Nat → List (Located Value) → Parser Unit
  | _, [] => return ()
  | i, v :: vs => do
    emit ((← push v) ++ [t.store i])
    storeAll t (i + 1) vs

/-- The values of an assignment: one, or several between curly brackets. -/
def values : Parser (List (Located Value)) := do
  if ← accept .openCurly then
    let vs ← commaSeparated expression
    expect .closeCurly "`\x7d`"
    return vs
  else return [← expression]

/-- `SET target TO value` or `LET target = value` -/
def assignment : Parser Unit := do
  let place ← target
  let t ← next "`TO` or `=`"
  match t.value with
  | .keyword .TO | .equals => storeAll place 0 (← values)
  | token => fail (.unexpectedToken "`TO` or `=`" token) t.place

/-- `DECLARE slot AS name` -/
def declareStatement : Parser Unit := do
  let slot ← constant
  word .AS
  let name ← identifier
  match ← foldNow slot .byte with
  | some n => declare name (.variable n.toUInt8)
  | none => return ()

/-- `CONST name = value` -/
def constStatement : Parser Unit := do
  let name ← identifier
  expect .equals "`=`"
  let value ← known (← constant)
  declare name (.constant value)

/-- The length of an array, between parentheses. -/
def arrayLength : Parser Nat := do
  openParen
  let e ← constant
  closeParen
  let n ← known e
  if 1 ≤ n.toInt ∧ n.toInt ≤ 255 then return n.toInt.toNat
  else fail (.arraySize n.toInt) e.place

/-- Bytes that have to be known at this point; zero stands in for one that does not fit. -/
def knownBytes : List (Located Expr) → Parser (List UInt8)
  | [] => return []
  | e :: es => do
    let first ← foldNow e .byte
    return (first.getD 0).toUInt8 :: (← knownBytes es)

/-- The elements of an array, between curly brackets. -/
def initializer : Parser (Located (List UInt8)) := do
  expect .equals "`=`"
  expect .openCurly "`\x7b`"
  let start ← lastSeen
  let es ← commaSeparated constant
  expect .closeCurly "`\x7d`"
  let bytes ← knownBytes es
  return ⟨bytes, start.span (← lastSeen)⟩

/-- The elements of an array with `length` places, of which the last ones are zero. -/
def padded (length : Nat) (given : Located (List UInt8)) : Parser (List UInt8) :=
  let n := given.value.length
  if length < n then fail (.arrayInitializer length n) given.place
  else return given.value ++ List.replicate (length - n) 0

/-- The elements of an array: zeros, or the ones given. -/
def arrayBytes : Parser (List UInt8) := do
  if (← peek) = some .openParen then
    let length ← arrayLength
    if (← peek) = some .equals then padded length (← initializer)
    else return List.replicate length 0
  else
    let given ← initializer
    let n := given.value.length
    if 1 ≤ n ∧ n ≤ 255 then return given.value
    else fail (.arraySize n) given.place

/-- `DIM name(n)`, `DIM name(n) = {...}` or `DIM name = {...}` -/
def dimStatement : Parser Unit := do
  let name ← identifier
  let bytes ← arrayBytes
  declare name (.array bytes.length.toUInt8)
  emit [.array name.value bytes]

/-! ## The screen -/

/-- Constants that are known by now, or nothing if one of them is not. -/
def foldConstants : List (Located Expr) → Parser (Option (List Int64))
  | [] => return some []
  | e :: es => do
    match ← evaluate e.value with
    | .error _ => return none
    | .ok value => return (← foldConstants es).map (value :: ·)

/-- The values of two constants that are known by now. -/
def foldPair (a b : Located Value) : Parser (Option (Int64 × Int64)) :=
  match a.value, b.value with
  | .constant x, .constant y => do
    let first ← evaluate x
    let second ← evaluate y
    match first, second with
    | .ok m, .ok n => return some (m, n)
    | _, _ => return none
  | _, _ => return none

/-- The place of what comes next. -/
def nextPlace : Parser Location := do
  match ← peekLocated with
  | some t => return t.place
  | none => lastSeen

/-- `AT column, row`. A place that is off the screen is moved, and that is noted. -/
def atStatement : Parser Unit := do
  let start ← nextPlace
  let column ← expression
  comma
  let row ← expression
  match ← foldPair column row with
  | some (c, r) => do
    let place := start.span (← lastSeen)
    let c ← check .byte c place
    let r ← check .byte r place
    let c' := Screen.column c
    let r' := Screen.row r
    if (c', r') ≠ (c, r) then
      warn (place.render ++ ": AT " ++ toString c.toNat ++ ", " ++ toString r.toNat ++
        " is off screen, using " ++ toString c'.toNat ++ ", " ++ toString r'.toNat)
    emit [.code .AT [byteOperand c', byteOperand r']]
  | none => emit ((← pushAll [column, row]) ++ [.op .POP_AT])

/-- Values as an area, if there are four. -/
def area : List UInt16 → Screen.Area
  | [c, r, w, h] => ⟨c, r, w, h⟩
  | _ => ⟨0, 0, 0, 0⟩

/-- Constants as byte operands. -/
def immediates : List (Located Expr) → Parser (List Operand)
  | [] => return []
  | e :: es => do
    let first ← immediate e .byte
    return first :: (← immediates es)

/-- The place of a list of constants that was just read. -/
def placeOf (es : List (Located Expr)) : Parser Location := do
  let last ← lastSeen
  return match es with
    | e :: _ => e.place.span last
    | [] => last

/-- `MARGINS` or `FADEOUT` with `column, row, width, height`. An area that is not all on the screen
is cut down, and that is noted. -/
def areaStatement (op : Opcode) : Parser Unit := do
  let es ← listOf constant 4
  let place ← placeOf es
  match ← foldConstants es with
  | some ns => do
    let given := area (← checkBytes (ns.map (⟨·, place⟩)))
    let fixed := given.clamp
    if fixed ≠ given then
      warn (place.render ++ ": " ++ op.mnemonic ++ " area exceeds the screen, using " ++
        fixed.render)
    emit [.code op (fixed.toList.map byteOperand)]
  | none => emit [.code op (← immediates es)]

/-- The number of a window, of which the low three bits count. -/
def windowOperand (e : Located Expr) : Parser Operand := do
  match ← evaluate e.value with
  | .ok value => return .literal ((← check .byte value e.place).toUInt8 &&& 0x07)
  | .error _ => immediate ⟨e.value.binary .and (.value 0x07), e.place⟩ .byte

/-- `WINDOW n` -/
def windowStatement : Parser Unit := do
  emit [.code .WINDOW [← windowOperand (← constant)]]

/-- `BLIT column, row, width, height AT column, row`. If the area is known, at most the place goes
over the stack; otherwise everything does. -/
def blitStatement : Parser Unit := do
  let source ← listOf expression 4
  word .AT
  let place ← listOf expression 2
  match ← foldBytes source with
  | none => emit ((← pushAll source) ++ (← pushAll place) ++ [.op .POP_ALL_BLIT])
  | some values =>
    let operands := (area values).clamp.toList.map byteOperand
    match ← foldBytes place with
    | some spot =>
      let c := Screen.column (spot.getD 0 0)
      let r := Screen.row (spot.getD 1 0)
      emit [.code .BLIT (operands ++ [byteOperand c, byteOperand r])]
    | none => emit ((← pushAll place) ++ [.code .POP_BLIT operands])

/-- `FILLATTR column, row, width, height, attribute` -/
def fillAttrStatement : Parser Unit := do
  let parts ← listOf expression 5
  match ← foldBytes parts with
  | some values => emit [.code .FILLATTR (values.map byteOperand)]
  | none => emit ((← pushAll parts) ++ [.op .POP_FILLATTR])

/-- The mask behind an attribute; without one, the whole attribute is set. -/
def attributeMask (attr : Located Value) : Parser (Located Value) := do
  if ← accept .comma then expression
  else return ⟨.constant (.value 0xFF), attr.place⟩

/-- `PUTATTR attribute [, mask] AT column, row` -/
def putAttrStatement : Parser Unit := do
  let attr ← expression
  let mask ← attributeMask attr
  word .AT
  let place ← listOf expression 2
  match ← foldBytes [attr, mask] with
  | none => emit ((← pushAll [attr, mask]) ++ (← pushAll place) ++ [.op .POP_ALL_PUTATTR])
  | some style =>
    let style := style.reverse.map byteOperand
    match ← foldBytes place with
    | some spot => emit [.code .PUTATTR (spot.map byteOperand ++ style)]
    | none => emit ((← pushAll place) ++ [.code .POP_PUTATTR style])

/-- The option a menu starts at, which is the first one unless it is said. -/
def firstOption : Parser (Located Value) := do
  if ← accept .comma then expression
  else return ⟨.constant (.value 0), ← lastSeen⟩

/-- `MENUCONFIG column, row [, first option]` -/
def menuConfigStatement : Parser Unit := do
  let place ← listOf expression 2
  let first ← firstOption
  let parts := place ++ [first]
  match ← foldBytes parts with
  | some values =>
    let c := Screen.column (values.getD 0 0)
    let r := Screen.row (values.getD 1 0)
    let option := values.getD 2 0
    let option := if option < Screen.maxOptions then option else 0
    emit [.code .MENUCONFIG [byteOperand c, byteOperand r, byteOperand option]]
  | none => emit ((← pushAll parts) ++ [.op .POP_MENUCONFIG])

/-! ## Everything else -/

/-- The length behind a variable, which is zero unless it is said. -/
def memoryLength : Parser Operand := do
  if ← accept .comma then immediate (← constant) .byte
  else return .literal 0

/-- `variable [, length]` -/
def memoryRange : Parser (List Operand) := do
  let v ← variableReference
  return [.variable v, ← memoryLength]

/-- `SAVE slot [, variable [, length]]` -/
def saveStatement : Parser Unit := do
  let slot ← expression
  let range ← if ← accept .comma then memoryRange else pure wholeMemory
  emit ((← push slot) ++ [.code .POP_SLOT_SAVE range])

/-- `RAMSAVE` or `RAMLOAD`, of all variables unless a range is named. -/
def ramStatement (op : Opcode) : Parser Unit := do
  let range ← if ← atStatementEnd then pure wholeMemory else memoryRange
  emit [.code op range]

/-- A statement with a count, which is one unless it is said. -/
def countStatement (op : Opcode) : Parser Unit := do
  let count ← if ← atStatementEnd then pure (Operand.literal 1) else immediate (← constant) .byte
  emit [.code op [count]]

/-- A statement with one constant. -/
def constantStatement (op : Opcode) (width : Width) : Parser Unit := do
  emit [.code op [← immediate (← constant) width]]

/-- `REPCHAR character, times` -/
def repCharStatement : Parser Unit := do
  let c ← immediate (← constant) .byte
  comma
  let times ← immediate (← constant) .byte
  emit [.code .REPCHAR [c, times]]

/-- `GOTO` or `GOSUB` inside a statement, as the byte that stands for it. -/
def jumpKind : Parser UInt8 := do
  let t ← next "`GOTO` or `GOSUB`"
  match t.value with
  | .keyword .GOTO => return jumpFlag
  | .keyword .GOSUB => return callFlag
  | token => fail (.unexpectedToken "`GOTO` or `GOSUB`" token) t.place

/-- The name of a label that is jumped to. -/
def labelReference : Parser Operand := do
  let name ← identifier
  mention name .label
  return .label name.value

/-- `OPTION GOTO label` or `OPTION GOSUB label` -/
def optionStatement : Parser Unit := do
  let flag ← jumpKind
  emit [.code .OPTION [.literal flag, ← labelReference]]

/-- `CHOOSE`, or `CHOOSE IF WAIT t THEN GOTO label` -/
def chooseStatement : Parser Unit := do
  if ← accept (.keyword .IF) then
    word .WAIT
    let timeout ← immediate (← constant) .word
    word .THEN
    let flag ← jumpKind
    emit [.code .CHOOSE_W [timeout, .literal flag, ← labelReference]]
  else emit [.op .CHOOSE]

/-- Puts a label here. -/
def placeLabel (name : Located String) : Parser Unit := do
  declare name .label
  emit [.label name.value]

/-- What follows the word that a statement begins with. -/
def statementOf (block : List Keyword → Parser Unit) (k : Keyword) (place : Location) :
    Parser Unit :=
  match k with
  | .LABEL => do placeLabel (← identifier)
  | .GOTO => do emit [.code .GOTO [← labelReference]]
  | .GOSUB => do emit [.code .GOSUB [← labelReference]]
  | .IF => ifStatement block
  | .WHILE => whileLoop block
  | .DO => doLoop block
  | .SET | .LET => assignment
  | .DECLARE => declareStatement
  | .CONST => constStatement
  | .DIM => dimStatement
  | .AT => atStatement
  | .MARGINS => areaStatement .MARGINS
  | .FADEOUT => areaStatement .FADEOUT
  | .WINDOW => windowStatement
  | .BLIT => blitStatement
  | .FILLATTR => fillAttrStatement
  | .PUTATTR => putAttrStatement
  | .MENUCONFIG => menuConfigStatement
  | .SAVE => saveStatement
  | .LOAD => do emit ((← condition) ++ [.op .POP_SLOT_LOAD])
  | .RAMSAVE => ramStatement .RAMSAVE
  | .RAMLOAD => ramStatement .RAMLOAD
  | .NEWLINE => countStatement .NEWLINE
  | .BACKSPACE => countStatement .BACKSPACE
  | .TAB => constantStatement .TAB .byte
  | .PAGEPAUSE => constantStatement .PAGEPAUSE .byte
  | .REPCHAR => repCharStatement
  | .WAIT => constantStatement .WAIT .word
  | .PAUSE => constantStatement .PAUSE .word
  | .TYPERATE => constantStatement .TYPERATE .word
  | .OPTION => optionStatement
  | .CHOOSE => chooseStatement
  | k =>
    match plainOpcode? k, popOpcode? k with
    | some op, _ => emit [.op op]
    | none, some op => do emit ((← condition) ++ [.op op])
    | none, none => fail (.expectedStatement (.keyword k)) place

/-- One statement. -/
def statement (block : List Keyword → Parser Unit) : Parser Unit := do
  let t ← next "a statement"
  match t.value with
  | .keyword k => statementOf block k t.place
  | .shortLabel name => placeLabel ⟨name, t.place⟩
  | token => fail (.expectedStatement token) t.place

end Parser

end Gamebook.Grammar
