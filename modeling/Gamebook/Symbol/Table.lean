import Gamebook.Source.Location

/-!
# Symbols

Every name of a program stands for one kind of thing, throughout. A name may be used before it is
declared, so the table records declarations and uses alike. A declaration or a use that contradicts
what is recorded is refused at once, and leaves the table as it was; what can only be seen at the
end, names that were never declared and early uses of the wrong kind, is found by `Table.finish`.

Names that begin with two underscores belong to the compiler and cannot be declared.
-/

namespace Gamebook.Symbol

/-- What a name can stand for. -/
inductive Kind where
  | label
  | variable
  | constant
  | array
deriving DecidableEq

/-- The name of the kind. -/
def Kind.name : Kind → String
  | .label => "label"
  | .variable => "variable"
  | .constant => "constant"
  | .array => "array"

/-- What a name was declared to be. -/
inductive Declaration where
  | label
  /-- The number of a variable. -/
  | variable (slot : UInt8)
  | constant (value : Int64)
  /-- An array and its length. -/
  | array (length : UInt8)
deriving DecidableEq

/-- The kind a declaration gives its name. -/
def Declaration.kind : Declaration → Kind
  | .label => .label
  | .variable _ => .variable
  | .constant _ => .constant
  | .array _ => .array

/-- A place where a name is used, and the kind it is used as. -/
structure Usage where
  place : Location
  kind : Kind
deriving DecidableEq

/-- What is known of a name. -/
structure Entry where
  name : String
  declared : Option (Location × Declaration)
  usages : List Usage
deriving DecidableEq

namespace Entry

/-- The kind it was declared as or, before that, first used as. -/
def kind (e : Entry) : Option Kind :=
  (e.declared.map (·.2.kind)).or (e.usages.head?.map (·.kind))

/-- What it was declared to be. -/
def declaration (e : Entry) : Option Declaration := e.declared.map (·.2)

/-- The line of the declaration. -/
def declaredLine (e : Entry) : Option Nat := e.declared.map (·.1.start.line)

end Entry

/-- Why a name cannot be declared or used as it was. -/
inductive NameError where
  | declaredTwice (name : String) (kind : Kind) (line : Nat)
  | kindConflict (name : String) (declared found : Kind)
  | usageConflict (name : String) (previous : Kind) (line : Nat) (found : Kind)
  | undeclared (name : String) (kind : Kind) (lines : List Nat)
  | reserved (name : String)
deriving DecidableEq

/-- The wording of the error. -/
def NameError.message : NameError → String
  | .declaredTwice name kind line =>
    kind.name ++ " `" ++ name ++ "` was already declared before on line " ++ toString line
  | .kindConflict name declared found =>
    "`" ++ name ++ "` is declared as a " ++ declared.name ++ ", cannot be used as a " ++ found.name
  | .usageConflict name previous line found =>
    "`" ++ name ++ "` was used as a " ++ previous.name ++ " on line " ++ toString line ++
      ", cannot be used as a " ++ found.name
  | .undeclared name kind lines =>
    kind.name ++ " `" ++ name ++ "` is not declared (used on lines " ++
      ", ".intercalate (lines.map toString) ++ ")"
  | .reserved name => "Names beginning with `__` are reserved: `" ++ name ++ "`"

/-- Whether a name belongs to the compiler. -/
def isReserved (name : String) : Bool := ['_', '_'].isPrefixOf name.toList

/-- The names of a program, in the order in which they first appeared. -/
structure Table where
  entries : List Entry
deriving DecidableEq

namespace Table

/-- No names. -/
def empty : Table := ⟨[]⟩

instance : Inhabited Table := ⟨empty⟩

/-- What is known of a name. -/
def get? (t : Table) (name : String) : Option Entry := t.entries.find? (·.name == name)

/-- Replaces what is known of a name, or adds it at the end. -/
def put (t : Table) (e : Entry) : Table :=
  if (t.get? e.name).isSome then ⟨t.entries.map fun f => if f.name == e.name then e else f⟩
  else ⟨t.entries ++ [e]⟩

/-- What is known of a name, which may be nothing. -/
def entry (t : Table) (name : String) : Entry := (t.get? name).getD ⟨name, none, []⟩

/-- The kind known for a name so far. -/
def kindOf (t : Table) (name : String) : Option Kind := (t.get? name).bind Entry.kind

/-- What a name was declared to be. -/
def declaration (t : Table) (name : String) : Option Declaration :=
  (t.get? name).bind Entry.declaration

/-- The number of a declared variable. -/
def slot? (t : Table) (name : String) : Option UInt8 :=
  match t.declaration name with
  | some (.variable slot) => some slot
  | _ => none

/-- The value of a declared constant. -/
def value? (t : Table) (name : String) : Option Int64 :=
  match t.declaration name with
  | some (.constant value) => some value
  | _ => none

/-- The length of a declared array. -/
def length? (t : Table) (name : String) : Option UInt8 :=
  match t.declaration name with
  | some (.array length) => some length
  | _ => none

/-- Records a declaration. -/
def declare (t : Table) (id : Located String) (what : Declaration) :
    Except (Located NameError) Table :=
  let name := id.value
  if isReserved name then .error ⟨.reserved name, id.place⟩
  else
    let e := t.entry name
    match e.declared with
    | some (place, previous) =>
      if previous.kind = what.kind then
        .error ⟨.declaredTwice name previous.kind place.start.line, id.place⟩
      else .error ⟨.kindConflict name previous.kind what.kind, id.place⟩
    | none => .ok (t.put { e with declared := some (id.place, what) })

/-- Records a use. -/
def use (t : Table) (id : Located String) (kind : Kind) : Except (Located NameError) Table :=
  let name := id.value
  let e := t.entry name
  let recorded := t.put { e with usages := e.usages ++ [⟨id.place, kind⟩] }
  match e.declared, e.usages with
  | some (_, what), _ =>
    if what.kind = kind then .ok recorded
    else .error ⟨.kindConflict name what.kind kind, id.place⟩
  | none, first :: _ =>
    if first.kind = kind then .ok recorded
    else .error ⟨.usageConflict name first.kind first.place.start.line kind, id.place⟩
  | none, [] => .ok recorded

/-- What is wrong with a name once the program has ended. -/
def atEnd (e : Entry) : List (Located NameError) :=
  match e.declared, e.usages with
  | none, [] => []
  | none, first :: _ =>
    [⟨.undeclared e.name first.kind (e.usages.map (·.place.start.line)), first.place⟩]
  | some (_, what), usages =>
    (usages.filter (·.kind ≠ what.kind)).map fun u =>
      ⟨.kindConflict e.name what.kind u.kind, u.place⟩

/-- The order in which names are looked at in the end: names without a use first, then by the
place of the first use. -/
def firstUseLe (a b : Entry) : Bool :=
  match a.usages, b.usages with
  | [], _ => true
  | _ :: _, [] => false
  | u :: _, v :: _ => u.place.start ≤ v.place.start

/-- What is wrong with the names once the program has ended. -/
def finish (t : Table) : List (Located NameError) :=
  (t.entries.mergeSort firstUseLe).flatMap atEnd

/-- What is known of every name, by name. -/
def sorted (t : Table) : List Entry := t.entries.mergeSort fun a b => a.name ≤ b.name

/-- How many names there are. -/
def size (t : Table) : Nat := t.entries.length

end Table

end Gamebook.Symbol
