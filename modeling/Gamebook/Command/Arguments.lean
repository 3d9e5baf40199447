/-!
# Arguments

The command takes a script, a folder for the banks, and options. Options are written `--name value`
or `--name=value`, or as one letter: `-o folder`, `-ofolder`, `-o=folder`. Letters that take no value
can stand together, and a lone `--` ends the options. Of an option that is given several times, the
value may be left out as long as it is there once. `Settings.ofArguments` reads the arguments, or
says with a `Stop` why nothing is compiled.
-/

namespace Gamebook.Command

/-- An option that takes no value. -/
inductive Switch where
  | sliceTexts
  | strictColons
  | showBytecode
  | showLabels
  | verbose
deriving DecidableEq

/-- An option that takes a value. -/
inductive Parameter where
  | maxErrors
  | bankOffset
  | bankSize
  | maxBanks
  | image
  | track
  | output
deriving DecidableEq

/-- Whether the switch may be given more than once. -/
def Switch.repeats : Switch → Bool
  | verbose => true
  | _ => false

/-- Whether the parameter may be given more than once. -/
def Parameter.repeats : Parameter → Bool
  | bankOffset | bankSize | image | track => true
  | _ => false

/-- What the name of an option stands for. -/
inductive Choice where
  | switch (s : Switch)
  | parameter (p : Parameter)
  | version
  | help
deriving DecidableEq

/-- The option with this name. -/
def Choice.ofName : String → Option Choice
  | "slice-texts" => some (.switch .sliceTexts)
  | "strict-colons" => some (.switch .strictColons)
  | "show-bytecode" => some (.switch .showBytecode)
  | "show-labels" => some (.switch .showLabels)
  | "max-errors" => some (.parameter .maxErrors)
  | "bank-offset" => some (.parameter .bankOffset)
  | "bank-size" => some (.parameter .bankSize)
  | "max-banks" => some (.parameter .maxBanks)
  | "image" => some (.parameter .image)
  | "track" => some (.parameter .track)
  | "version" => some .version
  | "help" => some .help
  | _ => none

/-- The option with this letter. -/
def Choice.ofLetter : Char → Option Choice
  | 'S' => some (.switch .sliceTexts)
  | 'v' => some (.switch .verbose)
  | 'o' => some (.parameter .output)
  | 'V' => some .version
  | 'h' => some .help
  | _ => none

/-- Why nothing is compiled. -/
inductive Stop where
  /-- The arguments make no sense. -/
  | usage
  /-- The version was asked for. -/
  | version
  /-- Help was asked for. -/
  | help
deriving DecidableEq

/-- What the arguments name, in the order in which they name it. -/
structure Given where
  switches : List Switch := []
  /-- Parameters with their values, or without if the value was left out. -/
  values : List (Parameter × Option String) := []
  script : Option String := none

namespace Given

/-- Adds a switch. -/
def turn (g : Given) (s : Switch) : Given := { g with switches := g.switches ++ [s] }

/-- Adds the value of a parameter. -/
def add (g : Given) (p : Parameter) (value : String) : Given :=
  { g with values := g.values ++ [(p, some value)] }

/-- Leaves out the value of the parameter that waits for one, if any. -/
def leave (g : Given) : Option Parameter → Given
  | none => g
  | some p => { g with values := g.values ++ [(p, none)] }

/-- Adds the script, of which there is one. -/
def name (g : Given) (script : String) : Except Stop Given :=
  if g.script.isSome then .error .usage else .ok { g with script := some script }

/-- Adds an option by its name, and returns the parameter that waits for its value. -/
def long (g : Given) (word : List Char) : Except Stop (Given × Option Parameter) :=
  let (name, rest) := word.span (· ≠ '=')
  match Choice.ofName (String.ofList name), rest with
  | some (.switch s), [] => .ok (g.turn s, none)
  | some (.parameter p), [] => .ok (g, some p)
  | some (.parameter p), _ :: value => .ok (g.add p (String.ofList value), none)
  | some .version, [] => .error .version
  | some .help, [] => .error .help
  | _, _ => .error .usage

/-- Adds options by their letters, up to the first that takes a value. -/
def letters (g : Given) : List Char → Except Stop (Given × Option Parameter)
  | [] => .ok (g, none)
  | c :: rest =>
    match Choice.ofLetter c with
    | some (.switch s) => letters (g.turn s) rest
    | some (.parameter p) =>
      match rest with
      | [] => .ok (g, some p)
      | '=' :: value | value => .ok (g.add p (String.ofList value), none)
    | some .version => .error .version
    | some .help => .error .help
    | none => .error .usage

/-- Adds what stands behind a lone `--`. -/
def names (g : Given) : List String → Except Stop Given
  | [] => .ok g
  | word :: rest => do names (← g.name word) rest

/-- Adds all arguments, while a parameter may wait for its value. -/
def collect (g : Given) (waiting : Option Parameter) : List String → Except Stop Given
  | [] => .ok (g.leave waiting)
  | word :: rest =>
    match word.toList with
    | ['-', '-'] => (g.leave waiting).names rest
    | '-' :: '-' :: chars => do
      let (g, waiting) ← (g.leave waiting).long chars
      collect g waiting rest
    | '-' :: c :: chars => do
      let (g, waiting) ← (g.leave waiting).letters (c :: chars)
      collect g waiting rest
    | _ =>
      match waiting with
      | some p => collect (g.add p word) none rest
      | none => do collect (← g.name word) none rest

/-- The values of a parameter. -/
def valuesOf (g : Given) (p : Parameter) : List String :=
  g.values.filterMap fun (q, value) => if q = p then value else none

/-- Whether every parameter has a value at least once, and nothing is given too often. -/
def isSound (g : Given) : Bool :=
  g.values.all (fun (p, _) =>
    !(g.valuesOf p).isEmpty && (p.repeats || (g.values.filter (·.1 = p)).length ≤ 1)) &&
  g.switches.all fun s => s.repeats || g.switches.count s ≤ 1

end Given

/-- What is to be compiled, and how. Numbers are still texts. -/
structure Settings where
  input : String
  output : String
  sliceTexts : Bool := false
  strictColons : Bool := false
  showBytecode : Bool := false
  showLabels : Bool := false
  /-- How often more was asked to be told. -/
  verbosity : Nat := 0
  maxErrors : Option String := none
  bankOffsets : List String := []
  bankSizes : List String := []
  maxBanks : String := "8"
  images : List String := []
  tracks : List String := []

/-- The settings that the arguments name. -/
def Settings.ofGiven (g : Given) : Except Stop Settings :=
  match g.script, g.valuesOf .output with
  | some input, [output] =>
    if g.isSound then
      .ok {
        input := input
        output := output
        sliceTexts := g.switches.contains .sliceTexts
        strictColons := g.switches.contains .strictColons
        showBytecode := g.switches.contains .showBytecode
        showLabels := g.switches.contains .showLabels
        verbosity := g.switches.count .verbose
        maxErrors := (g.valuesOf .maxErrors).head?
        bankOffsets := g.valuesOf .bankOffset
        bankSizes := g.valuesOf .bankSize
        maxBanks := (g.valuesOf .maxBanks).head?.getD "8"
        images := g.valuesOf .image
        tracks := g.valuesOf .track }
    else .error .usage
  | _, _ => .error .usage

/-- Reads the arguments. -/
def Settings.ofArguments (arguments : List String) : Except Stop Settings := do
  Settings.ofGiven (← Given.collect {} none arguments)

end Gamebook.Command
