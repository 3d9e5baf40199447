import Gamebook.Bytecode.Fusion
import Gamebook.Bytecode.Prose
import Gamebook.Grammar.Program
import Gamebook.Memory.Image
import Gamebook.Token.Scanner

/-!
# Compiling a script

A script is scanned and read; if nothing is wrong with it, pairs of instructions are fused, its
texts are compressed, and the result is placed in memory. Every part returns what it noted, also
when it fails.
-/

namespace Gamebook

/-- How a script is compiled. -/
structure CompileOptions where
  grammar : Grammar.Options := {}
  memory : Memory.Options := {}

/-- Why a script is not compiled. -/
inductive CompileError where
  | report (r : Report)
  | prose (e : Prose.ProseError)
  | generate (e : Memory.GenerateError)
  /-- A constant has no value, which ends everything. -/
  | overflow

/-- A compiled script. -/
structure Compilation where
  /-- The instructions as they were placed. -/
  code : List Instruction
  symbols : Symbol.Table
  image : Memory.Image

/-- Reads the tokens of a document as a program. -/
def Document.parse (o : Grammar.Options) (d : Document) :
    Log × Except CompileError Grammar.Program :=
  match Grammar.read d.scan with
  | none => ([], .error .overflow)
  | some reading =>
    match reading.accept o with
    | .error report => (reading.notes, .error (.report report))
    | .ok program => (reading.notes, .ok program)

/-- Places a program in memory; an overflow there is one for good. -/
def generate (o : Memory.Options) (symbols : Symbol.Table) (code : List Instruction) :
    Log × Except CompileError Memory.Image :=
  match Memory.generate o symbols code with
  | (log, .ok image) => (log, .ok image)
  | (log, .error (.constant .quotientOverflow)) => (log, .error .overflow)
  | (log, .error e) => (log, .error (.generate e))

/-- Compiles a document. -/
def Document.compile (o : CompileOptions) (compressor : Prose.Compressor) (d : Document) :
    Log × Except CompileError Compilation :=
  match d.parse o.grammar with
  | (log, .error e) => (log, .error e)
  | (log, .ok program) =>
    let log := log ++ Fusion.notes program.code
    match Prose.compress compressor (Fusion.optimize program.code) with
    | .error e => (log, .error (.prose e))
    | .ok code =>
      match generate o.memory program.symbols code with
      | (more, .error e) => (log ++ more, .error e)
      | (more, .ok image) => (log ++ more, .ok ⟨code, program.symbols, image⟩)

end Gamebook
