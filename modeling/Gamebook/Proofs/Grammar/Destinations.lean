import Gamebook.Proofs.Grammar.Computing
import Gamebook.Proofs.Grammar.Meaning
import Gamebook.Proofs.Grammar.Tracing

/-!
# Assignments as they are written

An assignment has a destination, a sign and values. `AssignmentWritten` says how these are spelled;
the values and the index of the destination are trees. A name in front of an index may be a variable
or an array, and the spelling does not tell which. The declaration does, wherever in the script it
is (`Destination.Declared`).

What is read as an assignment is spelled as one (`Parser.assignment_takes`), and tokens that spell
an assignment are read as this assignment if nothing is wrong in the end: the target is where the
destination leads to (`Destination.Leads`), and the values are those of the trees
(`Parser.assignment_means`).
-/

namespace Gamebook.Grammar

open Constant (Expr)

/-! ## Destinations -/

/-- What values are stored to. -/
inductive Destination where
  /-- A variable, counted from another one if there is an index. -/
  | «variable» (base : Located VariableBase) (index : Option Tree)
  /-- `@v`, the variable with the number that is in this one. -/
  | pointer (base : Located VariableBase) (index : Option Tree)
  | element (array : Located String) (index : Tree)

/-- How far a variable is counted on. -/
inductive Displaces (lookup : String → Option Int64) : Option Tree → Nat → Prop
  | alone : Displaces lookup none 0
  | counted {index : Tree} {n : Int64} : index.Lowers lookup → index.known? lookup = some n →
    Tree.IsByte n → Displaces lookup (some index) n.toInt.toNat

namespace Destination

/-- The ways to write a destination. -/
inductive Written : Destination → List Lexeme → Prop
  | «variable» {base : Located VariableBase} {index : Option Tree} {ls : List Lexeme} :
    VariableWritten base index ls → Written (.variable base index) ls
  | pointer (p : Location) {base : Located VariableBase} {index : Option Tree}
    {ls : List Lexeme} :
    VariableWritten base index ls → Written (.pointer base index) (⟨.ok .indirection, p⟩ :: ls)
  | element (array : Located String) (p q : Location) {index : Tree} {ls : List Lexeme} :
    Grammar.Written .bitOr index ls → Written (.element array index)
      (⟨.ok (.identifier array.value), array.place⟩ :: ⟨.ok .openSquare, p⟩ ::
        (ls ++ [⟨.ok .closeSquare, q⟩]))

/-- The name is declared as what it is taken for. -/
def Declared (symbols : Symbol.Table) : Destination → Prop
  | .variable base _ | .pointer base _ => ∀ name, base.value = .named name →
    (symbols.slot? name).isSome
  | .element array _ => (symbols.length? array.value).isSome

/-- The destination is of the same form as the target and has its name. -/
inductive Resembles : Destination → Target → Prop
  | «variable» {base : Located VariableBase} {index : Option Tree} {v : Variable} :
    base.value = v.base → Resembles (.variable base index) (.variable v)
  | pointer {base : Located VariableBase} {index : Option Tree} {v : Variable} :
    base.value = v.base → Resembles (.pointer base index) (.pointer v)
  | element {array : Located String} {index : Tree} {name : String} {e : Expr} :
    array.value = name → Resembles (.element array index) (.element name e)

/-- The target that the destination leads to. -/
inductive Leads (lookup : String → Option Int64) : Destination → Target → Prop
  | «variable» {base : Located VariableBase} {index : Option Tree} {v : Variable} :
    v.base = base.value → Displaces lookup index v.displacement.toNat →
      Leads lookup (.variable base index) (.variable v)
  | pointer {base : Located VariableBase} {index : Option Tree} {v : Variable} :
    v.base = base.value → Displaces lookup index v.displacement.toNat →
      Leads lookup (.pointer base index) (.pointer v)
  | element {array : Located String} {index : Tree} {e : Expr} :
    index.Lowers lookup → index.expr? lookup = some e →
      Leads lookup (.element array index) (.element array.value e)

end Destination

/-- The ways to write values with commas between them. -/
inductive ListWritten : List Tree → List Lexeme → Prop
  | single {t : Tree} {ls : List Lexeme} : Written .or t ls → ListWritten [t] ls
  | cons (p : Location) {t : Tree} {ts : List Tree} {ls ls' : List Lexeme} :
    Written .or t ls → ListWritten ts ls' → ListWritten (t :: ts) (ls ++ ⟨.ok .comma, p⟩ :: ls')

/-- The ways to write one value, or several between curly brackets. -/
inductive ValuesWritten : List Tree → List Lexeme → Prop
  | single {t : Tree} {ls : List Lexeme} : Written .or t ls → ValuesWritten [t] ls
  | several (p q : Location) {ts : List Tree} {ls : List Lexeme} : ListWritten ts ls →
    ValuesWritten ts (⟨.ok .openCurly, p⟩ :: (ls ++ [⟨.ok .closeCurly, q⟩]))

/-- The ways to write an assignment, behind the word it begins with. -/
inductive AssignmentWritten (dest : Destination) (es : List Tree) : List Lexeme → Prop
  | mk {sign : Token} (p : Location) {ls ls' : List Lexeme} : sign = .keyword .TO ∨ sign = .equals →
    dest.Written ls → ValuesWritten es ls' → AssignmentWritten dest es (ls ++ ⟨.ok sign, p⟩ :: ls')

theorem ListWritten.ne_nil {ts : List Tree} {ls : List Lexeme} (h : ListWritten ts ls) :
    ts ≠ [] := by
  cases h <;> exact List.cons_ne_nil _ _

theorem AssignmentWritten.ne_nil {dest : Destination} {es : List Tree} {ls : List Lexeme}
    (h : AssignmentWritten dest es ls) : es ≠ [] := by
  obtain ⟨p, sign, written, values⟩ := h
  cases values with
  | single => exact List.cons_ne_nil _ _
  | several _ _ listed => exact listed.ne_nil

/-! ### What does not change -/

section Later

variable {lookup lookup' : String → Option Int64}

theorem Displaces.later (later : ∀ name v, lookup name = some v → lookup' name = some v)
    {index : Option Tree} {n : Nat} (h : Displaces lookup index n) :
    Displaces lookup' index n := by
  cases h with
  | alone => exact .alone
  | counted lowers known byte =>
    have here : _ ∧ Tree.KnownByte lookup _ := ⟨lowers, _, known, byte⟩
    exact .counted (Tree.KnownByte.lowers_later later here).1
      (Tree.known?_later later (Tree.expr?_later later lowers) known) byte

theorem Destination.Leads.later (later : ∀ name v, lookup name = some v → lookup' name = some v)
    {dest : Destination} {t : Target} (h : dest.Leads lookup t) : dest.Leads lookup' t := by
  cases h with
  | «variable» base displaced => exact .variable base (displaced.later later)
  | pointer base displaced => exact .pointer base (displaced.later later)
  | element lowers expr =>
    exact .element (lowers.later later (by simp [expr]))
      (by rw [Tree.expr?_later later lowers, expr])

end Later

/-! ### Declarations -/

section Declared

variable {T : Accepted} {dest : Destination} {t : Target}

theorem Accepted.Complete.length_of_scope (h : T.Complete) {name : String}
    (there : T.scope .array name) : ∃ length, T.state.symbols.length? name = some length := by
  rcases there with used | ⟨kind, -⟩
  · obtain ⟨what, declared, kind⟩ := Symbol.Table.declaration_of_uses h.finish used
    cases what with
    | array length => exact ⟨length, by rw [Symbol.Table.length?, declared]⟩
    | _ => simp [Symbol.Declaration.kind] at kind
  · contradiction

/-- No name is declared as both. -/
theorem length?_of_slot? {symbols : Symbol.Table} {name : String}
    (h : (symbols.slot? name).isSome) : symbols.length? name = none := by
  unfold Symbol.Table.slot? at h
  unfold Symbol.Table.length?
  split at h
  · next declared => rw [declared]
  · contradiction

theorem Destination.Resembles.declared (h : dest.Resembles t) (complete : T.Complete)
    (names : t.Scoped T.scope) : dest.Declared T.state.symbols := by
  have spelled {base : Located VariableBase} {v : Variable} (same : base.value = v.base)
      (there : v.Scoped T.scope) (name : String) (named : base.value = .named name) :
      (T.state.symbols.slot? name).isSome := by
    rw [Variable.Scoped, ← same, named] at there
    obtain ⟨number, slot⟩ := complete.slot_of_scope there
    simp [slot]
  cases h with
  | «variable» same => exact spelled same names
  | pointer same => exact spelled same names
  | element same =>
    obtain ⟨length, declared⟩ := complete.length_of_scope names.1
    rw [Destination.Declared, same, declared]
    rfl

end Declared

namespace Parser

/-! ## Assignments that are read are spelled -/

/-- Looking ahead takes nothing from tokens without errors, and what follows may depend on the
state. -/
theorem Takes.look {α : Type} {n : Nat} {g : State → Parser α} {R : α → List Lexeme → Prop}
    (h : ∀ s, Takes (g s) R) : Takes (update (State.look n) >>= fun _ => state >>= g) R := by
  intro s a s' clean run
  have looked : update (State.look n) s = .done () s := congrArg _ (State.look_clean clean n)
  rw [bind_of_done looked] at run
  exact h s s a s' clean run

theorem variableReference_takes :
    Takes variableReference fun v ls => ∃ place index, VariableWritten ⟨v.base, place⟩ index ls :=
  .keep left_keeps fun n => variableOver_takes (primary_takes (n + 1))

theorem index_takes :
    Takes index fun _ ls => ∃ index p q ils, Written .bitOr index ils ∧
      ls = ⟨.ok .openSquare, p⟩ :: (ils ++ [⟨.ok .closeSquare, q⟩]) :=
  .keep left_keeps fun n => indexOver_takes (primary_takes (n + 1))

theorem element_takes : Takes element fun t ls => ∃ dest : Destination, dest.Resembles t ∧
    dest.Written ls := by
  unfold element identifier
  rw [bind_assoc]
  refine .next fun t => ?_
  obtain ⟨token, place⟩ := t
  cases token with
  | identifier name =>
    simp only [pure_bind]
    refine .keep (mention_keeps _ _) fun _ => ?_
    refine .bind index_takes fun e _ ⟨index, p, q, ils, written, bracketed⟩ => .pure ?_
    subst bracketed
    exact ⟨.element ⟨name, place⟩ index, .element rfl,
      by simpa using .element ⟨name, place⟩ p q written⟩
  | _ => exact .fail _ _

theorem target_takes : Takes target fun t ls => ∃ dest : Destination, dest.Resembles t ∧
    dest.Written ls := by
  have variable_takes : Takes (do return Target.variable (← variableReference)) fun t ls =>
      ∃ dest : Destination, dest.Resembles t ∧ dest.Written ls :=
    .bind variableReference_takes fun v ls ⟨place, index, spelled⟩ => .pure
      ⟨.variable ⟨v.base, place⟩ index, .variable rfl, by simpa using .variable spelled⟩
  refine .accept (fun p => ?_) ?_
  · refine .bind variableReference_takes fun v ls ⟨place, index, spelled⟩ => .pure ?_
    exact ⟨.pointer ⟨v.base, place⟩ index, .pointer rfl, by simpa using .pointer p spelled⟩
  · refine .look fun s => ?_
    split
    · split
      · exact variable_takes
      · exact element_takes
    · exact variable_takes

/-- Further values, each behind a comma. -/
theorem commaTail_takes (fuel : Nat) : Takes (commaTail expression fuel) fun _ ls =>
    ∀ t first, Written .or t first → ∃ ts, ListWritten ts (first ++ ls) := by
  induction fuel with
  | zero => exact .pure fun t first written => ⟨[t], by simpa using .single written⟩
  | succ fuel ih =>
    refine .accept (fun p => ?_) (.pure fun t first written =>
      ⟨[t], by simpa using .single written⟩)
    refine .bind expression_takes fun v ls ⟨t', written'⟩ => ?_
    refine .bind ih fun vs ls' others => .pure fun t first written => ?_
    obtain ⟨ts, listed⟩ := others t' ls written'
    exact ⟨t :: ts, by simpa using .cons p written listed⟩

theorem values_takes : Takes values fun _ ls => ∃ es, ValuesWritten es ls := by
  refine .accept (fun p => ?_) ?_
  · simp only [if_true, commaSeparated, bind_assoc]
    refine .bind expression_takes fun v ls ⟨t, written⟩ => .keep left_keeps fun n => ?_
    refine .bind (commaTail_takes n) fun vs ls' others => ?_
    obtain ⟨ts, listed⟩ := others t ls written
    rw [pure_bind]
    refine .expect fun q => .pure ⟨ts, ?_⟩
    have whole : ValuesWritten ts _ := .several p q listed
    simpa using whole
  · refine .bind expression_takes fun v ls ⟨t, written⟩ => .pure ?_
    exact ⟨[t], by simpa using .single written⟩

theorem storeAll_keeps (t : Target) (i : Nat) (vs : List (Located Value)) :
    Keeps (storeAll t i vs) := by
  induction vs generalizing i with
  | nil => exact .pure _
  | cons v vs ih =>
    refine .bind (push_keeps v) fun code => .bind ?_ fun _ => ih (i + 1)
    rintro s _ _ ⟨⟩
    rfl

/-- An assignment is read to its end before anything of it is written. -/
theorem assignment_eq_done {s s' : State} (run : assignment s = .done () s') :
    ∃ t s₁ sign s₂ vs s₃, target s = .done t s₁ ∧ next "`TO` or `=`" s₁ = .done sign s₂ ∧
      (sign.value = .keyword .TO ∨ sign.value = .equals) ∧
      values s₂ = .done vs s₃ ∧ storeAll t 0 vs s₃ = .done () s' := by
  obtain ⟨t, s₁, target, run⟩ := bind_eq_done.mp run
  obtain ⟨⟨token, place⟩, s₂, next, run⟩ := bind_eq_done.mp run
  obtain ⟨sign, stored⟩ : (token = .keyword .TO ∨ token = .equals) ∧
      (values >>= storeAll t 0) s₂ = .done () s' := by
    cases token with
    | equals => exact ⟨.inr rfl, run⟩
    | keyword w =>
      cases w with
      | TO => exact ⟨.inl rfl, run⟩
      | _ => contradiction
    | _ => contradiction
  obtain ⟨vs, s₃, values, stored⟩ := bind_eq_done.mp stored
  exact ⟨t, s₁, _, s₂, vs, s₃, target, next, sign, values, stored⟩

section Runs

variable {T : Accepted} {s s' : State}

/-- The states in which the parts of an assignment are read. -/
theorem grows_of_assignment {t : Target} {s₁ s₂ s₃ : State} {sign : Located Token}
    {vs : List (Located Value)} (signed : next "`TO` or `=`" s₁ = .done sign s₂)
    (listed : values s₂ = .done vs s₃) (stored : storeAll t 0 vs s₃ = .done () s')
    (final : s'.Grows T.state) :
    s₁.Grows T.state ∧ s₂.Grows T.state ∧ s₃.Grows T.state := by
  have final₃ : s₃.Grows T.state :=
    ((storeAll_writes (T := T) t 0 vs).grows_of_done stored).trans final
  have final₂ : s₂.Grows T.state :=
    ((values_reads (T := T) (C := True)).grows_of_done listed).trans final₃
  exact ⟨((next_reads (T := T) (C := True) _).grows_of_done signed).trans final₂, final₂, final₃⟩

/-- An assignment is spelled, and its name is declared as what it is taken for. -/
theorem assignment_takes (complete : T.Complete) (clean : s.Clean)
    (run : assignment s = .done () s') (final : s'.Grows T.state) :
    ∃ dest es ls, AssignmentWritten dest es ls ∧ dest.Declared T.state.symbols ∧
      s.pending = ls ++ s'.pending := by
  obtain ⟨t, s₁, ⟨sign, place⟩, s₂, vs, s₃, aimed, signed, isSign, listed, stored⟩ :=
    assignment_eq_done run
  obtain ⟨final₁, -, -⟩ := grows_of_assignment signed listed stored final
  obtain ⟨ls, ⟨dest, resembles, written⟩, pending⟩ := target_takes s t s₁ clean aimed
  have clean₁ := clean_of_append clean pending
  obtain ⟨rest, pending₁, rfl⟩ := next_eq_done clean₁ signed
  obtain ⟨ls', ⟨es, spelled⟩, pending₂⟩ :=
    values_takes _ vs s₃ (clean_behind pending₁ clean₁) listed
  have kept := storeAll_keeps t 0 vs s₃ () s' stored
  refine ⟨dest, es, _, .mk place isSign written spelled,
    resembles.declared complete (target_reads.result aimed final₁), ?_⟩
  have pending₂ : rest = ls' ++ s₃.pending := pending₂
  rw [pending, pending₁, pending₂, kept]
  simp

/-! ## Assignments that are spelled are read as such -/

variable {dest : Destination} {ls rest : List Lexeme} {p : Location} {sign : Token}

theorem displaced_offset {base : VariableBase} {index : Tree} {lookup : String → Option Int64}
    (h : index.Lowers lookup ∧ index.KnownByte lookup) :
    Displaces lookup (some index)
      (Variable.offset ⟨base, 0⟩ (index.field lookup)).displacement.toNat := by
  obtain ⟨lowers, n, known, byte⟩ := h
  have small : n.toInt.toNat < 65536 := by
    have high := byte.2
    omega
  have displacement : (Variable.offset ⟨base, 0⟩ (index.field lookup)).displacement.toNat =
      n.toInt.toNat := by
    rw [Tree.field_of_known? known, Variable.offset, Memory.toNat_toUInt16 small]
    have least : min (0 + n.toInt.toNat) 0xFFFF = n.toInt.toNat := by omega
    exact (Memory.toNat_toUInt16 (by omega)).trans least
  rw [displacement]
  exact .counted lowers known byte

theorem variableReference_means {base : Located VariableBase} {index : Option Tree} {v : Variable}
    (written : VariableWritten base index ls) (pending : s.pending = ls ++ ⟨.ok sign, p⟩ :: rest)
    (stop : Level.primary.stops sign) (run : variableReference s = .done v s')
    (final : s'.Grows T.state) :
    v.base = base.value ∧ Displaces s.symbols.value? index v.displacement.toNat ∧
      s'.pending = ⟨.ok sign, p⟩ :: rest ∧ s'.symbols.value? = s.symbols.value? := by
  have run : variableOver (primary (s.pending.length + 1)) s = .done v s' := run
  cases written with
  | alone =>
    obtain ⟨s₁, took, read⟩ : ∃ s₁, s.Took (Tree.mentions.ofBase base) _ s₁ ∧
        variableOver (primary (s.pending.length + 1)) s = .done ⟨base.value, 0⟩ s₁ :=
      variableOver_base base pending (.inr ⟨sign, p, rest, rfl, stop⟩)
    rw [read] at run
    cases run
    exact ⟨rfl, .alone, took.pending, took.value?⟩
  | @displaced p' q index ls written =>
    have deep : ls.length ≤ s.pending.length + 1 := by
      simp only [pending, List.length_append, List.length_cons]
      omega
    obtain ⟨known, rfl, took⟩ := variableOver_means (means_of_written written) deep
      (by simpa using pending) run final
    exact ⟨rfl, displaced_offset known, took.pending, took.value?⟩

theorem element_means {array : Located String} {index : Tree} {q : Location} {t : Target}
    (written : Written .bitOr index ls)
    (pending : s.pending = ⟨.ok (.identifier array.value), array.place⟩ :: ⟨.ok .openSquare, p⟩ ::
      (ls ++ ⟨.ok .closeSquare, q⟩ :: rest))
    (run : element s = .done t s') (final : s'.Grows T.state) :
    (Destination.element array index).Leads s.symbols.value? t ∧ s'.pending = rest ∧
      s'.symbols.value? = s.symbols.value? := by
  have named : identifier s = .done array (s.behind array.place (⟨.ok .openSquare, p⟩ ::
      (ls ++ ⟨.ok .closeSquare, q⟩ :: rest))) := by
    rw [identifier, bind_of_done (next_token _ pending rfl)]
    rfl
  rw [element, bind_of_done named, bind_of_done (mention_apply _ _ _)] at run
  obtain ⟨e, s₁, read, onward⟩ := bind_eq_done.mp run
  cases onward
  have used := (State.Took.behind s array.place (⟨.ok .openSquare, p⟩ ::
    (ls ++ ⟨.ok .closeSquare, q⟩ :: rest))).trans (.mention rfl (array, .array))
  have deep : ls.length ≤ ((s.behind array.place (⟨.ok .openSquare, p⟩ ::
      (ls ++ ⟨.ok .closeSquare, q⟩ :: rest))).mention (array, .array)).pending.length + 1 := by
    rw [used.pending]
    simp only [State.behind, List.length_cons, List.length_append]
    omega
  obtain ⟨lowers, expr, took⟩ :=
    indexOver_means (means_of_written written) deep used.pending read final
  rw [used.value?] at lowers expr
  exact ⟨.element lowers expr, took.pending, took.value?.trans used.value?⟩

/-- What does not begin with a sign is told by two tokens. -/
theorem target_eq {tok : Token} {place : Location} (clean : s.Clean)
    (pending : s.pending = ⟨.ok tok, place⟩ :: rest) (plain : tok ≠ .indirection) :
    target s = (match s.pending with
      | ⟨.ok (.identifier name), _⟩ :: ⟨.ok .openSquare, _⟩ :: _ =>
        if s.symbols.kindOf name = some Symbol.Kind.variable then
          (do return Target.variable (← variableReference)) else element
      | _ => do return Target.variable (← variableReference)) s := by
  have looked : update (State.look 1) s = .done () s := congrArg _ (State.look_clean clean 1)
  rw [target, bind_of_done (accept_of_ne pending plain)]
  exact bind_of_done looked

/-- A name in front of an index is taken for a variable if it is known as one by then. -/
theorem target_of_name {name : String} {place : Location} (clean : s.Clean)
    (pending : s.pending = ⟨.ok (.identifier name), place⟩ :: ⟨.ok .openSquare, p⟩ :: rest) :
    target s = (if s.symbols.kindOf name = some .variable then
      (do return Target.variable (← variableReference)) else element) s := by
  rw [target_eq clean pending (by simp), pending]

/-- Anything else is a variable. -/
theorem target_of_other {tok tok' : Token} {place : Location} (clean : s.Clean)
    (pending : s.pending = ⟨.ok tok, place⟩ :: ⟨.ok tok', p⟩ :: rest) (plain : tok ≠ .indirection)
    (other : ∀ name, tok = .identifier name → tok' ≠ .openSquare) :
    target s = (do return Target.variable (← variableReference)) s := by
  rw [target_eq clean pending plain, pending]
  cases tok with
  | identifier name =>
    cases tok' with
    | openSquare => exact absurd rfl (other name rfl)
    | _ => rfl
  | _ => rfl

/-- A name that is declared as a variable is not taken for an array, even if the declaration comes
later. -/
theorem target_variable {base : Located VariableBase} {index : Option Tree} {t : Target}
    (complete : T.Complete) (clean : s.Clean) (written : VariableWritten base index ls)
    (declared : ∀ name, base.value = .named name → (T.state.symbols.slot? name).isSome)
    (pending : s.pending = ls ++ ⟨.ok sign, p⟩ :: rest) (stop : Level.primary.stops sign)
    (run : target s = .done t s') (final : s'.Grows T.state) :
    (do return Target.variable (← variableReference) : Parser Target) s = .done t s' := by
  have names := target_reads.result run final
  cases written with
  | alone =>
    rwa [target_of_other clean pending (by cases base.value <;> simp [variableToken])
      fun _ _ => stop.1] at run
  | displaced q q' inner =>
    simp only [List.cons_append, List.append_assoc] at pending
    cases based : base.value with
    | slot n =>
      rw [based] at pending
      rwa [target_of_other clean pending (by simp [variableToken])
        (by simp [variableToken])] at run
    | named name =>
      rw [based] at pending
      rw [target_of_name clean pending] at run
      split at run
      · exact run
      · have leads : (Destination.element ⟨name, base.place⟩ _).Leads s.symbols.value? t :=
          (element_means inner pending run final).1
        cases leads
        obtain ⟨length, array⟩ := complete.length_of_scope names.1
        simp [length?_of_slot? (declared name based)] at array

/-- A name that is declared as an array is not taken for a variable. -/
theorem target_element {array : Located String} {index : Tree} {q q' : Location} {t : Target}
    (complete : T.Complete) (clean : s.Clean) (written : Written .bitOr index ls)
    (declared : (T.state.symbols.length? array.value).isSome)
    (pending : s.pending = ⟨.ok (.identifier array.value), array.place⟩ ::
      ⟨.ok .openSquare, q⟩ :: (ls ++ ⟨.ok .closeSquare, q'⟩ :: ⟨.ok sign, p⟩ :: rest))
    (stop : Level.primary.stops sign) (run : target s = .done t s') (final : s'.Grows T.state) :
    element s = .done t s' := by
  have names := target_reads.result run final
  rw [target_of_name clean pending] at run
  split at run
  · obtain ⟨v, s₁, read, onward⟩ := bind_eq_done.mp run
    cases onward
    have spelled : VariableWritten ⟨.named array.value, array.place⟩ (some index) _ :=
      .displaced q q' written
    obtain ⟨base, -⟩ := variableReference_means spelled
      (by simpa [variableToken] using pending) stop read final
    have used : T.scope .variable array.value := by
      simpa [Target.Scoped, Variable.Scoped, base] using names
    obtain ⟨number, slot⟩ := complete.slot_of_scope used
    rw [length?_of_slot? (by simp [slot])] at declared
    contradiction
  · exact run

/-- The target is where the destination leads to. -/
theorem target_means {t : Target} (complete : T.Complete) (clean : s.Clean)
    (written : dest.Written ls) (declared : dest.Declared T.state.symbols)
    (pending : s.pending = ls ++ ⟨.ok sign, p⟩ :: rest) (stop : Level.primary.stops sign)
    (run : target s = .done t s') (final : s'.Grows T.state) :
    dest.Leads s.symbols.value? t ∧ s'.pending = ⟨.ok sign, p⟩ :: rest ∧
      s'.symbols.value? = s.symbols.value? := by
  cases written with
  | pointer p' spelled =>
    rw [List.cons_append] at pending
    rw [target, bind_of_done (accept_token pending)] at run
    obtain ⟨v, s₁, read, onward⟩ := bind_eq_done.mp run
    cases onward
    obtain ⟨base, displaced, left, same⟩ :=
      variableReference_means (s := s.behind p' _) spelled rfl stop read final
    exact ⟨.pointer base displaced, left, same⟩
  | «variable» spelled =>
    have taken := target_variable complete clean spelled declared pending stop run final
    obtain ⟨v, s₁, read, onward⟩ := bind_eq_done.mp taken
    cases onward
    obtain ⟨base, displaced, left, same⟩ :=
      variableReference_means spelled pending stop read final
    exact ⟨.variable base displaced, left, same⟩
  | element array q q' inner =>
    simp only [List.cons_append, List.append_assoc, List.nil_append] at pending
    have taken := target_element complete clean inner declared pending stop run final
    exact element_means inner pending taken final

/-- The values that were read are those of the trees. -/
abbrev ReadAs (lookup : String → Option Int64) (es : List Tree) (vs : List (Located Value)) :
    Prop :=
  List.Forall₂ (fun e v => e.Lowers lookup ∧ v.value = e.value lookup) es vs

/-- There are no more values if no comma follows. -/
theorem commaTail_of_ne {tok : Token} (pending : s.pending = ⟨.ok tok, p⟩ :: rest)
    (ne : tok ≠ .comma) (fuel : Nat) : commaTail expression fuel s = .done [] s := by
  cases fuel with
  | zero => rfl
  | succ fuel =>
    rw [commaTail, bind_of_done (accept_of_ne pending ne)]
    rfl

/-- A first value and those behind commas, if there is fuel for all tokens. -/
theorem commaTail_means {es : List Tree} {q : Location} {fuel : Nat} {v : Located Value}
    {vs : List (Located Value)} {s₁ : State} (written : ListWritten es ls)
    (pending : s.pending = ls ++ ⟨.ok .closeCurly, q⟩ :: rest)
    (first : expression s = .done v s₁) (deep : s₁.pending.length ≤ fuel)
    (others : commaTail expression fuel s₁ = .done vs s') (final : s'.Grows T.state) :
    ReadAs s.symbols.value? es (v :: vs) ∧ s'.pending = ⟨.ok .closeCurly, q⟩ :: rest ∧
      s'.symbols.value? = s.symbols.value? := by
  have tail (fuel : Nat) := commaTail_reads (T := T) (C := True) expression_reads fuel
  induction written generalizing s s₁ fuel v vs with
  | single spelled =>
    have final₁ : s₁.Grows T.state := ((tail fuel).grows_of_done others).trans final
    obtain ⟨lowers, value, took⟩ :=
      expression_means spelled pending (.inr ⟨_, q, rest, rfl, rfl⟩) first final₁
    rw [commaTail_of_ne took.pending (by simp)] at others
    cases others
    exact ⟨.cons ⟨lowers, value⟩ .nil, took.pending, took.value?⟩
  | @cons p t ts ls ls' spelled _ ih =>
    have final₁ : s₁.Grows T.state := ((tail fuel).grows_of_done others).trans final
    rw [List.append_assoc] at pending
    obtain ⟨lowers, value, took⟩ :=
      expression_means spelled pending (.inr ⟨.comma, p, _, rfl, rfl⟩) first final₁
    have pending₁ : s₁.pending = ⟨.ok .comma, p⟩ :: (ls' ++ ⟨.ok .closeCurly, q⟩ :: rest) :=
      took.pending
    rw [pending₁, List.length_cons] at deep
    obtain ⟨fuel, rfl⟩ : ∃ n, fuel = n + 1 := ⟨fuel - 1, by omega⟩
    rw [commaTail, bind_of_done (accept_token pending₁)] at others
    obtain ⟨w, s₂, second, onward⟩ := bind_eq_done.mp others
    obtain ⟨ws, s₃, tail, onward⟩ := bind_eq_done.mp onward
    cases onward
    have fewer := ((expression_reads (T := T) (C := True)).grows_of_done second).length_le
    obtain ⟨read, left, same⟩ := ih (s := s₁.behind p _) rfl second
      (fewer.trans (Nat.le_of_succ_le_succ deep)) tail
    have read : ReadAs s₁.symbols.value? ts (w :: ws) := read
    rw [took.value?] at read
    exact ⟨.cons ⟨lowers, value⟩ read, left, same.trans took.value?⟩

theorem values_means {es : List Tree} {vs : List (Located Value)} (written : ValuesWritten es ls)
    (pending : s.pending = ls ++ rest) (ends : Next (goesOn · = false) rest)
    (run : values s = .done vs s') (final : s'.Grows T.state) :
    ReadAs s.symbols.value? es vs ∧ s'.symbols.value? = s.symbols.value? := by
  cases written with
  | single spelled =>
    obtain ⟨tok, place, ls', rfl, ⟨-, plain⟩, -⟩ := head_of_written spelled
    rw [values, bind_of_done (accept_of_ne pending plain)] at run
    obtain ⟨v, s₁, read, onward⟩ := bind_eq_done.mp run
    cases onward
    obtain ⟨lowers, value, took⟩ := expression_means spelled pending ends read final
    exact ⟨.cons ⟨lowers, value⟩ .nil, took.value?⟩
  | several p q listed =>
    rw [List.cons_append, List.append_assoc] at pending
    rw [values, bind_of_done (accept_token pending)] at run
    obtain ⟨ws, s₁, several, onward⟩ := bind_eq_done.mp run
    obtain ⟨_, s₂, closed, onward⟩ := bind_eq_done.mp onward
    cases onward
    obtain ⟨v, s₃, first, several⟩ := bind_eq_done.mp several
    obtain ⟨n, s₄, left, several⟩ := bind_eq_done.mp several
    cases left
    obtain ⟨others, s₅, tail, several⟩ := bind_eq_done.mp several
    cases several
    have final₁ : s₁.Grows T.state :=
      ((expect_reads (T := T) (C := True) _ _).grows_of_done closed).trans final
    obtain ⟨read, left, same⟩ :=
      commaTail_means (s := s.behind p _) listed rfl first le_rfl tail final₁
    obtain rfl := eq_behind_of_expect left closed
    exact ⟨read, same⟩

theorem stops_of_sign (h : sign = .keyword .TO ∨ sign = .equals) :
    isSeparator sign = false ∧ Level.primary.stops sign := by
  rcases h with rfl | rfl
  · exact ⟨rfl, by decide, fun l hl => by simp [infixLevel?] at hl⟩
  · refine ⟨rfl, by decide, fun l hl => ?_⟩
    cases hl
    decide

/-- Tokens that spell an assignment are read as this assignment. -/
theorem assignment_means {es : List Tree} (complete : T.Complete) (clean : s.Clean)
    (written : AssignmentWritten dest es ls) (declared : dest.Declared T.state.symbols)
    (pending : s.pending = ls ++ rest) (ends : Next (goesOn · = false) rest)
    (run : assignment s = .done () s') (final : s'.Grows T.state) :
    ∃ t vs s₁, dest.Leads s.symbols.value? t ∧ t.Scoped T.scope ∧
      ReadAs s.symbols.value? es vs ∧ (∀ v ∈ vs, v.value.Scoped T.scope) ∧
      s₁.symbols.value? = s.symbols.value? ∧ s₁.code = s.code ∧
      storeAll t 0 vs s₁ = .done () s' := by
  obtain ⟨t, s₁, sign', s₂, vs, s₃, aimed, signed, -, listed, stored⟩ := assignment_eq_done run
  obtain ⟨final₁, final₂, final₃⟩ := grows_of_assignment signed listed stored final
  have unwritten : s₃.code = s.code := by
    rw [values_reads.code_eq listed final₃, (next_reads _).code_eq signed final₂,
      target_reads.code_eq aimed final₁]
  have known := values_reads.result listed final₃
  cases written with
  | @mk sign p ls ls' isSign spelled valued =>
    obtain ⟨inside, stop⟩ := stops_of_sign isSign
    rw [List.append_assoc] at pending
    obtain ⟨leads, left, same⟩ :=
      target_means complete clean spelled declared pending stop aimed final₁
    rw [next_token _ left inside] at signed
    cases signed
    obtain ⟨read, same₃⟩ := values_means (s := s₁.behind p _) valued rfl ends listed final₃
    have read : ReadAs s₁.symbols.value? es vs := read
    rw [same] at read
    exact ⟨t, vs, s₃, leads, target_reads.result aimed final₁, read, known, same₃.trans same,
      unwritten, stored⟩

end Runs

end Parser

end Gamebook.Grammar
