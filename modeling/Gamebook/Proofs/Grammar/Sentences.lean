import Gamebook.Proofs.Grammar.Areas
import Gamebook.Proofs.Grammar.Crossing
import Gamebook.Proofs.Symbol.Reordering

/-!
# Declarations and drawings as tokens

Tokens that spell a constant (`Spells`) are read as that constant, and its names are used by known
operations. From this follows what a block does with a row of declarations (`Row`) and with a
statement for an area or a window (`Drawing.Spelled`).

There are two lemmas for each. One says how the block goes on where the values are known and no
operation is refused (`Row.block_run`, `Drawing.block_run`). The other says that this must have been
the case where nothing is wrong in the end (`Row.block_inv`, `Drawing.block_inv`). Whether the
constants of an area are known when it is read only shows in what its operands stand for
(`Drawing.Encodes`).
-/

namespace Gamebook

namespace Constant

/-- The uses of names in a constant, wherever they stand. -/
def Expr.uses (e : Expr) : List Symbol.Operation :=
  e.names.map fun name => .use ⟨name, .nowhere⟩ .constant

end Constant

namespace Grammar

open Constant (Expr Values AllBytes)
open Gamebook.Symbol (Operation Table)
open Memory (Context)

/-! ## Operations on the names of a state -/

namespace State

variable {s : State} {op : Operation} {ops : List Operation} {t : Table}

/-- Does the operation. That it is refused is a problem. -/
def perform (s : State) (op : Operation) : State :=
  match op.apply s.symbols with
  | .ok symbols => { s with symbols := symbols }
  | .error e => { s with problems := s.problems ++ [e.map .name] }

theorem foldl_perform (h : s.symbols.Performs ops t) :
    ops.foldl perform s = { s with symbols := t } := by
  induction ops generalizing s with
  | nil =>
    cases h
    rfl
  | cons op ops ih =>
    obtain _ | ⟨first, rest⟩ := h
    rw [List.foldl_cons, perform, first]
    exact ih rest

theorem problems_foldl_perform (s : State) (ops : List Operation) :
    s.problems <+: (ops.foldl perform s).problems := by
  induction ops generalizing s with
  | nil => exact List.prefix_rfl
  | cons op ops ih =>
    refine .trans ?_ (ih (s.perform op))
    unfold perform
    split
    · exact List.prefix_rfl
    · exact List.prefix_append _ _

theorem foldl_perform_behind (s : State) (place : Location) (rest : List Lexeme)
    (ops : List Operation) :
    ops.foldl perform (s.behind place rest) = (ops.foldl perform s).behind place rest := by
  induction ops generalizing s with
  | nil => rfl
  | cons op ops ih =>
    have step : (s.behind place rest).perform op = (s.perform op).behind place rest := by
      unfold perform
      rw [behind_symbols]
      split <;> rfl
    rw [List.foldl_cons, List.foldl_cons, step, ih]

/-- Where nothing is wrong in the end, no operation was refused. -/
theorem exists_performs {T : Accepted}
    (final : (ops.foldl perform s).problems <+: T.state.problems) :
    ∃ t, s.symbols.Performs ops t := by
  induction ops generalizing s with
  | nil => exact ⟨s.symbols, .nil _⟩
  | cons op ops ih =>
    cases first : op.apply s.symbols with
    | ok t₁ =>
      have step : s.perform op = { s with symbols := t₁ } := by rw [perform, first]
      rw [List.foldl_cons, step] at final
      obtain ⟨t, rest⟩ := ih final
      exact ⟨t, .cons first rest⟩
    | error e =>
      have step : s.perform op = { s with problems := s.problems ++ [e.map .name] } := by
        rw [perform, first]
      rw [List.foldl_cons, step] at final
      have wrong := T.fine (e.map .name) (((problems_foldl_perform _ ops).trans final).subset
        (List.mem_append_right _ (List.mem_singleton_self _)))
      simp [Located.map] at wrong

/-- It does not count what was written and noted. -/
theorem Grows.of_written {s final : State} {code : List Instruction} {notes : Log}
    (h : { s with code := code, notes := notes }.Grows final) : s.Grows final := by
  refine .trans ?_ h
  exact .of_same rfl rfl rfl le_rfl

end State

/-! ## Constants as tokens -/

namespace Tree

variable {t : Tree} {e : Expr} {lookup : String → Option Int64}

/-- The tree has no attributes in it, so nothing has to be known for it to be read. -/
def Plain : Tree → Prop
  | number _ | constant _ => True
  | complement e => e.Plain
  | binary _ lhs rhs => lhs.Plain ∧ rhs.Plain
  | _ => False

theorem expr?_of_plain (plain : t.Plain) (lookup lookup' : String → Option Int64) :
    t.expr? lookup = t.expr? lookup' := by
  induction t with
  | number | constant => rfl
  | complement t ih => rw [expr?, expr?, ih plain]
  | binary op a b iha ihb => rw [expr?, expr?, iha plain.1, ihb plain.2]
  | _ => contradiction

theorem lowers_of_plain (plain : t.Plain) (h : t.expr? lookup = some e) : t.Lowers lookup := by
  induction t generalizing e with
  | number | constant => trivial
  | complement t ih =>
    obtain ⟨e', inner, -⟩ := Option.map_eq_some_iff.mp h
    exact ih plain inner
  | binary op a b iha ihb =>
    have whole := h
    simp only [expr?, Option.bind_eq_bind, Option.bind_eq_some_iff] at h
    obtain ⟨-, -, a', ha, b', hb, -⟩ := h
    exact ⟨⟨iha plain.1 ha, ihb plain.2 hb⟩, .inl (by rw [whole]; rfl)⟩
  | _ => contradiction

/-- The operations for the names in a tree. -/
def operations (t : Tree) : List Operation := t.mentions.map fun m => .use m.1 m.2

/-- The names in a constant are those of its tree. -/
theorem operations_of_plain (plain : t.Plain) (h : t.expr? lookup = some e) :
    t.operations.map Operation.bare = e.uses := by
  induction t generalizing e with
  | number | constant =>
    cases h
    rfl
  | complement t ih =>
    obtain ⟨e', inner, rfl⟩ := Option.map_eq_some_iff.mp h
    refine (ih plain inner).trans ?_
    simp [Expr.uses, Expr.names, Expr.unary]
  | binary op a b iha ihb =>
    simp only [expr?, Option.bind_eq_bind, Option.bind_eq_some_iff] at h
    obtain ⟨op', -, a', ha, b', hb, same⟩ := h
    cases same
    have both : (binary op a b).operations = a.operations ++ b.operations := by
      simp [operations, mentions]
    rw [both, List.map_append, iha plain.1 ha, ihb plain.2 hb]
    simp [Expr.uses, Expr.names, Expr.binary]
  | _ => contradiction

end Tree

/-- The tokens spell a constant, in which nothing has to be known. The names in it are used by these
operations. -/
def Spells (e : Expr) (ops : List Operation) (ls : List Lexeme) : Prop :=
  ∃ t : Tree, t.Plain ∧ t.expr? (fun _ => none) = some e ∧ t.operations = ops ∧ Written .bitOr t ls

theorem Spells.bare {e : Expr} {ops : List Operation} {ls : List Lexeme} (h : Spells e ops ls) :
    ops.map Operation.bare = e.uses := by
  obtain ⟨t, plain, expr, rfl, -⟩ := h
  exact Tree.operations_of_plain plain expr

theorem Spells.tokens {e : Expr} {ops : List Operation} {ls : List Lexeme} (h : Spells e ops ls) :
    ∀ l ∈ ls, ∃ token, l.value = .ok token := by
  obtain ⟨t, -, -, -, written⟩ := h
  exact written.tokens

/-- A constant is read as it is spelled, whatever is known of its names. -/
theorem Parser.constant_of_spells {s : State} {e : Expr} {ops : List Operation}
    {ls rest : List Lexeme} (h : Spells e ops ls) (pending : s.pending = ls ++ rest)
    (ends : Next Level.bitOr.stops rest) :
    ∃ place seen, constant s = .done ⟨e, place⟩ ((ops.foldl State.perform s).behind seen rest) := by
  obtain ⟨t, plain, expr, rfl, written⟩ := h
  have expr : t.expr? s.symbols.value? = some e := (Tree.expr?_of_plain plain _ _).trans expr
  have deep : ls.length ≤ s.pending.length + 1 := by
    rw [pending, List.length_append]
    omega
  obtain ⟨place, s', ⟨seen, rfl⟩, run⟩ := (opens_of_written written).reads (s.pending.length + 1) s
    rest deep pending ends (Tree.lowers_of_plain plain expr)
  have folded : t.operations.foldl State.perform s = t.mentions.foldl State.mention s := by
    rw [Tree.operations, List.foldl_map]
    rfl
  refine ⟨place, seen, ?_⟩
  rw [folded, constant, nested, bind_of_done left_apply, constantOver]
  change (levelOver _ .bitOr >>= _) s = _
  rw [bind_of_done run, Tree.value_of_expr? expr]
  rfl

/-- The tokens spell constants with commas between them. -/
inductive SpellsAll : List Expr → List Operation → List Lexeme → Prop
  | one {e : Expr} {ops : List Operation} {ls : List Lexeme} : Spells e ops ls →
    SpellsAll [e] ops ls
  | cons {e : Expr} {es : List Expr} {ops ops' : List Operation} {ls ls' : List Lexeme}
    {place : Location} : Spells e ops ls → SpellsAll es ops' ls' →
    SpellsAll (e :: es) (ops ++ ops') (ls ++ ⟨.ok .comma, place⟩ :: ls')

namespace SpellsAll

variable {es : List Expr} {ops : List Operation} {ls rest : List Lexeme} {s : State}

theorem bare (h : SpellsAll es ops ls) : ops.map Operation.bare = es.flatMap Expr.uses := by
  induction h with
  | one spelled => simp [spelled.bare]
  | cons spelled _ ih => simp [spelled.bare, ih]

theorem tokens (h : SpellsAll es ops ls) : ∀ l ∈ ls, ∃ token, l.value = .ok token := by
  induction h with
  | one spelled => exact spelled.tokens
  | cons spelled _ ih =>
    exact List.forall_mem_append.mpr ⟨spelled.tokens, List.forall_mem_cons.mpr ⟨⟨_, rfl⟩, ih⟩⟩

end SpellsAll

theorem Parser.listOf_of_spellsAll {es : List Expr} {ops : List Operation} {ls rest : List Lexeme}
    {s : State} (h : SpellsAll es ops ls) (pending : s.pending = ls ++ rest)
    (ends : Next Level.bitOr.stops rest) :
    ∃ located seen, located.map (·.value) = es ∧ listOf constant es.length s =
      .done located ((ops.foldl State.perform s).behind seen rest) := by
  induction h generalizing s with
  | one spelled =>
    obtain ⟨place, seen, run⟩ := constant_of_spells spelled pending ends
    refine ⟨[⟨_, place⟩], seen, rfl, ?_⟩
    change (constant >>= _) s = _
    rw [bind_of_done run]
    rfl
  | @cons e es ops ops' ls ls' p spelled others ih =>
    rw [List.append_assoc, List.cons_append] at pending
    obtain ⟨place, seen, run⟩ := constant_of_spells spelled pending
      (.comma p _)
    obtain ⟨located, seen', values, run'⟩ := ih (s := ((ops.foldl State.perform s).behind seen
      (⟨.ok .comma, p⟩ :: (ls' ++ rest))).behind p (ls' ++ rest)) rfl
    obtain ⟨n, length⟩ : ∃ n, es.length = n + 1 := by
      cases others <;> exact ⟨_, rfl⟩
    refine ⟨⟨e, place⟩ :: located, seen', by simp [values], ?_⟩
    rw [length] at run'
    rw [List.length_cons, length, listOf, bind_of_done run, comma,
      bind_of_done (expect_token _ rfl), bind_of_done run', List.foldl_append,
      State.foldl_perform_behind, State.foldl_perform_behind]
    rfl

/-! ## Declarations -/

/-- Uses of constants declare nothing. -/
theorem declares_eq_none {ops : List Operation} {es : List Expr}
    (uses : ops.map Operation.bare = es.flatMap Expr.uses) :
    ∀ op ∈ ops, ∀ name, op.declares name = none := by
  intro op mem name
  have bare : op.bare ∈ es.flatMap Expr.uses := uses ▸ List.mem_map_of_mem mem
  obtain ⟨e, -, used⟩ := List.mem_flatMap.mp bare
  obtain ⟨name', -, same⟩ := List.mem_map.mp used
  rw [← Operation.declares_bare, ← same]
  rfl

theorem Parser.declare_apply (name : Located String) (what : Symbol.Declaration) (s : State) :
    declare name what s = .done () (s.perform (.declare name what)) := rfl

/-- A constant is declared. The names in its value are used by these operations. -/
structure Naming where
  name : Located String
  value : Expr
  uses : List Operation
  uses_bare : uses.map Operation.bare = value.uses

namespace Naming

/-- What is declared, wherever it stands. -/
def content (d : Naming) : String × Expr := (d.name.value, d.value)

/-- What is done to the names if this is the value. -/
def operations (d : Naming) (v : Int64) : List Operation :=
  d.uses ++ [.declare d.name (.constant v)]

/-- The tokens spell the declaration. -/
def Spelled (d : Naming) (ls : List Lexeme) : Prop :=
  ∃ i k value, Spells d.value d.uses value ∧ ls = ⟨.ok (.keyword .CONST), i⟩ ::
    ⟨.ok (.identifier d.name.value), d.name.place⟩ :: ⟨.ok .equals, k⟩ :: value

variable {d : Naming} {s u : State} {t t' : Table} {v : Int64} {ls rest : List Lexeme}
  {block : List Keyword → Parser Unit} {T : Accepted}

theorem still (d : Naming) : ∀ op ∈ d.uses, ∀ name, op.declares name = none := by
  have uses : d.uses.map Operation.bare = [d.value].flatMap Expr.uses := by simp [d.uses_bare]
  exact declares_eq_none uses

/-- The constants that are known behind a declaration. -/
theorem value?_of_performs (h : t.Performs (d.operations v) t') :
    t'.value? = Function.update t.value? d.name.value (some v) := by
  obtain ⟨u, used, declared⟩ := Table.Performs.append_iff.mp h
  obtain _ | ⟨declared, last⟩ := declared
  cases last
  have before : u.value? = t.value? := Table.value?_eq (used.declaration d.still)
  funext name
  rw [Table.value?, Table.declaration_apply declared, Operation.declares, ← before]
  by_cases same : d.name.value = name
  · subst same
    simp
  · rw [if_neg same, Option.none_or, Function.update_of_ne (Ne.symm same)]
    rfl

theorem statement_eq (block : List Keyword → Parser Unit) (spelled : d.Spelled ls)
    (pending : s.pending = ls ++ rest) (ends : Next Level.bitOr.stops rest) :
    ∃ place seen, Parser.statement block s =
      (Parser.known ⟨d.value, place⟩ >>= fun v => Parser.declare d.name (.constant v))
        ((d.uses.foldl State.perform s).behind seen rest) := by
  obtain ⟨i, k, value, spells, rfl⟩ := spelled
  simp only [List.cons_append] at pending
  obtain ⟨place, seen, run⟩ :=
    Parser.constant_of_spells (s := s.behind k (value ++ rest)) spells rfl ends
  refine ⟨place, seen, ?_⟩
  have first : Parser.identifier (s.behind i (⟨.ok (.identifier d.name.value), d.name.place⟩ ::
      ⟨.ok .equals, k⟩ :: (value ++ rest))) =
        .done d.name (s.behind d.name.place (⟨.ok .equals, k⟩ :: (value ++ rest))) := by
    rw [Parser.identifier, Parser.bind_of_done (Parser.next_token _ rfl rfl)]
    rfl
  have second : Parser.expect .equals "`=`" (s.behind d.name.place
      (⟨.ok .equals, k⟩ :: (value ++ rest))) = .done () (s.behind k (value ++ rest)) :=
    Parser.expect_token _ rfl
  rw [Parser.statement_of_keyword _ pending]
  change Parser.constStatement _ = _
  rw [Parser.constStatement, Parser.bind_of_done first, Parser.bind_of_done second,
    Parser.bind_of_done run, State.foldl_perform_behind]
  rfl

/-- Where the value is known and nothing is refused, the constant is declared. -/
theorem statement_run (block : List Keyword → Parser Unit) (spelled : d.Spelled ls)
    (pending : s.pending = ls ++ rest) (ends : Next Level.bitOr.stops rest)
    (value : d.value.eval s.symbols.value? = .ok v)
    (performs : s.symbols.Performs (d.operations v) t) :
    ∃ seen, Parser.statement block s = .done () ({ s with symbols := t }.behind seen rest) := by
  obtain ⟨place, seen, run⟩ := d.statement_eq block spelled pending ends
  obtain ⟨u, used, declared⟩ := Table.Performs.append_iff.mp performs
  have before : u.value? = s.symbols.value? := Table.value?_eq (used.declaration d.still)
  rw [State.foldl_perform used] at run
  have last := State.foldl_perform (s := { s with symbols := u }.behind seen rest) declared
  refine ⟨seen, ?_⟩
  rw [run, Parser.bind_of_done (Parser.known_eq_done.mpr ⟨by rw [← value, ← before]; rfl, rfl⟩),
    Parser.declare_apply]
  exact congrArg (Outcome.done ()) last

/-- Where nothing is wrong in the end, the value was known and nothing was refused. -/
theorem statement_inv (spelled : d.Spelled ls) (pending : s.pending = ls ++ rest)
    (ends : Next Level.bitOr.stops rest) (run : Parser.statement block s = .done () u)
    (final : u.Grows T.state) :
    ∃ v t, d.value.eval s.symbols.value? = .ok v ∧ s.symbols.Performs (d.operations v) t := by
  obtain ⟨place, seen, same⟩ := d.statement_eq block spelled pending ends
  rw [same] at run
  obtain ⟨v, s₁, known, declared⟩ := Parser.bind_eq_done.mp run
  obtain ⟨value, rfl⟩ := Parser.known_eq_done.mp known
  -- all operations in a row
  have whole : u = ((d.operations v).foldl State.perform s).behind seen rest := by
    rw [Parser.declare_apply] at declared
    rw [operations, List.foldl_append, ← State.foldl_perform_behind]
    exact (Outcome.done.inj declared).2.symm
  subst whole
  obtain ⟨t, performs⟩ := State.exists_performs (T := T) final.problems
  obtain ⟨t₁, used, -⟩ := Table.Performs.append_iff.mp performs
  have before : t₁.value? = s.symbols.value? := Table.value?_eq (used.declaration d.still)
  refine ⟨v, t, ?_, performs⟩
  rw [← value, State.foldl_perform used, ← before]
  rfl

end Naming

/-! ## Sentences in a block -/

/-- A separator that is no prose. -/
structure Gap where
  token : Token
  place : Location
  isSeparator_eq : isSeparator token = true
  plain : ∀ bytes, token ≠ .text bytes

/-- The separator as it stands in a script. -/
def Gap.lexeme (g : Gap) : Lexeme := ⟨.ok g.token, g.place⟩

/-- No constant goes on with a separator. -/
theorem Gap.stops (g : Gap) (rest : List Lexeme) : Next Level.bitOr.stops (g.lexeme :: rest) := by
  obtain ⟨token, place, separator, plain⟩ := g
  cases token <;> first | contradiction | exact .stops _ rfl (by simp) _ _

namespace Parser

variable {s u t : State} {w : Keyword} {place : Location} {ls rest : List Lexeme} {fuel : Nat}
  {ends : List Keyword}

/-- A block goes on behind a statement and the separator that follows it. -/
theorem block_sentence (g : Gap) (pending : s.pending = ⟨.ok (.keyword w), place⟩ :: ls)
    (opens : isBlockEnd w = false) (run : statement (inner (fuel + 1)) s = .done () u)
    (here : u.pending = g.lexeme :: rest) :
    block (fuel + 2) ends false s = block fuel ends false (u.behind g.place rest) := by
  obtain ⟨needed, same, -⟩ := block_statement ends pending
    (by simp [endsStatement, isSeparator, blockEnd?, opens]) run
  rw [same, block_separator here g.isSeparator_eq g.plain]

/-- A statement is read without a problem if nothing is wrong in the end. -/
theorem statement_of_block {T : Accepted} (strict : T.strict = true)
    (pending : s.pending = ⟨.ok (.keyword w), place⟩ :: ls) (opens : isBlockEnd w = false)
    (run : block (fuel + 1) ends false s = .done () t) (final : t.Grows T.state) :
    ∃ u, statement (inner fuel) s = .done () u ∧ u.Grows T.state := by
  rw [block_opens pending rfl (by simp [blockEnd?, opens])] at run
  obtain ⟨_, u, tried, run⟩ := bind_eq_done.mp run
  have onward := ((block_writes (C := True) strict fuel ends _).grows_of_done run).trans final
  have writes : Writes T True (statement (inner fuel)) [] :=
    statement_writes fun ends => block_writes strict fuel ends false
  exact ⟨u, done_of_attempt writes tried onward, onward⟩

end Parser

/-- The place of the last token, if there is one. -/
def lastPlace (seen : Location) (ls : List Lexeme) : Location :=
  (ls.getLast?.map (·.place)).getD seen

theorem lastPlace_append_cons (seen : Location) (ls : List Lexeme) (l : Lexeme)
    (ls' : List Lexeme) : lastPlace seen (ls ++ l :: ls') = lastPlace l.place ls' := by
  rw [lastPlace, lastPlace, List.getLast?_append_of_ne_nil _ (List.cons_ne_nil _ _),
    List.getLast?_cons]
  cases ls'.getLast? <;> rfl

/-- Declarations in a row, each with a separator behind it. -/
inductive Row : List Naming → List Lexeme → Prop
  | nil : Row [] []
  | cons {d : Naming} {ds : List Naming} {ls ls' : List Lexeme} (g : Gap) : d.Spelled ls →
    Row ds ls' → Row (d :: ds) (ls ++ g.lexeme :: ls')

/-- The values of constants that are declared one after the other. -/
inductive Valued : (String → Option Int64) → List (String × Expr) → List Int64 → Prop
  | nil (lookup : String → Option Int64) : Valued lookup [] []
  | cons {lookup : String → Option Int64} {name : String} {e : Expr} {v : Int64}
    {ds : List (String × Expr)} {vs : List Int64} : e.eval lookup = .ok v →
    Valued (Function.update lookup name (some v)) ds vs → Valued lookup ((name, e) :: ds) (v :: vs)

/-- What is done to the names by declarations with these values. -/
def operationsOf (ds : List Naming) (vs : List Int64) : List Operation :=
  (List.zipWith Naming.operations ds vs).flatten

namespace Row

variable {ds : List Naming} {vs : List Int64} {ls rest : List Lexeme} {s u : State} {t : Table}
  {fuel : Nat} {ends : List Keyword} {T : Accepted}

theorem tokens (h : Row ds ls) : ∀ l ∈ ls, ∃ token, l.value = .ok token := by
  induction h with
  | nil => exact List.forall_mem_nil _
  | cons g spelled _ ih =>
    obtain ⟨i, k, value, spells, rfl⟩ := spelled
    simp only [List.cons_append, List.forall_mem_cons, List.forall_mem_append]
    exact ⟨⟨_, rfl⟩, ⟨_, rfl⟩, ⟨_, rfl⟩, spells.tokens, ⟨_, rfl⟩, ih⟩

theorem length_le (h : Row ds ls) : 2 * ds.length ≤ ls.length := by
  induction h with
  | nil => exact Nat.zero_le _
  | cons g spelled _ ih =>
    obtain ⟨i, k, value, -, rfl⟩ := spelled
    simp only [List.length_append, List.length_cons]
    omega

/-- Where the values are known and nothing is refused, the constants are declared. -/
theorem block_run (h : Row ds ls) (pending : s.pending = ls ++ rest)
    (values : Valued s.symbols.value? (ds.map Naming.content) vs)
    (performs : s.symbols.Performs (operationsOf ds vs) t) :
    Parser.block (fuel + 2 * ds.length) ends false s = Parser.block fuel ends false
      ({ s with symbols := t }.behind (lastPlace s.lastSeen ls) rest) := by
  induction h generalizing s vs with
  | nil =>
    cases values
    cases performs
    cases s
    subst pending
    rfl
  | @cons d ds ls ls' g spelled others ih =>
    obtain _ | ⟨value, values⟩ := values
    obtain ⟨t₁, first, later⟩ := Table.Performs.append_iff.mp performs
    rw [List.append_assoc, List.cons_append] at pending
    obtain ⟨seen, run⟩ := d.statement_run (Parser.inner (fuel + 2 * ds.length + 1)) spelled pending
      (g.stops _) value first
    obtain ⟨i, ls₁, rfl⟩ : ∃ i ls₁, ls = ⟨.ok (.keyword .CONST), i⟩ :: ls₁ := by
      obtain ⟨i, k, value, -, rfl⟩ := spelled
      exact ⟨i, _, rfl⟩
    rw [← d.value?_of_performs first] at values
    rw [List.length_cons, Nat.mul_succ, ← Nat.add_assoc,
      Parser.block_sentence g pending rfl run rfl, lastPlace_append_cons]
    exact ih (s := { s with symbols := t₁ }.behind g.place (ls' ++ rest)) rfl values later

/-- Where nothing is wrong in the end, the values were known and nothing was refused. -/
theorem block_inv (h : Row ds ls) (strict : T.strict = true) (pending : s.pending = ls ++ rest)
    (run : Parser.block (fuel + 2 * ds.length) ends false s = .done () u)
    (final : u.Grows T.state) : ∃ vs t, Valued s.symbols.value? (ds.map Naming.content) vs ∧
      s.symbols.Performs (operationsOf ds vs) t := by
  induction h generalizing s with
  | nil => exact ⟨[], s.symbols, .nil _, .nil _⟩
  | @cons d ds ls ls' g spelled others ih =>
    rw [List.append_assoc, List.cons_append] at pending
    obtain ⟨i, ls₁, rfl⟩ : ∃ i ls₁, ls = ⟨.ok (.keyword .CONST), i⟩ :: ls₁ := by
      obtain ⟨i, k, value, -, rfl⟩ := spelled
      exact ⟨i, _, rfl⟩
    rw [List.length_cons, Nat.mul_succ, ← Nat.add_assoc] at run
    obtain ⟨u₁, first, onward⟩ := Parser.statement_of_block strict pending rfl run final
    obtain ⟨v, t₁, value, performs⟩ := d.statement_inv spelled pending (g.stops _) first onward
    obtain ⟨seen, first'⟩ := d.statement_run (Parser.inner (fuel + 2 * ds.length + 1)) spelled
      pending (g.stops _) value performs
    rw [Parser.block_sentence g pending rfl first' rfl] at run
    obtain ⟨vs, t, values, later⟩ :=
      ih (s := { s with symbols := t₁ }.behind g.place (ls' ++ rest)) rfl run
    refine ⟨v :: vs, t, .cons value ?_, performs.append later⟩
    rw [← d.value?_of_performs performs]
    exact values

end Row

/-! ## Statements with an area or a window -/

namespace Parser

/-- Where nothing is wrong in the end, the parser has changed nothing. -/
structure Quiet {α : Type} (T : Accepted) (p : Parser α) : Prop where
  grows : ∀ {s a u}, p s = .done a u → s.Grows u
  same : ∀ {s a u}, p s = .done a u → u.Grows T.state → u = s

namespace Quiet

variable {α β : Type} {T : Accepted} {p : Parser α} {f : α → Parser β}

protected theorem pure (a : α) : Quiet T (pure a) where
  grows run := by
    cases run
    exact .refl _
  same run _ := by
    cases run
    rfl

protected theorem bind (hp : Quiet T p) (hf : ∀ a, Quiet T (f a)) : Quiet T (p >>= f) where
  grows run := by
    obtain ⟨a, s₁, first, second⟩ := bind_eq_done.mp run
    exact (hp.grows first).trans ((hf a).grows second)
  same run final := by
    obtain ⟨a, s₁, first, second⟩ := bind_eq_done.mp run
    obtain rfl := (hf a).same second final
    exact hp.same first final

theorem report {e : SyntaxError} (wrong : e ≠ .missingColon) (place : Location) :
    Quiet T (report e place) where
  grows run := (report_reads (T := .nothing true) (C := True) place (by simp [wrong])).grows_of_done
    run
  same {s a u} run final := by
    cases run
    exact absurd final
      (Accepted.not_grows (p := ⟨.grammar e, place⟩) (by simp) (by simpa using wrong))

theorem evaluate (e : Expr) : Quiet T (evaluate e) where
  grows run := (evaluate_reads (T := .nothing true) (C := True) e).grows_of_done run
  same {s a u} run _ := by
    unfold Parser.evaluate at run
    split at run
    · contradiction
    · cases run
      rfl

theorem check (width : Constant.Width) (v : Int64) (place : Location) :
    Quiet T (check width v place) := by
  unfold Parser.check
  split
  · exact .pure _
  · exact (report (by simp) place).bind fun _ => .pure _

theorem checkBytes (vs : List (Located Int64)) : Quiet T (checkBytes vs) := by
  induction vs with
  | nil => exact .pure _
  | cons v vs ih => exact (check _ _ _).bind fun _ => ih.bind fun _ => .pure _

theorem immediate (e : Located Expr) (width : Constant.Width) : Quiet T (immediate e width) := by
  refine (evaluate e.value).bind fun result => ?_
  split
  · exact (check _ _ _).bind fun _ => .pure _
  · exact .pure _
  · exact (report (by simp) _).bind fun _ => .pure _

theorem immediates (es : List (Located Expr)) : Quiet T (immediates es) := by
  induction es with
  | nil => exact .pure _
  | cons e es ih => exact (immediate e .byte).bind fun _ => ih.bind fun _ => .pure _

end Quiet

end Parser

namespace Drawing

variable {d : Drawing} {s s₁ u : State} {es : List (Located Expr)} {c : Context}
  {written : List UInt8} {block : List Keyword → Parser Unit} {place : Location} {T : Accepted}

/-- What is written for the values, and what these have to be: if all constants are known when the
statement is read, and if not. -/
def Gives (d : Drawing) (known : Prop) (vs : List Int64) (written : List UInt8) : Prop :=
  known ∧ AllBytes vs ∧ written = d.bytes vs ∨ ¬ known ∧ d.TakenLate vs ∧ written = d.lateBytes vs

/-- What a statement does, wherever its constants are declared. -/
theorem places_iff (block : List Keyword → Parser Unit) (place : Location)
    (args : Parser.listOf Parser.constant d.count s = .done es s₁)
    (later : s₁.symbols.Precedes c.symbols) :
    Places (Parser.statementOf block d.keyword place) s s₁ d.opcode c written ↔
      ∃ vs, Values c.symbols.value? (es.map (·.value)) vs ∧
        d.Gives (∃ ws, Values s₁.symbols.value? (es.map (·.value)) ws) vs written := by
  by_cases known : ∃ ws, Values s₁.symbols.value? (es.map (·.value)) ws
  · obtain ⟨ws, values⟩ := known
    have final : Values c.symbols.value? (es.map (·.value)) ws := values.precede later
    rw [places_iff_of_known args values]
    constructor
    · intro h
      exact ⟨ws, final, .inl ⟨⟨ws, values⟩, h⟩⟩
    · rintro ⟨vs, values', ⟨-, h⟩ | ⟨unknown, -⟩⟩
      · obtain rfl := final.unique values'
        exact h
      · exact absurd ⟨ws, values⟩ unknown
  · rw [places_iff_of_late args later fun vs values => known ⟨vs, values⟩]
    refine exists_congr fun vs => and_congr_right fun _ => ?_
    simp [Gives, known]

/-- Where nothing is wrong in the end, a statement has written one instruction and done nothing
else. -/
theorem statement_inv (args : Parser.listOf Parser.constant d.count s = .done es s₁)
    (run : Parser.statementOf block d.keyword place s = .done () u) (final : u.Grows T.state) :
    ∃ xs notes, u = { s₁ with code := s₁.code ++ [.code d.opcode xs], notes := notes } := by
  have kept {es' : List (Located Expr)} {op : Opcode}
      (run : (Parser.immediates es' >>= fun xs => Parser.emit [.code op xs]) s₁ = .done () u) :
      ∃ xs notes, u = { s₁ with code := s₁.code ++ [.code op xs], notes := notes } := by
    obtain ⟨xs, s₂, computed, last⟩ := Parser.bind_eq_done.mp run
    cases last
    obtain rfl := (Parser.Quiet.immediates es').same computed final.of_written
    exact ⟨xs, s₂.notes, rfl⟩
  have area {op : Opcode} (args : Parser.listOf Parser.constant 4 s = .done es s₁)
      (run : Parser.areaStatement op s = .done () u) :
      ∃ xs notes, u = { s₁ with code := s₁.code ++ [.code op xs], notes := notes } := by
    by_cases known : ∃ vs, Values s₁.symbols.value? (es.map (·.value)) vs
    · obtain ⟨vs, values⟩ := known
      obtain ⟨place, same⟩ := Parser.areaStatement_of_values op args values
      rw [same] at run
      obtain ⟨ns, s₂, checked, drawn⟩ := Parser.bind_eq_done.mp run
      obtain ⟨notes, drawn'⟩ := Parser.drawArea_apply op place ns s₂
      obtain rfl := (Outcome.done.inj (drawn'.symm.trans drawn)).2
      obtain rfl := (Parser.Quiet.checkBytes _).same checked final.of_written
      exact ⟨_, notes, rfl⟩
    · rcases Parser.areaStatement_of_not_values op args fun vs values => known ⟨vs, values⟩ with
        same | ⟨overflowed, -⟩
      · exact kept (same ▸ run)
      · simp [overflowed] at run
  cases d with
  | margins => exact area args run
  | fadeOut => exact area args run
  | window =>
    obtain ⟨e, rfl, arg⟩ := constant_of_listOf args
    have run : Parser.windowStatement s = .done () u := run
    by_cases known : ∃ v, e.value.eval s₁.symbols.value? = .ok v
    · obtain ⟨v, value⟩ := known
      rw [Parser.windowStatement_of_value arg value] at run
      obtain ⟨n, s₂, checked, last⟩ := Parser.bind_eq_done.mp run
      cases last
      obtain rfl := (Parser.Quiet.check _ _ _).same checked final.of_written
      exact ⟨_, s₂.notes, rfl⟩
    · rcases Parser.windowStatement_of_not_value arg fun v value => known ⟨v, value⟩ with
        same | ⟨overflowed, -⟩
      · exact kept (same ▸ run)
      · simp [overflowed] at run

/-- The tokens spell the statement with these constants. The names in it are used by these
operations. -/
def Spelled (d : Drawing) (es : List Expr) (ops : List Operation) (ls : List Lexeme) : Prop :=
  es.length = d.count ∧ ∃ place args, SpellsAll es ops args ∧
    ls = ⟨.ok (.keyword d.keyword), place⟩ :: args

/-- The operands are what is made of the constants when these names are known. -/
def Encodes (d : Drawing) (t : Table) (es : List Expr) (xs : List Operand) : Prop :=
  ∀ c : Context, t.Precedes c.symbols → ∀ written,
    c.operands d.opcode d.opcode.operands xs = .ok written ↔
      ∃ vs, Values c.symbols.value? es vs ∧ d.Gives (∃ ws, Values t.value? es ws) vs written

theorem encodes_of_run {xs : List Operand} {notes : Log}
    (args : Parser.listOf Parser.constant d.count s = .done es s₁)
    (run : Parser.statementOf block d.keyword place s =
      .done () { s₁ with code := s₁.code ++ [.code d.opcode xs], notes := notes }) :
    d.Encodes s₁.symbols (es.map (·.value)) xs := by
  intro c later written
  rw [← places_iff block place args later]
  constructor
  · exact fun encoded => ⟨xs, notes, run, encoded⟩
  · rintro ⟨xs', notes', run', encoded⟩
    have same := congrArg State.code (Outcome.done.inj (run.symm.trans run')).2
    cases List.append_cancel_left same
    exact encoded

end Drawing

/-- The state with these names and notes, in which one more instruction was written. -/
def State.writing (s : State) (t : Table) (i : Instruction) (notes : Log) : State :=
  { s with symbols := t, code := s.code ++ [i], notes := notes }

namespace Drawing

variable {d : Drawing} {es : List Expr} {ops : List Operation} {ls rest : List Lexeme} {g : Gap}
  {s u : State} {t : Table} {T : Accepted}

/-- A block goes on behind the statement, where its instruction is written. -/
theorem block_run (fuel : Nat) (ends : List Keyword) (spelled : d.Spelled es ops ls)
    (pending : s.pending = ls ++ g.lexeme :: rest) (performs : s.symbols.Performs ops t)
    {c : Context} {vs : List Int64} {written : List UInt8} (later : t.Precedes c.symbols)
    (values : Values c.symbols.value? es vs)
    (gives : d.Gives (∃ ws, Values t.value? es ws) vs written) :
    ∃ xs notes, d.Encodes t es xs ∧ Parser.block (fuel + 2) ends false s =
      Parser.block fuel ends false
        ((s.writing t (.code d.opcode xs) notes).behind g.place rest) := by
  obtain ⟨count, place, args, spells, rfl⟩ := spelled
  rw [List.cons_append] at pending
  obtain ⟨located, seen, same, read⟩ := Parser.listOf_of_spellsAll
    (s := s.behind place (args ++ g.lexeme :: rest)) spells rfl (g.stops rest)
  rw [count, State.foldl_perform_behind, State.foldl_perform performs] at read
  subst same
  obtain ⟨xs, notes, run, -⟩ := (places_iff (Parser.inner (fuel + 1)) place read later).mpr
    ⟨vs, values, gives⟩
  refine ⟨xs, notes, encodes_of_run read run, ?_⟩
  have opens : isBlockEnd d.keyword = false := by cases d <;> rfl
  rw [Parser.block_sentence g pending opens ((Parser.statement_of_keyword _ pending).trans run) rfl]
  rfl

/-- Where nothing is wrong in the end, the names were used and an instruction was written. -/
theorem block_inv {fuel : Nat} {ends : List Keyword} (spelled : d.Spelled es ops ls)
    (strict : T.strict = true) (pending : s.pending = ls ++ g.lexeme :: rest)
    (run : Parser.block (fuel + 2) ends false s = .done () u) (final : u.Grows T.state) :
    ∃ t xs notes, s.symbols.Performs ops t ∧ d.Encodes t es xs ∧ Parser.block fuel ends false
      ((s.writing t (.code d.opcode xs) notes).behind g.place rest) = .done () u := by
  obtain ⟨count, place, args, spells, rfl⟩ := spelled
  rw [List.cons_append] at pending
  obtain ⟨located, seen, same, read⟩ := Parser.listOf_of_spellsAll
    (s := s.behind place (args ++ g.lexeme :: rest)) spells rfl (g.stops rest)
  rw [count, State.foldl_perform_behind] at read
  have opens : isBlockEnd d.keyword = false := by cases d <;> rfl
  obtain ⟨u₁, first, onward⟩ := Parser.statement_of_block strict pending opens run final
  rw [Parser.statement_of_keyword _ pending] at first
  obtain ⟨xs, notes, rfl⟩ := statement_inv read first onward
  obtain ⟨t, performs⟩ := State.exists_performs (T := T) onward.of_written.problems
  rw [State.foldl_perform performs] at read first
  subst same
  refine ⟨t, xs, notes, performs, encodes_of_run read first, ?_⟩
  rw [Parser.block_sentence g pending opens ((Parser.statement_of_keyword _ pending).trans first)
    rfl] at run
  exact run

end Drawing

end Grammar

end Gamebook
