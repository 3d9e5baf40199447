import Gamebook.Compilation
import Gamebook.Proofs.Bytecode.Expansion
import Gamebook.Proofs.Bytecode.Prose
import Gamebook.Proofs.Grammar.Sentences
import Gamebook.Proofs.Memory.Exchange

/-!
# Declarations that are moved

A `Passage` is a place in a script where constants are declared next to a statement with an area or
a window that has no other names. The declarations stand before the statement in one arrangement and
behind it in the other. Scripts are located, so what is moved may stand elsewhere in every respect;
what comes before and behind the passage is the same.

A block that gets through the passage in one arrangement gets through it in the other, if there is
something to write for the statement there (`Passage.passable`). The names are used and declared in
another order, so the tables agree but are not the same, and the code differs in one instruction.
The rest of the script is read alike, and when the program is placed in memory only the bytes of
that instruction are exchanged (`Passage.Builds.exchange`). So what both arrangements compile to is
known from the values of the constants (`Passage.Builds.arrangements`).

`drawing_moves_iff_steady` puts this together with what is known of the statement alone.
-/

namespace Gamebook.Grammar

open Constant (Expr Values AllBytes)
open Gamebook.Symbol (Operation Table)
open Memory (Context Frame)

/-! ## Passages -/

/-- Where the declarations stand. -/
inductive Arrangement where
  /-- Before the statement. -/
  | early
  /-- Behind it. -/
  | late
deriving DecidableEq

/-- The other arrangement. -/
def Arrangement.other : Arrangement → Arrangement
  | early => late
  | late => early

/-- A statement with an area or a window, and declarations of all the constants in it, of which
there is one at least. -/
structure Matter where
  drawing : Drawing
  constants : List Expr
  declarations : List (String × Expr)
  declared : ∀ e ∈ constants, ∀ name ∈ e.names, name ∈ declarations.map Prod.fst
  named : ∃ e ∈ constants, e.names ≠ []

/-- The declarations and the statement as tokens. -/
structure Wording (m : Matter) where
  namings : List Naming
  content : namings.map Naming.content = m.declarations
  row : List Lexeme
  isRow : Row namings row
  uses : List Operation
  statement : List Lexeme
  spelled : m.drawing.Spelled m.constants uses statement

namespace Wording

variable {m : Matter} (w : Wording m)

/-- What is done to the names if these are the values of the declarations. -/
def operations : Arrangement → List Int64 → List Operation
  | .early, vs => operationsOf w.namings vs ++ w.uses
  | .late, vs => w.uses ++ operationsOf w.namings vs

theorem length_eq : m.declarations.length = w.namings.length := by
  rw [← w.content, List.length_map]

theorem bare_uses : w.uses.map Operation.bare = m.constants.flatMap Expr.uses := by
  obtain ⟨-, place, args, spells, -⟩ := w.spelled
  exact spells.bare

theorem tokens : (∀ l ∈ w.row, ∃ token, l.value = .ok token) ∧
    ∀ l ∈ w.statement, ∃ token, l.value = .ok token := by
  refine ⟨w.isRow.tokens, ?_⟩
  obtain ⟨-, place, args, spells, same⟩ := w.spelled
  rw [same]
  exact List.forall_mem_cons.mpr ⟨⟨_, rfl⟩, spells.tokens⟩

end Wording

/-- The operations of declarations are the same wherever they stand. -/
theorem bare_operationsOf {ds ds' : List Naming}
    (same : ds'.map Naming.content = ds.map Naming.content) (vs : List Int64) :
    (operationsOf ds' vs).map Operation.bare = (operationsOf ds vs).map Operation.bare := by
  induction ds generalizing ds' vs with
  | nil =>
    obtain rfl := List.map_eq_nil_iff.mp same
    rfl
  | cons d ds ih =>
    obtain ⟨d', ds', rfl, content, others⟩ := List.map_eq_cons_iff.mp same
    cases vs with
    | nil => rfl
    | cons v vs =>
      obtain ⟨name, value⟩ := Prod.mk.inj content
      simp only [operationsOf, List.zipWith_cons_cons, List.flatten_cons, List.map_append,
        Naming.operations, d'.uses_bare, d.uses_bare, value, List.map_cons, Operation.bare, name]
      exact congrArg _ (ih others vs)

/-- What is declared in a row was not declared before, and is known behind it. -/
theorem declared_row {lookup : String → Option Int64} {ds : List Naming} {vs : List Int64}
    {t t' : Table} (values : Valued lookup (ds.map Naming.content) vs)
    (h : t.Performs (operationsOf ds vs) t') {name : String}
    (mem : name ∈ (ds.map Naming.content).map Prod.fst) :
    t.value? name = none ∧ t'.value? name ≠ none := by
  induction ds generalizing lookup vs t with
  | nil => contradiction
  | cons d ds ih =>
    obtain _ | ⟨value, others⟩ := values
    obtain ⟨t₁, first, later⟩ := Table.Performs.append_iff.mp h
    rcases List.mem_cons.mp mem with rfl | mem
    · obtain ⟨u, used, declared⟩ := Table.Performs.append_iff.mp first
      obtain _ | ⟨declared, -⟩ := declared
      have undeclared : t.declaration d.name.value = none := by
        rw [← used.declaration d.still]
        exact Table.declaration_eq_none_of_declare declared
      have known := later.run.precedes d.name.value _
        ((congrFun (d.value?_of_performs first) _).trans (Function.update_self ..))
      exact ⟨by rw [Table.value?, Naming.content, undeclared], by rw [Naming.content, known]; simp⟩
    · obtain ⟨undeclared, known⟩ := ih others later mem
      refine ⟨?_, known⟩
      by_contra declared
      obtain ⟨v, declared⟩ := Option.ne_none_iff_exists'.mp declared
      rw [first.run.precedes name v declared] at undeclared
      contradiction

/-- A passage in a script, in both arrangements. Behind it stands the same separator. -/
structure Passage extends Matter where
  front : List Lexeme
  opening : Token
  place : Location
  isSeparator_opening : isSeparator opening = true
  early : Wording toMatter
  late : Wording toMatter
  /-- Between the statement and the declarations, where they stand behind it. -/
  gap : Gap
  stop : Gap
  stops : late.row.getLast? = some stop.lexeme
  length_eq : late.row.length + late.statement.length = early.row.length + early.statement.length
  back : List Lexeme
  frontClean : ∀ l ∈ front, ∃ token, l.value = .ok token
  backClean : ∀ l ∈ back, ∃ token, l.value = .ok token

namespace Passage

variable (p : Passage)

/-- The tokens of an arrangement. -/
def wording : Arrangement → Wording p.toMatter
  | .early => p.early
  | .late => p.late

/-- What stands behind the separator in front of the passage. -/
def tail : Arrangement → List Lexeme
  | .early => p.early.row ++ (p.early.statement ++ p.stop.lexeme :: p.back)
  | .late => p.late.statement ++ p.gap.lexeme :: (p.late.row ++ p.back)

/-- The whole script. -/
def script (a : Arrangement) : List Lexeme := p.front ++ ⟨.ok p.opening, p.place⟩ :: p.tail a

/-- What is done to the names in an arrangement. -/
def operations (a : Arrangement) (vs : List Int64) : List Operation :=
  (p.wording a).operations a vs

theorem length_tail (a b : Arrangement) : (p.tail b).length = (p.tail a).length := by
  have same := p.length_eq
  cases a <;> cases b <;> simp [tail] <;> omega

theorem tail_clean (a : Arrangement) : ∀ l ∈ p.tail a, ∃ token, l.value = .ok token := by
  have gap (g : Gap) : ∃ token, g.lexeme.value = .ok token := ⟨g.token, rfl⟩
  cases a with
  | early =>
    simp only [tail, List.forall_mem_append, List.forall_mem_cons]
    exact ⟨p.early.tokens.1, p.early.tokens.2, gap _, p.backClean⟩
  | late =>
    simp only [tail, List.forall_mem_append, List.forall_mem_cons]
    exact ⟨p.late.tokens.2, gap _, p.late.tokens.1, p.backClean⟩

/-- The fork between two arrangements. -/
def fork (a b : Arrangement) : Fork where
  separator := p.opening
  place := p.place
  first := p.tail a
  second := p.tail b
  isSeparator_eq := p.isSeparator_opening
  length_eq := p.length_tail a b
  firstClean := p.tail_clean a
  secondClean := p.tail_clean b

/-- Operations that are done in one arrangement are done in the other, and lead to the same. -/
theorem performs {a : Arrangement} (b : Arrangement) {vs : List Int64} {t t' final : Table}
    (h : t.Performs (p.operations a vs) t') (fits : t'.Fits final) :
    ∃ u, t.Performs (p.operations b vs) u ∧ t'.Agrees u := by
  -- the operations of one arrangement, in the order of the other
  let between : List Operation := (p.wording a).operations b vs
  have perm : (p.operations a vs).Perm between := by
    cases a <;> cases b <;> first | exact .refl _ | exact List.perm_append_comm
  obtain ⟨u, done, agrees⟩ := h.perm perm fits
  have declared := bare_operationsOf ((p.wording b).content.trans (p.wording a).content.symm) vs
  have used := (p.wording b).bare_uses.trans (p.wording a).bare_uses.symm
  have same : (p.operations b vs).map Operation.bare = between.map Operation.bare := by
    cases b <;> simp only [operations, between, Wording.operations, List.map_append, declared, used]
  obtain ⟨u', done', agrees'⟩ := done.agree (.refl t) same (agrees.fits fits)
  exact ⟨u', done', agrees.trans agrees'⟩

/-- The operands stand for the constants of the statement with the names that there are in the
end. -/
def Stands (a : Arrangement) (final : Table) (xs : List Operand) : Prop :=
  ∀ c : Context, c.symbols.value? = final.value? → ∀ written,
    c.operands p.drawing.opcode p.drawing.opcode.operands xs = .ok written ↔
      ∃ vs, Values final.value? p.constants vs ∧ p.drawing.Gives (a = .early) vs written

variable {p} {a : Arrangement} {s u : State} {t t' final : Table} {vs : List Int64} {fuel : Nat}
  {ends : List Keyword} {T : Accepted}

theorem stands_of_encodes {xs : List Operand} (h : p.drawing.Encodes t p.constants xs)
    (later : t.Precedes final) (known : ∀ vs, Values final.value? p.constants vs →
      ((∃ ws, Values t.value? p.constants ws) ↔ a = .early)) : p.Stands a final xs := by
  intro c same written
  have before : t.Precedes c.symbols := fun name v declared => by
    rw [same]
    exact later name v declared
  rw [h c before written, same]
  refine exists_congr fun vs => and_congr_right fun values => ?_
  rw [Drawing.Gives, Drawing.Gives, known vs values]

/-- All constants of the statement are known behind the declarations. -/
theorem known_early (values : Valued t.value? p.declarations vs)
    (h : t.Performs (p.operations .early vs) t') :
    ∀ e ∈ p.constants, ∀ name ∈ e.names, t'.value? name ≠ none := by
  obtain ⟨t₁, declared, used⟩ := Table.Performs.append_iff.mp h
  intro e mem name mem'
  have mem'' := p.declared e mem name mem'
  rw [← p.early.content] at mem'' values
  obtain ⟨-, known⟩ := declared_row values declared mem''
  have same : t'.value? = t₁.value? :=
    Table.value?_eq (used.declaration (declares_eq_none p.early.bare_uses))
  rwa [same]

/-- One of them is not known before the declarations. -/
theorem missing_late {t₁ : Table} (values : Valued t.value? p.declarations vs)
    (h : t₁.Performs (operationsOf p.late.namings vs) t') :
    ∃ e ∈ p.constants, ∃ name ∈ e.names, t₁.value? name = none := by
  obtain ⟨e, mem, named⟩ := p.named
  obtain ⟨name, mem'⟩ := List.exists_mem_of_ne_nil _ named
  have mem'' := p.declared e mem name mem'
  rw [← p.late.content] at mem'' values
  exact ⟨e, mem, name, mem', (declared_row values h mem'').1⟩

/-- The uses of the statement make no constant known. -/
theorem value?_of_uses (h : t.Performs p.late.uses t') : t'.value? = t.value? :=
  Table.value?_eq (h.declaration (declares_eq_none p.late.bare_uses))

theorem lastPlace_late (seen : Location) : lastPlace seen p.late.row = p.stop.place := by
  rw [lastPlace, p.stops]
  rfl

/-- Behind the declarations the statement has the values it has in the end. -/
theorem known_iff_of_early {ws : List Int64} (later : t.Precedes final)
    (known : ∀ e ∈ p.constants, ∀ name ∈ e.names, t.value? name ≠ none)
    (values : Values final.value? p.constants ws) :
    (∃ ws, Values t.value? p.constants ws) ↔ Arrangement.early = .early :=
  iff_of_true ⟨ws, (Values.known_iff later known).mpr values⟩ rfl

/-- Before them it has none. -/
theorem known_iff_of_late
    (missing : ∃ e ∈ p.constants, ∃ name ∈ e.names, t.value? name = none) :
    (∃ ws, Values t.value? p.constants ws) ↔ Arrangement.late = .early := by
  obtain ⟨e, mem, name, mem', none⟩ := missing
  refine iff_of_false ?_ (by decide)
  rintro ⟨vs, values⟩
  exact Values.not_of_missing mem mem' none values

/-- Where nothing is wrong in the end, the passage is read with values for all declarations. -/
theorem block_inv (strict : T.strict = true) (pending : s.pending = p.tail a)
    (run : Parser.block (fuel + 2 + 2 * p.declarations.length) ends false s = .done () u)
    (final : u.Grows T.state) :
    ∃ vs t xs notes, Valued s.symbols.value? p.declarations vs ∧
      s.symbols.Performs (p.operations a vs) t ∧ p.Stands a T.state.symbols xs ∧
      Parser.block fuel ends false ((s.writing t (.code p.drawing.opcode xs) notes).behind
        p.stop.place p.back) = .done () u := by
  have onward {fuel : Nat} {s₁ : State} (rest : Parser.block fuel ends false s₁ = .done () u) :
      s₁.symbols.Run T.state.symbols :=
    (((Parser.block_writes (C := True) strict fuel ends _).grows_of_done rest).trans final).symbols
  cases a with
  | early =>
    rw [p.early.length_eq] at run
    obtain ⟨vs, t₁, values, declared⟩ := p.early.isRow.block_inv strict pending run final
    rw [p.early.isRow.block_run pending values declared] at run
    obtain ⟨t, xs, notes, used, encodes, rest⟩ := Drawing.block_inv p.early.spelled strict rfl run
      final
    rw [p.early.content] at values
    have performs : s.symbols.Performs (p.operations .early vs) t := declared.append used
    have later : t.Precedes T.state.symbols := (onward rest).precedes
    refine ⟨vs, t, xs, notes, values, performs, stands_of_encodes encodes later fun ws => ?_, rest⟩
    exact known_iff_of_early later (known_early values performs)
  | late =>
    rw [p.late.length_eq, Nat.add_right_comm] at run
    obtain ⟨t₁, xs, notes, used, encodes, rest⟩ := Drawing.block_inv p.late.spelled strict pending
      run final
    obtain ⟨vs, t, values, declared⟩ := p.late.isRow.block_inv strict rfl rest final
    have here := rest
    rw [p.late.isRow.block_run rfl values declared] at rest
    rw [p.late.content] at values
    have before : t₁.value? = s.symbols.value? := value?_of_uses used
    have later : t₁.Precedes T.state.symbols := (onward here).precedes
    refine ⟨vs, t, xs, notes, before ▸ values, used.append declared,
      stands_of_encodes encodes later fun _ _ => ?_, ?_⟩
    · exact known_iff_of_late (missing_late values declared)
    · rw [lastPlace_late] at rest
      exact rest

/-- The passage is read where nothing is refused and its statement has something to write. -/
theorem block_run (fuel : Nat) (ends : List Keyword) {ws : List Int64} {written : List UInt8}
    (pending : s.pending = p.tail a) (values : Valued s.symbols.value? p.declarations vs)
    (performs : s.symbols.Performs (p.operations a vs) t) (later : t.Precedes final)
    (known : Values final.value? p.constants ws)
    (gives : p.drawing.Gives (a = .early) ws written) :
    ∃ xs notes, p.Stands a final xs ∧
      Parser.block (fuel + 2 + 2 * p.declarations.length) ends false s =
        Parser.block fuel ends false ((s.writing t (.code p.drawing.opcode xs) notes).behind
          p.stop.place p.back) := by
  let c : Context := ⟨final, [], []⟩
  cases a with
  | early =>
    obtain ⟨t₁, declared, used⟩ := Table.Performs.append_iff.mp performs
    have iff {ws : List Int64} (known : Values final.value? p.constants ws) :
        (∃ ws, Values t.value? p.constants ws) ↔ Arrangement.early = .early :=
      known_iff_of_early later (known_early values performs) known
    rw [← p.early.content] at values
    rw [p.early.length_eq, p.early.isRow.block_run pending values declared]
    obtain ⟨xs, notes, encodes, run⟩ := Drawing.block_run (c := c) fuel ends
      (s := { s with symbols := t₁ }.behind (lastPlace s.lastSeen p.early.row)
        (p.early.statement ++ p.stop.lexeme :: p.back))
      p.early.spelled rfl used later known (by rwa [Drawing.Gives, iff known])
    exact ⟨xs, notes, stands_of_encodes encodes later fun ws => iff, run⟩
  | late =>
    obtain ⟨t₁, used, declared⟩ := Table.Performs.append_iff.mp performs
    have later : t₁.Precedes final := fun name v here => later name v
      (declared.run.precedes name v here)
    have iff := known_iff_of_late (missing_late values declared)
    obtain ⟨xs, notes, encodes, run⟩ := Drawing.block_run (c := c)
      (fuel + 2 * p.late.namings.length) ends p.late.spelled pending used later known
      (by rwa [Drawing.Gives, iff])
    have before : t₁.value? = s.symbols.value? := value?_of_uses used
    rw [← before, ← p.late.content] at values
    refine ⟨xs, notes, stands_of_encodes encodes later fun _ _ => iff, ?_⟩
    rw [p.late.length_eq, Nat.add_right_comm, run, p.late.isRow.block_run rfl values declared,
      lastPlace_late]
    rfl

/-- One instruction for the statement and another one, each as it is written in an arrangement. -/
def Replaces (p : Passage) (a b : Arrangement) (final : Table) (i i' : Instruction) : Prop :=
  ∃ xs xs', i = .code p.drawing.opcode xs ∧ i' = .code p.drawing.opcode xs' ∧
    p.Stands a final xs ∧ p.Stands b final xs'

theorem exists_fuel (enough : (p.tail a).length ≤ fuel) :
    ∃ fuel', fuel = fuel' + 2 + 2 * p.declarations.length := by
  have row (w : Wording p.toMatter) : 2 * p.declarations.length ≤ w.row.length := by
    rw [w.length_eq]
    exact w.isRow.length_le
  have statement (w : Wording p.toMatter) : 0 < w.statement.length := by
    obtain ⟨-, place, args, -, same⟩ := w.spelled
    simp [same]
  refine ⟨fuel - (2 + 2 * p.declarations.length), ?_⟩
  have early := row p.early
  have late := row p.late
  have early' := statement p.early
  have late' := statement p.late
  cases a <;> simp only [tail, List.length_append, List.length_cons] at enough <;> omega

/-- A passage is passed in both of two arrangements, if there is something to write in the second
one. -/
theorem passable {b : Arrangement} {ws : List Int64} {written : List UInt8}
    (strict : T.strict = true) (settled : T.state.symbols.Settled)
    (known : Values T.state.symbols.value? p.constants ws)
    (gives : p.drawing.Gives (b = .early) ws written) :
    (p.fork a b).Passable (p.Replaces a b T.state.symbols) T := by
  intro fuel ends s t pending enough run final
  obtain ⟨fuel, rfl⟩ := exists_fuel enough
  obtain ⟨vs, t₁, xs, notes, values, performs, stands, rest⟩ := block_inv strict pending run final
  have writes := Parser.block_writes (T := T) (C := True) strict fuel ends false
  have onward : t₁.Run T.state.symbols := ((writes.grows_of_done rest).trans final).symbols
  obtain ⟨u, performs', agrees⟩ := p.performs b performs (onward.fits settled)
  have later : u.Precedes T.state.symbols := by
    intro name v here
    rw [agrees.value?] at here
    exact onward.precedes name v here
  obtain ⟨xs', notes', stands', run'⟩ := block_run (s := { s with pending := p.tail b }) fuel ends
    rfl values performs' later known gives
  have behind : Behind (p.Replaces a b T.state.symbols)
      ((s.writing t₁ (.code p.drawing.opcode xs) notes).behind p.stop.place p.back)
      (({ s with pending := p.tail b }.writing u (.code p.drawing.opcode xs') notes').behind
        p.stop.place p.back) :=
    ⟨⟨rfl, rfl, rfl, rfl, agrees⟩, s.code, _, _, [], ⟨xs, xs', rfl, rfl, stands, stands'⟩, rfl, rfl⟩
  obtain ⟨t', rest', there⟩ := behind.follow writes.follows settled rest final
  exact ⟨t', run'.trans rest', there⟩

/-- Where one arrangement is read, the instruction of its statement can be followed to the end. -/
theorem passable_self (strict : T.strict = true) (settled : T.state.symbols.Settled) :
    (p.fork a a).Passable (p.Replaces a a T.state.symbols) T := by
  intro fuel ends s t pending enough run final
  obtain ⟨fuel, rfl⟩ := exists_fuel enough
  have same : ({ s with pending := (p.fork a a).second } : State) = s := by
    cases s
    subst pending
    rfl
  rw [same]
  obtain ⟨vs, t₁, xs, notes, values, performs, stands, rest⟩ := block_inv strict pending run final
  have writes := Parser.block_writes (T := T) (C := True) strict fuel ends false
  have behind : Behind (p.Replaces a a T.state.symbols)
      ((s.writing t₁ (.code p.drawing.opcode xs) notes).behind p.stop.place p.back)
      ((s.writing t₁ (.code p.drawing.opcode xs) notes).behind p.stop.place p.back) :=
    ⟨⟨rfl, rfl, rfl, rfl, .refl t₁⟩, s.code, _, _, [], ⟨xs, xs, rfl, rfl, stands, stands⟩, rfl, rfl⟩
  obtain ⟨t', rest', there⟩ := behind.follow writes.follows settled rest final
  obtain rfl := (Outcome.done.inj (rest.symm.trans rest')).2
  exact ⟨t, run, there⟩

end Passage

/-! ## Programs in memory -/

/-- An instruction for an area or a window is fused with no other. -/
theorem Drawing.alone (d : Drawing) (xs : List Operand) : Fusion.Alone (.code d.opcode xs) := by
  refine ⟨fun j => ?_, fun j => ?_, ?_⟩
  · cases fused : Fusion.fuse (.code d.opcode xs) j with
    | none => rfl
    | some k =>
      generalize same : Instruction.code d.opcode xs = i at fused
      cases Fusion.fuses_of_fuse fused <;> cases d <;> cases same
  · cases fused : Fusion.fuse j (.code d.opcode xs) with
    | none => rfl
    | some k =>
      generalize same : Instruction.code d.opcode xs = i at fused
      cases Fusion.fuses_of_fuse fused with
      | direct h => cases d <;> cases same <;> contradiction
      | _ => cases d <;> cases same
  · cases d <;> simp [Instruction.opcode?, Drawing.opcode]

theorem Drawing.Gives.unique {d : Drawing} {known : Prop} {vs : List Int64}
    {written written' : List UInt8} (h : d.Gives known vs written)
    (h' : d.Gives known vs written') : written = written' := by
  obtain ⟨yes, -, rfl⟩ | ⟨no, -, rfl⟩ := h
  · obtain ⟨-, -, rfl⟩ | ⟨no, -⟩ := h'
    · rfl
    · contradiction
  · obtain ⟨yes, -⟩ | ⟨-, -, rfl⟩ := h'
    · contradiction
    · rfl

/-- The program is placed in memory with these bytes in its banks, once its pairs are fused and its
texts compressed. -/
def Program.Fills (o : Memory.Options) (compressor : Prose.Compressor) (q : Program)
    (contents : List (List UInt8)) : Prop :=
  ∃ code log image, Prose.compress compressor (Fusion.optimize q.code) = .ok code ∧
    Memory.generate o q.symbols code = (log, .ok image) ∧ image.contents = contents

/-- If the operands of an instruction are replaced, so are its bytes, and all others stay. -/
theorem Program.Fills.exchange {o : Memory.Options} {compressor : Prose.Compressor} {q : Program}
    {contents : List (List UInt8)} {op : Opcode} {xs : List Operand} {front back : List Instruction}
    (h : q.Fills o compressor contents) (alone : ∀ xs, Fusion.Alone (.code op xs))
    (split : q.code = front ++ .code op xs :: back) (xs' : List Operand) :
    ∃ (frame : Frame) (c : Context) (old : List UInt8), c.symbols = q.symbols ∧
      c.operands op op.operands xs = .ok old ∧ contents = frame.fill (op.code :: old) ∧
      ∀ symbols new, (∀ name, symbols.declaration name = q.symbols.declaration name) →
        op.operands.length = xs'.length → c.operands op op.operands xs' = .ok new →
        Program.Fills o compressor ⟨front ++ .code op xs' :: back, symbols⟩
          (frame.fill (op.code :: new)) := by
  obtain ⟨code, log, image, compressed, generated, rfl⟩ := h
  rw [split, Fusion.optimize_append_alone (alone xs)] at compressed
  obtain ⟨front', back', rfl, again⟩ := Prose.compress_exchange rfl compressed
  obtain ⟨frame, c, old, names, written, filled, replace⟩ := Memory.generate_exchange xs' generated
  refine ⟨frame, c, old, names, written, filled, fun symbols new same count written' => ?_⟩
  obtain ⟨log', image', generated', filled'⟩ := replace symbols new same count written'
  refine ⟨_, log', image', ?_, generated', filled'⟩
  rw [Fusion.optimize_append_alone (alone xs')]
  exact again _ rfl

/-- The same program has the same bytes each time. -/
theorem Program.Fills.unique {o : Memory.Options} {compressor : Prose.Compressor} {q : Program}
    {contents contents' : List (List UInt8)} (h : q.Fills o compressor contents)
    (h' : q.Fills o compressor contents') : contents' = contents := by
  obtain ⟨code, log, image, compressed, generated, rfl⟩ := h
  obtain ⟨code', log', image', compressed', generated', rfl⟩ := h'
  obtain rfl := Except.ok.inj (compressed.symm.trans compressed')
  obtain ⟨-, same⟩ := Prod.mk.inj (generated.symm.trans generated')
  rw [Except.ok.inj same]

/-! ## Whole scripts -/

/-- The script is accepted, and this is its program. -/
def Accepts (o : Options) (tokens : List Lexeme) (q : Program) : Prop :=
  ∃ reading, read tokens = some reading ∧ reading.accept o = .ok q

theorem Accepts.unique {o : Options} {tokens : List Lexeme} {q q' : Program}
    (h : Accepts o tokens q) (h' : Accepts o tokens q') : q' = q := by
  obtain ⟨reading, found, accepted⟩ := h
  obtain ⟨reading', found', accepted'⟩ := h'
  obtain rfl := Option.some.inj (found.symm.trans found')
  exact Except.ok.inj (accepted'.symm.trans accepted)

/-- A script that is read to a twin of an accepted state is accepted. -/
theorem accepts_of_twin {o : Options} {tokens tokens' : List Lexeme} {q : Program} {T : Accepted}
    {t : State} (h : Accepts o tokens q)
    (run : Parser.program (State.start tokens) = .done () T.state) (complete : T.Complete)
    (run' : Parser.program (State.start tokens') = .done () t) (twin : T.state.Twin t) :
    Accepts o tokens' ⟨t.code, t.symbols⟩ := by
  obtain ⟨reading, found, accepted⟩ := h
  rw [read, run] at found
  obtain rfl := Option.some.inj found
  have grows : (State.start tokens').Grows t :=
    (Parser.program_writes (T := .nothing true) (C := True) rfl).grows_of_done run'
  have settled := twin.symbols.settled (Table.settled_of_finish complete.finish)
  have finish : t.symbols.finish = [] := settled.finish (Table.distinct_empty.run grows.symbols)
  have same : (Reading.ofState t).problems = (Reading.ofState T.state).problems := by
    simp only [Reading.ofState, twin.problems, finish, complete.finish]
  refine ⟨.ofState t, by rw [read, run'], ?_⟩
  unfold Reading.accept at accepted ⊢
  dsimp only at accepted ⊢
  rw [same]
  split at accepted
  · next none =>
    rw [if_pos none]
    rfl
  · contradiction

namespace Passage

variable {p : Passage} {a b : Arrangement} {o : Options} {q : Program}

theorem front_start (p : Passage) (a b : Arrangement) :
    (p.fork a b).Front (State.start (p.script a)) (State.start (p.script b)) :=
  ⟨p.front, p.frontClean, rfl, rfl⟩

/-- The instruction of the statement is found in the program. -/
theorem exists_instruction (h : Accepts o (p.script a) q) : ∃ front xs back,
    q.code = front ++ .code p.drawing.opcode xs :: back ∧ p.Stands a q.symbols xs := by
  obtain ⟨reading, found, accepted⟩ := h
  obtain ⟨T, strict, run, rfl, complete⟩ := reached_of_accept found accepted
  have settled := Table.settled_of_finish complete.finish
  obtain ⟨t, -, -, front, i, i', back, ⟨xs, xs', rfl, rfl, stands, -⟩, split, -⟩ :=
    Fork.program_crosses strict settled (passable_self strict settled) (p.front_start a a) run
      (.refl T.state)
  exact ⟨front, xs, back, split, stands⟩

/-- If there is something to write for the statement in the other arrangement, that one is accepted
as well, and its program is the same but for the operands of the statement. -/
theorem accepts_exchange {ws : List Int64} {written : List UInt8} (h : Accepts o (p.script a) q)
    (known : Values q.symbols.value? p.constants ws)
    (gives : p.drawing.Gives (b = .early) ws written) :
    ∃ front xs xs' back symbols, q.code = front ++ .code p.drawing.opcode xs :: back ∧
      p.Stands a q.symbols xs ∧ p.Stands b q.symbols xs' ∧
      p.drawing.opcode.operands.length = xs'.length ∧
      (∀ name, symbols.declaration name = q.symbols.declaration name) ∧
      Accepts o (p.script b) ⟨front ++ .code p.drawing.opcode xs' :: back, symbols⟩ := by
  have accepts := h
  obtain ⟨reading, found, accepted⟩ := h
  obtain ⟨T, strict, run, rfl, complete⟩ := reached_of_accept found accepted
  have settled := Table.settled_of_finish complete.finish
  obtain ⟨t, run', twin, front, i, i', back, ⟨xs, xs', rfl, rfl, stands, stands'⟩, split, split'⟩ :=
    Fork.program_crosses strict settled (passable strict settled known gives) (p.front_start a b)
      run (.refl T.state)
  have accepts' := accepts_of_twin accepts run complete run' twin
  obtain ⟨reading', found', accepted'⟩ := accepts'
  obtain ⟨T', -, -, same, complete'⟩ := reached_of_accept found' accepted'
  obtain ⟨code, symbols⟩ := Program.mk.inj same
  have fits := complete'.encodable.fit (.code p.drawing.opcode xs') (by simp [← code, split'])
  refine ⟨front, xs, xs', back, t.symbols, split, stands, stands', ?_, twin.symbols.declaration, ?_⟩
  · exact fits.length_eq
  · exact split' ▸ ⟨reading', found', accepted'⟩

/-! ## Both arrangements -/

/-- The script is accepted in this arrangement, and its program is placed in memory with these
bytes. -/
def Builds (p : Passage) (o : CompileOptions) (compressor : Prose.Compressor) (a : Arrangement)
    (contents : List (List UInt8)) : Prop :=
  ∃ q, Accepts o.grammar (p.script a) q ∧ q.Fills o.memory compressor contents

/-- The script is accepted in this arrangement, and the constants of the statement have these values
in the end. -/
def Ends (p : Passage) (o : CompileOptions) (a : Arrangement) (vs : List Int64) : Prop :=
  ∃ q, Accepts o.grammar (p.script a) q ∧ Values q.symbols.value? p.constants vs

section Builds

variable {o : CompileOptions} {compressor : Prose.Compressor}
  {contents contents' : List (List UInt8)} {vs vs' : List Int64}

theorem Builds.unique (h : p.Builds o compressor a contents)
    (h' : p.Builds o compressor a contents') : contents' = contents := by
  obtain ⟨q, accepts, fills⟩ := h
  obtain ⟨q', accepts', fills'⟩ := h'
  obtain rfl := accepts.unique accepts'
  exact fills.unique fills'

theorem Ends.unique (h : p.Ends o a vs) (h' : p.Ends o a vs') : vs' = vs := by
  obtain ⟨q, accepts, values⟩ := h
  obtain ⟨q', accepts', values'⟩ := h'
  obtain rfl := accepts.unique accepts'
  exact values'.unique values

theorem Ends.length_eq (h : p.Ends o a vs) : vs.length = p.drawing.count := by
  obtain ⟨q, -, values⟩ := h
  rw [← values.length_eq]
  exact p.early.spelled.1

/-- The bytes of the statement stand among those of the program. In the other arrangement there are
the bytes for the same values in their place, if there is something to write for them. -/
theorem Builds.exchange (h : p.Builds o compressor a contents) (b : Arrangement) :
    ∃ (frame : Frame) (vs : List Int64) (written : List UInt8), p.Ends o a vs ∧
      p.drawing.Gives (a = .early) vs written ∧
      contents = frame.fill (p.drawing.opcode.code :: written) ∧
      ∀ written', p.drawing.Gives (b = .early) vs written' → p.Ends o b vs ∧
        p.Builds o compressor b (frame.fill (p.drawing.opcode.code :: written')) := by
  obtain ⟨q, accepts, fills⟩ := h
  obtain ⟨front, xs, back, split, stands⟩ := exists_instruction accepts
  obtain ⟨frame, c, old, names, encoded, filled, -⟩ :=
    fills.exchange p.drawing.alone split xs
  obtain ⟨vs, values, gives⟩ := (stands c (by rw [names]) old).mp encoded
  by_cases other : ∃ written', p.drawing.Gives (b = .early) vs written'
  · obtain ⟨written', gives'⟩ := other
    obtain ⟨front, xs, xs', back, symbols, split, stands, stands', count, same, accepts'⟩ :=
      accepts_exchange accepts values gives'
    obtain ⟨frame, c, old, names, encoded, filled, replace⟩ :=
      fills.exchange p.drawing.alone split xs'
    obtain ⟨vs', values', gives⟩ := (stands c (by rw [names]) old).mp encoded
    obtain rfl := values.unique values'
    refine ⟨frame, vs, old, ⟨q, accepts, values⟩, gives, filled, fun written' gives' => ⟨?_, ?_⟩⟩
    · exact ⟨_, accepts', by rwa [Table.value?_eq same]⟩
    · have encoded' := (stands' c (by rw [names]) written').mpr ⟨vs, values, gives'⟩
      exact ⟨_, accepts', replace symbols written' same count encoded'⟩
  · exact ⟨frame, vs, old, ⟨q, accepts, values⟩, gives, filled,
      fun written' gives' => absurd ⟨written', gives'⟩ other⟩

/-- Whatever is written for constants that are known, there is something to write for them if they
are not. -/
theorem exists_gives_late {written : List UInt8} (h : p.drawing.Gives (a = .early) vs written) :
    ∃ written', p.drawing.Gives (Arrangement.late = .early) vs written' := by
  have taken : p.drawing.TakenLate vs := by
    obtain ⟨-, bytes, -⟩ | ⟨-, taken, -⟩ := h
    · cases p.drawing <;> first | exact bytes | trivial
    · exact taken
  exact ⟨_, .inr ⟨by simp, taken, rfl⟩⟩

/-- The constants have the same values in both arrangements. -/
theorem Ends.same (ends : p.Ends o a vs) (ends' : p.Ends o b vs')
    (h : p.Builds o compressor a contents) (h' : p.Builds o compressor b contents') : vs' = vs := by
  -- both values are those in the late arrangement, which follows from either
  have late {a : Arrangement} {vs : List Int64} {contents : List (List UInt8)}
      (ends : p.Ends o a vs) (h : p.Builds o compressor a contents) : p.Ends o .late vs := by
    obtain ⟨frame, ws, written, ends', gives, -, onward⟩ := h.exchange .late
    obtain rfl := ends.unique ends'
    obtain ⟨written', gives'⟩ := exists_gives_late gives
    exact (onward written' gives').1
  exact (late ends h).unique (late ends' h')

/-- If a script is placed in memory in one arrangement, then there are values for the constants of
its statement such that in either arrangement the bytes for these values, and no others, stand in
the same place among the same other bytes. It does not matter where the declarations stand exactly
if the values are steady: if all of the area is on the screen, or the number of the window is a
byte. -/
theorem Builds.arrangements (h : p.Builds o compressor a contents) :
    ∃ (frame : Frame) (vs : List Int64), p.Ends o a vs ∧
      (∀ b contents', p.Builds o compressor b contents' ↔
        ∃ written, p.drawing.Gives (b = .early) vs written ∧
          contents' = frame.fill (p.drawing.opcode.code :: written)) ∧
      ((∀ contents', p.Builds o compressor .early contents' ↔
        p.Builds o compressor .late contents') ↔ p.drawing.Steady vs) := by
  obtain ⟨frame, vs, written, ends, gives, rfl, onward⟩ := h.exchange a.other
  have both (b : Arrangement) (contents' : List (List UInt8)) :
      p.Builds o compressor b contents' ↔ ∃ written, p.drawing.Gives (b = .early) vs written ∧
        contents' = frame.fill (p.drawing.opcode.code :: written) := by
    by_cases same : b = a
    · subst same
      constructor
      · intro h'
        exact ⟨written, gives, h.unique h'⟩
      · rintro ⟨written', gives', rfl⟩
        rwa [gives'.unique gives]
    · obtain rfl : b = a.other := by cases a <;> cases b <;> first | rfl | contradiction
      constructor
      · intro h'
        obtain ⟨frame', vs', written', ends', gives', -, -⟩ := h'.exchange a
        obtain rfl := ends.same ends' h h'
        exact ⟨written', gives', (onward written' gives').2.unique h'⟩
      · rintro ⟨written', gives', rfl⟩
        exact (onward written' gives').2
  refine ⟨frame, vs, ends, both, ?_⟩
  rw [← Drawing.steady_iff ends.length_eq]
  have given (b : Arrangement) (written : List UInt8) :
      p.Builds o compressor b (frame.fill (p.drawing.opcode.code :: written)) ↔
        p.drawing.Gives (b = .early) vs written := by
    rw [both]
    simp only [Memory.Frame.fill_inj, List.cons.injEq, true_and]
    constructor
    · rintro ⟨written', gives', rfl⟩
      exact gives'
    · intro gives'
      exact ⟨written, gives', rfl⟩
  constructor
  · intro same written
    have iff := (given .early written).symm.trans ((same _).trans (given .late written))
    simpa [Drawing.Gives] using iff
  · intro same contents'
    rw [both, both]
    refine exists_congr fun written => and_congr_left fun _ => ?_
    simpa [Drawing.Gives] using same written

end Builds

end Passage

/-! ## The statement and the script -/

/-- A statement with an area or a window whose constants are declared before it or behind it.

The first part is about the statement alone, read where its constants are declared and where one of
them is not. In the first place the constants have to be bytes; the part of the area that is on the
screen is what is written, or the low bits of the number, so that the bytes are proper. In the
second place an area of bytes is written as it is, and the low bits of any number. So it matters
where the constants are declared, unless all of the area is on the screen or the number of the
window is a byte.

The second part is about whole scripts in which the declarations stand next to the statement. If a
script is placed in memory in one arrangement, then in either arrangement the bytes for the values
of the constants, and no others, stand in the same place among the same other bytes. Both
arrangements are placed alike under the same condition. -/
theorem drawing_moves_iff_steady (d : Drawing) :
    (∀ {s s₁ t t₁ : State} {es fs : List (Located Expr)} {c c' : Context},
      Parser.listOf Parser.constant d.count s = .done es s₁ →
      Parser.listOf Parser.constant d.count t = .done fs t₁ →
      fs.map (·.value) = es.map (·.value) →
      Moved (es.map (·.value)) s₁.symbols t₁.symbols c c' →
      ∀ (block block' : List Keyword → Parser Unit) (place place' : Location),
        (∀ written, Places (Parser.statementOf block d.keyword place) s s₁ d.opcode c written ↔
          ∃ vs, Values c.symbols.value? (es.map (·.value)) vs ∧ AllBytes vs ∧
            written = d.bytes vs) ∧
        (∀ vs, d.Proper (d.bytes vs)) ∧
        (∀ written, Places (Parser.statementOf block' d.keyword place') t t₁ d.opcode c' written ↔
          ∃ vs, Values c.symbols.value? (es.map (·.value)) vs ∧ d.TakenLate vs ∧
            written = d.lateBytes vs) ∧
        ((∀ written, Places (Parser.statementOf block d.keyword place) s s₁ d.opcode c written ↔
            Places (Parser.statementOf block' d.keyword place') t t₁ d.opcode c' written) ↔
          ∀ vs, Values c.symbols.value? (es.map (·.value)) vs → d.Steady vs)) ∧
    ∀ (p : Passage) {o : CompileOptions} {compressor : Prose.Compressor} {a : Arrangement}
      {contents : List (List UInt8)}, p.drawing = d → p.Builds o compressor a contents →
      ∃ (frame : Frame) (vs : List Int64), p.Ends o a vs ∧
        (∀ b contents', p.Builds o compressor b contents' ↔
          ∃ written, d.Gives (b = .early) vs written ∧
            contents' = frame.fill (d.opcode.code :: written)) ∧
        ((∀ contents', p.Builds o compressor .early contents' ↔
          p.Builds o compressor .late contents') ↔ d.Steady vs) := by
  constructor
  · intro s s₁ t t₁ es fs c c' args args' same moved
    exact d.places_of_moved args args' same moved
  · rintro p o compressor a contents rfl builds
    exact builds.arrangements

/-! ### Margins that reach over the screen -/

namespace Passage

/-- `:` -/
def colonGap : Gap := ⟨.colon, .nowhere, rfl, by simp⟩

/-- `]]` -/
def closingGap : Gap := ⟨.closeCode, .nowhere, rfl, by simp⟩

/-- `MARGINS X, 0, 32, 24` and `CONST X = 10` -/
def wideMatter : Matter where
  drawing := .margins
  constants := [.named "X", .value 0, .value 32, .value 24]
  declarations := [("X", .value 10)]
  declared := by decide
  named := by decide

theorem spelled_wideArea : Drawing.margins.Spelled wideMatter.constants
    [.use ⟨"X", .nowhere⟩ .constant] (scattered (.keyword .MARGINS :: wideArea)) := by
  have name : Spells (.named "X") [.use ⟨"X", .nowhere⟩ .constant] (scattered [.identifier "X"]) :=
    ⟨.constant ⟨"X", .nowhere⟩, trivial, rfl, rfl, (Written.constant _).of_primary _⟩
  have number (n : Nat) : Spells (.value (Int64.ofNat n)) [] (scattered [.number n]) :=
    ⟨.number n, trivial, rfl, rfl, (Written.number n _).of_primary _⟩
  exact ⟨rfl, _, _, .cons name (.cons (number 0) (.cons (number 32) (.one (number 24)))), rfl⟩

/-- The tokens, with a separator behind the declaration. -/
def wideWording (g : Gap) : Wording wideMatter where
  namings := [⟨⟨"X", .nowhere⟩, .value 10, [], rfl⟩]
  content := rfl
  row := scattered (declaring 10) ++ [g.lexeme]
  isRow := .cons g
    ⟨_, _, _, ⟨.number 10, trivial, rfl, rfl, (Written.number 10 _).of_primary _⟩, rfl⟩ .nil
  uses := _
  statement := _
  spelled := spelled_wideArea

/-- The script in both arrangements. -/
def wideMargins : Passage where
  toMatter := wideMatter
  front := []
  opening := .openCode
  place := .nowhere
  isSeparator_opening := rfl
  early := wideWording colonGap
  late := wideWording closingGap
  gap := colonGap
  stop := closingGap
  stops := rfl
  length_eq := rfl
  back := []
  frontClean := List.forall_mem_nil _
  backClean := List.forall_mem_nil _

/-- The program is placed as it is if its texts stay as they are. -/
theorem fills_of_bankBytes {q : Program} {contents : List (List UInt8)}
    (plain : Prose.compress Prose.verbatim (Fusion.optimize q.code) = .ok (Fusion.optimize q.code))
    (placed : q.bankBytes = some contents) : q.Fills {} Prose.verbatim contents := by
  obtain ⟨image, generated, bytes⟩ := Option.map_eq_some_iff.mp placed
  cases here : Memory.generate {} q.symbols (Fusion.optimize q.code) with
  | mk log result =>
    rw [here] at generated
    cases result with
    | error e => contradiction
    | ok image' =>
      obtain rfl := Option.some.inj generated
      exact ⟨_, log, image', plain, here, bytes⟩

/-- The bytes in an arrangement, and the values in the end. -/
theorem wideMargins_builds {a : Arrangement} {contents : List (List UInt8)}
    (check : (Parser.program (State.start (wideMargins.script a))).passes (fun _ s =>
      decide (s.problems = [] ∧ (∀ e ∈ s.symbols.entries, Symbol.Table.atEnd e = []) ∧
        (Expr.named "X").eval s.symbols.value? = .ok 10 ∧
        Prose.compress Prose.verbatim (Fusion.optimize s.code) = .ok (Fusion.optimize s.code) ∧
        Program.bankBytes ⟨s.code, s.symbols⟩ = some contents)) = true) :
    wideMargins.Builds {} Prose.verbatim a contents ∧
      wideMargins.Ends {} a [10, 0, 32, 24] := by
  obtain ⟨_, s, run, check⟩ := Outcome.exists_of_passes check
  obtain ⟨fine, names, ten, plain, placed⟩ := of_decide_eq_true check
  obtain ⟨found, accepted⟩ := accept_of_done run fine names {}
  have accepts : Accepts {} (wideMargins.script a) ⟨s.code, s.symbols⟩ := ⟨_, found, accepted⟩
  have others (n : Int64) : (Expr.value n).eval s.symbols.value? = .ok n := rfl
  exact ⟨⟨_, accepts, fills_of_bankBytes plain placed⟩, _, accepts,
    .cons ten (.cons (others _) (.cons (others _) (.cons (others _) .nil)))⟩

end Passage

/-- Margins whose column is declared behind them keep a width that is not on the screen: read by
themselves, and in a script. -/
theorem drawing_moves_iff_steady_wideArea :
    (∃ es s₁ fs t₁, Parser.listOf Parser.constant 4
        { State.start (scattered wideArea) with symbols := tenDeclared [] } = .done es s₁ ∧
      Parser.listOf Parser.constant 4 (State.start (scattered wideArea)) = .done fs t₁ ∧
      Places (Parser.areaStatement .MARGINS)
        { State.start (scattered wideArea) with symbols := tenDeclared [] } s₁ .MARGINS
        ⟨tenDeclared [⟨.nowhere, .constant⟩], [], []⟩ [10, 0, 22, 24] ∧
      Places (Parser.areaStatement .MARGINS) (State.start (scattered wideArea)) t₁ .MARGINS
        ⟨tenDeclared [⟨.nowhere, .constant⟩], [], []⟩ [10, 0, 32, 24]) ∧
    Passage.wideMargins.Builds {} Prose.verbatim .early [[0x05, 10, 0, 22, 24, 0x00]] ∧
    Passage.wideMargins.Builds {} Prose.verbatim .late [[0x05, 10, 0, 32, 24, 0x00]] ∧
    ¬ ∀ contents, Passage.wideMargins.Builds {} Prose.verbatim .early contents ↔
      Passage.wideMargins.Builds {} Prose.verbatim .late contents := by
  constructor
  · obtain ⟨es, s₁, fs, t₁, args, args', same, moved, final⟩ := listOf_wideArea
    obtain ⟨early, -, late, -⟩ := (drawing_moves_iff_steady .margins).1 args args' same moved
      (fun _ => pure ()) (fun _ => pure ()) .nowhere .nowhere
    exact ⟨es, s₁, fs, t₁, args, args', (early _).mpr ⟨_, final, allBytes_wideArea, by decide⟩,
      (late _).mpr ⟨_, final, allBytes_wideArea, by decide⟩⟩
  · have early : Passage.wideMargins.Builds {} Prose.verbatim .early
        [[0x05, 10, 0, 22, 24, 0x00]] := (Passage.wideMargins_builds (by decide +kernel)).1
    obtain ⟨late, ends⟩ : Passage.wideMargins.Builds {} Prose.verbatim .late
        [[0x05, 10, 0, 32, 24, 0x00]] ∧ Passage.wideMargins.Ends {} .late [10, 0, 32, 24] :=
      Passage.wideMargins_builds (by decide +kernel)
    obtain ⟨frame, vs, ends', -, iff⟩ := (drawing_moves_iff_steady .margins).2 _ rfl late
    obtain rfl := ends.unique ends'
    refine ⟨early, late, fun alike => ?_⟩
    have steady := iff.mp alike
    exact absurd (steady allBytes_wideArea).width (by decide)

end Gamebook.Grammar
