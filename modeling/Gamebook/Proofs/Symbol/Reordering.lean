import Gamebook.Proofs.Symbol.Operations

/-!
# Operations in another order

Declarations and uses of names that all succeed, on the way to an end that is in order, succeed in
any other order as well (`Table.Performs.perm`). The tables they lead to agree: the same is declared
and used in them.

It is enough to say so of two operations in a row (`Table.apply_swap`). What an operation needs is
known from the end (`Table.Suits`), but for a declaration also that its name is not declared yet,
and two operations that both succeed do not declare the same name.
-/

namespace Gamebook.Symbol

namespace Operation

/-- What the operation declares a name as. -/
def declares : Operation → String → Option Declaration
  | declare id what, name => if id.value = name then some what else none
  | use _ _, _ => none

/-- The operation uses the name as something of this kind. -/
def Uses (op : Operation) (name : String) (kind : Kind) : Prop :=
  ∃ place, op = use ⟨name, place⟩ kind

/-- The operation, wherever in a script it stands. -/
def bare : Operation → Operation
  | declare id what => declare ⟨id.value, .nowhere⟩ what
  | use id kind => use ⟨id.value, .nowhere⟩ kind

variable {op : Operation}

theorem declares_bare (op : Operation) : op.bare.declares = op.declares := by cases op <;> rfl

theorem uses_iff_bare {name : String} {kind : Kind} :
    op.Uses name kind ↔ op.bare = use ⟨name, .nowhere⟩ kind := by
  cases op with
  | declare id what => simp [Uses, bare]
  | use id kind' =>
    obtain ⟨value, place⟩ := id
    simp [Uses, bare]

end Operation

namespace Table

variable {t t' u u' final : Table} {op op' : Operation} {ops ops' : List Operation} {name : String}
  {kind : Kind} {what : Declaration}

theorem step_of_apply (h : op.apply t = .ok t') : t.Step t' := by
  cases op with
  | declare id what => exact .declare h
  | use id kind => exact .use h

theorem declaration_apply (h : op.apply t = .ok t') (name : String) :
    t'.declaration name = (op.declares name).or (t.declaration name) := by
  cases op with
  | use id kind => exact declaration_use h name
  | declare id what =>
    rw [declaration_declare h, Operation.declares]
    split <;> rfl

theorem uses_apply (h : op.apply t = .ok t') :
    t'.Uses name kind ↔ t.Uses name kind ∨ op.Uses name kind := by
  cases op with
  | declare id what =>
    rw [uses_declare h]
    simp [Operation.Uses]
  | use id kind' =>
    rw [uses_use_iff h]
    refine or_congr_right ⟨?_, ?_⟩
    · rintro ⟨rfl, rfl⟩
      exact ⟨id.place, rfl⟩
    · rintro ⟨place, same⟩
      cases same
      exact ⟨rfl, rfl⟩

/-- What the operation asks of a name is what there is in the end, and what it declares is not
declared yet. -/
structure Suits (t final : Table) (op : Operation) : Prop where
  declares : ∀ name what, op.declares name = some what → isReserved name = false ∧
    t.declaration name = none ∧ final.declaration name = some what
  uses : ∀ name kind, op.Uses name kind →
    ∃ what, final.declaration name = some what ∧ what.kind = kind

theorem suits_of_apply (h : op.apply t = .ok t') (fits : t'.Fits final) : t.Suits final op := by
  refine ⟨fun name what declared => ?_, fun name kind used => ?_⟩
  · have final' : final.declaration name = some what :=
      fits.declared name what (by rw [declaration_apply h, declared, Option.some_or])
    cases op with
    | use id kind => contradiction
    | declare id what' =>
      obtain ⟨rfl, rfl⟩ : id.value = name ∧ what' = what := by
        simpa [Operation.declares] using declared
      exact ⟨(declare_eq_ok h).1, declaration_eq_none_of_declare h, final'⟩
  · exact fits.used name kind ((uses_apply h).mpr (.inr used))

theorem Fits.apply (h : t.Fits final) (suits : t.Suits final op) :
    ∃ t', op.apply t = .ok t' ∧ t'.Fits final := by
  cases op with
  | declare id what =>
    obtain ⟨free, undeclared, declared⟩ := suits.declares id.value what (if_pos rfl)
    exact h.declare free undeclared declared
  | use id kind =>
    obtain ⟨what, declared, rfl⟩ := suits.uses id.value kind ⟨id.place, rfl⟩
    exact h.use declared

/-- Two operations that are done one after the other can be done the other way round. -/
theorem apply_swap {t₁ t₂ : Table} (first : op.apply t = .ok t₁) (second : op'.apply t₁ = .ok t₂)
    (fits : t₂.Fits final) :
    ∃ u₁ u₂, op'.apply t = .ok u₁ ∧ op.apply u₁ = .ok u₂ ∧ t₂.Agrees u₂ := by
  have fits₁ : t₁.Fits final := fits.before (.single (step_of_apply second))
  have suits := suits_of_apply first fits₁
  have suits' := suits_of_apply second fits
  -- no name is declared by both
  have apart (name : String) : op.declares name = none ∨ op'.declares name = none := by
    cases declared : op'.declares name with
    | none => exact .inr rfl
    | some what =>
      have undeclared := (suits'.declares name what declared).2.1
      rw [declaration_apply first, Option.or_eq_none_iff] at undeclared
      exact .inl undeclared.1
  have sooner : t.Suits final op' := by
    refine ⟨fun name what declared => ?_, suits'.uses⟩
    obtain ⟨free, undeclared, there⟩ := suits'.declares name what declared
    rw [declaration_apply first, Option.or_eq_none_iff] at undeclared
    exact ⟨free, undeclared.2, there⟩
  obtain ⟨u₁, first', fits'⟩ := (fits₁.before (.single (step_of_apply first))).apply sooner
  have later : u₁.Suits final op := by
    refine ⟨fun name what declared => ?_, suits.uses⟩
    obtain ⟨free, undeclared, there⟩ := suits.declares name what declared
    have other : op'.declares name = none := (apart name).resolve_left (by simp [declared])
    refine ⟨free, ?_, there⟩
    rw [declaration_apply first', other, undeclared]
    rfl
  obtain ⟨u₂, second', -⟩ := fits'.apply later
  refine ⟨u₁, u₂, first', second', fun name => ?_, fun name kind => ?_⟩
  · rw [declaration_apply second', declaration_apply first', declaration_apply second,
      declaration_apply first]
    obtain none | none := apart name
    · simp [none]
    · simp [none]
  · rw [uses_apply second', uses_apply first', uses_apply second, uses_apply first]
    exact or_right_comm

/-- The operations are done one after the other, and none is refused. -/
inductive Performs : Table → List Operation → Table → Prop
  | nil (t : Table) : Performs t [] t
  | cons {t t' t'' : Table} {op : Operation} {ops : List Operation} : op.apply t = .ok t' →
    Performs t' ops t'' → Performs t (op :: ops) t''

/-- What is done to one of two tables that agree can be done to the other, at any other place. -/
theorem Agrees.apply (h : t.Agrees u) (same : op'.bare = op.bare) (run : op.apply t = .ok t')
    (fits : t'.Fits final) : ∃ u', op'.apply u = .ok u' ∧ t'.Agrees u' := by
  have suits := suits_of_apply run fits
  have declares : op'.declares = op.declares := by
    rw [← Operation.declares_bare, same, Operation.declares_bare]
  have uses (name : String) (kind : Kind) : op'.Uses name kind ↔ op.Uses name kind := by
    rw [Operation.uses_iff_bare, same, ← Operation.uses_iff_bare]
  have suits' : u.Suits final op' := by
    refine ⟨fun name what declared => ?_, fun name kind used => ?_⟩
    · obtain ⟨free, undeclared, there⟩ := suits.declares name what (declares ▸ declared)
      exact ⟨free, (h.declaration name).trans undeclared, there⟩
    · exact suits.uses name kind ((uses name kind).mp used)
  obtain ⟨u', run', -⟩ := (h.fits (fits.before (.single (step_of_apply run)))).apply suits'
  refine ⟨u', run', fun name => ?_, fun name kind => ?_⟩
  · rw [declaration_apply run', declaration_apply run, declares, h.declaration]
  · rw [uses_apply run', uses_apply run, uses, h.uses name kind]

theorem Agrees.trans (h : t.Agrees t') (h' : t'.Agrees u) : t.Agrees u where
  declaration name := (h'.declaration name).trans (h.declaration name)
  uses name kind := (h'.uses name kind).trans (h.uses name kind)

namespace Performs

theorem append (h : Performs t ops t') (h' : Performs t' ops' u) : Performs t (ops ++ ops') u := by
  induction h with
  | nil => exact h'
  | cons first _ ih => exact .cons first (ih h')

theorem append_iff : Performs t (ops ++ ops') t' ↔ ∃ u, Performs t ops u ∧ Performs u ops' t' := by
  constructor
  · intro h
    induction ops generalizing t with
    | nil => exact ⟨t, .nil t, h⟩
    | cons op ops ih =>
      obtain _ | ⟨first, rest⟩ := h
      obtain ⟨u, between, last⟩ := ih rest
      exact ⟨u, .cons first between, last⟩
  · rintro ⟨u, h, h'⟩
    exact h.append h'

/-- What declares nothing leaves what is declared. -/
theorem declaration (h : Performs t ops t')
    (still : ∀ op ∈ ops, ∀ name, op.declares name = none) (name : String) :
    t'.declaration name = t.declaration name := by
  induction h with
  | nil => rfl
  | cons first _ ih =>
    obtain ⟨here, others⟩ := List.forall_mem_cons.mp still
    rw [ih others, declaration_apply first, here]
    rfl

theorem run (h : Performs t ops t') : Run t t' := by
  induction h with
  | nil => exact .refl
  | cons first _ ih => exact .head (step_of_apply first) ih

theorem agree (h : Performs t ops t') (agrees : t.Agrees u)
    (same : ops'.map Operation.bare = ops.map Operation.bare) (fits : t'.Fits final) :
    ∃ u', Performs u ops' u' ∧ t'.Agrees u' := by
  induction h generalizing u ops' with
  | nil =>
    obtain rfl := List.map_eq_nil_iff.mp same
    exact ⟨u, .nil u, agrees⟩
  | cons first rest ih =>
    obtain ⟨op', ops', rfl, same, others⟩ := List.map_eq_cons_iff.mp same
    obtain ⟨v, first', between⟩ := agrees.apply same first (fits.before rest.run)
    obtain ⟨u', rest', there⟩ := ih between others fits
    exact ⟨u', .cons first' rest', there⟩

/-- Operations that succeed do so in any order, and lead to the same. -/
theorem perm (h : Performs t ops t') (perm : ops.Perm ops') (fits : t'.Fits final) :
    ∃ u, Performs t ops' u ∧ t'.Agrees u := by
  induction perm generalizing t t' with
  | nil =>
    cases h
    exact ⟨t, .nil t, .refl t⟩
  | cons op _ ih =>
    obtain _ | ⟨first, rest⟩ := h
    obtain ⟨u, rest', agrees⟩ := ih rest fits
    exact ⟨u, .cons first rest', agrees⟩
  | swap op op' ops =>
    obtain _ | ⟨first, _ | ⟨second, rest⟩⟩ := h
    obtain ⟨u₁, u₂, second', first', agrees⟩ := apply_swap first second (fits.before rest.run)
    obtain ⟨u, rest', there⟩ := rest.agree agrees rfl fits
    exact ⟨u, .cons second' (.cons first' rest'), there⟩
  | trans _ _ ih ih' =>
    obtain ⟨u, between, agrees⟩ := ih h fits
    obtain ⟨v, last, agrees'⟩ := ih' between (agrees.fits fits)
    exact ⟨v, last, agrees.trans agrees'⟩

end Performs

end Table

end Gamebook.Symbol
