import Gamebook.Proofs.Symbol.Table

/-!
# Tables that come to the same in the end

The same names may be declared and used in another order. The tables on the way are then not the
same, but as long as nothing is wrong in the end (`Settled`), neither order has a problem with a
name that the other one has not.

`Fits t final` says that what is known in `t` is what `final` declares. Nothing that fits can be
refused as long as it is the first declaration of its name (`Fits.use`, `Fits.declare`). Two tables
agree (`Agrees`) if the same is declared and used in them; what is done to one of them on the way to
an end that is in order can then be done to the other (`Agrees.use`, `Agrees.declare`).
-/

namespace Gamebook.Symbol.Table

variable {t t' u final : Table} {id : Located String} {name : String} {kind : Kind}
  {what : Declaration}

/-! ## Single tables -/

theorem uses_use_iff {kind' : Kind} (h : t.use id kind' = .ok t') :
    t'.Uses name kind ↔ t.Uses name kind ∨ id.value = name ∧ kind' = kind := by
  obtain rfl := use_eq_ok h
  rw [Uses, Uses, entry_put, entry_name]
  by_cases same : id.value = name
  · subst same
    simp only [if_true, List.mem_append, List.mem_singleton, true_and]
    constructor
    · rintro ⟨u, old | rfl, hkind⟩
      · exact .inl ⟨u, old, hkind⟩
      · exact .inr hkind
    · rintro (⟨u, old, hkind⟩ | hkind)
      · exact ⟨u, .inl old, hkind⟩
      · exact ⟨_, .inr rfl, hkind⟩
  · simp [same]

theorem declaration_eq_none_iff : t.declaration name = none ↔ (t.entry name).declared = none := by
  rw [declaration_eq, Entry.declaration, Option.map_eq_none_iff]

theorem kindOf_eq (t : Table) (name : String) : t.kindOf name = (t.entry name).kind := by
  unfold kindOf entry
  cases t.get? name <;> rfl

/-- The constants are known from what is declared. -/
theorem value?_eq (h : ∀ name, u.declaration name = t.declaration name) : u.value? = t.value? := by
  funext name
  rw [value?, value?, h]

/-! ## What fits the end -/

/-- Every name that is used is declared as what it is used as. -/
def Settled (t : Table) : Prop :=
  ∀ name kind, t.Uses name kind → ∃ what, t.declaration name = some what ∧ what.kind = kind

/-- What is declared is declared in the end, and what is used is declared in the end as what it is
used as. -/
structure Fits (t final : Table) : Prop where
  declared : ∀ name what, t.declaration name = some what → final.declaration name = some what
  used : ∀ name kind, t.Uses name kind →
    ∃ what, final.declaration name = some what ∧ what.kind = kind

theorem settled_of_finish (h : t.finish = []) : t.Settled := fun _ _ used =>
  declaration_of_uses h used

/-- What leads to an end that is in order fits it. -/
theorem Run.fits (h : Run t final) (settled : final.Settled) : t.Fits final where
  declared _ _ declared := h.declaration declared
  used name kind used := settled name kind (h.uses used)

namespace Fits

theorem before (h : t'.Fits final) (run : Run t t') : t.Fits final where
  declared name what declared := h.declared name what (run.declaration declared)
  used name kind used := h.used name kind (run.uses used)

/-- What a name is taken for, as long as nothing is wrong. -/
theorem kindOf_eq_some_iff (h : t.Fits final) :
    t.kindOf name = some kind ↔ (∃ what, t.declaration name = some what ∧ what.kind = kind) ∨
      t.declaration name = none ∧ t.Uses name kind := by
  rw [kindOf_eq, declaration_eq, Entry.kind, Entry.declaration]
  cases declared : (t.entry name).declared with
  | some d => simp
  | none =>
    simp only [Option.map_none, Option.none_or, reduceCtorEq, false_and, exists_false, false_or,
      true_and]
    constructor
    · intro first
      obtain ⟨u, head, hkind⟩ := Option.map_eq_some_iff.mp first
      exact ⟨u, List.mem_of_head? head, hkind⟩
    · rintro ⟨u, mem, rfl⟩
      obtain ⟨first, rest, cons⟩ := List.exists_cons_of_ne_nil (List.ne_nil_of_mem mem)
      -- The first use and this one are of the kind that is declared in the end.
      obtain ⟨what, final', same⟩ := h.used name u.kind ⟨u, mem, rfl⟩
      obtain ⟨what', final'', same'⟩ := h.used name first.kind ⟨first, by simp [cons], rfl⟩
      obtain rfl := Option.some.inj (final'.symm.trans final'')
      simp [cons, ← same, ← same']

/-- What is used as what it is declared as in the end is not refused. -/
theorem use (h : t.Fits final) (declared : final.declaration id.value = some what) :
    ∃ t', t.use id what.kind = .ok t' ∧ t'.Fits final := by
  have accepted : ∃ t', t.use id what.kind = .ok t' := by
    unfold Table.use
    dsimp only
    split
    · next _ place what' here =>
      have same : final.declaration id.value = some what' :=
        h.declared _ _ (by rw [declaration_eq, Entry.declaration, here]; rfl)
      obtain rfl := Option.some.inj (declared.symm.trans same)
      rw [if_pos rfl]
      exact ⟨_, rfl⟩
    · next first _ _ here =>
      obtain ⟨what', final', same⟩ := h.used id.value first.kind ⟨first, by simp [here], rfl⟩
      obtain rfl := Option.some.inj (declared.symm.trans final')
      rw [if_pos same.symm]
      exact ⟨_, rfl⟩
    · exact ⟨_, rfl⟩
  obtain ⟨t', run⟩ := accepted
  refine ⟨t', run, fun name what' here => ?_, fun name kind used => ?_⟩
  · exact h.declared name what' (declaration_use run name ▸ here)
  · rcases (uses_use_iff run).mp used with used | ⟨rfl, rfl⟩
    · exact h.used name kind used
    · exact ⟨what, declared, rfl⟩

/-- The first declaration of a name is not refused. -/
theorem declare (h : t.Fits final) (free : isReserved id.value = false)
    (undeclared : t.declaration id.value = none)
    (declared : final.declaration id.value = some what) :
    ∃ t', t.declare id what = .ok t' ∧ t'.Fits final := by
  have accepted : ∃ t', t.declare id what = .ok t' := by
    unfold Table.declare
    simp [free, declaration_eq_none_iff.mp undeclared]
  obtain ⟨t', run⟩ := accepted
  refine ⟨t', run, fun name what' here => ?_, fun name kind used => ?_⟩
  · rw [declaration_declare run] at here
    split at here
    · next same => exact same ▸ Option.some.inj here ▸ declared
    · exact h.declared name what' here
  · exact h.used name kind ((uses_declare run).mp used)

end Fits

/-! ## Tables that agree -/

/-- The same is declared and the same is used, in whatever order. -/
structure Agrees (t u : Table) : Prop where
  declaration : ∀ name, u.declaration name = t.declaration name
  uses : ∀ name kind, u.Uses name kind ↔ t.Uses name kind

namespace Agrees

theorem refl (t : Table) : Agrees t t := ⟨fun _ => rfl, fun _ _ => .rfl⟩

theorem fits (h : Agrees t u) (fits : t.Fits final) : u.Fits final where
  declared name what declared := fits.declared name what (h.declaration name ▸ declared)
  used name kind used := fits.used name kind ((h.uses name kind).mp used)

theorem value? (h : Agrees t u) : u.value? = t.value? := value?_eq h.declaration

/-- A use that leads on to the end is possible in both. -/
theorem use (h : Agrees t u) (run : t.use id kind = .ok t') (fits : t'.Fits final) :
    ∃ u', u.use id kind = .ok u' ∧ Agrees t' u' := by
  obtain ⟨what, declared, rfl⟩ := fits.used id.value kind (uses_use run)
  obtain ⟨u', run', -⟩ := (h.fits (fits.before (.single (.use run)))).use declared
  refine ⟨u', run', fun name => ?_, fun name kind => ?_⟩
  · rw [declaration_use run', declaration_use run, h.declaration]
  · rw [uses_use_iff run', uses_use_iff run, h.uses name kind]

/-- So is a declaration. -/
theorem declare (h : Agrees t u) (run : t.declare id what = .ok t') (fits : t'.Fits final) :
    ∃ u', u.declare id what = .ok u' ∧ Agrees t' u' := by
  have undeclared : u.declaration id.value = none :=
    (h.declaration id.value).trans (declaration_eq_none_of_declare run)
  have declared : final.declaration id.value = some what :=
    fits.declared id.value what (by rw [declaration_declare run, if_pos rfl])
  obtain ⟨u', run', -⟩ := (h.fits (fits.before (.single (.declare run)))).declare
    (declare_eq_ok run).1 undeclared declared
  refine ⟨u', run', fun name => ?_, fun name kind => ?_⟩
  · rw [declaration_declare run', declaration_declare run, h.declaration]
  · rw [uses_declare run', uses_declare run, h.uses name kind]

/-- Whatever a name is taken for, it is taken for the same in both. -/
theorem kindOf_eq_some_iff (h : Agrees t u) (fits : t.Fits final) :
    u.kindOf name = some kind ↔ t.kindOf name = some kind := by
  rw [(h.fits fits).kindOf_eq_some_iff, fits.kindOf_eq_some_iff, h.declaration, h.uses name kind]

/-- What agrees with an end that is in order is one. -/
theorem settled (h : Agrees t u) (settled : t.Settled) : u.Settled := by
  intro name kind used
  obtain ⟨what, declared, same⟩ := settled name kind ((h.uses name kind).mp used)
  exact ⟨what, (h.declaration name).trans declared, same⟩

end Agrees

/-! ## The end -/

/-- Every entry is what is known of its name. -/
def Distinct (t : Table) : Prop := ∀ e ∈ t.entries, t.get? e.name = some e

theorem Distinct.put (h : t.Distinct) (e : Entry) : (t.put e).Distinct := by
  intro f mem
  rw [get?_put]
  unfold Table.put at mem
  split at mem
  · obtain ⟨g, hg, rfl⟩ := List.mem_map.mp mem
    by_cases same : g.name = e.name
    · simp [same]
    · have other : ¬ e.name = g.name := fun eq => same eq.symm
      simp only [beq_iff_eq, same, if_false, other]
      exact h g hg
  · next absent =>
    rcases List.mem_append.mp mem with old | new
    · have other : e.name ≠ f.name := by
        intro same
        simp [same, h f old] at absent
      rw [if_neg other]
      exact h f old
    · obtain rfl := List.mem_singleton.mp new
      rw [if_pos rfl]

theorem Distinct.run (h : t.Distinct) (run : Run t t') : t'.Distinct := by
  induction run with
  | refl => exact h
  | tail _ step ih =>
    cases step with
    | declare run => exact (declare_eq_ok run).2.2 ▸ ih.put _
    | use run => exact use_eq_ok run ▸ ih.put _

theorem distinct_empty : Table.empty.Distinct := by
  intro e mem
  contradiction

/-- Where every name is declared as what it is used as, nothing is wrong in the end. -/
theorem Settled.finish (h : t.Settled) (distinct : t.Distinct) : t.finish = [] := by
  refine finish_eq_nil_iff.mpr fun e mem => ?_
  have entry : t.entry e.name = e := by rw [Table.entry, distinct e mem]; rfl
  unfold atEnd
  cases declared : e.declared with
  | none =>
    cases used : e.usages with
    | nil => rfl
    | cons first rest =>
      obtain ⟨what, found, -⟩ := h e.name first.kind ⟨first, by simp [entry, used], rfl⟩
      rw [declaration_eq, entry, Entry.declaration, declared] at found
      contradiction
  | some d =>
    refine List.map_eq_nil_iff.mpr (List.filter_eq_nil_iff.mpr fun u mem => ?_)
    obtain ⟨what, found, same⟩ := h e.name u.kind ⟨u, by simpa [entry] using mem, rfl⟩
    rw [declaration_eq, entry, Entry.declaration, declared] at found
    obtain rfl := Option.some.inj found
    simpa using same.symm

end Gamebook.Symbol.Table
