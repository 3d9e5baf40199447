import Gamebook.Proofs.Symbol.Agreement

/-!
# Operations on a table, refused ones included

A table is changed in place by declarations and uses in any order, some of which are refused. Where
an operation is refused its name may already have been given an entry: `Operation.perform` opens the
entry first and decides then. It comes to the same as deciding on the table as it was
(`Operation.perform_of_ok`, `Operation.perform_of_error`), since whatever is refused for what is
known of a name has an entry already; so nothing is left behind by what was refused.

`Table.after` is the table that operations lead to. Over any number of them, what is known of a name
only grows (`Entry.Grows`), a name without a declaration is used as one kind of thing (`Uniform`), and
if nothing is wrong in the end every name was taken for what it is from its first appearance on.
`Table.consistent_after` puts this together.
-/

namespace Gamebook.Symbol

/-- A declaration or a use of a name. -/
inductive Operation where
  | declare (id : Located String) (what : Declaration)
  | use (id : Located String) (kind : Kind)

/-- Makes sure that there is an entry for a name, if only one with nothing known. -/
def Table.enter (t : Table) (name : String) : Table :=
  if (t.get? name).isSome then t else t.put ⟨name, none, []⟩

namespace Operation

/-- The table that the operation leads to, or why it is refused. -/
def apply : Operation → Table → Except (Located NameError) Table
  | declare id what, t => t.declare id what
  | use id kind, t => t.use id kind

/-- The table with an entry for the name. Names that belong to the compiler are not entered to be
declared. -/
def opened : Operation → Table → Table
  | declare id _, t => if isReserved id.value then t else t.enter id.value
  | use id _, t => t.enter id.value

/-- The operation in place: the entry is opened first, and stays open if the operation is refused.
Gives the error, if there is one, and the table that is left. -/
def perform (op : Operation) (t : Table) : Option (Located NameError) × Table :=
  match op.apply (op.opened t) with
  | .ok t' => (none, t')
  | .error e => (some e, op.opened t)

end Operation

namespace Table

variable {t t' : Table} {id : Located String} {name : String} {kind : Kind} {what : Declaration}

/-- The table after operations on one without names. -/
def after (ops : List Operation) : Table := ops.foldl (fun t op => (op.perform t).2) .empty

/-! ## Entries without anything known -/

theorem put_put {e f : Entry} (same : e.name = f.name) (t : Table) : (t.put e).put f = t.put f := by
  have found : ((t.put e).get? f.name).isSome = true := by simp [get?_put, same]
  rw [put, if_pos found]
  unfold put
  rw [same]
  split
  · rw [List.map_map]
    congr 2
    funext g
    simp only [Function.comp_apply]
    split <;> simp_all
  · next absent =>
    have others : ∀ g ∈ t.entries, ¬ g.name = f.name := by
      simpa [get?, List.find?_eq_none] using absent
    rw [List.map_append]
    congr 2
    · exact (List.map_congr_left fun g hg => by simp [others g hg]).trans (List.map_id _)
    · simp [same]

theorem entry_enter (t : Table) (name name' : String) :
    (t.enter name).entry name' = t.entry name' := by
  unfold enter
  split
  · rfl
  · next absent =>
    rw [entry_put]
    split
    · next same =>
      obtain rfl : name = name' := same
      rw [entry, Option.not_isSome_iff_eq_none.mp absent]
      rfl
    · rfl

theorem put_enter (t : Table) (name : String) (declared : Option (Location × Declaration))
    (usages : List Usage) : (t.enter name).put ⟨(t.entry name).name, declared, usages⟩ =
      t.put ⟨(t.entry name).name, declared, usages⟩ := by
  unfold enter
  split
  · rfl
  · exact put_put (entry_name t name).symm t

/-- A name of which something is known has an entry. -/
theorem exists_get?_of_known
    (h : (t.entry name).declared ≠ none ∨ (t.entry name).usages ≠ []) :
    ∃ e, t.get? name = some e := by
  cases found : t.get? name with
  | none => simp [entry, found] at h
  | some e => exact ⟨e, rfl⟩

theorem enter_of_known (h : (t.entry name).declared ≠ none ∨ (t.entry name).usages ≠ []) :
    t.enter name = t := by
  obtain ⟨e, found⟩ := exists_get?_of_known h
  rw [enter, found]
  rfl

theorem declare_enter (t : Table) (id : Located String) (what : Declaration) :
    (t.enter id.value).declare id what = t.declare id what := by
  simp only [declare, entry_enter, put_enter]

theorem use_enter (t : Table) (id : Located String) (kind : Kind) :
    (t.enter id.value).use id kind = t.use id kind := by
  simp only [use, entry_enter, put_enter]

end Table

/-! ## Operations in place -/

namespace Operation

variable {op : Operation} {t t' : Table} {e : Located NameError}

theorem apply_opened (op : Operation) (t : Table) : op.apply (op.opened t) = op.apply t := by
  cases op with
  | declare id what =>
    simp only [opened, apply]
    split
    · rfl
    · exact t.declare_enter id what
  | use id kind => exact t.use_enter id kind

/-- What is refused is refused for what is known of the name, if not for the name itself. -/
theorem opened_of_error (h : op.apply t = .error e) : op.opened t = t := by
  cases op with
  | declare id what =>
    simp only [opened]
    split
    · rfl
    · next free =>
      apply Table.enter_of_known
      left
      intro undeclared
      simp [apply, Table.declare, free, undeclared] at h
  | use id kind =>
    apply Table.enter_of_known
    cases declared : (t.entry id.value).declared with
    | some d => exact .inl (Option.some_ne_none d)
    | none =>
      right
      intro unused
      simp [apply, Table.use, declared, unused] at h

theorem perform_of_ok (h : op.apply t = .ok t') : op.perform t = (none, t') := by
  rw [perform, apply_opened, h]

/-- A refused operation leaves nothing behind. -/
theorem perform_of_error (h : op.apply t = .error e) : op.perform t = (some e, t) := by
  rw [perform, apply_opened, h, opened_of_error h]

theorem apply_of_accepted (h : (op.perform t).1 = none) : op.apply t = .ok (op.perform t).2 := by
  cases applied : op.apply t with
  | ok t' => rw [perform_of_ok applied]
  | error e => simp [perform_of_error applied] at h

theorem perform_eq_self (h : (op.perform t).1 = some e) : (op.perform t).2 = t := by
  cases applied : op.apply t with
  | ok t' => simp [perform_of_ok applied] at h
  | error e => rw [perform_of_error applied]

end Operation

namespace Table

variable {t t' : Table} {id : Located String} {name : String} {kind : Kind} {what : Declaration}

theorem run_perform (t : Table) (op : Operation) : Run t (op.perform t).2 := by
  cases applied : op.apply t with
  | ok t' =>
    rw [Operation.perform_of_ok applied]
    cases op with
    | declare id what => exact .single (.declare applied)
    | use id kind => exact .single (.use applied)
  | error e =>
    rw [Operation.perform_of_error applied]

theorem run_foldl (ops : List Operation) (t : Table) :
    Run t (ops.foldl (fun t op => (op.perform t).2) t) := by
  induction ops generalizing t with
  | nil => exact .refl
  | cons op ops ih => exact (run_perform t op).trans (ih _)

/-- What follows goes on from where the table was. -/
theorem run_after_append (ops more : List Operation) : Run (after ops) (after (ops ++ more)) := by
  rw [after, after, List.foldl_append]
  exact run_foldl more _

theorem run_after (ops : List Operation) : Run .empty (after ops) := run_foldl ops _

theorem after_concat (ops : List Operation) (op : Operation) :
    after (ops ++ [op]) = (op.perform (after ops)).2 := by
  rw [after, after, List.foldl_append]
  rfl

/-! ## What becomes of a name -/

/-- A name may be taken for nothing but what it was taken for so far. -/
theorem kind_of_use (h : t.use id kind = .ok t') {k : Kind} (known : t.kindOf id.value = some k) :
    k = kind := by
  rw [kindOf_eq, Entry.kind] at known
  unfold use at h
  dsimp only at h
  split at h
  · next _ place what declared =>
    simp only [declared, Option.map_some, Option.some_or, Option.some.injEq] at known
    split at h
    · next same => exact known.symm.trans same
    · contradiction
  · next first _ undeclared used =>
    simp only [undeclared, used, Option.map_none, Option.none_or, List.head?_cons, Option.map_some,
      Option.some.injEq] at known
    split at h
    · next same => exact known.symm.trans same
    · contradiction
  · next undeclared unused => simp [undeclared, unused] at known

end Table

/-- What is known of a name goes on being known, and once it is declared it is only used as what it
is. -/
structure Entry.Grows (e e' : Entry) : Prop where
  declared : ∀ d, e.declared = some d → e'.declared = some d
  usages : ∃ later, e'.usages = e.usages ++ later ∧
    ∀ d, e.declared = some d → ∀ u ∈ later, u.kind = d.2.kind

namespace Entry.Grows

theorem refl (e : Entry) : e.Grows e := ⟨fun _ h => h, [], (List.append_nil _).symm, by simp⟩

theorem trans {e e' e'' : Entry} (h : e.Grows e') (h' : e'.Grows e'') : e.Grows e'' := by
  obtain ⟨later, eq, kinds⟩ := h.usages
  obtain ⟨later', eq', kinds'⟩ := h'.usages
  refine ⟨fun d hd => h'.declared d (h.declared d hd), later ++ later', ?_, fun d hd u hu => ?_⟩
  · rw [eq', eq, List.append_assoc]
  · rcases List.mem_append.mp hu with hu | hu
    · exact kinds d hd u hu
    · exact kinds' d (h.declared d hd) u hu

end Entry.Grows

namespace Table

variable {t t' : Table} {id : Located String} {name : String} {kind : Kind} {what : Declaration}

theorem Step.grows (h : Step t t') (name : String) : (t.entry name).Grows (t'.entry name) := by
  cases h with
  | @declare id what h =>
    obtain ⟨-, undeclared, rfl⟩ := declare_eq_ok h
    rw [entry_put, entry_name]
    split
    · next same =>
      subst same
      exact ⟨fun d hd => by simp [undeclared] at hd, [], (List.append_nil _).symm, by simp⟩
    · exact .refl _
  | @use id kind h =>
    obtain rfl := use_eq_ok h
    rw [entry_put, entry_name]
    split
    · next same =>
      subst same
      refine ⟨fun d hd => hd, [⟨id.place, kind⟩], rfl, fun d hd u hu => ?_⟩
      obtain rfl := List.mem_singleton.mp hu
      exact (kind_of_use h (by rw [kindOf_eq, Entry.kind, hd]; rfl)).symm
    · exact .refl _

theorem Run.grows (h : Run t t') (name : String) : (t.entry name).Grows (t'.entry name) := by
  induction h with
  | refl => exact .refl _
  | tail _ step ih => exact ih.trans (step.grows name)

/-- As long as a name is not declared, it is used as one kind of thing. -/
def Uniform (t : Table) : Prop :=
  ∀ name, (t.entry name).declared = none → ∃ kind, ∀ u ∈ (t.entry name).usages, u.kind = kind

theorem Uniform.step (uniform : t.Uniform) (h : Step t t') : t'.Uniform := by
  intro name undeclared
  cases h with
  | @declare id what h =>
    obtain ⟨-, -, rfl⟩ := declare_eq_ok h
    rw [entry_put, entry_name] at undeclared ⊢
    split at undeclared
    · contradiction
    · next other =>
      rw [if_neg other]
      exact uniform name undeclared
  | @use id kind h =>
    obtain rfl := use_eq_ok h
    rw [entry_put, entry_name] at undeclared ⊢
    split at undeclared
    · next same =>
      subst same
      rw [if_pos rfl]
      obtain ⟨kind', all⟩ := uniform id.value undeclared
      refine ⟨kind, fun u hu => ?_⟩
      rcases List.mem_append.mp hu with hu | hu
      · obtain ⟨first, rest, cons⟩ := List.exists_cons_of_ne_nil (List.ne_nil_of_mem hu)
        have known : t.kindOf id.value = some first.kind := by
          rw [kindOf_eq, Entry.kind, undeclared, cons]
          rfl
        rw [all u hu, ← all first (by simp [cons]), kind_of_use h known]
      · rw [List.mem_singleton.mp hu]
    · next other =>
      rw [if_neg other]
      exact uniform name undeclared

theorem Uniform.run (uniform : t.Uniform) (h : Run t t') : t'.Uniform := by
  induction h with
  | refl => exact uniform
  | tail _ step ih => exact ih.step step

theorem uniform_empty : Table.empty.Uniform := fun _ _ => ⟨.label, by simp [entry, get?, empty]⟩

/-! ## The end -/

theorem Sound.exists_kindOf (sound : t.Sound) {e : Entry} (found : t.get? name = some e) :
    ∃ kind, t.kindOf name = some kind := by
  rw [kindOf, found, Option.bind_some, Entry.kind]
  cases declared : e.declared with
  | some d => exact ⟨d.2.kind, rfl⟩
  | none =>
    have used := (sound.occurs name e found).resolve_left (by simp [declared])
    obtain ⟨first, rest, cons⟩ := List.exists_cons_of_ne_nil used
    exact ⟨first.kind, by simp [cons]⟩

/-- On the way to an end that is in order, a name is taken for what it is declared as in the end. -/
theorem Fits.declaration_of_kindOf {final : Table} (fits : t.Fits final)
    (known : t.kindOf name = some kind) :
    ∃ what, final.declaration name = some what ∧ what.kind = kind := by
  rcases fits.kindOf_eq_some_iff.mp known with ⟨what, declared, same⟩ | ⟨-, used⟩
  · exact ⟨what, fits.declared name what declared, same⟩
  · exact fits.used name kind used

/-- Once a name is in the table it stays. -/
theorem Run.exists_get? (h : Run t t') (sound : t.Sound) {e : Entry}
    (found : t.get? name = some e) : ∃ e', t'.get? name = some e' := by
  have entry_eq : t.entry name = e := by rw [entry, found]; rfl
  have grows := h.grows name
  rw [entry_eq] at grows
  apply exists_get?_of_known
  rcases sound.occurs name e found with declared | used
  · obtain ⟨d, hd⟩ := Option.ne_none_iff_exists'.mp declared
    exact .inl (by simp [grows.declared d hd])
  · obtain ⟨later, eq, -⟩ := grows.usages
    exact .inr (by simp [eq, used])

/-! ## Whole runs -/

/-- What holds of a table after operations on it, and of what may follow. -/
structure Consistent (ops : List Operation) : Prop where
  /-- What is refused leaves the table as it was. -/
  refused : ∀ (op : Operation) (e : Located NameError), (op.perform (after ops)).1 = some e →
    (op.perform (after ops)).2 = after ops
  /-- A declaration that is not refused is recorded. -/
  declares : ∀ id what, ((Operation.declare id what).perform (after ops)).1 = none →
    ((after (ops ++ [.declare id what])).entry id.value).declared = some (id.place, what)
  /-- A use that is not refused is recorded. -/
  uses : ∀ id kind, ((Operation.use id kind).perform (after ops)).1 = none →
    ((after (ops ++ [.use id kind])).entry id.value).usages =
      ((after ops).entry id.value).usages ++ [⟨id.place, kind⟩]
  /-- A declaration once recorded never changes. -/
  keeps : ∀ name d more, ((after ops).entry name).declared = some d →
    ((after (ops ++ more)).entry name).declared = some d
  /-- There is no entry without a declaration and without a use. -/
  occurs : ∀ e ∈ (after ops).entries, e.declared ≠ none ∨ e.usages ≠ []
  /-- No name that belongs to the compiler is declared. -/
  free : ∀ e ∈ (after ops).entries, isReserved e.name = true → e.declared = none
  /-- All uses that are recorded before a declaration are of one kind, and all that are recorded
  after it are of the declared kind. -/
  kinds : ∀ id what more, ((Operation.declare id what).perform (after ops)).1 = none →
    ∃ kind later, ((after (ops ++ .declare id what :: more)).entry id.value).usages =
        ((after ops).entry id.value).usages ++ later ∧
      (∀ u ∈ ((after ops).entry id.value).usages, u.kind = kind) ∧ ∀ u ∈ later, u.kind = what.kind
  /-- If nothing is wrong in the end, every name is declared, and from its first appearance on it was
  known at every step to be of that kind. What a use that was not refused took it for, such as an
  array because it had an index, was right. -/
  settles : (after ops).finish = [] → ∀ e ∈ (after ops).entries, ∃ place what,
    e.declared = some (place, what) ∧
      (∀ start mid rest, ops = start ++ mid ++ rest → (after start).get? e.name ≠ none →
        (after (start ++ mid)).kindOf e.name = some what.kind) ∧
      ∀ start spot kind rest, ops = start ++ .use ⟨e.name, spot⟩ kind :: rest →
        ((Operation.use ⟨e.name, spot⟩ kind).perform (after start)).1 = none → kind = what.kind

theorem sound_after (ops : List Operation) : (after ops).Sound := Sound.empty.run (run_after ops)

theorem get?_after {ops : List Operation} {e : Entry} (mem : e ∈ (after ops).entries) :
    (after ops).get? e.name = some e :=
  distinct_empty.run (run_after ops) e mem

theorem usages_after_declare {ops : List Operation}
    (accepted : ((Operation.declare id what).perform (after ops)).1 = none)
    (more : List Operation) :
    ∃ kind later, ((after (ops ++ .declare id what :: more)).entry id.value).usages =
        ((after ops).entry id.value).usages ++ later ∧
      (∀ u ∈ ((after ops).entry id.value).usages, u.kind = kind) ∧
      ∀ u ∈ later, u.kind = what.kind := by
  obtain ⟨-, undeclared, declared⟩ := declare_eq_ok (Operation.apply_of_accepted accepted)
  obtain ⟨kind, one⟩ := uniform_empty.run (run_after ops) id.value undeclared
  -- the declaration adds no use, and all that follow are of its kind
  have grows := (run_after_append (ops ++ [.declare id what]) more).grows id.value
  rw [after_concat, declared, entry_put, entry_name, if_pos rfl, List.append_assoc] at grows
  obtain ⟨later, eq, kinds⟩ := grows.usages
  exact ⟨kind, later, eq, one, kinds _ rfl⟩

/-- If nothing is wrong in the end, every name is declared, and it was known as that whenever it was
known, and used as that whenever it was used. -/
theorem settled_after {ops : List Operation} (fine : (after ops).finish = []) {e : Entry}
    (mem : e ∈ (after ops).entries) :
    ∃ place what, e.declared = some (place, what) ∧
      (∀ start mid rest, ops = start ++ mid ++ rest → (after start).get? e.name ≠ none →
        (after (start ++ mid)).kindOf e.name = some what.kind) ∧
      ∀ start spot kind rest, ops = start ++ .use ⟨e.name, spot⟩ kind :: rest →
        ((Operation.use ⟨e.name, spot⟩ kind).perform (after start)).1 = none →
          kind = what.kind := by
  have settled := settled_of_finish fine
  have found := get?_after mem
  obtain ⟨kind, known⟩ := (sound_after ops).exists_kindOf found
  obtain ⟨what, final, -⟩ := (Run.fits .refl settled).declaration_of_kindOf known
  obtain ⟨⟨place, what⟩, declared, rfl⟩ : ∃ d, e.declared = some d ∧ d.2 = what := by
    rwa [declaration, found, Option.bind_some, Entry.declaration, Option.map_eq_some_iff] at final
  have unique {kind : Kind} (h : ∃ what, (after ops).declaration e.name = some what ∧
      what.kind = kind) : kind = what.kind := by
    obtain ⟨_, eq, rfl⟩ := h
    rw [Option.some.inj (eq.symm.trans final)]
  refine ⟨place, what, declared, fun start mid rest eq appeared => ?_, fun start spot kind rest eq
    accepted => ?_⟩
  · obtain ⟨_, first⟩ := Option.ne_none_iff_exists'.mp appeared
    obtain ⟨_, there⟩ := (run_after_append start mid).exists_get? (sound_after start) first
    obtain ⟨kind, known⟩ := (sound_after (start ++ mid)).exists_kindOf there
    have fits : (after (start ++ mid)).Fits (after ops) :=
      Run.fits (eq ▸ run_after_append (start ++ mid) rest) settled
    rw [known, unique (fits.declaration_of_kindOf known)]
  · have used := uses_use (Operation.apply_of_accepted accepted)
    rw [← after_concat] at used
    have run := run_after_append (start ++ [.use ⟨e.name, spot⟩ kind]) rest
    rw [List.append_assoc, List.singleton_append, ← eq] at run
    exact unique (settled e.name kind (run.uses used))

theorem consistent_after (ops : List Operation) : Consistent ops where
  refused _ _ h := Operation.perform_eq_self h
  declares id what accepted := by
    obtain ⟨-, -, eq⟩ := declare_eq_ok (Operation.apply_of_accepted accepted)
    rw [after_concat, eq, entry_put, entry_name, if_pos rfl]
  uses id kind accepted := by
    have eq := use_eq_ok (Operation.apply_of_accepted accepted)
    rw [after_concat, eq, entry_put, entry_name, if_pos rfl]
  keeps name d more declared := ((run_after_append ops more).grows name).declared d declared
  occurs e mem := (sound_after ops).occurs e.name e (get?_after mem)
  free e mem reserved := by
    cases declared : e.declared with
    | none => rfl
    | some d =>
      simp [(sound_after ops).free e.name e (get?_after mem) (by simp [declared])] at reserved
  kinds _ _ more accepted := usages_after_declare accepted more
  settles fine _ mem := settled_after fine mem

end Table

end Gamebook.Symbol
