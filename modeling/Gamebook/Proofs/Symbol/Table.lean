import Mathlib.Logic.Relation
import Gamebook.Symbol.Table

/-!
# Tables of names over whole runs

A table changes in two ways only, by a declaration and by a use (`Step`), and each changes what is
known of one name (`declare_eq_ok`, `use_eq_ok`). What was declared or used once stays declared and
used (`Run.declaration`, `Run.uses`), and nothing that belongs to the compiler is ever declared
(`Sound`).

If nothing is wrong with a table in the end, every name that was used is declared as what it was
used as (`declaration_of_uses`), and no name that belongs to the compiler is in it
(`get?_eq_none_of_isReserved`).
-/

namespace Gamebook.Symbol

namespace Table

/-! ## Single names -/

theorem find?_replace_of_ne {e : Entry} {name : String} (h : e.name ≠ name) (es : List Entry) :
    (es.map fun f => if f.name == e.name then e else f).find? (·.name == name) =
      es.find? (·.name == name) := by
  induction es with
  | nil => rfl
  | cons f fs ih =>
    rw [List.map_cons]
    by_cases hf : f.name = e.name
    · rw [if_pos (by simpa using hf), List.find?_cons_of_neg (by simpa using h),
        List.find?_cons_of_neg (by simpa [hf] using h), ih]
    · rw [if_neg (by simpa using hf), List.find?_cons, List.find?_cons, ih]

theorem find?_replace_self {e : Entry} {es : List Entry}
    (h : (es.find? (·.name == e.name)).isSome = true) :
    (es.map fun f => if f.name == e.name then e else f).find? (·.name == e.name) = some e := by
  induction es with
  | nil => simp at h
  | cons f fs ih =>
    rw [List.map_cons]
    by_cases hf : f.name = e.name
    · rw [if_pos (by simpa using hf), List.find?_cons_of_pos (by simp)]
    · rw [List.find?_cons_of_neg (by simpa using hf)] at h
      rw [if_neg (by simpa using hf), List.find?_cons_of_neg (by simpa using hf), ih h]

theorem get?_put (t : Table) (e : Entry) (name : String) :
    (t.put e).get? name = if e.name = name then some e else t.get? name := by
  unfold put
  split
  · next found =>
    by_cases h : e.name = name
    · subst h
      rw [if_pos rfl]
      exact find?_replace_self found
    · rw [if_neg h]
      exact find?_replace_of_ne h t.entries
  · next absent =>
    have none_found : t.get? e.name = none := by simpa using absent
    unfold get? at none_found ⊢
    rw [List.find?_append]
    by_cases h : e.name = name
    · subst h
      simp [none_found]
    · simp [h]

theorem name_of_get? {t : Table} {name : String} {e : Entry} (h : t.get? name = some e) :
    e.name = name := by
  simpa using List.find?_some h

@[simp] theorem entry_name (t : Table) (name : String) : (t.entry name).name = name := by
  unfold entry
  cases h : t.get? name with
  | none => rfl
  | some e => exact name_of_get? h

theorem entry_put (t : Table) (e : Entry) (name : String) :
    (t.put e).entry name = if e.name = name then e else t.entry name := by
  rw [entry, get?_put]
  split <;> rfl

theorem declaration_eq (t : Table) (name : String) :
    t.declaration name = (t.entry name).declaration := by
  unfold declaration entry
  cases t.get? name <;> rfl

/-- The name is used as something of this kind. -/
def Uses (t : Table) (name : String) (kind : Kind) : Prop :=
  ∃ u ∈ (t.entry name).usages, u.kind = kind

variable {t t' : Table} {id : Located String} {name : String} {kind : Kind} {what : Declaration}

theorem declare_eq_ok (h : t.declare id what = .ok t') :
    isReserved id.value = false ∧ (t.entry id.value).declared = none ∧
      t' = t.put { t.entry id.value with declared := some (id.place, what) } := by
  unfold declare at h
  dsimp only at h
  split at h
  · simp at h
  · next free =>
    split at h
    · split at h <;> simp at h
    · next undeclared => exact ⟨by simpa using free, undeclared, (Except.ok.inj h).symm⟩

theorem use_eq_ok (h : t.use id kind = .ok t') :
    t' = t.put { t.entry id.value with
      usages := (t.entry id.value).usages ++ [⟨id.place, kind⟩] } := by
  unfold use at h
  dsimp only at h
  split at h
  · split at h
    · exact (Except.ok.inj h).symm
    · simp at h
  · split at h
    · exact (Except.ok.inj h).symm
    · simp at h
  · exact (Except.ok.inj h).symm

/-- A declaration says of its name what was declared, and nothing of any other. -/
theorem declaration_declare (h : t.declare id what = .ok t') (name : String) :
    t'.declaration name = if id.value = name then some what else t.declaration name := by
  obtain ⟨-, -, rfl⟩ := declare_eq_ok h
  rw [declaration_eq, declaration_eq, entry_put, entry_name]
  split <;> rfl

theorem declaration_eq_none_of_declare (h : t.declare id what = .ok t') :
    t.declaration id.value = none := by
  rw [declaration_eq, Entry.declaration, (declare_eq_ok h).2.1]
  rfl

theorem uses_declare (h : t.declare id what = .ok t') : t'.Uses name kind ↔ t.Uses name kind := by
  obtain ⟨-, -, rfl⟩ := declare_eq_ok h
  rw [Uses, Uses, entry_put, entry_name]
  split
  · next e => rw [e]
  · rfl

/-- A use declares nothing. -/
theorem declaration_use (h : t.use id kind = .ok t') (name : String) :
    t'.declaration name = t.declaration name := by
  obtain rfl := use_eq_ok h
  rw [declaration_eq, declaration_eq, entry_put, entry_name]
  split
  · next e =>
    rw [← e]
    rfl
  · rfl

theorem uses_use (h : t.use id kind = .ok t') : t'.Uses id.value kind := by
  obtain rfl := use_eq_ok h
  rw [Uses, entry_put, entry_name, if_pos rfl]
  exact ⟨_, List.mem_append_right _ (List.mem_singleton_self _), rfl⟩

theorem uses_mono_use {kind' : Kind} (h : t.use id kind' = .ok t') (used : t.Uses name kind) :
    t'.Uses name kind := by
  obtain rfl := use_eq_ok h
  rw [Uses, entry_put, entry_name]
  split
  · next e =>
    obtain ⟨u, hu, hkind⟩ := used
    exact ⟨u, List.mem_append_left _ (e ▸ hu), hkind⟩
  · exact used

/-! ## Runs -/

/-- A declaration or a use that is not refused. -/
inductive Step (t t' : Table) : Prop
  | declare {id : Located String} {what : Declaration} : t.declare id what = .ok t' → Step t t'
  | use {id : Located String} {kind : Kind} : t.use id kind = .ok t' → Step t t'

/-- Any number of declarations and uses, one after the other. -/
abbrev Run : Table → Table → Prop := Relation.ReflTransGen Step

/-- A declaration once made never changes. -/
theorem Run.declaration (h : Run t t') (hd : t.declaration name = some what) :
    t'.declaration name = some what := by
  induction h with
  | refl => exact hd
  | @tail u v _ step ih =>
    cases step with
    | @declare id what' h =>
      have : id.value ≠ name := by
        rintro rfl
        simp [declaration_eq_none_of_declare h] at ih
      rw [declaration_declare h, if_neg this, ih]
    | use h => rw [declaration_use h, ih]

theorem Run.uses (h : Run t t') (used : t.Uses name kind) : t'.Uses name kind := by
  induction h with
  | refl => exact used
  | tail _ step ih =>
    cases step with
    | declare h => exact (uses_declare h).mpr ih
    | use h => exact uses_mono_use h ih

/-- What holds of any table that came about by declarations and uses: a name is in it only if it
was declared or used, and only names that do not belong to the compiler are declared. -/
structure Sound (t : Table) : Prop where
  occurs : ∀ name e, t.get? name = some e → e.declared ≠ none ∨ e.usages ≠ []
  free : ∀ name e, t.get? name = some e → e.declared ≠ none → isReserved name = false

namespace Sound

theorem empty : Table.empty.Sound where
  occurs := by simp [Table.empty, get?]
  free := by simp [Table.empty, get?]

/-- What is known of a name may be replaced by something that is known as little. -/
theorem put {e : Entry} (h : t.Sound) (occurs : e.declared ≠ none ∨ e.usages ≠ [])
    (free : e.declared ≠ none → isReserved e.name = false) : (t.put e).Sound where
  occurs name f hf := by
    rw [get?_put] at hf
    split at hf
    · exact Option.some.inj hf ▸ occurs
    · exact h.occurs name f hf
  free name f hf := by
    rw [get?_put] at hf
    split at hf
    · next same => exact Option.some.inj hf ▸ same ▸ free
    · exact h.free name f hf

theorem entry_free (h : t.Sound) (declared : (t.entry name).declared ≠ none) :
    isReserved name = false := by
  unfold entry at declared
  cases found : t.get? name with
  | none => simp [found] at declared
  | some e => exact h.free name e found (by simpa [found] using declared)

theorem step (h : t.Sound) (step : Step t t') : t'.Sound := by
  cases step with
  | declare hd =>
    obtain ⟨free, -, rfl⟩ := declare_eq_ok hd
    exact h.put (.inl (by simp)) fun _ => by simpa using free
  | use hu =>
    obtain rfl := use_eq_ok hu
    exact h.put (.inr (by simp)) fun declared => by simpa using h.entry_free declared

theorem run (h : t.Sound) (run : Run t t') : t'.Sound := by
  induction run with
  | refl => exact h
  | tail _ step ih => exact ih.step step

end Sound

/-! ## The end of a run -/

/-- Nothing is wrong in the end if nothing is wrong with any name. -/
theorem finish_eq_nil_iff : t.finish = [] ↔ ∀ e ∈ t.entries, atEnd e = [] := by
  simp [finish, List.flatMap_eq_nil_iff, List.mem_mergeSort]

theorem atEnd_eq_nil (h : t.finish = []) {e : Entry} (he : t.get? name = some e) :
    atEnd e = [] :=
  finish_eq_nil_iff.mp h e (List.mem_of_find?_eq_some he)

/-- In the end, a name is declared as what it was used as. -/
theorem declaration_of_uses (h : t.finish = []) (used : t.Uses name kind) :
    ∃ what, t.declaration name = some what ∧ what.kind = kind := by
  obtain ⟨u, hu, rfl⟩ := used
  cases found : t.get? name with
  | none => simp [entry, found] at hu
  | some e =>
    have hu : u ∈ e.usages := by simpa [entry, found] using hu
    have fine := atEnd_eq_nil h found
    unfold atEnd at fine
    split at fine
    · next unused => simp [unused] at hu
    · simp at fine
    · next _ place what declared =>
      have same := List.filter_eq_nil_iff.mp (List.map_eq_nil_iff.mp fine) u hu
      refine ⟨what, ?_, ?_⟩
      · rw [declaration, found, Option.bind_some, Entry.declaration, declared]
        rfl
      · exact (by simpa using same : u.kind = what.kind).symm

/-- In the end, no name that belongs to the compiler is in the table. -/
theorem get?_eq_none_of_isReserved (h : t.finish = []) (sound : t.Sound)
    (reserved : isReserved name = true) : t.get? name = none := by
  cases found : t.get? name with
  | none => rfl
  | some e =>
    have undeclared : e.declared = none := by
      cases declared : e.declared with
      | none => rfl
      | some d => simp [sound.free name e found (by simp [declared])] at reserved
    obtain ⟨u, us, used⟩ := List.exists_cons_of_ne_nil
      ((sound.occurs name e found).resolve_left (by simp [undeclared]))
    have fine := atEnd_eq_nil h found
    simp [atEnd, undeclared, used] at fine

end Table

end Gamebook.Symbol
