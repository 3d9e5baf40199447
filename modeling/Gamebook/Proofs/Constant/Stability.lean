import Gamebook.Proofs.Constant.Evaluation
import Gamebook.Proofs.Symbol.Table

/-!
# Constants that are computed again later

While a script is read, more and more of its constants are known. A constant expression that is
computed with some of them comes to the same once there are more, be it a value or an error, unless
it failed for a name that was not declared (`Expr.eval_settles`). So it does not matter when it is
computed: a value is final, and an error in arithmetic stays one. It fails for a name only if this
is one of its names (`Expr.missing_of_undefined`), and has no value if one of its names has none
(`Expr.eval_ne_ok`).

The tables of a script are such: a constant once declared keeps its value
(`Symbol.Table.Run.precedes`).
-/

namespace Gamebook

namespace Constant

/-- The second computation comes to what the first one came to, unless that one lacked a name. -/
def Settles {α : Type} (first second : Except EvalError α) : Prop :=
  second = first ∨ ∃ name, first = .error (.undefined name)

namespace Settles

variable {α β : Type} {x y : Except EvalError α}

theorem refl (x : Except EvalError α) : Settles x x := .inl rfl

/-- A name that is missing at any point is missing for the whole. -/
theorem bind {f g : α → Except EvalError β} (h : Settles x y) (hf : ∀ a, Settles (f a) (g a)) :
    Settles (x >>= f) (y >>= g) := by
  rcases h with rfl | ⟨name, rfl⟩
  · cases y with
    | error error => exact .refl _
    | ok a => exact hf a
  · exact .inr ⟨name, rfl⟩

end Settles

namespace Expr

variable {lookup lookup' : String → Option Int64}

/-- Only an item that is a name can depend on the names that are known. -/
theorem step_settles (known : ∀ name v, lookup name = some v → lookup' name = some v)
    (stack : List Int64) (item : Item) :
    Settles (step lookup stack item) (step lookup' stack item) := by
  cases item with
  | value v => exact .refl _
  | apply op => exact .refl _
  | named name =>
    cases found : lookup name with
    | none => exact .inr ⟨name, by simp [step, found]⟩
    | some v =>
      have found' := known name v found
      exact .inl (by simp [step, found, found'])

theorem foldlM_settles (known : ∀ name v, lookup name = some v → lookup' name = some v)
    (items : List Item) (stack : List Int64) :
    Settles (items.foldlM (step lookup) stack) (items.foldlM (step lookup') stack) := by
  induction items generalizing stack with
  | nil => exact .refl _
  | cons item items ih =>
    rw [List.foldlM_cons, List.foldlM_cons]
    exact (step_settles known stack item).bind ih

/-- An expression comes to the same when more names are known, unless one was missing. -/
theorem eval_settles (known : ∀ name v, lookup name = some v → lookup' name = some v) (e : Expr) :
    Settles (e.eval lookup) (e.eval lookup') :=
  (foldlM_settles known e.items []).bind fun stack => .refl (result stack)

theorem result_eq_ok {stack : List Int64} {v : Int64} : result stack = .ok v ↔ stack = [v] := by
  rcases stack with _ | ⟨w, _ | ⟨w', rest⟩⟩
  · exact ⟨nofun, nofun⟩
  · exact ⟨fun h => by cases h; rfl, fun h => by cases h; rfl⟩
  · exact ⟨nofun, nofun⟩

theorem eval_eq_ok {e : Expr} {v : Int64} :
    e.eval lookup = .ok v ↔ e.items.foldlM (step lookup) [] = .ok [v] := by
  unfold eval
  cases e.items.foldlM (step lookup) [] with
  | error error => exact ⟨nofun, nofun⟩
  | ok stack =>
    change result stack = _ ↔ _
    rw [result_eq_ok, Except.ok.injEq]

theorem mem_names {e : Expr} {name : String} : name ∈ e.names ↔ .named name ∈ e.items := by
  unfold names
  rw [List.mem_filterMap]
  constructor
  · rintro ⟨item, mem, same⟩
    cases item with
    | named other => exact Option.some.inj same ▸ mem
    | value v => contradiction
    | apply op => contradiction
  · exact fun mem => ⟨_, mem, rfl⟩

/-- Only a name without a value can be missing. -/
theorem missing_of_undefined {e : Expr} {name : String}
    (h : e.eval lookup = .error (.undefined name)) : name ∈ e.names ∧ lookup name = none := by
  rcases eval_eq_error h with ⟨before, item, after, stack, items, -, failed⟩ | short | ⟨_, long⟩
  · rcases step_eq_error failed with
      ⟨other, rfl, missing, same⟩ | short | ⟨op, _, _, _, -, -, fails⟩
    · obtain rfl := EvalError.undefined.inj same
      refine ⟨mem_names.mpr ?_, missing⟩
      rw [items]
      exact List.mem_append_right _ List.mem_cons_self
    · contradiction
    · have := Operator.isArithmetic_of_apply fails
      contradiction
  · contradiction
  · contradiction

/-- An expression has no value if one of its names has none. -/
theorem eval_ne_ok {e : Expr} {name : String} (mem : name ∈ e.names) (missing : lookup name = none)
    (v : Int64) : e.eval lookup ≠ .ok v := by
  have items (items : List Item) (mem : .named name ∈ items) (stack stack' : List Int64) :
      items.foldlM (step lookup) stack ≠ .ok stack' := by
    induction items generalizing stack with
    | nil => contradiction
    | cons item items ih =>
      rw [List.foldlM_cons]
      cases first : step lookup stack item with
      | error error => exact fun h => by contradiction
      | ok stack'' =>
        rcases List.mem_cons.mp mem with rfl | mem
        · simp [step, missing] at first
        · exact ih mem stack''
  intro h
  exact items _ (mem_names.mp mem) _ _ (eval_eq_ok.mp h)

/-- The low bits of a value, whatever the expression is. -/
theorem eval_masked {e : Expr} {mask w : Int64} :
    (e.binary .and (.value mask)).eval lookup = .ok w ↔
      ∃ v, e.eval lookup = .ok v ∧ w = v &&& mask := by
  simp only [eval_eq_ok, binary, value]
  rw [List.foldlM_append, List.foldlM_append]
  cases e.items.foldlM (step lookup) [] with
  | error error => exact ⟨nofun, fun ⟨_, h, _⟩ => nomatch h⟩
  | ok stack =>
    -- the operator takes the value on top, so one is left exactly if there was one before
    rcases stack with _ | ⟨v, rest⟩
    · exact ⟨nofun, fun ⟨_, h, _⟩ => nomatch h⟩
    · change Except.ok ((v &&& mask) :: rest) = _ ↔ _
      simp only [Except.ok.injEq, List.cons.injEq]
      constructor
      · rintro ⟨rfl, rfl⟩
        exact ⟨v, ⟨rfl, rfl⟩, rfl⟩
      · rintro ⟨_, ⟨rfl, rfl⟩, rfl⟩
        exact ⟨rfl, rfl⟩
end Expr

end Constant

namespace Symbol.Table

/-- Every constant of the first table is one of the second, with the same value. -/
def Precedes (t t' : Table) : Prop := ∀ name v, t.value? name = some v → t'.value? name = some v

theorem value?_eq_some {t : Table} {name : String} {v : Int64} :
    t.value? name = some v ↔ t.declaration name = some (.constant v) := by
  unfold value?
  cases t.declaration name with
  | none => simp
  | some what => cases what <;> simp

/-- What is declared and used later leaves the constants as they are. -/
theorem Run.precedes {t t' : Table} (run : Run t t') : t.Precedes t' := by
  intro name v declared
  rw [value?_eq_some] at declared ⊢
  exact run.declaration declared

end Symbol.Table

end Gamebook
