import Gamebook.Proofs.Grammar.Folding
import Gamebook.Proofs.Grammar.Statements

/-!
# Statements with constants in a row

Some statements take several constants. If all of them are known they are computed at once, and each
has to be a byte (`Parser.checkBytes`); otherwise each is left to the end or not by itself
(`Parser.immediates`). A statement whose constants are left as they are writes their values in the
end, if these are bytes (`places_iff_of_immediates`).

`Places` says what it is for such a statement to be accepted: it writes one instruction, whose
operands can be written with the names there are in the end, and does nothing else.
-/

namespace Gamebook

namespace Constant

/-- The values of constants. -/
def Values (lookup : String → Option Int64) (es : List Expr) (vs : List Int64) : Prop :=
  List.Forall₂ (fun e v => e.eval lookup = .ok v) es vs

theorem Values.unique {lookup : String → Option Int64} {es : List Expr} {vs ws : List Int64}
    (h : Values lookup es vs) (h' : Values lookup es ws) : vs = ws := by
  induction h generalizing ws with
  | nil =>
    cases h'
    rfl
  | cons first _ ih =>
    obtain _ | ⟨first', rest'⟩ := h'
    rw [Except.ok.inj (first.symm.trans first'), ih rest']

theorem Values.congr {lookup lookup' : String → Option Int64} {es : List Expr} {vs : List Int64}
    (h : ∀ e ∈ es, e.eval lookup = e.eval lookup') :
    Values lookup es vs ↔ Values lookup' es vs := by
  unfold Values
  induction es generalizing vs with
  | nil => rw [List.forall₂_nil_left_iff, List.forall₂_nil_left_iff]
  | cons e es ih =>
    obtain ⟨first, rest⟩ := List.forall_mem_cons.mp h
    simp only [List.forall₂_cons_left_iff, first, ih rest]

theorem Values.eval {lookup : String → Option Int64} {es : List Expr} {vs : List Int64} {e : Expr}
    (h : Values lookup es vs) (mem : e ∈ es) : ∃ v, e.eval lookup = .ok v := by
  induction h with
  | nil => contradiction
  | cons first _ ih =>
    rcases List.mem_cons.mp mem with rfl | mem
    · exact ⟨_, first⟩
    · exact ih mem

/-- Values that are known are final. -/
theorem Values.precede {es : List Expr} {vs : List Int64} {t t' : Symbol.Table}
    (h : Values t.value? es vs) (later : t.Precedes t') : Values t'.value? es vs := by
  refine List.Forall₂.imp (fun e v value => ?_) h
  rcases Expr.eval_settles later e with same | ⟨name, missing⟩
  · rw [same, value]
  · rw [missing] at value
    contradiction

/-- Where all names are known, the values are known. -/
theorem Values.known_iff {es : List Expr} {vs : List Int64} {t t' : Symbol.Table}
    (later : t.Precedes t') (known : ∀ e ∈ es, ∀ name ∈ e.names, t.value? name ≠ none) :
    Values t.value? es vs ↔ Values t'.value? es vs := by
  refine Values.congr fun e mem => ?_
  rcases Expr.eval_settles later e with same | ⟨name, undefined⟩
  · exact same.symm
  · obtain ⟨mem', none⟩ := Expr.missing_of_undefined undefined
    exact absurd none (known e mem name mem')

/-- Where a name is missing, there are no values. -/
theorem Values.not_of_missing {es : List Expr} {vs : List Int64} {lookup : String → Option Int64}
    {e : Expr} {name : String} (mem : e ∈ es) (mem' : name ∈ e.names) (none : lookup name = none) :
    ¬ Values lookup es vs := by
  intro values
  obtain ⟨v, value⟩ := values.eval mem
  exact Expr.eval_ne_ok mem' none v value

/-- All values are bytes. -/
abbrev AllBytes (vs : List Int64) : Prop := ∀ v ∈ vs, Width.byte.Holds v

/-- A value as a byte. -/
def byteOf (v : Int64) : UInt8 := v.toInt.toNat.toUInt8

/-- A value as a word. -/
def wordOf (v : Int64) : UInt16 := v.toInt.toNat.toUInt16

theorem toUInt8_wordOf (v : Int64) : (wordOf v).toUInt8 = byteOf v := by
  apply UInt8.toNat.inj
  rw [UInt16.toNat_toUInt8, wordOf, byteOf, Nat.toUInt8, Nat.toUInt16, UInt8.toNat_ofNat',
    UInt16.toNat_ofNat']
  omega

end Constant

namespace Memory.Context

/-- The bytes of the first operand come first. -/
theorem operands_cons {c : Context} {op : Opcode} {shape : OperandShape}
    {shapes : List OperandShape} {x : Operand} {xs : List Operand} {bytes : List UInt8} :
    c.operands op (shape :: shapes) (x :: xs) = .ok bytes ↔
      ∃ front back, c.operand op shape x = .ok front ∧ c.operands op shapes xs = .ok back ∧
        bytes = front ++ back := by
  change (c.operand op shape x >>= fun _ => _) = _ ↔ _
  cases c.operand op shape x with
  | error error => exact ⟨nofun, fun ⟨_, _, h, _⟩ => nomatch h⟩
  | ok front =>
    change (c.operands op shapes xs >>= fun _ => _) = _ ↔ _
    cases c.operands op shapes xs with
    | error error => exact ⟨nofun, fun ⟨_, _, _, h, _⟩ => nomatch h⟩
    | ok back =>
      constructor
      · intro h
        exact ⟨front, back, rfl, rfl, (Except.ok.inj h).symm⟩
      · rintro ⟨_, _, ⟨⟩, ⟨⟩, rfl⟩
        rfl

end Memory.Context

namespace Grammar

open Constant (Expr Width EvalError Values AllBytes byteOf wordOf)
open Memory (Context)

/-- If nothing is found wrong until the end, nothing is on the way. -/
theorem State.Grows.problems_eq {s s' s'' : State} (h : s.Grows s') (h' : s'.Grows s'')
    (same : s''.problems = s.problems) : s'.problems = s.problems := by
  have short := h'.problems.length_le
  rw [same] at short
  exact (h.problems.eq_of_length_le short).symm

/-- An error that is not for want of a name stays. -/
theorem not_values_of_error {t t' : Symbol.Table} {es : List (Located Expr)} {e : Located Expr}
    {error : EvalError} (later : t.Precedes t') (mem : e ∈ es)
    (failed : e.value.eval t.value? = .error error) (known : ∀ name, error ≠ .undefined name)
    (vs : List Int64) : ¬ Values t'.value? (es.map (·.value)) vs := by
  intro values
  obtain ⟨v, value⟩ := values.eval (List.mem_map_of_mem mem)
  rcases Expr.eval_settles later e.value with same | ⟨name, missing⟩
  · rw [same, failed] at value
    contradiction
  · exact known name (Except.error.inj (failed.symm.trans missing))

namespace Parser

variable {s s' : State} {es : List (Located Expr)} {vs : List Int64}

/-! ## Constants in a row -/

theorem length_of_listOf {α : Type} {item : Parser α} {n : Nat} {xs : List α}
    (run : listOf item n s = .done xs s') : xs.length = n := by
  fun_induction listOf item n generalizing s xs with
  | case1 =>
    cases run
    rfl
  | case2 =>
    obtain ⟨x, s₁, -, run⟩ := bind_eq_done.mp run
    cases run
    rfl
  | case3 n ih =>
    obtain ⟨x, s₁, -, run⟩ := bind_eq_done.mp run
    obtain ⟨-, s₂, -, run⟩ := bind_eq_done.mp run
    obtain ⟨rest, s₃, run', run⟩ := bind_eq_done.mp run
    cases run
    rw [List.length_cons, ih run']

theorem foldConstants_of_values (h : Values s.symbols.value? (es.map (·.value)) vs) :
    foldConstants es s = .done (some vs) s := by
  induction es generalizing vs with
  | nil =>
    cases h
    rfl
  | cons e es ih =>
    obtain _ | ⟨first, rest⟩ := h
    rw [foldConstants, bind_of_done (evaluate_apply (by simp [first])), first]
    change (foldConstants es >>= _) s = _
    rw [bind_of_done (ih rest)]
    rfl

/-- One of the constants is not known yet, or has no value at all. -/
theorem foldConstants_of_not_values (h : ∀ vs, ¬ Values s.symbols.value? (es.map (·.value)) vs) :
    foldConstants es s = .done none s ∨ foldConstants es s = .overflowed ∧
      ∃ e ∈ es, e.value.eval s.symbols.value? = .error .quotientOverflow := by
  induction es with
  | nil => exact absurd .nil (h [])
  | cons e es ih =>
    by_cases overflow : e.value.eval s.symbols.value? = .error .quotientOverflow
    · refine .inr ⟨?_, e, List.mem_cons_self, overflow⟩
      rw [foldConstants, bind_apply, evaluate, overflow]
    · rw [foldConstants, bind_of_done (evaluate_apply overflow)]
      cases first : e.value.eval s.symbols.value? with
      | error error => exact .inl rfl
      | ok v =>
        have rest : ∀ vs, ¬ Values s.symbols.value? (es.map (·.value)) vs :=
          fun vs rest => h (v :: vs) (.cons first rest)
        change (foldConstants es >>= _) s = _ ∨ (foldConstants es >>= _) s = _ ∧ _
        rcases ih rest with run | ⟨run, e', mem, overflow'⟩
        · left
          rw [bind_of_done run]
          rfl
        · refine .inr ⟨?_, e', List.mem_cons_of_mem e mem, overflow'⟩
          rw [bind_apply, run]

theorem checkBytes_of_holds (place : Location) (h : AllBytes vs) :
    checkBytes (vs.map (⟨·, place⟩)) s = .done (vs.map wordOf) s := by
  induction vs with
  | nil => rfl
  | cons v vs ih =>
    obtain ⟨first, rest⟩ := List.forall_mem_cons.mp h
    rw [List.map_cons, checkBytes, bind_of_done (check_of_holds place first),
      bind_of_done (ih rest)]
    rfl

/-- A value that is no byte is a problem. -/
theorem holds_of_checkBytes {place : Location} {ns : List UInt16}
    (run : checkBytes (vs.map (⟨·, place⟩)) s = .done ns s') (fine : s'.problems = s.problems) :
    AllBytes vs := by
  induction vs generalizing s ns s' with
  | nil => exact List.forall_mem_nil _
  | cons v vs ih =>
    rw [List.map_cons, checkBytes, bind_eq_done] at run
    obtain ⟨n, s₁, first, run⟩ := run
    rw [bind_eq_done] at run
    obtain ⟨ns', s₂, rest, run⟩ := run
    cases run
    have grows₁ : s.Grows s₁ :=
      (check_reads (T := .nothing true) (C := True) .byte v place).grows_of_done first
    have grows₂ : s₁.Grows s' :=
      (checkBytes_reads (T := .nothing true) (C := True) _).grows_of_done rest
    have fine₁ := grows₁.problems_eq grows₂ fine
    refine List.forall_mem_cons.mpr ⟨?_, ih rest (fine.trans fine₁.symm)⟩
    by_contra wrong
    obtain ⟨s₃, found, changed⟩ := check_of_not_holds (s := s) place wrong
    rw [first] at found
    cases found
    exact changed fine₁

/-- A constant that is read without a problem changes nothing. -/
theorem eq_of_immediate {e : Located Expr} {width : Width} {x : Operand}
    (run : immediate e width s = .done x s') (fine : s'.problems = s.problems) : s' = s := by
  by_cases missing : ∃ name, e.value.eval s.symbols.value? = .error (.undefined name)
  · obtain ⟨name, h⟩ := missing
    rw [immediate_of_undefined h] at run
    cases run
    rfl
  by_cases fits : ∃ v, e.value.eval s.symbols.value? = .ok v ∧ width.Holds v
  · obtain ⟨v, h, holds⟩ := fits
    rw [immediate_of_holds h holds] at run
    cases run
    rfl
  · push Not at missing fits
    exact absurd fine (problems_of_immediate missing fits run)

theorem eq_of_immediates {xs : List Operand} (run : immediates es s = .done xs s')
    (fine : s'.problems = s.problems) : s' = s := by
  induction es generalizing s xs with
  | nil =>
    cases run
    rfl
  | cons e es ih =>
    rw [immediates, bind_eq_done] at run
    obtain ⟨x, s₁, first, run⟩ := run
    rw [bind_eq_done] at run
    obtain ⟨xs', s₂, rest, run⟩ := run
    cases run
    have grows₁ : s.Grows s₁ := (immediate_reads (T := .nothing true) e .byte).grows_of_done first
    have grows₂ : s₁.Grows s' := (immediates_reads (T := .nothing true) es).grows_of_done rest
    obtain rfl := eq_of_immediate first (grows₁.problems_eq grows₂ fine)
    exact ih rest fine

end Parser

/-- Constants end up in memory, each as a byte, if all of them have values in the end that are
bytes. -/
theorem immediates_emit_iff {s : State} {es : List (Located Expr)} {c : Context} (op : Opcode)
    {bytes : List UInt8} (later : s.symbols.Precedes c.symbols) :
    (∃ xs, Parser.immediates es s = .done xs s ∧
      c.operands op (List.replicate es.length .byte) xs = .ok bytes) ↔
      ∃ vs, Values c.symbols.value? (es.map (·.value)) vs ∧ AllBytes vs ∧
        bytes = vs.map byteOf := by
  induction es generalizing bytes with
  | nil =>
    constructor
    · rintro ⟨xs, run, written⟩
      cases run
      cases written
      exact ⟨[], .nil, List.forall_mem_nil _, rfl⟩
    · rintro ⟨vs, values, -, rfl⟩
      cases values
      exact ⟨[], rfl, rfl⟩
  | cons e es ih =>
    constructor
    · rintro ⟨xs, run, written⟩
      rw [Parser.immediates, Parser.bind_eq_done] at run
      obtain ⟨x, s₁, first, run⟩ := run
      rw [Parser.bind_eq_done] at run
      obtain ⟨xs', s₂, rest, run⟩ := run
      cases run
      have grows₁ : s.Grows s₁ :=
        (Parser.immediate_reads (T := .nothing true) e .byte).grows_of_done first
      have grows₂ : s₁.Grows s :=
        (Parser.immediates_reads (T := .nothing true) es).grows_of_done rest
      obtain rfl := Parser.eq_of_immediate first (grows₁.problems_eq grows₂ rfl)
      obtain ⟨front, back, head, tail, rfl⟩ := Context.operands_cons.mp written
      obtain ⟨v, value, holds, rfl⟩ := (emits_iff later).mp ⟨x, _, first, rfl, head⟩
      obtain ⟨vs, values, all, rfl⟩ := ih.mp ⟨xs', rest, tail⟩
      exact ⟨v :: vs, .cons value values, List.forall_mem_cons.mpr ⟨holds, all⟩, rfl⟩
    · rintro ⟨vs, values, all, rfl⟩
      obtain _ | ⟨value, values⟩ := values
      obtain ⟨holds, all⟩ := List.forall_mem_cons.mp all
      obtain ⟨x, s₁, first, fine, head⟩ :
          Emits s e .byte c op [byteOf _] := (emits_iff later).mpr ⟨_, value, holds, rfl⟩
      obtain rfl := Parser.eq_of_immediate first fine
      obtain ⟨xs, rest, tail⟩ := ih.mpr ⟨_, values, all, rfl⟩
      refine ⟨x :: xs, ?_, Context.operands_cons.mpr ⟨_, _, head, tail, rfl⟩⟩
      rw [Parser.immediates, Parser.bind_of_done first, Parser.bind_of_done rest]
      rfl

/-! ## Statements with constants -/

/-- What a statement does behind its arguments, which end in `s₁`: one instruction is written, whose
operands have these bytes with the names of `c`, and nothing else happens that is not just noted. -/
def Places (p : Parser Unit) (s s₁ : State) (op : Opcode) (c : Context) (bytes : List UInt8) :
    Prop :=
  ∃ xs notes, p s = .done () { s₁ with code := s₁.code ++ [.code op xs], notes := notes } ∧
    c.operands op op.operands xs = .ok bytes

section Places

variable {p : Parser Unit} {s s₁ : State} {op : Opcode} {c : Context} {bytes : List UInt8}

theorem not_places_of_overflowed (run : p s = .overflowed) : ¬ Places p s s₁ op c bytes := by
  rintro ⟨xs, notes, run', -⟩
  rw [run] at run'
  contradiction

/-- A statement that has something to check, and writes its instruction in any case. -/
theorem places_iff_of_checked {P : Prop} {xs : List Operand} {out : List UInt8}
    (pass : P → ∃ notes, p s =
      .done () { s₁ with code := s₁.code ++ [.code op xs], notes := notes })
    (passed : ∀ s', p s = .done () s' → s'.problems = s₁.problems → P)
    (written : c.operands op op.operands xs = .ok out) :
    Places p s s₁ op c bytes ↔ P ∧ bytes = out := by
  constructor
  · rintro ⟨xs', notes, run, written'⟩
    have fine := passed _ run rfl
    obtain ⟨notes', run'⟩ := pass fine
    rw [run] at run'
    have wrote := congrArg State.code (Outcome.done.inj run').2
    cases List.append_cancel_left wrote
    exact ⟨fine, Except.ok.inj (written'.symm.trans written)⟩
  · rintro ⟨fine, rfl⟩
    obtain ⟨notes, run⟩ := pass fine
    exact ⟨xs, notes, run, written⟩

/-- A statement that leaves its constants as they are. -/
theorem places_iff_of_immediates {es : List (Located Expr)}
    (run : p s = (Parser.immediates es >>= fun xs => Parser.emit [.code op xs]) s₁)
    (operands : op.operands = List.replicate es.length .byte)
    (later : s₁.symbols.Precedes c.symbols) :
    Places p s s₁ op c bytes ↔
      ∃ vs, Values c.symbols.value? (es.map (·.value)) vs ∧ AllBytes vs ∧
        bytes = vs.map byteOf := by
  rw [← immediates_emit_iff op later, Places, run, operands]
  constructor
  · rintro ⟨xs, notes, run', written⟩
    obtain ⟨xs', s₂, computed, emitted⟩ := Parser.bind_eq_done.mp run'
    have same := (Outcome.done.inj emitted).2
    have fine := congrArg State.problems same
    obtain rfl := Parser.eq_of_immediates computed fine
    have wrote := congrArg State.code same
    cases List.append_cancel_left wrote
    exact ⟨xs, computed, written⟩
  · rintro ⟨xs, computed, written⟩
    exact ⟨xs, _, Parser.bind_of_done computed, written⟩

end Places

end Grammar

end Gamebook
