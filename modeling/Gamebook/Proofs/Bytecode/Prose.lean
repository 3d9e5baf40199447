import Gamebook.Bytecode.Prose

/-!
# Texts in their places

Compressing replaces the texts of a program, each in its place: the `k`th text becomes the `k`th
compressed one (`getElem?_replace`), whatever is found in the other instructions is found in the
same order afterwards (`filterMap_replace`), and nothing but texts is new (`mem_replace`).

The texts are put back all or none, whatever comes back from the compressor: what keeps them from it
is a `Misfit`, and if there is none they are `Aligned` with the old ones (`substitute_aligned`).
-/

namespace Gamebook

/-- The instruction is a stretch of prose. -/
def Instruction.isText : Instruction → Bool
  | .text _ => true
  | _ => false

/-- Another text instead, if there is one and the instruction is a text. -/
def Instruction.withText (new : Option (List UInt8)) : Instruction → Instruction
  | .text old => .text (new.getD old)
  | i => i

namespace Prose

/-! ## Other texts -/

/-- What is found in the labels, arrays and operations of a program is not changed by other
texts. -/
theorem filterMap_replace {α : Type} {f : Instruction → Option α}
    (hf : ∀ bytes, f (.text bytes) = none) (code : List Instruction) (texts : List (List UInt8)) :
    (replace code texts).filterMap f = code.filterMap f := by
  fun_induction replace code texts with
  | case1 old code t ts ih => simp [hf, ih]
  | case2 i code ts _ ih => rw [List.filterMap_cons, ih, ← List.filterMap_cons]
  | case3 => rfl

/-- Only texts are new. -/
theorem mem_replace {code : List Instruction} {texts : List (List UInt8)} {i : Instruction}
    (h : i ∈ replace code texts) : (∃ bytes, i = .text bytes) ∨ i ∈ code := by
  fun_induction replace code texts with
  | case1 old code t ts ih =>
    rcases List.mem_cons.mp h with rfl | h
    · exact .inl ⟨t, rfl⟩
    · exact (ih h).imp_right (List.mem_cons_of_mem _)
  | case2 j code ts _ ih =>
    rcases List.mem_cons.mp h with rfl | h
    · exact .inr List.mem_cons_self
    · exact (ih h).imp_right (List.mem_cons_of_mem j)
  | case3 => exact .inr h

/-- Texts before and behind what is no text are replaced on their own. -/
theorem replace_append_cons {i : Instruction} (other : i.isText = false)
    (front back : List Instruction) (ts : List (List UInt8)) :
    replace (front ++ i :: back) ts =
      replace front ts ++ i :: replace back (ts.drop (front.countP Instruction.isText)) := by
  induction front generalizing ts with
  | nil => cases i <;> first | contradiction | rfl
  | cons j front ih =>
    cases j with
    | text bytes => cases ts <;> simp [replace, ih, List.countP_cons, Instruction.isText]
    | _ => simp [replace, ih, Instruction.isText]

theorem length_texts (code : List Instruction) :
    (texts code).length = code.countP Instruction.isText := by
  induction code with
  | nil => rfl
  | cons i code ih => cases i <;> simpa [texts, List.countP_cons, Instruction.isText] using ih

/-- The text that has `k` others before it is replaced by the one that has `k` others before it, as
long as there is one. All else stays where it is. -/
theorem getElem?_replace (code : List Instruction) (ts : List (List UInt8)) (i : Nat) :
    (replace code ts)[i]? =
      code[i]?.map (·.withText ts[(code.take i).countP Instruction.isText]?) := by
  fun_induction replace code ts generalizing i with
  | case1 old code t ts ih =>
    cases i with
    | zero => rfl
    | succ i => simp [ih, List.countP_cons, Instruction.isText]
  | case2 j code ts other ih =>
    cases i with
    | zero =>
      cases j with
      | text old =>
        -- no texts are left
        cases ts with
        | nil => rfl
        | cons t ts => exact absurd rfl (other old t ts rfl)
      | label | array | code => rfl
    | succ i =>
      cases j with
      | text old =>
        cases ts with
        | nil => simp [ih]
        | cons t ts => exact absurd rfl (other old t ts rfl)
      | label | array | code => simp [ih, Instruction.isText]
  | case3 => rfl

theorem length_replace (code : List Instruction) (ts : List (List UInt8)) :
    (replace code ts).length = code.length := by
  fun_induction replace code ts with
  | case1 old code t ts ih => rw [List.length_cons, ih, List.length_cons]
  | case2 i code ts _ ih => rw [List.length_cons, ih, List.length_cons]
  | case3 => rfl

/-- If there are as many new texts as places for them, they are the texts of the program. -/
theorem filter_replace {code : List Instruction} {ts : List (List UInt8)}
    (count : ts.length = code.countP Instruction.isText) :
    (replace code ts).filter Instruction.isText = ts.map .text := by
  fun_induction replace code ts with
  | case1 old code t ts ih =>
    have count : ts.length = code.countP Instruction.isText := by
      simpa [List.countP_cons, Instruction.isText] using count
    rw [List.filter_cons_of_pos rfl, ih count, List.map_cons]
  | case2 i code ts other ih =>
    cases i with
    | text old =>
      cases ts with
      | nil => simp [List.countP_cons, Instruction.isText] at count
      | cons t ts => exact absurd rfl (other old t ts rfl)
    | label | array | code =>
      rw [List.filter_cons_of_neg Bool.false_ne_true]
      exact ih (by simpa [List.countP_cons, Instruction.isText] using count)
  | case3 ts =>
    obtain rfl := List.length_eq_zero_iff.mp count
    rfl

/-! ## What does not fit -/

/-- What is wrong with texts for so many places: there are too few or too many of them, or else one
holds the byte that ends texts, and the first that does is named. -/
inductive Misfit (places : Nat) (new : List (List UInt8)) : ProseError → Prop
  | count : new.length ≠ places → Misfit places new (.countMismatch places new.length)
  | terminator {k : Nat} {t : List UInt8} : new.length = places → new[k]? = some t → 0 ∈ t →
    (∀ j < k, ∀ t, new[j]? = some t → 0 ∉ t) → Misfit places new (.terminator k)

theorem findIdx?_terminator {new : List (List UInt8)} {k : Nat} :
    new.findIdx? (·.contains 0) = some k ↔
      (∃ t, new[k]? = some t ∧ 0 ∈ t) ∧ ∀ j < k, ∀ t, new[j]? = some t → 0 ∉ t := by
  rw [List.findIdx?_eq_some_iff_getElem]
  constructor
  · rintro ⟨lt, holds, before⟩
    refine ⟨⟨new[k], List.getElem?_eq_getElem lt, by simpa using holds⟩, fun j first t found => ?_⟩
    obtain ⟨_, rfl⟩ := List.getElem?_eq_some_iff.mp found
    simpa using before j first
  · rintro ⟨⟨t, found, holds⟩, before⟩
    obtain ⟨lt, rfl⟩ := List.getElem?_eq_some_iff.mp found
    refine ⟨lt, by simpa using holds, fun j first => ?_⟩
    simpa using before j first _ (List.getElem?_eq_getElem (Nat.lt_trans first lt))

theorem refusal?_eq_some_iff {old new : List (List UInt8)} {e : ProseError} :
    refusal? old new = some e ↔ Misfit old.length new e := by
  by_cases count : new.length = old.length
  · simp only [refusal?, count, ne_eq, not_true_eq_false, if_false, Option.map_eq_some_iff,
      findIdx?_terminator]
    constructor
    · rintro ⟨k, ⟨⟨t, found, holds⟩, before⟩, rfl⟩
      exact .terminator count found holds before
    · rintro (other | ⟨_, found, holds, before⟩)
      · exact absurd count other
      · exact ⟨_, ⟨⟨_, found, holds⟩, before⟩, rfl⟩
  · simp only [refusal?, ne_eq, count, not_false_eq_true, if_true, Option.some.injEq]
    constructor
    · rintro rfl
      exact .count count
    · rintro (_ | same)
      · rfl
      · exact absurd same count

theorem refusal?_eq_none_iff {old new : List (List UInt8)} :
    refusal? old new = none ↔ new.length = old.length ∧ ∀ t ∈ new, 0 ∉ t := by
  by_cases count : new.length = old.length
  · simp [refusal?, count]
  · simp [refusal?, count]

theorem exists_refusal_iff {old new : List (List UInt8)} :
    (∃ e, refusal? old new = some e) ↔ new.length ≠ old.length ∨ ∃ t ∈ new, 0 ∈ t := by
  rw [← Option.ne_none_iff_exists', ne_eq, refusal?_eq_none_iff, Classical.not_and_iff_not_or_not]
  simp

/-! ## All or none -/

section Substitute

variable {compressor : Compressor} {code code' : List Instruction}

theorem run_get (code : List Instruction) :
    (ExceptT.run (get : ExceptT ProseError (StateM (List Instruction)) _)).run code =
      pure (.ok code, code) :=
  rfl

theorem substitute_of_some {e : ProseError}
    (h : refusal? (texts code) (compressor (texts code)) = some e) :
    (substitute compressor).run.run code = (.error e, code) := by
  simp only [substitute, ExceptT.run_bind, StateT.run_bind, run_get, pure_bind, h]
  rfl

theorem substitute_of_none (h : refusal? (texts code) (compressor (texts code)) = none) :
    (substitute compressor).run.run code = (.ok (), replace code (compressor (texts code))) := by
  simp only [substitute, ExceptT.run_bind, StateT.run_bind, run_get, pure_bind, h]
  rfl

/-- All that can come of putting texts back. -/
theorem substitute_cases {outcome : Except ProseError Unit}
    (run : (substitute compressor).run.run code = (outcome, code')) :
    (∃ e, refusal? (texts code) (compressor (texts code)) = some e ∧ outcome = .error e ∧
      code' = code) ∨
    (refusal? (texts code) (compressor (texts code)) = none ∧ outcome = .ok () ∧
      code' = replace code (compressor (texts code))) := by
  cases h : refusal? (texts code) (compressor (texts code)) with
  | some e =>
    obtain ⟨rfl, rfl⟩ := Prod.mk.inj ((substitute_of_some h).symm.trans run)
    exact .inl ⟨e, rfl, rfl, rfl⟩
  | none =>
    obtain ⟨rfl, rfl⟩ := Prod.mk.inj ((substitute_of_none h).symm.trans run)
    exact .inr ⟨rfl, rfl, rfl⟩

/-- Texts that are put back fit, and they are in the places of the old ones. -/
theorem compress_eq_ok (h : compress compressor code = .ok code') :
    refusal? (texts code) (compressor (texts code)) = none ∧
      code' = replace code (compressor (texts code)) := by
  unfold compress at h
  rcases run : (substitute compressor).run.run code with ⟨outcome, left⟩
  rw [run] at h
  obtain ⟨e, -, rfl, -⟩ | ⟨fits, rfl, rfl⟩ := substitute_cases run
  · contradiction
  · exact ⟨fits, (Except.ok.inj h).symm⟩

theorem eq_replace_of_compress (h : compress compressor code = .ok code') :
    code' = replace code (compressor (texts code)) :=
  (compress_eq_ok h).2

end Substitute

theorem compress_of_none {compressor : Compressor} {code : List Instruction}
    (h : refusal? (texts code) (compressor (texts code)) = none) :
    compress compressor code = .ok (replace code (compressor (texts code))) := by
  rw [compress, substitute_of_none h]
  rfl

/-- An instruction that is no text stays where it is, and another one would do so as well. -/
theorem compress_exchange {compressor : Compressor} {i : Instruction} (other : i.isText = false)
    {front back code : List Instruction} (h : compress compressor (front ++ i :: back) = .ok code) :
    ∃ front' back', code = front' ++ i :: back' ∧ ∀ i' : Instruction, i'.isText = false →
      compress compressor (front ++ i' :: back) = .ok (front' ++ i' :: back') := by
  obtain ⟨fits, rfl⟩ := compress_eq_ok h
  have same {i : Instruction} (other : i.isText = false) :
      texts (front ++ i :: back) = texts front ++ texts back := by
    cases i <;> first | contradiction | simp [texts]
  rw [same other] at fits ⊢
  refine ⟨_, _, replace_append_cons other front back _, fun i' other' => ?_⟩
  rw [compress_of_none (by rwa [same other']), same other', replace_append_cons other']

/-- The texts `new` stand in the places of the texts of `code`, each in its own, and all else is as
it was. -/
structure Aligned (code : List Instruction) (new : List (List UInt8)) (code' : List Instruction) :
    Prop where
  length_eq : code'.length = code.length
  /-- The texts are the new ones, in order. -/
  texts_eq : code'.filter Instruction.isText = new.map .text
  /-- Where the text with `k` others before it stood, the new one with `k` others before it
  stands. -/
  text_at : ∀ i k old, code[i]? = some (.text old) →
    (code.take i).countP Instruction.isText = k → ∃ t, new[k]? = some t ∧ code'[i]? = some (.text t)
  other_at : ∀ (i : Nat) (x : Instruction), code[i]? = some x → x.isText = false →
    code'[i]? = some x

theorem aligned_replace {code : List Instruction} {new : List (List UInt8)}
    (count : new.length = code.countP Instruction.isText) :
    Aligned code new (replace code new) where
  length_eq := length_replace code new
  texts_eq := filter_replace count
  text_at i k old found rank := by
    -- the text itself is counted in the whole program, but not before its place
    have split : code.countP Instruction.isText =
        (code.take i).countP Instruction.isText + (code.drop i).countP Instruction.isText := by
      rw [← List.countP_append, List.take_append_drop]
    have here : 0 < (code.drop i).countP Instruction.isText := by
      refine List.countP_pos_iff.mpr ⟨.text old, List.mem_of_getElem? (i := 0) ?_, rfl⟩
      rw [List.getElem?_drop, Nat.add_zero, found]
    have lt : k < new.length := by omega
    refine ⟨new[k], List.getElem?_eq_getElem lt, ?_⟩
    rw [getElem?_replace, found, rank, List.getElem?_eq_getElem lt]
    rfl
  other_at i x found other := by
    rw [getElem?_replace, found]
    cases x with
    | text => contradiction
    | label | array | code => rfl

/-- Whatever comes back from the compressor, the texts of a program are all replaced or none. They
are not if there are not as many as the program has, or else if one holds the byte that ends texts;
then the program is the same as before. If they are, the `k`th text is the `k`th that came back, and
every other instruction stays in its place. -/
theorem substitute_aligned (compressor : Compressor) (code : List Instruction) :
    ∃ outcome code', (substitute compressor).run.run code = (outcome, code') ∧
      (∀ e, outcome = .error e ↔
        Misfit (code.countP Instruction.isText) (compressor (texts code)) e) ∧
      ((∃ e, outcome = .error e) ↔
        (compressor (texts code)).length ≠ code.countP Instruction.isText ∨
          ∃ t ∈ compressor (texts code), 0 ∈ t) ∧
      (∀ e, outcome = .error e → code' = code) ∧
      (outcome = .ok () → Aligned code (compressor (texts code)) code') := by
  rcases run : (substitute compressor).run.run code with ⟨outcome, code'⟩
  have failed (e : ProseError) : outcome = .error e ↔
      refusal? (texts code) (compressor (texts code)) = some e := by
    obtain ⟨_, refused, rfl, -⟩ | ⟨fits, rfl, -⟩ := substitute_cases run
    · simp [refused]
    · simp [fits]
  refine ⟨outcome, code', rfl, fun e => ?_, ?_, fun e error => ?_, fun done => ?_⟩
  · rw [failed, refusal?_eq_some_iff, length_texts]
  · simp only [failed, exists_refusal_iff, length_texts]
  · obtain ⟨_, -, -, same⟩ | ⟨-, rfl, -⟩ := substitute_cases run
    · exact same
    · contradiction
  · obtain ⟨_, -, rfl, -⟩ | ⟨fits, -, rfl⟩ := substitute_cases run
    · contradiction
    · exact aligned_replace (length_texts code ▸ (refusal?_eq_none_iff.mp fits).1)

end Prose

end Gamebook
