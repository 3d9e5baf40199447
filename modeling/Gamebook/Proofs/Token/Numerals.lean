import Gamebook.Proofs.Token.Tiling

/-!
# Numbers in code

Digits are read as the number they write, however many there are. A number that cannot be written
gives an error, and a zero at the same place so that nothing else is found missing (`numeral`).
Where the digits end is told by the next character alone (`Ends`).

`code_numeral` is about a number anywhere in code, `scan_numeral` about a script that holds nothing
else, and `sum_fits` says that the word in which the digits are summed up is never too small for the
next one. `numerals_exact` puts them together.
-/

namespace Gamebook

/-! ## Characters of one line -/

theorem Position.after_eq_advance {c : Char} (h : c ∉ ['\n', '\r', '\t']) (p : Position)
    (next : Option Char) : p.after c next = p.advance := by
  simp only [List.mem_cons, List.not_mem_nil, or_false, not_or] at h
  simp [after, h]

/-- Characters that take one column each move what follows by as many columns. -/
theorem Mark.placed_append {cs : List Char} (narrow : ∀ c ∈ cs, c ∉ ['\n', '\r', '\t'])
    (p : Position) (more : List Char) :
    Mark.placed p (cs ++ more) =
      Mark.placed p cs ++ Mark.placed ⟨p.line, p.column + cs.length⟩ more := by
  induction cs generalizing p with
  | nil => rfl
  | cons c cs ih =>
    obtain ⟨first, others⟩ := List.forall_mem_cons.mp narrow
    have columns : p.column + 1 + cs.length = p.column + (c :: cs).length := by
      rw [List.length_cons]
      omega
    simp only [List.cons_append, Mark.placed, p.after_eq_advance first, ih others,
      Position.advance, columns]

theorem Mark.getLast?_placed {cs : List Char} (narrow : ∀ c ∈ cs, c ∉ ['\n', '\r', '\t'])
    (p : Position) (c : Char) :
    (Mark.placed p (cs ++ [c])).getLast? = some ⟨c, ⟨p.line, p.column + cs.length⟩⟩ := by
  rw [Mark.placed_append narrow]
  exact List.getLast?_concat

/-- The characters of a script in one line that is one section of code. -/
theorem marks_enclosed {d : Document} {inner : List Char}
    (narrow : ∀ c ∈ inner, c ∉ ['\n', '\r', '\t']) (some : inner ≠ [])
    (text : d.text.toList = '[' :: '[' :: (inner ++ [']', ']'])) :
    ∃ m ms, d.marks = ⟨'[', ⟨1, 1⟩⟩ :: ⟨'[', ⟨1, 2⟩⟩ :: (m :: ms ++
        [⟨']', ⟨1, 3 + inner.length⟩⟩, ⟨']', ⟨1, 4 + inner.length⟩⟩]) ∧
      (m :: ms).map (·.char) = inner ∧ m.spot = ⟨1, 3⟩ ∧
      ((m :: ms).getLast (List.cons_ne_nil m ms)).spot = ⟨1, 2 + inner.length⟩ := by
  have marks : d.marks =
      ⟨'[', ⟨1, 1⟩⟩ :: ⟨'[', ⟨1, 2⟩⟩ :: Mark.placed ⟨1, 3⟩ (inner ++ [']', ']']) := by
    rw [Document.marks, text]
    rfl
  have brackets : Mark.placed ⟨1, 3 + inner.length⟩ [']', ']'] =
      [⟨']', ⟨1, 3 + inner.length⟩⟩, ⟨']', ⟨1, 4 + inner.length⟩⟩] := by
    rw [show 4 + inner.length = 3 + inner.length + 1 by omega]
    rfl
  obtain ⟨c, cs, rfl⟩ := List.exists_cons_of_ne_nil some
  refine ⟨⟨c, ⟨1, 3⟩⟩, Mark.placed _ cs, ?_, Mark.map_char_placed ⟨1, 3⟩ (c :: cs), rfl, ?_⟩
  · rw [marks, Mark.placed_append narrow, brackets]
    rfl
  · obtain ⟨front, e, eq⟩ := (List.eq_nil_or_concat (c :: cs)).resolve_left some
    rw [List.concat_eq_append] at eq
    have before : ∀ x ∈ front, x ∉ ['\n', '\r', '\t'] := fun x mem =>
      narrow x (eq ▸ List.mem_append_left [e] mem)
    have last := Mark.getLast?_placed before ⟨1, 3⟩ e
    rw [← eq, Mark.placed, List.getLast?_eq_some_getLast (List.cons_ne_nil _ _)] at last
    rw [Option.some.inj last, eq, List.length_append, List.length_singleton]
    simp only [Position.mk.injEq, true_and]
    omega

namespace Scanner

variable {d : Document} {depth : Nat} {m : Mark} {ms rest : List Mark} {lead w : List Char}
  {base value : Nat}

/-! ## A number on its own -/

theorem Denotes.digits (h : Denotes base w value) : ∀ c ∈ w, ∃ digit, DigitFor base c digit := by
  obtain ⟨-, values, spelled, -⟩ := h
  induction spelled with
  | nil => exact List.forall_mem_nil _
  | cons first _ ih => exact List.forall_mem_cons.mpr ⟨⟨_, first⟩, ih⟩

/-- What follows the number `spelled` is no part of it: it is no digit, and no letter that tells a
base behind a zero. -/
def Ends (base : Nat) (spelled : List Char) (rest : List Mark) : Prop :=
  ∀ n ∈ rest.head?, (∀ value, ¬ DigitFor base n.char value) ∧
    (spelled = ['0'] → n.char ∉ ['x', 'X', 'b', 'B'])

theorem code_of_step {rest' : List Mark} {lexemes : List Lexeme} {depth' : Nat}
    (h : step d depth m rest = ⟨lexemes, rest', depth', false⟩) :
    code d depth (m :: rest) = (lexemes ++ (code d depth' rest').1, (code d depth' rest').2) := by
  rw [code, h]
  rfl

/-- A number anywhere in code is read on its own. -/
theorem code_numeral (form : (lead, base) ∈ numeralForms) (h : Denotes base w value)
    (spelled : (m :: ms).map (·.char) = lead ++ w) (ends : Ends base (lead ++ w) rest) :
    code d depth (m :: ms ++ rest) =
      (numeral d value m.spot ((m :: ms).getLast (List.cons_ne_nil m ms)).spot ++
        (code d depth rest).1, (code d depth rest).2) := by
  obtain ⟨front, digits, eq, lead_eq, rfl⟩ := List.map_eq_append_iff.mp spelled
  have stop : ∀ n ∈ rest.head?, isDigit base n = false := by
    intro n behind
    refine Bool.eq_false_iff.mpr fun digit => ?_
    obtain ⟨value, digit⟩ := Option.isSome_iff_exists.mp digit
    exact (ends n behind).1 value (digitFor_of_digit? (base_of_form form) digit)
  have plain : (m :: ms).map (·.char) = ['0'] →
      ∀ n ∈ rest.head?, n.char ∉ ['x', 'X', 'b', 'B'] := fun zero n behind =>
    (ends n behind).2 (spelled ▸ zero)
  have some : digits ≠ [] := fun none => h.1 (none ▸ rfl)
  have step : step d depth m (ms ++ rest) = _ := step_numeral form lead_eq eq h stop plain
  rw [lastSpot_of_append front eq some] at step
  exact code_of_step step

/-- Digits take one column. -/
theorem narrow_of_digitFor {c : Char} {digit : Nat} (least : base ≤ 16)
    (h : DigitFor base c digit) : c ∉ ['\n', '\r', '\t'] := by
  intro mem
  have read := digit?_of_digitFor least h
  simp only [List.mem_cons, List.not_mem_nil, or_false] at mem
  rcases mem with rfl | rfl | rfl <;> contradiction

theorem narrow_numeral (form : (lead, base) ∈ numeralForms) (h : Denotes base w value) :
    ∀ c ∈ lead ++ w, c ∉ ['\n', '\r', '\t'] := by
  have leads : ∀ form ∈ numeralForms, form.1.all (· ∉ ['\n', '\r', '\t']) = true := by decide
  refine List.forall_mem_append.mpr ⟨fun c mem => ?_, fun c mem => ?_⟩
  · exact of_decide_eq_true (List.all_eq_true.mp (leads _ form) c mem)
  · obtain ⟨digit, h⟩ := h.digits c mem
    exact narrow_of_digitFor (base_of_form form) h

/-- Brackets end a number. -/
theorem ends_bracket (least : base ≤ 16) (p : Position) (rest : List Mark) :
    Ends base w (⟨']', p⟩ :: rest) := by
  rintro _ ⟨⟩
  refine ⟨fun value digit => ?_, fun _ => by simp⟩
  have read := digit?_of_digitFor least digit
  contradiction

theorem code_close (p q : Position) :
    code d 0 [⟨']', p⟩, ⟨']', q⟩] = ([.token d .closeCode p q], some []) := by
  rw [code]
  rfl

/-- A script that is one section of code. -/
theorem scanFrom_enclosed {p q : Position} {read : List Lexeme}
    (h : code d 0 ms = (read, some [])) :
    scanFrom d (⟨'[', p⟩ :: ⟨'[', q⟩ :: ms) = .token d .openCode p q :: read := by
  rw [scanFrom_of_closed rfl h, scanFrom_of_end rfl]
  simp [prose, Prose.nil, Prose.token?]

/-- A script that holds nothing but a number. -/
theorem scan_numeral (form : (lead, base) ∈ numeralForms) (h : Denotes base w value)
    (text : d.text.toList = '[' :: '[' :: (lead ++ w ++ [']', ']'])) :
    d.scan = .token d .openCode ⟨1, 1⟩ ⟨1, 2⟩ ::
      (numeral d value ⟨1, 3⟩ ⟨1, 2 + (lead ++ w).length⟩ ++
        [.token d .closeCode ⟨1, 3 + (lead ++ w).length⟩ ⟨1, 4 + (lead ++ w).length⟩]) := by
  obtain ⟨m, ms, marks, spelled, first, last⟩ := marks_enclosed (narrow_numeral form h)
    (List.append_ne_nil_of_right_ne_nil lead h.1) text
  have inside : code d 0 (m :: ms ++ _) = _ :=
    code_numeral form h spelled (ends_bracket (base_of_form form) ⟨1, 3 + (lead ++ w).length⟩
      [⟨']', ⟨1, 4 + (lead ++ w).length⟩⟩])
  rw [code_close, first, last] at inside
  rw [Document.scan, marks, scanFrom_enclosed inside]

/-! ## Digits of any number -/

theorem denotes_of_digits (some : w ≠ []) (digits : ∀ c ∈ w, ∃ digit, DigitFor base c digit) :
    ∃ value, Denotes base w value := by
  suffices ∃ values, List.Forall₂ (DigitFor base) w values by
    obtain ⟨values, spelled⟩ := this
    exact ⟨_, some, values, spelled, rfl⟩
  clear some
  induction w with
  | nil => exact ⟨[], .nil⟩
  | cons c w ih =>
    obtain ⟨⟨digit, first⟩, others⟩ := List.forall_mem_cons.mp digits
    obtain ⟨values, spelled⟩ := ih others
    exact ⟨digit :: values, .cons first spelled⟩

/-- Whatever digits were read, there is room for the next one. -/
theorem sum_fits (least : base ≤ 16) {c : Char} {digit : Nat}
    (next : Text.digit? base c = some digit) (read : List Char) :
    (Literal.ofDigits base (read.filterMap (Text.digit? base))).value.toNat * base + digit <
      2 ^ 64 := by
  rw [ofDigits_read least]
  exact Literal.push_fits least (digit?_lt next) _

/-- Numbers are read exactly. Digits in one of the three bases, with what tells the base in front of
them, write a number however many they are. They are read as that number, or if it is greater than
the greatest that can be written, as an error and a zero in the same place: anywhere in code where
they end, and in a script that holds nothing else. With each digit the sum stays within 64 bits. -/
theorem numerals_exact (form : (lead, base) ∈ numeralForms) (some : w ≠ [])
    (digits : ∀ c ∈ w, ∃ digit, DigitFor base c digit) :
    (∃ value, Denotes base w value) ∧
    (∀ value, Denotes base w value →
      (∀ d depth m ms rest, (m :: ms).map (·.char) = lead ++ w → Ends base (lead ++ w) rest →
        code d depth (m :: ms ++ rest) =
          (numeral d value m.spot ((m :: ms).getLast (List.cons_ne_nil m ms)).spot ++
            (code d depth rest).1, (code d depth rest).2)) ∧
      (∀ d : Document, d.text.toList = '[' :: '[' :: (lead ++ w ++ [']', ']']) →
        d.scan = .token d .openCode ⟨1, 1⟩ ⟨1, 2⟩ ::
          (numeral d value ⟨1, 3⟩ ⟨1, 2 + (lead ++ w).length⟩ ++
            [.token d .closeCode ⟨1, 3 + (lead ++ w).length⟩ ⟨1, 4 + (lead ++ w).length⟩]))) ∧
    (∀ read c behind digit, w = read ++ c :: behind → Text.digit? base c = .some digit →
      (Literal.ofDigits base (read.filterMap (Text.digit? base))).value.toNat * base + digit <
        2 ^ 64) := by
  refine ⟨denotes_of_digits some digits, fun value h => ⟨?_, ?_⟩, ?_⟩
  · intro d depth m ms rest spelled ends
    exact code_numeral form h spelled ends
  · intro d text
    exact scan_numeral form h text
  · intro read c behind digit _ next
    exact sum_fits (base_of_form form) next read

/-- The greatest number, with zeros in front of it. -/
def greatestNumber : Document := ⟨"greatest", "[[0x000ffffFFFF]]", none⟩

/-- The next number, in another base. -/
def greaterNumber : Document := ⟨"greater", "[[04294967296]]", none⟩

theorem numerals_exact_greatestNumber :
    Denotes 16 "000ffffFFFF".toList 4294967295 ∧
    greatestNumber.scan =
      [.token greatestNumber .openCode ⟨1, 1⟩ ⟨1, 2⟩,
       .token greatestNumber (.number 4294967295) ⟨1, 3⟩ ⟨1, 15⟩,
       .token greatestNumber .closeCode ⟨1, 16⟩ ⟨1, 17⟩] ∧
    Denotes 10 "04294967296".toList 4294967296 ∧
    greaterNumber.scan =
      [.token greaterNumber .openCode ⟨1, 1⟩ ⟨1, 2⟩,
       .error greaterNumber .numberOverflow ⟨1, 3⟩ ⟨1, 13⟩,
       .token greaterNumber (.number 0) ⟨1, 3⟩ ⟨1, 13⟩,
       .token greaterNumber .closeCode ⟨1, 14⟩ ⟨1, 15⟩] := by
  have greatest : Denotes 16 "000ffffFFFF".toList 4294967295 :=
    ⟨by decide, [0, 0, 0, 15, 15, 15, 15, 15, 15, 15, 15], by decide, by decide⟩
  have greater : Denotes 10 "04294967296".toList 4294967296 :=
    ⟨by decide, [0, 4, 2, 9, 4, 9, 6, 7, 2, 9, 6], by decide, by decide⟩
  have hex : ("0x".toList, 16) ∈ numeralForms := by decide
  have decimal : ([], 10) ∈ numeralForms := by decide
  refine ⟨greatest, ?_, greater, ?_⟩
  · exact ((numerals_exact hex greatest.1 greatest.digits).2.1 _ greatest).2 greatestNumber rfl
  · exact ((numerals_exact decimal greater.1 greater.digits).2.1 _ greater).2 greaterNumber rfl

end Scanner

end Gamebook
