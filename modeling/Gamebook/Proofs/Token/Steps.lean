import Mathlib
import Gamebook.Proofs.Token.Number
import Gamebook.Proofs.Token.Sections

/-!
# Reading code piece by piece

`Reads d depth ms items depth' rest` says that reading the characters `ms` inside code gives the
items and goes on with `rest`. Pieces that are read one after the other are put together by
`Reads.append`, and every piece is one step of the scanner (`Reads.step`).

What a token is depends on the character behind it only as far as that one may belong to the token
too. Blanks and comments never do (`Parted`): in front of them a word, a number, a line end or a
sign is read whole and as it stands (`reads_word`, `reads_numeral`, `reads_breaks`, `reads_sign`).
-/

namespace Gamebook

/-- How many square brackets are open behind the token, if `depth` are open before it. -/
def Token.nesting : Token → Nat → Nat
  | .openSquare, depth => depth + 1
  | .closeSquare, depth => depth - 1
  | _, depth => depth

/-- The characters of a sign. -/
def Token.sign? : Token → Option (List Char)
  | .colon => some [':']
  | .plus => some ['+']
  | .minus => some ['-']
  | .times => some ['*']
  | .divide => some ['/']
  | .bitAnd => some ['&']
  | .bitOr => some ['|']
  | .bitNot => some ['~']
  | .shiftLeft => some ['<', '<']
  | .shiftRight => some ['>', '>']
  | .equals => some ['=']
  | .notEquals => some ['<', '>']
  | .less => some ['<']
  | .greater => some ['>']
  | .lessEqual => some ['<', '=']
  | .greaterEqual => some ['>', '=']
  | .indirection => some ['@']
  | .comma => some [',']
  | .openParen => some ['(']
  | .closeParen => some [')']
  | .openSquare => some ['[']
  | .closeSquare => some [']']
  | .openCurly => some ['\x7b']
  | .closeCurly => some ['\x7d']
  | _ => none

/-- The token that a word is. -/
def Token.ofWord (w : String) : Token :=
  match Keyword.ofWord? w with
  | some k => .keyword k
  | none => .identifier w

namespace Scanner

/-- Reading `ms` gives `items` and goes on with `rest`. -/
structure Reads (d : Document) (depth : Nat) (ms : List Mark) (items : List Item) (depth' : Nat)
    (rest : List Mark) : Prop where
  items_eq : (code d depth ms).1.map (·.value) = items ++ (code d depth' rest).1.map (·.value)
  behind_eq : (code d depth ms).2 = (code d depth' rest).2

variable {d : Document} {depth depth' depth'' : Nat} {m : Mark} {ms rest rest' rest'' : List Mark}
  {items items' : List Item} {p : Position}

namespace Reads

theorem append (h : Reads d depth ms items depth' rest)
    (h' : Reads d depth' rest items' depth'' rest') :
    Reads d depth ms (items ++ items') depth'' rest' where
  items_eq := by rw [h.items_eq, h'.items_eq, List.append_assoc]
  behind_eq := by rw [h.behind_eq, h'.behind_eq]

theorem step {lexemes : List Lexeme}
    (h : Scanner.step d depth m rest = ⟨lexemes, rest', depth', false⟩) :
    Reads d depth (m :: rest) (lexemes.map (·.value)) depth' rest' := by
  constructor <;> simp [code, h]

theorem nothing (h : Scanner.step d depth m rest = ⟨[], rest', depth', false⟩) :
    Reads d depth (m :: rest) [] depth' rest' :=
  step h

theorem token {t : Token} {first last : Position}
    (h : Scanner.step d depth m rest = ⟨[.token d t first last], rest', depth', false⟩) :
    Reads d depth (m :: rest) [.ok t] depth' rest' :=
  step h

/-- At the brackets that close the section, reading code ends. -/
theorem close {q : Position} (h : Reads d depth ms items 0 (⟨']', p⟩ :: ⟨']', q⟩ :: rest)) :
    ∃ read, code d depth ms = (read, some rest) ∧
      read.map (·.value) = items ++ [.ok .closeCode] := by
  have closed : code d 0 (⟨']', p⟩ :: ⟨']', q⟩ :: rest) =
      ([.token d .closeCode p q], some rest) := by
    rw [code]
    rfl
  obtain ⟨items_eq, behind_eq⟩ := h
  rw [closed] at items_eq behind_eq
  exact ⟨(code d depth ms).1, Prod.ext rfl behind_eq, items_eq⟩

end Reads

/-! ## What keeps tokens apart -/

/-- A blank or a comment begins here. -/
def Parted (rest : List Mark) : Prop :=
  ∃ c p more, rest = ⟨c, p⟩ :: more ∧ (c = ' ' ∨ c = '\t' ∨ c = '/')

/-- Characters of one kind end where another one begins. -/
theorem span_stop {kind : Mark → Bool} (stop : ∀ n ∈ rest.head?, kind n = false)
    (h : ∀ m ∈ ms, kind m = true) :
    (ms ++ rest).takeWhile kind = ms ∧ (ms ++ rest).dropWhile kind = rest := by
  rw [List.takeWhile_append_of_pos h, List.dropWhile_append_of_pos h]
  cases rest with
  | nil => exact ⟨List.append_nil ms, rfl⟩
  | cons n rest =>
    have stop : ¬ kind n = true := by simp [stop n rfl]
    rw [List.takeWhile_cons_of_neg stop, List.dropWhile_cons_of_neg stop]
    exact ⟨List.append_nil ms, rfl⟩

/-- Characters of one kind end where a blank or a comment begins. -/
theorem span_parted {kind : Mark → Bool} (parted : Parted rest)
    (stops : ∀ p, kind ⟨' ', p⟩ = false ∧ kind ⟨'\t', p⟩ = false ∧ kind ⟨'/', p⟩ = false)
    (h : ∀ m ∈ ms, kind m = true) :
    (ms ++ rest).takeWhile kind = ms ∧ (ms ++ rest).dropWhile kind = rest := by
  obtain ⟨c, p, more, rfl, hc⟩ := parted
  refine span_stop ?_ h
  rintro _ ⟨⟩
  rcases hc with rfl | rfl | rfl <;> simp [stops p]

theorem reads_blank {c : Char} (h : c = ' ' ∨ c = '\t') :
    Reads d depth (⟨c, p⟩ :: rest) [] depth rest := by
  rcases h with rfl | rfl
  · exact .nothing rfl
  · exact .nothing rfl

/-- A comment ends at the first place where it can. -/
theorem skipComment_append {body : List Mark} (h : ¬ ['*', '/'] <:+: body.map (·.char))
    (p q : Position) (rest : List Mark) :
    skipComment (body ++ ⟨'*', p⟩ :: ⟨'/', q⟩ :: rest) = some rest := by
  induction body with
  | nil => rfl
  | cons m body ih =>
    have later : ¬ ['*', '/'] <:+: body.map (·.char) := fun there =>
      h (there.trans (List.suffix_cons _ _).isInfix)
    rw [List.cons_append, skipComment]
    · exact ih later
    · intro p' q' rest' star slash
      -- the slash would belong to the body, which has no end in it, or be the star behind it
      cases body with
      | nil => simp at slash
      | cons n body =>
        obtain ⟨rfl, -⟩ := List.cons.inj slash
        subst star
        exact h ⟨[], body.map (·.char), rfl⟩

theorem reads_comment {body : List Mark} (h : ¬ ['*', '/'] <:+: body.map (·.char))
    {p q p' q' : Position} :
    Reads d depth (⟨'/', p⟩ :: ⟨'*', q⟩ :: (body ++ ⟨'*', p'⟩ :: ⟨'/', q'⟩ :: rest)) [] depth
      rest := by
  apply Reads.nothing
  simp [Scanner.step, isBreak, follows, skipComment_append h p' q' rest]

/-! ## Signs -/

theorem exists_mark {c : Char} (h : ms.map (·.char) = [c]) : ∃ p, ms = [⟨c, p⟩] := by
  obtain ⟨⟨_, p⟩, rfl, rfl⟩ := List.map_eq_singleton_iff.mp h
  exact ⟨p, rfl⟩

theorem exists_marks {c : Char} {w : List Char} (h : ms.map (·.char) = c :: w) :
    ∃ p ms', ms = ⟨c, p⟩ :: ms' ∧ ms'.map (·.char) = w := by
  obtain ⟨⟨_, p⟩, ms', rfl, rfl, rfl⟩ := List.map_eq_cons_iff.mp h
  exact ⟨p, ms', rfl, rfl⟩

/-- A character that is a token on its own is that token whatever follows. -/
theorem reads_single {c : Char} {t : Token} (h : single? c = some t) :
    Reads d depth (⟨c, p⟩ :: rest) [.ok t] depth rest := by
  unfold single? at h
  split at h
  all_goals first
    | contradiction
    | exact Option.some.inj h ▸ .token rfl

theorem reads_closeSquare (parted : Parted rest) :
    Reads d depth (⟨']', p⟩ :: rest) [.ok .closeSquare] (depth - 1) rest := by
  obtain ⟨c, q, more, rfl, hc⟩ := parted
  cases depth with
  | succ depth => exact .token rfl
  | zero => rcases hc with rfl | rfl | rfl <;> exact .token rfl

theorem reads_sign {t : Token} {w : List Char} (h : t.sign? = some w)
    (spelled : ms.map (·.char) = w) (parted : Parted rest) :
    Reads d depth (ms ++ rest) [.ok t] (t.nesting depth) rest := by
  cases t with
  | text | openCode | closeCode | lineBreak | identifier | shortLabel | keyword | number =>
    contradiction
  | colon | plus | minus | times | bitAnd | bitOr | bitNot | equals | indirection | comma
  | openParen | closeParen | openCurly | closeCurly =>
    obtain rfl := Option.some.inj h
    obtain ⟨p, rfl⟩ := exists_mark spelled
    exact reads_single rfl
  | shiftLeft | shiftRight | notEquals | lessEqual | greaterEqual =>
    obtain rfl := Option.some.inj h
    obtain ⟨p, ms, rfl, second⟩ := exists_marks spelled
    obtain ⟨q, rfl⟩ := exists_mark second
    exact .token rfl
  | divide | less | greater | openSquare =>
    -- these would go on with characters that part no tokens
    obtain rfl := Option.some.inj h
    obtain ⟨p, rfl⟩ := exists_mark spelled
    obtain ⟨c, q, more, rfl, rfl | rfl | rfl⟩ := parted <;> exact .token rfl
  | closeSquare =>
    obtain rfl := Option.some.inj h
    obtain ⟨p, rfl⟩ := exists_mark spelled
    exact reads_closeSquare parted

/-! ## Line ends -/

theorem isBreak_iff : isBreak m = true ↔ m.char = '\r' ∨ m.char = '\n' := by
  simp [isBreak]

theorem reads_breaks (some : ms ≠ []) (h : ∀ m ∈ ms, isBreak m = true) (parted : Parted rest) :
    Reads d depth (ms ++ rest) [.ok .lineBreak] depth rest := by
  obtain ⟨m, ms, rfl⟩ := List.exists_cons_of_ne_nil some
  obtain ⟨hm, hms⟩ := List.forall_mem_cons.mp h
  have span := span_parted parted (fun p => ⟨rfl, rfl, rfl⟩) hms
  obtain ⟨c, p⟩ := m
  have token : Scanner.step d depth ⟨c, p⟩ (ms ++ rest) =
      ⟨[.token d .lineBreak p (lastSpot p ms)], rest, depth, false⟩ := by
    rcases isBreak_iff.mp hm with rfl | rfl <;> simp [Scanner.step, hm, span]
  exact .token token

/-! ## What a character starts -/

/-- The characters that start neither a word nor a decimal number. -/
def signs : List Char :=
  [' ', '\t', '\r', '\n', '[', ']', '/', '<', '>', '#', '$', '%', ':', '@', ',', '(', ')', '\x7b',
   '\x7d', '+', '-', '*', '&', '|', '~', '=']

theorem single?_eq_none {c : Char} (h : c ∉ signs) : single? c = none := by
  unfold single?
  split
  all_goals first
    | rfl
    | exact absurd (by decide) h

theorem notMem_of_all {kind : Char → Bool} {cs : List Char} {c : Char}
    (none : cs.all (fun x => !kind x) = true) (h : kind c = true) : c ∉ cs := by
  intro mem
  have other := List.all_eq_true.mp none c mem
  simp [h] at other

theorem isDigit_of_isWordStart {c : Char} (h : isWordStart c = true) : c.isDigit = false := by
  simp only [isWordStart, Char.isAlpha, Char.isUpper, Char.isLower, Bool.or_eq_true,
    Bool.and_eq_true, decide_eq_true_eq] at h
  simp only [Char.isDigit, Bool.and_eq_false_iff, decide_eq_false_iff_not]
  rcases h with h | rfl
  · grind
  · decide

theorem step_word (h : isWordStart m.char = true) (rest : List Mark) :
    Scanner.step d depth m rest =
      ⟨[wordToken d m rest], rest.dropWhile isWordChar, depth, false⟩ := by
  obtain ⟨c, p⟩ := m
  have sign : c ∉ signs := notMem_of_all (by decide) h
  have single := single?_eq_none sign
  simp only [signs, List.mem_cons, List.not_mem_nil, or_false, not_or] at sign
  simp [Scanner.step, isBreak, sign, single, isDigit_of_isWordStart h, h]

theorem step_decimal (h : m.char.isDigit = true)
    (plain : m.char = '0' → ∀ n ∈ rest.head?, n.char ∉ ['x', 'X', 'b', 'B']) :
    Scanner.step d depth m rest =
      ⟨number d m.spot 10 (m :: rest), rest.dropWhile (isDigit 10), depth, false⟩ := by
  obtain ⟨c, p⟩ := m
  have sign : c ∉ signs := notMem_of_all (by decide) h
  have single := single?_eq_none sign
  simp only [signs, List.mem_cons, List.not_mem_nil, or_false, not_or] at sign
  by_cases zero : c = '0'
  · -- only behind a zero it matters what follows
    subst zero
    cases rest with
    | nil => rfl
    | cons n rest =>
      have plain : n.char ∉ ['x', 'X', 'b', 'B'] := plain rfl n rfl
      simp only [List.mem_cons, List.not_mem_nil, or_false, not_or] at plain
      simp [Scanner.step, isBreak, single, h, plain]
  · simp [Scanner.step, isBreak, sign, single, h, zero]

/-! ## Words -/

/-- Letters, digits and underscores, of which the first is no digit. -/
def IsName : List Char → Prop
  | [] => False
  | c :: w => (c.isAlpha ∨ c = '_') ∧ ∀ c ∈ w, c.isAlphanum ∨ c = '_'

instance : DecidablePred IsName
  | [] => inferInstanceAs (Decidable False)
  | c :: w =>
    have : Decidable (∀ c ∈ w, c.isAlphanum ∨ c = '_') := List.decidableBAll _ w
    inferInstanceAs (Decidable ((c.isAlpha ∨ c = '_') ∧ ∀ c ∈ w, c.isAlphanum ∨ c = '_'))

theorem exists_name {w : List Char} (h : IsName w) (spelled : ms.map (·.char) = w) :
    ∃ m ms', ms = m :: ms' ∧ isWordStart m.char = true ∧ ∀ n ∈ ms', isWordChar n = true := by
  subst spelled
  cases ms with
  | nil => contradiction
  | cons m ms =>
    refine ⟨m, ms, rfl, by simpa [isWordStart] using h.1, fun n mem => ?_⟩
    simpa [isWordChar] using h.2 n.char (List.mem_map_of_mem mem)

theorem reads_word {w : List Char} (name : IsName w) (spelled : ms.map (·.char) = w)
    (parted : Parted rest) :
    Reads d depth (ms ++ rest) [.ok (.ofWord (String.ofList w))] depth rest := by
  obtain ⟨m, ms, rfl, start, more⟩ := exists_name name spelled
  obtain ⟨taken, dropped⟩ := span_parted parted (fun p => ⟨rfl, rfl, rfl⟩) more
  have step : Scanner.step d depth m (ms ++ rest) =
      ⟨[.token d (.ofWord (String.ofList w)) m.spot (lastSpot m.spot ms)], rest, depth, false⟩ := by
    rw [step_word start, wordToken, word, taken, dropped, ← List.map_cons, spelled]
    rfl
  exact .token step

theorem reads_shortLabel {w : List Char} (name : IsName w) (spelled : ms.map (·.char) = w)
    (free : Keyword.ofWord? (String.ofList w) = none) (parted : Parted rest) :
    Reads d depth (⟨'#', p⟩ :: (ms ++ rest)) [.ok (.shortLabel (String.ofList w))] depth rest := by
  obtain ⟨m, ms, rfl, start, more⟩ := exists_name name spelled
  obtain ⟨taken, dropped⟩ := span_parted parted (fun p => ⟨rfl, rfl, rfl⟩) more
  have label : shortLabel d p (m :: (ms ++ rest)) =
      ([.token d (.shortLabel (String.ofList w)) p (lastSpot m.spot ms)], rest) := by
    simp only [shortLabel, start, if_true, word, taken, dropped, ← List.map_cons, spelled, free]
  have step : Scanner.step d depth ⟨'#', p⟩ (m :: (ms ++ rest)) =
      ⟨(shortLabel d p (m :: (ms ++ rest))).1, (shortLabel d p (m :: (ms ++ rest))).2, depth,
        false⟩ := rfl
  rw [label] at step
  exact .token step

/-! ## Numbers -/

/-- The character is the digit for `value`. -/
def DigitFor (base : Nat) (c : Char) (value : Nat) : Prop :=
  value < base ∧ ∃ digits ∈ ["0123456789abcdef", "0123456789ABCDEF"], digits.toList[value]? = some c

instance (base value : Nat) (c : Char) : Decidable (DigitFor base c value) :=
  inferInstanceAs (Decidable (value < base ∧
    ∃ digits ∈ ["0123456789abcdef", "0123456789ABCDEF"], digits.toList[value]? = some c))

/-- The characters are digits that write `value`. -/
def Denotes (base : Nat) (w : List Char) (value : Nat) : Prop :=
  w ≠ [] ∧
    ∃ digits, List.Forall₂ (DigitFor base) w digits ∧ Nat.ofDigits base digits.reverse = value

theorem digit?_of_digitFor {base value : Nat} {c : Char} (least : base ≤ 16)
    (h : DigitFor base c value) : Text.digit? base c = some value := by
  have table : ∀ digits ∈ ["0123456789abcdef", "0123456789ABCDEF"], ∀ value < 16,
      digits.toList[value]?.bind (Text.digit? 16) = some value := by decide
  obtain ⟨lt, digits, mem, spelled⟩ := h
  have all := table digits mem value (by omega)
  rw [spelled, Option.bind_some] at all
  simp only [Text.digit?, Option.filter_eq_some_iff] at all ⊢
  exact ⟨all.1, by simpa using lt⟩

theorem digits_eq {base : Nat} {digits : List Nat} (least : base ≤ 16)
    (h : List.Forall₂ (DigitFor base) (ms.map (·.char)) digits) :
    (∀ m ∈ ms, isDigit base m = true) ∧
      ms.filterMap (fun m => Text.digit? base m.char) = digits := by
  induction List.forall₂_map_left_iff.mp h with
  | nil => simp
  | cons digit more ih =>
    have ih := ih (List.forall₂_map_left_iff.mpr more)
    simpa [isDigit, digit?_of_digitFor least digit] using ih

theorem digit?_lt {base value : Nat} {c : Char} (h : Text.digit? base c = some value) :
    value < base := by
  simp only [Text.digit?, Option.filter_eq_some_iff, decide_eq_true_eq] at h
  exact h.2

/-- The digits among characters are summed up to the number they write. -/
theorem ofDigits_read {base : Nat} (least : base ≤ 16) (cs : List Char) :
    Literal.ofDigits base (cs.filterMap (Text.digit? base)) =
      .bounded (Nat.ofDigits base (cs.filterMap (Text.digit? base)).reverse) := by
  refine Literal.ofDigits_eq least fun digit mem => ?_
  obtain ⟨c, -, read⟩ := List.mem_filterMap.mp mem
  exact digit?_lt read

/-- What digits are read as: the number they write, or if it cannot be written an error and a number
in its place. -/
def numeral (d : Document) (value : Nat) (first last : Position) : List Lexeme :=
  if value ≤ maxNumber then [.token d (.number value) first last]
  else [.error d .numberOverflow first last, .token d (.number 0) first last]

/-- Digits are read up to the first character that is none. -/
theorem number_of_denotes {base value : Nat} (least : base ≤ 16)
    (h : Denotes base (ms.map (·.char)) value) (stop : ∀ n ∈ rest.head?, isDigit base n = false)
    (start : Position) :
    number d start base (ms ++ rest) = numeral d value start (lastSpot start ms) ∧
      (ms ++ rest).dropWhile (isDigit base) = rest := by
  obtain ⟨some, digits, spelled, rfl⟩ := h
  obtain ⟨all, values⟩ := digits_eq least spelled
  obtain ⟨taken, dropped⟩ := span_stop stop all
  have filled : ms.isEmpty = false := by simpa using some
  have sum := ofDigits_read least (ms.map (·.char))
  rw [List.filterMap_map, show ms.filterMap (Text.digit? base ∘ (·.char)) = digits from values]
    at sum
  refine ⟨?_, dropped⟩
  simp only [number, taken, filled, values, sum, numeral]
  by_cases small : Nat.ofDigits base digits.reverse ≤ maxNumber
  · rw [Literal.bounded_of_le small]
    simp only [Literal.toNat_toUInt32 small, small, Bool.false_eq_true, if_false, if_true]
  · simp [Literal.bounded_of_lt (Nat.lt_of_not_le small), small]

/-- What stands before the digits of a number, with the base it tells. -/
def numeralForms : List (List Char × Nat) :=
  [([], 10), (['0', 'x'], 16), (['0', 'X'], 16), (['$'], 16), (['0', 'b'], 2), (['0', 'B'], 2),
   (['%'], 2)]

theorem isDigit_of_ten (h : isDigit 10 m = true) : m.char.isDigit = true := by
  obtain ⟨value, h⟩ := Option.isSome_iff_exists.mp h
  simp only [Text.digit?, Option.filter_eq_some_iff, decide_eq_true_eq] at h
  obtain ⟨h, below⟩ := h
  split at h
  · next digit => simpa [Char.isDigit, Char.le_def] using digit
  · -- the digits that are letters stand for ten and more
    grind

/-- Behind a decimal digit that is not alone no letter tells a base. -/
theorem head?_plain (all : ∀ m ∈ ms, isDigit 10 m = true)
    (plain : ms = [] → ∀ n ∈ rest.head?, n.char ∉ ['x', 'X', 'b', 'B']) :
    ∀ n ∈ (ms ++ rest).head?, n.char ∉ ['x', 'X', 'b', 'B'] := by
  cases ms with
  | nil => exact plain rfl
  | cons m ms =>
    rintro n ⟨⟩
    exact notMem_of_all (by decide) (isDigit_of_ten (all m List.mem_cons_self))

/-- A number is read whole and alone: the characters behind it are left for what follows, unless
they are digits, or the letter behind a single zero that would tell a base. -/
theorem step_numeral {front digits : List Mark} {lead : List Char} {base value : Nat}
    (form : (lead, base) ∈ numeralForms) (spelled : front.map (·.char) = lead)
    (eq : m :: ms = front ++ digits) (h : Denotes base (digits.map (·.char)) value)
    (stop : ∀ n ∈ rest.head?, isDigit base n = false)
    (plain : (m :: ms).map (·.char) = ['0'] → ∀ n ∈ rest.head?, n.char ∉ ['x', 'X', 'b', 'B']) :
    Scanner.step d depth m (ms ++ rest) =
      ⟨numeral d value m.spot (lastSpot m.spot digits), rest, depth, false⟩ := by
  simp only [numeralForms, List.mem_cons, List.not_mem_nil, or_false, Prod.mk.injEq] at form
  rcases form with
    ⟨rfl, rfl⟩ | ⟨rfl, rfl⟩ | ⟨rfl, rfl⟩ | ⟨rfl, rfl⟩ | ⟨rfl, rfl⟩ | ⟨rfl, rfl⟩ | ⟨rfl, rfl⟩
  · obtain rfl := List.map_eq_nil_iff.mp spelled
    obtain rfl : m :: ms = digits := eq
    obtain ⟨read, dropped⟩ := number_of_denotes (d := d) (by decide) h stop m.spot
    obtain ⟨-, values, digits, -⟩ := h
    obtain ⟨first, more⟩ := List.forall_mem_cons.mp (digits_eq (by decide) digits).1
    rw [List.cons_append] at read dropped
    rw [List.dropWhile_cons_of_pos first] at dropped
    have behind (zero : m.char = '0') := head?_plain more fun none => plain (by simp [none, zero])
    rw [step_decimal (isDigit_of_ten first) behind, read, dropped]
  all_goals
    obtain ⟨read, dropped⟩ := number_of_denotes (d := d) (by decide) h stop m.spot
    obtain ⟨p, _, rfl, second⟩ := exists_marks spelled
    obtain ⟨rfl, rfl⟩ := List.cons.inj eq
    refine .trans ?_ (congrArg₂ (Step.mk · · depth false) read dropped)
    first
      | obtain rfl := List.map_eq_nil_iff.mp second
        rfl
      | obtain ⟨q, rfl⟩ := exists_mark second
        rfl

theorem reads_numeral {lead w : List Char} {base value : Nat} (form : (lead, base) ∈ numeralForms)
    (spelled : ms.map (·.char) = lead ++ w) (h : Denotes base w value) (small : value ≤ maxNumber)
    (parted : Parted rest) :
    Reads d depth (ms ++ rest) [.ok (.number value)] depth rest := by
  obtain ⟨front, digits, eq, lead_eq, rfl⟩ := List.map_eq_append_iff.mp spelled
  obtain ⟨m, ms, rfl⟩ : ∃ m ms', ms = m :: ms' := by
    refine List.exists_cons_of_ne_nil fun none => h.1 ?_
    rw [(List.append_eq_nil_iff.mp (eq.symm.trans none)).2, List.map_nil]
  obtain ⟨c, p, more, rfl, hc⟩ := parted
  have stop : ∀ n ∈ (⟨c, p⟩ :: more : List Mark).head?, isDigit base n = false := by
    rintro _ ⟨⟩
    rcases hc with rfl | rfl | rfl <;> rfl
  have plain : ∀ n ∈ (⟨c, p⟩ :: more : List Mark).head?, n.char ∉ ['x', 'X', 'b', 'B'] := by
    rintro _ ⟨⟩
    rcases hc with rfl | rfl | rfl <;> simp
  have step : Scanner.step d depth m (ms ++ _) = _ :=
    step_numeral form lead_eq eq h stop fun _ => plain
  rw [numeral, if_pos small] at step
  exact .token step

end Scanner

end Gamebook
