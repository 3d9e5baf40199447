import Gamebook.Proofs.Token.Steps

/-!
# Reading printed code

A token can be written in several ways: a keyword in any letter case, a number in three bases, a
line end as any run of such ends. `Spells` says in which, and `Printed` which texts a sequence of
tokens can be written as inside code: each token in one of its spellings behind a gap of blanks and
comments. Whatever is chosen, such a text is read as the tokens it was made of (`scan_of_printed`).
-/

namespace Gamebook

/-! ## Spellings -/

/-- The word is the keyword in some letter case. -/
def Keyword.Spelled (k : Keyword) (w : List Char) : Prop := w.map Char.toUpper = k.name.toList

instance (k : Keyword) (w : List Char) : Decidable (k.Spelled w) :=
  inferInstanceAs (Decidable (w.map Char.toUpper = k.name.toList))

/-- A name that can be given to something: it is no keyword in any letter case. -/
def IsFreeName (name : String) : Prop :=
  Scanner.IsName name.toList ∧ ∀ k : Keyword, ¬ k.Spelled name.toList

instance : DecidablePred IsFreeName := fun name =>
  decidable_of_iff (Scanner.IsName name.toList ∧ ∀ k ∈ Keyword.all, ¬ k.Spelled name.toList)
    ⟨fun h => ⟨h.1, fun k => h.2 k k.mem_all⟩, fun h => ⟨h.1, fun k _ => h.2 k⟩⟩

/-- The token is one that can be written inside code. -/
def Token.Writable : Token → Prop
  | .text _ | .openCode | .closeCode => False
  | .identifier name | .shortLabel name => IsFreeName name
  | .number value => value ≤ maxNumber
  | _ => True

/-- The ways to write a token. -/
inductive Spells : Token → List Char → Prop
  | sign {t : Token} {w : List Char} (h : t.sign? = some w) : Spells t w
  | lineBreak {w : List Char} (some : w ≠ []) (h : ∀ c ∈ w, c = '\r' ∨ c = '\n') :
      Spells .lineBreak w
  | keyword {k : Keyword} {w : List Char} (h : k.Spelled w) : Spells (.keyword k) w
  | identifier (name : String) : Spells (.identifier name) name.toList
  | shortLabel (name : String) : Spells (.shortLabel name) ('#' :: name.toList)
  | number {lead w : List Char} {base value : Nat} (form : (lead, base) ∈ Scanner.numeralForms)
      (h : Scanner.Denotes base w value) : Spells (.number value) (lead ++ w)

/-- What may stand between two tokens: a blank, or a comment that ends where it first can. -/
inductive Blank : List Char → Prop
  | space : Blank [' ']
  | tab : Blank ['\t']
  | comment {body : List Char} (h : ¬ ['*', '/'] <:+: body) :
      Blank ('/' :: '*' :: (body ++ ['*', '/']))

/-- Blanks and comments, at least one. -/
inductive Gap : List Char → Prop
  | one {w : List Char} (h : Blank w) : Gap w
  | cons {w more : List Char} (h : Blank w) (gap : Gap more) : Gap (w ++ more)

/-- The texts that the tokens of a code section can be written as, with the brackets that close the
section. -/
inductive Printed : List Token → List Char → Prop
  | close {gap : List Char} (h : Gap gap) : Printed [] (gap ++ [']', ']'])
  | cons {gap w body : List Char} {t : Token} {tokens : List Token} (h : Gap gap)
      (spells : Spells t w) (printed : Printed tokens body) :
      Printed (t :: tokens) (gap ++ (w ++ body))

/-! ## Keywords -/

namespace Keyword

theorem find?_name : ∀ k ∈ all, all.find? (fun k' => k'.name == k.name) = some k := by
  decide +kernel

theorem isUpper_name : ∀ k ∈ all, k.name.toList ≠ [] ∧ k.name.toList.all Char.isUpper = true := by
  decide +kernel

variable {k : Keyword} {w : List Char}

theorem ofWord?_of_spelled (h : k.Spelled w) : ofWord? (String.ofList w) = some k := by
  rw [ofWord?, String.toList_ofList, h, String.ofList_toList]
  exact find?_name k (mem_all k)

theorem ofWord?_eq_none (h : ∀ k : Keyword, ¬ k.Spelled w) : ofWord? (String.ofList w) = none := by
  rw [ofWord?, String.toList_ofList, List.find?_eq_none]
  intro k _ same
  have same : k.name = String.ofList (w.map Char.toUpper) := by simpa using same
  exact h k (by rw [Spelled, same, String.toList_ofList])

theorem spelled_name (k : Keyword) : k.Spelled k.name.toList := by
  have upper := List.all_eq_true.mp (isUpper_name k (mem_all k)).2
  have same : ∀ c ∈ k.name.toList, c.toUpper = c := fun c mem =>
    Char.toUpper_eq_of_not_isLower (Char.not_isLower_of_isUpper (upper c mem))
  rw [Spelled, List.map_congr_left same, List.map_id']

theorem isName_of_spelled (h : k.Spelled w) : Scanner.IsName w := by
  obtain ⟨some, upper⟩ := isUpper_name k (mem_all k)
  rw [← h] at some upper
  have letters : ∀ c ∈ w, c.isAlpha = true := by
    intro c mem
    rw [← Char.isUpper_toUpper_eq_isAlpha]
    exact List.all_eq_true.mp upper _ (List.mem_map_of_mem mem)
  cases w with
  | nil => exact absurd rfl some
  | cons c w =>
    obtain ⟨first, more⟩ := List.forall_mem_cons.mp letters
    exact ⟨.inl first, fun c mem => .inl (by rw [Char.isAlphanum, more c mem, Bool.true_or])⟩

end Keyword

/-! ## Every token has a spelling -/

namespace Scanner

theorem exists_denotes (value : Nat) : ∃ w, Denotes 10 w value := by
  have digit : ∀ n < 10, DigitFor 10 n.digitChar n := by
    have table : ∀ n < 10, "0123456789abcdef".toList[n]? = some n.digitChar := by decide
    exact fun n lt => ⟨lt, _, List.mem_cons_self, table n lt⟩
  cases value with
  | zero => exact ⟨['0'], by simp, [0], .cons (digit 0 (by decide)) .nil, rfl⟩
  | succ n =>
    refine ⟨(Nat.digits 10 (n + 1)).reverse.map Nat.digitChar, ?_,
      (Nat.digits 10 (n + 1)).reverse, ?_, ?_⟩
    · simp [Nat.digits_eq_nil_iff_eq_zero]
    · rw [List.forall₂_map_left_iff, List.forall₂_same]
      exact fun m mem => digit m (Nat.digits_lt_base (by decide) (List.mem_reverse.mp mem))
    · rw [List.reverse_reverse, Nat.ofDigits_digits]

end Scanner

theorem exists_spells {t : Token} (h : t.Writable) : ∃ w, Spells t w := by
  cases t with
  | text | openCode | closeCode => contradiction
  | lineBreak => exact ⟨['\n'], .lineBreak (by simp) (by simp)⟩
  | identifier name => exact ⟨_, .identifier name⟩
  | shortLabel name => exact ⟨_, .shortLabel name⟩
  | keyword k => exact ⟨k.name.toList, .keyword k.spelled_name⟩
  | number value =>
    obtain ⟨w, denotes⟩ := Scanner.exists_denotes value
    exact ⟨_, .number List.mem_cons_self denotes⟩
  | _ => exact ⟨_, .sign rfl⟩

theorem exists_printed {tokens : List Token} (h : ∀ t ∈ tokens, t.Writable) :
    ∃ body, Printed tokens body := by
  induction tokens with
  | nil => exact ⟨_, .close (.one .space)⟩
  | cons t tokens ih =>
    obtain ⟨writable, rest⟩ := List.forall_mem_cons.mp h
    obtain ⟨w, spells⟩ := exists_spells writable
    obtain ⟨body, printed⟩ := ih rest
    exact ⟨_, .cons (.one .space) spells printed⟩

/-! ## Reading it back -/

open Scanner (Reads Parted)

variable {d : Document} {depth : Nat} {ms rest : List Mark} {tokens : List Token}
  {t : Token} {w body : List Char}

theorem Blank.parted (h : Blank w) (spelled : ms.map (·.char) = w) : Parted (ms ++ rest) := by
  cases h with
  | space | tab | comment =>
    obtain ⟨p, more, rfl, -⟩ := Scanner.exists_marks spelled
    exact ⟨_, p, more ++ rest, rfl, by simp⟩

theorem Blank.reads (h : Blank w) (spelled : ms.map (·.char) = w) :
    Reads d depth (ms ++ rest) [] depth rest := by
  cases h with
  | space =>
    obtain ⟨p, rfl⟩ := Scanner.exists_mark spelled
    exact Scanner.reads_blank (.inl rfl)
  | tab =>
    obtain ⟨p, rfl⟩ := Scanner.exists_mark spelled
    exact Scanner.reads_blank (.inr rfl)
  | comment h =>
    obtain ⟨p, _, rfl, second⟩ := Scanner.exists_marks spelled
    obtain ⟨q, _, rfl, more⟩ := Scanner.exists_marks second
    obtain ⟨body, _, rfl, rfl, ending⟩ := List.map_eq_append_iff.mp more
    obtain ⟨p', _, rfl, slash⟩ := Scanner.exists_marks ending
    obtain ⟨q', rfl⟩ := Scanner.exists_mark slash
    simpa using Scanner.reads_comment h

theorem Gap.parted (h : Gap w) (spelled : ms.map (·.char) = w) : Parted (ms ++ rest) := by
  cases h with
  | one h => exact h.parted spelled
  | cons h _ =>
    obtain ⟨first, more, rfl, spelled, -⟩ := List.map_eq_append_iff.mp spelled
    rw [List.append_assoc]
    exact h.parted spelled

theorem Gap.reads (h : Gap w) (spelled : ms.map (·.char) = w) :
    Reads d depth (ms ++ rest) [] depth rest := by
  induction h generalizing ms with
  | one h => exact h.reads spelled
  | cons h _ ih =>
    obtain ⟨first, more, rfl, spelled, spelled'⟩ := List.map_eq_append_iff.mp spelled
    rw [List.append_assoc]
    exact (h.reads spelled).append (ih spelled')

/-- Whichever spelling is chosen, it is read as the token. -/
theorem Spells.reads (h : Spells t w) (writable : t.Writable) (spelled : ms.map (·.char) = w)
    (parted : Parted rest) : Reads d depth (ms ++ rest) [.ok t] (t.nesting depth) rest := by
  cases h with
  | sign h => exact Scanner.reads_sign h spelled parted
  | lineBreak some h =>
    subst spelled
    refine Scanner.reads_breaks (by simpa using some) (fun m mem => ?_) parted
    exact Scanner.isBreak_iff.mpr (h m.char (List.mem_map_of_mem mem))
  | keyword h =>
    have read : Reads d depth _ _ depth rest :=
      Scanner.reads_word (Keyword.isName_of_spelled h) spelled parted
    rw [Token.ofWord, Keyword.ofWord?_of_spelled h] at read
    exact read
  | identifier name =>
    have read : Reads d depth _ _ depth rest := Scanner.reads_word writable.1 spelled parted
    rw [Token.ofWord, Keyword.ofWord?_eq_none writable.2, String.ofList_toList] at read
    exact read
  | shortLabel name =>
    obtain ⟨p, more, rfl, label⟩ := Scanner.exists_marks spelled
    have free := Keyword.ofWord?_eq_none writable.2
    have read : Reads d depth (⟨'#', p⟩ :: (more ++ rest)) _ depth rest :=
      Scanner.reads_shortLabel writable.1 label free parted
    rw [String.ofList_toList] at read
    exact read
  | number form h => exact Scanner.reads_numeral form spelled h writable parted

/-- How many square brackets are open behind the tokens, if `depth` are open before them. -/
def nestingBehind (tokens : List Token) (depth : Nat) : Nat :=
  tokens.foldl (fun depth t => t.nesting depth) depth

theorem Printed.parted (h : Printed tokens body) (spelled : ms.map (·.char) = body) :
    Parted ms := by
  cases h with
  | close gap | cons gap =>
    obtain ⟨first, more, rfl, spelled, -⟩ := List.map_eq_append_iff.mp spelled
    exact gap.parted spelled

/-- What was printed is read up to the brackets that close the section. -/
theorem Printed.reads (h : Printed tokens body) (writable : ∀ t ∈ tokens, t.Writable)
    (spelled : ms.map (·.char) = body) :
    ∃ p q, Reads d depth ms (tokens.map .ok) (nestingBehind tokens depth) [⟨']', p⟩, ⟨']', q⟩] := by
  induction h generalizing ms depth with
  | close gap =>
    obtain ⟨first, _, rfl, blank, closing⟩ := List.map_eq_append_iff.mp spelled
    obtain ⟨p, _, rfl, second⟩ := Scanner.exists_marks closing
    obtain ⟨q, rfl⟩ := Scanner.exists_mark second
    exact ⟨p, q, gap.reads blank⟩
  | cons gap spells printed ih =>
    obtain ⟨first, _, rfl, blank, more⟩ := List.map_eq_append_iff.mp spelled
    obtain ⟨word, rest, rfl, token, behind⟩ := List.map_eq_append_iff.mp more
    obtain ⟨this, others⟩ := List.forall_mem_cons.mp writable
    obtain ⟨p, q, reads⟩ := ih others behind
    exact ⟨p, q, (gap.reads blank).append
      ((spells.reads this token (printed.parted behind)).append reads)⟩

theorem Mark.map_char_placed (p : Position) (cs : List Char) :
    (Mark.placed p cs).map (·.char) = cs := by
  induction cs generalizing p with
  | nil => rfl
  | cons c cs ih => rw [Mark.placed, List.map_cons, ih]

/-- Reading code undoes printing it. Tokens that leave no square bracket open can be written as a code
section, and in whichever way that is done, the section is read as just these tokens. -/
theorem Scanner.scan_of_printed (writable : ∀ t ∈ tokens, t.Writable)
    (balanced : nestingBehind tokens 0 = 0) :
    (∃ body, Printed tokens body) ∧
      ∀ body (d : Document), Printed tokens body → d.text.toList = '[' :: '[' :: body →
        d.scan.map (·.value) = .ok .openCode :: tokens.map .ok ++ [.ok .closeCode] := by
  refine ⟨exists_printed writable, fun body d printed text => ?_⟩
  obtain ⟨p, q, ms, marks, spelled⟩ : ∃ p q ms, d.marks = ⟨'[', p⟩ :: ⟨'[', q⟩ :: ms ∧
      ms.map (·.char) = body := by
    rw [Document.marks, text, Mark.placed, Mark.placed]
    exact ⟨_, _, _, rfl, Mark.map_char_placed _ body⟩
  obtain ⟨p', q', reads⟩ := printed.reads writable spelled
  rw [balanced] at reads
  obtain ⟨read, behind, items⟩ := reads.close
  have opened : prose d d.marks = .nil (some (p, q, ms)) := by
    rw [marks]
    rfl
  have closed := scanFrom_of_closed (congrArg Prose.next opened) behind
  rw [Document.scan, closed, opened, scanFrom_of_end rfl]
  simp [Prose.nil, Prose.token?, prose, items]

/-- Tokens of many kinds, brackets in brackets among them. -/
def mixedTokens : List Token :=
  [.keyword .IF, .openParen, .identifier "x_1", .notEquals, .number 255, .closeParen, .openSquare,
   .openSquare, .number 7, .closeSquare, .closeSquare, .divide, .number 5, .keyword .THEN,
   .lineBreak, .shortLabel "Loop2"]

/-- The tokens of `mixedTokens`, written and kept apart in different ways. -/
def mixedSpellings : List Char :=
  "\tiF/* [[ */( x_1 <> 0x0fF ) [ [ 007 ] ] //**/%101 tHEN/***/\r\n\n\t #Loop2 ]]".toList

theorem printed_mixedSpellings : Printed mixedTokens mixedSpellings := by
  have space : Gap [' '] := .one .space
  have brackets : Gap "/* [[ */".toList :=
    .one (.comment (show ¬ ['*', '/'] <:+: [' ', '[', '[', ' '] by decide))
  have star : Gap "/***/".toList := .one (.comment (show ¬ ['*', '/'] <:+: ['*'] by decide))
  have nothing : Gap "/**/".toList := .one (.comment (show ¬ ['*', '/'] <:+: [] by decide))
  have hex : Scanner.Denotes 16 ['0', 'f', 'F'] 255 :=
    ⟨by simp, [0, 15, 15], .cons (by decide) (.cons (by decide) (.cons (by decide) .nil)), rfl⟩
  have decimal : Scanner.Denotes 10 ['0', '0', '7'] 7 :=
    ⟨by simp, [0, 0, 7], .cons (by decide) (.cons (by decide) (.cons (by decide) .nil)), rfl⟩
  have binary : Scanner.Denotes 2 ['1', '0', '1'] 5 :=
    ⟨by simp, [1, 0, 1], .cons (by decide) (.cons (by decide) (.cons (by decide) .nil)), rfl⟩
  have breaks : Spells .lineBreak ['\r', '\n', '\n'] := .lineBreak (by simp) (by simp)
  have printed := Printed.cons
    (.one .tab) (.keyword (show Keyword.IF.Spelled ['i', 'F'] by decide)) <| .cons
    brackets (.sign (t := .openParen) rfl) <| .cons
    space (.identifier "x_1") <| .cons
    space (.sign (t := .notEquals) rfl) <| .cons
    space (.number (show (['0', 'x'], 16) ∈ Scanner.numeralForms by decide) hex) <| .cons
    space (.sign (t := .closeParen) rfl) <| .cons
    space (.sign (t := .openSquare) rfl) <| .cons
    space (.sign (t := .openSquare) rfl) <| .cons
    space (.number (show ([], 10) ∈ Scanner.numeralForms by decide) decimal) <| .cons
    space (.sign (t := .closeSquare) rfl) <| .cons
    space (.sign (t := .closeSquare) rfl) <| .cons
    space (.sign (t := .divide) rfl) <| .cons
    nothing (.number (show (['%'], 2) ∈ Scanner.numeralForms by decide) binary) <| .cons
    space (.keyword (show Keyword.THEN.Spelled ['t', 'H', 'E', 'N'] by decide)) <| .cons
    star breaks <| .cons
    (.cons .tab space) (.shortLabel "Loop2") <|
    .close space
  exact printed

theorem Scanner.scan_of_printed_mixedSpellings :
    (∀ t ∈ mixedTokens, t.Writable) ∧ nestingBehind mixedTokens 0 = 0 ∧
      Printed mixedTokens mixedSpellings ∧
      (Document.mk "cellar" (String.ofList ('[' :: '[' :: mixedSpellings)) none).scan.map
          (·.value) =
        .ok .openCode :: mixedTokens.map .ok ++ [.ok .closeCode] := by
  have names : IsFreeName "x_1" ∧ IsFreeName "Loop2" := by decide +kernel
  have writable : ∀ t ∈ mixedTokens, t.Writable := by
    simp [mixedTokens, Token.Writable, names, maxNumber]
  exact ⟨writable, rfl, printed_mixedSpellings, (scan_of_printed writable rfl).2 _ _
    printed_mixedSpellings String.toList_ofList⟩

end Gamebook
