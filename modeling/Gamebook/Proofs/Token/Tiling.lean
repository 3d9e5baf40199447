import Gamebook.Proofs.Source.Positions
import Gamebook.Proofs.Token.Printing
import Gamebook.Proofs.Token.Prose

/-!
# Where tokens stand

The tokens of a script cover it without a gap but for what is no token: blanks, comments and what
gives an error. `Tile` says which characters are read together inside code and what they are read
as, `Told` the same of the characters of a stretch of prose, and `Tiled` that a script is made of
nothing else. A token has the place of its characters, from the position of the first to one column
behind the last (`Mark.extent`); that its characters spell it makes sure that they are not fewer and
not others.

`step_tiles` is about one step through code. Since the columns of characters go up, tokens that
stand one behind the other have places one behind the other (`Tiled.ordered`); `scan_located` puts
it all together.
-/

namespace Gamebook

/-- The place of the characters `m` and `ms`: from the position of the first to one column behind
the last. -/
def Mark.extent (d : Document) (m : Mark) (ms : List Mark) : Location :=
  ⟨d, m.spot, ((m :: ms).getLast (List.cons_ne_nil m ms)).spot.advance⟩

namespace Scanner

variable (d : Document)

/-! ## Tiles -/

/-- The characters inside code that give an error, a number that is too great aside. -/
inductive Faulty : ScanError → List Char → Prop
  | badChar (c : Char) : Faulty (.badChar c) [c]
  | nestedOpen : Faulty .nestedOpen ['[', '[']
  | missingDigit {lead : List Char} {base : Nat} : (lead, base) ∈ numeralForms →
    Faulty .missingDigit lead
  | missingLabel : Faulty .missingLabel ['#']
  | reservedLabel {k : Keyword} {w : List Char} : k.Spelled w →
    Faulty (.reservedLabel k) ('#' :: w)
  | unterminatedComment {body : List Char} : ¬ ['*', '/'] <:+: body →
    Faulty .unterminatedComment ('/' :: '*' :: body)

/-- Characters that are read together inside code, and what they are read as. -/
inductive Tile : List Mark → List Lexeme → Prop
  /-- A blank or a comment. -/
  | blank {ms : List Mark} : Blank (ms.map (·.char)) → Tile ms []
  /-- A token stands at the characters that spell it. -/
  | token {t : Token} {m : Mark} {ms : List Mark} : Spells t ((m :: ms).map (·.char)) →
    t.Writable → Tile (m :: ms) [⟨.ok t, m.extent d ms⟩]
  /-- A number that is too great is an error, and a zero at the same place. -/
  | overflow {value : Nat} {m : Mark} {ms : List Mark} :
    Spells (.number value) ((m :: ms).map (·.char)) → maxNumber < value →
      Tile (m :: ms) [⟨.error .numberOverflow, m.extent d ms⟩, ⟨.ok (.number 0), m.extent d ms⟩]
  /-- Any other error starts where its characters do. -/
  | fault {e : ScanError} {m last : Mark} {ms : List Mark} : Faulty e ((m :: ms).map (·.char)) →
    last ∈ m :: ms → Tile (m :: ms) [.error d e m.spot last.spot]

/-- The character counts as part of a text: it is neither the one that ends texts nor one of a stray
pair of closing brackets. -/
def Counts (ms : List Mark) (i : Nat) : Prop :=
  ∃ c, charAt ms i = some c ∧ c ≠ '\x00' ∧ inPair ms i = false

/-- The text of a stretch of prose. It stands from the first to the last character that counts, and
there is none if no character gives a byte. -/
inductive Told (ms : List Mark) : List Lexeme → Prop
  | nothing : collect codeAt ms = [] → Told ms []
  | text {i j : Nat} {first last : Mark} : ms[i]? = some first → ms[j]? = some last →
    Counts ms i → Counts ms j → (∀ k, Counts ms k → i ≤ k ∧ k ≤ j) →
      Told ms [⟨.ok (.text (collect codeAt ms)), ⟨d, first.spot, last.spot.advance⟩⟩]

/-- The lexemes are what the characters are read as, one piece after the other, beginning in code or
in prose. -/
inductive Tiled : (inCode : Bool) → List Mark → List Lexeme → Prop
  /-- Prose up to the end of the script. -/
  | prose {ms : List Mark} {text : List Lexeme} : Stretch ms [] → Told d ms text →
    Tiled false ms (collect (faultAt d) ms ++ text)
  /-- Prose up to the brackets that open code. -/
  | opens {ms rest : List Mark} {p q : Mark} {text more : List Lexeme} :
    Stretch ms (p :: q :: rest) → Told d ms text → Tiled true rest more →
      Tiled false (ms ++ p :: q :: rest)
        (collect (faultAt d) ms ++ text ++ ⟨.ok .openCode, p.extent d [q]⟩ :: more)
  | piece {ms rest : List Mark} {read more : List Lexeme} : Tile d ms read →
    Tiled true rest more → Tiled true (ms ++ rest) (read ++ more)
  | closes {p q : Mark} {rest : List Mark} {more : List Lexeme} : p.char = ']' → q.char = ']' →
    Tiled false rest more →
      Tiled true (p :: q :: rest) (⟨.ok .closeCode, p.extent d [q]⟩ :: more)
  /-- Code that is not closed. -/
  | ends : Tiled true [] [.error d .unterminatedCode d.finish d.finish]

/-! ## Places of characters -/

variable {d} {m : Mark} {ms read rest : List Mark}

/-- The last of some characters is the last of those behind the first ones. -/
theorem lastSpot_of_append (front : List Mark) (h : m :: ms = front ++ read) (some : read ≠ [])
    (p : Position) : lastSpot p read = ((m :: ms).getLast (List.cons_ne_nil m ms)).spot := by
  have last : read.getLast? = (m :: ms).getLast? := by
    rw [h, List.getLast?_append_of_ne_nil _ some]
  rw [lastSpot, last, List.getLast?_eq_some_getLast (List.cons_ne_nil m ms)]
  rfl

theorem lastSpot_eq (m : Mark) (ms : List Mark) :
    lastSpot m.spot ms = ((m :: ms).getLast (List.cons_ne_nil m ms)).spot := by
  cases ms with
  | nil => rfl
  | cons n ms => exact lastSpot_of_append [m] rfl (List.cons_ne_nil n ms) m.spot

theorem token_eq_extent (t : Token) (m : Mark) (ms : List Mark) :
    Lexeme.token d t m.spot (lastSpot m.spot ms) = ⟨.ok t, m.extent d ms⟩ := by
  rw [lastSpot_eq]
  rfl

/-! ## Numbers -/

theorem toNat_lt_of_digit? {base value : Nat} {c : Char} (h : Text.digit? base c = some value) :
    c.toNat < 128 := by
  have bound {d : Char} (le : c ≤ d) (small : d.toNat < 128) : c.toNat < 128 :=
    Nat.lt_of_le_of_lt (UInt32.le_iff_toNat_le.mp (Char.le_def.mp le)) small
  simp only [Text.digit?, Option.filter_eq_some_iff] at h
  obtain ⟨found, -⟩ := h
  split at found
  · next decimal => exact bound decimal.2 (by decide)
  split at found
  · next lower => exact bound lower.2 (by decide)
  split at found
  · next upper => exact bound upper.2 (by decide)
  · contradiction

theorem digitFor_of_digit? {base value : Nat} {c : Char} (least : base ≤ 16)
    (h : Text.digit? base c = some value) : DigitFor base c value := by
  have table : ∀ n < 128, (Text.digit? 16 (Char.ofNat n)).all
      (fun value => decide (DigitFor 16 (Char.ofNat n) value)) = true := by decide +kernel
  have all := table c.toNat (toNat_lt_of_digit? h)
  rw [Char.ofNat_toNat] at all
  simp only [Text.digit?, Option.filter_eq_some_iff, decide_eq_true_eq] at h
  obtain ⟨found, below⟩ := h
  have hex : Text.digit? 16 c = some value := by
    simp only [Text.digit?, Option.filter_eq_some_iff, decide_eq_true_eq]
    exact ⟨found, by omega⟩
  rw [hex] at all
  obtain ⟨-, spelled⟩ : DigitFor 16 c value := by simpa using all
  exact ⟨below, spelled⟩

/-- Digits write the number that they are summed up to. -/
theorem denotes_of_isDigit {base : Nat} (least : base ≤ 16) (some : ms ≠ [])
    (h : ∀ m ∈ ms, isDigit base m = true) :
    Denotes base (ms.map (·.char))
      (Nat.ofDigits base (ms.filterMap fun m => Text.digit? base m.char).reverse) := by
  refine ⟨by simpa using some, _, ?_, rfl⟩
  clear some
  induction ms with
  | nil => exact .nil
  | cons m ms ih =>
    obtain ⟨first, more⟩ := List.forall_mem_cons.mp h
    obtain ⟨value, digit⟩ := Option.isSome_iff_exists.mp first
    rw [List.map_cons, List.filterMap_cons, digit]
    exact .cons (digitFor_of_digit? least digit) (ih more)

theorem base_of_form {lead : List Char} {base : Nat} (h : (lead, base) ∈ numeralForms) :
    base ≤ 16 := by
  have bases : ∀ form ∈ numeralForms, form.2 ≤ 16 := by decide
  exact bases _ h

/-- A number stands at its digits and what is in front of them. -/
theorem number_tile (front : List Mark) {lead : List Char} {base : Nat} {digits : List Mark}
    (form : (lead, base) ∈ numeralForms) (spelled : front.map (·.char) = lead)
    (eq : m :: ms = front ++ digits.takeWhile (isDigit base)) :
    Tile d (m :: ms) (number d m.spot base digits) := by
  have least := base_of_form form
  have all : ∀ m ∈ digits.takeWhile (isDigit base), isDigit base m = true := fun m mem =>
    List.all_eq_true.mp List.all_takeWhile m mem
  by_cases none : digits.takeWhile (isDigit base) = []
  · have missing : number d m.spot base digits = [.error d .missingDigit m.spot m.spot] := by
      simp [number, none, lastSpot]
    rw [missing]
    refine .fault ?_ List.mem_cons_self
    rw [eq, none, List.append_nil, spelled]
    exact .missingDigit form
  · obtain ⟨value, denotes⟩ : ∃ value, Denotes base _ value :=
      ⟨_, denotes_of_isDigit least none all⟩
    have spells : Spells (.number value) ((m :: ms).map (·.char)) := by
      rw [eq, List.map_append, spelled]
      exact .number form denotes
    have stop : ∀ n ∈ (digits.dropWhile (isDigit base)).head?, isDigit base n = false := by
      intro n behind
      have other := List.head?_dropWhile_not (isDigit base) digits
      rwa [Option.mem_def.mp behind] at other
    obtain ⟨read, -⟩ := number_of_denotes (d := d) least denotes stop m.spot
    rw [List.takeWhile_append_dropWhile, lastSpot_of_append front eq none] at read
    rw [read, numeral]
    split
    · next small => exact .token spells small
    · next above => exact .overflow spells (Nat.lt_of_not_le above)

theorem isDigit_ten (h : m.char.isDigit = true) : isDigit 10 m = true := by
  have bounds : '0' ≤ m.char ∧ m.char ≤ '9' := by simpa [Char.isDigit, Char.le_def] using h
  have upper : m.char.toNat ≤ '9'.toNat := UInt32.le_iff_toNat_le.mp (Char.le_def.mp bounds.2)
  have below : m.char.toNat - '0'.toNat < 10 := by
    have : '9'.toNat = 57 ∧ '0'.toNat = 48 := by decide
    omega
  simp only [isDigit, Text.digit?, if_pos bounds]
  simpa using below

theorem decimal_tile (h : m.char.isDigit = true) :
    Tile d (m :: rest.takeWhile (isDigit 10)) (number d m.spot 10 (m :: rest)) := by
  have form : ([], 10) ∈ numeralForms := by decide
  refine number_tile [] form rfl ?_
  rw [List.nil_append, List.takeWhile_cons_of_pos (isDigit_ten h)]

/-! ## Words -/

theorem spelled_of_ofWord? {k : Keyword} {w : List Char}
    (h : Keyword.ofWord? (String.ofList w) = some k) : k.Spelled w := by
  have same := List.find?_some h
  rw [String.toList_ofList] at same
  rw [Keyword.Spelled, eq_of_beq same, String.toList_ofList]

/-- The characters of a word. -/
theorem toList_word (m : Mark) (rest : List Mark) :
    (word m.char rest).toList = (m :: rest.takeWhile isWordChar).map (·.char) := by
  rw [word, String.toList_ofList, List.map_cons]

theorem isFreeName_word (start : isWordStart m.char = true)
    (free : Keyword.ofWord? (word m.char rest) = none) : IsFreeName (word m.char rest) := by
  have all : ∀ n ∈ rest.takeWhile isWordChar, isWordChar n = true := fun n mem =>
    List.all_eq_true.mp List.all_takeWhile n mem
  refine ⟨?_, fun k spelled => ?_⟩
  · rw [toList_word, List.map_cons]
    refine ⟨by simpa [isWordStart] using start, fun c spelled => ?_⟩
    obtain ⟨n, mem, rfl⟩ := List.mem_map.mp spelled
    simpa [isWordChar] using all n mem
  · have found := Keyword.ofWord?_of_spelled spelled
    rw [String.ofList_toList, free] at found
    contradiction

theorem wordToken_tile (start : isWordStart m.char = true) :
    Tile d (m :: rest.takeWhile isWordChar) [wordToken d m rest] := by
  unfold wordToken
  dsimp only
  rw [token_eq_extent]
  split
  · next k found => exact .token (.keyword (spelled_of_ofWord? found)) trivial
  · next free =>
    refine .token ?_ (isFreeName_word start free)
    rw [← toList_word]
    exact .identifier _

/-- The label behind a number sign, or the sign alone. -/
theorem shortLabel_tile (hash : m.char = '#') (rest : List Mark) :
    ∃ taken, rest = taken ++ (shortLabel d m.spot rest).2 ∧
      Tile d (m :: taken) (shortLabel d m.spot rest).1 := by
  have alone : Tile d [m] [.error d .missingLabel m.spot m.spot] := by
    refine .fault ?_ List.mem_cons_self
    rw [List.map_singleton, hash]
    exact .missingLabel
  unfold shortLabel
  split
  · next n rest =>
    split
    · next start =>
      refine ⟨n :: rest.takeWhile isWordChar, by simp, ?_⟩
      have last : lastSpot n.spot (rest.takeWhile isWordChar) =
          ((m :: n :: rest.takeWhile isWordChar).getLast (List.cons_ne_nil _ _)).spot := by
        rw [lastSpot_eq, List.getLast_cons (List.cons_ne_nil n _)]
      dsimp only
      rw [last]
      split
      · next found =>
        refine .fault ?_ (List.getLast_mem _)
        rw [List.map_cons, hash]
        exact .reservedLabel (spelled_of_ofWord? found)
      · next free =>
        refine .token ?_ (isFreeName_word start free)
        rw [List.map_cons, hash, ← toList_word]
        exact .shortLabel _
    · exact ⟨[], rfl, alone⟩
  · exact ⟨[], rfl, alone⟩

/-! ## Signs, line ends and comments -/

theorem follows_eq_some {c : Char} {q : Position} {rest' : List Mark}
    (h : follows c rest = some (q, rest')) : rest = ⟨c, q⟩ :: rest' := by
  unfold follows at h
  split at h
  · split at h
    · next same =>
      obtain ⟨rfl, rfl⟩ := Prod.mk.inj (Option.some.inj h)
      subst same
      rfl
    · contradiction
  · contradiction

/-- A sign of one character. -/
theorem sign_tile {t : Token} (h : t.sign? = some [m.char]) (writable : t.Writable) :
    Tile d [m] [.token d t m.spot m.spot] := by
  have spells : Spells t ([m].map (·.char)) := .sign h
  exact .token spells writable

theorem single?_sign {c : Char} {t : Token} (h : single? c = some t) :
    t.sign? = some [c] ∧ t.Writable := by
  unfold single? at h
  split at h
  all_goals first
    | contradiction
    | exact Option.some.inj h ▸ ⟨rfl, trivial⟩

/-- A sign of one character or of two. -/
theorem signs_tile (alone : Token) (pairs : List (Char × Token)) (rest : List Mark)
    (halone : alone.sign? = some [m.char] ∧ alone.Writable)
    (hpairs : ∀ p ∈ pairs, p.2.sign? = some [m.char, p.1] ∧ p.2.Writable) :
    ∃ taken, rest = taken ++ (sign d m alone pairs rest).2 ∧
      Tile d (m :: taken) [(sign d m alone pairs rest).1] := by
  unfold sign
  split
  · next n rest =>
    split
    · next t found =>
      obtain ⟨spelled, writable⟩ := hpairs _ (mem_of_lookup found)
      have spells : Spells t ([m, n].map (·.char)) := .sign spelled
      exact ⟨[n], rfl, .token spells writable⟩
    · exact ⟨[], rfl, sign_tile halone.1 halone.2⟩
  · exact ⟨[], rfl, sign_tile halone.1 halone.2⟩

theorem lineBreak_tile (h : isBreak m = true) :
    Tile d (m :: rest.takeWhile isBreak)
      [.token d .lineBreak m.spot (lastSpot m.spot (rest.takeWhile isBreak))] := by
  have all : ∀ n ∈ m :: rest.takeWhile isBreak, isBreak n = true :=
    List.forall_mem_cons.mpr ⟨h, fun n mem => List.all_eq_true.mp List.all_takeWhile n mem⟩
  rw [token_eq_extent]
  refine .token (.lineBreak (List.cons_ne_nil _ _) fun c spelled => ?_) trivial
  obtain ⟨n, mem, rfl⟩ := List.mem_map.mp spelled
  exact isBreak_iff.mp (all n mem)

/-- Where a comment does not end, it can only end later. -/
theorem infix_of_cons (other : ∀ p rest, m.char = '*' → ms = ⟨'/', p⟩ :: rest → False)
    (h : ['*', '/'] <:+: (m :: ms).map (·.char)) : ['*', '/'] <:+: ms.map (·.char) := by
  rw [List.map_cons, List.infix_cons_iff] at h
  obtain first | later := h
  · obtain ⟨star, behind, slash⟩ := List.cons_prefix_cons.mp first
    obtain ⟨p, rest, eq, -⟩ := exists_marks slash.symm
    exact (other p rest star.symm eq).elim
  · exact later

/-- A comment goes up to the first place where it can end. -/
theorem skipComment_eq_some {rest' : List Mark} (h : skipComment rest = some rest') :
    ∃ body p q, rest = body ++ ⟨'*', p⟩ :: ⟨'/', q⟩ :: rest' ∧
      ¬ ['*', '/'] <:+: body.map (·.char) := by
  fun_induction skipComment rest with
  | case1 => contradiction
  | case2 p q rest =>
    obtain rfl := Option.some.inj h
    exact ⟨[], p, q, rfl, by simp⟩
  | case3 m rest other ih =>
    obtain ⟨body, p, q, rfl, none⟩ := ih h
    refine ⟨m :: body, p, q, rfl, fun found => none (infix_of_cons ?_ found)⟩
    intro q' body' star eq
    exact other m.spot q' _ (congrArg (Mark.mk · m.spot) star) (by rw [eq, List.cons_append])

theorem skipComment_eq_none (h : skipComment rest = none) :
    ¬ ['*', '/'] <:+: rest.map (·.char) := by
  fun_induction skipComment rest with
  | case1 => simp
  | case2 => contradiction
  | case3 m rest other ih =>
    refine fun found => ih h (infix_of_cons (fun q rest' star eq => ?_) found)
    exact other m.spot q _ (congrArg (Mark.mk · m.spot) star) eq

theorem comment_tile {q : Position} {rest' : List Mark} (slash : m.char = '/')
    (h : skipComment rest = some rest') :
    ∃ taken, ⟨'*', q⟩ :: rest = taken ++ rest' ∧ Tile d (m :: taken) [] := by
  obtain ⟨body, p, p', rfl, none⟩ := skipComment_eq_some h
  refine ⟨⟨'*', q⟩ :: (body ++ [⟨'*', p⟩, ⟨'/', p'⟩]), by simp, .blank ?_⟩
  have comment := Blank.comment none
  simpa [slash] using comment

/-! ## One step through code -/

variable (d) in
/-- The step reads a piece of code, or the brackets that close it. -/
def Step.Tiles (m : Mark) (rest : List Mark) (s : Step) : Prop :=
  ∃ taken, rest = taken ++ s.rest ∧
    ((s.closed = false ∧ Tile d (m :: taken) s.lexemes) ∨
      (s.closed = true ∧ m.char = ']' ∧ ∃ q, taken = [q] ∧ q.char = ']' ∧
        s.lexemes = [⟨.ok .closeCode, m.extent d [q]⟩]))

namespace Step.Tiles

variable {lexemes : List Lexeme} {depth : Nat} {rest' taken : List Mark}

theorem goesOn (eq : rest = taken ++ rest') (tile : Tile d (m :: taken) lexemes) :
    Tiles d m rest ⟨lexemes, rest', depth, false⟩ :=
  ⟨taken, eq, .inl ⟨rfl, tile⟩⟩

theorem one (tile : Tile d [m] lexemes) : Tiles d m rest ⟨lexemes, rest, depth, false⟩ :=
  ⟨[], rfl, .inl ⟨rfl, tile⟩⟩

end Step.Tiles

theorem step_tiles (depth : Nat) (m : Mark) (rest : List Mark) :
    (step d depth m rest).Tiles d m rest := by
  have span (kind : Mark → Bool) (ms : List Mark) : ms = ms.takeWhile kind ++ ms.dropWhile kind :=
    List.takeWhile_append_dropWhile.symm
  unfold step
  dsimp only
  split
  · next blank =>
    refine .one (.blank ?_)
    rcases blank with c | c
    · rw [List.map_singleton, c]
      exact .space
    · rw [List.map_singleton, c]
      exact .tab
  split
  · next ends => exact .goesOn (span _ _) (lineBreak_tile ends)
  split
  · next c =>
    split
    · next q rest' opens =>
      obtain rfl := follows_eq_some opens
      refine ⟨[_], rfl, .inl ⟨rfl, .fault ?_ (List.mem_cons_of_mem _ List.mem_cons_self)⟩⟩
      rw [List.map_cons, c]
      exact .nestedOpen
    · exact .one (sign_tile (by rw [c]; rfl) trivial)
  · next c =>
    split
    · exact .one (sign_tile (by rw [c]; rfl) trivial)
    · split
      · next q rest' closes =>
        obtain rfl := follows_eq_some closes
        exact ⟨[_], rfl, .inr ⟨rfl, c, _, rfl, rfl, rfl⟩⟩
      · exact .one (sign_tile (by rw [c]; rfl) trivial)
  · next c =>
    split
    · next q rest' star =>
      obtain rfl := follows_eq_some star
      split
      · next rest'' closed =>
        obtain ⟨taken, eq, tile⟩ := comment_tile c closed
        exact .goesOn eq tile
      · next unclosed =>
        refine .goesOn (List.append_nil _).symm (.fault ?_ List.mem_cons_self)
        rw [List.map_cons, c, List.map_cons]
        exact .unterminatedComment (skipComment_eq_none unclosed)
    · exact .one (sign_tile (by rw [c]; rfl) trivial)
  · next c =>
    obtain ⟨taken, eq, tile⟩ := signs_tile (d := d) (m := m) .less
      [('<', .shiftLeft), ('=', .lessEqual), ('>', .notEquals)] rest
      (by rw [c]; exact ⟨rfl, trivial⟩) (by rw [c]; simp [Token.sign?, Token.Writable])
    exact .goesOn eq tile
  · next c =>
    obtain ⟨taken, eq, tile⟩ := signs_tile (d := d) (m := m) .greater
      [('>', .shiftRight), ('=', .greaterEqual)] rest
      (by rw [c]; exact ⟨rfl, trivial⟩) (by rw [c]; simp [Token.sign?, Token.Writable])
    exact .goesOn eq tile
  · next c =>
    obtain ⟨taken, eq, tile⟩ := shortLabel_tile (d := d) c rest
    exact .goesOn eq tile
  · next c =>
    have form : (['$'], 16) ∈ numeralForms := by decide
    exact .goesOn (span _ _) (number_tile [m] form (by simp [c]) rfl)
  · next c =>
    have form : (['%'], 2) ∈ numeralForms := by decide
    exact .goesOn (span _ _) (number_tile [m] form (by simp [c]) rfl)
  · split
    · next t found =>
      obtain ⟨spelled, writable⟩ := single?_sign found
      exact .one (sign_tile spelled writable)
    · split
      · next digit =>
        split
        · next n rest' zero =>
          split
          · next hex =>
            have form : (['0', n.char], 16) ∈ numeralForms := by
              rcases hex with hex | hex <;> rw [hex] <;> decide
            exact ⟨n :: _, congrArg (n :: ·) (span _ _),
              .inl ⟨rfl, number_tile [m, n] form (by simp [zero]) rfl⟩⟩
          split
          · next binary =>
            have form : (['0', n.char], 2) ∈ numeralForms := by
              rcases binary with binary | binary <;> rw [binary] <;> decide
            exact ⟨n :: _, congrArg (n :: ·) (span _ _),
              .inl ⟨rfl, number_tile [m, n] form (by simp [zero]) rfl⟩⟩
          · exact .goesOn (span _ _) (decimal_tile digit)
        · exact .goesOn (span _ _) (decimal_tile digit)
      · split
        · next start => exact .goesOn (span _ _) (wordToken_tile start)
        · exact .one (.fault (.badChar _) List.mem_cons_self)

/-! ## Whole scripts -/

/-- Code is tiled up to the end of the script, or by what follows it once it is closed. -/
theorem code_tiled (depth : Nat) (ms : List Mark) :
    match code d depth ms with
    | (read, none) => Tiled d true ms read
    | (read, some rest) => ∀ more, Tiled d false rest more → Tiled d true ms (read ++ more) := by
  fun_induction code d depth ms with
  | case1 => exact .ends
  | case2 depth m ms s closed =>
    intro more behind
    obtain ⟨taken, eq, goesOn | ⟨-, first, q, rfl, second, lexemes⟩⟩ :=
      step_tiles (d := d) depth m ms
    · exact absurd closed (by simp [s, goesOn.1])
    · rw [eq, show s.lexemes = _ from lexemes]
      exact .closes first second behind
  | case3 depth m ms s closed more behind read ih =>
    obtain ⟨taken, eq, ⟨-, tile⟩ | closes⟩ := step_tiles (d := d) depth m ms
    · rw [read] at ih
      rw [eq, ← List.cons_append]
      cases behind with
      | none => exact .piece tile ih
      | some rest =>
        intro others later
        rw [List.append_assoc]
        exact .piece tile (ih others later)
    · exact absurd closes.1 closed

/-- Some characters stand before the next brackets that open code. -/
theorem exists_stretch (marks : List Mark) : ∃ ms rest, marks = ms ++ rest ∧ Stretch ms rest := by
  induction marks with
  | nil => exact ⟨[], [], rfl, .inl rfl, by simp⟩
  | cons m marks ih =>
    cases opened : opens (m :: marks) 0 with
    | true => exact ⟨[], m :: marks, rfl, .inr opened, by simp⟩
    | false =>
      obtain ⟨ms, rest, rfl, ends, first⟩ := ih
      refine ⟨m :: ms, rest, rfl, ends, fun i lt => ?_⟩
      cases i with
      | zero => exact opened
      | succ i => exact first i (Nat.lt_of_succ_lt_succ lt)

/-- The first and the last of the numbers that give something. -/
theorem bounds_collect {f : List Mark → Nat → Option Position} {first last : Position}
    (h : bounds (collect f ms) = some (first, last)) :
    ∃ i j, f ms i = some first ∧ f ms j = some last ∧
      ∀ k < ms.length, (f ms k).isSome = true → i ≤ k ∧ k ≤ j := by
  obtain ⟨_, head, h⟩ := Option.bind_eq_some_iff.mp h
  obtain ⟨_, tail, e⟩ := Option.map_eq_some_iff.mp h
  obtain ⟨rfl, rfl⟩ := Prod.mk.inj e
  rw [collect, List.head?_filterMap] at head
  rw [collect, List.getLast?_filterMap] at tail
  obtain ⟨below, i, behind, numbers, hi, none⟩ := List.findSome?_eq_some_iff.mp head
  obtain ⟨above, j, before, numbers', hj, none'⟩ := List.findSome?_eq_some_iff.mp tail
  have sorted := List.pairwise_lt_range (n := ms.length)
  refine ⟨i, j, hi, hj, fun k lt given => ⟨?_, ?_⟩⟩
  · have mem : k ∈ below ++ i :: behind := numbers ▸ List.mem_range.mpr lt
    rw [numbers] at sorted
    rcases List.mem_append.mp mem with mem | mem
    · simp [none k mem] at given
    · rcases List.mem_cons.mp mem with rfl | mem
      · exact Nat.le_refl k
      · exact Nat.le_of_lt ((List.pairwise_cons.mp (List.pairwise_append.mp sorted).2.1).1 k mem)
  · have mem : k ∈ above ++ j :: before :=
      numbers' ▸ List.mem_reverse.mpr (List.mem_range.mpr lt)
    rw [← List.pairwise_reverse, numbers'] at sorted
    rcases List.mem_append.mp mem with mem | mem
    · simp [none' k mem] at given
    · rcases List.mem_cons.mp mem with rfl | mem
      · exact Nat.le_refl k
      · exact Nat.le_of_lt ((List.pairwise_cons.mp (List.pairwise_append.mp sorted).2.1).1 k mem)

theorem spotAt_eq_some {i : Nat} {p : Position} : spotAt ms i = some p ↔
    ∃ m, ms[i]? = some m ∧ m.spot = p ∧ m.char ≠ '\x00' ∧ inPair ms i = false := by
  have zero (c : Char) : c.toNat = 0 ↔ c = '\x00' := by
    rw [← Char.toNat_inj]
    rfl
  unfold spotAt
  cases inPair ms i with
  | true => simp
  | false =>
    cases found : ms[i]? with
    | none => simp
    | some m => simp [zero, and_comm]

theorem counts_iff {i : Nat} : Counts ms i ↔ (spotAt ms i).isSome = true := by
  rw [Option.isSome_iff_exists]
  constructor
  · rintro ⟨c, spelled, other, alone⟩
    obtain ⟨m, found, rfl⟩ := Option.map_eq_some_iff.mp spelled
    exact ⟨m.spot, spotAt_eq_some.mpr ⟨m, found, rfl, other, alone⟩⟩
  · rintro ⟨p, spot⟩
    obtain ⟨m, found, -, other, alone⟩ := spotAt_eq_some.mp spot
    exact ⟨m.char, by rw [charAt, found, Option.map_some], other, alone⟩

/-- Only a character that counts gives a byte. -/
theorem counts_of_codeAt {i : Nat} (h : (codeAt ms i).isSome = true) : Counts ms i := by
  unfold codeAt at h
  split at h
  · contradiction
  · next alone =>
    simp only [Bool.or_eq_true, not_or, Bool.not_eq_true] at alone
    obtain ⟨b, h⟩ := Option.isSome_iff_exists.mp h
    obtain ⟨c, spelled, code⟩ := Option.bind_eq_some_iff.mp h
    refine ⟨c, spelled, ?_, alone.1⟩
    rintro rfl
    simp [Text.encode] at code

theorem textOf_told (ms : List Mark) : Told d ms (textOf d ms) := by
  unfold textOf
  split
  · next first last found =>
    split
    · next none => exact .nothing (List.isEmpty_iff.mp none)
    · obtain ⟨i, j, hi, hj, between⟩ := bounds_collect found
      obtain ⟨m, hm, rfl, -⟩ := spotAt_eq_some.mp hi
      obtain ⟨n, hn, rfl, -⟩ := spotAt_eq_some.mp hj
      refine .text hm hn (counts_iff.mpr (by simp [hi])) (counts_iff.mpr (by simp [hj])) ?_
      intro k counts
      have lt : k < ms.length := by
        obtain ⟨c, spelled, -⟩ := counts
        obtain ⟨m, found, -⟩ := Option.map_eq_some_iff.mp spelled
        exact (List.getElem?_eq_some_iff.mp found).1
      exact between k lt (counts_iff.mp counts)
  · next none =>
    refine .nothing (List.eq_nil_iff_forall_not_mem.mpr fun b mem => ?_)
    -- a byte would come from a character with a place
    obtain ⟨i, lt, code⟩ := List.mem_filterMap.mp mem
    have counts := counts_of_codeAt (Option.isSome_of_mem code)
    obtain ⟨p, spot⟩ := Option.isSome_iff_exists.mp (counts_iff.mp counts)
    have placed : p ∈ collect spotAt ms := List.mem_filterMap.mpr ⟨i, lt, spot⟩
    obtain ⟨first, spots, eq⟩ := List.exists_cons_of_ne_nil (List.ne_nil_of_mem placed)
    rw [eq, bounds_cons] at none
    contradiction

theorem scanFrom_tiled (ms : List Mark) : Tiled d false ms (scanFrom d ms) := by
  induction ms using scanFrom.induct d with
  | case1 ms _ ih =>
    have ih : ∀ first last rest, (Scanner.prose d ms).next = some (first, last, rest) →
        ∀ inner rest', code d 0 rest = (inner, some rest') → Tiled d false rest' _ := ih
    obtain ⟨prose, rest, rfl, stretch⟩ := exists_stretch ms
    have next := next_of_stretch (d := d) stretch
    have read := lexemes_of_stretch (d := d) stretch
    have told := textOf_told (d := d) prose
    rcases rest with _ | ⟨p, _ | ⟨q, rest⟩⟩
    · rw [scanFrom_of_end next, read, List.append_nil]
      exact .prose stretch told
    · simpa [opens, charAt] using stretch.ends
    · have inside := code_tiled (d := d) 0 rest
      rcases hc : code d 0 rest with ⟨inner, _ | rest'⟩
      · rw [hc] at inside
        rw [scanFrom_of_open next hc, read]
        exact .opens stretch told inside
      · rw [hc] at inside
        rw [scanFrom_of_closed next hc, read]
        exact .opens stretch told (inside _ (ih p.spot q.spot rest next inner rest' hc))

/-! ## The order of tokens -/

/-- The lexeme stands at some of the characters. -/
def Within (ms : List Mark) (l : Lexeme) : Prop :=
  ∃ first ∈ ms, ∃ last ∈ ms, first.spot ≤ last.spot ∧ l.place.start = first.spot ∧
    l.place.stop = last.spot.advance

/-- The tokens among lexemes. -/
def tokens (ls : List Lexeme) : List Lexeme := ls.filter (·.value.isOk)

/-- Tokens stand at the characters, and none reaches to the next. -/
structure Ordered (ms : List Mark) (ls : List Lexeme) : Prop where
  within : ∀ l ∈ tokens ls, Within ms l
  apart : (tokens ls).Pairwise fun a b => a.place.stop ≤ b.place.start

namespace Ordered

variable {before after : List Lexeme}

theorem append (h : Ordered ms before) (h' : Ordered rest after)
    (apart : ∀ m ∈ ms, ∀ n ∈ rest, m.Before n) : Ordered (ms ++ rest) (before ++ after) where
  within l mem := by
    rw [tokens, List.filter_append, List.mem_append] at mem
    rcases mem with mem | mem
    · obtain ⟨first, hfirst, last, hlast, place⟩ := h.within l mem
      exact ⟨first, List.mem_append_left _ hfirst, last, List.mem_append_left _ hlast, place⟩
    · obtain ⟨first, hfirst, last, hlast, place⟩ := h'.within l mem
      exact ⟨first, List.mem_append_right _ hfirst, last, List.mem_append_right _ hlast, place⟩
  apart := by
    rw [tokens, List.filter_append]
    refine List.pairwise_append.mpr ⟨h.apart, h'.apart, fun a ha b hb => ?_⟩
    obtain ⟨-, -, last, hlast, -, -, stop⟩ := h.within a ha
    obtain ⟨first, hfirst, -, -, -, start, -⟩ := h'.within b hb
    rw [stop, start]
    exact apart last hlast first hfirst

theorem of_errors (h : ∀ l ∈ before, l.value.isOk = false) : Ordered ms before := by
  have none : tokens before = [] := List.filter_eq_nil_iff.mpr fun l mem => by simp [h l mem]
  constructor <;> simp [none]

theorem single {l : Lexeme} (h : Within ms l) : Ordered ms [l] where
  within _ mem := List.mem_singleton.mp (List.mem_filter.mp mem).1 ▸ h
  apart := (List.pairwise_singleton _ l).sublist List.filter_sublist

/-- Errors in front of something change nothing. -/
theorem behind_errors (h : ∀ l ∈ before, l.value.isOk = false) (h' : Ordered ms after) :
    Ordered ms (before ++ after) := by
  have same : tokens (before ++ after) = tokens after := by
    rw [tokens, List.filter_append, List.filter_eq_nil_iff.mpr fun l mem => by simp [h l mem],
      List.nil_append, tokens]
  constructor
  · rw [same]
    exact h'.within
  · rw [same]
    exact h'.apart

/-- No two tokens start at one place. -/
theorem nodup (h : Ordered ms before) : ((tokens before).map (·.place.start)).Nodup := by
  refine List.pairwise_map.mpr (h.apart.imp_of_mem fun {a b} ha _ le => ?_)
  obtain ⟨first, -, last, -, reaches, start, stop⟩ := h.within a ha
  rw [stop] at le
  rw [start]
  exact ne_of_lt (lt_of_le_of_lt reaches (lt_of_lt_of_le last.spot.lt_advance le))

end Ordered

theorem within_extent {x : Item} (sorted : (m :: ms).Pairwise Mark.Before) :
    Within (m :: ms) ⟨x, m.extent d ms⟩ := by
  have last := List.getLast_mem (List.cons_ne_nil m ms)
  refine ⟨m, List.mem_cons_self, _, last, ?_, rfl, rfl⟩
  rcases List.mem_cons.mp last with same | later
  · rw [same]
  · exact le_of_lt ((List.pairwise_cons.mp sorted).1 _ later).lt

theorem Tile.ordered {read : List Lexeme} (h : Tile d ms read) (sorted : ms.Pairwise Mark.Before) :
    Ordered ms read := by
  cases h with
  | blank => exact .of_errors (List.forall_mem_nil _)
  | token => exact .single (within_extent sorted)
  | @overflow _ m ms =>
    have error : ∀ l ∈ [(⟨.error .numberOverflow, m.extent d ms⟩ : Lexeme)], l.value.isOk = false :=
      List.forall_mem_singleton.mpr rfl
    exact .behind_errors error (.single (within_extent sorted))
  | fault => exact .of_errors (List.forall_mem_singleton.mpr rfl)

theorem Told.ordered {text : List Lexeme} (h : Told d ms text) (sorted : ms.Pairwise Mark.Before) :
    Ordered ms text := by
  cases h with
  | nothing => exact .of_errors (List.forall_mem_nil _)
  | @text i j first last hfirst hlast counts _ between =>
    refine .single
      ⟨first, List.mem_of_getElem? hfirst, last, List.mem_of_getElem? hlast, ?_, rfl, rfl⟩
    obtain ⟨hi, rfl⟩ := List.getElem?_eq_some_iff.mp hfirst
    obtain ⟨hj, rfl⟩ := List.getElem?_eq_some_iff.mp hlast
    rcases Nat.eq_or_lt_of_le (between i counts).2 with rfl | lt
    · exact le_refl _
    · exact le_of_lt (List.pairwise_iff_getElem.mp sorted i j hi hj lt).lt

theorem isOk_of_faultAt {l : Lexeme} (h : l ∈ collect (faultAt d) ms) : l.value.isOk = false := by
  obtain ⟨i, -, fault⟩ := List.mem_filterMap.mp h
  unfold faultAt at fault
  split at fault
  · obtain ⟨m, -, fault⟩ := Option.bind_eq_some_iff.mp fault
    obtain ⟨n, -, rfl⟩ := Option.map_eq_some_iff.mp fault
    rfl
  · obtain ⟨m, -, fault⟩ := Option.bind_eq_some_iff.mp fault
    repeat' split at fault
    all_goals first
      | contradiction
      | obtain rfl := Option.some.inj fault
        rfl

/-- Tokens that stand one behind the other have places one behind the other. -/
theorem Tiled.ordered {inCode : Bool} {ls : List Lexeme} (h : Tiled d inCode ms ls)
    (sorted : ms.Pairwise Mark.Before) : Ordered ms ls := by
  induction h with
  | prose _ told => exact .behind_errors (fun l => isOk_of_faultAt) (told.ordered sorted)
  | @opens ms rest p q text more _ told _ ih =>
    obtain ⟨first, second, apart⟩ := List.pairwise_append.mp sorted
    have prose : Ordered ms (collect (faultAt d) ms ++ text) :=
      .behind_errors (fun l => isOk_of_faultAt) (told.ordered first)
    obtain ⟨brackets, others, behind⟩ :=
      List.pairwise_append.mp (show ([p, q] ++ rest).Pairwise _ from second)
    have opening := Ordered.single (within_extent (d := d) (x := .ok .openCode) brackets)
    exact prose.append (opening.append (ih others) behind) apart
  | piece tile _ ih =>
    obtain ⟨first, second, apart⟩ := List.pairwise_append.mp sorted
    exact (tile.ordered first).append (ih second) apart
  | @closes p q rest more _ _ _ ih =>
    obtain ⟨brackets, others, behind⟩ :=
      List.pairwise_append.mp (show ([p, q] ++ rest).Pairwise _ from sorted)
    have closing := Ordered.single (within_extent (d := d) (x := .ok .closeCode) brackets)
    exact closing.append (ih others) behind
  | ends => exact .of_errors (List.forall_mem_singleton.mpr rfl)

theorem scan_ordered (d : Document) : Ordered d.marks d.scan :=
  (scanFrom_tiled d.marks).ordered (Mark.placed_apart _ _)

/-- Tokens have the places of their characters, in order. The line of a character is told by the
line ends before it, and positions go up along the script. The script is made of pieces of which
each is read as a token at its characters, as an error, or as nothing. A token does not reach to the
next one, so no two tokens start at one place. -/
theorem scan_located (d : Document) :
    d.marks.map (·.char) = d.text.toList ∧
    (∀ i m, d.marks[i]? = some m → m.spot.line = 1 + lineEndsBefore d.text.toList i) ∧
    d.marks.Pairwise (fun m n => m.spot < n.spot) ∧
    Tiled d false d.marks d.scan ∧
    (tokens d.scan).Pairwise (fun a b => a.place.stop ≤ b.place.start) ∧
    ((tokens d.scan).map (·.place.start)).Nodup :=
  ⟨Mark.map_char_placed _ _, fun _ _ h => Mark.line_of_placed h,
    (Mark.placed_apart _ _).imp Mark.Before.lt, scanFrom_tiled _, (scan_ordered d).apart,
    (scan_ordered d).nodup⟩

end Scanner

end Gamebook
