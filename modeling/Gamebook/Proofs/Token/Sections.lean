import Mathlib.Data.List.Induction
import Gamebook.Token.Scanner

/-!
# Prose and code in the tokens of a script

The tokens and errors of a script come in sections: prose is a stretch of errors and at most one
text, code is what stands between `[[` and `]]`. `Leads` says what may stand where and where it leads;
reading a script never leaves that order, and it ends inside code only by saying so (`run_prose`,
`run_code`, `run_scanFrom`).

What is inside and outside of code can then be read off the brackets alone: they alternate, and the
last one before a place says which it is (`InCode`). `scan_sectioned` says what stands where.
-/

namespace Gamebook

/-- A token that stands only between the brackets of code. -/
def Token.isInner : Token → Bool
  | .text _ | .openCode | .closeCode => false
  | _ => true

/-- An error that is met only in code. -/
def ScanError.isInner : ScanError → Bool
  | .missingDigit | .missingLabel | .numberOverflow | .nestedOpen | .unterminatedComment
  | .reservedLabel _ => true
  | _ => false

/-- An error that is met only in prose. -/
def ScanError.isOuter : ScanError → Bool
  | .unmatchedClose | .unencodable _ => true
  | _ => false

@[simp] theorem Lexeme.value_token (d : Document) (t : Token) (first last : Position) :
    (Lexeme.token d t first last).value = .ok t := rfl

namespace Scanner

/-- What is read at a place. -/
abbrev Item := Except ScanError Token

/-- The bracket that an item is. -/
def delimiter? : Item → Option Token
  | .ok .openCode => some .openCode
  | .ok .closeCode => some .closeCode
  | _ => none

/-- The brackets around code, in order. -/
def delimiters (items : List Item) : List Token := items.filterMap delimiter?

/-- What follows the items stands inside code: the last bracket opens it. -/
def InCode (items : List Item) : Prop := (delimiters items).getLast? = some .openCode

/-! ## The order of items -/

/-- Where a script was read up to. -/
inductive Mode where
  /-- In prose whose text is not given yet. -/
  | prose
  /-- Behind the text of a stretch of prose. -/
  | told
  | code
  /-- At the end of the script, inside code. -/
  | unfinished
deriving DecidableEq

/-- What may stand where, and where it leads. -/
inductive Leads : Mode → Item → Mode → Prop
  | text {bytes : List UInt8} : bytes ≠ [] → 0 ∉ bytes → Leads .prose (.ok (.text bytes)) .told
  | openProse : Leads .prose (.ok .openCode) .code
  | openTold : Leads .told (.ok .openCode) .code
  | closeCode : Leads .code (.ok .closeCode) .prose
  | inner {t : Token} : t.isInner = true → Leads .code (.ok t) .code
  | outerBad (c : Char) : Leads .prose (.error (.badChar c)) .prose
  | outerError {e : ScanError} : e.isOuter = true → Leads .prose (.error e) .prose
  | innerBad (c : Char) : Leads .code (.error (.badChar c)) .code
  | innerError {e : ScanError} : e.isInner = true → Leads .code (.error e) .code
  | unterminated : Leads .code (.error .unterminatedCode) .unfinished

/-- What may stand there one after the other, and where it leads. -/
inductive Run : Mode → List Item → Mode → Prop
  | nil (m : Mode) : Run m [] m
  | cons {m m' m'' : Mode} {x : Item} {items : List Item} :
    Leads m x m' → Run m' items m'' → Run m (x :: items) m''

/-- Inside code, finished or not. -/
def Mode.isInside : Mode → Bool
  | .code | .unfinished => true
  | .prose | .told => false

namespace Run

variable {m m' m'' : Mode} {x : Item} {items before after : List Item}

theorem append (h : Run m before m') (h' : Run m' after m'') : Run m (before ++ after) m'' := by
  induction h with
  | nil => exact h'
  | cons leads _ ih => exact .cons leads (ih h')

theorem split (h : Run m (before ++ after) m'') :
    ∃ m', Run m before m' ∧ Run m' after m'' := by
  induction before generalizing m with
  | nil => exact ⟨m, .nil m, h⟩
  | cons x before ih =>
    obtain _ | ⟨leads, h⟩ := h
    obtain ⟨m', hbefore, hafter⟩ := ih h
    exact ⟨m', .cons leads hbefore, hafter⟩

/-- Where an item stands. -/
theorem at_item (h : Run m (before ++ x :: after) m'') :
    ∃ here there, Run m before here ∧ Leads here x there ∧ Run there after m'' := by
  obtain ⟨here, hbefore, h⟩ := h.split
  obtain _ | ⟨leads, hafter⟩ := h
  exact ⟨here, _, hbefore, leads, hafter⟩

/-- Items that lead nowhere else. -/
theorem of_forall (h : ∀ x ∈ items, Leads m x m) : Run m items m := by
  induction items with
  | nil => exact .nil m
  | cons x items ih =>
    obtain ⟨hx, hitems⟩ := List.forall_mem_cons.mp h
    exact .cons hx (ih hitems)

/-- The text of a stretch is told once: before there may be another, code is opened. -/
theorem opens_of_told (h : Run .told items .prose) : .ok .openCode ∈ items := by
  obtain _ | ⟨leads, -⟩ := h
  cases leads
  exact List.mem_cons_self

theorem nil_of_unfinished (h : Run .unfinished items m) : items = [] := by
  cases h with
  | nil => rfl
  | cons leads _ => cases leads

end Run

/-! ## Brackets -/

/-- The `k`th bracket, if they alternate. -/
def bracket (k : Nat) : Token := if k % 2 = 0 then .openCode else .closeCode

/-- A bracket leads from one side to the other, and nothing else does. -/
theorem Leads.sides {m m' : Mode} {x : Item} (h : Leads m x m') :
    (delimiter? x = none ∧ m'.isInside = m.isInside) ∨
      (delimiter? x = some .openCode ∧ m.isInside = false ∧ m'.isInside = true) ∨
      (delimiter? x = some .closeCode ∧ m.isInside = true ∧ m'.isInside = false) := by
  cases h with
  | inner inner =>
    refine .inl ⟨?_, rfl⟩
    unfold delimiter?
    split <;> simp_all [Token.isInner]
  | openProse => exact .inr (.inl ⟨rfl, rfl, rfl⟩)
  | openTold => exact .inr (.inl ⟨rfl, rfl, rfl⟩)
  | closeCode => exact .inr (.inr ⟨rfl, rfl, rfl⟩)
  | text | outerBad | outerError | innerBad | innerError | unterminated => exact .inl ⟨rfl, rfl⟩

/-- The brackets alternate, and an odd number of them leads inside. -/
theorem Run.brackets {m : Mode} {items : List Item} (h : Run .prose items m) :
    ∃ n, delimiters items = (List.range n).map bracket ∧ (n % 2 = 1 ↔ m.isInside = true) := by
  induction items using List.reverseRecOn generalizing m with
  | nil =>
    cases h
    exact ⟨0, rfl, by decide⟩
  | append_singleton items x ih =>
    obtain ⟨here, there, hitems, leads, rest⟩ := h.at_item
    cases rest
    obtain ⟨n, eq, odd⟩ := ih hitems
    have more (t : Token) (ht : delimiter? x = some t) (hn : bracket n = t) :
        delimiters (items ++ [x]) = (List.range (n + 1)).map bracket := by
      rw [List.range_succ, List.map_append, ← eq, List.map_singleton, hn]
      simp [delimiters, ht]
    rcases leads.sides with ⟨none, same⟩ | ⟨opens, outside, inside⟩ | ⟨closes, inside, outside⟩
    · exact ⟨n, by simpa [delimiters, none] using eq, by rw [odd, same]⟩
    · rw [outside] at odd
      have even : n % 2 = 0 := by simpa using odd
      exact ⟨n + 1, more _ opens (by simp [bracket, even]), by simp [inside]; omega⟩
    · rw [inside] at odd
      have odd : n % 2 = 1 := by simpa using odd
      exact ⟨n + 1, more _ closes (by simp [bracket, odd]), by simp [outside]; omega⟩

/-- The last bracket says on which side a place is. -/
theorem Run.inCode_iff {m : Mode} {items : List Item} (h : Run .prose items m) :
    InCode items ↔ m.isInside = true := by
  obtain ⟨n, eq, odd⟩ := h.brackets
  rw [InCode, eq, ← odd]
  cases n with
  | zero => decide
  | succ n =>
    rw [List.range_succ, List.map_append, List.map_singleton, List.getLast?_concat]
    simp only [bracket, Option.some.injEq, ite_eq_left_iff, reduceCtorEq, imp_false]
    omega

/-! ## Code -/

/-- What may stand in code. -/
def IsInner (x : Item) : Prop := Leads .code x .code

variable (d : Document)

theorem single?_inner {c : Char} {t : Token} (h : single? c = some t) : t.isInner = true := by
  unfold single? at h
  split at h
  all_goals first
    | contradiction
    | exact Option.some.inj h ▸ rfl

theorem number_inner (start : Position) (base : Nat) (digits : List Mark) :
    ∀ l ∈ number d start base digits, IsInner l.value := by
  unfold number
  dsimp only
  split
  · rintro l (_ | ⟨_, ⟨⟩⟩)
    exact .innerError rfl
  · split
    · rintro l (_ | ⟨_, _ | ⟨_, ⟨⟩⟩⟩)
      · exact .innerError rfl
      · exact .inner rfl
    · rintro l (_ | ⟨_, ⟨⟩⟩)
      exact .inner rfl

theorem wordToken_inner (m : Mark) (rest : List Mark) : IsInner (wordToken d m rest).value := by
  unfold wordToken
  dsimp only
  split <;> exact .inner rfl

theorem shortLabel_inner (start : Position) (rest : List Mark) :
    ∀ l ∈ (shortLabel d start rest).1, IsInner l.value := by
  unfold shortLabel
  dsimp only
  repeat' split
  all_goals
    rintro l (_ | ⟨_, ⟨⟩⟩)
    first
      | exact .inner rfl
      | exact .innerError rfl

/-- A value found in a list is one of its values. -/
theorem mem_of_lookup {α : Type} {c : Char} {x : α} {pairs : List (Char × α)}
    (h : pairs.lookup c = some x) : (c, x) ∈ pairs := by
  obtain ⟨before, after, rfl, -⟩ := List.lookup_eq_some_iff.mp h
  simp

theorem sign_inner (m : Mark) {alone : Token} {pairs : List (Char × Token)} (rest : List Mark)
    (halone : alone.isInner = true) (hpairs : ∀ p ∈ pairs, p.2.isInner = true) :
    IsInner (sign d m alone pairs rest).1.value := by
  unfold sign
  repeat' split
  · next t found => exact .inner (hpairs _ (mem_of_lookup found))
  · exact .inner halone
  · exact .inner halone

/-- The step reads what may stand in code and goes on there, or it reads the bracket that closes
it. -/
def Step.Proper (s : Step) : Prop :=
  (s.closed = false ∧ ∀ l ∈ s.lexemes, IsInner l.value) ∨
    (s.closed = true ∧ s.lexemes.map (·.value) = [.ok .closeCode])

namespace Step.Proper

variable {lexemes : List Lexeme} {rest : List Mark} {depth : Nat}

theorem goesOn (h : ∀ l ∈ lexemes, IsInner l.value) : Proper ⟨lexemes, rest, depth, false⟩ :=
  .inl ⟨rfl, h⟩

theorem one {l : Lexeme} (h : IsInner l.value) : Proper ⟨[l], rest, depth, false⟩ :=
  goesOn (List.forall_mem_singleton.mpr h)

theorem none : Proper ⟨[], rest, depth, false⟩ := goesOn (List.forall_mem_nil _)

end Step.Proper

theorem step_proper (depth : Nat) (m : Mark) (rest : List Mark) :
    (step d depth m rest).Proper := by
  unfold step
  dsimp only
  split
  · exact .none
  split
  · exact .one (.inner rfl)
  split
  · split
    · exact .one (.innerError rfl)
    · exact .one (.inner rfl)
  · split
    · exact .one (.inner rfl)
    · split
      · exact .inr ⟨rfl, rfl⟩
      · exact .one (.inner rfl)
  · split
    · split
      · exact .none
      · exact .one (.innerError rfl)
    · exact .one (.inner rfl)
  · exact .one (sign_inner d m rest rfl (by decide))
  · exact .one (sign_inner d m rest rfl (by decide))
  · exact .goesOn (shortLabel_inner d _ _)
  · exact .goesOn (number_inner d _ _ _)
  · exact .goesOn (number_inner d _ _ _)
  · split
    · next t ht => exact .one (.inner (single?_inner ht))
    · split
      · split
        · repeat' split
          all_goals exact .goesOn (number_inner d _ _ _)
        · exact .goesOn (number_inner d _ _ _)
      · split
        · exact .one (wordToken_inner d _ _)
        · exact .one (.innerBad _)

/-- Code leads back to prose if it is closed, and to the end of the script if not. -/
theorem run_code (depth : Nat) (ms : List Mark) :
    Run .code ((code d depth ms).1.map (·.value))
      (if (code d depth ms).2.isSome then .prose else .unfinished) := by
  fun_induction code d depth ms with
  | case1 depth => exact .cons .unterminated (.nil _)
  | case2 depth m ms s closed =>
    rcases step_proper d depth m ms with ⟨goes_on, -⟩ | ⟨-, closes⟩
    · simp [s, goes_on] at closed
    · rw [closes]
      exact .cons .closeCode (.nil _)
  | case3 depth m ms s closed more behind read ih =>
    rcases step_proper d depth m ms with ⟨-, inner⟩ | ⟨closes, -⟩
    · rw [List.map_append]
      rw [read] at ih
      exact (Run.of_forall (List.forall_mem_map.mpr inner)).append ih
    · exact absurd closes closed

/-! ## Prose -/

/-- No character has the code that ends texts. -/
theorem encode_ne_zero {c : Char} {b : UInt8} (h : Text.encode c = some b) : b ≠ 0 := by
  have small {n : Nat} (hn : n ≠ 0) (lt : n < 256) : n.toUInt8 ≠ 0 := fun zero =>
    hn (by simpa [Nat.mod_eq_of_lt lt] using congrArg UInt8.toNat zero)
  unfold Text.encode at h
  split at h
  · contradiction
  split at h
  · next nonzero ascii => exact Option.some.inj h ▸ small nonzero (by omega)
  split at h
  · next i found =>
    have lt : i < 14 := (List.findIdx?_eq_some_iff_getElem.mp found).1
    exact Option.some.inj h ▸ small (by omega) (by omega)
  · obtain ⟨near, found, rfl⟩ := Option.map_eq_some_iff.mp h
    have drawn : ∀ p ∈ Text.approximations, p.2.toNat.toUInt8 ≠ 0 := by decide
    exact drawn _ (mem_of_lookup found)

/-- The errors of the stretch may stand in prose, and its text has an end. -/
structure Prose.Proper (p : Prose) : Prop where
  errors : ∀ l ∈ p.errors, Leads .prose l.value .prose
  bytes : 0 ∉ p.bytes

namespace Prose.Proper

variable {p : Prose}

theorem nil (next : Option (Position × Position × List Mark)) : (Prose.nil next).Proper :=
  ⟨List.forall_mem_nil _, List.not_mem_nil⟩

theorem fault (h : p.Proper) {e : Lexeme} (he : Leads .prose e.value .prose) :
    (p.fault e).Proper :=
  ⟨List.forall_mem_cons.mpr ⟨he, h.errors⟩, h.bytes⟩

theorem put (h : p.Proper) {b : UInt8} (hb : b ≠ 0) : (p.put b).Proper :=
  ⟨h.errors, List.not_mem_cons_of_ne_of_not_mem hb.symm h.bytes⟩

theorem touch (h : p.Proper) (spot : Position) : (p.touch spot).Proper := ⟨h.errors, h.bytes⟩

end Prose.Proper

theorem prose_proper (ms : List Mark) : (prose d ms).Proper := by
  fun_induction prose d ms with
  | case1 => exact .nil _
  | case2 p q rest => exact .nil _
  | case3 p q rest ih => exact ih.fault (.outerError rfl)
  | case4 p q rest ih => exact ((ih.touch q).touch p).put (by decide)
  | case5 c p rest _ _ _ _ ih => exact (ih.touch p).put (by decide)
  | case6 c p rest _ _ _ _ _ ih => exact ih.fault (.outerBad c)
  | case7 c p rest _ _ _ _ _ b encoded ih => exact (ih.touch p).put (encode_ne_zero encoded)
  | case8 c p rest _ _ _ _ _ _ ih => exact (ih.touch p).fault (.outerError rfl)

/-- A stretch of prose leads behind its text if it has one. -/
theorem run_prose (ms : List Mark) : ∃ m, (m = .prose ∨ m = .told) ∧
    Run .prose (((prose d ms).errors ++ (prose d ms).token? d).map (·.value)) m := by
  have proper := prose_proper d ms
  have errors := Run.of_forall (List.forall_mem_map.mpr proper.errors)
  rw [List.map_append]
  unfold Prose.token?
  split
  · split
    · exact ⟨.prose, .inl rfl, errors.append (.nil _)⟩
    · next some =>
      have text : Leads .prose (.ok (.text (prose d ms).bytes)) .told :=
        .text (by simpa using some) proper.bytes
      exact ⟨.told, .inr rfl, errors.append (.cons text (.nil _))⟩
  · exact ⟨.prose, .inl rfl, errors.append (.nil _)⟩

/-! ## Whole scripts -/

variable {d}

theorem scanFrom_of_end {ms : List Mark} (h : (prose d ms).next = none) :
    scanFrom d ms = (prose d ms).errors ++ (prose d ms).token? d := by
  rw [scanFrom]
  split
  · exact List.append_nil _
  · next found => simp [h] at found

theorem scanFrom_of_open {ms rest : List Mark} {p q : Position}
    (h : (prose d ms).next = some (p, q, rest)) {read : List Lexeme}
    (hc : code d 0 rest = (read, none)) :
    scanFrom d ms =
      (prose d ms).errors ++ (prose d ms).token? d ++ .token d .openCode p q :: read := by
  rw [scanFrom]
  split
  · next found => simp [h] at found
  · next found =>
    obtain ⟨rfl, rfl, rfl⟩ : p = _ ∧ q = _ ∧ rest = _ := by simpa [h] using found
    split
    · next hc' => rw [← (Prod.mk.inj (hc.symm.trans hc')).1]
    · next hc' => simp [hc] at hc'

theorem scanFrom_of_closed {ms rest rest' : List Mark} {p q : Position}
    (h : (prose d ms).next = some (p, q, rest)) {read : List Lexeme}
    (hc : code d 0 rest = (read, some rest')) :
    scanFrom d ms = (prose d ms).errors ++ (prose d ms).token? d ++
      .token d .openCode p q :: (read ++ scanFrom d rest') := by
  rw [scanFrom]
  split
  · next found => simp [h] at found
  · next found =>
    obtain ⟨rfl, rfl, rfl⟩ : p = _ ∧ q = _ ∧ rest = _ := by simpa [h] using found
    split
    · next hc' => simp [hc] at hc'
    · next hc' =>
      obtain ⟨rfl, rfl⟩ : read = _ ∧ rest' = _ := by simpa [hc] using hc'
      rfl

variable (d)

/-- A script never ends inside code without saying so. -/
theorem run_scanFrom (ms : List Mark) :
    ∃ m, m ≠ .code ∧ Run .prose ((scanFrom d ms).map (·.value)) m := by
  induction ms using scanFrom.induct d with
  | case1 ms p ih =>
    obtain ⟨m, side, stretch⟩ := run_prose d ms
    cases next : (prose d ms).next with
    | none =>
      rw [scanFrom_of_end next]
      exact ⟨m, by rcases side with rfl | rfl <;> decide, stretch⟩
    | some found =>
      obtain ⟨first, last, rest⟩ := found
      have opens : Leads m (.ok .openCode) .code := by
        rcases side with rfl | rfl
        · exact .openProse
        · exact .openTold
      have inside := run_code d 0 rest
      cases hc : code d 0 rest with
      | mk read behind =>
        rw [hc] at inside
        cases behind with
        | none =>
          rw [scanFrom_of_open next hc, List.map_append]
          exact ⟨.unfinished, by decide, stretch.append (.cons opens inside)⟩
        | some rest' =>
          obtain ⟨m', hm', more⟩ := ih first last rest next read rest' hc
          have closed := stretch.append (.cons opens (inside.append more))
          rw [scanFrom_of_closed next hc]
          exact ⟨m', hm', by simpa using closed⟩

/-! ## What stands where -/

/-- How prose and code share the items of a script. -/
structure Sectioned (items : List Item) : Prop where
  /-- Code is opened and closed in turn. -/
  alternate : ∀ k t, (delimiters items)[k]? = some t →
    t = if k % 2 = 0 then .openCode else .closeCode
  /-- Texts stand outside of code, are not empty and do not end before their end. -/
  text : ∀ before bytes after, items = before ++ .ok (.text bytes) :: after →
    ¬ InCode before ∧ bytes ≠ [] ∧ 0 ∉ bytes
  /-- Between two texts code is opened. -/
  apart : ∀ before bytes between bytes' after,
    items = before ++ .ok (.text bytes) :: (between ++ .ok (.text bytes') :: after) →
      .ok .openCode ∈ between
  /-- All other tokens but the brackets stand inside. -/
  inner : ∀ before t after, items = before ++ .ok t :: after → t.isInner = true → InCode before
  innerError : ∀ before e after, items = before ++ .error e :: after → e.isInner = true →
    InCode before
  outerError : ∀ before e after, items = before ++ .error e :: after → e.isOuter = true →
    ¬ InCode before
  /-- Code that is not closed is reported at the very end. -/
  unterminated : items.getLast? = some (.error .unterminatedCode) ↔ InCode items
  /-- It is reported nowhere else. -/
  last : ∀ before after, items = before ++ .error .unterminatedCode :: after → after = []

theorem Run.sectioned {m : Mode} {items : List Item} (h : Run .prose items m) (hm : m ≠ .code) :
    Sectioned items where
  alternate k t ht := by
    obtain ⟨n, eq, -⟩ := h.brackets
    rw [eq] at ht
    obtain ⟨lt, rfl⟩ := List.getElem?_eq_some_iff.mp ht
    simp [bracket]
  text before bytes after eq := by
    obtain ⟨here, there, hbefore, leads, -⟩ := (eq ▸ h).at_item
    rw [hbefore.inCode_iff]
    cases leads with
    | text some nonzero => exact ⟨by decide, some, nonzero⟩
    | inner inner => contradiction
  apart before bytes between bytes' after eq := by
    obtain ⟨here, there, -, leads, more⟩ := (eq ▸ h).at_item
    obtain ⟨here', there', between, leads', -⟩ := more.at_item
    cases leads with
    | text =>
      cases leads' with
      | text => exact between.opens_of_told
      | inner inner => contradiction
    | inner inner => contradiction
  inner before t after eq ht := by
    obtain ⟨here, there, hbefore, leads, -⟩ := (eq ▸ h).at_item
    rw [hbefore.inCode_iff]
    cases leads with
    | inner => rfl
    | text | openProse | openTold | closeCode => contradiction
  innerError before e after eq he := by
    obtain ⟨here, there, hbefore, leads, -⟩ := (eq ▸ h).at_item
    rw [hbefore.inCode_iff]
    cases leads with
    | innerError => rfl
    | outerError outer => cases e <;> contradiction
    | outerBad | innerBad | unterminated => contradiction
  outerError before e after eq he := by
    obtain ⟨here, there, hbefore, leads, -⟩ := (eq ▸ h).at_item
    rw [hbefore.inCode_iff]
    cases leads with
    | outerError => decide
    | innerError inner => cases e <;> contradiction
    | outerBad | innerBad | unterminated => contradiction
  unterminated := by
    rw [h.inCode_iff]
    constructor
    · intro last
      obtain ⟨before, eq⟩ := List.getLast?_eq_some_iff.mp last
      obtain ⟨here, there, -, leads, rest⟩ := (eq ▸ h).at_item
      cases rest
      cases leads with
      | unterminated => rfl
      | outerError | innerError => contradiction
    · intro inside
      cases m with
      | prose | told | code => contradiction
      | unfinished =>
        rcases List.eq_nil_or_concat items with rfl | ⟨before, x, rfl⟩
        · cases h
        · rw [List.concat_eq_append] at h ⊢
          obtain ⟨here, there, -, leads, rest⟩ := h.at_item
          cases rest
          cases leads
          exact List.getLast?_concat
  last before after eq := by
    obtain ⟨here, there, hbefore, leads, more⟩ := (eq ▸ h).at_item
    cases leads with
    | unterminated => exact more.nil_of_unfinished
    | outerError | innerError => contradiction

/-- What a script is read as keeps prose and code apart. -/
theorem scan_sectioned (d : Document) : Sectioned (d.scan.map (·.value)) := by
  obtain ⟨m, hm, run⟩ := run_scanFrom d d.marks
  exact run.sectioned hm

end Scanner

end Gamebook
