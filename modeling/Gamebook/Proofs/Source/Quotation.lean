import Mathlib
import Gamebook.Proofs.Source.Positions
import Gamebook.Report
import Gamebook.Token.Scanner

/-!
# The lines that reports quote

Lines are told apart twice. Positions start a line behind a line feed and behind a carriage return
on its own, while the stored lines of a document, which `lineAt` looks up, end at line feeds alone.
For the two to agree on a character, every return on its own has to stand behind the line feed that
ends its stored line (`Undisturbed`). Then what is quoted is the line of the character, the stretch
around it that no line end interrupts (`lineAround`). Over a whole document this is exact: all
characters have their own lines quoted if and only if none is disturbed (`quotes_iff_undisturbed`).

One direction looks at the last character that is not part of a line end. If it is disturbed, then
either its stored line runs on across a return, or the line looked up is a later one, where only
line ends are left.
-/

namespace Gamebook

/-- Whether a character is part of a line end. -/
def isLineEnd (c : Char) : Bool := c = '\n' || c = '\r'

/-- The longest stretch around the character with number `i` in which none is one to stop at. -/
def runAround (stops : Char → Bool) (cs : List Char) (i : Nat) : List Char :=
  ((cs.take i).reverse.takeWhile (!stops ·)).reverse ++ (cs.drop i).takeWhile (!stops ·)

/-- The line on which the character with number `i` stands. -/
def lineAround (cs : List Char) (i : Nat) : List Char := runAround isLineEnd cs i

/-- The character with number `i` is a carriage return that no line feed follows. -/
def LoneReturn (cs : List Char) (i : Nat) : Prop := cs[i]? = some '\r' ∧ cs[i + 1]? ≠ some '\n'

instance (cs : List Char) : DecidablePred (LoneReturn cs) :=
  fun _ => inferInstanceAs (Decidable (_ ∧ _))

/-- No carriage return on its own comes before the line feed that ends the line of the character. -/
def Undisturbed (cs : List Char) (i : Nat) : Prop :=
  ∀ j, LoneReturn cs j → ∃ k, i < k ∧ k < j ∧ cs[k]? = some '\n'

instance (cs : List Char) (i : Nat) : Decidable (Undisturbed cs i) :=
  decidable_of_iff (∀ j < cs.length, LoneReturn cs j → ∃ k < j, i < k ∧ cs[k]? = some '\n')
    ⟨fun h j lone => by
      obtain ⟨k, upper, lower, feed⟩ := h j (List.getElem?_eq_some_iff.mp lone.1).1 lone
      exact ⟨k, lower, upper, feed⟩,
    fun h j _ lone => by
      obtain ⟨k, lower, upper, feed⟩ := h j lone
      exact ⟨k, upper, lower, feed⟩⟩

/-! ## Stretches -/

/-- A text parted around the character with number `i`, into a stretch where nothing stops and what
stands on its sides. -/
structure IsRun (stops : Char → Bool) (cs front run back : List Char) (i : Nat) : Prop where
  split : cs = front ++ (run ++ back)
  le : front.length ≤ i
  lt : i < front.length + run.length
  clear : ∀ c ∈ run, stops c = false
  opens : ∀ c ∈ front.getLast?, stops c = true
  closes : ∀ c ∈ back.head?, stops c = true

section Runs

variable {stops : Char → Bool} {cs front run back : List Char} {i : Nat} {c : Char}

theorem takeWhile_eq_nil (h : ∀ c ∈ cs.head?, stops c = true) : cs.takeWhile (!stops ·) = [] := by
  cases cs with
  | nil => rfl
  | cons c _ => simp [h c rfl]

theorem head?_dropWhile (cs : List Char) :
    ∀ c ∈ (cs.dropWhile (!stops ·)).head?, stops c = true := by
  intro c mem
  have := List.head?_dropWhile_not (!stops ·) cs
  rw [Option.mem_def.mp mem] at this
  simpa using this

namespace IsRun

/-- There is one way only to part a text around a character. -/
theorem runAround_eq (h : IsRun stops cs front run back i) : runAround stops cs i = run := by
  obtain ⟨k, rfl⟩ := Nat.exists_eq_add_of_le h.le
  have within : k ≤ run.length := by
    have := h.lt
    omega
  have before : cs.take (front.length + k) = front ++ run.take k := by
    rw [h.split, List.take_length_add_append, List.take_append_of_le_length within]
  have behind : cs.drop (front.length + k) = run.drop k ++ back := by
    rw [h.split, List.drop_length_add_append, List.drop_append_of_le_length within]
  have left : front.reverse.takeWhile (!stops ·) = [] :=
    takeWhile_eq_nil (by rw [List.head?_reverse]; exact h.opens)
  rw [runAround, before, behind, List.reverse_append,
    List.takeWhile_append_of_pos (by simpa using fun c mem => h.clear c (List.mem_of_mem_take mem)),
    List.takeWhile_append_of_pos (by simpa using fun c mem => h.clear c (List.mem_of_mem_drop mem)),
    left, takeWhile_eq_nil h.closes]
  simp

theorem getElem?_eq (h : IsRun stops cs front run back i) : cs[i]? = run[i - front.length]? := by
  have inside : i - front.length < run.length := Nat.sub_lt_left_of_lt_add h.le h.lt
  rw [h.split, List.getElem?_append_right h.le, List.getElem?_append_left inside]

end IsRun

theorem isRun_runAround (is : cs[i]? = some c) (goes : stops c = false) :
    ∃ front back, IsRun stops cs front (runAround stops cs i) back i := by
  have inside : i < cs.length := (List.getElem?_eq_some_iff.mp is).1
  have next : cs.drop i = c :: cs.drop (i + 1) := by
    rw [List.drop_eq_getElem_cons inside, (List.getElem?_eq_some_iff.mp is).2]
  have parted : ((cs.take i).reverse.dropWhile (!stops ·)).reverse ++
      ((cs.take i).reverse.takeWhile (!stops ·)).reverse = cs.take i := by
    rw [← List.reverse_append, List.takeWhile_append_dropWhile, List.reverse_reverse]
  have lengths := congrArg List.length parted
  rw [List.length_append, List.length_take, Nat.min_eq_left (Nat.le_of_lt inside)] at lengths
  refine ⟨((cs.take i).reverse.dropWhile (!stops ·)).reverse, (cs.drop i).dropWhile (!stops ·),
    ?split, ?le, ?lt, ?clear, ?opens, head?_dropWhile _⟩
  case split =>
    rw [runAround, List.append_assoc, List.takeWhile_append_dropWhile, ← List.append_assoc, parted,
      List.take_append_drop]
  case le => omega
  case lt =>
    rw [runAround, List.length_append, next, List.takeWhile_cons_of_pos (by simpa using goes),
      List.length_cons]
    omega
  case clear =>
    intro c mem
    rcases List.mem_append.mp mem with mem | mem
    · simpa using List.mem_takeWhile_imp (List.mem_reverse.mp mem)
    · simpa using List.mem_takeWhile_imp mem
  case opens =>
    rw [List.getLast?_reverse]
    exact head?_dropWhile _

end Runs

theorem mem_lineAround {cs : List Char} {i : Nat} {c : Char} (is : cs[i]? = some c)
    (plain : isLineEnd c = false) : c ∈ lineAround cs i := by
  obtain ⟨front, back, run⟩ := isRun_runAround is plain
  rw [run.getElem?_eq] at is
  exact List.mem_of_getElem? is

theorem isLineEnd_of_mem_lineAround {cs : List Char} {i : Nat} {c b : Char} (is : cs[i]? = some c)
    (plain : isLineEnd c = false) (mem : b ∈ lineAround cs i) : isLineEnd b = false := by
  obtain ⟨front, back, run⟩ := isRun_runAround is plain
  exact run.clear b mem

/-! ## Stored lines -/

/-- A text parted into the stored line of the character with number `i` and what stands on its
sides. -/
structure StoredLine (cs front line rest : List Char) (i : Nat) : Prop where
  split : cs = front ++ (line ++ rest)
  le : front.length ≤ i
  lt : i < front.length + line.length
  noFeed : '\n' ∉ line
  opens : ∀ c ∈ front.getLast?, c = '\n'
  closes : rest = [] ∨ (line.getLast? ≠ some '\r' ∧ ∃ r, rest = '\n' :: r) ∨
    ∃ r, rest = '\r' :: '\n' :: r

theorem exists_storedLine {cs : List Char} {i : Nat} {c : Char} (is : cs[i]? = some c)
    (plain : isLineEnd c = false) : ∃ front line rest, StoredLine cs front line rest i := by
  have notFeed : (c == '\n') = false := by grind [isLineEnd]
  obtain ⟨front, back, run⟩ :
      ∃ front back, IsRun (· == '\n') cs front (runAround (· == '\n') cs i) back i :=
    isRun_runAround is notFeed
  generalize runAround (· == '\n') cs i = body at run
  have noFeed : '\n' ∉ body := fun mem => by simpa using run.clear _ mem
  have opens : ∀ c ∈ front.getLast?, c = '\n' := fun c mem => by simpa using run.opens c mem
  cases back with
  | nil => exact ⟨front, body, [], run.split, run.le, run.lt, noFeed, opens, .inl rfl⟩
  | cons b rest =>
    obtain rfl : b = '\n' := by simpa using run.closes b rfl
    by_cases ret : body.getLast? = some '\r'
    · obtain ⟨line, rfl⟩ := List.getLast?_eq_some_iff.mp ret
      refine ⟨front, line, '\r' :: '\n' :: rest, by simpa using run.split, run.le, ?_,
        fun mem => noFeed (List.mem_append_left _ mem), opens, .inr (.inr ⟨rest, rfl⟩)⟩
      -- the return at the end is not the character
      have lt := run.lt
      have stands := run.getElem?_eq.symm.trans is
      rw [List.length_append, List.length_singleton] at lt
      by_contra last
      have : i - front.length = line.length := by omega
      rw [this, List.getElem?_concat_length] at stands
      simp [← Option.some.inj stands, isLineEnd] at plain
    · exact ⟨front, body, '\n' :: rest, run.split, run.le, run.lt, noFeed, opens,
        .inr (.inl ⟨ret, rest, rfl⟩)⟩

namespace Document

theorem linesFrom_append {body : List Char} (noFeed : '\n' ∉ body) (reversed cs : List Char) :
    linesFrom reversed (body ++ cs) = linesFrom (body.reverse ++ reversed) cs := by
  induction body generalizing reversed with
  | nil => rfl
  | cons c body ih =>
    rw [List.mem_cons, not_or] at noFeed
    rw [List.cons_append, linesFrom, if_neg (Ne.symm noFeed.1), ih noFeed.2]
    simp

/-- Behind a line feed a new line starts, whatever came before. -/
theorem linesFrom_feed (reversed before cs : List Char) :
    ∃ ls, ls.length = (before ++ ['\n']).count '\n' ∧
      linesFrom reversed (before ++ '\n' :: cs) = ls ++ linesFrom [] cs := by
  induction before generalizing reversed with
  | nil => exact ⟨[_], by simp, rfl⟩
  | cons c before ih =>
    by_cases feed : c = '\n'
    · obtain ⟨ls, count, eq⟩ := ih []
      refine ⟨String.ofList (dropReturn reversed).reverse :: ls, by simp [feed, count], ?_⟩
      rw [List.cons_append, linesFrom, if_pos feed, eq, List.cons_append]
    · obtain ⟨ls, count, eq⟩ := ih (c :: reversed)
      exact ⟨ls, by simpa [feed] using count, by rw [List.cons_append, linesFrom, if_neg feed, eq]⟩

theorem mem_of_mem_linesFrom {reversed cs : List Char} {s : String} {c : Char}
    (mem : s ∈ linesFrom reversed cs) (is : c ∈ s.toList) : c ∈ reversed ∨ c ∈ cs := by
  induction cs generalizing reversed with
  | nil =>
    rw [linesFrom] at mem
    split at mem
    · contradiction
    · obtain rfl := List.mem_singleton.mp mem
      simpa using is
  | cons b cs ih =>
    rw [linesFrom] at mem
    split at mem
    · rcases List.mem_cons.mp mem with rfl | mem
      · rw [String.toList_ofList, List.mem_reverse] at is
        left
        unfold dropReturn at is
        split at is
        · exact List.mem_cons_of_mem _ is
        · exact is
      · have := ih mem
        simp_all
    · have := ih mem
      simp only [List.mem_cons] at *
      tauto

end Document

section Stored

variable {cs front stored rest : List Char} {i : Nat}

theorem linesFrom_of_opens {front : List Char} (opens : ∀ c ∈ front.getLast?, c = '\n')
    (cs : List Char) :
    ∃ ls, ls.length = front.count '\n' ∧
      Document.linesFrom [] (front ++ cs) = ls ++ Document.linesFrom [] cs := by
  cases last : front.getLast? with
  | none =>
    obtain rfl := List.getLast?_eq_none_iff.mp last
    exact ⟨[], rfl, rfl⟩
  | some c =>
    obtain ⟨before, rfl⟩ := List.getLast?_eq_some_iff.mp last
    obtain rfl := opens c last
    simpa using Document.linesFrom_feed [] before cs

namespace StoredLine

/-- What comes behind a stored line is read as lines of its own. -/
theorem linesFrom_eq (h : StoredLine cs front stored rest i) :
    ∃ behind ⊆ rest, Document.linesFrom [] (stored ++ rest) =
      String.ofList stored :: Document.linesFrom [] behind := by
  have nonempty : stored ≠ [] := by
    rintro rfl
    have := h.le
    have := h.lt
    simp at *
    omega
  rw [Document.linesFrom_append h.noFeed, List.append_nil]
  rcases h.closes with rfl | ⟨plain, r, rfl⟩ | ⟨r, rfl⟩
  · exact ⟨[], List.nil_subset _, by simp [Document.linesFrom, nonempty]⟩
  · refine ⟨r, List.subset_cons_self _ _, ?_⟩
    have kept : Document.dropReturn stored.reverse = stored.reverse := by
      unfold Document.dropReturn
      split
      · rename_i r eq
        rw [← List.head?_reverse, eq] at plain
        exact absurd rfl plain
      · rfl
    rw [Document.linesFrom, if_pos rfl, kept, List.reverse_reverse]
  · refine ⟨r, fun c mem => by simp [mem], ?_⟩
    rw [Document.linesFrom, if_neg (by decide), Document.linesFrom, if_pos rfl,
      Document.dropReturn, List.reverse_reverse]

/-- The stored lines, up to the one of the character and behind it. -/
theorem lines_eq (h : StoredLine cs front stored rest i) :
    ∃ before behind, before.length = front.count '\n' ∧ behind ⊆ rest ∧
      Document.linesFrom [] cs =
        before ++ String.ofList stored :: Document.linesFrom [] behind := by
  obtain ⟨before, count, eq⟩ := linesFrom_of_opens h.opens (stored ++ rest)
  obtain ⟨behind, within, eq'⟩ := h.linesFrom_eq
  exact ⟨before, behind, count, within, by rw [h.split, eq, eq']⟩

theorem getElem?_line (h : StoredLine cs front stored rest i) {k : Nat}
    (within : k < stored.length) : cs[front.length + k]? = stored[k]? := by
  rw [h.split, List.getElem?_append_right (Nat.le_add_right _ _), Nat.add_sub_cancel_left,
    List.getElem?_append_left within]

theorem getElem?_rest (h : StoredLine cs front stored rest i) (k : Nat) :
    cs[front.length + (stored.length + k)]? = rest[k]? := by
  rw [h.split, List.getElem?_append_right (Nat.le_add_right _ _), Nat.add_sub_cancel_left,
    List.getElem?_append_right (Nat.le_add_right _ _), Nat.add_sub_cancel_left]

/-- On the stored line of a character, no line feed stands before it. -/
theorem count_take (h : StoredLine cs front stored rest i) :
    (cs.take i).count '\n' = front.count '\n' := by
  obtain ⟨k, rfl⟩ := Nat.exists_eq_add_of_le h.le
  have within : k ≤ stored.length := by
    have := h.lt
    omega
  have none : (stored.take k).count '\n' = 0 :=
    List.count_eq_zero.mpr fun mem => h.noFeed (List.mem_of_mem_take mem)
  rw [h.split, List.take_length_add_append, List.take_append_of_le_length within,
    List.count_append, none, Nat.add_zero]

/-- A carriage return on a stored line is one on its own: the one of a line end is not
stored. -/
theorem loneReturn_of_mem (h : StoredLine cs front stored rest i) (ret : '\r' ∈ stored) :
    ∃ k < stored.length, LoneReturn cs (front.length + k) := by
  obtain ⟨k, within, stands⟩ := List.mem_iff_getElem.mp ret
  refine ⟨k, within, ?_, ?_⟩
  · rw [h.getElem?_line within, List.getElem?_eq_getElem within, stands]
  · intro feed
    rw [Nat.add_assoc] at feed
    by_cases inner : k + 1 < stored.length
    · rw [h.getElem?_line inner] at feed
      exact h.noFeed (List.mem_of_getElem? feed)
    · have last : k + 1 = stored.length := by omega
      rw [last, ← Nat.add_zero stored.length, h.getElem?_rest] at feed
      rcases h.closes with rfl | ⟨plain, r, rfl⟩ | ⟨r, rfl⟩
      · simp at feed
      · apply plain
        rw [List.getLast?_eq_getElem?, ← last, Nat.add_sub_cancel,
          List.getElem?_eq_getElem within, stands]
      · simp at feed

/-- Up to the next line feed, all returns on their own are on the stored line. -/
theorem mem_of_loneReturn (h : StoredLine cs front stored rest i) {j : Nat} (lone : LoneReturn cs j)
    (later : i < j) (noFeed : ∀ k, i < k → k < j → cs[k]? ≠ some '\n') : '\r' ∈ stored := by
  have le := h.le
  have lt := h.lt
  obtain ⟨k, rfl⟩ := Nat.exists_eq_add_of_le (show front.length ≤ j by omega)
  by_cases within : k < stored.length
  · exact List.mem_of_getElem? ((h.getElem?_line within).symm.trans lone.1)
  · exfalso
    obtain ⟨k, rfl⟩ := Nat.exists_eq_add_of_le (Nat.le_of_not_lt within)
    obtain ⟨ret, alone⟩ := lone
    rw [h.getElem?_rest] at ret
    rw [Nat.add_assoc, Nat.add_assoc, h.getElem?_rest] at alone
    rcases h.closes with rfl | ⟨-, r, rfl⟩ | ⟨r, rfl⟩
    · simp at ret
    · -- the line feed right behind the line comes before the return
      cases k with
      | zero => simp at ret
      | succ k =>
        exact noFeed (front.length + (stored.length + 0)) (by omega) (by omega) (h.getElem?_rest 0)
    · cases k with
      | zero => simp at alone
      | succ k =>
        cases k with
        | zero => simp at ret
        | succ k =>
          exact noFeed (front.length + (stored.length + 1)) (by omega) (by omega)
            (h.getElem?_rest 1)

theorem lineAround_eq (h : StoredLine cs front stored rest i) (noReturn : '\r' ∉ stored) :
    lineAround cs i = stored := by
  refine IsRun.runAround_eq ⟨h.split, h.le, h.lt, fun c mem => ?_, fun c mem => ?_, fun c mem => ?_⟩
  · have feed : c ≠ '\n' := fun eq => h.noFeed (eq ▸ mem)
    have ret : c ≠ '\r' := fun eq => noReturn (eq ▸ mem)
    simp [isLineEnd, feed, ret]
  · simp [isLineEnd, h.opens c mem]
  · rcases h.closes with rfl | ⟨-, r, rfl⟩ | ⟨r, rfl⟩
    · contradiction
    · simp [isLineEnd, ← Option.mem_some_iff.mp mem]
    · simp [isLineEnd, ← Option.mem_some_iff.mp mem]

end StoredLine

end Stored

/-! ## Quotations -/

/-- How many carriage returns on their own come before the character with number `i`. -/
def returnsBefore (cs : List Char) (i : Nat) : Nat := (List.range i).countP (LoneReturn cs ·)

theorem endsLine_iff {cs : List Char} {i : Nat} :
    endsLine cs i = true ↔ cs[i]? = some '\n' ∨ LoneReturn cs i := by
  simp [endsLine, LoneReturn]

theorem lineEndsBefore_eq (cs : List Char) (i : Nat) :
    lineEndsBefore cs i = (cs.take i).count '\n' + returnsBefore cs i := by
  induction i with
  | zero => simp [lineEndsBefore, returnsBefore]
  | succ i ih =>
    have feeds : (cs.take (i + 1)).count '\n' =
        (cs.take i).count '\n' + if cs[i]? = some '\n' then 1 else 0 := by
      rw [List.take_add_one, List.count_append]
      cases cs[i]? <;> simp [List.count_singleton]
    have ends : (if endsLine cs i then 1 else 0) =
        (if cs[i]? = some '\n' then 1 else 0) + if LoneReturn cs i then 1 else 0 := by
      by_cases feed : cs[i]? = some '\n'
      · have notLone : ¬ LoneReturn cs i := fun lone => by simp [lone.1] at feed
        simp [endsLine_iff, feed, notLone]
      · simp [endsLine_iff, feed]
    rw [lineEndsBefore, returnsBefore] at *
    rw [List.range_succ, List.countP_append, List.countP_append, List.countP_singleton,
      List.countP_singleton, ih, feeds, ends]
    simp only [decide_eq_true_eq]
    omega

theorem returnsBefore_eq_zero_iff {cs : List Char} {i : Nat} :
    returnsBefore cs i = 0 ↔ ∀ j < i, ¬ LoneReturn cs j := by
  simp [returnsBefore, List.countP_eq_zero]

/-- The last character that is not part of a line end. -/
theorem exists_last_plain {cs : List Char} {i : Nat} {c : Char} (is : cs[i]? = some c)
    (plain : isLineEnd c = false) :
    ∃ l b, i ≤ l ∧ cs[l]? = some b ∧ isLineEnd b = false ∧
      ∀ b ∈ cs.drop (l + 1), isLineEnd b = true := by
  let Plain (l : Nat) : Prop := ∃ b, cs[l]? = some b ∧ isLineEnd b = false
  have here : Plain i := ⟨c, is, plain⟩
  have bound : ∀ l, Plain l → l ≤ cs.length := fun l h => by
    obtain ⟨b, stands, -⟩ := h
    exact Nat.le_of_lt (List.getElem?_eq_some_iff.mp stands).1
  classical
  obtain ⟨b, stands, plain⟩ : Plain (Nat.findGreatest Plain cs.length) :=
    Nat.findGreatest_spec (bound i here) here
  refine ⟨_, b, Nat.le_findGreatest (bound i here) here, stands, plain, fun b' mem => ?_⟩
  obtain ⟨k, stands'⟩ := List.mem_iff_getElem?.mp mem
  rw [List.getElem?_drop] at stands'
  by_contra other
  have more : Plain (Nat.findGreatest Plain cs.length + 1 + k) :=
    ⟨b', stands', by simpa using other⟩
  exact Nat.findGreatest_is_greatest (by omega) (bound _ more) more

namespace Document

variable {d : Document} {i : Nat} {m : Mark}

theorem getElem?_text (h : d.marks[i]? = some m) : d.text.toList[i]? = some m.char := by
  rw [← Mark.char_placed (p := .first), ← marks, h]
  rfl

/-- A report looks up a line that is behind the stored line of the character by as many as there are
returns on their own before it. -/
theorem lineAt_line (h : d.marks[i]? = some m) :
    d.lineAt m.spot.line =
      d.lines[(d.text.toList.take i).count '\n' + returnsBefore d.text.toList i]?.getD "" := by
  rw [lineAt, Mark.line_of_placed h, lineEndsBefore_eq]
  simp [Position.first]

theorem lineAt_eq_stored {front stored rest : List Char} (h : d.marks[i]? = some m)
    (parted : StoredLine d.text.toList front stored rest i)
    (none : returnsBefore d.text.toList i = 0) : d.lineAt m.spot.line = String.ofList stored := by
  obtain ⟨before, behind, count, -, eq⟩ := parted.lines_eq
  rw [lineAt_line h, none, parted.count_take, lines, eq, ← count]
  simp

/-- Behind a return on its own, a report quotes what comes later than the stored line. -/
theorem mem_rest_of_mem_lineAt {front stored rest : List Char} {c : Char} (h : d.marks[i]? = some m)
    (parted : StoredLine d.text.toList front stored rest i)
    (returns : returnsBefore d.text.toList i ≠ 0) (mem : c ∈ (d.lineAt m.spot.line).toList) :
    c ∈ rest := by
  obtain ⟨before, behind, count, within, eq⟩ := parted.lines_eq
  obtain ⟨k, more⟩ := Nat.exists_eq_succ_of_ne_zero returns
  rw [lineAt_line h, more, parted.count_take, lines, eq, ← count,
    List.getElem?_append_right (Nat.le_add_right _ _), Nat.add_sub_cancel_left,
    List.getElem?_cons_succ] at mem
  cases line : (linesFrom [] behind)[k]? with
  | none => simp [line] at mem
  | some s =>
    rw [line, Option.getD_some] at mem
    have := mem_of_mem_linesFrom (List.mem_of_getElem? line) mem
    exact within (by simpa using this)

/-- The line of an undisturbed character is what a report quotes for it. -/
theorem lineAt_of_undisturbed (h : d.marks[i]? = some m) (plain : isLineEnd m.char = false)
    (undisturbed : Undisturbed d.text.toList i) :
    d.lineAt m.spot.line = String.ofList (lineAround d.text.toList i) := by
  obtain ⟨front, stored, rest, parted⟩ := exists_storedLine (getElem?_text h) plain
  have noneBefore : returnsBefore d.text.toList i = 0 := by
    refine returnsBefore_eq_zero_iff.mpr fun j before lone => ?_
    obtain ⟨k, lower, upper, -⟩ := undisturbed j lone
    omega
  have noReturn : '\r' ∉ stored := fun mem => by
    obtain ⟨k, within, lone⟩ := parted.loneReturn_of_mem mem
    obtain ⟨j, lower, upper, feed⟩ := undisturbed _ lone
    -- a line feed between the character and the return would be on the stored line
    obtain ⟨l, rfl⟩ := Nat.exists_eq_add_of_le (show front.length ≤ j from by
      have := parted.le
      omega)
    rw [parted.getElem?_line (by omega)] at feed
    exact parted.noFeed (List.mem_of_getElem? feed)
  rw [lineAt_eq_stored h parted noneBefore, parted.lineAround_eq noReturn]

/-- If any character is disturbed, then so is the last one that is not part of a line end, and its
own line is not quoted for it. -/
theorem undisturbed_of_quotes
    (quotes : ∀ i m, d.marks[i]? = some m → isLineEnd m.char = false →
      d.lineAt m.spot.line = String.ofList (lineAround d.text.toList i))
    {c : Char} (is : d.text.toList[i]? = some c) (plain : isLineEnd c = false) :
    Undisturbed d.text.toList i := by
  obtain ⟨l, b, behind, stands, plain, last⟩ := exists_last_plain is plain
  obtain ⟨m, mark, rfl⟩ : ∃ m, d.marks[l]? = some m ∧ m.char = b := by
    rw [← Mark.char_placed (p := .first)] at stands
    simpa [marks] using stands
  have quoted := quotes l m mark plain
  obtain ⟨front, stored, rest, parted⟩ := exists_storedLine stands plain
  have noneBefore : returnsBefore d.text.toList l = 0 := by
    by_contra returns
    have mem : m.char ∈ rest := mem_rest_of_mem_lineAt mark parted returns (by
      rw [quoted, String.toList_ofList]
      exact mem_lineAround stands plain)
    have later : m.char ∈ d.text.toList.drop (l + 1) := by
      obtain ⟨k, eq⟩ := List.mem_iff_getElem?.mp mem
      refine List.mem_iff_getElem?.mpr ⟨front.length + stored.length + k - (l + 1), ?_⟩
      have := parted.lt
      rw [List.getElem?_drop, ← eq, ← parted.getElem?_rest]
      congr 1
      omega
    simp [last _ later] at plain
  have noReturn : '\r' ∉ stored := by
    rw [lineAt_eq_stored mark parted noneBefore, String.ofList_inj] at quoted
    rw [quoted]
    intro mem
    simpa [isLineEnd] using isLineEnd_of_mem_lineAround stands plain mem
  intro j lone
  by_contra noFeed
  push Not at noFeed
  have after : l < j := by
    have := returnsBefore_eq_zero_iff.mp noneBefore
    by_contra before
    rcases Nat.lt_or_eq_of_le (Nat.le_of_not_lt before) with before | rfl
    · exact this j before lone
    · simp [← Option.some.inj (lone.1.symm.trans stands), isLineEnd] at plain
  exact noReturn (parted.mem_of_loneReturn lone after fun k lower upper =>
    noFeed k (by omega) upper)

end Document

/-- What a report prints below a problem starts with the line where the problem starts. -/
theorem Report.mem_renderProblem (kind : String) (p : Located Problem)
    (goesOn : p.place.start.line ≤ p.place.stop.line) :
    Text.padLeft (toString p.place.stop.line).length ' ' (toString p.place.start.line) ++ " | " ++
      p.place.document.lineAt p.place.start.line ∈ Report.renderProblem kind p := by
  unfold renderProblem
  refine List.mem_append_left _ (List.mem_append_right _ (List.mem_map.mpr ⟨_, ?_, rfl⟩))
  rw [List.mem_range'_1]
  omega

/-- An undisturbed character has its own line quoted, by `lineAt` and below each problem that starts
there, and all characters have their own lines quoted if and only if all are undisturbed. -/
theorem quotes_iff_undisturbed (d : Document) :
    (∀ i m, d.marks[i]? = some m → isLineEnd m.char = false → Undisturbed d.text.toList i →
      d.lineAt m.spot.line = String.ofList (lineAround d.text.toList i) ∧
      ∀ (kind : String) (p : Located Problem), p.place.document = d → p.place.start = m.spot →
        m.spot.line ≤ p.place.stop.line →
        Text.padLeft (toString p.place.stop.line).length ' ' (toString m.spot.line) ++ " | " ++
          String.ofList (lineAround d.text.toList i) ∈ Report.renderProblem kind p) ∧
    ((∀ i m, d.marks[i]? = some m → isLineEnd m.char = false →
        d.lineAt m.spot.line = String.ofList (lineAround d.text.toList i)) ↔
      ∀ i c, d.text.toList[i]? = some c → isLineEnd c = false → Undisturbed d.text.toList i) := by
  refine ⟨fun i m mark plain undisturbed => ?_, ?_, ?_⟩
  · have quoted := Document.lineAt_of_undisturbed mark plain undisturbed
    refine ⟨quoted, fun kind p here start goesOn => ?_⟩
    rw [← quoted, ← here, ← start]
    exact Report.mem_renderProblem kind p (start ▸ goesOn)
  · intro quotes i c is plain
    exact Document.undisturbed_of_quotes quotes is plain
  · intro undisturbed i m mark plain
    exact Document.lineAt_of_undisturbed mark plain
      (undisturbed i m.char (Document.getElem?_text mark) plain)

/-- Both line ends of two characters, a tabulator, and at the end a return that harms nobody. -/
def mixedEnds : Document := ⟨"test", "a\r\n\tb\n\r", none⟩

theorem quotes_iff_undisturbed_mixedEnds :
    mixedEnds.marks[4]? = some ⟨'b', ⟨2, 5⟩⟩ ∧ Undisturbed mixedEnds.text.toList 4 ∧
    lineAround mixedEnds.text.toList 4 = ['\t', 'b'] ∧
    mixedEnds.lineAt 2 = String.ofList (lineAround mixedEnds.text.toList 4) := by
  have undisturbed : Undisturbed mixedEnds.text.toList 4 := by decide
  have mark : mixedEnds.marks[4]? = some ⟨'b', ⟨2, 5⟩⟩ := rfl
  exact ⟨mark, undisturbed, by decide,
    ((quotes_iff_undisturbed mixedEnds).1 4 ⟨'b', ⟨2, 5⟩⟩ mark (by decide) undisturbed).1⟩

/-- A carriage return on its own in front of a character that no script may have. -/
def returnThenBadChar : Document := ⟨"test", "[[\r?]]", none⟩

/-- The problem is placed in the second line, which is not empty, and an empty line is quoted for
it. -/
theorem returnThenBadChar_quotes_nothing :
    returnThenBadChar.marks[3]? = some ⟨'?', ⟨2, 1⟩⟩ ∧ isLineEnd '?' = false ∧
    lineAround returnThenBadChar.text.toList 3 = ['?', ']', ']'] ∧
    returnThenBadChar.lineAt 2 = "" ∧
    ⟨.error (.badChar '?'), returnThenBadChar, ⟨2, 1⟩, ⟨2, 2⟩⟩ ∈ returnThenBadChar.scan ∧
    Report.renderProblem "error" ⟨.scan (.badChar '?'), returnThenBadChar, ⟨2, 1⟩, ⟨2, 2⟩⟩ =
      ["error: Illegal character '?'", " --> test:2:1", "  |", "2 | ", "  | ^", ""] := by
  refine ⟨rfl, rfl, by decide, rfl, ?_, by decide⟩
  decide +kernel

end Gamebook
