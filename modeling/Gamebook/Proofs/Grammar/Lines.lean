import Gamebook.Proofs.Grammar.Crossing

/-!
# Lines are read by themselves

A statement that has no blocks in it is not read past a separator, however wrong it is, and what is
passed over to get out of it does not contain one either. So the outermost block reads a script
without branches and loops line by line: what it does with a line depends only on the names that are
known before it.

`outermost` is that block. Where no word begins or ends a block, its bound on how often to go on
makes no difference, and it can be followed from token to token (`outermost_past`,
`outermost_opens`). `outermost_within` says that a line is read alone first, and then what follows.
-/

namespace Gamebook.Grammar

/-- The token begins or ends a block. -/
def boundsBlock : Token → Bool
  | .keyword w => hasBlocks w || isBlockEnd w
  | _ => false

/-- Tokens without errors among them, and without words that begin or end a block. -/
def Plain (ls : List Lexeme) : Prop := ∀ l ∈ ls, ∃ t, l.value = .ok t ∧ boundsBlock t = false

namespace Plain

variable {xs ys : List Lexeme}

theorem append (hx : Plain xs) (hy : Plain ys) : Plain (xs ++ ys) := fun l hl =>
  (List.mem_append.mp hl).elim (hx l) (hy l)

theorem suffix (h : Plain ys) (part : xs <:+ ys) : Plain xs := fun l hl => h l (part.mem hl)

theorem clean {s : State} (h : Plain s.pending) : s.Clean := fun l hl => by
  obtain ⟨t, ht, -⟩ := h l hl
  exact ⟨t, ht⟩

theorem head {token : Token} {place : Location} {rest : List Lexeme}
    (h : Plain (⟨.ok token, place⟩ :: rest)) : boundsBlock token = false := by
  obtain ⟨t, ht, unbound⟩ := h _ List.mem_cons_self
  obtain rfl : token = t := Except.ok.inj ht
  exact unbound

theorem simple {s : State} (h : Plain s.pending) (w : Keyword) (place : Location)
    (rest : List Lexeme) (pending : s.pending = ⟨.ok (.keyword w), place⟩ :: rest) :
    hasBlocks w = false :=
  (Bool.or_eq_false_iff.mp (pending ▸ h).head).1

theorem blockEnd?_eq_none {token : Token} {place : Location} {rest : List Lexeme}
    (h : Plain (⟨.ok token, place⟩ :: rest)) : blockEnd? token = none := by
  cases token with
  | keyword w => exact if_neg (by simp [(Bool.or_eq_false_iff.mp h.head).2])
  | _ => rfl

end Plain

/-- The last token ends a line. -/
def EndsLine (ls : List Lexeme) : Prop := ∃ place, ls.getLast? = some ⟨.ok .lineBreak, place⟩

theorem EndsLine.suffix {xs ys : List Lexeme} (h : EndsLine ys) (part : xs <:+ ys) (ne : xs ≠ []) :
    EndsLine xs := by
  obtain ⟨place, last⟩ := h
  obtain ⟨taken, rfl⟩ := part
  exact ⟨place, by rwa [List.getLast?_append_of_ne_nil _ ne] at last⟩

theorem EndsLine.separated {s : State} (h : EndsLine s.pending) : s.Separated := by
  obtain ⟨place, last⟩ := h
  exact ⟨_, List.mem_of_getLast? last, _, rfl, rfl⟩

/-- Behind a separator, with its code. -/
def State.past (s : State) (token : Token) (place : Location) (rest : List Lexeme) : State :=
  { s.behind place rest with code := s.code ++ proseOf token }

/-- Passing tokens leaves a part of them. -/
theorem State.Passed.suffix {s s' : State} (h : s.Passed s') : s'.pending <:+ s.pending := by
  obtain ⟨taken, pending, -⟩ := h
  exact ⟨taken, pending.symm⟩

namespace Parser

/-! ## Getting out of a statement -/

theorem recoverFor_local {n m : Nat} (le : n ≤ m) : Local n (recoverFor n) (recoverFor m) := by
  induction n generalizing m with
  | zero =>
    refine Local.of_nil (.pure ()) fun s nil => ?_
    cases m with
    | zero => rfl
    | succ m => rw [recoverFor, bind_of_done (peek_nil nil)]
  | succ n ih =>
    obtain ⟨m, rfl⟩ : ∃ m', m = m' + 1 := ⟨m - 1, by omega⟩
    refine .peek (.pure _) fun s t place rest clean few pending => ?_
    dsimp only
    split
    · exact Local.pure _ s clean few
    · next inside =>
      have inside : isSeparator t = false := by simp_all
      rw [pending] at few
      refine .advance pending inside (ih (Nat.le_of_succ_le_succ le) _ ?_ ?_)
      · exact clean_behind pending clean
      · exact Nat.le_of_succ_le_succ few

theorem recover_local {k : Nat} : Local k recover recover :=
  .left fun _ _ _ le => recoverFor_local le

theorem attempt_local {p q : Parser Unit} {s : State} (clean : s.Clean) (h : LocalAt s p q) :
    LocalAt s (attempt p) (attempt q) := by
  obtain ⟨passed, within⟩ := h
  unfold LocalAt
  cases hps : p s with
  | done a s' | overflowed =>
    have tried : attempt p s = p s := by rw [attempt, hps]
    rw [tried]
    refine ⟨passed, fun f hf stops => ?_⟩
    rw [attempt, within f hf stops, hps]
    rfl
  | failed e s' =>
    have tried : attempt p s = (report e.value e.place >>= fun _ => recover) s' := by
      rw [attempt, hps]
    rw [hps] at passed within
    have first := passed s' rfl
    have out {k : Nat} := (report_local (k := k) e.value e.place).bind fun _ => recover_local
    obtain ⟨passed', within'⟩ := out s' (first.clean clean) (Nat.le_refl _)
    rw [tried]
    refine ⟨fun s'' h => first.trans (passed' s'' h), fun f hf stops => ?_⟩
    have stops' := stops.imp_right fun stops => Outcome.StopsIn.of_passed stops first passed'
    have failed := within f hf (stops'.imp_right And.right)
    rw [attempt, failed]
    exact within' f hf (stops'.imp_right And.left)

/-! ## Plain statements -/

section Statements

variable {s s' f : State} {token : Token} {place : Location} {rest : List Lexeme}

theorem attempt_statement_local (block block' : List Keyword → Parser Unit) (clean : s.Clean)
    (simple : ∀ w place rest, s.pending = ⟨.ok (.keyword w), place⟩ :: rest → hasBlocks w = false) :
    LocalAt s (attempt (statement block)) (attempt (statement block')) :=
  attempt_local clean (statement_local _ _ clean simple)

/-- A plain statement has no use for the reader of blocks. -/
theorem attempt_statement_eq (block block' : List Keyword → Parser Unit) (plain : Plain s.pending) :
    attempt (statement block) s = attempt (statement block') s := by
  let nothing : State := { s with pending := [], problems := [], code := [], notes := [] }
  have around : nothing.within s = s := by simp [nothing, State.within]
  have alone (b b' : List Keyword → Parser Unit) :
      attempt (statement b') s = (attempt (statement b) s).within nothing := by
    have here := attempt_statement_local b b' plain.clean plain.simple
    rw [← here.2 nothing (List.forall_mem_nil _) (.inl rfl), around]
  rw [alone block' block, ← alone block' block']

end Statements

/-! ## The outermost block -/

/-- The outermost block, up to the end of the tokens. -/
def outermost (needsColon : Bool) : Parser Unit := left >>= fun n => block n [] needsColon

section Outermost

variable {s s' f : State} {token : Token} {place : Location} {rest : List Lexeme}
  {needsColon : Bool}

theorem outermost_nil (pending : s.pending = []) : outermost needsColon s = .done () s := by
  rw [outermost, bind_of_done left_apply, pending]
  rfl

theorem outermost_past (pending : s.pending = ⟨.ok token, place⟩ :: rest)
    (separator : isSeparator token = true) :
    outermost needsColon s = outermost false (s.past token place rest) := by
  rw [outermost, bind_of_done left_apply, pending]
  exact block_over pending separator

/-- A plain statement takes a token and stays in front of the next separator. -/
theorem passed_of_attempt (plain : Plain s.pending)
    (pending : s.pending = ⟨.ok token, place⟩ :: rest) (inside : isSeparator token = false)
    (run : attempt (statement (inner 0)) (s.noticing needsColon place) = .done () s') :
    s.Passed s' ∧ s'.pending.length ≤ rest.length := by
  have plain' : Plain (s.noticing needsColon place).pending := by rwa [noticing_pending]
  have passed := (attempt_statement_local (inner 0) (inner 0) plain'.clean plain'.simple).1 s'
    (by rw [run]; rfl)
  refine ⟨(State.Passed.of_pending noticing_pending).trans passed, ?_⟩
  exact statement_takes (fun ends => block_writes rfl 0 ends false)
    (noticing_pending.trans pending) inside run

theorem block_opens_plain {n : Nat} (plain : Plain s.pending)
    (pending : s.pending = ⟨.ok token, place⟩ :: rest) (inside : isSeparator token = false) :
    block (n + 1) [] needsColon s =
      (attempt (statement (inner 0)) >>= fun _ => block n [] (wantsColon token))
        (s.noticing needsColon place) := by
  have plain' : Plain (s.noticing needsColon place).pending := by rwa [noticing_pending]
  rw [block_opens pending inside (pending ▸ plain).blockEnd?_eq_none, bind_apply, bind_apply,
    attempt_statement_eq (inner n) (inner 0) plain']

/-- One bound is as good as another if there are not more tokens. -/
theorem block_eq_outermost {n : Nat} (plain : Plain s.pending) (enough : s.pending.length ≤ n) :
    block n [] needsColon s = outermost needsColon s := by
  induction n using Nat.strongRecOn generalizing s needsColon with
  | ind n ih =>
    obtain pending | ⟨token, place, rest, pending⟩ := plain.clean.cases
    · rw [outermost_nil pending]
      cases n with
      | zero => rfl
      | succ n =>
        rw [block, bind_of_done (peekLocated_nil pending)]
        rfl
    · rw [pending, List.length_cons] at enough
      obtain ⟨n, rfl⟩ : ∃ m, n = m + 1 := ⟨n - 1, by omega⟩
      cases inside : isSeparator token with
      | true =>
        rw [outermost_past pending inside, block_over pending inside]
        exact ih n (Nat.lt_succ_self n) (plain.suffix ⟨[_], pending.symm⟩)
          (Nat.le_of_succ_le_succ enough)
      | false =>
        rw [outermost, bind_of_done left_apply, pending, List.length_cons,
          block_opens_plain plain pending inside, block_opens_plain plain pending inside,
          bind_apply, bind_apply]
        cases run : attempt (statement (inner 0)) (s.noticing needsColon place) with
        | done a s₁ =>
          obtain ⟨passed, fewer⟩ := passed_of_attempt plain pending inside run
          have plain₁ := plain.suffix passed.suffix
          change block n [] _ s₁ = block rest.length [] _ s₁
          rw [ih n (by omega) plain₁ (by omega), ih rest.length (by omega) plain₁ fewer]
        | failed e s₁ | overflowed => rfl

theorem outermost_opens (plain : Plain s.pending)
    (pending : s.pending = ⟨.ok token, place⟩ :: rest) (inside : isSeparator token = false) :
    outermost needsColon s =
      (attempt (statement (inner 0)) >>= fun _ => outermost (wantsColon token))
        (s.noticing needsColon place) := by
  rw [outermost, bind_of_done left_apply, pending, List.length_cons,
    block_opens_plain plain pending inside, bind_apply, bind_apply]
  cases run : attempt (statement (inner 0)) (s.noticing needsColon place) with
  | done a s₁ =>
    obtain ⟨passed, fewer⟩ := passed_of_attempt plain pending inside run
    exact block_eq_outermost (plain.suffix passed.suffix) fewer
  | failed e s₁ | overflowed => rfl

theorem outermost_reads_all (plain : Plain s.pending) (run : outermost needsColon s = .done () s') :
    s'.pending = [] := by
  induction few : s.pending.length using Nat.strongRecOn generalizing s needsColon with
  | ind n ih =>
    obtain pending | ⟨token, place, rest, pending⟩ := plain.clean.cases
    · rw [outermost_nil pending] at run
      cases run
      exact pending
    · rw [pending, List.length_cons] at few
      cases inside : isSeparator token with
      | true =>
        rw [outermost_past pending inside] at run
        have part : rest <:+ s.pending := ⟨[⟨.ok token, place⟩], pending.symm⟩
        exact ih rest.length (by omega) (plain.suffix part) run rfl
      | false =>
        rw [outermost_opens plain pending inside] at run
        obtain ⟨_, s₁, tried, run⟩ := bind_eq_done.mp run
        obtain ⟨passed, fewer⟩ := passed_of_attempt plain pending inside tried
        exact ih _ (by omega) (plain.suffix passed.suffix) run rfl

/-- The outermost block from where a state stands within `f`. -/
def resume (f : State) : Parser Unit := fun s => outermost false (f.within s)

theorem noticing_within :
    (f.within s).noticing needsColon place = f.within (s.noticing needsColon place) := by
  unfold State.noticing
  split
  · simp [State.within]
  · rfl

/-- A line is read alone first, and then what follows it. -/
theorem outermost_within (plain : Plain s.pending) (line : EndsLine s.pending)
    (around : Plain f.pending) :
    outermost needsColon (f.within s) = (outermost needsColon >>= fun _ => resume f) s := by
  induction few : s.pending.length using Nat.strongRecOn generalizing s needsColon with
  | ind n ih =>
    obtain pending | ⟨token, place, rest, pending⟩ := plain.clean.cases
    · exact absurd pending line.separated.pending_ne_nil
    · rw [pending, List.length_cons] at few
      have pending' := within_token pending f
      rw [bind_apply]
      cases inside : isSeparator token with
      | true =>
        have same : (f.within s).past token place (rest ++ f.pending) =
            f.within (s.past token place rest) := by
          simp [State.past, State.behind, State.within]
        rw [outermost_past pending inside, outermost_past pending' inside, same]
        by_cases last : rest = []
        · have nothing : (s.past token place rest).pending = [] := last
          rw [outermost_nil nothing]
          rfl
        · have part : rest <:+ s.pending := ⟨[⟨.ok token, place⟩], pending.symm⟩
          rw [ih rest.length (by omega) (plain.suffix part) (line.suffix part last) rfl]
          rfl
      | false =>
        have plain₀ : Plain (s.noticing needsColon place).pending := by rwa [noticing_pending]
        have line₀ : EndsLine (s.noticing needsColon place).pending := by rwa [noticing_pending]
        rw [outermost_opens plain pending inside,
          outermost_opens (plain.append around) pending' inside, noticing_within]
        -- the statement is not read past the end of the line
        have stays := attempt_statement_local (inner 0) (inner 0) plain₀.clean plain₀.simple
        have stops := stays.stopsIn line₀.separated
        rw [bind_apply, bind_apply, stays.2 f around.clean (.inr stops)]
        cases run : attempt (statement (inner 0)) (s.noticing needsColon place) with
        | overflowed => rfl
        | failed e s₁ => exact (attempt_completes _ _ e s₁ run).elim
        | done a s₁ =>
          obtain ⟨passed, fewer⟩ := passed_of_attempt plain pending inside run
          have ne : s₁.pending ≠ [] := by rwa [run] at stops
          exact ih _ (by omega) (plain.suffix passed.suffix) (line.suffix passed.suffix ne) rfl

/-- Where the tokens before ended makes no difference once there is a token. -/
theorem outermost_seen (plain : Plain s.pending) (ne : s.pending ≠ []) (seen : Location) :
    outermost needsColon { s with lastSeen := seen } = outermost needsColon s := by
  obtain pending | ⟨token, place, rest, pending⟩ := plain.clean.cases
  · contradiction
  generalize later : ({ s with lastSeen := seen } : State) = s'
  have pending' : s'.pending = ⟨.ok token, place⟩ :: rest := by rw [← later, ← pending]
  cases inside : isSeparator token with
  | true =>
    rw [outermost_past pending inside, outermost_past pending' inside, ← later]
    rfl
  | false =>
    have plain' : Plain s'.pending := by rwa [pending', ← pending]
    have same : statement (inner 0) (s'.noticing needsColon place) =
        statement (inner 0) (s.noticing needsColon place) := by
      rw [statement, bind_of_done (next_token _ (noticing_pending.trans pending') inside),
        bind_of_done (next_token _ (noticing_pending.trans pending) inside), ← later]
      unfold State.noticing
      cases needsColon <;> rfl
    rw [outermost_opens plain pending inside, outermost_opens plain' pending' inside, bind_apply,
      bind_apply, attempt, attempt, same]

end Outermost

end Parser

/-! ## Line by line -/

/-- What comes of some tokens: code, problems and notes, and the names that are known behind. -/
structure Yield where
  code : List Instruction
  problems : List (Located Problem)
  notes : Log
  symbols : Symbol.Table

/-- What comes of tokens and of others behind them. -/
def Yield.append (y z : Yield) : Yield :=
  ⟨y.code ++ z.code, y.problems ++ z.problems, y.notes ++ z.notes, z.symbols⟩

/-- What was read up to here, with the problems that count. -/
def State.yield (o : Options) (s : State) : Yield :=
  ⟨s.code, s.problems.filter o.counts, s.notes, s.symbols⟩

/-- What comes of a block of these tokens alone, with these names known before. There is nothing if
a constant has no value. -/
def blockYield (o : Options) (names : Symbol.Table) (ls : List Lexeme) : Option Yield :=
  (Parser.block ls.length [] false (.alone names .nowhere ls)).state?.map (·.yield o)

/-- What comes of lines, each read alone with the names that the lines before it leave. -/
def lineYields (o : Options) : Symbol.Table → List (List Lexeme) → Option Yield
  | names, [] => some ⟨[], [], [], names⟩
  | names, line :: lines =>
    (blockYield o names line).bind fun first =>
      (lineYields o first.symbols lines).map first.append

theorem blockYield_eq (o : Options) (names : Symbol.Table) (ls : List Lexeme) :
    blockYield o names ls =
      (Parser.outermost false (.alone names .nowhere ls)).state?.map (·.yield o) := rfl

theorem State.yield_within (o : Options) (f s : State) :
    (f.within s).yield o = (f.yield o).append (s.yield o) := by
  simp [yield, within, Yield.append]

theorem Plain.flatten {lines : List (List Lexeme)} (h : ∀ line ∈ lines, Plain line) :
    Plain lines.flatten := fun l hl => by
  obtain ⟨line, hline, hl⟩ := List.mem_flatten.mp hl
  exact h line hline l hl

theorem EndsLine.flatten {lines : List (List Lexeme)} (h : ∀ line ∈ lines, EndsLine line)
    (ne : lines.flatten ≠ []) : EndsLine lines.flatten := by
  induction lines with
  | nil => contradiction
  | cons line lines ih =>
    obtain ⟨ends, more⟩ := List.forall_mem_cons.mp h
    rw [List.flatten_cons] at ne ⊢
    by_cases last : lines.flatten = []
    · rwa [last, List.append_nil]
    · obtain ⟨place, ends⟩ := ih more last
      exact ⟨place, by rwa [List.getLast?_append_of_ne_nil _ last]⟩

/-- Behind what was read before, whole lines give what they give alone. -/
theorem yield_behind {s : State} {ls : List Lexeme} (o : Options) (read : s.pending = [])
    (h : Plain ls) (line : ls ≠ [] → EndsLine ls) :
    (Parser.outermost false { s with pending := ls }).state?.map (·.yield o) =
      (blockYield o s.symbols ls).map (s.yield o).append := by
  by_cases nil : ls = []
  · subst nil
    rw [blockYield_eq, Parser.outermost_nil rfl, Parser.outermost_nil rfl]
    simp [Outcome.state?, State.yield, Yield.append, State.alone, State.start]
  · have plain : Plain (State.alone s.symbols .nowhere ls).pending := h
    have around : State.within s (.alone s.symbols s.lastSeen ls) = { s with pending := ls } := by
      simp [State.within, State.alone, State.start, read]
    have alone : Parser.outermost false (.alone s.symbols s.lastSeen ls) = _ :=
      Parser.outermost_seen plain nil s.lastSeen
    rw [blockYield_eq, ← around, Parser.outermost_within h (line nil)
      (read ▸ List.forall_mem_nil _), Parser.bind_apply, alone]
    cases run : Parser.outermost false (.alone s.symbols .nowhere ls) with
    | overflowed => rfl
    | failed e s' => exact (Parser.block_completes _ _ _ _ e s' run).elim
    | done a s' =>
      have ended : (s.within s').pending = [] := by
        simp [State.within, read, Parser.outermost_reads_all plain run]
      have resumed : Parser.resume s s' = .done () (s.within s') := Parser.outermost_nil ended
      simp only [resumed, Outcome.state?, Option.map_some, State.yield_within]

theorem blockYield_flatten (o : Options) (names : Symbol.Table) {lines : List (List Lexeme)}
    (h : ∀ line ∈ lines, Plain line ∧ EndsLine line) :
    blockYield o names lines.flatten = lineYields o names lines := by
  induction lines generalizing names with
  | nil => rfl
  | cons line lines ih =>
    obtain ⟨⟨plain, ends⟩, more⟩ := List.forall_mem_cons.mp h
    have later : Plain lines.flatten := .flatten fun line hl => (more line hl).1
    have split : State.alone names .nowhere (line ++ lines.flatten) =
        State.within (.alone names .nowhere lines.flatten) (.alone names .nowhere line) := rfl
    rw [List.flatten_cons, lineYields, blockYield_eq, blockYield_eq, split,
      Parser.outermost_within plain ends later, Parser.bind_apply]
    cases run : Parser.outermost false (.alone names .nowhere line) with
    | overflowed => rfl
    | failed e s => exact (Parser.block_completes _ _ _ _ e s run).elim
    | done a s =>
      have read := Parser.outermost_reads_all plain run
      let front : State := { s with pending := [], hiddenLabels := 0 }
      have resumed : Parser.resume (.alone names .nowhere lines.flatten) s =
          Parser.outermost false { front with pending := lines.flatten } := by
        rw [Parser.resume]
        simp [State.within, State.alone, State.start, read, front]
      have behind := yield_behind (s := front) o rfl later
        (.flatten fun line hl => (more line hl).2)
      change (Parser.resume _ s).state?.map (·.yield o) =
        (lineYields o s.symbols lines).map (s.yield o).append
      rw [resumed, behind, ih _ more]
      rfl

/-- However a statement in front of these tokens is read, and whatever follows them, their last one
is left with all that follows. -/
def StaysWithin (ls : List Lexeme) : Prop :=
  ∀ (block : List Keyword → Parser Unit) (s s' : State) (behind : List Lexeme), s.Clean →
    s.pending = ls ++ behind → (Parser.attempt (Parser.statement block) s).state? = some s' →
    ∃ left, left <:+ ls ∧ left ≠ [] ∧ s'.pending = left ++ behind

theorem EndsLine.staysWithin {ls : List Lexeme} (h : EndsLine ls) (plain : Plain ls) :
    StaysWithin ls := by
  intro block s s' behind clean pending run
  obtain ⟨place, last⟩ := h
  have mem := List.mem_of_getLast? last
  have simple (w : Keyword) (place : Location) (rest : List Lexeme)
      (first : s.pending = ⟨.ok (.keyword w), place⟩ :: rest) : hasBlocks w = false := by
    cases ls with
    | nil => contradiction
    | cons l ls =>
      obtain rfl := (List.cons.inj (first.symm.trans pending)).1
      exact (Bool.or_eq_false_iff.mp plain.head).1
  obtain ⟨taken, passed, inside⟩ :=
    (Parser.attempt_statement_local block block clean simple).1 s' run
  have kept : ⟨.ok .lineBreak, place⟩ ∉ taken := fun hl => by
    simpa [isSeparator] using inside _ hl _ rfl
  obtain ⟨left, rfl, left_eq⟩ | ⟨more, rfl, -⟩ :=
    List.append_eq_append_iff.mp (passed.symm.trans pending)
  · refine ⟨left, List.suffix_append _ _, ?_, left_eq⟩
    rintro rfl
    exact kept (by simpa using mem)
  · exact absurd (List.mem_append_left _ mem) kept

/-- Lines without branches and loops do not disturb each other, however wrong they are. What comes
of them all is what comes of each of them alone, with the names that those before it leave; and no
statement, wherever in a line it begins, takes the end of the line or anything behind it. -/
theorem block_line_by_line (o : Options) (names : Symbol.Table) {lines : List (List Lexeme)}
    (h : ∀ line ∈ lines, Plain line ∧ EndsLine line) :
    blockYield o names lines.flatten = lineYields o names lines ∧
      ∀ line ∈ lines, ∀ part, part <:+ line → part ≠ [] → StaysWithin part := by
  refine ⟨blockYield_flatten o names h, fun line hline part begins ne => ?_⟩
  obtain ⟨plain, ends⟩ := h line hline
  exact (ends.suffix begins ne).staysWithin (plain.suffix begins)

/-- Tokens and the end of a line. -/
def lineOf (ts : List Token) : List Lexeme :=
  (ts ++ [Token.lineBreak]).map fun t => ⟨.ok t, .nowhere⟩

/-- `SET , 0 TO` between a constant and its use. -/
def brokenLine : List (List Lexeme) :=
  [lineOf [.keyword .CONST, .identifier "N", .equals, .number 5],
    lineOf [.keyword .SET, .comma, .number 0, .keyword .TO],
    lineOf [.keyword .SET, .number 0, .keyword .TO, .identifier "N"]]

/-- The line is reported at its comma, and the one behind it still knows the constant. -/
theorem block_line_by_line_brokenLine :
    (∀ line ∈ brokenLine, Plain line ∧ EndsLine line) ∧
    (∃ y, blockYield {} .empty brokenLine.flatten = some y ∧
      y.code = [.code .PUSH_D [.literal 5], .code .POP_SET [.variable ⟨.slot 0, 0⟩]] ∧
      y.problems.map (·.value) = [.grammar (.unexpectedToken "a variable" .comma)]) ∧
    StaysWithin (lineOf [.keyword .SET, .comma, .number 0, .keyword .TO]) := by
  have h : ∀ line ∈ brokenLine, Plain line ∧ EndsLine line := by
    simp [brokenLine, lineOf, Plain, EndsLine, boundsBlock, hasBlocks, isBlockEnd]
  obtain ⟨together, stays⟩ := block_line_by_line {} .empty h
  have alone : (lineYields {} .empty brokenLine).map
        (fun y => (y.code, y.problems.map (·.value))) =
      some ([.code .PUSH_D [.literal 5], .code .POP_SET [.variable ⟨.slot 0, 0⟩]],
        [.grammar (.unexpectedToken "a variable" .comma)]) := by decide +kernel
  obtain ⟨y, found, eq⟩ := Option.map_eq_some_iff.mp alone
  obtain ⟨code, problems⟩ := Prod.mk.inj eq
  refine ⟨h, ⟨y, together.trans found, code, problems⟩, ?_⟩
  exact stays _ (by simp [brokenLine]) _ List.suffix_rfl (by simp [lineOf])

end Gamebook.Grammar
