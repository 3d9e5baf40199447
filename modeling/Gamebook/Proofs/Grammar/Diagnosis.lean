import Gamebook.Proofs.Grammar.Modes
import Gamebook.Proofs.Grammar.Tokens

/-!
# Nothing wrong is passed over

A script is read to its end, whatever is wrong with it. A statement takes at least the token it
begins with (`Parser.statement_takes`), so the bounds on how often to go on are not met before the
tokens are: a block stops where nothing is left or before a word that ends it
(`Parser.block_stops`), and a program stops where nothing is left (`Parser.program_reads_all`).
All lexical errors are problems then, because they become problems where they are passed.

A report leaves out only what comes behind its limit (`Report.Keeps`), and what it leaves out on the
way has no effect on what is read then (`parseIn_eq`). So there is one list of what is wrong with a
script, and the limit cuts it off. The one way for this to fail is that a constant has no value,
which ends reading before the end of the script (`diagnosed_iff`).
-/

namespace Gamebook.Grammar

/-! ## Fewer and fewer tokens -/

theorem length_lexemes (ls : List Lexeme) :
    ls.length = (tokensOf ls).length + (scanErrors ls).length := by
  induction ls with
  | nil => rfl
  | cons l ls ih =>
    obtain ⟨value, place⟩ := l
    rw [List.length_cons, ih]
    cases value with
    | error e =>
      change _ = (tokensOf ls).length + (scanErrors ls).length.succ
      omega
    | ok t =>
      change _ = (tokensOf ls).length.succ + (scanErrors ls).length
      omega

theorem State.Grows.length_le {s s' : State} (h : s.Grows s') :
    s'.pending.length ≤ s.pending.length := by
  have problems : (scanned s.problems).length ≤ (scanned s'.problems).length :=
    (h.problems.filterMap scanned?).length_le
  have tokens := h.consumes.tokens.length_le
  have errors := congrArg List.length h.consumes.errors
  rw [List.length_append, List.length_append] at errors
  rw [length_lexemes s'.pending, length_lexemes s.pending]
  omega

theorem settle_zero (ls : List Lexeme) :
    (settle 0 ls).2 = [] ∨ ∃ t place rest, (settle 0 ls).2 = ⟨.ok t, place⟩ :: rest := by
  induction ls with
  | nil => exact .inl rfl
  | cons l ls ih =>
    obtain ⟨value, place⟩ := l
    cases value with
    | error e => exact ih
    | ok t => exact .inr ⟨t, place, ls, rfl⟩

/-- Once it was looked at, no error stands before what comes next. -/
theorem State.look_cases (s : State) : (s.look 0).pending = [] ∨
    ∃ t place rest, (s.look 0).pending = ⟨.ok t, place⟩ :: rest := settle_zero s.pending

theorem eq_keyword_of_blockEnd? {t : Token} {k : Keyword} (h : blockEnd? t = some k) :
    t = .keyword k := by
  unfold blockEnd? at h
  split at h
  · next k' =>
    split at h
    · exact congrArg Token.keyword (Option.some.inj h)
    · contradiction
  · contradiction

theorem isSeparator_eq_false {t : Token} (colon : t ≠ .colon) (lineBreak : t ≠ .lineBreak)
    (openCode : t ≠ .openCode) (closeCode : t ≠ .closeCode) (text : ∀ bytes, t ≠ .text bytes) :
    isSeparator t = false := by
  unfold isSeparator
  split <;> simp_all

/-- Nothing is left, or a word comes next that ends a block with these ends. -/
def State.Stopped (ends : List Keyword) (s : State) : Prop :=
  s.pending = [] ∨ ∃ k place rest, s.pending = ⟨.ok (.keyword k), place⟩ :: rest ∧
    (ends.isEmpty || ends.contains k) = true

namespace Parser

variable {s s' : State}

/-- A statement takes the token it begins with, even if nothing comes of it. -/
theorem statement_takes {block : List Keyword → Parser Unit}
    (hblock : ∀ {C} ends, Writes (.nothing true) C (block ends) []) {t : Token} {place : Location}
    {rest : List Lexeme} (pending : s.pending = ⟨.ok t, place⟩ :: rest)
    (inside : isSeparator t = false) (run : attempt (statement block) s = .done () s') :
    s'.pending.length ≤ rest.length := by
  obtain ⟨p, writes, same⟩ : ∃ p : Parser Unit, Writes (.nothing true) True p [] ∧
      statement block s = p (s.behind place rest) := by
    rw [statement, bind_of_done (next_token _ pending inside)]
    cases t with
    | keyword k => exact ⟨_, statementOf_writes hblock k place, rfl⟩
    | shortLabel name => exact ⟨_, placeLabel_writes _, rfl⟩
    | _ => exact ⟨_, Writes.fail (by simp), rfl⟩
  have behind : attempt p (s.behind place rest) = .done () s' := by
    unfold attempt at run ⊢
    rwa [same] at run
  exact ((attempt_writes writes).grows_of_done behind).length_le

/-- If `p` gets through from `s` on, it stops at one of these ends. -/
def StopsFrom (s : State) (p : Parser Unit) (ends : List Keyword) : Prop :=
  ∀ s', p s = .done () s' → s'.Stopped ends

theorem StopsFrom.pure {ends : List Keyword} (h : s.Stopped ends) :
    StopsFrom s (pure ()) ends := by
  intro s' run
  cases run
  exact h

theorem StopsFrom.bind {α : Type} {p : Parser α} {f : α → Parser Unit} {ends : List Keyword}
    {a : α} (run : p s = .done a s') (h : StopsFrom s' (f a) ends) :
    StopsFrom s (p >>= f) ends := by
  intro s'' rest
  rw [bind_of_done run] at rest
  exact h s'' rest

/-- A block goes on to its end if there is fuel for every token. -/
theorem block_stops {fuel : Nat} (ends : List Keyword) (needsColon : Bool)
    (enough : s.pending.length ≤ fuel) : StopsFrom s (block fuel ends needsColon) ends := by
  induction fuel generalizing needsColon s with
  | zero => exact .pure (.inl (List.eq_nil_of_length_eq_zero (Nat.le_zero.mp enough)))
  | succ fuel ih =>
    have peeked : peekLocated s = .done (firstToken? (s.look 0).pending) (s.look 0) := rfl
    have fewer := (s.look_grows 0).length_le
    refine .bind peeked ?_
    obtain pending | ⟨t, place, rest, pending⟩ := s.look_cases
    · rw [pending]
      exact .pure (.inl pending)
    · have left : rest.length ≤ fuel := by
        rw [pending, List.length_cons] at fewer
        omega
      -- once a token is taken there is fuel for the others
      have taken := advance_token pending
      have after (needed : Bool) {s₁ : State} (few : s₁.pending.length ≤ rest.length) :
          StopsFrom s₁ (block fuel ends needed) ends := ih needed (Nat.le_trans few left)
      rw [pending]
      dsimp only [firstToken?]
      split
      · exact .bind taken (after _ (Nat.le_refl _))
      · exact .bind taken (after _ (Nat.le_refl _))
      · exact .bind taken (after _ (Nat.le_refl _))
      · exact .bind taken (after _ (Nat.le_refl _))
      · exact .bind taken (.bind rfl (after _ (Nat.le_refl _)))
      · next k _ _ _ _ _ ended =>
        split
        · next here =>
          obtain rfl := eq_keyword_of_blockEnd? ended
          exact .pure (.inr ⟨k, place, rest, pending, here⟩)
        · exact .bind taken (.bind rfl (after _ (Nat.le_refl _)))
      · next colon lineBreak openCode closeCode text _ =>
        have inside := isSeparator_eq_false colon lineBreak openCode closeCode text
        have rest (needed : Bool) {s₁ : State} (same : s₁.pending = (s.look 0).pending) :
            StopsFrom s₁ (do
              attempt (statement fun inner => block fuel inner false)
              block fuel ends needed) ends := by
          intro s' run
          obtain ⟨_, s₂, tried, run⟩ := bind_eq_done.mp run
          have few := statement_takes (fun ends => block_writes rfl fuel ends false)
            (same.trans pending) inside tried
          exact after needed few s' run
        split
        · exact .bind rfl (rest _ rfl)
        · exact rest _ rfl

/-- A program goes on until nothing is left. -/
theorem programFor_reads_all {fuel : Nat} (enough : s.pending.length < fuel)
    (run : programFor fuel s = .done () s') : s'.pending = [] := by
  induction fuel generalizing s with
  | zero => contradiction
  | succ fuel ih =>
    rw [programFor, bind_of_done left_apply] at run
    obtain ⟨_, s₁, block_run, run⟩ := bind_eq_done.mp run
    have grows := (block_writes (T := .nothing true) (C := True) rfl _ _ _).grows_of_done block_run
    have fewer := grows.length_le
    obtain pending | ⟨k, place, rest, pending, -⟩ :=
      block_stops [] false (Nat.le_refl _) s₁ block_run
    · rw [bind_of_done (advance_nil pending)] at run
      cases run
      exact pending
    · rw [bind_of_done (advance_token pending)] at run
      obtain ⟨_, s₂, reported, run⟩ := bind_eq_done.mp run
      cases reported
      refine ih ?_ run
      rw [pending, List.length_cons] at fewer
      change rest.length < fuel
      omega

theorem program_reads_all (run : program s = .done () s') : s'.pending = [] := by
  rw [program, bind_of_done left_apply] at run
  exact programFor_reads_all (Nat.lt_succ_self _) run

/-- Of all problems, the lexical ones are the errors that stood among the tokens. -/
theorem scanned_of_program (run : program s = .done () s') :
    scanned s'.problems = scanned s.problems ++ scanErrors s.pending := by
  have grows := (program_writes (T := .nothing true) (C := True) rfl).grows_of_done run
  have errors := grows.consumes.errors
  rwa [program_reads_all run, scanErrors, List.filterMap_nil, List.append_nil] at errors

end Parser

/-! ## One list of problems -/

theorem scanned_names (es : List (Located Symbol.NameError)) :
    scanned (es.map (·.map .name)) = [] :=
  List.filterMap_eq_nil_iff.mpr fun p hp => by
    obtain ⟨e, -, rfl⟩ := List.mem_map.mp hp
    rfl

/-- A missing colon is no lexical error, so whether it counts makes no difference to these. -/
theorem scanned_filter_counts (o : Options) (ps : List (Located Problem)) :
    scanned (ps.filter o.counts) = scanned ps := by
  induction ps with
  | nil => rfl
  | cons p ps ih =>
    have step : scanned (p :: ps) = scanned [p] ++ scanned ps := scanned_append [p] ps
    rw [step, ← ih, List.filter_cons]
    split
    · exact scanned_append [p] _
    · next uncounted =>
      have colon : p.value = .grammar .missingColon := by
        simp only [Options.counts, Bool.or_eq_true, not_or] at uncounted
        simpa using uncounted.2
      simp [scanned, scanned?, colon]

/-- A script was read to its end, and `problems` is all that was found wrong on the way and with the
names in the end. It has the lexical errors of the script in it, in their order. If it is empty
there is the same program under every limit; otherwise every report has its first elements, up to
the limit. -/
structure Diagnosed (tokens : List Lexeme) (strict : Bool) (problems : List (Located Problem))
    (program : Program) : Prop where
  finished : ∃ s, Parser.program (State.start tokens) = .done () s ∧ s.pending = [] ∧
    problems = (Reading.ofState s).problems.filter (Options.counts { strictColons := strict }) ∧
    program = (Reading.ofState s).program
  lexical : scanned problems = scanErrors tokens
  accepted : problems = [] → ∀ maxErrors,
    (read tokens).map (·.accept ⟨strict, maxErrors⟩) = some (.ok program)
  reported : problems ≠ [] → ∀ maxErrors, ∃ report,
    (read tokens).map (·.accept ⟨strict, maxErrors⟩) = some (.error report) ∧
      report.problems = problems.take (max maxErrors 1) ∧
      (report.limitReached = true ↔ max maxErrors 1 ≤ problems.length)

/-- What is wrong with a script that was read to `s`. -/
theorem diagnosed_of_done {tokens : List Lexeme} {s : State}
    (run : Parser.program (State.start tokens) = .done () s) (strict : Bool) :
    Diagnosed tokens strict
      ((Reading.ofState s).problems.filter (Options.counts { strictColons := strict }))
      ⟨s.code, s.symbols⟩ := by
  have hread : read tokens = some (.ofState s) := by rw [read, run]
  generalize counted : (Reading.ofState s).problems.filter
    (Options.counts { strictColons := strict }) = problems
  have judged (maxErrors : Nat) : (read tokens).map (·.accept ⟨strict, maxErrors⟩) =
      some (if problems.isEmpty then .ok ⟨s.code, s.symbols⟩
        else .error (.ofProblems maxErrors problems)) := by
    rw [hread, ← counted]
    rfl
  refine ⟨⟨s, run, Parser.program_reads_all run, counted.symm, rfl⟩, ?_, fun none maxErrors => ?_,
    fun some maxErrors => ?_⟩
  · have errors := Parser.scanned_of_program run
    rw [← counted, scanned_filter_counts, Reading.ofState, scanned_append, scanned_names,
      List.append_nil, errors]
    rfl
  · rw [judged, if_pos (List.isEmpty_iff.mpr none)]
  · obtain ⟨keeps, limit⟩ := Report.ofProblems_keeps maxErrors problems
    refine ⟨.ofProblems maxErrors problems, ?_, ?_, ?_⟩
    · rw [judged, if_neg (mt List.isEmpty_iff.mp some)]
    · rw [keeps.problems, limit]
    · rw [keeps.limitReached, limit]

/-- A script is diagnosed as a whole unless a constant without a value is met in it. And a reader
whose problems go into a report on the way, where the limit drops them, comes to what this list and
the limit give. -/
theorem diagnosed_iff (tokens : List Lexeme) (strict : Bool) :
    ((∃ problems program, Diagnosed tokens strict problems program) ↔
      Parser.program (State.start tokens) ≠ .overflowed) ∧
    ∀ maxErrors, parseIn ⟨strict, maxErrors⟩ tokens =
      (read tokens).map (·.accept ⟨strict, maxErrors⟩) := by
  refine ⟨⟨?_, ?_⟩, fun maxErrors => parseIn_eq _ tokens⟩
  · rintro ⟨problems, program, diagnosed⟩ overflowed
    obtain ⟨s, run, -⟩ := diagnosed.finished
    rw [run] at overflowed
    contradiction
  · intro finishes
    cases run : Parser.program (State.start tokens) with
    | overflowed => contradiction
    | failed e s => exact absurd run (Parser.program_completes _ e s)
    | done _ s => exact ⟨_, _, diagnosed_of_done run strict⟩

/-- A stray end of code, and behind it the least number divided by minus one. -/
def strayQuotient : List Lexeme :=
  ⟨.error .unmatchedClose, .nowhere⟩ ::
    ([.openCode, .keyword .CONST, .identifier "N", .equals, .openParen, .number 1, .shiftLeft,
      .number 63, .closeParen, .divide, .openParen, .number 0, .minus, .number 1, .closeParen,
      .closeCode] : List Token).map fun t => ⟨.ok t, .nowhere⟩

/-- The lexical error is never reported: there is neither a program nor a report. -/
theorem strayQuotient_undiagnosed :
    scanErrors strayQuotient = [⟨.unmatchedClose, .nowhere⟩] ∧ read strayQuotient = none ∧
      ∀ strict problems program, ¬ Diagnosed strayQuotient strict problems program := by
  have unread : read strayQuotient = none := Option.isNone_iff_eq_none.mp (by decide +kernel)
  refine ⟨rfl, unread, fun strict problems program diagnosed => ?_⟩
  obtain ⟨s, run, -⟩ := diagnosed.finished
  rw [read, run] at unread
  contradiction

end Gamebook.Grammar
