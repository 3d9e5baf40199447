import Gamebook.Proofs.Grammar.Crossing
import Gamebook.Proofs.Grammar.Sparing

/-!
# Assignments in accepted scripts

Wherever `SET` or `LET` stands in a script that is accepted, an assignment was read behind it, what
follows the assignment does not go on with it, and its code is in the program in one piece
(`assigned_of_program`).

Reading a script takes its tokens one after the other, and writes code behind what there is. So it
is enough to say of a parser what it does with the words among the tokens it takes
(`State.Holds`), and to carry this through blocks (`Parser.Traces`). The code of an `ELSE` block is
taken back and written later, in one piece too (`Traces.capturing`). What follows a statement is
read by the same block, which has fuel for all tokens that are left (`Parser.next_of_block`).
-/

namespace Gamebook.Grammar

open Gamebook.Symbol (Declaration)

theorem clean_of_scanErrors {s : State} (none : scanErrors s.pending = []) : s.Clean := by
  intro l hl
  have found := List.filterMap_eq_nil_iff.mp none l hl
  unfold scanError? at found
  split at found
  · contradiction
  · next t ht => exact ⟨t, ht⟩

/-- No errors come up among tokens without errors. -/
theorem State.Grows.clean {s s' : State} (h : s.Grows s') (clean : s.Clean) : s'.Clean := by
  have none : scanErrors s.pending = [] := List.filterMap_eq_nil_iff.mpr fun l hl => by
    obtain ⟨t, ht⟩ := clean l hl
    rw [scanError?, ht]
  have problems : (scanned s.problems).length ≤ (scanned s'.problems).length :=
    (h.problems.filterMap scanned?).length_le
  have errors := congrArg List.length h.consumes.errors
  rw [none, List.append_nil, List.length_append] at errors
  exact clean_of_scanErrors (List.eq_nil_of_length_eq_zero (by omega))

/-! ## Words among tokens -/

/-- Between `s` and the end, an assignment was read from where `rest` was left. What follows it does
not go on with it, and what it wrote is a part of `code`. -/
def Accepted.Assigned (T : Accepted) (s : State) (rest : List Lexeme) (code : List Instruction) :
    Prop :=
  ∃ q q' wrote, s.Grows q ∧ q.pending = rest ∧ Parser.assignment q = .done () q' ∧
    q'.Grows T.state ∧ Next (goesOn · = false) q'.pending ∧ q'.code = q.code ++ wrote ∧
    wrote <:+: code

theorem Accepted.Assigned.mono {T : Accepted} {s s' : State} {rest : List Lexeme}
    {code code' : List Instruction} (h : T.Assigned s' rest code') (grows : s.Grows s')
    (part : code' <:+: code) : T.Assigned s rest code := by
  obtain ⟨q, q', wrote, onward, left, run, final, ends, new, inside⟩ := h
  exact ⟨q, q', wrote, grows.trans onward, left, run, final, ends, new, inside.trans part⟩

/-- Tokens were taken on the way to `T`. Behind each of the words among them that begin an
assignment one was read, and `code` has what it wrote. -/
structure State.Holds (T : Accepted) (s s' : State) (code : List Instruction) : Prop where
  suffix : s'.pending <:+ s.pending
  held : ∀ ⦃word place after⦄, ⟨.ok word, place⟩ :: after <:+ s.pending → s'.pending <:+ after →
    assigns word = true → T.Assigned s after code

namespace State.Holds

variable {T : Accepted} {s s' s'' : State} {code code' all : List Instruction}

/-- Where there is no such word there is nothing to show. -/
theorem of_spares (h : s.Spares s') : s.Holds T s' code := by
  obtain ⟨taken, pending, spared⟩ := h
  refine ⟨⟨taken, pending.symm⟩, ?_⟩
  rintro word place after ⟨before, split⟩ ⟨between, rfl⟩ assigned
  have same : taken = before ++ ⟨.ok word, place⟩ :: between := by
    have whole : taken ++ s'.pending = before ++ ⟨.ok word, place⟩ :: between ++ s'.pending := by
      rw [← pending, ← split, List.append_assoc, List.cons_append]
    exact List.append_cancel_right whole
  have other := spared ⟨.ok word, place⟩ (by simp [same]) word rfl
  rw [other] at assigned
  contradiction

theorem trans (grows : s.Grows s') (h : s.Holds T s' code) (h' : s'.Holds T s'' code')
    (first : code <:+: all) (second : code' <:+: all) : s.Holds T s'' all := by
  refine ⟨h'.suffix.trans h.suffix, fun word place after here behind assigned => ?_⟩
  -- the word is among the tokens that were taken first, or among the others
  rcases List.suffix_or_suffix_of_suffix h.suffix here with early | late
  · rcases List.suffix_cons_iff.mp early with same | early
    · exact (h'.held ⟨[], same.symm⟩ behind assigned).mono grows second
    · exact (h.held here early assigned).mono (.refl s) first
  · exact (h'.held late behind assigned).mono grows second

/-- What was written does not count. -/
theorem recode (h : { s with code := code' }.Holds T s' code) :
    s.Holds T { s' with code := all } code where
  suffix := h.suffix
  held _ _ _ here behind assigned :=
    (h.held here behind assigned).mono ((Grows.refl s).recode s.code code') List.infix_rfl

end State.Holds

/-! ## The judgement -/

namespace Parser

variable {T : Accepted}

theorem grows_behind {s : State} {t : Token} {place : Location} {rest : List Lexeme}
    (pending : s.pending = ⟨.ok t, place⟩ :: rest) : s.Grows (s.behind place rest) :=
  (advance_reads (T := .nothing true) (C := True)).grows_of_done (advance_token pending)

theorem grows_noticing (s : State) (needsColon : Bool) (place : Location) :
    s.Grows (s.noticing needsColon place) := by
  cases needsColon with
  | false => exact .refl s
  | true => exact ⟨List.prefix_append _ _, .refl, le_rfl, .of_problem rfl⟩

/-- What only reads writes nothing. -/
theorem Reads.code_eq {α : Type} {p : Parser α} {P : α → Prop} (h : Reads T True p P)
    {s s' : State} {a : α} (run : p s = .done a s') (final : s'.Grows T.state) :
    s'.code = s.code := by
  have outcome := h.runs s
  rw [run] at outcome
  exact (outcome.2 trivial final).1.code_eq

theorem Reads.result {α : Type} {p : Parser α} {P : α → Prop} (h : Reads T True p P)
    {s s' : State} {a : α} (run : p s = .done a s') (final : s'.Grows T.state) : P a := by
  have outcome := h.runs s
  rw [run] at outcome
  exact (outcome.2 trivial final).2

/-- From `s` on, `p` only adds to the state. On the way to `T` it writes the code of all assignments
whose words it takes. -/
def TracesAt {α : Type} (T : Accepted) (s : State) (p : Parser α) : Prop :=
  ∀ a s', p s = .done a s' → s.Grows s' ∧
    (s'.Grows T.state → ∃ new, s'.code = s.code ++ new ∧ s.Holds T s' new)

/-- The same from every state with at most `k` tokens, without errors among them. -/
def Traces {α : Type} (T : Accepted) (k : Nat) (p : Parser α) : Prop :=
  ∀ s : State, s.Clean → s.pending.length ≤ k → TracesAt T s p

namespace TracesAt

variable {α β : Type} {p p' : Parser α} {g : α → Parser β} {s : State} {t : Token}
  {place : Location} {rest : List Lexeme}

protected theorem bind (hp : TracesAt T s p)
    (hg : ∀ a s', p s = .done a s' → TracesAt T s' (g a)) : TracesAt T s (p >>= g) := by
  intro b s'' run
  obtain ⟨a, s', first, second⟩ := bind_eq_done.mp run
  obtain ⟨grows, holds⟩ := hp a s' first
  obtain ⟨grows', holds'⟩ := hg a s' first b s'' second
  refine ⟨grows.trans grows', fun final => ?_⟩
  obtain ⟨new, wrote, held⟩ := holds (grows'.trans final)
  obtain ⟨new', wrote', held'⟩ := holds' final
  refine ⟨new ++ new', by rw [wrote', wrote, List.append_assoc], ?_⟩
  exact held.trans grows held' (List.prefix_append new new').isInfix
    (List.suffix_append new new').isInfix

/-- What is done in another state to which nothing led but tokens that begin no assignment. -/
theorem of_spares {s₁ : State} (grows : s.Grows s₁) (spares : s.Spares s₁)
    (code : s₁.code = s.code) (same : p s = p' s₁) (h : TracesAt T s₁ p') : TracesAt T s p := by
  intro a s' run
  rw [same] at run
  obtain ⟨grows', holds⟩ := h a s' run
  refine ⟨grows.trans grows', fun final => ?_⟩
  obtain ⟨new, wrote, held⟩ := holds final
  have before : s.Holds T s₁ [] := .of_spares spares
  exact ⟨new, by rw [wrote, code], before.trans grows held List.nil_infix List.infix_rfl⟩

/-- What is done behind a token that begins no assignment. -/
theorem of_behind (pending : s.pending = ⟨.ok t, place⟩ :: rest) (other : assigns t = false)
    (same : p s = p' (s.behind place rest)) (h : TracesAt T (s.behind place rest) p') :
    TracesAt T s p :=
  of_spares (grows_behind pending) ⟨[⟨.ok t, place⟩], by simp [pending], by simpa using other⟩ rfl
    same h

end TracesAt

namespace Traces

variable {α β : Type} {C : Prop} {k : Nat} {p : Parser α} {g : α → Parser β}

/-- Parsers that take no word of an assignment. -/
theorem of_sparing (sparing : Sparing p) (grows : ∀ {s a s'}, p s = .done a s' → s.Grows s')
    (wrote : ∀ {s a s'}, p s = .done a s' → s'.Grows T.state → ∃ new, s'.code = s.code ++ new) :
    Traces T k p := by
  intro s clean _ a s' run
  refine ⟨grows run, fun final => ?_⟩
  obtain ⟨new, wrote⟩ := wrote run final
  exact ⟨new, wrote, .of_spares (sparing s clean a s' run)⟩

theorem of_reads {P : α → Prop} (h : Reads T True p P) (sparing : Sparing p) : Traces T k p := by
  refine of_sparing sparing h.grows_of_done fun {s a s'} run final => ⟨[], ?_⟩
  rw [h.code_eq run final, List.append_nil]

theorem of_writes {p : Parser Unit} {owed : List (String × Declaration)}
    (h : Writes T True p owed) (sparing : Sparing p) : Traces T k p := by
  refine of_sparing sparing h.grows_of_done fun {s a s'} run final => ?_
  have outcome := h.runs s
  rw [run] at outcome
  obtain ⟨new, wrote⟩ := outcome.2 trivial final
  exact ⟨new, wrote.code_eq⟩

protected theorem pure (a : α) : Traces T k (pure a) := by
  refine of_sparing (.pure a) ?_ ?_
  · rintro s _ _ ⟨⟩
    exact .refl s
  · rintro s _ _ ⟨⟩ _
    exact ⟨[], by simp⟩

protected theorem fail (e : SyntaxError) (place : Location) :
    Traces T k (fail e place : Parser α) := fun _ _ _ _ _ run => by contradiction

protected theorem bind (hp : Traces T k p) (hg : ∀ a, Traces T k (g a)) : Traces T k (p >>= g) := by
  intro s clean few
  refine (hp s clean few).bind fun a s' run => ?_
  have grows := (hp s clean few a s' run).1
  exact hg a s' (grows.clean clean) (grows.length_le.trans few)

/-- What is written may be what `p` wrote and was taken back. -/
theorem capturing {p : Parser Unit} {f : List Instruction → Parser Unit} (hp : Traces T k p)
    (hf : ∀ body, Traces T k (f body))
    (writes : ∀ {body s s'}, f body s = .done () s' → s'.Grows T.state →
      ∃ new, s'.code = s.code ++ new ∧ body <:+: new) : Traces T k (captured p >>= f) := by
  intro s clean few _ s' run
  obtain ⟨body, t, taken, rest⟩ := bind_eq_done.mp run
  obtain ⟨t₁, inner, rfl, rfl⟩ := captured_eq_done.mp taken
  obtain ⟨grows, holds⟩ := hp { s with code := [] } clean few () t₁ inner
  have grows : s.Grows { t₁ with code := s.code } := grows.recode s.code s.code
  obtain ⟨grows', holds'⟩ := hf t₁.code { t₁ with code := s.code } (grows.clean clean)
    (grows.length_le.trans few) () s' rest
  refine ⟨grows.trans grows', fun final => ?_⟩
  obtain ⟨new, wrote, held⟩ := holds ((grows'.trans final).recode t₁.code T.state.code)
  obtain ⟨new', wrote', held'⟩ := holds' final
  obtain ⟨more, wrote'', part⟩ := writes rest final
  obtain rfl : new = t₁.code := wrote.symm
  obtain rfl : more = new' := List.append_cancel_left (wrote''.symm.trans wrote')
  refine ⟨more, wrote', held.recode.trans grows held' part List.infix_rfl⟩

theorem emit (code : List Instruction) : Traces T k (emit code) := by
  refine of_sparing (emit_sparing code) ?_ ?_
  · rintro s _ _ ⟨⟩
    exact .of_same rfl rfl rfl le_rfl
  · rintro s _ _ ⟨⟩ _
    exact ⟨code, rfl⟩

theorem hiddenLabel : Traces T k hiddenLabel := by
  refine of_sparing (.of_pending ?_) ?_ ?_
  · rintro s _ _ ⟨⟩
    rfl
  · rintro s _ _ ⟨⟩
    exact .of_same rfl rfl rfl (Nat.le_succ _)
  · rintro s _ _ ⟨⟩ _
    exact ⟨[], (List.append_nil _).symm⟩

theorem left : Traces T k left := of_reads left_reads left_sparing

theorem condition : Traces T k condition := of_reads condition_reads condition_sparing

theorem word {w : Keyword} (other : assigns (.keyword w) = false) : Traces T k (word w) :=
  of_reads (word_reads w) (word_sparing other)

/-- Any token may be read if nothing is found behind a word that begins an assignment. -/
theorem next {expected : String} {g : Located Token → Parser β}
    (refused : ∀ t, assigns t.value = true → ∀ s b s', g t s ≠ .done b s')
    (hg : ∀ t, Traces T k (g t)) : Traces T k (Parser.next expected >>= g) := by
  intro s clean few b s'' run
  obtain ⟨t, s', first, second⟩ := bind_eq_done.mp run
  obtain ⟨rest, pending, rfl⟩ := next_eq_done clean first
  cases other : assigns t.value with
  | true => exact absurd second (refused t other _ _ _)
  | false =>
    have fewer : (s.behind t.place rest).pending.length ≤ k :=
      (grows_behind pending).length_le.trans few
    exact TracesAt.of_behind pending other (bind_of_done first)
      (hg t _ (clean_behind pending clean) fewer) b s'' run

end Traces

/-! ## Branches and loops -/

section Blocks

variable {k : Nat} {block : List Keyword → Parser Unit}

theorem branches_traces (hblock : ∀ ends, Traces T k (block ends)) (fuel : Nat)
    (test : List Instruction) : Traces T k (branches block fuel test) := by
  induction fuel generalizing test with
  | zero => exact (Traces.of_reads lastSeen_reads lastSeen_sparing).bind fun _ => .fail _ _
  | succ fuel ih =>
    refine .bind .hiddenLabel fun otherwise => .bind (.emit _) fun _ => .bind (hblock _) fun _ => ?_
    refine .next (fun t assigned s b s' run => ?_) fun t => ?_
    · obtain word | word := eq_keyword_of_assigns assigned <;> rw [word] at run <;> contradiction
    split
    · exact .emit _
    · refine .capturing (hblock _) (fun body => ?_) fun {body s s'} run final => ?_
      · refine .bind (.word rfl) fun _ => ?_
        split
        · exact .emit _
        · exact .bind .hiddenLabel fun _ => .emit _
      · obtain ⟨_, s₁, ended, run⟩ := bind_eq_done.mp run
        split at run
        · next empty =>
          cases run
          have early : s₁.Grows T.state := by
            refine .trans ?_ final
            exact .of_same rfl rfl rfl le_rfl
          have same := (word_reads .ENDIF).code_eq ended early
          refine ⟨[.label otherwise], by simp [same], ?_⟩
          rw [List.isEmpty_iff.mp empty]
          exact List.nil_infix
        · cases run
          have early : s₁.Grows T.state := by
            refine .trans ?_ final
            exact .of_same rfl rfl rfl (Nat.le_succ _)
          have same := (word_reads .ENDIF).code_eq ended early
          exact ⟨_, congrArg (· ++ _) same, _, _, rfl⟩
    · refine .bind .hiddenLabel fun done => .bind (.emit _) fun _ => .bind .condition fun test => ?_
      exact .bind (.word rfl) fun _ => .bind (ih test) fun _ => .emit _
    · exact .fail _ _

theorem ifStatement_traces (hblock : ∀ ends, Traces T k (block ends)) :
    Traces T k (ifStatement block) :=
  .bind .condition fun test => .bind (.word rfl) fun _ => .bind .left fun _ =>
    branches_traces hblock _ test

theorem loopCondition_sparing : Sparing loopCondition := by
  refine peek_sparing.bind fun t => ?_
  split
  · exact .pure _
  · exact condition_sparing.bind fun _ => .pure _

theorem whileLoop_traces (hblock : ∀ ends, Traces T k (block ends)) :
    Traces T k (whileLoop block) := by
  refine .bind (.of_reads openParen_reads openParen_sparing) fun _ => ?_
  refine .bind (.of_reads loopCondition_reads loopCondition_sparing) fun test? => ?_
  refine .bind (.of_reads closeParen_reads closeParen_sparing) fun _ => ?_
  refine .bind .hiddenLabel fun start => .bind (.emit _) fun _ => ?_
  cases test? with
  | some test =>
    refine .bind .hiddenLabel fun done => .bind (.emit _) fun _ => .bind (hblock _) fun _ => ?_
    exact .bind (.word rfl) fun _ => .emit _
  | none => exact .bind (hblock _) fun _ => .bind (.word rfl) fun _ => .emit _

theorem doLoop_traces (hblock : ∀ ends, Traces T k (block ends)) : Traces T k (doLoop block) :=
  .bind .hiddenLabel fun _ => .bind (.emit _) fun _ => .bind (hblock _) fun _ =>
    .bind (.word rfl) fun _ => .bind .condition fun _ => .emit _

/-- The statement behind a word that begins no assignment. -/
theorem statementOf_traces (hblock : ∀ {C : Prop} ends, Writes T C (block ends) [])
    (traced : ∀ ends, Traces T k (block ends)) (w : Keyword) (place : Location) :
    Traces T k (statementOf block w place) := by
  cases compound : hasBlocks w with
  | false =>
    exact .of_writes (statementOf_writes hblock w place) (statementOf_sparing block compound place)
  | true =>
    cases w <;> first | contradiction | skip
    · exact ifStatement_traces traced
    · exact whileLoop_traces traced
    · exact doLoop_traces traced

/-- A statement begins with the token that comes next. -/
theorem statement_eq {s s' : State} {t : Token} {place : Location} {rest : List Lexeme}
    (clean : s.Clean) (pending : s.pending = ⟨.ok t, place⟩ :: rest)
    (run : statement block s = .done () s') :
    statement block s = (match t with
      | .keyword k => statementOf block k place
      | .shortLabel name => placeLabel ⟨name, place⟩
      | token => fail (.expectedStatement token) place) (s.behind place rest) := by
  obtain ⟨⟨t', place'⟩, s₁, first, -⟩ := bind_eq_done.mp run
  obtain ⟨rest', pending', rfl⟩ := next_eq_done clean first
  rw [pending] at pending'
  cases pending'
  exact bind_of_done first

/-- A statement that begins with another word. -/
theorem statement_traces (hblock : ∀ {C : Prop} ends, Writes T C (block ends) [])
    (traced : ∀ ends, Traces T k (block ends)) {s : State} {t : Token} {place : Location}
    {rest : List Lexeme} (clean : s.Clean) (pending : s.pending = ⟨.ok t, place⟩ :: rest)
    (few : rest.length ≤ k) (other : assigns t = false) : TracesAt T s (statement block) := by
  intro a s' run
  have same := statement_eq clean pending run
  have clean' := clean_behind pending clean
  cases t with
  | keyword w =>
    exact TracesAt.of_behind pending other same
      (statementOf_traces hblock traced w place _ clean' few) a s' run
  | shortLabel name =>
    exact TracesAt.of_behind pending other same
      (Traces.of_writes (placeLabel_writes _) (placeLabel_sparing _) _ clean' few) a s' run
  | _ =>
    rw [same] at run
    contradiction

/-- The first token of a statement is taken. -/
theorem grows_of_statement (hblock : ∀ {C : Prop} ends, Writes T C (block ends) []) {s s' : State}
    {t : Token} {place : Location} {rest : List Lexeme} (clean : s.Clean)
    (pending : s.pending = ⟨.ok t, place⟩ :: rest) (run : statement block s = .done () s') :
    (s.behind place rest).Grows s' := by
  have same := statement_eq clean pending run
  rw [same] at run
  cases t with
  | keyword w => exact (statementOf_writes (C := True) hblock w place).grows_of_done run
  | shortLabel name => exact (placeLabel_writes (T := T) (C := True) _).grows_of_done run
  | _ => contradiction

/-- Behind `SET` or `LET` there is an assignment, and no such word in it. -/
theorem holds_of_assignment {s s' : State} {t : Token} {place : Location} {rest : List Lexeme}
    (clean : s.Clean) (pending : s.pending = ⟨.ok t, place⟩ :: rest) (assigned : assigns t = true)
    (run : statement block s = .done () s') (final : s'.Grows T.state)
    (follows : Next (goesOn · = false) s'.pending) :
    ∃ new, s'.code = s.code ++ new ∧ s.Holds T s' new := by
  have same := statement_eq clean pending run
  have run : Parser.assignment (s.behind place rest) = .done () s' := by
    rw [same] at run
    obtain word | word := eq_keyword_of_assigns assigned <;> cases word <;> exact run
  have taken := grows_behind pending
  obtain ⟨new, wrote, others⟩ := (Traces.of_writes assignment_writes assignment_sparing _
    (clean_behind pending clean) le_rfl () s' run).2 final
  refine ⟨new, wrote, others.suffix.trans ⟨[⟨.ok t, place⟩], pending.symm⟩, ?_⟩
  intro word place' after here behind assigned
  rw [pending] at here
  rcases List.suffix_cons_iff.mp here with first | inside
  · cases first
    exact ⟨s.behind place rest, s', new, taken, rfl, run, final, follows, wrote, List.infix_rfl⟩
  · exact (others.held inside behind assigned).mono taken List.infix_rfl

end Blocks

/-! ## What follows a statement -/

/-- No statement begins with what an expression can go on with. -/
theorem statement_of_goesOn {block : List Keyword → Parser Unit} {s s' : State} {t : Token}
    {place : Location} {rest : List Lexeme} (pending : s.pending = ⟨.ok t, place⟩ :: rest)
    (more : goesOn t = true) : statement block s ≠ .done () s' := by
  intro run
  have inside : isSeparator t = false := by
    cases t <;> first | rfl | simp [goesOn, infixLevel?] at more
  rw [statement, bind_of_done (next_token _ pending inside)] at run
  cases t with
  | keyword w => cases w <;> contradiction
  | shortLabel name => contradiction
  | _ => contradiction

theorem next_of_block (strict : T.strict = true) {fuel : Nat} {ends : List Keyword}
    {needsColon : Bool} {s s' : State} (clean : s.Clean) (few : s.pending.length ≤ fuel)
    (run : block fuel ends needsColon s = .done () s') (final : s'.Grows T.state) :
    Next (goesOn · = false) s.pending := by
  obtain nil | ⟨t, place, rest, pending⟩ := clean.cases
  · exact .inl nil
  refine .inr ⟨t, place, rest, pending, ?_⟩
  cases more : goesOn t with
  | false => exact more
  | true =>
    have inside : isSeparator t = false := by
      cases t <;> first | rfl | simp [goesOn, infixLevel?] at more
    have within : blockEnd? t = none := by
      cases t with
      | keyword w => cases w <;> first | rfl | simp [goesOn, infixLevel?] at more
      | _ => rfl
    obtain ⟨fuel, rfl⟩ : ∃ n, fuel = n + 1 := ⟨fuel - 1, by rw [pending] at few; simp at few; omega⟩
    rw [block_opens pending inside within] at run
    obtain ⟨_, s₁, attempted, onward⟩ := bind_eq_done.mp run
    have writes {C : Prop} (ends : List Keyword) :=
      block_writes (T := T) (C := C) strict fuel ends false
    have final₁ : s₁.Grows T.state :=
      ((block_writes (C := True) strict fuel ends (wantsColon t)).grows_of_done onward).trans final
    have stated := done_of_attempt (C := True) (statement_writes writes) attempted final₁
    exact absurd stated (statement_of_goesOn (noticing_pending.trans pending) more)

/-! ## Programs -/

theorem assigns_of_isSeparator {t : Token} (h : isSeparator t = true) : assigns t = false := by
  cases t <;> first | rfl | contradiction

/-- A statement and what follows it in the block. -/
theorem attempt_traces (strict : T.strict = true) {fuel : Nat} {ends : List Keyword}
    {needsColon : Bool} {s : State} {t : Token} {place : Location} {rest : List Lexeme}
    (ih : ∀ ends needsColon, Traces T fuel (block fuel ends needsColon)) (clean : s.Clean)
    (pending : s.pending = ⟨.ok t, place⟩ :: rest) (few : rest.length ≤ fuel) :
    TracesAt T s (attempt (statement fun inner => block fuel inner false) >>=
      fun _ => block fuel ends needsColon) := by
  have writes {C : Prop} (ends : List Keyword) :=
    block_writes (T := T) (C := C) strict fuel ends false
  intro a s'' run
  obtain ⟨_, s', attempted, onward⟩ := bind_eq_done.mp run
  have grows := (attempt_writes (C := True) (statement_writes writes)).grows_of_done attempted
  have grows' := (block_writes (C := True) strict fuel ends needsColon).grows_of_done onward
  refine ⟨grows.trans grows', fun final => ?_⟩
  have final' := grows'.trans final
  have stated := done_of_attempt (C := True) (statement_writes writes) attempted final'
  -- the first token at least was taken
  have fewer : s'.pending.length ≤ fuel :=
    (grows_of_statement writes clean pending stated).length_le.trans few
  obtain ⟨new', wrote', held'⟩ :=
    (ih ends needsColon s' (grows.clean clean) fewer a s'' onward).2 final
  have follows := next_of_block strict (grows.clean clean) fewer onward final
  obtain ⟨new, wrote, held⟩ : ∃ new, s'.code = s.code ++ new ∧ s.Holds T s' new := by
    cases assigned : assigns t with
    | false =>
      exact (statement_traces writes (fun ends => ih ends false) clean pending few assigned () s'
        stated).2 final'
    | true => exact holds_of_assignment clean pending assigned stated final' follows
  refine ⟨new ++ new', by rw [wrote', wrote, List.append_assoc], ?_⟩
  exact held.trans grows held' (List.prefix_append new new').isInfix
    (List.suffix_append new new').isInfix

theorem block_traces (strict : T.strict = true) (fuel : Nat) (ends : List Keyword)
    (needsColon : Bool) : Traces T fuel (block fuel ends needsColon) := by
  induction fuel generalizing ends needsColon with
  | zero => exact .pure ()
  | succ fuel ih =>
    intro s clean few
    obtain nil | ⟨t, place, rest, pending⟩ := clean.cases
    · intro a s' run
      rw [block, bind_of_done (peekLocated_nil nil)] at run
      exact Traces.pure () s clean few a s' run
    have fewer : rest.length ≤ fuel := by
      rw [pending] at few
      exact Nat.le_of_succ_le_succ few
    cases separator : isSeparator t with
    | true =>
      refine .of_behind pending (assigns_of_isSeparator separator) (block_over pending separator) ?_
      exact Traces.bind (.emit _) (fun _ => ih ends false) _ (clean_behind pending clean) fewer
    | false =>
      cases ended : blockEnd? t with
      | some w =>
        intro a s' run
        have grows := (block_writes (C := True) strict _ ends needsColon).grows_of_done run
        refine ⟨grows, fun final => ?_⟩
        rw [block_ended pending ended] at run
        split at run
        · exact (Traces.pure () s clean few a s' run).2 final
        · -- the end of another block is a problem
          exact absurd final (not_grows_of_report (block_writes strict fuel ends needsColon)
            (by simp) run)
      | none =>
        have same : (s.noticing needsColon place).pending = s.pending := noticing_pending
        have clean' : (s.noticing needsColon place).Clean :=
          (grows_noticing s needsColon place).clean clean
        refine .of_spares (grows_noticing s needsColon place) (.of_pending same)
          (by cases needsColon <;> rfl) (block_opens pending separator ended) ?_
        exact attempt_traces strict ih clean' (same.trans pending) fewer

theorem programFor_traces (strict : T.strict = true) (fuel k : Nat) :
    Traces T k (programFor fuel) := by
  induction fuel with
  | zero => exact .pure ()
  | succ fuel ih =>
    intro s clean few
    have inside : TracesAt T s (block s.pending.length [] false) :=
      block_traces strict _ [] false s clean le_rfl
    refine TracesAt.bind (Traces.left s clean few) ?_
    rintro _ _ ⟨⟩
    refine inside.bind fun _ s₁ read => ?_
    have grows := (inside () s₁ read).1
    have clean₁ := grows.clean clean
    have few₁ := grows.length_le.trans few
    intro a s' run
    obtain nil | ⟨t, place, rest, pending⟩ := clean₁.cases
    · rw [bind_of_done (advance_nil nil)] at run
      exact Traces.pure () s₁ clean₁ few₁ a s' run
    · have after := unmatched_writes (T := T) (C := True) fun {_} => programFor_writes strict fuel
      refine ⟨after.grows_of_done run, fun final => ?_⟩
      have fewer := (grows_behind pending).length_le.trans few₁
      cases t with
      | keyword w =>
        -- a word behind the last block is a problem
        rw [bind_of_done (advance_token pending)] at run
        exact absurd final (not_grows_of_report (programFor_writes strict fuel) (by simp) run)
      | _ =>
        exact (TracesAt.of_behind pending rfl (bind_of_done (advance_token pending))
          (ih _ (clean_behind pending clean₁) fewer) a s' run).2 final

theorem program_traces (strict : T.strict = true) (k : Nat) : Traces T k program :=
  .bind .left fun n => programFor_traces strict (n + 1) k

end Parser

/-- There are no errors among the tokens of a script that is accepted. -/
theorem clean_of_program {T : Accepted} {tokens : List Lexeme}
    (run : Parser.program (State.start tokens) = .done () T.state) :
    (State.start tokens).Clean := by
  have errors : scanned T.state.problems = scanErrors tokens := Parser.scanned_of_program run
  have none : scanErrors tokens = [] := by
    rw [← errors, scanned]
    refine List.filterMap_eq_nil_iff.mpr fun p hp => ?_
    rw [scanned?, T.fine p hp]
  exact clean_of_scanErrors none

/-- Behind every `SET` and `LET` of a script that is accepted an assignment was read, what follows
does not go on with it, and what it wrote is in the program in one piece. -/
theorem assigned_of_program {T : Accepted} {tokens before rest : List Lexeme} {word : Token}
    {place : Location} (strict : T.strict = true)
    (run : Parser.program (State.start tokens) = .done () T.state)
    (split : tokens = before ++ ⟨.ok word, place⟩ :: rest) (assigned : assigns word = true) :
    T.Assigned (State.start tokens) rest T.state.code := by
  obtain ⟨new, wrote, held⟩ :=
    (Parser.program_traces strict _ _ (clean_of_program run) le_rfl () T.state run).2 (.refl _)
  obtain rfl : T.state.code = new := wrote
  refine held.held ⟨before, split.symm⟩ ?_ assigned
  rw [Parser.program_reads_all run]
  exact List.nil_suffix

end Gamebook.Grammar
