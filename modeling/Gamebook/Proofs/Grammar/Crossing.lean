import Gamebook.Proofs.Grammar.Desugaring
import Gamebook.Proofs.Grammar.Diagnosis

/-!
# Scripts that differ in one stretch

Two scripts are the same up to a separator, and from there on differ (`Fork`). Reading them goes
the same way until that separator is read, because no part of a statement is read past one
(`Fork.Front.run_local`). What comes then is left open: it is only assumed that a block that begins
there can be read in both scripts, that behind it the two states are twins, and that the same code
was written but for one instruction (`Behind`). From there on, reading goes the same way again
(`Behind.follow`).

The separator may stand in any number of blocks, so the step from one to the other has to be carried
through branches and loops. `Fork.Crosses` says of a parser that it gets from states in front of the
fork to states in front of it or behind it. `Fork.program_crosses` says so of programs.
-/

namespace Gamebook.Grammar

open Gamebook.Symbol (Declaration)

/-! ## Code that differs in one instruction -/

/-- The same code but for one instruction, and `P` says for which. -/
def Exchanged (P : Instruction → Instruction → Prop) (code code' : List Instruction) : Prop :=
  ∃ front i i' back, P i i' ∧ code = front ++ i :: back ∧ code' = front ++ i' :: back

namespace Exchanged

variable {P : Instruction → Instruction → Prop} {code code' : List Instruction}

theorem append (h : Exchanged P code code') (more : List Instruction) :
    Exchanged P (code ++ more) (code' ++ more) := by
  obtain ⟨front, i, i', back, here, rfl, rfl⟩ := h
  exact ⟨front, i, i', back ++ more, here, by simp, by simp⟩

theorem behind (h : Exchanged P code code') (before : List Instruction) :
    Exchanged P (before ++ code) (before ++ code') := by
  obtain ⟨front, i, i', back, here, rfl, rfl⟩ := h
  exact ⟨before ++ front, i, i', back, here, by simp, by simp⟩

theorem isEmpty_eq_false (h : Exchanged P code code') :
    code.isEmpty = false ∧ code'.isEmpty = false := by
  obtain ⟨front, i, i', back, here, rfl, rfl⟩ := h
  simp

end Exchanged

/-- Both states are behind the stretch in which the scripts differ. -/
structure Behind (P : Instruction → Instruction → Prop) (s s' : State) : Prop where
  twin : s.Twin s'
  code : Exchanged P s.code s'.code

/-- What leads on to the end is done in both states behind the stretch. -/
theorem Behind.follow {α : Type} {P : Instruction → Instruction → Prop} {T : Accepted}
    {p : Parser α} {s s' t : State} {a : α} (h : Behind P s s') (follows : Parser.Follows T p)
    (settled : T.state.symbols.Settled) (run : p s = .done a t) (final : t.Grows T.state) :
    ∃ t', p s' = .done a t' ∧ Behind P t t' := by
  obtain ⟨t', run', twin, new, wrote, wrote'⟩ := follows settled h.twin run final
  exact ⟨t', run', twin, wrote ▸ wrote' ▸ h.code.append new⟩

/-! ## One step of a block -/

/-- The code for a separator, which is none unless it is prose. -/
def proseOf : Token → List Instruction
  | .text bytes => [.text bytes]
  | _ => []

/-- Whether a colon is needed behind the statement that begins with this token. -/
def wantsColon : Token → Bool
  | .shortLabel _ => false
  | _ => true

/-- The state in which it was noticed that a colon is missing, if one was needed. -/
def State.noticing (needsColon : Bool) (place : Location) (s : State) : State :=
  if needsColon then { s with problems := s.problems ++ [⟨.grammar .missingColon, place⟩] } else s

namespace Parser

variable {s : State} {token : Token} {place : Location} {rest : List Lexeme} {fuel : Nat}
  {ends : List Keyword} {needsColon : Bool}

theorem noticing_pending : (s.noticing needsColon place).pending = s.pending := by
  unfold State.noticing
  split <;> rfl

/-- A block goes on behind a separator. -/
theorem block_over (pending : s.pending = ⟨.ok token, place⟩ :: rest)
    (separator : isSeparator token = true) :
    block (fuel + 1) ends needsColon s =
      (emit (proseOf token) >>= fun _ => block fuel ends false) (s.behind place rest) := by
  have nothing (t : State) : emit [] t = .done () t := by
    cases t
    simp [emit, update]
  cases token with
  | text bytes => exact block_text pending
  | colon | lineBreak | openCode | closeCode =>
    rw [block_separator pending rfl (by rintro _ ⟨⟩)]
    change _ = (emit [] >>= _) _
    rw [bind_of_done (nothing _)]
  | _ => contradiction

/-- Nothing ends well behind a problem. -/
theorem not_grows_of_report {α : Type} {T : Accepted} {p : Parser α}
    {Q : State → α → State → Prop} {e : SyntaxError} {a : α} {s' : State} (h : Meets T True p Q)
    (wrong : e ≠ .missingColon) (run : (report e place >>= fun _ => p) s = .done a s') :
    ¬ s'.Grows T.state := by
  obtain ⟨_, s₁, reported, run⟩ := bind_eq_done.mp run
  cases reported
  intro final
  have onward := (h.grows_of_done run).trans final
  exact Accepted.not_grows (p := ⟨.grammar e, place⟩) (by simp) (by simpa using wrong) onward

/-- A block stops at a word that ends it. One that ends another block is a problem. -/
theorem block_ended {w : Keyword} (pending : s.pending = ⟨.ok token, place⟩ :: rest)
    (ended : blockEnd? token = some w) :
    block (fuel + 1) ends needsColon s =
      if ends.isEmpty || ends.contains w then .done () s
      else (report (.unmatchedEnd w) place >>= fun _ => block fuel ends needsColon)
        (s.behind place rest) := by
  obtain rfl := eq_keyword_of_blockEnd? ended
  rw [block, bind_of_done (peekLocated_token pending)]
  simp only [ended]
  split
  · rfl
  · exact bind_of_done (advance_token pending)

/-- Anything else is tried as a statement. -/
theorem block_opens (pending : s.pending = ⟨.ok token, place⟩ :: rest)
    (inside : isSeparator token = false) (opens : blockEnd? token = none) :
    block (fuel + 1) ends needsColon s =
      (attempt (statement (inner fuel)) >>= fun _ => block fuel ends (wantsColon token))
        (s.noticing needsColon place) := by
  rw [block, bind_of_done (peekLocated_token pending), State.noticing]
  cases token with
  | colon | lineBreak | openCode | closeCode | text => contradiction
  | _ =>
    simp only [opens]
    split <;> rfl

end Parser

/-! ## The fork -/

/-- Two scripts part behind a separator. What is left of them is equally long and without errors. -/
structure Fork where
  separator : Token
  place : Location
  first : List Lexeme
  second : List Lexeme
  isSeparator_eq : isSeparator separator = true
  length_eq : second.length = first.length
  firstClean : ∀ l ∈ first, ∃ t, l.value = .ok t
  secondClean : ∀ l ∈ second, ∃ t, l.value = .ok t

namespace Fork

/-- The separator as it stands in both scripts. -/
def mark (F : Fork) : Lexeme := ⟨.ok F.separator, F.place⟩

/-- Both states are in front of the separator, with the same tokens up to it, and the same but for
what follows. -/
def Front (F : Fork) (s s' : State) : Prop :=
  ∃ xs, (∀ l ∈ xs, ∃ t, l.value = .ok t) ∧ s.pending = xs ++ F.mark :: F.first ∧
    s' = { s with pending := xs ++ F.mark :: F.second }

namespace Front

variable {F : Fork} {s s' : State}

theorem clean {xs ys : List Lexeme} (hx : ∀ l ∈ xs, ∃ t, l.value = .ok t)
    (hy : ∀ l ∈ ys, ∃ t, l.value = .ok t) : ∀ l ∈ xs ++ F.mark :: ys, ∃ t, l.value = .ok t :=
  List.forall_mem_append.mpr ⟨hx, List.forall_mem_cons.mpr ⟨⟨F.separator, rfl⟩, hy⟩⟩

/-- The separator of the fork comes next, or another token that is the same in both. -/
theorem cases (h : F.Front s s') :
    (s.pending = F.mark :: F.first ∧ s' = { s with pending := F.mark :: F.second }) ∨
      ∃ token place rest rest', s.pending = ⟨.ok token, place⟩ :: rest ∧
        s'.pending = ⟨.ok token, place⟩ :: rest' ∧
        F.Front (s.behind place rest) (s'.behind place rest') := by
  obtain ⟨xs, clean, here, rfl⟩ := h
  obtain _ | ⟨⟨l, place⟩, xs⟩ := xs
  · exact .inl ⟨here, rfl⟩
  · obtain ⟨⟨token, rfl⟩, others⟩ := List.forall_mem_cons.mp clean
    exact .inr ⟨token, place, _, _, here, rfl, xs, others, rfl, rfl⟩

/-- A token that is no separator is the same in both. -/
theorem token {t : Token} {place : Location} {rest : List Lexeme} (h : F.Front s s')
    (pending : s.pending = ⟨.ok t, place⟩ :: rest) (inside : isSeparator t = false) :
    ∃ rest', s'.pending = ⟨.ok t, place⟩ :: rest' ∧
      F.Front (s.behind place rest) (s'.behind place rest') := by
  obtain ⟨here, -⟩ | ⟨t', place', rest₁, rest', here, here', onward⟩ := h.cases
  · have same : F.separator = t := by
      rw [here, mark] at pending
      simp_all
    simp [← same, F.isSeparator_eq] at inside
  · cases pending.symm.trans here
    exact ⟨rest', here', onward⟩

/-- The two states may change alike. -/
theorem update (h : F.Front s s') (f : State → State)
    (pending : ∀ s, (f s).pending = s.pending)
    (alike : ∀ (s : State) ls, f { s with pending := ls } = { f s with pending := ls }) :
    F.Front (f s) (f s') := by
  obtain ⟨xs, clean, here, rfl⟩ := h
  exact ⟨xs, clean, (pending s).trans here, alike s _⟩

/-- A parser that does not read past a separator stays in front of this one, and does the same in
both states. -/
theorem run_local {α : Type} {p : Parser α} {a : α} {t : State} (h : F.Front s s')
    (isLocal : ∀ u : State, u.Clean → u.pending <+: s.pending → Parser.LocalAt u p p)
    (run : p s = .done a t) : ∃ t', p s' = .done a t' ∧ F.Front t t' := by
  obtain ⟨xs, hxs, pending, rfl⟩ := h
  -- the part that is read stands alone, up to the separator
  let u : State := .alone s.symbols s.lastSeen (xs ++ [F.mark])
  have clean : u.Clean := clean hxs (List.forall_mem_nil _)
  have whole : s.Clean := by
    rw [State.Clean, pending]
    exact Front.clean hxs F.firstClean
  have first : State.within { s with pending := F.first } u = s :=
    State.At.eq_within ⟨by simp [pending], rfl, whole⟩
  have second : State.within { s with pending := F.second } u =
      { s with pending := xs ++ F.mark :: F.second } :=
    State.At.eq_within (s := { s with pending := xs ++ F.mark :: F.second })
      ⟨by simp, rfl, Front.clean hxs F.secondClean⟩
  obtain ⟨passed, around⟩ := isLocal u clean
    ⟨F.first, by simp [u, State.alone, State.start, pending]⟩
  have separated : u.Separated := ⟨F.mark, by simp [u, State.alone, State.start], F.separator, rfl,
    F.isSeparator_eq⟩
  have stops : (p u).StopsIn u := by
    cases outcome : p u with
    | overflowed => exact separated
    | done b v => exact ((passed v (by rw [outcome]; rfl)).separated separated).pending_ne_nil
    | failed e v => exact ((passed v (by rw [outcome]; rfl)).separated separated).pending_ne_nil
  have run₁ := around { s with pending := F.first } F.firstClean (.inr stops)
  have run₂ := around { s with pending := F.second } F.secondClean (.inr stops)
  rw [first, run] at run₁
  rw [second] at run₂
  cases outcome : p u with
  | overflowed => simp [outcome, Outcome.within] at run₁
  | failed e v => simp [outcome, Outcome.within] at run₁
  | done b v =>
    rw [outcome] at run₁ run₂ stops
    cases run₁
    refine ⟨_, run₂, ?_⟩
    -- what is left ends with the separator, since something is left
    obtain ⟨taken, split, -⟩ := passed v (by rw [outcome]; rfl)
    obtain nil | ⟨ys, l, last⟩ := List.eq_nil_or_concat' v.pending
    · exact absurd nil stops
    · have split : xs ++ [F.mark] = (taken ++ ys) ++ [l] := by
        rw [List.append_assoc, ← last]
        exact split
      obtain ⟨rfl, ends⟩ := List.append_inj' split rfl
      obtain rfl := List.singleton_inj.mp ends
      refine ⟨ys, fun l hl => hxs l (List.mem_append_right _ hl), ?_, ?_⟩
      · simp [State.within, last]
      · simp [State.within, last]

end Front

/-! ## The judgement -/

/-- On the way to `T`, the parser gets from states in front of the separator, with at most `k`
tokens, to states in front of it or behind the stretch, and finds the same in both. -/
structure Crosses {α : Type} (F : Fork) (P : Instruction → Instruction → Prop) (T : Accepted)
    (k : Nat) (p : Parser α) : Prop where
  grows : ∀ {s a t}, p s = .done a t → s.Grows t
  follows : Parser.Follows T p
  crosses : T.state.symbols.Settled → ∀ ⦃s s' a t⦄, F.Front s s' → s.pending.length ≤ k →
    p s = .done a t → t.Grows T.state →
    ∃ t', p s' = .done a t' ∧ (F.Front t t' ∨ Behind P t t')

namespace Crosses

variable {α β : Type} {F : Fork} {P : Instruction → Instruction → Prop} {T : Accepted} {k : Nat}
  {C : Prop} {p : Parser α} {f : α → Parser β} {Q : State → α → State → Prop}

/-- Nothing that is part of a statement gets past the separator. -/
theorem of_local (h : Parser.Meets T C p Q) (isLocal : ∀ n, Parser.Local n p p) :
    Crosses F P T k p where
  grows := h.grows_of_done
  follows := h.follows
  crosses _ s s' a t front _ run _ := by
    obtain ⟨t', run', front'⟩ := front.run_local (fun u clean _ => isLocal _ u clean le_rfl) run
    exact ⟨t', run', .inl front'⟩

protected theorem bind (hp : Crosses F P T k p) (hf : ∀ a, Crosses F P T k (f a)) :
    Crosses F P T k (p >>= f) where
  grows run := by
    obtain ⟨a, t, first, second⟩ := Parser.bind_eq_done.mp run
    exact (hp.grows first).trans ((hf a).grows second)
  follows := hp.follows.bind (fun a => (hf a).follows) fun {a} => (hf a).grows
  crosses settled s s' b u front few run final := by
    obtain ⟨a, t, first, second⟩ := Parser.bind_eq_done.mp run
    have onward := (hf a).grows second
    obtain ⟨t', first', between⟩ := hp.crosses settled front few first (onward.trans final)
    rw [Parser.bind_of_done first']
    rcases between with front' | behind
    · have fewer := (hp.grows first).length_le
      exact (hf a).crosses settled front' (Nat.le_trans fewer few) second final
    · obtain ⟨u', second', behind'⟩ := behind.follow (hf a).follows settled second final
      exact ⟨u', second', .inr behind'⟩

protected theorem fail {e : SyntaxError} {place : Location} :
    Crosses F P T k (Parser.fail e place : Parser α) where
  grows := nofun
  follows := .fail e place
  crosses _ _ _ _ _ _ _ run := nomatch run

/-- Parsers that leave the tokens alone, of which they see no more than how many there are. -/
theorem of_done {a : State → α} {next : State → State} (hp : ∀ s, p s = .done (a s) (next s))
    (grows : ∀ s : State, s.Grows (next s)) (follows : Parser.Follows T p)
    (pending : ∀ s, (next s).pending = s.pending)
    (same : ∀ (s : State) ls, ls.length = s.pending.length → a { s with pending := ls } = a s)
    (alike : ∀ (s : State) ls, next { s with pending := ls } = { next s with pending := ls }) :
    Crosses F P T k p where
  grows {s b t} run := by
    rw [hp] at run
    cases run
    exact grows s
  follows := follows
  crosses _ s s' b t front _ run _ := by
    rw [hp] at run
    cases run
    refine ⟨next s', ?_, .inl (front.update next pending alike)⟩
    obtain ⟨xs, -, here, rfl⟩ := front
    rw [hp, same]
    simp [here, F.length_eq]

theorem emit (code : List Instruction) : Crosses F P T k (Parser.emit code) :=
  of_done (fun _ => rfl) (fun _ => .of_same rfl rfl rfl le_rfl) (Parser.emit_follows code)
    (fun _ => rfl) (fun _ _ _ => rfl) fun _ _ => rfl

theorem hiddenLabel : Crosses F P T k Parser.hiddenLabel :=
  of_done (fun _ => rfl) (fun _ => .of_same rfl rfl rfl (Nat.le_succ _))
    Parser.hiddenLabel_follows (fun _ => rfl) (fun _ _ _ => rfl) fun _ _ => rfl

theorem left : Crosses F P T k Parser.left :=
  of_done (fun _ => rfl) .refl (Parser.left_reads (C := True)).follows (fun _ => rfl)
    (fun _ _ same => same) fun _ _ => rfl

theorem condition : Crosses F P T k Parser.condition :=
  of_local (C := True) Parser.condition_reads fun _ => Parser.condition_local

theorem word (w : Keyword) : Crosses F P T k (Parser.word w) :=
  of_local (C := True) (Parser.word_reads w) fun _ => Parser.word_local w

theorem next (expected : String) : Crosses F P T k (Parser.next expected) :=
  of_local (C := True) (Parser.next_reads expected) fun _ => Parser.next_local expected

theorem loopCondition : Crosses F P T k Parser.loopCondition := by
  refine of_local (C := True) Parser.loopCondition_reads fun _ => ?_
  refine Parser.peek_local.bind fun t => ?_
  split
  · exact .pure _
  · exact Parser.condition_local.bind fun _ => .pure _

/-! ## Branches and loops -/

/-- Code that was taken back may be the one that differs. It has to be written then. -/
theorem capturing {p : Parser Unit} {f : List Instruction → Parser Unit}
    (hp : Crosses F P T k p) (hf : ∀ body, Crosses F P T k (f body))
    (exchange : T.state.symbols.Settled → ∀ ⦃body body' s s' t⦄, Exchanged P body body' →
      s.Twin s' → s'.code = s.code → f body s = .done () t → t.Grows T.state →
      ∃ t', f body' s' = .done () t' ∧ Behind P t t') :
    Crosses F P T k (Parser.captured p >>= f) where
  grows {s _ u} run := by
    obtain ⟨body, t, captured, rest⟩ := Parser.bind_eq_done.mp run
    obtain ⟨t₁, inner, rfl, rfl⟩ := Parser.captured_eq_done.mp captured
    exact ((hp.grows inner).recode s.code s.code).trans ((hf t₁.code).grows rest)
  follows := (Parser.captured_follows hp.follows).bind (fun body => (hf body).follows)
    fun {body} => (hf body).grows
  crosses settled s s' _ u front few run final := by
    obtain ⟨body, t, captured, rest⟩ := Parser.bind_eq_done.mp run
    obtain ⟨t₁, inner, rfl, rfl⟩ := Parser.captured_eq_done.mp captured
    have emptied : F.Front { s with code := [] } { s' with code := [] } :=
      front.update (fun s => { s with code := [] }) (fun _ => rfl) fun _ _ => rfl
    have onward := (hf t₁.code).grows rest
    obtain ⟨t₁', inner', between⟩ := hp.crosses settled emptied few inner
      ((onward.trans final).recode t₁.code T.state.code)
    have same : s'.code = s.code := by
      obtain ⟨xs, -, -, rfl⟩ := front
      rfl
    have captured' : Parser.captured p s' = .done t₁'.code { t₁' with code := s'.code } :=
      Parser.captured_eq_done.mpr ⟨t₁', inner', rfl, rfl⟩
    rw [Parser.bind_of_done captured', same]
    rcases between with front' | behind
    · -- the fork is still to come, so the same code was taken back
      have body : t₁'.code = t₁.code := by
        obtain ⟨xs, -, -, rfl⟩ := front'
        rfl
      have restored : F.Front { t₁ with code := s.code } { t₁' with code := s.code } :=
        front'.update (fun t => { t with code := s.code }) (fun _ => rfl) fun _ _ => rfl
      have fewer := (hp.grows inner).length_le
      rw [body]
      exact (hf t₁.code).crosses settled restored (Nat.le_trans fewer few) rest final
    · have twin := behind.twin
      have restored : State.Twin { t₁ with code := s.code } { t₁' with code := s.code } :=
        ⟨twin.pending, twin.lastSeen, twin.problems, twin.hiddenLabels, twin.symbols⟩
      obtain ⟨u', rest', behind'⟩ := exchange settled behind.code restored rfl rest final
      exact ⟨u', rest', .inr behind'⟩

section Blocks

variable {block : List Keyword → Parser Unit}

theorem branches (hblock : ∀ ends, Crosses F P T k (block ends)) (fuel : Nat)
    (test : List Instruction) : Crosses F P T k (Parser.branches block fuel test) := by
  induction fuel generalizing test with
  | zero =>
    refine .bind (of_local (C := True) Parser.lastSeen_reads fun _ => Parser.lastSeen_local) ?_
    exact fun _ => .fail
  | succ fuel ih =>
    refine hiddenLabel.bind fun otherwise => (emit _).bind fun _ => (hblock _).bind fun _ => ?_
    refine (next _).bind fun t => ?_
    split
    · exact emit _
    · refine capturing (hblock _) (fun body => (word _).bind fun _ => ?_) ?_
      · split
        · exact emit _
        · exact hiddenLabel.bind fun _ => emit _
      · intro settled body body' s s' t exchanged twin same run final
        obtain ⟨full, full'⟩ := exchanged.isEmpty_eq_false
        obtain ⟨_, s₁, ended, run⟩ := Parser.bind_eq_done.mp run
        simp only [full, Bool.false_eq_true, if_false] at run
        cases run
        have grows : s₁.Grows T.state := by
          refine .trans ?_ final
          exact .of_same rfl rfl rfl (Nat.le_succ _)
        obtain ⟨s₁', ended', twin', new, wrote, wrote'⟩ :=
          (word (F := F) (P := P) (k := k) .ENDIF).follows settled twin ended grows
        have code : s₁'.code = s₁.code := by rw [wrote', wrote, same]
        rw [Parser.bind_of_done ended']
        simp only [full', Bool.false_eq_true, if_false]
        refine ⟨_, rfl, ⟨twin'.pending, twin'.lastSeen, twin'.problems, ?_, twin'.symbols⟩, ?_⟩
        · exact congrArg (· + 1) twin'.hiddenLabels
        · change Exchanged P (s₁.code ++ _) (s₁'.code ++ _)
          rw [code, twin'.hiddenLabels]
          exact ((exchanged.behind _).append _).behind _
    · refine hiddenLabel.bind fun done => (emit _).bind fun _ => condition.bind fun test => ?_
      exact (word _).bind fun _ => (ih test).bind fun _ => emit _
    · exact .fail

theorem ifStatement (hblock : ∀ ends, Crosses F P T k (block ends)) :
    Crosses F P T k (Parser.ifStatement block) :=
  condition.bind fun test => (word _).bind fun _ => left.bind fun _ => branches hblock _ test

theorem whileLoop (hblock : ∀ ends, Crosses F P T k (block ends)) :
    Crosses F P T k (Parser.whileLoop block) := by
  refine .bind (of_local (C := True) Parser.openParen_reads fun _ => Parser.openParen_local) ?_
  refine fun _ => loopCondition.bind fun test? => ?_
  refine .bind (of_local (C := True) Parser.closeParen_reads fun _ => Parser.closeParen_local) ?_
  refine fun _ => hiddenLabel.bind fun start => (emit _).bind fun _ => ?_
  cases test? with
  | some test =>
    refine hiddenLabel.bind fun done => (emit _).bind fun _ => (hblock _).bind fun _ => ?_
    exact (word _).bind fun _ => emit _
  | none => exact (hblock _).bind fun _ => (word _).bind fun _ => emit _

theorem doLoop (hblock : ∀ ends, Crosses F P T k (block ends)) :
    Crosses F P T k (Parser.doLoop block) :=
  hiddenLabel.bind fun _ => (emit _).bind fun _ => (hblock _).bind fun _ =>
    (word _).bind fun _ => condition.bind fun _ => emit _

theorem statementOf (hblock : ∀ ends, Crosses F P T k (block ends)) {w : Keyword}
    (compound : hasBlocks w = true) (place : Location) :
    Crosses F P T k (Parser.statementOf block w place) := by
  cases w <;> first | contradiction | skip
  · exact ifStatement hblock
  · exact whileLoop hblock
  · exact doLoop hblock

end Blocks

end Crosses

/-! ## Blocks and programs -/

/-- A block that begins behind the separator is read in both scripts. -/
def Passable (F : Fork) (P : Instruction → Instruction → Prop) (T : Accepted) : Prop :=
  ∀ ⦃fuel ends s t⦄, s.pending = F.first → F.first.length ≤ fuel →
    Parser.block fuel ends false s = .done () t → t.Grows T.state →
    ∃ t', Parser.block fuel ends false { s with pending := F.second } = .done () t' ∧
      Behind P t t'

variable {F : Fork} {P : Instruction → Instruction → Prop} {T : Accepted}

/-- One statement in front of the fork. -/
theorem attempt_crosses {fuel : Nat} {s s' t : State} {token : Token} {place : Location}
    {rest : List Lexeme} (strict : T.strict = true) (settled : T.state.symbols.Settled)
    (ih : ∀ ends, Crosses F P T fuel (Parser.inner fuel ends)) (front : F.Front s s')
    (few : s.pending.length ≤ fuel + 1) (pending : s.pending = ⟨.ok token, place⟩ :: rest)
    (inside : isSeparator token = false)
    (run : Parser.attempt (Parser.statement (Parser.inner fuel)) s = .done () t)
    (final : t.Grows T.state) :
    ∃ t', Parser.attempt (Parser.statement (Parser.inner fuel)) s' = .done () t' ∧
      (F.Front t t' ∨ Behind P t t') := by
  have writes : Parser.Writes T True (Parser.statement (Parser.inner fuel)) [] :=
    Parser.statement_writes fun ends => Parser.block_writes strict fuel ends false
  have done := Parser.done_of_attempt writes run final
  suffices h : ∃ t', Parser.statement (Parser.inner fuel) s' = .done () t' ∧
      (F.Front t t' ∨ Behind P t t') by
    obtain ⟨t', run', there⟩ := h
    exact ⟨t', Parser.attempt_of_done run', there⟩
  by_cases compound : ∃ w, token = .keyword w ∧ hasBlocks w = true
  · obtain ⟨w, rfl, compound⟩ := compound
    -- the word is read in both, since it is not the separator
    obtain ⟨rest', pending', onward⟩ := front.token pending inside
    rw [Parser.statement_of_keyword _ pending] at done
    rw [Parser.statement_of_keyword _ pending']
    refine (Crosses.statementOf ih compound place).crosses settled onward ?_ done final
    rw [pending] at few
    exact Nat.le_of_succ_le_succ few
  · have isLocal (u : State) (clean : u.Clean) (inFront : u.pending <+: s.pending) :
        Parser.LocalAt u (Parser.statement (Parser.inner fuel))
          (Parser.statement (Parser.inner fuel)) := by
      refine Parser.statement_local _ _ clean fun w place' rest' here => ?_
      obtain ⟨more, same⟩ := inFront
      rw [here, pending] at same
      cases same
      by_contra ne
      exact compound ⟨w, rfl, by simpa using ne⟩
    obtain ⟨t', run', front'⟩ := front.run_local isLocal done
    exact ⟨t', run', .inl front'⟩

/-- A block gets across the fork, wherever in it the fork stands. -/
theorem block_crosses (strict : T.strict = true) (passable : F.Passable P T) (fuel : Nat)
    (ends : List Keyword) (needsColon : Bool) :
    Crosses F P T fuel (Parser.block fuel ends needsColon) := by
  induction fuel generalizing ends needsColon with
  | zero =>
    have writes := Parser.block_writes (C := True) strict 0 ends needsColon
    refine ⟨writes.grows_of_done, writes.follows, fun _ s s' a t front few _ _ => ?_⟩
    obtain ⟨xs, -, here, -⟩ := front
    simp [here] at few
  | succ fuel ih =>
    have writes := Parser.block_writes (C := True) strict (fuel + 1) ends needsColon
    refine ⟨writes.grows_of_done, writes.follows, fun settled s s' a t front few run final => ?_⟩
    have left (rest : List Lexeme) {l : Lexeme} (here : s.pending = l :: rest) :
        rest.length ≤ fuel := by
      rw [here] at few
      exact Nat.le_of_succ_le_succ few
    obtain ⟨here, rfl⟩ | ⟨token, place, rest, rest', here, here', onward⟩ := front.cases
    · -- the separator of the fork
      have there : ({ s with pending := F.mark :: F.second } : State).pending =
          ⟨.ok F.separator, F.place⟩ :: F.second := rfl
      rw [Fork.mark] at here
      rw [Parser.block_over here F.isSeparator_eq] at run
      rw [Parser.block_over there F.isSeparator_eq]
      obtain ⟨t', run', behind⟩ := passable rfl (left _ here) run final
      exact ⟨t', run', .inr behind⟩
    cases separator : isSeparator token with
    | true =>
      rw [Parser.block_over here separator] at run
      rw [Parser.block_over here' separator]
      exact ((Crosses.emit _).bind fun _ => ih ends false).crosses settled onward (left rest here)
        run final
    | false =>
      cases ended : blockEnd? token with
      | some w =>
        rw [Parser.block_ended here ended] at run
        rw [Parser.block_ended here' ended]
        split at run
        · next stops =>
          cases run
          exact ⟨s', if_pos stops, .inl front⟩
        · -- the end of another block is a problem
          exact absurd final (Parser.not_grows_of_report
            (Parser.block_writes strict fuel ends needsColon) (by simp) run)
      | none =>
        rw [Parser.block_opens here separator ended] at run
        rw [Parser.block_opens here' separator ended]
        obtain ⟨_, u, tried, run⟩ := Parser.bind_eq_done.mp run
        have front' : F.Front (s.noticing needsColon place) (s'.noticing needsColon place) :=
          front.update _ (fun _ => Parser.noticing_pending) fun _ _ => by cases needsColon <;> rfl
        obtain ⟨u', tried', there⟩ := attempt_crosses strict settled (fun ends => ih ends false)
          front' (by rwa [Parser.noticing_pending]) (Parser.noticing_pending.trans here) separator
          tried (((ih _ _).grows run).trans final)
        rw [Parser.bind_of_done tried']
        rcases there with front'' | behind
        · have fewer := Parser.statement_takes
            (fun ends => Parser.block_writes rfl fuel ends false)
            (Parser.noticing_pending.trans here) separator tried
          exact (ih _ _).crosses settled front'' (Nat.le_trans fewer (left rest here)) run final
        · obtain ⟨t', run', behind'⟩ := behind.follow (ih _ _).follows settled run final
          exact ⟨t', run', .inr behind'⟩

/-- A program gets across the fork. -/
theorem program_crosses (strict : T.strict = true) (settled : T.state.symbols.Settled)
    (passable : F.Passable P T) {s s' t : State} (front : F.Front s s')
    (run : Parser.program s = .done () t) (final : t.Grows T.state) :
    ∃ t', Parser.program s' = .done () t' ∧ Behind P t t' := by
  have few : s'.pending.length = s.pending.length := by
    obtain ⟨xs, -, here, rfl⟩ := front
    simp [here, F.length_eq]
  unfold Parser.program at run ⊢
  rw [Parser.bind_of_done Parser.left_apply, Parser.programFor,
    Parser.bind_of_done Parser.left_apply] at run ⊢
  obtain ⟨_, u, first, rest⟩ := Parser.bind_eq_done.mp run
  have tail : Parser.Writes T True _ [] := Parser.unmatched_writes fun {C} =>
    Parser.programFor_writes (T := T) (C := C) strict s.pending.length
  have onward := tail.grows_of_done rest
  obtain ⟨u', first', front' | behind⟩ := (block_crosses strict passable _ [] false).crosses settled
    front le_rfl first (onward.trans final)
  · -- a word that ends a block is a problem here, so there is none in front of the fork
    obtain nil | ⟨w, place, more, pending, -⟩ := Parser.block_stops [] false le_rfl u first
    · obtain ⟨xs, -, here, -⟩ := front'
      simp [nil] at here
    · rw [Parser.bind_of_done (Parser.advance_token pending)] at rest
      exact absurd final (Parser.not_grows_of_report (Parser.programFor_writes strict _) (by simp)
        rest)
  · rw [few, Parser.bind_of_done first']
    exact behind.follow tail.follows settled rest final

end Fork

end Gamebook.Grammar
