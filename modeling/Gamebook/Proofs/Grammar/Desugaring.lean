import Gamebook.Proofs.Grammar.References
import Gamebook.Proofs.Grammar.Rendering

/-!
# Branches and loops as jumps

A program that is rendered as tokens is accepted, and its code is the flow with jumps for its
branches and loops (`Renders.reads`). So it does what the flow says (`read_runs_as_flow`), whatever
its instructions mean.

There are three parsers that call each other: of blocks, of statements and of what stands behind
`THEN`. `Part.Reads` says of each of them that it reads a part to its end and writes its flow, and
the induction is on the rendering. Whatever is read again is bounded by the number of tokens that
are left, which is enough as a token is read each time.
-/

namespace Gamebook.Grammar

/-- A block ends here: at the end of the script or at one of the words. -/
def EndsBlock (ends : List Keyword) (rest : List Lexeme) : Prop :=
  Next (fun t => ∃ k, t = .keyword k ∧ isBlockEnd k = true ∧
    (ends.isEmpty || ends.contains k) = true) rest

namespace Parser

/-- From `s`, the parser reads up to `rest` and writes code for the flow. -/
def Yields (q : Parser Unit) (s : State) (rest : List Lexeme) (p : Flow) (t : Symbol.Table) :
    Prop :=
  ∃ s' c, q s = .done () s' ∧ s.Advanced rest c t s' ∧ Lowered p c

/-- The blocks inside a statement. -/
abbrev inner (fuel : Nat) (ends : List Keyword) : Parser Unit := block fuel ends false

end Parser

/-- The part is read to its end, and code for its flow is written. -/
def Part.Reads : Part → Symbol.Table → List Lexeme → List Lexeme → Flow → Symbol.Table → Prop
  | .block, t, ls, rest, p, t' => ∀ (fuel : Nat) (ends : List Keyword) (needsColon : Bool)
      (s : State), s.At t (ls ++ rest) → (ls ++ rest).length ≤ fuel → EndsBlock ends rest →
      (needsColon = true → Next (endsStatement · = true) (ls ++ rest)) →
      Parser.Yields (Parser.block fuel ends needsColon) s rest p t'
  | .statement, t, ls, rest, p, t' => ∀ (fuel : Nat) (s : State), s.At t (ls ++ rest) →
      (ls ++ rest).length ≤ fuel + 1 →
      Parser.Yields (Parser.statement (Parser.inner fuel)) s rest p t'
  | .branches test, t, ls, rest, p, t' => ∀ (fuel n : Nat) (s : State), s.At t (ls ++ rest) →
      (ls ++ rest).length ≤ fuel → (ls ++ rest).length < n → Straight test →
      Parser.Yields (Parser.branches (Parser.inner fuel) n test) s rest p t'

namespace Parser

variable {s s' : State} {t t' t₁ : Symbol.Table} {token : Token} {place : Location}
  {ls xs ys cs rest : List Lexeme} {fuel n : Nat} {ends : List Keyword} {needsColon : Bool}
  {p q : Flow} {test c : List Instruction}

/-! ## Blocks -/

theorem block_end (here : s.At t rest) (ended : EndsBlock ends rest) :
    block fuel ends needsColon s = .done () s := by
  cases fuel with
  | zero => rfl
  | succ fuel =>
    rw [block]
    obtain rfl | ⟨token, place, rest', rfl, k, rfl, isEnd, wanted⟩ := ended
    · rw [bind_of_done (peekLocated_nil here.pending)]
      rfl
    · rw [bind_of_done (peekLocated_token here.pending)]
      have found : blockEnd? (.keyword k) = some k := if_pos isEnd
      simp only [found, wanted, if_true]
      rfl

theorem block_separator (pending : s.pending = ⟨.ok token, place⟩ :: rest)
    (separator : isSeparator token = true) (plain : ∀ bytes, token ≠ .text bytes) :
    block (fuel + 1) ends needsColon s = block fuel ends false (s.behind place rest) := by
  rw [block, bind_of_done (peekLocated_token pending)]
  cases token with
  | colon | lineBreak | openCode | closeCode => exact bind_of_done (advance_token pending)
  | text bytes => exact absurd rfl (plain bytes)
  | _ => contradiction

theorem block_text {bytes : List UInt8} (pending : s.pending = ⟨.ok (.text bytes), place⟩ :: rest) :
    block (fuel + 1) ends needsColon s =
      (emit [.text bytes] >>= fun _ => block fuel ends false) (s.behind place rest) := by
  rw [block, bind_of_done (peekLocated_token pending)]
  exact bind_of_done (advance_token pending)

theorem attempt_of_done {p : Parser Unit} (h : p s = .done () s') : attempt p s = .done () s' := by
  rw [attempt, h]

/-- A statement of a block. Behind it, a colon may be needed, but not behind a short label. -/
theorem block_statement (ends : List Keyword) (pending : s.pending = ⟨.ok token, place⟩ :: rest)
    (opens : endsStatement token = false) (run : statement (inner fuel) s = .done () s') :
    ∃ needed, block (fuel + 1) ends false s = block fuel ends needed s' ∧
      ∀ name, token = .shortLabel name → needed = false := by
  simp only [endsStatement, Bool.or_eq_false_iff, Option.isSome_eq_false_iff,
    Option.isNone_iff_eq_none] at opens
  rw [block, bind_of_done (peekLocated_token pending)]
  simp only [opens.2]
  cases token with
  | colon | lineBreak | openCode | closeCode | text => simp [isSeparator] at opens
  | shortLabel name => exact ⟨false, bind_of_done (attempt_of_done run), fun _ _ => rfl⟩
  | _ => exact ⟨true, bind_of_done (attempt_of_done run), by rintro _ ⟨⟩⟩

theorem reads_nil : Part.Reads .block t [] rest .skip t := by
  intro fuel ends needsColon s here _ ended _
  exact ⟨s, [], block_end here ended, .refl here, .skip⟩

theorem reads_separator (separator : isSeparator token = true)
    (plain : ∀ bytes, token ≠ .text bytes) (h : Part.Reads .block t ls rest p t') :
    Part.Reads .block t (⟨.ok token, place⟩ :: ls) rest p t' := by
  intro fuel ends needsColon s here few ended _
  cases fuel with
  | zero => contradiction
  | succ fuel =>
    have behind := (State.Advanced.refl here).behind
    obtain ⟨s', c, run, adv, lowered⟩ :=
      h fuel ends false _ behind.here (Nat.le_of_succ_le_succ few) ended nofun
    refine ⟨s', c, ?_, behind.trans adv, lowered⟩
    rw [block_separator here.pending separator plain]
    exact run

theorem reads_prose {bytes : List UInt8} (h : Part.Reads .block t ls rest p t') :
    Part.Reads .block t (⟨.ok (.text bytes), place⟩ :: ls) rest
      (.seq (.straight [.text bytes]) p) t' := by
  intro fuel ends needsColon s here few ended _
  cases fuel with
  | zero => contradiction
  | succ fuel =>
    obtain ⟨s₁, wrote, adv₁⟩ := (State.Advanced.refl here).behind.emit [.text bytes]
    obtain ⟨s₂, c, run, adv₂, lowered⟩ :=
      h fuel ends false s₁ adv₁.here (Nat.le_of_succ_le_succ few) ended nofun
    refine ⟨s₂, [.text bytes] ++ c, ?_, adv₁.trans adv₂, .seq (.straight ?_) lowered⟩
    · rw [block_text here.pending, bind_of_done wrote, run]
    · exact List.forall_mem_singleton.mpr rfl

theorem reads_cons (first : Renders .statement t xs (ys ++ rest) p t₁)
    (hx : Part.Reads .statement t xs (ys ++ rest) p t₁)
    (divided : Next (endsStatement · = true) (ys ++ rest) ∨
      ∃ name place ls, xs = ⟨.ok (.shortLabel name), place⟩ :: ls)
    (hy : Part.Reads .block t₁ ys rest q t') :
    Part.Reads .block t (xs ++ ys) rest (.seq p q) t' := by
  intro fuel ends needsColon s here few ended colon
  rw [List.append_assoc] at here few colon
  obtain ⟨token, place, tail, rfl, opens⟩ := first.opens
  -- A colon is not needed here, as no separator comes next.
  obtain rfl : needsColon = false := by
    cases needsColon with
    | false => rfl
    | true =>
      obtain nil | ⟨token', place', rest', next, ends⟩ := colon rfl
      · contradiction
      · cases next
        simp [opens] at ends
  cases fuel with
  | zero => contradiction
  | succ fuel =>
    obtain ⟨s₁, c, run₁, adv₁, lowered₁⟩ := hx fuel s here few
    obtain ⟨needed, next, short⟩ := block_statement ends here.pending opens run₁
    have few : (ys ++ rest).length ≤ fuel := by
      simp only [List.cons_append, List.length_cons, List.length_append] at few ⊢
      omega
    have colon : needed = true → Next (endsStatement · = true) (ys ++ rest) := by
      intro wanted
      refine divided.resolve_right ?_
      rintro ⟨name, place', ls, same⟩
      cases same
      simp [short name rfl] at wanted
    obtain ⟨s₂, d, run₂, adv₂, lowered₂⟩ := hy fuel ends needed s₁ adv₁.here few ended colon
    exact ⟨s₂, c ++ d, next.trans run₂, adv₁.trans adv₂, .seq lowered₁ lowered₂⟩

/-- A block inside a statement, up to the word that ends it. -/
theorem inner_run {w : Keyword} (ends : List Keyword)
    (body : Part.Reads .block t ls (⟨.ok (.keyword w), place⟩ :: rest) p t')
    (isEnd : isBlockEnd w = true) (wanted : ends.contains w = true)
    (here : s.At t (ls ++ ⟨.ok (.keyword w), place⟩ :: rest))
    (few : (ls ++ ⟨.ok (.keyword w), place⟩ :: rest).length ≤ fuel) :
    Yields (inner fuel ends) s (⟨.ok (.keyword w), place⟩ :: rest) p t' := by
  have ended : EndsBlock ends (⟨.ok (.keyword w), place⟩ :: rest) :=
    .inr ⟨.keyword w, place, rest, rfl, w, rfl, isEnd, by rw [wanted, Bool.or_true]⟩
  exact body fuel ends false s here few ended nofun

/-! ## Statements -/

theorem reads_simple (opens : opensSimple token = true)
    (reads : ReadsAs (statement fun _ => pure ()) t (⟨.ok token, place⟩ :: ls) rest () c t')
    (straight : Straight c) :
    Part.Reads .statement t (⟨.ok token, place⟩ :: ls) rest (.straight c) t' := by
  intro fuel s here _
  have isLocal (s : State) (clean : s.Clean)
      (pending : s.pending = ⟨.ok token, place⟩ :: ls ++ rest.take 1) :
      LocalAt s (statement fun _ => pure ()) (statement (inner fuel)) := by
    refine statement_local _ _ clean fun w place' rest' pending' => ?_
    cases pending.symm.trans pending'
    simp only [opensSimple, Bool.and_eq_true, Bool.not_eq_true'] at opens
    exact opens.1
  obtain ⟨s', run, adv⟩ := reads.run here isLocal
  exact ⟨s', c, run, adv, .straight straight⟩

theorem statement_of_keyword {w : Keyword} (block : List Keyword → Parser Unit)
    (pending : s.pending = ⟨.ok (.keyword w), place⟩ :: rest) :
    statement block s = statementOf block w place (s.behind place rest) := by
  rw [statement, bind_of_done (next_token _ pending rfl)]

theorem condition_run (reads : ReadsAs condition t cs rest test [] t₁)
    (here : s.At t (cs ++ rest)) :
    ∃ s', condition s = .done test s' ∧ s.Advanced rest [] t₁ s' :=
  reads.run here fun s clean _ => condition_local s clean (Nat.le_refl _)

theorem reads_ifThen {i j : Location}
    (reads : ReadsAs condition t cs (⟨.ok (.keyword .THEN), j⟩ :: (ls ++ rest)) test [] t₁)
    (h : Part.Reads (.branches test) t₁ ls rest p t') :
    Part.Reads .statement t
      (⟨.ok (.keyword .IF), i⟩ :: (cs ++ ⟨.ok (.keyword .THEN), j⟩ :: ls)) rest p t' := by
  intro fuel s here few
  simp only [List.cons_append, List.append_assoc] at here few
  have behind := (State.Advanced.refl here).behind
  obtain ⟨s₁, run₁, adv₁⟩ := condition_run reads behind.here
  obtain ⟨s₂, run₂, adv₂⟩ := adv₁.word
  have fits : (ls ++ rest).length ≤ fuel := by
    simp only [List.length_cons, List.length_append] at few ⊢
    omega
  have bound : (ls ++ rest).length < s₂.pending.length + 1 := by
    rw [adv₂.here.pending]
    exact Nat.lt_succ_self _
  obtain ⟨s₃, c, run₃, adv₃, lowered⟩ := h fuel _ s₂ adv₂.here fits bound reads.straight
  refine ⟨s₃, c, ?_, behind.trans (adv₂.trans adv₃), lowered⟩
  rw [statement_of_keyword _ here.pending]
  change (condition >>= _) _ = _
  rw [bind_of_done run₁, bind_of_done run₂, bind_of_done left_apply, run₃]

theorem loopCondition_none (pending : s.pending = ⟨.ok .closeParen, place⟩ :: rest) :
    loopCondition s = .done none s := by
  rw [loopCondition, bind_of_done (peek_token pending), if_pos rfl]
  rfl

/-- What is read as a condition does not begin with a bracket that closes. -/
theorem loopCondition_run
    (reads : ReadsAs condition t cs (⟨.ok .closeParen, place⟩ :: rest) test [] t₁)
    (here : s.At t (cs ++ ⟨.ok .closeParen, place⟩ :: rest)) :
    ∃ s', loopCondition s = .done (some test) s' ∧
      s.Advanced (⟨.ok .closeParen, place⟩ :: rest) [] t₁ s' := by
  obtain ⟨s', run, adv⟩ := condition_run reads here
  refine ⟨s', ?_, adv⟩
  obtain nil | ⟨token, place', rest', pending⟩ := here.clean.cases
  · simp [here.pending] at nil
  · have other : token ≠ .closeParen := by
      rintro rfl
      simp [condition_closeParen pending] at run
    rw [loopCondition, bind_of_done (peek_token pending), if_neg (by simpa using other),
      bind_of_done run]
    rfl

theorem reads_loop {h i j k : Location}
    (reads : ReadsAs condition t cs
      (⟨.ok .closeParen, j⟩ :: (ls ++ ⟨.ok (.keyword .WEND), k⟩ :: rest)) test [] t₁)
    (body : Part.Reads .block t₁ ls (⟨.ok (.keyword .WEND), k⟩ :: rest) p t') :
    Part.Reads .statement t
      (⟨.ok (.keyword .WHILE), h⟩ :: ⟨.ok .openParen, i⟩ ::
        (cs ++ ⟨.ok .closeParen, j⟩ :: (ls ++ [⟨.ok (.keyword .WEND), k⟩])))
      rest (.loop test p) t' := by
  intro fuel s here few
  simp only [List.cons_append, List.append_assoc, List.nil_append] at here few
  have fits : (ls ++ ⟨.ok (.keyword .WEND), k⟩ :: rest).length ≤ fuel := by
    simp only [List.length_cons, List.length_append] at few ⊢
    omega
  obtain ⟨s₁, run₁, adv₁⟩ := (State.Advanced.refl here).behind.openParen
  obtain ⟨s₂, run₂, adv₂⟩ := loopCondition_run reads adv₁.here
  obtain ⟨s₃, run₃, adv₃⟩ := (adv₁.trans adv₂).closeParen
  obtain ⟨start, s₄, run₄, adv₄⟩ := adv₃.hiddenLabel
  obtain ⟨s₅, run₅, adv₅⟩ := adv₄.emit [.label start]
  obtain ⟨done, s₆, run₆, adv₆⟩ := adv₅.hiddenLabel
  obtain ⟨s₇, run₇, adv₇⟩ := adv₆.emit (test ++ [.jump .IF_N_GOTO done])
  obtain ⟨s₈, c, run₈, adv₈, lowered⟩ := inner_run [.WEND] body rfl rfl adv₇.here fits
  obtain ⟨s₉, run₉, adv₉⟩ := (adv₇.trans adv₈).word
  obtain ⟨s', run, adv⟩ := adv₉.emit [.jump .GOTO start, .label done]
  refine ⟨s', _, ?_, adv, ?_⟩
  · rw [statement_of_keyword _ here.pending]
    change (openParen >>= _) _ = _
    rw [bind_of_done run₁, bind_of_done run₂, bind_of_done run₃, bind_of_done run₄,
      bind_of_done run₅]
    change (hiddenLabel >>= _) _ = _
    rw [bind_of_done run₆, bind_of_done run₇, bind_of_done run₈, bind_of_done run₉, run]
  · simpa using Lowered.loop start done reads.straight lowered

theorem reads_forever {h i j k : Location}
    (body : Part.Reads .block t ls (⟨.ok (.keyword .WEND), k⟩ :: rest) p t') :
    Part.Reads .statement t
      (⟨.ok (.keyword .WHILE), h⟩ :: ⟨.ok .openParen, i⟩ :: ⟨.ok .closeParen, j⟩ ::
        (ls ++ [⟨.ok (.keyword .WEND), k⟩]))
      rest (.forever p) t' := by
  intro fuel s here few
  simp only [List.cons_append, List.append_assoc, List.nil_append] at here few
  have fits : (ls ++ ⟨.ok (.keyword .WEND), k⟩ :: rest).length ≤ fuel := by
    simp only [List.length_cons, List.length_append] at few ⊢
    omega
  obtain ⟨s₁, run₁, adv₁⟩ := (State.Advanced.refl here).behind.openParen
  obtain ⟨s₂, run₂, adv₂⟩ := adv₁.closeParen
  obtain ⟨start, s₃, run₃, adv₃⟩ := adv₂.hiddenLabel
  obtain ⟨s₄, run₄, adv₄⟩ := adv₃.emit [.label start]
  obtain ⟨s₅, c, run₅, adv₅, lowered⟩ := inner_run [.WEND] body rfl rfl adv₄.here fits
  obtain ⟨s₆, run₆, adv₆⟩ := (adv₄.trans adv₅).word
  obtain ⟨s', run, adv⟩ := adv₆.emit [.jump .GOTO start]
  refine ⟨s', _, ?_, adv, ?_⟩
  · rw [statement_of_keyword _ here.pending]
    change (openParen >>= _) _ = _
    rw [bind_of_done run₁, bind_of_done (loopCondition_none adv₁.here.pending), bind_of_done run₂,
      bind_of_done run₃, bind_of_done run₄]
    change (inner fuel [.WEND] >>= _) _ = _
    rw [bind_of_done run₅, bind_of_done run₆, run]
  · simpa using Lowered.forever start lowered

theorem reads_repeatUntil {i j : Location}
    (body : Part.Reads .block t ls (⟨.ok (.keyword .UNTIL), j⟩ :: (cs ++ rest)) p t₁)
    (reads : ReadsAs condition t₁ cs rest test [] t') :
    Part.Reads .statement t
      (⟨.ok (.keyword .DO), i⟩ :: (ls ++ ⟨.ok (.keyword .UNTIL), j⟩ :: cs)) rest
      (.repeatUntil p test) t' := by
  intro fuel s here few
  simp only [List.cons_append, List.append_assoc] at here few
  have fits : (ls ++ ⟨.ok (.keyword .UNTIL), j⟩ :: (cs ++ rest)).length ≤ fuel := by
    simp only [List.length_cons, List.length_append] at few ⊢
    omega
  obtain ⟨start, s₁, run₁, adv₁⟩ := (State.Advanced.refl here).behind.hiddenLabel
  obtain ⟨s₂, run₂, adv₂⟩ := adv₁.emit [.label start]
  obtain ⟨s₃, c, run₃, adv₃, lowered⟩ := inner_run [.UNTIL] body rfl rfl adv₂.here fits
  obtain ⟨s₄, run₄, adv₄⟩ := (adv₂.trans adv₃).word
  obtain ⟨s₅, run₅, adv₅⟩ := condition_run reads adv₄.here
  obtain ⟨s', run, adv⟩ := (adv₄.trans adv₅).emit (test ++ [.jump .IF_N_GOTO start])
  refine ⟨s', _, ?_, adv, ?_⟩
  · rw [statement_of_keyword _ here.pending]
    change (hiddenLabel >>= _) _ = _
    rw [bind_of_done run₁, bind_of_done run₂, bind_of_done run₃, bind_of_done run₄,
      bind_of_done run₅, run]
  · simpa using Lowered.repeatUntil start reads.straight lowered

/-! ## Behind `THEN` -/

/-- The first branch, up to the word that ends it. What then is done depends on the word. -/
theorem first_branch {w : Keyword} (isEnd : isBlockEnd w = true)
    (wanted : [Keyword.ELSE, .ELSEIF, .ENDIF].contains w = true)
    (body : Part.Reads .block t ls (⟨.ok (.keyword w), place⟩ :: rest) p t')
    (here : s.At t (ls ++ ⟨.ok (.keyword w), place⟩ :: rest))
    (few : (ls ++ ⟨.ok (.keyword w), place⟩ :: rest).length ≤ fuel)
    (further : String → Located Token → Parser Unit) :
    ∃ s' otherwise c,
      (hiddenLabel >>= fun otherwise => emit (test ++ [.jump .IF_N_GOTO otherwise]) >>= fun _ =>
        inner fuel [.ELSE, .ELSEIF, .ENDIF] >>= fun _ => next "`ENDIF`" >>= further otherwise) s =
        further otherwise ⟨.keyword w, place⟩ s' ∧
      s.Advanced rest (test ++ .jump .IF_N_GOTO otherwise :: c) t' s' ∧ Lowered p c := by
  obtain ⟨otherwise, s₁, run₁, adv₁⟩ := (State.Advanced.refl here).hiddenLabel
  obtain ⟨s₂, run₂, adv₂⟩ := adv₁.emit (test ++ [.jump .IF_N_GOTO otherwise])
  obtain ⟨s₃, c, run₃, adv₃, lowered⟩ := inner_run _ body isEnd wanted adv₂.here few
  refine ⟨s₃.behind place rest, otherwise, c, ?_, ?_, lowered⟩
  · rw [bind_of_done run₁, bind_of_done run₂, bind_of_done run₃,
      bind_of_done (next_token _ adv₃.here.pending rfl)]
  · simpa using (adv₂.trans adv₃).behind

theorem reads_endif {i : Location}
    (body : Part.Reads .block t ls (⟨.ok (.keyword .ENDIF), i⟩ :: rest) p t') :
    Part.Reads (.branches test) t (ls ++ [⟨.ok (.keyword .ENDIF), i⟩]) rest
      (.branch test p .skip) t' := by
  intro fuel n s here few bound straight
  simp only [List.append_assoc, List.cons_append, List.nil_append] at here few bound
  cases n with
  | zero => contradiction
  | succ n =>
    obtain ⟨s₁, otherwise, c, run₁, adv₁, lowered⟩ := first_branch rfl rfl body here few _
    obtain ⟨s₂, run₂, adv₂⟩ := adv₁.emit [.label otherwise]
    refine ⟨s₂, _, run₁.trans run₂, adv₂, ?_⟩
    simpa using Lowered.branch otherwise straight lowered .skip

/-- What a parser writes can be taken back. -/
theorem captured_run {p : Parser Unit} (run : p { s with code := [] } = .done () s')
    (adv : State.Advanced { s with code := [] } rest c t s') :
    ∃ s'', captured p s = .done c s'' ∧ s.Advanced rest [] t s'' := by
  have wrote : s'.code = c := adv.wrote
  refine ⟨{ s' with code := s.code }, ?_, ⟨?_, ?_, ?_⟩, ?_, ?_⟩
  · rw [captured, run, ← wrote]
  · exact adv.here.pending
  · exact adv.here.symbols
  · exact adv.here.clean
  · exact adv.problems
  · exact (List.append_nil s.code).symm

theorem reads_otherwise {i j : Location}
    (first : Part.Reads .block t xs
      (⟨.ok (.keyword .ELSE), i⟩ :: (ys ++ ⟨.ok (.keyword .ENDIF), j⟩ :: rest)) p t₁)
    (second : Part.Reads .block t₁ ys (⟨.ok (.keyword .ENDIF), j⟩ :: rest) q t') :
    Part.Reads (.branches test) t
      (xs ++ ⟨.ok (.keyword .ELSE), i⟩ :: (ys ++ [⟨.ok (.keyword .ENDIF), j⟩])) rest
      (.branch test p q) t' := by
  intro fuel n s here few bound straight
  simp only [List.append_assoc, List.cons_append, List.nil_append] at here few bound
  cases n with
  | zero => contradiction
  | succ n =>
    obtain ⟨s₁, otherwise, c, run₁, adv₁, lowered₁⟩ := first_branch rfl rfl first here few _
    have fits : (ys ++ ⟨.ok (.keyword .ENDIF), j⟩ :: rest).length ≤ fuel := by
      simp only [List.length_cons, List.length_append] at few ⊢
      omega
    have empty : State.At { s₁ with code := [] } t₁ (ys ++ ⟨.ok (.keyword .ENDIF), j⟩ :: rest) :=
      ⟨adv₁.here.pending, adv₁.here.symbols, adv₁.here.clean⟩
    obtain ⟨s₂, d, run₂, adv₂, lowered₂⟩ := inner_run [.ENDIF] second rfl rfl empty fits
    obtain ⟨s₃, run₃, adv₃⟩ := captured_run run₂ adv₂
    obtain ⟨s₄, run₄, adv₄⟩ := (adv₁.trans adv₃).word
    -- Nothing is jumped over if nothing was written.
    cases d with
    | nil =>
      obtain ⟨s', run, adv⟩ := adv₄.emit [.label otherwise]
      refine ⟨s', _, run₁.trans ?_, adv, ?_⟩
      · change (captured (inner fuel [.ENDIF]) >>= _) _ = _
        rw [bind_of_done run₃, bind_of_done run₄]
        exact run
      · simpa using Lowered.branch otherwise straight lowered₁ lowered₂
    | cons instruction d =>
      obtain ⟨done, s₅, run₅, adv₅⟩ := adv₄.hiddenLabel
      obtain ⟨s', run, adv⟩ := adv₅.emit
        ([.jump .GOTO done, .label otherwise] ++ instruction :: d ++ [.label done])
      refine ⟨s', _, run₁.trans ?_, adv, ?_⟩
      · change (captured (inner fuel [.ENDIF]) >>= _) _ = _
        rw [bind_of_done run₃, bind_of_done run₄]
        change (hiddenLabel >>= _) _ = _
        rw [bind_of_done run₅, run]
      · simpa using Lowered.branchElse otherwise done straight lowered₁ lowered₂

theorem reads_elseIf {i j : Location} {test' : List Instruction} {t₂ : Symbol.Table}
    (first : Part.Reads .block t xs
      (⟨.ok (.keyword .ELSEIF), i⟩ :: (cs ++ ⟨.ok (.keyword .THEN), j⟩ :: (ys ++ rest))) p t₁)
    (reads : ReadsAs condition t₁ cs (⟨.ok (.keyword .THEN), j⟩ :: (ys ++ rest)) test' [] t₂)
    (second : Part.Reads (.branches test') t₂ ys rest q t') :
    Part.Reads (.branches test) t
      (xs ++ ⟨.ok (.keyword .ELSEIF), i⟩ :: (cs ++ ⟨.ok (.keyword .THEN), j⟩ :: ys)) rest
      (.branch test p q) t' := by
  intro fuel n s here few bound straight
  simp only [List.append_assoc, List.cons_append] at here few bound
  cases n with
  | zero => contradiction
  | succ n =>
    obtain ⟨s₁, otherwise, c, run₁, adv₁, lowered₁⟩ := first_branch rfl rfl first here few _
    obtain ⟨done, s₂, run₂, adv₂⟩ := adv₁.hiddenLabel
    obtain ⟨s₃, run₃, adv₃⟩ := adv₂.emit [.jump .GOTO done, .label otherwise]
    obtain ⟨s₄, run₄, adv₄⟩ := condition_run reads adv₃.here
    obtain ⟨s₅, run₅, adv₅⟩ := (adv₃.trans adv₄).word
    simp only [List.length_cons, List.length_append] at few bound
    have fits : (ys ++ rest).length ≤ fuel ∧ (ys ++ rest).length < n := by
      rw [List.length_append]
      omega
    obtain ⟨s₆, d, run₆, adv₆, lowered₂⟩ :=
      second fuel n s₅ adv₅.here fits.1 fits.2 reads.straight
    obtain ⟨s', run, adv⟩ := (adv₅.trans adv₆).emit [.label done]
    refine ⟨s', _, run₁.trans ?_, adv, ?_⟩
    · change (hiddenLabel >>= _) _ = _
      rw [bind_of_done run₂, bind_of_done run₃, bind_of_done run₄, bind_of_done run₅,
        bind_of_done run₆, run]
    · simpa using Lowered.branchElse otherwise done straight lowered₁ lowered₂

end Parser

/-! ## Whole programs -/

/-- **A part that is rendered is read**, and code for its flow is written. -/
theorem Renders.reads {part : Part} {t t' : Symbol.Table} {ls rest : List Lexeme} {p : Flow}
    (h : Renders part t ls rest p t') : part.Reads t ls rest p t' := by
  induction h with
  | nil => exact Parser.reads_nil
  | separator separator plain _ ih => exact Parser.reads_separator separator plain ih
  | prose _ ih => exact Parser.reads_prose ih
  | cons first divided _ ihx ihy => exact Parser.reads_cons first ihx divided ihy
  | simple opens reads straight => exact Parser.reads_simple opens reads straight
  | ifThen reads _ ih => exact Parser.reads_ifThen reads ih
  | loop reads _ ih => exact Parser.reads_loop reads ih
  | forever _ ih => exact Parser.reads_forever ih
  | repeatUntil _ reads ih => exact Parser.reads_repeatUntil ih reads
  | endif _ ih => exact Parser.reads_endif ih
  | otherwise _ _ ihx ihy => exact Parser.reads_otherwise ihx ihy
  | elseIf _ reads _ ihx ihy => exact Parser.reads_elseIf ihx reads ihy

/-- A program that is rendered is read to its end without a problem. -/
theorem program_of_renders {ls : List Lexeme} {p : Flow} {t : Symbol.Table}
    (h : Renders .block .empty ls [] p t) : ∃ s, Parser.program (State.start ls) = .done () s ∧
      s.problems = [] ∧ s.symbols = t ∧ Lowered p s.code := by
  have here : (State.start ls).At .empty (ls ++ []) :=
    ⟨(List.append_nil ls).symm, rfl, h.tokens⟩
  obtain ⟨s, c, run, adv, lowered⟩ := h.reads ls.length [] false (State.start ls) here
    (by simp) (.inl rfl) nofun
  refine ⟨s, ?_, adv.problems, adv.here.symbols, ?_⟩
  · change (Parser.block ls.length [] false >>= _) _ = _
    rw [Parser.bind_of_done run, Parser.bind_of_done (Parser.advance_nil adv.here.pending)]
    rfl
  · rw [adv.wrote]
    exact lowered

/-- **Branches and loops do what they say.** A script that renders a structured program, in which
every name that is used is declared, is accepted. Whatever its instructions do to the states of a
machine, its code runs off the end in a state if and only if the structured program ends in it. -/
theorem code_runs_as_flow {ls : List Lexeme} {p : Flow} {t : Symbol.Table}
    (rendered : Renders .block .empty ls [] p t) (names : t.finish = []) :
    ∃ reading program, read ls = some reading ∧
      (∀ o : Options, reading.accept o = .ok program) ∧
      ∀ (S : Type) (m : Machine S) (s s' : S), m.RunsOff program.code s s' ↔ m.Ends p s s' := by
  obtain ⟨final, run, fine, rfl, lowered⟩ := program_of_renders rendered
  have accepted := accept_of_done run fine (Symbol.Table.finish_eq_nil_iff.mp names)
  refine ⟨_, _, (accepted {}).1, fun o => (accepted o).2, fun S m s s' => ?_⟩
  obtain ⟨T, same, complete⟩ := complete_of_accept (accepted {}).1 (accepted {}).2
  obtain ⟨code_eq, -⟩ := Program.mk.inj same
  refine Machine.runsOff_iff_ends ?_ lowered
  rw [code_eq]
  exact complete.closed.labels_nodup

/-! ### A loop with branches in it -/

/-- A statement, a colon and the rest of the block. -/
theorem Renders.colon {t t₁ t' : Symbol.Table} {xs ys rest : List Lexeme} {p q : Flow}
    {place : Location} (h : Renders .statement t xs (⟨.ok .colon, place⟩ :: (ys ++ rest)) p t₁)
    (h' : Renders .block t₁ ys rest q t') :
    Renders .block t (xs ++ ⟨.ok .colon, place⟩ :: ys) rest (.seq p q) t' :=
  .cons h (.inl (.inr ⟨.colon, place, _, rfl, rfl⟩)) (.separator rfl nofun h')

/-- The code of `@n`. -/
def contentCode (n : UInt8) : List Instruction := [.code .PUSH_I [.variable (.slot n)]]

/-- `WHILE (@0) IF @1 THEN CLEAR: ELSEIF @2 THEN CENTER: ELSE WAITKEY: ENDIF: DO RANDOMIZE: UNTIL
@3: WEND:` -/
def watchTokens : List Lexeme :=
  [.keyword .WHILE, .openParen, .indirection, .number 0, .closeParen,
    .keyword .IF, .indirection, .number 1, .keyword .THEN, .keyword .CLEAR, .colon,
    .keyword .ELSEIF, .indirection, .number 2, .keyword .THEN, .keyword .CENTER, .colon,
    .keyword .ELSE, .keyword .WAITKEY, .colon, .keyword .ENDIF, .colon,
    .keyword .DO, .keyword .RANDOMIZE, .colon, .keyword .UNTIL, .indirection, .number 3, .colon,
    .keyword .WEND, .colon].map (⟨.ok ·, .nowhere⟩)

/-- What the script does. -/
def watchFlow : Flow :=
  let act (op : Opcode) : Flow := .seq (.straight [.op op]) .skip
  let branches : Flow := .branch (contentCode 1) (act .CLEAR)
    (.branch (contentCode 2) (act .CENTER) (act .WAITKEY))
  let inner : Flow := .repeatUntil (act .RANDOMIZE) (contentCode 3)
  .seq (.loop (contentCode 0) (.seq branches (.seq inner .skip))) .skip

theorem readsAs_content (n : UInt8) {rest : List Lexeme} (ends : Next (goesOn · = false) rest) :
    ReadsAs Parser.condition .empty
      [⟨.ok .indirection, .nowhere⟩, ⟨.ok (.number n.toNat), .nowhere⟩] rest
      (contentCode n) [] .empty :=
  (Written.of_primary (.reference ⟨.slot n, .nowhere⟩ (.content .nowhere)) .or).readsAs ends trivial
    nofun rfl

/-- A word that is an instruction by itself, and a colon. -/
theorem renders_act {w : Keyword} {op : Opcode} (opens : opensSimple (.keyword w) = true)
    (acts : Parser.statementOf (fun _ => pure ()) w .nowhere = Parser.emit [.op op])
    (straight : op.isJump = false) (rest : List Lexeme) :
    Renders .block .empty [⟨.ok (.keyword w), .nowhere⟩, ⟨.ok .colon, .nowhere⟩] rest
      (.seq (.straight [.op op]) .skip) .empty := by
  have word : Renders .statement .empty [⟨.ok (.keyword w), .nowhere⟩]
      (⟨.ok .colon, .nowhere⟩ :: rest) (.straight [.op op]) .empty := by
    refine .simple opens ⟨by simp, fun seen => ?_⟩ (List.forall_mem_singleton.mpr ?_)
    · exact ⟨_, (Parser.statement_of_keyword _ rfl).trans (congrFun acts _), rfl, rfl, rfl, rfl⟩
    · simp [Instruction.op, Instruction.isStraight, straight]
  exact word.colon .nil

theorem renders_watchTokens : Renders .block .empty watchTokens [] watchFlow .empty := by
  have clear := renders_act (w := .CLEAR) rfl rfl rfl
  have center := renders_act (w := .CENTER) rfl rfl rfl
  have waitKey := renders_act (w := .WAITKEY) rfl rfl rfl
  have randomize := renders_act (w := .RANDOMIZE) rfl rfl rfl
  have test (n : UInt8) (next : Token) (stops : goesOn next = false) (rest : List Lexeme) :=
    readsAs_content n (.inr ⟨next, .nowhere, rest, rfl, stops⟩)
  have branches (rest : List Lexeme) :=
    Renders.ifThen (i := .nowhere) (test 1 (.keyword .THEN) rfl _)
      (.elseIf (i := .nowhere) (clear _) (test 2 (.keyword .THEN) rfl _)
        (.otherwise (i := .nowhere) (center _)
          (waitKey (⟨.ok (.keyword .ENDIF), .nowhere⟩ :: ⟨.ok .colon, .nowhere⟩ :: rest))))
  have inner (rest : List Lexeme) :=
    Renders.repeatUntil (i := .nowhere) (j := .nowhere) (randomize _) (test 3 .colon rfl rest)
  have body (rest : List Lexeme) := (branches _).colon ((inner rest).colon .nil)
  exact (Renders.loop (h := .nowhere) (i := .nowhere) (test 0 .closeParen rfl _)
    (body [⟨.ok (.keyword .WEND), .nowhere⟩, ⟨.ok .colon, .nowhere⟩])).colon .nil

theorem code_runs_as_flow_watchTokens :
    Renders .block .empty watchTokens [] watchFlow .empty ∧ Symbol.Table.empty.finish = [] ∧
      ∃ reading program, read watchTokens = some reading ∧
        (∀ o : Options, reading.accept o = .ok program) ∧
        ∀ (S : Type) (m : Machine S) (s s' : S),
          m.RunsOff program.code s s' ↔ m.Ends watchFlow s s' := by
  have names : Symbol.Table.empty.finish = [] := Symbol.Table.finish_eq_nil_iff.mpr nofun
  exact ⟨renders_watchTokens, names, code_runs_as_flow renders_watchTokens names⟩

end Gamebook.Grammar
