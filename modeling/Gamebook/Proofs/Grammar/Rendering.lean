import Gamebook.Proofs.Bytecode.Control
import Gamebook.Proofs.Grammar.Branches
import Gamebook.Proofs.Grammar.LocalStatements

/-!
# Structured programs as tokens

`Renders` says how a `Flow` is written: its branches and loops with their words, in any nesting, and
between them prose and statements that have no blocks in them. Of such a statement, and of a
condition, it is only asked that they are read without a problem when they stand alone, with no
more than one token behind them (`ReadsAs`).

That is enough: what is read alone is read everywhere (`ReadsAs.run`). Where a part of a program
may depend on the names that are known, the tables of names before and behind it are part of the
relation.
-/

namespace Gamebook.Grammar

/-! ## States before and behind a part -/

namespace State

/-- Reading stands in front of these tokens, with these names. -/
structure At (s : State) (t : Symbol.Table) (ls : List Lexeme) : Prop where
  pending : s.pending = ls
  symbols : s.symbols = t
  clean : s.Clean

/-- From `s` to `s'`, tokens were read up to `rest` and the code was written, and nothing was found
wrong. The names behind are `t`. -/
structure Advanced (s : State) (rest : List Lexeme) (code : List Instruction) (t : Symbol.Table)
    (s' : State) : Prop where
  here : s'.At t rest
  problems : s'.problems = s.problems
  wrote : s'.code = s.code ++ code

namespace Advanced

variable {s s' s'' : State} {t t' : Symbol.Table} {ls rest : List Lexeme}
  {code code' : List Instruction} {token : Token} {place : Location}

theorem refl (h : s.At t ls) : s.Advanced ls [] t s := ⟨h, rfl, (List.append_nil s.code).symm⟩

theorem trans (h : s.Advanced ls code t s') (h' : s'.Advanced rest code' t' s'') :
    s.Advanced rest (code ++ code') t' s'' where
  here := h'.here
  problems := h'.problems.trans h.problems
  wrote := by rw [h'.wrote, h.wrote, List.append_assoc]

theorem behind (h : s.Advanced (⟨.ok token, place⟩ :: rest) code t s') :
    s.Advanced rest code t (s'.behind place rest) where
  here := ⟨rfl, h.here.symbols, Parser.clean_behind h.here.pending h.here.clean⟩
  problems := h.problems
  wrote := h.wrote

theorem word {k : Keyword} (h : s.Advanced (⟨.ok (.keyword k), place⟩ :: rest) code t s') :
    ∃ s'', Parser.word k s' = .done () s'' ∧ s.Advanced rest code t s'' :=
  ⟨_, Parser.expect_token _ h.here.pending, h.behind⟩

theorem openParen (h : s.Advanced (⟨.ok .openParen, place⟩ :: rest) code t s') :
    ∃ s'', Parser.openParen s' = .done () s'' ∧ s.Advanced rest code t s'' :=
  ⟨_, Parser.expect_token _ h.here.pending, h.behind⟩

theorem closeParen (h : s.Advanced (⟨.ok .closeParen, place⟩ :: rest) code t s') :
    ∃ s'', Parser.closeParen s' = .done () s'' ∧ s.Advanced rest code t s'' :=
  ⟨_, Parser.expect_token _ h.here.pending, h.behind⟩

theorem emit (h : s.Advanced ls code t s') (new : List Instruction) :
    ∃ s'', Parser.emit new s' = .done () s'' ∧ s.Advanced ls (code ++ new) t s'' := by
  refine ⟨_, rfl, ⟨h.here.pending, h.here.symbols, h.here.clean⟩, h.problems, ?_⟩
  change s'.code ++ new = s.code ++ (code ++ new)
  rw [h.wrote, List.append_assoc]

theorem hiddenLabel (h : s.Advanced ls code t s') :
    ∃ name s'', Parser.hiddenLabel s' = .done name s'' ∧ s.Advanced ls code t s'' :=
  ⟨_, _, rfl, ⟨h.here.pending, h.here.symbols, h.here.clean⟩, h.problems, h.wrote⟩

end Advanced

end State

/-! ## What is read alone -/

/-- Only the names are known from before, and where that ended. -/
def State.alone (t : Symbol.Table) (seen : Location) (ls : List Lexeme) : State :=
  { State.start ls with symbols := t, lastSeen := seen }

/-- Anything can be put around what stands alone. -/
theorem State.At.eq_within {s : State} {t : Symbol.Table} {xs ys : List Lexeme}
    (h : s.At t (xs ++ ys)) :
    State.within { s with pending := ys } (.alone t s.lastSeen xs) = s := by
  obtain ⟨pending, symbols, -⟩ := h
  cases s
  subst pending symbols
  simp [State.within, State.alone, State.start]

/-- On its own, in front of no more than the first token of `rest`, the parser reads `ls` and finds
`a`. It knows the names `t` before and `t'` behind, writes the code, and finds nothing wrong. -/
structure ReadsAs {α : Type} (p : Parser α) (t : Symbol.Table) (ls rest : List Lexeme) (a : α)
    (code : List Instruction) (t' : Symbol.Table) : Prop where
  tokens : ∀ l ∈ ls, ∃ token, l.value = .ok token
  alone : ∀ seen, ∃ s', p (.alone t seen (ls ++ rest.take 1)) = .done a s' ∧
    s'.pending = rest.take 1 ∧ s'.problems = [] ∧ s'.code = code ∧ s'.symbols = t'

namespace ReadsAs

variable {α : Type} {p q : Parser α} {t t' : Symbol.Table} {ls rest : List Lexeme} {a : α}
  {code : List Instruction} {s : State}

/-- What is read alone is read wherever it stands. -/
theorem run (h : ReadsAs p t ls rest a code t') (start : s.At t (ls ++ rest))
    (isLocal : ∀ s : State, s.Clean → s.pending = ls ++ rest.take 1 → Parser.LocalAt s p q) :
    ∃ s', q s = .done a s' ∧ s.Advanced rest code t' s' := by
  have clean (l : Lexeme) (hl : l ∈ ls ++ rest) : ∃ token, l.value = .ok token :=
    start.clean l (by rwa [start.pending])
  rw [← List.take_append_drop 1 rest, ← List.append_assoc] at start clean
  obtain ⟨s', run, pending, problems, wrote, symbols⟩ := h.alone s.lastSeen
  obtain ⟨-, around⟩ := isLocal (.alone t s.lastSeen (ls ++ rest.take 1))
    (fun l hl => clean l (List.mem_append_left _ hl)) rfl
  have around := around { s with pending := rest.drop 1 }
    (fun l hl => clean l (List.mem_append_right _ hl))
  rw [start.eq_within, run] at around
  -- The parser stops in front of a token, unless there is none.
  have stops : rest.drop 1 = [] ∨ s'.pending ≠ [] := by
    rw [pending]
    cases rest <;> simp
  refine ⟨_, around stops, ⟨?_, symbols, fun l hl => ?_⟩, ?_, ?_⟩
  · rw [State.within, pending, List.take_append_drop]
  · have hl : l ∈ rest.take 1 ++ rest.drop 1 := by simpa only [State.within, pending] using hl
    exact clean l (by rw [List.append_assoc]; exact List.mem_append_right ls hl)
  · rw [State.within, problems]
    exact List.append_nil _
  · rw [State.within, wrote]

/-- A condition is computed without jumps. -/
theorem straight {test : List Instruction} (h : ReadsAs Parser.condition t ls rest test code t') :
    Straight test := by
  obtain ⟨s', run, -, problems, -, -⟩ := h.alone .nowhere
  let T : Accepted := ⟨s', fun e he => by simp [problems] at he, true⟩
  have reads : Parser.Reads T True Parser.condition (Pushes T.scope 1) := Parser.condition_reads
  have reads := reads.runs (.alone t .nowhere (ls ++ rest.take 1))
  rw [run] at reads
  exact (reads.2 trivial (.refl s')).2.straight

end ReadsAs

/-! ## Expressions as conditions -/

theorem State.foldl_mention {ms : List (Located String × Symbol.Kind)} {s : State}
    {t : Symbol.Table} (h : ms.foldlM (fun t m => t.use m.1 m.2) s.symbols = .ok t) :
    ms.foldl State.mention s = { s with symbols := t } := by
  induction ms generalizing s with
  | nil =>
    obtain rfl : s.symbols = t := Except.ok.inj h
    rfl
  | cons m ms ih =>
    rw [List.foldlM_cons] at h
    cases used : s.symbols.use m.1 m.2 with
    | error e =>
      rw [used] at h
      contradiction
    | ok t₁ =>
      rw [used] at h
      have first : s.mention m = { s with symbols := t₁ } := by rw [State.mention, used]
      rw [List.foldl_cons, first]
      exact ih (s := { s with symbols := t₁ }) h

theorem Access.Written.tokens {access : Access} {signs : List Lexeme} (h : access.Written signs) :
    ∀ l ∈ signs, ∃ token, l.value = .ok token := by
  cases h <;> simp

namespace Written

variable {level : Level} {e : Tree} {cs rest : List Lexeme} {t t' : Symbol.Table}

theorem tokens (h : Written level e cs) : ∀ l ∈ cs, ∃ token, l.value = .ok token := by
  induction h with
  | number | constant | query => simp
  | reference _ signs => exact List.forall_mem_append.mpr ⟨signs.tokens, by simp⟩
  | displaced _ _ _ signs _ ih =>
    simp only [List.forall_mem_cons, List.forall_mem_append]
    exact ⟨signs.tokens, ⟨_, rfl⟩, ⟨_, rfl⟩, ih, ⟨_, rfl⟩, List.forall_mem_nil _⟩
  | indirect _ _ _ _ ih | element _ _ _ _ ih | limited _ _ _ _ _ ih =>
    simp only [List.forall_mem_cons, List.forall_mem_append]
    exact ⟨⟨_, rfl⟩, ⟨_, rfl⟩, ih, ⟨_, rfl⟩, List.forall_mem_nil _⟩
  | between _ _ _ _ _ _ iha ihb | pairing _ _ _ _ _ _ _ iha ihb =>
    simp only [List.forall_mem_cons, List.forall_mem_append]
    exact ⟨⟨_, rfl⟩, ⟨_, rfl⟩, iha, ⟨_, rfl⟩, ihb, ⟨_, rfl⟩, List.forall_mem_nil _⟩
  | colours _ _ _ _ _ _ _ _ _ _ _ iha ihb ihc ihd =>
    simp only [List.forall_mem_cons, List.forall_mem_append]
    exact ⟨⟨_, rfl⟩, ⟨_, rfl⟩, iha, ⟨_, rfl⟩, ihb, ⟨_, rfl⟩, ihc, ⟨_, rfl⟩, ihd, ⟨_, rfl⟩,
      List.forall_mem_nil _⟩
  | parentheses _ _ _ ih =>
    simp only [List.forall_mem_cons, List.forall_mem_append]
    exact ⟨⟨_, rfl⟩, ih, ⟨_, rfl⟩, List.forall_mem_nil _⟩
  | complement _ _ ih | negate _ _ ih => exact List.forall_mem_cons.mpr ⟨⟨_, rfl⟩, ih⟩
  | compare _ _ _ _ iha ihb | binary _ _ _ _ iha ihb =>
    simp only [List.forall_mem_cons, List.forall_mem_append]
    exact ⟨iha, ⟨_, rfl⟩, ihb⟩
  | tighter _ ih => exact ih

/-- Every expression, as it may be written, is a condition. -/
theorem readsAs (written : Written .or e cs) (ends : Next (goesOn · = false) rest)
    (lowers : e.Lowers t.value?) (pushable : e.Pushable t.value?)
    (uses : e.mentions.foldlM (fun t m => t.use m.1 m.2) t = .ok t') :
    ReadsAs Parser.condition t cs rest (e.code t.value?) [] t' where
  tokens := written.tokens
  alone seen := by
    have ends : Next (goesOn · = false) (rest.take 1) := by
      obtain rfl | ⟨token, place, rest', rfl, stops⟩ := ends
      · exact .inl rfl
      · exact .inr ⟨token, place, [], rfl, stops⟩
    obtain ⟨place, s', took, run⟩ := Parser.expression_of_written
      (s := .alone t seen (cs ++ rest.take 1)) written rfl ends lowers
    have pushed := Parser.push_value (s := s') (took.value? ▸ pushable) place
    rw [took.value?] at pushed
    refine ⟨s', (Parser.bind_of_done run).trans pushed, took.pending, ?_⟩
    obtain ⟨place', rfl⟩ := took
    rw [State.foldl_mention uses]
    exact ⟨rfl, rfl, rfl⟩

end Written

/-! ## No condition begins with a bracket that closes -/

namespace Parser

variable {operand : Parser (Located Value)} {s s' : State} {e : Located SyntaxError}
  {token : Token} {place : Location} {rest : List Lexeme}

theorem chain_failed (h : operand s = .failed e s') (level : Token → Option Join) :
    chain operand level s = .failed e s' := bind_of_failed h

theorem prefixed_failed {t : Token} (wrap : Located Value → Parser Value)
    (pending : s.pending = ⟨.ok token, place⟩ :: rest) (ne : token ≠ t)
    (h : operand s = .failed e s') (fuel : Nat) :
    prefixed t wrap operand fuel s = .failed e s' := by
  cases fuel with
  | zero => exact h
  | succ fuel =>
    rw [prefixed, bind_of_done (accept_of_ne pending ne)]
    simpa using h

/-- No level begins with anything but its first operand, signs apart. -/
theorem expressionOver_failed (pending : s.pending = ⟨.ok token, place⟩ :: rest)
    (bitNot : token ≠ .bitNot) (not : token ≠ .keyword .NOT) (h : operand s = .failed e s') :
    expressionOver operand s = .failed e s' := by
  have unary : (left >>= prefixed .bitNot complement operand) s = .failed e s' :=
    prefixed_failed complement pending bitNot h _
  have arithmetic : arithmeticOver operand s = .failed e s' :=
    chain_failed (chain_failed (chain_failed (chain_failed (chain_failed unary _) _) _) _) _
  have comparison : comparisonOver operand s = .failed e s' := bind_of_failed arithmetic
  have negated : (left >>= prefixed (.keyword .NOT) negate (comparisonOver operand)) s =
      .failed e s' := prefixed_failed negate pending not comparison _
  exact chain_failed (chain_failed negated _) _

theorem condition_closeParen (pending : s.pending = ⟨.ok .closeParen, place⟩ :: rest) :
    condition s = .failed ⟨.unexpectedToken "an expression" .closeParen, place⟩
      (s.behind place rest) := by
  have inner : primary (s.pending.length + 1) s =
      .failed ⟨.unexpectedToken "an expression" .closeParen, place⟩ (s.behind place rest) := by
    rw [primary, bind_of_done (next_token _ pending rfl)]
    rfl
  have whole : expression s = _ := expressionOver_failed pending (by decide) (by decide) inner
  exact bind_of_failed whole

end Parser

/-! ## Rendering -/

/-- The tokens behind which a new statement may begin, or nothing does. -/
def endsStatement (t : Token) : Bool := isSeparator t || (blockEnd? t).isSome

/-- The tokens that a statement without blocks may begin with. -/
def opensSimple : Token → Bool
  | .keyword w => !hasBlocks w && !isBlockEnd w
  | t => !isSeparator t

/-- The parts of a program that branches and loops are made of. -/
inductive Part where
  | block
  | statement
  /-- What stands behind `IF test THEN`, up to `ENDIF`. -/
  | branches (test : List Instruction)

/-- The tokens, in front of `rest`, are a part of a program that does what the flow says. The names
that are known before and behind it are given with it. -/
inductive Renders : Part → Symbol.Table → List Lexeme → List Lexeme → Flow → Symbol.Table → Prop
  | nil {t : Symbol.Table} {rest : List Lexeme} : Renders .block t [] rest .skip t
  | separator {t t' : Symbol.Table} {ls rest : List Lexeme} {p : Flow} {token : Token}
    {place : Location} : isSeparator token = true → (∀ bytes, token ≠ .text bytes) →
    Renders .block t ls rest p t' → Renders .block t (⟨.ok token, place⟩ :: ls) rest p t'
  | prose {t t' : Symbol.Table} {ls rest : List Lexeme} {p : Flow} {bytes : List UInt8}
    {place : Location} : Renders .block t ls rest p t' →
    Renders .block t (⟨.ok (.text bytes), place⟩ :: ls) rest
      (.seq (.straight [.text bytes]) p) t'
  /-- Statements have something between them, but nothing has to follow a short label. -/
  | cons {t t' t'' : Symbol.Table} {xs ys rest : List Lexeme} {p q : Flow} :
    Renders .statement t xs (ys ++ rest) p t' →
    (Next (endsStatement · = true) (ys ++ rest) ∨
      ∃ name place ls, xs = ⟨.ok (.shortLabel name), place⟩ :: ls) →
    Renders .block t' ys rest q t'' → Renders .block t (xs ++ ys) rest (.seq p q) t''
  | simple {t t' : Symbol.Table} {ls rest : List Lexeme} {code : List Instruction} {token : Token}
    {place : Location} : opensSimple token = true →
    ReadsAs (Parser.statement fun _ => pure ()) t (⟨.ok token, place⟩ :: ls) rest () code t' →
    Straight code → Renders .statement t (⟨.ok token, place⟩ :: ls) rest (.straight code) t'
  | ifThen {t t₁ t' : Symbol.Table} {cs ls rest : List Lexeme} {test : List Instruction} {p : Flow}
    {i j : Location} :
    ReadsAs Parser.condition t cs (⟨.ok (.keyword .THEN), j⟩ :: (ls ++ rest)) test [] t₁ →
    Renders (.branches test) t₁ ls rest p t' →
    Renders .statement t (⟨.ok (.keyword .IF), i⟩ :: (cs ++ ⟨.ok (.keyword .THEN), j⟩ :: ls)) rest
      p t'
  | loop {t t₁ t' : Symbol.Table} {cs ls rest : List Lexeme} {test : List Instruction} {p : Flow}
    {h i j k : Location} :
    ReadsAs Parser.condition t cs
      (⟨.ok .closeParen, j⟩ :: (ls ++ ⟨.ok (.keyword .WEND), k⟩ :: rest)) test [] t₁ →
    Renders .block t₁ ls (⟨.ok (.keyword .WEND), k⟩ :: rest) p t' →
    Renders .statement t
      (⟨.ok (.keyword .WHILE), h⟩ :: ⟨.ok .openParen, i⟩ ::
        (cs ++ ⟨.ok .closeParen, j⟩ :: (ls ++ [⟨.ok (.keyword .WEND), k⟩])))
      rest (.loop test p) t'
  | forever {t t' : Symbol.Table} {ls rest : List Lexeme} {p : Flow} {h i j k : Location} :
    Renders .block t ls (⟨.ok (.keyword .WEND), k⟩ :: rest) p t' →
    Renders .statement t
      (⟨.ok (.keyword .WHILE), h⟩ :: ⟨.ok .openParen, i⟩ :: ⟨.ok .closeParen, j⟩ ::
        (ls ++ [⟨.ok (.keyword .WEND), k⟩]))
      rest (.forever p) t'
  | repeatUntil {t t₁ t' : Symbol.Table} {ls cs rest : List Lexeme} {p : Flow}
    {test : List Instruction} {i j : Location} :
    Renders .block t ls (⟨.ok (.keyword .UNTIL), j⟩ :: (cs ++ rest)) p t₁ →
    ReadsAs Parser.condition t₁ cs rest test [] t' →
    Renders .statement t
      (⟨.ok (.keyword .DO), i⟩ :: (ls ++ ⟨.ok (.keyword .UNTIL), j⟩ :: cs)) rest
      (.repeatUntil p test) t'
  | endif {t t' : Symbol.Table} {ls rest : List Lexeme} {test : List Instruction} {p : Flow}
    {i : Location} :
    Renders .block t ls (⟨.ok (.keyword .ENDIF), i⟩ :: rest) p t' →
    Renders (.branches test) t (ls ++ [⟨.ok (.keyword .ENDIF), i⟩]) rest (.branch test p .skip) t'
  | otherwise {t t₁ t' : Symbol.Table} {xs ys rest : List Lexeme} {test : List Instruction}
    {p q : Flow} {i j : Location} :
    Renders .block t xs
      (⟨.ok (.keyword .ELSE), i⟩ :: (ys ++ ⟨.ok (.keyword .ENDIF), j⟩ :: rest)) p t₁ →
    Renders .block t₁ ys (⟨.ok (.keyword .ENDIF), j⟩ :: rest) q t' →
    Renders (.branches test) t
      (xs ++ ⟨.ok (.keyword .ELSE), i⟩ :: (ys ++ [⟨.ok (.keyword .ENDIF), j⟩])) rest
      (.branch test p q) t'
  /-- The branches behind `ELSEIF` are what is done otherwise. -/
  | elseIf {t t₁ t₂ t' : Symbol.Table} {xs cs ys rest : List Lexeme}
    {test test' : List Instruction} {p q : Flow} {i j : Location} :
    Renders .block t xs
      (⟨.ok (.keyword .ELSEIF), i⟩ :: (cs ++ ⟨.ok (.keyword .THEN), j⟩ :: (ys ++ rest))) p t₁ →
    ReadsAs Parser.condition t₁ cs (⟨.ok (.keyword .THEN), j⟩ :: (ys ++ rest)) test' [] t₂ →
    Renders (.branches test') t₂ ys rest q t' →
    Renders (.branches test) t
      (xs ++ ⟨.ok (.keyword .ELSEIF), i⟩ :: (cs ++ ⟨.ok (.keyword .THEN), j⟩ :: ys)) rest
      (.branch test p q) t'

namespace Renders

variable {part : Part} {t t' : Symbol.Table} {ls rest : List Lexeme} {p : Flow}

/-- There are no errors among the tokens. -/
theorem tokens (h : Renders part t ls rest p t') : ∀ l ∈ ls, ∃ token, l.value = .ok token := by
  induction h with
  | nil => exact List.forall_mem_nil _
  | separator _ _ _ ih | prose _ ih => exact List.forall_mem_cons.mpr ⟨⟨_, rfl⟩, ih⟩
  | cons _ _ _ ihx ihy => exact List.forall_mem_append.mpr ⟨ihx, ihy⟩
  | simple _ reads _ => exact reads.tokens
  | ifThen reads _ ih =>
    simp only [List.forall_mem_cons, List.forall_mem_append]
    exact ⟨⟨_, rfl⟩, reads.tokens, ⟨_, rfl⟩, ih⟩
  | loop reads _ ih =>
    simp only [List.forall_mem_cons, List.forall_mem_append]
    exact ⟨⟨_, rfl⟩, ⟨_, rfl⟩, reads.tokens, ⟨_, rfl⟩, ih, ⟨_, rfl⟩, List.forall_mem_nil _⟩
  | forever _ ih =>
    simp only [List.forall_mem_cons, List.forall_mem_append]
    exact ⟨⟨_, rfl⟩, ⟨_, rfl⟩, ⟨_, rfl⟩, ih, ⟨_, rfl⟩, List.forall_mem_nil _⟩
  | repeatUntil _ reads ih =>
    simp only [List.forall_mem_cons, List.forall_mem_append]
    exact ⟨⟨_, rfl⟩, ih, ⟨_, rfl⟩, reads.tokens⟩
  | endif _ ih =>
    simp only [List.forall_mem_cons, List.forall_mem_append]
    exact ⟨ih, ⟨_, rfl⟩, List.forall_mem_nil _⟩
  | otherwise _ _ ihx ihy =>
    simp only [List.forall_mem_cons, List.forall_mem_append]
    exact ⟨ihx, ⟨_, rfl⟩, ihy, ⟨_, rfl⟩, List.forall_mem_nil _⟩
  | elseIf _ reads _ ihx ihy =>
    simp only [List.forall_mem_cons, List.forall_mem_append]
    exact ⟨ihx, ⟨_, rfl⟩, reads.tokens, ⟨_, rfl⟩, ihy⟩

/-- No statement begins with a separator or the end of a block. -/
theorem opens (h : Renders .statement t ls rest p t') :
    ∃ token place tail, ls = ⟨.ok token, place⟩ :: tail ∧ endsStatement token = false := by
  cases h with
  | @simple _ _ tail _ _ token place opens _ _ =>
    refine ⟨token, place, tail, rfl, ?_⟩
    cases token <;> simp_all [opensSimple, endsStatement, isSeparator, blockEnd?]
  | ifThen | loop | forever | repeatUntil => exact ⟨_, _, _, rfl, rfl⟩

end Renders

end Gamebook.Grammar
