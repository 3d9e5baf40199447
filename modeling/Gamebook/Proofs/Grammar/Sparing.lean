import Gamebook.Proofs.Grammar.Conduct

/-!
# Where the words of assignments stand

`SET` and `LET` begin assignments and stand nowhere else: what is found behind the first word of a
statement without blocks is found without taking such a word (`Parser.statementOf_sparing`). A
parser that takes one fails, since no parser has a use for it.

This is only said of parsers that find what they are looking for (`Parser.Sparing`), and of tokens
without errors among them.
-/

namespace Gamebook.Grammar

/-- Tokens were read, but no word that begins an assignment. -/
def State.Spares (s s' : State) : Prop :=
  ∃ taken, s.pending = taken ++ s'.pending ∧
    ∀ l ∈ taken, ∀ t, l.value = .ok t → assigns t = false

namespace State.Spares

variable {s s' s'' : State}

theorem of_pending (h : s'.pending = s.pending) : s.Spares s' := ⟨[], by simp [h], by simp⟩

theorem trans (h : s.Spares s') (h' : s'.Spares s'') : s.Spares s'' := by
  obtain ⟨taken, pending, spared⟩ := h
  obtain ⟨taken', pending', spared'⟩ := h'
  refine ⟨taken ++ taken', by rw [pending, pending', List.append_assoc], fun l hl => ?_⟩
  rcases List.mem_append.mp hl with hl | hl
  · exact spared l hl
  · exact spared' l hl

theorem clean (h : s.Spares s') (clean : s.Clean) : s'.Clean := by
  obtain ⟨taken, pending, -⟩ := h
  exact fun l hl => clean l (pending ▸ List.mem_append_right taken hl)

end State.Spares

namespace Parser

/-! ## The judgement -/

/-- If `p` finds something from `s` on, it takes no word that begins an assignment. -/
def SparingAt {α : Type} (s : State) (p : Parser α) : Prop :=
  ∀ a s', p s = .done a s' → s.Spares s'

/-- The same from every state without errors among the tokens. -/
def Sparing {α : Type} (p : Parser α) : Prop := ∀ s : State, s.Clean → SparingAt s p

section Rules

variable {α β : Type} {p : Parser α} {g : α → Parser β} {s : State}

theorem SparingAt.bind (hp : SparingAt s p)
    (hg : ∀ a s', p s = .done a s' → SparingAt s' (g a)) : SparingAt s (p >>= g) := by
  intro b s'' run
  obtain ⟨a, s', first, second⟩ := bind_eq_done.mp run
  exact (hp a s' first).trans (hg a s' first b s'' second)

/-- A token that begins no assignment is read. -/
theorem SparingAt.advance {g : Option (Located Token) → Parser β} {t : Token} {place : Location}
    {rest : List Lexeme} (pending : s.pending = ⟨.ok t, place⟩ :: rest) (other : assigns t = false)
    (hg : SparingAt (s.behind place rest) (g (some ⟨t, place⟩))) :
    SparingAt s (Parser.advance >>= g) := by
  intro b s' run
  rw [bind_of_done (advance_token pending)] at run
  have taken : s.Spares (s.behind place rest) :=
    ⟨[⟨.ok t, place⟩], by simp [pending], by simpa using other⟩
  exact taken.trans (hg b s' run)

namespace Sparing

/-- Parsers that leave the tokens alone. -/
theorem of_pending (h : ∀ {s a s'}, p s = .done a s' → s'.pending = s.pending) : Sparing p :=
  fun _ _ _ _ run => .of_pending (h run)

protected theorem pure (a : α) : Sparing (pure a : Parser α) :=
  .of_pending fun run => by cases run; rfl

protected theorem bind (hp : Sparing p) (hg : ∀ a, Sparing (g a)) : Sparing (p >>= g) :=
  fun s clean => (hp s clean).bind fun a s' run => hg a s' ((hp s clean a s' run).clean clean)

/-- What follows may depend on the token that comes next. -/
theorem peekLocated {g : Option (Located Token) → Parser β} (nil : Sparing (g none))
    (token : ∀ s t place rest, s.Clean → s.pending = ⟨.ok t, place⟩ :: rest →
      SparingAt s (g (some ⟨t, place⟩))) : Sparing (Parser.peekLocated >>= g) := by
  intro s clean b s' run
  obtain pending | ⟨t, place, rest, pending⟩ := clean.cases
  · rw [bind_of_done (peekLocated_nil pending)] at run
    exact nil s clean b s' run
  · rw [bind_of_done (peekLocated_token pending)] at run
    exact token s t place rest clean pending b s' run

/-- Any token may be read if nothing is found behind a word that begins an assignment. -/
theorem next {expected : String} {g : Located Token → Parser β}
    (refused : ∀ t, assigns t.value = true → ∀ s b s', g t s ≠ .done b s')
    (hg : ∀ t, Sparing (g t)) : Sparing (Parser.next expected >>= g) := by
  intro s clean b s'' run
  obtain ⟨t, s', first, second⟩ := bind_eq_done.mp run
  obtain ⟨rest, pending, rfl⟩ := next_eq_done clean first
  cases other : assigns t.value with
  | true => exact absurd second (refused t other _ _ _)
  | false =>
    have taken : s.Spares (s.behind t.place rest) :=
      ⟨[⟨.ok t.value, t.place⟩], by simp [pending], by simpa using other⟩
    exact taken.trans (hg t _ (clean_behind pending clean) b s'' second)

end Sparing

end Rules

/-! ## The grammar -/

theorem record_sparing (r : Symbol.Table → Except (Located Symbol.NameError) Symbol.Table) :
    Sparing (record r) := .of_pending fun {s a s'} run => by
  cases run
  dsimp only
  split <;> rfl

/-- No word that begins an assignment is taken, wherever something is found. -/
def sparing : Conduct where
  Holds := Sparing
  takes t := assigns t = false
  script _ := True
  takes_of_not_assigns := id
  leaves h := .of_pending fun {s a s'} run => by
    have same := h s
    rw [run] at same
    exact same.1
  bind := .bind
  look n := fun s clean a s' run => by
    cases run
    exact .of_pending (by rw [State.look_clean clean])
  declare _ _ := record_sparing _
  mention _ _ := record_sparing _
  peekLocated nil token := .peekLocated nil fun s t place rest clean pending => by
    obtain stays | ⟨other, r, eq, behind⟩ := token ⟨t, place⟩
    · exact stays s clean
    · rw [eq]
      exact .advance pending other (behind _ _ (clean_behind pending clean))
  next hg refused := .next
    (fun t assigned => (refused t).resolve_left (by simp [assigned])) fun t => hg t trivial

theorem peek_sparing : Sparing peek := peek_obeys (J := sparing)

theorem lastSeen_sparing : Sparing lastSeen := lastSeen_obeys (J := sparing)

theorem left_sparing : Sparing left := left_obeys (J := sparing)

theorem emit_sparing (code : List Instruction) : Sparing (emit code) := emit_obeys (J := sparing) _

theorem word_sparing {w : Keyword} (other : assigns (.keyword w) = false) : Sparing (word w) :=
  word_obeys (J := sparing) other

theorem openParen_sparing : Sparing openParen := openParen_obeys (J := sparing)

theorem closeParen_sparing : Sparing closeParen := closeParen_obeys (J := sparing)

theorem condition_sparing : Sparing condition := condition_obeys (J := sparing)

theorem assignment_sparing : Sparing assignment := assignment_obeys (J := sparing)

theorem placeLabel_sparing (name : Located String) : Sparing (placeLabel name) :=
  placeLabel_obeys (J := sparing) name

/-- Behind the first word of a statement without blocks no other statement begins. -/
theorem statementOf_sparing (block : List Keyword → Parser Unit) {w : Keyword}
    (simple : hasBlocks w = false) (place : Location) : Sparing (statementOf block w place) :=
  statementOf_obeys (J := sparing) block simple place

end Parser

end Gamebook.Grammar
