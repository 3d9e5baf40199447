import Gamebook.Grammar.Parser

/-!
# Reading given tokens

What the smallest parsers do is known once it is known what stands next. Where that is a token,
looking at it changes nothing (`State.look_token`), and reading it leads behind it
(`State.behind`). The equations here say so for one parser after the other; with
`Parser.bind_of_done` they run longer parsers step by step.
-/

namespace Gamebook.Grammar

namespace State

/-- Behind a token at `place`, with `rest` still to come. -/
def behind (s : State) (place : Location) (rest : List Lexeme) : State :=
  { s with pending := rest, lastSeen := place }

variable {s : State} {t : Token} {place : Location} {rest : List Lexeme}

@[simp] theorem behind_pending : (s.behind place rest).pending = rest := rfl

@[simp] theorem behind_lastSeen : (s.behind place rest).lastSeen = place := rfl

@[simp] theorem behind_symbols : (s.behind place rest).symbols = s.symbols := rfl

theorem look_token (h : s.pending = ⟨.ok t, place⟩ :: rest) : s.look 0 = s := by
  cases s
  subst h
  simp [look, settle]

theorem look_nil (h : s.pending = []) (n : Nat) : s.look n = s := by
  cases s
  subst h
  simp [look, settle]

end State

namespace Parser

variable {α β : Type} {s s' : State} {t t' : Token} {place : Location} {rest : List Lexeme}

theorem bind_of_done {p : Parser α} {f : α → Parser β} {a : α} (h : p s = .done a s') :
    (p >>= f) s = f a s' := by
  rw [bind_apply, h]

theorem bind_of_failed {p : Parser α} {f : α → Parser β} {e : Located SyntaxError}
    (h : p s = .failed e s') : (p >>= f) s = .failed e s' := by
  rw [bind_apply, h]

/-- What a parser in two parts found was found by the second where the first left off. -/
theorem bind_eq_done {p : Parser α} {f : α → Parser β} {b : β} :
    (p >>= f) s = .done b s' ↔ ∃ a s'', p s = .done a s'' ∧ f a s'' = .done b s' := by
  rw [bind_apply]
  cases p s with
  | done a s'' => simp [and_assoc]
  | failed e s'' => simp
  | overflowed => simp

/-! ## Looking -/

theorem peekLocated_token (h : s.pending = ⟨.ok t, place⟩ :: rest) :
    peekLocated s = .done (some ⟨t, place⟩) s := by
  simp [peekLocated, State.look_token h, h, firstToken?]

theorem peekLocated_nil (h : s.pending = []) : peekLocated s = .done none s := by
  simp [peekLocated, State.look_nil h, h, firstToken?]

theorem peek_token (h : s.pending = ⟨.ok t, place⟩ :: rest) : peek s = .done (some t) s := by
  rw [peek, bind_of_done (peekLocated_token h), pure_apply]
  rfl

theorem peek_nil (h : s.pending = []) : peek s = .done none s := by
  rw [peek, bind_of_done (peekLocated_nil h), pure_apply]
  rfl

/-! ## Reading -/

theorem advance_token (h : s.pending = ⟨.ok t, place⟩ :: rest) :
    advance s = .done (some ⟨t, place⟩) (s.behind place rest) := by
  simp [advance, State.look_token h, h, firstToken?, State.behind]

theorem advance_nil (h : s.pending = []) : advance s = .done none s := by
  simp [advance, State.look_nil h, h, firstToken?]

theorem accept_token (h : s.pending = ⟨.ok t, place⟩ :: rest) :
    accept t s = .done true (s.behind place rest) := by
  rw [accept, bind_of_done (peek_token h), if_pos rfl, bind_of_done (advance_token h), pure_apply]

theorem accept_of_ne (h : s.pending = ⟨.ok t, place⟩ :: rest) (ne : t ≠ t') :
    accept t' s = .done false s := by
  rw [accept, bind_of_done (peek_token h), if_neg (by simpa using ne), pure_apply]

theorem next_token (expected : String) (h : s.pending = ⟨.ok t, place⟩ :: rest)
    (inside : isSeparator t = false) :
    next expected s = .done ⟨t, place⟩ (s.behind place rest) := by
  rw [next, bind_of_done (peekLocated_token h)]
  simp only [inside, Bool.false_eq_true, if_false]
  rw [bind_of_done (advance_token h), pure_apply]

theorem expect_token (expected : String) (h : s.pending = ⟨.ok t, place⟩ :: rest) :
    expect t expected s = .done () (s.behind place rest) := by
  rw [expect, bind_of_done (peekLocated_token h)]
  simp only [if_true]
  rw [bind_of_done (advance_token h), pure_apply]

/-- What comes next is what was read. -/
theorem eq_behind_of_expect {expected : String} {s' : State}
    (pending : s.pending = ⟨.ok t, place⟩ :: rest) (run : expect t expected s = .done () s') :
    s' = s.behind place rest := by
  rw [expect_token expected pending] at run
  exact (Outcome.done.inj run).2.symm

theorem left_apply : left s = .done s.pending.length s := rfl

theorem lastSeen_apply : lastSeen s = .done s.lastSeen s := rfl

end Parser

end Gamebook.Grammar
