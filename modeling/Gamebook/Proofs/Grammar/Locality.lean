import Gamebook.Proofs.Grammar.Tokens

/-!
# What parsers depend on

A parser that stops before the end of the tokens does not depend on the ones behind, nor on what was
found wrong or written before. So what it does on a few tokens it does wherever they stand.

`State.within f s` is the state `s` in front of the tokens of `f` and behind its problems and code.
`Parser.Local k p q` says that `q` does within `f` what `p` does on its own, for states with at most
`k` tokens. There are two parsers in it because a bound on how often to go on is taken from the
number of tokens, which is not the same in both places; apart from that, `q` is `p`.

Tokens are supposed to be without errors among them (`State.Clean`).
-/

namespace Gamebook.Grammar

/-! ## States -/

namespace State

/-- No errors stand among the tokens. -/
def Clean (s : State) : Prop := ∀ l ∈ s.pending, ∃ t, l.value = .ok t

/-- The state in front of the tokens of `f`, behind what was found and written in `f`. -/
def within (f s : State) : State :=
  { pending := s.pending ++ f.pending
    lastSeen := s.lastSeen
    problems := f.problems ++ s.problems
    symbols := s.symbols
    code := f.code ++ s.code
    hiddenLabels := f.hiddenLabels
    notes := f.notes ++ s.notes }

/-- A separator is among the tokens. -/
def Separated (s : State) : Prop :=
  ∃ l ∈ s.pending, ∃ t, l.value = .ok t ∧ isSeparator t = true

/-- Tokens were read, but no separator. -/
def Passed (s s' : State) : Prop :=
  ∃ taken, s.pending = taken ++ s'.pending ∧
    ∀ l ∈ taken, ∀ t, l.value = .ok t → isSeparator t = false

variable {s s' s'' f : State}

theorem Passed.of_pending (h : s'.pending = s.pending) : s.Passed s' := ⟨[], by simp [h], by simp⟩

theorem Passed.refl (s : State) : s.Passed s := .of_pending rfl

theorem Passed.trans (h : s.Passed s') (h' : s'.Passed s'') : s.Passed s'' := by
  obtain ⟨taken, pending, inside⟩ := h
  obtain ⟨taken', pending', inside'⟩ := h'
  refine ⟨taken ++ taken', by rw [pending, pending', List.append_assoc], fun l hl => ?_⟩
  rcases List.mem_append.mp hl with hl | hl
  · exact inside l hl
  · exact inside' l hl

theorem Passed.clean (h : s.Passed s') (clean : s.Clean) : s'.Clean := by
  obtain ⟨taken, pending, -⟩ := h
  exact fun l hl => clean l (pending ▸ List.mem_append_right taken hl)

theorem Passed.length_le (h : s.Passed s') : s'.pending.length ≤ s.pending.length := by
  obtain ⟨taken, pending, -⟩ := h
  simp [pending]

theorem Passed.separated (h : s.Passed s') (separated : s.Separated) : s'.Separated := by
  obtain ⟨taken, pending, inside⟩ := h
  obtain ⟨l, hl, t, ht, separator⟩ := separated
  rw [pending] at hl
  rcases List.mem_append.mp hl with hl | hl
  · simp [inside l hl t ht] at separator
  · exact ⟨l, hl, t, ht, separator⟩

theorem Separated.pending_ne_nil (h : s.Separated) : s.pending ≠ [] := by
  obtain ⟨l, hl, -⟩ := h
  exact List.ne_nil_of_mem hl

theorem Passed.pending_ne_nil (h : s.Passed s') (ne : s'.pending ≠ []) : s.pending ≠ [] := by
  obtain ⟨taken, pending, -⟩ := h
  simp [pending, ne]

/-- What comes next where there are no errors. -/
theorem Clean.cases (h : s.Clean) :
    s.pending = [] ∨ ∃ t place rest, s.pending = ⟨.ok t, place⟩ :: rest := by
  cases pending : s.pending with
  | nil => exact .inl rfl
  | cons l rest =>
    obtain ⟨l, place⟩ := l
    obtain ⟨t, rfl⟩ := h ⟨l, place⟩ (by simp [pending])
    exact .inr ⟨t, place, rest, rfl⟩

end State

namespace Outcome

variable {α : Type}

/-- Where the outcome leaves off. -/
def state? : Outcome α → Option State
  | done _ s | failed _ s => some s
  | overflowed => none

/-- The outcome within `f`. -/
def within (f : State) : Outcome α → Outcome α
  | done a s => done a (f.within s)
  | failed e s => failed e (f.within s)
  | overflowed => overflowed

/-- What began in `s` did not get to the end of the tokens. Where there is no telling how far it
got, it did not get past a separator. -/
def StopsIn (s : State) : Outcome α → Prop
  | done _ s' | failed _ s' => s'.pending ≠ []
  | overflowed => s.Separated

end Outcome

theorem Outcome.nil_of_stopsIn {α : Type} {o : Outcome α} {s f : State}
    (passed : ∀ s', o.state? = some s' → s.Passed s') (nil : s.pending = [])
    (stops : f.pending = [] ∨ o.StopsIn s) : f.pending = [] := by
  refine stops.elim id fun stops => ?_
  cases o with
  | overflowed => exact absurd nil stops.pending_ne_nil
  | done a s' | failed e s' => exact absurd nil ((passed s' rfl).pending_ne_nil stops)

/-- What does not get to the end of the tokens from `s` on does not get there from `s'` on, and
`s'` was not there either. -/
theorem Outcome.StopsIn.of_passed {α : Type} {o : Outcome α} {s s' : State} (stops : o.StopsIn s)
    (first : s.Passed s') (passed : ∀ s'', o.state? = some s'' → s'.Passed s'') :
    o.StopsIn s' ∧ s'.pending ≠ [] := by
  cases o with
  | overflowed => exact ⟨first.separated stops, (first.separated stops).pending_ne_nil⟩
  | done b s'' | failed e s'' => exact ⟨stops, (passed s'' rfl).pending_ne_nil stops⟩

namespace Parser

/-! ## The judgement -/

section Rules

variable {α β : Type} {k n : Nat} {p p' q : Parser α} {g h : α → Parser β} {s f : State}

/-- From `s` on, `q` does within any state what `p` does on its own, if `p` stops before the end of
its tokens or no others follow. It does not read past a separator. -/
def LocalAt (s : State) (p q : Parser α) : Prop :=
  (∀ s', (p s).state? = some s' → s.Passed s') ∧
    ∀ f : State, f.Clean → f.pending = [] ∨ (p s).StopsIn s → q (f.within s) = (p s).within f

/-- The same from every state with at most `k` tokens. -/
def Local (k : Nat) (p q : Parser α) : Prop :=
  ∀ s : State, s.Clean → s.pending.length ≤ k → LocalAt s p q

/-- A separator among the tokens keeps it from their end. -/
theorem LocalAt.stopsIn (h : LocalAt s p q) (separated : s.Separated) : (p s).StopsIn s := by
  have passed := h.1
  cases hps : p s with
  | overflowed => exact separated
  | done a s' | failed e s' =>
    exact ((passed s' (by rw [hps]; rfl)).separated separated).pending_ne_nil

/-- The second parser only has to be right where the first one leaves off. -/
theorem LocalAt.bind (hp : LocalAt s p q)
    (hg : ∀ a s', p s = .done a s' → LocalAt s' (g a) (h a)) : LocalAt s (p >>= g) (q >>= h) := by
  obtain ⟨passed, extends₁⟩ := hp
  unfold LocalAt
  rw [bind_apply]
  cases hps : p s with
  | overflowed =>
    rw [hps] at extends₁
    exact ⟨nofun, fun f hf stops => by rw [bind_apply, extends₁ f hf stops]; rfl⟩
  | failed e s' =>
    rw [hps] at extends₁ passed
    exact ⟨passed, fun f hf stops => by rw [bind_apply, extends₁ f hf stops]; rfl⟩
  | done a s' =>
    rw [hps] at extends₁ passed
    have first := passed s' rfl
    obtain ⟨passed', extends₂⟩ := hg a s' hps
    refine ⟨fun s'' hs'' => first.trans (passed' s'' hs''), fun f hf stops => ?_⟩
    -- if the second parser stops before the end of the tokens, so did the first
    have stops₂ := stops.imp_right fun stops => Outcome.StopsIn.of_passed stops first passed'
    rw [bind_apply, extends₁ f hf (stops₂.imp id And.right)]
    exact extends₂ f hf (stops₂.imp id And.left)

namespace Local

theorem mono (hp : Local k p q) (le : n ≤ k) : Local n p q := fun s clean few =>
  hp s clean (Nat.le_trans few le)

/-- Parsers that leave the tokens alone. -/
theorem of_done {a : State → α} {next : State → State} (hp : ∀ s, p s = .done (a s) (next s))
    (pending : ∀ s, (next s).pending = s.pending) (same : ∀ f s : State, a (f.within s) = a s)
    (moves : ∀ f s : State, next (f.within s) = f.within (next s)) : Local k p p := by
  intro s _ _
  unfold LocalAt
  rw [hp s]
  refine ⟨fun s' h => ?_, fun f _ _ => ?_⟩
  · obtain rfl := Option.some.inj h
    exact .of_pending (pending s)
  · rw [hp, same, moves]
    rfl

protected theorem pure (a : α) : Local k (pure a) (pure a) :=
  of_done (fun _ => rfl) (fun _ => rfl) (fun _ _ => rfl) fun _ _ => rfl

protected theorem fail (e : SyntaxError) (place : Location) :
    Local k (fail e place : Parser α) (fail e place) := fun s _ _ =>
  ⟨fun _ h => Option.some.inj h ▸ .refl s, fun _ _ _ => rfl⟩

protected theorem bind (hp : Local k p q) (hg : ∀ a, Local k (g a) (h a)) :
    Local k (p >>= g) (q >>= h) := by
  refine fun s clean few => (hp s clean few).bind fun a s' run => ?_
  have passed := (hp s clean few).1 s' (by rw [run]; rfl)
  exact hg a s' (passed.clean clean) (Nat.le_trans passed.length_le few)

/-- A parser that reads a token leaves fewer of them. -/
theorem bind_strict (hp : Local k p q)
    (strict : ∀ s a s', s.Clean → p s = .done a s' → s'.pending.length < s.pending.length)
    (hg : ∀ a, ∀ n < k, Local n (g a) (h a)) : Local k (p >>= g) (q >>= h) := by
  refine fun s clean few => (hp s clean few).bind fun a s' run => ?_
  have passed := (hp s clean few).1 s' (by rw [run]; rfl)
  exact hg a _ (Nat.lt_of_lt_of_le (strict s a s' clean run) few) s' (passed.clean clean)
    (Nat.le_refl _)

/-- Where no tokens are left, none are left around either. -/
theorem of_nil (hp : Local 0 p p') (same : ∀ s : State, s.pending = [] → q s = p' s) :
    Local 0 p q := by
  intro s clean few
  obtain ⟨passed, within⟩ := hp s clean few
  have nil : s.pending = [] := List.eq_nil_of_length_eq_zero (Nat.le_zero.mp few)
  refine ⟨passed, fun f hf stops => ?_⟩
  rw [same _ (by simp [State.within, nil, Outcome.nil_of_stopsIn passed nil stops]),
    within f hf stops]

/-- There are no more tokens than there are within another state. -/
theorem left {g h : Nat → Parser β} (hg : ∀ n m, n ≤ k → n ≤ m → Local n (g n) (h m)) :
    Local k (Parser.left >>= g) (Parser.left >>= h) := by
  intro s clean few
  have here (m : Nat) (le : s.pending.length ≤ m) : LocalAt s (g s.pending.length) (h m) :=
    hg s.pending.length m few le s clean (Nat.le_refl _)
  refine ⟨(here _ (Nat.le_refl _)).1, fun f hf stops => ?_⟩
  exact (here (s.pending ++ f.pending).length (by simp)).2 f hf stops

end Local

/-! ## Looking and reading -/

theorem within_token {t : Token} {place : Location} {rest : List Lexeme}
    (h : s.pending = ⟨.ok t, place⟩ :: rest) (f : State) :
    (f.within s).pending = ⟨.ok t, place⟩ :: (rest ++ f.pending) := by
  simp [State.within, h]

theorem peekLocated_local : Local k peekLocated peekLocated := by
  intro s clean _
  unfold LocalAt
  obtain nil | ⟨t, place, rest, pending⟩ := clean.cases
  · rw [peekLocated_nil nil]
    refine ⟨fun s' h => Option.some.inj h ▸ .refl s, fun f _ stops => ?_⟩
    have nothing : f.pending = [] := stops.resolve_right fun h => h nil
    rw [peekLocated_nil (by simp [State.within, nil, nothing])]
    rfl
  · rw [peekLocated_token pending]
    refine ⟨fun s' h => Option.some.inj h ▸ .refl s, fun f _ _ => ?_⟩
    rw [peekLocated_token (within_token pending f)]
    rfl

theorem peek_local : Local k peek peek := peekLocated_local.bind fun _ => .pure _

/-- What follows may depend on the token that comes next. -/
theorem Local.peekLocated {g h : Option (Located Token) → Parser β}
    (nil : Local k (g none) (h none))
    (token : ∀ s t place rest, s.Clean → s.pending.length ≤ k →
      s.pending = ⟨.ok t, place⟩ :: rest → LocalAt s (g (some ⟨t, place⟩)) (h (some ⟨t, place⟩))) :
    Local k (Parser.peekLocated >>= g) (Parser.peekLocated >>= h) := by
  refine fun s clean few => (peekLocated_local s clean few).bind fun a s' run => ?_
  obtain pending | ⟨t, place, rest, pending⟩ := clean.cases
  · rw [peekLocated_nil pending] at run
    cases run
    exact nil s clean few
  · rw [peekLocated_token pending] at run
    cases run
    exact token s t place rest clean few pending

theorem Local.peek {g h : Option Token → Parser β} (nil : Local k (g none) (h none))
    (token : ∀ s t place rest, s.Clean → s.pending.length ≤ k →
      s.pending = ⟨.ok t, place⟩ :: rest → LocalAt s (g (some t)) (h (some t))) :
    Local k (Parser.peek >>= g) (Parser.peek >>= h) := by
  simp only [Parser.peek, bind_assoc, pure_bind]
  exact .peekLocated nil token

/-- A token that is no separator is read. -/
theorem LocalAt.advance {g h : Option (Located Token) → Parser β} {t : Token} {place : Location}
    {rest : List Lexeme} (pending : s.pending = ⟨.ok t, place⟩ :: rest)
    (inside : isSeparator t = false)
    (hg : LocalAt (s.behind place rest) (g (some ⟨t, place⟩)) (h (some ⟨t, place⟩))) :
    LocalAt s (Parser.advance >>= g) (Parser.advance >>= h) := by
  have read : LocalAt s Parser.advance Parser.advance := by
    unfold LocalAt
    rw [advance_token pending]
    refine ⟨fun s' h => ?_, fun f _ _ => ?_⟩
    · obtain rfl := Option.some.inj h
      exact ⟨[⟨.ok t, place⟩], by simp [pending], by simpa using inside⟩
    · rw [advance_token (within_token pending f)]
      rfl
  refine read.bind fun a s' run => ?_
  rw [advance_token pending] at run
  cases run
  exact hg

theorem clean_behind {t : Token} {place : Location} {rest : List Lexeme}
    (pending : s.pending = ⟨.ok t, place⟩ :: rest) (clean : s.Clean) :
    (s.behind place rest).Clean :=
  fun l hl => clean l (by rw [pending]; exact List.mem_cons_of_mem _ hl)

/-- The sign may come next; behind it, there are fewer tokens. -/
theorem Local.accept {g h : Bool → Parser β} {t : Token} (inside : isSeparator t = false)
    (yes : ∀ n < k, Local n (g true) (h true)) (no : Local k (g false) (h false)) :
    Local k (Parser.accept t >>= g) (Parser.accept t >>= h) := by
  simp only [Parser.accept, bind_assoc]
  refine .peek (by simpa using no) fun s t' place rest clean few pending => ?_
  by_cases same : t' = t
  · subst same
    simp only [if_true, bind_assoc, pure_bind]
    refine .advance pending inside (yes _ ?_ _ (clean_behind pending clean) (Nat.le_refl _))
    rw [pending] at few
    exact few
  · simp only [Option.some.injEq, same, if_false, pure_bind]
    exact no s clean few

theorem lastSeen_local : Local k lastSeen lastSeen :=
  .of_done (fun _ => rfl) (fun _ => rfl) (fun _ _ => rfl) fun _ _ => rfl

theorem next_local (expected : String) : Local k (next expected) (next expected) := by
  refine .peekLocated (lastSeen_local.bind fun _ => .fail _ _)
    fun s t place rest clean few pending => ?_
  cases inside : isSeparator t with
  | true =>
    simp only [inside, if_true]
    exact Local.fail _ _ s clean few
  | false =>
    simp only [inside, Bool.false_eq_true, if_false]
    exact .advance pending inside (Local.pure _ _ (clean_behind pending clean) (Nat.le_refl _))

theorem expect_local {t : Token} (inside : isSeparator t = false) (expected : String) :
    Local k (expect t expected) (expect t expected) := by
  refine .peekLocated (lastSeen_local.bind fun _ => .fail _ _)
    fun s t' place rest clean few pending => ?_
  by_cases same : t' = t
  · subst same
    simp only [if_true]
    exact .advance pending inside (Local.pure _ _ (clean_behind pending clean) (Nat.le_refl _))
  · simp only [same, if_false]
    exact Local.fail _ _ s clean few

/-- What was read came next. -/
theorem next_eq_done {expected : String} {s s' : State} {t : Located Token} (clean : s.Clean)
    (run : next expected s = .done t s') :
    ∃ rest, s.pending = ⟨.ok t.value, t.place⟩ :: rest ∧ s' = s.behind t.place rest := by
  unfold next at run
  obtain pending | ⟨t, place, rest, pending⟩ := clean.cases
  · rw [bind_of_done (peekLocated_nil pending)] at run
    contradiction
  · rw [bind_of_done (peekLocated_token pending)] at run
    cases inside : isSeparator t with
    | true =>
      simp only [inside, if_true] at run
      contradiction
    | false =>
      simp only [inside, Bool.false_eq_true, if_false] at run
      rw [bind_of_done (advance_token pending)] at run
      cases run
      exact ⟨rest, pending, rfl⟩

theorem next_strict (expected : String) (s : State) (t : Located Token) (s' : State)
    (clean : s.Clean) (run : next expected s = .done t s') :
    s'.pending.length < s.pending.length := by
  obtain ⟨rest, pending, rfl⟩ := next_eq_done clean run
  simp [pending]

end Rules

section Primitives

variable {α : Type} {k : Nat} {item : Parser α}

theorem word_local (w : Keyword) : Local k (word w) (word w) := expect_local rfl _

theorem comma_local : Local k comma comma := expect_local rfl _

theorem openParen_local : Local k openParen openParen := expect_local rfl _

theorem closeParen_local : Local k closeParen closeParen := expect_local rfl _

theorem identifier_local : Local k identifier identifier :=
  (next_local _).bind fun t => by
    split
    · exact .pure _
    · exact .fail _ _

theorem atStatementEnd_local : Local k atStatementEnd atStatementEnd :=
  peek_local.bind fun t => by split <;> exact .pure _

/-! ## Names, problems and code -/

theorem report_local (e : SyntaxError) (place : Location) :
    Local k (report e place) (report e place) :=
  .of_done (fun _ => rfl) (fun _ => rfl) (fun _ _ => rfl) fun f s => by simp [State.within]

theorem warn_local (text : String) : Local k (warn text) (warn text) :=
  .of_done (fun _ => rfl) (fun _ => rfl) (fun _ _ => rfl) fun f s => by simp [State.within]

theorem emit_local (code : List Instruction) : Local k (emit code) (emit code) :=
  .of_done (fun _ => rfl) (fun _ => rfl) (fun _ _ => rfl) fun f s => by simp [State.within]

theorem record_local (r : Symbol.Table → Except (Located Symbol.NameError) Symbol.Table) :
    Local k (record r) (record r) := by
  intro s _ _
  unfold LocalAt
  cases found : r s.symbols with
  | ok symbols =>
    have run (s' : State) (same : s'.symbols = s.symbols) :
        record r s' = .done () { s' with symbols := symbols } := by
      simp [record, update, same, found]
    rw [run s rfl]
    exact ⟨fun s' e => Option.some.inj e ▸ .of_pending rfl, fun f _ _ => run (f.within s) rfl⟩
  | error e =>
    have run (s' : State) (same : s'.symbols = s.symbols) :
        record r s' = .done () { s' with problems := s'.problems ++ [e.map .name] } := by
      simp [record, update, same, found]
    rw [run s rfl]
    refine ⟨fun s' e => Option.some.inj e ▸ .of_pending rfl, fun f _ _ => ?_⟩
    rw [run (f.within s) rfl]
    simp [Outcome.within, State.within]

theorem mention_local (name : Located String) (kind : Symbol.Kind) :
    Local k (mention name kind) (mention name kind) := record_local _

theorem declare_local (name : Located String) (what : Symbol.Declaration) :
    Local k (declare name what) (declare name what) := record_local _

/-! ## Lists -/

theorem listOf_local (h : Local k item item) (n : Nat) :
    Local k (listOf item n) (listOf item n) := by
  induction n using listOf.induct with
  | case1 => exact .pure _
  | case2 => exact h.bind fun _ => .pure _
  | case3 n ih => exact h.bind fun _ => comma_local.bind fun _ => ih.bind fun _ => .pure _

theorem commaTail_local (h : ∀ n, Local n item item) {n m : Nat} (le : n ≤ m) :
    Local n (commaTail item n) (commaTail item m) := by
  induction n generalizing m with
  | zero =>
    refine Local.of_nil (.pure []) fun s nil => ?_
    cases m with
    | zero => rfl
    | succ m =>
      rw [commaTail, accept, bind_assoc, bind_of_done (peek_nil nil)]
      rfl
  | succ n ih =>
    obtain ⟨m, rfl⟩ : ∃ m', m = m' + 1 := ⟨m - 1, by omega⟩
    refine .accept rfl (fun n' lt => ?_) (.pure _)
    refine (h n').bind fun _ => Local.bind ?_ fun _ => .pure _
    exact (ih (by omega)).mono (by omega)

theorem commaSeparated_local (h : ∀ n, Local n item item) :
    Local k (commaSeparated item) (commaSeparated item) :=
  (h k).bind fun _ => .left fun _ _ _ le => (commaTail_local h le).bind fun _ => .pure _

end Primitives

end Parser

end Gamebook.Grammar
