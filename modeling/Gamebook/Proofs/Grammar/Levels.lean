import Gamebook.Proofs.Grammar.Lowering

/-!
# Levels of operators

Every level has a reader (`Parser.levelOver`), and most of them are chains over the next tighter
one. `Parser.ReadsTree level t ls` says that the reader of a level takes `ls` for `t` if what comes
next does not go on with it (`Level.stops`).

Operators of a chain are joined from the left, so what stands in front of one is not read as a whole
by the reader of its level: it is where the chain goes on from. `Parser.Opens level t ls` says that
the reader of a level comes to such a point behind `ls`, with the value of `t`, and an operator of
this very level may come next. This is what is shown by induction; `Parser.Opens.reads` ends the
chain.
-/

namespace Gamebook.Grammar

open Constant (Expr Operator)
open Gamebook.Symbol (Kind)

/-! ## Levels -/

namespace Level

/-- Whether operators of the level can follow one another. -/
def repeats : Level → Bool
  | not | comparison | complement | primary => false
  | _ => true

/-- The operators of a level that can be repeated. -/
def operators : Level → Token → Option Join
  | or => orLevel
  | and => andLevel
  | bitOr => bitOrLevel
  | bitAnd => bitAndLevel
  | shift => shiftLevel
  | sum => sumLevel
  | product => productLevel
  | not | comparison | complement | primary => fun _ => none

/-- What is written at a level does not go on with the token. -/
def stops (level : Level) (t : Token) : Prop :=
  t ≠ .openSquare ∧ ∀ l, infixLevel? t = some l → l.rank < level.rank

/-- What is written at a level does not go on with the token, or the token is an operator of the
level that can be repeated. -/
def admits (level : Level) (t : Token) : Prop :=
  t ≠ .openSquare ∧
    ∀ l, infixLevel? t = some l → l.rank < level.rank ∨ l = level ∧ level.repeats = true

variable {level : Level} {t : Token}

theorem rank_lt_tighter (h : level ≠ .primary) : level.rank < level.tighter.rank := by
  cases level <;> first | contradiction | decide

theorem admits_of_stops (h : level.stops t) : level.admits t :=
  ⟨h.1, fun l hl => .inl (h.2 l hl)⟩

theorem stops_of_admits (once : level.repeats = false) (h : level.admits t) : level.stops t := by
  refine ⟨h.1, fun l hl => ?_⟩
  rcases h.2 l hl with lt | ⟨-, again⟩
  · exact lt
  · simp [once] at again

theorem tighter_stops (h : level.admits t) : level.tighter.stops t := by
  by_cases top : level = .primary
  · subst top
    exact stops_of_admits rfl h
  · have lt := rank_lt_tighter top
    refine ⟨h.1, fun l hl => ?_⟩
    rcases h.2 l hl with lt' | ⟨rfl, -⟩
    · exact Nat.lt_trans lt' lt
    · exact lt

theorem stops_mono {level' : Level} (le : level.rank ≤ level'.rank) (h : level.stops t) :
    level'.stops t :=
  ⟨h.1, fun l hl => Nat.lt_of_lt_of_le (h.2 l hl) le⟩

theorem infixLevel?_of_operators {join : Join} (h : level.operators t = some join) :
    infixLevel? t = some level := by
  cases level <;>
    simp only [operators, orLevel, andLevel, bitOrLevel, bitAndLevel, shiftLevel, sumLevel,
      productLevel] at h <;>
    first
      | contradiction
      | (split at h <;> first | rfl | contradiction)

theorem operators_of_stops (h : level.stops t) : level.operators t = none := by
  cases found : level.operators t with
  | none => rfl
  | some join => exact absurd (h.2 level (infixLevel?_of_operators found)) (Nat.lt_irrefl _)

theorem comparison?_of_stops (h : comparison.stops t) : comparison? t = none := by
  unfold comparison?
  split <;> first | rfl | exact absurd (h.2 comparison rfl) (Nat.lt_irrefl _)

end Level

/-- Nothing comes next, or a token with the property does. -/
def Next (P : Token → Prop) (rest : List Lexeme) : Prop :=
  rest = [] ∨ ∃ t place rest', rest = ⟨.ok t, place⟩ :: rest' ∧ P t

theorem Next.mono {P Q : Token → Prop} {rest : List Lexeme} (h : Next P rest)
    (imp : ∀ t, P t → Q t) : Next Q rest := by
  obtain rfl | ⟨t, place, rest', rfl, ht⟩ := h
  · exact .inl rfl
  · exact .inr ⟨t, place, rest', rfl, imp t ht⟩

/-- Behind a bracket or a comma, nothing goes on. -/
theorem Next.stops {level : Level} (t : Token) (h : infixLevel? t = none) (ne : t ≠ .openSquare)
    (place : Location) (rest : List Lexeme) : Next level.stops (⟨.ok t, place⟩ :: rest) :=
  .inr ⟨t, place, rest, rfl, ne, fun l hl => by simp [h] at hl⟩

theorem Next.comma {level : Level} (place : Location) (rest : List Lexeme) :
    Next level.stops (⟨.ok .comma, place⟩ :: rest) := .stops .comma rfl (by decide) place rest

theorem Next.closeParen {level : Level} (place : Location) (rest : List Lexeme) :
    Next level.stops (⟨.ok .closeParen, place⟩ :: rest) :=
  .stops .closeParen rfl (by decide) place rest

theorem Next.closeSquare {level : Level} (place : Location) (rest : List Lexeme) :
    Next level.stops (⟨.ok .closeSquare, place⟩ :: rest) :=
  .stops .closeSquare rfl (by decide) place rest

namespace BinaryOperator

theorem operators_token (op : BinaryOperator) : op.level.operators op.token = some op.join := by
  cases op <;> rfl

theorem admits_token (op : BinaryOperator) : op.level.admits op.token := by
  cases op <;> exact ⟨nofun, fun _ h => .inr ⟨(Option.some.inj h).symm, rfl⟩⟩

end BinaryOperator

namespace Comparison

theorem comparison?_token (op : Comparison) : comparison? op.token = some op.opcode := by
  cases op <;> rfl

theorem stops_token (op : Comparison) : Level.bitOr.stops op.token := by
  cases op <;> exact ⟨nofun, fun _ h => Option.some.inj h ▸ by decide⟩

end Comparison

/-! ## Readers of levels -/

namespace Parser

section Readers

variable (operand : Parser (Located Value))

def complementOver : Parser (Located Value) := do prefixed .bitNot complement operand (← left)

def productOver : Parser (Located Value) := chain (complementOver operand) productLevel

def sumOver : Parser (Located Value) := chain (productOver operand) sumLevel

def shiftOver : Parser (Located Value) := chain (sumOver operand) shiftLevel

def bitAndOver : Parser (Located Value) := chain (shiftOver operand) bitAndLevel

def notOver : Parser (Located Value) := do
  prefixed (.keyword .NOT) negate (comparisonOver operand) (← left)

def andOver : Parser (Located Value) := chain (notOver operand) andLevel

/-- The reader of what is written at a level. -/
def levelOver : Level → Parser (Located Value)
  | .or => expressionOver operand
  | .and => andOver operand
  | .not => notOver operand
  | .comparison => comparisonOver operand
  | .bitOr => arithmeticOver operand
  | .bitAnd => bitAndOver operand
  | .shift => shiftOver operand
  | .sum => sumOver operand
  | .product => productOver operand
  | .complement => complementOver operand
  | .primary => operand

theorem levelOver_eq_chain {level : Level} (h : level.repeats = true) :
    levelOver operand level = chain (levelOver operand level.tighter) level.operators := by
  cases level <;> first | rfl | contradiction

end Readers

variable {s s' : State} {level : Level} {t a b : Tree} {ls las lbs rest : List Lexeme}

theorem peek_next {P : Token → Prop} (h : Next P s.pending) :
    ∃ o, peek s = .done o s ∧ ∀ t ∈ o, P t := by
  obtain pending | ⟨t, place, rest, pending, ht⟩ := h
  · exact ⟨none, peek_nil pending, by simp⟩
  · exact ⟨some t, peek_token pending, by simpa using ht⟩

/-- No square bracket opens where everything stops. -/
theorem peek_stops (h : Next level.stops s.pending) :
    ∃ o, peek s = .done o s ∧ o ≠ some .openSquare := by
  obtain ⟨o, hpeek, ho⟩ := peek_next h
  exact ⟨o, hpeek, fun bracket => (ho _ bracket).1 rfl⟩

/-- A chain ends where none of its operators comes next. -/
theorem chainFrom_stop {operand : Parser (Located Value)} (h : Next level.stops s.pending)
    (fuel : Nat) (v : Located Value) :
    chainFrom operand level.operators fuel v s = .done v s := by
  cases fuel with
  | zero => rfl
  | succ fuel =>
    obtain ⟨o, hpeek, ho⟩ := peek_next h
    have none : o.bind level.operators = none := by
      cases o with
      | none => rfl
      | some t => exact Level.operators_of_stops (ho t rfl)
    rw [chainFrom, bind_of_done hpeek, none]
    rfl

/-- A chain goes on behind one of its operators. -/
theorem chainFrom_operator {operand : Parser (Located Value)} {tok : Token} {join : Join}
    {place : Location} {lhs rhs v : Located Value} {s'' : State} (fuel : Nat)
    (h : s.pending = ⟨.ok tok, place⟩ :: rest) (found : level.operators tok = some join)
    (hrhs : operand (s.behind place rest) = .done rhs s') (hjoin : join lhs rhs s' = .done v s'') :
    chainFrom operand level.operators (fuel + 1) lhs s =
      chainFrom operand level.operators fuel v s'' := by
  rw [chainFrom, bind_of_done (peek_token h), Option.bind_some, found]
  dsimp only
  rw [bind_of_done (advance_token h), bind_of_done hrhs, bind_of_done hjoin]

/-! ## Levels in general -/

/-- At this level, `ls` opens an expression with the value of `t`: a chain goes on from there. -/
def Opens (level : Level) (t : Tree) (ls : List Lexeme) : Prop :=
  ∀ (depth : Nat) (s : State) (rest : List Lexeme), ls.length ≤ depth → s.pending = ls ++ rest →
    Next level.admits rest → t.Lowers s.symbols.value? →
    ∃ place fuel s', rest.length ≤ fuel ∧ s.Took t.mentions rest s' ∧
      levelOver (primary depth) level s =
        chainFrom (levelOver (primary depth) level.tighter) level.operators fuel
          ⟨t.value s.symbols.value?, place⟩ s'

/-- At this level, `ls` is read as an expression with the value of `t`. -/
def ReadsTree (level : Level) (t : Tree) (ls : List Lexeme) : Prop :=
  ∀ (depth : Nat) (s : State) (rest : List Lexeme), ls.length ≤ depth → s.pending = ls ++ rest →
    Next level.stops rest → t.Lowers s.symbols.value? →
    ∃ place s', s.Took t.mentions rest s' ∧
      levelOver (primary depth) level s = .done ⟨t.value s.symbols.value?, place⟩ s'

theorem Opens.reads (h : Opens level t ls) : ReadsTree level t ls := by
  intro depth s rest deep pending stop lowers
  obtain ⟨place, fuel, s', -, took, run⟩ :=
    h depth s rest deep pending (stop.mono fun _ => Level.admits_of_stops) lowers
  refine ⟨place, s', took, ?_⟩
  rw [run, chainFrom_stop (took.pending ▸ stop)]

theorem ReadsTree.opens (h : ReadsTree level t ls) (once : level.repeats = false) :
    Opens level t ls := by
  intro depth s rest deep pending admits lowers
  have stop := admits.mono fun _ => Level.stops_of_admits once
  obtain ⟨place, s', took, run⟩ := h depth s rest deep pending stop lowers
  refine ⟨place, rest.length, s', Nat.le_refl _, took, ?_⟩
  rw [run, chainFrom_stop (took.pending ▸ stop)]

/-- What is read at the next tighter level opens a chain. -/
theorem ReadsTree.opens_chain (h : ReadsTree level.tighter t ls) (again : level.repeats = true) :
    Opens level t ls := by
  intro depth s rest deep pending admits lowers
  obtain ⟨place, s', took, run⟩ :=
    h depth s rest deep pending (admits.mono fun _ => Level.tighter_stops) lowers
  refine ⟨place, s'.pending.length, s', took.pending ▸ Nat.le_refl _, took, ?_⟩
  rw [levelOver_eq_chain _ again, chain, bind_of_done run, bind_of_done left_apply]

/-! ## Operators -/

theorem opens_binary {op : BinaryOperator} (p : Location) (ha : Opens op.level a las)
    (hb : ReadsTree op.level.tighter b lbs) :
    Opens op.level (.binary op a b) (las ++ ⟨.ok op.token, p⟩ :: lbs) := by
  intro depth s rest deep pending admits lowers
  simp only [List.length_append, List.length_cons] at deep
  obtain ⟨place, fuel, s₁, enough, took₁, run₁⟩ :=
    ha depth s (⟨.ok op.token, p⟩ :: (lbs ++ rest)) (by omega) (by simpa using pending)
      (.inr ⟨_, _, _, rfl, op.admits_token⟩) lowers.1.1
  obtain ⟨place', s₂, took₂, run₂⟩ :=
    hb depth (s₁.behind p (lbs ++ rest)) rest (by omega) rfl
      (admits.mono fun _ => Level.tighter_stops) (by simpa [took₁.value?] using lowers.1.2)
  have same : s₂.symbols.value? = s.symbols.value? := took₂.value?.trans took₁.value?
  obtain ⟨place'', joined⟩ := join_value (s := s₂) (by rwa [same]) place place'
  simp only [List.length_cons, List.length_append] at enough
  obtain ⟨fuel, rfl⟩ : ∃ n, fuel = n + 1 := ⟨fuel - 1, by omega⟩
  refine ⟨place'', fuel, s₂, by omega, took₁.trans took₂.behind_trans, ?_⟩
  rw [State.behind_symbols, took₁.value?] at run₂
  rw [same] at joined
  rw [run₁, chainFrom_operator fuel took₁.pending op.operators_token run₂ joined]

theorem readsTree_compare (op : Comparison) (p : Location) (ha : ReadsTree .bitOr a las)
    (hb : ReadsTree .bitOr b lbs) :
    ReadsTree .comparison (.compare op a b) (las ++ ⟨.ok op.token, p⟩ :: lbs) := by
  intro depth s rest deep pending stop lowers
  simp only [List.length_append, List.length_cons] at deep
  obtain ⟨⟨lowersA, pushA⟩, lowersB, pushB⟩ := lowers
  obtain ⟨place, s₁, took₁, run₁⟩ :=
    ha depth s (⟨.ok op.token, p⟩ :: (lbs ++ rest)) (by omega) (by simpa using pending)
      (.inr ⟨_, _, _, rfl, op.stops_token⟩) lowersA
  obtain ⟨place', s₂, took₂, run₂⟩ :=
    hb depth (s₁.behind p (lbs ++ rest)) rest (by omega) rfl
      (stop.mono fun _ => Level.stops_mono (by decide)) (by simpa [took₁.value?] using lowersB)
  have same : s₂.symbols.value? = s.symbols.value? := took₂.value?.trans took₁.value?
  have joined := runtimeBinary_value (s := s₂) (same ▸ pushA) (same ▸ pushB) op.opcode place place'
  rw [State.behind_symbols, took₁.value?] at run₂
  rw [same] at joined
  refine ⟨place.span place', s₂, took₁.trans took₂.behind_trans, ?_⟩
  change (levelOver (primary depth) .bitOr >>= _) s = _
  rw [bind_of_done run₁, bind_of_done (peek_token took₁.pending), Option.bind_some,
    op.comparison?_token]
  dsimp only
  rw [bind_of_done (advance_token took₁.pending)]
  change (levelOver (primary depth) .bitOr >>= _) _ = _
  rw [bind_of_done run₂, joined]
  rfl

/-- Without a comparison behind it, what is tighter stands alone. -/
theorem ReadsTree.compared (h : ReadsTree .bitOr t ls) : ReadsTree .comparison t ls := by
  intro depth s rest deep pending stop lowers
  obtain ⟨place, s', took, run⟩ :=
    h depth s rest deep pending (stop.mono fun _ => Level.stops_mono (by decide)) lowers
  obtain ⟨o, hpeek, ho⟩ := peek_next (s := s') (took.pending ▸ stop)
  have none : o.bind comparison? = none := by
    cases o with
    | none => rfl
    | some t => exact Level.comparison?_of_stops (ho t rfl)
  refine ⟨place, s', took, ?_⟩
  change (levelOver (primary depth) .bitOr >>= _) s = _
  rw [bind_of_done run, bind_of_done hpeek, none]
  rfl

section Prefixed

variable {operand : Parser (Located Value)} {sign tok : Token} {place : Location}
  {wrap : Located Value → Parser Value}

theorem prefixed_sign {inner : Located Value} {v : Value} {s'' : State}
    (h : s.pending = ⟨.ok sign, place⟩ :: rest)
    (hinner : prefixed sign wrap operand rest.length (s.behind place rest) = .done inner s')
    (hwrap : wrap inner s' = .done v s'') :
    prefixed sign wrap operand s.pending.length s = .done ⟨v, place.span inner.place⟩ s'' := by
  rw [h, List.length_cons, prefixed, bind_of_done (accept_token h), if_pos rfl,
    bind_of_done lastSeen_apply, bind_of_done hinner, bind_of_done hwrap]
  rfl

theorem prefixed_other (h : s.pending = ⟨.ok tok, place⟩ :: rest) (ne : tok ≠ sign) (fuel : Nat) :
    prefixed sign wrap operand fuel s = operand s := by
  cases fuel with
  | zero => rfl
  | succ fuel =>
    rw [prefixed, bind_of_done (accept_of_ne h ne)]
    rfl

end Prefixed

theorem readsTree_negate (p : Location) (h : ReadsTree .not t ls) :
    ReadsTree .not (.negate t) (⟨.ok (.keyword .NOT), p⟩ :: ls) := by
  intro depth s rest deep pending stop lowers
  obtain ⟨place, s', took, run⟩ :=
    h depth (s.behind p (ls ++ rest)) rest (Nat.le_of_succ_le deep) rfl stop lowers.1
  have pushed := push_value (s := s') (took.value? ▸ lowers.2) place
  rw [took.value?] at pushed
  refine ⟨_, s', took.behind_trans, prefixed_sign pending run ?_⟩
  rw [negate, bind_of_done pushed]
  rfl

theorem readsTree_complement (p : Location) (h : ReadsTree .complement t ls) :
    ReadsTree .complement (.complement t) (⟨.ok .bitNot, p⟩ :: ls) := by
  intro depth s rest deep pending stop lowers
  obtain ⟨place, s', took, run⟩ :=
    h depth (s.behind p (ls ++ rest)) rest (Nat.le_of_succ_le deep) rfl stop lowers
  exact ⟨_, s', took.behind_trans, prefixed_sign pending run (complement_value _ _ _ _)⟩

theorem ReadsTree.negated (h : ReadsTree .comparison t ls) {tok : Token} {p : Location}
    {ls' : List Lexeme} (head : ls = ⟨.ok tok, p⟩ :: ls') (ne : tok ≠ .keyword .NOT) :
    ReadsTree .not t ls := by
  subst head
  intro depth s rest deep pending stop lowers
  obtain ⟨place, s', took, run⟩ :=
    h depth s rest deep pending (stop.mono fun _ => Level.stops_mono (by decide)) lowers
  exact ⟨place, s', took, (prefixed_other pending ne _).trans run⟩

theorem ReadsTree.complemented (h : ReadsTree .primary t ls) {tok : Token} {p : Location}
    {ls' : List Lexeme} (head : ls = ⟨.ok tok, p⟩ :: ls') (ne : tok ≠ .bitNot) :
    ReadsTree .complement t ls := by
  subst head
  intro depth s rest deep pending stop lowers
  obtain ⟨place, s', took, run⟩ :=
    h depth s rest deep pending (stop.mono fun _ => Level.stops_mono (by decide)) lowers
  exact ⟨place, s', took, (prefixed_other pending ne _).trans run⟩

end Parser

end Gamebook.Grammar
