import Gamebook.Grammar.Parser
import Gamebook.Proofs.Bytecode.Scoped
import Gamebook.Proofs.Symbol.Agreement

/-!
# What parsers do in scripts that are accepted

Reading a script goes on behind whatever is wrong with it, so of most parsers nothing good can be
said in general. All that is shown here is therefore shown in view of the end: of a state in which
nothing is wrong (`Accepted`). Reading only ever adds to the problems, the names and the made-up
labels (`State.Grows`), so what comes before such a state has no problems either, and what it says
of names still holds there. It takes tokens from the front only, and an error that stands among them
becomes a problem as soon as it is passed (`State.Consumes`). And the statements of a script do not
depend on what was found wrong before them (`Parser.Blind`), nor on the order in which names came to
be known, if all is well with them in the end (`Parser.Follows`).

`Parser.Meets T C p Q` says all this of a parser `p`: it only adds to the state, it is blind to
problems unless it is one of those that report colons, it follows where names came in another order,
and if `T` is where reading ends up and `C` holds, then it leads from a state `s` to a state `s'`
with a result `a` only if `Q s a s'`. There are two forms that all parsers of the grammar have:

* `Reads T C p P`: the parser writes nothing, and its result has the property `P`;
* `Writes T C p owed`: the parser writes code that leaves the stack as it was, and what this code
  gives a place is what the parser declared or made up, and `owed` besides.

The condition `C` collects what is known of the results of the parsers before (`Reads.bind`).
-/

namespace Gamebook.Grammar

open Gamebook.Symbol (Declaration Kind)

/-! ## States -/

/-- The error a lexeme stands for. -/
def scanError? (l : Lexeme) : Option (Located ScanError) :=
  match l.value with
  | .error e => some ⟨e, l.place⟩
  | .ok _ => none

/-- The token a lexeme stands for. -/
def token? (l : Lexeme) : Option (Located Token) :=
  match l.value with
  | .error _ => none
  | .ok t => some ⟨t, l.place⟩

/-- The lexical error a problem is. -/
def scanned? (p : Located Problem) : Option (Located ScanError) :=
  match p.value with
  | .scan e => some ⟨e, p.place⟩
  | _ => none

/-- The errors among lexemes, in order. -/
def scanErrors (ls : List Lexeme) : List (Located ScanError) := ls.filterMap scanError?

/-- The tokens among lexemes, in order. -/
def tokensOf (ls : List Lexeme) : List (Located Token) := ls.filterMap token?

/-- The lexical errors among problems, in order. -/
def scanned (ps : List (Located Problem)) : List (Located ScanError) := ps.filterMap scanned?

@[simp] theorem scanned_append (ps qs : List (Located Problem)) :
    scanned (ps ++ qs) = scanned ps ++ scanned qs := List.filterMap_append

namespace State

/-- Tokens were taken from the front, and the errors that stood there became problems. -/
structure Consumes (s s' : State) : Prop where
  errors : scanned s'.problems ++ scanErrors s'.pending =
    scanned s.problems ++ scanErrors s.pending
  tokens : tokensOf s'.pending <:+ tokensOf s.pending

theorem Consumes.refl (s : State) : s.Consumes s := ⟨rfl, List.suffix_rfl⟩

/-- Nothing was read, and no lexical error became a problem. -/
theorem Consumes.of_pending {s s' : State} (pending : s'.pending = s.pending)
    (errors : scanned s'.problems = scanned s.problems) : s.Consumes s' :=
  ⟨by rw [pending, errors], pending ▸ List.suffix_rfl⟩

/-- Something else was found wrong. -/
theorem Consumes.of_problem {s : State} {p : Located Problem} (other : scanned? p = none) :
    s.Consumes { s with problems := s.problems ++ [p] } :=
  .of_pending rfl (by simp [scanned, other])

theorem Consumes.trans {s s' s'' : State} (h : s.Consumes s') (h' : s'.Consumes s'') :
    s.Consumes s'' :=
  ⟨h'.errors.trans h.errors, h'.tokens.trans h.tokens⟩

/-- The second state comes after the first. -/
structure Grows (s s' : State) : Prop where
  problems : s.problems <+: s'.problems
  symbols : s.symbols.Run s'.symbols
  hiddenLabels : s.hiddenLabels ≤ s'.hiddenLabels
  consumes : s.Consumes s'

theorem Grows.refl (s : State) : s.Grows s := ⟨List.prefix_rfl, .refl, Nat.le_refl _, .refl s⟩

/-- Nothing was read, found wrong or declared. -/
theorem Grows.of_same {s s' : State} (pending : s'.pending = s.pending)
    (problems : s'.problems = s.problems) (symbols : s'.symbols = s.symbols)
    (hiddenLabels : s.hiddenLabels ≤ s'.hiddenLabels) : s.Grows s' :=
  ⟨problems ▸ List.prefix_rfl, symbols ▸ .refl, hiddenLabels,
    .of_pending pending (by rw [problems])⟩

theorem Grows.trans {s s' s'' : State} (h : s.Grows s') (h' : s'.Grows s'') : s.Grows s'' :=
  ⟨h.problems.trans h'.problems, h.symbols.trans h'.symbols,
    Nat.le_trans h.hiddenLabels h'.hiddenLabels, h.consumes.trans h'.consumes⟩

/-- What was written does not count. -/
theorem Grows.recode {s s' : State} (h : s.Grows s') (code code' : List Instruction) :
    { s with code := code }.Grows { s' with code := code' } :=
  ⟨h.problems, h.symbols, h.hiddenLabels, h.consumes.errors, h.consumes.tokens⟩

/-- How often code has to give this name a place, by what is declared and made up so far. -/
def made (s : State) (name : String) (what : Declaration) : Nat :=
  (if s.symbols.declaration name = some what then 1 else 0) +
    if what = .label then
      ((List.range s.hiddenLabels).map Parser.hiddenLabelName).count name
    else 0

/-- Nothing was written, declared to have a place or made up. -/
structure Still (s s' : State) : Prop where
  code_eq : s'.code = s.code
  made_eq : ∀ name what, what.isPlaced = true → s'.made name what = s.made name what

theorem Still.refl (s : State) : s.Still s := ⟨rfl, fun _ _ _ => rfl⟩

theorem Still.trans {s s' s'' : State} (h : s.Still s') (h' : s'.Still s'') : s.Still s'' :=
  ⟨h'.code_eq.trans h.code_eq, fun name what placed =>
    (h'.made_eq name what placed).trans (h.made_eq name what placed)⟩

theorem Still.of_eq {s s' : State} (code : s'.code = s.code) (symbols : s'.symbols = s.symbols)
    (hiddenLabels : s'.hiddenLabels = s.hiddenLabels) : s.Still s' :=
  ⟨code, fun name what _ => by rw [made, made, symbols, hiddenLabels]⟩

/-- `new` was written. What it gives a place is what was declared and made up meanwhile, and
`owed`. -/
structure Wrote (σ : Scope) (s : State) (new : List Instruction) (s' : State)
    (owed : List (String × Declaration)) : Prop where
  code_eq : s'.code = s.code ++ new
  balanced : Balanced σ new
  account : ∀ name what, what.isPlaced = true →
    (placed new).count (name, what) + s.made name what =
      s'.made name what + owed.count (name, what)

theorem Still.wrote {s s' : State} (σ : Scope) (h : s.Still s') : Wrote σ s [] s' [] where
  code_eq := by rw [h.code_eq, List.append_nil]
  balanced := .nil
  account name what placed := by simp [h.made_eq name what placed]

theorem Wrote.trans {σ : Scope} {s s' s'' : State} {xs ys : List Instruction}
    {owed owed' : List (String × Declaration)} (h : Wrote σ s xs s' owed)
    (h' : Wrote σ s' ys s'' owed') : Wrote σ s (xs ++ ys) s'' (owed ++ owed') where
  code_eq := by rw [h'.code_eq, h.code_eq, List.append_assoc]
  balanced := h.balanced.append h'.balanced
  account name what isPlaced := by
    have first := h.account name what isPlaced
    have second := h'.account name what isPlaced
    rw [placed_append, List.count_append, List.count_append]
    omega

/-- What was declared or made up before is not owed any more, since it has a place now. -/
theorem Wrote.pay {σ : Scope} {s s' s'' : State} {new : List Instruction}
    {due owed : List (String × Declaration)}
    (made : ∀ name what, what.isPlaced = true →
      s'.made name what = s.made name what + due.count (name, what))
    (code_eq : s'.code = s.code) (h : Wrote σ s' new s'' (due ++ owed)) :
    Wrote σ s new s'' owed where
  code_eq := by rw [h.code_eq, code_eq]
  balanced := h.balanced
  account name what isPlaced := by
    have account := h.account name what isPlaced
    rw [made name what isPlaced, List.count_append] at account
    omega

end State

/-- A state in which nothing is wrong but colons that are missing. -/
structure Accepted where
  state : State
  fine : ∀ p ∈ state.problems, p.value = .grammar .missingColon
  /-- Whether a colon that is missing is reported on the way. -/
  strict : Bool

namespace Accepted

/-- Where nothing is wrong because nothing was read. -/
def nothing (strict : Bool) : Accepted where
  state := ⟨[], .nowhere, [], .empty, [], 0, []⟩
  fine := List.forall_mem_nil _
  strict := strict

/-- The names that are used as something of a kind, and the labels that were made up. -/
def scope (T : Accepted) : Scope := fun kind name =>
  T.state.symbols.Uses name kind ∨
    kind = .label ∧ ∃ n < T.state.hiddenLabels, name = Parser.hiddenLabelName n

/-- Nothing is wrong before an accepted state. -/
theorem not_grows {T : Accepted} {s : State} {p : Located Problem} (hp : p ∈ s.problems)
    (wrong : p.value ≠ .grammar .missingColon) : ¬ s.Grows T.state := fun grows =>
  wrong (T.fine p (grows.problems.subset hp))

end Accepted

/-! ## Problems found before -/

/-- The same state with other problems. -/
def State.having (s : State) (ps : List (Located Problem)) : State := { s with problems := ps }

/-- The state if nothing had been found wrong before. -/
abbrev State.fresh (s : State) : State := s.having []

namespace Outcome

variable {α : Type}

/-- The outcome if `ps` had been found wrong before. -/
def behind (ps : List (Located Problem)) : Outcome α → Outcome α
  | done a s => done a (s.having (ps ++ s.problems))
  | failed e s => failed e (s.having (ps ++ s.problems))
  | overflowed => overflowed

/-- What was found wrong. -/
def problems : Outcome α → List (Located Problem)
  | done _ s | failed _ s => s.problems
  | overflowed => []

theorem behind_behind (ps qs : List (Located Problem)) (o : Outcome α) :
    (o.behind qs).behind ps = o.behind (ps ++ qs) := by
  cases o with
  | done a s => simp [behind, State.having]
  | failed e s => simp [behind, State.having]
  | overflowed => rfl

end Outcome

/-- None of the problems is a missing colon. -/
def Colonless (ps : List (Located Problem)) : Prop :=
  ∀ p ∈ ps, p.value ≠ .grammar .missingColon

theorem Colonless.append {ps qs : List (Located Problem)} (h : Colonless ps)
    (h' : Colonless qs) : Colonless (ps ++ qs) :=
  List.forall_mem_append.mpr ⟨h, h'⟩

namespace Parser

/-- `p` finds no colon missing, and what it does is the same whatever was found wrong before. -/
structure Blind {α : Type} (p : Parser α) : Prop where
  runs : ∀ s : State, p s = (p s.fresh).behind s.problems
  other : ∀ s : State, Colonless (p s.fresh).problems

namespace Blind

variable {α β : Type} {p : Parser α} {f : α → Parser β}

/-- Some things may be found wrong. -/
theorem of_done {a : State → α} {next : State → State} (new : State → List (Located Problem))
    (hp : ∀ s, p s = .done (a s) (next s)) (same : ∀ s : State, a s.fresh = a s)
    (moves : ∀ s : State, next s = (next s.fresh).having (s.problems ++ new s.fresh))
    (other : ∀ s : State, Colonless (new s)) : Blind p where
  runs s := by
    have fresh : (next s.fresh).problems = new s.fresh := congrArg State.problems (moves s.fresh)
    rw [hp, hp, same, Outcome.behind, fresh, ← moves]
  other s := by
    have fresh : (next s.fresh).problems = new s.fresh := congrArg State.problems (moves s.fresh)
    rw [hp, Outcome.problems, fresh]
    exact other _

/-- Nothing is found wrong. -/
theorem of_still {a : State → α} {next : State → State} (hp : ∀ s, p s = .done (a s) (next s))
    (same : ∀ s : State, a s.fresh = a s)
    (moves : ∀ s : State, next s = (next s.fresh).having s.problems) : Blind p :=
  of_done (fun _ => []) hp same (fun s => by rw [List.append_nil]; exact moves s)
    fun _ => List.forall_mem_nil _

protected theorem pure (a : α) : Blind (pure a) :=
  of_still (fun _ => rfl) (fun _ => rfl) fun _ => rfl

protected theorem fail (e : SyntaxError) (place : Location) : Blind (fail e place : Parser α) where
  runs s := by simp [Parser.fail, Outcome.behind, State.having]
  other _ := List.forall_mem_nil _

/-- What `p` does may depend on the state in other ways. -/
theorem of_eq (h : ∀ s : State, ∃ q, Blind q ∧ p s = q s ∧ p s.fresh = q s.fresh) : Blind p := by
  constructor
  · intro s
    obtain ⟨q, blind, here, fresh⟩ := h s
    rw [here, fresh, blind.runs]
  · intro s
    obtain ⟨q, blind, -, fresh⟩ := h s
    rw [fresh]
    exact blind.other s

/-- If no colon was missing before, none is missing behind. -/
theorem colonless (h : Blind p) {s : State} (before : Colonless s.problems) :
    Colonless (p s).problems := by
  have new := h.other s
  rw [h.runs s]
  cases run : p s.fresh with
  | done a s' =>
    rw [run] at new
    exact before.append new
  | failed e s' =>
    rw [run] at new
    exact before.append new
  | overflowed => exact List.forall_mem_nil _

protected theorem bind (hp : Blind p) (hf : ∀ a, Blind (f a)) : Blind (p >>= f) := by
  constructor
  · intro s
    rw [bind_apply, bind_apply, hp.runs s]
    cases p s.fresh with
    | done a s' =>
      change f a _ = (f a s').behind _
      rw [(hf a).runs, (hf a).runs s', Outcome.behind_behind]
      rfl
    | failed e s' => rfl
    | overflowed => rfl
  · intro s
    have first := hp.other s
    rw [bind_apply]
    cases run : p s.fresh with
    | done a s' =>
      rw [run] at first
      exact (hf a).colonless first
    | failed e s' =>
      rw [run] at first
      exact first
    | overflowed => exact List.forall_mem_nil _

/-- The state may be looked at, but not for problems. -/
protected theorem state {g : State → Parser β} (hg : ∀ s, Blind (g s))
    (same : ∀ s : State, g s.fresh = g s) : Blind (state >>= g) where
  runs s := by
    change g s s = (g s.fresh s.fresh).behind s.problems
    rw [same, (hg s).runs s]
  other s := by
    change Colonless (g s.fresh s.fresh).problems
    rw [same]
    exact (hg s).other s

end Blind

end Parser

/-! ## Names in another order -/

namespace State

/-- The same state, but for the order in which names came to be known, and for what was written and
noted. -/
structure Twin (s s' : State) : Prop where
  pending : s'.pending = s.pending
  lastSeen : s'.lastSeen = s.lastSeen
  problems : s'.problems = s.problems
  hiddenLabels : s'.hiddenLabels = s.hiddenLabels
  symbols : s.symbols.Agrees s'.symbols

/-- The same code was written behind what there was in two states. -/
def WroteAlike (s s' t t' : State) : Prop :=
  ∃ new, t.code = s.code ++ new ∧ t'.code = s'.code ++ new

theorem WroteAlike.trans {s s' t t' u u' : State} (h : WroteAlike s s' t t')
    (h' : WroteAlike t t' u u') : WroteAlike s s' u u' := by
  obtain ⟨new, first, first'⟩ := h
  obtain ⟨more, second, second'⟩ := h'
  refine ⟨new ++ more, ?_, ?_⟩
  · rw [second, first, List.append_assoc]
  · rw [second', first', List.append_assoc]

/-- Nothing was written in either. -/
theorem WroteAlike.of_eq {s s' t t' : State} (h : t.code = s.code) (h' : t'.code = s'.code) :
    WroteAlike s s' t t' :=
  ⟨[], by rw [h, List.append_nil], by rw [h', List.append_nil]⟩

end State

namespace Parser

/-- What `p` does on the way to `T`, it also does where names came to be known in another order. -/
def Follows {α : Type} (T : Accepted) (p : Parser α) : Prop :=
  T.state.symbols.Settled → ∀ ⦃s s' a t⦄, s.Twin s' → p s = .done a t →
    t.Grows T.state → ∃ t', p s' = .done a t' ∧ t.Twin t' ∧ s.WroteAlike s' t t'

namespace Follows

variable {α β : Type} {T : Accepted} {p : Parser α} {f : α → Parser β}

theorem of_done {a : State → α} {next : State → State} (hp : ∀ s, p s = .done (a s) (next s))
    (same : ∀ {s s'}, s.Twin s' → a s' = a s)
    (moves : ∀ {s s'}, s.Twin s' → (next s).Twin (next s'))
    (wrote : ∀ s s' : State, s.WroteAlike s' (next s) (next s')) : Follows T p := by
  intro _ s s' b t twin run _
  rw [hp] at run
  cases run
  exact ⟨next s', by rw [hp, same twin], moves twin, wrote s s'⟩

/-- Parsers that write nothing. -/
theorem of_still {a : State → α} {next : State → State} (hp : ∀ s, p s = .done (a s) (next s))
    (same : ∀ {s s'}, s.Twin s' → a s' = a s)
    (moves : ∀ {s s'}, s.Twin s' → (next s).Twin (next s'))
    (code : ∀ s, (next s).code = s.code) : Follows T p :=
  of_done hp same moves fun s s' => .of_eq (code s) (code s')

protected theorem pure (a : α) : Follows T (pure a) :=
  of_still (fun _ => rfl) (fun _ => rfl) id fun _ => rfl

protected theorem fail (e : SyntaxError) (place : Location) :
    Follows T (fail e place : Parser α) := by
  intro _ s s' a t _ run
  contradiction

protected theorem bind (hp : Follows T p) (hf : ∀ a, Follows T (f a))
    (grows : ∀ {a s b t}, f a s = .done b t → s.Grows t) : Follows T (p >>= f) := by
  intro settled s s' b u twin run final
  rw [bind_apply] at run
  cases first : p s with
  | overflowed => simp [first] at run
  | failed e t => simp [first] at run
  | done a t =>
    rw [first] at run
    obtain ⟨t', first', twin', wrote⟩ := hp settled twin first ((grows run).trans final)
    obtain ⟨u', second', twin'', wrote'⟩ := hf a settled twin' run final
    exact ⟨u', by rw [bind_apply, first']; exact second', twin'', wrote.trans wrote'⟩

/-- The state may be looked at, but not for the order of names. -/
protected theorem state {g : State → Parser β} (hg : ∀ s, Follows T (g s))
    (grows : ∀ {s b t}, g s s = .done b t → s.Grows t)
    (same : T.state.symbols.Settled → ∀ {s s'}, s.Twin s' → s.Grows T.state →
      g s' = g s) : Follows T (state >>= g) := by
  intro settled s s' b t twin run final
  have run : g s s = .done b t := run
  obtain ⟨t', run', twin', wrote⟩ := hg s settled twin run final
  refine ⟨t', ?_, twin', wrote⟩
  change g s' s' = _
  rw [same settled twin ((grows run).trans final), run']

end Follows

/-! ## The judgement -/

/-- `p` only adds to the state and does not fail for a colon, nor does it depend on problems unless
colons are reported, or on the order of names. If `C` holds and reading ends up in `T`, then `Q`
holds of the state before, the result and the state behind. -/
structure Meets {α : Type} (T : Accepted) (C : Prop) (p : Parser α)
    (Q : State → α → State → Prop) : Prop where
  runs : ∀ s, match p s with
    | .done a s' => s.Grows s' ∧ (C → s'.Grows T.state → Q s a s')
    | .failed e s' => s.Grows s' ∧ e.value ≠ .missingColon
    | .overflowed => True
  blind : T.strict = false → Blind p
  follows : Follows T p

section Rules

variable {α β : Type} {T : Accepted} {C C' : Prop} {p : Parser α} {f : α → Parser β}

namespace Meets

variable {Q Q' : State → α → State → Prop}

theorem of_done {a : State → α} {next : State → State} (hp : ∀ s, p s = .done (a s) (next s))
    (grows : ∀ s : State, s.Grows (next s)) (blind : T.strict = false → Blind p)
    (follows : Follows T p) (h : ∀ s, C → (next s).Grows T.state → Q s (a s) (next s)) :
    Meets T C p Q where
  runs s := by
    rw [hp s]
    exact ⟨grows s, h s⟩
  blind := blind
  follows := follows

theorem grows_of_done (h : Meets T C p Q) {s s' : State} {a : α} (run : p s = .done a s') :
    s.Grows s' := by
  have outcome := h.runs s
  rw [run] at outcome
  exact outcome.1

/-- Nothing fails for a colon. -/
theorem other (h : Meets T C p Q) {s s' : State} {e : Located SyntaxError}
    (run : p s = .failed e s') : e.value ≠ .missingColon := by
  have outcome := h.runs s
  rw [run] at outcome
  exact outcome.2

theorem bind {P : α → Prop} {R : α → State → β → State → Prop} {S : State → β → State → Prop}
    (hp : Meets T C p Q) (hP : ∀ {s a s'}, Q s a s' → P a)
    (hf : ∀ a, Meets T (C ∧ P a) (f a) (R a))
    (h : ∀ {s a s' b s''}, Q s a s' → R a s' b s'' → S s b s'') : Meets T C (p >>= f) S := by
  refine ⟨fun s => ?_, fun lenient => (hp.blind lenient).bind fun a => (hf a).blind lenient,
    hp.follows.bind (fun a => (hf a).follows) fun {a} => (hf a).grows_of_done⟩
  have first := hp.runs s
  rw [bind_apply]
  cases hps : p s with
  | overflowed => trivial
  | failed e s' =>
    rw [hps] at first
    exact first
  | done a s' =>
    rw [hps] at first
    have second := (hf a).runs s'
    dsimp only
    cases hfs : f a s' with
    | overflowed => trivial
    | failed e s'' =>
      rw [hfs] at second
      exact ⟨first.1.trans second.1, second.2⟩
    | done b s'' =>
      rw [hfs] at second
      refine ⟨first.1.trans second.1, fun hC final => ?_⟩
      have holds := first.2 hC (second.1.trans final)
      exact h holds (second.2 ⟨hC, hP holds⟩ final)

theorem mono (h : Meets T C' p Q') (hC : C → C') (hQ : ∀ {s a s'}, C → Q' s a s' → Q s a s') :
    Meets T C p Q := by
  refine ⟨fun s => ?_, h.blind, h.follows⟩
  have run := h.runs s
  cases hps : p s with
  | overflowed => trivial
  | failed e s' =>
    rw [hps] at run
    exact run
  | done a s' =>
    rw [hps] at run
    exact ⟨run.1, fun c final => hQ c (run.2 (hC c) final)⟩

theorem fail {e : SyntaxError} {place : Location} (h : e ≠ .missingColon) :
    Meets T C (fail e place) Q := ⟨fun s => ⟨.refl s, h⟩, fun _ => .fail e place, .fail e place⟩

end Meets

/-- `p` writes nothing, and if `C` holds then its result has the property `P`. -/
def Reads (T : Accepted) (C : Prop) (p : Parser α) (P : α → Prop) : Prop :=
  Meets T C p fun s a s' => s.Still s' ∧ P a

/-- `p` writes code that leaves the stack as it was, and pays what it owes: it gives a place to what
it declares and makes up, and to `owed`. -/
def Writes (T : Accepted) (C : Prop) (p : Parser Unit) (owed : List (String × Declaration)) :
    Prop :=
  Meets T C p fun s _ s' => ∃ new, s.Wrote T.scope new s' owed

namespace Reads

variable {P P' : α → Prop} {R : β → Prop}

theorem of_done {a : State → α} {next : State → State} (hp : ∀ s, p s = .done (a s) (next s))
    (grows : ∀ s : State, s.Grows (next s)) (still : ∀ s : State, s.Still (next s))
    (blind : T.strict = false → Blind p) (follows : Follows T p)
    (h : ∀ s, C → (next s).Grows T.state → P (a s)) : Reads T C p P :=
  Meets.of_done hp grows blind follows fun s hC final => ⟨still s, h s hC final⟩

protected theorem pure {a : α} (h : C → P a) : Reads T C (pure a) P :=
  of_done (fun _ => rfl) .refl .refl (fun _ => .pure a) (.pure a) fun _ hC _ => h hC

protected theorem fail {e : SyntaxError} {place : Location} (h : e ≠ .missingColon) :
    Reads T C (fail e place) P := Meets.fail h

protected theorem bind (hp : Reads T C p P) (hf : ∀ a, Reads T (C ∧ P a) (f a) R) :
    Reads T C (p >>= f) R :=
  Meets.bind hp (fun h => h.2) hf fun h h' => ⟨h.1.trans h'.1, h'.2⟩

/-- What is known is enough, and what is found is enough. -/
theorem mono (h : Reads T C' p P') (hC : C → C') (hP : ∀ a, C → P' a → P a) : Reads T C p P :=
  Meets.mono h hC fun hC h => ⟨h.1, hP _ hC h.2⟩

theorem given (h : Reads T C' p P) (hC : C → C') : Reads T C p P := h.mono hC fun _ _ h => h

theorem map {g : α → β} (hp : Reads T C p P) (h : ∀ a, C → P a → R (g a)) :
    Reads T C (p >>= fun a => pure (g a)) R :=
  hp.bind fun a => .pure fun ⟨hC, ha⟩ => h a hC ha

end Reads

namespace Writes

variable {P : α → Prop} {p q : Parser Unit} {owed owed' : List (String × Declaration)}

protected theorem pure : Writes T C (pure ()) [] :=
  Meets.of_done (fun _ => rfl) .refl (fun _ => .pure ()) (.pure ()) fun s _ _ =>
    ⟨[], (State.Still.refl s).wrote T.scope⟩

protected theorem fail {e : SyntaxError} {place : Location} (h : e ≠ .missingColon) :
    Writes T C (fail e place) owed := Meets.fail h

protected theorem bind {g : Unit → Parser Unit} (hp : Writes T C p owed)
    (hg : Writes T C (g ()) owed') : Writes T C (p >>= g) (owed ++ owed') :=
  Meets.bind (P := fun _ => True) hp (fun _ => trivial)
    (fun _ => Meets.mono hg And.left fun _ h => h)
    fun ⟨_, h⟩ ⟨_, h'⟩ => ⟨_, h.trans h'⟩

/-- What comes after something that owes nothing owes all. -/
theorem after {g : Unit → Parser Unit} (hp : Writes T C p []) (hg : Writes T C (g ()) owed) :
    Writes T C (p >>= g) owed := hp.bind hg

/-- What is paid first is not owed by what comes after. -/
theorem paying {x : String × Declaration} {g : Unit → Parser Unit} (hp : Writes T C p [x])
    (hg : Writes T C (g ()) owed) : Writes T C (p >>= g) (x :: owed) := hp.bind hg

/-- What was read is known to what is written then. -/
theorem read {p : Parser α} {f : α → Parser Unit} (hp : Reads T C p P)
    (hf : ∀ a, Writes T (C ∧ P a) (f a) owed) : Writes T C (p >>= f) owed :=
  Meets.bind hp (fun h => h.2) hf fun h ⟨_, h'⟩ => ⟨_, (h.1.wrote T.scope).trans h'⟩

theorem given (h : Writes T C' p owed) (hC : C → C') : Writes T C p owed :=
  Meets.mono h hC fun _ h => h

/-- It does not matter in which order something is owed. -/
theorem perm (h : Writes T C p owed) (same : C → owed.Perm owed') : Writes T C p owed' :=
  Meets.mono h id fun hC ⟨new, h⟩ => ⟨new, h.code_eq, h.balanced, fun name what isPlaced => by
    rw [← (same hC).count_eq]
    exact h.account name what isPlaced⟩

end Writes

theorem Reads.writes {p : Parser Unit} (h : Reads T C p fun _ => True) : Writes T C p [] :=
  Meets.mono h id fun _ h => ⟨[], h.1.wrote T.scope⟩

end Rules

end Parser

end Gamebook.Grammar
