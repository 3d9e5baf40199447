import Gamebook.Proofs.Grammar.Judgement

/-!
# What the smallest parsers do

Everything that changes the state when a script is read is one of the parsers of
`Gamebook.Grammar.Parser`, and here is what each of them does in the sense of
`Gamebook.Proofs.Grammar.Judgement`. Looking at tokens writes nothing. A problem that is reported
rules out that reading ends well, so anything follows from it (`report_reads`). A use makes a name
one of those that code may refer to (`mention_reads`). A declaration or a made-up label is something
that has to be given a place afterwards (`Writes.declaring`, `Writes.labelled`), and code that was
taken back has to be written after all (`Writes.capturing`).
-/

namespace Gamebook.Grammar

open Gamebook.Symbol (Declaration Kind)

/-! ## Looking ahead -/

/-- Looking ahead takes errors out in the order in which they stand there. -/
theorem errors_settle (n : Nat) (ls : List Lexeme) :
    (settle n ls).1 ++ scanErrors (settle n ls).2 = scanErrors ls := by
  fun_induction settle n ls with
  | case1 => rfl
  | case2 n e place rest errors settled h ih =>
    rw [h] at ih
    exact congrArg (⟨e, place⟩ :: ·) ih
  | case3 => rfl
  | case4 n t place rest errors settled h ih =>
    rw [h] at ih
    exact ih

theorem tokens_settle (n : Nat) (ls : List Lexeme) : tokensOf (settle n ls).2 = tokensOf ls := by
  fun_induction settle n ls with
  | case1 => rfl
  | case2 n e place rest errors settled h ih =>
    rw [h] at ih
    exact ih
  | case3 => rfl
  | case4 n t place rest errors settled h ih =>
    rw [h] at ih
    exact congrArg (⟨t, place⟩ :: ·) ih

theorem scanned_map_scan (es : List (Located ScanError)) :
    scanned (es.map (·.map .scan)) = es := by
  induction es with
  | nil => rfl
  | cons e es ih => exact congrArg (e :: ·) ih

namespace State

theorem look_consumes (n : Nat) (s : State) : s.Consumes (s.look n) where
  errors := by
    have taken := errors_settle n s.pending
    simp only [look, scanned_append, scanned_map_scan]
    rw [List.append_assoc, taken]
  tokens := by
    have same := tokens_settle n s.pending
    simp only [look, same]
    exact List.suffix_rfl

theorem look_grows (n : Nat) (s : State) : s.Grows (s.look n) :=
  ⟨List.prefix_append _ _, .refl, Nat.le_refl _, s.look_consumes n⟩

/-- What is found wrong when looking ahead. -/
theorem look_having (n : Nat) (s : State) :
    s.look n = (s.fresh.look n).having (s.problems ++ (s.fresh.look n).problems) := by
  simp [look, having]

theorem look_colonless (n : Nat) (s : State) : Colonless (s.fresh.look n).problems := by
  intro p hp
  obtain ⟨e, -, rfl⟩ := List.mem_map.mp hp
  simp [Located.map]

/-- A token is taken. -/
theorem consumes_tail (s : State) (place : Location) {t : Located Token}
    (first : firstToken? s.pending = some t) :
    s.Consumes { s with pending := s.pending.tail, lastSeen := place } := by
  unfold firstToken? at first
  split at first
  · next t' place' rest pending =>
    have tail : s.pending.tail = rest := by rw [pending]; rfl
    have errors : scanErrors s.pending = scanErrors rest := by rw [pending]; rfl
    have tokens : tokensOf s.pending = ⟨t', place'⟩ :: tokensOf rest := by rw [pending]; rfl
    refine ⟨?_, ?_⟩
    · dsimp only
      rw [tail, errors]
    · dsimp only
      rw [tail, tokens]
      exact List.suffix_cons _ _
  · contradiction

theorem look_still (n : Nat) (s : State) : s.Still (s.look n) := .of_eq rfl rfl rfl

/-- A new label is made up in addition to the others. -/
theorem made_hiddenLabel (s : State) (name : String) (what : Declaration) :
    { s with hiddenLabels := s.hiddenLabels + 1 }.made name what =
      s.made name what +
        [(Parser.hiddenLabelName s.hiddenLabels, Declaration.label)].count (name, what) := by
  unfold made
  by_cases label : what = .label
  · subst label
    rw [if_pos rfl, if_pos rfl, List.range_succ, List.map_append, List.count_append, Nat.add_assoc]
    congr 2
    by_cases h : Parser.hiddenLabelName s.hiddenLabels = name
    · simp [h]
    · simp [h]
  · rw [if_neg label, if_neg label]
    simp [Ne.symm label]

/-- What is declared is declared in addition to the others. -/
theorem made_declare {s : State} {symbols : Symbol.Table} {id : Located String}
    {what : Declaration} (h : s.symbols.declare id what = .ok symbols) (name : String)
    (what' : Declaration) :
    { s with symbols := symbols }.made name what' =
      s.made name what' + [(id.value, what)].count (name, what') := by
  unfold made
  dsimp only
  rw [Symbol.Table.declaration_declare h]
  by_cases hname : id.value = name
  · subst hname
    rw [if_pos rfl, Symbol.Table.declaration_eq_none_of_declare h]
    by_cases hwhat : what = what'
    · simp [hwhat, Nat.add_comm]
    · simp [hwhat]
  · simp [hname]

theorem made_use {s : State} {symbols : Symbol.Table} {id : Located String} {kind : Kind}
    (h : s.symbols.use id kind = .ok symbols) (name : String) (what : Declaration) :
    { s with symbols := symbols }.made name what = s.made name what := by
  unfold made
  dsimp only
  rw [Symbol.Table.declaration_use h]

end State

namespace Parser

variable {T : Accepted} {C : Prop}

/-! ## Names -/

/-- A table of names that is taken over. -/
theorem record_grows {r : Symbol.Table → Except (Located Symbol.NameError) Symbol.Table}
    (step : ∀ t t', r t = .ok t' → t.Step t') (s : State) :
    ∃ s', record r s = .done () s' ∧ s.Grows s' ∧
      (s'.Grows T.state → ∃ symbols, r s.symbols = .ok symbols ∧
        s' = { s with symbols := symbols }) := by
  cases h : r s.symbols with
  | ok symbols =>
    exact ⟨{ s with symbols := symbols }, by simp [record, update, h],
      ⟨List.prefix_rfl, .single (step _ _ h), Nat.le_refl _, .of_pending rfl rfl⟩,
      fun _ => ⟨symbols, rfl, rfl⟩⟩
  | error e =>
    refine ⟨{ s with problems := s.problems ++ [e.map .name] }, by simp [record, update, h],
      ⟨List.prefix_append _ _, .refl, Nat.le_refl _, .of_problem rfl⟩, fun final => ?_⟩
    -- a name that is refused is a problem
    exact absurd final (Accepted.not_grows (p := e.map .name) (by simp) (by simp [Located.map]))

theorem record_blind (r : Symbol.Table → Except (Located Symbol.NameError) Symbol.Table) :
    Blind (record r) := by
  refine .of_eq fun s => ?_
  cases taken : r s.symbols with
  | ok symbols =>
    refine ⟨update fun s => { s with symbols := symbols },
      .of_still (fun _ => rfl) (fun _ => rfl) fun _ => rfl, ?_, ?_⟩
    · simp [record, update, taken]
    · simp [record, update, State.having, taken]
  | error e =>
    refine ⟨update fun s => { s with problems := s.problems ++ [e.map .name] },
      .of_done (fun _ => [e.map .name]) (fun _ => rfl) (fun _ => rfl) (fun _ => rfl)
        fun _ => by simp [Colonless, Located.map], ?_, ?_⟩
    · simp [record, update, taken]
    · simp [record, update, State.having, taken]

/-- A table of names that is taken over is taken over in both, if both can be changed. -/
theorem record_follows {r : Symbol.Table → Except (Located Symbol.NameError) Symbol.Table}
    (step : ∀ t t', r t = .ok t' → t.Step t')
    (alike : ∀ {t t' u}, Symbol.Table.Agrees t u → r t = .ok t' → t'.Fits T.state.symbols →
      ∃ u', r u = .ok u' ∧ t'.Agrees u') :
    Follows T (record r) := by
  intro settled s s' a t twin run final
  obtain ⟨t₁, run₁, -, h⟩ := record_grows (T := T) step s
  obtain rfl : t₁ = t := (Outcome.done.inj (run₁.symm.trans run)).2
  obtain ⟨symbols, taken, rfl⟩ := h final
  obtain ⟨symbols', taken', agrees⟩ := alike twin.symbols taken (final.symbols.fits settled)
  refine ⟨{ s' with symbols := symbols' }, by simp [record, update, taken'], ?_, .of_eq rfl rfl⟩
  exact ⟨twin.pending, twin.lastSeen, twin.problems, twin.hiddenLabels, agrees⟩

theorem mention_follows (name : Located String) (kind : Kind) : Follows T (mention name kind) :=
  record_follows (fun _ _ => .use) fun h run fits => h.use run fits

theorem declare_follows (name : Located String) (what : Declaration) :
    Follows T (declare name what) :=
  record_follows (fun _ _ => .declare) fun h run fits => h.declare run fits

theorem mention_reads (name : Located String) (kind : Kind) :
    Reads T C (mention name kind) fun _ => T.scope kind name.value := by
  refine ⟨fun s => ?_, fun _ => record_blind _, mention_follows name kind⟩
  obtain ⟨s', hs, grows, h⟩ := record_grows (T := T) (fun _ _ => .use) s
  rw [mention, hs]
  refine ⟨grows, fun _ final => ?_⟩
  obtain ⟨symbols, used, rfl⟩ := h final
  refine ⟨⟨rfl, fun name what _ => State.made_use used name what⟩, .inl ?_⟩
  exact final.symbols.uses (Symbol.Table.uses_use used)

/-- A declaration that needs no place. -/
theorem declare_reads (name : Located String) {what : Declaration} (free : what.isPlaced = false) :
    Reads T C (declare name what) fun _ => True := by
  refine ⟨fun s => ?_, fun _ => record_blind _, declare_follows name what⟩
  obtain ⟨s', hs, grows, h⟩ := record_grows (T := T) (fun _ _ => .declare) s
  rw [declare, hs]
  refine ⟨grows, fun _ final => ?_⟩
  obtain ⟨symbols, declared, rfl⟩ := h final
  refine ⟨⟨rfl, fun name' what' isPlaced => ?_⟩, trivial⟩
  have : what ≠ what' := by
    rintro rfl
    simp [free] at isPlaced
  rw [State.made_declare declared]
  simp [this]

/-- A declaration is paid for by giving the name a place. -/
theorem Writes.declaring {name : Located String} {what : Declaration} {f : Unit → Parser Unit}
    {owed : List (String × Declaration)} (hf : Writes T C (f ()) ((name.value, what) :: owed)) :
    Writes T C (declare name what >>= f) owed := by
  have declared : Meets T C (declare name what) fun s _ s' =>
      ∃ symbols, s.symbols.declare name what = .ok symbols ∧
        s' = { s with symbols := symbols } := by
    refine ⟨fun s => ?_, fun _ => record_blind _, declare_follows name what⟩
    obtain ⟨s', hs, grows, h⟩ := record_grows (T := T) (fun _ _ => .declare) s
    rw [declare, hs]
    exact ⟨grows, fun _ final => h final⟩
  refine Meets.bind (P := fun _ => True) declared (fun _ => trivial)
    (fun _ => Meets.mono hf And.left fun _ h => h) ?_
  rintro s _ _ _ s'' ⟨symbols, h, rfl⟩ ⟨new, wrote⟩
  exact ⟨new, .pay (fun name what _ => State.made_declare h name what) rfl wrote⟩

theorem hiddenLabel_blind : Blind hiddenLabel :=
  .of_still (fun _ => rfl) (fun _ => rfl) fun _ => rfl

theorem hiddenLabel_follows : Follows T hiddenLabel :=
  .of_still (fun _ => rfl) (fun twin => by rw [twin.hiddenLabels])
    (fun twin => ⟨twin.pending, twin.lastSeen, twin.problems,
      congrArg (· + 1) twin.hiddenLabels, twin.symbols⟩) fun _ => rfl

/-- A made-up label is paid for by giving it a place. -/
theorem Writes.labelled {f : String → Parser Unit} {owed : List (String × Declaration)}
    (hf : ∀ l, Writes T (C ∧ T.scope .label l) (f l) ((l, .label) :: owed)) :
    Writes T C (hiddenLabel >>= f) owed := by
  have made : Meets T C hiddenLabel fun s l s' =>
      (l = hiddenLabelName s.hiddenLabels ∧ s' = { s with hiddenLabels := s.hiddenLabels + 1 }) ∧
        T.scope .label l :=
    Meets.of_done (fun _ => rfl) (fun s => .of_same rfl rfl rfl (Nat.le_succ _))
      (fun _ => hiddenLabel_blind) hiddenLabel_follows fun s _ final =>
        ⟨⟨rfl, rfl⟩, .inr ⟨rfl, s.hiddenLabels, final.hiddenLabels, rfl⟩⟩
  refine Meets.bind made (fun h => h.2) hf ?_
  rintro s _ _ _ s'' ⟨⟨rfl, rfl⟩, -⟩ ⟨new, wrote⟩
  exact ⟨new, .pay (fun name what _ => s.made_hiddenLabel name what) rfl wrote⟩

/-! ## Code -/

theorem emit_blind (code : List Instruction) : Blind (emit code) :=
  .of_still (fun _ => rfl) (fun _ => rfl) fun _ => rfl

theorem emit_follows (code : List Instruction) : Follows T (emit code) :=
  .of_done (fun _ => rfl) (fun _ => rfl)
    (fun twin => ⟨twin.pending, twin.lastSeen, twin.problems, twin.hiddenLabels, twin.symbols⟩)
    fun _ _ => ⟨code, rfl, rfl⟩

theorem emit_writes {code : List Instruction} {owed : List (String × Declaration)}
    (h : C → Balanced T.scope code) (hp : C → placed code = owed) :
    Writes T C (emit code) owed :=
  Meets.of_done (fun _ => rfl) (fun _ => .of_same rfl rfl rfl (Nat.le_refl _))
    (fun _ => emit_blind code) (emit_follows code) fun s hC _ =>
      ⟨code, rfl, h hC, fun name what _ => by
        rw [hp hC, Nat.add_comm]
        rfl⟩

/-- An instruction behind the code for what it takes from the stack. -/
theorem emit_act {op : Opcode} {xs : List Operand} {code : List Instruction}
    (pushed : C → Pushes T.scope op.pops code) (acts : op.acts = true)
    (fit : C → OperandsFit T.scope op xs) : Writes T C (emit (code ++ [.code op xs])) [] :=
  emit_writes (fun hC => .act (pushed hC) acts (fit hC)) fun hC => by
    rw [placed_append, (pushed hC).placed_eq_nil]
    rfl

/-- An instruction that does not use the stack. -/
theorem emit_single {op : Opcode} {xs : List Operand} (pops : op.pops = 0) (acts : op.acts = true)
    (fit : C → OperandsFit T.scope op xs) : Writes T C (emit [.code op xs]) [] :=
  emit_writes (fun hC => .single pops acts (fit hC)) fun _ => rfl

theorem captured_eq_done {p : Parser Unit} {s t : State} {body : List Instruction} :
    captured p s = .done body t ↔
      ∃ t₁, p { s with code := [] } = .done () t₁ ∧ t₁.code = body ∧
        t = { t₁ with code := s.code } := by
  unfold captured
  cases p { s with code := [] } with
  | done a t₁ => simp [eq_comm]
  | failed e t₁ => simp
  | overflowed => simp

theorem captured_blind {p : Parser Unit} (h : Blind p) : Blind (captured p) := by
  constructor
  · intro s
    have inner : p { s with code := [] } = (p { s.fresh with code := [] }).behind s.problems :=
      h.runs { s with code := [] }
    unfold captured
    rw [inner]
    cases p { s.fresh with code := [] } with
    | done a s' => rfl
    | failed e s' => rfl
    | overflowed => rfl
  · intro s
    have inner : Colonless (p { s.fresh with code := [] }).problems :=
      h.other { s with code := [] }
    unfold captured
    cases run : p { s.fresh with code := [] } with
    | done a s' =>
      rw [run] at inner
      exact inner
    | failed e s' =>
      rw [run] at inner
      exact inner
    | overflowed => exact List.forall_mem_nil _

/-- The code that is taken back is the same. -/
theorem captured_follows {p : Parser Unit} (h : Follows T p) : Follows T (captured p) := by
  intro settled s s' body t twin run final
  have emptied : State.Twin { s with code := [] } { s' with code := [] } :=
    ⟨twin.pending, twin.lastSeen, twin.problems, twin.hiddenLabels, twin.symbols⟩
  obtain ⟨t₁, inner, rfl, rfl⟩ := captured_eq_done.mp run
  obtain ⟨t', inner', twin', new, wrote, wrote'⟩ :=
    h settled emptied inner (final.recode t₁.code T.state.code)
  refine ⟨{ t' with code := s'.code }, captured_eq_done.mpr ⟨t', inner', ?_, rfl⟩, ?_,
    .of_eq rfl rfl⟩
  · exact wrote'.trans wrote.symm
  · exact ⟨twin'.pending, twin'.lastSeen, twin'.problems, twin'.hiddenLabels, twin'.symbols⟩

/-- Code that is taken back is owed by what follows. -/
theorem Writes.capturing {p : Parser Unit} {f : List Instruction → Parser Unit}
    {owed : List (String × Declaration)} (hp : Writes T C p [])
    (hf : ∀ body, Writes T (C ∧ Balanced T.scope body) (f body) (placed body ++ owed)) :
    Writes T C (captured p >>= f) owed := by
  have taken : Meets T C (captured p) fun s body s' => Balanced T.scope body ∧
      s'.code = s.code ∧ ∀ name what, what.isPlaced = true →
        s'.made name what = s.made name what + (placed body).count (name, what) := by
    refine ⟨fun s => ?_, fun lenient => captured_blind (hp.blind lenient),
      captured_follows hp.follows⟩
    have run := hp.runs { s with code := [] }
    unfold captured
    cases hps : p { s with code := [] } with
    | overflowed => trivial
    | failed e s' =>
      rw [hps] at run
      exact ⟨run.1.recode s.code s.code, run.2⟩
    | done _ s' =>
      rw [hps] at run
      refine ⟨run.1.recode s.code s.code, fun hC final => ?_⟩
      obtain ⟨new, wrote⟩ := run.2 hC (final.recode s'.code T.state.code)
      obtain rfl : s'.code = new := wrote.code_eq
      refine ⟨wrote.balanced, rfl, fun name what isPlaced => ?_⟩
      have account := wrote.account name what isPlaced
      rw [List.count_nil, Nat.add_zero, Nat.add_comm] at account
      exact account.symm
  refine Meets.bind taken (fun h => h.1) hf ?_
  rintro s body s' _ s'' ⟨-, code_eq, made⟩ ⟨new, wrote⟩
  exact ⟨new, .pay made code_eq wrote⟩

/-! ## Problems -/

theorem report_blind {e : SyntaxError} (place : Location) (h : e ≠ .missingColon) :
    Blind (report e place) :=
  .of_done (fun _ => [⟨.grammar e, place⟩]) (fun _ => rfl) (fun _ => rfl) (fun _ => rfl)
    fun _ => by simpa [Colonless] using h

theorem report_follows (e : SyntaxError) (place : Location) : Follows T (report e place) :=
  .of_still (fun _ => rfl) (fun _ => rfl)
    (fun twin => ⟨twin.pending, twin.lastSeen, congrArg (· ++ _) twin.problems,
      twin.hiddenLabels, twin.symbols⟩) fun _ => rfl

/-- Only a colon that is missing can be reported if reading is to end well. -/
theorem report_reads {e : SyntaxError} (place : Location)
    (strict : T.strict = false → e ≠ .missingColon) :
    Reads T C (report e place) fun _ => e = .missingColon :=
  Reads.of_done (fun _ => rfl)
    (fun _ => ⟨List.prefix_append _ _, .refl, Nat.le_refl _, .of_problem rfl⟩)
    (fun _ => .of_eq rfl rfl rfl) (fun lenient => report_blind place (strict lenient))
    (report_follows e place) fun s _ final => by
      by_contra wrong
      exact Accepted.not_grows (p := ⟨.grammar e, place⟩) (by simp) (by simpa using wrong) final

/-- Nothing has to be said of what comes behind a problem. -/
theorem report_bind {α : Type} {e : SyntaxError} {place : Location} {f : Unit → Parser α}
    {P : α → Prop} (h : e ≠ .missingColon) (hf : Reads T C (f ()) fun _ => True) :
    Reads T C (report e place >>= f) P :=
  (report_reads place fun _ => h).bind fun _ => hf.mono And.left fun _ ⟨_, he⟩ => absurd he h

theorem warn_reads (text : String) : Reads T C (warn text) fun _ => True :=
  Reads.of_done (fun _ => rfl) (fun _ => .of_same rfl rfl rfl (Nat.le_refl _))
    (fun _ => .of_eq rfl rfl rfl) (fun _ => .of_still (fun _ => rfl) (fun _ => rfl) fun _ => rfl)
    (.of_still (fun _ => rfl) (fun _ => rfl) (fun twin => ⟨twin.pending, twin.lastSeen,
      twin.problems, twin.hiddenLabels, twin.symbols⟩) fun _ => rfl) fun _ _ _ => trivial

/-! ## Tokens -/

theorem lastSeen_reads : Reads T C lastSeen fun _ => True :=
  Reads.of_done (fun _ => rfl) .refl .refl
    (fun _ => .of_still (fun _ => rfl) (fun _ => rfl) fun _ => rfl)
    (.of_still (fun _ => rfl) (fun twin => twin.lastSeen) id fun _ => rfl) fun _ _ _ => trivial

theorem left_reads : Reads T C left fun _ => True :=
  Reads.of_done (fun _ => rfl) .refl .refl
    (fun _ => .of_still (fun _ => rfl) (fun _ => rfl) fun _ => rfl)
    (.of_still (fun _ => rfl) (fun twin => by rw [twin.pending]) id fun _ => rfl)
    fun _ _ _ => trivial

/-- The state may be looked at, but not for problems or for the order of names. -/
theorem Reads.state {α : Type} {g : State → Parser α} {P : α → Prop} (hg : ∀ s, Reads T C (g s) P)
    (same : ∀ s : State, g s.fresh = g s)
    (alike : T.state.symbols.Settled → ∀ {s s' : State}, s.Twin s' →
      s.Grows T.state → g s' = g s) : Reads T C (state >>= g) P where
  runs s := (hg s).runs s
  blind lenient := .state (fun s => (hg s).blind lenient) same
  follows := .state (fun s => (hg s).follows) (fun {s} => (hg s).grows_of_done) alike

theorem look_twin (n : Nat) {s s' : State} (h : s.Twin s') :
    (s.look n).Twin (s'.look n) := by
  constructor <;> simp [State.look, h.pending, h.lastSeen, h.problems, h.hiddenLabels, h.symbols]

/-- What is looked at is the same whatever was found wrong before. -/
theorem Blind.of_look {α : Type} {p : Parser α} {n : Nat} {a : State → α}
    (hp : ∀ s, p s = .done (a (s.look n)) (s.look n)) (same : ∀ s ps, a (s.having ps) = a s) :
    Blind p :=
  .of_done (fun s => (s.fresh.look n).problems) hp
    (fun s => by rw [State.look_having n s, same]) (State.look_having n) (State.look_colonless n)

theorem look_blind (n : Nat) : Blind (update (State.look n)) :=
  .of_look (a := fun _ => ()) (fun _ => rfl) fun _ _ => rfl

theorem peekLocated_blind : Blind peekLocated :=
  .of_look (a := fun s => firstToken? s.pending) (fun _ => rfl) fun _ _ => rfl

theorem look_reads (n : Nat) : Reads T C (update (State.look n)) fun _ => True :=
  Reads.of_done (fun _ => rfl) (State.look_grows n) (State.look_still n)
    (fun _ => look_blind n)
    (.of_still (fun _ => rfl) (fun _ => rfl) (look_twin n) fun _ => rfl) fun _ _ _ => trivial

theorem peekLocated_reads : Reads T C peekLocated fun _ => True :=
  Reads.of_done (fun _ => rfl) (State.look_grows 0) (State.look_still 0)
    (fun _ => peekLocated_blind)
    (.of_still (fun _ => rfl) (fun twin => by rw [(look_twin 0 twin).pending]) (look_twin 0)
      fun _ => rfl) fun _ _ _ => trivial

theorem peek_reads : Reads T C peek fun _ => True :=
  peekLocated_reads.map fun _ _ _ => trivial

theorem advance_blind : Blind advance := by
  refine .of_eq fun s => ?_
  cases first : firstToken? (s.look 0).pending with
  | none =>
    refine ⟨peekLocated, peekLocated_blind, ?_, ?_⟩
    · simp [advance, peekLocated, first]
    · have fresh : firstToken? (s.fresh.look 0).pending = none := first
      simp [advance, peekLocated, fresh]
  | some t =>
    refine ⟨update (State.look 0) >>= fun _ s =>
        .done (some t) { s with pending := s.pending.tail, lastSeen := t.place },
      (look_blind 0).bind fun _ => .of_still (fun _ => rfl) (fun _ => rfl) fun _ => rfl, ?_, ?_⟩
    · simp only [advance, first]
      rfl
    · have fresh : firstToken? (s.fresh.look 0).pending = some t := first
      simp only [advance, fresh]
      rfl

theorem advance_follows : Follows T advance := by
  intro _ s s' a t twin run _
  have looked := look_twin 0 twin
  unfold advance at run ⊢
  dsimp only at run ⊢
  rw [looked.pending]
  cases first : firstToken? (s.look 0).pending with
  | none =>
    rw [first] at run
    cases run
    exact ⟨_, rfl, looked, .of_eq rfl rfl⟩
  | some token =>
    rw [first] at run
    cases run
    exact ⟨_, rfl, ⟨rfl, rfl, looked.problems, looked.hiddenLabels, looked.symbols⟩,
      .of_eq rfl rfl⟩

theorem advance_reads : Reads T C advance fun _ => True := by
  refine ⟨fun s => ?_, fun _ => advance_blind, advance_follows⟩
  unfold advance
  dsimp only
  have grows := s.look_grows 0
  have still := s.look_still 0
  cases first : firstToken? (s.look 0).pending with
  | none => exact ⟨grows, fun _ _ => ⟨still, trivial⟩⟩
  | some t =>
    have taken := (s.look 0).consumes_tail t.place first
    exact ⟨⟨grows.problems, grows.symbols, grows.hiddenLabels, grows.consumes.trans taken⟩,
      fun _ _ => ⟨⟨still.code_eq, still.made_eq⟩, trivial⟩⟩

theorem accept_reads (t : Token) : Reads T C (accept t) fun _ => True :=
  peek_reads.bind fun _ => by
    split
    · exact advance_reads.bind fun _ => .pure fun _ => trivial
    · exact .pure fun _ => trivial

theorem next_reads (expected : String) : Reads T C (next expected) fun _ => True :=
  peekLocated_reads.bind fun t => by
    cases t with
    | none => exact lastSeen_reads.bind fun _ => .fail (by simp)
    | some t =>
      dsimp only
      split
      · exact .fail (by simp)
      · exact advance_reads.bind fun _ => .pure fun _ => trivial

theorem expect_reads (t : Token) (expected : String) :
    Reads T C (expect t expected) fun _ => True :=
  peekLocated_reads.bind fun found => by
    cases found with
    | none => exact lastSeen_reads.bind fun _ => .fail (by simp)
    | some found =>
      dsimp only
      split
      · exact advance_reads.map fun _ _ _ => trivial
      · exact .fail (by simp)

theorem word_reads (k : Keyword) : Reads T C (word k) fun _ => True := expect_reads _ _

theorem comma_reads : Reads T C comma fun _ => True := expect_reads _ _

theorem openParen_reads : Reads T C openParen fun _ => True := expect_reads _ _

theorem closeParen_reads : Reads T C closeParen fun _ => True := expect_reads _ _

theorem identifier_reads : Reads T C identifier fun _ => True :=
  (next_reads _).bind fun t => by
    split
    · exact .pure fun _ => trivial
    · exact .fail (by simp)

theorem atStatementEnd_reads : Reads T C atStatementEnd fun _ => True :=
  peek_reads.bind fun t => by split <;> exact .pure fun _ => trivial

/-! ## Lists -/

section Lists

variable {α : Type} {item : Parser α} {P : α → Prop}

theorem listOf_reads (h : Reads T C item P) (n : Nat) :
    Reads T C (listOf item n) fun xs => xs.length = n ∧ ∀ x ∈ xs, P x := by
  induction n using listOf.induct with
  | case1 => exact .pure fun _ => by simp
  | case2 => exact h.map fun x _ hx => by simpa using hx
  | case3 n ih =>
    refine h.bind fun first => comma_reads.bind fun _ => ?_
    refine (ih.given fun c => c.1.1).map fun rest c ⟨length_eq, hrest⟩ => ?_
    exact ⟨by simp [length_eq], List.forall_mem_cons.mpr ⟨c.1.2, hrest⟩⟩

theorem commaTail_reads (h : Reads T C item P) (fuel : Nat) :
    Reads T C (commaTail item fuel) fun xs => ∀ x ∈ xs, P x := by
  induction fuel with
  | zero => exact .pure fun _ => by simp
  | succ fuel ih =>
    refine (accept_reads _).bind fun more => ?_
    split
    · refine (h.given And.left).bind fun first => ?_
      refine (ih.given fun c => c.1.1).map fun rest c hrest => ?_
      exact List.forall_mem_cons.mpr ⟨c.2, hrest⟩
    · exact .pure fun _ => by simp

theorem commaSeparated_reads (h : Reads T C item P) :
    Reads T C (commaSeparated item) fun xs => ∀ x ∈ xs, P x := by
  refine h.bind fun first => left_reads.bind fun n => ?_
  refine ((commaTail_reads h n).given fun c => c.1.1).map fun rest c hrest => ?_
  exact List.forall_mem_cons.mpr ⟨c.1.2, hrest⟩

end Lists

/-! ## Going on behind a problem -/

theorem recoverFor_reads (fuel : Nat) : Reads T C (recoverFor fuel) fun _ => True := by
  induction fuel generalizing C with
  | zero => exact .pure fun _ => trivial
  | succ fuel ih =>
    refine peek_reads.bind fun t => ?_
    cases t with
    | none => exact .pure fun _ => trivial
    | some t =>
      dsimp only
      split
      · exact .pure fun _ => trivial
      · exact advance_reads.bind fun _ => ih

theorem recover_reads : Reads T C recover fun _ => True := left_reads.bind recoverFor_reads

theorem recover_blind : Blind recover :=
  (recover_reads (T := .nothing false) (C := True)).blind rfl

/-- What is tried does not fail for a colon, so none is reported. -/
theorem attempt_blind {p : Parser Unit} (h : Blind p)
    (other : ∀ s e s', p s = .failed e s' → e.value ≠ .missingColon) : Blind (attempt p) := by
  have onward {s e s'} (run : p s = .failed e s') :
      Blind (do report e.value e.place; recover : Parser Unit) :=
    (report_blind e.place (other s e s' run)).bind fun _ => recover_blind
  constructor
  · intro s
    unfold attempt
    rw [h.runs s]
    cases run : p s.fresh with
    | done a s' => rfl
    | overflowed => rfl
    | failed e s' =>
      change (do report e.value e.place; recover : Parser Unit) _ =
        Outcome.behind s.problems ((do report e.value e.place; recover : Parser Unit) s')
      rw [(onward run).runs, (onward run).runs s', Outcome.behind_behind]
      rfl
  · intro s
    have first := h.other s
    unfold attempt
    cases run : p s.fresh with
    | done a s' =>
      rw [run] at first
      exact first
    | overflowed => exact List.forall_mem_nil _
    | failed e s' =>
      rw [run] at first
      exact (onward run).colonless first

/-- Behind a problem, reading does not end well. -/
theorem not_grows_of_failed {p : Parser Unit} {owed : List (String × Declaration)} {s s' t : State}
    {e : Located SyntaxError} (h : Writes T C p owed) (failed : p s = .failed e s')
    (rest : (do report e.value e.place; recover : Parser Unit) s' = .done () t) :
    ¬ t.Grows T.state := by
  have wrong : Reads T True (do report e.value e.place; recover) fun _ => False :=
    report_bind (h.other failed) recover_reads
  have outcome := wrong.runs s'
  rw [rest] at outcome
  exact fun final => (outcome.2 trivial final).2

/-- If reading ends well, what was tried is what was done. -/
theorem done_of_attempt {p : Parser Unit} {owed : List (String × Declaration)} {s t : State}
    (h : Writes T C p owed) (run : attempt p s = .done () t) (final : t.Grows T.state) :
    p s = .done () t := by
  unfold attempt at run
  cases inner : p s with
  | overflowed => simp [inner] at run
  | done a u => rwa [inner] at run
  | failed e u =>
    rw [inner] at run
    exact absurd final (not_grows_of_failed h inner run)

theorem attempt_follows {p : Parser Unit} {owed : List (String × Declaration)}
    (h : Writes T C p owed) : Follows T (attempt p) := by
  intro settled s s' a t twin run final
  obtain ⟨t', inner', twin', wrote⟩ :=
    h.follows settled twin (done_of_attempt h run final) final
  exact ⟨t', by rw [attempt, inner'], twin', wrote⟩

/-- If reading ends well, what was tried did not fail. -/
theorem attempt_writes {p : Parser Unit} {owed : List (String × Declaration)}
    (h : Writes T C p owed) : Writes T C (attempt p) owed := by
  refine ⟨fun s => ?_, fun lenient => attempt_blind (h.blind lenient) fun s e s' => h.other,
    attempt_follows h⟩
  have run := h.runs s
  unfold attempt
  cases hps : p s with
  | overflowed => trivial
  | done a s' =>
    rw [hps] at run
    exact run
  | failed e s' =>
    rw [hps] at run
    have wrong : Reads T C (do report e.value e.place; recover) fun _ => False :=
      report_bind run.2 recover_reads
    have rest := wrong.runs s'
    dsimp only
    cases hrest : (do report e.value e.place; recover : Parser Unit) s' with
    | overflowed => trivial
    | failed e' s'' =>
      rw [hrest] at rest
      exact ⟨run.1.trans rest.1, rest.2⟩
    | done a s'' =>
      rw [hrest] at rest
      exact ⟨run.1.trans rest.1, fun hC final => (rest.2 hC final).2.elim⟩

end Parser

end Gamebook.Grammar
