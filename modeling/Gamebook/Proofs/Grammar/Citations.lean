import Gamebook.Proofs.Grammar.Conduct
import Gamebook.Proofs.Grammar.Programs
import Gamebook.Proofs.Symbol.Enumeration
import Gamebook.Proofs.Token.Tiling

/-!
# Where names are used

Every use of a name that is recorded while a script is read stands in the script: there is a token
with this name at the place of the use. Parsers keep to the script in this sense however they end
(`Parser.Keeping`), so it does not matter what is wrong with the script, nor which uses are refused.

Since no two tokens of a script start at one place, no two names are first used at one place, and
what is found wrong with the names in the end does not depend on the order in which a table keeps
them (`finish_order_free`).
-/

namespace Gamebook.Grammar

variable {script : List (Located Token)}

/-- All that is left to read stands in the script, and so do the uses of names. -/
structure State.Cites (script : List (Located Token)) (s : State) : Prop where
  tokens : tokensOf s.pending ⊆ script
  names : s.symbols.Cited fun name => ⟨.identifier name.value, name.place⟩ ∈ script

namespace State.Cites

variable {s s' : State}

/-- Tokens were taken at most. -/
theorem of_consumes (h : s.Cites script) (consumes : s.Consumes s')
    (symbols : s'.symbols = s.symbols) : s'.Cites script :=
  ⟨fun _ mem => h.tokens (consumes.tokens.subset mem), symbols ▸ h.names⟩

theorem of_pending (h : s.Cites script) (pending : s'.pending = s.pending)
    (symbols : s'.symbols = s.symbols) : s'.Cites script :=
  ⟨pending ▸ h.tokens, symbols ▸ h.names⟩

theorem look (h : s.Cites script) (n : Nat) : (s.look n).Cites script :=
  h.of_consumes (s.look_consumes n) rfl

theorem first (h : s.Cites script) {t : Located Token} (first : firstToken? s.pending = some t) :
    t ∈ script := by
  unfold firstToken? at first
  split at first
  · next t' place rest pending =>
    obtain rfl := Option.some.inj first
    exact h.tokens (by simp [pending, tokensOf, token?])
  · contradiction

end State.Cites

namespace Parser

/-! ## The judgement -/

/-- However `p` ends, it keeps to the script. -/
def Keeping {α : Type} (script : List (Located Token)) (p : Parser α) : Prop :=
  ∀ s s' : State, s.Cites script → (p s).state? = some s' → s'.Cites script

namespace Keeping

variable {α β : Type} {p : Parser α} {g : α → Parser β}

theorem of_done {a : State → α} {next : State → State} (hp : ∀ s, p s = .done (a s) (next s))
    (h : ∀ s : State, s.Cites script → (next s).Cites script) : Keeping script p := by
  intro s s' cites run
  rw [hp] at run
  obtain rfl := Option.some.inj run
  exact h s cites

/-- What follows a parser goes on from where it was done. -/
theorem run_bind {s s' : State} (run : ((p >>= g) s).state? = some s') :
    (p s).state? = some s' ∨ ∃ a s₁, p s = .done a s₁ ∧ (g a s₁).state? = some s' := by
  rw [bind_apply] at run
  cases hp : p s with
  | done a s₁ => exact .inr ⟨a, s₁, rfl, by rwa [hp] at run⟩
  | failed e s₁ => exact .inl (by rwa [hp] at run)
  | overflowed => simp [hp, Outcome.state?] at run

/-- What follows may rely on what is known of the results. -/
theorem bind_of {P : α → Prop} (hp : Keeping script p)
    (known : ∀ {s a s'}, s.Cites script → p s = .done a s' → P a)
    (hg : ∀ a, P a → Keeping script (g a)) : Keeping script (p >>= g) := by
  intro s s' cites run
  obtain run | ⟨a, s₁, first, run⟩ := run_bind run
  · exact hp s s' cites run
  · exact hg a (known cites first) s₁ s' (hp s s₁ cites (by rw [first]; rfl)) run

protected theorem bind (hp : Keeping script p) (hg : ∀ a, Keeping script (g a)) :
    Keeping script (p >>= g) := by
  refine hp.bind_of (P := fun _ => True) (fun _ _ => trivial) fun a _ => hg a

theorem of_leaves (h : p.Leaves) : Keeping script p := by
  intro s s' cites run
  have same := h s
  cases hp : p s with
  | done a s₁ | failed e s₁ =>
    rw [hp] at run same
    obtain rfl := Option.some.inj run
    exact cites.of_pending same.1 same.2
  | overflowed => simp [hp, Outcome.state?] at run

theorem record {r : Symbol.Table → Except (Located Symbol.NameError) Symbol.Table}
    (h : ∀ {t t'}, t.Cited (fun name => ⟨.identifier name.value, name.place⟩ ∈ script) →
      r t = .ok t' → t'.Cited fun name => ⟨.identifier name.value, name.place⟩ ∈ script) :
    Keeping script (record r) := by
  refine of_done (fun _ => rfl) fun s cites => ?_
  split
  · next symbols run => exact ⟨cites.tokens, h cites.names run⟩
  · exact ⟨cites.tokens, cites.names⟩

theorem advance : Keeping script advance := by
  intro s s' cites run
  unfold Parser.advance at run
  dsimp only at run
  have looked := cites.look 0
  split at run
  · next t first =>
    obtain rfl := Option.some.inj run
    exact looked.of_consumes ((s.look 0).consumes_tail t.place first) rfl
  · obtain rfl := Option.some.inj run
    exact looked

theorem peekLocated : Keeping script peekLocated :=
  of_done (fun _ => rfl) fun _ cites => cites.look 0

/-- A token that is read stands in the script. -/
theorem mem_of_next {expected : String} {s s' : State} {t : Located Token} (cites : s.Cites script)
    (run : Parser.next expected s = .done t s') : t ∈ script := by
  obtain ⟨t?, s₁, peeked, run⟩ := bind_eq_done.mp run
  cases peeked
  cases first : firstToken? (s.look 0).pending with
  | none =>
    rw [first] at run
    contradiction
  | some t' =>
    rw [first] at run
    dsimp only at run
    split at run
    · contradiction
    · obtain ⟨_, _, -, run⟩ := bind_eq_done.mp run
      cases run
      exact (cites.look 0).first first

theorem next (expected : String) : Keeping script (Parser.next expected) := by
  refine peekLocated.bind fun t => ?_
  cases t with
  | none => exact .bind (.of_leaves fun _ => ⟨rfl, rfl⟩) fun _ => .of_leaves fun _ => ⟨rfl, rfl⟩
  | some t =>
    dsimp only
    split
    · exact .of_leaves fun _ => ⟨rfl, rfl⟩
    · exact .bind advance fun _ => .of_leaves fun _ => ⟨rfl, rfl⟩

end Keeping

/-- What keeps to the script carries over to all parsers without blocks. -/
def keeping (script : List (Located Token)) : Conduct where
  Holds := Keeping script
  takes _ := True
  script t := t ∈ script
  takes_of_not_assigns _ := trivial
  leaves := .of_leaves
  bind := .bind
  look n := .of_done (fun _ => rfl) fun _ cites => cites.look n
  declare _ _ := .record fun cited run => cited.declare run
  mention _ named := .record fun cited run => cited.use named run
  peekLocated nil token := Keeping.peekLocated.bind fun t => by
    cases t with
    | none => exact nil
    | some t =>
      obtain stays | ⟨-, r, eq, behind⟩ := token t
      · exact stays
      · rw [eq]
        exact Keeping.advance.bind behind
  next hg _ := (Keeping.next _).bind_of Keeping.mem_of_next hg

namespace Keeping

variable {α β : Type} {p : Parser α}

theorem of_obeys (h : Obeys (keeping script) p) : Keeping script p := h

protected theorem pure (a : α) : Keeping script (pure a : Parser α) := of_obeys (.pure a)

protected theorem fail (e : SyntaxError) (place : Location) :
    Keeping script (fail e place : Parser α) := of_obeys (.fail e place)

theorem emit (code : List Instruction) : Keeping script (emit code) := of_obeys (emit_obeys code)

theorem report (e : SyntaxError) (place : Location) : Keeping script (report e place) :=
  of_obeys (report_obeys e place)

theorem left : Keeping script left := of_obeys left_obeys

theorem hiddenLabel : Keeping script hiddenLabel := of_leaves fun _ => ⟨rfl, rfl⟩

theorem condition : Keeping script condition := of_obeys condition_obeys

theorem word {w : Keyword} (other : assigns (.keyword w) = false) : Keeping script (word w) :=
  of_obeys (word_obeys other)

/-- What was written does not count. -/
theorem captured {p : Parser Unit} (h : Keeping script p) : Keeping script (captured p) := by
  intro s s' cites run
  unfold Parser.captured at run
  have inner := h { s with code := [] }
  cases hp : p { s with code := [] } with
  | done a s₁ | failed e s₁ =>
    rw [hp] at run
    obtain rfl := Option.some.inj run
    exact (inner s₁ ⟨cites.tokens, cites.names⟩ (by rw [hp]; rfl)).of_pending rfl rfl
  | overflowed => simp [hp, Outcome.state?] at run

end Keeping

/-! ## Branches and loops -/

section Blocks

variable {block : List Keyword → Parser Unit}

theorem branches_keeping (hblock : ∀ ends, Keeping script (block ends)) (fuel : Nat)
    (test : List Instruction) : Keeping script (branches block fuel test) := by
  induction fuel generalizing test with
  | zero => exact .bind (.of_obeys lastSeen_obeys) fun _ => .fail _ _
  | succ fuel ih =>
    refine .bind .hiddenLabel fun otherwise => .bind (.emit _) fun _ => .bind (hblock _) fun _ => ?_
    refine .bind (.next _) fun t => ?_
    split
    · exact .emit _
    · refine .bind (.captured (hblock _)) fun body => .bind (.word rfl) fun _ => ?_
      split
      · exact .emit _
      · exact .bind .hiddenLabel fun _ => .emit _
    · refine .bind .hiddenLabel fun done => .bind (.emit _) fun _ => .bind .condition fun test => ?_
      exact .bind (.word rfl) fun _ => .bind (ih test) fun _ => .emit _
    · exact .fail _ _

theorem ifStatement_keeping (hblock : ∀ ends, Keeping script (block ends)) :
    Keeping script (ifStatement block) :=
  .bind .condition fun test => .bind (.word rfl) fun _ => .bind .left fun _ =>
    branches_keeping hblock _ test

theorem loopCondition_keeping : Keeping script loopCondition := by
  refine .bind (.of_obeys peek_obeys) fun t => ?_
  split
  · exact .pure _
  · exact .bind .condition fun _ => .pure _

theorem whileLoop_keeping (hblock : ∀ ends, Keeping script (block ends)) :
    Keeping script (whileLoop block) := by
  refine .bind (.of_obeys openParen_obeys) fun _ => .bind loopCondition_keeping fun test? => ?_
  refine .bind (.of_obeys closeParen_obeys) fun _ => .bind .hiddenLabel fun start => ?_
  refine .bind (.emit _) fun _ => ?_
  cases test? with
  | some test =>
    refine .bind .hiddenLabel fun done => .bind (.emit _) fun _ => .bind (hblock _) fun _ => ?_
    exact .bind (.word rfl) fun _ => .emit _
  | none => exact .bind (hblock _) fun _ => .bind (.word rfl) fun _ => .emit _

theorem doLoop_keeping (hblock : ∀ ends, Keeping script (block ends)) :
    Keeping script (doLoop block) :=
  .bind .hiddenLabel fun _ => .bind (.emit _) fun _ => .bind (hblock _) fun _ =>
    .bind (.word rfl) fun _ => .bind .condition fun _ => .emit _

theorem statementOf_keeping (hblock : ∀ ends, Keeping script (block ends)) (w : Keyword)
    (place : Location) : Keeping script (statementOf block w place) := by
  cases compound : hasBlocks w with
  | false => exact .of_obeys (statementOf_obeys block compound place)
  | true =>
    cases w <;> first | contradiction | skip
    · exact ifStatement_keeping hblock
    · exact whileLoop_keeping hblock
    · exact doLoop_keeping hblock

theorem statement_keeping (hblock : ∀ ends, Keeping script (block ends)) :
    Keeping script (statement block) := by
  refine .bind (.next _) fun t => ?_
  split
  · exact statementOf_keeping hblock _ _
  · exact .of_obeys (placeLabel_obeys _)
  · exact .fail _ _

end Blocks

/-! ## Programs -/

theorem recoverFor_keeping (fuel : Nat) : Keeping script (recoverFor fuel) := by
  induction fuel with
  | zero => exact .pure _
  | succ fuel ih =>
    refine .bind (.of_obeys peek_obeys) fun t => ?_
    cases t with
    | none => exact .pure _
    | some t =>
      dsimp only
      split
      · exact .pure _
      · exact .bind .advance fun _ => ih

/-- What failed is reported, and passed over. -/
theorem attempt_keeping {p : Parser Unit} (h : Keeping script p) : Keeping script (attempt p) := by
  have resume (e : Located SyntaxError) :
      Keeping script (do Parser.report e.value e.place; recover : Parser Unit) :=
    .bind (.report _ _) fun _ => .bind .left fun _ => recoverFor_keeping _
  intro s s' cites run
  unfold attempt at run
  cases hp : p s with
  | done a s₁ | overflowed =>
    rw [hp] at run
    exact h s s' cites (by rw [hp]; exact run)
  | failed e s₁ =>
    rw [hp] at run
    exact resume e s₁ s' (h s s₁ cites (by rw [hp]; rfl)) run

theorem block_keeping (fuel : Nat) (ends : List Keyword) (needsColon : Bool) :
    Keeping script (block fuel ends needsColon) := by
  induction fuel generalizing ends needsColon with
  | zero => exact .pure _
  | succ fuel ih =>
    refine Keeping.peekLocated.bind fun t => ?_
    cases t with
    | none => exact .pure _
    | some t =>
      dsimp only
      split
      · exact .bind .advance fun _ => ih _ _
      · exact .bind .advance fun _ => ih _ _
      · exact .bind .advance fun _ => ih _ _
      · exact .bind .advance fun _ => ih _ _
      · exact .bind .advance fun _ => .bind (.emit _) fun _ => ih _ _
      · split
        · exact .pure _
        · exact .bind .advance fun _ => .bind (.report _ _) fun _ => ih _ _
      · have rest (needed : Bool) : Keeping script (do
            attempt (statement fun inner => block fuel inner false)
            block fuel ends needed) :=
          .bind (attempt_keeping (statement_keeping fun ends => ih ends false)) fun _ => ih _ _
        split
        · exact .bind (.report _ _) fun _ => rest _
        · exact rest _

theorem programFor_keeping (fuel : Nat) : Keeping script (programFor fuel) := by
  induction fuel with
  | zero => exact .pure _
  | succ fuel ih =>
    refine .bind .left fun n => .bind (block_keeping n [] false) fun _ => ?_
    refine .bind .advance fun t => ?_
    cases t with
    | none => exact .pure _
    | some t =>
      dsimp only
      split
      · exact .bind (.report _ _) fun _ => ih
      · exact ih

theorem program_keeping : Keeping script program :=
  .bind .left fun n => programFor_keeping (n + 1)

end Parser

/-! ## Whole scripts -/

/-- No two tokens of a script start at one place. -/
theorem eq_of_start_eq {d : Document} {t t' : Located Token} (ht : t ∈ tokensOf d.scan)
    (ht' : t' ∈ tokensOf d.scan) (same : t.place.start = t'.place.start) : t = t' := by
  have lexeme {t : Located Token} (mem : t ∈ tokensOf d.scan) :
      ⟨.ok t.value, t.place⟩ ∈ Scanner.tokens d.scan := by
    obtain ⟨⟨value, place⟩, read, is⟩ := List.mem_filterMap.mp mem
    cases value with
    | error e => contradiction
    | ok t =>
      obtain rfl := Option.some.inj is
      exact List.mem_filter.mpr ⟨read, rfl⟩
  have one := List.inj_on_of_nodup_map (Scanner.scan_ordered d).nodup (lexeme ht) (lexeme ht') same
  obtain ⟨value, place⟩ := t
  obtain ⟨value', place'⟩ := t'
  simpa using one

/-- Whatever is read from a script, the uses of names stand in it, and there is one entry for each
name. -/
theorem cites_of_read {d : Document} {r : Reading} (h : read d.scan = some r) :
    r.program.symbols.Cited (fun name => ⟨.identifier name.value, name.place⟩ ∈ tokensOf d.scan) ∧
      r.program.symbols.Distinct := by
  have start : (State.start d.scan).Cites (tokensOf d.scan) :=
    ⟨List.Subset.refl _, List.forall_mem_nil _⟩
  have grows := (Parser.program_writes (T := .nothing true) (C := True) rfl).runs (.start d.scan)
  unfold read at h
  cases run : Parser.program (State.start d.scan) with
  | overflowed => simp [run] at h
  | done a s | failed e s =>
    rw [run] at h grows
    obtain rfl := Option.some.inj h
    exact ⟨(Parser.program_keeping _ s start (by rw [run]; rfl)).names,
      Symbol.Table.distinct_empty.run grows.1.symbols⟩

/-- What is found wrong with the names of a script in the end does not depend on the order in which
the table keeps them. Names that are used are first used at different places, and a name that is not
used is not found wrong. -/
theorem finish_order_free (d : Document) {r : Reading} (h : read d.scan = some r) :
    (∀ es, es.Perm r.program.symbols.entries →
      (Symbol.Table.mk es).finish = r.program.symbols.finish) ∧
    (∀ e ∈ r.program.symbols.entries, ∀ f ∈ r.program.symbols.entries, e.name ≠ f.name →
      ∀ u ∈ e.usages.head?, ∀ v ∈ f.usages.head?, u.place.start ≠ v.place.start) ∧
    ∀ e ∈ r.program.symbols.entries, e.usages = [] → Symbol.Table.atEnd e = [] := by
  obtain ⟨cited, distinct⟩ := cites_of_read h
  have placed (m n : Located String) (hm : ⟨.identifier m.value, m.place⟩ ∈ tokensOf d.scan)
      (hn : ⟨.identifier n.value, n.place⟩ ∈ tokensOf d.scan)
      (same : m.place.start = n.place.start) : m.value = n.value := by
    have one := eq_of_start_eq hm hn same
    exact Token.identifier.inj (congrArg (·.value) one)
  refine ⟨fun es perm => ?_, fun e he f hf other u hu v hv same => ?_, fun e _ unused => ?_⟩
  · exact Symbol.Table.finish_of_perm (cited.apart distinct placed) perm
  · exact other (placed ⟨e.name, u.place⟩ ⟨f.name, v.place⟩
      (cited e he u (List.mem_of_mem_head? hu)) (cited f hf v (List.mem_of_mem_head? hv)) same)
  · exact Symbol.Table.atEnd_of_unused unused

/-- Labels that are nowhere, each used, and a constant that is not used. -/
def lostLabels : Document := ⟨"test", "[[GOTO b : CONST k = 1 : GOSUB a : GOTO b]]", none⟩

theorem finish_order_free_lostLabels : ∃ r, read lostLabels.scan = some r ∧
    r.program.symbols.entries.map (·.name) = ["b", "k", "a"] ∧
    (Symbol.Table.mk r.program.symbols.entries.reverse).finish = r.program.symbols.finish := by
  have names : (read lostLabels.scan).map (·.program.symbols.entries.map (·.name)) =
      some ["b", "k", "a"] := by decide +kernel
  obtain ⟨r, run, names⟩ := Option.map_eq_some_iff.mp names
  exact ⟨r, run, names, (finish_order_free lostLabels run).1 _ (List.reverse_perm _)⟩

end Gamebook.Grammar
