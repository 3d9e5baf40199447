import Gamebook.Proofs.Grammar.LocalStatements
import Gamebook.Proofs.Grammar.References

/-!
# Readers that are told what to report

`read` notices every colon that is missing and keeps all that it finds wrong. `Reading.accept`
leaves colons out afterwards if the reading is lenient, and cuts the list off where the limit is.
Here is a reader that is told both beforehand (`Parser.programIn`): it does not report a missing
colon unless it is strict, and what it finds wrong goes into a report on the way, which drops what it
has no room for. That this comes to the same is not obvious, because what was reported so far is in
the state of everything that is read from there on.

`Parser.programIn_mirrors` says that it makes no difference: both readers go through the same states
but for their problems, and what a report keeps of those that count is the same. This follows from
what is known of statements (`Parser.Meets.blind`); only what has blocks inside must be gone through
again, since the two read these blocks differently.
-/

namespace Gamebook

/-! ## Reports -/

namespace Report

/-- The first of `ps` are kept, up to the limit, and reaching the limit is noticed. -/
structure Keeps (r : Report) (ps : List (Located Problem)) : Prop where
  problems : r.problems = ps.take r.limit
  limitReached : r.limitReached = true ↔ r.limit ≤ ps.length

theorem withLimit_keeps (limit : Nat) : (withLimit limit).Keeps [] where
  problems := by simp [withLimit]
  limitReached := by simp [withLimit]

theorem limit_push (r : Report) (p : Located Problem) : (r.push p).limit = r.limit := by
  unfold push
  split <;> rfl

theorem Keeps.push {r : Report} {ps : List (Located Problem)} (h : r.Keeps ps)
    (p : Located Problem) : (r.push p).Keeps (ps ++ [p]) := by
  have kept : r.problems.length = min r.limit ps.length := by rw [h.problems, List.length_take]
  have reached := h.limitReached
  unfold Report.push
  split
  · next full =>
    have enough : r.limit ≤ ps.length := by omega
    refine ⟨?_, ?_⟩
    · rw [h.problems, List.take_append_of_le_length enough]
    · simp only [List.length_append, true_iff]
      omega
  · next room =>
    have short : ps.length < r.limit := by omega
    have all : r.problems = ps := by rw [h.problems, List.take_of_length_le (by omega)]
    refine ⟨?_, ?_⟩
    · rw [all, List.take_of_length_le (by simp; omega)]
    · simp only [all, Bool.or_eq_true, beq_iff_eq, List.length_append, List.length_singleton]
      rw [reached]
      omega

theorem Keeps.foldl {r : Report} {ps : List (Located Problem)} (h : r.Keeps ps)
    (qs : List (Located Problem)) :
    (qs.foldl Report.push r).Keeps (ps ++ qs) ∧ (qs.foldl Report.push r).limit = r.limit := by
  induction qs generalizing r ps with
  | nil => simpa using h
  | cons q qs ih =>
    have step := ih (h.push q)
    rw [limit_push, List.append_assoc] at step
    exact step

/-- A report keeps the first problems up to its limit. -/
theorem ofProblems_keeps (limit : Nat) (ps : List (Located Problem)) :
    (ofProblems limit ps).Keeps ps ∧ (ofProblems limit ps).limit = max limit 1 :=
  (withLimit_keeps limit).foldl ps

theorem kind_ofProblems (limit : Nat) (ps : List (Located Problem)) :
    (ofProblems limit ps).kind = (withLimit limit).kind := by
  have foldl (r : Report) : (ps.foldl push r).kind = r.kind := by
    induction ps generalizing r with
    | nil => rfl
    | cons p ps ih =>
      rw [List.foldl_cons, ih]
      unfold push
      split <;> rfl
  exact foldl _

/-- Two reports are the same if the first problems are. -/
theorem ofProblems_congr {limit : Nat} {ps qs : List (Located Problem)}
    (same : ps.take (max limit 1) = qs.take (max limit 1)) :
    ofProblems limit ps = ofProblems limit qs := by
  obtain ⟨keeps, bound⟩ := ofProblems_keeps limit ps
  obtain ⟨keeps', bound'⟩ := ofProblems_keeps limit qs
  have kinds : (ofProblems limit ps).kind = (ofProblems limit qs).kind :=
    (kind_ofProblems limit ps).trans (kind_ofProblems limit qs).symm
  have problems : (ofProblems limit ps).problems = (ofProblems limit qs).problems := by
    rw [keeps.problems, keeps'.problems, bound, bound', same]
  have reached : (ofProblems limit ps).limitReached = (ofProblems limit qs).limitReached := by
    have lengths := congrArg List.length same
    rw [List.length_take, List.length_take] at lengths
    rw [Bool.eq_iff_iff, keeps.limitReached, keeps'.limitReached, bound, bound']
    omega
  have limits := bound.trans bound'.symm
  cases here : ofProblems limit ps
  cases there : ofProblems limit qs
  simp_all

end Report

namespace Grammar

/-- The problems but for colons that are missing. -/
def besidesColons (ps : List (Located Problem)) : List (Located Problem) :=
  ps.filter (·.value ≠ .grammar .missingColon)

/-! ## What is reported -/

/-- What a reader is told to report. -/
structure Demand where
  /-- Whether a missing colon is a problem. -/
  strict : Bool
  /-- The limit of the report, if there is one. -/
  limit : Option Nat

namespace Demand

/-- What the report keeps of these problems. -/
def keep (d : Demand) (ps : List (Located Problem)) : List (Located Problem) :=
  match d.limit with
  | none => ps
  | some n => (Report.ofProblems n ps).problems

/-- The problems that count. -/
def counted (d : Demand) (ps : List (Located Problem)) : List (Located Problem) :=
  ps.filter (Options.counts { strictColons := d.strict })

/-- If all problems are `ps`, then those that were to be reported are `qs`. -/
def Reported (d : Demand) (ps qs : List (Located Problem)) : Prop :=
  d.keep (d.counted ps) = d.keep qs

variable {d : Demand} {ps qs new : List (Located Problem)}

theorem keep_some (strict : Bool) (n : Nat) (ps : List (Located Problem)) :
    keep ⟨strict, some n⟩ ps = ps.take (max n 1) := by
  obtain ⟨keeps, limit⟩ := Report.ofProblems_keeps n ps
  exact keeps.problems.trans (by rw [limit])

theorem keep_keep (d : Demand) (ps : List (Located Problem)) : d.keep (d.keep ps) = d.keep ps := by
  obtain ⟨strict, _ | n⟩ := d
  · rfl
  · rw [keep_some, keep_some, List.take_take, Nat.min_self]

/-- Whatever is found wrong behind, the report keeps the same of it. -/
theorem keep_append (same : d.keep ps = d.keep qs) (new : List (Located Problem)) :
    d.keep (ps ++ new) = d.keep (qs ++ new) := by
  obtain ⟨strict, _ | n⟩ := d
  · exact congrArg (· ++ new) same
  · rw [keep_some, keep_some] at same ⊢
    have lengths := congrArg List.length same
    rw [List.length_take, List.length_take] at lengths
    have room : max n 1 - ps.length = max n 1 - qs.length := by omega
    rw [List.take_append, List.take_append, same, room]

theorem counted_append (d : Demand) (ps qs : List (Located Problem)) :
    d.counted (ps ++ qs) = d.counted ps ++ d.counted qs := List.filter_append ..

theorem counted_of_colonless (d : Demand) (h : Colonless ps) : d.counted ps = ps :=
  List.filter_eq_self.mpr fun p hp => by simp [Options.counts, h p hp]

namespace Reported

theorem nil (d : Demand) : d.Reported [] [] := rfl

theorem append (h : d.Reported ps qs) (other : Colonless new) :
    d.Reported (ps ++ new) (qs ++ new) := by
  rw [Reported, counted_append, d.counted_of_colonless other]
  exact keep_append h new

theorem keep (h : d.Reported ps qs) : d.Reported ps (d.keep qs) := h.trans (d.keep_keep qs).symm

/-- A missing colon is reported if it counts. -/
theorem colon (h : d.Reported ps qs) (strict : d.strict = true) (place : Location) :
    d.Reported (ps ++ [⟨.grammar .missingColon, place⟩])
      (qs ++ [⟨.grammar .missingColon, place⟩]) := by
  have counts : d.counted [⟨.grammar .missingColon, place⟩] =
      [⟨.grammar .missingColon, place⟩] := by
    simp [counted, Options.counts, strict]
  rw [Reported, counted_append, counts]
  exact keep_append h _

/-- Otherwise it is not. -/
theorem skip (h : d.Reported ps qs) (lenient : d.strict = false) (place : Location) :
    d.Reported (ps ++ [⟨.grammar .missingColon, place⟩]) qs := by
  have counts : d.counted [⟨.grammar .missingColon, place⟩] = [] := by
    simp [counted, Options.counts, lenient]
  rw [Reported, counted_append, counts, List.append_nil]
  exact h

end Reported

end Demand

/-- What was to be reported is what there is to report; otherwise the outcomes are the same. -/
inductive Outcome.Mirrors (d : Demand) {α : Type} : Outcome α → Outcome α → Prop
  | done (a : α) (s : State) {ps qs : List (Located Problem)} :
    d.Reported ps qs → Mirrors d (.done a (s.having ps)) (.done a (s.having qs))
  | failed (e : Located SyntaxError) (s : State) {ps qs : List (Located Problem)} :
    d.Reported ps qs → Mirrors d (.failed e (s.having ps)) (.failed e (s.having qs))
  | overflowed : Mirrors d .overflowed .overflowed

namespace Parser

/-! ## Readers that are told what to report -/

/-- What `p` finds wrong goes into the report. -/
def reporting (d : Demand) {α : Type} (p : Parser α) : Parser α := fun s =>
  match p s with
  | .done a s' => .done a (s'.having (d.keep s'.problems))
  | .failed e s' => .failed e (s'.having (d.keep s'.problems))
  | .overflowed => .overflowed

/-- Statements up to a word that ends the block, as `block` reads them, but a missing colon is
reported only by a strict reader. What is found wrong goes into the report with every token and
every statement, and in a statement with blocks also with those inside. -/
def blockIn (d : Demand) : Nat → List Keyword → Bool → Parser Unit
  | 0, _, _ => return ()
  | fuel + 1, ends, needsColon => do
    match ← reporting d peekLocated with
    | none => return ()
    | some t =>
      match t.value, blockEnd? t.value with
      | .colon, _ | .lineBreak, _ | .openCode, _ | .closeCode, _ => do
        let _ ← reporting d advance
        blockIn d fuel ends false
      | .text bytes, _ => do
        let _ ← reporting d advance
        emit [.text bytes]
        blockIn d fuel ends false
      | _, some k =>
        if ends.isEmpty || ends.contains k then return ()
        else do
          let _ ← reporting d advance
          reporting d (report (.unmatchedEnd k) t.place)
          blockIn d fuel ends needsColon
      | token, none => do
        if d.strict && needsColon then reporting d (report .missingColon t.place)
        reporting d (attempt (statement fun inner => blockIn d fuel inner false))
        blockIn d fuel ends (match token with | .shortLabel _ => false | _ => true)

/-- Blocks up to the end of the script. -/
def programForIn (d : Demand) : Nat → Parser Unit
  | 0 => return ()
  | fuel + 1 => do
    blockIn d (← left) [] false
    match ← reporting d advance with
    | none => return ()
    | some t => do
      match t.value with
      | .keyword k => reporting d (report (.unmatchedEnd k) t.place)
      | _ => pure ()
      programForIn d fuel

/-- A whole script. -/
def programIn (d : Demand) : Parser Unit := do programForIn d ((← left) + 1)

/-- `q` does what `p` does, and reports what there is to report of what `p` finds wrong. -/
def Mirrors (d : Demand) {α : Type} (p q : Parser α) : Prop :=
  ∀ (s : State) (ps qs : List (Located Problem)), d.Reported ps qs →
    (p (s.having ps)).Mirrors d (q (s.having qs))

variable {d : Demand} {α β : Type} {p q : Parser α} {f g : α → Parser β}

theorem Blind.mirrors (h : Blind p) : Mirrors d p p := by
  intro s ps qs reported
  have other := h.other s
  rw [h.runs (s.having ps), h.runs (s.having qs)]
  change ((p s.fresh).behind ps).Mirrors d ((p s.fresh).behind qs)
  cases run : p s.fresh with
  | done a s' =>
    rw [run] at other
    exact .done a s' (reported.append other)
  | failed e s' =>
    rw [run] at other
    exact .failed e s' (reported.append other)
  | overflowed => exact .overflowed

/-- What is known of a parser that reports no colons. -/
theorem Meets.mirrors {Q : State → α → State → Prop} (h : Meets (.nothing false) True p Q) :
    Mirrors d p p := (h.blind rfl).mirrors

namespace Mirrors

protected theorem pure (a : α) : Mirrors d (pure a) (pure a) := (Blind.pure a).mirrors

protected theorem bind (hp : Mirrors d p q) (hf : ∀ a, Mirrors d (f a) (g a)) :
    Mirrors d (p >>= f) (q >>= g) := by
  intro s ps qs reported
  have first := hp s ps qs reported
  rw [bind_apply, bind_apply]
  generalize p (s.having ps) = o at first
  generalize q (s.having qs) = o' at first
  cases first with
  | done a s' reported' => exact hf a s' _ _ reported'
  | failed e s' reported' => exact .failed e s' reported'
  | overflowed => exact .overflowed

/-- It makes no difference how often the report drops what it has no room for. -/
protected theorem reporting (h : Mirrors d p q) : Mirrors d p (reporting d q) := by
  intro s ps qs reported
  have run := h s ps qs reported
  unfold Parser.reporting
  generalize p (s.having ps) = o at run
  generalize q (s.having qs) = o' at run
  cases run with
  | done a s' reported' => exact .done a s' reported'.keep
  | failed e s' reported' => exact .failed e s' reported'.keep
  | overflowed => exact .overflowed

protected theorem captured {p q : Parser Unit} (h : Mirrors d p q) :
    Mirrors d (captured p) (captured q) := by
  intro s ps qs reported
  have inner := h { s with code := [] } ps qs reported
  change (p { s.having ps with code := [] }).Mirrors d (q { s.having qs with code := [] }) at inner
  unfold Parser.captured
  generalize p { s.having ps with code := [] } = o at inner
  generalize q { s.having qs with code := [] } = o' at inner
  cases inner with
  | done a s' reported' => exact .done s'.code { s' with code := s.code } reported'
  | failed e s' reported' => exact .failed e { s' with code := s.code } reported'
  | overflowed => exact .overflowed

/-- What is tried does not fail for a colon. -/
protected theorem attempt {p q : Parser Unit} (h : Mirrors d p q)
    (other : ∀ s e s', p s = .failed e s' → e.value ≠ .missingColon) :
    Mirrors d (attempt p) (attempt q) := by
  intro s ps qs reported
  have run := h s ps qs reported
  have failing := other (s.having ps)
  unfold Parser.attempt
  generalize p (s.having ps) = o at run failing
  generalize q (s.having qs) = o' at run
  cases run with
  | done a s' reported' => exact .done a s' reported'
  | failed e s' reported' =>
    have onward : Blind (do report e.value e.place; recover : Parser Unit) :=
      (report_blind e.place (failing e _ rfl)).bind fun _ => recover_blind
    exact onward.mirrors s' _ _ reported'
  | overflowed => exact .overflowed

/-- Where a colon is missing, only a strict reader says so. -/
theorem missingColon (place : Location) (needsColon : Bool) (h : Mirrors d p q) :
    Mirrors d (if needsColon then report .missingColon place >>= fun _ => p else p)
      (if d.strict && needsColon then reporting d (report .missingColon place) >>= fun _ => q
        else q) := by
  intro s ps qs reported
  cases needsColon with
  | false =>
    rw [Bool.and_false]
    exact h s ps qs reported
  | true =>
    cases strict : d.strict with
    | false => exact h s _ _ (reported.skip strict place)
    | true => exact h s _ _ (reported.colon strict place).keep

end Mirrors

section Blocks

variable {block block' : List Keyword → Parser Unit}

theorem branches_mirrors (h : ∀ ends, Mirrors d (block ends) (block' ends)) (fuel : Nat)
    (test : List Instruction) :
    Mirrors d (branches block fuel test) (branches block' fuel test) := by
  induction fuel generalizing test with
  | zero => exact .bind lastSeen_reads.mirrors fun _ => (Blind.fail _ _).mirrors
  | succ fuel ih =>
    have written (code : List Instruction) : Mirrors d (emit code) (emit code) :=
      (emit_blind code).mirrors
    refine .bind hiddenLabel_blind.mirrors fun otherwise => .bind (written _) fun _ => ?_
    refine .bind (h _) fun _ => .bind (next_reads _).mirrors fun t => ?_
    split
    · exact written _
    · refine .bind (.captured (h _)) fun body => .bind (word_reads _).mirrors fun _ => ?_
      split
      · exact written _
      · exact .bind hiddenLabel_blind.mirrors fun _ => written _
    · refine .bind hiddenLabel_blind.mirrors fun done => .bind (written _) fun _ => ?_
      refine .bind condition_reads.mirrors fun test => .bind (word_reads _).mirrors fun _ => ?_
      exact .bind (ih test) fun _ => written _
    · exact (Blind.fail _ _).mirrors

theorem ifStatement_mirrors (h : ∀ ends, Mirrors d (block ends) (block' ends)) :
    Mirrors d (ifStatement block) (ifStatement block') :=
  .bind condition_reads.mirrors fun test => .bind (word_reads _).mirrors fun _ =>
    .bind left_reads.mirrors fun n => branches_mirrors h (n + 1) test

theorem whileLoop_mirrors (h : ∀ ends, Mirrors d (block ends) (block' ends)) :
    Mirrors d (whileLoop block) (whileLoop block') := by
  have written (code : List Instruction) : Mirrors d (emit code) (emit code) :=
    (emit_blind code).mirrors
  refine .bind openParen_reads.mirrors fun _ => .bind loopCondition_reads.mirrors fun test? => ?_
  refine .bind closeParen_reads.mirrors fun _ => .bind hiddenLabel_blind.mirrors fun start => ?_
  refine .bind (written _) fun _ => ?_
  cases test? with
  | some test =>
    refine .bind hiddenLabel_blind.mirrors fun done => .bind (written _) fun _ => ?_
    exact .bind (h _) fun _ => .bind (word_reads _).mirrors fun _ => written _
  | none => exact .bind (h _) fun _ => .bind (word_reads _).mirrors fun _ => written _

theorem doLoop_mirrors (h : ∀ ends, Mirrors d (block ends) (block' ends)) :
    Mirrors d (doLoop block) (doLoop block') := by
  have written (code : List Instruction) : Mirrors d (emit code) (emit code) :=
    (emit_blind code).mirrors
  refine .bind hiddenLabel_blind.mirrors fun start => .bind (written _) fun _ => ?_
  refine .bind (h _) fun _ => ?_
  exact .bind (word_reads _).mirrors fun _ => .bind condition_reads.mirrors fun _ => written _

/-- A statement without blocks is the same however blocks are read. -/
theorem statementOf_simple (block block' : List Keyword → Parser Unit) {k : Keyword}
    (simple : hasBlocks k = false) (place : Location) :
    statementOf block k place = statementOf block' k place := by
  cases k <;> first | rfl | contradiction

theorem statementOf_mirrors (h : ∀ ends, Mirrors d (block ends) (block' ends)) (k : Keyword)
    (place : Location) : Mirrors d (statementOf block k place) (statementOf block' k place) := by
  cases simple : hasBlocks k with
  | false =>
    rw [statementOf_simple block (fun _ => pure ()) simple,
      statementOf_simple block' (fun _ => pure ()) simple]
    exact (statementOf_writes (fun _ => .pure) k place).mirrors
  | true =>
    cases k with
    | IF => exact ifStatement_mirrors h
    | WHILE => exact whileLoop_mirrors h
    | DO => exact doLoop_mirrors h
    | _ => contradiction

theorem statement_mirrors (h : ∀ ends, Mirrors d (block ends) (block' ends)) :
    Mirrors d (statement block) (statement block') := by
  refine .bind (next_reads _).mirrors fun t => ?_
  split
  · exact statementOf_mirrors h _ _
  · exact (placeLabel_writes _).mirrors
  · exact (Blind.fail _ _).mirrors

end Blocks

theorem block_mirrors (fuel : Nat) (ends : List Keyword) (needsColon : Bool) :
    Mirrors d (block fuel ends needsColon) (blockIn d fuel ends needsColon) := by
  induction fuel generalizing ends needsColon with
  | zero => exact .pure ()
  | succ fuel ih =>
    refine .bind peekLocated_blind.mirrors.reporting fun t => ?_
    cases t with
    | none => exact .pure ()
    | some t =>
      obtain ⟨token, place⟩ := t
      have passed : Mirrors d advance (reporting d advance) := advance_blind.mirrors.reporting
      have skipped : Mirrors d (advance >>= fun _ => block fuel ends false)
          (reporting d advance >>= fun _ => blockIn d fuel ends false) :=
        .bind passed fun _ => ih _ _
      have tried : Mirrors d (attempt (statement fun inner => block fuel inner false))
          (attempt (statement fun inner => blockIn d fuel inner false)) :=
        .attempt (statement_mirrors fun inner => ih inner false) fun s e s' =>
          (statement_writes (T := .nothing true) (C := True)
            fun inner => block_writes rfl fuel inner false).other
      have statements (needed : Bool) := Mirrors.missingColon place needsColon
        (tried.reporting.bind fun _ => ih ends needed)
      cases token with
      | colon | lineBreak | openCode | closeCode => exact skipped
      | text bytes => exact .bind passed fun _ => .bind (emit_blind _).mirrors fun _ => ih _ _
      | keyword k =>
        dsimp only
        cases blockEnd? (.keyword k) with
        | none => exact statements true
        | some k =>
          dsimp only
          split
          · exact .pure ()
          · exact .bind passed fun _ =>
              .bind (report_blind place (by simp)).mirrors.reporting fun _ => ih _ _
      | shortLabel name => exact statements false
      | _ => exact statements true

theorem programFor_mirrors (fuel : Nat) : Mirrors d (programFor fuel) (programForIn d fuel) := by
  induction fuel with
  | zero => exact .pure ()
  | succ fuel ih =>
    refine .bind left_reads.mirrors fun n => .bind (block_mirrors n [] false) fun _ => ?_
    refine .bind advance_blind.mirrors.reporting fun t => ?_
    cases t with
    | none => exact .pure ()
    | some t =>
      obtain ⟨token, place⟩ := t
      cases token with
      | keyword k => exact .bind (report_blind place (by simp)).mirrors.reporting fun _ => ih
      | _ => exact ih

/-- A reader that is told what to report goes through the same states, and reports what there is to
report. -/
theorem programIn_mirrors (d : Demand) : Mirrors d program (programIn d) :=
  .bind left_reads.mirrors fun n => programFor_mirrors (n + 1)

end Parser

/-! ## Scripts -/

/-- Reads all tokens of a script with a report, unless a constant has no value. -/
def readUnder (d : Demand) (tokens : List Lexeme) : Option Reading :=
  match Parser.programIn d (State.start tokens) with
  | .done _ s | .failed _ s => some (.ofState s)
  | .overflowed => none

/-- Reads all tokens of a script in a mode, and reports everything. -/
def readIn (strict : Bool) (tokens : List Lexeme) : Option Reading :=
  readUnder ⟨strict, none⟩ tokens

namespace Reading

/-- The program, or a report of everything that was found wrong. -/
def judge (maxErrors : Nat) (r : Reading) : Except Report Program :=
  if r.problems.isEmpty then .ok r.program else .error (.ofProblems maxErrors r.problems)

/-- The reading if no colon had been found missing. -/
def withoutColons (r : Reading) : Reading := { r with problems := besidesColons r.problems }

/-- The reading with the problems that count. -/
def counted (d : Demand) (r : Reading) : Reading := { r with problems := d.counted r.problems }

/-- The reading with the problems that a report keeps. -/
def kept (d : Demand) (r : Reading) : Reading := { r with problems := d.keep r.problems }

/-- The names that are wrong in the end are reported last. -/
theorem kept_ofState {d : Demand} {ps qs : List (Located Problem)} (h : d.Reported ps qs)
    (s : State) : (ofState (s.having qs)).kept d = ((ofState (s.having ps)).counted d).kept d := by
  have names : Colonless (s.symbols.finish.map (·.map .name)) := by
    intro p hp
    obtain ⟨e, -, rfl⟩ := List.mem_map.mp hp
    simp [Located.map]
  have same : d.keep (d.counted (ps ++ s.symbols.finish.map (·.map .name))) =
      d.keep (qs ++ s.symbols.finish.map (·.map .name)) := h.append names
  simp [ofState, kept, counted, State.having, same]

/-- What a report drops does not change the judgement. -/
theorem judge_kept (strict : Bool) (maxErrors : Nat) (r : Reading) :
    (r.kept ⟨strict, some maxErrors⟩).judge maxErrors = r.judge maxErrors := by
  have keep := Demand.keep_some strict maxErrors r.problems
  have none : (r.problems.take (max maxErrors 1)).isEmpty = r.problems.isEmpty := by
    cases r.problems with
    | nil => simp
    | cons p ps => simp [show max maxErrors 1 ≠ 0 by omega]
  have report : Report.ofProblems maxErrors (r.problems.take (max maxErrors 1)) =
      .ofProblems maxErrors r.problems :=
    Report.ofProblems_congr (by rw [List.take_take, Nat.min_self])
  rw [judge, judge, kept, keep, none, report]

/-- To judge what counts is to accept. -/
theorem judge_counted (r : Reading) (o : Options) (limit : Option Nat) :
    (r.counted ⟨o.strictColons, limit⟩).judge o.maxErrors = r.accept o := rfl

theorem judge_eq_ok_iff {r : Reading} {maxErrors : Nat} {program : Program} :
    r.judge maxErrors = .ok program ↔ r.problems = [] ∧ r.program = program := by
  unfold judge
  split
  · next none => simp [List.isEmpty_iff.mp none]
  · next some => simp [mt List.isEmpty_iff.mpr some]

end Reading

/-- What a reader with a report finds is what there is to report of the reading. -/
theorem kept_readUnder (d : Demand) (tokens : List Lexeme) :
    (readUnder d tokens).map (·.kept d) = (read tokens).map fun r => (r.counted d).kept d := by
  have mirrors := Parser.programIn_mirrors d (State.start tokens) [] [] (.nil d)
  change (Parser.program (State.start tokens)).Mirrors d (Parser.programIn d (State.start tokens))
    at mirrors
  unfold readUnder read
  generalize Parser.program (State.start tokens) = o at mirrors
  generalize Parser.programIn d (State.start tokens) = o' at mirrors
  cases mirrors with
  | done a s reported => exact congrArg some (Reading.kept_ofState reported s)
  | failed e s reported => exact congrArg some (Reading.kept_ofState reported s)
  | overflowed => rfl

theorem readIn_eq (strict : Bool) (tokens : List Lexeme) :
    readIn strict tokens = (read tokens).map (·.counted ⟨strict, none⟩) := by
  have kept := kept_readUnder ⟨strict, none⟩ tokens
  have all : (fun r : Reading => r.kept ⟨strict, none⟩) = id := rfl
  rw [all, Option.map_id] at kept
  exact kept

theorem readIn_true (tokens : List Lexeme) : readIn true tokens = read tokens := by
  have all : (fun r : Reading => r.counted ⟨true, none⟩) = id := by
    funext r
    have counted : Demand.counted ⟨true, none⟩ r.problems = r.problems :=
      List.filter_eq_self.mpr fun _ _ => rfl
    rw [Reading.counted, counted]
    rfl
  rw [readIn_eq, all, Option.map_id]
  rfl

theorem readIn_false (tokens : List Lexeme) :
    readIn false tokens = (readIn true tokens).map Reading.withoutColons := by
  rw [readIn_true, readIn_eq]
  rfl

/-- What a script comes to when it is read in the mode that was asked for, with a report that has
the limit that was asked for. -/
def parseIn (o : Options) (tokens : List Lexeme) : Option (Except Report Program) :=
  (readUnder ⟨o.strictColons, some o.maxErrors⟩ tokens).map (·.judge o.maxErrors)

/-- It is the same to leave colons out and to apply the limit afterwards. -/
theorem parseIn_eq (o : Options) (tokens : List Lexeme) :
    parseIn o tokens = (read tokens).map (·.accept o) := by
  have kept := congrArg (Option.map (·.judge o.maxErrors))
    (kept_readUnder ⟨o.strictColons, some o.maxErrors⟩ tokens)
  simpa [Function.comp_def, Reading.judge_kept, Reading.judge_counted, parseIn] using kept

theorem parseIn_eq_judge (strict : Bool) (maxErrors : Nat) (tokens : List Lexeme) :
    parseIn ⟨strict, maxErrors⟩ tokens = (readIn strict tokens).map (·.judge maxErrors) := by
  rw [parseIn_eq, readIn_eq, Option.map_map]
  rfl

/-- What is reported. -/
def diagnostics : Except Report Program → List (Located Problem)
  | .ok _ => []
  | .error report => report.problems

theorem diagnostics_judge (r : Reading) (maxErrors : Nat) :
    diagnostics (r.judge maxErrors) = r.problems.take (max maxErrors 1) := by
  obtain ⟨keeps, limit⟩ := Report.ofProblems_keeps maxErrors r.problems
  unfold Reading.judge
  split
  · next none =>
    rw [List.isEmpty_iff.mp none]
    exact List.take_nil.symm
  · exact keeps.problems.trans (by rw [limit])

/-- A limit that is not reached leaves nothing out. -/
theorem length_problems_lt {r : Reading} {maxErrors : Nat}
    (uncut : ∀ report, r.judge maxErrors = .error report → report.limitReached = false) :
    r.problems.length < max maxErrors 1 := by
  obtain ⟨keeps, limit⟩ := Report.ofProblems_keeps maxErrors r.problems
  by_cases none : r.problems = []
  · rw [none, List.length_nil]
    omega
  · have reported := uncut _ (if_neg (mt List.isEmpty_iff.mp none))
    by_contra reached
    rw [Nat.not_lt, ← limit, ← keeps.limitReached, reported] at reached
    contradiction

/-- The two modes differ in missing colons only: the reading is the same but for these, whatever is
wrong with the script, and it is what `read` and `Reading.accept` come to. So under a limit that
the problems do not reach, the lenient reports are the strict ones without missing colons, and what
is a program for the strict reader is the same program for the lenient one. -/
theorem modes_differ_in_colons (tokens : List Lexeme) (maxErrors : Nat)
    (uncut : ∀ report, parseIn ⟨true, maxErrors⟩ tokens = some (.error report) →
      report.limitReached = false) :
    (∀ o, parseIn o tokens = (read tokens).map (·.accept o)) ∧
    readIn false tokens = (readIn true tokens).map Reading.withoutColons ∧
    (parseIn ⟨false, maxErrors⟩ tokens).map diagnostics =
      (parseIn ⟨true, maxErrors⟩ tokens).map (besidesColons ∘ diagnostics) ∧
    ∀ program, parseIn ⟨true, maxErrors⟩ tokens = some (.ok program) →
      parseIn ⟨false, maxErrors⟩ tokens = some (.ok program) := by
  refine ⟨fun o => parseIn_eq o tokens, readIn_false tokens, ?_, ?_⟩
  · cases strict : readIn true tokens with
    | none => simp [parseIn_eq_judge, readIn_false, strict]
    | some r =>
      have short : r.problems.length < max maxErrors 1 :=
        length_problems_lt fun report h => uncut report (by simp [parseIn_eq_judge, strict, h])
      have fewer : (besidesColons r.problems).length ≤ r.problems.length :=
        List.length_filter_le _ _
      have lenient : diagnostics (r.withoutColons.judge maxErrors) = besidesColons r.problems := by
        rw [diagnostics_judge]
        exact List.take_of_length_le (by simp only [Reading.withoutColons]; omega)
      have all : diagnostics (r.judge maxErrors) = r.problems := by
        rw [diagnostics_judge, List.take_of_length_le (by omega)]
      simp [parseIn_eq_judge, readIn_false, strict, lenient, all]
  · intro program accepted
    rw [parseIn_eq_judge] at accepted
    obtain ⟨r, strict, judged⟩ := Option.map_eq_some_iff.mp accepted
    obtain ⟨none, rfl⟩ := Reading.judge_eq_ok_iff.mp judged
    have still : r.withoutColons.judge maxErrors = .ok r.program :=
      Reading.judge_eq_ok_iff.mpr ⟨by simp [Reading.withoutColons, none, besidesColons], rfl⟩
    rw [parseIn_eq_judge, readIn_false, strict]
    exact congrArg some still

/-- Two statements without a colon between them, and the end of a block that was not begun. -/
def crowdedLine : List Lexeme :=
  ([.keyword .PRINT, .number 1, .keyword .PRINT, .number 2, .keyword .ENDIF] : List Token).map
    fun t => ⟨.ok t, .nowhere⟩

theorem readIn_crowdedLine : ∃ r, readIn true crowdedLine = some r ∧
    r.problems = [⟨.grammar .missingColon, .nowhere⟩,
      ⟨.grammar (.unmatchedEnd .ENDIF), .nowhere⟩] := by
  have check : (Parser.program (State.start crowdedLine)).done?.map (fun s =>
      decide ((∀ e ∈ s.symbols.entries, Symbol.Table.atEnd e = []) ∧
        s.problems = [⟨.grammar .missingColon, .nowhere⟩,
          ⟨.grammar (.unmatchedEnd .ENDIF), .nowhere⟩])) = some true := by
    decide +kernel
  obtain ⟨s, run, check⟩ := Option.map_eq_some_iff.mp check
  obtain ⟨names, problems⟩ := of_decide_eq_true check
  refine ⟨.ofState s, ?_, ?_⟩
  · rw [readIn_true, read, Outcome.eq_done run]
  · simp [Reading.ofState, problems, Symbol.Table.finish_eq_nil_iff.mpr names]

theorem modes_differ_in_colons_crowdedLine :
    (parseIn ⟨true, 20⟩ crowdedLine).map diagnostics = some
      [⟨.grammar .missingColon, .nowhere⟩, ⟨.grammar (.unmatchedEnd .ENDIF), .nowhere⟩] ∧
    (parseIn ⟨false, 20⟩ crowdedLine).map diagnostics = some
      [⟨.grammar (.unmatchedEnd .ENDIF), .nowhere⟩] := by
  obtain ⟨r, hread, problems⟩ := readIn_crowdedLine
  have judged : r.judge 20 = .error (.ofProblems 20 r.problems) := by
    rw [Reading.judge, problems]
    rfl
  have strict : parseIn ⟨true, 20⟩ crowdedLine = some (.error (.ofProblems 20 r.problems)) := by
    rw [parseIn_eq_judge, hread]
    exact congrArg some judged
  have uncut : ∀ report, parseIn ⟨true, 20⟩ crowdedLine = some (.error report) →
      report.limitReached = false := by
    intro report h
    rw [strict] at h
    cases h
    rw [problems]
    rfl
  obtain ⟨-, -, lenient, -⟩ := modes_differ_in_colons crowdedLine 20 uncut
  have reported : (parseIn ⟨true, 20⟩ crowdedLine).map diagnostics = some
      [⟨.grammar .missingColon, .nowhere⟩, ⟨.grammar (.unmatchedEnd .ENDIF), .nowhere⟩] := by
    rw [strict, problems]
    rfl
  refine ⟨reported, ?_⟩
  rw [lenient, ← Option.map_map, reported]
  rfl

end Grammar

end Gamebook
