import Gamebook.Grammar.Program
import Gamebook.Proofs.Grammar.Levels

/-!
# Expressions are read as their trees

However an expression is written, with all the parentheses it needs and any number of others, it is
read as its tree, to its last token and no further, and what it comes to is the value of the tree
(`Parser.expression_reads_tree`).
-/

namespace Gamebook.Grammar

open Constant (Expr Operator)
open Gamebook.Symbol (Kind)

namespace Parser

variable {s s' : State} {level : Level} {t a b : Tree} {ls las lbs rest : List Lexeme}

/-! ## What operators stand between -/

section Primaries

variable {p q : Location} {index : Tree} {depth : Nat}

theorem readsTree_primary {tok : Token} {tail : List Lexeme} (inside : isSeparator tok = false)
    (h : ∀ (depth : Nat) (s : State) (rest : List Lexeme), tail.length ≤ depth →
      s.pending = tail ++ rest → Next Level.primary.stops rest → t.Lowers s.symbols.value? →
      ∃ s', s.Took t.mentions rest s' ∧
        primaryFrom (primary depth) ⟨tok, p⟩ s = .done (t.value s.symbols.value?) s') :
    ReadsTree .primary t (⟨.ok tok, p⟩ :: tail) := by
  intro depth s rest deep pending stop lowers
  rw [List.cons_append] at pending
  obtain ⟨depth, rfl⟩ : ∃ n, depth = n + 1 := ⟨depth - 1, by simp at deep; omega⟩
  obtain ⟨s', took, run⟩ :=
    h depth (s.behind p (tail ++ rest)) rest (Nat.le_of_succ_le_succ deep) rfl stop lowers
  refine ⟨p.span s'.lastSeen, s', took.behind_trans, ?_⟩
  change primary (depth + 1) s = _
  rw [primary, bind_of_done (next_token _ pending inside), bind_of_done run,
    bind_of_done lastSeen_apply]
  rfl

theorem readsTree_number (n : Nat) (p : Location) :
    ReadsTree .primary (.number n) [⟨.ok (.number n), p⟩] :=
  readsTree_primary rfl fun _ s _ _ pending _ _ => ⟨s, .refl pending, rfl⟩

theorem primaryFrom_identifier (operand : Parser (Located Value)) (name : String) (p : Location) :
    primaryFrom operand ⟨.identifier name, p⟩ = (do
      if (← peek) = some .openSquare then
        mention ⟨name, p⟩ .array
        let index ← indexOver operand
        return .runtime [.code .PUSH_A [.element ⟨name, index⟩]]
      else
        mention ⟨name, p⟩ .constant
        return .constant (.named name)) := rfl

theorem readsTree_constant (name : Located String) :
    ReadsTree .primary (.constant name) [⟨.ok (.identifier name.value), name.place⟩] := by
  refine readsTree_primary rfl fun depth s rest _ pending stop _ => ?_
  rw [List.nil_append] at pending
  obtain ⟨o, hpeek, ne⟩ := peek_stops (s := s) (pending ▸ stop)
  refine ⟨s.mention (name, .constant), .mention pending _, ?_⟩
  rw [primaryFrom_identifier, bind_of_done hpeek, if_neg ne]
  rfl

/-- A tree where a constant is needed. -/
theorem constantOver_tree {e : Expr} (h : ReadsTree .bitOr t ls)
    (he : t.expr? s.symbols.value? = some e) (deep : ls.length ≤ depth)
    (pending : s.pending = ls ++ rest) (stop : Next Level.bitOr.stops rest)
    (lowers : t.Lowers s.symbols.value?) :
    ∃ place s', s.Took t.mentions rest s' ∧
      constantOver (primary depth) s = .done ⟨e, place⟩ s' := by
  obtain ⟨place, s', took, run⟩ := h depth s rest deep pending stop lowers
  refine ⟨place, s', took, ?_⟩
  change (levelOver (primary depth) .bitOr >>= _) _ = _
  rw [bind_of_done run, Tree.value_of_expr? he]
  rfl

/-- What stands between square brackets. -/
theorem indexOver_brackets {e : Expr} (h : ReadsTree .bitOr index ls)
    (he : index.expr? s.symbols.value? = some e) (deep : ls.length ≤ depth)
    (pending : s.pending = ⟨.ok .openSquare, p⟩ :: (ls ++ ⟨.ok .closeSquare, q⟩ :: rest))
    (lowers : index.Lowers s.symbols.value?) :
    ∃ s', s.Took index.mentions rest s' ∧ indexOver (primary depth) s = .done e s' := by
  obtain ⟨place, s', took, constant⟩ := constantOver_tree (s := s.behind p _) h he deep rfl
    (.closeSquare q rest) lowers
  refine ⟨s'.behind q rest, took.behind_trans.trans_behind, ?_⟩
  rw [indexOver, bind_of_done (expect_token _ pending), bind_of_done constant,
    bind_of_done (expect_token _ took.pending)]
  rfl

theorem readsTree_element (array : Located String) (p q : Location)
    (h : ReadsTree .bitOr index ls) :
    ReadsTree .primary (.element array index)
      (⟨.ok (.identifier array.value), array.place⟩ :: ⟨.ok .openSquare, p⟩ ::
        (ls ++ [⟨.ok .closeSquare, q⟩])) := by
  refine readsTree_primary rfl fun depth s rest deep pending _ lowers => ?_
  simp only [List.cons_append, List.append_assoc, List.nil_append] at pending
  obtain ⟨e, he⟩ := Option.isSome_iff_exists.mp lowers.2
  have short : ls.length ≤ depth := by
    simp at deep
    omega
  have used : s.Took [(array, .array)] s.pending (s.mention (array, .array)) := .mention rfl _
  obtain ⟨s', took, run⟩ := indexOver_brackets (s := s.mention (array, .array)) h
    (used.value? ▸ he) short (used.pending.trans pending) (used.value? ▸ lowers.1)
  refine ⟨s', used.trans took, ?_⟩
  rw [primaryFrom_identifier, bind_of_done (peek_token pending), if_pos rfl,
    bind_of_done (mention_apply _ _ _), bind_of_done run]
  simp [pure_apply, Tree.value, Tree.expr?, Tree.code, Tree.elementOperands, he]

theorem readsTree_parentheses (p q : Location) (h : ReadsTree .or t ls) :
    ReadsTree .primary t (⟨.ok .openParen, p⟩ :: (ls ++ [⟨.ok .closeParen, q⟩])) := by
  refine readsTree_primary rfl fun depth s rest deep pending _ lowers => ?_
  rw [List.append_assoc] at pending
  obtain ⟨place, s', took, run⟩ := h depth s (⟨.ok .closeParen, q⟩ :: rest)
    (by simp at deep; omega) pending (.closeParen q rest) lowers
  refine ⟨s'.behind q rest, took.trans_behind, ?_⟩
  change (levelOver (primary depth) .or >>= _) _ = _
  rw [bind_of_done run]
  change (expect _ _ >>= _) _ = _
  rw [bind_of_done (expect_token _ took.pending)]
  rfl

theorem readsTree_indirect (p q r : Location) (h : ReadsTree .or t ls) :
    ReadsTree .primary (.indirect t)
      (⟨.ok .indirection, p⟩ :: ⟨.ok .openParen, q⟩ :: (ls ++ [⟨.ok .closeParen, r⟩])) := by
  refine readsTree_primary rfl fun depth s rest deep pending _ lowers => ?_
  simp only [List.cons_append, List.append_assoc, List.nil_append] at pending
  obtain ⟨place, s', took, run⟩ := h depth (s.behind q _) (⟨.ok .closeParen, r⟩ :: rest)
    (by simp at deep; omega) rfl (.closeParen r rest) lowers.1
  have pushed := push_value (s := s'.behind r rest) (took.value? ▸ lowers.2) place
  rw [State.behind_symbols, took.value?] at pushed
  refine ⟨s'.behind r rest, took.behind_trans.trans_behind, ?_⟩
  change (peek >>= _) s = _
  rw [bind_of_done (peek_token pending)]
  dsimp only
  rw [bind_of_done (advance_token pending)]
  change (levelOver (primary depth) .or >>= _) _ = _
  rw [bind_of_done run]
  change (expect _ _ >>= _) _ = _
  rw [bind_of_done (expect_token _ took.pending), bind_of_done pushed]
  rfl

theorem primaryFrom_query {operand : Parser (Located Value)} (query : Query)
    (pending : s.pending = ⟨.ok .openParen, p⟩ :: ⟨.ok .closeParen, q⟩ :: rest) (place : Location) :
    primaryFrom operand ⟨.keyword query.keyword, place⟩ s =
      .done (.runtime [query.instruction])
        ((s.behind p (⟨.ok .closeParen, q⟩ :: rest)).behind q rest) := by
  have opened := expect_token "`(`" pending
  have closed := expect_token "`)`" (s := s.behind p (⟨.ok .closeParen, q⟩ :: rest)) rfl
  cases query with
  | random =>
    change (expect _ _ >>= _) s = _
    rw [bind_of_done opened, bind_of_done (accept_token rfl)]
    rfl
  | inkey =>
    change (expect _ _ >>= fun _ => timeoutOver operand >>= _) s = _
    have always : timeoutOver operand (s.behind p (⟨.ok .closeParen, q⟩ :: rest)) =
        .done (.literal 0) (s.behind p (⟨.ok .closeParen, q⟩ :: rest)) := by
      rw [timeoutOver, bind_of_done (peek_token rfl), if_pos rfl]
      rfl
    rw [bind_of_done opened, bind_of_done always]
    change (expect _ _ >>= _) _ = _
    rw [bind_of_done closed]
    rfl
  | _ =>
    change (expect _ _ >>= fun _ => expect _ _ >>= _) s = _
    rw [bind_of_done opened, bind_of_done closed]
    rfl

theorem readsTree_query (q : Query) (p₁ p₂ p₃ : Location) :
    ReadsTree .primary (.query q)
      [⟨.ok (.keyword q.keyword), p₁⟩, ⟨.ok .openParen, p₂⟩, ⟨.ok .closeParen, p₃⟩] := by
  refine readsTree_primary rfl fun depth s rest _ pending _ _ => ?_
  exact ⟨_, State.Took.behind_trans (.behind _ _ _), primaryFrom_query q pending p₁⟩

theorem readsTree_limited (f : Limited) (p₁ p₂ p₃ : Location) (h : ReadsTree .bitOr t ls)
    {tok : Token} {ls' : List Lexeme} (head : ls = ⟨.ok tok, p⟩ :: ls') (ne : tok ≠ .closeParen) :
    ReadsTree .primary (.limited f t)
      (⟨.ok (.keyword f.keyword), p₁⟩ :: ⟨.ok .openParen, p₂⟩ ::
        (ls ++ [⟨.ok .closeParen, p₃⟩])) := by
  refine readsTree_primary rfl fun depth s rest deep pending _ lowers => ?_
  simp only [List.cons_append, List.append_assoc, List.nil_append] at pending
  obtain ⟨lowers, isSome, pushable⟩ := lowers
  obtain ⟨e, he⟩ := Option.isSome_iff_exists.mp isSome
  have short : ls.length ≤ depth := by
    simp at deep
    omega
  obtain ⟨place, s', took, constant⟩ := constantOver_tree
    (s := s.behind p₂ (ls ++ ⟨.ok .closeParen, p₃⟩ :: rest)) h he short rfl (.closeParen p₃ rest)
    lowers
  have same : s'.symbols.value? = s.symbols.value? := took.value?
  have value : (Tree.limited f t).value s.symbols.value? =
      .runtime [.code f.opcode [Tree.constantOperand s.symbols.value? e]] := by
    rw [Tree.value_of_expr?_none rfl, Tree.code, Tree.limitOperands, he]
    rfl
  -- what follows the parenthesis is not the other one
  have opened : (s.behind p₂ (ls ++ ⟨.ok .closeParen, p₃⟩ :: rest)).pending =
      ⟨.ok tok, p⟩ :: (ls' ++ ⟨.ok .closeParen, p₃⟩ :: rest) := by rw [head]; rfl
  refine ⟨s'.behind p₃ rest, took.behind_trans.trans_behind, ?_⟩
  rw [value]
  cases f with
  | random =>
    have limit := immediate_value (s := s'.behind p₃ rest) (same ▸ he) (same ▸ pushable) place
    rw [State.behind_symbols, same] at limit
    change (expect _ _ >>= _) s = _
    rw [bind_of_done (expect_token _ pending), bind_of_done (accept_of_ne opened ne),
      if_neg Bool.false_ne_true, bind_of_done constant,
      bind_of_done (accept_of_ne took.pending (by decide)), if_neg Bool.false_ne_true, closeParen,
      bind_of_done (expect_token _ took.pending), bind_of_done limit]
    rfl
  | inkey =>
    have limit := immediate_value (s := s') (same ▸ he) (same ▸ pushable) place
    rw [same] at limit
    have timeout : timeoutOver (primary depth) (s.behind p₂ (ls ++ ⟨.ok .closeParen, p₃⟩ :: rest)) =
        .done (Tree.constantOperand s.symbols.value? e) s' := by
      rw [timeoutOver, bind_of_done (peek_token opened), if_neg (by simpa using ne),
        bind_of_done constant, limit]
    change (expect _ _ >>= fun _ => timeoutOver (primary depth) >>= _) s = _
    rw [bind_of_done (expect_token _ pending), bind_of_done timeout]
    change (expect _ _ >>= _) _ = _
    rw [bind_of_done (expect_token _ took.pending)]
    rfl

theorem readsTree_between (p₁ p₂ p₃ p₄ : Location) (ha : ReadsTree .bitOr a las)
    (hb : ReadsTree .bitOr b lbs) {tok : Token} {ls' : List Lexeme}
    (head : las = ⟨.ok tok, p⟩ :: ls') (ne : tok ≠ .closeParen) :
    ReadsTree .primary (.between a b)
      (⟨.ok (.keyword .RANDOM), p₁⟩ :: ⟨.ok .openParen, p₂⟩ ::
        (las ++ ⟨.ok .comma, p₃⟩ :: (lbs ++ [⟨.ok .closeParen, p₄⟩]))) := by
  refine readsTree_primary rfl fun depth s rest deep pending _ lowers => ?_
  simp only [List.length_append, List.length_cons, List.length_nil] at deep
  simp only [List.cons_append, List.append_assoc, List.nil_append] at pending
  obtain ⟨⟨lowersA, knownA⟩, ⟨lowersB, knownB⟩, lt⟩ := lowers
  obtain ⟨x, hx⟩ := knownA.exists_expr?
  obtain ⟨y, hy⟩ := knownB.exists_expr?
  obtain ⟨low, knownA, byteA⟩ := knownA
  obtain ⟨high, knownB, byteB⟩ := knownB
  have shortA : las.length ≤ depth := by omega
  have shortB : lbs.length ≤ depth := by omega
  obtain ⟨place, s₁, took₁, run₁⟩ := constantOver_tree (s := s.behind p₂
    (las ++ ⟨.ok .comma, p₃⟩ :: (lbs ++ ⟨.ok .closeParen, p₄⟩ :: rest))) ha hx shortA rfl
    (.comma p₃ _) lowersA
  have same₁ : s₁.symbols.value? = s.symbols.value? := took₁.value?
  obtain ⟨place', s₂, took₂, run₂⟩ := constantOver_tree
    (s := s₁.behind p₃ (lbs ++ ⟨.ok .closeParen, p₄⟩ :: rest)) hb (same₁ ▸ hy) shortB rfl
    (.closeParen p₄ rest) (same₁ ▸ lowersB)
  have same : s₂.symbols.value? = s.symbols.value? := took₂.value?.trans took₁.value?
  have first := foldNow_known (s := s₂.behind p₄ rest) (same ▸ hx) (same ▸ knownA) byteA place
  have second := foldNow_known (s := s₂.behind p₄ rest) (same ▸ hy) (same ▸ knownB) byteB place'
  have opened : (s.behind p₂ (las ++ ⟨.ok .comma, p₃⟩ :: (lbs ++ ⟨.ok .closeParen, p₄⟩ :: rest))
      ).pending = ⟨.ok tok, p⟩ :: (ls' ++ ⟨.ok .comma, p₃⟩ ::
        (lbs ++ ⟨.ok .closeParen, p₄⟩ :: rest)) := by rw [head]; rfl
  refine ⟨s₂.behind p₄ rest, (took₁.behind_trans.trans took₂.behind_trans).trans_behind, ?_⟩
  rw [Tree.field_of_known? knownA, Tree.field_of_known? knownB] at lt
  change (expect _ _ >>= _) s = _
  rw [bind_of_done (expect_token _ pending), bind_of_done (accept_of_ne opened ne),
    if_neg Bool.false_ne_true, bind_of_done run₁, bind_of_done (accept_token took₁.pending),
    if_pos rfl, bind_of_done run₂, closeParen, bind_of_done (expect_token _ took₂.pending),
    bind_of_done lastSeen_apply, randomBetween, bind_of_done first, bind_of_done second]
  dsimp only
  rw [if_pos lt, Tree.value_of_expr?_none rfl, Tree.code, Tree.field_of_known? knownA,
    Tree.field_of_known? knownB]
  rfl

/-! ### Attributes -/

/-- What the fields of an attribute or of a mask are called, and their greatest values. -/
theorem fields_eq (mask : Bool) : (if mask then maskFields else attributeFields) =
    [("ink", greatestColour mask), ("paper", greatestColour mask), ("bright", 1),
      ("flash", 1)] := by
  cases mask <;> rfl

/-- A part of an attribute. -/
theorem fieldValue_part {e : Expr} {greatest : UInt16} (he : t.expr? s.symbols.value? = some e)
    (h : t.IsPart s.symbols.value? greatest) (name : String) (place : Location) :
    fieldValue name greatest ⟨e, place⟩ s = .done (t.field s.symbols.value?) s := by
  obtain ⟨⟨v, known, byte⟩, le⟩ := h
  rw [Tree.field_of_known? known] at le ⊢
  rw [fieldValue, bind_of_done (foldNow_known he known byte place)]
  dsimp only
  rw [if_pos le]
  rfl

/-- A part with the reading of its constant. -/
theorem fieldsOver_part {greatest : UInt16} (h : ReadsTree .bitOr t ls) (deep : ls.length ≤ depth)
    (pending : s.pending = ls ++ rest) (stop : Next Level.bitOr.stops rest)
    (lowers : t.Lowers s.symbols.value? ∧ t.IsPart s.symbols.value? greatest) (name : String) :
    ∃ s', s.Took t.mentions rest s' ∧
      (constantOver (primary depth) >>= fieldValue name greatest) s =
        .done (t.field s.symbols.value?) s' := by
  obtain ⟨e, he⟩ := lowers.2.1.exists_expr?
  obtain ⟨place, s', took, run⟩ := constantOver_tree h he deep pending stop lowers.1
  have same : s'.symbols.value? = s.symbols.value? := took.value?
  have part := fieldValue_part (s := s') (same ▸ he) (same ▸ lowers.2) name place
  rw [same] at part
  exact ⟨s', took, by rw [bind_of_done run, part]⟩

theorem fieldsOver_cons {operand : Parser (Located Value)} {name : String} {greatest v : UInt16}
    {field : String × UInt16} {fields : List (String × UInt16)}
    (run : (constantOver operand >>= fieldValue name greatest) s = .done v s')
    (pending : s'.pending = ⟨.ok .comma, p⟩ :: rest) :
    fieldsOver operand ((name, greatest) :: field :: fields) s =
      (fieldsOver operand (field :: fields) >>= fun vs => pure (v :: vs)) (s'.behind p rest) := by
  obtain ⟨e, s₁, first, second⟩ := bind_eq_done.mp run
  rw [fieldsOver, bind_of_done first, bind_of_done second, if_neg (by simp), comma,
    bind_of_done (expect_token _ pending)]

theorem fieldsOver_last {operand : Parser (Located Value)} {name : String} {greatest v : UInt16}
    (run : (constantOver operand >>= fieldValue name greatest) s = .done v s') :
    fieldsOver operand [(name, greatest)] s = .done [v] s' := by
  obtain ⟨e, s₁, first, second⟩ := bind_eq_done.mp run
  rw [fieldsOver, bind_of_done first, bind_of_done second]
  rfl

theorem readsTree_colours (mask : Bool) (p₁ p₂ p₃ p₄ p₅ p₆ : Location) {c d : Tree}
    {lcs lds : List Lexeme} (ha : ReadsTree .bitOr a las) (hb : ReadsTree .bitOr b lbs)
    (hc : ReadsTree .bitOr c lcs) (hd : ReadsTree .bitOr d lds) :
    ReadsTree .primary (.colours mask a b c d)
      (⟨.ok (.keyword (attributeKeyword mask)), p₁⟩ :: ⟨.ok .openParen, p₂⟩ ::
        (las ++ ⟨.ok .comma, p₃⟩ :: (lbs ++ ⟨.ok .comma, p₄⟩ :: (lcs ++ ⟨.ok .comma, p₅⟩ ::
          (lds ++ [⟨.ok .closeParen, p₆⟩]))))) := by
  refine readsTree_primary rfl fun depth s rest deep pending _ lowers => ?_
  simp only [List.length_append, List.length_cons, List.length_nil] at deep
  simp only [List.cons_append, List.append_assoc, List.nil_append] at pending
  obtain ⟨lowersA, lowersB, lowersC, lowersD⟩ := lowers
  have shortA : las.length ≤ depth := by omega
  have shortB : lbs.length ≤ depth := by omega
  have shortC : lcs.length ≤ depth := by omega
  have shortD : lds.length ≤ depth := by omega
  obtain ⟨s₁, took₁, run₁⟩ := fieldsOver_part (s := s.behind p₂ _) ha shortA rfl
    (.comma p₃ _) lowersA "ink"
  have same₁ : s₁.symbols.value? = s.symbols.value? := took₁.value?
  obtain ⟨s₂, took₂, run₂⟩ := fieldsOver_part (s := s₁.behind p₃ _) hb shortB rfl
    (.comma p₄ _) (same₁ ▸ lowersB) "paper"
  have same₂ : s₂.symbols.value? = s.symbols.value? := took₂.value?.trans same₁
  obtain ⟨s₃, took₃, run₃⟩ := fieldsOver_part (s := s₂.behind p₄ _) hc shortC rfl
    (.comma p₅ _) (same₂ ▸ lowersC) "bright"
  have same₃ : s₃.symbols.value? = s.symbols.value? := took₃.value?.trans same₂
  obtain ⟨s₄, took₄, run₄⟩ := fieldsOver_part (s := s₃.behind p₅ _) hd shortD rfl
    (.closeParen p₆ rest) (same₃ ▸ lowersD) "flash"
  rw [State.behind_symbols] at run₁ run₂ run₃ run₄
  rw [same₁] at run₂
  rw [same₂] at run₃
  rw [same₃] at run₄
  have fields : fieldsOver (primary depth) (if mask then maskFields else attributeFields)
      (s.behind p₂ (las ++ ⟨.ok .comma, p₃⟩ :: (lbs ++ ⟨.ok .comma, p₄⟩ ::
        (lcs ++ ⟨.ok .comma, p₅⟩ :: (lds ++ ⟨.ok .closeParen, p₆⟩ :: rest))))) =
      .done [a.field s.symbols.value?, b.field s.symbols.value?, c.field s.symbols.value?,
        d.field s.symbols.value?] s₄ := by
    rw [fields_eq, fieldsOver_cons run₁ took₁.pending, bind_apply,
      fieldsOver_cons run₂ took₂.pending, bind_apply, fieldsOver_cons run₃ took₃.pending,
      bind_apply, fieldsOver_last run₄]
    rfl
  refine ⟨s₄.behind p₆ rest, (took₁.behind_trans.trans (took₂.behind_trans.trans
    (took₃.behind_trans.trans took₄.behind_trans))).trans_behind, ?_⟩
  have reads : primaryFrom (primary depth) ⟨.keyword (attributeKeyword mask), p₁⟩ =
      attributeOver (primary depth) mask := by
    cases mask <;> rfl
  rw [reads, attributeOver, openParen, bind_of_done (expect_token _ pending), bind_of_done fields,
    closeParen, bind_of_done (expect_token _ took₄.pending)]
  cases mask <;> rfl

/-! ### Two values -/

theorem primaryFrom_pairing (operand : Parser (Located Value)) (f : Pairing) (p : Location) :
    primaryFrom operand ⟨.keyword f.keyword, p⟩ = (do
      openParen
      let lhs ← levelOver operand .or
      comma
      let rhs ← levelOver operand .or
      closeParen
      let left ← push lhs
      let right ← push rhs
      return .runtime (left ++ right ++ [.op f.opcode])) := by
  cases f <;> rfl

theorem readsTree_pairing (f : Pairing) (p₁ p₂ p₃ p₄ : Location) (ha : ReadsTree .or a las)
    (hb : ReadsTree .or b lbs) :
    ReadsTree .primary (.pairing f a b)
      (⟨.ok (.keyword f.keyword), p₁⟩ :: ⟨.ok .openParen, p₂⟩ ::
        (las ++ ⟨.ok .comma, p₃⟩ :: (lbs ++ [⟨.ok .closeParen, p₄⟩]))) := by
  refine readsTree_primary rfl fun depth s rest deep pending _ lowers => ?_
  simp only [List.length_append, List.length_cons, List.length_nil] at deep
  simp only [List.cons_append, List.append_assoc, List.nil_append] at pending
  obtain ⟨⟨lowersA, pushA⟩, lowersB, pushB⟩ := lowers
  obtain ⟨place, s₁, took₁, run₁⟩ := ha depth (s.behind p₂ _)
    (⟨.ok .comma, p₃⟩ :: (lbs ++ ⟨.ok .closeParen, p₄⟩ :: rest)) (by omega) rfl
    (.comma p₃ _) lowersA
  obtain ⟨place', s₂, took₂, run₂⟩ := hb depth (s₁.behind p₃ _) (⟨.ok .closeParen, p₄⟩ :: rest)
    (by omega) rfl (.closeParen p₄ rest) (by simpa [took₁.value?] using lowersB)
  have same : s₂.symbols.value? = s.symbols.value? := took₂.value?.trans took₁.value?
  have first := push_value (s := s₂.behind p₄ rest) (same ▸ pushA) place
  have second := push_value (s := s₂.behind p₄ rest) (same ▸ pushB) place'
  rw [State.behind_symbols] at run₁
  rw [State.behind_symbols, took₁.value?, State.behind_symbols] at run₂
  rw [State.behind_symbols, same] at first second
  refine ⟨s₂.behind p₄ rest,
    (took₁.behind_trans.trans took₂.behind_trans).trans_behind, ?_⟩
  rw [primaryFrom_pairing, openParen, comma, closeParen, bind_of_done (expect_token _ pending),
    bind_of_done run₁, bind_of_done (expect_token _ took₁.pending), bind_of_done run₂,
    bind_of_done (expect_token _ took₂.pending), bind_of_done first, bind_of_done second]
  rfl

/-! ### Variables -/

theorem variableFrom_base (base : Located VariableBase) (s : State) (rest : List Lexeme) :
    ∃ s', s.Took (Tree.mentions.ofBase base) rest s' ∧
      variableFrom ⟨variableToken base.value, base.place⟩ (s.behind base.place rest) =
        .done ⟨base.value, 0⟩ s' := by
  obtain ⟨base | name, place⟩ := base
  · have small : base.toNat ≤ 255 := Nat.le_of_lt_succ base.toNat_lt
    refine ⟨s.behind place rest, .behind _ _ _, ?_⟩
    simp [variableFrom, variableToken, small, pure_apply, Variable.slot]
  · exact ⟨_, State.Took.behind_trans (.mention rfl _), rfl⟩

theorem isSeparator_variableToken (base : VariableBase) :
    isSeparator (variableToken base) = false := by
  cases base <;> rfl

theorem variableOver_base {operand : Parser (Located Value)} (base : Located VariableBase)
    (pending : s.pending = ⟨.ok (variableToken base.value), base.place⟩ :: rest)
    (stop : Next Level.primary.stops rest) :
    ∃ s', s.Took (Tree.mentions.ofBase base) rest s' ∧
      variableOver operand s = .done ⟨base.value, 0⟩ s' := by
  obtain ⟨s', took, run⟩ := variableFrom_base base s rest
  obtain ⟨o, hpeek, ne⟩ := peek_stops (s := s') (took.pending ▸ stop)
  refine ⟨s', took, ?_⟩
  rw [variableOver, bind_of_done (next_token _ pending (isSeparator_variableToken _)),
    bind_of_done run, bind_of_done hpeek, if_neg ne]
  rfl

theorem variableOver_displaced {access : Access} (base : Located VariableBase)
    (h : ReadsTree .bitOr index ls)
    (deep : ls.length ≤ depth)
    (pending : s.pending = ⟨.ok (variableToken base.value), base.place⟩ ::
      ⟨.ok .openSquare, p⟩ :: (ls ++ ⟨.ok .closeSquare, q⟩ :: rest))
    (lowers : (Tree.displaced access base index).Lowers s.symbols.value?) :
    ∃ s', s.Took (Tree.mentions.ofBase base ++ index.mentions) rest s' ∧
      variableOver (primary depth) s =
        .done (Tree.displace s.symbols.value? ⟨base.value, 0⟩ index) s' := by
  obtain ⟨lowers, knownByte⟩ := lowers
  obtain ⟨e, he⟩ := knownByte.exists_expr?
  obtain ⟨v, known, byte⟩ := knownByte
  obtain ⟨s₁, took₁, run₁⟩ := variableFrom_base base s
    (⟨.ok .openSquare, p⟩ :: (ls ++ ⟨.ok .closeSquare, q⟩ :: rest))
  have same₁ : s₁.symbols.value? = s.symbols.value? := took₁.value?
  obtain ⟨s₂, took₂, run₂⟩ :=
    indexOver_brackets (s := s₁) h (same₁ ▸ he) deep took₁.pending (same₁ ▸ lowers)
  have same : s₂.symbols.value? = s.symbols.value? := took₂.value?.trans same₁
  have folded := foldNow_known (s := s₂) (same ▸ he) (same ▸ known) byte s₂.lastSeen
  refine ⟨s₂, took₁.trans took₂, ?_⟩
  rw [variableOver, bind_of_done (next_token _ pending (isSeparator_variableToken _)),
    bind_of_done run₁, bind_of_done (peek_token took₁.pending), if_pos rfl, bind_of_done run₂,
    bind_of_done lastSeen_apply, bind_of_done folded, Tree.displace, known]
  rfl

/-- A variable behind the signs that say what is asked of it. -/
theorem readsTree_access {access : Access} {signs tail : List Lexeme} {base : VariableBase}
    {v : (String → Option Int64) → Variable} (hsigns : access.Written signs)
    (expr : ∀ lookup, t.expr? lookup = none)
    (code : ∀ lookup, t.code lookup = [.code access.opcode [.variable (v lookup)]])
    (h : ∀ (depth : Nat) (s : State) (rest : List Lexeme), tail.length < depth →
      s.pending = ⟨.ok (variableToken base), p⟩ :: (tail ++ rest) →
      Next Level.primary.stops rest → t.Lowers s.symbols.value? →
      ∃ s', s.Took t.mentions rest s' ∧
        variableOver (primary depth) s = .done (v s.symbols.value?) s') :
    ReadsTree .primary t (signs ++ ⟨.ok (variableToken base), p⟩ :: tail) := by
  have value (lookup : String → Option Int64) :
      t.value lookup = .runtime [.code access.opcode [.variable (v lookup)]] := by
    rw [Tree.value_of_expr?_none (expr lookup), code]
  cases hsigns with
  | content p₁ =>
    refine readsTree_primary rfl fun depth s rest deep pending stop lowers => ?_
    obtain ⟨s', took, run⟩ := h depth s rest deep pending stop lowers
    refine ⟨s', took, ?_⟩
    change (peek >>= _) s = _
    rw [bind_of_done (peek_token pending), value]
    cases base <;>
    · dsimp only [variableToken]
      rw [bind_of_done run]
      rfl
  | number p₁ p₂ =>
    simp only [List.cons_append, List.nil_append]
    refine readsTree_primary rfl fun depth s rest deep pending stop lowers => ?_
    simp only [List.cons_append] at pending
    obtain ⟨s', took, run⟩ :=
      h depth (s.behind p₂ _) rest (Nat.lt_of_succ_le (Nat.le_of_succ_le deep)) rfl stop lowers
    refine ⟨s', took.behind_trans, ?_⟩
    change (peek >>= _) s = _
    rw [bind_of_done (peek_token pending), value]
    dsimp only
    rw [bind_of_done (advance_token pending), bind_of_done run]
    rfl

theorem readsTree_reference {access : Access} {signs : List Lexeme} (base : Located VariableBase)
    (hsigns : access.Written signs) :
    ReadsTree .primary (.reference access base)
      (signs ++ [⟨.ok (variableToken base.value), base.place⟩]) := by
  refine readsTree_access (v := fun _ => ⟨base.value, 0⟩) hsigns (fun _ => rfl) (fun _ => rfl) ?_
  exact fun _ s rest _ pending stop _ => variableOver_base base pending stop

theorem readsTree_displaced {access : Access} {signs : List Lexeme} (base : Located VariableBase)
    (p q : Location) (hsigns : access.Written signs) (h : ReadsTree .bitOr index ls) :
    ReadsTree .primary (.displaced access base index)
      (signs ++ ⟨.ok (variableToken base.value), base.place⟩ ::
        ⟨.ok .openSquare, p⟩ :: (ls ++ [⟨.ok .closeSquare, q⟩])) := by
  refine readsTree_access (v := fun lookup => Tree.displace lookup ⟨base.value, 0⟩ index) hsigns
    (fun _ => rfl) (fun _ => rfl) fun depth s rest deep pending _ lowers => ?_
  have short : ls.length ≤ depth := by
    simp at deep
    omega
  simp only [List.cons_append, List.append_assoc, List.nil_append] at pending
  exact variableOver_displaced base h short pending lowers

end Primaries

/-! ## All levels -/

/-- A sign in front of an operand stands for its own level, and no expression begins with a
bracket that closes or with a curly one. -/
theorem head_of_written (h : Written level t ls) :
    ∃ tok place ls', ls = ⟨.ok tok, place⟩ :: ls' ∧ (tok ≠ .closeParen ∧ tok ≠ .openCurly) ∧
      (Level.not.rank < level.rank → tok ≠ .keyword .NOT) ∧
      (Level.complement.rank < level.rank → tok ≠ .bitNot) := by
  induction h with
  | number | constant | indirect | element | between | parentheses =>
    exact ⟨_, _, _, rfl, ⟨nofun, nofun⟩, fun _ => nofun, fun _ => nofun⟩
  | query q => exact ⟨_, _, _, rfl, ⟨nofun, nofun⟩, fun _ => by cases q <;> nofun, fun _ => nofun⟩
  | limited f => exact ⟨_, _, _, rfl, ⟨nofun, nofun⟩, fun _ => by cases f <;> nofun, fun _ => nofun⟩
  | colours mask =>
    exact ⟨_, _, _, rfl, ⟨nofun, nofun⟩, fun _ => by cases mask <;> nofun, fun _ => nofun⟩
  | pairing f => exact ⟨_, _, _, rfl, ⟨nofun, nofun⟩, fun _ => by cases f <;> nofun, fun _ => nofun⟩
  | reference _ hsigns | displaced _ _ _ hsigns =>
    cases hsigns <;> exact ⟨_, _, _, rfl, ⟨nofun, nofun⟩, fun _ => nofun, fun _ => nofun⟩
  | complement => exact ⟨_, _, _, rfl, ⟨nofun, nofun⟩, fun _ => nofun, nofun⟩
  | negate => exact ⟨_, _, _, rfl, ⟨nofun, nofun⟩, nofun, nofun⟩
  | compare op p _ _ ih =>
    obtain ⟨tok, place, ls', rfl, begins, notNot, notComplement⟩ := ih
    exact ⟨tok, place, _, rfl, begins, fun _ => notNot (by decide), nofun⟩
  | binary op p _ _ ih =>
    obtain ⟨tok, place, ls', rfl, begins, notNot, notComplement⟩ := ih
    exact ⟨tok, place, _, rfl, begins, notNot, notComplement⟩
  | @tighter level _ _ _ ih =>
    obtain ⟨tok, place, ls', rfl, begins, notNot, notComplement⟩ := ih
    have le : level.rank ≤ level.tighter.rank := by cases level <;> decide
    exact ⟨tok, place, ls', rfl, begins, fun lt => notNot (Nat.lt_of_lt_of_le lt le),
      fun lt => notComplement (Nat.lt_of_lt_of_le lt le)⟩

theorem opens_of_written (h : Written level t ls) : Opens level t ls := by
  induction h with
  | number n p => exact (readsTree_number n p).opens rfl
  | constant name => exact (readsTree_constant name).opens rfl
  | reference base hsigns => exact (readsTree_reference base hsigns).opens rfl
  | displaced base p q hsigns _ ih => exact (readsTree_displaced base p q hsigns ih.reads).opens rfl
  | indirect p q r _ ih => exact (readsTree_indirect p q r ih.reads).opens rfl
  | element array p q _ ih => exact (readsTree_element array p q ih.reads).opens rfl
  | query q p₁ p₂ p₃ => exact (readsTree_query q p₁ p₂ p₃).opens rfl
  | limited f p₁ p₂ p₃ h ih =>
    obtain ⟨tok, place, ls', first, ⟨notClosed, -⟩, -⟩ := head_of_written h
    exact (readsTree_limited f p₁ p₂ p₃ ih.reads first notClosed).opens rfl
  | between p₁ p₂ p₃ p₄ ha _ iha ihb =>
    obtain ⟨tok, place, ls', first, ⟨notClosed, -⟩, -⟩ := head_of_written ha
    exact (readsTree_between p₁ p₂ p₃ p₄ iha.reads ihb.reads first notClosed).opens rfl
  | colours mask p₁ p₂ p₃ p₄ p₅ p₆ _ _ _ _ iha ihb ihc ihd =>
    exact (readsTree_colours mask p₁ p₂ p₃ p₄ p₅ p₆ iha.reads ihb.reads ihc.reads
      ihd.reads).opens rfl
  | pairing f p₁ p₂ p₃ p₄ _ _ iha ihb =>
    exact (readsTree_pairing f p₁ p₂ p₃ p₄ iha.reads ihb.reads).opens rfl
  | parentheses p q _ ih => exact (readsTree_parentheses p q ih.reads).opens rfl
  | complement p _ ih => exact (readsTree_complement p ih.reads).opens rfl
  | negate p _ ih => exact (readsTree_negate p ih.reads).opens rfl
  | compare op p _ _ iha ihb => exact (readsTree_compare op p iha.reads ihb.reads).opens rfl
  | binary op p _ _ iha ihb => exact opens_binary p iha ihb.reads
  | @tighter level _ _ h ih =>
    obtain ⟨tok, place, ls', first, -, notNot, notComplement⟩ := head_of_written h
    cases level with
    | not => exact (ih.reads.negated first (notNot (by decide))).opens rfl
    | comparison => exact ih.reads.compared.opens rfl
    | complement => exact (ih.reads.complemented first (notComplement (by decide))).opens rfl
    | primary => exact ih
    | _ => exact ih.reads.opens_chain rfl

theorem stops_or_of_goesOn {tok : Token} (h : goesOn tok = false) : Level.or.stops tok := by
  simp only [goesOn, Bool.or_eq_false_iff, Option.isSome_eq_false_iff, Option.isNone_iff_eq_none,
    decide_eq_false_iff_not] at h
  exact ⟨h.2, fun l hl => by simp [h.1] at hl⟩

theorem expression_of_written (written : Written .or t ls) (pending : s.pending = ls ++ rest)
    (ends : Next (goesOn · = false) rest) (lowers : t.Lowers s.symbols.value?) :
    ∃ place s', s.Took t.mentions rest s' ∧
      expression s = .done ⟨t.value s.symbols.value?, place⟩ s' := by
  have deep : ls.length ≤ s.pending.length + 1 := by
    simp only [pending, List.length_append]
    omega
  exact (opens_of_written written).reads (s.pending.length + 1) s rest deep pending
    (ends.mono fun _ => stops_or_of_goesOn) lowers

/-- Tokens that spell a tree are read as that tree if nothing behind them goes on with it. They are
all that is read, all that changes are uses of the names among them, and what is pushed is the code
of the tree. -/
theorem expression_reads_tree (written : Written .or t ls) (pending : s.pending = ls ++ rest)
    (ends : Next (goesOn · = false) rest) (lowers : t.Lowers s.symbols.value?)
    (pushable : t.Pushable s.symbols.value?) :
    ∃ v s', expression s = .done v s' ∧ s.Took t.mentions rest s' ∧
      v.value = t.value s.symbols.value? ∧
      push v s' = .done (t.code s.symbols.value?) s' := by
  obtain ⟨place, s', took, run⟩ := expression_of_written written pending ends lowers
  have pushed := push_value (s := s') (took.value? ▸ pushable) place
  rw [took.value?] at pushed
  exact ⟨_, s', run, took, rfl, pushed⟩

end Parser

/-! ### An expression with most of it -/

/-- `2 * (LIMIT + 1)` -/
def limitProduct : Tree :=
  .binary .mul (.number 2) (.binary .add (.constant ⟨"LIMIT", .nowhere⟩) (.number 1))

/-- `@hp - 2 * (LIMIT + 1)` -/
def limitDifference : Tree :=
  .binary .sub (.reference .content ⟨.named "hp", .nowhere⟩) limitProduct

/-- `NOT @hp - 2 * (LIMIT + 1) >= 3 OR ~@(7) = 4` -/
def limitTree : Tree :=
  .binary .or (.negate (.compare .greaterEqual limitDifference (.number 3)))
    (.compare .equal (.complement (.indirect (.number 7))) (.number 4))

/-- The tokens of `limitTree`. -/
def limitTokens : List Lexeme :=
  [.keyword .NOT, .indirection, .identifier "hp", .minus, .number 2, .times, .openParen,
    .identifier "LIMIT", .plus, .number 1, .closeParen, .greaterEqual, .number 3, .keyword .OR,
    .bitNot, .indirection, .openParen, .number 7, .closeParen, .equals, .number 4].map
    (⟨.ok ·, .nowhere⟩)

/-- What needs no parentheses anywhere can be written at every level. -/
theorem Written.of_primary {t : Tree} {ls : List Lexeme} (h : Written .primary t ls)
    (level : Level) : Written level t ls := by
  cases level <;> repeat first | exact h | refine .tighter ?_

theorem written_limitTokens : Written .or limitTree limitTokens := by
  have number (n : Nat) := Written.of_primary (.number n .nowhere)
  have sum := Written.binary .add .nowhere (.of_primary (.constant ⟨"LIMIT", .nowhere⟩) _)
    (number 1 _)
  have product := Written.binary .mul .nowhere (number 2 _)
    (.of_primary (.parentheses .nowhere .nowhere (.tighter (.tighter (.tighter (.tighter
      (.tighter (.tighter (.tighter sum)))))))) _)
  have difference := Written.binary .sub .nowhere
    (.of_primary (.reference ⟨.named "hp", .nowhere⟩ (.content .nowhere)) _) product
  have negated := Written.negate .nowhere (.tighter (.compare .greaterEqual .nowhere
    (.tighter (.tighter (.tighter difference))) (number 3 _)))
  have indirect := Written.of_primary
    (.indirect .nowhere .nowhere .nowhere (number 7 .or)) .complement
  have compared := Written.compare .equal .nowhere
    (.tighter (.tighter (.tighter (.tighter (.tighter (.complement .nowhere indirect))))))
    (number 4 _)
  exact .binary .or .nowhere (.tighter (.tighter negated)) (.tighter (.tighter compared))

theorem lowers_limitTree : limitTree.Lowers Symbol.Table.empty.value? := by
  have runtime {t : Tree} (h : t.expr? Symbol.Table.empty.value? = none) :
      t.Pushable Symbol.Table.empty.value? := fun e he => by simp [h] at he
  have byte (n : Nat) (h : Tree.IsByte (Int64.ofNat n)) :
      (Tree.number n).Pushable Symbol.Table.empty.value? := by
    rintro e ⟨⟩
    exact .inl ⟨Int64.ofNat n, rfl, h⟩
  have product : limitProduct.Lowers Symbol.Table.empty.value? :=
    ⟨⟨trivial, ⟨trivial, trivial⟩, .inl rfl⟩, .inl rfl⟩
  have undeclared : limitProduct.Pushable Symbol.Table.empty.value? := by
    rintro e ⟨⟩
    exact .inr ⟨"LIMIT", rfl⟩
  have difference : limitDifference.Lowers Symbol.Table.empty.value? :=
    ⟨⟨trivial, product⟩, .inr ⟨rfl, runtime rfl, undeclared⟩⟩
  exact ⟨⟨⟨⟨⟨difference, runtime rfl⟩, trivial, byte 3 (by decide)⟩, runtime rfl⟩,
    ⟨⟨trivial, byte 7 (by decide)⟩, runtime rfl⟩, trivial, byte 4 (by decide)⟩,
    .inr ⟨rfl, runtime rfl, runtime rfl⟩⟩

theorem expression_reads_tree_limitTree :
    Written .or limitTree limitTokens ∧ limitTree.Lowers Symbol.Table.empty.value? ∧
      ∃ v s', Parser.expression (State.start (limitTokens ++ [⟨.ok .colon, .nowhere⟩])) =
          .done v s' ∧
        s'.pending = [⟨.ok .colon, .nowhere⟩] ∧
        Parser.push v s' = .done
          [.code .PUSH_I [.variable (.named "hp")],
            .code .PUSH_D [.constant
              ⟨[.value 2, .named "LIMIT", .value 1, .apply .add, .apply .mul]⟩ .byte],
            .op .SUB, .code .PUSH_D [.literal 3], .op .CP_ME, .op .NOT, .code .PUSH_D [.literal 7],
            .op .POP_PUSH_I, .op .NOT_B, .code .PUSH_D [.literal 4], .op .CP_EQ, .op .OR] s' := by
  refine ⟨written_limitTokens, lowers_limitTree, ?_⟩
  obtain ⟨v, s', run, took, -, pushed⟩ := Parser.expression_reads_tree
    (s := State.start (limitTokens ++ [⟨.ok .colon, .nowhere⟩])) written_limitTokens rfl
    (.inr ⟨.colon, .nowhere, [], rfl, rfl⟩) lowers_limitTree (by rintro e ⟨⟩)
  exact ⟨v, s', run, took.pending, pushed⟩

end Gamebook.Grammar
