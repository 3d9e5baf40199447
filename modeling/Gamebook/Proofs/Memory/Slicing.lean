import Mathlib.Logic.Relation
import Gamebook.Proofs.Memory.Places

/-!
# Laying out a text in rounds

A text is laid out in rounds. In each of them what is left of it either fits, or its bank is left:
with as much of the text as there is room for, if it may be cut and there is room for a byte of it,
and as it is otherwise (`Unfinished.leave`). In a round in which the bank is left as it is, the text
does not get shorter; but then the next bank has room for a part of it, or the round is the last
one. So the rounds come to an end (`Unfinished.exists_run`).

If every bank has room for a part of a text, only the first can be left as it is. All others are
left full, and nothing but the number of banks can keep the text from being finished:
`slicing_progresses`.
-/

namespace Gamebook.Memory

/-! ## Plans -/

/-- The instruction a piece holds, if it is no jump. -/
def Piece.item? : Piece → Option Instruction
  | .item i => some i
  | .bridge => none

namespace Plan

variable {o : Options} {p q : Plan} {size : Nat}

/-- The instructions and parts of texts laid out, in order. -/
def items (p : Plan) : List Instruction := p.banks.flatten.filterMap Piece.item?

@[simp] theorem offset_push (p : Plan) (i : Instruction) :
    (p.push i).offset = p.offset + i.size := rfl

/-- A text that is cut fills its bank. -/
theorem offset_cut {rest : List UInt8} (long : ¬ p.offset + (rest.length + 2) ≤ p.usable o)
    (roomy : 3 ≤ p.room o) :
    (p.push (.text (rest.take (p.room o - 2)))).offset = p.usable o := by
  have room : p.room o = p.usable o - p.offset := rfl
  rw [offset_push, Instruction.size, List.length_take]
  omega

/-- The jump goes right behind a text at the end of its bank. -/
theorem closed_turn_push_text (p : Plan) (t : List UInt8) :
    (p.push (.text t)).turn.closed = p.closed ++ [(p.push (.text t)).current ++ [.bridge]] := by
  simp [turn, push, Piece.isLabel]

theorem items_push (p : Plan) (i : Instruction) : (p.push i).items = p.items ++ [i] := by
  simp [items, banks, push, Piece.item?]

theorem items_turn (p : Plan) : p.turn.items = p.items := by
  have split : (p.current.reverse.dropWhile Piece.isLabel).reverse ++
      (p.current.reverse.takeWhile Piece.isLabel).reverse = p.current := by
    rw [← List.reverse_append, List.takeWhile_append_dropWhile, List.reverse_reverse]
  conv_rhs => rw [items, banks, ← split]
  simp [items, banks, turn, moved, List.filterMap_cons, Piece.item?]

theorem offset_switch (h : p.switch o size = .ok q) : q.offset = 0 := by
  obtain ⟨⟨-, rfl⟩ | ⟨zero, rfl⟩, -⟩ := switch_eq_ok h
  · rfl
  · exact zero

theorem items_switch (h : p.switch o size = .ok q) : q.items = p.items := by
  obtain ⟨⟨-, rfl⟩ | ⟨-, rfl⟩, -⟩ := switch_eq_ok h
  · exact p.items_turn
  · rfl

/-- A bank that is still empty has room for a part of a text, if every bank has. -/
theorem three_le_room (wide : ∀ k, 3 ≤ (o.window k).usable) (zero : p.offset = 0) :
    3 ≤ p.room o := by
  rw [room, zero]
  exact wide _

end Plan

theorem Options.three_le_usable {o : Options} (wide : ∀ w ∈ o.windows, 7 ≤ w.capacity) (k : Nat) :
    3 ≤ (o.window k).usable := by
  have : 7 ≤ (o.window k).capacity := by
    unfold Options.window
    cases h : o.windows[min k (o.windows.length - 1)]? with
    | none => decide
    | some w => exact wide w (List.mem_of_getElem? h)
  unfold Window.usable bridgeSize
  omega

/-! ## Rounds -/

/-- A text of which some part may be laid out already, and what is left of it. -/
structure Unfinished where
  plan : Plan
  rest : List UInt8

namespace Unfinished

variable {o : Options} {s t : Unfinished}

/-- What is left fits in the bank. -/
def Fits (o : Options) (s : Unfinished) : Prop :=
  s.plan.offset + (s.rest.length + 2) ≤ s.plan.usable o

instance (o : Options) (s : Unfinished) : Decidable (s.Fits o) :=
  inferInstanceAs (Decidable (_ ≤ _))

/-- The text may be cut, and there is room for a part of it. -/
def Cuts (o : Options) (s : Unfinished) : Prop := o.sliceText = true ∧ 3 ≤ s.plan.room o

instance (o : Options) (s : Unfinished) : Decidable (s.Cuts o) :=
  inferInstanceAs (Decidable (_ ∧ _))

/-- What there is when the bank is left, before the jump to the next one. -/
def leave (o : Options) (s : Unfinished) : Unfinished :=
  if s.Cuts o then
    ⟨s.plan.push (.text (s.rest.take (s.plan.room o - 2))), s.rest.drop (s.plan.room o - 2)⟩
  else s

/-- How many bytes the next bank must have room for. -/
def demand (o : Options) (s : Unfinished) : Nat :=
  if s.Cuts o then 0 else if o.sliceText then 3 else s.rest.length + 2

/-- One round: the text is finished, or cannot be, or goes on. -/
def round (o : Options) (s : Unfinished) : Except Failure Plan ⊕ Unfinished :=
  if s.Fits o then .inl (.ok (s.plan.push (.text s.rest)))
  else
    match (s.leave o).plan.switch o (s.demand o) with
    | .error e => .inl (.error e)
    | .ok q => .inr ⟨q, (s.leave o).rest⟩

/-- What comes out within `n` rounds. -/
def run (o : Options) : Nat → Unfinished → Option (Except Failure Plan)
  | 0, _ => none
  | n + 1, s =>
    match s.round o with
    | .inl result => some result
    | .inr t => run o n t

/-- Rounds lead from one state to another. -/
def Reaches (o : Options) : Unfinished → Unfinished → Prop :=
  Relation.ReflTransGen fun s t => s.round o = .inr t

theorem leave_of_cuts (h : s.Cuts o) : s.leave o =
    ⟨s.plan.push (.text (s.rest.take (s.plan.room o - 2))), s.rest.drop (s.plan.room o - 2)⟩ :=
  if_pos h

theorem leave_of_not_cuts (h : ¬ s.Cuts o) : s.leave o = s := if_neg h

/-- All that a round that is not the last can do. -/
theorem round_eq_inr (h : s.round o = .inr t) :
    ¬ s.Fits o ∧ t.rest = (s.leave o).rest ∧
      (s.leave o).plan.switch o (s.demand o) = .ok t.plan := by
  unfold round at h
  split at h
  · cases h
  · next long =>
    cases switched : (s.leave o).plan.switch o (s.demand o) with
    | error e =>
      rw [switched] at h
      cases h
    | ok q =>
      rw [switched] at h
      obtain rfl := Sum.inr.inj h
      exact ⟨long, rfl, rfl⟩

theorem run_of_inl {result : Except Failure Plan} (n : Nat) (h : s.round o = .inl result) :
    run o (n + 1) s = some result := by
  rw [run, h]

theorem run_of_inr (n : Nat) (h : s.round o = .inr t) : run o (n + 1) s = run o n t := by
  rw [run, h]

theorem round_of_fits (h : s.Fits o) : s.round o = .inl (.ok (s.plan.push (.text s.rest))) :=
  if_pos h

theorem round_of_error {e : Failure} (long : ¬ s.Fits o)
    (h : (s.leave o).plan.switch o (s.demand o) = .error e) : s.round o = .inl (.error e) := by
  rw [round, if_neg long, h]

theorem round_of_ok {q : Plan} (long : ¬ s.Fits o)
    (h : (s.leave o).plan.switch o (s.demand o) = .ok q) :
    s.round o = .inr ⟨q, (s.leave o).rest⟩ := by
  rw [round, if_neg long, h]

theorem switch_of_cuts (h : s.Cuts o) : (s.leave o).plan.switch o (s.demand o) =
    (s.plan.push (.text (s.rest.take (s.plan.room o - 2)))).switch o 0 := by
  rw [leave_of_cuts h, demand, if_pos h]

theorem switch_of_cramped (sliced : o.sliceText = true) (h : ¬ s.Cuts o) :
    (s.leave o).plan.switch o (s.demand o) = s.plan.switch o 3 := by
  rw [leave_of_not_cuts h, demand, if_neg h, if_pos sliced]

theorem not_cuts_of_whole (whole : o.sliceText = false) : ¬ s.Cuts o :=
  fun h => Bool.false_ne_true (whole.symm.trans h.1)

theorem switch_of_whole (whole : o.sliceText = false) :
    (s.leave o).plan.switch o (s.demand o) = s.plan.switch o (s.rest.length + 2) := by
  have uncut : ¬ s.Cuts o := not_cuts_of_whole whole
  rw [leave_of_not_cuts uncut, demand, if_neg uncut, if_neg (by simp [whole])]

/-! ## The rounds come to an end -/

/-- The rounds of a text that may be cut. What gets less in every round is twice what is left of the
text, and one more if the bank has no room for a part of it. -/
theorem exists_run_of_sliced (sliced : o.sliceText = true) (p : Plan) (rest : List UInt8) :
    ∃ n ≤ 2 * rest.length + (if 3 ≤ p.room o then 1 else 2),
      run o n ⟨p, rest⟩ = some (p.placeSliced o rest) := by
  fun_induction Plan.placeSliced o p rest with
  | case1 p rest fits =>
    refine ⟨1, ?_, run_of_inl 0 (round_of_fits fits)⟩
    split <;> omega
  | case2 p rest long roomy _ e he =>
    have cuts : Cuts o ⟨p, rest⟩ := ⟨sliced, roomy⟩
    refine ⟨1, ?_, run_of_inl 0 (round_of_error long ((switch_of_cuts cuts).trans he))⟩
    split <;> omega
  | case3 p rest long roomy shorter q hq ih =>
    have cuts : Cuts o ⟨p, rest⟩ := ⟨sliced, roomy⟩
    have next := @round_of_ok o ⟨p, rest⟩ q long ((switch_of_cuts cuts).trans hq)
    obtain ⟨n, le, ends⟩ := ih
    refine ⟨n + 1, ?_, (run_of_inr n next).trans ?_⟩
    · rw [if_pos roomy]
      split at le <;> omega
    · rw [leave_of_cuts cuts]
      exact ends
  | case4 p rest long cramped e he =>
    have uncut : ¬ Cuts o ⟨p, rest⟩ := fun cuts => cramped cuts.2
    refine ⟨1, ?_, run_of_inl 0 (round_of_error long ((switch_of_cramped sliced uncut).trans he))⟩
    split <;> omega
  | case5 p rest long cramped q hq roomy ih =>
    have uncut : ¬ Cuts o ⟨p, rest⟩ := fun cuts => cramped cuts.2
    have next := @round_of_ok o ⟨p, rest⟩ q long ((switch_of_cramped sliced uncut).trans hq)
    obtain ⟨n, le, ends⟩ := ih
    refine ⟨n + 1, ?_, (run_of_inr n next).trans ?_⟩
    · -- the text is no shorter, but the bank that was asked for has room for a part of it
      rw [if_neg cramped]
      rw [if_pos roomy] at le
      omega
    · rw [leave_of_not_cuts uncut]
      exact ends

/-- A text that is not cut takes two rounds at most. -/
theorem run_of_whole (whole : o.sliceText = false) (p : Plan) (bytes : List UInt8) :
    run o 2 ⟨p, bytes⟩ = some (p.placeText o bytes) := by
  rw [Plan.placeText, whole, if_neg (by simp), Plan.makeRoom]
  by_cases fits : Fits o ⟨p, bytes⟩
  · rw [run_of_inl 1 (round_of_fits fits), if_neg (Nat.not_lt.mpr fits)]
    rfl
  · rw [if_pos (Nat.lt_of_not_le fits)]
    cases switched : p.switch o (bytes.length + 2) with
    | error e =>
      rw [run_of_inl 1 (round_of_error fits ((switch_of_whole whole).trans switched))]
      rfl
    | ok q =>
      have zero := Plan.offset_switch switched
      have room := (Plan.switch_eq_ok switched).2.2
      have next : Fits o ⟨q, bytes⟩ := by
        show q.offset + (bytes.length + 2) ≤ q.usable o
        omega
      rw [run_of_inr 1 (round_of_ok fits ((switch_of_whole whole).trans switched)),
        leave_of_not_cuts (not_cuts_of_whole whole), run_of_inl 0 (round_of_fits next)]
      rfl

/-- Whatever there is already, the rounds come to an end, with what laying out the text gives. -/
theorem exists_run (o : Options) (p : Plan) (bytes : List UInt8) :
    ∃ n ≤ 2 * bytes.length + 2, run o n ⟨p, bytes⟩ = some (p.placeText o bytes) := by
  cases sliced : o.sliceText with
  | false => exact ⟨2, by omega, run_of_whole sliced p bytes⟩
  | true =>
    obtain ⟨n, le, ends⟩ := exists_run_of_sliced sliced p bytes
    refine ⟨n, by split at le <;> omega, ?_⟩
    rw [Plan.placeText, if_pos sliced]
    exact ends

/-! ## What happens on the way -/

/-- Every round but the first starts at the beginning of a bank. -/
theorem Reaches.eq_or_offset (h : Reaches o s t) : t = s ∨ t.plan.offset = 0 := by
  cases h with
  | refl => exact .inl rfl
  | tail _ last =>
    obtain ⟨-, -, switched⟩ := round_eq_inr last
    exact .inr (Plan.offset_switch switched)

/-- A bank that is left when part of the text is laid out is full. -/
theorem Reaches.filled (sliced : o.sliceText = true) (wide : ∀ k, 3 ≤ (o.window k).usable)
    (h : Reaches o s t) (long : ¬ t.Fits o) (begun : (t.leave o).rest ≠ s.rest) :
    (t.leave o).plan.offset = t.plan.usable o ∧ (t.leave o).plan.turn.closed =
      t.plan.closed ++ [(t.leave o).plan.current ++ [.bridge]] := by
  have cuts : t.Cuts o := by
    by_contra uncut
    rw [leave_of_not_cuts uncut] at begun
    rcases h.eq_or_offset with rfl | zero
    · exact begun rfl
    · exact uncut ⟨sliced, Plan.three_le_room wide zero⟩
  rw [leave_of_cuts cuts]
  exact ⟨Plan.offset_cut long cuts.2, Plan.closed_turn_push_text _ _⟩

end Unfinished

/-- If every bank has room for a part of a text, all of it is laid out, or there are too many
banks. -/
theorem Plan.placeSliced_cases {o : Options} (wide : ∀ k, 3 ≤ (o.window k).usable) (p : Plan)
    (rest : List UInt8) :
    (∃ (q : Plan) (parts : List (List UInt8)), p.placeSliced o rest = .ok q ∧
      parts.flatten = rest ∧ q.items = p.items ++ parts.map .text) ∨
    ∃ n, p.placeSliced o rest = .error ⟨.tooManyBanks maxBanks, n⟩ := by
  have exceeded {p : Plan} {size : Nat} {e : Failure} (le : size ≤ 3)
      (he : p.switch o size = .error e) : e = ⟨.tooManyBanks maxBanks, e.banks⟩ := by
    rcases switch_eq_error he with cause | ⟨k, full, -⟩
    · rw [← cause]
    · have := wide k
      omega
  fun_induction Plan.placeSliced o p rest with
  | case1 p rest fits => exact .inl ⟨_, [rest], rfl, by simp, p.items_push _⟩
  | case2 p rest long roomy _ e he => exact .inr ⟨e.banks, by rw [← exceeded (by omega) he]⟩
  | case3 p rest long roomy _ q hq ih =>
    obtain ⟨r, parts, placed, flatten_eq, items_eq⟩ | failed := ih
    · refine .inl ⟨r, rest.take (p.room o - 2) :: parts, placed, ?_, ?_⟩
      · rw [List.flatten_cons, flatten_eq, List.take_append_drop]
      · rw [items_eq, items_switch hq, items_push, List.append_assoc]
        rfl
    · exact .inr failed
  | case4 p rest long cramped e he => exact .inr ⟨e.banks, by rw [← exceeded (by omega) he]⟩
  | case5 p rest long cramped q hq _ ih =>
    obtain ⟨r, parts, placed, flatten_eq, items_eq⟩ | failed := ih
    · exact .inl ⟨r, parts, placed, flatten_eq, by rw [items_eq, items_switch hq]⟩
    · exact .inr failed

/-! ## The banks in the end -/

/-- The banks closed since the first plan are all filled up to the jump to the next one. -/
def Plan.FilledUp (o : Options) (p q : Plan) : Prop :=
  ∃ full, q.closed = p.closed ++ full ∧ ∀ k b, full[k]? = some b →
    ∃ pieces, b = pieces ++ [.bridge] ∧
      totalSize pieces = (o.window (p.closed.length + k)).capacity - 4

/-- One more bank that is full, in front of the others. -/
theorem Plan.FilledUp.cons {o : Options} {p q r : Plan} {pieces : List Piece}
    (closed_eq : q.closed = p.closed ++ [pieces ++ [.bridge]])
    (size_eq : totalSize pieces = p.usable o) (h : q.FilledUp o r) : p.FilledUp o r := by
  obtain ⟨full, more, filled⟩ := h
  refine ⟨(pieces ++ [.bridge]) :: full, by rw [more, closed_eq]; simp, fun k b hk => ?_⟩
  cases k with
  | zero => exact ⟨pieces, (Option.some.inj hk).symm, size_eq⟩
  | succ k =>
    have length_eq : q.closed.length + k = p.closed.length + (k + 1) := by
      rw [closed_eq, List.length_append, List.length_singleton]
      omega
    exact length_eq ▸ filled k b hk

/-- From a bank on that has room for a part of the text, all banks are filled up. -/
theorem Plan.filledUp_of_ready {o : Options} {p q : Plan} {rest : List UInt8}
    (wide : ∀ k, 3 ≤ (o.window k).usable)
    (ready : p.offset + (rest.length + 2) ≤ p.usable o ∨ 3 ≤ p.room o)
    (h : p.placeSliced o rest = .ok q) : p.FilledUp o q := by
  fun_induction Plan.placeSliced o p rest generalizing q with
  | case1 p rest fits =>
    obtain rfl := Except.ok.inj h
    exact ⟨[], (List.append_nil _).symm, fun k b hk => by cases hk⟩
  | case2 => cases h
  | case3 p rest long roomy _ r hr ih =>
    have filled := offset_cut long roomy
    have empty := offset_switch hr
    obtain ⟨⟨-, rfl⟩ | ⟨zero, -⟩, -⟩ := switch_eq_ok hr
    · rw [offset_eq] at filled
      exact .cons (p.closed_turn_push_text _) filled (ih (.inr (three_le_room wide empty)) h)
    · have : 3 ≤ p.usable o := wide _
      omega
  | case4 => cases h
  | case5 p rest long cramped => exact (ready.elim long cramped).elim

/-- The text begins in the bank there is, or this one is left as it is; all that are left later are
filled up. -/
theorem Plan.filledUp_of_placeSliced {o : Options} {p q : Plan} {bytes : List UInt8}
    (wide : ∀ k, 3 ≤ (o.window k).usable) (h : p.placeSliced o bytes = .ok q) :
    p.FilledUp o q ∨ p.turn.FilledUp o q := by
  by_cases ready : p.offset + (bytes.length + 2) ≤ p.usable o ∨ 3 ≤ p.room o
  · exact .inl (filledUp_of_ready wide ready h)
  · obtain ⟨long, cramped⟩ := not_or.mp ready
    rw [placeSliced, dif_neg long, dif_neg cramped] at h
    split at h
    · cases h
    · next r hr =>
      obtain ⟨⟨-, rfl⟩ | ⟨zero, -⟩, -⟩ := switch_eq_ok hr
      · exact .inr (filledUp_of_ready wide (.inr (le_room_of_switch hr)) h)
      · exact absurd (three_le_room wide zero) cramped

/-- Laying out a text comes to an end, after two rounds for each of its bytes at most and two more,
whatever is there already and whatever the windows are; and no round starts behind what can be
filled, if the first one does not.

If texts may be cut and every window has seven bytes or more, either all of the text is laid out, or
there are too many banks. In the banks of the result, those left since the text began are filled up
to the four bytes of the jump. So is, whether the text is finished later or not, every bank that is
left when a part of it is laid out. -/
theorem slicing_progresses (o : Options) (p : Plan) (bytes : List UInt8) :
    (∃ n ≤ 2 * bytes.length + 2,
      Unfinished.run o n ⟨p, bytes⟩ = some (p.placeText o bytes)) ∧
    (p.offset ≤ p.usable o → ∀ s, Unfinished.Reaches o ⟨p, bytes⟩ s →
      s.plan.offset ≤ s.plan.usable o) ∧
    (o.sliceText = true → (∀ w ∈ o.windows, 7 ≤ w.capacity) →
      ((∃ (q : Plan) (parts : List (List UInt8)), p.placeText o bytes = .ok q ∧
          parts.flatten = bytes ∧ q.items = p.items ++ parts.map .text ∧
          (p.FilledUp o q ∨ p.turn.FilledUp o q)) ∨
        ∃ n, p.placeText o bytes = .error ⟨.tooManyBanks 256, n⟩) ∧
      ∀ s, Unfinished.Reaches o ⟨p, bytes⟩ s → ¬ s.Fits o → (s.leave o).rest ≠ bytes →
        totalSize (s.leave o).plan.current = (o.window s.plan.closed.length).capacity - 4 ∧
        (s.leave o).plan.turn.closed =
          s.plan.closed ++ [(s.leave o).plan.current ++ [.bridge]]) := by
  refine ⟨Unfinished.exists_run o p bytes, fun within s reached => ?_, fun sliced wide => ⟨?_, ?_⟩⟩
  · rcases reached.eq_or_offset with rfl | zero
    · exact within
    · omega
  · have wide := Options.three_le_usable wide
    rw [Plan.placeText, if_pos sliced]
    rcases Plan.placeSliced_cases wide p bytes with ⟨q, parts, placed, whole, items⟩ | failed
    · exact .inl ⟨q, parts, placed, whole, items, Plan.filledUp_of_placeSliced wide placed⟩
    · exact .inr failed
  · intro s reached long begun
    rw [← Plan.offset_eq]
    exact reached.filled sliced (Options.three_le_usable wide) long begun

/-- Three windows of which the second has room for a single byte of a text. -/
def unevenWindows : Options :=
  { windows := [⟨0xC000, 8⟩, ⟨0x8000, 7⟩, ⟨0xC000, 20⟩], sliceText := true }

/-- A bank with too little room for a part of a text, and a label that moves to the next. -/
def crampedPlan : Plan := ((Plan.empty.push (.op .CLEAR)).push (.op .CLEAR)).push (.label "again")

theorem slicing_progresses_crampedPlan :
    (∃ n ≤ 12, Unfinished.run unevenWindows n ⟨crampedPlan, [72, 101, 108, 108, 111]⟩ =
      some (crampedPlan.placeText unevenWindows [72, 101, 108, 108, 111])) ∧
    ∃ s, Unfinished.Reaches unevenWindows ⟨crampedPlan, [72, 101, 108, 108, 111]⟩ s ∧
      (s.leave unevenWindows).rest = [101, 108, 108, 111] ∧
      totalSize (s.leave unevenWindows).plan.current = 7 - 4 := by
  obtain ⟨ends, -, sliced⟩ := slicing_progresses unevenWindows crampedPlan [72, 101, 108, 108, 111]
  have reached : Unfinished.Reaches unevenWindows ⟨crampedPlan, [72, 101, 108, 108, 111]⟩
      ⟨crampedPlan.turn, [72, 101, 108, 108, 111]⟩ := .single rfl
  have filled := (sliced rfl (by decide)).2 _ reached (by decide) (by decide)
  exact ⟨ends, _, reached, rfl, filled.1⟩

end Gamebook.Memory
