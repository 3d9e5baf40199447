import Mathlib.Order.Bounds.Defs
import Gamebook.Proofs.Memory.Failures

/-!
# How many banks a program needs

If all banks are of one size and texts are not cut, laying a program out means cutting it into
groups of instructions that follow each other, one group for each bank (`Cut`). Filling every bank
as far as it goes is the best one can do: however else the program can be cut, the next instruction
may as well go where there is room for it, and what follows then needs no more banks than before
(`Packs.step`). So a program is laid out if it can be cut at all, and in as few banks as there can
be groups: `packing_optimal`.
-/

namespace Gamebook.Memory

/-- The program in groups of instructions that follow each other, none of which takes more than
`limit` bytes. -/
structure Cut (limit : Nat) (code : List Instruction) (groups : List (List Instruction)) :
    Prop where
  flatten_eq : groups.flatten = code
  size_le : ∀ g ∈ groups, codeSize g ≤ limit

theorem size_le_codeSize {i : Instruction} {code : List Instruction} (h : i ∈ code) :
    i.size ≤ codeSize code := by
  obtain ⟨before, after, rfl⟩ := List.append_of_mem h
  rw [codeSize_append, codeSize_cons]
  omega

theorem Cut.size_le_of_mem {limit : Nat} {code : List Instruction}
    {groups : List (List Instruction)} (h : Cut limit code groups) {i : Instruction}
    (mem : i ∈ code) : i.size ≤ limit := by
  rw [← h.flatten_eq] at mem
  obtain ⟨g, hg, mem⟩ := List.mem_flatten.mp mem
  exact Nat.le_trans (size_le_codeSize mem) (h.size_le g hg)

theorem Spread.flatten_eq {code : List Instruction} {banks : List (List Instruction)}
    (h : Spread false code banks) : banks.flatten = code := by
  generalize e : false = slice at h
  induction h with
  | done => rfl
  | put _ ih => rw [List.flatten_cons, List.cons_append, ← List.flatten_cons, ih]
  | turn _ ih => exact ih
  | cut sliced => cases e.trans sliced

/-- The program can be put behind `offset` bytes of a bank and into `more` further banks, if banks
hold `limit` bytes. -/
inductive Packs (limit : Nat) : Nat → List Instruction → Nat → Prop
  | done (offset : Nat) : Packs limit offset [] 0
  | put {offset more : Nat} {i : Instruction} {code : List Instruction} :
    offset + i.size ≤ limit → Packs limit (offset + i.size) code more →
      Packs limit offset (i :: code) more
  | turn {offset more : Nat} {code : List Instruction} :
    Packs limit 0 code more → Packs limit offset code (more + 1)

namespace Packs

variable {limit offset more : Nat} {i : Instruction} {code : List Instruction}

/-- In an emptier bank there is room for all that fits in a fuller one. -/
theorem anti {offset' : Nat} (h : Packs limit offset code more) (le : offset' ≤ offset) :
    Packs limit offset' code more := by
  induction h generalizing offset' with
  | done => exact .done _
  | put fits _ ih => exact .put (by omega) (ih (by omega))
  | turn h _ => exact .turn h

/-- However the program can be put into banks, its first instruction may as well go where there is
room for it, and may begin a new bank where there is none. -/
theorem step (h : Packs limit offset (i :: code) more) :
    offset + i.size ≤ limit ∧ Packs limit (offset + i.size) code more ∨
    limit < offset + i.size ∧ i.size ≤ limit ∧ ∃ m, more = m + 1 ∧ Packs limit i.size code m := by
  generalize e : i :: code = program at h
  induction h with
  | done => cases e
  | put fits rest _ =>
    cases e
    exact .inl ⟨fits, rest⟩
  | @turn offset more program _ ih =>
    -- there it goes to a later bank; if it goes here instead, that bank only gets emptier
    obtain ⟨fits, rest⟩ | ⟨full, fits, -⟩ := ih e
    · rw [Nat.zero_add] at fits rest
      by_cases room : offset + i.size ≤ limit
      · exact .inl ⟨room, .turn (rest.anti (Nat.zero_le _))⟩
      · exact .inr ⟨by omega, fits, more, rfl, rest⟩
    · omega

theorem append {group : List Instruction} (fits : offset + codeSize group ≤ limit)
    (h : Packs limit (offset + codeSize group) code more) :
    Packs limit offset (group ++ code) more := by
  induction group generalizing offset with
  | nil => exact h
  | cons i group ih =>
    rw [codeSize_cons, ← Nat.add_assoc] at fits h
    exact .put (by omega) (ih fits h)

/-- Groups of instructions can be put into as many banks. -/
theorem of_groups {group : List Instruction} {groups : List (List Instruction)}
    (fits : offset + codeSize group ≤ limit) (size_le : ∀ g ∈ groups, codeSize g ≤ limit) :
    Packs limit offset (group ++ groups.flatten) groups.length := by
  induction groups generalizing offset group with
  | nil => exact append fits (.done _)
  | cons g groups ih =>
    obtain ⟨here, size_le⟩ := List.forall_mem_cons.mp size_le
    exact append fits (.turn (ih (by omega) size_le))

end Packs

/-! ## One instruction -/

section Place

variable {o : Options} {d e : Draft} {size : Nat} {i : Instruction}

theorem Draft.makeRoom_of_fits (fits : d.offset + size ≤ d.usable o) :
    d.plan.makeRoom o size = .ok d.plan := by
  rw [Plan.makeRoom, plan_offset, plan_usable, if_neg (by omega)]

theorem Draft.makeRoom_of_full (full : d.usable o < d.offset + size) (pos : 0 < d.offset)
    (few : d.turn.count ≤ maxBanks) (fits : size ≤ d.turn.usable o) :
    d.plan.makeRoom o size = .ok d.turn.plan := by
  rw [Plan.makeRoom, plan_offset, plan_usable, if_pos full, Plan.switch, plan_offset, if_pos pos,
    ← plan_turn]
  simp only [plan_count, plan_usable]
  rw [if_neg (by omega), if_neg (by omega)]

/-- An instruction goes where room is made for it, unless its name is there already. -/
theorem Draft.place_of_makeRoom (whole : o.sliceText = false) (offset_le : d.offset ≤ d.usable o)
    (room : d.plan.makeRoom o i.size = .ok e.plan) (same : e.banks.flatten = d.banks.flatten)
    (label : ∀ name ∈ i.label?, name ∉ labelNames d.banks.flatten)
    (array : ∀ name ∈ i.array?, name ∉ arrayNames d.banks.flatten) :
    d.plan.place o i = .ok (e.push i).plan := by
  rw [Draft.plan_push]
  cases i with
  | label name =>
    rw [makeRoom_of_fits offset_le] at room
    rw [Plan.place, if_neg (mem_plan_labels.not.mpr (label name rfl)), ← Except.ok.inj room]
  | text bytes =>
    rw [Instruction.size] at room
    rw [Plan.place, Plan.placeText, whole, if_neg (by simp), room]
    rfl
  | array name bytes =>
    rw [Plan.place, room]
    simp only [bind, Except.bind]
    rw [if_neg (mem_plan_arrays.not.mpr (same ▸ array name rfl))]
  | code op xs =>
    rw [Plan.place, room]
    rfl

theorem fresh_of_nodup {f : Instruction → Option String} {before after : List Instruction}
    (h : ((before ++ i :: after).filterMap f).Nodup) :
    ∀ name ∈ f i, name ∉ before.filterMap f := by
  intro name hi there
  rw [List.append_cons, List.filterMap_append] at h
  exact not_nodup_filterMap_concat hi there h.of_append_left

end Place

/-! ## Whole programs -/

section Uniform

variable {o : Options} {limit : Nat} (uniform : ∀ k, (o.window k).usable = limit)
  (whole : o.sliceText = false)

include uniform whole

/-- A program that can be put behind what there is gets laid out there, and no more banks are begun
than that takes. -/
theorem Draft.foldlM_place_of_packs {d : Draft} {code : List Instruction} {more : Nat}
    (offset_le : d.offset ≤ limit) (h : Packs limit d.offset code more)
    (few : d.count + more ≤ maxBanks) (labels : (labelNames (d.banks.flatten ++ code)).Nodup)
    (arrays : (arrayNames (d.banks.flatten ++ code)).Nodup) :
    ∃ e : Draft, code.foldlM (Plan.place o) d.plan = .ok e.plan ∧ e.count ≤ d.count + more := by
  induction code generalizing d more with
  | nil => exact ⟨d, rfl, Nat.le_add_right _ _⟩
  | cons i code ih =>
    have usable_eq (d : Draft) : d.usable o = limit := uniform _
    obtain ⟨e, room, same, fits, m, rest, count⟩ : ∃ e : Draft,
        d.plan.makeRoom o i.size = .ok e.plan ∧ e.banks.flatten = d.banks.flatten ∧
        e.offset + i.size ≤ limit ∧
        ∃ m, Packs limit (e.offset + i.size) code m ∧ e.count + m ≤ d.count + more := by
      rcases h.step with ⟨fits, rest⟩ | ⟨full, fits, m, rfl, rest⟩
      · exact ⟨d, makeRoom_of_fits (by rwa [usable_eq]), rfl, fits, more, rest, Nat.le_refl _⟩
      · have count := d.turn_count
        refine ⟨d.turn, makeRoom_of_full (by rwa [usable_eq]) (by omega) (by omega)
          (by rwa [usable_eq]), d.flatten_turn, ?_, m, ?_, by omega⟩
        · rwa [turn_offset, Nat.zero_add]
        · rwa [turn_offset, Nat.zero_add]
    have placed : d.plan.place o i = .ok (e.push i).plan :=
      place_of_makeRoom whole (by rwa [usable_eq]) room same (fresh_of_nodup labels)
        (fresh_of_nodup arrays)
    have pushed : (e.push i).banks.flatten ++ code = d.banks.flatten ++ i :: code := by
      rw [← same]
      simp [Draft.banks, Draft.push]
    have counted : (e.push i).count = e.count := rfl
    obtain ⟨f, run, count'⟩ := @ih (e.push i) m (by rwa [push_offset]) (by rwa [push_offset])
      (by omega) (by rwa [pushed]) (by rwa [pushed])
    refine ⟨f, ?_, by omega⟩
    rw [List.foldlM_cons, placed]
    exact run

/-- A program that can be cut is laid out, in as many banks at most. -/
theorem layout_of_cut {code : List Instruction} {groups : List (List Instruction)}
    (labels : (labelNames code).Nodup) (arrays : (arrayNames code).Nodup)
    (cut : Cut limit code groups) (few : groups.length ≤ maxBanks) :
    ∃ banks, layout o code = .ok banks ∧ banks.length ≤ max 1 groups.length := by
  obtain ⟨more, packs, more_eq⟩ :
      ∃ more, Packs limit 0 code more ∧ more + 1 = max 1 groups.length := by
    cases groups with
    | nil =>
      obtain rfl : code = [] := cut.flatten_eq.symm
      exact ⟨0, .done 0, rfl⟩
    | cons g groups =>
      obtain ⟨rfl, size_le⟩ := cut
      obtain ⟨here, size_le⟩ := List.forall_mem_cons.mp size_le
      refine ⟨groups.length, .of_groups (by omega) size_le, ?_⟩
      rw [List.length_cons]
      omega
  have one : Draft.empty.count = 1 := rfl
  have one_le : 1 ≤ maxBanks := by decide
  obtain ⟨e, run, count⟩ := @Draft.foldlM_place_of_packs o limit uniform whole .empty code more
    (Nat.zero_le _) packs (by omega) labels arrays
  refine ⟨e.plan.banks, ?_, ?_⟩
  · rw [layout, Plan.of, show Plan.empty = Draft.empty.plan from rfl, run]
    rfl
  · rw [Draft.plan_banks, length_sealed, Draft.banks, List.length_append, List.length_singleton,
      ← more_eq, Nat.add_comm more 1, ← one]
    exact count

omit uniform in
/-- Without cut texts the banks hold the program as it is. -/
theorem Fill.flatten_banks {d : Draft} {code : List Instruction} (h : Fill o .empty code d) :
    d.banks.flatten = code := by
  have spread := h.spread
  rw [whole] at spread
  exact spread.flatten_eq

/-- The banks of a program cut it. -/
theorem cut_of_layout {code : List Instruction} {banks : List (List Piece)}
    (h : layout o code = .ok banks) :
    ∃ groups, groups.length = banks.length ∧ groups.length ≤ maxBanks ∧ groups ≠ [] ∧
      Cut limit code groups := by
  obtain ⟨d, -, rfl, fill, -⟩ := layout_eq_ok h
  have sound := fill.sound .empty
  refine ⟨d.banks, (length_sealed _).symm, ?_, by simp [Draft.banks], ?_, ?_⟩
  · rw [Draft.banks, List.length_append, List.length_singleton]
    exact sound.count_le
  · exact fill.flatten_banks whole
  · intro g mem
    obtain ⟨k, hk⟩ := List.getElem?_of_mem mem
    exact uniform k ▸ sound.size_le hk

end Uniform

/-- If all banks have the same capacity and texts are not cut, a program whose labels and arrays
have names of their own is laid out exactly if each of its instructions fits in a bank, with room
left for a jump, and they can be cut into 256 groups at most that do so. Then the banks are as many
as the fewest such groups, and at least one. -/
theorem packing_optimal {o : Options} {capacity : Nat} {code : List Instruction}
    (some : o.windows ≠ []) (same : ∀ w ∈ o.windows, w.capacity = capacity)
    (whole : o.sliceText = false) (labels : (labelNames code).Nodup)
    (arrays : (arrayNames code).Nodup) :
    ((∃ banks, layout o code = .ok banks) ↔
      (∀ i ∈ code, i.isLabel = false → i.size ≤ capacity - 4) ∧
        ∃ groups, groups.length ≤ 256 ∧ Cut (capacity - 4) code groups) ∧
    ∀ banks, layout o code = .ok banks →
      IsLeast {n | 1 ≤ n ∧ ∃ groups, groups.length = n ∧ Cut (capacity - 4) code groups}
        banks.length := by
  have uniform (k : Nat) : (o.window k).usable = capacity - 4 := by
    rw [Window.usable, same _ (Options.window_mem some k)]
    rfl
  refine ⟨⟨fun ⟨banks, h⟩ => ?_, fun ⟨_, groups, few, cut⟩ => ?_⟩, fun banks h => ⟨?_, ?_⟩⟩
  · obtain ⟨groups, -, few, -, cut⟩ := cut_of_layout uniform whole h
    exact ⟨fun i mem _ => cut.size_le_of_mem mem, groups, few, cut⟩
  · obtain ⟨banks, h, -⟩ := layout_of_cut uniform whole labels arrays cut few
    exact ⟨banks, h⟩
  · obtain ⟨groups, count, -, nonempty, cut⟩ := cut_of_layout uniform whole h
    exact ⟨count ▸ List.length_pos_iff.mpr nonempty, groups, count, cut⟩
  · rintro n ⟨one_le, groups, rfl, cut⟩
    -- more groups than there can be banks are not fewer than the banks there are
    by_cases few : groups.length ≤ maxBanks
    · obtain ⟨banks', h', le⟩ := layout_of_cut uniform whole labels arrays cut few
      obtain rfl := Except.ok.inj (h.symm.trans h')
      omega
    · obtain ⟨_, count, le, -⟩ := cut_of_layout uniform whole h
      omega

/-- Windows of the same capacity, of which six bytes can be filled. -/
def evenWindows : Options := { windows := [⟨0xC000, 10⟩, ⟨0x8000, 10⟩] }

/-- A loop that fills its first bank to the last byte, with a label that moves to the second. -/
def greetingAgain : List Instruction :=
  [.label "start", .text [72, 105], .label "again", .code .PRINT_D [.literal 1], .label "back",
    .jump .GOTO "start", .op .END]

theorem packing_optimal_greetingAgain :
    (∃ banks, layout evenWindows greetingAgain = .ok banks ∧ banks.length = 2) ∧
      (∃ groups, groups.length ≤ 256 ∧ Cut 6 greetingAgain groups) ∧
      IsLeast {n | 1 ≤ n ∧ ∃ groups, groups.length = n ∧ Cut 6 greetingAgain groups} 2 := by
  obtain ⟨banks, h, two⟩ : ∃ banks, layout evenWindows greetingAgain = .ok banks ∧
      banks.length = 2 := ⟨_, rfl, rfl⟩
  obtain ⟨succeeds, least⟩ := @packing_optimal evenWindows 10 greetingAgain (by decide) (by decide)
    rfl (by decide) (by decide)
  exact ⟨⟨banks, h, two⟩, (succeeds.mp ⟨banks, h⟩).2, two ▸ least banks h⟩

end Gamebook.Memory
