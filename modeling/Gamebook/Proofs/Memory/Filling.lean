import Mathlib.Data.List.Nodup
import Gamebook.Proofs.Memory.Recording
import Gamebook.Proofs.Memory.Spread

/-!
# What laying out does

Laying out is a run of three moves. An instruction goes behind the others of its bank, where there
is room for it; the bank is closed and what follows goes to a new one; or as much of a text as
there is room for goes to the bank and the rest of it to the next. `Fill` is such a run, on banks
without the jumps between them (`Draft`), and `layout_eq_ok` says that nothing else happens: a
program that is laid out was filled in from the front, with the guards of every move, and its labels
and arrays all have names of their own.

The places that are noted on the way are those that can be read off the banks (`Draft.plan`). This
is kept by each move: what is pushed is noted where it lies (`Draft.plan_push`), and labels that
move to a new bank are noted again (`Draft.plan_turn`). So it holds in the end
(`Plan.places_of_eq_ok`).

What later modules need of a layout follows from `Fill` by induction: the banks spread the program
(`Fill.spread`), none holds more than it can or ends with a label in front of a jump
(`Fill.sound`).
-/

namespace Gamebook.Memory

/-- Banks by the instructions in them, without the jumps between the banks. -/
structure Draft where
  closed : List (List Instruction)
  current : List Instruction

/-- The pieces of a bank that is closed. -/
def bridged (b : List Instruction) : List Piece := b.map .item ++ [.bridge]

theorem totalSize_map_item (code : List Instruction) :
    totalSize (code.map .item) = codeSize code := by
  induction code with
  | nil => rfl
  | cons i code ih => rw [List.map_cons, totalSize_cons, codeSize_cons, ih, Piece.size]

/-- The pieces of all banks: every one but the last is closed. -/
def sealed : List (List Instruction) → List (List Piece)
  | [] => []
  | [b] => [b.map .item]
  | b :: c :: bs => bridged b :: sealed (c :: bs)

theorem length_sealed (bs : List (List Instruction)) : (sealed bs).length = bs.length := by
  fun_induction sealed bs with
  | case1 => rfl
  | case2 => rfl
  | case3 b c bs ih => rw [List.length_cons, ih, ← List.length_cons]

theorem sealed_append (front : List (List Instruction)) (b : List Instruction)
    (back : List (List Instruction)) :
    sealed (front ++ b :: back) = front.map bridged ++ sealed (b :: back) := by
  induction front with
  | nil => rfl
  | cons f front ih =>
    obtain ⟨c, cs, e⟩ : ∃ c cs, front ++ b :: back = c :: cs := by
      cases front <;> simp
    rw [List.cons_append, e, sealed, ← e, ih, List.map_cons, List.cons_append]

namespace Draft

/-- Nothing in the first bank. -/
def empty : Draft := ⟨[], []⟩

/-- All banks. -/
def banks (d : Draft) : List (List Instruction) := d.closed ++ [d.current]

/-- How many banks there are. -/
def count (d : Draft) : Nat := d.closed.length + 1

/-- How many bytes of the last bank are filled. -/
def offset (d : Draft) : Nat := codeSize d.current

/-- How many bytes of the last bank can be filled. -/
def usable (o : Options) (d : Draft) : Nat := (o.window d.closed.length).usable

/-- Puts an instruction behind the others. -/
def push (d : Draft) (i : Instruction) : Draft := { d with current := d.current ++ [i] }

/-- Closes the last bank and begins a new one with the labels from its end. -/
def turn (d : Draft) : Draft :=
  ⟨d.closed ++ [d.current.rdropWhile Instruction.isLabel],
    d.current.rtakeWhile Instruction.isLabel⟩

/-- The plan that has these banks, and in which the places of labels and arrays are noted as they
can be read off the banks. -/
def plan (d : Draft) : Plan where
  closed := d.closed.map bridged
  current := d.current.map .item
  offset := d.offset
  labels := noted (labelPlaces (sealed d.banks))
  arrays := noted (elementPlaces (sealed d.banks))
  offset_eq := (totalSize_map_item d.current).symm

variable (o : Options) (d : Draft) (i : Instruction)

theorem plan_banks : d.plan.banks = sealed d.banks := by
  rw [banks, sealed_append]
  rfl

theorem turn_split :
    d.current.rdropWhile Instruction.isLabel ++ d.current.rtakeWhile Instruction.isLabel =
      d.current := by
  rw [List.rdropWhile, List.rtakeWhile, ← List.reverse_append, List.takeWhile_append_dropWhile,
    List.reverse_reverse]

section Places

variable {α : Type} (f : Piece → Option α)

theorem findPlaces_sealed : findPlaces f 0 (sealed d.banks) =
    findPlaces f 0 (d.closed.map bridged) ++
      (findPieces f 0 (d.current.map .item)).map fun (a, n) => (a, ⟨d.closed.length, n⟩) := by
  rw [banks, sealed_append, sealed, findPlaces_concat, List.length_map, Nat.zero_add]

/-- What is pushed is found at the end of the last bank. -/
theorem findPlaces_push : findPlaces f 0 (sealed (d.push i).banks) =
    findPlaces f 0 (sealed d.banks) ++
      ((f (.item i)).map (·, Place.mk d.closed.length d.offset)).toList := by
  rw [findPlaces_sealed, findPlaces_sealed, push, List.map_append, findPieces_append,
    totalSize_map_item, List.map_append, List.append_assoc, Nat.zero_add]
  cases found : f (.item i) <;> simp [findPieces, found, offset]

/-- Only what moves to the new bank is found in another place. -/
theorem findPlaces_turn (none : f .bridge = none) : ∃ kept,
    findPlaces f 0 (sealed d.banks) = kept ++
      (findPieces f (codeSize (d.current.rdropWhile Instruction.isLabel))
        (d.turn.current.map .item)).map
        (fun (a, n) => (a, ⟨d.closed.length, n⟩)) ∧
    findPlaces f 0 (sealed d.turn.banks) = kept ++
      (findPieces f 0 (d.turn.current.map .item)).map
        (fun (a, n) => (a, ⟨d.closed.length + 1, n⟩)) := by
  have unbridged (b : List Instruction) :
      findPieces f 0 (bridged b) = findPieces f 0 (b.map .item) := by
    simp [bridged, findPieces_append, findPieces, none]
  refine ⟨findPlaces f 0 (d.closed.map bridged ++
    [(d.current.rdropWhile Instruction.isLabel).map .item]), ?_, ?_⟩
  · rw [findPlaces_sealed, findPlaces_concat, List.append_assoc]
    conv_lhs => rw [← d.turn_split]
    rw [List.map_append, findPieces_append, totalSize_map_item, List.map_append, List.length_map,
      Nat.zero_add, Nat.zero_add]
    rfl
  · rw [findPlaces_sealed, turn, List.map_append, List.map_singleton, findPlaces_concat, unbridged,
      findPlaces_concat, List.length_append, List.length_singleton]

end Places

theorem plan_push : (d.push i).plan = d.plan.push i := by
  have labels := d.findPlaces_push i Piece.label?
  have arrays := d.findPlaces_push i Piece.array?
  simp only [plan, Plan.push, labelPlaces, elementPlaces, arrayPlaces, labels, arrays]
  cases i <;> simp [push, offset, Piece.label?, Piece.array?, noted, noteAll]

theorem plan_turn : d.turn.plan = d.plan.turn := by
  have isLabel_item : Piece.isLabel ∘ Piece.item = Instruction.isLabel := by
    funext i
    cases i <;> rfl
  have moved_eq : d.turn.current.map .item = d.plan.moved := by
    simp [plan, turn, Plan.moved, List.rtakeWhile, ← List.map_reverse, List.takeWhile_map,
      isLabel_item]
  have isLabel : ∀ p ∈ d.plan.moved, p.isLabel = true := fun p hp =>
    List.all_eq_true.mp List.all_takeWhile p (List.mem_reverse.mp hp)
  have closed : d.turn.plan.closed = d.plan.turn.closed := by
    simp [plan, turn, Plan.turn, bridged, List.rdropWhile, ← List.map_reverse, List.dropWhile_map,
      isLabel_item]
  have labels : d.turn.plan.labels = d.plan.turn.labels := by
    obtain ⟨kept, before, after⟩ := d.findPlaces_turn Piece.label? rfl
    rw [moved_eq, findPieces_label? isLabel, List.map_map] at before after
    have again : d.plan.turn.labels = noteAll d.plan.labels
        ((d.plan.moved.filterMap Piece.label?).map (·, ⟨d.closed.length + 1, 0⟩)) := by
      rw [noteAll, List.foldl_map, ← List.length_map bridged]
      rfl
    rw [again]
    simp only [plan, labelPlaces]
    rw [before, after, noted_append, noted_append]
    exact (noteAll_again (by rw [List.map_map, List.map_map]; rfl)).symm
  have arrays : d.turn.plan.arrays = d.plan.turn.arrays := by
    obtain ⟨kept, before, after⟩ := d.findPlaces_turn Piece.array? rfl
    rw [moved_eq, findPieces_array? isLabel] at before after
    simp only [plan, Plan.turn, elementPlaces, arrayPlaces, before, after, List.map_nil]
  have offset : d.turn.plan.offset = d.plan.turn.offset := by
    rw [Plan.offset_eq, Plan.offset_eq]
    exact congrArg totalSize moved_eq
  exact Plan.ext closed moved_eq offset labels arrays

@[simp] theorem plan_offset : d.plan.offset = d.offset := rfl

@[simp] theorem plan_usable : d.plan.usable o = d.usable o := by
  simp [plan, Plan.usable, usable]

@[simp] theorem plan_count : d.plan.count = d.count := by
  simp [plan, Plan.count, count]

@[simp] theorem plan_room : d.plan.room o = d.usable o - d.offset := by
  simp [Plan.room]

@[simp] theorem push_offset : (d.push i).offset = d.offset + i.size := by
  simp [push, offset]

@[simp] theorem turn_offset : d.turn.offset = 0 := by
  rw [← plan_offset, plan_turn]
  rfl

@[simp] theorem turn_count : d.turn.count = d.count + 1 := by
  simp [turn, count]

/-- A text at the end of a bank stays there. -/
theorem turn_push_text (t : List UInt8) :
    (d.push (.text t)).turn = ⟨d.closed ++ [d.current ++ [.text t]], []⟩ := by
  simp [turn, push, List.rdropWhile, List.rtakeWhile, Instruction.isLabel]

end Draft

/-- A program is filled in behind what there is, from the front. -/
inductive Fill (o : Options) : Draft → List Instruction → Draft → Prop
  | done (d : Draft) : Fill o d [] d
  /-- The next instruction fits. -/
  | push {d e : Draft} {i : Instruction} {code : List Instruction} :
    d.offset + i.size ≤ d.usable o → Fill o (d.push i) code e → Fill o d (i :: code) e
  /-- The next instruction does not fit, and a new bank is begun. -/
  | turn {d e : Draft} {i : Instruction} {code : List Instruction} :
    0 < d.offset → d.usable o < d.offset + i.size → d.turn.count ≤ maxBanks →
      Fill o d.turn (i :: code) e → Fill o d (i :: code) e
  /-- The next instruction is a text that does not fit, and the bank is filled up with it. -/
  | cut {d e : Draft} {head tail : List UInt8} {code : List Instruction} :
    o.sliceText = true → head ≠ [] → tail ≠ [] →
      (d.push (.text head)).offset = d.usable o → (d.push (.text head)).turn.count ≤ maxBanks →
      Fill o (d.push (.text head)).turn (.text tail :: code) e →
      Fill o d (.text (head ++ tail) :: code) e

/-- What holds of the banks at any time. -/
structure Draft.Sound (o : Options) (d : Draft) : Prop where
  count_le : d.count ≤ maxBanks
  offset_le : d.offset ≤ d.usable o
  closed_le : ∀ k b, d.closed[k]? = some b → codeSize b ≤ (o.window k).usable
  closed_tight : ∀ b ∈ d.closed, Tight b

namespace Draft.Sound

variable {o : Options} {d : Draft}

theorem empty : Draft.empty.Sound o where
  count_le := by decide
  offset_le := Nat.zero_le _
  closed_le := by simp [Draft.empty]
  closed_tight := by simp [Draft.empty]

theorem push {i : Instruction} (h : d.Sound o) (fits : d.offset + i.size ≤ d.usable o) :
    (d.push i).Sound o :=
  { h with
    offset_le := by
      rw [push_offset]
      exact fits }

theorem turn (h : d.Sound o) (pos : 0 < d.offset) (count : d.turn.count ≤ maxBanks) :
    d.turn.Sound o where
  count_le := count
  offset_le := by simp
  closed_le := by
    intro k b hb
    have split := congrArg codeSize d.turn_split
    rw [codeSize_append] at split
    have offset_le : codeSize d.current ≤ (o.window d.closed.length).usable := h.offset_le
    rcases Nat.lt_trichotomy k d.closed.length with hk | rfl | hk
    · rw [Draft.turn, List.getElem?_append_left hk] at hb
      exact h.closed_le k b hb
    · obtain rfl : d.current.rdropWhile Instruction.isLabel = b := by simpa [Draft.turn] using hb
      omega
    · have : (d.closed ++ [d.current.rdropWhile Instruction.isLabel]).length ≤ k := by
        rw [List.length_append, List.length_singleton]
        exact hk
      rw [Draft.turn, List.getElem?_eq_none this] at hb
      cases hb
  closed_tight := by
    intro b hb
    rcases List.mem_append.mp hb with hb | hb
    · exact h.closed_tight b hb
    · obtain rfl := List.mem_singleton.mp hb
      -- a bank in which something takes bytes does not consist of labels
      have ne_nil : d.current.rdropWhile Instruction.isLabel ≠ [] := by
        intro e
        have labels := codeSize_of_isLabel (List.rdropWhile_eq_nil_iff.mp e)
        exact absurd pos (by rw [Draft.offset, labels]; omega)
      refine ⟨_, _, (List.dropLast_append_getLast ne_nil).symm, ?_⟩
      simpa using List.rdropWhile_last_not _ _ ne_nil

end Draft.Sound

namespace Fill

variable {o : Options} {d e f : Draft} {xs ys code : List Instruction}

theorem trans (h₁ : Fill o d xs e) (h₂ : Fill o e ys f) : Fill o d (xs ++ ys) f := by
  induction h₁ with
  | done d => exact h₂
  | push fits _ ih => exact .push fits (ih h₂)
  | turn pos full count _ ih => exact .turn pos full count (ih h₂)
  | cut sliced hhead htail fills count _ ih => exact .cut sliced hhead htail fills count (ih h₂)

theorem sound (h : Fill o d code e) (hd : d.Sound o) : e.Sound o := by
  induction h with
  | done d => exact hd
  | push fits _ ih => exact ih (hd.push fits)
  | turn pos _ count _ ih => exact ih (hd.turn pos count)
  | @cut d e head tail code _ _ _ fills count _ ih =>
    have filled : (d.push (.text head)).Sound o := hd.push (by simpa using fills.le)
    exact ih (filled.turn (by rw [Draft.push_offset, Instruction.size]; omega) count)

/-- The invariant is that whatever spreads the rest of the program, put behind what is there,
spreads the whole of it. -/
theorem spread_of_rest {total : List Instruction} (h : Fill o d code e)
    (hd : ∀ b bs, Spread o.sliceText code (b :: bs) →
      Spread o.sliceText total (d.closed ++ (d.current ++ b) :: bs)) :
    Spread o.sliceText total e.banks := by
  induction h with
  | done d => simpa [Draft.banks] using hd [] [] .done
  | push _ _ ih =>
    refine ih fun b bs h => ?_
    simpa [Draft.push] using hd _ bs (.put h)
  | @turn d e i code _ _ _ _ ih =>
    refine ih fun b bs h => ?_
    have := hd b bs h
    rw [← d.turn_split, List.append_assoc] at this
    simpa [Draft.turn] using this.insert
  | @cut d e head tail code sliced hhead htail _ _ _ ih =>
    refine ih fun b bs h => ?_
    rw [Draft.turn_push_text]
    simpa using hd _ _ (.cut sliced hhead htail h)

/-- The banks spread the program. -/
theorem spread (h : Fill o .empty code e) : Spread o.sliceText code e.banks :=
  h.spread_of_rest fun _ _ h => h

end Fill

/-! ## Every step is a run of moves -/

theorem bind_eq_ok {ε α β : Type} {x : Except ε α} {f : α → Except ε β} {b : β} :
    (x >>= f) = .ok b ↔ ∃ a, x = .ok a ∧ f a = .ok b := by
  cases x <;> simp [bind, Except.bind]

section Steps

variable {o : Options} {d : Draft} {size : Nat} {q : Plan}

/-- Switching begins a new bank, unless the last one is still empty. -/
theorem Plan.switch_eq_ok {p : Plan} (h : p.switch o size = .ok q) :
    (0 < p.offset ∧ q = p.turn ∨ p.offset = 0 ∧ q = p) ∧ q.count ≤ maxBanks ∧
      size ≤ q.usable o := by
  have begun : 0 < p.offset ∧ (if 0 < p.offset then p.turn else p) = p.turn ∨
      p.offset = 0 ∧ (if 0 < p.offset then p.turn else p) = p := by
    split
    · next pos => exact .inl ⟨pos, rfl⟩
    · next zero => exact .inr ⟨by omega, rfl⟩
  unfold Plan.switch at h
  dsimp only at h
  generalize (if 0 < p.offset then p.turn else p) = r at begun h
  split at h
  · cases h
  · split at h
    · cases h
    · obtain rfl := Except.ok.inj h
      exact ⟨begun, by omega, by omega⟩

/-- A switch fails if there are too many banks, or if what is asked does not fit in the next. -/
theorem Plan.switch_eq_error {p : Plan} {f : Failure} (h : p.switch o size = .error f) :
    f.cause = .tooManyBanks maxBanks ∨
      ∃ k, (o.window k).usable < size ∧ f.cause = .blockTooBig size (o.window k).usable := by
  unfold Plan.switch at h
  dsimp only at h
  generalize (if 0 < p.offset then p.turn else p) = r at h
  split at h
  · exact .inl (Except.error.inj h ▸ rfl)
  · split at h
    · next full => exact .inr ⟨r.closed.length, full, Except.error.inj h ▸ rfl⟩
    · cases h

theorem Draft.switch_eq_ok (h : d.plan.switch o size = .ok q) :
    ∃ e : Draft, q = e.plan ∧ size ≤ e.usable o ∧ e.count ≤ maxBanks ∧
      (0 < d.offset ∧ e = d.turn ∨ d.offset = 0 ∧ e = d) := by
  obtain ⟨begun, count, fits⟩ := Plan.switch_eq_ok h
  rw [Draft.plan_offset] at begun
  rcases begun with ⟨pos, rfl⟩ | ⟨zero, rfl⟩
  · rw [← d.plan_turn, Draft.plan_count] at count
    rw [← d.plan_turn, Draft.plan_usable] at fits
    exact ⟨d.turn, d.plan_turn.symm, fits, count, .inl ⟨pos, rfl⟩⟩
  · rw [Draft.plan_count] at count
    rw [Draft.plan_usable] at fits
    exact ⟨d, rfl, fits, count, .inr ⟨zero, rfl⟩⟩

/-- Room is there, or is made by beginning a new bank. -/
theorem Draft.makeRoom_eq_ok (h : d.plan.makeRoom o size = .ok q) :
    ∃ e : Draft, q = e.plan ∧ e.offset + size ≤ e.usable o ∧
      (e = d ∨ 0 < d.offset ∧ d.usable o < d.offset + size ∧ e = d.turn ∧ e.count ≤ maxBanks) := by
  unfold Plan.makeRoom at h
  simp only [Draft.plan_offset, Draft.plan_usable] at h
  split at h
  · next full =>
    obtain ⟨e, rfl, fits, count, ⟨pos, rfl⟩ | ⟨zero, rfl⟩⟩ := Draft.switch_eq_ok h
    · exact ⟨d.turn, rfl, by simpa using fits, .inr ⟨pos, full, rfl, count⟩⟩
    · omega
  · next fits =>
    obtain rfl : d.plan = q := by simpa using h
    exact ⟨d, rfl, by omega, .inl rfl⟩

/-- Beginning a new bank changes neither what there is nor its order. -/
theorem Draft.flatten_turn : d.turn.banks.flatten = d.banks.flatten := by
  simp [Draft.banks, Draft.turn, d.turn_split]

/-- An instruction that is put where room was made for it. -/
theorem Draft.fill_of_makeRoom {i : Instruction} (h : d.plan.makeRoom o i.size = .ok q) :
    ∃ e : Draft, q = e.plan ∧ Fill o d [i] (e.push i) ∧ e.banks.flatten = d.banks.flatten := by
  obtain ⟨e, rfl, fits, rfl | ⟨pos, full, rfl, count⟩⟩ := Draft.makeRoom_eq_ok h
  · exact ⟨e, rfl, .push fits (.done _), rfl⟩
  · exact ⟨d.turn, rfl, .turn pos full count (.push fits (.done _)), d.flatten_turn⟩

/-- A text that may be cut is put into the banks part by part. -/
theorem Draft.fill_of_placeSliced {rest : List UInt8} (sliced : o.sliceText = true)
    (h : d.plan.placeSliced o rest = .ok q) :
    ∃ e : Draft, q = e.plan ∧ Fill o d [.text rest] e := by
  generalize hp : d.plan = p at h
  fun_induction Plan.placeSliced o p rest generalizing d with
  | case1 p rest fits =>
    subst hp
    obtain rfl : d.plan.push (.text rest) = q := by simpa using h
    rw [← Draft.plan_push]
    exact ⟨_, rfl, .push (by simpa [Instruction.size] using fits) (.done _)⟩
  | case2 => simp at h
  | case3 p rest long roomy _ p' hp' ih =>
    subst hp
    simp only [Draft.plan_offset, Draft.plan_usable, Draft.plan_room] at long roomy hp' h ih
    generalize hn : d.usable o - d.offset - 2 = n at hp' h ih
    have lt_length : n < rest.length := by omega
    rw [← Draft.plan_push] at hp'
    have size_head : (d.push (.text (rest.take n))).offset = d.usable o := by
      simp only [Draft.push_offset, Instruction.size, List.length_take]
      omega
    obtain ⟨e, rfl, -, count, ⟨-, rfl⟩ | ⟨zero, -⟩⟩ := Draft.switch_eq_ok hp'
    · obtain ⟨f, rfl, hf⟩ := ih rfl h
      have head_ne_nil : rest.take n ≠ [] := by
        rw [← List.length_pos_iff, List.length_take]
        omega
      have tail_ne_nil : rest.drop n ≠ [] := by
        rw [← List.length_pos_iff, List.length_drop]
        omega
      have := Fill.cut sliced head_ne_nil tail_ne_nil size_head count hf
      rw [List.take_append_drop] at this
      exact ⟨f, rfl, this⟩
    · omega
  | case4 => simp at h
  | case5 p rest long narrow p' hp' room ih =>
    subst hp
    simp only [Draft.plan_offset, Draft.plan_usable, Draft.plan_room] at long narrow
    obtain ⟨e, rfl, fits, count, ⟨pos, rfl⟩ | ⟨zero, rfl⟩⟩ := Draft.switch_eq_ok hp'
    · obtain ⟨f, rfl, hf⟩ := ih rfl h
      exact ⟨f, rfl, .turn pos (by simpa [Instruction.size] using long) count hf⟩
    · omega

variable {i : Instruction}

theorem Draft.plan_filterMap {α : Type} {f : Piece → Option α} (hf : f .bridge = none) :
    d.plan.banks.flatMap (·.filterMap f) = d.banks.flatten.filterMap (f ∘ .item) := by
  have bridged_filterMap (b : List Instruction) :
      (bridged b).filterMap f = b.filterMap (f ∘ .item) := by
    simp [bridged, List.filterMap_map, hf]
  rw [Plan.banks, List.flatMap_append, Draft.plan, List.flatMap_map, Draft.banks,
    List.flatten_append, List.filterMap_append, List.filterMap_flatten]
  simp [bridged_filterMap, List.filterMap_map, List.flatMap_def, Function.comp_def]

theorem Draft.map_fst_labelPlaces :
    (labelPlaces (sealed d.banks)).map (·.1) = labelNames d.banks.flatten := by
  have label?_item : Piece.label? ∘ Piece.item = Instruction.label? := by
    funext i
    cases i <;> rfl
  rw [labelPlaces, map_fst_findPlaces, ← d.plan_banks, Draft.plan_filterMap rfl, label?_item,
    labelNames]

theorem Draft.map_fst_elementPlaces :
    (elementPlaces (sealed d.banks)).map (·.1) = arrayNames d.banks.flatten := by
  have array?_item : Option.map Prod.fst ∘ Piece.array? ∘ Piece.item = Instruction.array? := by
    funext i
    cases i <;> rfl
  have names : (elementPlaces (sealed d.banks)).map (·.1) =
      ((arrayPlaces (sealed d.banks)).map (·.1)).map (·.1) := by
    rw [elementPlaces, List.map_map, List.map_map]
    rfl
  rw [names, arrayPlaces, map_fst_findPlaces, ← d.plan_banks, Draft.plan_filterMap rfl,
    List.map_filterMap, arrayNames, ← array?_item]
  rfl

/-- The names noted for labels are those of the labels there are. -/
theorem Draft.mem_plan_labels {name : String} :
    name ∈ d.plan.labels.map (·.1) ↔ name ∈ labelNames d.banks.flatten := by
  rw [← d.map_fst_labelPlaces]
  exact mem_map_fst_noted

/-- The names noted for arrays are those of the arrays there are. -/
theorem Draft.mem_plan_arrays {name : String} :
    name ∈ d.plan.arrays.map (·.1) ↔ name ∈ arrayNames d.banks.flatten := by
  rw [← d.map_fst_elementPlaces]
  exact mem_map_fst_noted

/-- Laying out one more instruction is a run of moves, and refuses a name that is there. -/
theorem Draft.place_eq_ok (hd : d.offset ≤ d.usable o) (h : d.plan.place o i = .ok q) :
    ∃ e : Draft, q = e.plan ∧ Fill o d [i] e ∧
      (∀ name ∈ i.label?, name ∉ labelNames d.banks.flatten) ∧
      ∀ name ∈ i.array?, name ∉ arrayNames d.banks.flatten := by
  cases i with
  | label name =>
    simp only [Plan.place] at h
    split at h
    · simp at h
    · next fresh =>
      obtain rfl : d.plan.push (.label name) = q := by simpa using h
      rw [Draft.mem_plan_labels] at fresh
      refine ⟨d.push (.label name), (d.plan_push _).symm, .push hd (.done _), ?_, ?_⟩
      · simpa [Instruction.label?] using fresh
      · simp [Instruction.array?]
  | text bytes =>
    simp only [Plan.place, Plan.placeText] at h
    obtain ⟨e, rfl, he⟩ : ∃ e : Draft, q = e.plan ∧ Fill o d [.text bytes] e := by
      split at h
      · next sliced => exact Draft.fill_of_placeSliced sliced h
      · obtain ⟨p, hp, hq⟩ := bind_eq_ok.mp h
        obtain ⟨e, rfl, he, -⟩ := @Draft.fill_of_makeRoom o d p (.text bytes) hp
        obtain rfl : e.plan.push (.text bytes) = q := by simpa [pure, Except.pure] using hq
        exact ⟨_, (e.plan_push _).symm, he⟩
    exact ⟨e, rfl, he, by simp [Instruction.label?], by simp [Instruction.array?]⟩
  | array name bytes =>
    simp only [Plan.place] at h
    obtain ⟨p, hp, hq⟩ := bind_eq_ok.mp h
    obtain ⟨e, rfl, he, same⟩ := Draft.fill_of_makeRoom hp
    split at hq
    · simp at hq
    · next fresh =>
      obtain rfl : e.plan.push (.array name bytes) = q := by simpa using hq
      rw [Draft.mem_plan_arrays, same] at fresh
      refine ⟨_, (e.plan_push _).symm, he, by simp [Instruction.label?], ?_⟩
      simpa [Instruction.array?] using fresh
  | code op xs =>
    simp only [Plan.place] at h
    obtain ⟨p, hp, hq⟩ := bind_eq_ok.mp h
    obtain ⟨e, rfl, he, -⟩ := Draft.fill_of_makeRoom hp
    obtain rfl : e.plan.push (.code op xs) = q := by simpa [pure, Except.pure] using hq
    exact ⟨_, (e.plan_push _).symm, he, by simp [Instruction.label?], by simp [Instruction.array?]⟩

end Steps

/-! ## Whole programs -/

/-- Names stay different when one more is added that is not there. -/
theorem nodup_filterMap_concat {f : Instruction → Option String} {code : List Instruction}
    {i : Instruction} (h : (code.filterMap f).Nodup)
    (fresh : ∀ name ∈ f i, name ∉ code.filterMap f) :
    ((code ++ [i]).filterMap f).Nodup := by
  rw [List.filterMap_append]
  cases hi : f i with
  | none => simpa [hi] using h
  | some name =>
    simp only [List.filterMap_cons, hi, List.filterMap_nil]
    rw [← List.concat_eq_append]
    exact List.Nodup.concat (fresh name hi) h

/-- A program that is laid out was filled in from the front, and its labels and arrays have names
of their own. -/
theorem Plan.of_eq_ok {o : Options} {code : List Instruction} {q : Plan}
    (h : Plan.of o code = .ok q) :
    ∃ d : Draft, q = d.plan ∧ Fill o .empty code d ∧ (labelNames code).Nodup ∧
      (arrayNames code).Nodup := by
  induction code using List.reverseRecOn generalizing q with
  | nil =>
    obtain rfl : Plan.empty = q := by simpa [Plan.of, pure, Except.pure] using h
    exact ⟨.empty, rfl, .done _, .nil, .nil⟩
  | append_singleton code i ih =>
    rw [Plan.of, List.foldlM_append] at h
    obtain ⟨p, hp, hq⟩ := bind_eq_ok.mp h
    obtain ⟨d, rfl, hd, labels, arrays⟩ := ih hp
    rw [List.foldlM_cons] at hq
    obtain ⟨r, hr, last⟩ := bind_eq_ok.mp hq
    obtain rfl : r = q := by simpa [pure, Except.pure] using last
    obtain ⟨e, rfl, he, newLabel, newArray⟩ :=
      Draft.place_eq_ok (hd.sound .empty).offset_le hr
    rw [hd.spread.labelNames_flatten] at newLabel
    rw [hd.spread.arrayNames_flatten] at newArray
    refine ⟨e, rfl, hd.trans he, ?_, ?_⟩
    · exact nodup_filterMap_concat labels newLabel
    · exact nodup_filterMap_concat arrays newArray

/-- What was noted while a program was laid out, and noted again when labels moved, is where things
lie in the end. -/
theorem Plan.places_of_eq_ok {o : Options} {code : List Instruction} {p : Plan}
    (h : Plan.of o code = .ok p) :
    p.labels = labelPlaces p.banks ∧ p.arrays = elementPlaces p.banks := by
  obtain ⟨d, rfl, fill, labels, arrays⟩ := Plan.of_eq_ok h
  rw [← fill.spread.labelNames_flatten, ← d.map_fst_labelPlaces] at labels
  rw [← fill.spread.arrayNames_flatten, ← d.map_fst_elementPlaces] at arrays
  rw [d.plan_banks]
  exact ⟨noted_eq_self labels, noted_eq_self arrays⟩

theorem layout_eq_ok {o : Options} {code : List Instruction} {banks : List (List Piece)}
    (h : layout o code = .ok banks) :
    ∃ d : Draft, Plan.of o code = .ok d.plan ∧ banks = sealed d.banks ∧ Fill o .empty code d ∧
      (labelNames code).Nodup ∧ (arrayNames code).Nodup := by
  obtain ⟨q, hq, hbanks⟩ := bind_eq_ok.mp h
  obtain ⟨d, rfl, hd⟩ := Plan.of_eq_ok hq
  obtain rfl : d.plan.banks = banks := by simpa [pure, Except.pure] using hbanks
  exact ⟨d, hq, d.plan_banks, hd⟩

end Gamebook.Memory
