import Gamebook.Memory.Layout

/-!
# Where pieces lie, and what is noted of it

Where a label or an array lies can be read off the pieces before it (`labelPlaces`, `arrayPlaces`).
`mem_findPlaces` says this as an equivalence: something is found at a place if and only if its piece
is in that bank, behind pieces of that size.

While a program is laid out, places are noted under names instead, and some are noted again later.
`noteAll_again` says that only the last note for a name counts, and `noted_eq_self` that nothing is
lost where all names differ.
-/

namespace Gamebook.Memory

/-! ## Finding pieces -/

/-- What `f` finds in the pieces of a bank, with the offset of each, which is counted from
`start`. -/
def findPieces {α : Type} (f : Piece → Option α) (start : Nat) : List Piece → List (α × Nat)
  | [] => []
  | p :: ps =>
    let rest := findPieces f (start + p.size) ps
    match f p with
    | some a => (a, start) :: rest
    | none => rest

/-- What `f` finds in the banks from number `bank` on, with the place of each. -/
def findPlaces {α : Type} (f : Piece → Option α) (bank : Nat) :
    List (List Piece) → List (α × Place)
  | [] => []
  | b :: bs =>
    (findPieces f 0 b).map (fun (a, offset) => (a, ⟨bank, offset⟩)) ++ findPlaces f (bank + 1) bs

/-- The labels and their places. -/
def labelPlaces (banks : List (List Piece)) : List (String × Place) :=
  findPlaces Piece.label? 0 banks

/-- The arrays with their lengths and the places of their opcodes. -/
def arrayPlaces (banks : List (List Piece)) : List ((String × Nat) × Place) :=
  findPlaces Piece.array? 0 banks

/-- The arrays with the places of their first elements, which come behind an opcode and a length. -/
def elementPlaces (banks : List (List Piece)) : List (String × Place × Nat) :=
  (arrayPlaces banks).map fun ((name, length), place) =>
    (name, { place with offset := place.offset + 2 }, length)

section Find

variable {α : Type} {f : Piece → Option α} {a : α}

theorem mem_findPieces {start n : Nat} {ps : List Piece} :
    (a, n) ∈ findPieces f start ps ↔
      ∃ ps₁ p ps₂, ps = ps₁ ++ p :: ps₂ ∧ f p = some a ∧ n = start + totalSize ps₁ := by
  induction ps generalizing start with
  | nil => simp [findPieces]
  | cons q ps ih =>
    have mem_tail : (a, n) ∈ findPieces f (start + q.size) ps ↔
        ∃ ps₁ p ps₂, q :: ps = (q :: ps₁) ++ p :: ps₂ ∧ f p = some a ∧
          n = start + totalSize (q :: ps₁) := by
      simp [ih, Nat.add_assoc]
    constructor
    · intro h
      have : (f q = some a ∧ n = start) ∨ (a, n) ∈ findPieces f (start + q.size) ps := by
        unfold findPieces at h
        split at h
        · next b hb =>
          rcases List.mem_cons.mp h with h | h
          · obtain ⟨rfl, rfl⟩ := Prod.mk.inj h
            exact .inl ⟨hb, rfl⟩
          · exact .inr h
        · exact .inr h
      rcases this with ⟨hq, rfl⟩ | h
      · exact ⟨[], q, ps, rfl, hq, rfl⟩
      · obtain ⟨ps₁, p, ps₂, h⟩ := mem_tail.mp h
        exact ⟨q :: ps₁, p, ps₂, h⟩
    · rintro ⟨ps₁, p, ps₂, e, hp, rfl⟩
      unfold findPieces
      cases ps₁ with
      | nil =>
        obtain ⟨rfl, rfl⟩ : q = p ∧ ps = ps₂ := by simpa using e
        simp [hp]
      | cons r ps₁ =>
        obtain rfl : q = r := (List.cons.inj e).1
        have := mem_tail.mpr ⟨ps₁, p, ps₂, e, hp, rfl⟩
        split
        · exact List.mem_cons_of_mem _ this
        · exact this

/-- What is found lies behind pieces of that size in that bank, and everything is found. -/
theorem mem_findPlaces {bank : Nat} {place : Place} {banks : List (List Piece)} :
    (a, place) ∈ findPlaces f bank banks ↔
      ∃ k ps₁ p ps₂, banks[k]? = some (ps₁ ++ p :: ps₂) ∧ f p = some a ∧
        place = ⟨bank + k, totalSize ps₁⟩ := by
  induction banks generalizing bank with
  | nil => simp [findPlaces]
  | cons b banks ih =>
    rw [findPlaces, List.mem_append, List.mem_map, ih]
    constructor
    · rintro (⟨⟨a, n⟩, h, e⟩ | ⟨k, ps₁, p, ps₂, hb, hp, rfl⟩)
      · obtain ⟨rfl, rfl⟩ := Prod.mk.inj e
        obtain ⟨ps₁, p, ps₂, rfl, hp, rfl⟩ := mem_findPieces.mp h
        exact ⟨0, ps₁, p, ps₂, rfl, hp, by rw [Nat.zero_add, Nat.add_zero]⟩
      · exact ⟨k + 1, ps₁, p, ps₂, hb, hp, by rw [Nat.add_assoc, Nat.add_comm 1 k]⟩
    · rintro ⟨k, ps₁, p, ps₂, hb, hp, rfl⟩
      cases k with
      | zero =>
        obtain rfl : b = ps₁ ++ p :: ps₂ := by simpa using hb
        refine .inl ⟨(a, totalSize ps₁), mem_findPieces.mpr ⟨ps₁, p, ps₂, rfl, hp, ?_⟩, rfl⟩
        rw [Nat.zero_add]
      | succ k =>
        exact .inr ⟨k, ps₁, p, ps₂, hb, hp, by rw [Nat.add_assoc, Nat.add_comm 1 k]⟩

theorem map_fst_findPieces (start : Nat) (ps : List Piece) :
    (findPieces f start ps).map (·.1) = ps.filterMap f := by
  induction ps generalizing start with
  | nil => rfl
  | cons p ps ih =>
    unfold findPieces
    split
    · next hp => rw [List.map_cons, ih, List.filterMap_cons_some hp]
    · next hp => rw [ih, List.filterMap_cons_none hp]

theorem map_fst_findPlaces (bank : Nat) (banks : List (List Piece)) :
    (findPlaces f bank banks).map (·.1) = banks.flatMap (·.filterMap f) := by
  induction banks generalizing bank with
  | nil => rfl
  | cons b banks ih =>
    rw [findPlaces, List.map_append, ih, List.map_map, List.flatMap_cons, ← map_fst_findPieces 0 b]
    rfl

theorem findPieces_append (start : Nat) (ps qs : List Piece) :
    findPieces f start (ps ++ qs) =
      findPieces f start ps ++ findPieces f (start + totalSize ps) qs := by
  induction ps generalizing start with
  | nil => rfl
  | cons p ps ih =>
    rw [totalSize_cons, ← Nat.add_assoc]
    simp only [List.cons_append, findPieces, ih]
    cases f p <;> rfl

theorem findPlaces_concat (bank : Nat) (bs : List (List Piece)) (b : List Piece) :
    findPlaces f bank (bs ++ [b]) = findPlaces f bank bs ++
      (findPieces f 0 b).map fun (a, offset) => (a, ⟨bank + bs.length, offset⟩) := by
  induction bs generalizing bank with
  | nil => simp [findPlaces]
  | cons c bs ih =>
    rw [List.cons_append, findPlaces, ih, findPlaces, List.length_cons, Nat.add_right_comm,
      Nat.add_assoc, List.append_assoc]

end Find

/-- Labels at the end of a bank all lie at the same place. -/
theorem findPieces_label? {ps : List Piece} (h : ∀ p ∈ ps, p.isLabel = true) (start : Nat) :
    findPieces Piece.label? start ps = (ps.filterMap Piece.label?).map (·, start) := by
  induction ps with
  | nil => rfl
  | cons p ps ih =>
    have label := h p List.mem_cons_self
    simp only [findPieces, Piece.size_eq_zero_of_isLabel label, Nat.add_zero,
      ih fun q hq => h q (List.mem_cons_of_mem p hq)]
    cases found : p.label? <;> simp [found]

theorem findPieces_array? {ps : List Piece} (h : ∀ p ∈ ps, p.isLabel = true) (start : Nat) :
    findPieces Piece.array? start ps = [] := by
  induction ps generalizing start with
  | nil => rfl
  | cons p ps ih =>
    have none : p.array? = none := by
      have label := h p List.mem_cons_self
      unfold Piece.isLabel at label
      split at label
      · rfl
      · contradiction
    simp only [findPieces, none]
    exact ih (fun q hq => h q (List.mem_cons_of_mem p hq)) _

/-! ## Notes -/

/-- Notes one after the other. -/
def noteAll {α : Type} (entries news : List (String × α)) : List (String × α) :=
  news.foldl (fun entries e => note entries e.1 e.2) entries

/-- What there is after these notes. -/
def noted {α : Type} (news : List (String × α)) : List (String × α) := noteAll [] news

section Note

variable {α : Type}

theorem noted_append (old new : List (String × α)) : noted (old ++ new) = noteAll (noted old) new :=
  List.foldl_append

theorem all_ne_iff {name : String} {news : List (String × α)} :
    (news.all fun n => name ≠ n.1) = true ↔ name ∉ news.map (·.1) := by
  rw [List.all_eq_true, List.mem_map]
  constructor
  · rintro differ ⟨n, hn, rfl⟩
    exact of_decide_eq_true (differ n hn) rfl
  · intro fresh n hn
    exact decide_eq_true fun same => fresh ⟨n, hn, same.symm⟩

/-- What was noted before is kept for all other names. -/
theorem noteAll_eq (entries news : List (String × α)) :
    noteAll entries news = (entries.filter fun e => news.all (e.1 ≠ ·.1)) ++ noted news := by
  induction news generalizing entries with
  | nil => simp [noted, noteAll, List.filter_eq_self.mpr]
  | cons e news ih =>
    have step (es : List (String × α)) : noteAll es (e :: news) = noteAll (note es e.1 e.2) news :=
      rfl
    rw [noted, step, step, ih, ih (note [] e.1 e.2), note, List.filter_append, List.append_assoc,
      List.filter_filter]
    simp [note, Bool.and_comm]

theorem mem_map_fst_of_mem_noted {news : List (String × α)} {e : String × α}
    (h : e ∈ noted news) : e.1 ∈ news.map (·.1) := by
  induction news with
  | nil => simp [noted, noteAll] at h
  | cons first news ih =>
    have h : e ∈ noteAll (note [] first.1 first.2) news := h
    rw [noteAll_eq, List.mem_append] at h
    rcases h with here | later
    · have : e = first := by simpa [note] using (List.mem_filter.mp here).1
      simp [this]
    · exact List.mem_cons_of_mem _ (ih later)

/-- Noting the same names once more replaces what was noted for them. -/
theorem noteAll_again {entries old new : List (String × α)} (same : old.map (·.1) = new.map (·.1)) :
    noteAll (noteAll entries old) new = noteAll entries new := by
  have gone : ((noted old).filter fun e => new.all (e.1 ≠ ·.1)) = [] := by
    refine List.filter_eq_nil_iff.mpr fun e he => ?_
    rw [all_ne_iff, ← same]
    exact fun fresh => fresh (mem_map_fst_of_mem_noted he)
  have twice (name : String) : (old.all fun n => name ≠ n.1) = new.all fun n => name ≠ n.1 := by
    rw [Bool.eq_iff_iff, all_ne_iff, all_ne_iff, same]
  rw [noteAll_eq entries old, noteAll_eq _ new, List.filter_append, gone, List.append_nil,
    List.filter_filter, noteAll_eq entries new]
  simp only [twice, Bool.and_self]

/-- Where all names differ, everything noted is still there. -/
theorem noted_eq_self {news : List (String × α)} (nodup : (news.map (·.1)).Nodup) :
    noted news = news := by
  induction news with
  | nil => rfl
  | cons e news ih =>
    obtain ⟨fresh, nodup⟩ := List.nodup_cons.mp nodup
    have first : noted (e :: news) = noteAll [e] news := rfl
    rw [first, noteAll_eq, ih nodup, List.filter_cons, if_pos (all_ne_iff.mpr fresh)]
    rfl

/-- The names that were noted. -/
theorem mem_map_fst_noted {news : List (String × α)} {name : String} :
    name ∈ (noted news).map (·.1) ↔ name ∈ news.map (·.1) := by
  constructor
  · intro h
    obtain ⟨e, he, rfl⟩ := List.mem_map.mp h
    exact mem_map_fst_of_mem_noted he
  · induction news with
    | nil => simp
    | cons e news ih =>
      intro h
      have first : noted (e :: news) = noteAll [e] news := rfl
      rw [first, noteAll_eq, List.map_append, List.mem_append]
      by_cases later : name ∈ news.map (·.1)
      · exact .inr (ih later)
      · have here : name = e.1 := (List.mem_cons.mp h).resolve_right later
        subst here
        rw [List.filter_cons, if_pos (all_ne_iff.mpr later)]
        exact .inl (by simp)

end Note

end Gamebook.Memory
