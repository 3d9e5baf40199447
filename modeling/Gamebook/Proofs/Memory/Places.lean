import Gamebook.Proofs.Memory.Encoding

/-!
# Where pieces lie

What operands refer to is what was noted while the program was laid out, and that is where things
lie (`Placed.labels_eq_labelPlaces`, `Placed.arrays_eq_arrayPlaces`). With names that differ, looking
a name up finds the one place there is (`Placed.lookup_label`, `Placed.lookup_array`).

No piece starts beyond what a bank can be filled with (`Placed.start_le`), which is what keeps
every address inside its window.
-/

namespace Gamebook.Memory

theorem lookup_eq_some_of_mem {β : Type} {entries : List (String × β)} {name : String} {b : β}
    (nodup : (entries.map (·.1)).Nodup) (h : (name, b) ∈ entries) :
    entries.lookup name = some b := by
  obtain ⟨front, back, rfl⟩ := List.append_of_mem h
  refine List.lookup_eq_some_iff.mpr ⟨front, back, rfl, fun entry hentry => ?_⟩
  have : name ∉ front.map (·.1) := by
    rw [List.map_append, List.nodup_append] at nodup
    exact fun hn => nodup.2.2 name hn name (by simp) rfl
  have ne : name ≠ entry.1 := fun e => this (e ▸ List.mem_map_of_mem hentry)
  simpa using ne

theorem mem_of_lookup {β : Type} {entries : List (String × β)} {name : String} {b : β}
    (h : entries.lookup name = some b) : (name, b) ∈ entries := by
  obtain ⟨front, back, rfl, -⟩ := List.lookup_eq_some_iff.mp h
  simp

/-! ## Banks of a placed program -/

theorem getElem?_sealed (banks : List (List Instruction)) (k : Nat) :
    (sealed banks)[k]? = banks[k]?.map fun b =>
      b.map Piece.item ++ if k + 1 < banks.length then [.bridge] else [] := by
  induction banks generalizing k with
  | nil => rfl
  | cons b bs ih =>
    cases bs with
    | nil => cases k <;> simp [sealed]
    | cons c bs =>
      cases k with
      | zero => simp [sealed, bridged]
      | succ k =>
        rw [sealed, List.getElem?_cons_succ, ih, List.getElem?_cons_succ]
        simp

theorem sealed_injective : Function.Injective sealed := by
  intro bs cs same
  have length_eq := congrArg List.length same
  rw [length_sealed, length_sealed] at length_eq
  refine List.ext_getElem? fun k => ?_
  have here := congrArg (·[k]?) same
  simp only [getElem?_sealed, length_eq] at here
  refine Option.map_injective (fun b c equal => ?_) here
  exact List.map_injective_iff.mpr (fun _ _ => Piece.item.inj) (List.append_cancel_right equal)

namespace Draft.Sound

variable {o : Options} {d : Draft} {k : Nat} {b : List Instruction}

theorem size_le (h : d.Sound o) (hb : d.banks[k]? = some b) :
    codeSize b ≤ (o.window k).usable := by
  rcases Nat.lt_or_ge k d.closed.length with hk | hk
  · rw [Draft.banks, List.getElem?_append_left hk] at hb
    exact h.closed_le k b hb
  · rw [Draft.banks, List.getElem?_append_right hk] at hb
    obtain ⟨hk', rfl⟩ : k - d.closed.length = 0 ∧ d.current = b := by
      cases e : k - d.closed.length <;> simp_all
    obtain rfl : k = d.closed.length := by omega
    exact h.offset_le

theorem tight (h : d.Sound o) (hb : d.banks[k]? = some b) (hk : k + 1 < d.banks.length) :
    Tight b := by
  have hk : k < d.closed.length := by simpa [Draft.banks] using hk
  rw [Draft.banks, List.getElem?_append_left hk] at hb
  exact h.closed_tight b (List.mem_of_getElem? hb)

end Draft.Sound

namespace Placed

variable {o : Options} {symbols : Symbol.Table} {code : List Instruction} {image : Image}
  {d : Draft}

/-- A piece starts within what can be filled of its bank, and ends there if it is no jump to the
next bank. -/
theorem start_le (h : Placed o symbols code image d) {k : Nat} {p : Piece} {ps₁ ps₂ : List Piece}
    (hk : (sealed d.banks)[k]? = some (ps₁ ++ p :: ps₂)) :
    k < d.banks.length ∧ totalSize ps₁ ≤ (o.window k).usable ∧
      (p ≠ .bridge → totalSize ps₁ + p.size ≤ (o.window k).usable) := by
  rw [getElem?_sealed] at hk
  obtain ⟨b, hb, e⟩ := Option.map_eq_some_iff.mp hk
  have size_le := h.sound.size_le hb
  refine ⟨(List.getElem?_eq_some_iff.mp hb).1, ?_⟩
  rw [← totalSize_map_item] at size_le
  -- the piece is one of the bank's instructions, or the jump behind them
  rcases List.append_eq_append_iff.mp e with ⟨c, rfl, htail⟩ | ⟨c, hitems, hrest⟩
  · obtain ⟨rfl, rfl⟩ : c = [] ∧ p = .bridge := by
      split at htail
      · cases c with
        | nil => simpa [eq_comm] using (List.cons.inj htail).1
        | cons q c => simp at htail
      · simp at htail
    simpa using size_le
  · rw [hitems, totalSize_append] at size_le
    refine ⟨by omega, fun hp => ?_⟩
    cases c with
    | nil =>
      split at hrest <;> simp_all
    | cons q c =>
      obtain ⟨rfl, -⟩ := List.cons.inj hrest
      rw [totalSize_cons] at size_le
      omega

/-- A bank holds the bytes of its instructions and, unless it is the last, a jump to the next. -/
theorem bank_eq (h : Placed o symbols code image d) {k : Nat} {b : List Instruction}
    (hb : d.banks[k]? = some b) :
    ∃ body, image.banks[k]? = some ⟨o.window k, body ++ if k + 1 < d.banks.length then
        Opcode.GOTO.code :: (Place.address o ⟨k + 1, 0⟩).bytes else []⟩ ∧
      (resolution o symbols code).Writes o k (b.map .item) body := by
  obtain ⟨bytes, hbytes, writes⟩ := h.bank k _ (by rw [getElem?_sealed, hb]; rfl)
  obtain ⟨body, tail, rfl, hbody, htail⟩ := writes.append_inv
  refine ⟨body, ?_, hbody⟩
  rw [hbytes]
  split at htail
  · next more =>
    cases htail with
    | cons hbridge hnil =>
      cases hnil
      obtain rfl := Except.ok.inj hbridge
      rw [if_pos more, List.append_nil]
  · next last =>
    cases htail
    rw [if_neg last]

variable {front back : List (List Instruction)} {b₁ b₂ : List Instruction}

theorem labels_eq_labelPlaces (h : Placed o symbols code image d) :
    (resolution o symbols code).labels =
      (labelPlaces (sealed d.banks)).map fun (name, place) => (name, place.address o) := by
  rw [h.resolution_eq, Context.of, (Plan.places_of_eq_ok h.plan_eq).1, d.plan_banks]

theorem arrays_eq_arrayPlaces (h : Placed o symbols code image d) :
    (resolution o symbols code).arrays =
      (arrayPlaces (sealed d.banks)).map fun ((name, length), place) =>
        (name, { place with offset := place.offset + 2 }.address o, length) := by
  rw [h.resolution_eq, Context.of, (Plan.places_of_eq_ok h.plan_eq).2, d.plan_banks, elementPlaces,
    List.map_map]
  rfl

theorem map_fst_labels (h : Placed o symbols code image d) :
    (resolution o symbols code).labels.map (·.1) = labelNames code := by
  rw [h.labels_eq_labelPlaces, List.map_map, ← h.spread.labelNames_flatten, ← d.map_fst_labelPlaces]
  rfl

theorem map_fst_arrays (h : Placed o symbols code image d) :
    (resolution o symbols code).arrays.map (·.1) = arrayNames code := by
  rw [h.arrays_eq_arrayPlaces, List.map_map, ← h.spread.arrayNames_flatten,
    ← d.map_fst_elementPlaces, elementPlaces, List.map_map]
  rfl

/-- The name of a label finds its place. -/
theorem lookup_label (h : Placed o symbols code image d) {name : String}
    (hd : d.banks = front ++ (b₁ ++ .label name :: b₂) :: back) :
    (resolution o symbols code).labels.lookup name =
      some (Place.address o ⟨front.length, codeSize b₁⟩) := by
  refine lookup_eq_some_of_mem (h.map_fst_labels ▸ h.labels_nodup) ?_
  rw [h.labels_eq_labelPlaces]
  refine List.mem_map.mpr ⟨(name, ⟨front.length, codeSize b₁⟩), ?_, rfl⟩
  refine mem_findPlaces.mpr ⟨front.length, b₁.map .item, .item (.label name), ?_⟩
  rw [getElem?_sealed, hd]
  simp [Piece.label?, totalSize_map_item]

/-- The name of an array finds the place of its first element, which is behind an opcode and a
length. -/
theorem lookup_array (h : Placed o symbols code image d) {name : String} {bytes : List UInt8}
    (hd : d.banks = front ++ (b₁ ++ .array name bytes :: b₂) :: back) :
    (resolution o symbols code).arrays.lookup name =
      some (Place.address o ⟨front.length, codeSize b₁ + 2⟩, bytes.length) := by
  refine lookup_eq_some_of_mem (h.map_fst_arrays ▸ h.arrays_nodup) ?_
  rw [h.arrays_eq_arrayPlaces]
  refine List.mem_map.mpr ⟨((name, bytes.length), ⟨front.length, codeSize b₁⟩), ?_, rfl⟩
  refine mem_findPlaces.mpr ⟨front.length, b₁.map .item, .item (.array name bytes), ?_⟩
  rw [getElem?_sealed, hd]
  simp [Piece.array?, totalSize_map_item]

end Placed

end Gamebook.Memory
