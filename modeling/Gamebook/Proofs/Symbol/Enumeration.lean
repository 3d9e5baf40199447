import Mathlib
import Gamebook.Proofs.Source.Positions
import Gamebook.Proofs.Symbol.Agreement

/-!
# The order in which names are kept

A table says nothing about the order of its entries that could matter. What is found wrong in the
end is put in order by where names were first used, and names that were not used give rise to
nothing; so if no two names were first used at one place, the order of the entries is of no
consequence (`finish_of_perm`).

That names are used at different places cannot be seen from a table alone. It comes from the script
that the uses stand in: `Cited` says of a table that all its uses are from somewhere.
-/

namespace Gamebook.Symbol

/-- Where a name is first used, which is before everything if it never is. -/
def Entry.firstUse (e : Entry) : WithBot Position :=
  match e.usages with
  | [] => ⊥
  | u :: _ => u.place.start

theorem Entry.firstUse_eq_bot {e : Entry} : e.firstUse = ⊥ ↔ e.usages = [] := by
  unfold firstUse
  cases e.usages <;> simp

theorem Entry.exists_use {e : Entry} {p : Position} (h : e.firstUse = p) :
    ∃ u ∈ e.usages, u.place.start = p := by
  unfold firstUse at h
  split at h
  · simp at h
  · next u us used => exact ⟨u, by simp [used], WithBot.coe_injective h⟩

namespace Table

variable {t t' : Table} {e f : Entry}

/-! ## Errors in the end -/

theorem firstUseLe_iff : firstUseLe e f = true ↔ e.firstUse ≤ f.firstUse := by
  unfold firstUseLe Entry.firstUse
  cases e.usages <;> cases f.usages <;> simp

theorem atEnd_of_unused (h : e.usages = []) : atEnd e = [] := by
  unfold atEnd
  rw [h]
  cases e.declared <;> rfl

/-- Only names that are used count in the end. -/
theorem finish_eq (t : Table) :
    t.finish = ((t.entries.mergeSort firstUseLe).filter (!·.usages.isEmpty)).flatMap atEnd := by
  rw [finish]
  induction t.entries.mergeSort firstUseLe with
  | nil => rfl
  | cons e es ih =>
    cases used : e.usages with
    | nil => simp [used, atEnd_of_unused used, ih]
    | cons u us => simp [used, ih]

/-- No two names that are used are first used at one place. -/
def Apart (t : Table) : Prop :=
  ∀ e ∈ t.entries, ∀ f ∈ t.entries, e.usages ≠ [] → e.firstUse = f.firstUse → e = f

theorem finish_of_perm (apart : t.Apart) {es : List Entry} (perm : es.Perm t.entries) :
    (Table.mk es).finish = t.finish := by
  have sorted (es : List Entry) : (es.mergeSort firstUseLe).Pairwise (firstUseLe · ·) := by
    refine List.pairwise_mergeSort (fun a b c => ?_) (fun a b => ?_) es
    · simp only [firstUseLe_iff]
      exact le_trans
    · simp only [Bool.or_eq_true, firstUseLe_iff]
      exact le_total _ _
  have same : (es.mergeSort firstUseLe).Perm (t.entries.mergeSort firstUseLe) :=
    (List.mergeSort_perm _ _).trans (perm.trans (List.mergeSort_perm _ _).symm)
  rw [finish_eq, finish_eq]
  congr 1
  refine List.Perm.eq_of_pairwise (fun a b ha hb le le' => ?_) ((sorted es).filter _)
    ((sorted t.entries).filter _) (same.filter _)
  -- what the order does not tell apart is one entry
  rw [List.mem_filter, List.mem_mergeSort] at ha hb
  rw [firstUseLe_iff] at le le'
  exact apart a (perm.mem_iff.mp ha.1) b hb.1 (by simpa using ha.2) (le_antisymm le le')

/-! ## Where uses are from -/

/-- Every use of a name is one of these. -/
def Cited (names : Located String → Prop) (t : Table) : Prop :=
  ∀ e ∈ t.entries, ∀ u ∈ e.usages, names ⟨e.name, u.place⟩

theorem mem_put (h : f ∈ (t.put e).entries) : f = e ∨ f ∈ t.entries := by
  unfold put at h
  split at h
  · obtain ⟨g, hg, rfl⟩ := List.mem_map.mp h
    split
    · exact .inl rfl
    · exact .inr hg
  · rcases List.mem_append.mp h with h | h
    · exact .inr h
    · exact .inl (List.mem_singleton.mp h)

namespace Cited

variable {names : Located String → Prop} {id : Located String} {kind : Kind} {what : Declaration}

theorem entry (h : t.Cited names) (name : String) :
    ∀ u ∈ (t.entry name).usages, names ⟨name, u.place⟩ := by
  unfold Table.entry
  cases found : t.get? name with
  | none => simp
  | some e =>
    obtain rfl := name_of_get? found
    exact h e (List.mem_of_find?_eq_some found)

theorem put (h : t.Cited names) (new : ∀ u ∈ e.usages, names ⟨e.name, u.place⟩) :
    (t.put e).Cited names := by
  intro f mem
  rcases mem_put mem with rfl | mem
  · exact new
  · exact h f mem

theorem declare (h : t.Cited names) (run : t.declare id what = .ok t') : t'.Cited names := by
  rw [(declare_eq_ok run).2.2]
  exact h.put (by simpa using h.entry id.value)

theorem use (h : t.Cited names) (named : names id) (run : t.use id kind = .ok t') :
    t'.Cited names := by
  rw [use_eq_ok run]
  refine h.put fun u mem => ?_
  rcases List.mem_append.mp mem with mem | mem
  · simpa using h.entry id.value u mem
  · obtain rfl := List.mem_singleton.mp mem
    simpa using named

/-- If no two names are the same place, no two of the table are first used at one place. -/
theorem apart (h : t.Cited names) (distinct : t.Distinct)
    (placed : ∀ m n, names m → names n → m.place.start = n.place.start → m.value = n.value) :
    t.Apart := by
  intro e he f hf used same
  have uses : e.firstUse ≠ ⊥ := fun none => used (Entry.firstUse_eq_bot.mp none)
  obtain ⟨p, first⟩ := WithBot.ne_bot_iff_exists.mp uses
  obtain ⟨u, hu, rfl⟩ := Entry.exists_use first.symm
  obtain ⟨v, hv, again⟩ := Entry.exists_use (same.symm.trans first.symm)
  have name : e.name = f.name := placed _ _ (h e he u hu) (h f hf v hv) again.symm
  have entries := distinct e he
  rw [name, distinct f hf] at entries
  exact (Option.some.inj entries).symm

end Cited

end Table

end Gamebook.Symbol
