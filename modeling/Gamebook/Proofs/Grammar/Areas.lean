import Gamebook.Proofs.Grammar.References
import Gamebook.Proofs.Grammar.Rows

/-!
# Areas and windows

`MARGINS` and `FADEOUT` take an area of the screen, `WINDOW` takes the number of a window. If their
constants are known when the statement is read, they have to be bytes, and the area is cut down to
the screen or the number to its low bits. Otherwise the expressions are kept for later: those of an
area as they are, so that nothing is cut off it, and that of a window with the low bits already
taken, so that any number will do.

`Drawing.places_of_moved` says for which constants this makes no difference to the statement: areas
that are all on the screen, and windows whose number is a byte. `margins_uncut_window_unchecked` has
two scripts that mean something else when a declaration is moved.
-/

namespace Gamebook

/-! ## Areas of the screen -/

namespace Screen

theorem toNat_min (a b : UInt16) : (min a b).toNat = min a.toNat b.toNat := by
  change (if a ≤ b then a else b).toNat = _
  by_cases le : a ≤ b
  · rw [if_pos le]
    rw [UInt16.le_iff_toNat_le] at le
    omega
  · rw [if_neg le]
    rw [UInt16.le_iff_toNat_le] at le
    omega

namespace Area

/-- The area begins and ends on the screen. -/
structure OnScreen (a : Area) : Prop where
  column : a.column.toNat ≤ 31
  row : a.row.toNat ≤ 23
  width : a.column.toNat + a.width.toNat ≤ 32
  height : a.row.toNat + a.height.toNat ≤ 24

theorem clamp_column (a : Area) : a.clamp.column.toNat = min a.column.toNat 31 := toNat_min _ _

theorem clamp_row (a : Area) : a.clamp.row.toNat = min a.row.toNat 23 := toNat_min _ _

theorem clamp_width (a : Area) :
    a.clamp.width.toNat = min a.width.toNat (32 - min a.column.toNat 31) := by
  have column := a.clamp_column
  have below : a.clamp.column ≤ columns := by
    rw [UInt16.le_iff_toNat_le]
    change _ ≤ 32
    omega
  change (min a.width (columns - a.clamp.column)).toNat = _
  rw [toNat_min, UInt16.toNat_sub_of_le _ _ below, column]
  rfl

theorem clamp_height (a : Area) :
    a.clamp.height.toNat = min a.height.toNat (24 - min a.row.toNat 23) := by
  have row := a.clamp_row
  have below : a.clamp.row ≤ rows := by
    rw [UInt16.le_iff_toNat_le]
    change _ ≤ 24
    omega
  change (min a.height (rows - a.clamp.row)).toNat = _
  rw [toNat_min, UInt16.toNat_sub_of_le _ _ below, row]
  rfl

/-- What is left of an area lies on the screen. -/
theorem clamp_onScreen (a : Area) : a.clamp.OnScreen := by
  have column := a.clamp_column
  have row := a.clamp_row
  have width := a.clamp_width
  have height := a.clamp_height
  constructor <;> omega

/-- The numbers of the area as bytes. -/
def bytes (a : Area) : List UInt8 := a.toList.map (·.toUInt8)

/-- All numbers of the area are bytes. -/
def Small (a : Area) : Prop := ∀ n ∈ a.toList, n.toNat < 256

/-- Nothing is cut off an area exactly if all of it is on the screen. -/
theorem clamp_bytes_eq_iff {a : Area} (small : a.Small) : a.clamp.bytes = a.bytes ↔ a.OnScreen := by
  have column := a.clamp_column
  have row := a.clamp_row
  have width := a.clamp_width
  have height := a.clamp_height
  simp only [Small, toList, List.forall_mem_cons] at small
  have byte (m n : UInt16) : m.toUInt8 = n.toUInt8 ↔ m.toNat % 256 = n.toNat % 256 := by
    rw [← UInt8.toNat_inj, UInt16.toNat_toUInt8, UInt16.toNat_toUInt8]
  simp only [bytes, toList, List.map_cons, List.map_nil, List.cons.injEq, and_true, byte]
  constructor
  · intro same
    constructor <;> omega
  · intro on
    have := on.column
    have := on.row
    have := on.width
    have := on.height
    omega

end Area

end Screen

/-! ## The low bits of a number -/

namespace Constant

theorem toInt_low (v : Int64) : (v &&& 7).toInt = v.toInt % 8 := by
  have low : (v &&& 7).toBitVec.toNat = v.toBitVec.toNat % 8 := by
    rw [Int64.toBitVec_and, BitVec.toNat_and]
    exact Nat.and_two_pow_sub_one_eq_mod _ 3
  change (v &&& 7).toBitVec.toInt = v.toBitVec.toInt % 8
  rw [BitVec.toInt_eq_toNat_cond, BitVec.toInt_eq_toNat_cond]
  split <;> split <;> omega

/-- The low bits are a byte, whatever the value is. -/
theorem holds_low (v : Int64) : Width.byte.Holds (v &&& 7) := by
  have low := toInt_low v
  constructor
  · omega
  · change _ ≤ (0xFF : Int)
    omega

/-- For bytes, the low bits are the same before and after. -/
theorem byteOf_low {v : Int64} (h : Width.byte.Holds v) : byteOf (v &&& 7) = byteOf v &&& 7 := by
  have low := h.1
  have high : v.toInt ≤ 0xFF := h.2
  apply UInt8.toNat.inj
  rw [UInt8.toNat_and, byteOf, byteOf, toInt_low, Nat.toUInt8, UInt8.toNat_ofNat',
    UInt8.toNat_ofNat']
  change _ = v.toInt.toNat % 2 ^ 8 &&& 2 ^ 3 - 1
  rw [Nat.and_two_pow_sub_one_eq_mod]
  omega

end Constant

namespace Grammar

open Constant (Expr Width Values AllBytes byteOf wordOf toUInt8_wordOf holds_low byteOf_low)
open Memory (Context)

namespace Parser

variable {s s₁ : State} {es : List (Located Expr)} {vs : List Int64}

/-! ## Reading the statements -/

/-- What is done with an area whose numbers are known. -/
def drawArea (op : Opcode) (place : Location) (ns : List UInt16) : Parser Unit := do
  let given := area ns
  let fixed := given.clamp
  if fixed ≠ given then
    warn (place.render ++ ": " ++ op.mnemonic ++ " area exceeds the screen, using " ++
      fixed.render)
  emit [.code op (fixed.toList.map byteOperand)]

/-- The area is cut down and written; all else are notes. -/
theorem drawArea_apply (op : Opcode) (place : Location) (ns : List UInt16) (s : State) :
    ∃ notes, drawArea op place ns s =
      .done () { s with
        code := s.code ++ [.code op ((area ns).clamp.toList.map byteOperand)]
        notes := notes } := by
  unfold drawArea
  dsimp only
  split
  · exact ⟨_, rfl⟩
  · exact ⟨_, rfl⟩

theorem areaStatement_of_values (op : Opcode) (args : listOf constant 4 s = .done es s₁)
    (values : Values s₁.symbols.value? (es.map (·.value)) vs) :
    ∃ place, areaStatement op s =
      (checkBytes (vs.map (⟨·, place⟩)) >>= drawArea op place) s₁ := by
  obtain ⟨place, located⟩ : ∃ place, placeOf es s₁ = .done place s₁ := ⟨_, rfl⟩
  refine ⟨place, ?_⟩
  rw [areaStatement, bind_of_done args, bind_of_done located,
    bind_of_done (foldConstants_of_values values)]
  rfl

theorem areaStatement_of_not_values (op : Opcode) (args : listOf constant 4 s = .done es s₁)
    (h : ∀ vs, ¬ Values s₁.symbols.value? (es.map (·.value)) vs) :
    areaStatement op s = (immediates es >>= fun xs => emit [.code op xs]) s₁ ∨
      areaStatement op s = .overflowed ∧
        ∃ e ∈ es, e.value.eval s₁.symbols.value? = .error .quotientOverflow := by
  obtain ⟨place, located⟩ : ∃ place, placeOf es s₁ = .done place s₁ := ⟨_, rfl⟩
  rw [areaStatement, bind_of_done args, bind_of_done located]
  rcases foldConstants_of_not_values h with folded | ⟨folded, overflow⟩
  · left
    rw [bind_of_done folded]
  · right
    rw [bind_apply, folded]
    exact ⟨rfl, overflow⟩

/-- The number of a window, of which the low bits are taken later. -/
def lowBits (e : Located Expr) : Located Expr := ⟨e.value.binary .and (.value 0x07), e.place⟩

theorem windowStatement_of_value {e : Located Expr} {v : Int64} {s₁ : State}
    (arg : constant s = .done e s₁) (value : e.value.eval s₁.symbols.value? = .ok v) :
    windowStatement s = (check .byte v e.place >>= fun n =>
      emit [.code .WINDOW [.literal (n.toUInt8 &&& 0x07)]]) s₁ := by
  rw [windowStatement, bind_of_done arg, windowOperand, bind_assoc,
    bind_of_done (evaluate_apply (by simp [value])), value]
  change ((check .byte v e.place >>= _) >>= _) s₁ = _
  rw [bind_assoc]
  rfl

theorem windowStatement_of_not_value {e : Located Expr} {s₁ : State}
    (arg : constant s = .done e s₁) (missing : ∀ v, e.value.eval s₁.symbols.value? ≠ .ok v) :
    windowStatement s = (immediates [lowBits e] >>= fun xs => emit [.code .WINDOW xs]) s₁ ∨
      windowStatement s = .overflowed ∧
        e.value.eval s₁.symbols.value? = .error .quotientOverflow := by
  rw [windowStatement, bind_of_done arg, windowOperand, bind_assoc]
  by_cases overflow : e.value.eval s₁.symbols.value? = .error .quotientOverflow
  · right
    rw [bind_apply, evaluate, overflow]
    exact ⟨rfl, rfl⟩
  · left
    rw [bind_of_done (evaluate_apply overflow)]
    cases failed : e.value.eval s₁.symbols.value? with
    | ok v => exact absurd failed (missing v)
    | error error =>
      simp only [immediates, bind_assoc, pure_bind]
      rfl

end Parser

/-- The area that four values stand for. -/
def areaOf (vs : List Int64) : Screen.Area := Parser.area (vs.map wordOf)

section Areas

variable {s s₁ : State} {es : List (Located Expr)} {vs : List Int64} {op : Opcode} {c : Context}
  {bytes : List UInt8}

/-- The bytes of an area that is written as it is. -/
theorem operands_area (operands : op.operands = List.replicate 4 .byte) (a : Screen.Area) :
    c.operands op op.operands (a.toList.map byteOperand) = .ok a.bytes := by
  rw [operands]
  rfl

/-- An area whose constants are known has to be made of bytes, and is cut down to the screen. -/
theorem area_places_iff_of_known (operands : op.operands = List.replicate 4 .byte)
    (args : Parser.listOf Parser.constant 4 s = .done es s₁)
    (values : Values s₁.symbols.value? (es.map (·.value)) vs) :
    Places (Parser.areaStatement op) s s₁ op c bytes ↔
      AllBytes vs ∧ bytes = (areaOf vs).clamp.bytes := by
  obtain ⟨place, run⟩ := Parser.areaStatement_of_values op args values
  apply places_iff_of_checked _ _ (operands_area operands (areaOf vs).clamp)
  · intro holds
    rw [run, Parser.bind_of_done (Parser.checkBytes_of_holds place holds)]
    exact Parser.drawArea_apply op place (vs.map wordOf) s₁
  · intro s' run' fine
    rw [run, Parser.bind_eq_done] at run'
    obtain ⟨ns, s₂, checked, drawn⟩ := run'
    obtain ⟨notes, drawn'⟩ := Parser.drawArea_apply op place ns s₂
    obtain rfl := (Outcome.done.inj (drawn'.symm.trans drawn)).2
    exact Parser.holds_of_checkBytes checked fine

/-- The bytes of an area are those of its values. -/
theorem bytes_areaOf (h : vs.length = 4) : (areaOf vs).bytes = vs.map byteOf := by
  obtain ⟨a, b, c, d, rfl⟩ := List.length_eq_four.mp h
  simp [areaOf, Parser.area, Screen.Area.bytes, Screen.Area.toList, toUInt8_wordOf]

/-- An area that is computed later has to be made of bytes, and is taken as it is. -/
theorem area_places_iff_of_late (operands : op.operands = List.replicate 4 .byte)
    (args : Parser.listOf Parser.constant 4 s = .done es s₁)
    (later : s₁.symbols.Precedes c.symbols)
    (missing : ∀ vs, ¬ Values s₁.symbols.value? (es.map (·.value)) vs) :
    Places (Parser.areaStatement op) s s₁ op c bytes ↔
      ∃ vs, Values c.symbols.value? (es.map (·.value)) vs ∧ AllBytes vs ∧
        bytes = (areaOf vs).bytes := by
  have four : es.length = 4 := Parser.length_of_listOf args
  rcases Parser.areaStatement_of_not_values op args missing with run | ⟨run, e, mem, overflow⟩
  · rw [places_iff_of_immediates run (four ▸ operands) later]
    refine exists_congr fun vs => and_congr_right fun values => ?_
    rw [bytes_areaOf (by rw [← values.length_eq, List.length_map, four])]
  · -- A constant that has no value will never have one.
    refine iff_of_false (not_places_of_overflowed run) ?_
    rintro ⟨vs, values, -⟩
    exact not_values_of_error later mem overflow (by simp) vs values

/-- A window whose number is known has to be a byte, of which the low bits count. -/
theorem window_places_iff_of_known {e : Located Expr} {v : Int64}
    (arg : Parser.constant s = .done e s₁) (value : e.value.eval s₁.symbols.value? = .ok v) :
    Places Parser.windowStatement s s₁ .WINDOW c bytes ↔
      Width.byte.Holds v ∧ bytes = [byteOf v &&& 7] := by
  have run := Parser.windowStatement_of_value arg value
  have written : c.operands .WINDOW Opcode.WINDOW.operands
      [.literal ((wordOf v).toUInt8 &&& 7)] = .ok [byteOf v &&& 7] := by
    rw [toUInt8_wordOf]
    rfl
  apply places_iff_of_checked _ _ written
  · intro holds
    rw [run, Parser.bind_of_done (Parser.check_of_holds e.place holds)]
    exact ⟨_, rfl⟩
  · intro s' run' fine
    by_contra wrong
    obtain ⟨s₂, checked, changed⟩ := Parser.check_of_not_holds (s := s₁) e.place wrong
    rw [run, Parser.bind_of_done checked] at run'
    cases run'
    exact changed fine

/-- The low bits of a number that is computed later are all that counts. -/
theorem window_places_iff_of_late {e : Located Expr} (arg : Parser.constant s = .done e s₁)
    (later : s₁.symbols.Precedes c.symbols)
    (missing : ∀ v, e.value.eval s₁.symbols.value? ≠ .ok v) :
    Places Parser.windowStatement s s₁ .WINDOW c bytes ↔
      ∃ v, e.value.eval c.symbols.value? = .ok v ∧ bytes = [byteOf (v &&& 7)] := by
  rcases Parser.windowStatement_of_not_value arg missing with run | ⟨run, overflow⟩
  · rw [places_iff_of_immediates run rfl later]
    constructor
    · rintro ⟨vs, values, -, rfl⟩
      obtain _ | ⟨value, rest⟩ := values
      cases rest
      obtain ⟨v, value', rfl⟩ := Expr.eval_masked.mp value
      exact ⟨v, value', rfl⟩
    · rintro ⟨v, value, rfl⟩
      refine ⟨[v &&& 7], .cons (Expr.eval_masked.mpr ⟨v, value, rfl⟩) .nil, ?_, rfl⟩
      exact List.forall_mem_singleton.mpr (holds_low v)
  · refine iff_of_false (not_places_of_overflowed run) ?_
    rintro ⟨v, value, -⟩
    exact not_values_of_error later (List.mem_singleton_self e) overflow (by simp) [v]
      (.cons value .nil)

end Areas

/-! ## The three statements -/

/-- The statements with an area or a window. -/
inductive Drawing where
  | margins
  | fadeOut
  | window

namespace Drawing

/-- The word that the statement begins with. -/
def keyword : Drawing → Keyword
  | margins => .MARGINS
  | fadeOut => .FADEOUT
  | window => .WINDOW

/-- The opcode of its instruction. -/
def opcode : Drawing → Opcode
  | margins => .MARGINS
  | fadeOut => .FADEOUT
  | window => .WINDOW

/-- How many constants the statement has. -/
def count : Drawing → Nat
  | margins | fadeOut => 4
  | window => 1

/-- The bytes that the constants stand for: the part of the area that is on the screen, or the low
bits of the number. -/
def bytes : Drawing → List Int64 → List UInt8
  | margins, vs | fadeOut, vs => (areaOf vs).clamp.bytes
  | window, vs => vs.map (byteOf · &&& 7)

/-- The bytes that are written for constants that were not known when the statement was read. -/
def lateBytes : Drawing → List Int64 → List UInt8
  | margins, vs | fadeOut, vs => (areaOf vs).bytes
  | window, vs => vs.map fun v => byteOf (v &&& 7)

/-- Bytes that are an area of the screen, or the number of one of the eight windows. -/
def Proper : Drawing → List UInt8 → Prop
  | margins, bs | fadeOut, bs => ∃ a : Screen.Area, a.OnScreen ∧ bs = a.bytes
  | window, bs => ∀ b ∈ bs, b < 8

/-- What such constants have to be. -/
def TakenLate : Drawing → List Int64 → Prop
  | margins, vs | fadeOut, vs => AllBytes vs
  | window, _ => True

/-- The constants are such that it does not matter when they are computed: an area of bytes has to
be on the screen, and the number of a window has to be a byte. -/
def Steady : Drawing → List Int64 → Prop
  | margins, vs | fadeOut, vs => AllBytes vs → (areaOf vs).OnScreen
  | window, vs => AllBytes vs

variable {d : Drawing} {s s₁ : State} {es : List (Located Expr)} {vs : List Int64} {c : Context}
  {written : List UInt8} {block : List Keyword → Parser Unit} {place : Location}

/-- What the constants stand for is proper, whatever they are. -/
theorem proper_bytes (d : Drawing) (vs : List Int64) : d.Proper (d.bytes vs) := by
  have area : ∃ a : Screen.Area, a.OnScreen ∧ (areaOf vs).clamp.bytes = a.bytes :=
    ⟨_, (areaOf vs).clamp_onScreen, rfl⟩
  cases d with
  | margins => exact area
  | fadeOut => exact area
  | window =>
    intro b mem
    obtain ⟨v, -, rfl⟩ := List.mem_map.mp mem
    have low : (byteOf v &&& 7).toNat ≤ 7 := by
      rw [UInt8.toNat_and]
      exact Nat.and_le_right
    rw [UInt8.lt_iff_toNat_lt]
    exact Nat.lt_succ_of_le low

theorem constant_of_listOf (h : Parser.listOf Parser.constant 1 s = .done es s₁) :
    ∃ e, es = [e] ∧ Parser.constant s = .done e s₁ := by
  obtain ⟨e, s', run, same⟩ := Parser.bind_eq_done.mp h
  cases same
  exact ⟨e, rfl, run⟩

/-- What a statement does whose constants are known. -/
theorem places_iff_of_known (args : Parser.listOf Parser.constant d.count s = .done es s₁)
    (values : Values s₁.symbols.value? (es.map (·.value)) vs) :
    Places (Parser.statementOf block d.keyword place) s s₁ d.opcode c written ↔
      AllBytes vs ∧ written = d.bytes vs := by
  cases d with
  | margins => exact area_places_iff_of_known rfl args values
  | fadeOut => exact area_places_iff_of_known rfl args values
  | window =>
    obtain ⟨e, rfl, arg⟩ := constant_of_listOf args
    obtain _ | ⟨value, rest⟩ := values
    cases rest
    rw [AllBytes, List.forall_mem_singleton]
    exact window_places_iff_of_known arg value

/-- What a statement does whose constants are not all known. -/
theorem places_iff_of_late (args : Parser.listOf Parser.constant d.count s = .done es s₁)
    (later : s₁.symbols.Precedes c.symbols)
    (missing : ∀ vs, ¬ Values s₁.symbols.value? (es.map (·.value)) vs) :
    Places (Parser.statementOf block d.keyword place) s s₁ d.opcode c written ↔
      ∃ vs, Values c.symbols.value? (es.map (·.value)) vs ∧ d.TakenLate vs ∧
        written = d.lateBytes vs := by
  cases d with
  | margins => exact area_places_iff_of_late rfl args later missing
  | fadeOut => exact area_places_iff_of_late rfl args later missing
  | window =>
    obtain ⟨e, rfl, arg⟩ := constant_of_listOf args
    have unknown (v : Int64) : e.value.eval s₁.symbols.value? ≠ .ok v :=
      fun value => missing [v] (.cons value .nil)
    refine (window_places_iff_of_late arg later unknown).trans ⟨?_, ?_⟩
    · rintro ⟨v, value, rfl⟩
      exact ⟨[v], .cons value .nil, trivial, rfl⟩
    · rintro ⟨vs, values, -, rfl⟩
      obtain _ | ⟨value, rest⟩ := values
      cases rest
      exact ⟨_, value, rfl⟩

theorem small_areaOf (h : vs.length = 4) (holds : AllBytes vs) :
    (areaOf vs).Small := by
  obtain ⟨v₁, v₂, v₃, v₄, rfl⟩ := List.length_eq_four.mp h
  intro n mem
  obtain ⟨v, hv, rfl⟩ : ∃ v ∈ [v₁, v₂, v₃, v₄], wordOf v = n := List.mem_map.mp mem
  have fits := holds v hv
  have high : v.toInt ≤ 0xFF := fits.2
  rw [wordOf, fits.toNat]
  omega

/-- The two ways to compute the constants agree on them exactly if they are steady. -/
theorem steady_iff (h : vs.length = d.count) :
    (∀ written, AllBytes vs ∧ written = d.bytes vs ↔
      d.TakenLate vs ∧ written = d.lateBytes vs) ↔ d.Steady vs := by
  have area (four : vs.length = 4) : (∀ written, AllBytes vs ∧
      written = (areaOf vs).clamp.bytes ↔ AllBytes vs ∧
        written = (areaOf vs).bytes) ↔ (AllBytes vs → (areaOf vs).OnScreen) := by
    constructor
    · intro same holds
      have written := (same _).mp ⟨holds, rfl⟩
      exact (Screen.Area.clamp_bytes_eq_iff (small_areaOf four holds)).mp written.2
    · intro steady written
      refine and_congr_right fun holds => ?_
      rw [(Screen.Area.clamp_bytes_eq_iff (small_areaOf four holds)).mpr (steady holds)]
  cases d with
  | margins => exact area h
  | fadeOut => exact area h
  | window =>
    constructor
    · intro same
      exact ((same _).mpr ⟨trivial, rfl⟩).1
    · intro steady written
      have low : bytes .window vs = lateBytes .window vs :=
        List.map_congr_left fun v hv => (byteOf_low (steady v hv)).symm
      rw [low]
      exact ⟨fun h => ⟨trivial, h.2⟩, fun h => ⟨steady, h.2⟩⟩

end Drawing

/-! ## Constants that are declared behind the statement -/

/-- The same constants at two points, of one program or of two. At the first point all their names
are declared, at the second one name is not. In the end all names have the same values. -/
structure Moved (es : List Expr) (early late : Symbol.Table) (c c' : Context) : Prop where
  before : early.Precedes c.symbols
  behind : late.Precedes c'.symbols
  constants : c'.symbols.value? = c.symbols.value?
  known : ∀ e ∈ es, ∀ name ∈ e.names, early.value? name ≠ none
  missing : ∃ e ∈ es, ∃ name ∈ e.names, late.value? name = none

namespace Moved

variable {es : List Expr} {early late : Symbol.Table} {c c' : Context}

/-- Where all constants are declared, nothing changes until the end. -/
theorem values_iff (h : Moved es early late c c') (vs : List Int64) :
    Values early.value? es vs ↔ Values c.symbols.value? es vs :=
  Values.known_iff h.before h.known

/-- Where one of them is not declared, they have no values. -/
theorem not_values (h : Moved es early late c c') (vs : List Int64) :
    ¬ Values late.value? es vs := by
  obtain ⟨e, mem, name, mem', none⟩ := h.missing
  exact Values.not_of_missing mem mem' none

end Moved

/-- A statement with an area or a window, read where its constants are declared and where one of
them is not.

In the first place the constants have to be bytes; the part of the area that is on the screen is
what is written, or the low bits of the number, so that the bytes are proper. In the second place an
area of bytes is written as it is, and the low bits of any number. So it matters where the constants
are declared, unless all of the area is on the screen or the number of the window is a byte. -/
theorem Drawing.places_of_moved (d : Drawing) {s s₁ t t₁ : State} {es fs : List (Located Expr)}
    {c c' : Context} (args : Parser.listOf Parser.constant d.count s = .done es s₁)
    (args' : Parser.listOf Parser.constant d.count t = .done fs t₁)
    (same : fs.map (·.value) = es.map (·.value))
    (moved : Moved (es.map (·.value)) s₁.symbols t₁.symbols c c')
    (block block' : List Keyword → Parser Unit) (place place' : Location) :
    (∀ written, Places (Parser.statementOf block d.keyword place) s s₁ d.opcode c written ↔
      ∃ vs, Values c.symbols.value? (es.map (·.value)) vs ∧ AllBytes vs ∧
        written = d.bytes vs) ∧
    (∀ vs, d.Proper (d.bytes vs)) ∧
    (∀ written, Places (Parser.statementOf block' d.keyword place') t t₁ d.opcode c' written ↔
      ∃ vs, Values c.symbols.value? (es.map (·.value)) vs ∧ d.TakenLate vs ∧
        written = d.lateBytes vs) ∧
    ((∀ written, Places (Parser.statementOf block d.keyword place) s s₁ d.opcode c written ↔
        Places (Parser.statementOf block' d.keyword place') t t₁ d.opcode c' written) ↔
      ∀ vs, Values c.symbols.value? (es.map (·.value)) vs → d.Steady vs) := by
  have early (written : List UInt8) :
      Places (Parser.statementOf block d.keyword place) s s₁ d.opcode c written ↔
        ∃ vs, Values c.symbols.value? (es.map (·.value)) vs ∧ AllBytes vs ∧
          written = d.bytes vs := by
    by_cases known : ∃ vs, Values s₁.symbols.value? (es.map (·.value)) vs
    · obtain ⟨vs, values⟩ := known
      have final := (moved.values_iff vs).mp values
      rw [Drawing.places_iff_of_known args values]
      constructor
      · exact fun h => ⟨vs, final, h⟩
      · rintro ⟨ws, values', h⟩
        obtain rfl := final.unique values'
        exact h
    · -- an error in arithmetic, which is one in the end as well
      have unknown (vs : List Int64) : ¬ Values s₁.symbols.value? (es.map (·.value)) vs :=
        fun values => known ⟨vs, values⟩
      rw [Drawing.places_iff_of_late args moved.before unknown]
      constructor
      · rintro ⟨vs, values, -⟩
        exact absurd ((moved.values_iff vs).mpr values) (unknown vs)
      · rintro ⟨vs, values, -⟩
        exact absurd ((moved.values_iff vs).mpr values) (unknown vs)
  have late (written : List UInt8) :
      Places (Parser.statementOf block' d.keyword place') t t₁ d.opcode c' written ↔
        ∃ vs, Values c.symbols.value? (es.map (·.value)) vs ∧ d.TakenLate vs ∧
          written = d.lateBytes vs := by
    have unknown (vs : List Int64) : ¬ Values t₁.symbols.value? (fs.map (·.value)) vs :=
      same ▸ moved.not_values vs
    rw [Drawing.places_iff_of_late args' moved.behind unknown, same, moved.constants]
  refine ⟨early, d.proper_bytes, late, ?_⟩
  simp only [early, late]
  constructor
  · intro alike vs values
    have length : vs.length = d.count := by
      rw [← values.length_eq, List.length_map, Parser.length_of_listOf args]
    rw [← Drawing.steady_iff length]
    intro written
    have both := alike written
    constructor
    · intro h
      obtain ⟨ws, values', h'⟩ := both.mp ⟨vs, values, h⟩
      exact values.unique values' ▸ h'
    · intro h
      obtain ⟨ws, values', h'⟩ := both.mpr ⟨vs, values, h⟩
      exact values.unique values' ▸ h'
  · intro steady written
    refine exists_congr fun vs => and_congr_right fun values => ?_
    have length : vs.length = d.count := by
      rw [← values.length_eq, List.length_map, Parser.length_of_listOf args]
    exact (Drawing.steady_iff length).mpr (steady vs values) written

/-! ### Margins that reach over the screen -/

/-- Tokens that stand nowhere in particular. -/
def scattered (tokens : List Token) : List Lexeme := tokens.map fun t => ⟨.ok t, .nowhere⟩

/-- `X, 0, 32, 24` -/
def wideArea : List Token :=
  [.identifier "X", .comma, .number 0, .comma, .number 32, .comma, .number 24]

/-- `CONST X = n` -/
def declaring (n : Nat) : List Token := [.keyword .CONST, .identifier "X", .equals, .number n]

/-- A table in which `X` is 10, with what it was used as. -/
def tenDeclared (usages : List Symbol.Usage) : Symbol.Table :=
  ⟨[⟨"X", some (.nowhere, .constant 10), usages⟩]⟩

/-- What a parser found, if it passes a test. -/
def Outcome.passes {α : Type} (test : α → State → Bool) : Outcome α → Bool
  | .done a s => test a s
  | _ => false

theorem Outcome.exists_of_passes {α : Type} {test : α → State → Bool} {x : Outcome α}
    (h : x.passes test = true) : ∃ a s, x = .done a s ∧ test a s = true := by
  cases x with
  | done a s => exact ⟨a, s, rfl, h⟩
  | _ => contradiction

/-- The area is read where `X` is declared, and where it is only used and declared later. -/
theorem listOf_wideArea : ∃ es s₁ fs t₁,
    Parser.listOf Parser.constant 4
        { State.start (scattered wideArea) with symbols := tenDeclared [] } = .done es s₁ ∧
      Parser.listOf Parser.constant 4 (State.start (scattered wideArea)) = .done fs t₁ ∧
      fs.map (·.value) = es.map (·.value) ∧
      Moved (es.map (·.value)) s₁.symbols t₁.symbols
        ⟨tenDeclared [⟨.nowhere, .constant⟩], [], []⟩
        ⟨tenDeclared [⟨.nowhere, .constant⟩], [], []⟩ ∧
      Values (tenDeclared [⟨.nowhere, .constant⟩]).value? (es.map (·.value)) [10, 0, 32, 24] := by
  have early : (Parser.listOf Parser.constant 4
      { State.start (scattered wideArea) with symbols := tenDeclared [] }).passes (fun es s =>
        decide (es.map (·.value) = [.named "X", .value 0, .value 32, .value 24] ∧
          s.symbols = tenDeclared [⟨.nowhere, .constant⟩])) = true := by
    decide +kernel
  have late : (Parser.listOf Parser.constant 4 (State.start (scattered wideArea))).passes
      (fun es s => decide (es.map (·.value) = [.named "X", .value 0, .value 32, .value 24] ∧
        s.symbols = ⟨[⟨"X", none, [⟨.nowhere, .constant⟩]⟩]⟩)) = true := by
    decide +kernel
  obtain ⟨es, s₁, args, found⟩ := Outcome.exists_of_passes early
  obtain ⟨fs, t₁, args', found'⟩ := Outcome.exists_of_passes late
  obtain ⟨values, table⟩ := of_decide_eq_true found
  obtain ⟨values', table'⟩ := of_decide_eq_true found'
  have declared : t₁.symbols.declare ⟨"X", .nowhere⟩ (.constant 10) =
      .ok (tenDeclared [⟨.nowhere, .constant⟩]) := by
    rw [table']
    decide
  have moved : Moved (es.map (·.value)) s₁.symbols t₁.symbols
      ⟨tenDeclared [⟨.nowhere, .constant⟩], [], []⟩
      ⟨tenDeclared [⟨.nowhere, .constant⟩], [], []⟩ := by
    have behind := Symbol.Table.Run.precedes (.single (.declare declared))
    refine ⟨table ▸ fun _ _ h => h, behind, rfl, ?_, ?_⟩
    · rw [values, table]
      decide
    · rw [values, table']
      decide
  have final : Values (tenDeclared [⟨.nowhere, .constant⟩]).value? (es.map (·.value))
      [10, 0, 32, 24] := by
    rw [values]
    exact .cons (by decide) (.cons (by decide) (.cons (by decide) (.cons (by decide) .nil)))
  exact ⟨es, s₁, fs, t₁, args, args', values'.trans values.symm, moved, final⟩

theorem allBytes_wideArea : AllBytes [10, 0, 32, 24] := by
  simp only [AllBytes, List.forall_mem_cons, List.not_mem_nil, false_imp_iff, implies_true]
  decide

/-! ### What is placed in memory -/

/-- The bytes in the banks of a program. -/
def Program.bankBytes (p : Program) : Option (List (List UInt8)) :=
  (Memory.generate {} p.symbols (Fusion.optimize p.code)).2.toOption.map fun image =>
    image.banks.map (·.bytes)

/-- The statement with `X` declared in front of it. -/
def declaredEarly (n : Nat) (statement : List Token) : List Lexeme :=
  scattered (.openCode :: (declaring n ++ .colon :: (statement ++ [.closeCode])))

/-- The statement with `X` declared behind it. -/
def declaredLate (n : Nat) (statement : List Token) : List Lexeme :=
  scattered (.openCode :: (statement ++ .colon :: (declaring n ++ [.closeCode])))

/-- A script that is accepted and whose program is placed in memory with these bytes. -/
def Compiles (tokens : List Lexeme) (bytes : List (List UInt8)) : Prop :=
  ∃ reading program, read tokens = some reading ∧ reading.accept {} = .ok program ∧
    program.bankBytes = some bytes

theorem compiles_of_check {tokens : List Lexeme} {bytes : List (List UInt8)}
    (check : (Parser.program (State.start tokens)).passes (fun _ s =>
      decide (s.problems = [] ∧ (∀ e ∈ s.symbols.entries, Symbol.Table.atEnd e = []) ∧
        Program.bankBytes ⟨s.code, s.symbols⟩ = some bytes)) = true) : Compiles tokens bytes := by
  obtain ⟨_, s, run, check⟩ := Outcome.exists_of_passes check
  obtain ⟨fine, names, placed⟩ := of_decide_eq_true check
  obtain ⟨hread, haccept⟩ := accept_of_done run fine names {}
  exact ⟨_, _, hread, haccept, placed⟩

theorem not_compiles_of_check {tokens : List Lexeme}
    (check : (Parser.program (State.start tokens)).passes (fun _ s =>
      s.problems.any (·.value ≠ .grammar .missingColon)) = true) (bytes : List (List UInt8)) :
    ¬ Compiles tokens bytes := by
  obtain ⟨_, s, run, check⟩ := Outcome.exists_of_passes check
  obtain ⟨p, mem, wrong⟩ := List.any_eq_true.mp check
  rintro ⟨reading, program, hread, haccept, -⟩
  rw [read, run] at hread
  obtain rfl := Option.some.inj hread
  have fine := (value_of_accept haccept).2 p (List.mem_append_left _ mem)
  exact of_decide_eq_true wrong fine

/-- Two scripts that change with the place of a declaration: margins lose what is not on the screen
only if their column is declared in front of them, and a window is refused for a number that is not
a byte only if the number is declared in front of it. -/
theorem margins_uncut_window_unchecked :
    Compiles (declaredEarly 10 (.keyword .MARGINS :: wideArea)) [[0x05, 10, 0, 22, 24, 0x00]] ∧
      Compiles (declaredLate 10 (.keyword .MARGINS :: wideArea)) [[0x05, 10, 0, 32, 24, 0x00]] ∧
      (∀ bytes, ¬ Compiles (declaredEarly 256 [.keyword .WINDOW, .identifier "X"]) bytes) ∧
      Compiles (declaredLate 256 [.keyword .WINDOW, .identifier "X"]) [[0x53, 0, 0x00]] := by
  refine ⟨compiles_of_check (by decide +kernel), compiles_of_check (by decide +kernel), ?_,
    compiles_of_check (by decide +kernel)⟩
  exact not_compiles_of_check (by decide +kernel)

end Grammar

end Gamebook
