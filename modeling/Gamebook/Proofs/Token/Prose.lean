import Gamebook.Proofs.Token.Sections

/-!
# What prose is read as

Prose is read in one pass that looks at most one character ahead. What comes of it can be said of
each character by itself, from the characters next to it and from how many closing brackets stand
right before it: a closing bracket begins a stray pair if another one follows and that number is
even, since pairs are taken from the left (`opensPair`). `faultAt`, `codeAt` and `spotAt` say which
error and which byte a character gives, and whether it counts as part of the text.

Reading a stretch of prose gives the errors of its characters in order and one text of all their
bytes (`prose_eq_told`). Where the characters before do not end in the middle of a pair, what stands
behind them is read as if nothing stood before (`Parts`), which is what carries the induction.

`Begins` says where prose begins in a script: at its start, and behind the brackets that close
code. `scan_prose` puts both together.
-/

namespace Gamebook.Scanner

/-! ## Characters by themselves -/

/-- The character with number `i`. -/
def charAt (ms : List Mark) (i : Nat) : Option Char := ms[i]?.map (·.char)

/-- How many closing brackets stand right before the character with number `i`. -/
def closingBefore (ms : List Mark) : Nat → Nat
  | 0 => 0
  | i + 1 => if charAt ms i = some ']' then closingBefore ms i + 1 else 0

/-- Whether the character is the first of a stray pair of closing brackets. Pairs are taken from the
left. -/
def opensPair (ms : List Mark) (i : Nat) : Bool :=
  charAt ms i = some ']' && charAt ms (i + 1) = some ']' && closingBefore ms i % 2 = 0

/-- Whether the character is one of a stray pair. -/
def inPair (ms : List Mark) (i : Nat) : Bool :=
  opensPair ms i || (0 < i && opensPair ms (i - 1))

/-- Whether the character ends a line together with the one before it. -/
def endsBreak (ms : List Mark) (i : Nat) : Bool :=
  0 < i && charAt ms (i - 1) = some '\r' && charAt ms i = some '\n'

variable (d : Document)

/-- The error that a character gives. A pair gives one at its first character. -/
def faultAt (ms : List Mark) (i : Nat) : Option Lexeme :=
  if opensPair ms i then
    ms[i]?.bind fun m => ms[i + 1]?.map fun n => .error d .unmatchedClose m.spot n.spot
  else ms[i]?.bind fun m =>
    if m.char.toNat = 0 then some (.error d (.badChar m.char) m.spot m.spot)
    else if (Text.encode m.char).isNone then
      some (.error d (.unencodable m.char) m.spot m.spot)
    else none

/-- The byte that a character gives. A line end gives one, however it is written. -/
def codeAt (ms : List Mark) (i : Nat) : Option UInt8 :=
  if inPair ms i || endsBreak ms i then none
  else (charAt ms i).bind fun c =>
    if c = '\r' ∨ c = '\n' then some Text.newlineCode else Text.encode c

/-- The place of a character that counts as part of the text: all do but stray brackets and the one
that ends texts. -/
def spotAt (ms : List Mark) (i : Nat) : Option Position :=
  if inPair ms i then none
  else ms[i]?.bind fun m => if m.char.toNat = 0 then none else some m.spot

/-- What all characters give, in order. -/
def collect {α : Type} (f : List Mark → Nat → Option α) (ms : List Mark) : List α :=
  (List.range ms.length).filterMap (f ms)

/-- The first and the last of some places. -/
def bounds (spots : List Position) : Option (Position × Position) :=
  spots.head?.bind fun first => spots.getLast?.map fun last => (first, last)

/-- The text of a stretch of prose, from its first to its last character that counts. There is none
without a byte. -/
def textOf (ms : List Mark) : List Lexeme :=
  match bounds (collect spotAt ms) with
  | some (first, last) =>
    if (collect codeAt ms).isEmpty then []
    else [.token d (.text (collect codeAt ms)) first last]
  | none => []

/-! ## Characters that are read together -/

/-- The characters `pre` are read without the ones behind them: they do not end in the middle of a
pair or of a line end. -/
structure Parts (pre ms : List Mark) : Prop where
  nonempty : pre ≠ []
  pair : charAt ms 0 = some ']' → closingBefore (pre ++ ms) pre.length % 2 = 0
  line : charAt ms 0 = some '\n' → charAt (pre ++ ms) (pre.length - 1) ≠ some '\r'

namespace Parts

variable {pre ms : List Mark}

theorem getElem?_add (pre ms : List Mark) (i : Nat) : (pre ++ ms)[pre.length + i]? = ms[i]? := by
  rw [List.getElem?_append_right (Nat.le_add_right _ _), Nat.add_sub_cancel_left]

theorem charAt_add (pre ms : List Mark) (i : Nat) :
    charAt (pre ++ ms) (pre.length + i) = charAt ms i := by
  rw [charAt, getElem?_add, charAt]

/-- Behind, only whether the number of brackets is even can be seen. -/
theorem closingBefore_add (h : Parts pre ms) (i : Nat) (closing : charAt ms i = some ']') :
    closingBefore (pre ++ ms) (pre.length + i) % 2 = closingBefore ms i % 2 := by
  induction i with
  | zero => exact h.pair closing
  | succ i ih =>
    rw [← Nat.add_assoc, closingBefore, closingBefore, charAt_add]
    split
    · next before => rw [Nat.add_mod, ih before, ← Nat.add_mod]
    · rfl

theorem opensPair_add (h : Parts pre ms) (i : Nat) :
    opensPair (pre ++ ms) (pre.length + i) = opensPair ms i := by
  unfold opensPair
  rw [Nat.add_assoc, charAt_add, charAt_add]
  by_cases closing : charAt ms i = some ']'
  · rw [h.closingBefore_add i closing]
  · simp [closing]

/-- The last of the characters does not begin a pair with the next. -/
theorem opensPair_last (h : Parts pre ms) : opensPair (pre ++ ms) (pre.length - 1) = false := by
  have length : pre.length - 1 + 1 = pre.length :=
    Nat.sub_add_cancel (List.length_pos_iff.mpr h.nonempty)
  by_contra opens
  simp only [opensPair, Bool.not_eq_false, Bool.and_eq_true, decide_eq_true_eq] at opens
  obtain ⟨⟨closing, next⟩, even⟩ := opens
  rw [length, show pre.length = pre.length + 0 from rfl, charAt_add] at next
  have odd := h.pair next
  rw [← length, closingBefore, if_pos closing] at odd
  omega

theorem inPair_add (h : Parts pre ms) (i : Nat) :
    inPair (pre ++ ms) (pre.length + i) = inPair ms i := by
  have positive := List.length_pos_iff.mpr h.nonempty
  unfold inPair
  rw [h.opensPair_add]
  cases i with
  | zero => simp [h.opensPair_last]
  | succ i =>
    rw [show pre.length + (i + 1) - 1 = pre.length + i by omega, h.opensPair_add]
    simp [show 0 < pre.length + (i + 1) by omega]

theorem endsBreak_add (h : Parts pre ms) (i : Nat) :
    endsBreak (pre ++ ms) (pre.length + i) = endsBreak ms i := by
  have positive := List.length_pos_iff.mpr h.nonempty
  unfold endsBreak
  rw [charAt_add]
  cases i with
  | zero =>
    by_cases feed : charAt ms 0 = some '\n'
    · simp [feed, h.line feed]
    · simp [feed]
  | succ i =>
    rw [show pre.length + (i + 1) - 1 = pre.length + i by omega, charAt_add]
    simp [show 0 < pre.length + (i + 1) by omega]

theorem faultAt_add (h : Parts pre ms) (i : Nat) :
    faultAt d (pre ++ ms) (pre.length + i) = faultAt d ms i := by
  unfold faultAt
  rw [h.opensPair_add, Nat.add_assoc, getElem?_add, getElem?_add]

theorem codeAt_add (h : Parts pre ms) (i : Nat) :
    codeAt (pre ++ ms) (pre.length + i) = codeAt ms i := by
  unfold codeAt
  rw [h.inPair_add, h.endsBreak_add, charAt_add]

theorem spotAt_add (h : Parts pre ms) (i : Nat) :
    spotAt (pre ++ ms) (pre.length + i) = spotAt ms i := by
  unfold spotAt
  rw [h.inPair_add, getElem?_add]

/-- What the characters give, and then what the ones behind give. -/
theorem collect_eq {α : Type} {f : List Mark → Nat → Option α}
    (shift : ∀ i, f (pre ++ ms) (pre.length + i) = f ms i) :
    collect f (pre ++ ms) = (List.range pre.length).filterMap (f (pre ++ ms)) ++ collect f ms := by
  unfold collect
  rw [List.length_append, List.range_add, List.filterMap_append, List.filterMap_map]
  rw [show f (pre ++ ms) ∘ (pre.length + ·) = f ms from funext shift]

/-- A character that begins nothing with the next one. -/
theorem single {m : Mark} (pair : charAt ms 0 = some ']' → m.char ≠ ']')
    (line : charAt ms 0 = some '\n' → m.char ≠ '\r') : Parts [m] ms where
  nonempty := List.cons_ne_nil _ _
  pair closing := by simp [closingBefore, charAt, pair closing]
  line feed := by simpa [charAt] using line feed

theorem inPair_single {m : Mark} (h : Parts [m] ms) : inPair (m :: ms) 0 = false := by
  have closed : opensPair (m :: ms) 0 = false := h.opensPair_last
  simp [inPair, closed]

theorem brackets (p q : Position) : Parts [⟨']', p⟩, ⟨']', q⟩] ms where
  nonempty := List.cons_ne_nil _ _
  pair _ := by simp [closingBefore, charAt]
  line _ := by simp [charAt]

theorem lineEnd (p q : Position) : Parts [⟨'\r', p⟩, ⟨'\n', q⟩] ms where
  nonempty := List.cons_ne_nil _ _
  pair _ := by simp [closingBefore, charAt]
  line _ := by simp [charAt]

end Parts

/-! ## A stretch of prose -/

/-- The brackets that open code and what follows them. -/
def opening? : List Mark → Option (Position × Position × List Mark)
  | p :: q :: rest => some (p.spot, q.spot, rest)
  | _ => none

/-- What is read of a stretch of prose, by its characters. -/
def told (ms rest : List Mark) : Prose :=
  ⟨collect (faultAt d) ms, collect codeAt ms, bounds (collect spotAt ms), opening? rest⟩

/-- Whether the character is the first of two opening brackets. -/
def opens (ms : List Mark) (i : Nat) : Bool :=
  charAt ms i = some '[' && charAt ms (i + 1) = some '['

/-- The characters `ms` are all up to the next `[[`, or to the end. -/
structure Stretch (ms rest : List Mark) : Prop where
  ends : rest = [] ∨ opens rest 0 = true
  first : ∀ i < ms.length, opens (ms ++ rest) i = false

namespace Stretch

variable {m : Mark} {ms rest : List Mark}

/-- The stretch has a character if code does not open here. -/
theorem eq_cons (h : Stretch ms rest) {behind : List Mark} (all : ms ++ rest = m :: behind)
    (closed : opens (m :: behind) 0 = false) :
    ∃ ms', ms = m :: ms' ∧ ms' ++ rest = behind ∧ Stretch ms' rest := by
  cases ms with
  | nil =>
    obtain rfl : rest = m :: behind := all
    have opened := h.ends
    simp [closed] at opened
  | cons m' ms =>
    obtain ⟨rfl, rfl⟩ := List.cons.inj all
    exact ⟨ms, rfl, rfl, h.ends, fun i lt => h.first (i + 1) (Nat.succ_lt_succ lt)⟩

end Stretch

theorem bounds_cons (spot : Position) (spots : List Position) :
    bounds (spot :: spots) = some (spot, ((bounds spots).map (·.2)).getD spot) := by
  cases spots with
  | nil => rfl
  | cons next spots => simp [bounds, List.getLast?_cons]

/-- What is told of characters that are read together, and of the ones behind. -/
theorem told_of_parts {pre ms : List Mark} (h : Parts pre ms) (rest : List Mark) :
    told d (pre ++ ms) rest =
      ⟨(List.range pre.length).filterMap (faultAt d (pre ++ ms)) ++ (told d ms rest).errors,
        (List.range pre.length).filterMap (codeAt (pre ++ ms)) ++ (told d ms rest).bytes,
        bounds ((List.range pre.length).filterMap (spotAt (pre ++ ms)) ++ collect spotAt ms),
        opening? rest⟩ := by
  unfold told
  rw [Parts.collect_eq (h.faultAt_add d), Parts.collect_eq h.codeAt_add,
    Parts.collect_eq h.spotAt_add]

section Told

variable (p q : Position) (ms rest : List Mark)

theorem told_brackets : told d (⟨']', p⟩ :: ⟨']', q⟩ :: ms) rest =
    (told d ms rest).fault (.error d .unmatchedClose p q) := by
  refine (told_of_parts d (.brackets p q) rest).trans ?_
  simp [List.range_succ, faultAt, codeAt, spotAt, inPair, opensPair, charAt, closingBefore,
    Text.encode, Prose.fault, told]

theorem told_lineEnd : told d (⟨'\r', p⟩ :: ⟨'\n', q⟩ :: ms) rest =
    (((told d ms rest).touch q).touch p).put Text.newlineCode := by
  refine (told_of_parts d (.lineEnd p q) rest).trans ?_
  simp [List.range_succ, faultAt, codeAt, spotAt, inPair, opensPair, charAt, closingBefore,
    endsBreak, Text.encode, Prose.put, Prose.touch, told, bounds_cons]

variable {p ms} {c : Char}

/-- A character that is read alone. -/
theorem told_single (h : Parts [⟨c, p⟩] ms) :
    told d (⟨c, p⟩ :: ms) rest =
      ⟨(if c.toNat = 0 then some (.error d (.badChar c) p p)
          else if (Text.encode c).isNone then some (.error d (.unencodable c) p p)
          else none).toList ++ (told d ms rest).errors,
        (if c = '\r' ∨ c = '\n' then some Text.newlineCode else Text.encode c).toList ++
          (told d ms rest).bytes,
        bounds ((if c.toNat = 0 then none else some p).toList ++ collect spotAt ms),
        opening? rest⟩ := by
  refine (told_of_parts d h rest).trans ?_
  have first {α : Type} (f : Nat → Option α) : [0].filterMap f = (f 0).toList := by
    cases found : f 0 <;> simp [found]
  have single : opensPair (⟨c, p⟩ :: ms) 0 = false := h.opensPair_last
  rw [show List.range [(⟨c, p⟩ : Mark)].length = [0] from rfl, first, first, first]
  simp [faultAt, codeAt, spotAt, single, h.inPair_single, endsBreak, charAt]

end Told

/-- Where neither of the patterns for two characters fits, a character is read alone. -/
theorem Stretch.eq_single {c : Char} {p : Position} {ms rest behind : List Mark}
    (h : Stretch ms rest) (all : ms ++ rest = ⟨c, p⟩ :: behind)
    (closed : ∀ q behind', behind = ⟨'[', q⟩ :: behind' → c = '[' → False)
    (pair : ∀ q behind', behind = ⟨']', q⟩ :: behind' → c = ']' → False)
    (line : ∀ q behind', behind = ⟨'\n', q⟩ :: behind' → c = '\r' → False) :
    ∃ ms', ms = ⟨c, p⟩ :: ms' ∧ ms' ++ rest = behind ∧ Stretch ms' rest ∧
      Parts [⟨c, p⟩] ms' := by
  have second {c' : Char} {marks : List Mark} (h : charAt marks 0 = some c') :
      ∃ q marks', marks = ⟨c', q⟩ :: marks' := by
    cases marks with
    | nil => simp [charAt] at h
    | cons m marks =>
      obtain rfl : m.char = c' := by simpa [charAt] using h
      exact ⟨m.spot, marks, rfl⟩
  have closed : opens (⟨c, p⟩ :: behind) 0 = false := by
    by_contra opened
    obtain ⟨bracket, also⟩ : c = '[' ∧ charAt behind 0 = some '[' := by
      simpa [opens, charAt] using opened
    obtain ⟨q, behind', rfl⟩ := second also
    exact closed q behind' rfl bracket
  obtain ⟨ms, rfl, rfl, h⟩ := h.eq_cons all closed
  refine ⟨ms, rfl, rfl, h, .single (fun closing => ?_) fun feed => ?_⟩
  · obtain ⟨q, behind', rfl⟩ := second closing
    exact pair q _ rfl
  · obtain ⟨q, behind', rfl⟩ := second feed
    exact line q _ rfl

/-- Reading a stretch of prose gives what its characters give. -/
theorem prose_eq_told {ms rest : List Mark} (h : Stretch ms rest) :
    prose d (ms ++ rest) = told d ms rest := by
  generalize all : ms ++ rest = marks
  fun_induction prose d marks generalizing ms with
  | case1 =>
    obtain ⟨rfl, rfl⟩ := List.append_eq_nil_iff.mp all
    rfl
  | case2 p q behind =>
    cases ms with
    | nil =>
      obtain rfl := all
      rfl
    | cons m ms =>
      have closed := h.first 0 (Nat.zero_lt_succ _)
      simp [all, opens, charAt] at closed
  | case3 p q behind ih =>
    obtain ⟨ms, rfl, all, h⟩ := h.eq_cons all (by simp [opens, charAt])
    obtain ⟨ms, rfl, rfl, h⟩ := h.eq_cons all (by simp [opens, charAt])
    rw [ih h rfl, told_brackets]
  | case4 p q behind ih =>
    obtain ⟨ms, rfl, all, h⟩ := h.eq_cons all (by simp [opens, charAt])
    obtain ⟨ms, rfl, rfl, h⟩ := h.eq_cons all (by simp [opens, charAt])
    rw [ih h rfl, told_lineEnd]
  | case5 c p behind closed pair line ends ih =>
    obtain ⟨ms, rfl, rfl, h, alone⟩ := h.eq_single all closed pair line
    rw [ih h rfl, told_single d rest alone]
    obtain rfl | rfl := ends <;> simp [Prose.put, Prose.touch, told, Text.encode, bounds_cons]
  | case6 c p behind closed pair line ends zero ih =>
    obtain ⟨ms, rfl, rfl, h, alone⟩ := h.eq_single all closed pair line
    rw [ih h rfl, told_single d rest alone]
    simp [Prose.fault, told, Text.encode, zero, ends]
  | case7 c p behind closed pair line ends nonzero b encoded ih =>
    obtain ⟨ms, rfl, rfl, h, alone⟩ := h.eq_single all closed pair line
    rw [ih h rfl, told_single d rest alone]
    simp [Prose.put, Prose.touch, told, encoded, nonzero, ends, bounds_cons]
  | case8 c p behind closed pair line ends nonzero unencoded ih =>
    obtain ⟨ms, rfl, rfl, h, alone⟩ := h.eq_single all closed pair line
    rw [ih h rfl, told_single d rest alone]
    simp [Prose.fault, Prose.touch, told, unencoded, nonzero, ends, bounds_cons]

/-! ## Where prose begins -/

/-- Prose begins with the characters `ms`, and `read` is what stands before them: it begins at the
start of the script, and behind code that is closed. -/
inductive Begins : List Lexeme → List Mark → Prop
  | start : Begins [] d.marks
  | behind {read inner : List Lexeme} {ms rest rest' : List Mark} {p q : Mark}
    (earlier : Begins read (ms ++ p :: q :: rest)) (stretch : Stretch ms (p :: q :: rest))
    (closed : code d 0 rest = (inner, some rest')) :
    Begins (read ++ collect (faultAt d) ms ++ textOf d ms ++
      .token d .openCode p.spot q.spot :: inner) rest'

variable {d}

section Stretches

variable {ms rest : List Mark} (h : Stretch ms rest)
include h

theorem next_of_stretch : (prose d (ms ++ rest)).next = opening? rest := by
  rw [prose_eq_told d h]
  rfl

theorem lexemes_of_stretch : (prose d (ms ++ rest)).errors ++ (prose d (ms ++ rest)).token? d =
    collect (faultAt d) ms ++ textOf d ms := by
  rw [prose_eq_told d h]
  rfl

end Stretches

theorem scan_of_begins {read : List Lexeme} {ms : List Mark} (h : Begins d read ms) :
    d.scan = read ++ scanFrom d ms := by
  induction h with
  | start => rfl
  | behind earlier stretch closed ih =>
    rw [ih, scanFrom_of_closed (next_of_stretch stretch) closed, lexemes_of_stretch stretch]
    simp only [List.append_assoc, List.cons_append]

/-- Prose is read as what its characters give: first all errors, each at the characters that make
it, then one text of all bytes. Behind it stands the bracket that opens code, or nothing. -/
theorem scan_prose {read : List Lexeme} {ms rest : List Mark} (begins : Begins d read (ms ++ rest))
    (stretch : Stretch ms rest) :
    ∃ behind, d.scan = read ++ (collect (faultAt d) ms ++ textOf d ms) ++ behind ∧
      behind.head? = (opening? rest).map fun found => .token d .openCode found.1 found.2.1 := by
  have next := next_of_stretch (d := d) stretch
  rw [scan_of_begins begins, ← lexemes_of_stretch stretch]
  cases opened : opening? rest with
  | none => exact ⟨[], by rw [scanFrom_of_end (next.trans opened), List.append_nil], rfl⟩
  | some found =>
    obtain ⟨p, q, inside⟩ := found
    rcases hc : code d 0 inside with ⟨inner, _ | rest'⟩
    · rw [scanFrom_of_open (next.trans opened) hc, ← List.append_assoc]
      exact ⟨_, rfl, rfl⟩
    · rw [scanFrom_of_closed (next.trans opened) hc, ← List.append_assoc]
      exact ⟨_, rfl, rfl⟩

/-- A letter, three closing brackets, a line end, and two characters that cannot be drawn. -/
def strayCharacters : List Char := ['a', ']', ']', ']', '\r', '\n', '☃', '\x00']

def strayBrackets : Document :=
  ⟨"stray", String.ofList (['[', '[', ']', ']'] ++ strayCharacters), none⟩

/-- The third bracket is not one of a pair, and the snowman counts as part of the text. -/
theorem scan_prose_strayBrackets :
    ∃ read behind, strayBrackets.scan = read ++
      ([.error strayBrackets .unmatchedClose ⟨1, 6⟩ ⟨1, 7⟩,
        .error strayBrackets (.unencodable '☃') ⟨2, 1⟩ ⟨2, 1⟩,
        .error strayBrackets (.badChar '\x00') ⟨2, 2⟩ ⟨2, 2⟩] ++
      [.token strayBrackets (.text [0x61, 0x5D, 0x0D]) ⟨1, 5⟩ ⟨2, 1⟩]) ++ behind := by
  let prose : List Mark := Mark.placed ⟨1, 5⟩ strayCharacters
  have marks : strayBrackets.marks =
      [] ++ ⟨'[', ⟨1, 1⟩⟩ :: ⟨'[', ⟨1, 2⟩⟩ :: ⟨']', ⟨1, 3⟩⟩ :: ⟨']', ⟨1, 4⟩⟩ :: prose := by
    rw [Document.marks, strayBrackets, String.toList_ofList]
    rfl
  have closed : code strayBrackets 0 (⟨']', ⟨1, 3⟩⟩ :: ⟨']', ⟨1, 4⟩⟩ :: prose) =
      ([.token strayBrackets .closeCode ⟨1, 3⟩ ⟨1, 4⟩], some prose) := by
    rw [code]
    rfl
  have opened : Stretch [] (⟨'[', ⟨1, 1⟩⟩ :: ⟨'[', ⟨1, 2⟩⟩ :: ⟨']', ⟨1, 3⟩⟩ :: ⟨']', ⟨1, 4⟩⟩ :: prose) :=
    ⟨.inr rfl, by decide⟩
  have begins := Begins.behind (marks ▸ Begins.start) opened closed
  rw [← List.append_nil prose] at begins
  obtain ⟨behind, eq, -⟩ := scan_prose begins ⟨.inl rfl, by decide⟩
  exact ⟨_, behind, eq⟩

end Gamebook.Scanner
