import Gamebook.Command.Run
import Gamebook.Proofs.Memory.Capacity
import Gamebook.Proofs.Memory.Placement

/-!
# What the files of the banks hold

Where a block lies is found from sizes alone, and its bytes are written by another pass, which knows
of no addresses. Yet both passes do the same to a bank: what one of them counts, the other one
appends (`BankUsage.ofBank_append`). Seen as one pass over banks with their bytes (`store`), they
cannot get out of step: the banks are as full as the first pass says (`Placing.eq_store`) and hold
what the second one writes (`map_bytes_store`), each block at its address (`Placing.holdsAt`).

No address is lost on the way. The windows of a program end within the address space, and a bank
that is added has one of them: `bank_files_hold_blocks`.
-/

namespace Gamebook.Memory

/-! ## Bytes behind those of a bank -/

namespace Bank

/-- The bank with more bytes behind those it holds. -/
def append (b : Bank) (bytes : List UInt8) : Bank := { b with bytes := b.bytes ++ bytes }

/-- A bank that was filled further. -/
structure Extends (b b' : Bank) : Prop where
  window_eq : b'.window = b.window
  begins : b.bytes <+: b'.bytes

theorem extends_refl (b : Bank) : b.Extends b := ⟨rfl, List.prefix_rfl⟩

theorem Extends.trans {b₁ b₂ b₃ : Bank} (h₁₂ : b₁.Extends b₂) (h₂₃ : b₂.Extends b₃) :
    b₁.Extends b₃ :=
  ⟨h₂₃.window_eq.trans h₁₂.window_eq, h₁₂.begins.trans h₂₃.begins⟩

theorem extends_append (b : Bank) (bytes : List UInt8) : b.Extends (b.append bytes) :=
  ⟨rfl, List.prefix_append _ _⟩

/-- The bytes are seen from an address on. -/
def HoldsAt (b : Bank) (address : Nat) (bytes : List UInt8) : Prop :=
  ∃ front back, b.bytes = front ++ bytes ++ back ∧ address = b.window.base + front.length

theorem append_holdsAt (b : Bank) (bytes : List UInt8) :
    (b.append bytes).HoldsAt (b.window.base + b.bytes.length) bytes :=
  ⟨b.bytes, [], (List.append_nil _).symm, rfl⟩

namespace HoldsAt

variable {b b' : Bank} {address : Nat} {bytes : List UInt8}

theorem of_extends (h : b.HoldsAt address bytes) (further : b.Extends b') :
    b'.HoldsAt address bytes := by
  obtain ⟨front, back, split, rfl⟩ := h
  obtain ⟨rest, more⟩ := further.begins
  refine ⟨front, back ++ rest, ?_, by rw [further.window_eq]⟩
  rw [← more, split, List.append_assoc _ back]

theorem base_le (h : b.HoldsAt address bytes) : b.window.base ≤ address := by
  obtain ⟨front, -, -, rfl⟩ := h
  exact Nat.le_add_right _ _

theorem take_drop (h : b.HoldsAt address bytes) :
    (b.bytes.drop (address - b.window.base)).take bytes.length = bytes := by
  obtain ⟨front, back, split, rfl⟩ := h
  rw [split, Nat.add_sub_cancel_left, List.append_assoc, List.drop_left, List.take_left]

end HoldsAt

end Bank

/-- A bank counts the bytes that are put into it. -/
theorem BankUsage.ofBank_append (b : Bank) (bytes : List UInt8) :
    ofBank (b.append bytes) = (ofBank b).fill bytes.length := by
  simp only [ofBank, Bank.append, Bank.free, fill, List.length_append, Nat.sub_add_eq]

/-! ## Blocks with their bytes -/

/-- Puts the bytes of each block behind what its bank holds, block after block. -/
def store (banks : List Bank) : List (Placement × List UInt8) → List Bank
  | [] => banks
  | (p, bytes) :: rest => store (banks.modify p.bank (·.append bytes)) rest

section Store

variable {banks : List Bank} {stored : List (Placement × List UInt8)} {after : List BankUsage}

/-- A change to one of the banks, seen through what is known of them. -/
theorem map_modify {α β : Type} {f : α → β} {g : α → α} (g' : β → β)
    (same : ∀ a, f (g a) = g' (f a)) (l : List α) (k : Nat) :
    (l.modify k g).map f = (l.map f).modify k g' := by
  apply List.ext_getElem?
  intro i
  rw [List.getElem?_map, List.getElem?_modify, List.getElem?_modify, List.getElem?_map]
  by_cases here : k = i
  · simp [here, Function.comp_def, same]
  · simp [here]

theorem getElem?_modify_append {k : Nat} {bank : Bank} (hk : banks[k]? = some bank)
    (bytes : List UInt8) :
    (banks.modify k (·.append bytes))[k]? = some (bank.append bytes) := by
  rw [List.getElem?_modify_eq, hk]
  rfl

/-- Of the banks that are left, the bytes are those the command writes. -/
theorem map_bytes_store (banks : List Bank) (stored : List (Placement × List UInt8)) :
    (store banks stored).map (·.bytes) =
      fillBanks (banks.map (·.bytes)) (stored.map (·.1)) (stored.map (·.2)) := by
  induction stored generalizing banks with
  | nil => rfl
  | cons x rest ih =>
    rw [store, ih, map_modify (· ++ x.2) fun _ => rfl]
    rfl

theorem length_store (banks : List Bank) (stored : List (Placement × List UInt8)) :
    (store banks stored).length = banks.length := by
  induction stored generalizing banks with
  | nil => rfl
  | cons x rest ih => rw [store, ih, List.length_modify]

theorem exists_store (stored : List (Placement × List UInt8)) {k : Nat} {bank : Bank}
    (hk : banks[k]? = some bank) :
    ∃ bank', (store banks stored)[k]? = some bank' ∧ bank.Extends bank' := by
  induction stored generalizing banks bank with
  | nil => exact ⟨bank, hk, bank.extends_refl⟩
  | cons x rest ih =>
    by_cases here : x.1.bank = k
    · subst here
      obtain ⟨bank', found, further⟩ := ih (getElem?_modify_append hk x.2)
      exact ⟨bank', found, (bank.extends_append x.2).trans further⟩
    · have kept : (banks.modify x.1.bank (·.append x.2))[k]? = some bank := by
        rw [List.getElem?_modify_ne _ _ here, hk]
      exact ih kept

/-- Placing a block and putting its bytes behind its bank is the same step. -/
theorem Placing.store_step {p : Placement} {placements : List Placement} {bytes : List UInt8}
    (h : Placing (banks.map .ofBank) (p :: placements) after) (size : p.block.size = bytes.length) :
    ∃ bank, banks[p.bank]? = some bank ∧
      p.address = (bank.window.base + bank.bytes.length).toUInt16 ∧
      bank.window.base + bank.bytes.length + bytes.length ≤ addressEnd ∧
      Placing ((banks.modify p.bank (·.append bytes)).map .ofBank) placements after := by
  cases h with
  | @place _ _ k usage block _ found fits within rest =>
    obtain ⟨bank, hk, rfl⟩ := Option.map_eq_some_iff.mp (List.getElem?_map ▸ found)
    dsimp only at size
    have step : (banks.modify k (·.append bytes)).map BankUsage.ofBank =
        (banks.map BankUsage.ofBank).set k ((BankUsage.ofBank bank).fill block.size) := by
      rw [map_modify (·.fill bytes.length) (BankUsage.ofBank_append · bytes),
        List.modify_eq_set_getElem?, found, size]
      rfl
    exact ⟨bank, hk, rfl, size ▸ within, step ▸ rest⟩

/-- The banks are as full as was counted. -/
theorem Placing.eq_store (h : Placing (banks.map .ofBank) (stored.map (·.1)) after)
    (sizes : ∀ x ∈ stored, x.1.block.size = x.2.length) :
    after = (store banks stored).map .ofBank := by
  induction stored generalizing banks with
  | nil =>
    cases h
    rfl
  | cons x rest ih =>
    obtain ⟨size, sizes⟩ := List.forall_mem_cons.mp sizes
    obtain ⟨bank, -, -, -, next⟩ := h.store_step size
    exact ih next sizes

/-- Every block that has any bytes lies where it was placed. -/
theorem Placing.holdsAt (h : Placing (banks.map .ofBank) (stored.map (·.1)) after)
    (sizes : ∀ x ∈ stored, x.1.block.size = x.2.length) :
    ∀ x ∈ stored, x.2 ≠ [] → ∃ bank, (store banks stored)[x.1.bank]? = some bank ∧
      bank.HoldsAt x.1.address.toNat x.2 := by
  induction stored generalizing banks with
  | nil => exact List.forall_mem_nil _
  | cons x rest ih =>
    obtain ⟨size, sizes⟩ := List.forall_mem_cons.mp sizes
    obtain ⟨bank, found, address, within, next⟩ := h.store_step size
    refine List.forall_mem_cons.mpr ⟨fun bytes => ?_, ih next sizes⟩
    -- the blocks that follow leave these bytes where they are
    obtain ⟨bank', found', further⟩ := exists_store rest (getElem?_modify_append found x.2)
    refine ⟨bank', found', ?_⟩
    have some : 0 < x.2.length := List.length_pos_iff.mpr bytes
    rw [address, toNat_toUInt16 (by unfold addressEnd at within; omega)]
    exact (bank.append_holdsAt x.2).of_extends further

/-- A bank in the end: it was filled further, within its window, is as full as was counted, and
holds the blocks that were placed there. -/
theorem Placing.exists_bank (h : Placing (banks.map .ofBank) (stored.map (·.1)) after)
    (sizes : ∀ x ∈ stored, x.1.block.size = x.2.length) {k : Nat} {start : Bank}
    (hk : banks[k]? = some start) (fits : start.bytes.length ≤ start.window.capacity) :
    ∃ bank, (store banks stored)[k]? = some bank ∧ after[k]? = some (.ofBank bank) ∧
      start.Extends bank ∧ bank.bytes.length ≤ bank.window.capacity ∧
      ∀ x ∈ stored, x.1.bank = k → x.2 ≠ [] → bank.HoldsAt x.1.address.toNat x.2 := by
  obtain ⟨bank, found, further⟩ := exists_store stored hk
  have counted : after[k]? = some (.ofBank bank) := by
    rw [h.eq_store sizes, List.getElem?_map, found]
    rfl
  refine ⟨bank, found, counted, further, ?_, fun x mem here bytes => ?_⟩
  · have begins : (banks.map BankUsage.ofBank)[k]? = some (.ofBank start) := by
      rw [List.getElem?_map, hk]
      rfl
    obtain ⟨final, hfinal, -, -, total, -⟩ := h.filled begins
    obtain rfl : final = .ofBank bank := Option.some.inj (hfinal.symm.trans counted)
    simp only [BankUsage.ofBank, Bank.free, further.window_eq] at total
    rw [further.window_eq]
    omega
  · obtain ⟨bank', found', holds⟩ := h.holdsAt sizes x mem bytes
    rw [here] at found'
    obtain rfl : bank' = bank := Option.some.inj (found'.symm.trans found)
    exact holds

end Store

/-! ## Blocks behind a program -/

/-- A bank that is added for data. -/
def Options.spareBank (o : Options) : Bank := ⟨o.windows.getLast?.getD .standard, []⟩

theorem spareBank_window (o : Options) : o.spareBank.window = o.window o.windows.length := by
  rw [Options.spareBank, Options.window, Nat.min_eq_right (Nat.sub_le _ _),
    List.getLast?_eq_getElem?]

/-- Banks are added as if they were of the program. -/
theorem withExtra_budget (o : Options) (banks : List Bank) (maxBanks extra : Nat) :
    withExtra (banks.map .ofBank) (o.budget maxBanks) extra =
      (banks ++ List.replicate extra o.spareBank).map .ofBank := by
  rw [withExtra, List.map_append, List.map_replicate]
  rfl

/-- The blocks with these contents, numbered from `id` on. -/
def numbered (kind : BlockKind) (id : Nat) : List (List UInt8) → List (Block × List UInt8)
  | [] => []
  | bytes :: rest => (⟨kind, id, bytes.length⟩, bytes) :: numbered kind (id + 1) rest

theorem map_snd_numbered (kind : BlockKind) (id : Nat) (contents : List (List UInt8)) :
    (numbered kind id contents).map (·.2) = contents := by
  induction contents generalizing id with
  | nil => rfl
  | cons bytes rest ih => rw [numbered, List.map_cons, ih]

theorem size_eq_of_mem_numbered {kind : BlockKind} {id : Nat} {contents : List (List UInt8)} :
    ∀ x ∈ numbered kind id contents, x.1.size = x.2.length := by
  induction contents generalizing id with
  | nil => exact List.forall_mem_nil _
  | cons bytes rest ih => exact List.forall_mem_cons.mpr ⟨rfl, ih⟩

/-- The blocks that are placed: pictures and then music, each numbered from 0 on. -/
def dataBlocks (images tracks : List (List UInt8)) : List (Block × List UInt8) :=
  numbered .image 0 images ++ numbered .track 0 tracks

theorem map_snd_dataBlocks (images tracks : List (List UInt8)) :
    (dataBlocks images tracks).map (·.2) = images ++ tracks := by
  rw [dataBlocks, List.map_append, map_snd_numbered, map_snd_numbered]

theorem size_eq_of_mem_dataBlocks {images tracks : List (List UInt8)} :
    ∀ x ∈ dataBlocks images tracks, x.1.size = x.2.length :=
  List.forall_mem_append.mpr ⟨size_eq_of_mem_numbered, size_eq_of_mem_numbered⟩

section Allocation

variable {o : Options} {banks : List Bank} {blocks : List (Block × List UInt8)} {maxBanks : Nat}
  {a : Allocation}

/-- Every block with its place and its bytes. -/
def Allocation.stored (a : Allocation) (data : List (List UInt8)) :
    List (Placement × List UInt8) :=
  a.placements.zip data

/-- A block and its bytes, found from its place. -/
theorem getElem?_of_placements (same : a.placements.map (·.block) = blocks.map (·.1)) {i : Nat}
    {p : Placement} (hi : a.placements[i]? = some p) :
    ∃ bytes, blocks[i]? = some (p.block, bytes) ∧
      (p, bytes) ∈ a.stored (blocks.map (·.2)) := by
  have block : (blocks.map (·.1))[i]? = some p.block := by
    rw [← same, List.getElem?_map, hi]
    rfl
  rw [List.getElem?_map] at block
  obtain ⟨⟨_, bytes⟩, found, rfl⟩ := Option.map_eq_some_iff.mp block
  have data : (blocks.map (·.2))[i]? = some bytes := by
    rw [List.getElem?_map, found]
    rfl
  exact ⟨bytes, found, List.mem_of_getElem? (List.getElem?_zip_eq_some.mpr ⟨hi, data⟩)⟩

theorem size_eq_of_mem_stored (same : a.placements.map (·.block) = blocks.map (·.1))
    (sizes : ∀ x ∈ blocks, x.1.size = x.2.length) :
    ∀ x ∈ a.stored (blocks.map (·.2)), x.1.block.size = x.2.length := by
  rintro ⟨p, bytes⟩ mem
  obtain ⟨i, found⟩ := List.mem_iff_getElem?.mp mem
  obtain ⟨hp, hbytes⟩ := List.getElem?_zip_eq_some.mp found
  obtain ⟨bytes', hi, -⟩ := getElem?_of_placements same hp
  rw [List.getElem?_map, hi] at hbytes
  obtain rfl : bytes' = bytes := Option.some.inj hbytes
  exact sizes _ (List.mem_of_getElem? hi)

/-- What becomes of the banks of a program and of those that are added is a single pass over
them. -/
theorem store_of_allocate
    (h : allocate (banks.map .ofBank) (blocks.map (·.1)) (o.budget maxBanks) = .ok a) :
    ∃ extra, a.placements.map (·.block) = blocks.map (·.1) ∧
      Placing ((banks ++ List.replicate extra o.spareBank).map .ofBank)
        ((a.stored (blocks.map (·.2))).map (·.1)) a.banks ∧
      a.contents banks (blocks.map (·.2)) =
        (store (banks ++ List.replicate extra o.spareBank) (a.stored (blocks.map (·.2)))).map
          (·.bytes) := by
  obtain ⟨extra, -, attempt⟩ := allocate_eq_ok h
  rw [withExtra_budget] at attempt
  obtain ⟨placing, same⟩ := bestFit_eq_ok attempt
  have length : a.placements.length = (blocks.map (·.2)).length := by
    simpa using congrArg List.length same
  have left : (a.stored (blocks.map (·.2))).map (·.1) = a.placements :=
    List.map_fst_zip length.le
  have right : (a.stored (blocks.map (·.2))).map (·.2) = blocks.map (·.2) :=
    List.map_snd_zip length.ge
  have added : a.banks.length - banks.length = extra := by
    rw [placing.length_eq]
    simp
  refine ⟨extra, same, left.symm ▸ placing, ?_⟩
  rw [map_bytes_store, left, right, List.map_append, List.map_replicate, Allocation.contents,
    List.length_map, added]
  rfl

theorem getD_getElem?_eq {extra k : Nat} {spare start : Bank}
    (h : (banks ++ List.replicate extra spare)[k]? = some start) :
    banks[k]?.getD spare = start := by
  rcases getElem?_append_replicate h with found | ⟨beyond, rfl⟩
  · rw [found, Option.getD_some]
  · rw [List.getElem?_eq_none beyond, Option.getD_none]

theorem length_contents
    (h : allocate (banks.map .ofBank) (blocks.map (·.1)) (o.budget maxBanks) = .ok a) :
    (a.contents banks (blocks.map (·.2))).length = a.banks.length := by
  obtain ⟨extra, -, placing, contents⟩ := store_of_allocate h
  rw [contents, placing.length_eq, List.length_map, List.length_map, length_store]

/-- What becomes of a bank of the program, or of one that is added. -/
theorem bank_of_allocate (sizes : ∀ x ∈ blocks, x.1.size = x.2.length)
    (h : allocate (banks.map .ofBank) (blocks.map (·.1)) (o.budget maxBanks) = .ok a) {k : Nat}
    {usage : BankUsage} (hk : a.banks[k]? = some usage) {start : Bank}
    (hstart : banks[k]?.getD o.spareBank = start)
    (fits : start.bytes.length ≤ start.window.capacity) :
    ∃ bank : Bank, usage = .ofBank bank ∧
      (a.contents banks (blocks.map (·.2)))[k]? = some bank.bytes ∧
      start.Extends bank ∧ bank.bytes.length ≤ bank.window.capacity ∧
      ∀ x ∈ a.stored (blocks.map (·.2)), x.1.bank = k → x.2 ≠ [] →
        bank.HoldsAt x.1.address.toNat x.2 := by
  obtain ⟨extra, same, placing, contents⟩ := store_of_allocate h
  have lt : k < (banks ++ List.replicate extra o.spareBank).length := by
    rw [← List.length_map BankUsage.ofBank, ← placing.length_eq]
    exact (List.getElem?_eq_some_iff.mp hk).1
  have begins := List.getElem?_eq_getElem lt
  rw [(getD_getElem?_eq begins).symm.trans hstart] at begins
  obtain ⟨bank, found, counted, further, within, holds⟩ :=
    placing.exists_bank (size_eq_of_mem_stored same sizes) begins fits
  refine ⟨bank, Option.some.inj (hk.symm.trans counted), ?_, further, within, holds⟩
  rw [contents, List.getElem?_map, found]
  rfl

end Allocation

/-! ## Where the windows of a program end -/

section Windows

variable {o : Options} {symbols : Symbol.Table} {code : List Instruction} {image : Image}
  {d : Draft}

/-- Every bank of a program ends within the address space. -/
theorem Placed.ofBank_end_le (h : Placed o symbols code image d) :
    ∀ usage ∈ image.banks.map BankUsage.ofBank,
      usage.base + usage.used + usage.free ≤ addressEnd := by
  refine List.forall_mem_map.mpr fun bank mem => ?_
  obtain ⟨k, hk⟩ := List.mem_iff_getElem?.mp mem
  obtain ⟨window, fits, -, -⟩ := h.bank_bounds hk
  have end_le := Window.end_le (h.window_isValid k)
  rw [← window] at end_le
  simp only [BankUsage.ofBank, Bank.free]
  unfold addressEnd
  omega

/-- So does a bank that is added. -/
theorem Placed.spareBank_end_le (h : Placed o symbols code image d) :
    o.spareBank.window.base + o.spareBank.window.capacity ≤ addressEnd := by
  rw [spareBank_window]
  exact Window.end_le (h.window_isValid _)

theorem Placed.start_fits (h : Placed o symbols code image d) (k : Nat) :
    (image.banks[k]?.getD o.spareBank).bytes.length ≤
      (image.banks[k]?.getD o.spareBank).window.capacity := by
  cases hk : image.banks[k]? with
  | none => exact Nat.zero_le _
  | some bank => exact (h.bank_bounds hk).2.1

end Windows

end Gamebook.Memory

namespace Gamebook.Command

open Memory

/-! ## Files -/

/-- Files that can be read, and are not too many, give blocks with their contents. -/
theorem Settings.readBlocks_eq_ok (kind : BlockKind) (id : Nat) {read : Reader}
    {paths : List String} {contents : List (List UInt8)}
    (readable : paths.map read = contents.map .ok) (few : id + contents.length ≤ 256) :
    readBlocks read kind id paths = .ok (numbered kind id contents) := by
  induction paths generalizing contents id with
  | nil =>
    obtain rfl : contents = [] := by simpa using readable.symm
    rfl
  | cons path paths ih =>
    cases contents with
    | nil => contradiction
    | cons bytes contents =>
      obtain ⟨first, rest⟩ := List.cons.inj readable
      rw [List.length_cons] at few
      have others := ih (id + 1) rest (by omega)
      simp only [readBlocks, first, if_neg (show ¬ 255 < id by omega), others]
      rfl

/-- The files that the command leaves once blocks are placed. -/
theorem Settings.finish_eq {s : Settings} {read : Reader} {o : CompileOptions} {maxBanks : Nat}
    {image : Image} {images tracks : List (List UInt8)} {a : Allocation}
    (readImages : s.images.map read = images.map .ok)
    (readTracks : s.tracks.map read = tracks.map .ok)
    (fewImages : images.length ≤ 256) (fewTracks : tracks.length ≤ 256)
    (placed : allocate (image.banks.map .ofBank) ((dataBlocks images tracks).map (·.1))
      (o.memory.budget maxBanks) = .ok a) :
    (s.finish read o maxBanks image).2 =
      .ok ⟨s.output, a.contents image.banks ((dataBlocks images tracks).map (·.2)),
        usageTable a.banks⟩ := by
  have pictures := readBlocks_eq_ok .image 0 readImages (by omega)
  have music := readBlocks_eq_ok .track 0 readTracks (by omega)
  have delivers : s.finish read o maxBanks image =
      s.deliver (o.memory.budget maxBanks) image.banks (dataBlocks images tracks) := by
    simp only [finish, pictures, music]
    rfl
  rw [delivers, deliver, placed]

/-- Under the options a program was compiled with, blocks never end past the address space. If there
is memory for all of them, the command leaves a file for every bank. It is as long as is said of the
bank, fits its window, and begins with the program, unless the bank was added; and every block that
has any bytes is found in the file of its bank, where its address says. -/
theorem bank_files_hold_blocks {o : CompileOptions} {symbols : Symbol.Table}
    {code : List Instruction} {log : Log} {image : Image}
    (h : Memory.generate o.memory symbols code = (log, .ok image))
    (images tracks : List (List UInt8)) (maxBanks : Nat) :
    (∀ kind id, allocate (image.banks.map .ofBank) ((dataBlocks images tracks).map (·.1))
      (o.memory.budget maxBanks) ≠ .error (.addressOverflow kind id)) ∧
    ∀ (a : Allocation) (files : List (List UInt8)),
      allocate (image.banks.map .ofBank) ((dataBlocks images tracks).map (·.1))
        (o.memory.budget maxBanks) = .ok a →
      files = a.contents image.banks (images ++ tracks) →
      (∀ (s : Settings) (read : Reader), s.images.map read = images.map .ok →
        s.tracks.map read = tracks.map .ok → images.length ≤ 256 → tracks.length ≤ 256 →
        (s.finish read o maxBanks image).2 = .ok ⟨s.output, files, Settings.usageTable a.banks⟩) ∧
      files.length = a.banks.length ∧
      ∀ (k : Nat) (file : List UInt8) (usage : BankUsage) (start : Bank),
        files[k]? = some file → a.banks[k]? = some usage →
        image.banks[k]?.getD o.memory.spareBank = start →
        file.length = usage.used ∧ file.length ≤ start.window.capacity ∧
        usage.base = start.window.base ∧ start.bytes <+: file ∧
        ∀ (i : Nat) (p : Placement), a.placements[i]? = some p → p.bank = k →
          ∃ bytes, (dataBlocks images tracks)[i]? = some (p.block, bytes) ∧
            p.block.size = bytes.length ∧
            (bytes ≠ [] → usage.base ≤ p.address.toNat ∧
              (file.drop (p.address.toNat - usage.base)).take p.block.size = bytes) := by
  obtain ⟨d, program⟩ := generate_eq_ok h
  refine ⟨allocate_ne_addressOverflow program.ofBank_end_le program.spareBank_end_le, ?_⟩
  intro a files placed hfiles
  rw [← map_snd_dataBlocks] at hfiles
  subst hfiles
  refine ⟨fun s read readImages readTracks fewImages fewTracks =>
    Settings.finish_eq readImages readTracks fewImages fewTracks placed, length_contents placed, ?_⟩
  rintro k file usage start hfile husage rfl
  obtain ⟨-, same, -, -⟩ := store_of_allocate placed
  have sizes := size_eq_of_mem_stored same size_eq_of_mem_dataBlocks
  obtain ⟨bank, rfl, found, further, within, holds⟩ :=
    bank_of_allocate size_eq_of_mem_dataBlocks placed husage rfl (program.start_fits k)
  obtain rfl : bank.bytes = file := Option.some.inj (found.symm.trans hfile)
  refine ⟨rfl, further.window_eq ▸ within, further.window_eq ▸ rfl, further.begins, ?_⟩
  intro i p hi here
  obtain ⟨bytes, block, mem⟩ := getElem?_of_placements same hi
  refine ⟨bytes, block, sizes _ mem, fun some => ?_⟩
  have there := holds _ mem here some
  exact ⟨there.base_le, sizes _ mem ▸ there.take_drop⟩

/-- Two pictures, the second of them empty, and a piece of music. -/
def illustrated : Settings :=
  { input := "script", output := "game", images := ["map", "blank"], tracks := ["theme"] }

/-- The files they are read from. -/
def shelf : Reader
  | "map" => .ok [1, 2, 3]
  | "blank" => .ok []
  | "theme" => .ok [4, 5, 6, 7, 8]
  | _ => .error .notFound

/-- Where they lie behind a program in narrow windows: the map fills the first bank, and there is a
bank added for the music. -/
def shelfAllocation : Allocation :=
  ⟨[⟨⟨.image, 0, 3⟩, 0, 0xC005⟩, ⟨⟨.image, 1, 0⟩, 0, 0xC008⟩, ⟨⟨.track, 0, 5⟩, 2, 0x8000⟩],
    [⟨0xC000, 8, 0⟩, ⟨0x8000, 16, 4⟩, ⟨0x8000, 5, 15⟩]⟩

theorem bank_files_hold_blocks_readingLoop :
    ∃ log image delivery, Memory.generate narrowWindows .empty readingLoop = (log, .ok image) ∧
      (illustrated.finish shelf { memory := narrowWindows } 8 image).2 = .ok delivery ∧
      delivery.banks.length = 3 ∧
      ∃ file, delivery.banks[0]? = some file ∧ file.length = 8 ∧
        (file.drop 5).take 3 = [1, 2, 3] := by
  obtain ⟨log, image, program, placed⟩ : ∃ log image,
      Memory.generate narrowWindows .empty readingLoop = (log, .ok image) ∧
      allocate (image.banks.map .ofBank)
        ((dataBlocks [[1, 2, 3], []] [[4, 5, 6, 7, 8]]).map (·.1)) (narrowWindows.budget 8) =
          .ok shelfAllocation :=
    ⟨_, _, rfl, rfl⟩
  have holds := bank_files_hold_blocks (o := { memory := narrowWindows }) program
    [[1, 2, 3], []] [[4, 5, 6, 7, 8]] 8
  obtain ⟨finish, length, bank⟩ := holds.2 _ _ placed rfl
  have found := List.getElem?_eq_getElem (length ▸ (by decide : 0 < shelfAllocation.banks.length))
  obtain ⟨full, -, -, -, block⟩ := bank 0 _ _ _ found rfl rfl
  obtain ⟨bytes, here, -, lies⟩ := block 0 _ rfl rfl
  obtain rfl : [1, 2, 3] = bytes := by simpa [dataBlocks, numbered] using here
  exact ⟨log, image, _, program, finish illustrated shelf rfl rfl (by decide) (by decide), length,
    _, found, full, (lies (by decide)).2⟩

end Gamebook.Command
