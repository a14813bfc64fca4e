import MachineCode.Proofs.Decoding.Delimited
import MachineCode.Proofs.Decoding.Lines
import MachineCode.Proofs.Decoding.Stream

/-! Listings. The items of a listing cut the bytes into ranges without gap or overlap, and a buffer
that is cut into instructions alone stays so whatever is appended to it. -/
namespace MachineCode.X64

/-- The ranges, by offset and size, follow one another from `start` to `stop`, and none is empty. -/
def Tiles : (start stop : Nat) → List (Nat × Nat) → Prop
  | start, stop, [] => start = stop
  | start, stop, (offset, size) :: rest =>
    offset = start ∧ 0 < size ∧ Tiles (start + size) stop rest

theorem Tiles.le {start stop : Nat} {ranges : List (Nat × Nat)} (h : Tiles start stop ranges) :
    start ≤ stop := by
  induction ranges generalizing start with
  | nil => exact Nat.le_of_eq h
  | cons r ranges ih =>
    have hrest := ih h.2.2
    omega

theorem Tiles.le_offset {start stop : Nat} {ranges : List (Nat × Nat)} (h : Tiles start stop ranges)
    {r : Nat × Nat} (hr : r ∈ ranges) : start ≤ r.1 := by
  induction ranges generalizing start with
  | nil => cases hr
  | cons r' ranges ih =>
    obtain ⟨hoffset, -, hrest⟩ := h
    cases hr with
    | head => exact Nat.le_of_eq hoffset.symm
    | tail _ hr =>
      have hle := ih hrest hr
      omega

/-- Each position is in one of the ranges and in no other. -/
theorem Tiles.existsUnique {start stop : Nat} {ranges : List (Nat × Nat)}
    (h : Tiles start stop ranges) {p : Nat} (hp : start ≤ p ∧ p < stop) :
    ∃! k : Nat, ∃ r : Nat × Nat, ranges[k]? = some r ∧ r.1 ≤ p ∧ p < r.1 + r.2 := by
  induction ranges generalizing start with
  | nil =>
    have heq : start = stop := h
    omega
  | cons r ranges ih =>
    obtain ⟨hoffset, hsize, hrest⟩ := h
    by_cases hin : p < start + r.2
    · refine ⟨0, ⟨r, rfl, by omega, by omega⟩, ?_⟩
      rintro (_ | k) ⟨r', hr', hlow, -⟩
      · rfl
      · have hle := hrest.le_offset (List.mem_of_getElem? hr')
        omega
    · obtain ⟨k, ⟨r', hr', hrange⟩, hunique⟩ := ih hrest ⟨by omega, hp.2⟩
      refine ⟨k + 1, ⟨r', hr', hrange⟩, ?_⟩
      rintro (_ | l) ⟨r'', hr'', hrange'⟩
      · cases hr''
        omega
      · rw [hunique l ⟨r'', hr'', hrange'⟩]

namespace ListingItem

/-- How many bytes the item stands for. -/
def size (item : ListingItem) : Nat :=
  match item.content with
  | .inl (_, n) => n
  | .inr _ => 1

def range (item : ListingItem) : Nat × Nat := (item.offset, item.size)

/-- The item is what stands in the code at its offset. -/
def StandsIn (item : ListingItem) (code : List UInt8) : Prop :=
  match item.content with
  | .inl d => decode (code.drop item.offset) = some d
  | .inr b => code[item.offset]? = some b ∧ decode (code.drop item.offset) = none

theorem StandsIn.startsNone_iff {item : ListingItem} {code : List UInt8} (h : item.StandsIn code) :
    (∃ b, item.content = .inr b) ↔ decode (code.drop item.offset) = none := by
  obtain ⟨offset, d | b⟩ := item
  · have hd : decode (code.drop offset) = some d := h
    simp [hd]
  · simp [h.2]

def shift (d : Nat) (item : ListingItem) : ListingItem := { item with offset := item.offset + d }

end ListingItem

/-- An instruction of a buffer, as an item of its listing. -/
def entryItem (e : Nat × Decoded × Nat) : ListingItem := ⟨e.1, .inl e.2⟩

/-- The entries of a buffer, by offset and length. -/
def entryRange (e : Nat × Decoded × Nat) : Nat × Nat := (e.1, e.2.2)

/-- The entry of a buffer behind `d` further bytes. -/
def shiftEntry (d : Nat) (e : Nat × Decoded × Nat) : Nat × Decoded × Nat := (e.1 + d, e.2)

theorem ListingItem.listed?_eq_some {item : ListingItem} {e : Nat × Decoded × Nat} :
    item.listed? = some e ↔ item = entryItem e := by
  obtain ⟨offset, d | b⟩ := item
  · obtain ⟨offset', d'⟩ := e
    simp [listed?, entryItem]
  · simp [listed?, entryItem]

theorem ListingItem.listed?_shift (d : Nat) (item : ListingItem) :
    (item.shift d).listed? = item.listed?.map (shiftEntry d) := by
  obtain ⟨offset, c | b⟩ := item <;> rfl

/-- Bytes are cut from the front: an instruction, or one byte where none starts. -/
@[elab_as_elim]
theorem cut_induction {P : List UInt8 → Prop} (nil : P [])
    (instr : ∀ used i rest, Decodes used i → P rest → P (used ++ rest))
    (byte : ∀ b rest, decode (b :: rest) = none → P rest → P (b :: rest)) (bytes : List UInt8) :
    P bytes := by
  induction hn : bytes.length using Nat.strongRecOn generalizing bytes with
  | ind n ih =>
    subst hn
    cases hd : decode bytes with
    | some d =>
      obtain ⟨used, rest, rfl, -, hused, -⟩ := decode_eq_some hd
      have hpos := List.length_pos_iff.mpr hused.ne_nil
      exact instr used d.1 rest hused (ih rest.length (by simp; omega) rest rfl)
    | none =>
      cases bytes with
      | nil => exact nil
      | cons b rest => exact byte b rest hd (ih rest.length (by simp) rest rfl)

theorem listingFrom_none {offset : Nat} {b : UInt8} {rest : List UInt8}
    (h : decode (b :: rest) = none) :
    listingFrom offset 0 (b :: rest) = ⟨offset, .inr b⟩ :: listingFrom (offset + 1) 0 rest := by
  rw [listingFrom, h]

theorem listingFrom_shift (d offset skip : Nat) (bytes : List UInt8) :
    listingFrom (offset + d) skip bytes = (listingFrom offset skip bytes).map (.shift d) := by
  induction bytes generalizing offset skip with
  | nil => cases skip <;> rfl
  | cons b bytes ih =>
    cases skip with
    | succ skip =>
      simp only [listingFrom]
      rw [Nat.add_right_comm, ih]
    | zero =>
      simp only [listingFrom]
      split
      all_goals
        rw [Nat.add_right_comm, ih]
        rfl

theorem tiles_listingFrom (offset : Nat) (bytes : List UInt8) :
    Tiles offset (offset + bytes.length) ((listingFrom offset 0 bytes).map ListingItem.range) := by
  induction bytes using cut_induction generalizing offset with
  | nil => rfl
  | instr used i rest hused ih =>
    rw [listingFrom_decodes hused, List.length_append, ← Nat.add_assoc]
    exact ⟨rfl, List.length_pos_iff.mpr hused.ne_nil, ih _⟩
  | byte b rest hnone ih =>
    rw [listingFrom_none hnone, List.length_cons, Nat.add_comm rest.length, ← Nat.add_assoc]
    exact ⟨rfl, Nat.one_pos, ih _⟩

theorem standsIn_listingFrom (before bytes : List UInt8) :
    ∀ item ∈ listingFrom before.length 0 bytes, item.StandsIn (before ++ bytes) := by
  induction bytes using cut_induction generalizing before with
  | nil =>
    intro item hitem
    cases hitem
  | instr used i rest hused ih =>
    intro item hitem
    rw [listingFrom_decodes hused, ← List.length_append] at hitem
    cases hitem with
    | head =>
      change decode ((before ++ (used ++ rest)).drop before.length) = _
      rw [List.drop_left, hused]
    | tail _ hitem =>
      rw [← List.append_assoc]
      exact ih (before ++ used) item hitem
  | byte b rest hnone ih =>
    intro item hitem
    rw [listingFrom_none hnone] at hitem
    cases hitem with
    | head =>
      refine ⟨by simp, ?_⟩
      change decode ((before ++ b :: rest).drop before.length) = none
      rw [List.drop_left, hnone]
    | tail _ hitem =>
      have hlen : before.length + 1 = (before ++ [b]).length := by simp
      rw [hlen] at hitem
      have hstands := ih (before ++ [b]) item hitem
      rwa [List.append_assoc, List.singleton_append] at hstands

theorem decodeAll_eq_some {bytes : List UInt8} {xs : List (Nat × Decoded × Nat)} :
    decodeAll bytes = some xs ↔ listing bytes = xs.map entryItem := by
  rw [decodeAll_eq_mapM]
  generalize listing bytes = items
  induction items generalizing xs with
  | nil => cases xs <;> simp
  | cons item items ih =>
    cases xs with
    | nil => simp [List.mapM_cons, Option.bind_eq_some_iff]
    | cons x xs =>
      rw [List.map_cons, List.cons.injEq, ← ListingItem.listed?_eq_some, ← ih]
      simp [List.mapM_cons, Option.bind_eq_some_iff]

/-- Instructions that tile the bytes behind `before` are the items of their listing. -/
theorem listingFrom_of_tiles (before bytes : List UInt8) {xs : List (Nat × Decoded × Nat)}
    (htiles : Tiles before.length (before.length + bytes.length) (xs.map entryRange))
    (hdecode : ∀ e ∈ xs, decode ((before ++ bytes).drop e.1) = some e.2) :
    listingFrom before.length 0 bytes = xs.map entryItem := by
  induction bytes using cut_induction generalizing before xs with
  | nil =>
    cases xs with
    | nil => rfl
    | cons e xs =>
      have hle := htiles.2.2.le
      have hpos : 0 < e.2.2 := htiles.2.1
      simp only [List.length_nil] at hle
      omega
  | instr used i rest hused ih =>
    cases xs with
    | nil =>
      have hpos := List.length_pos_iff.mpr hused.ne_nil
      have heq : before.length = before.length + (used ++ rest).length := htiles
      rw [List.length_append] at heq
      omega
    | cons e xs =>
      obtain ⟨offset, d⟩ := e
      obtain ⟨hoffset, -, hrest⟩ := htiles
      have hd : decode ((before ++ (used ++ rest)).drop offset) = some d :=
        hdecode (offset, d) List.mem_cons_self
      change offset = before.length at hoffset
      subst hoffset
      rw [List.drop_left, hused] at hd
      cases hd
      rw [listingFrom_decodes hused, List.map_cons, ← List.length_append]
      change _ :: _ = _ :: _
      refine congrArg _ (ih (before ++ used) ?_ ?_)
      · rw [List.length_append, ← Nat.add_assoc] at hrest
        rw [List.length_append]
        exact hrest
      · intro e he
        rw [List.append_assoc]
        exact hdecode e (List.mem_cons_of_mem _ he)
  | byte b rest hnone ih =>
    cases xs with
    | nil =>
      have heq : before.length = before.length + (b :: rest).length := htiles
      rw [List.length_cons] at heq
      omega
    | cons e xs =>
      obtain ⟨offset, d⟩ := e
      have hoffset : offset = before.length := htiles.1
      have hd : decode ((before ++ b :: rest).drop offset) = some d :=
        hdecode (offset, d) List.mem_cons_self
      rw [hoffset, List.drop_left, hnone] at hd
      cases hd

/-- The instructions of a buffer tile it, and no other instructions do. -/
theorem decodeAll_iff {bytes : List UInt8} {xs : List (Nat × Decoded × Nat)} :
    decodeAll bytes = some xs ↔ Tiles 0 bytes.length (xs.map entryRange) ∧
      ∀ e ∈ xs, decode (bytes.drop e.1) = some e.2 := by
  rw [decodeAll_eq_some]
  constructor
  · intro h
    have htiles := tiles_listingFrom 0 bytes
    have hstands := standsIn_listingFrom [] bytes
    change ∀ item ∈ listing bytes, _ at hstands
    change Tiles _ _ ((listing bytes).map _) at htiles
    rw [h] at htiles hstands
    rw [List.map_map, Nat.zero_add] at htiles
    refine ⟨htiles, ?_⟩
    intro e he
    exact hstands (entryItem e) (List.mem_map_of_mem he)
  · rintro ⟨htiles, hdecode⟩
    refine listingFrom_of_tiles [] bytes ?_ hdecode
    rwa [List.length_nil, Nat.zero_add]

theorem listingFrom_append {offset : Nat} {bytes : List UInt8} {xs : List (Nat × Decoded × Nat)}
    (h : listingFrom offset 0 bytes = xs.map entryItem) (more : List UInt8) :
    listingFrom offset 0 (bytes ++ more) =
      xs.map entryItem ++ listingFrom (offset + bytes.length) 0 more := by
  induction bytes using cut_induction generalizing offset xs with
  | nil =>
    rw [← h]
    rfl
  | instr used i rest hused ih =>
    rw [listingFrom_decodes hused] at h
    cases xs with
    | nil => cases h
    | cons e xs =>
      obtain ⟨hhead, htail⟩ := List.cons.inj h
      rw [List.append_assoc, listingFrom_decodes hused, ih htail, hhead, List.length_append,
        Nat.add_assoc, List.map_cons, List.cons_append]
  | byte b rest hnone ih =>
    rw [listingFrom_none hnone] at h
    cases xs with
    | nil => cases h
    | cons e xs => cases (List.cons.inj h).1

theorem mapM_entry_shift (d : Nat) (items : List ListingItem) :
    (items.map (ListingItem.shift d)).mapM ListingItem.listed? =
      (items.mapM ListingItem.listed?).map fun ys => ys.map (shiftEntry d) := by
  induction items with
  | nil => rfl
  | cons item items ih =>
    rw [List.map_cons, List.mapM_cons, List.mapM_cons, ih, ListingItem.listed?_shift]
    cases item.listed? <;> cases items.mapM ListingItem.listed? <;> rfl

/-- What follows bytes that are all instructions is cut as if it stood alone. -/
theorem decodeAll_append {x : List UInt8} {xs : List (Nat × Decoded × Nat)}
    (h : decodeAll x = some xs) (y : List UInt8) :
    decodeAll (x ++ y) = (decodeAll y).map fun ys => xs ++ ys.map (shiftEntry x.length) := by
  have happend : listing (x ++ y) = listing x ++ (listing y).map (.shift x.length) := by
    have hx := decodeAll_eq_some.mp h
    rw [hx, listing, listingFrom_append hx, listingFrom_shift]
    rfl
  rw [decodeAll_eq_mapM, happend, List.mapM_append, ← decodeAll_eq_mapM, h, mapM_entry_shift,
    decodeAll_eq_mapM]
  cases (listing y).mapM ListingItem.listed? <;> rfl

theorem tiles_listing (code : List UInt8) :
    Tiles 0 code.length ((listing code).map ListingItem.range) := by
  have htiles := tiles_listingFrom 0 code
  rwa [Nat.zero_add] at htiles

/-- The lines that a finished compilation adds to the log of a selected method. -/
theorem records_finished {j : Journal} (hselected : j.selected) (code : List UInt8)
    (dataSize : Nat) :
    (j.finished code dataSize).events.toList.flatMap Event.records =
      j.events.toList.flatMap Event.records ++
        (Event.compiled j.name j.id j.ops j.slowPaths code.length dataSize).records ++
        (listing code).map fun item => ⟨.trace, item.line⟩ := by
  simp [Journal.finished, Journal.log, hselected, Event.records]

/-- Instructions delimit themselves. The bytes that one was decoded from decode to it whatever
follows, and to nothing where they are cut short; so buffers of instructions can be put one behind
the other, and the lines of a dump of finished code cut it into instructions and single bytes that
start none, each byte being in one line alone. A line begins with the offset of what it shows, and
is a `.byte` line exactly if no instruction starts there. -/
theorem decode_delimits :
    (∀ b i n, decode b = some (i, n) → 1 ≤ n ∧ n ≤ b.length ∧
      (∀ s, decode (b.take n ++ s) = some (i, n)) ∧ ∀ k < n, decode (b.take k) = none) ∧
    (∀ x xs, decodeAll x = some xs ↔ Tiles 0 x.length (xs.map entryRange) ∧
      ∀ e ∈ xs, decode (x.drop e.1) = some e.2) ∧
    (∀ x xs y, decodeAll x = some xs →
      decodeAll (x ++ y) = (decodeAll y).map fun ys => xs ++ ys.map (shiftEntry x.length)) ∧
    ∀ (j : Journal) code dataSize, j.selected →
      (j.finished code dataSize).events.toList.flatMap Event.records =
        j.events.toList.flatMap Event.records ++
          (Event.compiled j.name j.id j.ops j.slowPaths code.length dataSize).records ++
          ((listing code).map fun item => ⟨.trace, item.line⟩) ∧
      Tiles 0 code.length ((listing code).map ListingItem.range) ∧
      (∀ p < code.length, ∃! k : Nat, ∃ r : Nat × Nat,
        ((listing code).map ListingItem.range)[k]? = some r ∧ r.1 ≤ p ∧ p < r.1 + r.2) ∧
      (∀ item ∈ listing code, item.StandsIn code ∧ lineOffset? item.line = some item.offset ∧
        (IsByteLine item.line ↔ decode (code.drop item.offset) = none)) ∧
      ∀ xs, decodeAll code = some xs → listing code = xs.map entryItem := by
  refine ⟨?_, fun x xs => decodeAll_iff, fun x xs y h => decodeAll_append h y, ?_⟩
  · intro b i n h
    obtain ⟨used, rest, rfl, rfl, hused, hcut⟩ := decode_eq_some h
    refine ⟨List.length_pos_iff.mpr hused.ne_nil, by simp, ?_, ?_⟩
    · intro s
      rw [List.take_left]
      exact hused s
    · intro k hk
      rw [List.take_append_of_le_length (Nat.le_of_lt hk)]
      apply hcut _ (List.take_prefix k used)
      intro heq
      have hlen := congrArg List.length heq
      rw [List.length_take_of_le (Nat.le_of_lt hk)] at hlen
      omega
  · intro j code dataSize hselected
    have htiles := tiles_listing code
    refine ⟨records_finished hselected code dataSize, htiles, ?_, ?_, ?_⟩
    · intro p hp
      exact htiles.existsUnique ⟨Nat.zero_le p, hp⟩
    · intro item hitem
      have hstands := standsIn_listingFrom [] code item hitem
      exact ⟨hstands, item.lineOffset?_line, item.isByteLine_line.trans hstands.startsNone_iff⟩
    · intro xs hxs
      exact decodeAll_eq_some.mp hxs

/-- An `add` in front of a `ret`, and behind both a byte that starts no instruction. -/
theorem decode_delimits_add_ret :
    decode [0x48, 0x01, 0xD8, 0xC3] = some (.alu .add .qword (.reg .rax) (.rm (.reg .rbx)), 3) ∧
    decode [0x48, 0x01] = none ∧
    decodeAll [0x48, 0x01, 0xD8] = some [(0, .alu .add .qword (.reg .rax) (.rm (.reg .rbx)), 3)] ∧
    decodeAll ([0x48, 0x01, 0xD8] ++ [0xC3]) =
      some [(0, .alu .add .qword (.reg .rax) (.rm (.reg .rbx)), 3), (3, .ret, 1)] ∧
    ((Journal.start "m" none []).finished [0x48, 0x01, 0xD8, 0xC3, 0x06] 0).events.toList.flatMap
        Event.records =
      (Event.compiled "m" none 0 0 5 0).records ++
        (listing [0x48, 0x01, 0xD8, 0xC3, 0x06]).map fun item => ⟨.trace, item.line⟩ := by
  have hadd : decode [0x48, 0x01, 0xD8, 0xC3] =
      some (.alu .add .qword (.reg .rax) (.rm (.reg .rbx)), 3) := by decide
  have hall : decodeAll [0x48, 0x01, 0xD8] =
      some [(0, .alu .add .qword (.reg .rax) (.rm (.reg .rbx)), 3)] := by decide
  refine ⟨hadd, (decode_delimits.1 _ _ _ hadd).2.2.2 2 (by decide), hall, ?_, ?_⟩
  · rw [decode_delimits.2.2.1 _ _ [0xC3] hall]
    decide
  · exact (decode_delimits.2.2.2 (.start "m" none []) _ 0 (by decide)).1

end MachineCode.X64
