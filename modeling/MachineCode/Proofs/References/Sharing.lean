import Mathlib.Data.List.Nodup
import MachineCode.Proofs.Installation.Install
import MachineCode.Proofs.References.Stock

/-! Sharing of entries. Calls on the data section give offsets that stay good: equal constants have
one entry, and so have the slots of one object, and entries of different keys lie apart. -/
namespace MachineCode

open X64 Lower DataSection SideTables

/-! ### Calls -/

/-- A call that asks for an entry of the data section. -/
inductive DataCall where
  | emitAligned (bytes : List UInt8) (align : Nat)
  | constant (bytes : List UInt8) (align : Nat)
  | floatBits (bits : UInt32)
  | doubleBits (bits : UInt64)
  | mask128 (lo hi : UInt64)
  | objectSlot (o : ObjectId)
  deriving DecidableEq, Repr

/-- What entries are shared by. The bytes that are emitted as such are known by the number of their
call. -/
inductive DataKey where
  | constant (k : DataConstant)
  | slot (o : ObjectId)
  | plain (n : Nat)
  deriving DecidableEq, Repr

namespace DataCall

/-- The offset of the entry, and the section with it. -/
def run (s : DataSection) : DataCall → Nat × DataSection
  | emitAligned bytes align => s.emitAligned bytes align
  | constant bytes align => s.constant bytes align
  | floatBits bits => s.floatBits bits
  | doubleBits bits => s.doubleBits bits
  | mask128 lo hi => s.mask128 lo hi
  | objectSlot o => ((s.objectSlot o).1.1, (s.objectSlot o).2)

/-- The bytes of the entry and their alignment. A slot is zero until installation. -/
def content : DataCall → DataConstant
  | emitAligned bytes align | constant bytes align => ⟨bytes, align⟩
  | floatBits bits => ⟨leBytes 4 bits.toNat, 4⟩
  | doubleBits bits => ⟨leBytes 8 bits.toNat, 8⟩
  | mask128 lo hi => ⟨leBytes 8 lo.toNat ++ leBytes 8 hi.toNat, 16⟩
  | objectSlot _ => ⟨List.replicate 8 0, 8⟩

def key (n : Nat) : DataCall → DataKey
  | emitAligned .. => .plain n
  | objectSlot o => .slot o
  | c => .constant c.content

end DataCall

namespace DataKey

/-- There is one entry at most. -/
def IsShared : DataKey → Prop
  | plain _ => False
  | _ => True

end DataKey

/-- The entry with this key. -/
def DataSection.find? (s : DataSection) : DataKey → Option Nat
  | .constant k => s.constants.lookup k
  | .slot o => s.slots.lookup o
  | .plain _ => none

/-- A call that has had its entry appended, under a key that had none. -/
structure DataSection.Appended (s : DataSection) (key : DataKey) (content : DataConstant)
    (r : Nat × DataSection) : Prop where
  missing : s.find? key = none
  offset : r.1 = alignUp s.size content.align
  bytes : r.2.bytes = (s.emitAligned content.bytes content.align).2.bytes
  others : ∀ k ≠ key, r.2.find? k = s.find? k
  found : key.IsShared → r.2.find? key = some r.1

namespace DataCall

variable {s : DataSection} {c c' : DataCall} {k : DataConstant} {o : ObjectId} {n n' offset : Nat}

theorem content_of_constant (h : c.key n = .constant k) : c.content = k := by
  cases c <;> cases h <;> rfl

theorem eq_of_slot (h : c.key n = .slot o) : c = .objectSlot o := by
  cases c <;> cases h
  rfl

/-- Calls of one key are for the same bytes. -/
theorem content_of_key (h : c.key n = c'.key n')
    (hshared : (c.key n).IsShared) : c.content = c'.content := by
  cases hkey : c.key n with
  | constant k => rw [content_of_constant hkey, content_of_constant (h.symm.trans hkey)]
  | slot o => rw [eq_of_slot hkey, eq_of_slot (h.symm.trans hkey)]
  | plain => exact (hkey ▸ hshared).elim

/-- A constant has its entry already, or it is appended. -/
theorem constant_cases (s : DataSection) (k : DataConstant) :
    (∃ offset, s.find? (.constant k) = some offset ∧ s.constant k.bytes k.align = (offset, s)) ∨
      s.Appended (.constant k) k (s.constant k.bytes k.align) := by
  unfold DataSection.constant
  cases hlookup : s.constants.lookup k with
  | some offset => exact .inl ⟨offset, hlookup, rfl⟩
  | none =>
    refine .inr ⟨hlookup, rfl, rfl, fun k' hk' => ?_, fun _ => List.lookup_cons_self⟩
    cases k' with
    | constant k' =>
      have hne : (k' == k) = false := by simpa using hk'
      simp only [find?, List.lookup_cons, hne]
      rfl
    | slot | plain => rfl

theorem slot_cases (s : DataSection) (o : ObjectId) :
    (∃ offset, s.find? (.slot o) = some offset ∧ s.objectSlot o = ((offset, false), s)) ∨
      (s.objectSlot o).1.2 = true ∧
        s.Appended (.slot o) ⟨List.replicate 8 0, 8⟩
          ((s.objectSlot o).1.1, (s.objectSlot o).2) := by
  unfold DataSection.objectSlot
  cases hlookup : s.slots.lookup o with
  | some offset => exact .inl ⟨offset, hlookup, rfl⟩
  | none =>
    refine .inr ⟨rfl, hlookup, rfl, rfl, fun k' hk' => ?_, fun _ => List.lookup_cons_self⟩
    cases k' with
    | slot o' =>
      have hne : (o' == o) = false := by simpa using hk'
      simp only [find?, List.lookup_cons, hne]
      rfl
    | constant | plain => rfl

/-- A call finds its entry, and the section stays as it is, or its entry is appended. -/
theorem run_cases (s : DataSection) (c : DataCall) (n : Nat) :
    (∃ offset, s.find? (c.key n) = some offset ∧ c.run s = (offset, s)) ∨
    s.Appended (c.key n) c.content (c.run s) := by
  cases c with
  | emitAligned bytes align => exact .inr ⟨rfl, rfl, rfl, fun k _ => by cases k <;> rfl, False.elim⟩
  | objectSlot o =>
    obtain ⟨offset, hfind, hrun⟩ | ⟨-, happended⟩ := slot_cases s o
    · exact .inl ⟨offset, hfind, by rw [run, hrun]⟩
    · exact .inr happended
  | constant | floatBits | doubleBits | mask128 => exact constant_cases s _

end DataCall

/-! ### Entries -/

/-- An entry that a call was given: by which call, and where it is. -/
structure DataEntry where
  call : DataCall
  number : Nat
  offset : Nat
  deriving DecidableEq, Repr

namespace DataEntry

variable (e : DataEntry)

def bytes : List UInt8 := e.call.content.bytes

def align : Nat := e.call.content.align

def key : DataKey := e.call.key e.number

/-- The offset behind the entry. -/
def stop : Nat := e.offset + e.bytes.length

/-- One of the entries lies behind the other. -/
def Apart (e e' : DataEntry) : Prop := e.stop ≤ e'.offset ∨ e'.stop ≤ e.offset

end DataEntry

/-- The section with the entries that calls were given. -/
structure DataTrace where
  data : DataSection
  entries : List DataEntry

namespace DataTrace

def empty : DataTrace := ⟨.empty, []⟩

/-- One more call. -/
def step (t : DataTrace) (c : DataCall) : DataTrace :=
  ⟨(c.run t.data).2, t.entries ++ [⟨c, t.entries.length, (c.run t.data).1⟩]⟩

/-- One call after the other. -/
def run (t : DataTrace) (calls : List DataCall) : DataTrace := calls.foldl step t

/-- What a call preserves. -/
structure Consistent (t : DataTrace) : Prop where
  inside : ∀ e ∈ t.entries, e.stop ≤ t.data.size
  aligned : ∀ e ∈ t.entries, max e.align 1 ∣ e.offset
  stands : ∀ e ∈ t.entries, BytesAt t.data.bytes e.offset e.bytes
  apart : ∀ e ∈ t.entries, ∀ e' ∈ t.entries, e.key ≠ e'.key → e.Apart e'
  numbered : t.entries.map DataEntry.number = List.range t.entries.length
  found : ∀ e ∈ t.entries, e.key.IsShared → t.data.find? e.key = some e.offset
  known : ∀ k offset, t.data.find? k = some offset → ∃ e ∈ t.entries, e.key = k ∧ e.offset = offset

variable {t : DataTrace} {c : DataCall} {e e' : DataEntry}

theorem consistent_empty : empty.Consistent :=
  ⟨nofun, nofun, nofun, nofun, rfl, nofun, fun k _ h => by cases k <;> cases h⟩

/-- Entries that are apart from a new one. -/
theorem apart_append {es : List DataEntry} {x : DataEntry}
    (h : ∀ e ∈ es, ∀ e' ∈ es, e.key ≠ e'.key → e.Apart e')
    (hx : ∀ e ∈ es, e.key ≠ x.key → e.Apart x) :
    ∀ e ∈ es ++ [x], ∀ e' ∈ es ++ [x], e.key ≠ e'.key → e.Apart e' := by
  intro e he e' he' hne
  have hmem : ∀ e ∈ es ++ [x], e ∈ es ∨ e = x := fun e he => by simpa using he
  obtain hold | rfl := hmem e he <;> obtain hold' | rfl := hmem e' he'
  · exact h e hold e' hold' hne
  · exact hx e hold hne
  · exact (hx e' hold' hne.symm).symm
  · exact absurd rfl hne

theorem numbered_append {es : List DataEntry} (h : es.map DataEntry.number = List.range es.length)
    (c : DataCall) (offset : Nat) :
    (es ++ [(⟨c, es.length, offset⟩ : DataEntry)]).map DataEntry.number =
      List.range (es ++ [(⟨c, es.length, offset⟩ : DataEntry)]).length := by
  simp [h, List.range_succ]

/-- A call that finds the entry of another one. -/
theorem Consistent.shared (h : t.Consistent) {offset : Nat}
    (hfind : t.data.find? (c.key t.entries.length) = some offset) :
    Consistent ⟨t.data, t.entries ++ [⟨c, t.entries.length, offset⟩]⟩ := by
  obtain ⟨e, he, hkey, rfl⟩ := h.known _ _ hfind
  let x : DataEntry := ⟨c, t.entries.length, e.offset⟩
  have hshared : e.key.IsShared := by
    rw [hkey]
    cases hc : c.key t.entries.length with
    | plain => rw [hc] at hfind; cases hfind
    | constant | slot => trivial
  have hcontent : e.call.content = c.content := DataCall.content_of_key hkey hshared
  have hbytes : x.bytes = e.bytes := congrArg DataConstant.bytes hcontent.symm
  have hstop : x.stop = e.stop := by rw [DataEntry.stop, DataEntry.stop, hbytes]
  refine ⟨?_, ?_, ?_, apart_append h.apart fun e' he' hne => ?_, numbered_append h.numbered c _,
    ?_, fun k o hk => ?_⟩
  · refine List.forall_mem_append.mpr ⟨h.inside, List.forall_mem_singleton.mpr ?_⟩
    exact hstop ▸ h.inside e he
  · refine List.forall_mem_append.mpr ⟨h.aligned, List.forall_mem_singleton.mpr ?_⟩
    have halign : x.align = e.align := congrArg DataConstant.align hcontent.symm
    exact halign ▸ h.aligned e he
  · refine List.forall_mem_append.mpr ⟨h.stands, List.forall_mem_singleton.mpr ?_⟩
    exact hbytes ▸ h.stands e he
  · have hapart := h.apart e' he' e he (hkey ▸ hne)
    exact hapart.imp id fun hle => hstop ▸ hle
  · exact List.forall_mem_append.mpr ⟨h.found, List.forall_mem_singleton.mpr fun _ => hfind⟩
  · obtain ⟨e', he', hk'⟩ := h.known k o hk
    exact ⟨e', List.mem_append_left _ he', hk'⟩

theorem max_dvd_alignUp (n align : Nat) : max align 1 ∣ alignUp n align := by
  by_cases h : align = 0
  · simp [h]
  · rw [Nat.max_eq_left (Nat.pos_of_ne_zero h)]
    exact dvd_alignUp h

/-- A call whose entry is appended. -/
theorem Consistent.appended (h : t.Consistent)
    (ha : t.data.Appended (c.key t.entries.length) c.content (c.run t.data)) :
    (t.step c).Consistent := by
  let x : DataEntry := ⟨c, t.entries.length, (c.run t.data).1⟩
  have hoffset : x.offset = alignUp t.data.size c.content.align := ha.offset
  have hbytes : (c.run t.data).2.bytes = t.data.bytes ++ _ :=
    ha.bytes.trans (bytes_emitAligned _ _ _)
  have hstop : x.stop = (c.run t.data).2.size := by
    rw [DataEntry.stop, hoffset]
    exact (size_emitAligned t.data _ _).symm.trans (congrArg Array.size ha.bytes).symm
  have hle : t.data.size ≤ x.offset := hoffset ▸ le_alignUp _ _
  have hgrows : t.data.size ≤ (c.run t.data).2.size := by
    rw [← hstop]
    exact Nat.le_trans hle (Nat.le_add_right _ _)
  refine ⟨?_, ?_, ?_, apart_append h.apart fun e he _ => .inl (Nat.le_trans (h.inside e he) hle),
    numbered_append h.numbered c _, ?_, fun k o hk => ?_⟩
  · refine List.forall_mem_append.mpr ⟨fun e he => Nat.le_trans (h.inside e he) hgrows, ?_⟩
    exact List.forall_mem_singleton.mpr (Nat.le_of_eq hstop)
  · refine List.forall_mem_append.mpr ⟨h.aligned, List.forall_mem_singleton.mpr ?_⟩
    change max c.content.align 1 ∣ x.offset
    exact hoffset ▸ max_dvd_alignUp _ _
  · refine List.forall_mem_append.mpr ⟨fun e he => ?_, List.forall_mem_singleton.mpr ?_⟩
    · change BytesAt (c.run t.data).2.bytes e.offset e.bytes
      rw [hbytes]
      exact bytesAt_append (h.stands e he) (h.inside e he)
    · change BytesAt (c.run t.data).2.bytes x.offset c.content.bytes
      rw [hoffset, ha.bytes]
      exact bytesAt_emitAligned _ _ _
  · refine List.forall_mem_append.mpr ⟨fun e he hshared => ?_,
      List.forall_mem_singleton.mpr ha.found⟩
    have hfound := h.found e he hshared
    by_cases hkey : e.key = c.key t.entries.length
    · rw [hkey, ha.missing] at hfound
      cases hfound
    · exact (ha.others _ hkey).trans hfound
  · by_cases hkey : k = c.key t.entries.length
    · refine ⟨x, List.mem_append_right _ (List.mem_singleton_self _), hkey.symm, ?_⟩
      have hshared : k.IsShared := by
        cases k with
        | plain => cases hk
        | constant | slot => trivial
      have hk : (c.run t.data).2.find? k = some o := hk
      rw [hkey, ha.found (hkey ▸ hshared)] at hk
      exact Option.some.inj hk
    · obtain ⟨e, he, hk'⟩ := h.known k o ((ha.others k hkey).symm.trans hk)
      exact ⟨e, List.mem_append_left _ he, hk'⟩

theorem Consistent.step (h : t.Consistent) (c : DataCall) : (t.step c).Consistent := by
  obtain ⟨offset, hfind, hrun⟩ | happended := DataCall.run_cases t.data c t.entries.length
  · rw [DataTrace.step, hrun]
    exact h.shared hfind
  · exact h.appended happended

theorem Consistent.run (h : t.Consistent) (calls : List DataCall) : (t.run calls).Consistent := by
  induction calls generalizing t with
  | nil => exact h
  | cons c calls ih => exact ih (h.step c)

/-- Offsets are handed out as 32-bit numbers. In a section of less than 2^32 bytes they are the
offsets of the entries. -/
theorem Consistent.toNat_offset (h : t.Consistent) (hsize : t.data.size < 2 ^ 32)
    (he : e ∈ t.entries) :
    (UInt32.ofNat e.offset).toNat = e.offset := by
  have hle : e.offset ≤ e.stop := Nat.le_add_right _ _
  have hinside := h.inside e he
  exact UInt32.toNat_ofNat_of_lt' (Nat.lt_of_le_of_lt (Nat.le_trans hle hinside) hsize)

theorem run_append (t : DataTrace) (calls later : List DataCall) :
    t.run (calls ++ later) = (t.run calls).run later :=
  List.foldl_append

/-- Every call adds its entry. -/
theorem entries_run (t : DataTrace) (calls : List DataCall) :
    t.entries <+: (t.run calls).entries ∧ (t.run calls).entries.map DataEntry.call =
      t.entries.map DataEntry.call ++ calls := by
  induction calls generalizing t with
  | nil => exact ⟨List.prefix_rfl, (List.append_nil _).symm⟩
  | cons c calls ih =>
    obtain ⟨hentries, hcalls⟩ := ih (t.step c)
    refine ⟨(List.prefix_append _ _).trans hentries, hcalls.trans ?_⟩
    simp [step]

/-- Entries of one key are at one offset. -/
theorem Consistent.offset_eq (h : t.Consistent) (he : e ∈ t.entries) (he' : e' ∈ t.entries)
    (hkey : e.key = e'.key) :
    e.offset = e'.offset := by
  by_cases hshared : e.key.IsShared
  · have hfound := h.found e he hshared
    rw [hkey, h.found e' he' (hkey ▸ hshared)] at hfound
    exact (Option.some.inj hfound).symm
  · have hnumber : ∀ x : DataEntry, ¬ x.key.IsShared → x.key = .plain x.number := by
      rintro ⟨c, n, offset⟩ hx
      cases c <;> first | rfl | exact absurd trivial hx
    have heq : e.number = e'.number := by
      have hplain := hnumber e hshared
      rw [hkey, hnumber e' (hkey ▸ hshared)] at hplain
      exact (DataKey.plain.inj hplain).symm
    have hnodup : (t.entries.map DataEntry.number).Nodup := h.numbered ▸ List.nodup_range
    rw [List.inj_on_of_nodup_map hnodup he he' heq]

/-- A call under the key of an entry is given that one, and appends nothing. -/
theorem Consistent.run_eq (h : t.Consistent) (he : e ∈ t.entries) {n : Nat} (hkey : c.key n = e.key)
    (hshared : e.key.IsShared) : c.run t.data = (e.offset, t.data) := by
  have hfound := h.found e he hshared
  obtain ⟨offset, hfind, hrun⟩ | happended := DataCall.run_cases t.data c n
  · rw [hkey, hfound] at hfind
    cases hfind
    exact hrun
  · rw [← hkey, happended.missing] at hfound
    cases hfound

/-- A slot is new if no call has asked for it. -/
theorem Consistent.fresh_iff (h : t.Consistent) (o : ObjectId) :
    (t.data.objectSlot o).1.2 = true ↔ ∀ e ∈ t.entries, e.call ≠ .objectSlot o := by
  obtain ⟨offset, hfind, hrun⟩ | ⟨hfresh, happended⟩ := DataCall.slot_cases t.data o
  · obtain ⟨e, he, hkey, -⟩ := h.known _ _ hfind
    rw [hrun]
    exact ⟨nofun, fun hnone => absurd (DataCall.eq_of_slot hkey) (hnone e he)⟩
  · refine ⟨fun _ e he hcall => ?_, fun _ => hfresh⟩
    have hkey : e.key = .slot o := by rw [DataEntry.key, hcall]; rfl
    have hfound := h.found e he (hkey ▸ trivial)
    rw [hkey, happended.missing] at hfound
    cases hfound

/-- Filling in the slots of a section leaves its other entries. -/
theorem Consistent.fillSlots (h : t.Consistent) {m : Method} {r : Resolver}
    {linked image : Array UInt8}
    (hslots : ∀ x ∈ m.tables.dataObjects, ∃ e ∈ t.entries, e.key = .slot x.object ∧
      e.offset = x.dataOffset)
    (hfill : m.fillSlots r linked = .ok image) (he : e ∈ t.entries) (hkey : ∀ o, e.key ≠ .slot o)
    {i : Nat} (hlow : e.offset ≤ i) (hhigh : i < e.stop) :
    image[m.dataStart + i]? = linked[m.dataStart + i]? := by
  refine Method.getElem?_fillSlots_of_outside hfill fun x hx => ?_
  obtain ⟨e', he', hkey', hoffset⟩ := hslots x hx
  have hstop : e'.stop = x.dataOffset + 8 := by
    rw [DataEntry.stop, DataEntry.bytes, DataCall.eq_of_slot hkey', hoffset]
    rfl
  obtain hle | hle := h.apart e he e' he' fun heq => hkey x.object (heq.trans hkey')
  · exact .inl (by omega)
  · exact .inr (by omega)

/-- The calls of `t` have been given entries for good, as there are in `now`. -/
structure Keeps (t now : DataTrace) : Prop where
  lasting : t.entries <+: now.entries
  inside : ∀ e ∈ t.entries, e.stop ≤ t.data.size
  aligned : ∀ e ∈ t.entries, max e.align 1 ∣ e.offset
  stands : ∀ e ∈ t.entries, BytesAt now.data.bytes e.offset e.bytes
  same : ∀ e ∈ t.entries, ∀ e' ∈ now.entries, e.key = e'.key → e.offset = e'.offset
  apart : ∀ e ∈ t.entries, ∀ e' ∈ now.entries, e.key ≠ e'.key → e.Apart e'
  shared : ∀ e ∈ t.entries, e.key.IsShared → ∀ (c : DataCall) n, c.key n = e.key →
    c.run t.data = (e.offset, t.data)
  fresh : ∀ o, (t.data.objectSlot o).1.2 = true ↔
    DataCall.objectSlot o ∉ t.entries.map DataEntry.call

/-- Entries are kept, whatever calls follow. -/
theorem Consistent.keeps (h : t.Consistent) (later : List DataCall) : t.Keeps (t.run later) := by
  have hnow := h.run later
  have hsub := (entries_run t later).1
  refine ⟨hsub, h.inside, h.aligned, fun e he => hnow.stands e (hsub.subset he), ?_,
    ?_, ?_, fun o => ?_⟩
  · exact fun e he e' he' => hnow.offset_eq (hsub.subset he) he'
  · exact fun e he => hnow.apart e (hsub.subset he)
  · exact fun e he hshared c n hkey => h.run_eq he hkey hshared
  · rw [h.fresh_iff, List.mem_map]
    exact ⟨fun hnone ⟨e, he, hcall⟩ => hnone e he hcall,
      fun hnone e he hcall => hnone ⟨e, he, hcall⟩⟩

end DataTrace

/-! ### Sections of drafts -/

namespace Draft

variable {d d' : Draft}

/-- The slots that are to be filled in are those of the section. -/
def Listed (d : Draft) : Prop :=
  ∀ x : DataObject, x ∈ d.tables.dataObjects ↔ d.data.slots.lookup x.object = some x.dataOffset

/-- A slot is recorded when it is new. -/
theorem slot_eq_ok {o : ObjectId} (hrun : (Action.slot o).perform d = .ok () d') :
    d'.data = (d.data.objectSlot o).2 ∧
    d'.tables.dataObjects = if (d.data.objectSlot o).1.2 = true then
      d.tables.dataObjects.push ⟨(d.data.objectSlot o).1.1, o⟩ else d.tables.dataObjects := by
  obtain ⟨r, d₁, h₁, hrun⟩ := Step.bind_eq_ok.mp hrun
  obtain ⟨rfl, rfl⟩ := onData_eq_ok.mp h₁
  dsimp only at hrun
  split at hrun
  · rename_i hfresh
    obtain ⟨t, ht, rfl⟩ := record_eq_ok.mp hrun
    cases eq_of_keyed ht
    exact ⟨rfl, (if_pos hfresh).symm⟩
  · rename_i hfresh
    cases hrun
    exact ⟨rfl, (if_neg hfresh).symm⟩

theorem Listed.slot {o : ObjectId} (h : d.Listed)
    (hrun : (Action.slot o).perform d = .ok () d') : d'.Listed := by
  obtain ⟨hdata, hobjects⟩ := slot_eq_ok hrun
  intro x
  rw [hdata, hobjects]
  unfold DataSection.objectSlot
  cases hlookup : d.data.slots.lookup o with
  | some offset => exact h x
  | none =>
    have hcons : ∀ offset, (((o, offset) :: d.data.slots).lookup x.object = some x.dataOffset ↔
        x ∈ d.tables.dataObjects.push ⟨offset, o⟩) := by
      intro offset
      obtain ⟨dataOffset, o'⟩ := x
      rw [Array.mem_push, h ⟨dataOffset, o'⟩, DataObject.mk.injEq, List.lookup_cons]
      by_cases ho : o' = o
      · subst ho
        simp [hlookup, eq_comm]
      · have hne : (o' == o) = false := beq_eq_false_iff_ne.mpr ho
        simp [hne, ho]
    exact (hcons _).symm

theorem Feeds.listed (h : d.Feeds d') (hd : d.Listed) : d'.Listed := by
  induction h with
  | same hdata hobjects => exact fun x => by rw [hdata, hobjects]; exact hd x
  | constant d bytes align =>
    intro x
    have hfind :
        (d.data.constant bytes align).2.find? (.slot x.object) = d.data.find? (.slot x.object) := by
      obtain ⟨offset, -, hrun⟩ | happended := DataCall.constant_cases d.data ⟨bytes, align⟩
      · rw [hrun]
      · exact happended.others (.slot x.object) nofun
    exact (hd x).trans (Eq.congr_left hfind.symm)
  | slot h => exact hd.slot h
  | trans _ _ ih ih' => exact ih' (ih hd)

/-- What has been put into the section is what calls have asked for. -/
theorem Feeds.exists_run (h : d.Feeds d') :
    ∃ calls : List DataCall, (∀ c ∈ calls, (c.key 0).IsShared) ∧
    ∀ t : DataTrace, t.data = d.data → (t.run calls).data = d'.data := by
  induction h with
  | same hdata => exact ⟨[], nofun, fun t ht => ht.trans hdata.symm⟩
  | constant d bytes align =>
    exact ⟨[.constant bytes align], List.forall_mem_singleton.mpr trivial,
      fun t ht => by rw [← ht]; rfl⟩
  | @slot o d d' h =>
    refine ⟨[.objectSlot o], List.forall_mem_singleton.mpr trivial, fun t ht => ?_⟩
    rw [(slot_eq_ok h).1, ← ht]
    rfl
  | trans _ _ ih ih' =>
    obtain ⟨calls, hshared, hrun⟩ := ih
    obtain ⟨calls', hshared', hrun'⟩ := ih'
    refine ⟨calls ++ calls', List.forall_mem_append.mpr ⟨hshared, hshared'⟩, fun t ht => ?_⟩
    rw [DataTrace.run_append]
    exact hrun' _ (hrun t ht)

end Draft

end MachineCode
