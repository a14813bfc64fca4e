import MachineCode.Proofs.Execution.Leads
import MachineCode.Proofs.Effects.Moves

/-! Values of operands at a site, and what stays between two cores. -/
namespace MachineCode

open X64 Lower Machine

/-! ### Kinds -/

namespace Kind

/-- The width at which a register holds a value of the kind. -/
def width (k : Kind) : Width := .ofWide (k.size == 8)

/-- The value that stands in memory as the number `n`, as a register receives it: narrow integers
are extended to 32 bits. -/
def read (k : Kind) (n : Nat) : Word :=
  match k with
  | .byte => ((BitVec.ofNat 8 n).signExtend 32).setWidth 64
  | .short => ((BitVec.ofNat 16 n).signExtend 32).setWidth 64
  | _ => BitVec.ofNat 64 n

theorem width_eq_ofWide {k : Kind} (h : k.isFloating = false) : k.width = .ofWide k.isWord := by
  cases k <;> first | rfl | cases h

/-- An integer that fills its register is read as it is. -/
theorem read_of_full {k : Kind} (hfloat : k.isFloating = false) (hsize : ¬ k.size < 4) :
    (Width.ofWide k.isWord).bytes = k.size ∧ ∀ n, k.read n = BitVec.ofNat 64 n := by
  revert hfloat hsize
  cases k <;> simp [isFloating, size, isWord, Width.ofWide, Width.bytes, read]

end Kind

/-! ### Registers -/

theorem eq_register_of_gpr {r : Register} {g : Gpr}
    (h : Gpr.ofRegister? r = some g) : r = g.register := by
  obtain ⟨file, encoding⟩ := r
  cases file with
  | floating => cases h
  | general =>
    unfold Gpr.ofRegister? at h
    dsimp only at h
    split at h <;> cases h
    simp [Gpr.register, Register.general]

theorem eq_register_of_xmm {r : Register} {x : Xmm}
    (h : Xmm.ofRegister? r = some x) : r = x.register := by
  obtain ⟨file, encoding⟩ := r
  cases file with
  | general => cases h
  | floating =>
    unfold Xmm.ofRegister? at h
    dsimp only at h
    split at h <;> cases h
    simp [Xmm.register, Register.floating]

/-! ### Words -/

namespace Machine

@[simp] theorem setWidth_low (v : Word) (w : Width) :
    (low v w).setWidth w.bits = v.setWidth w.bits := by
  rw [low, BitVec.setWidth_setWidth_of_le _ w.bits_le, BitVec.setWidth_eq]

/-- Two words have the same low part. -/
theorem low_eq_iff {a b : Word} {w : Width} :
    low a w = low b w ↔ a.setWidth w.bits = b.setWidth w.bits :=
  ⟨fun h => by rw [← setWidth_low a, h, setWidth_low], fun h => by rw [low, low, h]⟩

@[simp] theorem low_qword (v : Word) : low v .qword = v := by simp [low, Width.bits, Width.bytes]

/-- A write at operand size 32 or 64 overwrites the register. -/
@[simp] theorem merge_ofWide (old v : Word) (wide : Bool) :
    merge old v (.ofWide wide) = low v (.ofWide wide) := by
  cases wide
  · rfl
  · exact (low_qword v).symm

@[simp] theorem merge_dword (old v : Word) : merge old v .dword = low v .dword := rfl

@[simp] theorem merge_qword (old v : Word) : merge old v .qword = v := rfl

/-- What is written at a width is there at this width. -/
theorem setWidth_merge (old v : Word) (w : Width) :
    (merge old v w).setWidth w.bits = v.setWidth w.bits := by
  cases w with
  | byte | word =>
    refine BitVec.eq_of_getLsbD_eq fun i hi => ?_
    have hlt : i < 64 := Nat.lt_trans hi (by decide)
    have hones : (-1 : Word) = BitVec.allOnes 64 := rfl
    simp only [merge, low, hones, BitVec.getLsbD_setWidth, BitVec.getLsbD_or,
      BitVec.getLsbD_and, BitVec.getLsbD_not, BitVec.getLsbD_allOnes, hi, hlt, decide_true,
      Bool.true_and, Bool.not_true, Bool.and_false, Bool.false_or]
  | dword => exact setWidth_low v .dword
  | qword => rfl

/-- A number that fits is its own low part. -/
theorem low_ofNat {n : Nat} {w : Width} (h : n < 2 ^ w.bits) :
    low (BitVec.ofNat 64 n) w = BitVec.ofNat 64 n := by
  rw [low, BitVec.setWidth_ofNat_of_le w.bits_le, BitVec.setWidth_ofNat_of_le_of_lt w.bits_le h]

theorem low_extended (v : BitVec 32) : low (v.setWidth 64) .dword = v.setWidth 64 :=
  congrArg (BitVec.setWidth 64)
    ((BitVec.setWidth_setWidth_of_le v (by decide)).trans (BitVec.setWidth_eq v))

end Machine

/-! ### Numbers in memory -/

namespace Memory

variable {m m' : Memory} {a : Word} {n : Nat}

theorem readWord_congr
    (h : ∀ k < n, m'.get (a + BitVec.ofNat 64 k) = m.get (a + BitVec.ofNat 64 k)) :
    m'.readWord a n = m.readWord a n := by
  rw [readWord, readWord, read, read]
  exact congrArg ofLeBytes (List.map_congr_left fun k hk => h k (List.mem_range.mp hk))

/-- The distance of a byte from the start. -/
theorem toNat_offset {k : Nat} (hk : k < 2 ^ 64) : (a + BitVec.ofNat 64 k - a).toNat = k := by
  rw [BitVec.add_comm, BitVec.add_sub_cancel, BitVec.toNat_ofNat, Nat.mod_eq_of_lt hk]

/-- A number that has been written is read. -/
theorem readWord_writeWord (m : Memory) (a : Word) (hn : n ≤ 2 ^ 64) (v : Word) :
    (m.writeWord a n v).readWord a n = v.toNat % 256 ^ n := by
  have hread : (m.writeWord a n v).read a n = leBytes n v.toNat := by
    refine List.ext_getElem (by simp) fun k hk hlen => ?_
    rw [length_read] at hk
    have hget : (m.writeWord a n v).get (a + BitVec.ofNat 64 k) = (leBytes n v.toNat)[k] := by
      rw [writeWord, get_write, toNat_offset (Nat.lt_of_lt_of_le hk hn)]
      simp [hk]
    simp [read, hget]
  rw [readWord, hread, ofLeBytes_leBytes]

end Memory

namespace Site

variable {S : Site} {c : Machine}

/-- What stands in the image is read from memory. -/
theorem readWord_image (h : S.Loads c) {p : Nat} {bytes : List UInt8}
    (hat : BytesAt S.image p bytes) :
    c.memory.readWord (S.addressOf p) bytes.length = ofLeBytes bytes := by
  obtain ⟨rest, hrest⟩ := h.read hat (Nat.le_refl _)
  have hlen := congrArg List.length hrest
  rw [Memory.length_read, List.length_append] at hlen
  have hnil : rest = [] := List.length_eq_zero_iff.mp (by omega)
  rw [hnil, List.append_nil] at hrest
  rw [Memory.readWord, addressOf, hrest]

end Site

/-! ### What stays -/

/-- Between the two cores nothing has changed but these registers, these bytes of memory and the
flags. -/
structure Machine.Keeps (G : Gpr → Prop) (X : Xmm → Prop) (A : Word → Prop)
    (s c : Machine) : Prop where
  gprs : ∀ g, ¬ G g → c.reg g = s.reg g
  xmms : ∀ x, ¬ X x → c.xmmReg x = s.xmmReg x
  memory : ∀ a, ¬ A a → c.memory.get a = s.memory.get a
  ranges : c.protectedRanges = s.protectedRanges

namespace Machine.Keeps

variable {G G' : Gpr → Prop} {X X' : Xmm → Prop} {A A' : Word → Prop} {s c c' : Machine}

theorem refl (s : Machine) : s.Keeps G X A s :=
  ⟨fun _ _ => rfl, fun _ _ => rfl, fun _ _ => rfl, rfl⟩

theorem trans (h : s.Keeps G X A c) (h' : c.Keeps G X A c') : s.Keeps G X A c' where
  gprs g hg := (h'.gprs g hg).trans (h.gprs g hg)
  xmms x hx := (h'.xmms x hx).trans (h.xmms x hx)
  memory a ha := (h'.memory a ha).trans (h.memory a ha)
  ranges := h'.ranges.trans h.ranges

theorem mono (h : s.Keeps G X A c) (hG : ∀ g, G g → G' g) (hX : ∀ x, X x → X' x)
    (hA : ∀ a, A a → A' a) :
    s.Keeps G' X' A' c where
  gprs g hg := h.gprs g fun h => hg (hG g h)
  xmms x hx := h.xmms x fun h => hx (hX x h)
  memory a ha := h.memory a fun h => ha (hA a h)
  ranges := h.ranges

theorem faultsAt (h : s.Keeps G X A c) (a : Word) (n : Nat) : c.faultsAt a n = s.faultsAt a n := by
  rw [Machine.faultsAt, Machine.faultsAt, h.ranges]

/-- An address stays if its registers do. -/
theorem place (h : s.Keeps G X A c) (S : Site) {l : Location}
    (hl : ∀ g, l.mem.uses g = true → ¬ G g) :
    S.place c l = S.place s l := by
  unfold Site.place
  split
  · exact effectiveAddress_congr fun g hg => h.gprs g (hl g hg)
  · rfl

end Machine.Keeps

section Keeps

variable {G : Gpr → Prop} {X : Xmm → Prop} {A : Word → Prop} {s : Machine}

theorem keeps_flags (f : Flags) : s.Keeps G X A { s with flags := f } :=
  ⟨fun _ _ => rfl, fun _ _ => rfl, fun _ _ => rfl, rfl⟩

theorem keeps_setReg {g : Gpr} (hg : G g) (v : Word) : s.Keeps G X A (s.setReg g v) :=
  ⟨fun _ hg' => reg_setReg_of_ne fun h => hg' (h ▸ hg), fun _ _ => rfl, fun _ _ => rfl, rfl⟩

theorem keeps_setXmm {x : Xmm} (hx : X x) (v : BitVec 128) : s.Keeps G X A (s.setXmm x v) :=
  ⟨fun _ _ => rfl, fun _ hx' => xmmReg_setXmm_of_ne fun h => hx' (h ▸ hx), fun _ _ => rfl, rfl⟩

theorem keeps_stored {a : Word} {n : Nat} (hA : ∀ b, (b - a).toNat < n → A b) (v : Word) :
    s.Keeps G X A (s.stored a n v) where
  gprs _ _ := rfl
  xmms _ _ := rfl
  memory b hb := get_writeWord_of_outside (Nat.le_of_not_lt fun h => hb (hA b h))
  ranges := rfl

end Keeps

/-! ### Operands -/

/-- A register operand is a register of the processor. -/
def Operand.Exists (o : Operand) : Prop :=
  o.isRegister = true → (∃ g, gpr? o = some g) ∨ ∃ x, xmm? o = some x

namespace Site

variable (S : Site) (frame : Frame)

/-- What stands at the place of an operand. -/
def content? (c : Machine) (o : Operand) : Option Word :=
  (place? frame o).map fun l => o.kind.read (c.memory.readWord (S.place c l) o.kind.size)

/-- The value of an operand. Of a register, what is above the width of the kind does not count. -/
def value? (c : Machine) : Operand → Option Word
  | .reg r _ =>
    ((Gpr.ofRegister? r).map c.reg).or ((Xmm.ofRegister? r).map fun x => (c.xmmReg x).setWidth 64)
  | .const k =>
    match k.object? with
    | some o => S.resolver.object o
    | none => some k.bits.toBitVec
  | .stack slot kind => S.content? frame c (.stack slot kind)
  | .addr a => S.content? frame c (.addr a)

/-- The operand as a register receives it: another register as a whole, and else what belongs to the
kind. -/
def word? (c : Machine) (o : Operand) : Option Word :=
  (S.value? frame c o).map fun v => if o.isRegister then v else low v o.kind.width

/-- The place of an operand in memory can be accessed. -/
def Accessible (c : Machine) (o : Operand) : Prop :=
  ∀ l, place? frame o = some l → c.faultsAt (S.place c l) o.kind.size = false

/-- The installed image can be read. -/
def Readable (c : Machine) : Prop :=
  ∀ p n, p + n ≤ S.image.size → c.faultsAt (S.addressOf p) n = false

/-- The bytes from `a` on are outside of the image. -/
def Clear (a : Word) (n : Nat) : Prop := ∀ p < S.image.size, n ≤ (S.addressOf p - a).toNat

/-- The operand holds the value, in a core that comes after `s`, where its address is computed. -/
structure Holds (s : Machine) (o : Operand) (v : Word) (c : Machine) : Prop where
  gpr : ∀ g, gpr? o = some g → low (c.reg g) o.kind.width = low v o.kind.width
  xmm : ∀ x, xmm? o = some x → low ((c.xmmReg x).setWidth 64) o.kind.width = low v o.kind.width
  memory : ∀ l, place? frame o = some l →
    c.memory.readWord (S.place s l) o.kind.size = v.toNat % 256 ^ o.kind.size

variable {S frame} {s c : Machine} {G : Gpr → Prop} {X : Xmm → Prop} {A : Word → Prop} {o : Operand}

theorem value?_gpr {g : Gpr} (h : gpr? o = some g) : S.value? frame c o = some (c.reg g) := by
  cases o with
  | reg r kind =>
    have h : Gpr.ofRegister? r = some g := h
    rw [value?, h]
    rfl
  | stack | const | addr => cases h

/-- Values are the core's. -/
@[simp] theorem value?_core (machine : Machine) (o : Operand) :
    S.value? frame machine.core o = S.value? frame machine o := by
  cases o <;> rfl

/-- No register belongs to both files. -/
theorem gpr?_of_xmm? {x : Xmm} (h : xmm? o = some x) : gpr? o = none := by
  cases o with
  | reg r kind =>
    obtain ⟨file, encoding⟩ := r
    cases file with
    | general => cases h
    | floating => rfl
  | stack | const | addr => rfl

theorem value?_xmm {x : Xmm} (h : xmm? o = some x) :
    S.value? frame c o = some ((c.xmmReg x).setWidth 64) := by
  have hnone := gpr?_of_xmm? h
  cases o with
  | reg r kind =>
    have h : Xmm.ofRegister? r = some x := h
    have hnone : Gpr.ofRegister? r = none := hnone
    rw [value?, h, hnone]
    rfl
  | stack | const | addr => cases h

theorem value?_place {l : Location} (h : place? frame o = some l) :
    S.value? frame c o = some (o.kind.read (c.memory.readWord (S.place c l) o.kind.size)) := by
  cases o with
  | reg | const => cases h
  | stack | addr => rw [value?, content?, h, Option.map_some]

theorem isRegister_of_gpr? {g : Gpr} (h : gpr? o = some g) : o.isRegister = true := by
  cases o with
  | reg r kind => rfl
  | stack | const | addr => cases h

theorem word?_gpr {g : Gpr} (h : gpr? o = some g) : S.word? frame c o = some (c.reg g) := by
  rw [word?, value?_gpr h, Option.map_some, isRegister_of_gpr? h, if_pos rfl]

theorem word?_of_value? {v : Word} (hregister : o.isRegister = false)
    (h : S.value? frame c o = some v) :
    S.word? frame c o = some (low v o.kind.width) := by
  rw [word?, h, Option.map_some, hregister, if_neg Bool.false_ne_true]

@[simp] theorem word?_core (machine : Machine) (o : Operand) :
    S.word? frame machine.core o = S.word? frame machine o := by
  rw [word?, word?, value?_core]

/-- An operand without a place in memory can be accessed. -/
theorem accessible_of_none (h : place? frame o = none) : S.Accessible frame c o := by
  intro l hl
  rw [h] at hl
  cases hl

/-- Without protected ranges the image can be read if it lies above the addresses that fault
anyway. -/
theorem readable_of_unprotected (hranges : c.protectedRanges = [])
    (hlow : Machine.nullGuard.toNat ≤ S.base.toNat)
    (hhigh : S.base.toNat + S.image.size < 2 ^ 64) : S.Readable c := by
  intro p n hp
  have haddress : (S.addressOf p).toNat = S.base.toNat + p := by
    rw [addressOf, BitVec.toNat_add, BitVec.toNat_ofNat, Nat.add_mod_mod,
      Nat.mod_eq_of_lt (by omega)]
  have habove : ¬ S.addressOf p < Machine.nullGuard := by
    rw [BitVec.lt_def]
    omega
  simp [Machine.faultsAt, hranges, habove]

/-- Bytes below the image are outside of it. -/
theorem clear_of_below {a : Word} {n : Nat} (hlow : a.toNat + n ≤ S.base.toNat)
    (hhigh : S.base.toNat + S.image.size < 2 ^ 64) : S.Clear a n := by
  intro p hp
  rw [addressOf, BitVec.toNat_sub, BitVec.toNat_add, BitVec.toNat_ofNat]
  omega

theorem Readable.keeps (h : S.Readable s) (hk : s.Keeps G X A c) : S.Readable c :=
  fun p n hp => (hk.faultsAt _ n).trans (h p n hp)

theorem Readable.data (h : S.Readable c) {offset : Nat} {bytes : List UInt8}
    (hat : S.HasData offset bytes) (hne : bytes ≠ []) :
    c.faultsAt (S.dataAddress offset) bytes.length = false := by
  refine h _ _ ?_
  have hlen := List.length_pos_iff.mpr hne
  have := hat (bytes.length - 1) (by omega)
  rw [List.getElem?_eq_getElem (by omega)] at this
  have := (Array.getElem?_eq_some_iff.mp this).1
  omega

/-- Where no memory has changed, the image is still there. -/
theorem loads_of_keeps (hloads : S.Loads s) (hk : s.Keeps G X (fun _ => False) c) : S.Loads c :=
  hloads.congr fun a => hk.memory a id

/-- A store that is clear of the image leaves it in memory. -/
theorem Clear.loads {a : Word} {n : Nat} (h : S.Clear a n) (hloads : S.Loads s)
    (hk : s.Keeps G X (fun b => (b - a).toNat < n) c) : S.Loads c := by
  intro p b hb
  have hp : p < S.image.size := (Array.getElem?_eq_some_iff.mp hb).1
  exact (hk.memory _ (Nat.not_lt.mpr (h p hp))).trans (hloads p b hb)

/-- The operand has received the value. Nothing else has changed but the scratch register, and that
only on the way to memory. -/
structure Delivers (S : Site) (frame : Frame) (dst : Operand) (v : Word)
    (s c : Machine) : Prop where
  holds : S.Holds frame s dst v c
  keeps : s.Keeps (fun g => gpr? dst = some g ∨ dst.isRegister = false ∧ g = scratch)
    (fun x => xmm? dst = some x)
    (fun a => ∃ l, place? frame dst = some l ∧ (a - S.place s l).toNat < dst.kind.size) c

/-- The value of the source has been delivered, with the flags as they were if they have to stay. -/
def Moved (S : Site) (frame : Frame) (src dst : Operand)
    (keepFlags : Bool) : Assertion := fun s c =>
  ∃ v, S.value? frame s src = some v ∧ S.Delivers frame dst v s c ∧
    (keepFlags = true → c.flags = s.flags)

section Delivers

variable {dst : Operand} {v v' : Word} {l : Location}

theorem place?_of_gpr? {g : Gpr} (h : gpr? o = some g) : place? frame o = none := by
  cases o with
  | reg r kind => rfl
  | stack | const | addr => cases h

theorem place?_of_xmm? {x : Xmm} (h : xmm? o = some x) : place? frame o = none := by
  cases o with
  | reg r kind => rfl
  | stack | const | addr => cases h

theorem isRegister_of_place? (h : place? frame o = some l) : o.isRegister = false := by
  cases o with
  | reg | const => cases h
  | stack | addr => rfl

theorem gpr?_of_place? (h : place? frame o = some l) : gpr? o = none := by
  cases o with
  | reg | const => cases h
  | stack | addr => rfl

theorem xmm?_of_place? (h : place? frame o = some l) : xmm? o = none := by
  cases o with
  | reg | const => cases h
  | stack | addr => rfl

theorem delivers_gpr {g : Gpr} (hg : gpr? dst = some g)
    (hv : low v' dst.kind.width = low v dst.kind.width) (f : Flags) :
    S.Delivers frame dst v s ({ s with flags := f }.setReg g v') where
  holds := by
    refine ⟨fun g' hg' => ?_, fun x hx => ?_, fun l hl => ?_⟩
    · cases hg.symm.trans hg'
      rw [reg_setReg_self, hv]
    · rw [gpr?_of_xmm? hx] at hg
      cases hg
    · rw [place?_of_gpr? hg] at hl
      cases hl
  keeps := (keeps_flags f).trans (keeps_setReg (.inl hg) v')

theorem delivers_setReg {g : Gpr} (hg : gpr? dst = some g)
    (hv : low v' dst.kind.width = low v dst.kind.width) :
    S.Delivers frame dst v s (s.setReg g v') := delivers_gpr hg hv s.flags

theorem delivers_setXmm {x : Xmm} {V : BitVec 128} (hx : xmm? dst = some x)
    (hv : low (V.setWidth 64) dst.kind.width = low v dst.kind.width) :
    S.Delivers frame dst v s (s.setXmm x V) where
  holds := by
    refine ⟨fun g hg => ?_, fun x' hx' => ?_, fun l hl => ?_⟩
    · rw [gpr?_of_xmm? hx] at hg
      cases hg
    · cases hx.symm.trans hx'
      rw [xmmReg_setXmm_self, hv]
    · rw [place?_of_xmm? hx] at hl
      cases hl
  keeps := keeps_setXmm hx V

/-- A register has received its own value. -/
theorem delivers_self {r : Register} {kind : Kind} (h : (Operand.reg r kind).Exists) :
    ∃ v, S.value? frame s (.reg r kind) = some v ∧ S.Delivers frame (.reg r kind) v s s := by
  obtain ⟨g, hg⟩ | ⟨x, hx⟩ := h rfl
  · have hset : S.Delivers frame (.reg r kind) (s.reg g) s (s.setReg g (s.reg g)) :=
      delivers_setReg hg rfl
    rw [setReg_self] at hset
    exact ⟨_, value?_gpr hg, hset⟩
  · have hset :
        S.Delivers frame (.reg r kind) ((s.xmmReg x).setWidth 64) s (s.setXmm x (s.xmmReg x)) :=
      delivers_setXmm hx rfl
    rw [setXmm_self] at hset
    exact ⟨_, value?_xmm hx, hset⟩

/-- A store, with the scratch register overwritten before. -/
theorem delivers_stored (hl : place? frame dst = some l)
    (hv : v'.toNat % 256 ^ dst.kind.size = v.toNat % 256 ^ dst.kind.size)
    (hc : s.Keeps (· = scratch) (fun _ => False) (fun _ => False) c) :
    S.Delivers frame dst v s (c.stored (S.place s l) dst.kind.size v') where
  holds := by
    refine ⟨fun g hg => ?_, fun x hx => ?_, fun l' hl' => ?_⟩
    · rw [gpr?_of_place? hl] at hg
      cases hg
    · rw [xmm?_of_place? hl] at hx
      cases hx
    · cases hl.symm.trans hl'
      have hsize : dst.kind.size ≤ 2 ^ 64 := by cases dst.kind <;> decide
      exact (Memory.readWord_writeWord _ _ hsize v').trans hv
  keeps := by
    refine (hc.mono (fun g hg => .inr ⟨isRegister_of_place? hl, hg⟩) (fun _ => False.elim)
      (fun _ => False.elim)).trans (keeps_stored (fun b hb => ⟨l, hl, hb⟩) v')

end Delivers

end Site

/-- The register is the operand, or its address is computed from it. -/
def Operand.Uses (frame : Frame) (o : Operand) (g : Gpr) : Prop :=
  gpr? o = some g ∨ ∃ l, place? frame o = some l ∧ l.mem.uses g = true

/-- The address of the operand is computed from the register. -/
def Operand.AddressedBy (frame : Frame) (o : Operand) (g : Gpr) : Prop :=
  ∃ l, place? frame o = some l ∧ l.mem.uses g = true

section

variable {S : Site} {frame : Frame} {s c : Machine} {G : Gpr → Prop}
  {X : Xmm → Prop} {A : Word → Prop}
  {o : Operand}

/-- A place is at the same address as long as its registers stay. -/
theorem Machine.Keeps.place_operand (h : s.Keeps G X A c) (hG : ∀ g, o.Uses frame g → ¬ G g)
    {l : Location} (hl : place? frame o = some l) : S.place c l = S.place s l :=
  h.place S fun g hg => hG g (.inr ⟨l, hl, hg⟩)

/-- The place can be accessed as long as the registers of its address stay. -/
theorem Site.Accessible.keeps_place (h : S.Accessible frame s o) (hk : s.Keeps G X A c)
    (hG : ∀ g, o.AddressedBy frame g → ¬ G g) : S.Accessible frame c o := by
  intro l hl
  rw [hk.place S fun g hg => hG g ⟨l, hl, hg⟩, hk.faultsAt]
  exact h l hl

theorem Site.Accessible.keeps (h : S.Accessible frame s o) (hk : s.Keeps G X A c)
    (hG : ∀ g, o.Uses frame g → ¬ G g) : S.Accessible frame c o :=
  h.keeps_place hk fun g hg => hG g (.inr hg)

/-- The value of an operand stays if nothing changes that it is read from. -/
theorem Site.value?_keeps (hk : s.Keeps G X A c) (hG : ∀ g, o.Uses frame g → ¬ G g)
    (hX : ∀ x, xmm? o = some x → ¬ X x) (hA : ∀ l, place? frame o = some l →
      ∀ k < o.kind.size, ¬ A (S.place s l + BitVec.ofNat 64 k)) :
    S.value? frame c o = S.value? frame s o := by
  cases hg : gpr? o with
  | some g => rw [value?_gpr hg, value?_gpr hg, hk.gprs g (hG g (.inl hg))]
  | none =>
    cases hx : xmm? o with
    | some x => rw [value?_xmm hx, value?_xmm hx, hk.xmms x (hX x hx)]
    | none =>
      cases hl : place? frame o with
      | some l =>
        rw [value?_place hl, value?_place hl, hk.place_operand hG hl]
        rw [Memory.readWord_congr fun k hlt => hk.memory _ (hA l hl k hlt)]
      | none =>
        -- A constant, or an operand without a value.
        cases o with
        | reg r kind =>
          have hg : Gpr.ofRegister? r = none := hg
          have hx : Xmm.ofRegister? r = none := hx
          rw [value?, value?, hg, hx]
          rfl
        | const k => rfl
        | stack | addr =>
          rw [value?, value?, content?, content?, hl, Option.map_none, Option.map_none]

end

end MachineCode
