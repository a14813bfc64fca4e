import MachineCode.Proofs.Frames.Banging

/-! Setting up a frame. Behind the touches the stack pointer moves down by the size of the frame,
the frame is filled if that is asked for, and then the saved registers go to their slots. What is
below the old stack pointer changes, and nothing above. -/
namespace MachineCode

open X64 Lower Chunk Machine

/-! ### Words of a frame -/

namespace Memory

variable {m : Memory} {b v : Word} {o o' n n' : Nat}

/-- A byte of one part of a frame is outside of another part. -/
theorem outside_of_apart (h : o + n ≤ o' ∨ o' + n' ≤ o) (hn : o + n ≤ 2 ^ 32)
    (hn' : o' + n' ≤ 2 ^ 32) {k : Nat} (hk : k < n) :
    n' ≤ (b + BitVec.ofNat 64 o + BitVec.ofNat 64 k - (b + BitVec.ofNat 64 o')).toNat := by
  have hb := b.isLt
  simp only [BitVec.toNat_sub, BitVec.toNat_add, BitVec.toNat_ofNat]
  omega

/-- A store to one part of a frame leaves what can be read from another. -/
theorem readWord_writeWord_of_apart (h : o + n ≤ o' ∨ o' + n' ≤ o) (hn : o + n ≤ 2 ^ 32)
    (hn' : o' + n' ≤ 2 ^ 32) :
    (m.writeWord (b + BitVec.ofNat 64 o') n' v).readWord (b + BitVec.ofNat 64 o) n =
      m.readWord (b + BitVec.ofNat 64 o) n :=
  readWord_congr fun _ hk => get_writeWord_of_outside (outside_of_apart h hn hn' hk)

end Memory

/-! ### Saved registers -/

namespace Machine

variable {s : Machine} {r r' : Register} {m : Mem} {i : Instr} {next a : Word}

/-- The word that is saved of a register: all of a general register, the low half of a
floating-point register. -/
def savedWord (s : Machine) (r : Register) : Word :=
  match Gpr.ofRegister? r, Xmm.ofRegister? r with
  | some g, _ => s.reg g
  | none, some x => (s.xmmReg x).setWidth 64
  | none, none => 0

/-- The machine after a register has received a saved word. -/
def restored (s : Machine) (r : Register) (v : Word) : Machine :=
  match Gpr.ofRegister? r, Xmm.ofRegister? r with
  | some g, _ => s.setReg g v
  | none, some x => s.setXmm x (v.setWidth 128)
  | none, none => s

@[simp] theorem savedWord_gpr (s : Machine) (g : Gpr) : s.savedWord g.register = s.reg g := by
  rw [savedWord, Gpr.ofRegister?_register]

@[simp] theorem savedWord_xmm (s : Machine) (x : Xmm) :
    s.savedWord x.register = (s.xmmReg x).setWidth 64 := by
  have hnone : Gpr.ofRegister? x.register = none := rfl
  rw [savedWord, Xmm.ofRegister?_register, hnone]

@[simp] theorem restored_gpr (s : Machine) (g : Gpr) (v : Word) :
    s.restored g.register v = s.setReg g v := by
  rw [restored, Gpr.ofRegister?_register]

@[simp] theorem restored_xmm (s : Machine) (x : Xmm) (v : Word) :
    s.restored x.register v = s.setXmm x (v.setWidth 128) := by
  have hnone : Gpr.ofRegister? x.register = none := rfl
  rw [restored, Xmm.ofRegister?_register, hnone]

/-- A saved word is that of its register. -/
theorem Keeps.savedWord {G : Gpr → Prop} {X : Xmm → Prop} {A : Word → Prop} {c : Machine}
    (h : s.Keeps G X A c) (hG : ∀ g : Gpr, g.register = r → ¬ G g)
    (hX : ∀ x : Xmm, x.register = r → ¬ X x) : c.savedWord r = s.savedWord r := by
  unfold Machine.savedWord
  split
  · exact h.gprs _ (hG _ (eq_register_of_gpr ‹_›).symm)
  · rw [h.xmms _ (hX _ (eq_register_of_xmm ‹_›).symm)]
  · rfl

/-- Moving the stack pointer leaves the saved words of all other registers. -/
theorem Keeps.savedWord_of_ne {A : Word → Prop} {c : Machine}
    (h : s.Keeps (· = .rsp) (fun _ => False) A c) (hr : r ≠ Gpr.rsp.register) :
    c.savedWord r = s.savedWord r :=
  h.savedWord (fun g hg hrsp => hr (by rw [← hg, hrsp])) fun _ _ => id

/-- Registers that can be saved are those of the processor. -/
theorem savedInstr_eq_ok {general : Gpr → Mem → Instr} {floating : Xmm → Mem → Instr}
    (h : savedInstr general floating r m = .ok i) :
    (∃ g : Gpr, r = g.register ∧ i = general g m) ∨
    ∃ x : Xmm, r = x.register ∧ i = floating x m := by
  unfold savedInstr at h
  split at h <;> cases h
  · exact .inl ⟨_, eq_register_of_gpr ‹_›, rfl⟩
  · exact .inr ⟨_, eq_register_of_xmm ‹_›, rfl⟩

theorem executes_save (hi : savedInstr (.store true) (.movsStore true) r m = .ok i)
    (ha : s.effectiveAddress m next = a) (hfaults : s.faultsAt a 8 = false) :
    Executes i.decoded next s fun c => c = s.stored a 8 (s.savedWord r) := by
  obtain ⟨g, rfl, rfl⟩ | ⟨x, rfl, rfl⟩ := savedInstr_eq_ok hi
  · rw [savedWord_gpr, ← low_qword (s.reg g)]
    exact executes_store (readsRm_reg g .qword).source ha hfaults
  · rw [savedWord_xmm, ← low_qword ((s.xmmReg x).setWidth 64)]
    exact executes_movsStore ha hfaults

theorem executes_restore (hi : savedInstr (.load true) (.movsLoad true) r m = .ok i)
    (ha : s.effectiveAddress m next = a) (hfaults : s.faultsAt a 8 = false) :
    Executes i.decoded next s fun c => c = s.restored r (s.loaded a 8) := by
  obtain ⟨g, rfl, rfl⟩ | ⟨x, rfl, rfl⟩ := savedInstr_eq_ok hi
  · have hreads : s.ReadsRm next .qword (s.loaded a 8) (.mem m) := readsRm_mem ha hfaults
    rw [restored_gpr, ← merge_qword (s.reg g) (s.loaded a 8)]
    exact executes_mov hreads.source
  · have hreads : s.ReadsLane next true (s.loaded a 8) (.mem m) := readsLane_mem ha hfaults
    rw [restored_xmm]
    exact executes_movsLoad hreads

end Machine

/-! ### Loops -/

/-- An invariant that speaks of the elements that have been gone through. -/
theorem Runs.forM {ι : Type} {S : Site} {C : Context} {J : List ι → Assertion}
    {L : Label → Assertion} {f : ι → Lower Unit} {xs : List ι}
    (hf : ∀ front x back, xs = front ++ x :: back →
      Runs S C (f x) (J front) (fun _ => J (front ++ [x])) L) :
    Runs S C (xs.forM f) (J []) (fun _ => J xs) L := by
  suffices h : ∀ back front, xs = front ++ back →
    Runs S C (back.forM f) (J front) (fun _ => J xs) L from h xs [] rfl
  intro back
  induction back with
  | nil =>
    rintro front rfl
    rw [List.append_nil]
    exact runs_pure () fun _ _ _ => id
  | cons x back ih =>
    intro front hxs
    exact (hf front x back hxs).bind fun _ => ih (front ++ [x]) (by rw [hxs, List.append_cons])

/-! ### The frame on entry -/

/-- The address at an offset in the frame that is allocated below this stack pointer. -/
def Frame.address (f : Frame) (sp : Word) (offset : Nat) : Word :=
  sp - BitVec.ofNat 64 f.size + BitVec.ofNat 64 offset

/-- What a prologue stores to: the words that it touches, the words that it fills and the slots of
saved registers. -/
inductive EntryStore (t : Target) (f : Frame) (sp : Word) : Word → Nat → Prop
  | touch {i : Nat} (h : t.options.useStackBanging = true) (hi : 1 ≤ i)
    (hle : i ≤ t.touchedPages f.size) :
    EntryStore t f sp (sp - BitVec.ofNat 64 (i * t.pageSize)) 8
  | fill {i : Nat} (h : t.options.zapStackOnEntry = true) (hi : 4 * i + 4 ≤ f.size) :
    EntryStore t f sp (f.address sp (4 * i)) 4
  | save {i : Nat} (hi : i < f.saved.registers.length) :
      EntryStore t f sp (f.address sp (f.saved.slotOffset i)) 8

/-- The byte belongs to what a prologue stores to. -/
def EntryByte (t : Target) (f : Frame) (sp a : Word) : Prop :=
  ∃ b n, EntryStore t f sp b n ∧ (a - b).toNat < n

/-- What a prologue stores to can be accessed, and is clear of the image. -/
def Site.CanEnter (S : Site) (t : Target) (f : Frame) (s : Machine) : Prop :=
  ∀ a n, EntryStore t f (s.reg .rsp) a n → s.faultsAt a n = false ∧ S.Clear a n

/-- The frame has been allocated below the stack pointer of `s`. Nothing else has changed but what a
prologue stores to. -/
structure Framed (t : Target) (f : Frame) (s c : Machine) : Prop where
  keeps : s.Keeps (· = .rsp) (fun _ => False) (EntryByte t f (s.reg .rsp)) c
  rsp : c.reg .rsp = s.reg .rsp - BitVec.ofNat 64 f.size

/-- These words of the frame, counted in fours, have been filled. -/
def Filled (f : Frame) (s : Machine) (P : Nat → Prop) (c : Machine) : Prop :=
  ∀ i, 4 * i + 4 ≤ f.size → P i → c.memory.readWord (f.address (s.reg .rsp) (4 * i)) 4 = 0xC1C1C1C1

/-- These registers of `s` have been stored to their slots. -/
def Stowed (f : Frame) (s : Machine) (rs : List (Register × Nat)) (c : Machine) : Prop :=
  ∀ x ∈ rs, c.memory.readWord (f.address (s.reg .rsp) (f.saved.slotOffset x.2)) 8 =
    (s.savedWord x.1).toNat

/-- The word of the frame is not in the save area. -/
def Frame.Unsaved (f : Frame) (i : Nat) : Prop :=
  4 * i + 4 ≤ f.saved.offset ∨ f.saved.offset + f.saved.size ≤ 4 * i

/-- A prologue has set up the frame. -/
structure Entered (t : Target) (f : Frame) (s c : Machine) : Prop extends Framed t f s c where
  stowed : Stowed f s f.saved.registers.zipIdx c
  filled : t.options.zapStackOnEntry = true → Filled f s f.Unsaved c

namespace Frame

variable {f : Frame} {r : Register} {i : Nat}

/-- The slots of saved registers lie in the frame. -/
theorem slotOffset_add_le (hframe : f.fault? = none) (hi : i < f.saved.registers.length) :
    f.saved.slotOffset i + 8 ≤ f.saved.offset + f.saved.size ∧
    f.saved.offset + f.saved.size ≤ f.size := by
  have harea :=
    (fault?_eq_none.mp hframe).2 ("callee-save", f.saved.offset, f.saved.size) (by simp [areas])
  simp only [SaveArea.slotOffset, SaveArea.size, slotSize] at harea ⊢
  omega

theorem lt_of_mem_zipIdx (h : (r, i) ∈ f.saved.registers.zipIdx) : i < f.saved.registers.length :=
  (List.getElem?_eq_some_iff.mp (List.mem_zipIdx_iff_getElem?.mp h)).1

end Frame

section Stores

variable {S : Site} {t : Target} {f : Frame} {s c : Machine} {a v : Word} {n offset : Nat}

theorem Framed.stored (h : Framed t f s c) (ha : EntryStore t f (s.reg .rsp) a n) (v : Word) :
    Framed t f s (c.stored a n v) where
  keeps := h.keeps.trans (keeps_stored (fun _ hb => ⟨a, n, ha, hb⟩) v)
  rsp := h.rsp

/-- A prologue stores below the stack pointer, no deeper than it has to. -/
theorem EntryStore.bounds {sp : Word} {bottom : Nat} (h : EntryStore t f sp a n)
    (hpage : 8 ≤ t.pageSize) (hframe : f.fault? = none)
    (htouched : bottom + t.touchedPages f.size * t.pageSize ≤ sp.toNat)
    (hsize : bottom + f.size ≤ sp.toNat) :
    bottom ≤ a.toNat ∧ a.toNat + n ≤ sp.toNat := by
  have hsp := sp.isLt
  cases h with
  | @touch i hbang hi hle =>
    have hfar : 8 ≤ i * t.pageSize := Nat.le_trans hpage (Nat.le_mul_of_pos_left _ hi)
    have hnear : i * t.pageSize ≤ t.touchedPages f.size * t.pageSize := Nat.mul_le_mul_right _ hle
    simp only [BitVec.toNat_sub, BitVec.toNat_ofNat]
    omega
  | fill hzap hi =>
    simp only [Frame.address, BitVec.toNat_sub, BitVec.toNat_add, BitVec.toNat_ofNat]
    omega
  | save hi =>
    obtain ⟨hslot, harea⟩ := Frame.slotOffset_add_le hframe hi
    simp only [Frame.address, BitVec.toNat_sub, BitVec.toNat_add, BitVec.toNat_ofNat]
    omega

/-- A method can be entered with a stack that lies below it, if that has room above the addresses
that fault. -/
theorem Site.canEnter_of_room (hranges : s.protectedRanges = []) (hpage : 8 ≤ t.pageSize)
    (hframe : f.fault? = none)
    (htouched : nullGuard.toNat + t.touchedPages f.size * t.pageSize ≤ (s.reg .rsp).toNat)
    (hsize : nullGuard.toNat + f.size ≤ (s.reg .rsp).toNat)
    (hbelow : (s.reg .rsp).toNat ≤ S.base.toNat)
    (hhigh : S.base.toNat + S.image.size < 2 ^ 64) : S.CanEnter t f s := by
  intro a n hstore
  obtain ⟨hbottom, htop⟩ := hstore.bounds hpage hframe htouched hsize
  have habove : ¬ a < nullGuard := by
    rw [BitVec.lt_def]
    omega
  exact ⟨by simp [Machine.faultsAt, hranges, habove], clear_of_below (by omega) hhigh⟩

/-- The stores of a prologue leave the image where it is. -/
theorem Site.CanEnter.loads (h : S.CanEnter t f s) (ha : EntryStore t f (s.reg .rsp) a n)
    (hloads : S.Loads c) (v : Word) :
    S.Loads (c.stored a n v) :=
  (h a n ha).2.loads hloads
    (keeps_stored (G := fun _ => False) (X := fun _ => False) (fun _ => id) v)

theorem Framed.faultsAt (h : Framed t f s c) (hcan : S.CanEnter t f s)
    (ha : EntryStore t f (s.reg .rsp) a n) : c.faultsAt a n = false :=
  (h.keeps.faultsAt a n).trans (hcan a n ha).1

/-- Operands of the frame count from where the stack pointer is then. -/
theorem Frame.effectiveAddress {sp : Word} (h : c.reg .rsp = sp - BitVec.ofNat 64 f.size)
    (hoffset : offset < 2 ^ 31) (next : Word) :
    c.effectiveAddress (.based .rsp (Int32.ofNat offset)) next = f.address sp offset := by
  have hdisp : (Int32.ofNat offset).toInt = offset := Int32.toInt_ofNat_of_lt hoffset
  rw [effectiveAddress_stack, fromStack, hdisp, BitVec.ofInt_natCast, h, Frame.address]

end Stores

/-! ### Code of the frame -/

section Code

variable {S : Site} {C : Context} {L : Label → Assertion}

theorem finds_savedInstr (general : Gpr → Mem → Instr) (floating : Xmm → Mem → Instr) (r : Register)
    (m : Mem) :
    Finds C (Lower.ofExcept (savedInstr general floating r m)) fun j =>
      savedInstr general floating r m = .ok j := by
  refine finds_ofExcept (fun _ => id) fun err herr => ?_
  unfold savedInstr at herr
  split at herr <;> cases herr
  rfl

/-- An invariant that speaks of the saved registers that have been gone through. -/
theorem runs_forSaved {general : Gpr → Mem → Instr} {floating : Xmm → Mem → Instr}
    {J : List (Register × Nat) → Assertion}
    (h : ∀ (rs : List (Register × Nat)) (r : Register) (i : Nat) (j : Instr),
      (∀ x ∈ rs, C.frame.saved.registers[x.2]? = some x.1) → C.frame.saved.registers[i]? = some r →
      savedInstr general floating r (.based .rsp (Int32.ofNat (C.frame.saved.slotOffset i))) =
        .ok j → Runs S C (emit j) (J rs) (fun _ => J (rs ++ [(r, i)])) L) :
    Runs S C (forSaved general floating) (J []) (fun _ => J C.frame.saved.registers.zipIdx) L := by
  refine finds_get.runs fun d hd => ?_
  rw [hd.frame]
  refine Runs.forM fun front x back hxs => ?_
  have hmem : ∀ y ∈ front ++ [x], C.frame.saved.registers[y.2]? = some y.1 := fun y hy =>
    List.mem_zipIdx_iff_getElem?.mp (by rw [hxs, List.append_cons]; exact List.mem_append_left _ hy)
  exact (finds_savedInstr _ _ _ _).runs fun j hj =>
    h front x.1 x.2 j (fun y hy => hmem y (by simp [hy])) (hmem x (by simp)) hj

/-- A word of the frame is filled. -/
theorem runs_fillWord (hsize : C.frame.size < 2 ^ 31)
    (hzap : C.target.options.zapStackOnEntry = true) {i : Nat} (hi : 4 * i + 4 ≤ C.frame.size)
    (is : List Nat) : Runs S C (emit (zapInstr (4 * i)))
      (fun s c => S.CanEnter C.target C.frame s ∧ Framed C.target C.frame s c ∧
        Filled C.frame s (· ∈ is) c)
      (fun _ s c => S.CanEnter C.target C.frame s ∧ Framed C.target C.frame s c ∧
        Filled C.frame s (· ∈ is ++ [i]) c) L := by
  refine runs_emit (Instr.encodable_of_some rfl (encodable_based _ _)) fun s c next hloads hc => ?_
  obtain ⟨hcan, hframed, hfilled⟩ := hc
  have hstore : EntryStore C.target C.frame (s.reg .rsp) (C.frame.address (s.reg .rsp) (4 * i)) 4 :=
    .fill hzap hi
  refine (executes_store (readsSource_imm zapWord.toInt .dword)
    (Frame.effectiveAddress hframed.rsp (by omega) next)
    (hframed.faultsAt hcan hstore)).mono fun _ c' hc' => ?_
  obtain rfl :
      c' = c.stored (C.frame.address (s.reg .rsp) (4 * i)) 4 (BitVec.ofInt 64 zapWord.toInt) := hc'
  refine ⟨hcan.loads hstore hloads _, hcan, hframed.stored hstore _, fun j hj hmem => ?_⟩
  by_cases hji : j = i
  · subst hji
    exact Memory.readWord_writeWord _ _ (by decide) _
  · have hold : j ∈ is :=
      (List.mem_append.mp hmem).resolve_right fun h => hji (List.mem_singleton.mp h)
    exact (Memory.readWord_writeWord_of_apart (by omega) (by omega) (by omega)).trans
      (hfilled j hj hold)

/-- A register goes to its slot. -/
theorem runs_save (hframe : C.frame.fault? = none) (hsize : C.frame.size < 2 ^ 31)
    (hrsp : ∀ r ∈ C.frame.saved.registers, r ≠ Gpr.rsp.register) {r : Register} {i : Nat}
    {rs : List (Register × Nat)} (hr : C.frame.saved.registers[i]? = some r)
    (hrs : ∀ x ∈ rs, C.frame.saved.registers[x.2]? = some x.1) {j : Instr}
    (hj : savedInstr (.store true) (.movsStore true) r
      (.based .rsp (Int32.ofNat (C.frame.saved.slotOffset i))) = .ok j)
    (P : Prop) :
    Runs S C (emit j)
      (fun s c => S.CanEnter C.target C.frame s ∧ Framed C.target C.frame s c ∧
        Stowed C.frame s rs c ∧
        (P → Filled C.frame s C.frame.Unsaved c))
      (fun _ s c => S.CanEnter C.target C.frame s ∧ Framed C.target C.frame s c ∧
        Stowed C.frame s (rs ++ [(r, i)]) c ∧
        (P → Filled C.frame s C.frame.Unsaved c)) L := by
  have hencodable : j.Encodable := by
    obtain ⟨g, -, rfl⟩ | ⟨x, -, rfl⟩ :=
      savedInstr_eq_ok hj <;> exact Instr.encodable_of_some rfl (encodable_based _ _)
  obtain ⟨hi, -⟩ := List.getElem?_eq_some_iff.mp hr
  obtain ⟨hslot, harea⟩ := Frame.slotOffset_add_le hframe hi
  refine runs_emit hencodable fun s c next hloads hc => ?_
  obtain ⟨hcan, hframed, hstowed, hfilled⟩ := hc
  have hstore : EntryStore C.target C.frame (s.reg .rsp)
    (C.frame.address (s.reg .rsp) (C.frame.saved.slotOffset i)) 8 := .save hi
  refine (executes_save hj (Frame.effectiveAddress hframed.rsp (by omega) next)
    (hframed.faultsAt hcan hstore)).mono fun _ c' hc' => ?_
  subst hc'
  refine ⟨hcan.loads hstore hloads _, hcan, hframed.stored hstore _, fun x hx => ?_,
    fun hP k hk hunsaved => ?_⟩
  · have hx' : C.frame.saved.registers[x.2]? = some x.1 := by
      obtain hx | hx := List.mem_append.mp hx
      · exact hrs x hx
      · rwa [List.mem_singleton.mp hx]
    by_cases hindex : x.2 = i
    · obtain rfl : x.1 = r := Option.some.inj (hx'.symm.trans (hindex ▸ hr))
      have hsaved := hframed.keeps.savedWord_of_ne (hrsp x.1 (List.mem_of_getElem? hx'))
      rw [hindex, hsaved]
      refine (Memory.readWord_writeWord _ _ (by decide) _).trans
        (Nat.mod_eq_of_lt (s.savedWord x.1).isLt)
    · have hold : x ∈ rs :=
        (List.mem_append.mp hx).resolve_right fun h => hindex (by rw [List.mem_singleton.mp h])
      have hslot' := (Frame.slotOffset_add_le hframe (List.getElem?_eq_some_iff.mp hx').1).1
      refine (Memory.readWord_writeWord_of_apart ?_ (by omega) (by omega)).trans (hstowed x hold)
      simp only [SaveArea.slotOffset, slotSize]
      omega
  · refine (Memory.readWord_writeWord_of_apart ?_ (by omega) (by omega)).trans
      (hfilled hP k hk hunsaved)
    have hstart : C.frame.saved.offset ≤ C.frame.saved.slotOffset i := Nat.le_add_right _ _
    obtain hbefore | hbehind := hunsaved
    · exact .inl (by omega)
    · exact .inr (by omega)

/-- The new frame is filled, and registers are saved there. -/
theorem runs_fillFrame (hframe : C.frame.fault? = none) (hsize : C.frame.size < 2 ^ 31)
    (hrsp : ∀ r ∈ C.frame.saved.registers, r ≠ Gpr.rsp.register) :
    Runs S C (fillFrame C.target.options.zapStackOnEntry C.frame.size)
      (fun s c => S.CanEnter C.target C.frame s ∧ Framed C.target C.frame s c)
        (fun _ => Entered C.target C.frame) L := by
  have haligned : C.frame.size % 8 = 0 := (Frame.fault?_eq_none.mp hframe).1
  have hsave : Runs S C (forSaved (.store true) (.movsStore true))
      (fun s c => S.CanEnter C.target C.frame s ∧ Framed C.target C.frame s c ∧
        (C.target.options.zapStackOnEntry = true → Filled C.frame s C.frame.Unsaved c))
      (fun _ => Entered C.target C.frame) L := by
    let J : List (Register × Nat) → Assertion :=
      fun rs s c => S.CanEnter C.target C.frame s ∧ Framed C.target C.frame s c ∧
      Stowed C.frame s rs c ∧
      (C.target.options.zapStackOnEntry = true → Filled C.frame s C.frame.Unsaved c)
    have hloop : Runs S C (forSaved (.store true) (.movsStore true)) (J [])
        (fun _ => J C.frame.saved.registers.zipIdx) L :=
      runs_forSaved fun rs r i j hrs hr hj => runs_save hframe hsize hrsp hr hrs hj _
    refine hloop.adapt fun s c _ hc => ?_
    obtain ⟨hcan, hframed, hfilled⟩ := hc
    refine ⟨s, ⟨hcan, hframed, nofun, hfilled⟩, fun _ c' hc' => ?_, fun _ _ => id⟩
    obtain ⟨-, hframed', hstowed, hfilled'⟩ := hc'
    exact ⟨hframed', hstowed, hfilled'⟩
  unfold fillFrame
  split
  · rename_i hzap
    let J : List Nat → Assertion := fun is s c =>
      S.CanEnter C.target C.frame s ∧ Framed C.target C.frame s c ∧ Filled C.frame s (· ∈ is) c
    have hloop :
        Runs S C ((List.range ((C.frame.size + 3) / 4)).forM fun i =>
          emit (zapInstr (4 * i))) (J [])
        (fun _ => J (List.range ((C.frame.size + 3) / 4))) L := by
      refine Runs.forM fun front i back his => runs_fillWord hsize hzap ?_ front
      have hi : i < (C.frame.size + 3) / 4 := List.mem_range.mp (by simp [his])
      omega
    refine Runs.bind (hloop.adapt fun s c _ hc =>
      ⟨s, ⟨hc.1, hc.2, fun _ _ => nofun⟩, fun _ c' hc' => ?_, fun _ _ => id⟩) fun _ => hsave
    obtain ⟨hcan, hframed, hfilled⟩ := hc'
    exact ⟨hcan, hframed, fun _ i hi _ => hfilled i hi (List.mem_range.mpr (by omega))⟩
  · rename_i hzap
    exact hsave.adapt fun s c _ hc =>
      ⟨s, ⟨hc.1, hc.2, fun h => absurd h hzap⟩, fun _ _ => id, fun _ _ => id⟩

/-- The touches of a prologue store below the stack pointer. -/
theorem runs_bangStack (hbang : C.target.options.useStackBanging = true)
    (hpage : 0 < C.target.pageSize) :
    Runs S C bangStack (fun s c => c = s ∧ S.CanEnter C.target C.frame s)
      (fun _ s c => S.CanEnter C.target C.frame s ∧
        s.Keeps (fun _ => False) (fun _ => False)
          (EntryByte C.target C.frame (s.reg .rsp)) c) L := by
  refine (lays_bangStack hpage).mono fun _ pre new post final hhosts hnew => ?_
  obtain ⟨disps, rfl, htouches⟩ := hnew
  intro s machine hat
  have hstore :
      ∀ disp ∈ disps, EntryStore C.target C.frame (s.reg .rsp) (s.fromStack disp.toInt) 8 := by
    intro disp hdisp
    obtain ⟨i, ⟨hi, hle⟩, haddress⟩ := htouches.exists_touchAddress hdisp s
    rw [haddress]
    exact .touch hbang hi hle
  have hcan := hat.core.2
  obtain ⟨machine', hwalks, hend, -⟩ := hhosts.walks_touches (hat.mono fun _ hc => hc.1)
    (fun disp hdisp => (hcan _ _ (hstore disp hdisp)).1) fun disp hdisp =>
      (hcan _ _ (hstore disp hdisp)).2
  refine ⟨machine', hwalks,
    .inl (hend.mono fun c hc => ⟨hcan, hc.mono (fun _ => id) (fun _ => id) ?_⟩)⟩
  rintro a ⟨disp, hdisp, ha⟩
  exact ⟨_, 8, hstore disp hdisp, ha⟩

theorem runs_allocateFrame : Runs S C (allocateFrame C.frame.size)
    (fun s c => S.CanEnter C.target C.frame s ∧
      s.Keeps (fun _ => False) (fun _ => False) (EntryByte C.target C.frame (s.reg .rsp)) c)
    (fun _ s c => S.CanEnter C.target C.frame s ∧ Framed C.target C.frame s c) L := by
  unfold allocateFrame
  split
  · split
    · exact runs_of_fails (fails_throw rfl)
    · rename_i imm himm
      refine runs_emit (Instr.encodable_of_none rfl) fun s c next hloads hc => ?_
      obtain ⟨hcan, hkeeps⟩ := hc
      refine (executes_subStack imm c next).mono fun _ c' hc' => ?_
      obtain ⟨flags, rfl⟩ := hc'
      have hkeeps' : s.Keeps (· = .rsp) (fun _ => False) (EntryByte C.target C.frame (s.reg .rsp))
          ({ c with flags := flags }.setReg .rsp (c.reg .rsp - BitVec.ofInt 64 imm.toInt)) :=
        (hkeeps.mono (fun _ => False.elim) (fun _ => id) fun _ => id).trans
          ((keeps_flags flags).trans (keeps_setReg (G := (· = .rsp)) rfl _))
      refine ⟨hloads, hcan, hkeeps', ?_⟩
      rw [reg_setReg_self, toInt_of_int32? himm, BitVec.ofInt_natCast, hkeeps.gprs .rsp id]
  · rename_i hsize
    refine runs_pure () fun s c _ hc =>
      ⟨hc.1, hc.2.mono (fun _ => False.elim) (fun _ => id) fun _ => id, ?_⟩
    rw [hc.2.gprs .rsp id, Nat.eq_zero_of_not_pos hsize]
    exact (BitVec.sub_zero _).symm

/-- The code of a prologue sets up the frame. -/
theorem computes_enterFrame (hpage : 0 < C.target.pageSize) (hframe : C.frame.fault? = none)
    (hsize : C.frame.size < 2 ^ 31) (hrsp : ∀ r ∈ C.frame.saved.registers, r ≠ Gpr.rsp.register) :
    Computes S C enterFrame (S.CanEnter C.target C.frame) fun _ => Entered C.target C.frame := by
  have hpush : Runs S C pushFrame (fun s c => S.CanEnter C.target C.frame s ∧
      s.Keeps (fun _ => False) (fun _ => False) (EntryByte C.target C.frame (s.reg .rsp)) c)
        (fun _ => Entered C.target C.frame) noExit := by
    rw [pushFrame_eq]
    refine finds_get.runs fun d hd => ?_
    rw [hd.frame, hd.target]
    exact runs_allocateFrame.bind fun _ => runs_fillFrame hframe hsize hrsp
  refine finds_get.runs fun d hd => ?_
  rw [hd.target]
  split
  · rename_i hbang
    exact (runs_bangStack hbang hpage).bind fun _ => hpush
  · refine hpush.adapt fun s c _ hc => ⟨s, ⟨hc.2, ?_⟩, fun _ _ => id, fun _ _ => id⟩
    rw [hc.1]
    exact .refl s

end Code

/-! ### The prologue of an installed method -/

namespace Installation

variable {I : Installation} {stop : Nat} {machine : Machine}

/-- A frame that is allocated can be allocated in one instruction. -/
theorem HasPrologue.size_lt (h : I.HasPrologue stop) : I.source.frame.size < 2 ^ 31 := by
  have hlays : ∀ C : Context, Lays I.site C enterFrame fun _ _ _ _ => C.frame.size < 2 ^ 31 := by
    intro C
    have hpush : Lays I.site C pushFrame fun _ _ _ _ => C.frame.size < 2 ^ 31 := by
      rw [pushFrame_eq]
      refine finds_get.lays_bind fun d hd => ?_
      rw [hd.frame]
      refine (Lays.bind (lays_allocateFrame C.frame.size) fun _ =>
        (does_fillFrame Effect.open_anything _ _).lays).mono
        fun _ _ _ _ _ _ h => ?_
      obtain ⟨_, _, _, -, ⟨hsize, -⟩ | ⟨-, imm, himm, -⟩, -⟩ := h
      · omega
      · have := imm.toInt_lt
        omega
    refine finds_get.lays_bind fun d hd => ?_
    split
    · refine (Lays.bind (does_bangStack Effect.open_anything).lays fun _ => hpush).mono
        fun _ _ _ _ _ _ h => ?_
      obtain ⟨_, _, _, -, -, hsize⟩ := h
      exact hsize
    · exact hpush
  obtain ⟨pre, new, post, final, -, hsize, -, -⟩ :=
    h.hosts (K := fun _ _ _ => I.source.frame.size < 2 ^ 31)
    fun C hframe _ => hframe ▸ hlays C
  exact hsize

/-- The prologue sets up the frame. -/
theorem HasPrologue.exists_run (h : I.HasPrologue stop) (hpage : 0 < I.target.pageSize)
    (hrsp : ∀ r ∈ I.source.frame.saved.registers, r ≠ Gpr.rsp.register)
    (hloaded : machine.Loaded I.base I.image) (hrip : machine.rip = I.base)
    (hcan : I.site.CanEnter I.target I.source.frame machine) : ∃ machine',
      machine.RunsTo (I.base + BitVec.ofNat 64 stop) machine' ∧ machine'.Loaded I.base I.image ∧
      Entered I.target I.source.frame machine machine' := by
  obtain ⟨pre, new, post, final, hhosts, hleads, hpre, rfl⟩ := h.hosts
    (K := I.site.Leads (fun s c => c = s ∧ I.site.CanEnter I.target I.source.frame s)
      (Entered I.target I.source.frame) noExit)
    fun C hframe htarget => hframe ▸ htarget ▸
      computes_enterFrame (htarget ▸ hpage) (hframe ▸ I.fault?_frame)
      (hframe ▸ h.size_lt) (hframe ▸ hrsp)
  have hat : I.site.Stands (extent pre)
      (fun c => c = machine.core ∧ I.site.CanEnter I.target I.source.frame machine.core) machine :=
    ⟨hloaded, by simp [hrip, hpre, Site.addressOf, site], rfl, hcan⟩
  obtain ⟨machine', hwalks, hend | ⟨l, p, -, hexit⟩⟩ := hleads machine.core machine hat
  · have hentered := hend.core
    refine ⟨machine', runsTo_of_walks hhosts hwalks hend.rip, hend.loaded,
      ⟨⟨?_, hentered.rsp⟩, hentered.stowed, hentered.filled⟩⟩
    exact ⟨hentered.keeps.gprs, hentered.keeps.xmms, hentered.keeps.memory, hentered.keeps.ranges⟩
  · exact hexit.core.elim

end Installation

end MachineCode
