import MachineCode.Displacement

/-! The machine code of one method and the labels that refer into it. A label is bound to an
offset or holds the sites that wait for it; binding fills the sites in. -/
namespace MachineCode

/-- How a reference to a label is written. -/
inductive ReferenceKind where
  /-- Eight bits, counted from the end of the field. -/
  | rel8
  /-- Thirty-two bits, counted from the end of the field. -/
  | rel32
  /-- Thirty-two bits, counted from the start of a jump table. -/
  | table (base : Nat)
  deriving DecidableEq, Repr

/-- A field at `offset` that waits for its label. -/
structure ReferenceSite where
  offset : Nat
  kind : ReferenceKind
  deriving DecidableEq, Repr

inductive LabelState where
  | unbound (sites : Array ReferenceSite)
  | bound (position : Nat)
  deriving DecidableEq, Repr

/-- `mark` is the start of the instruction being written, while there is one. -/
structure CodeBuffer where
  code : Array UInt8
  labels : Array LabelState
  mark : Option Nat
  deriving DecidableEq, Repr

/-- A step on the buffer. A step that fails leaves the buffer it has reached. -/
abbrev BufferStep := EStateM Error CodeBuffer

namespace CodeBuffer

/-- Stands in a 32-bit field whose label is not bound yet. -/
def unresolved32 : List UInt8 := leBytes 4 0xDEADBEEF

/-- Stands in an 8-bit field whose label is not bound yet. -/
def unresolved8 : List UInt8 := [0xFE]

/-- The most labels that references and reservations may ask for. -/
def labelLimit : Nat := 0x100000

def empty : CodeBuffer := ⟨#[], #[], none⟩

/-- The next offset to be written. -/
def position (b : CodeBuffer) : Nat := b.code.size

/-- Offset of a bound label. -/
def labelOffset (b : CodeBuffer) (l : Label) : Option Nat :=
  match b.labels[l.index]? with
  | some (.bound p) => some p
  | _ => none

def isBound (b : CodeBuffer) (l : Label) : Bool := (b.labelOffset l).isSome

/-- Sites that wait for a label. -/
def pendingSites (b : CodeBuffer) (l : Label) : Array ReferenceSite :=
  match b.labels[l.index]? with
  | some (.unbound sites) => sites
  | _ => #[]

/-- The first label that a site waits for. -/
def unboundLabel (b : CodeBuffer) : Option Label :=
  (b.labels.findIdx? fun
    | .unbound sites => !sites.isEmpty
    | .bound _ => false).map Label.mk

def append (b : CodeBuffer) (bytes : List UInt8) : CodeBuffer := { b with code := b.code ++ bytes }

/-- The bytes with `new` written over those from `offset` on. -/
def overwrite (code : Array UInt8) (offset : Nat) : List UInt8 → Array UInt8
  | [] => code
  | x :: xs => overwrite (code.setIfInBounds offset x) (offset + 1) xs

/-- Overwrite bytes that are already there. -/
def patch? (b : CodeBuffer) (offset : Nat) (bytes : List UInt8) : Option CodeBuffer :=
  if offset + bytes.length ≤ b.code.size then
    some { b with code := overwrite b.code offset bytes }
  else none

/-- The number that starts at `offset` and has `width` bytes. -/
def read? (b : CodeBuffer) (offset width : Nat) : Option Nat :=
  if offset + width ≤ b.code.size then
    some (ofLeBytes (b.code.extract offset (offset + width)).toList)
  else none

def setMark (b : CodeBuffer) : CodeBuffer := { b with mark := some b.position }

def clearMark (b : CodeBuffer) : CodeBuffer := { b with mark := none }

/-- `offset` lies in the instruction that the mark started. -/
def checkInInstruction (b : CodeBuffer) (offset : Nat) : Except Error Unit :=
  match b.mark with
  | some mark =>
    if mark ≤ offset ∧ offset ≤ b.position then .ok ()
    else .error (.midInstructionRelocation offset (some mark))
  | none => .error (.midInstructionRelocation offset none)

/-- A label that no reference names yet. -/
def newLabel (b : CodeBuffer) : Label × CodeBuffer :=
  (⟨b.labels.size⟩, { b with labels := b.labels.push (.unbound #[]) })

/-- `n` labels that no reference names yet, in the order of their numbers. -/
def newLabels (b : CodeBuffer) (n : Nat) : List Label × CodeBuffer :=
  ((List.range' b.labels.size n).map Label.mk,
    { b with labels := b.labels ++ Array.replicate n (.unbound #[]) })

/-- Make room for `additional` bytes; no buffer holds half of the address space. -/
def ensure (additional : Nat) : Except Error Unit :=
  if additional < 0x8000000000000000 then .ok () else .error .outOfMemory

/-- Make the labels below `count` known, so that numbers given from outside and those of
`newLabel` differ. -/
def reserveLabels (count : Nat) : BufferStep Unit := fun b =>
  if labelLimit < count then .error (.labelLimit count labelLimit) b
  else .ok () { b with
    labels := b.labels ++ Array.replicate (count - b.labels.size) (.unbound #[]) }

/-- Append bytes. -/
def emit (bytes : List UInt8) : BufferStep Unit := fun b => .ok () (b.append bytes)

/-- The displacement field of a site, for a label at `target`. -/
def field (site : ReferenceSite) (target : Nat) : Except Error (List UInt8) :=
  match site.kind with
  | .rel8 =>
    let disp : Int := target - (site.offset + 1)
    match int8? disp with
    | some d => .ok [d.toUInt8]
    | none => .error (.branchOutOfRange site.offset target disp)
  | .rel32 => do
    let d ← displacement32 (target - (site.offset + 4))
    return leBytes 4 d.toUInt32.toNat
  | .table base => do
    let d ← displacement32 (target - base)
    return leBytes 4 d.toUInt32.toNat

/-- The bytes that stand in a site until its label is bound. -/
def placeholder : ReferenceKind → List UInt8
  | .rel8 => unresolved8
  | .rel32 | .table _ => unresolved32

/-- Fill in one site. -/
def resolve (site : ReferenceSite) (target : Nat) : BufferStep Unit := fun b =>
  match field site target with
  | .ok bytes => .ok () { b with code := overwrite b.code site.offset bytes }
  | .error e => .error e b

/-- Bind a label at the current position and fill in the sites that wait for it. The result says
whether the label is newly bound; binding it again at the same position changes nothing. -/
def bind (l : Label) : BufferStep Bool := do
  reserveLabels (l.index + 1)
  let b ← get
  match b.labels[l.index]? with
  | some (.bound p) =>
    if p = b.position then return false
    else throw (.redefineLabel l p b.position)
  | some (.unbound sites) =>
    let target := b.position
    modify fun b => { b with labels := b.labels.setIfInBounds l.index (.bound target) }
    sites.toList.forM (resolve · target)
    return true
  | none => return false

/-- Let the next field wait for a label. -/
def addSite (l : Label) (kind : ReferenceKind) : BufferStep Unit := do
  reserveLabels (l.index + 1)
  modify fun b =>
    let site : ReferenceSite := ⟨b.position, kind⟩
    { b with labels := b.labels.modify l.index fun
        | .unbound sites => .unbound (sites.push site)
        | .bound p => .bound p }

/-- Write a reference to a label: its displacement when the label is bound, else a placeholder. -/
def reference (l : Label) (kind : ReferenceKind) : BufferStep Unit := do
  let b ← get
  match b.labelOffset l with
  | some target =>
    match field ⟨b.position, kind⟩ target with
    | .ok bytes => emit bytes
    | .error e => throw e
  | none =>
    addSite l kind
    emit (placeholder kind)

/-- Give up the code; no site may be left waiting. -/
def finish (b : CodeBuffer) : Except Error (Array UInt8) :=
  match b.unboundLabel with
  | some l => .error (.unboundLabel l)
  | none => .ok b.code

@[simp] theorem toList_append (b : CodeBuffer) (bytes : List UInt8) :
    (b.append bytes).code.toList = b.code.toList ++ bytes := by
  simp [append]

@[simp] theorem position_append (b : CodeBuffer) (bytes : List UInt8) :
    (b.append bytes).position = b.position + bytes.length := by
  simp [append, position, ← Array.length_toList]

@[simp] theorem size_overwrite (code : Array UInt8) (offset : Nat) (bytes : List UInt8) :
    (overwrite code offset bytes).size = code.size := by
  induction bytes generalizing code offset with
  | nil => rfl
  | cons x xs ih => simp [overwrite, ih]

/-- Bytes before and after the overwritten range stay. -/
theorem getElem?_overwrite_of_outside {code : Array UInt8} {offset i : Nat} {bytes : List UInt8}
    (h : i < offset ∨ offset + bytes.length ≤ i) :
    (overwrite code offset bytes)[i]? = code[i]? := by
  induction bytes generalizing code offset with
  | nil => rfl
  | cons x xs ih =>
    simp only [List.length_cons] at h
    rw [overwrite, ih (by omega), Array.getElem?_setIfInBounds_ne (by omega)]

end CodeBuffer

end MachineCode
