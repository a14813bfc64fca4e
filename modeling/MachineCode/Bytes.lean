/-! Little-endian words and lower-case hexadecimal text. The byte lists of `leBytes` and the
numbers of `ofLeBytes` determine each other up to the width. -/
namespace MachineCode

/-- A machine word. -/
abbrev Word := BitVec 64

/-- The `k` low bytes of `n`, least significant first. -/
def leBytes : Nat → Nat → List UInt8
  | 0, _ => []
  | k + 1, n => UInt8.ofNat n :: leBytes k (n / 256)

/-- The number whose bytes are `bs`, least significant first. -/
def ofLeBytes : List UInt8 → Nat
  | [] => 0
  | b :: bs => b.toNat + 256 * ofLeBytes bs

@[simp] theorem length_leBytes (k n : Nat) : (leBytes k n).length = k := by
  induction k generalizing n with
  | zero => rfl
  | succ k ih => simp [leBytes, ih]

/-- The `n`-th power of two. -/
def pow2 (n : Nat) : Nat := 1 <<< n

/-- The least multiple of `align` from `n` on; an alignment of 0 counts as 1. -/
def alignUp (n align : Nat) : Nat := n + (Nat.max align 1 - n % Nat.max align 1) % Nat.max align 1

namespace Text

/-- Lower-case hexadecimal digits, without leading zeros. -/
def hexDigits (n : Nat) : String := String.ofList (Nat.toDigits 16 n)

def hex (n : Nat) : String := "0x" ++ hexDigits n

/-- Two hexadecimal digits. -/
def hexByte (b : UInt8) : String :=
  let digits := hexDigits b.toNat
  if b < 16 then "0" ++ digits else digits

/-- The value of a hexadecimal digit. -/
def digit? (c : Char) : Option Nat :=
  if '0' ≤ c ∧ c ≤ '9' then some (c.toNat - '0'.toNat)
  else if 'a' ≤ c ∧ c ≤ 'f' then some (c.toNat - 'a'.toNat + 10)
  else none

/-- The number with these hexadecimal digits. -/
def ofHexDigits? (digits : List Char) : Option Nat :=
  digits.foldlM (fun n c => (digit? c).map (16 * n + ·)) 0

/-- The number with this text. -/
def ofHex? (s : String) : Option Nat :=
  match s.toList with
  | '0' :: 'x' :: digits => ofHexDigits? digits
  | _ => none

/-- The bytes that are written with two digits each. -/
def bytesOfDigits? : (digits : List Char) → (done : Array UInt8) → Option (Array UInt8)
  | [], done => some done
  | [_], _ => none
  | a :: b :: rest, done => do
    let byte := 16 * (← digit? a) + (← digit? b)
    bytesOfDigits? rest (done.push (UInt8.ofNat byte))

def bytesOfHex? (s : String) : Option (Array UInt8) := bytesOfDigits? s.toList #[]

def bytesHex (bytes : Array UInt8) : String := bytes.foldl (fun s b => s ++ hexByte b) ""

/-- Blanks in front up to `width` characters. -/
def padLeft (width : Nat) (s : String) : String :=
  String.ofList (List.replicate (width - s.length) ' ') ++ s

/-- An optional number as it stands in messages. -/
def option (n : Option Nat) : String :=
  match n with
  | none => "None"
  | some n => s!"Some({n})"

end Text

end MachineCode
