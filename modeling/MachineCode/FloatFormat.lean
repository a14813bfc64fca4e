import MachineCode.Bytes

/-! Binary floating-point formats: what an encoding stands for, rounding to the nearest value with
ties to even, and the arithmetic that follows from the two. -/
namespace MachineCode

/-- Numbers of stored fraction bits and of exponent bits. -/
structure FloatFormat where
  fraction : Nat
  exponent : Nat
  deriving DecidableEq, Repr

/-- A finite value is `±magnitude * 2 ^ exp`. -/
inductive FloatValue where
  | nan
  | infinite (neg : Bool)
  | finite (neg : Bool) (magnitude : Nat) (exp : Int)
  deriving DecidableEq, Repr

/-- The outcome of a compare. -/
inductive FloatOrder where
  | less | equal | greater | unordered
  deriving DecidableEq, Repr

namespace FloatValue

/-- The magnitude with its sign. -/
def signed (neg : Bool) (magnitude : Nat) : Int := if neg then -(magnitude : Int) else magnitude

/-- `a * 2 ^ d - b * 2 ^ e` up to a positive factor. -/
def compareScaled (a : Int) (d : Int) (b : Int) (e : Int) : FloatOrder :=
  let low := min d e
  let x := a * pow2 (d - low).toNat
  let y := b * pow2 (e - low).toNat
  if x < y then .less else if x = y then .equal else .greater

def compare : FloatValue → FloatValue → FloatOrder
  | nan, _ | _, nan => .unordered
  | infinite m, infinite n => if m = n then .equal else if m then .less else .greater
  | infinite m, finite .. => if m then .less else .greater
  | finite .., infinite n => if n then .greater else .less
  | finite m a d, finite n b e => compareScaled (signed m a) d (signed n b) e

/-- Truncation toward zero, of finite values. -/
def truncate? : FloatValue → Option Int
  | finite neg m e =>
    some (signed neg (if 0 ≤ e then m * pow2 e.toNat else m / pow2 (-e).toNat))
  | _ => none

end FloatValue

namespace FloatFormat

def single : FloatFormat := ⟨23, 8⟩

def double : FloatFormat := ⟨52, 11⟩

def ofDouble (isDouble : Bool) : FloatFormat := if isDouble then double else single

def width (f : FloatFormat) : Nat := 1 + f.exponent + f.fraction

def bias (f : FloatFormat) : Int := pow2 (f.exponent - 1) - 1

/-- The exponent of the last place of the smallest values. -/
def leastExponent (f : FloatFormat) : Int := 1 - f.bias - f.fraction

/-- The encoding of infinity, without the sign. -/
def infinityBits (f : FloatFormat) : Nat := (pow2 f.exponent - 1) * pow2 f.fraction

def signBit (f : FloatFormat) (neg : Bool) : Nat :=
  if neg then pow2 (f.exponent + f.fraction) else 0

/-- The quiet NaN that invalid operations deliver. -/
def indefinite (f : FloatFormat) : Nat :=
  f.signBit true + f.infinityBits + pow2 (f.fraction - 1)

def isNegative (f : FloatFormat) (bits : Nat) : Bool := bits.testBit (f.exponent + f.fraction)

/-- What an encoding stands for. -/
def decode (f : FloatFormat) (bits : Nat) : FloatValue :=
  let neg := f.isNegative bits
  let exponent := bits / pow2 f.fraction % pow2 f.exponent
  let fraction := bits % pow2 f.fraction
  if exponent = pow2 f.exponent - 1 then
    if fraction = 0 then .infinite neg else .nan
  else if exponent = 0 then .finite neg fraction f.leastExponent
  else .finite neg (pow2 f.fraction + fraction) (exponent - f.bias - f.fraction)

/-- The encoding of the value nearest to `num / den * 2 ^ exp`; the even one of two nearest. -/
def roundRatio (f : FloatFormat) (neg : Bool) (num den : Nat) (exp : Int) : Nat :=
  let sign := f.signBit neg
  if num = 0 then sign
  else
    let scaled (place : Int) : Nat × Nat :=
      if place ≤ exp then (num * pow2 (exp - place).toNat, den)
      else (num, den * pow2 (place - exp).toNat)
    let guess := max ((num.log2 : Int) - den.log2 + exp - f.fraction - 1) f.leastExponent
    let (n, d) := scaled guess
    let place := if n / d < pow2 (f.fraction + 1) then guess else guess + 1
    let (n, d) := scaled place
    let floor := n / d
    let rest := n % d
    let nearest := if d < 2 * rest ∨ (2 * rest = d ∧ floor % 2 = 1) then floor + 1 else floor
    let bits := (place - f.leastExponent).toNat * pow2 f.fraction + nearest
    sign + min bits f.infinityBits

def round (f : FloatFormat) (neg : Bool) (magnitude : Nat) (exp : Int) : Nat :=
  f.roundRatio neg magnitude 1 exp

def ofInt (f : FloatFormat) (v : Int) : Nat := f.round (v < 0) v.natAbs 0

/-- The NaN that an operation delivers when its first NaN operand is `bits`. -/
def quiet (f : FloatFormat) (bits : Nat) : Nat := bits ||| pow2 (f.fraction - 1)

/-- Carry an encoding over to another format. -/
def convert (source f : FloatFormat) (bits : Nat) : Nat :=
  match source.decode bits with
  | .nan =>
    let payload := bits % pow2 source.fraction
    f.quiet (f.signBit (source.isNegative bits) + f.infinityBits +
      payload * pow2 f.fraction / pow2 source.fraction)
  | .infinite neg => f.signBit neg + f.infinityBits
  | .finite neg m e => f.round neg m e

def addValues (f : FloatFormat) : FloatValue → FloatValue → Nat
  | .infinite m, .infinite n => if m = n then f.signBit m + f.infinityBits else f.indefinite
  | .infinite m, _ => f.signBit m + f.infinityBits
  | _, .infinite n => f.signBit n + f.infinityBits
  | .finite m a d, .finite n b e =>
    let low := min d e
    let sum := FloatValue.signed m a * pow2 (d - low).toNat +
      FloatValue.signed n b * pow2 (e - low).toNat
    f.round (if sum = 0 then m && n else sum < 0) sum.natAbs low
  | _, _ => f.indefinite

def mulValues (f : FloatFormat) : FloatValue → FloatValue → Nat
  | .infinite m, .infinite n => f.signBit (m != n) + f.infinityBits
  | .infinite m, .finite n a _ | .finite n a _, .infinite m =>
    if a = 0 then f.indefinite else f.signBit (m != n) + f.infinityBits
  | .finite m a d, .finite n b e => f.round (m != n) (a * b) (d + e)
  | _, _ => f.indefinite

def divValues (f : FloatFormat) : FloatValue → FloatValue → Nat
  | .infinite _, .infinite _ => f.indefinite
  | .infinite m, .finite n _ _ => f.signBit (m != n) + f.infinityBits
  | .finite m _ _, .infinite n => f.signBit (m != n)
  | .finite m a d, .finite n b e =>
    if b = 0 then
      if a = 0 then f.indefinite else f.signBit (m != n) + f.infinityBits
    else f.roundRatio (m != n) a b (d - e)
  | _, _ => f.indefinite

def negate (f : FloatFormat) (bits : Nat) : Nat := bits ^^^ f.signBit true

/-- Apply an operation on values, or pass on a NaN operand, the first one first. -/
def binary (f : FloatFormat) (op : FloatValue → FloatValue → Nat) (a b : Nat) : Nat :=
  match f.decode a, f.decode b with
  | .nan, _ => f.quiet a
  | _, .nan => f.quiet b
  | x, y => op x y

def add (f : FloatFormat) (a b : Nat) : Nat := f.binary f.addValues a b

def sub (f : FloatFormat) (a b : Nat) : Nat :=
  match f.decode b with
  | .nan => f.add a b
  | _ => f.add a (f.negate b)

def mul (f : FloatFormat) (a b : Nat) : Nat := f.binary f.mulValues a b

def div (f : FloatFormat) (a b : Nat) : Nat := f.binary f.divValues a b

/-- Digit by digit: the largest number below `root + 2 ^ bits` with a square up to `n`. -/
def squareRootFrom (n : Nat) : (bits root : Nat) → Nat
  | 0, root => root
  | bits + 1, root =>
    let next := root + pow2 bits
    squareRootFrom n bits (if next * next ≤ n then next else root)

def squareRoot (n : Nat) : Nat := squareRootFrom n (n.log2 / 2 + 1) 0

/-- The root is taken of the magnitude scaled to an even exponent and to more than twice the bits
of the format; one bit more stands for what the integer root leaves. -/
def sqrt (f : FloatFormat) (bits : Nat) : Nat :=
  match f.decode bits with
  | .nan => f.quiet bits
  | .infinite neg => if neg then f.indefinite else bits
  | .finite neg m e =>
    if m = 0 then bits
    else if neg then f.indefinite
    else
      let shift := 2 * f.fraction + 8 + (e % 2).toNat
      let scaled := m * pow2 shift
      let root := squareRoot scaled
      let sticky := if root * root = scaled then 0 else 1
      f.round false (2 * root + sticky) ((e - shift) / 2 - 1)

end FloatFormat

end MachineCode
