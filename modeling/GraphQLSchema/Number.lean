/-!
# Numbers

`Numeral` is a number as written; `Numeral.value?` is what it stands for. Whole numbers that fit
64 bits, signed or not, are exact; everything else is a binary64.
-/

namespace GraphQLSchema

inductive Number where
  | int (value : Int)
  | float (value : Float)
  deriving DecidableEq, Repr

structure Numeral where
  negative : Bool
  whole : List Nat
  fraction : Option (List Nat)
  exponent : Option Int
  deriving DecidableEq, Repr

namespace Numeral

def ofDigits (ds : List Nat) : Nat := ds.foldl (fun n d => 10 * n + d) 0

def significandBound : Nat := 0x10000000000000000

/-- Takes digits into the significand while it stays within bounds: the significand and the
digits left over. -/
def absorb (n : Nat) : List Nat → Nat × List Nat
  | [] => (n, [])
  | d :: ds => if 10 * n + d < significandBound then absorb (10 * n + d) ds else (n, d :: ds)

/-- The significand of at most 64 bits and the power of ten to scale it by. Whole digits beyond
the significand still count as places, fraction digits beyond it do not. -/
def scaled (x : Numeral) : Nat × Int :=
  let (n, rest) := absorb 0 x.whole
  let (m, extra) := absorb n (x.fraction.getD [])
  let places : Int := (x.fraction.getD []).length - extra.length
  (m, rest.length - places + x.exponent.getD 0)

def pow10 (k : Nat) : Float := Float.ofScientific 1 false k

/-- The largest power of ten that binary64 can express is ten to this. -/
def maxPower : Nat := 308

def scaleDown (f : Float) (k : Nat) : Float :=
  if k ≤ maxPower then f / pow10 k
  else if f == 0 then f
  else scaleDown (f / pow10 maxPower) (k - maxPower)
termination_by k
decreasing_by
  have : 0 < maxPower := by decide
  omega

def scale? (n : Nat) (e : Int) : Option Float :=
  let f := Float.ofNat n
  match e with
  | .ofNat k =>
    if k ≤ maxPower then
      let g := f * pow10 k
      if g.isInf then none else some g
    else if f == 0 then some f else none
  | .negSucc k => some (scaleDown f (k + 1))

/-- What the numeral stands for; none if it is beyond binary64. Minus zero is a float, as no
integer can carry its sign. -/
def value? (x : Numeral) : Option Number :=
  let n := ofDigits x.whole
  let plain := x.fraction.isNone && x.exponent.isNone
  if plain && !x.negative && n < 0x10000000000000000 then some (.int n)
  else if plain && x.negative && 0 < n && n ≤ 0x8000000000000000 then some (.int (-n))
  else
    let (m, e) := x.scaled
    (scale? m e).map fun f => .float (if x.negative then -f else f)

/-- The least magnitude that rounds to no binary64: half a step above the largest of them. -/
def overflow : Nat := Nat.pow 2 1024 - Nat.pow 2 970

/-- The binary64 nearest to the numeral is finite. The number of digits decides where powers of ten
would be out of proportion to them. -/
def isFinite (x : Numeral) : Bool :=
  let digits := x.whole ++ x.fraction.getD []
  let n := ofDigits digits
  match x.exponent.getD 0 - (x.fraction.getD []).length with
  | .ofNat k => n == 0 || (k ≤ maxPower && n * Nat.pow 10 k < overflow)
  | .negSucc k => digits.length ≤ maxPower + (k + 1) || n < overflow * Nat.pow 10 (k + 1)

def sign : List Char → Bool × List Char
  | '-' :: s => (true, s)
  | s => (false, s)

def exponentSign : List Char → Bool × List Char
  | '+' :: s => (false, s)
  | s => sign s

def signed (negative : Bool) (n : Nat) : Int := if negative then -n else n

end Numeral

def digitsOf (s : List Char) : List Nat := s.map fun c => c.toNat - '0'.toNat

end GraphQLSchema
