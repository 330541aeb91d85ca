/-!
# Shortest decimals

The fewest decimal digits that identify a float among all floats, found by exact arithmetic on
its bits.  A float stands for every real that rounds to it; of the decimals with the fewest
digits in that interval the one nearest to the float is taken, an even last digit breaking ties.
-/

namespace BehaviorTrees.Decimal

/-- A finite float without its sign: `significand` times two to the `exponent`. -/
structure Binary where
  significand : Nat
  exponent : Int
  /-- The gap to the float below is half the gap to the float above. -/
  narrowBelow : Bool

/-- Digits, most significant first, with the decimal point in front of the first one moved
`point` places to the right. -/
structure Digits where
  digits : List Nat
  point : Int

/-- The significand of a float that is a power of two: two to the 52. -/
def leadingBit : Nat := 4503599627370496

def Binary.ofFloat (x : Float) : Binary :=
  let bits := x.toBits.toNat
  let biased : Nat := bits / leadingBit % 2048
  let fraction : Nat := bits % leadingBit
  if biased = 0 then ⟨fraction, -1074, false⟩
  else ⟨fraction + leadingBit, biased - 1075, fraction == 0 && biased > 1⟩

/-- Compares `a` times ten to the `e` with `b` times two to the `q`. -/
def compareScaled (a : Nat) (e : Int) (b : Nat) (q : Int) : Ordering :=
  compare (a * Nat.pow 10 e.toNat * Nat.pow 2 (-q).toNat)
    (b * Nat.pow 2 q.toNat * Nat.pow 10 (-e).toNat)

/-- Whether `d` times ten to the `e` rounds to the float.  Quarters of its last place are counted,
so that both ends of the interval are whole; they belong to it when the significand is even. -/
def Binary.readsBack (x : Binary) (d : Nat) (e : Int) : Bool :=
  let q := x.exponent - 2
  let low := compareScaled d e (4 * x.significand - if x.narrowBelow then 1 else 2) q
  let high := compareScaled d e (4 * x.significand + 2) q
  if x.significand % 2 = 0 then low != .lt && high != .gt
  else low == .gt && high == .lt

/-- The whole part of the float divided by ten to the `e`. -/
def Binary.quotient (x : Binary) (e : Int) : Nat :=
  x.significand * Nat.pow 2 x.exponent.toNat * Nat.pow 10 (-e).toNat /
    (Nat.pow 2 (-x.exponent).toNat * Nat.pow 10 e.toNat)

/-- The least `k` for which the float is below ten to the `k`, looked for from an estimate by the
binary logarithm. -/
def Binary.magnitude (x : Binary) : Int :=
  let estimate := Int.fdiv ((x.exponent + x.significand.log2) * 30103) 100000
  let below (k : Int) := compareScaled 1 k x.significand x.exponent == .gt
  if below estimate then estimate
  else if below (estimate + 1) then estimate + 1
  else estimate + 2

/-- Of the two decimals next to the float on the grid of ten to the `e`, the nearest one that
reads back. -/
def Binary.onGrid? (x : Binary) (e : Int) : Option Nat :=
  let d := x.quotient e
  match x.readsBack d e, x.readsBack (d + 1) e with
  | false, false => none
  | true, false => some d
  | false, true => some (d + 1)
  | true, true =>
      match compareScaled (2 * d + 1) e (2 * x.significand) x.exponent with
      | .gt => some d
      | .lt => some (d + 1)
      | .eq => some (if d % 2 = 0 then d else d + 1)

/-- The first grid, from coarse to fine, on which a decimal reads back. -/
def Binary.search (x : Binary) (magnitude : Int) : Nat → Nat → Option (Nat × Int)
  | 0, _ => none
  | left + 1, count =>
      let e := magnitude - count
      match x.onGrid? e with
      | some d => some (d, e)
      | none => x.search magnitude left (count + 1)

def maxDigits : Nat := 17

def digitsOf (n : Nat) : List Nat :=
  (Nat.toDigits 10 n).map fun c => c.toNat - '0'.toNat

/-- Seventeen digits always read back, so the search does not fail. -/
def Binary.shortest (x : Binary) : Digits :=
  let k := x.magnitude
  let (d, e) := (x.search k maxDigits 1).getD (x.quotient (k - maxDigits), k - maxDigits)
  let ds := digitsOf d
  let point := e + ds.length
  ⟨(ds.reverse.dropWhile (· == 0)).reverse, point⟩

end BehaviorTrees.Decimal
