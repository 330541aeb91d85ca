import BehaviorTrees.Json
import BehaviorTrees.Word

/-!
# Numbers as they are written

A number without fraction and exponent is an integer where it fits into 64 bits, signed or not.
Every other number is a float: the leading digits that fit into 64 bits are taken as one integer
and scaled by a power of ten.  Minus zero is a float.
-/

namespace BehaviorTrees.Number

/-- A number as its digits stand in a text. -/
structure Numeral where
  negative : Bool
  whole : List Nat
  fraction : Option (List Nat)
  exponent : Option Int

/-- Takes digits into `m` while the outcome is a word, and counts how many were taken. -/
def takeDigits : Nat → List Nat → Nat × Nat
  | m, [] => (m, 0)
  | m, d :: ds =>
      if m * 10 + d < Word.count then
        let (m', taken) := takeDigits (m * 10 + d) ds
        (m', taken + 1)
      else (m, 0)

def maxTenPower : Nat := 308

def tenPower (e : Nat) : Float := Float.ofScientific 1 false e

/-- Divides by 10^308 until the exponent left is within the range of floats. -/
def descale : Nat → Float → Int → Float
  | 0, x, _ => x
  | steps + 1, x, e =>
      if -(maxTenPower : Int) ≤ e then x / tenPower e.natAbs
      else if x == 0 then x
      else descale steps (x / tenPower maxTenPower) (e + maxTenPower)

/-- `m` times ten to the `e`; none when that exceeds every float. -/
def scale? (m : Nat) (e : Int) : Option Float :=
  let x := Float.ofNat m
  if e < 0 then some (descale (e.natAbs / maxTenPower + 1) x e)
  else if e ≤ maxTenPower then
    let y := x * tenPower e.natAbs
    if y.isInf then none else some y
  else if x == 0 then some x
  else none

def signed (negative : Bool) (x : Float) : Float :=
  if negative then -x else x

def Numeral.value? (t : Numeral) : Option Number :=
  let (m, taken) := takeDigits 0 t.whole
  let spare := t.whole.length - taken
  match t.fraction, t.exponent with
  | none, none =>
      if spare = 0 then
        if !t.negative then some (.int m)
        else if 0 < m ∧ m ≤ Word.half then some (.int (-m))
        else some (.float (-(Float.ofNat m)))
      else (scale? m spare).map fun x => .float (signed t.negative x)
  | fraction, exponent =>
      let (m', after) := takeDigits m (fraction.getD [])
      (scale? m' (spare - after + exponent.getD 0)).map fun x => .float (signed t.negative x)

end BehaviorTrees.Number
