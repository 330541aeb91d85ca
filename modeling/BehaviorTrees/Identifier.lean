/-!
# Fresh identifiers

The text of a random identifier: 32 hexadecimal digits in groups of 8, 4, 4, 4 and 12, of which
one gives the version, always 4, and one begins with the bits of the variant.
-/

namespace BehaviorTrees.Identifier

def hexDigit (n : Nat) : Char :=
  if n < 10 then Char.ofNat ('0'.toNat + n) else Char.ofNat ('a'.toNat + (n - 10))

/-- The last `count` hexadecimal digits of a number. -/
def hexDigits : Nat → Nat → List Char
  | 0, _ => []
  | count + 1, n => hexDigits count (n / 16) ++ [hexDigit (n % 16)]

/-- The identifier made of 122 random bits. -/
def ofBits (bits : Nat) : String :=
  String.ofList <|
    hexDigits 8 bits ++ '-' :: hexDigits 4 (bits >>> 32) ++
      '-' :: '4' :: hexDigits 3 (bits >>> 48) ++
        '-' :: hexDigit (8 + (bits >>> 60) % 4) :: hexDigits 3 (bits >>> 62) ++
          '-' :: hexDigits 12 (bits >>> 74)

def isHexDigit (c : Char) : Bool := c.isDigit || ('a' ≤ c && c ≤ 'f')

/-- Whether a text has the form of such an identifier. -/
def isFresh (text : String) : Bool :=
  match (text.split (· == '-')).toStringList.map String.toList with
  | [a, b, '4' :: c, d :: e, f] =>
      [a, b, c, e, f].map List.length == [8, 4, 3, 3, 12] &&
        [a, b, c, e, f].all (·.all isHexDigit) && ['8', '9', 'a', 'b'].contains d
  | _ => false

end BehaviorTrees.Identifier
