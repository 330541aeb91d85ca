import BehaviorTrees.Json
import BehaviorTrees.Decimal.Shortest
import BehaviorTrees.Word

/-!
# Writing JSON text

Two forms: `compact` without blanks, and `pretty` with one field or item a line, indented by two
blanks a level.  Both escape the quote, the backslash and the characters below the blank, and
write every other character as it is.
-/

namespace BehaviorTrees.Json

def digitChar (d : Nat) : Char := Char.ofNat ('0'.toNat + d)

/-- The decimal digits of a natural number. -/
def naturalChars (n : Nat) : List Char :=
  if n < 10 then [digitChar n] else naturalChars (n / 10) ++ [digitChar (n % 10)]

def intChars (z : Int) : List Char :=
  if z < 0 then '-' :: naturalChars z.natAbs else naturalChars z.natAbs

/-- An exponent always has its sign. -/
def exponentChars (z : Int) : List Char :=
  'e' :: (if z < 0 then '-' else '+') :: naturalChars z.natAbs

/-- Floats are positional while their point stands within sixteen digits, or at most four zeros
follow it; else they have an exponent.  A positional float has a digit on each side. -/
def digitsChars (x : Decimal.Digits) : List Char :=
  let ds := x.digits.map digitChar
  let count : Int := ds.length
  if count ≤ x.point ∧ x.point ≤ 16 then
    ds ++ List.replicate (x.point - count).toNat '0' ++ ['.', '0']
  else if 0 < x.point ∧ x.point ≤ 16 then
    ds.take x.point.toNat ++ '.' :: ds.drop x.point.toNat
  else if -5 < x.point ∧ x.point ≤ 0 then
    '0' :: '.' :: List.replicate (-x.point).toNat '0' ++ ds
  else
    ds.take 1 ++ (if ds.length ≤ 1 then [] else '.' :: ds.drop 1) ++ exponentChars (x.point - 1)

def floatChars (x : Float) : List Char :=
  let sign := if x.toBits.toNat < Word.half then [] else ['-']
  let b := Decimal.Binary.ofFloat x
  sign ++ if b.significand = 0 then ['0', '.', '0'] else digitsChars b.shortest

def numberChars : Number → List Char
  | .int z => intChars z
  | .float x => floatChars x

def hexChar (d : Nat) : Char :=
  if d < 10 then digitChar d else Char.ofNat ('a'.toNat + (d - 10))

def escapeChar (c : Char) : List Char :=
  if c = '"' then ['\\', '"']
  else if c = '\\' then ['\\', '\\']
  else if c = '\x08' then ['\\', 'b']
  else if c = '\x0c' then ['\\', 'f']
  else if c = '\n' then ['\\', 'n']
  else if c = '\r' then ['\\', 'r']
  else if c = '\t' then ['\\', 't']
  else if c.toNat < 0x20 then
    ['\\', 'u', '0', '0', hexChar (c.toNat / 16), hexChar (c.toNat % 16)]
  else [c]

def stringChars (s : String) : List Char :=
  '"' :: s.toList.flatMap escapeChar ++ ['"']

def boolChars (b : Bool) : List Char :=
  if b then ['t', 'r', 'u', 'e'] else ['f', 'a', 'l', 's', 'e']

mutual

def compactChars : Json → List Char
  | .null => ['n', 'u', 'l', 'l']
  | .bool b => boolChars b
  | .number n => numberChars n
  | .string s => stringChars s
  | .array [] => ['[', ']']
  | .array (v :: rest) => '[' :: compactChars v ++ compactItems rest
  | .object [] => ['\x7b', '\x7d']
  | .object ((k, v) :: rest) =>
      '\x7b' :: stringChars k ++ ':' :: compactChars v ++ compactFields rest

/-- The items after the first, and the closing bracket. -/
def compactItems : List Json → List Char
  | [] => [']']
  | v :: rest => ',' :: compactChars v ++ compactItems rest

def compactFields : List (String × Json) → List Char
  | [] => ['\x7d']
  | (k, v) :: rest => ',' :: stringChars k ++ ':' :: compactChars v ++ compactFields rest

end

def newline (level : Nat) : List Char := '\n' :: List.replicate (2 * level) ' '

mutual

/-- The value as it stands at a level of indentation. -/
def prettyChars (level : Nat) : Json → List Char
  | .null => ['n', 'u', 'l', 'l']
  | .bool b => boolChars b
  | .number n => numberChars n
  | .string s => stringChars s
  | .array [] => ['[', ']']
  | .array (v :: rest) =>
      '[' :: newline (level + 1) ++ prettyChars (level + 1) v ++ prettyItems level rest
  | .object [] => ['\x7b', '\x7d']
  | .object ((k, v) :: rest) =>
      '\x7b' :: newline (level + 1) ++ stringChars k ++ ':' :: ' ' :: prettyChars (level + 1) v ++
        prettyFields level rest

def prettyItems (level : Nat) : List Json → List Char
  | [] => newline level ++ [']']
  | v :: rest =>
      ',' :: newline (level + 1) ++ prettyChars (level + 1) v ++ prettyItems level rest

def prettyFields (level : Nat) : List (String × Json) → List Char
  | [] => newline level ++ ['\x7d']
  | (k, v) :: rest =>
      ',' :: newline (level + 1) ++ stringChars k ++ ':' :: ' ' :: prettyChars (level + 1) v ++
        prettyFields level rest

end

def compact (v : Json) : String := String.ofList (compactChars v)

def pretty (v : Json) : String := String.ofList (prettyChars 0 v)

end BehaviorTrees.Json
