import BehaviorTrees.Json.Document
import BehaviorTrees.Json.Number

/-!
# Reading JSON text

The grammar is strict: blanks are space, tab, line feed and carriage return, nothing but blanks
follows the value, numbers have no leading zeros, and strings hold no raw control characters.
Every reading function answers with what it read and the rest of the text.
-/

namespace BehaviorTrees.Document

def isBlank (c : Char) : Bool :=
  c == ' ' || c == '\t' || c == '\n' || c == '\r'

def skipBlanks : List Char → List Char
  | [] => []
  | c :: rest => if isBlank c then skipBlanks rest else c :: rest

def hexDigit? (c : Char) : Option Nat :=
  if '0' ≤ c ∧ c ≤ '9' then some (c.toNat - '0'.toNat)
  else if 'a' ≤ c ∧ c ≤ 'f' then some (c.toNat - 'a'.toNat + 10)
  else if 'A' ≤ c ∧ c ≤ 'F' then some (c.toNat - 'A'.toNat + 10)
  else none

/-- The number written by four hexadecimal digits. -/
def hex4? (a b c d : Char) : Option Nat := do
  let a ← hexDigit? a
  let b ← hexDigit? b
  let c ← hexDigit? c
  let d ← hexDigit? d
  return ((a * 16 + b) * 16 + c) * 16 + d

def isHighSurrogate (n : Nat) : Bool := 0xD800 ≤ n && n < 0xDC00

def isLowSurrogate (n : Nat) : Bool := 0xDC00 ≤ n && n < 0xE000

/-- The character a one-letter escape stands for. -/
def shortEscape? : Char → Option Char
  | '"' => some '"'
  | '\\' => some '\\'
  | '/' => some '/'
  | 'b' => some '\x08'
  | 'f' => some '\x0c'
  | 'n' => some '\n'
  | 'r' => some '\r'
  | 't' => some '\t'
  | _ => none

/-- What has been read of a string: its characters, last one first, or nothing once half of a
surrogate pair stood alone; and the first half of a pair that waits for the other. -/
structure Spelled where
  chars : Option (List Char)
  half : Option Nat

def Spelled.start : Spelled := ⟨some [], none⟩

def Spelled.push (s : Spelled) (c : Char) : Spelled :=
  ⟨if s.half.isNone then s.chars.map (c :: ·) else none, none⟩

/-- Adds a 16-bit unit, which is a character or half of one. -/
def Spelled.pushUnit (s : Spelled) (n : Nat) : Spelled :=
  if isHighSurrogate n then ⟨if s.half.isNone then s.chars else none, some n⟩
  else if isLowSurrogate n then
    match s.half with
    | some high =>
        ⟨s.chars.map (Char.ofNat (0x10000 + (high - 0xD800) * 0x400 + (n - 0xDC00)) :: ·), none⟩
    | none => ⟨none, none⟩
  else s.push (Char.ofNat n)

def Spelled.text? (s : Spelled) : Option String :=
  if s.half.isNone then s.chars.map fun cs => String.ofList cs.reverse else none

/-- The rest of a string after its opening quote. -/
def readString : List Char → Spelled → Option (Option String × List Char)
  | [], _ => none
  | '"' :: rest, found => some (found.text?, rest)
  | '\\' :: 'u' :: a :: b :: c :: d :: rest, found =>
      match hex4? a b c d with
      | some n => readString rest (found.pushUnit n)
      | none => none
  | '\\' :: c :: rest, found =>
      match shortEscape? c with
      | some c => readString rest (found.push c)
      | none => none
  | c :: rest, found =>
      if c.toNat < 0x20 || c == '\\' then none else readString rest (found.push c)

def digit (c : Char) : Nat := c.toNat - '0'.toNat

/-- The longest run of digits at the head of a text. -/
def readDigits : List Char → List Nat × List Char
  | [] => ([], [])
  | c :: rest =>
      if c.isDigit then
        let (ds, rest) := readDigits rest
        (digit c :: ds, rest)
      else ([], c :: rest)

/-- A run of digits with at least one digit. -/
def readDigits1 (cs : List Char) : Option (List Nat × List Char) :=
  match readDigits cs with
  | ([], _) => none
  | found => some found

/-- The digits before the point: a single zero, or any run that begins otherwise. -/
def readWhole : List Char → Option (List Nat × List Char)
  | '0' :: rest => some ([0], rest)
  | cs => readDigits1 cs

def readFraction : List Char → Option (Option (List Nat) × List Char)
  | '.' :: rest => (readDigits1 rest).map fun (ds, rest) => (some ds, rest)
  | cs => some (none, cs)

def readExponentDigits (negative : Bool) (cs : List Char) : Option (Option Int × List Char) :=
  (readDigits1 cs).map fun (ds, rest) =>
    let e : Nat := ds.foldl (fun n d => n * 10 + d) 0
    (some (if negative then -(e : Int) else e), rest)

def readExponent : List Char → Option (Option Int × List Char)
  | 'e' :: '-' :: rest | 'E' :: '-' :: rest => readExponentDigits true rest
  | 'e' :: '+' :: rest | 'E' :: '+' :: rest => readExponentDigits false rest
  | 'e' :: rest | 'E' :: rest => readExponentDigits false rest
  | cs => some (none, cs)

def readUnsigned (negative : Bool) (cs : List Char) : Option (Document × List Char) := do
  let (whole, cs) ← readWhole cs
  let (fraction, cs) ← readFraction cs
  let (exponent, cs) ← readExponent cs
  return (.number (Number.Numeral.value? ⟨negative, whole, fraction, exponent⟩), cs)

def readNumber : List Char → Option (Document × List Char)
  | '-' :: rest => readUnsigned true rest
  | cs => readUnsigned false cs

mutual

/-- One value, blanks in front of it included. -/
def readValue : Nat → List Char → Option (Document × List Char)
  | 0, _ => none
  | fuel + 1, cs =>
      match skipBlanks cs with
      | 'n' :: 'u' :: 'l' :: 'l' :: rest => some (.null, rest)
      | 't' :: 'r' :: 'u' :: 'e' :: rest => some (.bool true, rest)
      | 'f' :: 'a' :: 'l' :: 's' :: 'e' :: rest => some (.bool false, rest)
      | '"' :: rest => (readString rest .start).map fun (s, rest) => (.string s, rest)
      | '[' :: rest =>
          match skipBlanks rest with
          | ']' :: rest => some (.array [], rest)
          | rest => readItems fuel rest []
      | '\x7b' :: rest =>
          match skipBlanks rest with
          | '\x7d' :: rest => some (.object [], rest)
          | rest => readMembers fuel rest []
      | rest => readNumber rest

/-- The items of an array from the next one to the closing bracket; `found` holds those before,
last one first. -/
def readItems : Nat → List Char → List Document → Option (Document × List Char)
  | 0, _, _ => none
  | fuel + 1, cs, found => do
      let (item, cs) ← readValue fuel cs
      match skipBlanks cs with
      | ',' :: rest => readItems fuel rest (item :: found)
      | ']' :: rest => some (.array (item :: found).reverse, rest)
      | _ => none

/-- The members of an object from the next one to the closing brace. -/
def readMembers :
    Nat → List Char → List (Option String × Document) → Option (Document × List Char)
  | 0, _, _ => none
  | fuel + 1, cs, found =>
      match skipBlanks cs with
      | '"' :: rest => do
          let (key, cs) ← readString rest .start
          match skipBlanks cs with
          | ':' :: rest => do
              let (value, cs) ← readValue fuel rest
              match skipBlanks cs with
              | ',' :: rest => readMembers fuel rest ((key, value) :: found)
              | '\x7d' :: rest => some (.object ((key, value) :: found).reverse, rest)
              | _ => none
          | _ => none
      | _ => none

end

/-- The document a text writes.  No step is taken more than twice for a character, so the steps
allowed suffice for every text. -/
def ofChars? (cs : List Char) : Option Document :=
  match readValue (2 * cs.length + 2) cs with
  | some (d, rest) => if skipBlanks rest = [] then some d else none
  | none => none

def ofText? (text : String) : Option Document := ofChars? text.toList

end BehaviorTrees.Document

namespace BehaviorTrees.Json

/-- The value a text writes. -/
def ofText? (text : String) : Option Json :=
  (Document.ofText? text).bind (Document.value? Document.roomForText)

end BehaviorTrees.Json
