import BehaviorTrees.Text.Hidden
import BehaviorTrees.Text.Marks

/-!
# Quoted text

A text between quotes in which everything can be seen: quotes, backslashes and the common control
characters are escaped by one letter, all else that has no picture of its own by its code point.
-/

namespace BehaviorTrees.Text

def codePointChars (c : Char) : List Char :=
  ['\\', 'u', '\x7b'] ++ Nat.toDigits 16 c.toNat ++ ['\x7d']

def quoteChar (c : Char) : List Char :=
  if c = '\x00' then ['\\', '0']
  else if c = '\t' then ['\\', 't']
  else if c = '\r' then ['\\', 'r']
  else if c = '\n' then ['\\', 'n']
  else if c = '\\' then ['\\', '\\']
  else if c = '"' then ['\\', '"']
  else if isMark c || isHidden c then codePointChars c
  else [c]

def quote (text : String) : String :=
  String.ofList ('"' :: text.toList.flatMap quoteChar ++ ['"'])

end BehaviorTrees.Text
