import MethodFlow.Text.ExtendingMark
import MethodFlow.Text.Invisible
import MethodFlow.Text.Unassigned

/-!
# Quoted text

Text between double quotes, with a backslash before a quote and before a backslash, short names
for the common control characters, and the code point in braces for every other character that
has no shape of its own.
-/

namespace MethodFlow

/-- Whether a character has no shape of its own: nothing is drawn for it, it is drawn on the
character before it, or its code point stands for no character. -/
def isShapeless (c : Char) : Bool := isInvisible c || isExtendingMark c || isUnassigned c

/-- How one character is written inside quotes. -/
def quotedChar (c : Char) : List Char :=
  if c = '"' then ['\\', '"']
  else if c = '\\' then ['\\', '\\']
  else if c = '\n' then ['\\', 'n']
  else if c = '\r' then ['\\', 'r']
  else if c = '\t' then ['\\', 't']
  else if c.toNat = 0 then ['\\', '0']
  else if isShapeless c then ['\\', 'u', '\x7b'] ++ Nat.toDigits 16 c.toNat ++ ['\x7d']
  else [c]

/-- The text between double quotes. -/
def quoted (text : String) : String :=
  String.ofList ('"' :: text.toList.flatMap quotedChar ++ ['"'])

end MethodFlow
