import Scion.Text.Printable

/-!
Quoting a text for a message: it stands between double quotes, and every character that would be
mistaken or could not be seen is written as an escape.
-/

namespace Scion.Text

def hexDigits (n : Nat) : List Char := Nat.toDigits 16 n

/-- An escape by code point, such as `\u` with `1b` in braces. -/
def escapeCodePoint (c : Char) : List Char :=
  '\\' :: 'u' :: '\x7b' :: hexDigits c.toNat ++ ['\x7d']

def quoteChar (c : Char) : List Char :=
  if c = '\x00' then ['\\', '0']
  else if c = '\t' then ['\\', 't']
  else if c = '\r' then ['\\', 'r']
  else if c = '\n' then ['\\', 'n']
  else if c = '"' || c = '\\' then ['\\', c]
  else if isPrintable c then [c]
  else escapeCodePoint c

def quoted (s : String) : String :=
  String.ofList ('"' :: s.toList.flatMap quoteChar ++ ['"'])

end Scion.Text
