import CallLang.Text.Visible

/-!
# Quoted text

The form in which debugging output shows a text: between single quotes, or between double quotes if
that saves escaping, with the quote, backslashes and characters that cannot be seen written as
escapes.
-/

namespace CallLang.Quoted

/-- The quote around a text: double only if the text has a single quote and no double one. -/
def quoteFor (cs : List Char) : Char :=
  if cs.contains '\'' && !cs.contains '"' then '"' else '\''

/-- `n` in hexadecimal with at least `width` digits. -/
def hexadecimal (width n : Nat) : List Char :=
  let digits := Nat.toDigits 16 n
  List.replicate (width - digits.length) '0' ++ digits

/-- A character inside quotes `quote`. -/
def encodeChar (quote c : Char) : List Char :=
  if c = quote || c = '\\' then ['\\', c]
  else if c = '\n' then ['\\', 'n']
  else if c = '\t' then ['\\', 't']
  else if c = '\r' then ['\\', 'r']
  else if isVisible c then [c]
  else if c.toNat < 0x100 then '\\' :: 'x' :: hexadecimal 2 c.toNat
  else if c.toNat < 0x10000 then '\\' :: 'u' :: hexadecimal 4 c.toNat
  else '\\' :: 'U' :: hexadecimal 8 c.toNat

/-- The characters of a text with their quotes. -/
def encode (cs : List Char) : List Char :=
  let quote := quoteFor cs
  quote :: (cs.flatMap (encodeChar quote) ++ [quote])

end CallLang.Quoted

namespace CallLang

/-- A text as debugging output shows it. -/
def quoted (text : String) : String :=
  String.ofList (Quoted.encode text.toList)

end CallLang
