import DecisionModel.Text.Printable

/-!
# Quoted text

A quoted text stands between single quotes, or between double quotes if it holds a single quote
and no double one. The enclosing quote and the backslash are escaped inside, line feed, carriage
return and tab have short escapes, and other characters that are not printable are written by
their code point in two, four or eight hexadecimal digits.
-/

namespace DecisionModel.Text

/-- `n` in hexadecimal with at least `width` digits. -/
def hex (width n : Nat) : List Char :=
  let ds := Nat.toDigits 16 n
  List.replicate (width - ds.length) '0' ++ ds

/-- One character between quotes of the given kind. -/
def escapeChar (quote c : Char) : List Char :=
  if c = quote || c = '\\' then ['\\', c]
  else if c = '\n' then ['\\', 'n']
  else if c = '\r' then ['\\', 'r']
  else if c = '\t' then ['\\', 't']
  else if isPrintable c then [c]
  else
    let n := c.toNat
    if n < 0x100 then '\\' :: 'x' :: hex 2 n
    else if n < 0x10000 then '\\' :: 'u' :: hex 4 n
    else '\\' :: 'U' :: hex 8 n

/-- The quote that encloses a text. -/
def enclosingQuote (s : List Char) : Char :=
  if s.contains '\'' && !s.contains '"' then '"' else '\''

/-- The text between quotes, escaped. -/
def quoted (s : String) : String :=
  let cs := s.toList
  let q := enclosingQuote cs
  String.ofList (q :: cs.flatMap (escapeChar q) ++ [q])

end DecisionModel.Text
