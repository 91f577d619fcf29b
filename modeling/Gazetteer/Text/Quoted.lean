/-!
# Quoted text

`quote` writes a text between double quotes. The quote, the backslash and the control characters
are escaped; everything else, the apostrophe included, stands for itself. The rule is complete for
ASCII text.
-/

namespace Gazetteer

/-- The text of a character inside quotes. -/
def escapeChar (c : Char) : String :=
  if c = '"' then "\\\""
  else if c = '\\' then "\\\\"
  else if c = '\n' then "\\n"
  else if c = '\t' then "\\t"
  else if c = '\r' then "\\r"
  else if c.toNat = 0 then "\\0"
  else if c.toNat < 32 ∨ c.toNat = 127 then
    "\\u\x7b" ++ String.ofList (Nat.toDigits 16 c.toNat) ++ "\x7d"
  else c.toString

/-- The text between double quotes. -/
def quote (s : String) : String := "\"" ++ String.join (s.toList.map escapeChar) ++ "\""

end Gazetteer
