import BlockElimination.Text.Escaped

/-!
# Quoted text

Text between double quotes, where quotes, backslashes, line breaks, tabs and NUL are escaped by a backslash,
and every other character that has no printed form of its own by its code point.
-/
namespace BlockElimination.Quoted

def escape (c : Char) : List Char :=
  if c = '"' ∨ c = '\\' then ['\\', c]
  else if c = '\n' then ['\\', 'n']
  else if c = '\r' then ['\\', 'r']
  else if c = '\t' then ['\\', 't']
  else if c.toNat = 0 then ['\\', '0']
  else if Escaped.contains c then '\\' :: 'u' :: '\x7b' :: (Nat.toDigits 16 c.toNat ++ ['\x7d'])
  else [c]

def text (s : String) : String :=
  String.ofList ('"' :: (s.toList.flatMap escape ++ ['"']))

/-- The quoted items between brackets, separated by commas. -/
def listText (items : List String) : String :=
  "[" ++ ", ".intercalate (items.map text) ++ "]"

end BlockElimination.Quoted
