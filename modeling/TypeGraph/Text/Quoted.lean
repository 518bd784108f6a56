/-!
Double-quoted text with backslash escapes: the string literals of JSON, which are string
literals of TypeScript as well.
-/

namespace TypeGraph.Text.Quoted

def hexDigit (n : Nat) : Char :=
  Nat.digitChar (n % 16)

/-- A character inside quotes: quotes, backslashes and control characters are escaped, everything
else stands for itself. -/
def escape (c : Char) : List Char :=
  if c = '"' then ['\\', '"']
  else if c = '\\' then ['\\', '\\']
  else if c = '\n' then ['\\', 'n']
  else if c = '\r' then ['\\', 'r']
  else if c = '\t' then ['\\', 't']
  else if c.toNat = 8 then ['\\', 'b']
  else if c.toNat = 12 then ['\\', 'f']
  else if c.toNat < 0x20 then
    ['\\', 'u', '0', '0', hexDigit (c.toNat / 16), hexDigit c.toNat]
  else [c]

def encode (cs : List Char) : List Char :=
  '"' :: (cs.flatMap escape ++ ['"'])

def quote (text : String) : String :=
  String.ofList (encode text.toList)

end TypeGraph.Text.Quoted
