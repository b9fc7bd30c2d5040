/-!
# JSON values in print

The JSON values that reports are made of, and their printed form.  Objects keep
the order of their fields.

Every item of a list and every field of an object has a line of its own, indented
by two spaces for each list or object around it; an empty list or object stays on
one line.  In strings, quotes, backslashes and the characters below U+0020 are
escaped, and all others stand for themselves.
-/

namespace NetlistSplit

/-- A JSON value. -/
inductive Json where
  | number (n : Nat)
  | string (s : String)
  | list (items : List Json)
  | object (fields : List (String × Json))

namespace Json

/-! ## Strings -/

/-- The hexadecimal digit of a number below 16. -/
def hexDigit (n : Nat) : Char :=
  if n < 10 then Char.ofNat ('0'.toNat + n) else Char.ofNat ('a'.toNat + (n - 10))

/-- A character as it is written between quotes. -/
def escape (c : Char) : List Char :=
  if c = '"' then ['\\', '"']
  else if c = '\\' then ['\\', '\\']
  else if c = '\n' then ['\\', 'n']
  else if c = '\r' then ['\\', 'r']
  else if c = '\t' then ['\\', 't']
  else if c = '\x08' then ['\\', 'b']
  else if c = '\x0c' then ['\\', 'f']
  else if c.toNat < 0x20 then
    ['\\', 'u', '0', '0', hexDigit (c.toNat / 16), hexDigit (c.toNat % 16)]
  else [c]

/-- A string in quotes. -/
def quoted (s : String) : List Char :=
  '"' :: (s.toList.flatMap escape ++ ['"'])

/-! ## Values -/

/-- The end of a line, and the indentation of the next. -/
def newline (depth : Nat) : List Char :=
  '\n' :: List.replicate (2 * depth) ' '

mutual

/-- A value in print, at a depth of `depth` lists and objects around it. -/
def print (depth : Nat) : Json → List Char
  | number n => Nat.toDigits 10 n
  | string s => quoted s
  | list [] => ['[', ']']
  | list (item :: later) =>
    '[' :: newline (depth + 1) ++ print (depth + 1) item ++ printItems (depth + 1) later ++
      newline depth ++ [']']
  | object [] => ['\x7b', '\x7d']
  | object ((key, value) :: later) =>
    '\x7b' :: newline (depth + 1) ++ quoted key ++ [':', ' '] ++ print (depth + 1) value ++
      printFields (depth + 1) later ++ newline depth ++ ['\x7d']

/-- The items of a list after its first. -/
def printItems (depth : Nat) : List Json → List Char
  | [] => []
  | item :: later => ',' :: newline depth ++ print depth item ++ printItems depth later

/-- The fields of an object after its first. -/
def printFields (depth : Nat) : List (String × Json) → List Char
  | [] => []
  | (key, value) :: later =>
    ',' :: newline depth ++ quoted key ++ [':', ' '] ++ print depth value ++
      printFields depth later

end

/-- A value in print. -/
def pretty (json : Json) : String :=
  String.ofList (json.print 0)

end Json

end NetlistSplit
