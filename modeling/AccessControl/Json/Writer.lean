import AccessControl.Json.Basic
import AccessControl.Number.Shortest

/-!
# Writing JSON

The compact text of a value: no blanks, fields in the order in which they stand, every character
written as itself save the quote, the backslash and the controls below U+0020. This text is also
what a signature covers.
-/

namespace AccessControl.Json

def hexDigit (n : Nat) : Char := Nat.digitChar (n % 16)

def escape (c : Char) : List Char :=
  if c = '"' then ['\\', '"']
  else if c = '\\' then ['\\', '\\']
  else if c.toNat < 0x20 then
    if c = '\x08' then ['\\', 'b']
    else if c = '\x0c' then ['\\', 'f']
    else if c = '\n' then ['\\', 'n']
    else if c = '\r' then ['\\', 'r']
    else if c = '\t' then ['\\', 't']
    else ['\\', 'u', '0', '0', hexDigit (c.toNat / 16), hexDigit c.toNat]
  else [c]

def quoted (s : String) : List Char := '"' :: s.toList.flatMap escape ++ ['"']

mutual

def chars : Json → List Char
  | null => ['n', 'u', 'l', 'l']
  | bool true => ['t', 'r', 'u', 'e']
  | bool false => ['f', 'a', 'l', 's', 'e']
  | int n => (toString n).toList
  | float x => x.text.toList
  | str s => quoted s
  | arr items => '[' :: itemChars items ++ [']']
  | obj fields => '{' :: fieldChars fields ++ ['}']

def itemChars : List Json → List Char
  | [] => []
  | [j] => chars j
  | j :: js => chars j ++ ',' :: itemChars js

def fieldChars : List (String × Json) → List Char
  | [] => []
  | [(k, j)] => quoted k ++ ':' :: chars j
  | (k, j) :: fs => quoted k ++ ':' :: chars j ++ ',' :: fieldChars fs

end

def text (j : Json) : String := String.ofList (chars j)

end AccessControl.Json
