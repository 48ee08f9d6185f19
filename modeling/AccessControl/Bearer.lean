import AccessControl.Text.Blank
import AccessControl.Text.Split

/-!
# Bearer credentials

The value in a header `Bearer <value>`: the scheme in any case, blanks around it and around the
value, but none inside.
-/

namespace AccessControl.Bearer

def scheme : List Char := ['b', 'e', 'a', 'r', 'e', 'r']

def isScheme (s : List Char) : Bool := s.map Char.toLower == scheme

def value? (header : String) : Option String :=
  match Text.cut ' ' (Text.trimEnd (Text.trimStart header.toList)) with
  | (s, some rest) =>
    let v := Text.trimEnd (Text.trimStart rest)
    if isScheme s && !v.isEmpty && !v.any Text.isSpace then some (String.ofList v) else none
  | (_, none) => none

end AccessControl.Bearer
