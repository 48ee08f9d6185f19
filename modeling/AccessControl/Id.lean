import AccessControl.Order.Keyed
import AccessControl.Text.Blank

/-!
# Identifiers

Names given to tenants, applications, subjects and tokens. The kind of a name is part of its type,
so a name of one kind is never taken for another; the text itself is free, and only `Id.parse?`
refuses a blank one.
-/

namespace AccessControl

inductive IdKind
  | tenant
  | app
  | subject
  | token
  deriving DecidableEq, Repr

def IdKind.label : IdKind → String
  | .tenant => "TenantId"
  | .app => "AppId"
  | .subject => "SubjectId"
  | .token => "TokenId"

structure Id (kind : IdKind) where
  text : String
  deriving DecidableEq, Repr

abbrev TenantId := Id .tenant
abbrev AppId := Id .app
abbrev SubjectId := Id .subject
abbrev TokenId := Id .token

namespace Id

variable {kind : IdKind}

instance : Inhabited (Id kind) := ⟨⟨""⟩⟩

instance : Keyed (Id kind) where
  key i := [i.text]
  key_inj {a b} h := by cases a; cases b; simpa using h

def isBlank (i : Id kind) : Bool := Text.isBlank i.text

/-- The name written in a text, without the white space around it. -/
def parse? (kind : IdKind) (s : String) : Option (Id kind) :=
  let t := Text.trim s
  if t.isEmpty then none else some ⟨t⟩

def blankMessage (kind : IdKind) : String :=
  "invalid identifier " ++ kind.label ++ ": must not be empty"

end Id

end AccessControl
