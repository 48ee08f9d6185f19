import AccessControl.AttributePath

/-!
# What attribute paths lead to

Behind its first two names a path descends into objects name by name, so a longer path leads to a
field of what the shorter one leads to (`lookupNames_concat`). The built-in paths are the exception
(`paths_descend`): they lead to what a subject or resource has of itself, which is never an object
(`builtIn_not_object`), but one name more leads into the attribute that is called like the built-in
name (`name_below_identifier`).
-/

namespace AccessControl.Request

variable {r : Request} {root name k : String} {rest : List String}

/-! ### Built-in names -/

/-- The names that a subject has of itself. -/
def subjectBuiltIns : List String :=
  ["id", "tenant_id", "app_id", "type", "principal", "roles", "permissions", "groups"]

/-- The names that a resource has of itself. -/
def resourceBuiltIns : List String := ["type", "id", "tenant_id", "app_id"]

def IsBuiltIn (root name : String) : Prop :=
  root = "subject" ∧ name ∈ subjectBuiltIns ∨ root = "resource" ∧ name ∈ resourceBuiltIns

instance : Decidable (IsBuiltIn root name) := inferInstanceAs (Decidable (_ ∨ _))

/-- The path to what a subject or resource has of itself. -/
def BuiltInPath (p : String) : Prop := ∃ root name, IsBuiltIn root name ∧ p = root ++ "." ++ name

theorem subjectBuiltIn?_eq_none {i : Identity} :
    subjectBuiltIn? i name = none ↔ name ∉ subjectBuiltIns := by
  simp only [subjectBuiltIn?, subjectBuiltIns]
  repeat' split
  all_goals simp_all

theorem resourceBuiltIn?_eq_none {s : Resource} :
    resourceBuiltIn? s name = none ↔ name ∉ resourceBuiltIns := by
  simp only [resourceBuiltIn?, resourceBuiltIns]
  repeat' split
  all_goals simp_all

theorem builtIn_not_object (h : IsBuiltIn root name) (fields : List (String × Json)) :
    r.lookupNames [root, name] ≠ some (.obj fields) := by
  rcases h with ⟨rfl, h⟩ | ⟨rfl, h⟩
  · simp only [subjectBuiltIns, List.mem_cons, List.not_mem_nil, or_false] at h
    rcases h with rfl | rfl | rfl | rfl | rfl | rfl | rfl | rfl <;>
      simp [lookupNames, subjectBuiltIn?, Json.ofStrings]
  · simp only [resourceBuiltIns, List.mem_cons, List.not_mem_nil, or_false] at h
    rcases h with rfl | rfl | rfl | rfl <;> simp [lookupNames, resourceBuiltIn?]

/-! ### Names behind names -/

/-- What is kept under the second name of a path, beside what the subject or resource has of
itself: an attribute or profile field, an attribute of the resource, or an entry of the context. -/
def attribute? (r : Request) (root name : String) : Option Json :=
  if root = "subject" then subjectAttribute? r.identity name
  else if root = "resource" then r.resource.attributes.get? name
  else if root = "context" then r.context.get? name
  else none

theorem lookupNames_cons (h : rest = [] → ¬IsBuiltIn root name) :
    r.lookupNames (root :: name :: rest) = (r.attribute? root name).bind (descend · rest) := by
  by_cases hsubject : root = "subject"
  · subst hsubject
    cases rest with
    | nil =>
      have hnone : subjectBuiltIn? r.identity name = none :=
        subjectBuiltIn?_eq_none.2 fun hmem => h rfl (.inl ⟨rfl, hmem⟩)
      simp only [lookupNames, hnone]
      rfl
    | cons => rfl
  · by_cases hresource : root = "resource"
    · subst hresource
      cases rest with
      | nil =>
        have hnone : resourceBuiltIn? r.resource name = none :=
          resourceBuiltIn?_eq_none.2 fun hmem => h rfl (.inr ⟨rfl, hmem⟩)
        simp only [lookupNames, hnone]
        rfl
      | cons => rfl
    · by_cases hcontext : root = "context"
      · subst hcontext
        rfl
      · simp [lookupNames, attribute?, hsubject, hresource, hcontext]

theorem descend_append (v : Json) (names : List String) (k : String) :
    descend v (names ++ [k]) = (descend v names).bind (·.field? k) := by
  induction names generalizing v with
  | nil =>
    simp only [List.nil_append, descend, Option.bind_some]
    cases v.field? k <;> rfl
  | cons name names ih =>
    rw [List.cons_append, descend, descend]
    cases v.field? name with
    | none => rfl
    | some w => exact ih w

/-- One name more leads to the field of that name, whatever the names before it lead to. -/
theorem lookupNames_concat (h : rest = [] → ¬IsBuiltIn root name) :
    r.lookupNames (root :: name :: rest ++ [k]) =
      (r.lookupNames (root :: name :: rest)).bind (·.field? k) := by
  have hrest : rest ++ [k] = [] → ¬IsBuiltIn root name := fun hnil => by simp at hnil
  rw [lookupNames_cons h, List.cons_append, List.cons_append, lookupNames_cons hrest]
  simp only [descend_append, Option.bind_assoc]

/-! ### Dotted texts -/

theorem splitString_dot (p q : String) :
    Text.splitString '.' (p ++ "." ++ q) = Text.splitString '.' p ++ Text.splitString '.' q :=
  Text.splitString_append '.' p q

theorem lookup_dot (r : Request) (p : String) (hk : '.' ∉ k.toList) :
    r.lookup (p ++ "." ++ k) = r.lookupNames (Text.splitString '.' p ++ [k]) := by
  rw [lookup, splitString_dot, Text.splitString_of_not_mem hk]

/-- A name without dots that is not built in leads to the attribute of that name. -/
theorem lookup_attribute (r : Request) (h : ¬IsBuiltIn root name) (hroot : '.' ∉ root.toList)
    (hname : '.' ∉ name.toList) : r.lookup (root ++ "." ++ name) = r.attribute? root name := by
  rw [lookup_dot r root hname, Text.splitString_of_not_mem hroot, List.cons_append, List.nil_append,
    lookupNames_cons fun _ => h]
  exact Option.bind_fun_some _

theorem splitString_builtIn (h : IsBuiltIn root name) :
    Text.splitString '.' (root ++ "." ++ name) = [root, name] := by
  have hplain : ∀ s ∈ ["subject", "resource"] ++ subjectBuiltIns ++ resourceBuiltIns,
      '.' ∉ s.toList := by decide
  have hroot : '.' ∉ root.toList := hplain root (by rcases h with ⟨rfl, -⟩ | ⟨rfl, -⟩ <;> simp)
  have hname : '.' ∉ name.toList := hplain name (by rcases h with ⟨-, h⟩ | ⟨-, h⟩ <;> simp [h])
  rw [splitString_dot, Text.splitString_of_not_mem hroot, Text.splitString_of_not_mem hname]
  rfl

/-- No other path has the two names of a built-in path. -/
theorem builtInPath_of_split {p : String} (h : IsBuiltIn root name)
    (hp : Text.splitString '.' p = [root, name]) : BuiltInPath p :=
  ⟨root, name, h, Text.splitString_inj (hp.trans (splitString_builtIn h).symm)⟩

theorem bind_field?_eq_some {o : Option Json} {v : Json} : o.bind (·.field? k) = some v ↔
    ∃ fields, o = some (.obj fields) ∧ (Json.obj fields).field? k = some v := by
  rcases o with _ | j
  · simp
  · cases j <;> simp [Json.field?]

/-- A path of two names or more and one name behind it lead to a value iff the path leads to an
object with that value under the name, unless the path is built in. A built-in path leads to no
object, and with a name behind it into the attribute that has the built-in name. -/
theorem paths_descend (r : Request) (k : String) (hk : '.' ∉ k.toList) :
    (∀ (p : String) (v : Json), '.' ∈ p.toList → ¬BuiltInPath p →
      (r.lookup (p ++ "." ++ k) = some v ↔
        ∃ fields, r.lookup p = some (.obj fields) ∧ (Json.obj fields).field? k = some v)) ∧
    ∀ root name, IsBuiltIn root name →
      (∀ fields, r.lookup (root ++ "." ++ name) ≠ some (.obj fields)) ∧
      r.lookup (root ++ "." ++ name ++ "." ++ k) = (r.attribute? root name).bind (·.field? k) := by
  refine ⟨fun p v hp hbuiltIn => ?_, fun root name h => ⟨fun fields => ?_, ?_⟩⟩
  · obtain ⟨root, name, rest, hnames⟩ := Text.exists_splitString_of_mem hp
    have hplain : rest = [] → ¬IsBuiltIn root name := by
      rintro rfl h
      exact hbuiltIn (builtInPath_of_split h hnames)
    rw [lookup_dot r p hk, lookup, hnames, lookupNames_concat hplain, bind_field?_eq_some]
  · rw [lookup, splitString_builtIn h]
    exact builtIn_not_object h fields
  · rw [lookup_dot r _ hk, splitString_builtIn h]
    have hname : [k] = [] → ¬IsBuiltIn root name := fun hnil => by cases hnil
    rw [List.cons_append, List.cons_append, List.nil_append, lookupNames_cons hname]
    congr 1
    funext v
    exact descend_append v [] k

namespace Sample

/-- A subject and a document with attributes that have built-in names. -/
def shadowing : Request where
  identity := { Identity.bare { (default : Subject) with id := ⟨"alice"⟩ } default with
    profile := .ofList
      [("manager", .obj [("id", .str "carol")]), ("id", .obj [("name", .str "root")])] }
  resource := ((Resource.new default "documents").withId "d1").withAttribute "id"
    (.obj [("owner", .str "alice")])
  action := "read"
  context := .empty

theorem paths_descend_manager :
    '.' ∈ "subject.manager".toList ∧ '.' ∉ "id".toList ∧
      shadowing.lookup "subject.manager" = some (.obj [("id", .str "carol")]) ∧
      shadowing.lookup "subject.manager.id" = some (.str "carol") := by
  have hp : '.' ∈ "subject.manager".toList := by decide
  have hk : '.' ∉ "id".toList := by decide
  have hbuiltIn : ¬BuiltInPath "subject.manager" := by
    rintro ⟨root, name, h, hpath⟩
    have hsplit : Text.splitString '.' "subject.manager" = ["subject", "manager"] := by decide
    have hnames := splitString_builtIn h
    rw [← hpath, hsplit] at hnames
    cases hnames
    exact absurd h (by decide)
  have hmanager : shadowing.lookup "subject.manager" = some (.obj [("id", .str "carol")]) := by
    decide +kernel
  exact ⟨hp, hk, hmanager, ((paths_descend shadowing "id" hk).1 "subject.manager" _ hp hbuiltIn).2
    ⟨_, hmanager, rfl⟩⟩

/-- Identifiers are texts, and yet attributes with their names supply values below them. -/
theorem name_below_identifier :
    shadowing.lookup "subject.id" = some (.str "alice") ∧
      shadowing.lookup "subject.id.name" = some (.str "root") ∧
      shadowing.lookup "resource.id" = some (.str "d1") ∧
      shadowing.lookup "resource.id.owner" = some (.str "alice") := by
  decide +kernel

end Sample

end AccessControl.Request
