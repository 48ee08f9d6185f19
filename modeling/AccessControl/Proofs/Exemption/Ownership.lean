import AccessControl.Proofs.Model.Nesting
import AccessControl.Proofs.Request.Paths

/-!
# Owners and the paths to them

The exemption of owners looks its field up among the attributes of the resource, by the whole name.
So does a path with a name that has no dots and is not built in (`lookup_plain`), and then a subject
is exempt iff the path leads to it. With every other name there is a request that is exempt though
the path does not lead to the subject (`lookup_hidden`): a built-in name hides the attribute from the
path, and one with dots is taken apart. A path with dots may also lead to an owner that the
exemption does not see (`nested_owner_unseen`).
-/

namespace AccessControl.Exemption

open Request

variable {q : Request} {field person : String}

/-- A name that paths do not take for anything but the name of an attribute. -/
def PlainName (field : String) : Prop := field ∉ resourceBuiltIns ∧ '.' ∉ field.toList

theorem splitString_resource (field : String) :
    Text.splitString '.' ("resource." ++ field) = "resource" :: Text.splitString '.' field :=
  splitString_dot "resource" field

theorem lookup_plain (h : PlainName field) :
    q.lookup ("resource." ++ field) = q.resource.attributes.get? field := by
  have hbuiltIn : ¬IsBuiltIn "resource" field := by
    rintro (⟨hroot, -⟩ | ⟨-, hmem⟩)
    · exact absurd hroot (by decide)
    · exact h.1 hmem
  have hpath : "resource." ++ field = "resource" ++ "." ++ field := rfl
  rw [hpath, lookup_attribute q hbuiltIn (by decide) h.2]
  rfl

/-- A document with nothing but an owner, under one attribute. -/
def ownDocument (field person : String) : Request where
  identity := Identity.bare { (default : Subject) with id := ⟨person⟩ } default
  resource := (Resource.new default "").withAttribute field (.str person)
  action := "read"
  context := .empty

theorem get?_ownDocument (field person name : String) :
    (ownDocument field person).resource.attributes.get? name =
      if name = field then some (.str person) else none := by
  simp [ownDocument, Resource.withAttribute, Resource.new]

theorem lookup_hidden (hperson : person ≠ "") (h : ¬PlainName field) :
    (ownDocument field person).lookup ("resource." ++ field) ≠ some (.str person) := by
  rw [lookup, splitString_resource]
  by_cases hdot : '.' ∈ field.toList
  · -- the first piece of the name is no attribute of the document
    obtain ⟨head, name, rest, hnames⟩ := Text.exists_splitString_of_mem hdot
    have hhead : head ≠ field := by
      rintro rfl
      exact Text.not_mem_of_mem_splitString (s := head) (by simp [hnames]) hdot
    rw [hnames, lookupNames_cons fun hnil => by cases hnil]
    simp [attribute?, get?_ownDocument, hhead]
  · have hmem : field ∈ resourceBuiltIns := by
      by_contra hmem
      exact h ⟨hmem, hdot⟩
    rw [Text.splitString_of_not_mem hdot]
    simp only [resourceBuiltIns, List.mem_cons, List.not_mem_nil, or_false] at hmem
    -- of itself the document has no identifier and no application, and empty texts otherwise
    have hempty : some (Json.str "") ≠ some (.str person) := by simpa using hperson.symm
    have hmissing : none ≠ some (Json.str person) := (Option.some_ne_none _).symm
    rcases hmem with rfl | rfl | rfl | rfl
    · exact hempty
    · exact hmissing
    · exact hempty
    · exact hmissing

/-- Owners are those whose identifier stands, as a text, under the field among the attributes of the
resource. Exactly with plain names this is where the path of that name leads, for all requests. -/
theorem owner_by_path_iff (field : String) :
    (∀ (actions : List String) (q : Request) (now : Instant),
      ((owner actions field).permits? q now).isSome ↔
        q.action ∈ actions ∧
          q.resource.attributes.get? field = some (.str q.identity.subject.id.text)) ∧
    ((∀ (actions : List String) (q : Request) (now : Instant),
      ((owner actions field).permits? q now).isSome ↔
        q.action ∈ actions ∧
          q.lookup ("resource." ++ field) = some (.str q.identity.subject.id.text)) ↔
      field ∉ resourceBuiltIns ∧ '.' ∉ field.toList) := by
  refine ⟨fun actions q now => isSome_permits? _, fun h => ?_, fun h actions q now => ?_⟩
  · by_contra hplain
    have hexempt : ((owner ["read"] field).permits? (ownDocument field "alice") default).isSome := by
      refine (isSome_permits? _).2 ⟨List.mem_singleton_self _, ?_⟩
      rw [get?_ownDocument, if_pos rfl]
      rfl
    have hhidden : (ownDocument field "alice").lookup ("resource." ++ field) ≠ some (.str "alice") :=
      lookup_hidden (by decide) hplain
    exact hhidden ((h _ _ _).1 hexempt).2
  · rw [lookup_plain h]
    exact isSome_permits? _

/-- The exemption that is granted where nothing else is set up reads a plain name. -/
example : PlainName defaultOwnerAttribute := by unfold PlainName; decide

namespace Sample

/-- Alice asks for a document whose owner is noted inside an attribute. -/
def nested : Request where
  identity := Identity.bare { (default : Subject) with id := ⟨"alice"⟩ } default
  resource := (Resource.new default "documents").withAttribute "meta"
    (.obj [("owner", .str "alice")])
  action := "read"
  context := .empty

theorem nested_owner_unseen :
    nested.lookup "resource.meta.owner" = some (.str nested.identity.subject.id.text) ∧
      (owner ["read"] "meta.owner").permits? nested default = none := by
  decide +kernel

end Sample

end AccessControl.Exemption
