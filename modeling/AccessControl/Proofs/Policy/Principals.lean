import AccessControl.Proofs.Policy.Answers
import AccessControl.Proofs.Policy.Literals

/-!
# Policies for named principals

A policy may name the roles, groups and subjects that it is for. These names and the bare id of the
subject are matched as one kind of text. No two principals have the same name
(`Principal.name_injective`), so a role, a group or a subject with its kind is never taken for
another principal; the bare id is matched too and may be any text, so it may be the name of a
principal that the identity is not. Apart from that a policy for named
principals is selected for these principals only (`selected_for_principals`).
-/

namespace AccessControl

/-- What a policy may name: a role, a group, or a subject of a kind. -/
inductive Principal
  | role (r : Role)
  | group (g : String)
  | subject (kind : SubjectKind) (id : SubjectId)

namespace Principal

/-- The pattern that names the principal. -/
def name : Principal → String
  | role r => "role:" ++ r.name
  | group g => "group:" ++ g
  | subject kind id => kind.name ++ ":" ++ id.text

/-- A name tells what it is the name of. -/
theorem name_injective {x y : Principal} (h : x.name = y.name) : x = y := by
  have hlist := congrArg String.toList h
  cases x with
  | role r =>
    cases y with
    | role r' =>
      obtain ⟨n⟩ := r
      obtain ⟨n'⟩ := r'
      simpa [name, String.ext_iff] using hlist
    | group g => simp [name] at hlist
    | subject kind id => cases kind <;> simp [name, SubjectKind.name] at hlist
  | group g =>
    cases y with
    | role r => simp [name] at hlist
    | group g' => simpa [name, String.ext_iff] using hlist
    | subject kind id => cases kind <;> simp [name, SubjectKind.name] at hlist
  | subject kind id =>
    obtain ⟨t⟩ := id
    cases y with
    | role r => cases kind <;> simp [name, SubjectKind.name] at hlist
    | group g => cases kind <;> simp [name, SubjectKind.name] at hlist
    | subject kind' id' =>
      obtain ⟨t'⟩ := id'
      cases kind <;> cases kind' <;>
        simp [name, SubjectKind.name, String.ext_iff] at hlist ⊢ <;> exact hlist

end Principal

namespace Identity

/-- The identity has the role, is in the group, or is the subject. -/
def Is (i : Identity) : Principal → Prop
  | .role r => r ∈ i.roles
  | .group g => g ∈ i.groups
  | .subject kind id => i.subject.kind = kind ∧ i.subject.id = id

instance (i : Identity) : (x : Principal) → Decidable (i.Is x)
  | .role r => inferInstanceAs (Decidable (r ∈ i.roles))
  | .group g => inferInstanceAs (Decidable (g ∈ i.groups))
  | .subject kind id => inferInstanceAs (Decidable (i.subject.kind = kind ∧ i.subject.id = id))

end Identity

namespace Request

variable {q : Request}

/-- The texts for subjects are the bare id and the names of the principals that the identity is. -/
theorem mem_subjectNames {t : String} : t ∈ q.subjectNames ↔
    t = q.identity.subject.id.text ∨ ∃ x, q.identity.Is x ∧ t = x.name := by
  simp only [subjectNames, List.cons_append, List.mem_cons, List.mem_append, List.mem_map,
    SortedSet.mem_toList]
  refine or_congr_right ⟨?_, ?_⟩
  · rintro (rfl | ⟨r, hr, rfl⟩ | ⟨g, hg, rfl⟩)
    · exact ⟨.subject _ _, ⟨rfl, rfl⟩, rfl⟩
    · exact ⟨.role r, hr, rfl⟩
    · exact ⟨.group g, hg, rfl⟩
  · rintro ⟨x, hx, rfl⟩
    cases x with
    | role r => exact .inr (.inl ⟨r, hx, rfl⟩)
    | group g => exact .inr (.inr ⟨g, hx, rfl⟩)
    | subject kind id =>
      obtain ⟨rfl, rfl⟩ := hx
      exact .inl rfl

/-- Plain names of principals fit a subject that is one of them, or whose bare id is one of the
names. -/
theorem anyAccepts_names {l : List Principal} (hplain : ∀ x ∈ l, Glob.IsPlain x.name) :
    Glob.AnyAccepts (l.map Principal.name) q.subjectNames ↔
      (∃ x ∈ l, q.identity.Is x) ∨ ∃ x ∈ l, q.identity.subject.id.text = x.name := by
  have hfits : Glob.AnyAccepts (l.map Principal.name) q.subjectNames ↔
      ∃ x ∈ l, x.name ∈ q.subjectNames := by
    unfold Glob.AnyAccepts
    constructor
    · rintro ⟨_, hpattern, t, ht, haccepts⟩
      obtain ⟨x, hx, rfl⟩ := List.mem_map.1 hpattern
      rw [Glob.accepts_plain (hplain x hx)] at haccepts
      exact ⟨x, hx, haccepts ▸ ht⟩
    · rintro ⟨x, hx, hname⟩
      exact ⟨_, List.mem_map.2 ⟨x, hx, rfl⟩, _, hname, (Glob.accepts_plain (hplain x hx)).2 rfl⟩
  rw [hfits]
  constructor
  · rintro ⟨x, hx, hname⟩
    rcases mem_subjectNames.1 hname with hid | ⟨y, hy, hxy⟩
    · exact .inr ⟨x, hx, hid.symm⟩
    · obtain rfl := Principal.name_injective hxy
      exact .inl ⟨x, hx, hy⟩
  · rintro (⟨x, hx, his⟩ | ⟨x, hx, hid⟩)
    · exact ⟨x, hx, mem_subjectNames.2 (.inr ⟨x, his, rfl⟩)⟩
    · exact ⟨x, hx, mem_subjectNames.2 (.inl hid.symm)⟩

end Request

namespace PolicyStore

/-- A policy for principals under plain names is selected only if the identity is one of them, or
its bare id is letter for letter one of the names. -/
theorem selected_for_principals {es : List PolicyEdit} {q : Request} {s : StoredPolicy}
    {l : List Principal} (hs : s ∈ (after es).applicable q)
    (hl : s.policy.subjects = l.map Principal.name) (hplain : ∀ x ∈ l, Glob.IsPlain x.name) :
    (∃ x ∈ l, q.identity.Is x) ∨ ∃ x ∈ l, q.identity.subject.id.text = x.name := by
  obtain ⟨i, hi, -⟩ := (mem_applicable es q s).1 hs
  have hsubject := hi.fits.subject
  rw [hl] at hsubject
  exact (Request.anyAccepts_names hplain).1 hsubject

namespace Sample

/-- For administrators, whatever they do. -/
def forAdmins : Policy :=
  (((Policy.new "admins" ⟨"acme"⟩ .allow default).addSubjects ["role:admin"]).addResources
    ["*"]).addActions ["*"]

/-- A subject of one tenant and application asks for a document. -/
def asking (id : String) (roles : List Role) : Request where
  identity := (Identity.bare
    { id := ⟨id⟩, tenant := ⟨"acme"⟩, kind := .user, principal := id
      attributes := .ofList [("app_id", .str "portal")] } ⟨"portal"⟩).withRoles roles
  resource := .new ⟨"acme"⟩ "documents"
  action := "delete"
  context := .empty

/-- One who has the role is selected as one who has it. -/
theorem selected_for_principals_admin :
    let q := asking "alice" [⟨"admin"⟩]
    q.identity.Is (.role ⟨"admin"⟩) ∨ q.identity.subject.id.text = "role:admin" := by
  intro q
  have hmem : forAdmins ∈ ((after [.insert forAdmins]).applicable q).map (·.policy) := by
    decide +kernel
  obtain ⟨s, hs, hpolicy⟩ := List.mem_map.1 hmem
  have hsubjects : s.policy.subjects = [Principal.role ⟨"admin"⟩].map Principal.name := by
    rw [hpolicy]
    decide
  have hplain : ∀ x ∈ [Principal.role ⟨"admin"⟩], Glob.IsPlain x.name := by decide
  rcases selected_for_principals hs hsubjects hplain with ⟨x, hx, his⟩ | ⟨x, hx, hid⟩
  · obtain rfl := List.mem_singleton.1 hx
    exact .inl his
  · obtain rfl := List.mem_singleton.1 hx
    exact .inr hid

/-- A subject may bear the name of a role as its id; it is then selected without the role. -/
theorem bare_id_selected :
    let q := asking "role:admin" []
    Subject.ofClaims (.forSubject "role:admin" "acme" "portal") = .ok q.identity.subject ∧
      forAdmins.subjects = [Principal.role ⟨"admin"⟩].map Principal.name ∧
      Glob.IsPlain (Principal.role ⟨"admin"⟩).name ∧
      ((after [.insert forAdmins]).applicable q).map (·.policy) = [forAdmins] ∧
      (answer [.insert forAdmins] .denyOverrides default q default).map (·.allowed) = .ok true ∧
      ¬q.identity.Is (.role ⟨"admin"⟩) := by
  exact ⟨by decide +kernel, by decide, by decide, by decide +kernel, by decide +kernel, by decide⟩

end Sample

end PolicyStore

end AccessControl
