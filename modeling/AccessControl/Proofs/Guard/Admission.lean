import AccessControl.Guard
import AccessControl.Proofs.Identity.Consultation
import AccessControl.Proofs.Token.Issued

/-!
# What stands behind an admission

A guard with a model admits a caller only if every stage vouched for the same token
(`Guard.Warranted`), and only if nothing that it relied on failed: the same caller is admitted with
the same decision where nothing fails (`Guard.admission_warranted`).
-/

namespace AccessControl

/-- Every store that answers under `r` answers the same under `r'`. -/
structure Rights.ExtendedBy (r r' : Rights) : Prop where
  roles : ∀ t, r.roles = .ok t → r'.roles = .ok t
  accessList : ∀ l, r.accessList = .ok l → r'.accessList = .ok l
  policies : ∀ s, r.policies = .ok s → r'.policies = .ok s

/-- A model reaches its decision only with stores that answer. -/
theorem Model.evaluate_extended {r r' : Rights} (h : r.ExtendedBy r') {q : Request} {now : Instant}
    {m : Model} {d : Decision} (hd : m.evaluate r q now = .ok d) : m.evaluate r' q now = .ok d := by
  induction m generalizing d with
  | roles =>
    rw [Model.evaluate] at hd ⊢
    obtain ⟨t, ht, rfl⟩ := Except.map_eq_ok.1 hd
    rw [h.roles t ht]
    rfl
  | rules l => exact hd
  | accessList =>
    rw [Model.evaluate] at hd ⊢
    obtain ⟨l, hl, rfl⟩ := Except.map_eq_ok.1 hd
    rw [h.accessList l hl]
    rfl
  | policies a =>
    rw [Model.evaluate] at hd ⊢
    obtain ⟨s, hs, rfl⟩ := Except.map_eq_ok.1 hd
    rw [h.policies s hs]
    rfl
  | hybrid inner constraints exemptions ih =>
    rw [Model.evaluate] at hd ⊢
    obtain ⟨base, hbase, rfl⟩ := Except.map_eq_ok.1 hd
    rw [ih hbase]
    rfl

/-- The pipeline of a model allows what lies in scope and the model allows. -/
theorem Pipeline.ofModel_allowed {m : Model} {rights : Rights} {now : Instant} {q : Request}
    {d : Decision} :
    ((Pipeline.ofModel m).run rights now q = .ok d ∧ d.allowed = true) ↔
      q.InScope ∧ m.evaluate rights q now = .ok d ∧ d.allowed = true := by
  unfold run ofModel
  rw [runAfter_cons, Stage.tenantScope]
  cases hscope : q.outOfScope? "tenant_scope" with
  | some denial =>
    have hdenied := Request.allowed_of_outOfScope? hscope
    simp only [Option.getD_some, hdenied]
    constructor
    · rintro ⟨h, hallowed⟩
      obtain rfl := Except.ok.inj h
      rw [hdenied] at hallowed
      cases hallowed
    · rintro ⟨hin, -⟩
      rw [Request.outOfScope?_eq_none.2 hin] at hscope
      cases hscope
  | none =>
    have hin := Request.outOfScope?_eq_none.1 hscope
    have hdecide : m.decide rights q now = m.evaluate rights q now := by
      simp [Model.decide, Request.outOfScope?_eq_none.2 hin]
    simp only [Option.getD_none, Decision.allowed_allow, if_true, runAfter_cons, Stage.model,
      hdecide]
    cases m.evaluate rights q now <;> simp [hin, runAfter]

namespace Deployment

/-- The deployment where nothing fails any more: calls are answered, and so are the stores of the
models. -/
def reliable (d : Deployment) (rights : Rights) : Deployment :=
  { d with lines := d.lines.reliable, rights }

variable {d d' : Deployment} {ended : Option Cancelled} {α : Type}

theorem run_reliable {p : Procedure (Except TokenError α)} (hp : p.FailsFast) {x : α}
    (h : d.run ended p = (.done (.ok x), d')) (ended' : Option Cancelled) (rights : Rights) :
    (d.reliable rights).run ended' p = (.done (.ok x), d'.reliable rights) := by
  unfold Deployment.run at h ⊢
  rcases hrun : p.run (Backend.respond ended) (d.backend, d.lines) with ⟨y, b, ls⟩
  rw [hrun] at h
  obtain ⟨rfl, rfl⟩ : y = .done (.ok x) ∧ _ = d' := by simpa using h
  have hreliable := Procedure.run_reliable hp ended' hrun
  simp only [reliable] at hreliable ⊢
  rw [hreliable]

theorem identify_reliable {sources : Sources} {s : Subject} {i : Identity}
    (h : d.identify sources ended s = (.done (.ok i), d')) (ended' : Option Cancelled)
    {rights : Rights} (hrights : d.rights.ExtendedBy rights) :
    (d.reliable rights).identify sources ended' s = (.done (.ok i), d'.reliable rights) := by
  unfold Deployment.identify at h ⊢
  rcases hresolve : (d.providers sources).resolve d.clock ended s d.cache d.lines with
    ⟨y, cache, ls⟩
  rw [hresolve] at h
  obtain ⟨rfl, rfl⟩ : y = .done (.ok i) ∧ _ = d' := by simpa using h
  have hproviders : (d.providers sources).ExtendedBy ((d.reliable rights).providers sources) :=
    ⟨rfl, rfl, hrights.roles⟩
  have hreliable := hproviders.resolve ended' hresolve
  simp only [reliable, clock] at hreliable ⊢
  rw [hreliable]

theorem identify_ok {sources : Sources} {s : Subject} {i : Identity}
    (h : d.identify sources ended s = (.done (.ok i), d')) :
    ∃ app e, s.app? = some app ∧ i = Entitlements.identity e s app := by
  unfold Deployment.identify at h
  rcases hresolve : (d.providers sources).resolve d.clock ended s d.cache d.lines with
    ⟨y, cache, ls⟩
  rw [hresolve] at h
  obtain ⟨rfl, -⟩ : y = .done (.ok i) ∧ _ = d' := by simpa using h
  obtain ⟨app, e, happ, hi, -⟩ := Providers.resolve_source hresolve
  exact ⟨app, e, happ, hi⟩

/-- Running a procedure changes neither the clock nor the stores of the models. -/
theorem run_frame {p : Procedure α} {x : Outcome α} (h : d.run ended p = (x, d')) :
    d'.clock = d.clock ∧ d'.rights = d.rights := by
  obtain ⟨-, rfl⟩ : _ = x ∧ _ = d' := by simpa [Deployment.run] using h
  exact ⟨Procedure.run_clock p ended d.backend d.lines, rfl⟩

theorem identify_frame {sources : Sources} {s : Subject} {x : Outcome (Except IdentityError Identity)}
    (h : d.identify sources ended s = (x, d')) : d'.clock = d.clock ∧ d'.rights = d.rights := by
  obtain ⟨-, rfl⟩ : _ = x ∧ _ = d' := by simpa [Deployment.identify] using h
  exact ⟨rfl, rfl⟩

/-- Over lines that tell no lies, verification gives the verdict on what the backend keeps. -/
theorem verdict_of_run {tokens : TokenManager} {value : String}
    {x : Except VerificationFailure Verified} (hls : d.lines.Truthful)
    (h : d.run ended (tokens.verify value).run = (.done (.ok x), d')) :
    tokens.verdict d.backend value = x := by
  have hreliable := run_reliable (tokens.failsFast_verify value) h none d.rights
  obtain ⟨ls, hrun⟩ := Procedure.run_undisturbed (tokens.verify value).run none hls.undisturbed
    (b := d.backend)
  have hexec := TokenManager.exec_verify tokens d.backend value
  rw [Backend.exec] at hexec
  rw [hexec] at hrun
  rw [Deployment.run, reliable, hrun] at hreliable
  simpa using congrArg Prod.fst hreliable

end Deployment

namespace Guard

variable {g : Guard} {d : Deployment} {ended : Option Cancelled} {value : String} {t : Intent}
  {a : Admission}

theorem holder_ok {v : Verified} {s : Subject} {session : Session}
    (h : holder (.ok v) = .ok (s, session)) :
    v.details.kind = .access ∧ Subject.ofClaims v.claims = .ok s ∧
      session = ⟨v.details.id, v.details.issuedAt, v.details.expiresAt⟩ := by
  unfold holder at h
  simp only at h
  split at h
  · cases h
  next hkind =>
    split at h
    · cases h
    next s' hs =>
      obtain ⟨rfl, rfl⟩ : s' = s ∧ _ = session := by simpa using h
      exact ⟨by simpa using hkind, hs, rfl⟩

theorem authorizeIdentity_ok {rights : Rights} {now : Instant} {i : Identity} :
    g.authorizeIdentity rights now i t = .ok (.ok a) ↔
      a.identity = i ∧ g.pipeline.run rights now ⟨i, t.resource, t.action, t.context⟩ =
        .ok a.decision ∧ a.decision.allowed = true := by
  unfold authorizeIdentity
  cases g.pipeline.run rights now ⟨i, t.resource, t.action, t.context⟩ with
  | error e => simp
  | ok dec =>
    obtain ⟨i', dec'⟩ := a
    by_cases hdec : dec.allowed = true
    · simp only [hdec, if_true]
      constructor
      · rintro h
        cases h
        exact ⟨rfl, rfl, hdec⟩
      · rintro ⟨rfl, h, -⟩
        rw [Except.ok.inj h]
    · simp only [hdec]
      constructor
      · rintro h
        cases h
      · rintro ⟨-, h, h'⟩
        exact absurd (Except.ok.inj h ▸ h') hdec

/-- An admission comes of all stages in turn. -/
theorem authorize_admitted :
    (g.authorize d ended value t).1 = .done (.ok (.ok a)) ↔
      ∃ v d₁ s session i d₂,
        d.run ended (g.tokens.verify value).run = (.done (.ok (.ok v)), d₁) ∧
        holder (.ok v) = .ok (s, session) ∧
        d₁.identify g.sources ended s = (.done (.ok i), d₂) ∧
        g.authorizeIdentity d₂.rights d₂.clock { i with session := some session } t =
          .ok (.ok a) := by
  unfold authorize
  constructor
  · intro h
    rcases hverify : d.run ended (g.tokens.verify value).run with ⟨(e | x) | _ | _, d₁⟩
    · simp [hverify] at h
    · simp only [hverify] at h
      cases hholder : holder x with
      | error r => simp [hholder] at h
      | ok held =>
        obtain ⟨s, session⟩ := held
        obtain ⟨v, rfl⟩ : ∃ v, x = .ok v := by
          cases x with
          | error f => cases hholder
          | ok v => exact ⟨v, rfl⟩
        simp only [hholder] at h
        rcases hidentify : d₁.identify g.sources ended s with ⟨(e | i) | _ | _, d₂⟩
        · rw [hidentify] at h
          cases e <;> simp [identified] at h
        · rw [hidentify] at h
          refine ⟨v, d₁, s, session, i, d₂, rfl, hholder, hidentify, ?_⟩
          simpa [identified] using h
        · simp [hidentify] at h
        · simp [hidentify] at h
    · simp [hverify] at h
    · simp [hverify] at h
  · rintro ⟨v, d₁, s, session, i, d₂, hverify, hholder, hidentify, hdecided⟩
    simp only [hverify, hholder, hidentify, identified, hdecided]

/-- A verified access token, the identity that its claims name, the session that it opens, a resource
in scope and the consent of the model. -/
structure Warranted (tokens : TokenManager) (m : Model) (d : Deployment) (ended : Option Cancelled)
    (value : String) (t : Intent) (v : Verified) (a : Admission) : Prop where
  verified : (d.run ended (tokens.verify value).run).1 = .done (.ok (.ok v))
  kind : v.details.kind = .access
  subject : v.claims.subject? = some a.identity.subject.id
  tenant : v.claims.tenant? = some a.identity.tenant
  subjectTenant : a.identity.subject.tenant = a.identity.tenant
  app : v.claims.app? = some a.identity.app
  session : a.identity.session = some ⟨v.details.id, v.details.issuedAt, v.details.expiresAt⟩
  resourceTenant : t.resource.tenant = a.identity.tenant
  resourceApp : ∀ app ∈ t.resource.app, app = a.identity.app
  evaluated : m.evaluate d.rights ⟨a.identity, t.resource, t.action, t.context⟩ d.clock =
    .ok a.decision
  allowed : a.decision.allowed = true

/-- Whatever is disturbed, an admission is warranted, and it is the one that is given where nothing
fails. -/
theorem admission_warranted {tokens : TokenManager} {sources : Sources} {m : Model}
    {d : Deployment} {ended : Option Cancelled} {value : String} {t : Intent} {a : Admission}
    (h : ((ofModel tokens sources m).authorize d ended value t).1 = .done (.ok (.ok a))) :
    ∃ v, Warranted tokens m d ended value t v a ∧
      (d.lines.Truthful → tokens.verdict d.backend value = .ok v) ∧
      ∀ ended' rights, d.rights.ExtendedBy rights →
        ((ofModel tokens sources m).authorize (d.reliable rights) ended' value t).1 =
          .done (.ok (.ok a)) := by
  obtain ⟨v, d₁, s, session, i, d₂, hverify, hholder, hidentify, hdecided⟩ :=
    authorize_admitted.1 h
  obtain ⟨hkind, hsubject, rfl⟩ := holder_ok hholder
  obtain ⟨hid, htenant, happ⟩ := Subject.ofClaims_ok hsubject
  obtain ⟨app, e, hs, rfl⟩ := Deployment.identify_ok hidentify
  obtain ⟨hclock, hrights⟩ := Deployment.run_frame hverify
  obtain ⟨hclock', hrights'⟩ := Deployment.identify_frame hidentify
  refine ⟨v, ?_, fun htruthful => ?_, fun ended' rights hextended => ?_⟩
  · obtain ⟨hidentity, hallowed⟩ := authorizeIdentity_ok.1 hdecided
    obtain ⟨hin, hevaluated, hallowed⟩ := Pipeline.ofModel_allowed.1 hallowed
    rw [hrights', hrights, hclock', hclock, ← hidentity] at hevaluated
    exact {
      verified := congrArg Prod.fst hverify
      kind := hkind
      subject := by rw [hid, hidentity]; rfl
      tenant := by rw [htenant, hidentity]; rfl
      subjectTenant := by rw [hidentity]; rfl
      app := by rw [← happ, hs, hidentity]; rfl
      session := by rw [hidentity]
      resourceTenant := by rw [hidentity]; exact hin.1
      resourceApp := by rw [hidentity]; exact hin.2
      evaluated := hevaluated
      allowed := hallowed }
  · exact Deployment.verdict_of_run htruthful hverify
  · refine authorize_admitted.2 ⟨v, d₁.reliable rights, s, _, _, d₂.reliable rights,
      Deployment.run_reliable (TokenManager.failsFast_verify ..) hverify ended' rights, hholder,
      Deployment.identify_reliable hidentify ended' (hrights ▸ hextended), ?_⟩
    obtain ⟨hidentity, hallowed⟩ := authorizeIdentity_ok.1 hdecided
    obtain ⟨hin, hevaluated, hallowed⟩ := Pipeline.ofModel_allowed.1 hallowed
    have hextended' : d₂.rights.ExtendedBy rights := hrights' ▸ hrights ▸ hextended
    exact authorizeIdentity_ok.2 ⟨hidentity, Pipeline.ofModel_allowed.2
      ⟨hin, Model.evaluate_extended hextended' hevaluated, hallowed⟩⟩

end Guard

namespace Sample

/-! ### A reader on the access list -/

variable (p : Primitives)

def entitlements : Entitlements := ⟨.ofList [⟨"reader"⟩], .empty, .empty, .empty⟩

def cache : IdentityCache :=
  ⟨SortedMap.empty.insert ⟨⟨"acme"⟩, ⟨"billing"⟩, ⟨"alice"⟩⟩ ⟨entitlements, ⟨1700000060, 0⟩⟩, 60000⟩

/-- The access list answers, the other stores are out of reach. -/
def rights : Rights where
  roles := .error (.unavailable "offline")
  accessList := .ok (AccessList.empty.grant
    ⟨⟨"acme"⟩, ⟨"billing"⟩, ⟨"alice"⟩, "invoice", "7", "read"⟩)
  policies := .error (.unavailable "offline")

def deployment : Deployment := ⟨issued p .access, .direct, .empty, some cache, rights⟩

def intent : Intent := ⟨(Resource.new ⟨"acme"⟩ "invoice").withId "7", "read", .empty⟩

def reader : Subject :=
  ⟨⟨"alice"⟩, ⟨"acme"⟩, .user, "alice", SortedMap.empty.insert Claims.appKey (.str "billing")⟩

def session : Session := ⟨(token p .access).id, (token p .access).issuedAt,
  (token p .access).expiresAt⟩

def admission : Admission where
  identity := { entitlements.identity reader ⟨"billing"⟩ with session := some (session p) }
  decision := .allow AccessList.model "explicit grant on invoice:7"

theorem run_verify_reader :
    ∃ ls, (deployment p).run none ((manager p).verify (token p .access).value).run =
      (.done (.ok (.ok ⟨claims, (token p .access).details⟩)), { deployment p with lines := ls }) := by
  have hverdict := verdict_token p .access
  have hundisturbed : Lines.direct.Undisturbed := fun _ _ h => (nomatch h)
  obtain ⟨ls, hrun⟩ := Procedure.run_undisturbed
    ((manager p).verify (token p .access).value).run none hundisturbed (b := issued p .access)
  have hexec := TokenManager.exec_verify (manager p) (issued p .access) (token p .access).value
  rw [Backend.exec, hverdict] at hexec
  rw [hexec] at hrun
  refine ⟨ls, ?_⟩
  unfold Deployment.run
  rw [show ((deployment p).backend, (deployment p).lines) = (issued p .access, .direct) from rfl,
    hrun]
  rfl

theorem holder_reader :
    Guard.holder (.ok ⟨claims, (token p .access).details⟩) = .ok (reader, session p) := rfl

/-- The cache answers, so that no line is used. -/
theorem identify_reader (ls : Lines) :
    ({ deployment p with lines := ls } : Deployment).identify .none none reader =
      (.done (.ok (entitlements.identity reader ⟨"billing"⟩)),
        { deployment p with lines := ls }) := rfl

theorem authorize_reader :
    ((Guard.ofModel (manager p) .none .accessList).authorize (deployment p) none
      (token p .access).value intent).1 = .done (.ok (.ok (admission p))) := by
  obtain ⟨ls, hverify⟩ := run_verify_reader p
  exact Guard.authorize_admitted.2
    ⟨_, _, _, _, _, _, hverify, holder_reader p, identify_reader p ls, rfl⟩

end Sample

open Sample in
theorem Guard.reader_admitted :
    ∃ v, Warranted (manager .standard) .accessList (deployment .standard) none
      (token .standard .access).value intent v (admission .standard) := by
  obtain ⟨v, hwarranted, -, -⟩ := admission_warranted (authorize_reader .standard)
  exact ⟨v, hwarranted⟩

end AccessControl
