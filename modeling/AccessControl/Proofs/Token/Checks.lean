import AccessControl.Proofs.Token.Validity

/-!
# The order of checks

Verification is a list of checks (`TokenManager.checks`), and what it answers is decided by the first
one that does not pass or whose collaborator does not answer (`verify_first_check`). The checks of an
opaque value are its form, its record, expiry, revocation and scope. The payload of a signed value is
read only once its tag has been found right, so there structure and signature are checked in turns: a
value that is no token at all may be reported for its signature (`signature_before_payload`).
-/

namespace AccessControl

/-- A check of a value: what is reported if it fails, whether it passes, and how verification ends if
the check cannot be made. -/
structure Check where
  failure : VerificationFailure
  passes : Bool
  outage : Option TokenError := none

namespace Check

/-- The check is made and passes. -/
def Clear (c : Check) : Prop := c.outage = none ∧ c.passes = true

/-- All checks before `c` are clear. -/
def Reached (cs : List Check) (c : Check) : Prop :=
  ∃ before after, cs = before ++ c :: after ∧ ∀ c' ∈ before, c'.Clear

/-- What the checks come to, one after the other. -/
def conclude : List Check → Except TokenError (Except VerificationFailure Unit)
  | [] => .ok (.ok ())
  | c :: cs => match c.outage with
    | some e => .error e
    | none => if c.passes then conclude cs else .ok (.error c.failure)

variable {c : Check} {cs cs' : List Check}

theorem conclude_cons_of_clear (hc : c.Clear) (cs : List Check) :
    conclude (c :: cs) = conclude cs := by
  simp [conclude, hc.1, hc.2]

theorem conclude_append_of_clear (h : ∀ c ∈ cs, c.Clear) (cs' : List Check) :
    conclude (cs ++ cs') = conclude cs' := by
  induction cs with
  | nil => rfl
  | cons c cs ih =>
    rw [List.forall_mem_cons] at h
    rw [List.cons_append, conclude_cons_of_clear h.1, ih h.2]

theorem conclude_of_clear (h : ∀ c ∈ cs, c.Clear) : conclude cs = .ok (.ok ()) := by
  have hnil := conclude_append_of_clear h []
  rwa [List.append_nil] at hnil

theorem conclude_of_outage {e : TokenError} (h : Reached cs c) (he : c.outage = some e) :
    conclude cs = .error e := by
  obtain ⟨before, after, rfl, hbefore⟩ := h
  rw [conclude_append_of_clear hbefore, conclude, he]

theorem conclude_of_failure (h : Reached cs c) (hmade : c.outage = none) (hfails : c.passes = false) :
    conclude cs = .ok (.error c.failure) := by
  obtain ⟨before, after, rfl, hbefore⟩ := h
  rw [conclude_append_of_clear hbefore, conclude, hmade, hfails]
  rfl

theorem reached_head (c : Check) (cs : List Check) : Reached (c :: cs) c :=
  ⟨[], cs, rfl, fun _ hc => nomatch hc⟩

theorem Reached.cons {d : Check} (h : Reached cs d) (hc : c.Clear) : Reached (c :: cs) d := by
  obtain ⟨before, after, rfl, hbefore⟩ := h
  exact ⟨c :: before, after, rfl, List.forall_mem_cons.2 ⟨hc, hbefore⟩⟩

/-- Either all checks are clear, or one is reached that cannot be made or fails. -/
theorem clear_or_reached (cs : List Check) :
    (∀ c ∈ cs, c.Clear) ∨ (∃ c e, Reached cs c ∧ c.outage = some e) ∨
      ∃ c, Reached cs c ∧ c.outage = none ∧ c.passes = false := by
  induction cs with
  | nil => exact .inl fun c hc => nomatch hc
  | cons c cs ih =>
    cases houtage : c.outage with
    | some e => exact .inr (.inl ⟨c, e, reached_head c cs, houtage⟩)
    | none =>
      cases hpasses : c.passes with
      | false => exact .inr (.inr ⟨c, reached_head c cs, houtage, hpasses⟩)
      | true =>
        have hc : c.Clear := ⟨houtage, hpasses⟩
        rcases ih with hall | ⟨d, e, hd, he⟩ | ⟨d, hd, hfails⟩
        · exact .inl (List.forall_mem_cons.2 ⟨hc, hall⟩)
        · exact .inr (.inl ⟨d, e, hd.cons hc, he⟩)
        · exact .inr (.inr ⟨d, hd.cons hc, hfails⟩)

theorem conclude_ok_iff : conclude cs = .ok (.ok ()) ↔ ∀ c ∈ cs, c.Clear := by
  constructor
  · intro h
    rcases clear_or_reached cs with hall | ⟨c, e, hc, he⟩ | ⟨c, hc, hmade, hfails⟩
    · exact hall
    · cases h.symm.trans (conclude_of_outage hc he)
    · cases h.symm.trans (conclude_of_failure hc hmade hfails)
  · exact conclude_of_clear

theorem conclude_error_iff {e : TokenError} :
    conclude cs = .error e ↔ ∃ c, Reached cs c ∧ c.outage = some e := by
  constructor
  · intro h
    rcases clear_or_reached cs with hall | ⟨c, e', hc, he⟩ | ⟨c, hc, hmade, hfails⟩
    · cases h.symm.trans (conclude_of_clear hall)
    · cases h.symm.trans (conclude_of_outage hc he)
      exact ⟨c, hc, he⟩
    · cases h.symm.trans (conclude_of_failure hc hmade hfails)
  · rintro ⟨c, hc, he⟩
    exact conclude_of_outage hc he

theorem conclude_failure_iff {f : VerificationFailure} :
    conclude cs = .ok (.error f) ↔
      ∃ c, Reached cs c ∧ c.outage = none ∧ c.passes = false ∧ c.failure = f := by
  constructor
  · intro h
    rcases clear_or_reached cs with hall | ⟨c, e, hc, he⟩ | ⟨c, hc, hmade, hfails⟩
    · cases h.symm.trans (conclude_of_clear hall)
    · cases h.symm.trans (conclude_of_outage hc he)
    · cases h.symm.trans (conclude_of_failure hc hmade hfails)
      exact ⟨c, hc, hmade, hfails, rfl⟩
  · rintro ⟨c, hc, hmade, hfails, rfl⟩
    exact conclude_of_failure hc hmade hfails

end Check

/-! ### Signed values -/

namespace SignedCodec

/-- The payload that a value carries, whoever signed it. -/
def carried? (value : String) : Option Payload :=
  (parts? value).bind fun (_, (_, payloadPart), _) => readPayload? payloadPart

/-- The checks of a signed value: structure and signature of the value, then of its payload. -/
def checks (k : SignedCodec) (value : String) : List Check :=
  [{ failure := .malformed
     passes := (parts? value).any fun (_, (headerPart, _), _) => (readHeader? headerPart).isSome },
   { failure := .invalidSignature
     passes := (parts? value).any fun (message, (headerPart, _), tag) =>
       readHeader? headerPart = some k.algorithm.name ∧ tag = k.tag message },
   { failure := .malformed, passes := (carried? value).any fun p => 0 ≤ p.expiresAt },
   { failure := .invalidSignature
     passes := (carried? value).any fun p => p.issuer = k.issuer ∧ p.audience = k.audience },
   { failure := .malformed, passes := ((carried? value).bind verified?).isSome }]

/-- A value decodes if all its checks pass, and otherwise is refused for the first that does not. -/
theorem conclude_checks (k : SignedCodec) (value : String) (cs : List Check) :
    Check.conclude (k.checks value ++ cs) =
      match k.decode value with
      | .error f => .ok (.error f)
      | .ok _ => Check.conclude cs := by
  unfold checks decode carried?
  rcases parts? value with _ | ⟨message, ⟨headerPart, payloadPart⟩, tag⟩
  · rfl
  rcases hheader : readHeader? headerPart with _ | algorithm
  · simp only [Option.any_some, hheader]
    rfl
  rcases decEq algorithm k.algorithm.name with halgorithm | halgorithm
  · simp [Check.conclude, hheader, halgorithm]
    rfl
  rcases decEq tag (k.tag message) with htag | htag
  · simp [Check.conclude, hheader, halgorithm, htag]
    rfl
  rcases hpayload : readPayload? payloadPart with _ | p
  · simp [Check.conclude, hheader, halgorithm, htag, hpayload]
    rfl
  rcases Int.lt_or_le p.expiresAt 0 with hepoch | hepoch
  · simp [Check.conclude, hheader, halgorithm, htag, hpayload, hepoch, Int.not_le.2 hepoch]
    rfl
  rcases decEq p.issuer k.issuer with hissuer | hissuer
  · simp [Check.conclude, hheader, halgorithm, htag, hpayload, Int.not_lt.2 hepoch, hepoch, hissuer]
    rfl
  rcases decEq p.audience k.audience with haudience | haudience
  · simp [Check.conclude, hheader, halgorithm, htag, hpayload, Int.not_lt.2 hepoch, hepoch, hissuer,
      haudience]
    rfl
  rcases hverified : verified? p with _ | v
  all_goals
    simp [Check.conclude, hheader, halgorithm, htag, hpayload, Int.not_lt.2 hepoch, hepoch, hissuer,
      haudience, hverified]
    rfl

/-- A value with a wrong tag is refused for it, whatever its payload is. -/
theorem decode_of_untagged {k : SignedCodec} {value algorithm : String}
    {message headerPart payloadPart tag : List Char}
    (hparts : parts? value = some (message, (headerPart, payloadPart), tag))
    (hheader : readHeader? headerPart = some algorithm) (htag : tag ≠ k.tag message) :
    k.decode value = .error .invalidSignature := by
  unfold decode
  simp only [hparts, hheader]
  by_cases halgorithm : algorithm = k.algorithm.name
  · simp [halgorithm, htag]
    rfl
  · simp [halgorithm]
    rfl

end SignedCodec

/-! ### Verification -/

/-- The collaborators of verification that do not answer, and with what fault. -/
structure Outages where
  store : Option CallFault
  revocations : Option CallFault

/-- Answers truly where nothing is out of reach. -/
def Backend.failing (o : Outages) : Procedure.Responder Backend
  | .findRecord id, _, b => match o.store with
    | some f => (some (.error f), b)
    | none => (some (b.answer (.findRecord id)).1, b)
  | .findRevocation id, _, b => match o.revocations with
    | some f => (some (.error f), b)
    | none => (some (b.answer (.findRevocation id)).1, b)
  | q, _, b => (some (b.answer q).1, (b.answer q).2)

namespace TokenManager

open Backend Check

variable {m : TokenManager} {o : Outages} {b : Backend} {value : String} {v : Verified}

/-- The checks of a token that was found. One whose record is marked is not looked up. -/
def tokenChecks (o : Outages) (b : Backend) (v : Verified) (marked : Bool) : List Check :=
  [{ failure := .expired, passes := b.clock < v.details.expiresAt },
   { failure := .revoked
     passes := !(marked || b.revocations.contains v.details.id)
     outage := if marked then none else o.revocations.map .ofRevocations },
   { failure := .missingScope, passes := v.claims.hasScope }]

/-- The checks by which a value is found to stand for a token. -/
def valueChecks (m : TokenManager) (o : Outages) (b : Backend) (value : String) : List Check :=
  match m.backing with
  | .signed k => k.checks value
  | .stored =>
    [{ failure := .malformed, passes := OpaqueValue.isWellFormed value },
     { failure := .notFound
       passes := (b.store.find? (OpaqueValue.id m.primitives value)).isSome
       outage := o.store.map .ofStore }]

/-- The checks of a value, in order. -/
def checks (m : TokenManager) (o : Outages) (b : Backend) (value : String) : List Check :=
  m.valueChecks o b value ++
    match m.found b value with
    | .ok (v, marked) => tokenChecks o b v marked
    | .error _ => []

/-- What verification does once a token was found. -/
def judge (v : Verified) (marked : Bool) : Operation (Except VerificationFailure Verified) := do
  let now ← Procedure.call .now
  if v.details.expiresAt ≤ now then return .error .expired
  else if ← isRevoked v.details.id marked then return .error .revoked
  else if v.claims.hasScope then return .ok v
  else return .error .missingScope

theorem verify_eq (m : TokenManager) (value : String) :
    m.verify value = m.lookUp value >>= fun
      | .error f => return .error f
      | .ok (v, marked) => judge v marked := rfl

theorem run_isRevoked_failing (o : Outages) (b : Backend) (id : TokenId) (marked : Bool) :
    (isRevoked id marked).run.run (failing o) b =
      (.done (match if marked then none else o.revocations.map TokenError.ofRevocations with
        | some e => .error e
        | none => .ok (marked || b.revocations.contains id)), b) := by
  unfold isRevoked
  obtain ⟨store, revocations⟩ := o
  cases marked with
  | true => rfl
  | false => cases revocations <;> rfl

theorem run_judge (o : Outages) (b : Backend) (v : Verified) (marked : Bool) :
    (judge v marked).run.run (failing o) b =
      (.done ((conclude (tokenChecks o b v marked)).map fun x => x.map fun () => v), b) := by
  have hnow : (liftM (Procedure.call .now) : Operation Instant).run.run (failing o) b =
      (.done (.ok b.clock), b) := rfl
  unfold judge tokenChecks
  rw [Operation.run_bind, hnow]
  by_cases hexpired : v.details.expiresAt ≤ b.clock
  · have hpassed : decide (b.clock < v.details.expiresAt) = false :=
      decide_eq_false (Instant.not_lt.2 hexpired)
    simp only [if_pos hexpired, conclude, hpassed]
    rfl
  · have hpasses : decide (b.clock < v.details.expiresAt) = true :=
      decide_eq_true (Instant.not_le.1 hexpired)
    simp only [if_neg hexpired, conclude, hpasses]
    rw [Operation.run_bind, run_isRevoked_failing]
    cases (if marked then none else o.revocations.map TokenError.ofRevocations) with
    | some e => rfl
    | none =>
      cases marked || b.revocations.contains v.details.id with
      | true => rfl
      | false => cases v.claims.hasScope <;> rfl

/-- Verification answers what the checks come to. -/
theorem run_verify_failing (m : TokenManager) (o : Outages) (b : Backend) (value : String) :
    (m.verify value).run.run (failing o) b =
      (.done ((conclude (m.checks o b value)).map fun x =>
        x.bind fun () => (m.found b value).map Prod.fst), b) := by
  rw [verify_eq]
  unfold checks valueChecks lookUp found
  cases hbacking : m.backing with
  | signed k =>
    simp only
    rw [SignedCodec.conclude_checks]
    cases k.decode value with
    | error f => rfl
    | ok v => exact run_judge o b v false
  | stored =>
    obtain ⟨store, revocations⟩ := o
    cases hform : OpaqueValue.isWellFormed value with
    | false => rfl
    | true =>
      cases store with
      | some f => rfl
      | none =>
        have hlookup : (Operation.checked .ofStore (Procedure.boundCall
            (.findRecord (OpaqueValue.id m.primitives value)))).run.run
            (failing ⟨none, revocations⟩) b =
              (.done (.ok (b.store.find? (OpaqueValue.id m.primitives value))), b) := rfl
        simp only [if_true]
        rw [Operation.run_bind, Operation.run_bind, hlookup]
        cases b.store.find? (OpaqueValue.id m.primitives value) with
        | none => rfl
        | some r => exact run_judge ⟨none, revocations⟩ b ⟨r.claims, r.details⟩ r.isRevoked

/-- The checks by which a token was found are clear, if they could be made. -/
theorem clear_valueChecks {marked : Bool} (hfound : m.found b value = .ok (v, marked))
    (hstore : o.store = none ∨ m.hasStore = false) : ∀ c ∈ m.valueChecks o b value, c.Clear := by
  unfold valueChecks
  cases hbacking : m.backing with
  | signed k =>
    have hchecks := SignedCodec.conclude_checks k value []
    rw [decode_of_found hbacking hfound, List.append_nil] at hchecks
    exact conclude_ok_iff.1 hchecks
  | stored =>
    have hnone : o.store = none := hstore.resolve_right (by simp [hasStore, hbacking])
    obtain ⟨r, hr, -⟩ := find?_of_found hbacking hfound
    simp [Clear, isWellFormed_of_found hbacking hfound, hr, hnone]

theorem found_of_clear (h : ∀ c ∈ m.checks o b value, c.Clear) :
    ∃ v marked, m.found b value = .ok (v, marked) := by
  have hvalue : ∀ c ∈ m.valueChecks o b value, c.Clear := fun c hc =>
    h c (List.mem_append_left _ hc)
  unfold valueChecks at hvalue
  cases hbacking : m.backing with
  | signed k =>
    simp only [hbacking] at hvalue
    have hchecks := SignedCodec.conclude_checks k value []
    rw [List.append_nil, conclude_of_clear hvalue] at hchecks
    cases hv : k.decode value with
    | ok v => exact ⟨v, false, found_of_decode hbacking hv⟩
    | error f =>
      rw [hv] at hchecks
      cases hchecks
  | stored =>
    simp only [hbacking, List.forall_mem_cons] at hvalue
    obtain ⟨⟨-, hform⟩, ⟨-, hrecord⟩, -⟩ := hvalue
    obtain ⟨r, hr⟩ := Option.isSome_iff_exists.1 hrecord
    exact ⟨⟨r.claims, r.details⟩, r.isRevoked, found_of_find? hbacking hform hr⟩

/-- Whatever is out of reach, verification reports the first check that fails, if all before it are
clear, and ends in an error only where the one that cannot be made comes first. A value is valid
exactly if all its checks are clear. An expired token is expired and a marked one is revoked, also if
the revocation list is out of reach. -/
theorem verify_first_check (m : TokenManager) (o : Outages) (b : Backend) (value : String) :
    ∃ r, (m.verify value).run.run (failing o) b = (.done r, b) ∧
      (∀ e, r = .error e ↔ ∃ c, Reached (m.checks o b value) c ∧ c.outage = some e) ∧
      (∀ f, r = .ok (.error f) ↔ ∃ c, Reached (m.checks o b value) c ∧
        c.outage = none ∧ c.passes = false ∧ c.failure = f) ∧
      (∀ v, r = .ok (.ok v) ↔ (∀ c ∈ m.checks o b value, c.Clear) ∧
        ∃ marked, m.found b value = .ok (v, marked)) ∧
      ∀ v marked, m.found b value = .ok (v, marked) → o.store = none ∨ m.hasStore = false →
        (v.details.expiresAt ≤ b.clock → r = .ok (.error .expired)) ∧
        (b.clock < v.details.expiresAt → marked = true → r = .ok (.error .revoked)) := by
  refine ⟨_, run_verify_failing m o b value, ?_, ?_, ?_, ?_⟩
  · intro e
    rw [← conclude_error_iff]
    cases conclude (m.checks o b value) <;> simp [Except.map]
  · intro f
    rw [← conclude_failure_iff]
    rcases hc : conclude (m.checks o b value) with e | f' | ⟨⟩
    · simp [Except.map]
    · simp [Except.map, Except.bind]
    · obtain ⟨v, marked, hv⟩ := found_of_clear (conclude_ok_iff.1 hc)
      simp [Except.map, Except.bind, hv]
  · intro v
    rw [← conclude_ok_iff]
    rcases hc : conclude (m.checks o b value) with e | f' | ⟨⟩
    · simp [Except.map]
    · simp [Except.map, Except.bind]
    · obtain ⟨v', marked, hv⟩ := found_of_clear (conclude_ok_iff.1 hc)
      simp [Except.map, Except.bind, hv]
  · intro v marked hfound hstore
    have hclear := clear_valueChecks hfound hstore
    unfold checks
    rw [conclude_append_of_clear hclear, hfound]
    simp only [tokenChecks, conclude]
    constructor
    · intro hexpired
      simp [Instant.not_lt.2 hexpired, Except.map, Except.bind]
    · intro hlive hmarked
      simp [hlive, hmarked, Except.map, Except.bind]

end TokenManager

namespace Sample

/-- The header of a signed value, and nothing else that is right. -/
def forged : String := "eyJ0eXAiOiJKV1QiLCJhbGciOiJIUzI1NiJ9.x.x"

end Sample

open Sample in
/-- A value that carries no payload is no token, but its tag is looked at first. -/
theorem TokenManager.signature_before_payload :
    SignedCodec.carried? forged = none ∧
      (empty.serve signedManager (.verify forged)).1 =
        .done (.verdict (.ok (.error .invalidSignature))) := by
  have hparts : SignedCodec.parts? forged =
      some ("eyJ0eXAiOiJKV1QiLCJhbGciOiJIUzI1NiJ9.x".toList,
        ("eyJ0eXAiOiJKV1QiLCJhbGciOiJIUzI1NiJ9".toList, ['x']), ['x']) := by decide +kernel
  have hheader : SignedCodec.readHeader? "eyJ0eXAiOiJKV1QiLCJhbGciOiJIUzI1NiJ9".toList =
      some "HS256" := by decide +kernel
  have hdecode : codec.decode forged = .error .invalidSignature :=
    SignedCodec.decode_of_untagged hparts hheader (by decide +kernel)
  refine ⟨by decide +kernel, ?_⟩
  rw [serve_verify, verdict, found_of_refused (k := codec) rfl hdecode]

end AccessControl
