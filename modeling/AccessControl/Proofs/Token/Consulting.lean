import AccessControl.Proofs.Token.Frame
import AccessControl.Proofs.Token.Protocol

/-!
# What verification consults

To verify a value is to ask for the time, for the record that an opaque value names, and whether the
identifier that the value stands for is on the revocation list; `consults_verify` says this under
every protocol that permits these questions. So a value verifies alike wherever the same is known of
its identifier, also over disturbed lines (`run_verify_agrees`).
-/

namespace AccessControl

/-- The protocol permits what the verification of a value asks, and records are found under their own
identifiers. -/
structure Protocol.Consults (P : Protocol) (m : TokenManager) (value : String) : Prop where
  now : ∀ past, P.may past .now
  findRecord : ∀ past, m.backing = .stored →
    P.may past (.findRecord (OpaqueValue.id m.primitives value))
  findRevocation : ∀ past id, m.idOf? value = some id → P.may past (.findRevocation id)
  keyed : ∀ id x, P.expect (.findRecord id) x → ∀ r, x = .ok (some r) → r.id = id

namespace Backend

variable {ended : Option Cancelled} {q : Ask} {bound : Bool} {b : Backend} {ls : Lines}

/-- What an image of the backend answers alike, it answers alike over lines that are alike. -/
theorem respond_image {f : Backend → Backend} {g : Lines → Lines}
    (hf : (f b).answer q = ((b.answer q).1, f (b.answer q).2))
    (hg : ∀ t, q.target? = some t → (g ls).call t = ((ls.call t).1, g (ls.call t).2)) :
    respond ended q bound (f b, g ls) =
      ((respond ended q bound (b, ls)).1,
        (f (respond ended q bound (b, ls)).2.1, g (respond ended q bound (b, ls)).2.2)) := by
  unfold respond
  cases ht : q.target? with
  | none => simp only [hf]
  | some t =>
    simp only [hg t ht, hf]
    cases (ls.call t).1 with
    | none => rfl
    | some fault =>
      cases fault with
      | lie => cases q.lie? <;> rfl
      | _ => rfl

/-- A record that is found has the identifier that was asked for. -/
theorem respond_keyed {id : TokenId} {x : (Ask.findRecord id).Answer}
    (hx : (respond ended (.findRecord id) bound (b, ls)).1 = some x) :
    ∀ r, x = .ok (some r) → r.id = id := by
  rintro r rfl
  rcases (respond_effect ended (.findRecord id) bound b ls).2.2 _ hx with h | ⟨f, hf⟩ | hlie
  · exact TokenStore.id_of_find? (Except.ok.inj h).symm
  · cases hf
  · cases hlie

end Backend

namespace TokenManager

open Operation Procedure

variable {m : TokenManager} {P : Protocol} {value : String} {past : List Exchange} {id : TokenId}

theorem consults_findRecord (hmay : P.may past (.findRecord id))
    (hkeyed : ∀ x, P.expect (.findRecord id) x → ∀ r, x = .ok (some r) → r.id = id)
    (fault : CallFault → TokenError) :
    Operation.Follows P (fun _ x => ∀ r, x = .ok (some r) → r.id = id) past
      (checked fault (boundCall (.findRecord id))) := by
  refine follows_checked (follows_boundCall hmay fun x hx r hr => ?_)
  cases x with
  | ok found => exact hkeyed _ hx r (congrArg _ (Except.ok.inj hr))
  | error f => cases hr

/-- What is found under a value has the identifier that the value stands for. -/
theorem consults_lookUp (hP : P.Consults m value) (past : List Exchange) :
    Operation.Follows P
      (fun _ x => ∀ v marked, x = .ok (.ok (v, marked)) → m.idOf? value = some v.details.id) past
      (m.lookUp value) := by
  unfold lookUp idOf?
  cases hbacking : m.backing with
  | signed k =>
    refine follows_pure fun v marked h => ?_
    obtain ⟨v', hv', he⟩ := Except.map_eq_ok.1 (Except.ok.inj h)
    obtain ⟨rfl, -⟩ := Prod.mk.inj he
    simp only [hv']
  | stored =>
    simp only
    split
    · refine (consults_findRecord (hP.findRecord past hbacking) (hP.keyed _) _).bind
        (fun past found h => ?_) fun _ _ _ _ _ h => by cases h
      cases found with
      | none => exact follows_pure fun v marked h => by cases Except.ok.inj h
      | some r =>
        refine follows_pure fun v marked hv => ?_
        obtain ⟨rfl, -⟩ := Prod.mk.inj (Except.ok.inj (Except.ok.inj hv))
        exact congrArg some (h r rfl).symm
    · exact follows_pure fun v marked h => by cases Except.ok.inj h

theorem consults_isRevoked (hmay : P.may past (.findRevocation id)) (marked : Bool) :
    Operation.Follows P (fun _ _ => True) past (isRevoked id marked) := by
  unfold isRevoked
  split
  · exact follows_pure trivial
  · exact follows_checked (follows_boundCall hmay fun _ _ => trivial)

/-- A value is verified as the token that it stands for. -/
theorem consults_verify (hP : P.Consults m value) (past : List Exchange) :
    Operation.Follows P (fun _ x => ∀ v, x = .ok (.ok v) → m.idOf? value = some v.details.id) past
      (m.verify value) := by
  unfold verify
  refine (consults_lookUp hP past).bind (fun past found h => ?_) fun _ _ _ _ h => by cases h
  cases found with
  | error f => exact follows_pure fun v h => by cases Except.ok.inj h
  | ok found =>
    obtain ⟨v, marked⟩ := found
    have hid := h v marked rfl
    have hnow : Succeeds P (fun _ _ => True) past (liftM (call .now)) :=
      succeeds_lift (follows_call (hP.now past) fun _ _ => trivial)
    refine hnow.bind fun past now _ => ?_
    split
    · exact follows_pure fun v h => by cases Except.ok.inj h
    · refine (consults_isRevoked (hP.findRevocation past _ hid) marked).bind
        (fun past known _ => ?_) fun _ _ _ _ h => by cases h
      split
      · exact follows_pure fun v h => by cases Except.ok.inj h
      · split
        · refine follows_pure fun v' h => ?_
          obtain rfl := Except.ok.inj (Except.ok.inj h)
          exact hid
        · exact follows_pure fun v h => by cases Except.ok.inj h

/-! ### What verification depends on -/

/-- The rules for inquiries about one identifier. -/
def inquiry (id : TokenId) : Protocol where
  may _
    | .now => True
    | .findRecord id' | .findRevocation id' => id' = id
    | _ => False
  expect
    | .findRecord id, x => ∀ r, x = .ok (some r) → r.id = id
    | _, _ => True
  mayAbort _ := False

theorem consults_inquiry (hid : ∀ id', m.idOf? value = some id' → id' = id) :
    (inquiry id).Consults m value where
  now _ := trivial
  findRecord _ hstored := hid _ (by rw [idOf?, hstored])
  findRevocation _ id' h := hid id' h
  keyed _ _ h := h

/-- Where the same is known of an identifier, inquiries about it are answered alike and change
nothing. -/
theorem answer_inquiry {b b' : Backend} (hagrees : b.Agrees b' id) (hclock : b'.clock = b.clock)
    {q : Ask} (hq : (inquiry id).may past q) :
    b.answer q = ((b.answer q).1, b) ∧ b'.answer q = ((b.answer q).1, b') := by
  cases q with
  | now => exact ⟨rfl, congrArg (·, b') hclock⟩
  | findRecord id' =>
    obtain rfl : id' = id := hq
    exact ⟨rfl, congrArg (Except.ok ·, b') hagrees.record⟩
  | findRevocation id' =>
    obtain rfl : id' = id := hq
    exact ⟨rfl, congrArg (Except.ok ·, b') hagrees.listed⟩
  | _ => exact hq.elim

/-- A value verifies alike on backends that know the same of what it stands for. -/
theorem run_verify_agrees {b b' : Backend} (hagrees : b.Agrees b' id)
    (hclock : b'.clock = b.clock) (hid : ∀ id', m.idOf? value = some id' → id' = id)
    (ended : Option Cancelled) (ls : Lines) :
    ((m.serve (.verify value)).run (Backend.respond ended) (b', ls)).1 =
      ((m.serve (.verify value)).run (Backend.respond ended) (b, ls)).1 := by
  have hserve : (m.serve (.verify value)).Follows (inquiry id) (fun _ _ => True) [] :=
    Procedure.Follows.bind (consults_verify (consults_inquiry hid) []) fun _ _ _ => trivial
  have hrespond : ∀ (past : List Exchange) (q : Ask) (bound : Bool) (s : Backend × Lines),
      (inquiry id).may past q → s.1 = b →
      (Backend.respond ended q bound s).2.1 = b ∧
        (∀ y, (Backend.respond ended q bound s).1 = some y → (inquiry id).expect q y) ∧
        Backend.respond ended q bound (b', s.2) = ((Backend.respond ended q bound s).1,
          (b', (Backend.respond ended q bound s).2.2)) := by
    rintro past q bound ⟨b, ls⟩ hq rfl
    obtain ⟨hb, hb'⟩ := answer_inquiry hagrees hclock hq
    refine ⟨?_, fun y hy => ?_,
      Backend.respond_image (f := fun _ => b') (g := fun ls => ls) hb' fun _ _ => rfl⟩
    · rcases (Backend.respond_effect ended q bound b ls).1 with he | he
      · exact he
      · rw [he, hb]
    · cases q with
      | findRecord id' => exact Backend.respond_keyed hy
      | _ => trivial
  have hrun := hserve.run_eq (I := fun s => s.1 = b) (f := fun s => (b', s.2)) (s := (b, ls)) rfl
    hrespond
  exact (Prod.ext_iff.1 hrun).1

end TokenManager

end AccessControl
