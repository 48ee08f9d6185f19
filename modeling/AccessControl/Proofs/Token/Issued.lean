import AccessControl.Proofs.Token.Changes
import AccessControl.Proofs.Token.SignedForm

/-!
# Issued tokens

`m.Issued b t` is what stays true of a token from the moment it is handed out: a signed value was
written for the token's details, and the record of an opaque one keeps saying what the token says
until the token has expired. No request and no sweep breaks it (`Issued.changes`), as long as the
values that are drawn name different records.
-/

namespace AccessControl

/-- The first `n` values of a supply are opaque values, and name different records. -/
structure Supply.Fresh (s : Supply) (p : Primitives) (n : Nat) : Prop where
  wellFormed : ∀ i < n, OpaqueValue.isWellFormed (s.value i) = true
  distinct : ∀ i < n, ∀ j < n, OpaqueValue.id p (s.value i) = OpaqueValue.id p (s.value j) → i = j

theorem Supply.Fresh.mono {s : Supply} {p : Primitives} {n n' : Nat} (h : s.Fresh p n')
    (hle : n ≤ n') : s.Fresh p n :=
  ⟨fun i hi => h.wellFormed i (by omega),
    fun i hi j hj => h.distinct i (by omega) j (by omega)⟩

structure TokenRecord.Of (r : TokenRecord) (t : Token) : Prop where
  id : r.id = t.id
  kind : r.kind = t.kind
  tenant : r.tenant = t.tenant
  subject : t.metadata.get? "subject_id" = some r.subject.text
  expiresAt : r.expiresAt = t.expiresAt

namespace Instant

theorem outsideLeap_wholeSecond {a : Instant} {n : Int} (hread : a.IsReading) (hn : 0 < n) :
    a.wholeSecond.outsideLeap n = ⟨a.seconds, 0⟩ := by
  unfold IsReading at hread
  have hwhole : a.wholeSecond.nanos = 0 ∨ a.wholeSecond.nanos = 1000000000 := by
    show a.nanos - a.nanos % 1000000000 = 0 ∨ a.nanos - a.nanos % 1000000000 = 1000000000
    omega
  have hseconds : a.wholeSecond.seconds = a.seconds := rfl
  unfold outsideLeap
  rcases hwhole with h | h
  · rw [if_pos (by omega), ← hseconds, ← h]
  · rw [if_neg (by omega), if_pos hn, hseconds, h]

/-- A positive number of seconds after the whole second of a reading lies outside every leap
second. -/
theorem addSeconds?_wholeSecond {a : Instant} {n : Int} (hread : a.IsReading) (hn : 0 < n) :
    a.wholeSecond.addSeconds? n = ofSeconds? (a.seconds + n) := by
  rw [addSeconds?, outsideLeap_wholeSecond hread hn]
  rfl

theorem ofSeconds?_eq_some {n : Int} {e : Instant} :
    ofSeconds? n = some e ↔ (minSeconds ≤ n ∧ n ≤ maxSeconds) ∧ e = ⟨n, 0⟩ := by
  unfold ofSeconds?
  split
  · next h => simp [h, eq_comm]
  · next h => simp [h]

end Instant

namespace TokenManager

open Backend

variable {m : TokenManager} {b b' : Backend} {t : Token}

/-- The token was issued before `b`. -/
structure Issued (m : TokenManager) (b : Backend) (t : Token) : Prop where
  signed : ∀ k, m.backing = .signed k → ∃ c, t.value = k.encode c t.details
  whole : t.expiresAt.nanos = 0
  exact : Json.Numeral.Exact t.expiresAt.seconds
  drawn : m.backing = .stored → ∃ n < b.drawn, t.value = b.supply.value n
  named : m.backing = .stored → t.id = OpaqueValue.id m.primitives t.value
  record : m.backing = .stored → ∀ r, b.store.find? t.id = some r → r.Of t
  kept : m.backing = .stored → b.clock < t.expiresAt → ∃ r, b.store.find? t.id = some r

/-- A manager that was set up gives every token a positive lifetime. -/
theorem lifetime_pos {p : Primitives} {s : TokenSettings} (h : new? p s = .ok m)
    (kind : TokenKind) : 0 < m.settings.lifetime kind := by
  unfold new? at h
  cases hc : s.check with
  | error f =>
    rw [hc] at h
    cases h
  | ok u =>
    have hs : m.settings = s := by
      rw [hc] at h
      simp only [bind, Except.bind] at h
      split at h
      · split at h
        · cases h
        · cases h; rfl
      · cases h; rfl
    simp only [TokenSettings.check] at hc
    split at hc
    · cases hc
    split at hc
    · cases hc
    next haccess =>
      split at hc
      · cases hc
      next hrefresh =>
        rw [hs]
        cases kind
        · exact Int.not_le.1 haccess
        · exact Int.not_le.1 hrefresh

theorem Change.isReading (h : m.Change b b') (hread : b.clock.IsReading) : b'.clock.IsReading := by
  cases h <;> assumption

theorem Changes.isReading (h : m.Changes b b') (hread : b.clock.IsReading) :
    b'.clock.IsReading := by
  induction h with
  | refl => exact hread
  | tail _ h ih => exact h.isReading ih

theorem Issues.issued {c : Claims} {kind : TokenKind} (h : m.Issues c kind b t b')
    (hlife : ∀ kind, 0 < m.settings.lifetime kind) (hread : b.clock.IsReading) :
    m.Issued b' t := by
  have hexpires := h.expiresAt
  rw [h.issuedAt, Instant.addSeconds?_wholeSecond hread (hlife kind),
    Instant.ofSeconds?_eq_some] at hexpires
  obtain ⟨⟨hmin, hmax⟩, he⟩ := hexpires
  refine ⟨fun k hk => ⟨c, (h.signed k hk).2⟩, by rw [he],
    by rw [he]; exact Json.Numeral.exact_of_seconds hmin hmax,
    fun hs => ?_, fun hs => (h.stored hs).2, fun hs r hr => ?_, fun hs _ => ?_⟩
  · rw [h.after, keep, hs]
    exact ⟨b.drawn, Nat.lt_succ_self _, (h.stored hs).1⟩
  · rw [h.after, keep, hs] at hr
    simp only [TokenStore.find?_insert, Token.record, if_true, Option.some.injEq] at hr
    obtain ⟨s, hsub, hmeta⟩ := h.subject
    subst hr
    exact ⟨rfl, rfl, rfl, by simpa [hsub] using hmeta, rfl⟩
  · rw [h.after, keep, hs]
    exact ⟨t.record c, by simp [Token.record]⟩

/-- A new record takes the place of no issued token's record. -/
theorem Issued.ne_drawn (hi : m.Issued b t) (hs : m.backing = .stored) {n : Nat} (hn : b.drawn < n)
    (hfresh : b.supply.Fresh m.primitives n) :
    t.id ≠ OpaqueValue.id m.primitives (b.supply.value b.drawn) := by
  intro he
  obtain ⟨i, hi', hvalue⟩ := hi.drawn hs
  rw [hi.named hs, hvalue] at he
  exact absurd (hfresh.distinct i (by omega) b.drawn hn he) (by omega)

theorem Issued.change (hi : m.Issued b t) (h : m.Change b b')
    (hfresh : b.supply.Fresh m.primitives b'.drawn) : m.Issued b' t := by
  cases h with
  | draw =>
    refine { hi with drawn := fun hs => ?_ }
    obtain ⟨n, hn, hvalue⟩ := hi.drawn hs
    exact ⟨n, Nat.lt_succ_of_lt hn, hvalue⟩
  | record hstored hid =>
    have hne := hi.ne_drawn hstored (Nat.lt_succ_self _) hfresh
    refine { hi with drawn := fun hs => ?_, record := fun hs r hr => ?_, kept := fun hs hlive => ?_ }
    · obtain ⟨n, hn, hvalue⟩ := hi.drawn hs
      exact ⟨n, Nat.lt_succ_of_lt hn, hvalue⟩
    · rw [TokenStore.find?_insert, hid, if_neg hne] at hr
      exact hi.record hs r hr
    · simp only [TokenStore.find?_insert, hid, if_neg hne]
      exact hi.kept hs hlive
  | revoke => exact { hi with }
  | mark s id time =>
    refine { hi with record := fun hs r hr => ?_, kept := fun hs hlive => ?_ }
    · rw [TokenStore.find?_revoke] at hr
      obtain ⟨r', hr', rfl⟩ := Option.map_eq_some_iff.1 hr
      have hof := hi.record hs r' hr'
      split
      · obtain ⟨time', he⟩ := r'.mark_eq time
        rw [he]
        exact { hof with }
      · exact hof
    · obtain ⟨r, hr⟩ := hi.kept hs hlive
      rw [TokenStore.find?_revoke, hr]
      exact ⟨_, rfl⟩
  | sweepRevocations => exact { hi with }
  | sweepRecords =>
    refine { hi with record := fun hs r hr => ?_, kept := fun hs hlive => ?_ }
    · rw [TokenStore.find?_cleanup] at hr
      exact hi.record hs r (Option.filter_eq_some_iff.1 hr).1
    · obtain ⟨r, hr⟩ := hi.kept hs hlive
      refine ⟨r, ?_⟩
      rw [TokenStore.find?_cleanup, hr, Option.filter_eq_some_iff]
      refine ⟨rfl, ?_⟩
      rw [TokenRecord.isExpired, (hi.record hs r hr).expiresAt]
      simpa using Instant.not_le.2 hlive
  | clock hread hle =>
    exact { hi with kept := fun hs hlive => hi.kept hs (Instant.lt_of_le_of_lt hle hlive) }

theorem Issued.changes (hi : m.Issued b t) (h : m.Changes b b')
    (hfresh : b.supply.Fresh m.primitives b'.drawn) : m.Issued b' t := by
  induction h with
  | refl => exact hi
  | tail hs h ih =>
    refine (ih (hfresh.mono h.drawn_le)).change h ?_
    rw [Changes.supply_eq hs]
    exact hfresh

/-! ### Runs -/

/-- A token that a request hands out was issued while the request was served. -/
theorem issues_of_issued {q : TokenRequest}
    (ht : t ∈ (TokenEvent.served q (b.serve m q).1).issued) :
    ∃ c kind b₁ b₂, m.Changes b b₁ ∧ b₁.clock = b.clock ∧ m.Issues c kind b₁ t b₂ ∧
      m.Changes b₂ (b.serve m q).2 := by
  cases q with
  | generate c kind =>
    simp only [Backend.serve, TokenManager.serve, run_reply, generate] at ht ⊢
    split at ht
    · rcases exec_issue m c kind b with ⟨t', b', he, h⟩ | ⟨he, -⟩ | ⟨he, -⟩ <;> rw [he] at ht ⊢
      · obtain rfl := List.mem_singleton.1 ht
        exact ⟨c, kind, b, b', .refl, rfl, h, .refl⟩
      · cases ht
      · cases ht
    · cases ht
  | refresh value =>
    simp only [Backend.serve, TokenManager.serve, run_reply] at ht ⊢
    have hrotates := exec_refresh m value b
    generalize (b.exec (m.refresh value)).1 = o at hrotates ht
    generalize (b.exec (m.refresh value)).2 = b' at hrotates ht
    cases hrotates with
    | @rotated v pair b₁ b₂ h hkind haccess hrefresh =>
      have hretired := changes_retired m b₂ v
      rcases List.mem_cons.1 ht with rfl | ht
      · exact ⟨v.claims, .access, b, b₁, .refl, rfl, haccess, hrefresh.changes.trans hretired⟩
      · obtain rfl := List.mem_singleton.1 ht
        exact ⟨v.claims, .refresh, b₁, b₂, haccess.changes, by rw [haccess.after, keep_clock],
          hrefresh, hretired⟩
    | _ => cases ht
  | verify value => cases hr : (b.exec (m.verify value)).1 <;>
      simp [Backend.serve, TokenManager.serve, run_reply, hr, Outcome.map, TokenEvent.issued,
        TokenReply.tokens] at ht
  | revoke value => cases hr : (b.exec (m.revoke value)).1 <;>
      simp [Backend.serve, TokenManager.serve, run_reply, hr, Outcome.map, TokenEvent.issued,
        TokenReply.tokens] at ht
  | revokeAll tenant subject => cases hr : (b.exec (m.revokeAll tenant subject)).1 <;>
      simp [Backend.serve, TokenManager.serve, run_reply, hr, Outcome.map, TokenEvent.issued,
        TokenReply.tokens] at ht
  | sweep =>
    obtain ⟨report, he⟩ := serve_sweep m b
    simp [he, TokenEvent.issued, TokenReply.tokens] at ht

/-- A token that a request hands out is one that was issued. -/
theorem issued_serve {q : TokenRequest} (hlife : ∀ kind, 0 < m.settings.lifetime kind)
    (hread : b.clock.IsReading)
    (hfresh : b.supply.Fresh m.primitives (b.serve m q).2.drawn)
    (ht : t ∈ (TokenEvent.served q (b.serve m q).1).issued) : m.Issued (b.serve m q).2 t := by
  obtain ⟨c, kind, b₁, b₂, hbefore, hclock, hissues, hafter⟩ := issues_of_issued ht
  have hsupply : b₂.supply = b.supply :=
    (Changes.supply_eq hissues.changes).trans (Changes.supply_eq hbefore)
  exact (hissues.issued hlife (hclock ▸ hread)).changes hafter (hsupply ▸ hfresh)

/-- All tokens that a run hands out were issued before its end. -/
theorem Runs.issued {es : List TokenEvent} (h : m.Runs b es b')
    (hlife : ∀ kind, 0 < m.settings.lifetime kind) (hread : b.clock.IsReading)
    (hfresh : b.supply.Fresh m.primitives b'.drawn) {e : TokenEvent} (he : e ∈ es)
    (ht : t ∈ e.issued) : m.Issued b' t := by
  induction h with
  | stop b => cases he
  | @serve b b' es q h ih =>
    have hserve := changes_serve m q b
    have hs := Changes.supply_eq hserve
    rcases List.mem_cons.1 he with rfl | he
    · have hissued := issued_serve hlife hread (hfresh.mono (Changes.drawn_le h.changes)) ht
      exact hissued.changes h.changes (hs ▸ hfresh)
    · exact ih (Changes.isReading hserve hread) (hs ▸ hfresh) he
  | clock hread' hle h ih =>
    rcases List.mem_cons.1 he with rfl | he
    · cases ht
    · exact ih hread' hfresh he

end TokenManager

namespace Sample

/-! ### A token of one subject -/

variable (p : Primitives) (kind : TokenKind)

def claims : Claims := .forSubject "alice" "acme" "billing"

def manager : TokenManager := ⟨.opaqueValues, .stored, p⟩

def empty : Backend := .new ⟨1700000000, 0⟩ .counting

theorem fresh_five : Supply.counting.Fresh .standard 5 := by
  have hdistinct : ∀ i < 5, ∀ j < 5, OpaqueValue.id .standard (Supply.counting.value i) =
      OpaqueValue.id .standard (Supply.counting.value j) → i = j := by decide +kernel
  refine ⟨?_, hdistinct⟩
  decide +kernel

theorem fresh_four : Supply.counting.Fresh .standard 4 := fresh_five.mono (Nat.le_succ 4)

def token : Token where
  value := Supply.counting.value 0
  id := OpaqueValue.id p (Supply.counting.value 0)
  kind := kind
  tenant := ⟨"acme"⟩
  app := ⟨"billing"⟩
  issuedAt := ⟨1700000000, 0⟩
  expiresAt := ⟨match kind with | .access => 1700000900 | .refresh => 1700604800, 0⟩
  metadata := (SortedMap.empty.insert "format" "opaque").insert "subject_id" "alice"

/-- The backend after the token was issued. -/
def issued : Backend := (manager p).keep empty ((token p kind).record claims)

theorem isWellFormed_value : OpaqueValue.isWellFormed (token p kind).value = true := by
  show OpaqueValue.isWellFormed (Supply.counting.value 0) = true
  decide +kernel

theorem find?_token :
    (issued p kind).store.find? (token p kind).id = some ((token p kind).record claims) := by
  simp [issued, TokenManager.keep, manager, Token.record]

theorem found_token :
    (manager p).found (issued p kind) (token p kind).value =
      .ok (⟨claims, (token p kind).details⟩, false) :=
  TokenManager.found_of_find? (m := manager p) rfl (isWellFormed_value p kind) (find?_token p kind)

theorem verdict_token :
    (manager p).verdict (issued p kind) (token p kind).value = .ok ⟨claims, (token p kind).details⟩ := by
  rw [TokenManager.verdict, found_token]
  cases kind <;> rfl

end Sample

end AccessControl
