import AccessControl.Proofs.Token.Frame
import AccessControl.Proofs.Token.Revocation

/-!
# The descent of a refresh token

Each successful exchange of a refresh token hands out an access token and the next refresh token. Of
a refresh token and all that descend from it at most one verifies at any moment, the newest, and all
tokens of the chain carry the claims of the first (`descent_single_use`). What a run preserves is
`Line`: all tokens of the chain bear the same claims, and all refresh tokens but the newest are ended.
-/

namespace AccessControl

/-- The tokens of a chain after an event, newest first: the exchange of one of them adds the two that
are handed out for it. -/
def TokenEvent.extend (chain : List Token) : TokenEvent → List Token
  | served (.refresh value) (.done (.pair (.ok pair))) =>
    if chain.any (·.value = value) then pair.refresh :: pair.access :: chain else chain
  | _ => chain

/-- A token and all that descend from it by successful exchanges, newest first. -/
def descent (t : Token) (es : List TokenEvent) : List Token := es.foldl TokenEvent.extend [t]

def refreshTokens (chain : List Token) : List Token := chain.filter (·.kind = .refresh)

/-- The value verifies. -/
def Backend.accepts (b : Backend) (m : TokenManager) (value : String) : Bool :=
  match (b.serve m (.verify value)).1 with
  | .done (.verdict (.ok (.ok _))) => true
  | _ => false

/-- An event adds to a chain only if it is the exchange of one of its values. -/
theorem TokenEvent.extend_cases (chain : List Token) (e : TokenEvent) :
    e.extend chain = chain ∨ ∃ t ∈ chain, ∃ pair,
      e = .served (.refresh t.value) (.done (.pair (.ok pair))) ∧
      e.extend chain = pair.refresh :: pair.access :: chain := by
  unfold extend
  split
  next value pair =>
    split
    next hmem =>
      obtain ⟨t, ht, hvalue⟩ := List.any_eq_true.1 hmem
      obtain rfl := of_decide_eq_true hvalue
      exact .inr ⟨t, ht, pair, rfl, rfl⟩
    · exact .inl rfl
  · exact .inl rfl

namespace TokenManager

open Backend

variable {m : TokenManager} {b b' : Backend} {t x : Token} {c : Claims} {chain : List Token}

theorem accepts_eq (m : TokenManager) (b : Backend) (value : String) :
    b.accepts m value = true ↔ ∃ v, m.verdict b value = .ok v := by
  unfold Backend.accepts
  rw [serve_verify]
  cases m.verdict b value <;> simp

theorem rotates_serve {value : String} {pair : TokenPair}
    (h : (b.serve m (.refresh value)).1 = .done (.pair (.ok pair))) :
    m.Rotates value b (.done (.ok pair)) (b.serve m (.refresh value)).2 := by
  simp only [Backend.serve, TokenManager.serve, run_reply] at h ⊢
  obtain ⟨r, hr, hreply⟩ := Outcome.map_eq_done.1 h
  obtain rfl := TokenReply.pair.inj hreply
  exact hr ▸ exec_refresh m value b

theorem issues_serve {kind : TokenKind}
    (h : (b.serve m (.generate c kind)).1 = .done (.token (.ok t))) :
    c.check = .ok () ∧ m.Issues c kind b t (b.serve m (.generate c kind)).2 := by
  simp only [Backend.serve, TokenManager.serve, run_reply] at h ⊢
  obtain ⟨r, hr, hreply⟩ := Outcome.map_eq_done.1 h
  obtain rfl := TokenReply.token.inj hreply
  unfold generate at hr ⊢
  cases hcheck : c.check with
  | error f =>
    rw [hcheck] at hr
    cases hr
  | ok =>
    rw [hcheck] at hr
    refine ⟨rfl, ?_⟩
    simp only at hr ⊢
    rcases exec_issue m c kind b with ⟨t', b', he, hissues⟩ | ⟨he, -⟩ | ⟨he, -⟩ <;>
      rw [he] at hr ⊢ <;> cases hr
    exact hissues

/-- The tokens of a chain bear the same claims, and of its refresh tokens all but the newest are
ended. -/
structure Line (m : TokenManager) (b : Backend) (c : Claims) (chain : List Token) : Prop where
  bears : ∀ t ∈ chain, m.Bears b t c
  issued : ∀ t ∈ chain, m.Issued b t
  ended : ∀ t ∈ (refreshTokens chain).tail, m.Ended b t

theorem Line.changes (h : m.Line b c chain) (hchanges : m.Changes b b')
    (hdistinct : b.supply.Distinct m.primitives b'.drawn) : m.Line b' c chain where
  bears t ht := (h.bears t ht).changes hchanges hdistinct
  issued t ht := (h.issued t ht).changes hchanges hdistinct.toFresh
  ended t ht := (h.ended t ht).changes hchanges hdistinct.toFresh

theorem Ended.not_ok (h : m.Ended b t) (hfresh : b.supply.Fresh m.primitives b.drawn)
    (v : Verified) : m.verdict b t.value ≠ .ok v := by
  obtain ⟨f, hf, -⟩ := h.verdict hfresh
  rw [hf]
  nofun

/-- Only the newest refresh token of a chain can verify. -/
theorem Line.newest (h : m.Line b c chain) (hfresh : b.supply.Fresh m.primitives b.drawn)
    (ht : t ∈ refreshTokens chain) {v : Verified} (hv : m.verdict b t.value = .ok v) :
    ∃ older, refreshTokens chain = t :: older := by
  have hended := h.ended
  cases hchain : refreshTokens chain with
  | nil =>
    rw [hchain] at ht
    cases ht
  | cons newest older =>
    rw [hchain] at ht hended
    rcases List.mem_cons.1 ht with rfl | ht
    · exact ⟨older, rfl⟩
    · exact absurd hv ((hended t ht).not_ok hfresh v)

theorem Line.count (h : m.Line b c chain) (hfresh : b.supply.Fresh m.primitives b.drawn) :
    (refreshTokens chain).countP (fun t => b.accepts m t.value) ≤ 1 := by
  have hended := h.ended
  cases hchain : refreshTokens chain with
  | nil => exact Nat.zero_le 1
  | cons newest older =>
    rw [hchain] at hended
    have holder : older.countP (fun t => b.accepts m t.value) = 0 := by
      refine List.countP_eq_zero.2 fun t ht haccepts => ?_
      obtain ⟨v, hv⟩ := (accepts_eq ..).1 haccepts
      exact (hended t ht).not_ok hfresh v hv
    rw [List.countP_cons, holder]
    split <;> omega

/-! ### Exchanges -/

/-- A token that was just issued verifies also after changes that leave it alone. -/
theorem Issues.verdict_after {kind : TokenKind} {b₁ : Backend} (h : m.Issues c kind b t b₁)
    (hlife : ∀ kind, 0 < m.settings.lifetime kind) (hread : b.clock.IsReading) (hp : c.Plain)
    (hscope : c.hasScope) (hlegible : m.legible c = true)
    (hnew : b.revocations.contains t.id = false) (hbears : m.Bears b' t c)
    (hagrees : b₁.Agrees b' t.id) (hclock : b'.clock = b.clock)
    (hdistinct : b'.supply.Distinct m.primitives b'.drawn) :
    m.verdict b' t.value = .ok ⟨c, m.shown t.details⟩ := by
  refine hbears.valid hp hscope hdistinct hlegible ?_ ?_ ?_
  · rw [hagrees.holds m]
    exact h.holds
  · rw [hclock]
    exact h.live hlife hread
  · rw [hagrees.revoked m, h.revoked]
    exact hnew

/-- What the exchange of a token that bears the claims `c` does. -/
structure Exchanges (m : TokenManager) (c : Claims) (x : Token) (b : Backend) (pair : TokenPair)
    (b₁ b₂ : Backend) : Prop where
  verdict : m.verdict b x.value = .ok ⟨c, m.shown x.details⟩
  kind : x.kind = .refresh
  legible : m.legible c = true
  access : m.Issues c .access b pair.access b₁
  refresh : m.Issues c .refresh b₁ pair.refresh b₂

theorem Rotates.exchanges {pair : TokenPair} (h : m.Rotates x.value b (.done (.ok pair)) b')
    (hbears : m.Bears b x c) (hp : c.Plain)
    (hdistinct : b.supply.Distinct m.primitives b.drawn) :
    ∃ b₁ b₂, m.Exchanges c x b pair b₁ b₂ ∧ b' = m.retired b₂ ⟨c, m.shown x.details⟩ := by
  cases h with
  | @rotated v _ b₁ b₂ hv hkind haccess hrefresh =>
    obtain ⟨rfl, hlegible⟩ := hbears.claims_of_found hp hdistinct (verdict_ok hv).1
    rw [shown_kind] at hkind
    exact ⟨b₁, b₂, ⟨hv, hkind, hlegible, haccess, hrefresh⟩, rfl⟩

/-- A refresh token that verifies can be exchanged, if the new tokens expire within the representable
years. -/
theorem exchanged_of_accepts (hbears : m.Bears b x c) (hkind : x.kind = .refresh)
    (hcheck : c.check = .ok ()) (hp : c.Plain)
    (hdistinct : b.supply.Distinct m.primitives b.drawn) (haccepts : b.accepts m x.value = true)
    (hexpires : ∀ kind, b.clock.wholeSecond.addSeconds? (m.settings.lifetime kind) ≠ none) :
    ∃ pair, (b.serve m (.refresh x.value)).1 = .done (.pair (.ok pair)) := by
  obtain ⟨v, hv⟩ := (accepts_eq ..).1 haccepts
  obtain ⟨rfl, -⟩ := hbears.claims_of_found hp hdistinct (verdict_ok hv).1
  have hrotates := exec_refresh m x.value b
  simp only [Backend.serve, TokenManager.serve, run_reply]
  generalize b.exec (m.refresh x.value) = result at hrotates ⊢
  obtain ⟨o, b'⟩ := result
  cases hrotates with
  | rejected hf =>
    rw [hv] at hf
    cases hf
  | wrongKind hv' hwrong =>
    rw [hv] at hv'
    cases hv'
    exact absurd ((shown_kind ..).trans hkind) hwrong
  | incomplete hv' hnone =>
    rw [hv] at hv'
    cases hv'
    exact absurd hnone (Claims.complete_of_check hcheck)
  | aborted _ _ hnone => exact absurd hnone (hexpires _)
  | halfway _ _ haccess hnone =>
    rw [haccess.clock_eq] at hnone
    exact absurd hnone (hexpires _)
  | rotated => exact ⟨_, rfl⟩

section

variable {pair : TokenPair} {b₁ b₂ : Backend}

theorem Exchanges.drawn_eq (h : m.Exchanges c x b pair b₁ b₂) : b₂.drawn = b.drawn + 2 := by
  rw [h.refresh.drawn_eq, h.access.drawn_eq]

theorem Exchanges.supply_eq (h : m.Exchanges c x b pair b₁ b₂) : b₂.supply = b.supply :=
  h.refresh.supply_eq.trans h.access.supply_eq

theorem Exchanges.access_id (h : m.Exchanges c x b pair b₁ b₂) :
    pair.access.id = m.idAt b.supply b.drawn := h.access.id_eq

theorem Exchanges.refresh_id (h : m.Exchanges c x b pair b₁ b₂) :
    pair.refresh.id = m.idAt b.supply (b.drawn + 1) := by
  rw [h.refresh.id_eq, h.access.supply_eq, h.access.drawn_eq]

/-- The new identifiers differ from each other and from the one that is exchanged. -/
theorem Exchanges.apart (h : m.Exchanges c x b pair b₁ b₂) (hdrew : m.Drew b x.id)
    (hdistinct : b.supply.Distinct m.primitives (b.drawn + 2)) :
    pair.access.id ≠ pair.refresh.id ∧ pair.access.id ≠ x.id ∧ pair.refresh.id ≠ x.id := by
  rw [h.access_id, h.refresh_id]
  refine ⟨fun he => ?_, (hdrew.ne_idAt ?_ ?_ hdistinct).symm, (hdrew.ne_idAt ?_ ?_ hdistinct).symm⟩
  · have := idAt_inj hdistinct (by omega) (by omega) he
    omega
  all_goals omega

variable (hlife : ∀ kind, 0 < m.settings.lifetime kind) (hread : b.clock.IsReading)
  (hepoch : 0 ≤ b.clock.seconds) (hdistinct : b.supply.Distinct m.primitives (b.drawn + 2))

include hlife hread hepoch hdistinct

/-- Both new tokens bear the claims, and were issued. -/
theorem Exchanges.line (h : m.Exchanges c x b pair b₁ b₂) :
    (m.Bears b₂ pair.access c ∧ m.Issued b₂ pair.access) ∧
      m.Bears b₂ pair.refresh c ∧ m.Issued b₂ pair.refresh := by
  have hmin : Instant.minSeconds ≤ b.clock.seconds := Int.le_trans (by decide) hepoch
  have hclock := h.access.clock_eq
  have hlater := fun kind => Int.add_nonneg hepoch (Int.le_of_lt (hlife kind))
  have hdrawn := h.access.drawn_eq
  have hdistinct₁ : b₁.supply.Distinct m.primitives b₂.drawn := by
    rw [h.access.supply_eq, h.drawn_eq]
    exact hdistinct
  constructor
  · have hbears := h.access.bears hlife hread hmin (hlater .access) (hdistinct.named _ (by omega))
    have hissued := h.access.issued hlife hread
    exact ⟨hbears.changes h.refresh.changes hdistinct₁,
      hissued.changes h.refresh.changes hdistinct₁.toFresh⟩
  · refine ⟨h.refresh.bears hlife ?_ ?_ ?_ (hdistinct₁.named _ ?_), h.refresh.issued hlife ?_⟩
    · rwa [hclock]
    · rwa [hclock]
    · rw [hclock]
      exact hlater .refresh
    · rw [h.drawn_eq]
      omega
    · rwa [hclock]

/-- Both new tokens verify as long as nothing but the exchanged token is touched, unless their
identifiers were revoked before they were drawn. -/
theorem Exchanges.valid_after (h : m.Exchanges c x b pair b₁ b₂) (hp : c.Plain)
    (hdrew : m.Drew b x.id)
    (hnew : ∀ i, b.drawn ≤ i → i < b.drawn + 2 →
      b.revocations.contains (m.idAt b.supply i) = false)
    (hchanges : m.Changes b₂ b') (hagrees : ∀ id, id ≠ x.id → b₂.Agrees b' id)
    (hclock : b'.clock = b₂.clock) (hdrawn : b'.drawn = b₂.drawn) :
    ∀ t ∈ [pair.access, pair.refresh], m.verdict b' t.value = .ok ⟨c, m.shown t.details⟩ := by
  obtain ⟨⟨haccess, -⟩, hrefresh, -⟩ := h.line hlife hread hepoch hdistinct
  obtain ⟨hpair, hna, hnr⟩ := h.apart hdrew hdistinct
  have hclock₂ : b₂.clock = b.clock := h.refresh.clock_eq.trans h.access.clock_eq
  have hscope := (verdict_ok h.verdict).2.2.2
  have hdistinct₂ : b₂.supply.Distinct m.primitives b'.drawn := by
    rw [h.supply_eq, hdrawn, h.drawn_eq]
    exact hdistinct
  have hdistinct' : b'.supply.Distinct m.primitives b'.drawn := by
    rw [Changes.supply_eq hchanges]
    exact hdistinct₂
  simp only [List.forall_mem_cons, List.not_mem_nil, false_implies, implies_true, and_true]
  constructor
  · refine h.access.verdict_after hlife hread hp hscope h.legible ?_
      (haccess.changes hchanges hdistinct₂) ((h.refresh.agrees hpair).trans (hagrees _ hna))
      (hclock.trans hclock₂) hdistinct'
    rw [h.access_id]
    exact hnew _ (Nat.le_refl _) (by omega)
  · refine h.refresh.verdict_after hlife ?_ hp hscope h.legible ?_
      (hrefresh.changes hchanges hdistinct₂) (hagrees _ hnr)
      (hclock.trans h.refresh.clock_eq) hdistinct'
    · rwa [h.access.clock_eq]
    · rw [h.refresh_id, h.access.after, keep_revocations]
      exact hnew _ (Nat.le_succ _) (by omega)

/-- Both new tokens verify at once. -/
theorem Exchanges.valid (h : m.Exchanges c x b pair b₁ b₂) (hp : c.Plain) (hdrew : m.Drew b x.id)
    (hnew : ∀ i, b.drawn ≤ i → i < b.drawn + 2 →
      b.revocations.contains (m.idAt b.supply i) = false) :
    ∀ t ∈ [pair.access, pair.refresh],
      m.verdict (m.retired b₂ ⟨c, m.shown x.details⟩) t.value = .ok ⟨c, m.shown t.details⟩ :=
  h.valid_after hlife hread hepoch hdistinct hp hdrew hnew (changes_retired ..)
    (fun id hne => agrees_retired b₂ (by rwa [shown_id])) rfl rfl

end

/-! ### Chains -/

section

variable (hp : c.Plain) (hlife : ∀ kind, 0 < m.settings.lifetime kind)

include hp hlife

/-- The exchange of a token of a chain makes the chain longer by the new tokens. -/
theorem Line.rotate (h : m.Line b c chain) (hread : b.clock.IsReading)
    (hepoch : 0 ≤ b.clock.seconds) (hx : x ∈ chain) {pair : TokenPair}
    (hr : m.Rotates x.value b (.done (.ok pair)) b')
    (hdistinct : b.supply.Distinct m.primitives b'.drawn) :
    m.Line b' c (pair.refresh :: pair.access :: chain) := by
  have hdistinct₀ := hdistinct.mono (Changes.drawn_le hr.changes)
  have hline := h.changes hr.changes hdistinct
  obtain ⟨b₁, b₂, he, rfl⟩ := hr.exchanges (h.bears x hx) hp hdistinct₀
  have hretired := changes_retired m b₂ ⟨c, m.shown x.details⟩
  have hdrawn : (m.retired b₂ ⟨c, m.shown x.details⟩).drawn = b.drawn + 2 := he.drawn_eq
  have hdistinct₂ : b₂.supply.Distinct m.primitives (m.retired b₂ ⟨c, m.shown x.details⟩).drawn := by
    rw [he.supply_eq]
    exact hdistinct
  rw [hdrawn] at hdistinct
  obtain ⟨⟨hbearsA, hissuedA⟩, hbearsR, hissuedR⟩ := he.line hlife hread hepoch hdistinct
  have hmem : x ∈ refreshTokens chain := List.mem_filter.2 ⟨hx, decide_eq_true he.kind⟩
  obtain ⟨older, hnewest⟩ := h.newest hdistinct₀.toFresh hmem he.verdict
  have hchain : refreshTokens (pair.refresh :: pair.access :: chain) =
      pair.refresh :: refreshTokens chain := by
    simp [refreshTokens, he.access.of_kind, he.refresh.of_kind]
  have hended := hline.ended
  refine ⟨?_, ?_, ?_⟩
  · rw [List.forall_mem_cons, List.forall_mem_cons]
    exact ⟨hbearsR.changes hretired hdistinct₂, hbearsA.changes hretired hdistinct₂, hline.bears⟩
  · rw [List.forall_mem_cons, List.forall_mem_cons]
    exact ⟨hissuedR.changes hretired hdistinct₂.toFresh,
      hissuedA.changes hretired hdistinct₂.toFresh, hline.issued⟩
  · rw [hnewest, List.tail_cons] at hended
    rw [hchain, hnewest, List.tail_cons, List.forall_mem_cons]
    exact ⟨hr.ended rfl (h.issued x hx) (hline.issued x hx), hended⟩

theorem Line.serve (h : m.Line b c chain) (hread : b.clock.IsReading)
    (hepoch : 0 ≤ b.clock.seconds) (q : TokenRequest)
    (hdistinct : b.supply.Distinct m.primitives (b.serve m q).2.drawn) :
    m.Line (b.serve m q).2 c (TokenEvent.extend chain (.served q (b.serve m q).1)) := by
  rcases TokenEvent.extend_cases chain (.served q (b.serve m q).1) with
    hsame | ⟨x, hx, pair, he, hmore⟩
  · rw [hsame]
    exact h.changes (changes_serve m q b) hdistinct
  · rw [hmore]
    obtain ⟨rfl, hpair⟩ := TokenEvent.served.inj he
    exact h.rotate hp hlife hread hepoch hx (rotates_serve hpair) hdistinct

/-- Every run from a chain leads to the chain with all that descended from it. -/
theorem Runs.line {es : List TokenEvent} (hrun : m.Runs b es b') (h : m.Line b c chain)
    (hread : b.clock.IsReading) (hepoch : 0 ≤ b.clock.seconds)
    (hdistinct : b.supply.Distinct m.primitives b'.drawn) :
    m.Line b' c (es.foldl TokenEvent.extend chain) := by
  induction hrun generalizing chain with
  | stop b => exact h
  | @serve b b' es q hrun ih =>
    have hchanges := changes_serve m q b
    have hline := h.serve hp hlife hread hepoch q (hdistinct.mono (Changes.drawn_le hrun.changes))
    exact ih hline (Changes.isReading hchanges hread)
      (Int.le_trans hepoch (Instant.seconds_le (Changes.clock_le hchanges)))
      (Changes.supply_eq hchanges ▸ hdistinct)
  | clock hreading hle hrun ih =>
    have hclock := h.changes (.single (.clock hreading hle))
      (hdistinct.mono (Changes.drawn_le hrun.changes))
    exact ih hclock hreading (Int.le_trans hepoch (Instant.seconds_le hle)) hdistinct

end

theorem Issues.line {kind : TokenKind} (h : m.Issues c kind b t b')
    (hlife : ∀ kind, 0 < m.settings.lifetime kind) (hread : b.clock.IsReading)
    (hepoch : 0 ≤ b.clock.seconds) (hdistinct : b.supply.Distinct m.primitives b'.drawn) :
    m.Line b' c [t] := by
  have hdrawn := h.drawn_eq
  refine ⟨?_, ?_, fun x hx => ?_⟩
  · rw [List.forall_mem_singleton]
    exact h.bears hlife hread (Int.le_trans (by decide) hepoch)
      (Int.add_nonneg hepoch (Int.le_of_lt (hlife kind))) (hdistinct.named _ (by omega))
  · rw [List.forall_mem_singleton]
    exact h.issued hlife hread
  · have hnil : (refreshTokens [t]).tail = [] := by
      unfold refreshTokens
      cases hk : decide (t.kind = .refresh) <;> simp [hk]
    rw [hnil] at hx
    cases hx

/-- What a run makes of the refresh token that it generates for some claims is a chain. -/
theorem Runs.line_descent (hlife : ∀ kind, 0 < m.settings.lifetime kind) {b₀ : Backend}
    (hread : b₀.clock.IsReading) (hepoch : 0 ≤ b₀.clock.seconds) (hfloat : c.floatFree)
    (hexact : c.exact) {before after : List TokenEvent}
    (hrun : m.Runs b₀ (before ++ .served (.generate c .refresh) (.done (.token (.ok t))) :: after) b)
    (hdistinct : b₀.supply.Distinct m.primitives b.drawn) :
    c.check = .ok () ∧ m.Line b c (descent t after) := by
  obtain ⟨b₁, hbefore, hrest⟩ := hrun.split
  have hsupply₁ : b₁.supply = b₀.supply := Changes.supply_eq hbefore.changes
  have hread₁ : b₁.clock.IsReading := Changes.isReading hbefore.changes hread
  have hepoch₁ : 0 ≤ b₁.clock.seconds :=
    Int.le_trans hepoch (Instant.seconds_le (Changes.clock_le hbefore.changes))
  generalize he : TokenEvent.served (.generate c .refresh) (.done (.token (.ok t))) = e at hrest
  cases hrest with
  | clock => cases he
  | serve q hafter =>
    obtain ⟨rfl, hanswer⟩ := TokenEvent.served.inj he
    obtain ⟨hcheck, hissues⟩ := issues_serve hanswer.symm
    have hplain : c.Plain := Claims.plain_of_check hcheck hfloat hexact
    generalize (b₁.serve m (.generate c .refresh)).2 = b₂ at hissues hafter
    have hstart := hissues.line hlife hread₁ hepoch₁
      (hsupply₁ ▸ hdistinct.mono (Changes.drawn_le hafter.changes))
    refine ⟨hcheck, hafter.line hplain hlife hstart ?_ ?_ ?_⟩
    · rwa [hissues.clock_eq]
    · rwa [hissues.clock_eq]
    · rwa [hissues.supply_eq, hsupply₁]

/-- Of a refresh token and all refresh tokens that descend from it at most one verifies, all tokens
of the chain carry the same claims, the one that verifies can be exchanged, and each exchange hands
out two new tokens that verify with these claims. With signed values the identifiers that are drawn
next must not have been revoked by values that name them before they are drawn. -/
theorem descent_single_use {p : Primitives} {s : TokenSettings} (hm : new? p s = .ok m)
    {start : Instant} {supply : Supply} (hread : start.IsReading) (hepoch : 0 ≤ start.seconds)
    (hfloat : c.floatFree) (hexact : c.exact) {before after : List TokenEvent}
    (hrun : m.Runs (.new start supply)
      (before ++ .served (.generate c .refresh) (.done (.token (.ok t))) :: after) b)
    (hdistinct : supply.Distinct m.primitives (b.drawn + 2))
    (hnew : ∀ k, m.backing = .signed k → ∀ i, b.drawn ≤ i → i < b.drawn + 2 →
      b.revocations.contains (supply.id i) = false) :
    (refreshTokens (descent t after)).countP (fun x => b.accepts m x.value) ≤ 1 ∧
    (∀ x ∈ descent t after, ∀ v marked, m.found b x.value = .ok (v, marked) → v.claims = c) ∧
    (∀ x ∈ refreshTokens (descent t after), b.accepts m x.value = true →
      (∀ kind, b.clock.seconds + m.settings.lifetime kind ≤ Instant.maxSeconds) →
      ∃ pair, (b.serve m (.refresh x.value)).1 = .done (.pair (.ok pair))) ∧
    ∀ x ∈ descent t after, ∀ pair,
      (b.serve m (.refresh x.value)).1 = .done (.pair (.ok pair)) →
      pair.access.kind = .access ∧ pair.refresh.kind = .refresh ∧
      (pair.access.id ≠ pair.refresh.id ∧ pair.access.id ≠ x.id ∧ pair.refresh.id ≠ x.id) ∧
      ∀ y ∈ [pair.access, pair.refresh],
        ((b.serve m (.refresh x.value)).2.serve m (.verify y.value)).1 =
          .done (.verdict (.ok (.ok ⟨c, m.shown y.details⟩))) := by
  have hlife := lifetime_pos hm
  have hsupply : b.supply = supply := Changes.supply_eq hrun.changes
  have hreadb : b.clock.IsReading := Changes.isReading hrun.changes hread
  have hepochb : 0 ≤ b.clock.seconds :=
    Int.le_trans hepoch (Instant.seconds_le (Changes.clock_le hrun.changes))
  have hunlisted := fun i hi hn =>
    hrun.unlisted hdistinct hi hn fun k hk => hnew k hk i hi hn
  obtain ⟨hcheck, hline⟩ := Runs.line_descent hlife hread hepoch hfloat hexact hrun
    (hdistinct.mono (Nat.le_add_right ..))
  have hplain := Claims.plain_of_check hcheck hfloat hexact
  rw [← hsupply] at hdistinct hunlisted
  have hnow := hdistinct.mono (Nat.le_add_right b.drawn 2)
  refine ⟨hline.count hnow.toFresh, fun x hx v marked hfound => ?_,
    fun x hx haccepts hmax => ?_, fun x hx pair hpair => ?_⟩
  · obtain ⟨rfl, -⟩ := (hline.bears x hx).claims_of_found hplain hnow hfound
    rfl
  · obtain ⟨hx, hkind⟩ := List.mem_filter.1 hx
    have hlater := fun kind => Int.add_nonneg hepochb (Int.le_of_lt (hlife kind))
    exact exchanged_of_accepts (hline.bears x hx) (of_decide_eq_true hkind) hcheck hplain hnow
      haccepts fun kind =>
        expires_of_fit hlife hreadb (Int.le_trans (by decide) (hlater kind)) (hmax kind)
  · have hbears := hline.bears x hx
    obtain ⟨b₁, b₂, hex, hb⟩ := (rotates_serve hpair).exchanges hbears hplain hnow
    have hvalid := hex.valid hlife hreadb hepochb hdistinct hplain hbears.drew hunlisted
    refine ⟨hex.access.of_kind, hex.refresh.of_kind, hex.apart hbears.drew hdistinct,
      fun y hy => ?_⟩
    rw [serve_verify, hb, hvalid y hy]

end TokenManager

namespace Sample

/-! ### A refresh token that is exchanged -/

open TokenManager

theorem runs_issued (p : Primitives) :
    (manager p).Runs empty ([] ++ [.served (.generate claims .refresh)
      (.done (.token (.ok (token p .refresh))))]) (issued p .refresh) :=
  .serve (.generate claims .refresh) (.stop (issued p .refresh))

theorem accepts_token (p : Primitives) :
    (issued p .refresh).accepts (manager p) (token p .refresh).value = true :=
  (accepts_eq ..).2 ⟨_, verdict_token p .refresh⟩

theorem line_token {p : Primitives} (hdistinct : Supply.counting.Distinct p 1) :
    (manager p).Line (issued p .refresh) claims [token p .refresh] :=
  (Runs.line_descent (lifetime_pos (s := .opaqueValues) rfl) (by decide) (by decide) (by decide)
    (by decide) (runs_issued p) hdistinct).2

end Sample

open Sample in
theorem TokenManager.exchanged_once :
    ∃ pair, ((issued .standard .refresh).serve (manager .standard)
        (.refresh (token .standard .refresh).value)).1 = .done (.pair (.ok pair)) ∧
      pair.access.id ≠ pair.refresh.id ∧
      (((issued .standard .refresh).serve (manager .standard)
        (.refresh (token .standard .refresh).value)).2.serve (manager .standard)
          (.verify pair.refresh.value)).1 =
        .done (.verdict (.ok (.ok ⟨claims, pair.refresh.details⟩))) := by
  obtain ⟨-, -, haccepted, hexchange⟩ := descent_single_use (m := manager .standard)
    (s := .opaqueValues) rfl (by decide) (by decide) (by decide) (by decide) (runs_issued .standard)
    (distinct_four.mono (Nat.le_succ 3)) (fun k hk => by cases hk)
  obtain ⟨pair, hpair⟩ := haccepted _ (List.mem_singleton_self _) (accepts_token .standard)
    (fun kind => by cases kind <;> decide)
  obtain ⟨-, -, ⟨hapart, -⟩, hvalid⟩ := hexchange _ (List.mem_singleton_self _) pair hpair
  exact ⟨pair, hpair, hapart, hvalid _ (by simp)⟩

end AccessControl
