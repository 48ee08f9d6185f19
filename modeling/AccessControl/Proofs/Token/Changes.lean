import AccessControl.Proofs.Token.Request
import AccessControl.Proofs.Token.Serial
import Mathlib.Logic.Relation

/-!
# What requests change

Every request of a token manager is a sequence of changes of a few kinds, and so is every run
(`Runs.changes`): what each change preserves is preserved by all runs.
-/

namespace AccessControl
namespace TokenManager

open Backend Relation

variable {m : TokenManager} {b b' : Backend}

/-- One change that requests and the clock make to a backend. -/
inductive Change (m : TokenManager) : Backend → Backend → Prop
  | draw (b : Backend) : Change m b { b with drawn := b.drawn + 1 }
  /-- A record is kept for an opaque value that is drawn for it. -/
  | record {b : Backend} {r : TokenRecord} (hstored : m.backing = .stored)
    (hid : r.id = OpaqueValue.id m.primitives (b.supply.value b.drawn)) :
    Change m b { b with drawn := b.drawn + 1, store := b.store.insert r }
  | revoke (b : Backend) (id : TokenId) (t : Instant) :
    Change m b { b with revocations := (b.revocations.add id t).2 }
  | mark (b : Backend) (s : SubjectId) (id : TokenId) (t : Instant) :
    Change m b { b with store := (b.store.revoke s id t).2 }
  | sweepRevocations (b : Backend) : Change m b { b with revocations := b.revocations.cleanup b.clock }
  | sweepRecords (b : Backend) : Change m b { b with store := b.store.cleanup b.clock }
  | clock {b : Backend} {t : Instant} (hread : t.IsReading) (hle : b.clock ≤ t) :
    Change m b { b with clock := t }

/-- What any number of changes lead to. -/
abbrev Changes (m : TokenManager) : Backend → Backend → Prop := ReflTransGen m.Change

theorem Change.supply_eq (h : m.Change b b') : b'.supply = b.supply := by
  cases h <;> rfl

theorem Change.drawn_le (h : m.Change b b') : b.drawn ≤ b'.drawn := by
  cases h <;> simp

theorem Change.clock_le (h : m.Change b b') : b.clock ≤ b'.clock := by
  cases h <;> first | assumption | exact Instant.le_refl _

theorem Changes.supply_eq (h : m.Changes b b') : b'.supply = b.supply := by
  induction h with
  | refl => rfl
  | tail _ h ih => exact h.supply_eq.trans ih

theorem Changes.drawn_le (h : m.Changes b b') : b.drawn ≤ b'.drawn := by
  induction h with
  | refl => exact Nat.le_refl _
  | tail _ h ih => exact Nat.le_trans ih h.drawn_le

theorem Changes.clock_le (h : m.Changes b b') : b.clock ≤ b'.clock := by
  induction h with
  | refl => exact Instant.le_refl _
  | tail _ h ih => exact Instant.le_trans ih h.clock_le

/-! ### Requests -/

theorem Issues.changes {c : Claims} {kind : TokenKind} {t : Token} (h : m.Issues c kind b t b') :
    m.Changes b b' := by
  rw [h.after]
  unfold keep
  split
  · exact .single (.draw b)
  · next hstored =>
    obtain ⟨hvalue, hid⟩ := h.stored hstored
    exact .single (.record hstored (hid.trans (by rw [hvalue])))

theorem changes_issue (m : TokenManager) (c : Claims) (kind : TokenKind) (b : Backend) :
    m.Changes b (b.exec (m.issue c kind)).2 := by
  rcases exec_issue m c kind b with ⟨t, b', he, h⟩ | ⟨he, -⟩ | ⟨he, -⟩ <;> rw [he]
  exact h.changes

theorem changes_marked (m : TokenManager) (b : Backend) (v : Verified) :
    m.Changes b { b with store := m.marked b v } := by
  unfold marked
  split
  · exact .single (.mark ..)
  · exact .refl

theorem changes_retired (m : TokenManager) (b : Backend) (v : Verified) :
    m.Changes b (m.retired b v) := by
  refine .head (.revoke b v.details.id v.details.expiresAt) ?_
  exact changes_marked m _ v

theorem Rotates.changes {value : String} {o : Outcome (Except TokenError TokenPair)}
    (h : m.Rotates value b o b') : m.Changes b b' := by
  cases h with
  | halfway _ _ haccess => exact haccess.changes
  | rotated _ _ haccess hrefresh =>
    exact haccess.changes.trans (hrefresh.changes.trans (changes_retired ..))
  | _ => exact .refl

theorem Revokes.changes {value : String} {o : Outcome (Except TokenError Unit)}
    (h : m.Revokes value b o b') : m.Changes b b' := by
  cases h with
  | signed => exact .single (.revoke ..)
  | stored => exact .head (.revoke ..) (.single (.mark ..))
  | _ => exact .refl

theorem changes_struck (m : TokenManager) (b : Backend) (subject : SubjectId) (now : Instant)
    (r : TokenRecord) : m.Changes b (struck b subject now r) :=
  .head (.revoke b r.id r.expiresAt) (.single (.mark ..))

theorem changes_revokeEach (m : TokenManager) (subject : SubjectId) (now : Instant)
    (rs : List TokenRecord) (b : Backend) :
    m.Changes b (b.exec (revokeEach subject now rs)).2 := by
  induction rs generalizing b with
  | nil => exact .refl
  | cons r rs ih =>
    have hstruck := changes_struck m b subject now r
    rw [exec_revokeEach_cons]
    cases owned (b.store.revoke subject r.id now).1 with
    | error f => exact hstruck
    | ok new => exact hstruck.trans (ih _)

theorem changes_revokeAll (m : TokenManager) (tenant : TenantId) (subject : SubjectId)
    (b : Backend) : m.Changes b (b.exec (m.revokeAll tenant subject)).2 := by
  cases hbacking : m.backing with
  | signed k =>
    rw [revokeAll, hbacking]
    exact .refl
  | stored =>
    rw [exec_revokeAll hbacking]
    exact changes_revokeEach ..

end TokenManager

/-- A request is served by its operation, whose result is the reply. -/
theorem Backend.run_reply {α β : Type} (x : Operation α) (f : Except TokenError α → β)
    (b : Backend) :
    b.run (x.run.bind fun r => .done (f r)) = ((b.exec x).1.map f, (b.exec x).2) := by
  rw [run_bind, exec]
  rcases b.run x.run with ⟨_ | _ | _, b'⟩ <;> rfl

namespace TokenManager

open Backend

variable {m : TokenManager} {b b' : Backend}

theorem serve_verify (m : TokenManager) (b : Backend) (value : String) :
    b.serve m (.verify value) = (.done (.verdict (.ok (m.verdict b value))), b) := by
  simp only [Backend.serve, TokenManager.serve, run_reply, exec_verify, Outcome.map]

theorem serve_sweep (m : TokenManager) (b : Backend) :
    ∃ report, b.serve m .sweep = (.done (.swept report),
      { b with
        revocations := b.revocations.cleanup b.clock
        store := if m.hasStore then b.store.cleanup b.clock else b.store }) := by
  obtain ⟨report, he⟩ := run_sweep m.hasStore b
  exact ⟨report, by rw [Backend.serve, TokenManager.serve, run_bind, he]; rfl⟩

theorem changes_serve (m : TokenManager) (q : TokenRequest) (b : Backend) :
    m.Changes b (b.serve m q).2 := by
  unfold Backend.serve
  cases q with
  | generate c kind =>
    simp only [TokenManager.serve, run_reply, generate]
    split
    · exact changes_issue m c kind b
    · exact .refl
  | verify value =>
    simp only [TokenManager.serve, run_reply, exec_verify]
    exact .refl
  | refresh value =>
    simp only [TokenManager.serve, run_reply]
    exact (exec_refresh m value b).changes
  | revoke value =>
    simp only [TokenManager.serve, run_reply]
    exact (exec_revoke m value b).changes
  | revokeAll tenant subject =>
    simp only [TokenManager.serve, run_reply]
    exact changes_revokeAll m tenant subject b
  | sweep =>
    obtain ⟨report, he⟩ := serve_sweep m b
    rw [Backend.serve] at he
    rw [he]
    refine .head (.sweepRevocations b) ?_
    cases m.hasStore with
    | false => exact .refl
    | true => exact .single (.sweepRecords _)

theorem Runs.changes {es : List TokenEvent} (h : m.Runs b es b') : m.Changes b b' := by
  induction h with
  | stop b => exact .refl
  | serve q _ ih => exact (changes_serve m q _).trans ih
  | clock hread hle _ ih => exact .head (.clock hread hle) ih

end TokenManager

end AccessControl
