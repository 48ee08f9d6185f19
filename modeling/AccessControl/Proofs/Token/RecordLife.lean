import AccessControl.Proofs.Order.Size
import AccessControl.Token.Backend

/-!
# The life of a record

What calls do to a store they do to each record on its own (`Ask.onRecord`), so what becomes of a
record over a sequence of calls is told by the calls that concern it: a record that is not stored
anew has the time of the first revocation by its owner (`TokenRecord.eq_of_foldl_onRecord`).
-/

namespace AccessControl

theorem TokenRecord.mark_eq_or (r : TokenRecord) (t : Instant) :
    r.mark t = { r with revokedAt := r.revokedAt.or (some t) } := by
  rw [mark, isRevoked]
  cases h : r.revokedAt with
  | none => rfl
  | some u =>
    show r = { r with revokedAt := some u }
    rw [← h]

namespace Ask

/-- What a question makes of the record under an identifier, if there is one. -/
def onRecord (id : TokenId) (r? : Option TokenRecord) : Ask → Option TokenRecord
  | insertRecord r => if id = r.id then some r else r?
  | deleteRecord s id' => if id = id' then r?.filter (·.subject ≠ s) else r?
  | revokeRecord s id' t => r?.map fun r => if id = id' ∧ r.subject = s then r.mark t else r
  | cleanupRecords t => r?.filter fun r => !r.isExpired t
  | _ => r?

/-- The time from which a question revokes a record, as its owner. -/
def revocation? (r : TokenRecord) : Ask → Option Instant
  | revokeRecord s id t => if r.id = id ∧ r.subject = s then some t else none
  | _ => none

/-- How a single question leaves a record: as it is, in another's place, marked for the first time by
its owner, deleted by its owner, or expired. -/
inductive Leaves (id : TokenId) (r : TokenRecord) : Ask → Option TokenRecord → Prop
  | same (q : Ask) : Leaves id r q (some r)
  | stored {r' : TokenRecord} (h : r'.id = id) : Leaves id r (.insertRecord r') (some r')
  | revoked (t : Instant) (h : r.revokedAt = none) :
    Leaves id r (.revokeRecord r.subject id t) (some { r with revokedAt := some t })
  | deleted : Leaves id r (.deleteRecord r.subject id) none
  | expired {t : Instant} (h : r.expiresAt ≤ t) : Leaves id r (.cleanupRecords t) none

variable {id : TokenId} {r : TokenRecord}

theorem leaves_onRecord (id : TokenId) (r : TokenRecord) (q : Ask) :
    Leaves id r q (q.onRecord id (some r)) := by
  cases q with
  | insertRecord r' =>
    by_cases hid : id = r'.id
    · rw [onRecord, if_pos hid]
      exact .stored hid.symm
    · rw [onRecord, if_neg hid]
      exact .same _
  | deleteRecord s id' =>
    by_cases hid : id = id'
    · subst hid
      rw [onRecord, if_pos rfl, Option.filter_some]
      by_cases hs : r.subject = s
      · subst hs
        simpa using Leaves.deleted
      · simpa [hs] using Leaves.same _
    · rw [onRecord, if_neg hid]
      exact .same _
  | revokeRecord s id' t =>
    rw [onRecord, Option.map_some]
    split
    next h =>
      obtain ⟨rfl, rfl⟩ := h
      rw [TokenRecord.mark]
      split
      · exact .same _
      next hmark => exact .revoked t (by simpa [TokenRecord.isRevoked] using hmark)
    · exact .same _
  | cleanupRecords t =>
    rw [onRecord, Option.filter_some]
    by_cases hexpired : r.expiresAt ≤ t
    · simpa [TokenRecord.isExpired, hexpired] using Leaves.expired hexpired
    · simpa [TokenRecord.isExpired, hexpired] using Leaves.same _
  | _ => exact .same _

/-- A record that is there before and after a question that puts no other in its place has at most
been marked by its owner. -/
theorem eq_of_onRecord {q : Ask} {r' : TokenRecord} (hnew : ∀ x, q = insertRecord x → x.id ≠ r.id)
    (h : q.onRecord r.id (some r) = some r') :
    r' = { r with revokedAt := r.revokedAt.or (q.revocation? r) } := by
  have hkept (he : some r = some r') : r' = { r with revokedAt := r.revokedAt.or none } := by
    rw [Option.or_none, Option.some.inj he]
  cases q with
  | insertRecord x =>
    rw [onRecord, if_neg (hnew x rfl).symm] at h
    exact hkept h
  | deleteRecord s id =>
    rw [onRecord] at h
    split at h
    · exact hkept (Option.filter_eq_some_iff.1 h).1
    · exact hkept h
  | revokeRecord s id t =>
    rw [onRecord, Option.map_some] at h
    rw [revocation?]
    split at h
    next hown =>
      rw [if_pos hown, ← TokenRecord.mark_eq_or]
      exact (Option.some.inj h).symm
    next hother =>
      rw [if_neg hother]
      exact hkept h
  | cleanupRecords t =>
    rw [onRecord] at h
    exact hkept (Option.filter_eq_some_iff.1 h).1
  | _ => exact hkept h

end Ask

namespace Backend

theorem find?_answer (b : Backend) (q : Ask) (id : TokenId) :
    (b.answer q).2.store.find? id = q.onRecord id (b.store.find? id) := by
  cases q with
  | insertRecord r => exact TokenStore.find?_insert ..
  | deleteRecord s id' =>
    refine (TokenStore.find?_delete ..).trans ?_
    rw [Ask.onRecord]
    split
    next hid => rw [hid]
    · rfl
  | revokeRecord s id' t => exact TokenStore.find?_revoke ..
  | cleanupRecords t => exact TokenStore.find?_cleanup ..
  | _ => rfl

/-- The backend after questions that were put to it one after the other. -/
def afterAll (b : Backend) (qs : List Ask) : Backend := qs.foldl (fun b q => (b.answer q).2) b

theorem find?_afterAll (b : Backend) (qs : List Ask) (id : TokenId) :
    (b.afterAll qs).store.find? id = qs.foldl (fun r? q => q.onRecord id r?) (b.store.find? id) := by
  induction qs generalizing b with
  | nil => rfl
  | cons q qs ih => rw [afterAll, List.foldl_cons, List.foldl_cons, ← find?_answer, ← ih]; rfl

end Backend

namespace TokenRecord

variable {r r' : TokenRecord} {qs : List Ask}

/-- The time of the first revocation of a record by its owner. -/
def firstRevocation? (r : TokenRecord) (qs : List Ask) : Option Instant :=
  qs.findSome? (·.revocation? r)

theorem foldl_onRecord_none {id : TokenId} (hnew : ∀ x, .insertRecord x ∈ qs → x.id ≠ id) :
    qs.foldl (fun r? q => q.onRecord id r?) none = none := by
  induction qs with
  | nil => rfl
  | cons q qs ih =>
    have hnone : q.onRecord id none = none := by
      cases q with
      | insertRecord x => exact if_neg (hnew x List.mem_cons_self).symm
      | deleteRecord s id' => exact ite_self _
      | _ => rfl
    rw [List.foldl_cons, hnone]
    exact ih fun x hx => hnew x (List.mem_cons_of_mem _ hx)

/-- A record that is still there and was not stored anew has the time at which its owner first
revoked it; later revocations leave that time in place. -/
theorem eq_of_foldl_onRecord (hnew : ∀ x, .insertRecord x ∈ qs → x.id ≠ r.id)
    (h : qs.foldl (fun r? q => q.onRecord r.id r?) (some r) = some r') :
    r' = { r with revokedAt := r.revokedAt.or (r.firstRevocation? qs) } := by
  induction qs generalizing r with
  | nil =>
    show r' = { r with revokedAt := r.revokedAt.or none }
    rw [Option.or_none, Option.some.inj h]
  | cons q qs ih =>
    have hlater : ∀ x, .insertRecord x ∈ qs → x.id ≠ r.id := fun x hx =>
      hnew x (List.mem_cons_of_mem _ hx)
    rw [List.foldl_cons] at h
    cases hstep : q.onRecord r.id (some r) with
    | none =>
      rw [hstep, foldl_onRecord_none hlater] at h
      cases h
    | some r₁ =>
      have hr₁ := Ask.eq_of_onRecord (fun x hx => hnew x (hx ▸ List.mem_cons_self)) hstep
      rw [hstep] at h
      have hfirst : r₁.firstRevocation? qs = r.firstRevocation? qs := by rw [hr₁]; rfl
      have hall : r.firstRevocation? (q :: qs) = (q.revocation? r).or (r.firstRevocation? qs) := by
        rw [firstRevocation?, List.findSome?_cons]
        cases q.revocation? r <;> rfl
      have hid : r₁.id = r.id := by rw [hr₁]
      rw [ih (hid ▸ hlater) (hid ▸ h), hfirst, hall, ← Option.or_assoc, hr₁]

end TokenRecord

namespace Backend

theorem answer_cleanupRecords (b : Backend) (now : Instant) :
    ∃ n b', b.answer (.cleanupRecords now) = (.ok n, b') ∧
      {id | ∃ r, b.store.find? id = some r ∧ r.expiresAt ≤ now}.encard = n ∧
      ∀ id r, b'.store.find? id = some r ↔ b.store.find? id = some r ∧ now < r.expiresAt := by
  refine ⟨_, _, rfl, ?_, fun id r => ?_⟩
  · have hdropped := b.store.records.encard_dropped fun _ r => !r.isExpired now
    simp only [Bool.not_eq_false', TokenRecord.isExpired, decide_eq_true_eq] at hdropped
    exact hdropped
  · show (b.store.cleanup now).find? id = some r ↔ _
    rw [TokenStore.find?_cleanup, Option.filter_eq_some_iff, TokenRecord.isExpired,
      Bool.not_eq_true', decide_eq_false_iff_not, Instant.not_le]

theorem answer_of_foreign {b : Backend} {s : SubjectId} {id : TokenId} {r : TokenRecord}
    (h : b.store.find? id = some r) (hs : r.subject ≠ s) (t : Instant) :
    b.answer (.deleteRecord s id) = (.error (.foreign id), b) ∧
    b.answer (.revokeRecord s id t) = (.error (.foreign id), b) := by
  constructor
  · have hrefused : b.store.delete s id = (.error ⟨id⟩, b.store) := by
      rw [TokenStore.delete, h]
      exact if_neg hs
    rw [answer, hrefused]
    rfl
  · have hrefused : b.store.revoke s id t = (.error ⟨id⟩, b.store) := by
      rw [TokenStore.revoke, h]
      exact if_pos hs
    rw [answer, hrefused]
    rfl

/-- In whatever state calls have left a store. A record changes only by being stored anew and by the
first revocation that names its owner, whose time it keeps over all calls that follow; it goes only
if its owner deletes it or it has expired. A deletion or revocation that names another subject is
refused and changes nothing, a clean-up drops just the expired records and tells their number, and a
list has each record of the subject in the tenant once, oldest first. -/
theorem record_life (b : Backend) :
    (∀ id r q, b.store.find? id = some r → Ask.Leaves id r q ((b.answer q).2.store.find? id)) ∧
    (∀ qs id r r', b.store.find? id = some r → (b.afterAll qs).store.find? id = some r' →
      (∀ x, .insertRecord x ∈ qs → x.id ≠ id) →
      r' = { r with revokedAt := r.revokedAt.or (r.firstRevocation? qs) }) ∧
    (∀ s id r t, b.store.find? id = some r → r.subject ≠ s →
      b.answer (.deleteRecord s id) = (.error (.foreign id), b) ∧
      b.answer (.revokeRecord s id t) = (.error (.foreign id), b)) ∧
    (∀ now, ∃ n b', b.answer (.cleanupRecords now) = (.ok n, b') ∧
      {id | ∃ r, b.store.find? id = some r ∧ r.expiresAt ≤ now}.encard = n ∧
      ∀ id r, b'.store.find? id = some r ↔ b.store.find? id = some r ∧ now < r.expiresAt) ∧
    ∀ t s, ∃ rs, b.answer (.listRecords t s) = (.ok rs, b) ∧ rs.Nodup ∧
      (rs.Pairwise fun r r' => r.issuedAt ≤ r'.issuedAt) ∧
      ∀ r, r ∈ rs ↔ (∃ id, b.store.find? id = some r) ∧ r.tenant = t ∧ r.subject = s := by
  refine ⟨fun id r q h => ?_, fun qs id r r' h h' hnew => ?_,
    fun s id r t h hs => answer_of_foreign h hs t, answer_cleanupRecords b, fun t s => ?_⟩
  · rw [find?_answer, h]
    exact Ask.leaves_onRecord id r q
  · obtain rfl := TokenStore.id_of_find? h
    rw [find?_afterAll, h] at h'
    exact TokenRecord.eq_of_foldl_onRecord hnew h'
  · exact ⟨_, rfl, (b.store.nodup_ids t s).of_map _, b.store.list_sorted t s,
      fun r => TokenStore.mem_list⟩

namespace Sample

def record : TokenRecord where
  id := ⟨"t"⟩
  kind := .access
  subject := ⟨"alice"⟩
  tenant := ⟨"acme"⟩
  app := ⟨"billing"⟩
  claims := .forSubject "alice" "acme" "billing"
  issuedAt := ⟨1, 0⟩
  expiresAt := ⟨9, 0⟩
  revokedAt := none

def backend : Backend := ((Backend.new ⟨1, 0⟩ .counting).answer (.insertRecord record)).2

/-- Bob tries, Alice revokes twice, and a clean-up comes too early. -/
def calls : List Ask :=
  [.revokeRecord ⟨"bob"⟩ ⟨"t"⟩ ⟨2, 0⟩, .revokeRecord ⟨"alice"⟩ ⟨"t"⟩ ⟨3, 0⟩,
    .revokeRecord ⟨"alice"⟩ ⟨"t"⟩ ⟨4, 0⟩, .cleanupRecords ⟨5, 0⟩]

theorem revoked_for_good :
    backend.store.find? ⟨"t"⟩ = some record ∧
    Ask.Leaves ⟨"t"⟩ record (.cleanupRecords ⟨9, 0⟩)
      ((backend.answer (.cleanupRecords ⟨9, 0⟩)).2.store.find? ⟨"t"⟩) ∧
    (backend.afterAll calls).store.find? ⟨"t"⟩ = some { record with revokedAt := some ⟨3, 0⟩ } ∧
    (∀ x, .insertRecord x ∈ calls → x.id ≠ ⟨"t"⟩) ∧
    { record with revokedAt := some ⟨3, 0⟩ } =
      { record with revokedAt := record.revokedAt.or (record.firstRevocation? calls) } ∧
    record.subject ≠ ⟨"bob"⟩ ∧
    backend.answer (.deleteRecord ⟨"bob"⟩ ⟨"t"⟩) = (.error (.foreign ⟨"t"⟩), backend) := by
  obtain ⟨hone, hall, hforeign, -, -⟩ := record_life backend
  have hfound : backend.store.find? ⟨"t"⟩ = some record := by decide
  have hlater : (backend.afterAll calls).store.find? ⟨"t"⟩ =
      some { record with revokedAt := some ⟨3, 0⟩ } := by decide
  have hnew : ∀ x, .insertRecord x ∈ calls → x.id ≠ ⟨"t"⟩ := by
    intro x hx
    simp [calls] at hx
  have hbob : record.subject ≠ ⟨"bob"⟩ := by decide
  exact ⟨hfound, hone _ _ _ hfound, hlater, hnew, hall calls _ _ _ hfound hlater hnew, hbob,
    (hforeign _ _ _ default hfound hbob).1⟩

end Sample

end Backend

end AccessControl
