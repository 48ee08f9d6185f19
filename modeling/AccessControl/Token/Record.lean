import AccessControl.Token.Basic

/-!
# Records of opaque tokens

An opaque value says nothing: what it stands for is in a record under the value's digest. A store
keeps every record under the record's own identifier. A record changes only by being put anew and by
being revoked, for the first time, by its owner.
-/

namespace AccessControl

structure TokenRecord where
  id : TokenId
  kind : TokenKind
  subject : SubjectId
  tenant : TenantId
  app : AppId
  claims : Claims
  issuedAt : Instant
  expiresAt : Instant
  revokedAt : Option Instant
  deriving DecidableEq

namespace TokenRecord

def isRevoked (r : TokenRecord) : Bool := r.revokedAt.isSome

def isExpired (r : TokenRecord) (now : Instant) : Bool := r.expiresAt ≤ now

def isLive (r : TokenRecord) (now : Instant) : Bool := !r.isRevoked && !r.isExpired now

def details (r : TokenRecord) : TokenDetails := ⟨r.id, r.kind, r.issuedAt, r.expiresAt⟩

/-- The record with a mark; the first mark stays. -/
def mark (r : TokenRecord) (time : Instant) : TokenRecord :=
  if r.isRevoked then r else { r with revokedAt := some time }

theorem mark_eq (r : TokenRecord) (time : Instant) :
    ∃ t, r.mark time = { r with revokedAt := some t } := by
  unfold mark isRevoked
  cases h : r.revokedAt with
  | none => exact ⟨time, rfl⟩
  | some t => exact ⟨t, by cases r; cases h; rfl⟩

@[simp] theorem tenant_mark (r : TokenRecord) (time : Instant) : (r.mark time).tenant = r.tenant := by
  obtain ⟨t, ht⟩ := r.mark_eq time
  rw [ht]

@[simp] theorem isRevoked_mark (r : TokenRecord) (time : Instant) : (r.mark time).isRevoked = true := by
  obtain ⟨t, ht⟩ := r.mark_eq time
  rw [ht]
  rfl

@[simp] theorem mark_mark (r : TokenRecord) (time time' : Instant) :
    (r.mark time).mark time' = r.mark time :=
  if_pos (r.isRevoked_mark time)

/-- Records in the order in which they were issued, as a sort wants it. -/
theorem issued_trans (a b c : TokenRecord) (hab : decide (a.issuedAt ≤ b.issuedAt) = true)
    (hbc : decide (b.issuedAt ≤ c.issuedAt) = true) : decide (a.issuedAt ≤ c.issuedAt) = true := by
  rw [decide_eq_true_eq] at *
  exact Instant.le_trans hab hbc

theorem issued_total (a b : TokenRecord) :
    (decide (a.issuedAt ≤ b.issuedAt) || decide (b.issuedAt ≤ a.issuedAt)) = true := by
  rw [Bool.or_eq_true, decide_eq_true_eq, decide_eq_true_eq]
  exact Instant.le_total _ _

def fieldNames : List String :=
  ["token_id", "kind", "subject_id", "tenant_id", "app_id", "claims", "issued_at", "expires_at",
    "revoked_at"]

def toJson (r : TokenRecord) : Json :=
  .obj [("app_id", .str r.app.text), ("claims", r.claims.toJson),
    ("expires_at", r.expiresAt.toJson), ("issued_at", r.issuedAt.toJson), ("kind", r.kind.toJson),
    ("revoked_at", .ofOption Instant.toJson r.revokedAt), ("subject_id", .str r.subject.text),
    ("tenant_id", .str r.tenant.text), ("token_id", .str r.id.text)]

def ofJson? (j : Json) : Option TokenRecord := do
  let r ← j.record? fieldNames
  return {
    id := ⟨← r.required Json.text? "token_id"⟩
    kind := ← r.required TokenKind.ofJson? "kind"
    subject := ⟨← r.required Json.text? "subject_id"⟩
    tenant := ⟨← r.required Json.text? "tenant_id"⟩
    app := ⟨← r.required Json.text? "app_id"⟩
    claims := ← r.required Claims.ofJson? "claims"
    issuedAt := ← r.required Instant.ofJson? "issued_at"
    expiresAt := ← r.required Instant.ofJson? "expires_at"
    revokedAt := ← r.optional Instant.ofJson? "revoked_at" }

end TokenRecord

structure TokenStore where
  records : SortedMap TokenId TokenRecord
  keyed : ∀ id r, records.get? id = some r → r.id = id
  deriving DecidableEq

/-- A record belongs to another subject than the one named. -/
structure ForeignRecord where
  id : TokenId
  deriving DecidableEq, Repr

namespace TokenStore

def empty : TokenStore := ⟨.empty, fun _ _ h => by cases h⟩

instance : Inhabited TokenStore := ⟨empty⟩

def insert (st : TokenStore) (r : TokenRecord) : TokenStore where
  records := st.records.insert r.id r
  keyed id r' hr := by
    rw [SortedMap.get?_insert] at hr
    split at hr
    next he => rw [← Option.some.inj hr, he]
    · exact st.keyed id r' hr

def filter (st : TokenStore) (p : TokenId → TokenRecord → Bool) : TokenStore where
  records := st.records.filter p
  keyed id r hr := by
    rw [SortedMap.get?_filter, Option.filter_eq_some_iff] at hr
    exact st.keyed id r hr.1

def find? (st : TokenStore) (id : TokenId) : Option TokenRecord := st.records.get? id

theorem id_of_find? {st : TokenStore} {id : TokenId} {r : TokenRecord} (h : st.find? id = some r) :
    r.id = id := st.keyed id r h

/-- Deletes a record of the subject, and tells whether there was one. -/
def delete (st : TokenStore) (subject : SubjectId) (id : TokenId) :
    Except ForeignRecord Bool × TokenStore :=
  match st.find? id with
  | none => (.ok false, st)
  | some r => if r.subject = subject then (.ok true, st.filter fun id' _ => id' ≠ id)
    else (.error ⟨id⟩, st)

/-- The records of a subject in a tenant, oldest first. -/
def list (st : TokenStore) (tenant : TenantId) (subject : SubjectId) : List TokenRecord :=
  (st.records.values.filter fun r => r.tenant = tenant && r.subject = subject).mergeSort
    fun a b => a.issuedAt ≤ b.issuedAt

/-- Marks a record of the subject as revoked, and tells whether it was not before. -/
def revoke (st : TokenStore) (subject : SubjectId) (id : TokenId) (time : Instant) :
    Except ForeignRecord Bool × TokenStore :=
  match st.find? id with
  | none => (.ok false, st)
  | some r =>
    if r.subject ≠ subject then (.error ⟨id⟩, st)
    else if r.isRevoked then (.ok false, st)
    else (.ok true, st.insert { r with revokedAt := some time })

def isRevoked (st : TokenStore) (id : TokenId) : Bool := (st.find? id).any (·.isRevoked)

/-- Drops the records that have expired. -/
def cleanup (st : TokenStore) (now : Instant) : TokenStore := st.filter fun _ r => !r.isExpired now

def size (st : TokenStore) : Nat := st.records.size

@[simp] theorem find?_filter (st : TokenStore) (p : TokenId → TokenRecord → Bool) (id : TokenId) :
    (st.filter p).find? id = (st.find? id).filter (p id) :=
  SortedMap.get?_filter ..

@[simp] theorem find?_insert (st : TokenStore) (r : TokenRecord) (id : TokenId) :
    (st.insert r).find? id = if id = r.id then some r else st.find? id :=
  SortedMap.get?_insert ..

theorem find?_delete (st : TokenStore) (s : SubjectId) (id id' : TokenId) :
    (st.delete s id).2.find? id' =
      if id' = id then (st.find? id).filter (·.subject ≠ s) else st.find? id' := by
  unfold delete
  cases h : st.find? id with
  | none => split <;> simp_all
  | some r =>
    by_cases hs : r.subject = s
    · by_cases he : id' = id
      · simp [he, h, hs, Option.filter_some]
      · cases hf : st.find? id' <;> simp [he, hs, hf]
    · by_cases he : id' = id <;> simp [he, h, hs, Option.filter_some]

/-- Revoking does nothing else than to mark a record of the subject. -/
theorem find?_revoke (st : TokenStore) (s : SubjectId) (id id' : TokenId) (t : Instant) :
    (st.revoke s id t).2.find? id' = (st.find? id').map fun r =>
      if id' = id ∧ r.subject = s then r.mark t else r := by
  unfold revoke
  cases h : st.find? id with
  | none => by_cases he : id' = id <;> simp [he, h]
  | some r =>
    have hid := id_of_find? h
    by_cases hs : r.subject = s
    · by_cases hr : r.isRevoked
      · by_cases he : id' = id <;> simp [he, h, hs, hr, TokenRecord.mark]
      · by_cases he : id' = id
        · rw [he, h]
          simp [hs, hr, hid, TokenRecord.mark]
        · simp [he, hs, hr, hid]
    · by_cases he : id' = id <;> simp [he, h, hs]

@[simp] theorem find?_cleanup (st : TokenStore) (now : Instant) (id : TokenId) :
    (st.cleanup now).find? id = (st.find? id).filter fun r => !r.isExpired now :=
  find?_filter ..

theorem ext {st st' : TokenStore} (h : ∀ id, st.find? id = st'.find? id) : st = st' := by
  cases st
  cases st'
  congr
  exact SortedMap.ext h

theorem mem_list {st : TokenStore} {t : TenantId} {s : SubjectId} {r : TokenRecord} :
    r ∈ st.list t s ↔ (∃ id, st.find? id = some r) ∧ r.tenant = t ∧ r.subject = s := by
  simp only [list, List.mem_mergeSort, List.mem_filter, SortedMap.values, List.mem_map, find?,
    SortedMap.get?_eq_some, Bool.and_eq_true, decide_eq_true_eq, Prod.exists, exists_eq_right]

/-- A store lists no identifier twice. -/
theorem nodup_ids (st : TokenStore) (t : TenantId) (s : SubjectId) :
    ((st.list t s).map (·.id)).Nodup := by
  have hkeys : st.records.values.map (·.id) = st.records.keys := by
    rw [SortedMap.values, SortedMap.keys, List.map_map]
    refine List.map_congr_left fun e he => ?_
    exact st.keyed e.1 e.2 (SortedMap.get?_eq_some.2 he)
  have hvalues : (st.records.values.map (·.id)).Nodup := hkeys ▸ st.records.nodup_keys
  have hsub : (st.records.values.filter fun r => r.tenant = t && r.subject = s).Sublist
      st.records.values := List.filter_sublist
  exact ((List.mergeSort_perm ..).map _).nodup_iff.2 (hvalues.sublist (hsub.map _))

theorem list_sorted (st : TokenStore) (t : TenantId) (s : SubjectId) :
    (st.list t s).Pairwise fun a b => a.issuedAt ≤ b.issuedAt :=
  (List.pairwise_mergeSort TokenRecord.issued_trans TokenRecord.issued_total _).imp
    of_decide_eq_true

end TokenStore

end AccessControl
