import AccessControl.Id
import AccessControl.Order.SortedMap
import AccessControl.Time.Instant

/-!
# Revoked tokens

The identifiers of tokens that must not verify again, each with the time until which it has to be
remembered. Adding an identifier again can only lengthen that time, and only the first adding is
told that it was new.
-/

namespace AccessControl

structure RevocationList where
  entries : SortedMap TokenId Instant
  deriving DecidableEq

namespace RevocationList

def empty : RevocationList := ⟨.empty⟩

instance : Inhabited RevocationList := ⟨empty⟩

def contains (l : RevocationList) (id : TokenId) : Bool := l.entries.contains id

def expiry? (l : RevocationList) (id : TokenId) : Option Instant := l.entries.get? id

/-- Adds an identifier, and tells whether it was new. -/
def add (l : RevocationList) (id : TokenId) (expiresAt : Instant) : Bool × RevocationList :=
  match l.expiry? id with
  | none => (true, ⟨l.entries.insert id expiresAt⟩)
  | some t => (false, ⟨l.entries.insert id (t.latest expiresAt)⟩)

def remove (l : RevocationList) (id : TokenId) : RevocationList := ⟨l.entries.erase id⟩

/-- Drops the entries that need not be remembered any longer. -/
def cleanup (l : RevocationList) (now : Instant) : RevocationList :=
  ⟨l.entries.filter fun _ t => now < t⟩

def size (l : RevocationList) : Nat := l.entries.size

theorem expiry?_add (l : RevocationList) (id id' : TokenId) (t : Instant) :
    (l.add id t).2.expiry? id' =
      if id' = id then some (match l.expiry? id with | none => t | some u => u.latest t)
      else l.expiry? id' := by
  unfold add
  split <;> simp_all [expiry?]

theorem add_fst (l : RevocationList) (id : TokenId) (t : Instant) :
    (l.add id t).1 = !l.contains id := by
  unfold add
  split <;> next h => simp only [expiry?] at h; simp [contains, SortedMap.contains, h]

theorem contains_eq (l : RevocationList) (id : TokenId) :
    l.contains id = (l.expiry? id).isSome := rfl

theorem contains_add (l : RevocationList) (id id' : TokenId) (t : Instant) :
    (l.add id t).2.contains id' = (id' = id || l.contains id') := by
  rw [contains_eq, expiry?_add]
  split <;> simp_all [contains_eq]

/-- An identifier is remembered at least until `time`. -/
def Remembers (l : RevocationList) (id : TokenId) (time : Instant) : Prop :=
  ∃ t, l.expiry? id = some t ∧ time ≤ t

theorem Remembers.contains {l : RevocationList} {id : TokenId} {time : Instant}
    (h : l.Remembers id time) : l.contains id = true := by
  obtain ⟨t, ht, -⟩ := h
  rw [contains_eq, ht]
  rfl

theorem remembers_add (l : RevocationList) (id : TokenId) (t : Instant) :
    (l.add id t).2.Remembers id t := by
  refine ⟨_, by rw [expiry?_add, if_pos rfl], ?_⟩
  split
  · exact Instant.le_refl t
  · exact Instant.le_latest_right ..

theorem Remembers.add {l : RevocationList} {id : TokenId} {time : Instant}
    (h : l.Remembers id time) (id' : TokenId) (t : Instant) :
    (l.add id' t).2.Remembers id time := by
  obtain ⟨u, hu, hle⟩ := h
  by_cases he : id = id'
  · subst he
    refine ⟨u.latest t, ?_, Instant.le_trans hle (Instant.le_latest_left u t)⟩
    rw [expiry?_add, if_pos rfl, hu]
  · exact ⟨u, by rw [expiry?_add, if_neg he, hu], hle⟩

@[simp] theorem expiry?_cleanup (l : RevocationList) (now : Instant) (id : TokenId) :
    (l.cleanup now).expiry? id = (l.expiry? id).filter fun t => now < t :=
  SortedMap.get?_filter ..

end RevocationList

end AccessControl
