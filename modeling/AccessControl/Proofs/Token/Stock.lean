import AccessControl.Proofs.Token.Exchanging
import AccessControl.Proofs.Token.Pool

/-!
# What calls side by side leave in the store

A question changes the store in few ways: it keeps a record, drops records, or marks one
(`Backend.found_of_answer`). Calls that keep records only for values that they have just drawn, and
delete only records of their own (`Ask.Tidy`), never get in each other's way, and what was deleted
stays away (`Pool.Stocked`).
-/

namespace AccessControl

/-! ### Single questions -/

/-- What can become of a record while it is in the store: at most it is marked. -/
def TokenRecord.Becomes (r r' : TokenRecord) : Prop := r' = r ∨ ∃ time, r' = r.mark time

namespace TokenRecord.Becomes

variable {r r' r'' : TokenRecord}

theorem refl (r : TokenRecord) : r.Becomes r := .inl rfl

theorem trans (h : r.Becomes r') (h' : r'.Becomes r'') : r.Becomes r'' := by
  rcases h with rfl | ⟨time, rfl⟩
  · exact h'
  · rcases h' with rfl | ⟨time', rfl⟩
    · exact .inr ⟨time, rfl⟩
    · exact .inr ⟨time, mark_mark ..⟩

theorem eq (h : r.Becomes r') : ∃ mark, r' = { r with revokedAt := mark } := by
  rcases h with rfl | ⟨time, rfl⟩
  · exact ⟨_, rfl⟩
  · obtain ⟨time', he⟩ := r.mark_eq time
    exact ⟨_, he⟩

theorem subject_eq (h : r.Becomes r') : r'.subject = r.subject := by
  obtain ⟨mark, rfl⟩ := h.eq
  rfl

theorem isRevoked (h : r.Becomes r') (hmarked : r.isRevoked = true) : r'.isRevoked = true := by
  rcases h with rfl | ⟨time, rfl⟩
  · exact hmarked
  · exact isRevoked_mark ..

end TokenRecord.Becomes

/-- A record that is found after a question was put in its place by the question, or it was there
before, perhaps without its mark. -/
theorem Backend.found_of_answer {b : Backend} {q : Ask} {id : TokenId} {r' : TokenRecord}
    (h : (b.answer q).2.store.find? id = some r') :
    (q = .insertRecord r' ∧ r'.id = id) ∨ ∃ r, b.store.find? id = some r ∧ r.Becomes r' := by
  cases q with
  | insertRecord r =>
    have hfind : (b.store.insert r).find? id = some r' := h
    rw [TokenStore.find?_insert] at hfind
    split at hfind
    next hid =>
      obtain rfl := Option.some.inj hfind
      exact .inl ⟨rfl, hid.symm⟩
    · exact .inr ⟨r', hfind, .refl r'⟩
  | deleteRecord s id' =>
    have hfind : (b.store.delete s id').2.find? id = some r' := h
    rw [TokenStore.find?_delete] at hfind
    split at hfind
    next hid =>
      rw [← hid] at hfind
      exact .inr ⟨r', (Option.filter_eq_some_iff.1 hfind).1, .refl r'⟩
    · exact .inr ⟨r', hfind, .refl r'⟩
  | revokeRecord s id' t =>
    have hfind : (b.store.revoke s id' t).2.find? id = some r' := h
    rw [TokenStore.find?_revoke] at hfind
    obtain ⟨r, hr, rfl⟩ := Option.map_eq_some_iff.1 hfind
    refine .inr ⟨r, hr, ?_⟩
    split
    · exact .inr ⟨t, rfl⟩
    · exact .refl r
  | cleanupRecords t =>
    have hfind : (b.store.cleanup t).find? id = some r' := h
    rw [TokenStore.find?_cleanup] at hfind
    exact .inr ⟨r', (Option.filter_eq_some_iff.1 hfind).1, .refl r'⟩
  | _ => exact .inr ⟨r', h, .refl r'⟩

/-- The question keeps a record only for the value that its call has just drawn, and deletes only a
record that its call has kept. -/
def Ask.Tidy (m : TokenManager) (s : SubjectId) (past : List Exchange) : Ask → Prop
  | .freshValue => m.backing = .stored
  | .insertRecord r =>
    r.subject = s ∧ ∃ x, past.getLast? = some ⟨.freshValue, x⟩ ∧ r.id = OpaqueValue.id m.primitives x
  | .deleteRecord s' id => s' = s ∧ Trace (·.Keeps id) past
  | _ => True

/-- The values drawn from `first` on, up to `last`, name different records. -/
def Supply.DistinctFrom (s : Supply) (p : Primitives) (first last : Nat) : Prop :=
  ∀ i j, first ≤ i → i < last → first ≤ j → j < last →
    OpaqueValue.id p (s.value i) = OpaqueValue.id p (s.value j) → i = j

namespace Pool

variable {ι : Type} [DecidableEq ι] {m : TokenManager} {s : SubjectId} {first : Nat} {b : Backend}
  {past : ι → List Exchange} {i : ι}

/-! ### Drawn values -/

/-- Every record is kept under a value that the same call has drawn for it, and under each value at
most once. -/
structure Drawing (p : Primitives) (first : Nat) (b : Backend) (past : ι → List Exchange) :
    Prop where
  range : ∀ i x, Trace (·.Draws x) (past i) →
    ∃ n, first ≤ n ∧ n < b.drawn ∧ x = b.supply.value n
  apart : ∀ i j x y, Trace (·.Draws x) (past i) → Trace (·.Draws y) (past j) →
    OpaqueValue.id p x = OpaqueValue.id p y → i = j
  drawn : ∀ i id, Trace (·.Keeps id) (past i) →
    ∃ x, Trace (·.Draws x) (past i) ∧ id = OpaqueValue.id p x
  unused : ∀ i x, (past i).getLast? = some ⟨.freshValue, x⟩ →
    ¬Trace (·.Keeps (OpaqueValue.id p x)) (past i)
  kept : ∀ i id, Trace (·.Drops id) (past i) → Trace (·.Keeps id) (past i)

omit [DecidableEq ι] in
theorem drawing_nil (p : Primitives) (first : Nat) (b : Backend) :
    Drawing p first b (fun _ : ι => []) where
  range _ _ h := absurd h trace_nil
  apart _ _ _ _ h := absurd h trace_nil
  drawn _ _ h := absurd h trace_nil
  unused _ _ h := by cases h
  kept _ _ h := absurd h trace_nil

theorem draws_of_getLast? {past : List Exchange} {x : String}
    (h : past.getLast? = some ⟨.freshValue, x⟩) : Trace (·.Draws x) past :=
  ⟨_, List.mem_of_getLast? h, rfl⟩

/-- An exchange that draws nothing, and keeps and deletes only records of values that its call has
drawn. -/
theorem Drawing.step {p : Primitives} {b' : Backend} {x : Exchange} (h : Drawing p first b past)
    (hsupply : b'.supply = b.supply) (hdrawn : b.drawn ≤ b'.drawn) (hdraws : ∀ y, ¬x.Draws y)
    (hkeeps : ∀ id, x.Keeps id → ∃ y, Trace (·.Draws y) (past i) ∧ id = OpaqueValue.id p y)
    (hdrops : ∀ id, x.Drops id → Trace (·.Keeps id) (past i)) :
    Drawing p first b' (after past i x) := by
  have hold : ∀ j y, Trace (·.Draws y) (after past i x j) ↔ Trace (·.Draws y) (past j) := by
    intro j y
    rw [trace_after]
    exact or_iff_left fun h => hdraws y h.2
  refine ⟨fun j y hy => ?_, fun j k y z hy hz => ?_, fun j id hid => ?_, fun j y hy hid => ?_,
    fun j id hid => ?_⟩
  · obtain ⟨n, hle, hlt, hvalue⟩ := h.range j y ((hold j y).1 hy)
    exact ⟨n, hle, by omega, by rw [hsupply, hvalue]⟩
  · exact h.apart j k y z ((hold j y).1 hy) ((hold k z).1 hz)
  · simp only [hold]
    rcases trace_after.1 hid with hid' | ⟨rfl, hid'⟩
    · exact h.drawn j id hid'
    · exact hkeeps id hid'
  · rw [getLast?_after] at hy
    split at hy
    · obtain rfl := Option.some.inj hy
      exact hdraws y rfl
    · next hj =>
      rcases trace_after.1 hid with hid | ⟨hji, -⟩
      · exact h.unused j y hy hid
      · exact hj hji
  · rcases trace_after.1 hid with hid' | ⟨rfl, hid'⟩
    · exact trace_after.2 (.inl (h.kept j id hid'))
    · exact trace_after.2 (.inl (hdrops id hid'))

omit [DecidableEq ι] in
/-- No call has kept a record for a value that was just drawn. -/
theorem Drawing.unkept {p : Primitives} {x : String} (h : Drawing p first b past)
    (hlast : (past i).getLast? = some ⟨.freshValue, x⟩) (j : ι) :
    ¬Trace (·.Keeps (OpaqueValue.id p x)) (past j) := fun hkept => by
  obtain ⟨y, hy, he⟩ := h.drawn j _ hkept
  have hij := h.apart i j x y (draws_of_getLast? hlast) hy he
  subst hij
  exact h.unused i x hlast hkept

theorem Drawing.draw {p : Primitives} (h : Drawing p first b past) (hfirst : first ≤ b.drawn)
    (hfresh : ∀ n, first ≤ n → n < b.drawn →
      OpaqueValue.id p (b.supply.value n) ≠ OpaqueValue.id p (b.supply.value b.drawn)) :
    Drawing p first { b with drawn := b.drawn + 1 }
      (after past i ⟨.freshValue, b.supply.value b.drawn⟩) := by
  have hnew : ∀ j y, Trace (·.Draws y) (past j) →
      OpaqueValue.id p y ≠ OpaqueValue.id p (b.supply.value b.drawn) := by
    intro j y hy he
    obtain ⟨n, hle, hlt, rfl⟩ := h.range j y hy
    exact hfresh n hle hlt he
  refine ⟨fun j y hy => ?_, fun j k y z hy hz he => ?_, fun j id hid => ?_, fun j y hy hid => ?_,
    fun j id hid => ?_⟩
  · rcases trace_after.1 hy with hy | ⟨rfl, rfl⟩
    · obtain ⟨n, hle, hlt, hvalue⟩ := h.range j y hy
      exact ⟨n, hle, Nat.lt_succ_of_lt hlt, hvalue⟩
    · exact ⟨b.drawn, hfirst, Nat.lt_succ_self _, rfl⟩
  · rcases trace_after.1 hy with hy' | ⟨rfl, rfl⟩ <;> rcases trace_after.1 hz with hz' | ⟨rfl, rfl⟩
    · exact h.apart j k y z hy' hz' he
    · exact absurd he (hnew j y hy')
    · exact absurd he.symm (hnew k z hz')
    · rfl
  · rcases trace_after.1 hid with hid | ⟨-, ⟨⟩⟩
    obtain ⟨x, hx, he⟩ := h.drawn j id hid
    exact ⟨x, trace_after.2 (.inl hx), he⟩
  · rcases trace_after.1 hid with hid | ⟨-, ⟨⟩⟩
    rw [getLast?_after] at hy
    split at hy
    · obtain ⟨x, hx, he⟩ := h.drawn j _ hid
      cases hy
      exact hnew j x hx he.symm
    · exact h.unused j y hy hid
  · rcases trace_after.1 hid with hid | ⟨-, ⟨⟩⟩
    exact trace_after.2 (.inl (h.kept j id hid))

/-! ### Records -/

/-- Kept records belong to one subject, and those that were deleted stay away. -/
structure Storing (s : SubjectId) (b : Backend) (past : ι → List Exchange) : Prop where
  own : ∀ i id, Trace (·.Keeps id) (past i) → ∀ r, b.store.find? id = some r → r.subject = s
  gone : ∀ i id, Trace (·.Drops id) (past i) → b.store.find? id = none

/-- Records may be dropped or marked as long as the call itself keeps and deletes none. -/
theorem Storing.step {b' : Backend} {x : Exchange} (h : Storing s b past)
    (hstore : ∀ id r', b'.store.find? id = some r' → ∃ r, b.store.find? id = some r ∧ r.Becomes r')
    (hkeeps : ∀ id, ¬x.Keeps id) (hdrops : ∀ id, ¬x.Drops id) : Storing s b' (after past i x) := by
  refine ⟨fun j id hid r' hr' => ?_, fun j id hid => ?_⟩
  · simp only [trace_after, hkeeps, and_false, or_false] at hid
    obtain ⟨r, hr, hbecomes⟩ := hstore id r' hr'
    rw [hbecomes.subject_eq]
    exact h.own j id hid r hr
  · simp only [trace_after, hdrops, and_false, or_false] at hid
    refine Option.eq_none_iff_forall_ne_some.2 fun r' hr' => ?_
    obtain ⟨r, hr, -⟩ := hstore id r' hr'
    rw [h.gone j id hid] at hr
    cases hr

theorem Storing.keep {p : Primitives} {x : String} {r : TokenRecord}
    {a : (Ask.insertRecord r).Answer} (h : Storing s b past) (hd : Drawing p first b past)
    (hlast : (past i).getLast? = some ⟨.freshValue, x⟩) (hid : r.id = OpaqueValue.id p x)
    (hsubject : r.subject = s) :
    Storing s { b with store := b.store.insert r } (after past i ⟨.insertRecord r, a⟩) := by
  refine ⟨fun j id hkeeps r' hr' => ?_, fun j id hdrops => ?_⟩
  · rw [TokenStore.find?_insert] at hr'
    split at hr'
    · obtain rfl := Option.some.inj hr'
      exact hsubject
    · next hne =>
      rcases trace_after.1 hkeeps with hkeeps | ⟨-, he⟩
      · exact h.own j id hkeeps r' hr'
      · exact absurd he.symm hne
  · rcases trace_after.1 hdrops with hdrops | ⟨-, ⟨⟩⟩
    rw [TokenStore.find?_insert, if_neg]
    · exact h.gone j id hdrops
    · rintro rfl
      exact hd.unkept hlast j (hid ▸ hd.kept j _ hdrops)

theorem Storing.drop {id : TokenId} {a : (Ask.deleteRecord s id).Answer} (h : Storing s b past)
    (hkept : Trace (·.Keeps id) (past i)) :
    Storing s { b with store := (b.store.delete s id).2 }
      (after past i ⟨.deleteRecord s id, a⟩) := by
  have hfind : ∀ id', (b.store.delete s id).2.find? id' =
      if id' = id then none else b.store.find? id' := by
    intro id'
    rw [TokenStore.find?_delete]
    cases hr : b.store.find? id with
    | none => rfl
    | some r => rw [Option.filter_some, h.own i id hkept r hr]; simp
  refine ⟨fun j id' hkeeps r hr => ?_, fun j id' hdrops => ?_⟩
  · rcases trace_after.1 hkeeps with hkeeps | ⟨-, ⟨⟩⟩
    rw [hfind] at hr
    split at hr
    · cases hr
    · exact h.own j id' hkeeps r hr
  · rw [hfind]
    split
    · rfl
    · next hne =>
      rcases trace_after.1 hdrops with hdrops | ⟨-, he⟩
      · exact h.gone j id' hdrops
      · exact absurd he.symm hne

/-! ### One step -/

/-- What holds at every moment of the store and the values drawn for it. -/
structure Stocked (m : TokenManager) (s : SubjectId) (start b : Backend) (past : ι → List Exchange) :
    Prop where
  supply : b.supply = start.supply
  drawn : start.drawn ≤ b.drawn
  drawing : Drawing m.primitives start.drawn b past
  storing : Storing s b past

variable {start : Backend}

omit [DecidableEq ι] in
theorem stocked_nil (m : TokenManager) (s : SubjectId) (start : Backend) :
    Stocked m s start start (fun _ : ι => []) where
  supply := rfl
  drawn := Nat.le_refl _
  drawing := drawing_nil ..
  storing := ⟨fun _ _ h => absurd h trace_nil, fun _ _ h => absurd h trace_nil⟩

omit [DecidableEq ι] in
theorem Stocked.clock (h : Stocked m s start b past) (t : Instant) :
    Stocked m s start { b with clock := t } past where
  supply := h.supply
  drawn := h.drawn
  drawing := { h.drawing with }
  storing := { h.storing with }

/-- No tidy question breaks the invariant. -/
theorem Stocked.answer (h : Stocked m s start b past) {q : Ask}
    (hdistinct : m.backing = .stored →
      start.supply.DistinctFrom m.primitives start.drawn (b.answer q).2.drawn)
    (hq : q.Tidy m s (past i)) :
    Stocked m s start (b.answer q).2 (after past i ⟨q, (b.answer q).1⟩) := by
  have hdrawing := h.drawing.step (i := i) (x := ⟨q, (b.answer q).1⟩) (b.answer_supply q)
    (b.drawn_le_answer q)
  have hstoring : (∀ id, ¬(⟨q, (b.answer q).1⟩ : Exchange).Keeps id) →
      (∀ id, ¬(⟨q, (b.answer q).1⟩ : Exchange).Drops id) →
      Storing s (b.answer q).2 (after past i ⟨q, (b.answer q).1⟩) := by
    refine fun hkeeps hdrops => h.storing.step (fun id r' hr' => ?_) hkeeps hdrops
    rcases Backend.found_of_answer hr' with ⟨rfl, hid⟩ | hfound
    · exact absurd hid (hkeeps id)
    · exact hfound
  refine ⟨(b.answer_supply q).trans h.supply, Nat.le_trans h.drawn (b.drawn_le_answer q), ?_, ?_⟩
  · cases q with
    | freshValue =>
      refine h.drawing.draw h.drawn fun n hle hn he => ?_
      rw [h.supply] at he
      have := hdistinct hq n b.drawn hle (Nat.lt_succ_of_lt hn) h.drawn (Nat.lt_succ_self _) he
      omega
    | insertRecord r =>
      obtain ⟨-, x, hlast, hid⟩ := hq
      exact hdrawing (fun _ h => h) (fun id he => ⟨x, draws_of_getLast? hlast, he ▸ hid⟩)
        fun _ h => h.elim
    | deleteRecord s' id =>
      exact hdrawing (fun _ h => h) (fun _ h => h.elim) fun id' he => he ▸ hq.2
    | _ => exact hdrawing (fun _ h => h) (fun _ h => h.elim) fun _ h => h.elim
  · cases q with
    | insertRecord r =>
      obtain ⟨hsubject, x, hlast, hid⟩ := hq
      exact h.storing.keep h.drawing hlast hid hsubject
    | deleteRecord s' id =>
      obtain ⟨rfl, hkept⟩ := hq
      exact h.storing.drop hkept
    | _ => exact hstoring (fun _ h => h) fun _ h => h

end Pool

end AccessControl
