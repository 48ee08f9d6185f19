import AccessControl.Proofs.Policy.Matching

/-!
# Patterns that are plain text

A pattern in which no character has a meaning of its own can always be read, and the only text that
it matches is the pattern itself (`Glob.accepts_plain`).
-/

namespace AccessControl

theorem Text.bytes_append (s t : String) : bytes (s ++ t) = bytes s ++ bytes t := by
  simp [bytes]

namespace Glob

/-- The characters that are not read as themselves outside of a class or a choice. -/
def active : List Char := ['?', '*', '[', '\x7b', '\x7d', '\\']

/-- No character of the text has a meaning in a pattern. -/
def IsPlain (s : String) : Prop := ∀ c ∈ s.toList, c ∉ active

instance (s : String) : Decidable (IsPlain s) := List.decidableBAll (· ∉ active) s.toList

/-! ### Reading -/

variable {cs : List Char} {s t : String}

theorem readTokens_plain {n : Nat} {st : ReadState} (hst : st.groups = []) (hn : cs.length ≤ n)
    (hcs : ∀ c ∈ cs, c ∉ active) :
    readTokens n st cs = .ok (st.tokens.reverse ++ cs.map .literal) := by
  induction cs generalizing n st with
  | nil => simp [readTokens, hst]
  | cons c cs ih =>
    obtain ⟨hc, hcs⟩ := List.forall_mem_cons.1 hcs
    simp only [active, List.mem_cons, List.not_mem_nil, or_false, not_or] at hc
    obtain ⟨hone, hmany, hclass, hopen, hclose, hescape⟩ := hc
    cases n with
    | zero => exact absurd hn (Nat.not_succ_le_zero _)
    | succ n =>
      have hn := Nat.le_of_succ_le_succ hn
      have hnext : readTokens (n + 1) st (c :: cs) =
          readTokens n { st with tokens := .literal c :: st.tokens, last := some c } cs := by
        rw [readTokens.eq_def]
        simp only [if_neg hone, if_neg hmany, if_neg hclass, if_neg hopen, if_neg hclose,
          if_neg hescape, hst, ite_self]
      have hrest : readTokens n { st with tokens := .literal c :: st.tokens, last := some c } cs =
          .ok ((.literal c :: st.tokens).reverse ++ cs.map .literal) := ih hst hn hcs
      rw [hnext, hrest]
      simp

theorem parse_plain (h : IsPlain s) : parse s = .ok ⟨s.toList.map .literal⟩ := by
  unfold parse
  rw [readTokens_plain rfl (Nat.le_of_eq String.length_toList) h]
  rfl

/-! ### Matching -/

variable {b : List UInt8}

theorem strip_eq_some {p b r : List UInt8} : strip p b = some r ↔ b = p ++ r := by
  unfold strip
  by_cases h : p.isPrefixOf b = true
  · obtain ⟨u, rfl⟩ := List.isPrefixOf_iff_prefix.1 h
    rw [if_pos h, List.drop_left]
    simp
  · rw [if_neg h]
    constructor
    · intro hr
      cases hr
    · rintro rfl
      exact absurd (List.isPrefixOf_iff_prefix.2 (List.prefix_append p r)) h

theorem strip_append (p p' b : List UInt8) :
    strip (p ++ p') b = (strip p b).bind (strip p') := by
  ext r
  simp only [Option.bind_eq_some_iff, strip_eq_some, List.append_assoc]
  constructor
  · rintro rfl
    exact ⟨p' ++ r, rfl, rfl⟩
  · rintro ⟨r', rfl, rfl⟩
    rfl

theorem sequenceRests_nil (ts : List Token) : sequenceRests ts [] = [] := by
  induction ts with
  | nil => rfl
  | cons t ts ih => exact ih

/-- Characters that stand for themselves leave what follows their bytes. -/
theorem sequenceRests_literal (cs : List Char) (b : List UInt8) :
    sequenceRests (cs.map .literal) [b] = (strip (Text.bytes (String.ofList cs)) b).toList := by
  induction cs generalizing b with
  | nil => rfl
  | cons c cs ih =>
    rw [String.ofList_cons, Text.bytes_append, strip_append]
    have hfirst : sequenceRests ((c :: cs).map .literal) [b] =
        sequenceRests (cs.map .literal) (dedup ((strip (bytesOf c) b).toList)) := by
      rw [List.map_cons, sequenceRests, List.flatMap_singleton, Token.rests]
    rw [hfirst]
    cases hstrip : strip (bytesOf c) b with
    | none =>
      have hnone : strip (Text.bytes (String.singleton c)) b = none := hstrip
      rw [hnone]
      exact sequenceRests_nil _
    | some r =>
      have hsome : strip (Text.bytes (String.singleton c)) b = some r := hstrip
      rw [hsome]
      exact ih r

/-- A plain text is a pattern for itself alone. -/
theorem accepts_plain (h : IsPlain s) : Accepts s t ↔ t = s := by
  have hmatches : (⟨s.toList.map .literal⟩ : Glob).matches? t =
      (strip (Text.bytes s) (Text.bytes t)).toList.any List.isEmpty := by
    have hrests := sequenceRests_literal s.toList (Text.bytes t)
    rw [String.ofList_toList] at hrests
    rw [← hrests]
    unfold matches?
    split
    · next hleading =>
      obtain ⟨c, -, hc⟩ := List.mem_map.1 (hleading ▸ List.mem_singleton_self Token.leading)
      cases hc
    · rfl
  unfold Accepts
  rw [parse_plain h]
  constructor
  · rintro ⟨g, hg, hgt⟩
    obtain rfl := Except.ok.inj hg
    rw [hmatches] at hgt
    obtain ⟨r, hr, hempty⟩ := List.any_eq_true.1 hgt
    obtain rfl := List.isEmpty_iff.1 hempty
    have hbytes := strip_eq_some.1 (Option.mem_toList.1 hr)
    rw [List.append_nil] at hbytes
    exact Text.bytes_injective hbytes
  · rintro rfl
    refine ⟨_, rfl, ?_⟩
    rw [hmatches, strip_eq_some.2 (List.append_nil _).symm]
    rfl

end Glob

end AccessControl
