import AccessControl.Order.SortedMap
import Mathlib.Data.Set.Card

/-!
# The size of a map

A map has as many entries as keys (`encard_keys`), so what a filter takes off the size is the number
of keys whose entries it drops (`encard_dropped`).
-/

namespace AccessControl.SortedMap

variable {κ α : Type} [Keyed κ] [DecidableEq κ]

theorem encard_keys (m : SortedMap κ α) : {k | ∃ a, m.get? k = some a}.encard = m.size := by
  have hkeys : {k | ∃ a, m.get? k = some a} = ↑m.keys.toFinset := by
    ext k
    simp [keys, get?_eq_some]
  rw [hkeys, Set.encard_coe_eq_coe_finsetCard, List.toFinset_card_of_nodup m.nodup_keys, keys,
    List.length_map, size]

omit [DecidableEq κ] in
theorem size_filter (m : SortedMap κ α) (p : κ → α → Bool) :
    m.size - (m.filter p).size = (m.filter fun k a => !p k a).size := by
  have hsplit := List.length_eq_length_filter_add (l := m.toList) fun e => p e.1 e.2
  exact Nat.sub_eq_of_eq_add' hsplit

theorem encard_dropped (m : SortedMap κ α) (p : κ → α → Bool) :
    {k | ∃ a, m.get? k = some a ∧ p k a = false}.encard = (m.size - (m.filter p).size : Nat) := by
  rw [size_filter, ← encard_keys]
  congr 1
  ext k
  simp [Option.filter_eq_some_iff]

end AccessControl.SortedMap
