/-
Histories of writes to a keyed store.

A history is the list of the `(key, value)` writes made so far, oldest first.
`lastValue` is what a map that honours every write holds for a key.  `owner`
is what a direct-mapped table that never evicts holds in a slot: the first
write whose key hashes there.  The lemmas say how both move when one write is
added at the end of the history.
-/
import Mathlib.Data.List.Infix

namespace SmartHAProxy

variable {κ ν ι : Type*} [DecidableEq κ] [DecidableEq ι]
variable {ops : List (κ × ν)} {k : κ}

/-- The value of the last write to `k`, if there is one. -/
def lastValue (ops : List (κ × ν)) (k : κ) : Option ν :=
  (ops.reverse.find? fun o => o.1 = k).map Prod.snd

/-- The first write whose key falls into slot `i`. -/
def owner (hash : κ → ι) (ops : List (κ × ν)) (i : ι) : Option (κ × ν) :=
  ops.find? fun o => hash o.1 = i

theorem lastValue_concat (ops : List (κ × ν)) (o : κ × ν) (k : κ) :
    lastValue (ops ++ [o]) k = if o.1 = k then some o.2 else lastValue ops k := by
  unfold lastValue
  rw [List.reverse_append]
  by_cases h : o.1 = k <;> simp [h]

theorem lastValue_isSome_iff : (lastValue ops k).isSome ↔ k ∈ ops.map Prod.fst := by
  simp [lastValue]

theorem lastValue_eq_none_iff : lastValue ops k = none ↔ k ∉ ops.map Prod.fst := by
  rw [← lastValue_isSome_iff, Option.not_isSome_iff_eq_none]

variable (hash : κ → ι)

omit [DecidableEq κ] in
theorem owner_concat (ops : List (κ × ν)) (o : κ × ν) (i : ι) :
    owner hash (ops ++ [o]) i
      = (owner hash ops i).or (if hash o.1 = i then some o else none) := by
  unfold owner
  rw [List.find?_append]
  by_cases h : hash o.1 = i <;> simp [h]

variable {hash}

omit [DecidableEq κ] in
theorem owner_mem {i : ι} {o : κ × ν} (h : owner hash ops i = some o) : o ∈ ops ∧ hash o.1 = i :=
  ⟨List.mem_of_find?_eq_some h, by simpa using List.find?_some h⟩

theorem lastValue_owner_isSome {i : ι} {o : κ × ν} (h : owner hash ops i = some o) :
    (lastValue ops o.1).isSome :=
  lastValue_isSome_iff.mpr (List.mem_map_of_mem (owner_mem h).1)

theorem lastValue_eq_none_of_owner (h : owner hash ops (hash k) = none) :
    lastValue ops k = none := by
  rw [lastValue_eq_none_iff]
  intro hk
  obtain ⟨o, ho, rfl⟩ := List.mem_map.mp hk
  have := List.find?_eq_none.mp h o ho
  simp at this

end SmartHAProxy
