/-
Python dictionaries that are iterated over.

A `dict` keeps its items in the order in which their keys came in; writing to a key that is
there keeps its place.
-/
import Mathlib.Data.List.Nodup

namespace SmartHAProxy

/-- `dict`: the items in order, no key twice. -/
structure PyDict (κ α : Type*) where
  items : List (κ × α)
  nodup : (items.map Prod.fst).Nodup

namespace PyDict

variable {κ α β : Type*}
variable {d : PyDict κ α} {k : κ}

/-- `{}`. -/
def empty : PyDict κ α := ⟨[], List.nodup_nil⟩

/-- `d.keys()`. -/
def keys (d : PyDict κ α) : List κ := d.items.map Prod.fst

/-- `{k: f(k) for k in ks}` for keys that differ. -/
def ofKeys (ks : List κ) (h : ks.Nodup) (f : κ → α) : PyDict κ α where
  items := ks.map fun k => (k, f k)
  nodup := by
    have hfst : Prod.fst ∘ (fun k => (k, f k)) = id := rfl
    rw [List.map_map, hfst, List.map_id]
    exact h

def mapValues (d : PyDict κ α) (f : κ → α → β) : PyDict κ β where
  items := d.items.map fun e => (e.1, f e.1 e.2)
  nodup := by
    rw [List.map_map]
    exact d.nodup

@[simp] theorem keys_ofKeys (ks : List κ) (h : ks.Nodup) (f : κ → α) :
    (ofKeys ks h f).keys = ks := by
  have hfst : Prod.fst ∘ (fun k => (k, f k)) = id := rfl
  show (ks.map fun k => (k, f k)).map Prod.fst = ks
  rw [List.map_map, hfst, List.map_id]

@[simp] theorem keys_mapValues (d : PyDict κ α) (f : κ → α → β) :
    (d.mapValues f).keys = d.keys := by
  show (d.items.map _).map Prod.fst = d.items.map Prod.fst
  rw [List.map_map]
  rfl

variable [DecidableEq κ]

/-- `d.get(k)`: `d[k]` raises a `KeyError` if there is none. -/
def get? (d : PyDict κ α) (k : κ) : Option α := (d.items.find? (·.1 = k)).map Prod.snd

/-- `d[k] = a`. -/
def set (d : PyDict κ α) (k : κ) (a : α) : PyDict κ α :=
  if h : k ∈ d.keys then
    { items := d.items.map fun e => if e.1 = k then (e.1, a) else e
      nodup := by
        have hfst : Prod.fst ∘ (fun e : κ × α => if e.1 = k then (e.1, a) else e) = Prod.fst := by
          funext e
          show (if e.1 = k then (e.1, a) else e).1 = e.1
          split_ifs <;> rfl
        rw [List.map_map, hfst]
        exact d.nodup }
  else
    { items := d.items ++ [(k, a)]
      nodup := by
        rw [List.map_append, List.nodup_append]
        refine ⟨d.nodup, List.nodup_singleton k, fun b hb c hc => ?_⟩
        obtain rfl : c = k := by simpa using hc
        rintro rfl
        exact h hb }

/-! ### Reading and writing -/

theorem get?_eq_some {a : α} : d.get? k = some a ↔ (k, a) ∈ d.items := by
  rw [get?, Option.map_eq_some_iff]
  constructor
  · rintro ⟨e, he, rfl⟩
    obtain rfl : e.1 = k := by simpa using List.find?_some he
    exact List.mem_of_find?_eq_some he
  · intro hmem
    refine ⟨(k, a), ?_, rfl⟩
    rcases hfind : d.items.find? (·.1 = k) with - | e
    · exact absurd (decide_eq_true rfl) (List.find?_eq_none.mp hfind (k, a) hmem)
    · have hkey : e.1 = k := by simpa using List.find?_some hfind
      have heq : e = (k, a) :=
        List.inj_on_of_nodup_map d.nodup (List.mem_of_find?_eq_some hfind) hmem hkey
      rw [hfind, heq]

theorem mem_keys : k ∈ d.keys ↔ ∃ a, d.get? k = some a := by
  simp only [get?_eq_some, keys, List.mem_map]
  constructor
  · rintro ⟨e, he, rfl⟩
    exact ⟨e.2, he⟩
  · rintro ⟨a, ha⟩
    exact ⟨(k, a), ha, rfl⟩

theorem keys_set_of_mem (h : k ∈ d.keys) (a : α) : (d.set k a).keys = d.keys := by
  rw [set, dif_pos h]
  show (d.items.map _).map Prod.fst = d.items.map Prod.fst
  rw [List.map_map]
  apply List.map_congr_left
  intro e _
  show (if e.1 = k then (e.1, a) else e).1 = e.1
  split_ifs <;> rfl

theorem keys_set_of_not_mem (h : k ∉ d.keys) (a : α) : (d.set k a).keys = d.keys ++ [k] := by
  rw [set, dif_neg h]
  show (d.items ++ [(k, a)]).map Prod.fst = _
  rw [List.map_append]
  rfl

theorem keys_set_congr {d' : PyDict κ β} (h : d.keys = d'.keys) (k : κ) (a : α) (b : β) :
    (d.set k a).keys = (d'.set k b).keys := by
  by_cases hk : k ∈ d.keys
  · rw [keys_set_of_mem hk, keys_set_of_mem (h ▸ hk), h]
  · rw [keys_set_of_not_mem hk, keys_set_of_not_mem (h ▸ hk), h]

/-- What is read after a write. -/
theorem get?_set (d : PyDict κ α) (k k' : κ) (a : α) :
    (d.set k a).get? k' = if k' = k then some a else d.get? k' := by
  apply Option.ext
  intro b
  rw [get?_eq_some]
  by_cases hk : k ∈ d.keys
  · rw [set, dif_pos hk]
    show (k', b) ∈ d.items.map _ ↔ _
    rw [List.mem_map]
    split_ifs with heq
    · subst heq
      constructor
      · rintro ⟨e, -, he⟩
        split_ifs at he with hkey
        · obtain rfl : a = b := congrArg Prod.snd he
          rfl
        · exact absurd (congrArg Prod.fst he) hkey
      · intro hb
        obtain rfl := Option.some.inj hb
        obtain ⟨e, he, hkey⟩ := List.mem_map.mp hk
        refine ⟨e, he, ?_⟩
        rw [if_pos hkey, hkey]
    · rw [get?_eq_some]
      constructor
      · rintro ⟨e, he, heb⟩
        split_ifs at heb with hkey
        · exact absurd ((congrArg Prod.fst heb).symm.trans hkey) heq
        · exact heb ▸ he
      · exact fun hmem => ⟨(k', b), hmem, if_neg heq⟩
  · rw [set, dif_neg hk]
    show (k', b) ∈ d.items ++ [(k, a)] ↔ _
    rw [List.mem_append, List.mem_singleton]
    split_ifs with heq
    · subst heq
      constructor
      · rintro (hmem | hnew)
        · exact absurd (List.mem_map_of_mem hmem) hk
        · obtain rfl : b = a := congrArg Prod.snd hnew
          rfl
      · intro hb
        obtain rfl := Option.some.inj hb
        exact .inr rfl
    · rw [get?_eq_some]
      constructor
      · rintro (hmem | hnew)
        · exact hmem
        · exact absurd (congrArg Prod.fst hnew) heq
      · exact .inl

theorem get?_ofKeys {ks : List κ} (h : ks.Nodup) (f : κ → α) (hk : k ∈ ks) :
    (ofKeys ks h f).get? k = some (f k) := by
  rw [get?_eq_some]
  exact List.mem_map.mpr ⟨k, hk, rfl⟩

theorem get?_mapValues (d : PyDict κ α) (f : κ → α → β) (k : κ) :
    (d.mapValues f).get? k = (d.get? k).map (f k) := by
  apply Option.ext
  intro b
  rw [get?_eq_some, Option.map_eq_some_iff]
  constructor
  · intro hmem
    obtain ⟨e, he, heq⟩ := List.mem_map.mp hmem
    obtain rfl : e.1 = k := congrArg Prod.fst heq
    exact ⟨e.2, get?_eq_some.mpr he, congrArg Prod.snd heq⟩
  · rintro ⟨a, ha, rfl⟩
    exact List.mem_map.mpr ⟨(k, a), get?_eq_some.mp ha, rfl⟩

end PyDict

end SmartHAProxy
