/-
  Finite maps that keep their keys in the order of first insertion. Writing to a key that is
  already there replaces its value and leaves its place. `get?_insert` and `keys_insert` say
  all that later modules need to know about a write.
-/

namespace IcLir

structure OrderedMap (κ α : Type) where
  entries : List (κ × α)
  nodup_keys : (entries.map Prod.fst).Nodup

namespace OrderedMap

variable {κ α : Type}

def empty : OrderedMap κ α := ⟨[], List.nodup_nil⟩

instance : Inhabited (OrderedMap κ α) := ⟨empty⟩

def keys (m : OrderedMap κ α) : List κ := m.entries.map Prod.fst

def values (m : OrderedMap κ α) : List α := m.entries.map Prod.snd

def size (m : OrderedMap κ α) : Nat := m.entries.length

theorem size_eq_length_keys (m : OrderedMap κ α) : m.size = m.keys.length := by
  simp [size, keys]

theorem nodup_append_key {entries : List (κ × α)} {k : κ} (v : α)
    (hn : (entries.map Prod.fst).Nodup) (hk : k ∉ entries.map Prod.fst) :
    ((entries ++ [(k, v)]).map Prod.fst).Nodup := by
  rw [List.map_append, List.nodup_append]
  refine ⟨hn, by simp, ?_⟩
  intro a ha b hb hab
  simp only [List.map_cons, List.map_nil, List.mem_singleton] at hb
  exact hk (hb ▸ hab ▸ ha)

variable [DecidableEq κ]

def get? (m : OrderedMap κ α) (k : κ) : Option α :=
  (m.entries.find? (fun e => e.1 = k)).map Prod.snd

/-- The entries with the value at `k` replaced by `v`. -/
def overwrite (k : κ) (v : α) (entries : List (κ × α)) : List (κ × α) :=
  entries.map fun e => if e.1 = k then (k, v) else e

theorem map_fst_overwrite (k : κ) (v : α) (entries : List (κ × α)) :
    (overwrite k v entries).map Prod.fst = entries.map Prod.fst := by
  induction entries with
  | nil => rfl
  | cons e es ih =>
    have h : overwrite k v (e :: es) = (if e.1 = k then (k, v) else e) :: overwrite k v es := rfl
    rw [h, List.map_cons, List.map_cons, ih]
    by_cases he : e.1 = k
    · rw [if_pos he, he]
    · rw [if_neg he]

def insert (m : OrderedMap κ α) (k : κ) (v : α) : OrderedMap κ α :=
  if h : k ∈ m.entries.map Prod.fst then
    ⟨overwrite k v m.entries, by rw [map_fst_overwrite]; exact m.nodup_keys⟩
  else
    ⟨m.entries ++ [(k, v)], nodup_append_key v m.nodup_keys h⟩

theorem get?_empty (k : κ) : (empty : OrderedMap κ α).get? k = none := rfl

theorem keys_insert (m : OrderedMap κ α) (k : κ) (v : α) :
    (m.insert k v).keys = if k ∈ m.keys then m.keys else m.keys ++ [k] := by
  unfold insert keys
  split
  · exact map_fst_overwrite k v m.entries
  · simp

theorem find?_overwrite (k : κ) (v : α) (entries : List (κ × α)) (j : κ) :
    ((overwrite k v entries).find? (fun e => e.1 = j)).map Prod.snd =
      if j = k ∧ k ∈ entries.map Prod.fst then some v
      else (entries.find? (fun e => e.1 = j)).map Prod.snd := by
  induction entries with
  | nil => simp [overwrite]
  | cons e es ih =>
    have h : overwrite k v (e :: es) = (if e.1 = k then (k, v) else e) :: overwrite k v es := rfl
    rw [h]
    by_cases he : e.1 = k
    · by_cases hj : j = k
      · subst hj; simp [he]
      · have hkj : ¬ k = j := fun h => hj h.symm
        rw [if_pos he, List.find?_cons_of_neg (by simpa using hkj), ih,
          List.find?_cons_of_neg (by simpa [he] using hkj)]
        simp [hj]
    · by_cases hj : e.1 = j
      · have hjk : ¬ j = k := fun h => he (hj.trans h)
        simp [hj, hjk]
      · rw [if_neg he, List.find?_cons_of_neg (by simpa using hj), ih,
          List.find?_cons_of_neg (by simpa using hj)]
        have hke : ¬ k = e.1 := fun h => he h.symm
        simp only [List.map_cons, List.mem_cons, hke, false_or]

theorem get?_insert (m : OrderedMap κ α) (k : κ) (v : α) (j : κ) :
    (m.insert k v).get? j = if j = k then some v else m.get? j := by
  unfold insert get?
  split
  · rename_i hk
    rw [find?_overwrite]
    simp [hk]
  · rename_i hk
    by_cases hj : j = k
    · subst hj
      have : m.entries.find? (fun e => e.1 = j) = none := by
        rw [List.find?_eq_none]
        intro e he hej
        exact hk (List.mem_map.mpr ⟨e, he, by simpa using hej⟩)
      simp [this]
    · have hkj : ¬ k = j := fun h => hj h.symm
      simp [List.find?_append, hj, hkj]

theorem get?_insert_self (m : OrderedMap κ α) (k : κ) (v : α) :
    (m.insert k v).get? k = some v := by
  simp [get?_insert]

theorem get?_insert_of_ne (m : OrderedMap κ α) {k j : κ} (v : α) (h : j ≠ k) :
    (m.insert k v).get? j = m.get? j := by
  simp [get?_insert, h]

theorem get?_eq_none_iff (m : OrderedMap κ α) (k : κ) : m.get? k = none ↔ k ∉ m.keys := by
  simp only [get?, Option.map_eq_none_iff, List.find?_eq_none, keys, List.mem_map, not_exists,
    not_and, decide_eq_true_eq]

end OrderedMap

end IcLir
