import Mathlib.Data.List.Nodup

set_option autoImplicit false

/-!
# Insertion-ordered tables

A finite map that remembers the order in which its keys were first inserted:
assigning to a present key keeps the key's place, assigning to a new one appends
it. Keys never repeat.
-/
namespace StrataMemory.KeyedTables

variable {κ ν : Type}

structure Table (κ ν : Type) where
  entries : List (κ × ν)
  nodup_keys : (entries.map Prod.fst).Nodup

namespace Table

def empty : Table κ ν := ⟨[], List.nodup_nil⟩

instance : EmptyCollection (Table κ ν) := ⟨empty⟩
instance : Inhabited (Table κ ν) := ⟨empty⟩

def keys (d : Table κ ν) : List κ := d.entries.map Prod.fst
def values (d : Table κ ν) : List ν := d.entries.map Prod.snd

def mapValues {μ : Type} (d : Table κ ν) (f : ν → μ) : Table κ μ :=
  ⟨d.entries.map fun e => (e.1, f e.2), by simpa [Function.comp_def] using d.nodup_keys⟩

section Keys
variable [DecidableEq κ]

def lookupIn (k : κ) : List (κ × ν) → Option ν
  | [] => none
  | e :: rest => if e.1 = k then some e.2 else lookupIn k rest

def assignIn (k : κ) (v : ν) : List (κ × ν) → List (κ × ν)
  | [] => [(k, v)]
  | e :: rest => if e.1 = k then (k, v) :: rest else e :: assignIn k v rest

theorem lookupIn_assignIn (k j : κ) (v : ν) (es : List (κ × ν)) :
    lookupIn j (assignIn k v es) = if k = j then some v else lookupIn j es := by
  induction es with
  | nil => rfl
  | cons e es ih =>
    by_cases he : e.1 = k
    · by_cases hk : k = j <;> simp [assignIn, lookupIn, he, hk]
    · by_cases hj : e.1 = j
      · have hk : ¬ k = j := fun h => he (hj.trans h.symm)
        have hk' : ¬ j = k := fun h => hk h.symm
        simp [assignIn, lookupIn, hj, hk, hk']
      · simp [assignIn, lookupIn, he, hj, ih]

theorem filter_assignIn {p : κ → Bool} {k : κ} (hp : p k = false) (v : ν) (es : List (κ × ν)) :
    (assignIn k v es).filter (fun e => p e.1) = es.filter fun e => p e.1 := by
  induction es with
  | nil => simp [assignIn, hp]
  | cons e es ih =>
    by_cases he : e.1 = k
    · simp [assignIn, he, hp]
    · simp only [assignIn, he, ↓reduceIte, List.filter_cons, ih]

theorem keys_assignIn (k : κ) (v : ν) (es : List (κ × ν)) :
    (assignIn k v es).map Prod.fst =
      if k ∈ es.map Prod.fst then es.map Prod.fst else es.map Prod.fst ++ [k] := by
  induction es with
  | nil => simp [assignIn]
  | cons e es ih =>
    by_cases he : e.1 = k
    · simp [assignIn, he]
    · have hne : ¬ k = e.1 := Ne.symm he
      simp only [assignIn, he, ↓reduceIte, List.map_cons, List.mem_cons, hne, false_or, ih]
      split <;> rfl

theorem mem_keys_assignIn (k j : κ) (v : ν) (es : List (κ × ν)) :
    j ∈ (assignIn k v es).map Prod.fst ↔ j = k ∨ j ∈ es.map Prod.fst := by
  rw [keys_assignIn]
  split
  · rename_i hk
    exact ⟨.inr, fun h => h.elim (fun hj => hj ▸ hk) fun hj => hj⟩
  · rw [List.mem_append, List.mem_singleton, or_comm]

theorem nodup_assignIn (k : κ) (v : ν) (es : List (κ × ν)) (h : (es.map Prod.fst).Nodup) :
    ((assignIn k v es).map Prod.fst).Nodup := by
  rw [keys_assignIn]
  split
  · exact h
  · rename_i hk
    rw [List.nodup_append]
    refine ⟨h, List.nodup_singleton k, fun j hj i hi hji => hk ?_⟩
    cases List.mem_singleton.mp hi
    exact hji ▸ hj

theorem lookupIn_filter (p : κ → Bool) (j : κ) (es : List (κ × ν)) :
    lookupIn j (es.filter fun e => p e.1) = if p j then lookupIn j es else none := by
  induction es with
  | nil => simp [lookupIn]
  | cons e es ih =>
    by_cases hp : p e.1 = true
    · by_cases hj : e.1 = j
      · subst hj
        simp [lookupIn, hp]
      · simp [lookupIn, hp, hj, ih]
    · by_cases hj : e.1 = j
      · subst hj
        simp [hp, ih]
      · simp [lookupIn, hp, hj, ih]

theorem lookupIn_eq_some {k : κ} {v : ν} {es : List (κ × ν)} (h : (es.map Prod.fst).Nodup) :
    lookupIn k es = some v ↔ (k, v) ∈ es := by
  induction es with
  | nil => simp [lookupIn]
  | cons e es ih =>
    rw [List.map_cons, List.nodup_cons] at h
    obtain ⟨j, u⟩ := e
    by_cases hj : j = k
    · subst hj
      have hn : (j, v) ∉ es := fun hm => h.1 (List.mem_map.mpr ⟨(j, v), hm, rfl⟩)
      simp [lookupIn, hn, eq_comm]
    · have hne : ¬ k = j := fun h' => hj h'.symm
      simp [lookupIn, hj, hne, ih h.2]

theorem lookupIn_isSome (k : κ) (es : List (κ × ν)) :
    (lookupIn k es).isSome ↔ k ∈ es.map Prod.fst := by
  induction es with
  | nil => simp [lookupIn]
  | cons e es ih =>
    by_cases hj : e.1 = k
    · simp [lookupIn, hj]
    · have hne : ¬ k = e.1 := fun h' => hj h'.symm
      simp only [lookupIn, hj, ↓reduceIte, ih, List.map_cons, List.mem_cons, hne, false_or]

def get? (d : Table κ ν) (k : κ) : Option ν := lookupIn k d.entries
def contains (d : Table κ ν) (k : κ) : Bool := (d.get? k).isSome

/-- Assign `v` to `k`, in place when `k` is present. -/
def set (d : Table κ ν) (k : κ) (v : ν) : Table κ ν :=
  ⟨assignIn k v d.entries, nodup_assignIn k v d.entries d.nodup_keys⟩

def filterKeys (d : Table κ ν) (p : κ → Bool) : Table κ ν :=
  ⟨d.entries.filter fun e => p e.1, d.nodup_keys.sublist (List.filter_sublist.map _)⟩

def erase (d : Table κ ν) (k : κ) : Table κ ν := d.filterKeys fun j => !decide (j = k)
def eraseAll (d : Table κ ν) (ks : List κ) : Table κ ν := d.filterKeys fun j => !decide (j ∈ ks)

def modify (d : Table κ ν) (k : κ) (f : ν → ν) : Table κ ν :=
  match d.get? k with
  | none => d
  | some v => d.set k (f v)

@[simp] theorem get?_empty (k : κ) : (∅ : Table κ ν).get? k = none := rfl
@[simp] theorem contains_empty (k : κ) : (∅ : Table κ ν).contains k = false := rfl

theorem get?_set (d : Table κ ν) (k j : κ) (v : ν) :
    (d.set k v).get? j = if k = j then some v else d.get? j :=
  lookupIn_assignIn k j v d.entries

@[simp] theorem get?_set_self (d : Table κ ν) (k : κ) (v : ν) : (d.set k v).get? k = some v := by
  rw [get?_set, if_pos rfl]

theorem get?_set_of_ne (d : Table κ ν) {k j : κ} (v : ν) (h : k ≠ j) :
    (d.set k v).get? j = d.get? j := by
  rw [get?_set, if_neg h]

theorem get?_filterKeys (d : Table κ ν) (p : κ → Bool) (j : κ) :
    (d.filterKeys p).get? j = if p j then d.get? j else none :=
  lookupIn_filter p j d.entries

@[simp] theorem get?_erase (d : Table κ ν) (k j : κ) :
    (d.erase k).get? j = if j = k then none else d.get? j := by
  unfold erase
  rw [get?_filterKeys]
  by_cases h : j = k <;> simp [h]

@[simp] theorem get?_eraseAll (d : Table κ ν) (ks : List κ) (j : κ) :
    (d.eraseAll ks).get? j = if j ∈ ks then none else d.get? j := by
  unfold eraseAll
  rw [get?_filterKeys]
  by_cases h : j ∈ ks <;> simp [h]

theorem get?_modify (d : Table κ ν) (k j : κ) (f : ν → ν) :
    (d.modify k f).get? j = if k = j then (d.get? j).map f else d.get? j := by
  unfold modify
  cases hk : d.get? k with
  | none =>
    by_cases h : k = j
    · subst h
      simp [hk]
    · simp [h]
  | some v =>
    simp only [get?_set]
    by_cases h : k = j
    · subst h
      simp [hk]
    · simp [h]

theorem get?_mapValues {μ : Type} (d : Table κ ν) (f : ν → μ) (k : κ) :
    (d.mapValues f).get? k = (d.get? k).map f := by
  change lookupIn k (d.entries.map fun e => (e.1, f e.2)) = (lookupIn k d.entries).map f
  induction d.entries with
  | nil => rfl
  | cons e es ih =>
    by_cases he : e.1 = k
    · simp [lookupIn, he]
    · simpa [lookupIn, he] using ih

@[simp] theorem contains_mapValues {μ : Type} (d : Table κ ν) (f : ν → μ) (k : κ) :
    (d.mapValues f).contains k = d.contains k := by
  unfold contains
  rw [get?_mapValues, Option.isSome_map]

theorem contains_set (d : Table κ ν) (k j : κ) (v : ν) :
    (d.set k v).contains j = (decide (k = j) || d.contains j) := by
  unfold contains
  rw [get?_set]
  by_cases h : k = j <;> simp [h]

@[simp] theorem contains_modify (d : Table κ ν) (k j : κ) (f : ν → ν) :
    (d.modify k f).contains j = d.contains j := by
  unfold contains
  rw [get?_modify]
  by_cases h : k = j <;> simp [h]

theorem contains_erase (d : Table κ ν) (k j : κ) :
    (d.erase k).contains j = (!decide (j = k) && d.contains j) := by
  unfold contains
  rw [get?_erase]
  by_cases h : j = k <;> simp [h]

theorem contains_eraseAll (d : Table κ ν) (ks : List κ) (j : κ) :
    (d.eraseAll ks).contains j = (!decide (j ∈ ks) && d.contains j) := by
  unfold contains
  rw [get?_eraseAll]
  by_cases h : j ∈ ks <;> simp [h]

theorem values_set_of_not_contains (d : Table κ ν) (k : κ) (v : ν) (h : d.contains k = false) :
    (d.set k v).values = d.values ++ [v] := by
  have hassign : ∀ es : List (κ × ν), k ∉ es.map Prod.fst →
      assignIn k v es = es ++ [(k, v)] := by
    intro es
    induction es with
    | nil => intro _; rfl
    | cons e es ih =>
      intro hk
      rw [List.map_cons, List.mem_cons, not_or] at hk
      have he : ¬ e.1 = k := fun h => hk.1 h.symm
      simp [assignIn, he, ih hk.2]
  have hk : k ∉ d.keys := fun hm => by
    rw [show d.contains k = true from (lookupIn_isSome k d.entries).mpr hm] at h
    cases h
  change (assignIn k v d.entries).map Prod.snd = d.entries.map Prod.snd ++ [v]
  rw [hassign d.entries hk, List.map_append]
  rfl

theorem contains_of_get? {d : Table κ ν} {k : κ} {v : ν} (h : d.get? k = some v) :
    d.contains k = true := by
  unfold contains
  rw [h]
  rfl

theorem get?_eq_none {d : Table κ ν} {k : κ} : d.get? k = none ↔ d.contains k = false := by
  unfold contains
  cases d.get? k <;> simp

theorem mem_entries {d : Table κ ν} {k : κ} {v : ν} : (k, v) ∈ d.entries ↔ d.get? k = some v :=
  (lookupIn_eq_some d.nodup_keys).symm

theorem get?_foldl_set {μ : Type} (f : ν → μ) {es : List (κ × ν)}
    (h : (es.map Prod.fst).Nodup) (d : Table κ μ) (k : κ) :
    (es.foldl (fun t e => t.set e.1 (f e.2)) d).get? k = ((lookupIn k es).map f).or (d.get? k) := by
  induction es generalizing d with
  | nil => rfl
  | cons e es ih =>
    rw [List.map_cons, List.nodup_cons] at h
    rw [List.foldl_cons, ih h.2, get?_set]
    by_cases hk : e.1 = k
    · have hnone : lookupIn k es = none :=
        Option.not_isSome_iff_eq_none.mp fun hsome => h.1 (hk ▸ (lookupIn_isSome k es).mp hsome)
      simp [lookupIn, hk, hnone]
    · simp [lookupIn, hk]

theorem lookupIn_perm {es : List (κ × ν)} (d : Table κ ν) (h : es.Perm d.entries) (k : κ) :
    lookupIn k es = d.get? k := by
  have hnodup : (es.map Prod.fst).Nodup := (h.map Prod.fst).nodup_iff.mpr d.nodup_keys
  refine Option.ext fun v => ?_
  rw [lookupIn_eq_some hnodup, ← mem_entries, h.mem_iff]

end Keys
end Table
end StrataMemory.KeyedTables
