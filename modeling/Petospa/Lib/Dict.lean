import Mathlib.Data.List.Nodup
import Mathlib.Tactic.Common

/-!
# Dictionaries in insertion order

A dictionary lists its entries in the order in which their keys were first set.
No key occurs twice, so an update in place, a lookup and a pass over all entries
agree.
-/

/-- A dictionary whose iteration follows the insertion of its keys. -/
structure Dict (κ ν : Type*) where
  entries : List (κ × ν)
  nodup : (entries.map Prod.fst).Nodup

namespace Dict

variable {κ ν ω : Type*}

def empty : Dict κ ν := ⟨[], List.nodup_nil⟩

def keys (d : Dict κ ν) : List κ := d.entries.map Prod.fst

variable [DecidableEq κ]

def get? (d : Dict κ ν) (key : κ) : Option ν := (d.entries.find? (·.1 = key)).map Prod.snd

/-- Add a key behind the others, unless it is there. -/
def insertKey (keys : List κ) (key : κ) : List κ := if key ∈ keys then keys else keys ++ [key]

theorem mem_insertKey {keys : List κ} {key k : κ} :
    k ∈ insertKey keys key ↔ k ∈ keys ∨ k = key := by
  rw [insertKey]
  split
  · rename_i h
    constructor
    · exact .inl
    · rintro (hk | rfl)
      · exact hk
      · exact h
  · simp

def modifyEntries (key : κ) (default : ν) (f : ν → ν) : List (κ × ν) → List (κ × ν)
  | [] => [(key, f default)]
  | e :: entries =>
      if e.1 = key then (e.1, f e.2) :: entries else e :: modifyEntries key default f entries

theorem keys_modifyEntries (key : κ) (default : ν) (f : ν → ν) (entries : List (κ × ν)) :
    (modifyEntries key default f entries).map Prod.fst = insertKey (entries.map Prod.fst) key := by
  induction entries with
  | nil => rfl
  | cons e entries ih =>
      rw [modifyEntries]
      by_cases hkey : e.1 = key
      · simp [hkey, insertKey]
      · have hne : ¬ key = e.1 := fun h => hkey h.symm
        rw [if_neg hkey, List.map_cons, ih]
        simp only [insertKey, List.map_cons, List.mem_cons, hne, false_or]
        split <;> rfl

theorem nodup_insertKey {keys : List κ} (h : keys.Nodup) (key : κ) :
    (insertKey keys key).Nodup := by
  rw [insertKey]
  split
  · exact h
  · rename_i hkey
    exact List.nodup_append.mpr ⟨h, List.nodup_singleton _, by
      rintro k hk _ hmem rfl
      rw [List.mem_singleton] at hmem
      exact hkey (hmem ▸ hk)⟩

/-- Update the value of a key, which starts from a default. -/
def modify (d : Dict κ ν) (key : κ) (default : ν) (f : ν → ν) : Dict κ ν where
  entries := modifyEntries key default f d.entries
  nodup := by
    rw [keys_modifyEntries]
    exact nodup_insertKey d.nodup key

def set (d : Dict κ ν) (key : κ) (value : ν) : Dict κ ν := d.modify key value fun _ => value

variable {d : Dict κ ν} {key k : κ} {default v : ν} {f : ν → ν}

@[simp] theorem keys_modify : (d.modify key default f).keys = insertKey d.keys key :=
  keys_modifyEntries key default f d.entries

theorem get?_modify : (d.modify key default f).get? k =
    if k = key then some (f ((d.get? key).getD default)) else d.get? k := by
  obtain ⟨entries, hnodup⟩ := d
  simp only [get?, modify]
  clear hnodup
  induction entries with
  | nil =>
      by_cases hk : k = key
      · simp [modifyEntries, hk]
      · have hne : ¬ key = k := fun h => hk h.symm
        simp [modifyEntries, hk, hne]
  | cons e entries ih =>
      rw [modifyEntries]
      by_cases hkey : e.1 = key
      · subst hkey
        rw [if_pos rfl, List.find?_cons, List.find?_cons]
        by_cases hk : k = e.1
        · simp [hk]
        · have hne : ¬ e.1 = k := fun h => hk h.symm
          simp [hk, hne]
      · rw [if_neg hkey, List.find?_cons, List.find?_cons, List.find?_cons]
        by_cases hk : e.1 = k
        · have hne : ¬ k = key := fun h => hkey (hk.trans h)
          simp [hk, hne]
        · simpa [hk, hkey] using ih

/-- The value of a known key is updated in place. -/
theorem entries_modify_of_mem (h : key ∈ d.keys) : (d.modify key default f).entries =
    d.entries.map fun e => if e.1 = key then (e.1, f e.2) else e := by
  obtain ⟨entries, hnodup⟩ := d
  simp only [keys, modify] at h ⊢
  induction entries with
  | nil => cases h
  | cons e entries ih =>
      obtain ⟨hfresh, htail⟩ := List.nodup_cons.mp hnodup
      rw [modifyEntries, List.map_cons]
      by_cases hkey : e.1 = key
      · rw [if_pos hkey, if_pos hkey]
        have hrest : ∀ e' ∈ entries, e' = if e'.1 = key then (e'.1, f e'.2) else e' := by
          intro e' he'
          rw [if_neg]
          rintro rfl
          exact hfresh (hkey ▸ List.mem_map_of_mem he')
        rw [← List.map_congr_left hrest, List.map_id']
      · rw [if_neg hkey, if_neg hkey, ih htail]
        rw [List.map_cons, List.mem_cons] at h
        exact h.resolve_left fun heq => hkey heq.symm

/-- A new key comes last. -/
theorem modifyEntries_of_notMem {entries : List (κ × ν)} (h : key ∉ entries.map Prod.fst) :
    modifyEntries key default f entries = entries ++ [(key, f default)] := by
  induction entries with
  | nil => rfl
  | cons e entries ih =>
      rw [List.map_cons, List.mem_cons, not_or] at h
      rw [modifyEntries, if_neg fun heq => h.1 heq.symm, ih h.2, List.cons_append]

theorem entries_modify_of_notMem (h : key ∉ d.keys) :
    (d.modify key default f).entries = d.entries ++ [(key, f default)] :=
  modifyEntries_of_notMem h

/-- What an update keeps of all entries. -/
theorem forall_modify {P : κ × ν → Prop} (h : ∀ e ∈ d.entries, P e) (hnew : P (key, f default))
    (hold : ∀ v, P (key, v) → P (key, f v)) : ∀ e ∈ (d.modify key default f).entries, P e := by
  intro e he
  by_cases hkey : key ∈ d.keys
  · rw [entries_modify_of_mem hkey] at he
    obtain ⟨e', he', rfl⟩ := List.mem_map.mp he
    split
    · rename_i hsame
      subst hsame
      exact hold e'.2 (h e' he')
    · exact h e' he'
  · rw [entries_modify_of_notMem hkey, List.mem_append, List.mem_singleton] at he
    cases he with
    | inl hmem => exact h e hmem
    | inr heq => exact heq ▸ hnew

theorem get?_of_mem (h : (k, v) ∈ d.entries) : d.get? k = some v := by
  obtain ⟨entries, hnodup⟩ := d
  simp only [get?] at h ⊢
  induction entries with
  | nil => cases h
  | cons e entries ih =>
      obtain ⟨hfresh, htail⟩ := List.nodup_cons.mp hnodup
      rw [List.find?_cons]
      rcases List.mem_cons.mp h with rfl | hmem
      · simp
      · have hne : ¬ e.1 = k := by
          rintro rfl
          exact hfresh (List.mem_map.mpr ⟨_, hmem, rfl⟩)
        simpa [hne] using ih htail hmem

theorem mem_of_get? (h : d.get? k = some v) : (k, v) ∈ d.entries := by
  obtain ⟨e, hfind, rfl⟩ := Option.map_eq_some_iff.mp h
  have hkey : e.1 = k := by simpa using List.find?_some hfind
  exact hkey ▸ List.mem_of_find?_eq_some hfind

theorem isSome_get? : (d.get? k).isSome ↔ k ∈ d.keys := by
  simp only [get?, Option.isSome_map, List.find?_isSome, decide_eq_true_eq, keys, List.mem_map]

/-- A pass over all entries that looks at one key finds its value. -/
theorem flatMap_entries (key : κ) (g : ν → List ω) :
    (d.entries.filter (·.1 = key)).flatMap (fun e => g e.2) = ((d.get? key).map g).getD [] := by
  obtain ⟨entries, hnodup⟩ := d
  simp only [get?]
  induction entries with
  | nil => rfl
  | cons e entries ih =>
      obtain ⟨hfresh, htail⟩ := List.nodup_cons.mp hnodup
      rw [List.filter_cons, List.find?_cons]
      by_cases hkey : e.1 = key
      · have hrest : entries.filter (fun e => decide (e.1 = key)) = [] := by
          rw [List.filter_eq_nil_iff]
          intro e' he' hsame
          rw [decide_eq_true_eq] at hsame
          exact hfresh (by rw [hkey, ← hsame]; exact List.mem_map_of_mem he')
        simp [hkey, hrest]
      · simpa [hkey] using ih htail

end Dict
