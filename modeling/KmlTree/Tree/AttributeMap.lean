/-!
# Attributes in order

The attributes of an element form a small map that keeps the order in which its keys were first set.
Setting a key anew replaces the value and leaves the key in its place.
-/
namespace KmlTree

/-- A map from keys to texts that keeps the order in which keys were first set. -/
structure AttributeMap (κ : Type) where
  entries : List (κ × String) := []
  deriving DecidableEq, Repr

namespace AttributeMap

variable {κ : Type}

instance : EmptyCollection (AttributeMap κ) := ⟨⟨[]⟩⟩

instance : Inhabited (AttributeMap κ) := ⟨∅⟩

def size (m : AttributeMap κ) : Nat := m.entries.length

def isEmpty (m : AttributeMap κ) : Bool := m.entries.isEmpty

/-- The keys, in the order in which they were first set. -/
def keys (m : AttributeMap κ) : List κ := m.entries.map Prod.fst

variable [DecidableEq κ]

def lookup (key : κ) : List (κ × String) → Option String
  | [] => none
  | (k, v) :: rest => if k = key then some v else lookup key rest

/-- A list of entries with the value of a key replaced, or the key appended if it is new. -/
def replaceOrAppend (key : κ) (value : String) : List (κ × String) → List (κ × String)
  | [] => [(key, value)]
  | (k, v) :: rest =>
    if k = key then (k, value) :: rest else (k, v) :: replaceOrAppend key value rest

/-- A list of entries without the first one of a key. -/
def eraseFirst (key : κ) : List (κ × String) → List (κ × String)
  | [] => []
  | (k, v) :: rest => if k = key then rest else (k, v) :: eraseFirst key rest

/-- The value of the first entry of a key, and a list of entries without that one. -/
def removeFirst (key : κ) : List (κ × String) → Option String × List (κ × String)
  | [] => (none, [])
  | (k, v) :: rest =>
    if k = key then (some v, rest)
    else
      let (value?, rest) := removeFirst key rest
      (value?, (k, v) :: rest)

def get? (m : AttributeMap κ) (key : κ) : Option String := lookup key m.entries

def contains (m : AttributeMap κ) (key : κ) : Bool := (m.get? key).isSome

/-- The map with a value for a key, in the key's place if it has one and at the end if not. -/
def insert (m : AttributeMap κ) (key : κ) (value : String) : AttributeMap κ :=
  ⟨replaceOrAppend key value m.entries⟩

def erase (m : AttributeMap κ) (key : κ) : AttributeMap κ := ⟨eraseFirst key m.entries⟩

def remove (m : AttributeMap κ) (key : κ) : Option String × AttributeMap κ :=
  let (value?, entries) := removeFirst key m.entries
  (value?, ⟨entries⟩)

@[simp] theorem get?_empty (key : κ) : (∅ : AttributeMap κ).get? key = none := rfl

theorem lookup_replaceOrAppend (key key' : κ) (value : String) (entries : List (κ × String)) :
    lookup key' (replaceOrAppend key value entries) =
      if key = key' then some value else lookup key' entries := by
  induction entries with
  | nil => simp [replaceOrAppend, lookup]
  | cons entry rest ih =>
    obtain ⟨k, v⟩ := entry
    grind [replaceOrAppend, lookup]

@[simp] theorem get?_insert (m : AttributeMap κ) (key key' : κ) (value : String) :
    (m.insert key value).get? key' = if key = key' then some value else m.get? key' :=
  lookup_replaceOrAppend key key' value m.entries

theorem removeFirst_eq (key : κ) (entries : List (κ × String)) :
    removeFirst key entries = (lookup key entries, eraseFirst key entries) := by
  induction entries with
  | nil => rfl
  | cons entry rest ih =>
    rw [removeFirst, lookup, eraseFirst, ih]
    split <;> rfl

theorem remove_eq (m : AttributeMap κ) (key : κ) : m.remove key = (m.get? key, m.erase key) := by
  rw [remove, removeFirst_eq]
  rfl

theorem lookup_eq_none {key : κ} {entries : List (κ × String)} (h : key ∉ entries.map Prod.fst) :
    lookup key entries = none := by
  induction entries with
  | nil => rfl
  | cons entry rest ih =>
    obtain ⟨k, v⟩ := entry
    simp only [List.map_cons, List.mem_cons, not_or] at h
    rw [lookup, if_neg (Ne.symm h.1), ih h.2]

theorem lookup_eq_some_iff {key : κ} {value : String} {entries : List (κ × String)}
    (h : (entries.map Prod.fst).Nodup) : lookup key entries = some value ↔ (key, value) ∈ entries := by
  induction entries with
  | nil => simp [lookup]
  | cons entry rest ih =>
    obtain ⟨k, v⟩ := entry
    obtain ⟨hk, hrest⟩ := List.nodup_cons.1 h
    rw [lookup]
    by_cases heq : k = key
    · subst heq
      have hnot : (k, value) ∉ rest := fun hmem => hk (List.mem_map.2 ⟨_, hmem, rfl⟩)
      simp [hnot, eq_comm]
    · simp [heq, Ne.symm heq, ih hrest]

theorem get?_eq_some_iff {m : AttributeMap κ} (h : m.keys.Nodup) {key : κ} {value : String} :
    m.get? key = some value ↔ (key, value) ∈ m.entries :=
  lookup_eq_some_iff h

theorem map_fst_replaceOrAppend (key : κ) (value : String) (entries : List (κ × String)) :
    (replaceOrAppend key value entries).map Prod.fst =
      if key ∈ entries.map Prod.fst then entries.map Prod.fst
      else entries.map Prod.fst ++ [key] := by
  induction entries with
  | nil => rfl
  | cons entry rest ih =>
    obtain ⟨k, v⟩ := entry
    rw [replaceOrAppend]
    by_cases hk : k = key
    · simp [hk]
    · have hmem : key ∈ ((k, v) :: rest).map Prod.fst ↔ key ∈ rest.map Prod.fst := by
        simp [Ne.symm hk]
      rw [if_neg hk, List.map_cons, ih]
      by_cases hrest : key ∈ rest.map Prod.fst
      · rw [if_pos hrest, if_pos (hmem.2 hrest)]
        rfl
      · rw [if_neg hrest, if_neg (mt hmem.1 hrest)]
        rfl

theorem keys_insert (m : AttributeMap κ) (key : κ) (value : String) :
    (m.insert key value).keys = if key ∈ m.keys then m.keys else m.keys ++ [key] :=
  map_fst_replaceOrAppend key value m.entries

theorem mem_keys_insert {m : AttributeMap κ} {key key' : κ} {value : String}
    (h : key' ∈ (m.insert key value).keys) : key' ∈ m.keys ∨ key' = key := by
  rw [keys_insert] at h
  split at h
  · exact Or.inl h
  · simpa using h

theorem nodup_keys_insert {m : AttributeMap κ} (h : m.keys.Nodup) (key : κ) (value : String) :
    (m.insert key value).keys.Nodup := by
  rw [keys_insert]
  split
  · exact h
  · next hkey =>
    refine List.nodup_append.2 ⟨h, by simp, fun k hk k' hk' => ?_⟩
    rintro rfl
    exact hkey (List.mem_singleton.1 hk' ▸ hk)

theorem map_fst_eraseFirst (key : κ) (entries : List (κ × String)) :
    (eraseFirst key entries).map Prod.fst = (entries.map Prod.fst).erase key := by
  induction entries with
  | nil => rfl
  | cons entry rest ih =>
    rw [eraseFirst, List.map_cons, List.erase_cons]
    by_cases hk : entry.1 = key
    · rw [if_pos hk, if_pos (beq_iff_eq.2 hk)]
    · rw [if_neg hk, if_neg (mt beq_iff_eq.1 hk), List.map_cons, ih]

theorem keys_erase (m : AttributeMap κ) (key : κ) : (m.erase key).keys = m.keys.erase key :=
  map_fst_eraseFirst key m.entries

theorem lookup_eraseFirst {entries : List (κ × String)} (h : (entries.map Prod.fst).Nodup)
    (key key' : κ) :
    lookup key' (eraseFirst key entries) = if key = key' then none else lookup key' entries := by
  induction entries with
  | nil => simp [eraseFirst, lookup]
  | cons entry rest ih =>
    obtain ⟨k, v⟩ := entry
    obtain ⟨hk, hrest⟩ := List.nodup_cons.1 h
    have hnone := lookup_eq_none hk
    grind [eraseFirst, lookup]

theorem get?_erase {m : AttributeMap κ} (h : m.keys.Nodup) (key key' : κ) :
    (m.erase key).get? key' = if key = key' then none else m.get? key' :=
  lookup_eraseFirst h key key'

theorem keys_erase_sublist (m : AttributeMap κ) (key : κ) : (m.erase key).keys.Sublist m.keys := by
  rw [keys_erase]
  exact List.erase_sublist

end AttributeMap

end KmlTree
