import Mathlib.Data.List.Basic
import Mathlib.Data.List.Induction
import KmlTree.Proofs.Tree.Edits

/-!
# Attributes as one map

An element keeps the attributes that its kind declares apart from all others, and every change of an
attribute goes to one of the two maps. Main statement: whatever changes are made, in whatever order,
the two are parts of one map from names to values, in which every name has the value it was last set
to and stands where it was first set since it was last removed.
-/
namespace KmlTree

/-- A change of the attribute with a name. -/
inductive AttributeEdit
  | set (name value : String)
  | remove (name : String)
  deriving DecidableEq, Repr

namespace AttributeEdit

def name : AttributeEdit → String
  | .set name _ | .remove name => name

/-- The last change of a name among some changes gives it a value. -/
def LastSets (edits : List AttributeEdit) (name value : String) : Prop :=
  ∃ before after, edits = before ++ .set name value :: after ∧ ∀ edit ∈ after, edit.name ≠ name

/-- The change at a position sets a name for the first time since the name was last removed. -/
structure FirstSets (edits : List AttributeEdit) (name : String) (i : Nat) : Prop where
  sets : ∃ value, edits[i]? = some (.set name value)
  kept : ∀ j, i < j → edits[j]? ≠ some (.remove name)
  first : ∀ j value, j < i → edits[j]? = some (.set name value) →
    ∃ k, j < k ∧ k < i ∧ edits[k]? = some (.remove name)

/-- Some names stand in the order in which they were first set since they were last removed. -/
structure InOrder (edits : List AttributeEdit) (names : List String) : Prop where
  first : ∀ name ∈ names, ∃ i, FirstSets edits name i
  order : names.Pairwise fun name name' =>
    ∃ i j, FirstSets edits name i ∧ FirstSets edits name' j ∧ i < j

variable {edits : List AttributeEdit} {edit : AttributeEdit} {key value : String} {i : Nat}
  {keys : List String}

theorem not_lastSets_nil : ¬LastSets [] key value := by
  rintro ⟨before, after, h, -⟩
  simp at h

theorem lastSets_append_singleton : LastSets (edits ++ [edit]) key value ↔
    edit = .set key value ∨ edit.name ≠ key ∧ LastSets edits key value := by
  constructor
  · rintro ⟨before, after, h, hafter⟩
    rcases List.eq_nil_or_concat after with rfl | ⟨after, last, rfl⟩
    · have hlast := (List.append_inj' h rfl).2
      exact Or.inl (List.singleton_inj.1 hlast)
    · rw [List.concat_eq_append, ← List.cons_append, ← List.append_assoc] at h
      obtain ⟨rfl, hlast⟩ := List.append_inj' h rfl
      obtain rfl := List.singleton_inj.1 hlast
      exact Or.inr ⟨hafter edit (by simp), before, after, rfl, fun e he => hafter e (by simp [he])⟩
  · rintro (rfl | ⟨hname, before, after, rfl, hafter⟩)
    · exact ⟨edits, [], rfl, by simp⟩
    · refine ⟨before, after ++ [edit], by simp, fun e he => ?_⟩
      rcases List.mem_append.1 he with he | he
      · exact hafter e he
      · exact List.mem_singleton.1 he ▸ hname

/-- A name that was set and has no value any more was removed in between. -/
theorem exists_remove_of_not_lastSets (h : ∀ value, ¬LastSets edits key value) {j : Nat}
    (hset : edits[j]? = some (.set key value)) :
    ∃ k, j < k ∧ k < edits.length ∧ edits[k]? = some (.remove key) := by
  induction edits using List.reverseRecOn with
  | nil => cases hset
  | append_singleton edits edit ih =>
    simp only [lastSets_append_singleton, not_or, not_and] at h
    have hedit (value : String) : edit ≠ .set key value := (h value).1
    have hj : j < edits.length := by
      obtain ⟨hj, hget⟩ := List.getElem?_eq_some_iff.1 hset
      rw [List.length_append, List.length_singleton] at hj
      refine Nat.lt_of_le_of_ne (Nat.le_of_lt_succ hj) ?_
      rintro rfl
      exact hedit value (by simpa using hget)
    rw [List.getElem?_append_left hj] at hset
    cases edit with
    | set key' value' =>
      have hname : key' ≠ key := fun heq => hedit value' (heq ▸ rfl)
      obtain ⟨k, hjk, hk, hremove⟩ := ih (fun value => (h value).2 hname) hset
      exact ⟨k, hjk, by simp; omega, by rwa [List.getElem?_append_left hk]⟩
    | remove key' =>
      by_cases hname : key' = key
      · exact ⟨edits.length, hj, by simp, by simp [hname]⟩
      · obtain ⟨k, hjk, hk, hremove⟩ := ih (fun value => (h value).2 hname) hset
        exact ⟨k, hjk, by simp; omega, by rwa [List.getElem?_append_left hk]⟩

theorem FirstSets.lt_length (h : FirstSets edits key i) : i < edits.length := by
  obtain ⟨value, hset⟩ := h.sets
  exact (List.getElem?_eq_some_iff.1 hset).1

theorem FirstSets.append_singleton (h : FirstSets edits key i) (hedit : edit ≠ .remove key) :
    FirstSets (edits ++ [edit]) key i := by
  have hi := h.lt_length
  obtain ⟨value, hset⟩ := h.sets
  refine ⟨⟨value, by rwa [List.getElem?_append_left hi]⟩, fun j hj hremove => ?_,
    fun j value hj hset => ?_⟩
  · rw [List.getElem?_append] at hremove
    split at hremove
    · exact h.kept j hj hremove
    · exact hedit (List.mem_singleton.1 (List.mem_of_getElem? hremove)).symm
  · rw [List.getElem?_append_left (by omega)] at hset
    obtain ⟨k, hjk, hki, hremove⟩ := h.first j value hj hset
    exact ⟨k, hjk, hki, by rwa [List.getElem?_append_left (by omega)]⟩

theorem firstSets_append_set (h : ∀ value, ¬LastSets edits key value) (value : String) :
    FirstSets (edits ++ [.set key value]) key edits.length := by
  refine ⟨⟨value, by simp⟩, fun j hj hremove => ?_, fun j value' hj hset => ?_⟩
  · have hlt := (List.getElem?_eq_some_iff.1 hremove).1
    rw [List.length_append, List.length_singleton] at hlt
    omega
  · rw [List.getElem?_append_left hj] at hset
    obtain ⟨k, hjk, hk, hremove⟩ := exists_remove_of_not_lastSets h hset
    exact ⟨k, hjk, hk, by rwa [List.getElem?_append_left hk]⟩

namespace InOrder

theorem sublist (h : InOrder edits keys) {keys' : List String} (hsub : keys'.Sublist keys) :
    InOrder edits keys' :=
  ⟨fun key hkey => h.first key (hsub.subset hkey), h.order.sublist hsub⟩

theorem append_singleton (h : InOrder edits keys) (hedit : ∀ key ∈ keys, edit ≠ .remove key) :
    InOrder (edits ++ [edit]) keys := by
  refine ⟨fun key hkey => ?_, h.order.imp_of_mem fun hkey hkey' hbefore => ?_⟩
  · obtain ⟨i, hi⟩ := h.first key hkey
    exact ⟨i, hi.append_singleton (hedit key hkey)⟩
  · obtain ⟨i, j, hi, hj, hij⟩ := hbefore
    exact ⟨i, j, hi.append_singleton (hedit _ hkey), hj.append_singleton (hedit _ hkey'), hij⟩

theorem append_set (h : InOrder edits keys) (hkey : ∀ value, ¬LastSets edits key value)
    (value : String) : InOrder (edits ++ [.set key value]) (keys ++ [key]) := by
  have hnew := firstSets_append_set hkey value
  have hold : InOrder (edits ++ [.set key value]) keys := h.append_singleton (by simp)
  refine ⟨fun key' hkey' => ?_, List.pairwise_append.2 ⟨hold.order, by simp, ?_⟩⟩
  · rcases List.mem_append.1 hkey' with hkey' | hkey'
    · exact hold.first key' hkey'
    · obtain rfl := List.mem_singleton.1 hkey'
      exact ⟨_, hnew⟩
  · intro key' hkey' key'' hkey''
    obtain rfl := List.mem_singleton.1 hkey''
    obtain ⟨i, hi⟩ := h.first key' hkey'
    exact ⟨i, edits.length, hi.append_singleton (by simp), hnew, hi.lt_length⟩

end InOrder

end AttributeEdit

namespace AttributeMap

open AttributeEdit

/-! ## One map -/

def edit (m : AttributeMap String) : AttributeEdit → AttributeMap String
  | .set key value => m.insert key value
  | .remove key => m.erase key

def edited (edits : List AttributeEdit) : AttributeMap String := edits.foldl edit ∅

variable {m : AttributeMap String} {e : AttributeEdit} {key : String}

theorem edited_append_singleton (edits : List AttributeEdit) (e : AttributeEdit) :
    edited (edits ++ [e]) = (edited edits).edit e := by
  rw [edited, List.foldl_append]
  rfl

theorem nodup_keys_edit (h : m.keys.Nodup) (e : AttributeEdit) : (m.edit e).keys.Nodup := by
  cases e with
  | set key value => exact nodup_keys_insert h key value
  | remove key => exact (keys_erase_sublist m key).nodup h

theorem get?_edit_of_ne (h : m.keys.Nodup) (hkey : e.name ≠ key) :
    (m.edit e).get? key = m.get? key := by
  cases e with
  | set key' value =>
    have hne : key' ≠ key := hkey
    rw [edit, get?_insert, if_neg hne]
  | remove key' =>
    have hne : key' ≠ key := hkey
    rw [edit, get?_erase h, if_neg hne]

theorem nodup_keys_edited (edits : List AttributeEdit) : (edited edits).keys.Nodup := by
  induction edits using List.reverseRecOn with
  | nil => exact List.nodup_nil
  | append_singleton edits e ih => exact edited_append_singleton edits e ▸ nodup_keys_edit ih e

/-- A name has the value that it was last set to. -/
theorem get?_edited (edits : List AttributeEdit) (key value : String) :
    (edited edits).get? key = some value ↔ LastSets edits key value := by
  induction edits using List.reverseRecOn with
  | nil => exact iff_of_false (by simp [edited]) not_lastSets_nil
  | append_singleton edits e ih =>
    rw [edited_append_singleton, lastSets_append_singleton, ← ih]
    by_cases hkey : e.name = key
    · cases e with
      | set key' value' =>
        obtain rfl : key' = key := hkey
        simp [edit, AttributeEdit.name]
      | remove key' =>
        obtain rfl : key' = key := hkey
        simp [edit, get?_erase (nodup_keys_edited edits), AttributeEdit.name]
    · have hset : e ≠ .set key value := fun heq => hkey (heq ▸ rfl)
      simp [get?_edit_of_ne (nodup_keys_edited edits) hkey, hkey, hset]

theorem mem_keys_iff {κ : Type} [DecidableEq κ] {m : AttributeMap κ} (h : m.keys.Nodup) {key : κ} :
    key ∈ m.keys ↔ ∃ value, m.get? key = some value := by
  simp [get?_eq_some_iff h, keys]

theorem inOrder_keys_edited (edits : List AttributeEdit) :
    InOrder edits (edited edits).keys := by
  induction edits using List.reverseRecOn with
  | nil => exact ⟨fun key hkey => absurd hkey List.not_mem_nil, List.Pairwise.nil⟩
  | append_singleton edits e ih =>
    have hnodup := nodup_keys_edited edits
    rw [edited_append_singleton]
    cases e with
    | set key value =>
      rw [edit, keys_insert]
      split
      · exact ih.append_singleton (by simp)
      · next hkey =>
        refine ih.append_set (fun value' hlast => hkey ?_) value
        exact (mem_keys_iff hnodup).2 ⟨value', (get?_edited ..).2 hlast⟩
    | remove key =>
      rw [edit, keys_erase]
      refine (ih.sublist List.erase_sublist).append_singleton fun key' hkey' heq => ?_
      obtain rfl := AttributeEdit.remove.inj heq
      exact hnodup.not_mem_erase hkey'

-- what was removed comes last when it is set again
example : (edited [.set "x" "1", .set "y" "2", .remove "x", .set "x" "3"]).keys = ["y", "x"] := by
  decide

/-! ## Parts of a map -/

section Select

variable {κ κ' : Type}

/-- The entries whose keys are taken over into other keys, in their order. -/
def select (f : κ → Option κ') (m : AttributeMap κ) : AttributeMap κ' :=
  ⟨m.entries.filterMap fun entry => (f entry.1).map (·, entry.2)⟩

theorem select_cons (f : κ → Option κ') (entry : κ × String) (rest : List (κ × String)) :
    select f ⟨entry :: rest⟩ =
      match f entry.1 with
      | some key => ⟨(key, entry.2) :: (select f ⟨rest⟩).entries⟩
      | none => select f ⟨rest⟩ := by
  rw [select, List.filterMap_cons]
  cases f entry.1 <;> rfl

theorem keys_select (f : κ → Option κ') (m : AttributeMap κ) :
    (m.select f).keys = m.keys.filterMap f := by
  rw [select, keys, keys, List.map_filterMap, List.filterMap_map]
  refine List.filterMap_congr fun entry _ => ?_
  cases hentry : f entry.1 <;> simp [hentry]

theorem entries_select_guard (p : κ → Bool) (m : AttributeMap κ) :
    (m.select (Option.guard p)).entries = m.entries.filter fun entry => p entry.1 := by
  rw [← List.filterMap_eq_filter]
  refine List.filterMap_congr fun entry _ => ?_
  cases hp : p entry.1 <;> simp [Option.guard, hp]

variable [DecidableEq κ] [DecidableEq κ'] {f : κ → Option κ'} {key : κ}
  (hf : ∀ k k' a, f k = some a → f k' = some a → k = k')

include hf

theorem get?_select {key' : κ'} (h : f key = some key') (m : AttributeMap κ) :
    (m.select f).get? key' = m.get? key := by
  obtain ⟨entries⟩ := m
  induction entries with
  | nil => rfl
  | cons entry rest ih =>
    rw [select_cons]
    by_cases hk : entry.1 = key
    · simp [get?, lookup, hk, h]
    · have hrest : get? ⟨entry :: rest⟩ key = get? ⟨rest⟩ key := if_neg hk
      rw [hrest, ← ih]
      cases hentry : f entry.1 with
      | none => rfl
      | some a =>
        have ha : a ≠ key' := fun heq => hk (hf _ _ _ hentry (heq ▸ h))
        exact if_neg ha

theorem select_insert (m : AttributeMap κ) (value : String) :
    (m.insert key value).select f =
      match f key with
      | some key' => (m.select f).insert key' value
      | none => m.select f := by
  obtain ⟨entries⟩ := m
  induction entries with
  | nil =>
    change select f ⟨[(key, value)]⟩ = _
    rw [select_cons]
    cases f key <;> rfl
  | cons entry rest ih =>
    by_cases hk : entry.1 = key
    · have hinsert : insert ⟨entry :: rest⟩ key value = ⟨(key, value) :: rest⟩ := by
        simp [insert, replaceOrAppend, hk]
      rw [hinsert, select_cons, select_cons, hk]
      cases f key with
      | none => rfl
      | some key' => simp [insert, replaceOrAppend]
    · have hinsert : insert ⟨entry :: rest⟩ key value =
          ⟨entry :: (insert ⟨rest⟩ key value).entries⟩ := by
        simp [insert, replaceOrAppend, hk]
      rw [hinsert, select_cons, select_cons, ih]
      cases hentry : f entry.1 with
      | none => rfl
      | some a =>
        cases hkey : f key with
        | none => rfl
        | some key' =>
          have ha : a ≠ key' := fun heq => hk (hf _ _ _ hentry (heq ▸ hkey))
          simp [insert, replaceOrAppend, ha]

theorem select_erase (m : AttributeMap κ) :
    (m.erase key).select f =
      match f key with
      | some key' => (m.select f).erase key'
      | none => m.select f := by
  obtain ⟨entries⟩ := m
  induction entries with
  | nil => cases f key <;> rfl
  | cons entry rest ih =>
    by_cases hk : entry.1 = key
    · have herase : erase ⟨entry :: rest⟩ key = ⟨rest⟩ := by simp [erase, eraseFirst, hk]
      rw [herase, select_cons, hk]
      cases f key with
      | none => rfl
      | some key' => simp [erase, eraseFirst]
    · have herase : erase ⟨entry :: rest⟩ key = ⟨entry :: (erase ⟨rest⟩ key).entries⟩ := by
        simp [erase, eraseFirst, hk]
      rw [herase, select_cons, select_cons, ih]
      cases hentry : f entry.1 with
      | none => rfl
      | some a =>
        cases hkey : f key with
        | none => rfl
        | some key' =>
          have ha : a ≠ key' := fun heq => hk (hf _ _ _ hentry (heq ▸ hkey))
          simp [erase, eraseFirst, ha]

end Select

end AttributeMap

namespace Element

open AttributeEdit

/-! ## The attributes of an element -/

def editAttribute (e : Element) : AttributeEdit → Element
  | .set name value => e.setAttribute name value
  | .remove name => (e.removeAttribute name).2

def editAttributes (e : Element) (edits : List AttributeEdit) : Element :=
  edits.foldl editAttribute e

/-- The attributes of an element are those of one map: the ones that its kind declares, and all
others. -/
structure Holds (e : Element) (m : AttributeMap String) : Prop where
  declared : e.attributes = m.select e.kind.attribute?
  other : e.otherAttributes = m.select (Option.guard fun name => (e.kind.attribute? name).isNone)

theorem removeAttribute_eq (e : Element) (name : String) :
    e.removeAttribute name = (e.attributeNamed? name, e.eraseAttribute name) := by
  unfold removeAttribute attributeNamed? eraseAttribute
  split <;> rw [AttributeMap.remove_eq]

theorem editAttribute_remove (e : Element) (name : String) :
    e.editAttribute (.remove name) = e.eraseAttribute name := by
  rw [editAttribute, removeAttribute_eq]

theorem kind_editAttribute (e : Element) (edit : AttributeEdit) :
    (e.editAttribute edit).kind = e.kind := by
  cases edit with
  | set name value =>
    obtain ⟨_, _, h⟩ := e.setAttribute_eq name value
    rw [editAttribute, h]
  | remove name =>
    obtain ⟨_, _, h⟩ := e.eraseAttribute_eq name
    rw [editAttribute_remove, h]

theorem kind_editAttributes (e : Element) (edits : List AttributeEdit) :
    (e.editAttributes edits).kind = e.kind := by
  induction edits generalizing e with
  | nil => rfl
  | cons edit edits ih => exact (ih (e.editAttribute edit)).trans (e.kind_editAttribute edit)

section Holds

variable {e : Element} {m : AttributeMap String}

theorem eq_of_attribute? {k : Kind} (name name' : String) (a : Attribute)
    (h : k.attribute? name = some a) (h' : k.attribute? name' = some a) : name = name' := by
  rw [← Kind.key_of_attribute? h, Kind.key_of_attribute? h']

theorem eq_of_guard {p : String → Bool} (name name' a : String)
    (h : Option.guard p name = some a) (h' : Option.guard p name' = some a) : name = name' := by
  rw [(Option.guard_eq_some_iff.1 h).1, (Option.guard_eq_some_iff.1 h').1]

/-- An attribute is changed in the one map as it is in its part. -/
theorem Holds.editAttribute (h : e.Holds m) (edit : AttributeEdit) :
    (e.editAttribute edit).Holds (m.edit edit) := by
  cases edit with
  | set name value =>
    rw [Element.editAttribute, setAttribute, AttributeMap.edit]
    cases hname : e.kind.attribute? name with
    | some a =>
      refine ⟨?_, ?_⟩
      · simp [AttributeMap.select_insert eq_of_attribute?, hname, h.declared]
      · simp [AttributeMap.select_insert eq_of_guard, Option.guard, hname, h.other]
    | none =>
      refine ⟨?_, ?_⟩
      · simp [AttributeMap.select_insert eq_of_attribute?, hname, h.declared]
      · simp [AttributeMap.select_insert eq_of_guard, Option.guard, hname, h.other]
  | remove name =>
    rw [editAttribute_remove, eraseAttribute, AttributeMap.edit]
    cases hname : e.kind.attribute? name with
    | some a =>
      refine ⟨?_, ?_⟩
      · simp [AttributeMap.select_erase eq_of_attribute?, hname, h.declared]
      · simp [AttributeMap.select_erase eq_of_guard, Option.guard, hname, h.other]
    | none =>
      refine ⟨?_, ?_⟩
      · simp [AttributeMap.select_erase eq_of_attribute?, hname, h.declared]
      · simp [AttributeMap.select_erase eq_of_guard, Option.guard, hname, h.other]

theorem Holds.editAttributes (h : e.Holds m) (edits : List AttributeEdit) :
    (e.editAttributes edits).Holds (edits.foldl AttributeMap.edit m) := by
  induction edits generalizing e m with
  | nil => exact h
  | cons edit edits ih => exact ih (h.editAttribute edit)

theorem Holds.attributeNamed? (h : e.Holds m) (name : String) :
    e.attributeNamed? name = m.get? name := by
  rw [Element.attributeNamed?]
  cases hname : e.kind.attribute? name with
  | some a => exact h.declared ▸ AttributeMap.get?_select eq_of_attribute? hname m
  | none => exact h.other ▸ AttributeMap.get?_select eq_of_guard (by simp [hname]) m

theorem Holds.attribute? (h : e.Holds m) (a : Attribute) :
    e.attribute? a = if a ∈ e.kind.attributes then m.get? a.key else none := by
  rw [Element.attribute?, h.declared]
  split
  · next ha => exact AttributeMap.get?_select eq_of_attribute? (Kind.attribute?_key ha) m
  · next ha =>
    refine AttributeMap.lookup_eq_none fun hmem => ha ?_
    rw [← AttributeMap.keys, AttributeMap.keys_select] at hmem
    obtain ⟨name, -, hname⟩ := List.mem_filterMap.1 hmem
    exact Kind.mem_attributes_of_attribute? hname

theorem Holds.others (h : e.Holds m) (hnodup : m.keys.Nodup) :
    e.otherAttributes.keys.Sublist m.keys ∧
      ∀ name value, (name, value) ∈ e.otherAttributes.entries ↔
        e.kind.attribute? name = none ∧ m.get? name = some value := by
  refine ⟨?_, fun name value => ?_⟩
  · rw [h.other, AttributeMap.keys_select, List.filterMap_eq_filter]
    exact List.filter_sublist
  · rw [h.other, AttributeMap.entries_select_guard, List.mem_filter, Option.isNone_iff_eq_none,
      AttributeMap.get?_eq_some_iff hnodup, and_comm]

end Holds

/-- The attributes of an element are one map from names to values in order: whatever changes are
made, a name has the value that it was last set to and not removed since, which is what its removal
returns; changes of other names leave it; the declared attributes are the names that the kind has
for them; and the others are listed in the order in which each was first set since it was last
removed. -/
theorem editAttributes_refines (e : Element) (edits : List AttributeEdit) :
    let bare : Element := { e with attributes := ∅, otherAttributes := ∅ }
    let edited := bare.editAttributes edits
    (∀ name value, edited.attributeNamed? name = some value ↔ LastSets edits name value) ∧
    (∀ name, edited.removeAttribute name =
      (edited.attributeNamed? name, bare.editAttributes (edits ++ [.remove name]))) ∧
    (∀ edit name, edit.name ≠ name →
      (edited.editAttribute edit).attributeNamed? name = edited.attributeNamed? name) ∧
    (∀ a, edited.attribute? a =
      if a ∈ e.kind.attributes then edited.attributeNamed? a.key else none) ∧
    (∀ name value, (name, value) ∈ edited.otherAttributes.entries ↔
      e.kind.attribute? name = none ∧ LastSets edits name value) ∧
    edited.otherAttributes.keys.Nodup ∧ InOrder edits edited.otherAttributes.keys := by
  intro bare edited
  have hholds : edited.Holds (.edited edits) := by
    have hbare : bare.Holds ∅ := ⟨rfl, rfl⟩
    exact hbare.editAttributes edits
  have hkind : edited.kind = e.kind := bare.kind_editAttributes edits
  have hnodup := AttributeMap.nodup_keys_edited edits
  obtain ⟨hsub, hentries⟩ := hholds.others hnodup
  refine ⟨fun name value => ?_, fun name => ?_, fun edit name hname => ?_, fun a => ?_,
    fun name value => ?_, hsub.nodup hnodup, (AttributeMap.inOrder_keys_edited edits).sublist hsub⟩
  · rw [hholds.attributeNamed?, AttributeMap.get?_edited]
  · rw [removeAttribute_eq, ← editAttribute_remove, editAttributes, List.foldl_append]
    rfl
  · rw [(hholds.editAttribute edit).attributeNamed?, hholds.attributeNamed?,
      AttributeMap.get?_edit_of_ne hnodup hname]
  · rw [hholds.attribute?, hholds.attributeNamed?, hkind]
  · rw [hentries, AttributeMap.get?_edited, hkind]

end Element

end KmlTree
