import KmlTree.Proofs.Document.Declared

/-!
# Indexing a tree

An index is told by its entries alone. Main statements: the walk that indexes a tree inserts what the
tree declares, one after the other; it succeeds exactly if no identifier is declared twice, and the
index does not depend on the order in which the objects come.
-/
namespace KmlTree

theorem lookup_eq_some_iff_mem {α β : Type} [BEq α] [LawfulBEq α] {entries : List (α × β)} {k : α}
    {v : β} (h : (entries.map Prod.fst).Nodup) : entries.lookup k = some v ↔ (k, v) ∈ entries := by
  induction entries with
  | nil => simp
  | cons entry rest ih =>
    obtain ⟨k', v'⟩ := entry
    obtain ⟨hk', hrest⟩ := List.nodup_cons.1 h
    rw [List.lookup_cons]
    by_cases hk : k = k'
    · subst hk
      have hnot (w : β) : (k, w) ∉ rest := fun hmem =>
        hk' (List.mem_map.2 ⟨(k, w), hmem, rfl⟩)
      simp [hnot, eq_comm]
    · have hbeq : (k == k') = false := beq_eq_false_iff_ne.2 hk
      simp [hbeq, hk, ih hrest]

namespace ObjectIndex

variable {index index' : ObjectIndex} {id : String} {path : Path} {entry : String × Path}

theorem nodup_keys (index : ObjectIndex) : (index.entries.map Prod.fst).Nodup :=
  List.pairwise_map.2 (index.ascending.imp fun h => Std.ne_of_lt h)

theorem get?_eq_some_iff : index.get? id = some path ↔ (id, path) ∈ index.entries :=
  lookup_eq_some_iff_mem index.nodup_keys

theorem ext_of_mem (h : ∀ entry, entry ∈ index.entries ↔ entry ∈ index'.entries) :
    index = index' := by
  obtain ⟨entries, ascending⟩ := index
  obtain ⟨entries', ascending'⟩ := index'
  have nodup {l : List (String × Path)} (hl : l.Pairwise fun a b => a.1 < b.1) : l.Nodup :=
    hl.imp fun hlt heq => Std.ne_of_lt hlt (congrArg Prod.fst heq)
  have hperm : entries.Perm entries' :=
    (List.perm_ext_iff_of_nodup (nodup ascending) (nodup ascending')).2 h
  have heq : entries = entries' := by
    refine hperm.eq_of_pairwise (fun a b _ _ hab hba => ?_) ascending ascending'
    exact absurd (String.lt_trans hab hba) (String.lt_irrefl _)
  subst heq
  rfl

theorem insert?_eq_none_iff : index.insert? id path = none ↔ id ∈ index.entries.map Prod.fst := by
  unfold insert?
  split
  · next p h =>
    have hmem : (id, p) ∈ index.entries := get?_eq_some_iff.1 h
    simp only [true_iff]
    exact List.mem_map_of_mem hmem
  · next h =>
    rw [List.lookup_eq_none_iff] at h
    simp only [reduceCtorEq, false_iff, List.mem_map, not_exists, not_and]
    rintro e he rfl
    simpa using h e he

theorem mem_of_insert? (h : index.insert? id path = some index') :
    entry ∈ index'.entries ↔ entry = (id, path) ∨ entry ∈ index.entries := by
  unfold insert? at h
  split at h
  · cases h
  · cases h
    exact mem_insertById

/-- The index with further objects, unless one of them has an identifier that is taken. -/
def insertAll (index : ObjectIndex) : Declared → Except RepeatedId ObjectIndex
  | [] => .ok index
  | (id, path) :: rest =>
    match index.insert? id path with
    | none => .error ⟨id⟩
    | some index => index.insertAll rest

theorem insertAll_append (index : ObjectIndex) (xs ys : Declared) :
    index.insertAll (xs ++ ys) = index.insertAll xs >>= fun index => index.insertAll ys := by
  induction xs generalizing index with
  | nil => rfl
  | cons x xs ih =>
    obtain ⟨id, path⟩ := x
    rw [List.cons_append, insertAll, insertAll]
    split
    · rfl
    · exact ih _

theorem mem_of_insertAll {objects : Declared} (h : index.insertAll objects = .ok index') :
    entry ∈ index'.entries ↔ entry ∈ index.entries ∨ entry ∈ objects := by
  induction objects generalizing index with
  | nil =>
    cases h
    simp
  | cons object rest ih =>
    obtain ⟨id, path⟩ := object
    rw [insertAll] at h
    split at h
    · cases h
    · next hsome =>
      rw [ih h, mem_of_insert? hsome, List.mem_cons, or_left_comm, or_assoc]

theorem keys_perm_of_insert? (h : index.insert? id path = some index') :
    (index'.entries.map Prod.fst).Perm (id :: index.entries.map Prod.fst) := by
  have hfree : id ∉ index.entries.map Prod.fst := fun hmem => by
    rw [insert?_eq_none_iff.2 hmem] at h
    cases h
  refine (List.perm_ext_iff_of_nodup index'.nodup_keys
    (List.nodup_cons.2 ⟨hfree, index.nodup_keys⟩)).2 fun k => ?_
  simp only [List.mem_map, mem_of_insert? h, List.mem_cons]
  constructor
  · rintro ⟨entry, rfl | hentry, rfl⟩
    · exact Or.inl rfl
    · exact Or.inr ⟨entry, hentry, rfl⟩
  · rintro (rfl | ⟨entry, hentry, rfl⟩)
    · exact ⟨(k, path), Or.inl rfl, rfl⟩
    · exact ⟨entry, Or.inr hentry, rfl⟩

/-- Inserting succeeds exactly if no identifier comes twice. -/
theorem exists_insertAll_iff (index : ObjectIndex) {objects : Declared} :
    (∃ index', index.insertAll objects = .ok index') ↔
      (index.entries.map Prod.fst ++ objects.map Prod.fst).Nodup := by
  induction objects generalizing index with
  | nil => simp [insertAll, index.nodup_keys]
  | cons object rest ih =>
    obtain ⟨id, path⟩ := object
    rw [insertAll, List.map_cons]
    split
    · next hnone =>
      have hmem := insert?_eq_none_iff.1 hnone
      simp only [reduceCtorEq, exists_false, false_iff]
      intro hnodup
      exact absurd rfl ((List.nodup_append.1 hnodup).2.2 id hmem id List.mem_cons_self)
    · next hsome =>
      have hkeys := (keys_perm_of_insert? hsome).append_right (rest.map Prod.fst)
      rw [ih, (hkeys.trans List.perm_middle.symm).nodup_iff]

theorem ofList_eq_of_insertAll {objects : Declared} (h : insertAll ∅ objects = .ok index) :
    ofList objects = index := by
  suffices hgen : ∀ start : ObjectIndex, start.insertAll objects = .ok index →
      objects.foldl (fun index object => (index.insert? object.1 object.2).getD index) start =
        index from hgen ∅ h
  clear h
  induction objects with
  | nil =>
    intro start h
    cases h
    rfl
  | cons object rest ih =>
    intro start h
    rw [insertAll] at h
    split at h
    · cases h
    · next start' hsome =>
      rw [List.foldl_cons, hsome]
      exact ih start' h

theorem insertAll_empty_eq_ok_iff {objects : Declared} :
    insertAll ∅ objects = .ok index ↔ (objects.map Prod.fst).Nodup ∧ index = ofList objects := by
  constructor
  · intro h
    exact ⟨(exists_insertAll_iff ∅).1 ⟨index, h⟩, (ofList_eq_of_insertAll h).symm⟩
  · rintro ⟨hnodup, rfl⟩
    obtain ⟨index, hindex⟩ := (exists_insertAll_iff ∅).2 hnodup
    rw [hindex, ofList_eq_of_insertAll hindex]

theorem mem_ofList {objects : Declared} (h : (objects.map Prod.fst).Nodup) :
    entry ∈ (ofList objects).entries ↔ entry ∈ objects := by
  rw [mem_of_insertAll (insertAll_empty_eq_ok_iff.2 ⟨h, rfl⟩)]
  exact or_iff_right List.not_mem_nil

theorem ofList_perm {objects objects' : Declared} (h : (objects.map Prod.fst).Nodup)
    (hperm : objects.Perm objects') : ofList objects = ofList objects' := by
  have h' := (hperm.map Prod.fst).nodup_iff.1 h
  exact ext_of_mem fun entry => by rw [mem_ofList h, mem_ofList h', hperm.mem_iff]

end ObjectIndex

/-! ## The walk -/

/-- Identifiers within the element at a path, as identifiers within the root. -/
def declaredUnder (path : Path) (ids : Declared) : Declared :=
  ids.map fun entry => (entry.1, path ++ entry.2)

theorem declaredUnder_append (path : Path) (xs ys : Declared) :
    declaredUnder path (xs ++ ys) = declaredUnder path xs ++ declaredUnder path ys :=
  List.map_append

theorem declaredUnder_lift (path : Path) (i : Nat) (ids : Declared) :
    declaredUnder path (Builder.lift i ids) = declaredUnder (path ++ [i]) ids := by
  simp [declaredUnder, Builder.lift]

theorem declaredUnder_nil (ids : Declared) : declaredUnder [] ids = ids := by
  simp [declaredUnder]

namespace Document

variable {context : Context} {index : ObjectIndex}

theorem run_inTurn_cons (visit : StateT ObjectIndex (Except RepeatedId) Bool)
    (rest : List (StateT ObjectIndex (Except RepeatedId) Bool)) :
    (Visitor.inTurn (visit :: rest)).run index =
      visit.run index >>= fun r => if r.1 then .ok (true, r.2) else (Visitor.inTurn rest).run r.2 := by
  simp only [Visitor.inTurn, StateT.run_bind]
  congr 1
  funext r
  split <;> rfl

theorem run_inTurn_visitUnknown (i : Nat) (unknown : List Element) :
    (Visitor.inTurn (indexer.visitUnknown context i unknown)).run index = .ok (false, index) := by
  induction unknown generalizing i with
  | nil => rfl
  | cons u rest ih =>
    obtain ⟨head, children, unknown⟩ := u
    rw [Visitor.visitUnknown, run_inTurn_cons, Visitor.visit]
    exact ih (i + 1)

theorem run_indexer_element (e : Element) (hknown : context.withinUnknown = false) :
    (indexer.element context e).run index =
      (index.insertAll (declaredUnder context.path e.ownId)).map fun index => (.descend, index) := by
  cases hid : e.objectId? with
  | none =>
    simp only [indexer, hknown, hid, Element.ownId]
    rfl
  | some id =>
    simp only [indexer, hknown, hid, Element.ownId, declaredUnder, Option.map_some,
      Option.toList_some, List.map_cons, List.map_nil, List.append_nil, ObjectIndex.insertAll,
      Bool.false_eq_true, if_false]
    change (match index.insert? id context.path with
      | none => throw (RepeatedId.mk id)
      | some index => (do set index; pure .descend :
          StateT ObjectIndex (Except RepeatedId) Flow)).run index = _
    cases index.insert? id context.path <;> rfl

/-- What indexing an element in a context is to do. -/
def Indexes (context : Context) (e : Element) : Prop :=
  ∀ index, (indexer.visit context e).run index =
    (index.insertAll (declaredUnder context.path e.declared)).map fun index => (false, index)

theorem run_inTurn_visitChildren (unknown : List Element) (i : Nat) {children : List Child}
    (h : ∀ c ∈ children.filterMap Child.element?, ∀ j, Indexes (context.child j) c) :
    (Visitor.inTurn ((indexer.visitChildren context i children).map Prod.snd ++
      indexer.visitUnknown context 0 unknown)).run index =
      (index.insertAll (declaredUnder context.path (declaredFrom i children))).map
        fun index => (false, index) := by
  induction children generalizing i index with
  | nil => exact run_inTurn_visitUnknown 0 unknown
  | cons c rest ih =>
    cases c with
    | field slot f =>
      rw [Visitor.visitChildren, List.map_cons, List.cons_append, run_inTurn_cons]
      exact ih (i + 1) h
    | element slot c =>
      have hc : (indexer.visit (context.child i) c).run index =
          (index.insertAll (declaredUnder (context.path ++ [i]) c.declared)).map
            fun index => (false, index) := h c List.mem_cons_self i index
      rw [Visitor.visitChildren, List.map_cons, List.cons_append, run_inTurn_cons, hc,
        declaredFrom, declaredUnder_append, declaredUnder_lift, ObjectIndex.insertAll_append]
      cases index.insertAll (declaredUnder (context.path ++ [i]) c.declared) with
      | error e => rfl
      | ok index => exact ih (i + 1) fun c hc => h c (List.mem_cons_of_mem _ hc)

/-- Indexing an element outside of unknown content inserts what is declared within it. -/
theorem indexes (e : Element) (context : Context) (hknown : context.withinUnknown = false) :
    Indexes context e := by
  induction e using Element.inductionOn generalizing context with
  | step e known _ =>
  intro index
  obtain ⟨head, children, unknown⟩ := e
  have hchildren (index : ObjectIndex) :
      (Visitor.inTurn ((indexer.visitChildren context 0 children).map Prod.snd ++
        indexer.visitUnknown context 0 unknown)).run index =
        (index.insertAll (declaredUnder context.path (declaredFrom 0 children))).map
          fun index => (false, index) :=
    run_inTurn_visitChildren unknown 0 fun c hc j => known c hc (context.child j) hknown
  have hdescend (index : ObjectIndex) :
      (do
        if ← Visitor.inTurn ((indexer.visitChildren context 0 children).map Prod.snd ++
          indexer.visitUnknown context 0 unknown) then pure true else
            indexer.leave context ⟨head, children, unknown⟩
            pure false : StateT ObjectIndex (Except RepeatedId) Bool).run index =
        (index.insertAll (declaredUnder context.path (declaredFrom 0 children))).map
          fun index => (false, index) := by
    rw [StateT.run_bind, hchildren]
    cases index.insertAll (declaredUnder context.path (declaredFrom 0 children)) <;> rfl
  rw [Visitor.visit, Element.declared_eq, declaredUnder_append, ObjectIndex.insertAll_append,
    StateT.run_bind, run_indexer_element _ hknown]
  cases index.insertAll (declaredUnder context.path (Element.ownId ⟨head, children, unknown⟩)) with
  | error e => rfl
  | ok index => exact hdescend index

/-- A tree can be indexed exactly if no identifier is declared twice in it. -/
theorem ofRoot_eq_ok_iff {root : Element} {d : Document} :
    ofRoot root = .ok d ↔ (root.declared.map Prod.fst).Nodup ∧
      d = { root? := some root, index := .ofList root.declared } := by
  have hwalk := indexes root {} rfl ∅
  rw [declaredUnder_nil] at hwalk
  have hroot : ofRoot root =
      (ObjectIndex.insertAll ∅ root.declared).map fun index => { root? := some root, index } := by
    change ((indexer.visit {} root).run ∅).map _ = _
    rw [hwalk]
    cases ObjectIndex.insertAll ∅ root.declared <;> rfl
  rw [hroot]
  cases hinsert : ObjectIndex.insertAll ∅ root.declared with
  | error e =>
    simp only [Except.map, reduceCtorEq, false_iff, not_and]
    intro hnodup
    rw [ObjectIndex.insertAll_empty_eq_ok_iff.2 ⟨hnodup, rfl⟩] at hinsert
    cases hinsert
  | ok index =>
    obtain ⟨hnodup, rfl⟩ := ObjectIndex.insertAll_empty_eq_ok_iff.1 hinsert
    simp [Except.map, hnodup, eq_comm]

end Document

end KmlTree
