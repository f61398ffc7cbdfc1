import KmlTree.Proofs.Document.Indexing
import KmlTree.Proofs.Reading.Identifiers

/-!
# Documents that can be reached

However a document came to be, by a reading under any observers, by a reload or from a tree that was
changed, its index is that of its tree. Main statement: what the index answers is decided by the
elements that known children lead to, and by nothing else.
-/
namespace KmlTree

open Builder (Run Sound)

namespace Builder

/-- A reading ends well with all elements ended, a root among them. -/
theorem finish_eq_ok_iff {b : Builder} {d : Document} :
    b.finish = .ok d ↔ b.stack = [] ∧ b.dropped? = none ∧ ∃ root ids,
      b.root? = some (root, ids) ∧
        d = { root? := some root, index := .ofList ids, warnings := b.warnings } := by
  unfold finish
  rcases b with ⟨options, stack, taken, dropped?, root?, warnings, offset⟩
  cases stack with
  | cons frame rest => simp
  | nil =>
    cases dropped? with
    | some dropped => simp
    | none =>
      rcases root? with _ | ⟨root, ids⟩
      · simp
      · constructor
        · intro h
          cases h
          exact ⟨rfl, rfl, root, ids, rfl, rfl⟩
        · rintro ⟨-, -, _, _, ⟨⟩, rfl⟩
          rfl

end Builder

namespace Document

/-- The index of a document is that of its tree, and without a tree it is empty. -/
structure Indexed (d : Document) : Prop where
  nodup : ∀ root ∈ d.root?, (root.declared.map Prod.fst).Nodup
  index_eq : ∀ root ∈ d.root?, d.index = .ofList root.declared
  empty : d.root? = none → d = {}

theorem indexed_empty : Indexed {} where
  nodup := by simp
  index_eq := by simp
  empty := fun _ => rfl

theorem indexed_ofRoot {root : Element} {d : Document} (h : ofRoot root = .ok d) : Indexed d := by
  obtain ⟨hnodup, rfl⟩ := ofRoot_eq_ok_iff.1 h
  exact ⟨by simpa using hnodup, by simp, by simp⟩

theorem indexed_finish {b : Builder} {d : Document} (hb : Sound b) (h : b.finish = .ok d) :
    Indexed d := by
  obtain ⟨hstack, -, root, ids, hroot, rfl⟩ := Builder.finish_eq_ok_iff.1 h
  have hperm : ids.Perm root.declared := hb.root (root, ids) hroot
  have hlisted : b.listed = ids.map Prod.fst := by simp [Builder.listed, hstack, hroot]
  have hids : (ids.map Prod.fst).Nodup := hlisted ▸ hb.taken_perm.nodup_iff.1 hb.nodup
  exact
    { nodup := by
        rintro _ ⟨⟩
        exact (hperm.map Prod.fst).nodup_iff.1 hids
      index_eq := by
        rintro _ ⟨⟩
        exact ObjectIndex.ofList_perm hids hperm
      empty := by simp }

theorem ofEvents_takeAll {σ : Type} {options : ReadOptions} {observers : List (Observer σ)}
    {events : List Markup.Event} {s s' : σ} {d : Document}
    (h : (ofEvents options observers events).run s = (.ok d, s')) :
    ∃ b, ((Builder.new options).takeAll observers events).run s = (.ok b, s') ∧
      b.finish = .ok d := by
  rw [ofEvents, Reading.run_bind] at h
  split at h
  · next b s₁ htake =>
    obtain ⟨hfinish, rfl⟩ := Prod.mk.inj h
    exact ⟨b, htake, hfinish⟩
  · cases h

theorem ofEvents_run {σ : Type} {options : ReadOptions} {observers : List (Observer σ)}
    {events : List Markup.Event} {s s' : σ} {d : Document}
    (h : (ofEvents options observers events).run s = (.ok d, s')) :
    ∃ b, Run (.new options) events b ∧ b.finish = .ok d := by
  obtain ⟨b, htake, hfinish⟩ := ofEvents_takeAll h
  exact ⟨b, Builder.takeAll_run htake, hfinish⟩

theorem ofSource_run {σ : Type} {options : ReadOptions} {observers : List (Observer σ)}
    {source : String} {s s' : σ} {d : Document}
    (h : (ofSource options observers source).run s = (.ok d, s')) :
    ∃ b, Run (.new options) (Markup.events source).list b ∧ b.finish = .ok d := by
  simp only [ofSource] at h
  rw [Reading.run_bind] at h
  split at h
  · next b s₁ htake =>
    refine ⟨b, Builder.takeAll_run htake, ?_⟩
    split at h
    · cases h
    · exact congrArg Prod.fst h
  · cases h

theorem indexed_ofEvents {σ : Type} {options : ReadOptions} {observers : List (Observer σ)}
    {events : List Markup.Event} {s s' : σ} {d : Document}
    (h : (ofEvents options observers events).run s = (.ok d, s')) : Indexed d := by
  obtain ⟨b, hrun, hfinish⟩ := ofEvents_run h
  exact indexed_finish (hrun.sound (Builder.sound_new options)) hfinish

theorem indexed_read {σ : Type} {options : ReadOptions} {observers : List (Observer σ)}
    {source : String} {s s' : σ} {d : Document}
    (h : (read options observers source).run s = (.ok d, s')) : Indexed d := by
  rw [read_run] at h
  split at h
  · next d' _ hsource =>
    obtain ⟨b, hrun, hfinish⟩ := ofSource_run hsource
    have hindexed := indexed_finish (hrun.sound (Builder.sound_new options)) hfinish
    cases h
    refine ⟨hindexed.nodup, hindexed.index_eq, fun hroot => ?_⟩
    rw [hindexed.empty hroot]
    rfl
  · cases h

theorem reload_eq (source : String) :
    (∃ d, (read {} ([] : List (Observer Unit)) source).run () = (.ok d, ()) ∧
      reload source = (d, none)) ∨
    ∃ error, reload source = ({}, some error) := by
  rcases hread : (read {} ([] : List (Observer Unit)) source).run () with ⟨error | d, ⟨⟩⟩
  · exact Or.inr ⟨error, by simp only [reload, parse, hread]⟩
  · exact Or.inl ⟨d, rfl, by simp only [reload, parse, hread]⟩

theorem indexed_reload (source : String) : Indexed (reload source).1 := by
  rcases reload_eq source with ⟨d, hread, heq⟩ | ⟨error, heq⟩
  · rw [heq]
    exact indexed_read hread
  · rw [heq]
    exact indexed_empty

/-- The documents that there can be: read from a source text or made of events under any observers,
reloaded, or made of a tree, such as that of another document after a change. -/
inductive Reachable : Document → Prop
  | empty : Reachable {}
  | ofEvents {σ : Type} {options : ReadOptions} {observers : List (Observer σ)}
      {events : List Markup.Event} {s s' : σ} {d : Document}
      (h : (Document.ofEvents options observers events).run s = (.ok d, s')) : Reachable d
  | read {σ : Type} {options : ReadOptions} {observers : List (Observer σ)} {source : String}
      {s s' : σ} {d : Document}
      (h : (Document.read options observers source).run s = (.ok d, s')) : Reachable d
  | reload {d : Document} (h : Reachable d) (source : String) :
      Reachable (Document.reload source).1
  | ofRoot {d d' : Document} (h : Reachable d) (change : Option Element → Element)
      (hd' : Document.ofRoot (change d.root?) = .ok d') : Reachable d'

theorem Reachable.indexed {d : Document} (h : Reachable d) : Indexed d := by
  induction h with
  | empty => exact indexed_empty
  | ofEvents h => exact indexed_ofEvents h
  | read h => exact indexed_read h
  | reload _ source _ => exact indexed_reload source
  | ofRoot _ _ hd' _ => exact indexed_ofRoot hd'

/-! ## What the index answers -/

section Answers

variable {d : Document} {root : Element} {id : String}

theorem Indexed.get?_eq_some_iff (h : Indexed d) (hroot : d.root? = some root) {path : Path} :
    d.index.get? id = some path ↔ ∃ e, root.at? path = some e ∧ e.objectId? = some id := by
  rw [h.index_eq root hroot, ObjectIndex.get?_eq_some_iff,
    ObjectIndex.mem_ofList (h.nodup root hroot), Element.mem_declared]

theorem Indexed.get?_eq_none_iff (h : Indexed d) (hroot : d.root? = some root) :
    d.index.get? id = none ↔ ∀ e, Element.Within root e → e.objectId? ≠ some id := by
  constructor
  · intro hnone e hwithin hid
    obtain ⟨path, hpath⟩ := Element.within_iff_at?.1 hwithin
    have hsome := (h.get?_eq_some_iff hroot).2 ⟨e, hpath, hid⟩
    rw [hnone] at hsome
    cases hsome
  · intro hnot
    cases hget : d.index.get? id with
    | none => rfl
    | some path =>
      obtain ⟨e, hpath, hid⟩ := (h.get?_eq_some_iff hroot).1 hget
      exact absurd hid (hnot e (Element.within_iff_at?.2 ⟨path, hpath⟩))

theorem Indexed.lookup?_eq_some_iff (h : Indexed d) (hroot : d.root? = some root) {e : Element} :
    d.lookup? id = some e ↔ Element.Within root e ∧ e.objectId? = some id := by
  simp only [lookup?, hroot, Option.bind_some, Option.bind_eq_some_iff]
  constructor
  · rintro ⟨path, hpath, hat⟩
    obtain ⟨e', hat', hid⟩ := (h.get?_eq_some_iff hroot).1 hpath
    rw [hat] at hat'
    cases hat'
    exact ⟨Element.within_iff_at?.2 ⟨path, hat⟩, hid⟩
  · rintro ⟨hwithin, hid⟩
    obtain ⟨path, hat⟩ := Element.within_iff_at?.1 hwithin
    exact ⟨path, (h.get?_eq_some_iff hroot).2 ⟨e, hat, hid⟩, hat⟩

theorem Indexed.ofRoot_eq (h : Indexed d) (hroot : d.root? = some root) :
    ofRoot root = .ok { root? := some root, index := d.index } :=
  ofRoot_eq_ok_iff.2 ⟨h.nodup root hroot, by rw [h.index_eq root hroot]⟩

end Answers

/-- The index of a document is the one that its tree has by itself, it finds just the objects that
known children lead to, and a reload that fails leaves nothing behind. -/
theorem Reachable.index_exact {d : Document} (h : Reachable d) :
    (∀ root, d.root? = some root →
      Document.ofRoot root = .ok { root? := some root, index := d.index } ∧
      ∀ id, (∀ path, d.index.get? id = some path ↔
          ∃ e, root.at? path = some e ∧ e.objectId? = some id) ∧
        (d.index.get? id = none ↔ ∀ e, Element.Within root e → e.objectId? ≠ some id) ∧
        ∀ e, d.lookup? id = some e ↔ Element.Within root e ∧ e.objectId? = some id) ∧
    (d.root? = none → d.index = ∅ ∧ d.warnings = [] ∧ ∀ id, d.lookup? id = none) ∧
    ∀ source d' error, Document.reload source = (d', some error) →
      d'.root? = none ∧ d'.index = ∅ ∧ d'.warnings = [] := by
  have hindexed := h.indexed
  refine ⟨fun root hroot => ⟨hindexed.ofRoot_eq hroot, fun id => ⟨fun path => ?_, ?_, fun e => ?_⟩⟩,
    fun hnone => ?_, fun source d' error hreload => ?_⟩
  · exact hindexed.get?_eq_some_iff hroot
  · exact hindexed.get?_eq_none_iff hroot
  · exact hindexed.lookup?_eq_some_iff hroot
  · rw [hindexed.empty hnone]
    exact ⟨rfl, rfl, fun id => rfl⟩
  · rcases reload_eq source with ⟨d, -, heq⟩ | ⟨error', heq⟩
    · rw [heq] at hreload
      cases hreload
    · rw [heq] at hreload
      cases hreload
      exact ⟨rfl, rfl, rfl⟩

/-- The events of a text with two placemarks in a place that has room for one. -/
def twoPlacemarks : List Markup.Event :=
  [.startTag "kml" [] ⟨0, 5⟩,
    .startTag "Placemark" [("id", "p")] ⟨5, 23⟩, .endTag "Placemark" ⟨23, 35⟩,
    .startTag "Placemark" [("id", "q")] ⟨35, 53⟩, .endTag "Placemark" ⟨53, 65⟩,
    .endTag "kml" ⟨65, 71⟩]

/-- The placemark that came last is found, and the one that it displaced is not in the tree. -/
theorem index_exact_twoPlacemarks : ∃ d root,
    (Document.ofEvents {} ([] : List (Observer Unit)) twoPlacemarks).run () = (.ok d, ()) ∧
      Document.ofRoot root = .ok { root? := some root, index := d.index } ∧
      (∃ e, root.at? [0] = some e ∧ e.objectId? = some "q") ∧
      ∀ e, Element.Within root e → e.objectId? ≠ some "p" := by
  obtain ⟨d, hrun, ⟨root, hroot⟩, hq, hp⟩ : ∃ d,
      (Document.ofEvents {} ([] : List (Observer Unit)) twoPlacemarks).run () = (.ok d, ()) ∧
        (∃ root, d.root? = some root) ∧ d.index.get? "q" = some [0] ∧ d.index.get? "p" = none :=
    ⟨_, rfl, ⟨_, rfl⟩, rfl, rfl⟩
  obtain ⟨hofRoot, hanswers⟩ := (Reachable.index_exact (.ofEvents hrun)).1 root hroot
  exact ⟨d, root, hrun, hofRoot, ((hanswers "q").1 [0]).1 hq, (hanswers "p").2.1.1 hp⟩

end Document

end KmlTree
