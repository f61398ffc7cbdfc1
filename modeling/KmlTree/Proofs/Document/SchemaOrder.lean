import KmlTree.Proofs.Document.Obtained
import KmlTree.Proofs.Document.Reachable
import KmlTree.Proofs.Style.Reordering

/-!
# Documents in the order of the schema

A document is written with the children of every element in the order of their places. A tree that is
put into this order means what it meant: the same identifiers lead to the same objects, though by
other paths, and features are shown in the same styles.
-/
namespace KmlTree

namespace Document

variable {root : Element} {d d' : Document} {id : String}

theorem exists_ofRoot_sorted (h : ofRoot root = .ok d) : ∃ d', ofRoot root.sorted = .ok d' := by
  obtain ⟨hnodup, -⟩ := ofRoot_eq_ok_iff.1 h
  have hids : (root.sorted.declared.map Prod.fst).Nodup := (root.ids_sorted_perm).nodup_iff.2 hnodup
  exact ⟨_, ofRoot_eq_ok_iff.2 ⟨hids, rfl⟩⟩

theorem root?_of_ofRoot (h : ofRoot root = .ok d) : d.root? = some root := by
  obtain ⟨-, rfl⟩ := ofRoot_eq_ok_iff.1 h
  rfl

theorem mem_ids_iff (h : ofRoot root = .ok d) :
    id ∈ d.index.entries.map Prod.fst ↔ id ∈ root.ids := by
  obtain ⟨hnodup, rfl⟩ := ofRoot_eq_ok_iff.1 h
  simp only [List.mem_map, ObjectIndex.mem_ofList hnodup, Element.ids]

theorem lookup?_sorted (h : ofRoot root = .ok d) (h' : ofRoot root.sorted = .ok d') (id : String) :
    d'.lookup? id = (d.lookup? id).map Element.sorted := by
  have hlookup {e : Element} :
      d.lookup? id = some e ↔ Element.Within root e ∧ e.objectId? = some id :=
    (indexed_ofRoot h).lookup?_eq_some_iff (root?_of_ofRoot h)
  have hlookup' {e : Element} :
      d'.lookup? id = some e ↔ Element.Within root.sorted e ∧ e.objectId? = some id :=
    (indexed_ofRoot h').lookup?_eq_some_iff (root?_of_ofRoot h')
  refine Option.ext fun x => ?_
  rw [hlookup', Option.map_eq_some_iff]
  constructor
  · rintro ⟨hwithin, hid⟩
    obtain ⟨y, hy, rfl⟩ := Element.within_sorted.1 hwithin
    rw [Element.objectId?_sorted] at hid
    exact ⟨y, hlookup.2 ⟨hy, hid⟩, rfl⟩
  · rintro ⟨y, hy, rfl⟩
    obtain ⟨hwithin, hid⟩ := hlookup.1 hy
    exact ⟨Element.within_sorted.2 ⟨y, hwithin, rfl⟩, by rw [Element.objectId?_sorted, hid]⟩

end Document

namespace Element

open Document (ofRoot)

/-- If a tree can be indexed then so can the tree in the order of the schema, and it declares the
same identifiers. Each of these leads to the same object, in that order, and in each state the object
has a style with the same text, on the way to which the same references contribute nothing. -/
theorem Obtained.meaning_sorted {root : Element} (h : root.Obtained) {d : Document}
    (hd : ofRoot root = .ok d) : ∃ d', ofRoot root.sorted = .ok d' ∧
      (∀ id, id ∈ d'.index.entries.map Prod.fst ↔ id ∈ d.index.entries.map Prod.fst) ∧
      (∀ id, d'.lookup? id = (d.lookup? id).map sorted) ∧
      ∀ id e e', d.lookup? id = some e → d'.lookup? id = some e' → ∀ state,
        (d'.resolve state e').diagnostics = (d.resolve state e).diagnostics ∧
        ∀ options, ∃ text, (d.resolve state e).style.render options = .ok text ∧
          (d'.resolve state e').style.render options = .ok text := by
  obtain ⟨d', hd'⟩ := Document.exists_ofRoot_sorted hd
  have hlookup := Document.lookup?_sorted hd hd'
  have hroot : ∀ x, d.root? = some x → x.All Seated := by
    intro x hx
    rw [Document.root?_of_ofRoot hd] at hx
    cases hx
    exact h.seated
  refine ⟨d', hd', fun id => ?_, hlookup, fun id e e' he he' state => ?_⟩
  · rw [Document.mem_ids_iff hd', Document.mem_ids_iff hd, root.ids_sorted_perm.mem_iff]
  · rw [hlookup, he] at he'
    cases he'
    have hseated := (hereditary_all Seated).lookup? hroot he
    rw [Document.resolve_sorted hlookup hroot hseated]
    refine ⟨rfl, fun options => ⟨_, render_eq _ options, ?_⟩⟩
    rw [render_eq]
    exact congrArg (fun x : Element => Except.ok (x.written options)) (arrange_sortedBelow _)

/-! ## A tree built out of order -/

/-- A stop whose reference to a style was set before its name. -/
def stop : Element :=
  ⟨{ kind := .placemark, attributes := ⟨[(.id, "p")]⟩ },
    [.field 9 ⟨.styleUrl, "#s"⟩, .field 0 ⟨.name, "Stop"⟩], []⟩

/-- A style of lines whose width was set before their colour. -/
def lines : Element :=
  ⟨{ kind := .style, attributes := ⟨[(.id, "s")]⟩ },
    [.element 2 ⟨{ kind := .lineStyle },
      [.field 2 ⟨.width, "2"⟩, .field 0 ⟨.color, "ff0000ff"⟩], []⟩], []⟩

/-- A document that the style of its stop was added to last. -/
def route : Element :=
  ⟨{ kind := .document }, [.element 14 stop, .element 10 lines], []⟩

theorem obtained_route : route.Obtained := by
  have hstop : stop.Obtained := by
    have hmarked := (Obtained.ofKind .placemark).edited (.setAttribute "id" "p")
      (by simp [Edit.parts]) rfl
    have hstyled := hmarked.edited (.setFieldText .styleUrl "#s") (by simp [Edit.parts]) rfl
    exact hstyled.edited (.setFieldText .name "Stop") (by simp [Edit.parts]) rfl
  have hlines : lines.Obtained := by
    have hwide := (Obtained.ofKind .lineStyle).edited (.setFieldText .width "2")
      (by simp [Edit.parts]) rfl
    have hred := hwide.edited (.setFieldText .color "ff0000ff") (by simp [Edit.parts]) rfl
    have hmarked := (Obtained.ofKind .style).edited (.setAttribute "id" "s")
      (by simp [Edit.parts]) rfl
    exact hmarked.edited (.addChild _) (by simpa [Edit.parts] using hred) rfl
  have hstopped := (Obtained.ofKind .document).edited (.addChild stop)
    (by simpa [Edit.parts] using hstop) rfl
  exact hstopped.edited (.addChild lines) (by simpa [Edit.parts] using hlines) rfl

theorem document_route : ∃ d, ofRoot route = .ok d ∧ d.lookup? "p" = some stop ∧
    (d.resolve .normal stop).style ≠ ofKind .style := by
  obtain ⟨d, hd⟩ : ∃ d, ofRoot route = .ok d :=
    ⟨_, Document.ofRoot_eq_ok_iff.2 ⟨by decide +kernel, rfl⟩⟩
  have hfound {e : Element} {id : String} (he : e ∈ route.elements) (hid : e.objectId? = some id) :
      d.lookup? id = some e :=
    ((Document.indexed_ofRoot hd).lookup?_eq_some_iff (Document.root?_of_ofRoot hd)).2
      ⟨Within.root.child he, hid⟩
  have hstop : d.lookup? "p" = some stop := hfound List.mem_cons_self rfl
  have hlines : d.lookup? "s" = some lines :=
    hfound (List.mem_cons_of_mem _ List.mem_cons_self) rfl
  have htarget : d.styleTarget [] [] "#s" = .shared "s" (.style lines) := by
    have hid : localId? "#s" = some "s" := rfl
    simp only [Document.styleTarget, hid, hlines]
    rfl
  have hresolve : d.resolve .normal stop =
      (StyleSelector.style lines).contribute { entered := ["s"] } := by
    change d.resolveTasks .normal {} [.url [] "#s"] = _
    rw [Document.resolveTasks_shared [] htarget, Document.resolveTasks_selector]
    exact Document.resolveTasks_nil d _
  refine ⟨d, hd, hstop, ?_⟩
  rw [hresolve]
  decide +kernel

/-- The style comes first when the document is sorted, and the stop is shown in it as before. -/
theorem meaning_sorted_route : route.Obtained ∧ route.sorted ≠ route ∧
    ∃ d d', ofRoot route = .ok d ∧ ofRoot route.sorted = .ok d' ∧
      d.lookup? "p" = some stop ∧ d'.lookup? "p" = some stop.sorted ∧
      (d.resolve .normal stop).style ≠ ofKind .style ∧
      (d'.resolve .normal stop.sorted).diagnostics = (d.resolve .normal stop).diagnostics ∧
      ∃ text, (d.resolve .normal stop).style.render {} = .ok text ∧
        (d'.resolve .normal stop.sorted).style.render {} = .ok text := by
  obtain ⟨d, hd, hstop, hstyle⟩ := document_route
  obtain ⟨d', hd', -, hlookup, hresolve⟩ := Obtained.meaning_sorted obtained_route hd
  have hstop' : d'.lookup? "p" = some stop.sorted := by
    rw [hlookup, hstop, Option.map_some]
  obtain ⟨hdiagnostics, hrender⟩ := hresolve "p" stop stop.sorted hstop hstop' .normal
  exact ⟨obtained_route, by decide +kernel, d, d', hd, hd', hstop, hstop', hstyle, hdiagnostics,
    hrender {}⟩

end Element

end KmlTree
