import KmlTree.Proofs.Document.Reachable
import KmlTree.Proofs.Reading.Kept

/-!
# Documents without what was dropped

What observers drop leaves no trace. Main statement: an element that was dropped leaves the builder as
it was, elements that were skipped leave it as if they had not been there, and a document that was
read under observation has the root and the index that are read, with nobody observing, from the
events without those of what was dropped.
-/
namespace KmlTree

open Markup

namespace Builder

variable {σ : Type} {observers : List (Observer σ)} {b b' : Builder} {s s' : σ}

theorem sameTree_of_rejected (hsound : Sound b) {start : StartTag} {content : List Node}
    {stop : EndTag}
    (hrun : (b.takeAll observers (Node.element start content stop).events).run s = (.ok b', s'))
    (h : answer? observers b s start.event = some .reject ∨
      answerAfter? observers b s (start.event :: eventsOf content) stop.event = some .reject) :
    SameTree b b' := by
  obtain ⟨b₁, s₁, b₂, s₂, hstart, hcontent, hstop⟩ := takeAll_element_ok.1 hrun
  rcases h with hrejected | hrejected
  · exact sameTree_of_rejected_start hrejected hrun
  · rw [answerAfter?_eq (takeAll_cons_ok.2 ⟨b₁, s₁, hstart, hcontent⟩)] at hrejected
    exact sameTree_of_rejected_end hsound hstart hcontent hstop hrejected

theorem follows_new (options : ReadOptions) : Follows (new options) (new options) := ⟨[], 0, rfl⟩

theorem Follows.finish_ok {c : Builder} (h : Follows b c) {d : Document}
    (hfinish : b.finish = .ok d) :
    ∃ d', c.finish = .ok d' ∧ d'.root? = d.root? ∧ d'.index = d.index := by
  obtain ⟨warnings, offset, rfl⟩ := h
  obtain ⟨hstack, hd, root, ids, hroot, rfl⟩ := finish_eq_ok_iff.1 hfinish
  refine ⟨_, finish_eq_ok_iff.2 ⟨?_, hd, root, ids, hroot, rfl⟩, rfl, rfl⟩
  simp [descending, hstack]

end Builder

namespace Document

open Builder

variable {σ : Type}

theorem exists_nodes_of_ofEvents {options : ReadOptions} {observers : List (Observer σ)}
    {events : List Event} {s s' : σ} {d : Document}
    (h : (ofEvents options observers events).run s = (.ok d, s')) :
    ∃ ns, events = eventsOf ns := by
  obtain ⟨b, hrun, hfinish⟩ := ofEvents_run h
  obtain ⟨hstack, hd, -⟩ := finish_eq_ok_iff.1 hfinish
  exact hrun.exists_nodes rfl rfl hstack hd

/-- A document that is read under observation is read, with nobody observing, from the nodes that are
left without what was dropped. -/
theorem ofEvents_kept {options : ReadOptions} {observers : List (Observer σ)} {ns : List Node}
    {s s' : σ} {d : Document} (h : (ofEvents options observers (eventsOf ns)).run s = (.ok d, s')) :
    ∃ d', (ofEvents options ([] : List (Observer Unit))
      (eventsOf (keptOf (answerAfter? observers (.new options) s) [] ns))).run () = (.ok d', ()) ∧
        d'.root? = d.root? ∧ d'.index = d.index := by
  obtain ⟨b, htake, hfinish⟩ := ofEvents_takeAll h
  have hbefore : ((Builder.new options).takeAll observers []).run s = (.ok (.new options), s) := rfl
  obtain ⟨c, hkept, hfollows⟩ := simulates_all (fun n _ => simulates n) hbefore (sound_new options)
    ⟨rfl, by simp [Builder.new]⟩ (follows_new options) htake
  obtain ⟨d', hfinish', hroot, hindex⟩ := hfollows.finish_ok hfinish
  refine ⟨d', ?_, hroot, hindex⟩
  rw [ofEvents_unobserved, hkept]
  exact congrArg (·, ()) hfinish'

/-- What observers drop leaves no trace. An element that is dropped, at its start tag or when it is
complete, leaves the builder as it was; elements that are skipped, as if they had not been there. So
what is read under observation is read, with nobody observing, from what is left. -/
theorem dropped_leaves_no_trace (options : ReadOptions) (observers : List (Observer σ)) (s : σ) :
    (∀ {before : List Event} {b : Builder}, Run (.new options) before b →
      ∀ (start : StartTag) (content : List Node) (stop : EndTag) {b' : Builder} {s' : σ},
        (b.takeAll observers (Node.element start content stop).events).run s = (.ok b', s') →
          ((answer? observers b s start.event = some .reject ∨
            answerAfter? observers b s (start.event :: eventsOf content) stop.event =
              some .reject) → SameTree b b') ∧
          (answer? observers b s start.event = some .skipChildren →
            (b.takeAll observers
              (Node.element start (content.filter Node.isText) stop).events).run s =
                (.ok b', s'))) ∧
      ∀ {events : List Event} {d : Document} {s' : σ},
        (ofEvents options observers events).run s = (.ok d, s') →
          (∃ ns, events = eventsOf ns) ∧ ∀ ns, events = eventsOf ns → ∃ d',
            (ofEvents options ([] : List (Observer Unit))
              (eventsOf (keptOf (answerAfter? observers (.new options) s) [] ns))).run () =
                (.ok d', ()) ∧ d'.root? = d.root? ∧ d'.index = d.index := by
  refine ⟨fun hb start content stop b' s' hrun => ⟨fun hrejected => ?_, fun hskipped => ?_⟩,
    fun hrun => ⟨exists_nodes_of_ofEvents hrun, fun ns hns => ?_⟩⟩
  · exact sameTree_of_rejected (hb.sound (sound_new options)) hrun hrejected
  · rw [← takeAll_of_skipped hskipped]
    exact hrun
  · rw [hns] at hrun
    exact ofEvents_kept hrun

/-- Has what is in folders skipped, and drops placemarks that hold an element. -/
def sparing : Observer Unit where
  startElement e := pure (if e.kind = .folder then .skipChildren else .descend)
  endElement _ e :=
    pure (if e.kind = .placemark ∧ e.elements.isEmpty = false then .reject else .descend)

def pointedPlacemark : Node :=
  .element ⟨"Placemark", [("id", "p")], ⟨55, 73⟩⟩
    [.element ⟨"Point", [("id", "q")], ⟨73, 88⟩⟩ [] ⟨"Point", ⟨73, 88⟩⟩]
    ⟨"Placemark", ⟨88, 100⟩⟩

/-- A placemark of the same identifier. -/
def plainPlacemark : Node :=
  .element ⟨"Placemark", [("id", "p")], ⟨100, 120⟩⟩ [] ⟨"Placemark", ⟨100, 120⟩⟩

/-- A document with a folder, that holds text and some nodes, and with other nodes. -/
def campsite (inFolder others : List Node) : Node :=
  .element ⟨"Document", [], ⟨0, 10⟩⟩
    (.element ⟨"Folder", [("id", "f")], ⟨10, 25⟩⟩ (.text "a" 25 :: inFolder) ⟨"Folder", ⟨46, 55⟩⟩ ::
      others)
    ⟨"Document", ⟨120, 131⟩⟩

def inDocument : Builder where
  stack :=
    [{ element := .ofKind .document, span := ⟨0, 10⟩, ids := [], skipsChildren := false,
       prefixes := [] }]
  offset := 10

/-- Of two placemarks with one identifier, the first is dropped and gives it back. What is in the
folder is skipped, though it has the identifier as well. -/
theorem no_trace_campsite :
    (Run (.new {}) [.startTag "Document" [] ⟨0, 10⟩] inDocument ∧
      ∃ b, (inDocument.takeAll [sparing] pointedPlacemark.events).run () = (.ok b, ()) ∧
        SameTree inDocument b) ∧
    ∃ d d', (ofEvents {} [sparing]
        (campsite [plainPlacemark] [pointedPlacemark, plainPlacemark]).events).run () =
          (.ok d, ()) ∧
      (ofEvents {} ([] : List (Observer Unit)) (campsite [] [plainPlacemark]).events).run () =
        (.ok d', ()) ∧
      d'.root? = d.root? ∧ d'.index = d.index ∧ d.index.get? "p" = some [1] ∧
      d.index.get? "q" = none := by
  obtain ⟨helement, hdocument⟩ := dropped_leaves_no_trace {} [sparing] ()
  refine ⟨?_, ?_⟩
  · have hstart : ((Builder.new {}).takeAll [sparing] [.startTag "Document" [] ⟨0, 10⟩]).run () =
        (.ok inDocument, ()) := rfl
    have hok : ((inDocument.takeAll [sparing] pointedPlacemark.events).run ()).1.isOk = true := by
      decide +kernel
    have hanswer : answerAfter? [sparing] inDocument ()
        (Event.startTag "Placemark" [("id", "p")] ⟨55, 73⟩ ::
          eventsOf [.element ⟨"Point", [("id", "q")], ⟨73, 88⟩⟩ [] ⟨"Point", ⟨73, 88⟩⟩])
        (.endTag "Placemark" ⟨88, 100⟩) = some .reject := by decide +kernel
    rcases hrun : (inDocument.takeAll [sparing] pointedPlacemark.events).run () with
      ⟨error | b, ⟨⟩⟩
    · rw [hrun] at hok
      cases hok
    · exact ⟨takeAll_run hstart, b, rfl,
        (helement (takeAll_run hstart) _ _ _ hrun).1 (Or.inr hanswer)⟩
  · obtain ⟨d, hrun, hp, hq⟩ : ∃ d, (ofEvents {} [sparing]
          (eventsOf [campsite [plainPlacemark] [pointedPlacemark, plainPlacemark]])).run () =
            (.ok d, ()) ∧
        d.index.get? "p" = some [1] ∧ d.index.get? "q" = none := ⟨_, rfl, rfl, rfl⟩
    obtain ⟨d', hrun', hroot, hindex⟩ := (hdocument hrun).2 _ rfl
    exact ⟨d, d', hrun, hrun', hroot, hindex, hp, hq⟩

end Document

end KmlTree
