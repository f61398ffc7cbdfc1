import KmlTree.Proofs.Document.Written
import KmlTree.Proofs.Reading.Levels
import KmlTree.Proofs.Reading.Recursive

/-!
# The events that are accepted

A reading without observers goes on to its end just for the events of a root with blank text around
it. Main statements: which roots these are, and that the document is the one that the recursion over
the root gives.
-/
namespace KmlTree

open Markup Text

namespace Builder

variable {b b' : Builder} {event : Event} {events : List Event}

/-! ## Elements that are open -/

/-- Nothing is being dropped, nor will anything be. -/
structure Descends (b : Builder) : Prop where
  notDropped : b.dropped? = none
  frames : ∀ frame ∈ b.stack, frame.skipsChildren = false

theorem Descends.replaceTop (h : Descends b) {frame frame' : Frame} {rest : List Frame}
    (before : List Frame) (hs : b.stack = before ++ frame :: rest) (hd : b'.dropped? = none)
    (hs' : b'.stack = frame' :: rest) (hskip : frame'.skipsChildren = frame.skipsChildren) :
    Descends b' where
  notDropped := hd
  frames := by
    have hframes := h.frames
    rw [hs, List.forall_mem_append] at hframes
    rw [hs', List.forall_mem_cons, hskip]
    exact List.forall_mem_cons.1 hframes.2

theorem next_startTag_descends (h : Descends b) {name : String}
    {attributes : List (String × String)} {span : Span}
    (hnext : b.next (.startTag name attributes span) = .ok b') : Descends b' := by
  have hopens (haround : ∀ f ∈ b.stack.head?,
      f.skipsChildren = false ∧ f.element.kind.isSimple = false) : Descends b' := by
    obtain ⟨opened, taken, hinner, -⟩ := next_opens h.notDropped haround hnext
    refine ⟨hinner.notDropped, ?_⟩
    rw [hinner.stack_eq]
    exact List.forall_mem_cons.2 ⟨hinner.descends, h.frames⟩
  cases hs : b.stack with
  | nil => exact hopens (by simp [hs])
  | cons frame rest =>
    have hinner : Innermost b frame rest := ⟨h.notDropped, hs, h.frames frame (by simp [hs])⟩
    cases hsimple : frame.element.kind.isSimple with
    | false =>
      refine hopens ?_
      rw [hs]
      rintro _ ⟨⟩
      exact ⟨hinner.descends, hsimple⟩
    | true =>
      rw [hinner.next_startTag_field hsimple] at hnext
      cases hnext
      exact h.replaceTop [] hs h.notDropped rfl rfl

theorem next_descends (h : Descends b) (hnext : b.next event = .ok b') : Descends b' := by
  cases event with
  | startTag name attributes span => exact next_startTag_descends h hnext
  | text s offset =>
    cases next_step hnext with
    | textPassed => exact ⟨h.notDropped, h.frames⟩
    | textKept _ hs => exact h.replaceTop [] hs h.notDropped rfl rfl
  | endTag name span =>
    cases next_step hnext with
    | dropEnded hd =>
      rw [h.notDropped] at hd
      cases hd
    | markupClosed _ hs _ => exact h.replaceTop [] hs h.notDropped rfl rfl
    | rootEnded _ hs _ => exact ⟨h.notDropped, by simp⟩
    | vetoed _ hs _ | filed _ hs _ | misplaced _ hs _ | attached _ hs _ =>
      exact h.replaceTop [_] hs h.notDropped rfl rfl

theorem foldlM_descends (h : Descends b) (hrun : events.foldlM next b = .ok b') : Descends b' := by
  induction events generalizing b with
  | nil =>
    cases hrun
    exact h
  | cons event rest ih =>
    obtain ⟨b₁, hnext, hrest⟩ := foldlM_cons_ok hrun
    exact ih (next_descends h hnext) hrest

theorem exists_nodes_of_ok (h : Descends b) (hs : b.stack = [])
    (hrun : events.foldlM next b = .ok b') (hs' : b'.stack = []) : ∃ ns, events = eventsOf ns := by
  have hd' := (foldlM_descends h hrun).notDropped
  exact (foldlM_next_run hrun).exists_nodes hs h.notDropped hs' hd'

/-! ## The root and what is around it -/

/-- Nothing is open, and no more was taken than the root, if any. -/
structure Between (options : ReadOptions) (root? : Option Element) (ws : List Warning)
    (b : Builder) : Prop extends Outside b where
  options_eq : b.options = options
  root_eq : b.root?.map Prod.fst = root?
  warnings_eq : b.warnings = ws

variable {options : ReadOptions} {root? : Option Element} {ws : List Warning}

theorem between_new (options : ReadOptions) : Between options none [] (new options) :=
  ⟨⟨sound_new options, rfl, rfl⟩, rfl, rfl, rfl⟩

theorem Between.next_text (h : Between options root? ws b) (s : String) (offset : Nat) :
    Yields (b.next (.text s offset)) (isAllBlank s = true) (Between options root? ws) := by
  have hnext := h.toOutside.next_text s offset
  by_cases hblank : isAllBlank s = true
  · rw [if_pos hblank] at hnext
    exact .of_ok hnext hblank ⟨h.withOffset _, h.options_eq, h.root_eq, h.warnings_eq⟩
  · rw [if_neg hblank] at hnext
    exact .of_error hnext hblank

theorem Between.texts (h : Between options root? ws b) {ns : List Node}
    (htexts : ∀ n ∈ ns, n.isText = true) :
    Yields ((eventsOf ns).foldlM next b) (∀ n ∈ ns, n.IsBlank) (Between options root? ws) := by
  induction ns generalizing b with
  | nil => exact .of_ok rfl (by simp) h
  | cons n rest ih =>
    obtain ⟨hfirst, hrest⟩ := List.forall_mem_cons.1 htexts
    cases n with
    | element start content stop => cases hfirst
    | text s offset =>
      have hnext := h.next_text s offset
      rw [← foldlM_next_singleton] at hnext
      rw [List.forall_mem_cons]
      exact yields_append hnext fun b' hb' => ih hb' hrest

theorem Between.next_startTag_error {e : Element} (h : Between options (some e) ws b)
    (start : StartTag) :
    b.next start.event = .error (.malformedAt .secondRoot start.span.start) := by
  have hroot : b.root?.isSome = true := by
    have hmap := congrArg Option.isSome h.root_eq
    simpa using hmap
  simp only [StartTag.event, next, startTag, h.notDropped, h.stack_eq, Option.isSome_none,
    Bool.false_eq_true, if_false, openElement, hroot, if_true]

theorem Between.setting_eq (h : Between options root? ws b) : b.setting = {} := by
  rw [setting, h.stack_eq]
  rfl

theorem Between.mem_listed (h : Between options none ws b) (id : String) :
    id ∈ b.listed ↔ id ∈ ([] : List String) := by
  have hnoRoot : b.root? = none := by simpa using h.root_eq
  simp [listed, h.stack_eq, hnoRoot]

theorem Between.receptive (h : Between options none ws b) (hlenient : options.strict = false) :
    Receptive b where
  sound := h.sound
  lenient := h.options_eq ▸ hlenient
  noRoot := by simpa using h.root_eq
  notDropped := h.notDropped
  around := by simp [h.stack_eq]

/-- The nodes between the tags of the root are taken by it, and its end tag completes it. -/
theorem Between.completed (h : Between options none [] b) {start : StartTag}
    (hopen : Open b start (Setting.opened {} start) [] b')
    (hsimple : (Setting.opened {} start).kind.isSimple = false) (content : List Node)
    (stop : EndTag) :
    Yields ((eventsOf content ++ [stop.event]).foldlM next b')
      (AcceptedAll (Setting.within {} start) 1 options.maxDepth [] (Setting.opened {} start)
        content ∧ Setting.Closes {} start stop)
      fun b'' => ∃ e, (Node.element start content stop).read? {} = some e ∧
        Between options (some e) ((Node.element start content stop).warnings {}) b'' := by
  have hsetting := h.setting_eq
  have hopen' : Open b start (b.setting.opened start) [] b' := by rwa [hsetting]
  have hcontent := hopen'.content (fun (n : Node) (_ : n ∈ content) => takesIn n)
    (by rwa [hsetting]) h.mem_listed
  rw [hsetting, h.stack_eq, h.options_eq] at hcontent
  refine yields_append hcontent fun b₁ hb₁ => ?_
  have hend := hb₁.next_endTag_root h.stack_eq (hsetting ▸ label_foldl_into _ _ _) stop
  rw [foldlM_next_singleton]
  rw [hsetting] at hend
  refine hend.imp Iff.rfl ?_
  rintro b'' ⟨houtside, hoptions, ⟨ids, hroot⟩, hwarnings⟩
  refine ⟨_, read?_element {} hsimple, houtside, hoptions.trans h.options_eq, ?_, ?_⟩
  · rw [hroot]
    rfl
  · rw [hwarnings, h.warnings_eq, Node.warnings]
    simp [hsimple]

theorem Between.root (h : Between options none [] b) (hlenient : options.strict = false)
    (start : StartTag) (content : List Node) (stop : EndTag) :
    Yields ((Node.element start content stop).events.foldlM next b)
      (((Setting.opened {} start).kind ≠ .unknown ∧
          (Setting.opened {} start).kind.isSimple = false) ∧
        (Node.element start content stop).Accepted {} 0 options.maxDepth [])
      fun b' => ∃ e, (Node.element start content stop).read? {} = some e ∧
        Between options (some e) ((Node.element start content stop).warnings {}) b' := by
  have hstart := ((h.receptive hlenient).next_startTag start).assume
  simp only [h.setting_eq, h.stack_eq, h.options_eq, h.mem_listed, forall_const,
    List.length_nil] at hstart
  rw [Node.events, List.foldlM_cons]
  refine (hstart.bind fun b₁ hb₁ =>
    h.completed hb₁.2 hb₁.1.1.2 content stop).imp ?_ fun _ => id
  constructor
  · rintro ⟨⟨hkind, hroom⟩, hall⟩
    exact ⟨hkind, (accepted_element hkind.2).2 ⟨hroom, hall⟩⟩
  · rintro ⟨hkind, haccepted⟩
    obtain ⟨hroom, hall⟩ := (accepted_element hkind.2).1 haccepted
    exact ⟨⟨hkind, hroom⟩, hall⟩

theorem Between.finish (h : Between options root? ws b) :
    Yields b.finish (root?.isSome = true) fun d => ∃ e, root? = some e ∧
      d = { root? := some e, index := .ofList e.declared, warnings := ws } := by
  cases hroot : b.root? with
  | none =>
    have hnone : root? = none := by simpa [hroot] using h.root_eq.symm
    have hfinish : b.finish = .error .empty := by
      simp only [Builder.finish, h.stack_eq, h.notDropped, hroot]
    exact .of_error hfinish (by simp [hnone])
  | some r =>
    obtain ⟨e, ids⟩ := r
    have hsome : root? = some e := by simpa [hroot] using h.root_eq.symm
    have hfinish := finish_eq_ok_iff.2 ⟨h.stack_eq, h.notDropped, e, ids, hroot, rfl⟩
    have hindex := (Document.indexed_finish h.sound hfinish).index_eq e rfl
    refine .of_ok hfinish (by simp [hsome]) ⟨e, hsome, ?_⟩
    rw [← h.warnings_eq, ← hindex]

theorem foldlM_finish_ok {d : Document}
    (h : events.foldlM next b >>= Builder.finish = .ok d) :
    ∃ b', events.foldlM next b = .ok b' ∧ b'.finish = .ok d := by
  cases hevents : events.foldlM next b with
  | error error =>
    rw [hevents] at h
    cases h
  | ok b' =>
    rw [hevents] at h
    exact ⟨b', rfl, h⟩

/-- A root with texts around it is accepted if the texts are blank and the root is. -/
theorem yields_document (options : ReadOptions) (hlenient : options.strict = false)
    {before after : List Node} (hbefore : ∀ n ∈ before, n.isText = true)
    (hafter : ∀ n ∈ after, n.isText = true) (start : StartTag) (content : List Node)
    (stop : EndTag) :
    Yields ((eventsOf (before ++ .element start content stop :: after)).foldlM next
        (new options) >>= Builder.finish)
      ((∀ n ∈ before, n.IsBlank) ∧
        (((Setting.opened {} start).kind ≠ .unknown ∧
            (Setting.opened {} start).kind.isSimple = false) ∧
          (Node.element start content stop).Accepted {} 0 options.maxDepth []) ∧
        ∀ n ∈ after, n.IsBlank)
      fun d => ∃ e, (Node.element start content stop).read? {} = some e ∧
        d = { root? := some e, index := .ofList e.declared,
              warnings := (Node.element start content stop).warnings {} } := by
  rw [eventsOf_append, eventsOf, List.foldlM_append, bind_assoc]
  refine ((between_new options).texts hbefore).bind fun b hb => ?_
  rw [List.foldlM_append, bind_assoc]
  refine (hb.root hlenient start content stop).bind ?_
  rintro b' ⟨e, he, hb'⟩
  refine ((hb'.texts hafter).bind fun b'' hb'' => hb''.finish).imp (by simp) ?_
  rintro d ⟨_, ⟨⟩, rfl⟩
  exact ⟨e, he, rfl⟩

theorem texts_error {ns : List Node} (htexts : ∀ n ∈ ns, n.isText = true) {d : Document} :
    (eventsOf ns).foldlM next (new options) >>= Builder.finish ≠ .ok d := by
  intro hok
  have hyields := ((between_new options).texts htexts).bind fun b hb => hb.finish
  obtain ⟨-, hnone⟩ := hyields.isOk_iff.1 ⟨d, hok⟩
  cases hnone

theorem secondRoot_error (hlenient : options.strict = false) {before between : List Node}
    (hbefore : ∀ n ∈ before, n.isText = true) (hbetween : ∀ n ∈ between, n.isText = true)
    {start start' : StartTag} {content content' after : List Node} {stop stop' : EndTag}
    {b' : Builder} :
    (eventsOf (before ++ .element start content stop ::
      (between ++ .element start' content' stop' :: after))).foldlM next (new options) ≠
        .ok b' := by
  intro hok
  rw [eventsOf_append, eventsOf, eventsOf_append, eventsOf] at hok
  obtain ⟨b₁, hok₁, hok⟩ := foldlM_append_ok hok
  obtain ⟨b₂, hok₂, hok⟩ := foldlM_append_ok hok
  obtain ⟨b₃, hok₃, hok⟩ := foldlM_append_ok hok
  obtain ⟨b₄, hok₄, hok⟩ := foldlM_append_ok hok
  obtain ⟨b₅, hok₅, -⟩ := foldlM_cons_ok hok₄
  have hb₁ := ((between_new options).texts hbefore).result b₁ hok₁
  obtain ⟨e, -, hb₂⟩ := (hb₁.root hlenient start content stop).result b₂ hok₂
  have hb₃ := (hb₂.texts hbetween).result b₃ hok₃
  rw [hb₃.next_startTag_error] at hok₅
  cases hok₅

end Builder

namespace Document

/-- The events of a node, if a lenient reading accepts them, describe the document of which the
root, the identifiers and the warnings are told by recursion on the node. -/
theorem ofEvents_eq_recursive {σ : Type} {maxDepth : Nat} {n : Node} {s s' : σ} {d : Document}
    (h : (ofEvents { strict := false, maxDepth } ([] : List (Observer σ)) n.events).run s =
      (.ok d, s')) :
    ∃ e, n.read? {} = some e ∧
      d = { root? := some e, index := .ofList e.declared, warnings := n.warnings {} } := by
  rw [ofEvents_unobserved, ← eventsOf_singleton] at h
  have hok := congrArg Prod.fst h
  cases n with
  | text text offset => exact absurd hok (Builder.texts_error (by simp [Node.isText]))
  | element start content stop =>
    have hyields := Builder.yields_document { strict := false, maxDepth } rfl
      (List.forall_mem_nil _) (List.forall_mem_nil _) start content stop
    exact hyields.result d hok

/-- The events of `<k:Placemark>` in `<kml>`, with a prefix that stands for the schema, a folder
that has no place in it, and two points where there is room for one. -/
def crowdedPlacemark : Node :=
  .element ⟨"kml", [("xmlns:k", "http://www.opengis.net/kml/2.2")], ⟨0, 46⟩⟩
    [.element ⟨"k:Placemark", [("id", "p")], ⟨46, 66⟩⟩
      [.text " " 66,
        .element ⟨"Point", [], ⟨67, 75⟩⟩ [] ⟨"Point", ⟨67, 75⟩⟩,
        .text "a" 75,
        .element ⟨"Folder", [], ⟨76, 85⟩⟩ [] ⟨"Folder", ⟨76, 85⟩⟩,
        .element ⟨"Point", [("id", "q")], ⟨85, 100⟩⟩ [] ⟨"Point", ⟨85, 100⟩⟩,
        .element ⟨"name", [], ⟨100, 106⟩⟩ [.text "b" 106] ⟨"name", ⟨107, 114⟩⟩]
      ⟨"k:Placemark", ⟨114, 128⟩⟩]
    ⟨"kml", ⟨128, 134⟩⟩

/-- The placemark is read with the second point alone, and with a warning about the folder. -/
theorem ofEvents_crowdedPlacemark : ∃ d placemark,
    (ofEvents { strict := false, maxDepth := 3 } ([] : List (Observer Unit))
      crowdedPlacemark.events).run () = (.ok d, ()) ∧
      d.root?.bind (·.at? [0]) = some placemark ∧ placemark.objectId? = some "p" ∧
        placemark.elements.map Element.objectId? = [some "q"] ∧
          placemark.fields = [⟨.name, "b"⟩] ∧ placemark.unknown = [.ofKind .folder] ∧
            d.warnings = [.misplaced "Placemark" "Folder" (.ofSpan ⟨76, 85⟩)] := by
  obtain ⟨d, hrun⟩ : ∃ d, (ofEvents { strict := false, maxDepth := 3 }
      ([] : List (Observer Unit)) crowdedPlacemark.events).run () = (.ok d, ()) := ⟨_, rfl⟩
  obtain ⟨e, he, hd⟩ := ofEvents_eq_recursive hrun
  obtain ⟨placemark, hat, hfacts⟩ : ∃ placemark,
      (crowdedPlacemark.read? {}).bind (·.at? [0]) = some placemark ∧
        placemark.objectId? = some "p" ∧ placemark.elements.map Element.objectId? = [some "q"] ∧
          placemark.fields = [⟨.name, "b"⟩] ∧ placemark.unknown = [.ofKind .folder] ∧
            crowdedPlacemark.warnings {} =
              [.misplaced "Placemark" "Folder" (.ofSpan ⟨76, 85⟩)] :=
    ⟨_, rfl, rfl, rfl, rfl, rfl, rfl⟩
  rw [he] at hat
  exact ⟨d, placemark, hrun, hd ▸ hat, hd ▸ hfacts⟩

/-- A lenient reading accepts just the events of a root with blank text around it, such that each
end tag ends the innermost element, the schema knows the root, no more elements are open at once
than may be, and no start tag declares an identifier that is declared around it. -/
theorem ofEvents_accepts_iff {σ : Type} (maxDepth : Nat) (events : List Event) (s : σ) :
    (∃ d s', (ofEvents { strict := false, maxDepth } ([] : List (Observer σ)) events).run s =
        (.ok d, s')) ↔
      ∃ before start content stop after,
        events = eventsOf (before ++ .element start content stop :: after) ∧
        (∀ n ∈ before ++ after, n.IsBlank) ∧
        (Node.element start content stop).Matched {} ∧
        ((Setting.opened {} start).kind ≠ .unknown ∧
          (Setting.opened {} start).kind.isSimple = false) ∧
        (Node.element start content stop).depth {} ≤ maxDepth ∧
        (Node.element start content stop).Fresh {} [] := by
  constructor
  · rintro ⟨d, s', hrun⟩
    rw [ofEvents_unobserved] at hrun
    have hok := congrArg Prod.fst hrun
    obtain ⟨b', hevents, hfinish⟩ := Builder.foldlM_finish_ok hok
    obtain ⟨ns, rfl⟩ := Builder.exists_nodes_of_ok ⟨rfl, by simp [Builder.new]⟩ rfl hevents
      (Builder.finish_eq_ok_iff.1 hfinish).1
    obtain ⟨before, rest, rfl, hbefore, rfl | ⟨start, content, stop, others, rfl⟩⟩ :=
      exists_texts ns
    · rw [List.append_nil] at hok
      exact absurd hok (Builder.texts_error hbefore)
    obtain ⟨after, rest, rfl, hafter, rfl | ⟨start', content', stop', others, rfl⟩⟩ :=
      exists_texts others
    · rw [List.append_nil] at hok ⊢
      obtain ⟨hblank, ⟨hkind, haccepted⟩, hblank'⟩ :=
        (Builder.yields_document _ rfl hbefore hafter start content stop).isOk_iff.1 ⟨d, hok⟩
      have hdepth := haccepted.depth_le
      rw [Nat.zero_add] at hdepth
      exact ⟨before, start, content, stop, after, rfl,
        List.forall_mem_append.2 ⟨hblank, hblank'⟩, haccepted.matched, hkind, hdepth,
        haccepted.fresh⟩
    · exact absurd hevents (Builder.secondRoot_error rfl hbefore hafter)
  · rintro ⟨before, start, content, stop, after, rfl, hblank, hmatched, hkind, hdepth, hfresh⟩
    obtain ⟨hbefore, hafter⟩ := List.forall_mem_append.1 hblank
    have haccepted : (Node.element start content stop).Accepted {} 0 maxDepth [] :=
      ⟨hmatched, by rwa [Nat.zero_add], hfresh⟩
    have hyields := Builder.yields_document { strict := false, maxDepth } rfl
      (fun n hn => (hbefore n hn).isText) (fun n hn => (hafter n hn).isText) start content stop
    obtain ⟨d, hok⟩ := hyields.isOk_iff.2 ⟨hbefore, ⟨hkind, haccepted⟩, hafter⟩
    exact ⟨d, s, by rw [ofEvents_unobserved, hok]⟩

end Document

end KmlTree
