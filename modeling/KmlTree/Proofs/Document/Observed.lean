import KmlTree.Proofs.Document.Language
import KmlTree.Proofs.Document.Policies
import KmlTree.Proofs.Reading.Notices

/-!
# Documents under observation

Observers that let everything go on are told of every element of an accepted document, and change
nothing. Main statement: the outcome is that of the reading without observers, and if there is a
document, all observers were told the same, as the recursion over the root says.
-/
namespace KmlTree

open Markup Text

/-! ## One notice for each element -/

def Notice.started? : Notice → Option Element
  | .started e => some e
  | .completed .. => none

def Notice.completed? : Notice → Option Element
  | .started _ => none
  | .completed _ child => some child

mutual

/-- The elements of a node as they are opened, in the order of their start tags. What is in a field
is none. -/
def Markup.Node.openings (around : Setting) : Node → List Element
  | .text .. => []
  | .element start content _ =>
    let e := around.opened start
    e :: if e.kind.isSimple then [] else openingsOf (around.within start) content

def openingsOf (around : Setting) : List Node → List Element
  | [] => []
  | n :: rest => n.openings around ++ openingsOf around rest

end

mutual

/-- The elements in a node as they are when they are complete, in the order of their end tags. What
is in a field is none, nor is the element of the node itself. -/
def Markup.Node.results (around : Setting) : Node → List Element
  | .text .. => []
  | .element start content _ =>
    if (around.opened start).kind.isSimple then [] else resultsOf (around.within start) content

def resultsOf (around : Setting) : List Node → List Element
  | [] => []
  | n :: rest => n.results around ++ (n.read? around).toList ++ resultsOf around rest

end

/-- What is told about a node names each element in it as it is opened, and each but the outermost
as it is when it is complete. -/
def Markup.Node.ToldOnce (n : Node) : Prop :=
  ∀ around, (n.notices around).filterMap Notice.started? = n.openings around ∧
    (n.notices around).filterMap Notice.completed? = n.results around

theorem toldOnce_all {ns : List Node} (ih : ∀ n ∈ ns, n.ToldOnce) (around : Setting)
    (parent : Element) :
    (noticesOf around parent ns).filterMap Notice.started? = openingsOf around ns ∧
      (noticesOf around parent ns).filterMap Notice.completed? = resultsOf around ns := by
  induction ns generalizing parent with
  | nil => exact ⟨rfl, rfl⟩
  | cons n rest ihRest =>
    obtain ⟨hopenings, hresults⟩ := ih n List.mem_cons_self around
    obtain ⟨hopeningsRest, hresultsRest⟩ := ihRest (fun m hm => ih m (List.mem_cons_of_mem _ hm))
      (n.into around parent)
    have hend : ((n.read? around).toList.map (.completed parent)).filterMap Notice.started? = [] ∧
        ((n.read? around).toList.map (.completed parent)).filterMap Notice.completed? =
          (n.read? around).toList := by
      cases n.read? around <;> exact ⟨rfl, rfl⟩
    simp only [noticesOf, openingsOf, resultsOf, List.filterMap_append, hopenings, hresults,
      hopeningsRest, hresultsRest, hend, List.append_nil, and_self]

theorem Markup.Node.toldOnce (n : Node) : n.ToldOnce := by
  induction n using Node.inductionOn with
  | text s offset => exact fun _ => ⟨rfl, rfl⟩
  | element start content stop ih =>
    intro around
    obtain ⟨hopenings, hresults⟩ :=
      toldOnce_all ih (around.within start) (around.opened start)
    rw [Node.notices, Node.openings, Node.results]
    cases (around.opened start).kind.isSimple with
    | true => exact ⟨rfl, rfl⟩
    | false => exact ⟨congrArg (_ :: ·) hopenings, hresults⟩

theorem Markup.Node.forall_openings {P : Element → Prop}
    (h : ∀ (around : Setting) (start : StartTag), P (around.opened start)) (n : Node) :
    ∀ around, ∀ e ∈ n.openings around, P e := by
  induction n using Node.inductionOn with
  | text s offset => simp [Node.openings]
  | element start content stop ih =>
    intro around e he
    have hcontent : ∀ e ∈ openingsOf (around.within start) content, P e := by
      generalize content = ns at ih
      induction ns with
      | nil => simp [openingsOf]
      | cons n rest ihRest =>
        rw [openingsOf, List.forall_mem_append]
        exact ⟨ih n List.mem_cons_self _, ihRest fun m hm => ih m (List.mem_cons_of_mem _ hm)⟩
    rcases List.mem_cons.1 he with rfl | he
    · exact h around start
    · split at he
      · cases he
      · exact hcontent e he

namespace Builder

open Element

variable {b b' : Builder} {options : ReadOptions}

/-! ## The root and what is around it -/

theorem noticedAll_texts (b : Builder) {ns : List Node} (h : ∀ n ∈ ns, n.isText = true) :
    b.noticedAll (eventsOf ns) = [] := by
  induction ns generalizing b with
  | nil => rfl
  | cons n rest ih =>
    obtain ⟨hn, hrest⟩ := List.forall_mem_cons.1 h
    cases n with
    | element start content stop => cases hn
    | text s offset =>
      rw [eventsOf, Node.events, List.singleton_append, noticedAll]
      cases b.next (.text s offset) with
      | error error => rfl
      | ok b' => exact ih b' hrest

theorem Between.noticed_root (h : Between options none [] b) (hlenient : options.strict = false)
    {start : StartTag} {content : List Node} {stop : EndTag}
    (hrun : (Node.element start content stop).events.foldlM next b = .ok b') :
    b.noticedAll (Node.element start content stop).events =
      (Node.element start content stop).notices {} := by
  obtain ⟨b₁, hstart, hrest⟩ := foldlM_cons_ok hrun
  obtain ⟨b₂, hcontent, hstop⟩ := foldlM_append_ok hrest
  rw [foldlM_next_singleton] at hstop
  have hreceptive := h.receptive hlenient
  have hb₁ := (hreceptive.next_startTag start).result b₁ hstart
  obtain ⟨hinside, y, ws, hb₂, hlabel, -⟩ :=
    hb₁.noticed_content (fun n _ => tellsOf n) hcontent stop
  have hend : b₂.noticed stop.event = [] := by
    have hcloses := (hb₂.next_endTag_root h.stack_eq hlabel stop).isOk_iff.1 ⟨b', hstop⟩
    obtain ⟨ids, hs⟩ := hb₂.stack_eq
    have hends := (ends_iff hlabel ids stop).2 hcloses
    rw [h.stack_eq] at hs hends
    rw [EndTag.event, noticed, endTag_of_ends_root hb₂.notDropped hs hends]
  rw [← h.setting_eq, ← hinside, Node.events, noticedAll, hstart,
    hreceptive.noticed_startTag hstart]
  simp only [noticedAll_append hcontent, noticedAll_singleton, hend, List.append_nil]
  rfl

/-- A document is that of a root with blank texts around it, and only about the root is told. -/
theorem noticedAll_document (hlenient : options.strict = false) {events : List Event}
    {d : Document} (h : events.foldlM next (new options) >>= Builder.finish = .ok d) :
    ∃ before root after, events = eventsOf (before ++ root :: after) ∧
      (∀ n ∈ before ++ after, n.IsBlank) ∧ (∃ e, root.read? {} = some e ∧ d.root? = some e) ∧
        (new options).noticedAll events = root.notices {} := by
  obtain ⟨b', hevents, hfinish⟩ := foldlM_finish_ok h
  obtain ⟨ns, rfl⟩ := exists_nodes_of_ok ⟨rfl, by simp [new]⟩ rfl hevents
    (finish_eq_ok_iff.1 hfinish).1
  obtain ⟨before, rest, rfl, hbefore, rfl | ⟨start, content, stop, others, rfl⟩⟩ := exists_texts ns
  · rw [List.append_nil] at h
    exact absurd h (texts_error hbefore)
  obtain ⟨after, rest, rfl, hafter, rfl | ⟨start', content', stop', others, rfl⟩⟩ :=
    exists_texts others
  · rw [List.append_nil] at h hevents ⊢
    have hyields := yields_document options hlenient hbefore hafter start content stop
    obtain ⟨hblank, -, hblank'⟩ := hyields.isOk_iff.1 ⟨d, h⟩
    obtain ⟨e, he, rfl⟩ := hyields.result d h
    refine ⟨before, _, after, rfl, List.forall_mem_append.2 ⟨hblank, hblank'⟩, ⟨e, he, rfl⟩, ?_⟩
    rw [eventsOf_append, eventsOf] at hevents ⊢
    obtain ⟨b₁, hok₁, hok⟩ := foldlM_append_ok hevents
    obtain ⟨b₂, hok₂, hok₃⟩ := foldlM_append_ok hok
    have hb₁ := ((between_new options).texts hbefore).result b₁ hok₁
    rw [noticedAll_append hok₁, noticedAll_append hok₂, noticedAll_texts _ hbefore,
      noticedAll_texts _ hafter, hb₁.noticed_root hlenient hok₂, List.nil_append, List.append_nil]
  · exact absurd hevents (secondRoot_error hlenient hbefore hafter)

end Builder

namespace Document

variable {σ : Type}

theorem ofEvents_lenient {options : ReadOptions} {observers : List (Observer σ)}
    {events : List Event} {s s' : σ} {d : Document}
    (h : (ofEvents options observers events).run s = (.ok d, s')) :
    (ofEvents { options with strict := false } observers events).run s = (.ok d, s') := by
  obtain ⟨strict, maxDepth⟩ := options
  cases strict with
  | false => exact h
  | true =>
    have hagree := ofEvents_agree maxDepth observers events s
    rcases hlenient : (ofEvents { strict := false, maxDepth } observers events).run s with
      ⟨error | a, s₁⟩
    · obtain ⟨error', s₂, hstrict⟩ := hagree.failed error s₁ hlenient
      rw [h] at hstrict
      cases hstrict
    · cases hfirst : firstViolation? a.warnings with
      | none =>
        have hstrict := hagree.kept a s₁ hlenient hfirst
        rw [h] at hstrict
        exact hstrict.symm
      | some error =>
        obtain ⟨s₂, hstrict⟩ := hagree.refused a s₁ error hlenient hfirst
        rw [h] at hstrict
        cases hstrict

theorem ofEvents_consenting (options : ReadOptions) {observers : List (Observer σ)}
    (h : ∀ o ∈ observers, o.Consents) (events : List Event) (s : σ) :
    (ofEvents options observers events).run s =
      (events.foldlM Builder.next (.new options) >>= Builder.finish,
        told observers ((Builder.new options).noticedAll events) s) := by
  rw [ofEvents, Reading.run_bind, Builder.takeAll_consenting h]
  cases events.foldlM Builder.next (.new options) <;> rfl

/-- Observers that let everything go on leave the outcome as it is without them. If there is a
document, it is that of a root with blank texts around it, and each of the observers was told the
same in the same order: of the root and of what is in it, but not of tags in fields, as the
recursion over the root says. Each element is told of once when it is opened, with nothing but its
attributes, and each but the root once when it is complete, in the order of the tags. -/
theorem observers_told (options : ReadOptions) {observers : List (Observer σ)}
    (h : ∀ o ∈ observers, o.Consents) (events : List Event) (s : σ) :
    ((ofEvents options observers events).run s).1 =
        ((ofEvents options ([] : List (Observer σ)) events).run s).1 ∧
      ∀ d s', (ofEvents options observers events).run s = (.ok d, s') →
        ∃ before root after, events = eventsOf (before ++ root :: after) ∧
          (∀ n ∈ before ++ after, n.IsBlank) ∧
          (∃ e, root.read? {} = some e ∧ d.root? = some e) ∧
          s' = told observers (root.notices {}) s ∧
          (root.notices {}).filterMap Notice.started? = root.openings {} ∧
          (∀ e ∈ root.openings {}, e.text = "" ∧ e.children = [] ∧ e.unknown = []) ∧
          (root.notices {}).filterMap Notice.completed? = root.results {} := by
  refine ⟨?_, fun d s' hrun => ?_⟩
  · rw [ofEvents_consenting options h, ofEvents_unobserved]
  · -- The recursion over nodes is that of a lenient reading, which tells what a strict one tells.
    have hlenient := ofEvents_lenient hrun
    rw [ofEvents_consenting _ h] at hlenient
    obtain ⟨before, root, after, hevents, hblank, hroot, htold⟩ :=
      Builder.noticedAll_document rfl (congrArg Prod.fst hlenient)
    have hs' := congrArg Prod.snd hlenient
    rw [htold] at hs'
    obtain ⟨hstarted, hcompleted⟩ := root.toldOnce {}
    exact ⟨before, root, after, hevents, hblank, hroot, hs'.symm, hstarted,
      root.forall_openings Setting.opened_empty {}, hcompleted⟩

/-- Two observers of the crowded placemark both write down that six elements are opened and that
five of them are complete. -/
theorem observers_told_crowdedPlacemark : (∀ o ∈ [recorder 0, recorder 1], o.Consents) ∧
    ∃ (d : Document) (s' : List (Nat × Notice)) (root : Node),
      (ofEvents { strict := false, maxDepth := 3 } [recorder 0, recorder 1]
        crowdedPlacemark.events).run [] = (.ok d, s') ∧
      (∃ e, root.read? {} = some e ∧ d.root? = some e) ∧
      s' = told [recorder 0, recorder 1] (root.notices {}) [] ∧
      s'.map Prod.fst = [0, 1, 0, 1, 0, 1, 0, 1, 0, 1, 0, 1, 0, 1, 0, 1, 0, 1, 0, 1, 0, 1] ∧
      (s'.filterMap fun entry => entry.2.completed?.map Element.name) =
        ["Point", "Point", "Folder", "Folder", "Point", "Point", "name", "name", "Placemark",
          "Placemark"] := by
  have hconsents : ∀ o ∈ [recorder 0, recorder 1], o.Consents := by simp [recorder_consents]
  obtain ⟨hsame, htold⟩ := observers_told { strict := false, maxDepth := 3 } hconsents
    crowdedPlacemark.events []
  obtain ⟨d, hunobserved⟩ : ∃ d, ((ofEvents { strict := false, maxDepth := 3 }
      ([] : List (Observer (List (Nat × Notice)))) crowdedPlacemark.events).run []).1 = .ok d :=
    ⟨_, rfl⟩
  rcases hrun : (ofEvents { strict := false, maxDepth := 3 } [recorder 0, recorder 1]
    crowdedPlacemark.events).run [] with ⟨outcome, s'⟩
  obtain rfl : outcome = .ok d := by rw [← hunobserved, ← hsame, hrun]
  obtain ⟨before, root, after, -, -, hroot, hs', -⟩ := htold d s' hrun
  have hstate := (congrArg Prod.snd hrun).symm
  refine ⟨hconsents, d, s', root, rfl, hroot, hs', ?_, ?_⟩
  · exact (congrArg (List.map Prod.fst) hstate).trans (by decide +kernel)
  · exact (congrArg (List.filterMap _) hstate).trans (by decide +kernel)

end Document

end KmlTree
