import KmlTree.Proofs.Reading.FieldMarkup
import KmlTree.Proofs.Reading.Recursive

/-!
# What observers are told

A reading under observers that let everything go on is the reading without them, and tells them of
elements as they are opened and as they are complete. Main statement: what the observers are told
about a node is told by recursion on the node, without stack or builder.
-/
namespace KmlTree

open Markup Text

/-- What observers are told during a reading. -/
inductive Notice
  | started (e : Element)
  /-- An end tag completed an element, which the element around it is about to take in. -/
  | completed (parent child : Element)
  deriving DecidableEq

/-! ## Observers that let everything go on -/

section Told

variable {σ : Type}

def Observer.hear (o : Observer σ) : Notice → StateM σ Flow
  | .started e => o.startElement e
  | .completed parent child => o.endElement parent child

/-- An observer that lets everything go on as usual. -/
def Observer.Consents (o : Observer σ) : Prop :=
  ∀ notice s, ((o.hear notice).run s).1 = .descend

def tell (observers : List (Observer σ)) (notice : Notice) (s : σ) : σ :=
  observers.foldl (fun s o => ((o.hear notice).run s).2) s

/-- What is remembered after some notices, of each of which all observers were told in order. -/
def told (observers : List (Observer σ)) (notices : List Notice) (s : σ) : σ :=
  notices.foldl (fun s notice => tell observers notice s) s

theorem told_append (observers : List (Observer σ)) (first second : List Notice) (s : σ) :
    told observers (first ++ second) s = told observers second (told observers first s) :=
  List.foldl_append

variable {observers : List (Observer σ)}

theorem consult_consenting (h : ∀ o ∈ observers, o.Consents) (notice : Notice) (s : σ) :
    (consult (·.hear notice) observers).run s = (.descend, tell observers notice s) := by
  induction observers generalizing s with
  | nil => rfl
  | cons o rest ih =>
    obtain ⟨ho, hrest⟩ := List.forall_mem_cons.1 h
    have hanswer : (o.hear notice).run s = (.descend, ((o.hear notice).run s).2) :=
      Prod.ext (ho notice s) rfl
    rw [consult, StateT.run_bind, hanswer]
    exact ih hrest _

/-- An observer that writes down what it is told, with a number that tells it from others. -/
def recorder (number : Nat) : Observer (List (Nat × Notice)) where
  startElement e := do
    modify (· ++ [(number, .started e)])
    return .descend
  endElement parent child := do
    modify (· ++ [(number, .completed parent child)])
    return .descend

theorem recorder_consents (number : Nat) : (recorder number).Consents := by
  intro notice s
  cases notice <;> rfl

theorem told_recorder (number : Nat) (notices : List Notice) (s : List (Nat × Notice)) :
    told [recorder number] notices s = s ++ notices.map (number, ·) := by
  induction notices generalizing s with
  | nil => exact (List.append_nil s).symm
  | cons notice rest ih =>
    have htell : tell [recorder number] notice s = s ++ [(number, notice)] := by
      cases notice <;> rfl
    rw [told, List.foldl_cons, htell]
    exact (ih _).trans (by simp)

end Told

namespace Builder

variable {σ : Type} {observers : List (Observer σ)} {b b' : Builder}

/-! ## Events -/

def noticed (b : Builder) : Event → List Notice
  | .startTag name attributes span =>
    match b.startTag name attributes span with
    | .ok (.ask opening) => [.started opening.frame.element]
    | _ => []
  | .text .. => []
  | .endTag name span =>
    match b.endTag name span with
    | .ok (.ask closing) => [.completed closing.parent.element closing.child.element]
    | _ => []

/-- What observers are told at some events, up to the first that cannot be taken. -/
def noticedAll (b : Builder) : List Event → List Notice
  | [] => []
  | event :: rest =>
    b.noticed event ++
      match b.next event with
      | .ok b' => b'.noticedAll rest
      | .error _ => []

theorem take_consenting (h : ∀ o ∈ observers, o.Consents) (event : Event) (s : σ) :
    (b.take observers event).run s = (b.next event, told observers (b.noticed event) s) := by
  cases event with
  | startTag name attributes span =>
    rw [take_startTag, next, noticed]
    rcases b.startTag name attributes span with error | half | opening
    · rfl
    · rfl
    · have hanswer := consult_consenting h (.started opening.frame.element) s
      exact congrArg (fun answer => (settleOpening opening answer.1, answer.2)) hanswer
  | text text offset => rfl
  | endTag name span =>
    rw [take_endTag, next, noticed]
    rcases b.endTag name span with error | half | closing
    · rfl
    · rfl
    · have hanswer := consult_consenting h
        (.completed closing.parent.element closing.child.element) s
      exact congrArg (fun answer => (settleClosing closing answer.1, answer.2)) hanswer

/-- Observers that let everything go on change no outcome. -/
theorem takeAll_consenting (h : ∀ o ∈ observers, o.Consents) (events : List Event) (s : σ) :
    (b.takeAll observers events).run s =
      (events.foldlM next b, told observers (b.noticedAll events) s) := by
  induction events generalizing b s with
  | nil => rfl
  | cons event rest ih =>
    rw [takeAll, Reading.run_bind, take_consenting h, List.foldlM_cons, noticedAll]
    cases b.next event with
    | error error =>
      rw [List.append_nil]
      rfl
    | ok b' => exact (ih _).trans (congrArg _ (told_append ..).symm)

theorem noticedAll_append {first second : List Event} (h : first.foldlM next b = .ok b') :
    b.noticedAll (first ++ second) = b.noticedAll first ++ b'.noticedAll second := by
  induction first generalizing b with
  | nil =>
    cases h
    rfl
  | cons event rest ih =>
    obtain ⟨b₁, hnext, hrest⟩ := foldlM_cons_ok h
    simp only [List.cons_append, noticedAll, hnext, ih hrest, List.append_assoc]

theorem noticedAll_singleton (b : Builder) (event : Event) :
    b.noticedAll [event] = b.noticed event := by
  rw [noticedAll]
  cases b.next event <;> simp [noticedAll]

end Builder

/-! ## Nodes -/

mutual

/-- What observers are told between the start tag and the end tag of a node: that its element is
opened, and all about what is in it, if it is no field. -/
def Markup.Node.notices (around : Setting) : Node → List Notice
  | .text .. => []
  | .element start content _ =>
    let e := around.opened start
    .started e :: if e.kind.isSimple then [] else noticesOf (around.within start) e content

/-- What observers are told while an element takes in nodes. At the end of each, the element holds
what came of the nodes before it. -/
def noticesOf (around : Setting) (parent : Element) : List Node → List Notice
  | [] => []
  | n :: rest =>
    n.notices around ++ (n.read? around).toList.map (.completed parent) ++
      noticesOf around (n.into around parent) rest

end

namespace Builder

open Element

variable {b₀ b b' : Builder} {start start' : StartTag} {x y : Element} {ws ws' : List Warning}

theorem Receptive.noticed_startTag (h : Receptive b) (hnext : b.next start.event = .ok b') :
    b.noticed start.event = [.started (b.setting.opened start)] := by
  have hstart := h.startTag_eq start
  dsimp only at hstart
  rw [StartTag.event, next] at hnext
  rw [StartTag.event, noticed]
  split at hstart
  · rw [hstart] at hnext
    cases hnext
  split at hstart
  · rw [hstart] at hnext
    cases hnext
  split at hstart
  · rw [hstart]
    rfl
  split at hstart
  · rw [hstart] at hnext
    cases hnext
  · rw [hstart]
    rfl

theorem Open.noticed_field (h : Open b₀ start x ws b) (hsimple : x.kind.isSimple = true)
    {content : List Node} (hrun : (eventsOf content).foldlM next b = .ok b') :
    b.noticedAll (eventsOf content) = [] := by
  obtain ⟨ids, hinner⟩ := h.innermost
  have hpaired := (h.field hsimple content).isOk_iff.1 ⟨b', hrun⟩
  -- What is told is what a recorder writes down, and in a field no observer is asked.
  have hfield : ∀ n ∈ content, TakenAsText [recorder 0] n := fun n _ => takenAsText n
  obtain ⟨offset, htaken⟩ := takenAsText_all hfield hinner hsimple hpaired []
  have hconsents : ∀ o ∈ [recorder 0], o.Consents := by simp [recorder_consents]
  rw [takeAll_consenting hconsents, told_recorder] at htaken
  simpa using congrArg Prod.snd htaken

theorem Open.noticed_endTag (h : Open b₀ start x ws b) (h' : Open b start' y ws' b')
    (hlabel : y.label = (b.setting.opened start').label) {stop : EndTag} {b'' : Builder}
    (hnext : b'.next stop.event = .ok b'') :
    b'.noticed stop.event = [.completed x y.ended] := by
  have hcloses := (h.next_endTag h' hlabel stop).isOk_iff.1 ⟨b'', hnext⟩
  obtain ⟨ids, hs⟩ := h.stack_eq
  obtain ⟨ids', hs'⟩ := h'.stack_eq
  have hends := (ends_iff hlabel ids' stop).2 hcloses
  rw [hs] at hs' hends
  rw [EndTag.event, noticed, endTag_of_ends h'.notDropped hs' hends]
  rfl

def TellsOf (n : Node) : Prop :=
  ∀ (b₀ b b' : Builder) (start : StartTag) (x : Element) (ws : List Warning),
    Open b₀ start x ws b → x.kind.isSimple = false → n.events.foldlM next b = .ok b' →
      b.noticedAll n.events =
        n.notices b.setting ++ (n.read? b.setting).toList.map (.completed x)

theorem tellsOf_all {ns : List Node} (ih : ∀ n ∈ ns, TellsOf n) (h : Open b₀ start x ws b)
    (hsimple : x.kind.isSimple = false) (hrun : (eventsOf ns).foldlM next b = .ok b') :
    b.noticedAll (eventsOf ns) = noticesOf b.setting x ns := by
  induction ns generalizing b x ws with
  | nil => rfl
  | cons n ns ihRest =>
    obtain ⟨b₁, hfirst, hrest⟩ := foldlM_append_ok hrun
    have hlabel : (n.into b.setting x).label = x.label := label_into _ _ _
    have hb₁ := (takesIn n b₀ b start x ws b₀.listed h hsimple fun _ => Iff.rfl).result b₁ hfirst
    have hsetting : b₁.setting = b.setting := by
      rw [hb₁.setting_eq, Setting.inside_of_label _ _ hlabel, h.setting_eq]
    have htold := ihRest (fun m hm => ih m (List.mem_cons_of_mem _ hm)) hb₁
      (by rw [kind_of_label hlabel, hsimple]) hrest
    rw [eventsOf, noticedAll_append hfirst, noticesOf, htold, hsetting,
      ih n List.mem_cons_self b₀ b b₁ start x ws h hsimple hfirst]

/-- Between the tags of an element, what is in it is told of, unless it is a field. By its end tag,
the element is what the recursion says, but for the text at its ends. -/
theorem Open.noticed_content {content : List Node} (ih : ∀ n ∈ content, TellsOf n)
    (h : Open b start (b.setting.opened start) [] b') {b'' : Builder}
    (hrun : (eventsOf content).foldlM next b' = .ok b'') (stop : EndTag) :
    .started (b.setting.opened start) :: b'.noticedAll (eventsOf content) =
        (Node.element start content stop).notices b.setting ∧
      ∃ y ws, Open b start y ws b'' ∧ y.label = (b.setting.opened start).label ∧
        (Node.element start content stop).read? b.setting = some y.ended := by
  cases hsimple : (b.setting.opened start).kind.isSimple with
  | true =>
    refine ⟨?_, _, _, (h.field hsimple content).result b'' hrun, label_takeText _ _,
      read?_field _ hsimple⟩
    rw [h.noticed_field hsimple hrun, Node.notices]
    simp only [hsimple, if_true]
  | false =>
    have hopen := (h.content (fun n _ => takesIn n) hsimple fun _ => Iff.rfl).result b'' hrun
    refine ⟨?_, _, _, hopen, label_foldl_into _ _ _, read?_element _ hsimple⟩
    rw [tellsOf_all ih h hsimple hrun, h.setting_eq, Node.notices]
    simp only [hsimple, Bool.false_eq_true, if_false]
    rfl

/-- What is told about a node that an element takes in is what the recursion on the node says. -/
theorem tellsOf (n : Node) : TellsOf n := by
  induction n using Node.inductionOn with
  | text s offset =>
    intro b₀ b b' start x ws h hsimple hrun
    rw [Node.events, noticedAll_singleton]
    rfl
  | element start' content stop ih =>
    intro b₀ b b' start x ws h hsimple hrun
    obtain ⟨b₁, hstart, hrest⟩ := foldlM_cons_ok hrun
    obtain ⟨b₂, hcontent, hstop⟩ := foldlM_append_ok hrest
    rw [foldlM_next_singleton] at hstop
    have hreceptive := h.receptive hsimple
    have hb₁ := (hreceptive.next_startTag start').result b₁ hstart
    obtain ⟨hinside, y, ws', hb₂, hlabel, hread⟩ := hb₁.noticed_content ih hcontent stop
    rw [Node.events, noticedAll, hstart, hreceptive.noticed_startTag hstart]
    simp only [noticedAll_append hcontent, noticedAll_singleton,
      h.noticed_endTag hb₂ hlabel hstop]
    rw [hread, ← hinside]
    rfl

end Builder

end KmlTree
