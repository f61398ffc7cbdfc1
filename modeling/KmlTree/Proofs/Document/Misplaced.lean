import KmlTree.Proofs.Document.Language
import Mathlib.Data.List.Forall2

/-!
# Elements that are out of place

A lenient reading warns about each element that its parent has no place for, and keeps the element
as unknown content of the parent. The parent may be displaced later by another element in its place,
and then the element goes with it, but the warning stays. Main statement: the warnings are those
about the elements that are out of place in the tree that is read, and in what was displaced.
-/
namespace KmlTree

open Markup Text

/-! ## Elements out of place -/

namespace Element

def aside (e : Element) : List Element := e.unknown.filter fun u => u.kind ≠ .unknown

end Element

mutual

/-- The elements in a tree that the schema knows and that are kept as unknown content, each with the
element that keeps it. -/
def Element.strays : Element → List (Element × Element)
  | ⟨head, children, unknown⟩ =>
    let e : Element := ⟨head, children, unknown⟩
    e.aside.map (e, ·) ++ (straysOfChildren children ++ straysOfUnknown unknown)

def straysOfChildren : List Child → List (Element × Element)
  | [] => []
  | .field .. :: rest => straysOfChildren rest
  | .element _ e :: rest => e.strays ++ straysOfChildren rest

def straysOfUnknown : List Element → List (Element × Element)
  | [] => []
  | e :: rest => e.strays ++ straysOfUnknown rest

end

def Child.strays (c : Child) : List (Element × Element) := c.element?.toList.flatMap Element.strays

theorem straysOfChildren_eq (children : List Child) :
    straysOfChildren children = children.flatMap Child.strays := by
  induction children with
  | nil => rfl
  | cons c rest ih => cases c <;> simp [straysOfChildren, ih, Child.strays, Child.element?]

theorem straysOfUnknown_eq (unknown : List Element) :
    straysOfUnknown unknown = unknown.flatMap Element.strays := by
  induction unknown with
  | nil => rfl
  | cons u rest ih => rw [straysOfUnknown, ih, List.flatMap_cons]

namespace Element

variable {e child parent : Element}

/-- The elements out of place in what an element holds. For its own, the element is taken as given,
as it will be when it has ended. -/
def straysAs (parent e : Element) : List (Element × Element) :=
  e.aside.map (parent, ·) ++ (e.children.flatMap Child.strays ++ e.unknown.flatMap strays)

theorem strays_eq (e : Element) : e.strays = e.straysAs e := by
  obtain ⟨head, children, unknown⟩ := e
  rw [strays, straysOfChildren_eq, straysOfUnknown_eq]
  rfl

theorem straysAs_congr {e' : Element} (hchildren : e'.children = e.children)
    (hunknown : e'.unknown = e.unknown) (parent : Element) :
    straysAs parent e' = straysAs parent e := by
  rw [straysAs, straysAs, aside, aside, hchildren, hunknown]

theorem straysAs_takeText (parent e : Element) (text : String) :
    straysAs parent (e.takeText text) = straysAs parent e := by
  refine straysAs_congr ?_ ?_ parent <;> unfold takeText <;> split <;> rfl

theorem straysAs_ended (parent e : Element) : straysAs parent e.ended = straysAs parent e :=
  straysAs_congr rfl rfl parent

theorem straysAs_of_empty (hchildren : e.children = []) (hunknown : e.unknown = []) :
    straysAs parent e = [] := by
  rw [straysAs, aside, hchildren, hunknown]
  rfl

/-- The element that gives way when another one takes its place. -/
def displacedBy (e child : Element) : List Element :=
  match e.attach child with
  | .ok a => (a.replaced?.bind Child.element?).toList
  | .error _ => []

theorem flatMap_set_perm {α β : Type} (f : α → List β) {as : List α} {i : Nat} {a : α}
    (hi : as[i]? = some a) (b : α) :
    ((as.set i b).flatMap f ++ f a).Perm (as.flatMap f ++ f b) := by
  induction as generalizing i with
  | nil => cases hi
  | cons first rest ih =>
    cases i with
    | zero =>
      cases hi
      rw [List.set_cons_zero, List.flatMap_cons, List.flatMap_cons, List.append_assoc]
      exact List.perm_append_comm.trans (List.perm_append_comm.append_right (f b))
    | succ i =>
      simp only [List.set_cons_succ, List.flatMap_cons, List.append_assoc]
      exact (ih hi).append_left (f first)

theorem strays_toChild (hfield : child.kind.isSimple = true → child.strays = []) (slot : Nat) :
    (child.toChild slot).strays = child.strays := by
  unfold toChild
  split
  · next hsimple =>
    rw [hfield hsimple]
    rfl
  · exact List.append_nil _

theorem straysAs_attaches {element : Element} {i : Nat} {replaced? : Option Child}
    (h : e.Attaches child ⟨element, some i, replaced?⟩)
    (hfield : child.kind.isSimple = true → child.strays = []) (parent : Element) :
    (straysAs parent element ++ (replaced?.bind Child.element?).toList.flatMap strays).Perm
      (straysAs parent e ++ child.strays) := by
  rw [List.perm_iff_count]
  intro pair
  cases h with
  | @placed position slot _ c _ _ _ _ hi _ _ =>
    have hset := (flatMap_set_perm Child.strays hi (child.toChild position)).count_eq pair
    rw [strays_toChild hfield] at hset
    simp only [straysAs, aside, List.count_append, Option.bind_some] at hset ⊢
    rw [Child.strays] at hset
    omega
  | @appended position _ _ _ _ _ =>
    have hchild := strays_toChild hfield position
    simp only [straysAs, aside, List.flatMap_append, List.flatMap_cons, List.flatMap_nil, hchild,
      List.count_append, Option.bind_none, Option.toList_none, List.count_nil]
    omega

theorem straysAs_addUnknown (parent e child : Element) :
    (straysAs parent (e.addUnknown child)).Perm (straysAs parent e ++ (child.strays ++
      if child.kind = .unknown then [] else [(parent, child)])) := by
  rw [List.perm_iff_count]
  intro pair
  simp only [straysAs, aside, addUnknown, List.filter_append, List.map_append, List.flatMap_append,
    List.flatMap_cons, List.flatMap_nil, List.append_nil, List.count_append]
  by_cases hkind : child.kind = .unknown
  · simp only [hkind, List.filter_cons, List.filter_nil, ne_eq, not_true_eq_false, decide_false,
      Bool.false_eq_true, if_false, if_true, List.map_nil, List.count_nil]
    omega
  · simp only [hkind, List.filter_cons, List.filter_nil, ne_eq, not_false_eq_true, decide_true,
      if_false, if_true, List.map_cons, List.map_nil]
    omega

end Element

/-! ## Warnings -/

def Warning.isMisplaced : Warning → Bool
  | .misplaced .. => true
  | .discardedAttributes .. => false

/-- A warning is about an element that is out of place in another one. It has the name in the end
tag of the element. -/
def Told (w : Warning) (stray : Element × Element) : Prop :=
  ∃ name place, w = .misplaced stray.1.name name place ∧ Names name stray.2.name

/-- The warnings about elements out of place are about the given ones, and each has one warning. -/
def Tells (ws : List Warning) (strays : List (Element × Element)) : Prop :=
  ∃ told, List.Forall₂ Told (ws.filter Warning.isMisplaced) told ∧ told.Perm strays

section Tells

variable {ws ws' : List Warning} {strays strays' : List (Element × Element)}

theorem tells_nil (h : ws.filter Warning.isMisplaced = []) : Tells ws [] :=
  ⟨[], h ▸ .nil, .nil⟩

theorem Tells.append (h : Tells ws strays) (h' : Tells ws' strays') :
    Tells (ws ++ ws') (strays ++ strays') := by
  obtain ⟨told, htold, hperm⟩ := h
  obtain ⟨told', htold', hperm'⟩ := h'
  refine ⟨told ++ told', ?_, hperm.append hperm'⟩
  rw [List.filter_append]
  exact List.rel_append htold htold'

theorem Tells.perm (h : Tells ws strays) (hperm : strays.Perm strays') : Tells ws strays' := by
  obtain ⟨told, htold, hperm'⟩ := h
  exact ⟨told, htold, hperm'.trans hperm⟩

theorem Tells.length_eq (h : Tells ws strays) :
    (ws.filter Warning.isMisplaced).length = strays.length := by
  obtain ⟨told, htold, hperm⟩ := h
  exact htold.length_eq.trans hperm.length_eq

theorem Tells.located (h : Tells ws strays) (source : String) :
    Tells (ws.map (Warning.located source)) strays := by
  obtain ⟨told, htold, hperm⟩ := h
  refine ⟨told, ?_, hperm⟩
  have hsame : Warning.isMisplaced ∘ Warning.located source = Warning.isMisplaced := by
    funext w
    cases w <;> rfl
  rw [List.filter_map, hsame, List.forall₂_map_left_iff]
  refine htold.imp ?_
  rintro _ stray ⟨name, place, rfl, hnamed⟩
  exact ⟨name, place.located source, rfl, hnamed⟩

end Tells

/-- It is warned that an element is out of place just where its parent refuses it. -/
theorem filter_placingWarnings (parent child : Element) (name : String) (span : Span) :
    (placingWarnings parent child name span).filter Warning.isMisplaced =
      match parent.attach child with
      | .ok _ => []
      | .error _ => [.misplaced parent.name name (.ofSpan span)] := by
  unfold placingWarnings Element.attach
  split
  · rfl
  · cases parent.kind.slotFor? child.kind with
    | none => rfl
    | some slot =>
      rw [if_neg (by simp)]
      split <;> rfl

/-! ## Nodes one by one -/

namespace Element

/-- A child that is taken in is warned about if it is out of place. Whatever was out of place before
is so still, in the element or in what gave way. -/
theorem tells_takeIn {e child parent : Element} {name : String}
    (hparent : parent.name = e.name) (hbelow : e.kind = .unknown → child.kind = .unknown)
    (hfield : child.kind.isSimple = true → child.strays = []) (hnamed : Names name child.name)
    (span : Span) : ∃ gained, Tells (placingWarnings e child name span) gained ∧
      (straysAs parent (e.takeIn child) ++ (e.displacedBy child).flatMap strays).Perm
        (straysAs parent e ++ (child.strays ++ gained)) := by
  have htold := filter_placingWarnings e child name span
  cases ha : e.attach child with
  | error rejected =>
    obtain ⟨-, hchild, -, rfl⟩ := attach_eq_error_iff.1 ha
    have hadd := straysAs_addUnknown parent e child
    rw [if_neg hchild, ← takeIn_of_rejected ha] at hadd
    rw [ha] at htold
    refine ⟨[(parent, child)], ⟨[(parent, child)], ?_, .refl _⟩, ?_⟩
    · rw [htold]
      exact .cons ⟨name, _, by rw [hparent], hnamed⟩ .nil
    · rw [displacedBy, ha]
      simpa using hadd
  | ok a =>
    rw [ha] at htold
    refine ⟨[], tells_nil htold, ?_⟩
    rw [displacedBy, ha, ← takeIn_of_attach ha, List.append_nil]
    have hattaches := attach_cases ha
    obtain ⟨element, index?, replaced?⟩ := a
    cases index? with
    | some i => exact straysAs_attaches hattaches hfield parent
    | none =>
      cases hattaches with
      | unknown hunknown =>
        have hadd := straysAs_addUnknown parent e child
        rw [if_pos (hunknown.elim hbelow id)] at hadd
        simpa using hadd

end Element

mutual

/-- The elements that gave way while a node was read. -/
def Markup.Node.displaced (around : Setting) : Node → List Element
  | .text .. => []
  | .element start content _ =>
    let e := around.opened start
    if e.kind.isSimple then [] else displacedAll (around.within start) e content

def displacedAll (around : Setting) (parent : Element) : List Node → List Element
  | [] => []
  | n :: rest =>
    n.displaced around ++ ((n.read? around).toList.flatMap parent.displacedBy ++
      displacedAll around (n.into around parent) rest)

end

section Opened

variable {around : Setting} {start : StartTag} {content : List Node} {stop : EndTag} {e : Element}

theorem kind_opened_below (h : around.belowUnknown = true) :
    (around.opened start).kind = .unknown := by
  obtain ⟨known, others, heq⟩ := Element.foldl_setAttribute_eq start.attributes
    (Element.unnamed start.name)
  rw [Setting.opened, if_pos h, heq]
  rfl

theorem Setting.Closes.names (h : around.Closes start stop) :
    Names stop.name (around.opened start).name := by
  rcases h with h | h
  · exact .inl h.symm
  · rw [← h]
    unfold Setting.localName
    split
    · exact .inl rfl
    · next p rest hsplit =>
      split
      · exact .inr ⟨p, hsplit⟩
      · exact .inl rfl

theorem label_read? (h : (Node.element start content stop).read? around = some e) :
    e.label = (around.opened start).label := by
  cases hsimple : (around.opened start).kind.isSimple with
  | true =>
    rw [read?_field around hsimple] at h
    cases h
    exact Element.label_takeText _ _
  | false =>
    rw [read?_element around hsimple] at h
    cases h
    exact label_foldl_into _ _ _

end Opened

/-- What is out of place in a node once it is read, or gave way before, is told by its warnings. -/
def Reports (n : Node) : Prop :=
  ∀ {around : Setting} {e : Element}, n.Matched around → n.read? around = some e →
    Tells (n.warnings around) (e.strays ++ (n.displaced around).flatMap Element.strays) ∧
      (e.kind.isSimple = true → e.strays = [])

theorem tells_content {content : List Node} (ih : ∀ n ∈ content, Reports n) {around : Setting}
    {e parent : Element} (hparent : parent.name = e.name)
    (hbelow : e.kind = .unknown → around.belowUnknown = true)
    (hmatched : MatchedAll around content) :
    ∃ gained, Tells (warningsOf around e content) gained ∧
      (Element.straysAs parent (content.foldl (fun e n => n.into around e) e) ++
        (displacedAll around e content).flatMap Element.strays).Perm
          (Element.straysAs parent e ++ gained) := by
  induction content generalizing e with
  | nil => exact ⟨[], tells_nil rfl, .refl _⟩
  | cons n rest ihRest =>
    obtain ⟨hfirst, hothers⟩ := List.forall_mem_cons.1 ih
    obtain ⟨hn, hrest⟩ := hmatched
    have hlabel := label_into around e n
    obtain ⟨gained, htells, hperm⟩ := @ihRest hothers (n.into around e)
      (hparent.trans (Element.name_of_label hlabel).symm)
      (fun hkind => hbelow ((Element.kind_of_label hlabel).symm.trans hkind)) hrest
    rw [warningsOf_of_label around hlabel] at htells
    cases n with
    | text text offset =>
      refine ⟨gained, htells, ?_⟩
      rw [← Element.straysAs_takeText parent e text]
      exact hperm
    | element start content stop =>
      obtain ⟨c, hread⟩ : ∃ c, (Node.element start content stop).read? around = some c := ⟨_, rfl⟩
      have hchild := label_read? hread
      obtain ⟨htold, hfield⟩ := hfirst hn hread
      have hnamed := hn.1.names
      rw [← Element.name_of_label hchild] at hnamed
      obtain ⟨gained', htells', hperm'⟩ := Element.tells_takeIn hparent
        (fun hkind => (Element.kind_of_label hchild).trans (kind_opened_below (hbelow hkind)))
        hfield hnamed start.span
      rw [placingWarnings_of_label rfl hchild] at htells'
      refine ⟨_, (htold.append htells').append htells, ?_⟩
      have hinto : (Node.element start content stop).into around e = e.takeIn c := by
        rw [Markup.Node.into, hread]
      rw [hinto] at hperm
      rw [displacedAll, hread, hinto, List.foldl_cons, hinto, List.perm_iff_count]
      intro pair
      have hcount := hperm.count_eq pair
      have hcount' := hperm'.count_eq pair
      simp only [List.flatMap_append, Option.toList_some, List.flatMap_cons, List.flatMap_nil,
        List.append_nil, List.count_append] at hcount hcount' ⊢
      omega

theorem reports (n : Node) : Reports n := by
  induction n using Node.inductionOn with
  | text text offset =>
    intro around e _ hread
    cases hread
  | element start content stop ih =>
    intro around e hmatched hread
    obtain ⟨-, hmatched⟩ := hmatched
    obtain ⟨-, hchildren, hunknown⟩ := around.opened_empty start
    have hlabel := label_read? hread
    cases hsimple : (around.opened start).kind.isSimple with
    | true =>
      have hnone : e.strays = [] := by
        rw [read?_field around hsimple, Option.some_inj] at hread
        rw [Element.strays_eq, ← hread, Element.straysAs_ended, Element.straysAs_takeText]
        exact Element.straysAs_of_empty hchildren hunknown
      refine ⟨?_, fun _ => hnone⟩
      rw [hnone, Markup.Node.warnings, Markup.Node.displaced]
      simp only [hsimple, if_true]
      exact tells_nil rfl
    | false =>
      refine ⟨?_, fun hfield => ?_⟩
      · rw [hsimple] at hmatched
        obtain ⟨gained, htells, hperm⟩ := tells_content ih (Element.name_of_label hlabel)
          (fun hkind => decide_eq_true hkind) hmatched
        rw [read?_element around hsimple, Option.some_inj] at hread
        rw [Markup.Node.warnings, Markup.Node.displaced]
        simp only [hsimple, Bool.false_eq_true, if_false]
        refine htells.perm ?_
        rw [Element.straysAs_of_empty hchildren hunknown, List.nil_append] at hperm
        refine hperm.symm.trans ?_
        rw [Element.strays_eq e, ← Element.straysAs_ended, hread]
      · rw [Element.kind_of_label hlabel, hsimple] at hfield
        cases hfield

/-! ## Documents -/

namespace Builder

/-- What is accepted to its end is a root with texts around it. -/
theorem exists_root_of_ok {options : ReadOptions} (hlenient : options.strict = false)
    {events : List Event} {d : Document}
    (hok : events.foldlM next (new options) >>= Builder.finish = .ok d) :
    ∃ before start content stop after,
      events = eventsOf (before ++ .element start content stop :: after) ∧
        (∀ n ∈ before, n.isText = true) ∧ ∀ n ∈ after, n.isText = true := by
  obtain ⟨b', hevents, hfinish⟩ := foldlM_finish_ok hok
  obtain ⟨ns, rfl⟩ := exists_nodes_of_ok ⟨rfl, by simp [new]⟩ rfl hevents
    (finish_eq_ok_iff.1 hfinish).1
  obtain ⟨before, rest, rfl, hbefore, rfl | ⟨start, content, stop, others, rfl⟩⟩ :=
    exists_texts ns
  · rw [List.append_nil] at hok
    exact absurd hok (texts_error hbefore)
  obtain ⟨after, rest, rfl, hafter, rfl | ⟨start', content', stop', others, rfl⟩⟩ :=
    exists_texts others
  · rw [List.append_nil]
    exact ⟨before, start, content, stop, after, rfl, hbefore, hafter⟩
  · exact absurd hevents (secondRoot_error hlenient hbefore hafter)

end Builder

namespace Document

open Builder

/-- The warnings of a lenient reading about elements out of place are those about the ones that are
so in the root, and in the elements that gave way while it was read. They are those of the root just
where nothing was out of place in an element that gave way. -/
theorem misplaced_told {source : String} {maxDepth : Nat} {d : Document}
    (h : parse source { strict := false, maxDepth } = .ok d) :
    ∃ root n before after, d.root? = some root ∧ n.read? {} = some root ∧
      events source = { list := eventsOf (before ++ n :: after) } ∧
      (∀ n ∈ before ++ after, n.isText = true) ∧
      Tells d.warnings (root.strays ++ (n.displaced {}).flatMap Element.strays) ∧
      (Tells d.warnings root.strays ↔ ∀ e ∈ n.displaced {}, e.strays = []) := by
  obtain ⟨events, d', hevents, hok, rfl⟩ := exists_events_of_parse h
  obtain ⟨before, start, content, stop, after, rfl, hbefore, hafter⟩ := exists_root_of_ok rfl hok
  have hyields := yields_document { strict := false, maxDepth } rfl hbefore hafter start content
    stop
  obtain ⟨-, ⟨-, haccepted⟩, -⟩ := hyields.isOk_iff.1 ⟨d', hok⟩
  obtain ⟨root, hread, rfl⟩ := hyields.result d' hok
  have htells := (reports _ haccepted.matched hread).1.located source
  refine ⟨root, _, before, after, rfl, hread, hevents, List.forall_mem_append.2 ⟨hbefore, hafter⟩,
    htells, fun hroot => ?_, fun hnone => ?_⟩
  · have hlength := htells.length_eq.symm.trans hroot.length_eq
    rw [List.length_append, Nat.add_eq_left, List.length_eq_zero_iff,
      List.flatMap_eq_nil_iff] at hlength
    exact hlength
  · rwa [List.flatMap_eq_nil_iff.2 hnone, List.append_nil] at htells

/-- A placemark with two points, where there is room for one, and a folder in the first one. -/
def twoPoints : String := "<kml><Placemark><Point><Folder/></Point><Point/></Placemark></kml>"

def secondPoint : Element :=
  ⟨{ kind := .kml }, [.element 1 ⟨{ kind := .placemark },
    [.element 13 ⟨{ kind := .point }, [], []⟩], []⟩], []⟩

theorem events_twoPoints : events twoPoints = { list :=
    [.startTag "kml" [] ⟨0, 5⟩, .startTag "Placemark" [] ⟨5, 16⟩, .startTag "Point" [] ⟨16, 23⟩,
      .startTag "Folder" [] ⟨23, 32⟩, .endTag "Folder" ⟨23, 32⟩, .endTag "Point" ⟨32, 40⟩,
      .startTag "Point" [] ⟨40, 48⟩, .endTag "Point" ⟨40, 48⟩, .endTag "Placemark" ⟨48, 60⟩,
      .endTag "kml" ⟨60, 66⟩] } := by
  have hchars : twoPoints = String.ofList
      ('<' :: ("kml".toList ++ '>' :: '<' :: ("Placemark".toList ++ '>' ::
        '<' :: ("Point".toList ++ '>' :: '<' :: ("Folder".toList ++ '/' :: '>' ::
          '<' :: '/' :: ("Point".toList ++ '>' :: '<' :: ("Point".toList ++ '/' :: '>' ::
            '<' :: '/' :: ("Placemark".toList ++ '>' ::
              '<' :: '/' :: ("kml".toList ++ ['>']))))))))) := by
    decide
  have hkml : IsTagName "kml" := by decide
  have hplacemark : IsTagName "Placemark" := by decide
  have hpoint : IsTagName "Point" := by decide
  have hfolder : IsTagName "Folder" := by decide
  rw [hchars, events_ofList_angle, eventsFrom_startTag hkml, eventsFrom_startTag hplacemark,
    eventsFrom_startTag hpoint, eventsFrom_emptyTag hfolder, eventsFrom_endTag hpoint,
    eventsFrom_emptyTag hpoint, eventsFrom_endTag hplacemark, eventsFrom_endTag hkml,
    eventsFrom_end [] _ (by simp) rfl]
  rfl

theorem parse_twoPoints : ∃ d, parse twoPoints {} = .ok d ∧ d.root? = some secondPoint ∧
    d.warnings = [.misplaced "Point" "Folder" ((Place.ofSpan ⟨23, 32⟩).located twoPoints)] := by
  rw [parse_eq events_twoPoints]
  exact ⟨_, rfl, rfl, rfl⟩

/-- The folder went with the first point, and is told by the warning that stays. -/
theorem misplaced_told_twoPoints : ∃ (d : Document) (n : Node), parse twoPoints {} = .ok d ∧
    d.root? = some secondPoint ∧ n.read? {} = some secondPoint ∧
      Tells d.warnings (secondPoint.strays ++ (n.displaced {}).flatMap Element.strays) := by
  obtain ⟨d, hparse, hroot, -⟩ := parse_twoPoints
  obtain ⟨root, n, -, -, hroot', hread, -, -, htells, -⟩ := misplaced_told hparse
  obtain rfl : secondPoint = root := Option.some.inj (hroot.symm.trans hroot')
  exact ⟨d, n, hparse, hroot, hread, htells⟩

/-- There is a warning about a folder that is not in the tree. -/
theorem not_tells_twoPoints : ∃ d, parse twoPoints {} = .ok d ∧ d.root? = some secondPoint ∧
    secondPoint.strays = [] ∧
      d.warnings = [.misplaced "Point" "Folder" ((Place.ofSpan ⟨23, 32⟩).located twoPoints)] ∧
        ¬Tells d.warnings secondPoint.strays := by
  obtain ⟨d, hparse, hroot, hwarnings⟩ := parse_twoPoints
  have hnone : secondPoint.strays = [] := rfl
  refine ⟨d, hparse, hroot, hnone, hwarnings, fun htells => ?_⟩
  have hlength := htells.length_eq
  rw [hwarnings, hnone] at hlength
  cases hlength

end Document

end KmlTree
