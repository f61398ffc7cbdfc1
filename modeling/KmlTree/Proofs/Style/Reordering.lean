import KmlTree.Proofs.Style.Ingredients
import KmlTree.Proofs.Tree.Sorted

/-!
# Styles in a sorted tree

The resolver reads children in the order in which they are stored, but all that it asks of an element
in turn shares a place: the style selectors of a feature, the pairs of a style map, the sub-styles of
a kind. Main statement: resolving in a sorted tree runs through the same steps as in the tree, with
each selector sorted, and ends with a style whose sub-styles are sorted.
-/
namespace KmlTree

open Element (Seated)

/-! ## Views -/

/-- A view of an element that is sorted. -/
def View.sorted {group : Kind} (view : View group) : View group :=
  ⟨view.element.sorted, by rw [Element.isA_sorted, view.isA]⟩

namespace Element

variable {e : Element} {group : Kind}

theorem view?_sorted (e : Element) (group : Kind) :
    e.sorted.view? group = (e.view? group).map View.sorted := by
  unfold view?
  simp only [isA_sorted]
  split <;> rfl

theorem Seated.viewsOf_sorted (h : Seated e) (hq : Kind.Together fun c => c.isA group) :
    e.sorted.viewsOf group = (e.viewsOf group).map View.sorted := by
  have hviews (e : Element) : e.viewsOf group =
      (e.elements.filter fun c => c.kind.isA group).filterMap (·.view? group) := by
    rw [List.filterMap_filter, viewsOf]
    congr 1
    funext c
    unfold view? isA
    split <;> simp_all
  have hcomp : (fun c : Element => c.view? group) ∘ sorted = fun c => (c.view? group).map View.sorted :=
    funext fun c => c.view?_sorted group
  rw [hviews, hviews, h.filter_elements_sorted hq, List.filterMap_map, List.map_filterMap, hcomp]

end Element

/-! ## Selectors -/

def StyleSelector.sorted : StyleSelector → StyleSelector
  | .style e => .style e.sorted
  | .styleMap e => .styleMap e.sorted

def StyleTask.sorted : StyleTask → StyleTask
  | .selector chain s => .selector chain s.sorted
  | .url chain own => .url chain own

def StyleTarget.sorted : StyleTarget → StyleTarget
  | .nowhere diagnostic? => .nowhere diagnostic?
  | .shared id selector => .shared id selector.sorted

def Resolution.sorted (r : Resolution) : Resolution := { r with style := r.style.sortedBelow }

variable {e : Element} {state : StyleState} {chain : List String}

theorem StyleSelector.ofView_sorted (view : View .styleSelector) :
    ofView view.sorted = (ofView view).sorted := by
  unfold ofView
  have hkind : view.sorted.element.kind = view.element.kind :=
    congrArg Head.kind view.element.toHead_sorted
  rw [hkind]
  split <;> rfl

theorem Element.Seated.styleSelectors_sorted (h : Seated e) :
    e.sorted.styleSelectors = e.styleSelectors.map StyleSelector.sorted := by
  have hcomp : StyleSelector.ofView ∘ View.sorted = StyleSelector.sorted ∘ StyleSelector.ofView :=
    funext StyleSelector.ofView_sorted
  rw [styleSelectors, styleSelectors, h.viewsOf_sorted Kind.together_styleSelector, List.map_map,
    List.map_map, hcomp]

theorem Element.Seated.field?_sorted (h : Seated e) (α : Type) [FieldValue α] (kind : Kind) :
    e.sorted.field? α kind = e.field? α kind := by
  rw [field?, field?, h.fieldText?_sorted]

theorem Element.pairFor?_sorted (h : e.All Seated) :
    e.sorted.pairFor? state = (e.pairFor? state).map View.sorted := by
  rw [pairFor?, pairFor?, pairs, pairs, h.self.viewsOf_sorted Kind.together_pair, List.find?_map,
    ← List.head?_filter, ← List.head?_filter]
  congr 2
  refine List.filter_congr fun pair hpair => ?_
  have hseated := (h.known _ (mem_elements_of_mem_viewsOf hpair)).self
  have hkey : pair.sorted.element.field? StyleState .key = pair.element.field? StyleState .key :=
    hseated.field?_sorted StyleState .key
  rw [Function.comp, hkey]

theorem StyleTask.ofElement_sorted (h : Seated e) (chain : List String)
    (selectors : List StyleSelector) :
    ofElement chain (selectors.map .sorted) e.sorted =
      (ofElement chain selectors e).map StyleTask.sorted := by
  have hcomp : StyleTask.selector chain ∘ StyleSelector.sorted =
      StyleTask.sorted ∘ StyleTask.selector chain := rfl
  rw [ofElement, ofElement, Element.styleUrl?, Element.styleUrl?, h.fieldText?_sorted,
    List.map_append, List.map_map, List.map_map, hcomp]
  cases e.fieldText? .styleUrl <;> rfl

theorem StyleSelector.tasks_sorted {selector : StyleSelector} (h : selector.element.All Seated) :
    selector.sorted.tasks state chain = (selector.tasks state chain).map StyleTask.sorted := by
  cases selector with
  | style e => rfl
  | styleMap e =>
    have hpairFor : e.sorted.pairFor? state = (e.pairFor? state).map View.sorted :=
      Element.pairFor?_sorted h
    simp only [StyleSelector.sorted, tasks, hpairFor]
    cases hpair : e.pairFor? state with
    | none => rfl
    | some pair =>
      have hseated : pair.element.All Seated := Hereditary.pairFor? (hereditary_all Seated) h hpair
      have hselector : Pair.styleSelector? pair.sorted =
          (Pair.styleSelector? pair).map StyleSelector.sorted := by
        have hselectors : pair.sorted.element.styleSelectors = _ := hseated.self.styleSelectors_sorted
        rw [Pair.styleSelector?, Pair.styleSelector?, hselectors, List.head?_map]
      have htasks := StyleTask.ofElement_sorted hseated.self chain (Pair.styleSelector? pair).toList
      simp only [Option.map_some, hselector, Option.toList_map]
      exact htasks

/-! ## Merging -/

namespace Element

variable {result source child : Element} {kind : Kind}

theorem place_sortedBelow (e : Element) (repeats : Bool) (c : Child) :
    (e.sortedBelow.place repeats c.sorted).parent = (e.place repeats c).parent.sortedBelow := by
  have hfind : (e.children.map Child.sorted).findIdx? (fun d => d.slot == c.sorted.slot) =
      e.children.findIdx? fun d => d.slot == c.slot := by
    rw [List.findIdx?_map]
    simp [Function.comp_def]
  unfold place
  simp only [sortedBelow, hfind]
  split <;> simp

/-- Taking in a child and sorting what is below may change places. -/
theorem addChild_sortedBelow (e child : Element) :
    (∃ e', e.addChild child = .ok e' ∧ e.sortedBelow.addChild child.sorted = .ok e'.sortedBelow) ∨
      ∃ rejected rejected', e.addChild child = .error rejected ∧
        e.sortedBelow.addChild child.sorted = .error rejected' := by
  have hkind : e.sortedBelow.kind = e.kind := rfl
  have hkind' : child.sorted.kind = child.kind := congrArg Head.kind child.toHead_sorted
  unfold addChild attach
  rw [hkind, hkind']
  split
  · refine Or.inl ⟨_, rfl, ?_⟩
    simp [Except.map, addUnknown, sortedBelow]
  · cases e.kind.slotFor? child.kind with
    | none => exact Or.inr ⟨_, _, rfl, rfl⟩
    | some found =>
      refine Or.inl ⟨_, rfl, ?_⟩
      have hplace := e.place_sortedBelow found.2.repeats (child.toChild found.1)
      rw [Child.sorted_toChild] at hplace
      exact congrArg Except.ok hplace

theorem find?_sortedBelow (e : Element) (kind : Kind) :
    e.sortedBelow.find? kind = (e.find? kind).map sorted := by
  have hcomp : (fun c : Element => c.isA kind) ∘ sorted = fun c => c.isA kind :=
    funext fun c => c.isA_sorted kind
  rw [find?, find?, elements_sortedBelow, List.find?_map, hcomp]

theorem mergeSubStyle_sorted (h : Seated source) (hkind : kind ∈ subStyleKinds) :
    mergeSubStyle source.sorted result.sortedBelow kind =
      (mergeSubStyle source result kind).sortedBelow := by
  have htogether : Kind.Together fun c => c.isA kind :=
    Kind.together_of_eq fun c hc => Kind.eq_of_isA_subStyle hkind hc
  unfold mergeSubStyle
  rw [find?_sortedBelow, h.find?_sorted htogether]
  cases result.find? kind with
  | some own => rfl
  | none =>
    cases source.find? kind with
    | none => rfl
    | some subStyle =>
      obtain ⟨merged, hmerged, hsorted⟩ | ⟨_, _, hrefused, hsorted⟩ :=
        result.addChild_sortedBelow subStyle
      · simp only [Option.map_none, Option.map_some, hmerged, hsorted]
      · simp only [Option.map_none, Option.map_some, hrefused, hsorted]

theorem mergeStyle_sorted (h : Seated source) :
    result.sortedBelow.mergeStyle source.sorted = (result.mergeStyle source).sortedBelow := by
  have hfold (kinds : List Kind) (hkinds : ∀ kind ∈ kinds, kind ∈ subStyleKinds) :
      ∀ result : Element, kinds.foldl (mergeSubStyle source.sorted) result.sortedBelow =
        (kinds.foldl (mergeSubStyle source) result).sortedBelow := by
    induction kinds with
    | nil => exact fun _ => rfl
    | cons kind rest ih =>
      intro result
      rw [List.foldl_cons, List.foldl_cons, mergeSubStyle_sorted h (hkinds kind List.mem_cons_self),
        ih fun k hk => hkinds k (List.mem_cons_of_mem _ hk)]
  exact hfold subStyleKinds (fun _ => id) result

end Element

theorem StyleSelector.contribute_sorted {selector : StyleSelector} (h : Seated selector.element)
    (r : Resolution) : selector.sorted.contribute r.sorted = (selector.contribute r).sorted := by
  cases selector with
  | styleMap e => rfl
  | style e =>
    have hmerge : r.style.sortedBelow.mergeStyle e.sorted = (r.style.mergeStyle e).sortedBelow :=
      Element.mergeStyle_sorted h
    simp only [StyleSelector.sorted, contribute, Resolution.sorted, hmerge]

theorem Resolution.diagnose_sorted (r : Resolution) (diagnostic? : Option StyleDiagnostic) :
    diagnostic?.elim r.sorted r.sorted.diagnose = (diagnostic?.elim r r.diagnose).sorted := by
  cases diagnostic? <;> rfl

/-! ## Resolving -/

namespace Document

variable {d d' : Document}

theorem styleTarget_sorted (hlookup : ∀ id, d'.lookup? id = (d.lookup? id).map Element.sorted)
    (entered chain : List String) (url : String) :
    d'.styleTarget entered chain url = (d.styleTarget entered chain url).sorted := by
  unfold styleTarget
  cases localId? url with
  | none => rfl
  | some id =>
    simp only [hlookup]
    split
    · rfl
    split
    · rfl
    cases d.lookup? id with
    | none => rfl
    | some target =>
      have hkind : target.sorted.kind = target.kind := congrArg Head.kind target.toHead_sorted
      simp only [Option.map_some, target.view?_sorted, hkind]
      cases target.view? .styleSelector with
      | none => rfl
      | some view => simp [StyleTarget.sorted, StyleSelector.ofView_sorted]

/-- Resolving sorted tasks in a sorted tree runs through the same steps. -/
theorem resolveTasks_sorted (hlookup : ∀ id, d'.lookup? id = (d.lookup? id).map Element.sorted)
    (hroot : ∀ root, d.root? = some root → root.All Seated) {r : Resolution} {tasks : List StyleTask}
    (htasks : ∀ task ∈ tasks, task.Holds (Element.All Seated)) :
    d'.resolveTasks state r.sorted (tasks.map StyleTask.sorted) =
      (d.resolveTasks state r tasks).sorted := by
  have hhereditary := hereditary_all Seated
  fun_induction d.resolveTasks state r tasks with
  | case1 r => rw [List.map_nil, resolveTasks_nil]
  | case2 r chain selector rest ih =>
    obtain ⟨hselector, hrest⟩ := List.forall_mem_cons.1 htasks
    have hall : ∀ task ∈ selector.tasks state chain ++ rest, task.Holds (Element.All Seated) := by
      intro task htask
      rcases List.mem_append.1 htask with htask | htask
      · exact hhereditary.tasks hselector task htask
      · exact hrest task htask
    rw [List.map_cons, StyleTask.sorted, resolveTasks_selector,
      StyleSelector.contribute_sorted (Element.All.self hselector),
      StyleSelector.tasks_sorted hselector, ← List.map_append, ih hall]
  | case3 r chain url rest diagnostic? htarget ih =>
    have htarget' : d'.styleTarget r.sorted.entered chain url = .nowhere diagnostic? := by
      rw [styleTarget_sorted hlookup]
      exact congrArg StyleTarget.sorted htarget
    rw [List.map_cons, StyleTask.sorted, resolveTasks_nowhere _ htarget',
      Resolution.diagnose_sorted, ih (List.forall_mem_cons.1 htasks).2]
  | case4 r chain url rest id selector htarget ih =>
    have htarget' : d'.styleTarget r.sorted.entered chain url = .shared id selector.sorted := by
      rw [styleTarget_sorted hlookup]
      exact congrArg StyleTarget.sorted htarget
    obtain ⟨-, -, hselector⟩ := styleTarget_eq_shared htarget
    have hshared := hhereditary.sharedSelector? hroot hselector
    rw [List.map_cons, StyleTask.sorted, resolveTasks_shared _ htarget']
    exact ih (List.forall_mem_cons.2 ⟨hshared, (List.forall_mem_cons.1 htasks).2⟩)

/-- The style of a sorted element in a sorted tree is the style of the element in the tree, with the
sub-styles sorted, and the same references contribute nothing. -/
theorem resolve_sorted (hlookup : ∀ id, d'.lookup? id = (d.lookup? id).map Element.sorted)
    (hroot : ∀ root, d.root? = some root → root.All Seated) (he : e.All Seated) :
    d'.resolve state e.sorted = (d.resolve state e).sorted := by
  unfold resolve
  rw [e.view?_sorted]
  cases hview : e.view? .feature with
  | none => rfl
  | some view =>
    have helement := Element.element_of_view? hview
    have hseated : view.element.All Seated := helement ▸ he
    have hselectors : view.sorted.element.styleSelectors = _ := hseated.self.styleSelectors_sorted
    have htasks := StyleTask.ofElement_sorted hseated.self [] view.element.styleSelectors
    rw [← hselectors] at htasks
    have hall : ∀ task ∈ StyleTask.ofElement [] view.element.styleSelectors view.element,
        task.Holds (Element.All Seated) := by
      intro task htask
      rcases StyleSelector.mem_ofElement.1 htask with ⟨selector, hselector, rfl⟩ | ⟨url, -, rfl⟩
      · exact (hereditary_all Seated).of_mem_styleSelectors hseated hselector
      · trivial
    have hresolve : d'.resolveTasks state (Resolution.sorted {}) _ = _ :=
      resolveTasks_sorted hlookup hroot hall
    rw [← htasks] at hresolve
    exact hresolve

end Document

end KmlTree
