import KmlTree.Proofs.Document.Declared
import KmlTree.Proofs.Style.Resolution
import KmlTree.Proofs.Tree.Seated

/-!
# What a style is put together from

All that the resolver meets lies in the feature or in the tree of the document. So what is true of
all elements of both is true of all selectors on the way and of the style at the end.
-/
namespace KmlTree

variable {P : Element → Prop} {state : StyleState} {chain : List String} {d : Document}

/-- A property that an element has in common with its known children. -/
def Hereditary (P : Element → Prop) : Prop := ∀ e, P e → ∀ c ∈ e.elements, P c

theorem hereditary_all (P : Element → Prop) : Hereditary (Element.All P) := fun _ h => h.known

theorem Hereditary.within (hP : Hereditary P) {root e : Element} (h : Element.Within root e)
    (hroot : P root) : P e := by
  induction h with
  | root => exact hroot
  | child _ hmem ih => exact hP _ ih _ hmem

theorem Element.mem_elements_of_find? {e c : Element} {kind : Kind} (h : e.find? kind = some c) :
    c ∈ e.elements :=
  List.mem_of_find?_eq_some h

def StyleTask.Holds (P : Element → Prop) : StyleTask → Prop
  | .selector _ s => P s.element
  | .url .. => True

theorem Hereditary.of_mem_styleSelectors (hP : Hereditary P) {e : Element} (he : P e)
    {selector : StyleSelector} (h : selector ∈ e.styleSelectors) : P selector.element := by
  obtain ⟨view, hview, rfl⟩ := List.mem_map.1 h
  rw [StyleSelector.element_ofView]
  exact hP e he _ (Element.mem_elements_of_mem_viewsOf hview)

theorem Hereditary.pairFor? (hP : Hereditary P) {e : Element} (he : P e) {pair : Pair}
    (h : e.pairFor? state = some pair) : P pair.element :=
  hP e he _ (Element.mem_elements_of_mem_viewsOf (List.mem_of_find?_eq_some h))

theorem Hereditary.tasks (hP : Hereditary P) {selector : StyleSelector} (h : P selector.element) :
    ∀ task ∈ selector.tasks state chain, task.Holds P := by
  intro task htask
  obtain ⟨e, pair, rfl, hpair, ⟨inner, hinner, rfl⟩ | ⟨url, -, rfl⟩⟩ :=
    StyleSelector.mem_tasks.1 htask
  · exact hP.of_mem_styleSelectors (hP.pairFor? h hpair) (List.mem_of_mem_head? hinner)
  · trivial

theorem Hereditary.lookup? (hP : Hereditary P) (hroot : ∀ root, d.root? = some root → P root)
    {id : String} {e : Element} (h : d.lookup? id = some e) : P e := by
  obtain ⟨root, hd, hpath⟩ := Option.bind_eq_some_iff.1 h
  obtain ⟨path, -, hat⟩ := Option.bind_eq_some_iff.1 hpath
  exact hP.within (Element.within_iff_at?.2 ⟨path, hat⟩) (hroot root hd)

theorem Hereditary.sharedSelector? (hP : Hereditary P)
    (hroot : ∀ root, d.root? = some root → P root) {id : String} {selector : StyleSelector}
    (h : d.sharedSelector? id = some selector) : P selector.element := by
  obtain ⟨e, hlookup, hselector⟩ := Option.bind_eq_some_iff.1 h
  obtain ⟨view, hview, rfl⟩ := Option.map_eq_some_iff.1 hselector
  rw [StyleSelector.element_ofView, Element.element_of_view? hview]
  exact hP.lookup? hroot hlookup

/-- A property that an element has if it is made by adding an element with it to one with it. -/
def Additive (P : Element → Prop) : Prop :=
  ∀ e c e', P e → P c → e.addChild c = .ok e' → P e'

theorem Additive.mergeSubStyle (hP : Hereditary P) (hadd : Additive P) {source result : Element}
    (hsource : P source) (hresult : P result) (kind : Kind) :
    P (Element.mergeSubStyle source result kind) := by
  unfold Element.mergeSubStyle
  split
  · next subStyle _ hfind =>
    split
    · next merged hmerged =>
      exact hadd _ _ _ hresult (hP _ hsource _ (Element.mem_elements_of_find? hfind)) hmerged
    · exact hresult
  · exact hresult

theorem Additive.contribute (hP : Hereditary P) (hadd : Additive P) {r : Resolution}
    (hr : P r.style) {selector : StyleSelector} (h : P selector.element) :
    P (selector.contribute r).style := by
  cases selector with
  | styleMap e => exact hr
  | style e =>
    have hfold (kinds : List Kind) : ∀ result, P result →
        P (kinds.foldl (Element.mergeSubStyle e) result) := by
      induction kinds with
      | nil => exact fun _ => id
      | cons kind rest ih =>
        exact fun result hresult => ih _ (hadd.mergeSubStyle hP h hresult kind)
    rw [StyleSelector.contribute]
    dsimp only
    rw [Element.mergeStyle]
    exact hfold subStyleKinds r.style hr

theorem Additive.resolveTasks (hP : Hereditary P) (hadd : Additive P)
    (hroot : ∀ root, d.root? = some root → P root) {r : Resolution} {tasks : List StyleTask}
    (hr : P r.style) (htasks : ∀ task ∈ tasks, task.Holds P) :
    P (d.resolveTasks state r tasks).style := by
  fun_induction d.resolveTasks state r tasks with
  | case1 r => exact hr
  | case2 r chain selector rest ih =>
    obtain ⟨hselector, hrest⟩ := List.forall_mem_cons.1 htasks
    refine ih (hadd.contribute hP hr hselector) fun task htask => ?_
    rcases List.mem_append.1 htask with htask | htask
    · exact hP.tasks hselector task htask
    · exact hrest task htask
  | case3 r chain url rest diagnostic? _ ih =>
    rw [← Document.style_diagnose r diagnostic?] at hr
    exact ih hr (List.forall_mem_cons.1 htasks).2
  | case4 r chain url rest id selector htarget ih =>
    obtain ⟨-, -, hselector⟩ := Document.styleTarget_eq_shared htarget
    exact ih hr (List.forall_mem_cons.2
      ⟨hP.sharedSelector? hroot hselector, (List.forall_mem_cons.1 htasks).2⟩)

/-- What is true of a feature and of all of the tree is true of the style of the feature. -/
theorem Additive.resolve (hP : Hereditary P) (hadd : Additive P) (hempty : P (.ofKind .style))
    (hroot : ∀ root, d.root? = some root → P root) {feature : Element} (hfeature : P feature) :
    P (d.resolve state feature).style := by
  unfold Document.resolve
  split
  · exact hempty
  next view hview =>
  have helement := Element.element_of_view? hview
  refine hadd.resolveTasks hP hroot hempty fun task htask => ?_
  rcases StyleSelector.mem_ofElement.1 htask with ⟨selector, hselector, rfl⟩ | ⟨url, -, rfl⟩
  · exact hP.of_mem_styleSelectors (helement ▸ hfeature) hselector
  · trivial

theorem additive_seated : Additive (Element.All Element.Seated) :=
  fun _ _ _ h hchild ha => Element.all_seated_addChild h hchild ha

end KmlTree
