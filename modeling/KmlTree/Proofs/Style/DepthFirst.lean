import KmlTree.Proofs.Document.Reachable
import KmlTree.Proofs.Style.Survey

/-!
# The resolver as a search

The resolver follows references where a depth-first search does, and has one word at most for each of
them. Main statement: it enters the shared selectors that this search enters, and its words are those
that are due to what the search meets, in this order.
-/
namespace KmlTree

open Relation (ReflTransGen)

namespace Document

variable {d : Document} {state : StyleState}

def surveyTasks (d : Document) (state : StyleState) (entered : List String) :
    List StyleTask → Survey
  | [] => ⟨[], entered⟩
  | task :: rest =>
    (d.survey state task.chain entered (task.references state)).andThen fun entered =>
      d.surveyTasks state entered rest

section Resolver

variable {chain entered : List String} {url id : String} {selector : StyleSelector}
  {tasks rest : List StyleTask}

theorem surveyTasks_append (h : ∀ task ∈ tasks, task.chain = chain) :
    d.surveyTasks state entered (tasks ++ rest) =
      (d.survey state chain entered (tasks.flatMap (StyleTask.references state))).andThen
        fun entered => d.surveyTasks state entered rest := by
  induction tasks generalizing entered with
  | nil => simp [survey_nil, Survey.andThen]
  | cons task tasks ih =>
    obtain ⟨htask, htasks⟩ := List.forall_mem_cons.1 h
    rw [List.cons_append, surveyTasks, htask, List.flatMap_cons, survey_append]
    simp [Survey.andThen, ih htasks]

theorem surveyTasks_selector : d.surveyTasks state entered (.selector chain selector :: rest) =
    d.surveyTasks state entered (selector.tasks state chain ++ rest) := by
  rw [surveyTasks_append fun _ => StyleSelector.chain_of_mem_tasks, ← selector.references_eq]
  rfl

theorem surveyTasks_url_none (h : d.firstTime? chain entered url = none) :
    d.surveyTasks state entered (.url chain url :: rest) =
      Survey.andThen ⟨[⟨chain, url⟩], entered⟩ fun entered => d.surveyTasks state entered rest := by
  change (d.survey state chain entered [url]).andThen _ = _
  rw [survey_cons_none h]
  simp [Survey.andThen, survey_nil]

theorem surveyTasks_url_some (h : d.firstTime? chain entered url = some (id, selector)) :
    d.surveyTasks state entered (.url chain url :: rest) =
      Survey.andThen ⟨[⟨chain, url⟩], entered ++ [id]⟩ fun entered =>
        d.surveyTasks state entered (.selector (id :: chain) selector :: rest) := by
  change (d.survey state chain entered [url]).andThen _ = _
  rw [survey_cons_some h]
  simp [Survey.andThen, survey_nil, surveyTasks, StyleTask.chain, StyleTask.references]

theorem complaint?_eq (hid : Text.trim url = "#" ++ id) :
    d.complaint? ⟨chain, url⟩ =
      if id ∈ chain then some (.cycle url)
      else if d.index.get? id = none then some (.unresolved url)
      else
        (d.lookup? id).bind fun target =>
          if target.isA .styleSelector then none else some (.notASelector url target.kind) := by
  have hhead : (Text.trim url).toList.head? = some '#' := by simp [hid]
  have hchain : (∃ own ∈ chain, Text.trim url = "#" ++ own) ↔ id ∈ chain := by
    simp [hid, String.append_right_inj]
  rw [complaint?, if_neg (not_not_intro hhead), targetId?_eq hid]
  simp only [hchain]
  split
  · rfl
  · by_cases hget : d.index.get? id = none <;> simp [hget]

theorem firstTime?_eq (hid : Text.trim url = "#" ++ id) :
    d.firstTime? chain entered url =
      if id ∈ chain ∨ id ∈ entered then none else (d.sharedSelector? id).map (id, ·) := by
  rw [firstTime?, targetId?_eq hid]
  split
  · next hget =>
    have hnone : d.sharedSelector? id = none := by simp [sharedSelector?, lookup?, hget]
    simp [hnone]
  · rfl

theorem firstTime?_eq_none_of_external (h : (Text.trim url).toList.head? ≠ some '#') :
    d.firstTime? chain entered url = none := by
  refine Option.eq_none_iff_forall_ne_some.2 fun (id, selector) hsome => h ?_
  obtain ⟨hid, -⟩ := firstTime?_eq_some_iff.1 hsome
  simp [hid]

/-- The resolver follows a reference where the search does, and has a word for no other. -/
theorem styleTarget_eq (hindex : ∀ id, d.index.get? id = none ↔ d.lookup? id = none)
    (hentered : ∀ id ∈ entered, d.IsShared id) :
    d.styleTarget entered chain url = match d.firstTime? chain entered url with
      | none => .nowhere (d.complaint? ⟨chain, url⟩)
      | some (id, selector) => .shared id selector := by
  unfold styleTarget
  cases hlocal : localId? url with
  | none =>
    have hexternal := localId?_eq_none_iff.1 hlocal
    rw [firstTime?_eq_none_of_external hexternal, complaint?, if_pos hexternal]
  | some id =>
    have hid := localId?_eq_some_iff.1 hlocal
    rw [firstTime?_eq hid, complaint?_eq hid]
    simp only [hindex, sharedSelector?]
    by_cases hchain : id ∈ chain
    · simp [hchain]
    by_cases hmem : id ∈ entered
    · -- a selector that was entered needs no word
      obtain ⟨selector, hselector⟩ := hentered id hmem
      obtain ⟨target, hlookup, hview⟩ := Option.bind_eq_some_iff.1 hselector
      obtain ⟨view, hview, -⟩ := Option.map_eq_some_iff.1 hview
      simp [hchain, hmem, hlookup, Element.isA_of_view? hview]
    cases hlookup : d.lookup? id with
    | none => simp [hchain, hmem]
    | some target =>
      cases hview : target.view? .styleSelector with
      | none => simp [hchain, hmem, hview, Element.isA_eq_false_of_view? hview]
      | some view => simp [hchain, hmem, hview]

theorem complaint?_of_firstTime? (hindex : ∀ id, d.index.get? id = none ↔ d.lookup? id = none)
    (h : d.firstTime? chain entered url = some (id, selector)) :
    d.complaint? ⟨chain, url⟩ = none := by
  obtain ⟨hid, hchain, -, hselector⟩ := firstTime?_eq_some_iff.1 h
  obtain ⟨target, hlookup, hview⟩ := Option.bind_eq_some_iff.1 hselector
  obtain ⟨view, hview, -⟩ := Option.map_eq_some_iff.1 hview
  simp [complaint?_eq hid, hchain, hindex, hlookup, Element.isA_of_view? hview]

/-- The resolver enters what the search enters, and has the words that are due to what it meets. -/
theorem resolveTasks_eq_survey (hindex : ∀ id, d.index.get? id = none ↔ d.lookup? id = none)
    {r : Resolution} (hentered : ∀ id ∈ r.entered, d.IsShared id) :
    (d.resolveTasks state r tasks).entered = (d.surveyTasks state r.entered tasks).entered ∧
      (d.resolveTasks state r tasks).diagnostics = r.diagnostics ++
        (d.surveyTasks state r.entered tasks).visits.filterMap d.complaint? := by
  fun_induction d.resolveTasks state r tasks with
  | case1 r => simp [surveyTasks]
  | case2 r chain selector rest ih =>
    have hdiagnostics : (selector.contribute r).diagnostics = r.diagnostics := by
      cases selector <;> rfl
    rw [StyleSelector.entered_contribute, hdiagnostics] at ih
    rw [surveyTasks_selector]
    exact ih hentered
  | case3 r chain url rest diagnostic? htarget ih =>
    rw [styleTarget_eq hindex hentered] at htarget
    split at htarget
    · next hnone =>
      cases htarget
      rw [Resolution.entered_diagnose] at ih
      obtain ⟨hentered', hdiagnostics⟩ := ih hentered
      rw [surveyTasks_url_none hnone]
      refine ⟨hentered', hdiagnostics.trans ?_⟩
      cases hcomplaint : d.complaint? ⟨chain, url⟩ with
      | none => simp [Survey.andThen, hcomplaint]
      | some diagnostic => simp [Survey.andThen, hcomplaint, Resolution.diagnose]
    · cases htarget
  | case4 r chain url rest id selector htarget ih =>
    rw [styleTarget_eq hindex hentered] at htarget
    split at htarget
    · cases htarget
    · next hsome =>
      cases htarget
      obtain ⟨-, -, -, hselector⟩ := firstTime?_eq_some_iff.1 hsome
      have hcomplaint := complaint?_of_firstTime? hindex hsome
      have hshared : ∀ own ∈ r.entered ++ [id], d.IsShared own := by
        intro own hown
        rcases List.mem_append.1 hown with hown | hown
        · exact hentered own hown
        · exact List.mem_singleton.1 hown ▸ ⟨selector, hselector⟩
      obtain ⟨hentered', hdiagnostics⟩ := ih hshared
      rw [surveyTasks_url_some hsome]
      refine ⟨hentered', hdiagnostics.trans ?_⟩
      simp [Survey.andThen, hcomplaint]

end Resolver

theorem Indexed.get?_eq_none_iff_lookup? (h : Indexed d) (id : String) :
    d.index.get? id = none ↔ d.lookup? id = none := by
  cases hroot : d.root? with
  | none =>
    rw [h.empty hroot]
    exact iff_of_true rfl rfl
  | some root =>
    constructor
    · intro hnone
      simp [lookup?, hnone]
    · intro hnone
      cases hget : d.index.get? id with
      | none => rfl
      | some path =>
        obtain ⟨e, hat, -⟩ := (h.get?_eq_some_iff hroot).1 hget
        simp [lookup?, hroot, hget, hat] at hnone

/-- The resolver makes a depth-first search from the references of a feature. It enters each shared
selector that they reach, directly or through others, and enters none twice; it meets the references
of the feature and of these selectors, each as often as it stands there; and it has a word for those
that contribute nothing, in the order in which it meets them. -/
theorem Reachable.resolve_eq_survey (h : Reachable d) (state : StyleState) (f : Feature) :
    (d.resolve state f.element).entered = (d.surveyOf state f).entered ∧
      (d.resolve state f.element).diagnostics =
        (d.surveyOf state f).visits.filterMap d.complaint? ∧
      (d.surveyOf state f).entered.Nodup ∧
      (∀ id, id ∈ (d.surveyOf state f).entered ↔
        ∃ url first, f.Refers state url ∧ Text.trim url = "#" ++ first ∧ d.IsShared first ∧
          ReflTransGen (d.LeadsTo state) first id) ∧
      ((d.surveyOf state f).visits.map Visit.url).Perm
        (f.references state ++ (d.surveyOf state f).entered.flatMap (d.referencesOf state)) := by
  have hview : f.element.view? .feature = some f := by
    rw [Element.view?, dif_pos f.isA]
  have hchain : ∀ task ∈ StyleTask.ofElement [] (Feature.styleSelectors f) f.element,
      task.chain = [] := by
    intro task htask
    rcases StyleSelector.mem_ofElement.1 htask with ⟨selector, -, rfl⟩ | ⟨url, -, rfl⟩ <;> rfl
  have hsurvey : d.surveyTasks state [] (StyleTask.ofElement [] (Feature.styleSelectors f) f.element) =
      d.surveyOf state f := by
    have happend : d.surveyTasks state []
        (StyleTask.ofElement [] (Feature.styleSelectors f) f.element ++ []) = _ :=
      surveyTasks_append hchain
    rw [List.append_nil, flatMap_references_ofElement] at happend
    refine happend.trans ?_
    simp only [Survey.andThen, surveyTasks, List.append_nil]
    rfl
  have hnone : ∀ id ∈ ({} : Resolution).entered, d.IsShared id := by simp
  obtain ⟨hentered, hdiagnostics⟩ :=
    resolveTasks_eq_survey h.indexed.get?_eq_none_iff_lookup? hnone
  obtain ⟨new, hnew⟩ := explores_survey [] [] (f.references state) (List.Subset.refl _)
  have heq : (d.surveyOf state f).entered = new := hnew.entered_eq
  rw [hsurvey] at hentered hdiagnostics
  simp only [resolve, hview]
  refine ⟨hentered, by simpa using hdiagnostics, heq ▸ hnew.nodup, fun id => ?_, ?_⟩
  · rw [heq, hnew.mem_iff, Reached]
    simp only [Feature.mem_references]
  · rw [heq]
    exact hnew.urls_perm

/-! ## Two maps that lead to each other -/

def pairTo (url : String) (held : List Child) : Child :=
  .element 0 ⟨{ kind := .pair },
    .field 0 ⟨.key, "normal"⟩ :: .field 1 ⟨.styleUrl, url⟩ :: held, []⟩

/-- A map that holds a map which leads out of the document, and then leads on to another one. -/
def outward : Element :=
  ⟨{ kind := .styleMap, attributes := ⟨[(.id, "out")]⟩ },
    [pairTo "#back" [.element 2 ⟨{ kind := .styleMap }, [pairTo "other.kml#far" []], []⟩]], []⟩

def backward : Element :=
  ⟨{ kind := .styleMap, attributes := ⟨[(.id, "back")]⟩ }, [pairTo "#out" []], []⟩

def shuttle : Element := ⟨{ kind := .placemark }, [.field 9 ⟨.styleUrl, "#out"⟩], []⟩

def circuit : Element :=
  ⟨{ kind := .document }, [.element 10 outward, .element 10 backward, .element 14 shuttle], []⟩

theorem document_circuit : ∃ d, ofRoot circuit = .ok d ∧
    d.sharedSelector? "out" = some (.styleMap outward) ∧
      d.sharedSelector? "back" = some (.styleMap backward) := by
  obtain ⟨d, hd⟩ : ∃ d, ofRoot circuit = .ok d :=
    ⟨_, ofRoot_eq_ok_iff.2 ⟨by decide +kernel, rfl⟩⟩
  have hroot : d.root? = some circuit := by
    obtain ⟨-, rfl⟩ := ofRoot_eq_ok_iff.1 hd
    rfl
  have hfound {e : Element} {id : String} (he : e ∈ circuit.elements) (hid : e.objectId? = some id) :
      d.lookup? id = some e :=
    ((indexed_ofRoot hd).lookup?_eq_some_iff hroot).2 ⟨Element.Within.root.child he, hid⟩
  have hout : d.lookup? "out" = some outward := hfound List.mem_cons_self rfl
  have hback : d.lookup? "back" = some backward :=
    hfound (List.mem_cons_of_mem _ List.mem_cons_self) rfl
  exact ⟨d, hd, by rw [sharedSelector?, hout]; rfl, by rw [sharedSelector?, hback]; rfl⟩

theorem references_outward :
    (StyleSelector.styleMap outward).references .normal = ["other.kml#far", "#back"] := by
  let held : Element := ⟨{ kind := .styleMap }, [pairTo "other.kml#far" []], []⟩
  have hheld : (StyleSelector.styleMap held).tasks .normal [] = [.url [] "other.kml#far"] := rfl
  have houtward : (StyleSelector.styleMap outward).tasks .normal [] =
      [.selector [] (.styleMap held), .url [] "#back"] := rfl
  rw [StyleSelector.references_eq _ [], houtward, List.flatMap_cons, StyleTask.references,
    StyleSelector.references_eq _ [], hheld]
  rfl

theorem references_backward :
    (StyleSelector.styleMap backward).references .normal = ["#out"] := by
  have hbackward : (StyleSelector.styleMap backward).tasks .normal [] = [.url [] "#out"] := rfl
  rw [StyleSelector.references_eq _ [], hbackward]
  rfl

/-- Both maps are entered, and a word is due to the reference out of the document and to the one
that closes the circle. -/
theorem resolve_eq_survey_circuit : ∃ d, ofRoot circuit = .ok d ∧
    (d.resolve .normal shuttle).entered = ["out", "back"] ∧
      (d.resolve .normal shuttle).diagnostics =
        [.external "other.kml#far", .cycle "#out"] := by
  obtain ⟨d, hd, hout, hback⟩ := document_circuit
  have hreachable : Reachable d := .ofRoot .empty (fun _ => circuit) hd
  obtain ⟨hentered, hdiagnostics, -⟩ :=
    Reachable.resolve_eq_survey hreachable .normal ⟨shuttle, rfl⟩
  have hfirst : d.firstTime? [] [] "#out" = some ("out", .styleMap outward) :=
    firstTime?_eq_some_iff.2 ⟨rfl, by simp, by simp, hout⟩
  have hexternal : (Text.trim "other.kml#far").toList.head? ≠ some '#' := by decide
  have hfar : d.firstTime? ["out"] ["out"] "other.kml#far" = none :=
    firstTime?_eq_none_of_external hexternal
  have hsecond : d.firstTime? ["out"] ["out"] "#back" = some ("back", .styleMap backward) :=
    firstTime?_eq_some_iff.2 ⟨rfl, by simp, by simp, hback⟩
  have hreference : Text.trim "#out" = "#" ++ "out" := rfl
  have hagain : d.firstTime? ["back", "out"] ["out", "back"] "#out" = none := by
    rw [firstTime?_eq hreference, if_pos (by simp)]
  have hsurvey : d.surveyOf .normal ⟨shuttle, rfl⟩ =
      ⟨[⟨[], "#out"⟩, ⟨["out"], "other.kml#far"⟩, ⟨["out"], "#back"⟩, ⟨["back", "out"], "#out"⟩],
        ["out", "back"]⟩ := by
    have hreferences : Feature.references .normal ⟨shuttle, rfl⟩ = ["#out"] := rfl
    rw [surveyOf, hreferences, survey_cons_some hfirst, references_outward, List.nil_append,
      survey_cons_none hfar]
    simp only [Survey.andThen, survey_cons_some hsecond, references_backward,
      List.cons_append, List.nil_append, survey_cons_none hagain, survey_nil, List.append_nil]
  rw [hsurvey] at hentered hdiagnostics
  refine ⟨d, hd, hentered, hdiagnostics.trans ?_⟩
  have hindex := hreachable.indexed.get?_eq_none_iff_lookup?
  have hfarComplaint : d.complaint? ⟨["out"], "other.kml#far"⟩ = some (.external "other.kml#far") :=
    if_pos hexternal
  have hagainComplaint : d.complaint? ⟨["back", "out"], "#out"⟩ = some (.cycle "#out") := by
    rw [complaint?_eq hreference, if_pos (by simp)]
  simp [complaint?_of_firstTime? hindex hfirst, complaint?_of_firstTime? hindex hsecond,
    hfarComplaint, hagainComplaint]

end Document

end KmlTree
