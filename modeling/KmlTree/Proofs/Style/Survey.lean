import KmlTree.Proofs.Style.Cycles

/-!
# References in the order of a search

The references that lead to the style of a feature, in the order of a depth-first search: after a
reference come those of the shared selector that it leads to, if this is the first way there. Main
statement: the search enters all shared selectors that references lead to, each of them once, and it
meets the references of the feature and of these selectors and no others.
-/
namespace KmlTree

open Relation (ReflTransGen)
open StyleSelector (Refers)

/-! ## References in their order -/

namespace StyleSelector

/-- The references that a selector leads to without another reference, those of an inline selector
before that of the pair which holds it. -/
def references (state : StyleState) : StyleSelector → List String
  | .style _ => []
  | .styleMap e =>
    match _hpair : e.pairFor? state with
    | none => []
    | some pair =>
      (match _hselector : pair.styleSelector? with
        | none => []
        | some selector => selector.references state) ++ pair.element.styleUrl?.toList
termination_by selector => selector.element.size
decreasing_by
  exact Nat.lt_trans (Pair.size_styleSelector?_lt _hselector) (Element.size_pairFor?_lt _hpair)

end StyleSelector

def Feature.references (state : StyleState) (f : Feature) : List String :=
  (Feature.styleSelectors f).flatMap (StyleSelector.references state) ++
    (Feature.styleUrl? f).toList

def StyleTask.references (state : StyleState) : StyleTask → List String
  | .selector _ s => s.references state
  | .url _ own => [own]

section References

variable {state : StyleState} {url : String}

theorem flatMap_references_ofElement (chain : List String) (selectors : List StyleSelector)
    (e : Element) :
    (StyleTask.ofElement chain selectors e).flatMap (StyleTask.references state) =
      selectors.flatMap (StyleSelector.references state) ++ e.styleUrl?.toList := by
  rw [StyleTask.ofElement, List.flatMap_append, List.flatMap_map]
  congr 1
  cases e.styleUrl? <;> rfl

theorem StyleSelector.references_eq (selector : StyleSelector) (chain : List String) :
    selector.references state =
      (selector.tasks state chain).flatMap (StyleTask.references state) := by
  cases selector with
  | style e => rw [references, tasks, List.flatMap_nil]
  | styleMap e =>
    rw [references, tasks]
    split
    · next hpair => simp [hpair]
    · next pair hpair =>
      rw [hpair]
      simp only [flatMap_references_ofElement]
      congr 1
      split
      · next hnone => simp [hnone]
      · next inner hinner => simp [hinner]

theorem StyleSelector.mem_references {selector : StyleSelector} :
    url ∈ selector.references state ↔ Refers state selector url := by
  constructor
  · intro h
    match selector with
    | .style e =>
      rw [references] at h
      cases h
    | .styleMap e =>
      rw [references] at h
      split at h
      · cases h
      next pair hpair =>
      rcases List.mem_append.1 h with h | h
      · split at h
        · cases h
        next inner hinner =>
        have hlt := Nat.lt_trans (Pair.size_styleSelector?_lt hinner) (Element.size_pairFor?_lt hpair)
        exact .pair hpair hinner (mem_references.1 h)
      · exact .url hpair (Option.mem_toList.1 h)
  · intro h
    induction h with
    | @url e pair url hpair hurl =>
      rw [references_eq _ [], tasks, hpair]
      simp only [flatMap_references_ofElement]
      exact List.mem_append_right _ (Option.mem_toList.2 hurl)
    | @pair e pair inner url hpair hinner _ ih =>
      rw [references_eq _ [], tasks, hpair]
      simp only [flatMap_references_ofElement]
      exact List.mem_append_left _ (List.mem_flatMap.2 ⟨inner, by simp [hinner], ih⟩)
termination_by selector.element.size

theorem Feature.mem_references {f : Feature} : url ∈ f.references state ↔ f.Refers state url := by
  simp only [Feature.references, Feature.Refers, List.mem_append, List.mem_flatMap,
    StyleSelector.mem_references, Option.mem_toList]

end References

/-! ## The search -/

/-- A reference where it is met, with the shared selectors that are being expanded there. -/
structure Visit where
  chain : List String
  url : String

/-- What a search met, and the shared selectors that it entered. -/
structure Survey where
  visits : List Visit
  entered : List String

/-- What a search met before and after, if it goes on with what was entered. -/
def Survey.andThen (before : Survey) (next : List String → Survey) : Survey :=
  let after := next before.entered
  ⟨before.visits ++ after.visits, after.entered⟩

namespace Document

variable {d : Document} {state : StyleState}

/-- The shared selector that a reference leads to, if this is the first way there. -/
def firstTime? (d : Document) (chain entered : List String) (url : String) :
    Option (String × StyleSelector) :=
  (d.targetId? url).bind fun id =>
    if id ∈ chain ∨ id ∈ entered then none else (d.sharedSelector? id).map (id, ·)

theorem firstTime?_eq_some_iff {chain entered : List String} {url id : String}
    {selector : StyleSelector} : d.firstTime? chain entered url = some (id, selector) ↔
      Text.trim url = "#" ++ id ∧ id ∉ chain ∧ id ∉ entered ∧
        d.sharedSelector? id = some selector := by
  rw [firstTime?, Option.bind_eq_some_iff]
  constructor
  · rintro ⟨own, htarget, h⟩
    split at h
    · cases h
    next hmet =>
    obtain ⟨_, hselector, ⟨⟩⟩ := Option.map_eq_some_iff.1 h
    obtain ⟨hchain, hentered⟩ := not_or.1 hmet
    exact ⟨(targetId?_eq_some_iff.1 htarget).1, hchain, hentered, hselector⟩
  · rintro ⟨htext, hchain, hentered, hselector⟩
    refine ⟨id, targetId?_eq_some_iff.2 ⟨htext, mem_keys_of_sharedSelector? hselector⟩, ?_⟩
    simp [hchain, hentered, hselector]

/-- The search from some references, one after the other. -/
def survey (d : Document) (state : StyleState) (chain entered : List String) :
    List String → Survey
  | [] => ⟨[], entered⟩
  | url :: rest =>
    let below : Survey :=
      match _h : d.firstTime? chain entered url with
      | none => ⟨[], entered⟩
      | some (id, selector) =>
        d.survey state (id :: chain) (entered ++ [id]) (selector.references state)
    Survey.andThen ⟨⟨chain, url⟩ :: below.visits, below.entered⟩ fun entered =>
      d.survey state chain entered rest
termination_by urls => (d.remaining chain, urls.length)
decreasing_by
  · obtain ⟨-, hchain, -, hselector⟩ := firstTime?_eq_some_iff.1 _h
    exact Prod.Lex.left _ _ (remaining_cons_lt hselector hchain)
  · exact Prod.Lex.right _ (Nat.lt_succ_self _)

def surveyOf (d : Document) (state : StyleState) (f : Feature) : Survey :=
  d.survey state [] [] (f.references state)

/-- The word for a reference that contributes nothing: it leads out of the document, back to what is
being expanded, to no object, or to one that is no style selector. -/
def complaint? (d : Document) (visit : Visit) : Option StyleDiagnostic :=
  if (Text.trim visit.url).toList.head? ≠ some '#' then some (.external visit.url)
  else if ∃ id ∈ visit.chain, Text.trim visit.url = "#" ++ id then some (.cycle visit.url)
  else
    match d.targetId? visit.url with
    | none => some (.unresolved visit.url)
    | some id =>
      (d.lookup? id).bind fun target =>
        if target.isA .styleSelector then none else some (.notASelector visit.url target.kind)

/-! ## What the search meets -/

section Search

variable {chain entered : List String} {url id : String} {rest : List String}
  {selector : StyleSelector}

theorem survey_nil : d.survey state chain entered [] = ⟨[], entered⟩ := by
  rw [survey]

theorem survey_cons_none (h : d.firstTime? chain entered url = none) :
    d.survey state chain entered (url :: rest) =
      Survey.andThen ⟨[⟨chain, url⟩], entered⟩ fun entered => d.survey state chain entered rest := by
  rw [survey]
  split
  · rfl
  · next h' =>
    rw [h] at h'
    cases h'

theorem survey_cons_some (h : d.firstTime? chain entered url = some (id, selector)) :
    d.survey state chain entered (url :: rest) =
      let below := d.survey state (id :: chain) (entered ++ [id]) (selector.references state)
      Survey.andThen ⟨⟨chain, url⟩ :: below.visits, below.entered⟩ fun entered =>
        d.survey state chain entered rest := by
  rw [survey]
  split
  · next h' =>
    rw [h] at h'
    cases h'
  · next h' =>
    rw [h] at h'
    cases h'
    rfl

theorem survey_append (urls urls' : List String) : d.survey state chain entered (urls ++ urls') =
    (d.survey state chain entered urls).andThen fun entered => d.survey state chain entered urls' := by
  induction urls generalizing entered with
  | nil => simp [survey_nil, Survey.andThen]
  | cons url rest ih =>
    rw [List.cons_append]
    cases h : d.firstTime? chain entered url with
    | none =>
      rw [survey_cons_none h, survey_cons_none h]
      simp [Survey.andThen, ih]
    | some found =>
      obtain ⟨id, selector⟩ := found
      rw [survey_cons_some h, survey_cons_some h]
      simp [Survey.andThen, ih]

def referencesOf (d : Document) (state : StyleState) (id : String) : List String :=
  (d.sharedSelector? id).elim [] (StyleSelector.references state)

/-- What a search from some references entered, apart from what was entered before: selectors that
were not, each of them once, and all that the references lead to. It met the references that it
started from and those of the selectors that it entered, and no other. -/
structure Explores (d : Document) (state : StyleState) (entered urls : List String) (s : Survey)
    (new : List String) : Prop where
  entered_eq : s.entered = entered ++ new
  nodup : new.Nodup
  fresh : ∀ id ∈ new, id ∉ entered
  reached : ∀ id ∈ new, d.Reached state (· ∈ urls) id
  urls_perm : (s.visits.map Visit.url).Perm (urls ++ new.flatMap (d.referencesOf state))
  followed : ∀ visit ∈ s.visits, d.Followed s.entered visit.url

theorem Reached.mono {start start' : String → Prop} (h : d.Reached state start id)
    (hstart : ∀ url, start url → start' url) : d.Reached state start' id := by
  obtain ⟨url, first, hurl, hid, hshared, hpath⟩ := h
  exact ⟨url, first, hstart url hurl, hid, hshared, hpath⟩

theorem Reached.of_references {start : String → Prop} {inner : String} (hurl : start url)
    (hid : Text.trim url = "#" ++ id) (hselector : d.sharedSelector? id = some selector)
    (h : d.Reached state (· ∈ selector.references state) inner) : d.Reached state start inner := by
  obtain ⟨next, first, hnext, hfirst, hshared, hpath⟩ := h
  have hleads : d.LeadsTo state id first :=
    ⟨hshared, selector, next, hselector, StyleSelector.mem_references.1 hnext, hfirst⟩
  exact ⟨url, id, hurl, hid, ⟨selector, hselector⟩, hpath.head hleads⟩

theorem followed_of_firstTime?_eq_none (h : d.firstTime? chain entered url = none)
    (hchain : chain ⊆ entered) : d.Followed entered url := by
  intro id selector hid hselector
  apply Classical.byContradiction
  intro hentered
  have hfound : d.firstTime? chain entered url = some (id, selector) :=
    firstTime?_eq_some_iff.2 ⟨hid, fun hmem => hentered (hchain hmem), hentered, hselector⟩
  rw [h] at hfound
  cases hfound

theorem Explores.nil : d.Explores state entered [] ⟨[], entered⟩ [] where
  entered_eq := (List.append_nil entered).symm
  nodup := .nil
  fresh := by simp
  reached := by simp
  urls_perm := .refl _
  followed := by simp

theorem Explores.cons_none {s : Survey} {new : List String}
    (hurl : d.Followed entered url) (h : d.Explores state entered rest s new) :
    d.Explores state entered (url :: rest) (Survey.andThen ⟨[⟨chain, url⟩], entered⟩ fun _ => s)
      new where
  entered_eq := h.entered_eq
  nodup := h.nodup
  fresh := h.fresh
  reached := fun id hid => (h.reached id hid).mono fun _ => List.mem_cons_of_mem _
  urls_perm := h.urls_perm.cons url
  followed := by
    intro visit hvisit
    change d.Followed s.entered visit.url
    rcases List.mem_cons.1 hvisit with rfl | hvisit
    · rw [h.entered_eq]
      exact hurl.mono (List.subset_append_left _ _)
    · exact h.followed visit hvisit

theorem Explores.cons_some {below after : Survey} {newBelow newAfter : List String}
    (hid : Text.trim url = "#" ++ id) (hentered : id ∉ entered)
    (hselector : d.sharedSelector? id = some selector)
    (hbelow : d.Explores state (entered ++ [id]) (selector.references state) below newBelow)
    (hafter : d.Explores state below.entered rest after newAfter) :
    d.Explores state entered (url :: rest)
      (Survey.andThen ⟨⟨chain, url⟩ :: below.visits, below.entered⟩ fun _ => after)
      (id :: newBelow ++ newAfter) where
  entered_eq := by
    change after.entered = _
    rw [hafter.entered_eq, hbelow.entered_eq]
    simp
  nodup := by
    refine List.nodup_append.2 ⟨List.nodup_cons.2 ⟨fun hmem => ?_, hbelow.nodup⟩, hafter.nodup, ?_⟩
    · exact hbelow.fresh id hmem (by simp)
    · intro own hown own' hown' heq
      refine hafter.fresh own' hown' ?_
      rw [hbelow.entered_eq, ← heq, List.append_assoc]
      exact List.mem_append_right _ hown
  fresh := by
    intro own hown hmem
    rcases List.mem_append.1 hown with hown | hown
    · rcases List.mem_cons.1 hown with rfl | hown
      · exact hentered hmem
      · exact hbelow.fresh own hown (List.mem_append_left _ hmem)
    · refine hafter.fresh own hown ?_
      rw [hbelow.entered_eq]
      exact List.mem_append_left _ (List.mem_append_left _ hmem)
  reached := by
    have hurl : url ∈ url :: rest := List.mem_cons_self
    intro own hown
    rcases List.mem_append.1 hown with hown | hown
    · rcases List.mem_cons.1 hown with rfl | hown
      · exact ⟨url, own, hurl, hid, ⟨selector, hselector⟩, .refl⟩
      · exact .of_references hurl hid hselector (hbelow.reached own hown)
    · exact (hafter.reached own hown).mono fun _ => List.mem_cons_of_mem _
  urls_perm := by
    have hreferences : d.referencesOf state id = selector.references state := by
      rw [referencesOf, hselector]
      rfl
    simp only [Survey.andThen, List.map_append, List.map_cons, List.cons_append,
      List.flatMap_append, List.flatMap_cons, hreferences]
    refine List.Perm.cons url ((hbelow.urls_perm.append hafter.urls_perm).trans ?_)
    -- the references that are left over stand before those that were met in between
    rw [← List.append_assoc, ← List.append_assoc, ← List.append_assoc]
    refine List.Perm.append_right _ ?_
    rw [List.append_assoc rest]
    exact List.perm_append_comm
  followed := by
    have hsub : below.entered ⊆ after.entered := by
      rw [hafter.entered_eq]
      exact List.subset_append_left _ _
    intro visit hvisit
    change d.Followed after.entered visit.url
    rcases List.mem_append.1 hvisit with hvisit | hvisit
    · rcases List.mem_cons.1 hvisit with rfl | hvisit
      · intro own selector' hown _
        obtain rfl : id = own := id_unique hid hown
        refine hsub ?_
        rw [hbelow.entered_eq]
        simp
      · exact (hbelow.followed visit hvisit).mono hsub
    · exact hafter.followed visit hvisit

/-- What is on the chain was entered before, so a search explores all that its references reach. -/
theorem explores_survey (chain entered urls : List String) (hchain : chain ⊆ entered) :
    ∃ new, d.Explores state entered urls (d.survey state chain entered urls) new := by
  match urls with
  | [] => exact ⟨[], survey_nil ▸ .nil⟩
  | url :: rest =>
    cases h : d.firstTime? chain entered url with
    | none =>
      obtain ⟨new, hnew⟩ := explores_survey chain entered rest hchain
      rw [survey_cons_none h]
      exact ⟨new, hnew.cons_none (followed_of_firstTime?_eq_none h hchain)⟩
    | some found =>
      obtain ⟨id, selector⟩ := found
      obtain ⟨hid, hoff, hentered, hselector⟩ := firstTime?_eq_some_iff.1 h
      have hlt := remaining_cons_lt hselector hoff
      have hbelow : id :: chain ⊆ entered ++ [id] := by
        intro own hown
        rcases List.mem_cons.1 hown with rfl | hown
        · exact List.mem_append_right _ List.mem_cons_self
        · exact List.mem_append_left _ (hchain hown)
      obtain ⟨newBelow, hnewBelow⟩ := explores_survey _ _ (selector.references state) hbelow
      have hafter : chain ⊆
          (d.survey state (id :: chain) (entered ++ [id]) (selector.references state)).entered := by
        rw [hnewBelow.entered_eq]
        exact fun own hown => List.mem_append_left _ (List.mem_append_left _ (hchain hown))
      obtain ⟨newAfter, hnewAfter⟩ := explores_survey _ _ rest hafter
      rw [survey_cons_some h]
      exact ⟨_, .cons_some hid hentered hselector hnewBelow hnewAfter⟩
termination_by (d.remaining chain, urls.length)

theorem Explores.mem_iff {urls new : List String} {s : Survey}
    (h : d.Explores state [] urls s new) : id ∈ new ↔ d.Reached state (· ∈ urls) id := by
  refine ⟨h.reached id, ?_⟩
  have hentered : s.entered = new := h.entered_eq
  have hmet {url own : String} (hurl : url ∈ urls ++ new.flatMap (d.referencesOf state))
      (hown : Text.trim url = "#" ++ own) (hshared : d.IsShared own) : own ∈ new := by
    obtain ⟨selector, hselector⟩ := hshared
    obtain ⟨visit, hvisit, rfl⟩ := List.mem_map.1 (h.urls_perm.mem_iff.2 hurl)
    exact hentered ▸ h.followed visit hvisit own selector hown hselector
  rintro ⟨url, first, hurl, hfirst, hshared, hpath⟩
  induction hpath with
  | refl => exact hmet (List.mem_append_left _ hurl) hfirst hshared
  | @tail before _ _ hstep ih =>
    obtain ⟨hshared, selector, url, hselector, hrefers, hid⟩ := hstep
    refine hmet (List.mem_append_right _ (List.mem_flatMap.2 ⟨before, ih, ?_⟩)) hid hshared
    rw [referencesOf, hselector]
    exact StyleSelector.mem_references.2 hrefers

end Search

end Document

end KmlTree
