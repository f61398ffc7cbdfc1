import KmlTree.Proofs.Reading.Opened

/-!
# Reading a tree again

The events that a conforming tree is spelled with are read as the tree, unless an identifier is
declared while it is taken. Main statement: whether one is can be told from the tree alone.
-/
namespace KmlTree

open Builder (prefixesOf nameIn)

namespace Element

/-- The name of no element directly below a known one would be read without its prefix, given the
prefixes declared around the tree. -/
inductive Unprefixed : List (List (String × Bool)) → Element → Prop
  | intro {scope : List (List (String × Bool))} {e : Element}
      (self : e.kind ≠ .unknown → ∀ u ∈ e.unknown, u.kind = .unknown →
        nameIn (prefixesOf u :: prefixesOf e :: scope) u.name = u.name)
      (nodes : ∀ n ∈ e.nodes, Unprefixed (prefixesOf e :: scope) n) : Unprefixed scope e

/-- An element while its parts are read: some blank text may have been added, and some of its parts
are there. -/
def upTo (e : Element) (blank : List Char) (children : List Child) (unknown : List Element) :
    Element :=
  ⟨{ e.toHead with text := e.text ++ String.ofList blank }, children, unknown⟩

variable {e : Element} {blank : List Char} {children : List Child} {unknown : List Element}

theorem ids_upTo_append (c : Child) :
    (e.upTo blank (children ++ [c]) unknown).ids = (e.upTo blank children unknown).ids ++ c.ids := by
  have happend := (e.upTo blank children unknown).declared_append c
  have hlift := map_fst_lift children.length c.declared
  rw [ids, ids, Child.ids, ← hlift, ← List.map_append]
  exact congrArg (List.map Prod.fst) happend

theorem ids_upTo_children : (e.upTo blank e.children unknown).ids = e.ids :=
  congrArg (List.map Prod.fst) (declared_congr rfl rfl rfl)

theorem ids_upTo_nil : (e.upTo blank [] unknown).ids = e.bare.ids :=
  congrArg (List.map Prod.fst) (declared_congr rfl rfl rfl)

theorem trim_append_blank (s : String) (hblank : ∀ c ∈ blank, Text.isBlank c) :
    Text.trim (s ++ String.ofList blank) = Text.trim s := by
  rw [Text.trim, String.toList_append, String.toList_ofList, Text.trimChars_append_blank hblank]
  rfl

/-- A complete element has lost the blank text at its ends. -/
theorem Conforms.complete_upTo (h : Conforms e) (hblank : ∀ c ∈ blank, Text.isBlank c)
    (hnone : e.nodes = [] → blank = []) :
    Builder.complete (e.upTo blank e.children e.unknown) = e := by
  unfold Builder.complete
  split
  · next hempty =>
    have hnodes : e.nodes = [] := nodes_eq_nil_iff.2 (by simpa [upTo] using hempty)
    rw [hnone hnodes]
    cases e
    simp [upTo]
  · next hempty =>
    have hnodes : e.nodes ≠ [] := fun hnil => hempty (by simpa [upTo] using nodes_eq_nil_iff.1 hnil)
    have htrim : Text.trim (e.text ++ String.ofList blank) = e.text :=
      (trim_append_blank e.text hblank).trans (h.trimmed hnodes)
    cases e
    simp only [upTo, htrim]

end Element

namespace Builder

open Element Markup

/-! ## Between the tags -/

section Between

variable {b₀ b : Builder} {e : Element} {blank : List Char} {children : List Child}
  {unknown : List Element}

theorem Inside.mem_listed {x : Element} (h : Inside b₀ x b) (hroot : b₀.root? = none) (id : String) :
    id ∈ b.listed ↔ id ∈ b₀.listed ∨ id ∈ x.ids := by
  obtain ⟨frame, hs, hx, -⟩ := h.frame
  have hlists := (h.sound.frames frame (by simp [hs])).ids_perm.map Prod.fst
  have hids : id ∈ frame.ids.map Prod.fst ↔ id ∈ x.ids := by
    rw [hlists.mem_iff, hx]
    rfl
  simp only [listed, hs, h.noRoot, hroot, List.flatMap_cons, List.mem_append, hids]
  simp only [Option.map_none, Option.getD_none, List.map_nil, List.not_mem_nil, or_false]
  exact or_comm

theorem isSimple_of_mem_nodes (he : Fitting e) {n : Element} (hmem : n ∈ e.nodes) :
    e.kind.isSimple = false := by
  cases hsimple : e.kind.isSimple with
  | false => rfl
  | true =>
    rw [he.simple hsimple] at hmem
    cases hmem

theorem ofName_tag {n : Element} (hn : Fitting n) (hkind : n.kind ≠ .unknown) :
    Element.ofName n.kind.tag = ⟨{ kind := n.kind, writtenName? := n.writtenName? }, [], []⟩ := by
  obtain ⟨hname, hconcrete⟩ := hn.known hkind
  rw [Element.ofName, Kind.ofTag_tag hconcrete, hname]
  split
  · next heq => exact absurd heq hkind
  · rfl

theorem nameIn_tag (scope : List (List (String × Bool))) (k : Kind) : nameIn scope k.tag = k.tag := by
  rw [nameIn, splitPrefix?_tag]

theorem ofName_part (he : Fitting e) {n : Element} (hn : Fitting n) (hmem : n ∈ e.nodes)
    {scope : List (List (String × Bool))}
    (hname : e.kind ≠ .unknown → n.kind = .unknown → nameIn scope n.name = n.name) :
    (if e.kind = .unknown then Element.unnamed n.name
      else Element.ofName (nameIn scope n.name)) =
        ⟨{ kind := n.kind, writtenName? := n.writtenName? }, [], []⟩ := by
  have hunnamed (hkind : n.kind = .unknown) : Element.unnamed n.name =
      ⟨{ kind := n.kind, writtenName? := n.writtenName? }, [], []⟩ := by
    rw [Element.unnamed, hkind, hn.name_of_unknown hkind]
  rcases List.mem_append.1 hmem with hchild | hunknown
  · obtain ⟨c, hc, rfl⟩ := List.mem_map.1 hchild
    have hknown : e.kind ≠ .unknown := by
      intro heq
      rw [(he.unnamed heq).2.1] at hc
      cases hc
    have hkind : c.node.kind ≠ .unknown := by
      rw [Child.kind_node]
      exact (he.placed c hc).1
    rw [if_neg hknown, hn.name_of_known hkind, nameIn_tag]
    exact ofName_tag hn hkind
  · by_cases hkind : e.kind = .unknown
    · rw [if_pos hkind]
      exact hunnamed ((he.unnamed hkind).2.2 n hunknown)
    · rw [if_neg hkind]
      rcases he.kept hkind n hunknown with ⟨hnkind, htag⟩ | ⟨hnkind, -⟩
      · rw [hname hkind hnkind, Element.ofName, htag]
        exact hunnamed hnkind
      · rw [hn.name_of_known hnkind, nameIn_tag]
        exact ofName_tag hn hnkind

theorem Inside.ready (h : Inside b₀ (e.upTo blank children unknown) b) (he : Fitting e) {n : Element}
    (hn : Fitting n) (hmem : n ∈ e.nodes) (hdepth : b₀.stack.length + 1 < b₀.options.maxDepth)
    (hname : e.kind ≠ .unknown → n.kind = .unknown →
      nameIn (prefixesOf n :: prefixesOf e :: b₀.stack.map Frame.prefixes) n.name = n.name) :
    Ready b n := by
  obtain ⟨frame, hs, hx, hskip, -, hprefixes⟩ := h.frame
  have hkind : frame.element.kind = e.kind := by
    rw [hx]
    rfl
  have hscope : frame.prefixes = prefixesOf e := hprefixes
  have hsimple : e.kind.isSimple = false := isSimple_of_mem_nodes he hmem
  refine ⟨h.sound, h.noRoot, h.notDropped, ?_, ?_, ?_, ?_⟩
  · rw [hs]
    rintro _ ⟨⟩
    exact ⟨hskip, hkind ▸ hsimple⟩
  · intro hnil
    rw [hs] at hnil
    cases hnil
  · rw [hs, h.options_eq]
    exact hdepth
  · rw [hs]
    simp only [elementFor, hkind, List.map_cons, hscope]
    exact ofName_part he hn hmem hname

/-- Blank text that may have been read in an element: there is none where there are no parts. -/
structure Padding (e : Element) (blank : List Char) : Prop where
  isBlank : ∀ c ∈ blank, Text.isBlank c
  none : e.nodes = [] → blank = []

theorem padding_nil (e : Element) : Padding e [] := ⟨by simp, fun _ => rfl⟩

theorem Inside.texts (h : Inside b₀ e.bare b) (he : Fitting e) (hblank : Padding e blank)
    {texts : List Event} (htexts : Texts (e.text ++ String.ofList blank) texts) :
    Yields (texts.foldlM next b) True
      fun b' => ∃ blank', Padding e blank' ∧ Inside b₀ (e.upTo blank' [] []) b' := by
  refine (foldlM_texts htexts h).imp Iff.rfl fun b' hb' => ?_
  unfold takeText at hb'
  split at hb'
  · refine ⟨blank, hblank, ?_⟩
    have htext : e.bare.appendText (e.text ++ String.ofList blank) = e.upTo blank [] [] := by
      simp [bare, appendText, upTo]
    rwa [htext] at hb'
  · next hkind =>
    simp only [bare, not_or, Bool.not_eq_true] at hkind
    have htext : e.bare = e.upTo [] [] [] := by
      simp [bare, upTo, he.text hkind.1 hkind.2]
    exact ⟨[], padding_nil e, htext ▸ hb'⟩

theorem Inside.padded (h : Inside b₀ (e.upTo blank children unknown) b) (hblank : Padding e blank)
    (hnodes : e.nodes ≠ []) {added : List Char} (hadded : ∀ c ∈ added, Text.isBlank c)
    {texts : List Event} (htexts : Texts (String.ofList added) texts) :
    Yields (texts.foldlM next b) True
      fun b' => ∃ blank', Padding e blank' ∧ Inside b₀ (e.upTo blank' children unknown) b' := by
  refine (foldlM_texts htexts h).imp Iff.rfl fun b' hb' => ?_
  unfold takeText at hb'
  split at hb'
  · have htext : (e.upTo blank children unknown).appendText (String.ofList added) =
        e.upTo (blank ++ added) children unknown := by
      simp [appendText, upTo, String.ofList_append, String.append_assoc]
    rw [htext] at hb'
    refine ⟨blank ++ added, ⟨?_, fun hnil => absurd hnil hnodes⟩, hb'⟩
    intro c hc
    exact (List.mem_append.1 hc).elim (hblank.isBlank c) (hadded c)
  · exact ⟨blank, hblank, hb'⟩

theorem neat_element (f : Field) : f.element.Neat :=
  .intro (by simp [Field.element]) (by simp [Field.element, elements]) (by simp [Field.element])

theorem neat_of_child {c : Child} (h : (e.upTo blank (children ++ [c]) unknown).Neat) :
    (e.upTo blank children unknown).Neat ∧ c.node.Neat := by
  have hself : e.kind ≠ .unknown → ∀ u ∈ unknown, u.kind = .unknown := h.self
  have hunknown : ∀ u ∈ unknown, u.Neat := h.unknown
  have hknown : ∀ d ∈ (children ++ [c]).filterMap Child.element?, d.Neat := h.known
  rw [List.filterMap_append] at hknown
  refine ⟨.intro hself (fun d hd => hknown d (List.mem_append_left _ hd)) hunknown, ?_⟩
  cases c with
  | field slot f => exact neat_element f
  | element slot d => exact hknown d (List.mem_append_right _ (by simp [Child.element?]))

theorem neat_of_unknown {u : Element} (h : (e.upTo blank children (unknown ++ [u])).Neat) :
    (e.upTo blank children unknown).Neat ∧ u.Neat ∧ (e.kind ≠ .unknown → u.kind = .unknown) := by
  have hself : e.kind ≠ .unknown → ∀ v ∈ unknown ++ [u], v.kind = .unknown := h.self
  have hunknown : ∀ v ∈ unknown ++ [u], v.Neat := h.unknown
  exact ⟨.intro (fun hkind v hv => hself hkind v (List.mem_append_left _ hv)) h.known
      fun v hv => hunknown v (List.mem_append_left _ hv),
    hunknown u (by simp), fun hkind => hself hkind u (by simp)⟩

theorem neat_complete {x : Element} : (complete x).Neat ↔ x.Neat := by
  obtain ⟨hkind, -, hchildren⟩ := complete_congr x
  refine neat_congr hkind hchildren ?_
  unfold complete
  split <;> rfl

end Between

/-! ## The whole tree -/

/-- A tree can be read again with a builder. -/
structure Rereads (b : Builder) (e : Element) : Prop extends Ready b e where
  conforms : e.Every Conforms
  nests : ∃ room, e.NestsWithin room ∧ b.stack.length + room ≤ b.options.maxDepth
  unprefixed : e.Unprefixed (b.stack.map Frame.prefixes)
  lenient : b.options.strict = true → e.Neat

/-- A tree is read up to its end tag just when its identifiers fit. -/
def Reopens (e : Element) : Prop :=
  ∀ (b : Builder) (taken : List String) (span : Text.Span) (blank : List Char)
    (texts inner : List Event), Rereads b e → (∀ id, id ∈ b.listed ↔ id ∈ taken) →
      Padding e blank → Texts (e.text ++ String.ofList blank) texts → SpellsAll e.nodes inner →
        Yields ((.startTag e.name e.storedAttributes span :: (texts ++ inner)).foldlM next b)
          (e.fits taken = true) fun b' => ∃ x, Inside b x b' ∧ complete x = e

section Parts

variable {b₀ b : Builder} {e : Element} {blank : List Char} {events : List Event}
  {taken : List String}

theorem Rereads.part (h₀ : Rereads b₀ e) {children : List Child} {unknown : List Element}
    (h : Inside b₀ (e.upTo blank children unknown) b) {n : Element} (hmem : n ∈ e.nodes)
    (hneat : b₀.options.strict = true → n.Neat) : Rereads b n := by
  obtain ⟨room, hnests, hroom⟩ := h₀.nests
  cases hnests with
  | @intro room _ hnests =>
  have hn := hnests n hmem
  have hpos : 0 < room := hn.pos
  have hscope := h₀.unprefixed
  cases hscope with
  | intro hself hscope =>
  obtain ⟨frame, hs, -, -, -, hprefixes⟩ := h.frame
  have hframe : frame.prefixes = prefixesOf e := hprefixes
  have hfitting := (h₀.conforms.nodes n hmem).self.toFitting
  refine ⟨h.ready h₀.conforms.self.toFitting hfitting hmem (by omega) ?_, h₀.conforms.nodes n hmem,
    ⟨room, hn, ?_⟩, ?_, ?_⟩
  · intro hkind hnkind
    rcases List.mem_append.1 hmem with hchild | hunknown
    · obtain ⟨c, hc, rfl⟩ := List.mem_map.1 hchild
      rw [Child.kind_node] at hnkind
      exact absurd hnkind (h₀.conforms.self.placed c hc).1
    · exact hself hkind n hunknown hnkind
  · rw [hs, h.options_eq, List.length_cons]
    omega
  · rw [hs, List.map_cons, hframe]
    exact hscope n hmem
  · rw [h.options_eq]
    exact hneat

theorem Rereads.child (h₀ : Rereads b₀ e) {before after : List Child} {c : Child}
    (h : Inside b₀ (e.upTo blank before []) b) (hchildren : e.children = before ++ c :: after)
    (ih : Reopens c.node) (htaken : ∀ id, id ∈ b.listed ↔ id ∈ taken)
    (hspells : Spells c.node events) :
    Yields (events.foldlM next b) (c.node.fits taken = true)
      (Inside b₀ (e.upTo blank (before ++ [c]) [])) := by
  have hmem : c ∈ e.children := by simp [hchildren]
  have hnode : c.node ∈ e.nodes := List.mem_append_left _ (List.mem_map_of_mem hmem)
  have hneat (hstrict : b₀.options.strict = true) : c.node.Neat := by
    have he := h₀.lenient hstrict
    cases c with
    | field slot f => exact neat_element f
    | element slot d => exact he.known d (List.mem_filterMap.2 ⟨_, hmem, rfl⟩)
  have hrereads := h₀.part h hnode hneat
  cases hspells with
  | @intro _ span span' bl texts inner hbl hnone htexts hinner =>
  rw [← List.append_assoc, ← List.cons_append, ← and_true (c.node.fits taken = true)]
  refine yields_append (ih b taken span bl texts inner hrereads htaken ⟨hbl, hnone⟩ htexts hinner)
    fun b' hb' => ?_
  obtain ⟨x, hx, hcomplete⟩ := hb'
  have hattach := h₀.conforms.self.toFitting.attach_child
    (e.upTo blank before []) rfl rfl hchildren
  rw [foldlM_next_singleton]
  refine next_endTag_attached h hx hcomplete hattach ?_ ?_ span'
  · intro hsimple
    cases c with
    | field slot f => exact ⟨rfl, rfl⟩
    | element slot d =>
      have hnot : d.kind.isSimple = false := isSimple_of_toChild (h₀.conforms.self.node _ hmem)
      exact absurd hsimple (by simp [Child.node, hnot])
  · intro hneat'
    obtain ⟨hbefore, hc⟩ := neat_of_child hneat'
    exact ⟨hbefore, neat_complete.1 (hcomplete ▸ hc)⟩

/-- A part that the schema does not know, or has no place for, is read and kept as such. -/
theorem Rereads.unknown (h₀ : Rereads b₀ e) {before : List Element} {u : Element}
    (h : Inside b₀ (e.upTo blank e.children before) b) (hu : u ∈ e.unknown)
    (ih : Reopens u) (htaken : ∀ id, id ∈ b.listed ↔ id ∈ taken) (hspells : Spells u events) :
    Yields (events.foldlM next b) (u.fits taken = true)
      (Inside b₀ (e.upTo blank e.children (before ++ [u]))) := by
  have hrereads := h₀.part h (List.mem_append_right _ hu)
    fun hstrict => (h₀.lenient hstrict).unknown u hu
  cases hspells with
  | @intro _ span span' bl texts inner hbl hnone htexts hinner =>
  rw [← List.append_assoc, ← List.cons_append, ← and_true (u.fits taken = true)]
  refine yields_append (ih b taken span bl texts inner hrereads htaken ⟨hbl, hnone⟩ htexts hinner)
    fun b' hb' => ?_
  obtain ⟨x, hx, hcomplete⟩ := hb'
  rw [foldlM_next_singleton]
  have hfiled (hunknown : e.kind = .unknown ∨ u.kind = .unknown) :
      (e.upTo blank e.children before).attach u =
        .ok ⟨(e.upTo blank e.children before).addUnknown u, none, none⟩ := by
    rw [attach, if_pos]
    exact hunknown
  refine next_endTag_unknown h hx hcomplete ?_ ?_ span'
  · by_cases hkind : e.kind = .unknown
    · exact Or.inl (hfiled (Or.inl hkind))
    · rcases h₀.conforms.self.kept hkind u hu with ⟨hukind, -⟩ | ⟨hukind, hslot⟩
      · exact Or.inl (hfiled (Or.inr hukind))
      · refine Or.inr ⟨attach_eq_error_iff.2 ⟨hkind, hukind, hslot, rfl⟩, ?_⟩
        cases hstrict : b₀.options.strict with
        | false => rfl
        | true => exact absurd ((h₀.lenient hstrict).self hkind u hu) hukind
  · intro hneat
    obtain ⟨hbefore, hneatu, hkind⟩ := neat_of_unknown hneat
    refine ⟨hbefore, neat_complete.1 (hcomplete ▸ hneatu), hfiled ?_⟩
    exact Classical.or_iff_not_imp_left.2 hkind

theorem Rereads.children (h₀ : Rereads b₀ e) (ih : ∀ n ∈ e.nodes, Reopens n)
    (htaken : ∀ id, id ∈ b₀.listed ↔ id ∈ taken) {before after : List Child}
    (hchildren : e.children = before ++ after) (hblank : Padding e blank)
    (h : Inside b₀ (e.upTo blank before []) b) (hspells : SpellsAll (after.map Child.node) events) :
    Yields (events.foldlM next b)
      (fitChildren (taken ++ (e.upTo [] before []).ids) after = true)
      fun b' => ∃ blank', Padding e blank' ∧ Inside b₀ (e.upTo blank' e.children []) b' := by
  induction after generalizing before blank b events with
  | nil =>
    cases hspells
    rw [List.append_nil] at hchildren
    rw [hchildren]
    exact (Yields.ok ⟨blank, hblank, h⟩).imp (by simp [fitChildren]) fun _ h => h
  | cons c after ihAfter =>
    cases hspells with
    | @cons _ _ bl first texts rest hfirst hbl htexts hrest =>
    have hmem : c ∈ e.children := by simp [hchildren]
    have hnode : c.node ∈ e.nodes := List.mem_append_left _ (List.mem_map_of_mem hmem)
    have htakenNow : ∀ id, id ∈ b.listed ↔ id ∈ taken ++ (e.upTo [] before []).ids := by
      intro id
      rw [h.mem_listed h₀.noRoot, htaken, List.mem_append]
      rfl
    have hids : (e.upTo [] (before ++ [c]) []).ids = (e.upTo [] before []).ids ++ c.ids :=
      ids_upTo_append c
    rw [fitChildren_cons, Bool.and_eq_true, List.append_assoc, ← hids,
      ← true_and (fitChildren _ after = true)]
    refine yields_append (h₀.child h hchildren (ih _ hnode) htakenNow hfirst) fun b₁ hb₁ =>
      yields_append (hb₁.padded hblank (List.ne_nil_of_mem hnode) hbl htexts) fun b₂ hb₂ => ?_
    obtain ⟨blank', hblank', hinside⟩ := hb₂
    exact ihAfter (by simpa using hchildren) hblank' hinside hrest

theorem Rereads.unknowns (h₀ : Rereads b₀ e) (ih : ∀ n ∈ e.nodes, Reopens n)
    (htaken : ∀ id, id ∈ b₀.listed ↔ id ∈ taken) {before after : List Element}
    (hunknown : e.unknown = before ++ after) (hblank : Padding e blank)
    (h : Inside b₀ (e.upTo blank e.children before) b) (hspells : SpellsAll after events) :
    Yields (events.foldlM next b) (fitAll (taken ++ e.ids) after = true)
      fun b' => ∃ blank', Padding e blank' ∧ Inside b₀ (e.upTo blank' e.children e.unknown) b' := by
  induction after generalizing before blank b events with
  | nil =>
    cases hspells
    rw [List.append_nil] at hunknown
    rw [hunknown]
    exact (Yields.ok ⟨blank, hblank, h⟩).imp (by simp [fitAll]) fun _ h => h
  | cons u after ihAfter =>
    cases hspells with
    | @cons _ _ bl first texts rest hfirst hbl htexts hrest =>
    have hmem : u ∈ e.unknown := by simp [hunknown]
    have hnode : u ∈ e.nodes := List.mem_append_right _ hmem
    have htakenNow : ∀ id, id ∈ b.listed ↔ id ∈ taken ++ e.ids := by
      intro id
      rw [h.mem_listed h₀.noRoot, htaken, ids_upTo_children, List.mem_append]
    rw [fitAll, Bool.and_eq_true, ← true_and (fitAll _ after = true)]
    refine yields_append (h₀.unknown h hmem (ih _ hnode) htakenNow hfirst) fun b₁ hb₁ =>
      yields_append (hb₁.padded hblank (List.ne_nil_of_mem hnode) hbl htexts) fun b₂ hb₂ => ?_
    obtain ⟨blank', hblank', hinside⟩ := hb₂
    exact ihAfter (by simpa using hunknown) hblank' hinside hrest

end Parts

theorem SpellsAll.append_cases {ns ms : List Element} {events : List Event}
    (h : SpellsAll (ns ++ ms) events) :
    ∃ first second, events = first ++ second ∧ SpellsAll ns first ∧ SpellsAll ms second := by
  induction ns generalizing events with
  | nil => exact ⟨[], events, rfl, .nil, h⟩
  | cons n ns ih =>
    cases h with
    | @cons _ _ bl first texts rest hfirst hbl htexts hrest =>
    obtain ⟨second, third, rfl, hsecond, hthird⟩ := ih hrest
    exact ⟨first ++ (texts ++ second), third, by simp, .cons hfirst hbl htexts hsecond, hthird⟩

/-- Every tree is read up to its end tag just when its identifiers fit. -/
theorem reopens (e : Element) : Reopens e := by
  induction e using Element.inductionOnNodes with
  | step e ih =>
  intro b taken span blank texts inner h₀ htaken hblank htexts hinner
  have hfitting := h₀.conforms.self.toFitting
  obtain ⟨first, second, rfl, hchildren, hunknown⟩ := SpellsAll.append_cases hinner
  have hown : (∀ id ∈ e.objectId?, id ∉ b.listed) ↔
      e.objectId?.all (fun id => !taken.contains id) = true := by
    cases e.objectId? with
    | none => simp
    | some id => simp [htaken]
  rw [e.fits_eq, Bool.and_eq_true, Bool.and_eq_true, ← hown, List.foldlM_cons]
  refine (next_startTag h₀.toReady hfitting span).bind fun b₁ hb₁ => ?_
  rw [← true_and (_ ∧ _)]
  refine yields_append (hb₁.texts hfitting hblank htexts) fun b₂ hb₂ => ?_
  obtain ⟨blank', hblank', hb₂⟩ := hb₂
  have hids : e.bare.ids = (e.upTo [] [] []).ids := ids_upTo_nil.symm
  rw [hids]
  refine yields_append (h₀.children ih htaken (List.nil_append _).symm hblank' hb₂ hchildren)
    fun b₃ hb₃ => ?_
  obtain ⟨blank₃, hblank₃, hb₃⟩ := hb₃
  refine (h₀.unknowns ih htaken (List.nil_append _).symm hblank₃ hb₃ hunknown).imp Iff.rfl
    fun b₄ hb₄ => ?_
  obtain ⟨blank₄, hblank₄, hb₄⟩ := hb₄
  exact ⟨_, hb₄, h₀.conforms.self.complete_upTo hblank₄.isBlank hblank₄.none⟩

end Builder

end KmlTree
