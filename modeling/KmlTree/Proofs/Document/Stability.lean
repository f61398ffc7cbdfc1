import KmlTree.Proofs.Document.RoundTrip

/-!
# Texts that are written again

A document that was read is written with its parts in the order of the schema, and what was out of
place comes last. Main statement: reading this text and writing it again gives the text, unless an
identifier that was declared out of place is taken when it comes.
-/
namespace KmlTree

open Markup

namespace Element

variable {e : Element}

theorem Legible.arrange (h : Legible e) : Legible e.arrange where
  name := by
    rw [kind_arrange, name_arrange]
    exact h.name
  keys := by
    rw [otherAttributes_arrange]
    exact h.keys

theorem NestsWithin.arrange {room : Nat} (h : e.NestsWithin room) :
    e.arrange.NestsWithin room := by
  induction h with
  | intro _ ih =>
    refine .intro fun n hn => ?_
    obtain ⟨m, hm, rfl⟩ := mem_nodes_arrange.1 hn
    exact ih m hm

theorem prefixesOf_arrange (e : Element) : Builder.prefixesOf e.arrange = Builder.prefixesOf e := by
  rw [Builder.prefixesOf, otherAttributes_arrange, Builder.prefixesOf]

/-- Whether prefixes are lost does not depend on the order of the tree. -/
theorem unprefixed_arrange_iff {scope : List (List (String × Bool))} :
    e.arrange.Unprefixed scope ↔ e.Unprefixed scope := by
  constructor
  · intro h
    induction e using inductionOnNodes generalizing scope with
    | step e ih =>
    cases h with
    | intro self nodes =>
    rw [kind_arrange, unknown_arrange, prefixesOf_arrange] at self
    rw [prefixesOf_arrange] at nodes
    refine .intro (fun hkind u hu hunknown => ?_) fun n hn => ?_
    · have hself := self hkind u.arrange (List.mem_map_of_mem hu) (by rwa [kind_arrange])
      rwa [prefixesOf_arrange, name_arrange] at hself
    · exact ih n hn (nodes n.arrange (mem_nodes_arrange.2 ⟨n, hn, rfl⟩))
  · intro h
    induction h with
    | @intro scope e self _ ih =>
      refine .intro ?_ fun n hn => ?_
      · rw [kind_arrange, unknown_arrange, prefixesOf_arrange]
        intro hkind u hu
        obtain ⟨v, hv, rfl⟩ := List.mem_map.1 hu
        rw [kind_arrange, prefixesOf_arrange, name_arrange]
        exact self hkind v hv
      · obtain ⟨m, hm, rfl⟩ := mem_nodes_arrange.1 hn
        rw [prefixesOf_arrange]
        exact ih m hm

end Element

namespace Document

open Element

variable {source : String} {d : Document} {root : Element}

theorem conforms_of_parse {options : ReadOptions} (h : parse source options = .ok d)
    (hroot : d.root? = some root) : root.Every Conforms ∧ root.NestsWithin options.maxDepth ∧
      root.kind ≠ .unknown ∧ root.kind.isSimple = false := by
  have hread : (read options ([] : List (Observer Unit)) source).run () = (.ok d, ()) :=
    Prod.ext h rfl
  obtain ⟨root', hroot', hconforms⟩ := conforms_of_read hread
  rw [hroot] at hroot'
  cases hroot'
  exact hconforms

/-- The names in what was read are read back when it is written in the order of the schema. -/
theorem readsBack_arrange (h : parse source {} = .ok d) (hroot : d.root? = some root)
    (hlegible : root.All Legible) :
    root.arrange.Every Conforms ∧ root.arrange.Every ReadsBack := by
  have hconforms := (conforms_of_parse h hroot).1.arrange fun _ he => he.arrange
  have hnames : root.arrange.All Legible := hlegible.arrange fun _ he => he.arrange
  exact ⟨hconforms, every_readsBack hconforms.all hnames⟩

theorem writable_arrange (h : parse source {} = .ok d) (hroot : d.root? = some root)
    (hlegible : root.All Legible) (hunprefixed : root.Unprefixed []) :
    root.arrange.Writable {} := by
  obtain ⟨-, hnests, hkind, hsimple⟩ := conforms_of_parse h hroot
  obtain ⟨hconforms, hreads⟩ := readsBack_arrange h hroot hlegible
  refine ⟨hconforms, hreads, ?_, ?_, hnests.arrange, unprefixed_arrange_iff.2 hunprefixed,
    fun hstrict => by cases hstrict⟩
  · rwa [kind_arrange]
  · rwa [kind_arrange]

theorem render_of_root (hroot : d.root? = some root) (options : RenderOptions) :
    d.render options = .ok (root.arrange.written { options with declaration := true }) := by
  rw [render, hroot]
  exact render_eq root _

/-- A text that is written again as it is has lost no prefix when it was read. -/
theorem unprefixed_of_stable (h : parse source {} = .ok d) (hroot : d.root? = some root)
    (hlegible : root.All Legible) {options : RenderOptions} {d' : Document}
    (hparse : parse (root.arrange.written { options with declaration := true }) {} = .ok d')
    (hrender : d'.render options =
      .ok (root.arrange.written { options with declaration := true })) :
    root.Unprefixed [] := by
  obtain ⟨hconforms, hreads⟩ := readsBack_arrange h hroot hlegible
  have hknown : root.arrange.kind ≠ .unknown := by
    rw [kind_arrange]
    exact (conforms_of_parse h hroot).2.2.1
  obtain ⟨root', hroot', -, htight⟩ := unprefixed_of_parse hconforms hreads hknown hparse
  refine unprefixed_arrange_iff.1 (htight (Nat.le_of_eq ?_))
  rw [render_of_root hroot', Except.ok.injEq] at hrender
  have hcolons := congrArg colons hrender
  rw [colons_written, colons_written,
    writtenColons_arrange (conforms_of_parse hparse hroot').1] at hcolons
  exact hcolons.symm

/-- A document whose names are read back is written as a text that is read and written again just
when no prefix is lost and its identifiers fit in the order of the text. They do where nothing is out
of place. -/
theorem render_stable_iff (h : parse source {} = .ok d) (hroot : d.root? = some root)
    (hlegible : root.All Legible) (options : RenderOptions) :
    ∃ text, d.render options = .ok text ∧
      ((∃ d', parse text {} = .ok d' ∧ d'.render options = .ok text) ↔
        root.Unprefixed [] ∧ root.arrange.fits [] = true) ∧
      (root.Neat → root.arrange.fits [] = true) := by
  refine ⟨_, render_of_root hroot options, ⟨?_, ?_⟩, fun hneat => ?_⟩
  · rintro ⟨d', hparse, hrender⟩
    have hunprefixed := unprefixed_of_stable h hroot hlegible hparse hrender
    have hwritable := writable_arrange h hroot hlegible hunprefixed
    exact ⟨hunprefixed, (parse_written hwritable _).isOk_iff.1 ⟨d', hparse⟩⟩
  · rintro ⟨hunprefixed, hfits⟩
    have hwritable := writable_arrange h hroot hlegible hunprefixed
    have hread := parse_written hwritable { options with declaration := true }
    obtain ⟨d', hparse⟩ := hread.isOk_iff.2 hfits
    refine ⟨d', hparse, ?_⟩
    rw [render_of_root (hread.result d' hparse).1, arrange_arrange]
  · have hconforms := (conforms_of_parse h hroot).1
    have harranged : root.arrange.Every Conforms := hconforms.arrange fun _ he => he.arrange
    have hrun : (read {} ([] : List (Observer Unit)) source).run () = (.ok d, ()) := Prod.ext h rfl
    have hindexed := (Reachable.read hrun).indexed
    have hids : root.ids.Nodup := hindexed.nodup root hroot
    have hperm := ids_arrange_perm (hconforms.all.imp fun _ he => he.toStored)
    exact hneat.arrange.fits (harranged.all.imp fun _ he => he.toFitting)
      (hperm.nodup_iff.2 hids) (by simp)

/-- A placemark with a remark is written line by line again. -/
theorem render_stable_signposted : ∃ d text d', parse (signposted.written {}) {} = .ok d ∧
    d.root? = some signposted ∧ signposted.All Legible ∧ d.render { pretty := true } = .ok text ∧
      parse text {} = .ok d' ∧ d'.render { pretty := true } = .ok text := by
  have hwritable : signposted.Writable {} :=
    canonical_signposted.writable built_signposted.stored nestsWithin_signposted
  have hlegible : signposted.All Legible := canonical_signposted.regular.imp fun _ he => he.toLegible
  have hyields := parse_written hwritable {}
  obtain ⟨d, hparse⟩ := hyields.isOk_iff.2 (by decide +kernel)
  have hroot := (hyields.result d hparse).1
  obtain ⟨text, hrender, hiff, -⟩ :=
    render_stable_iff hparse hroot hlegible { pretty := true }
  obtain ⟨d', hparse', hrender'⟩ := hiff.2 ⟨hwritable.unprefixed, by decide +kernel⟩
  exact ⟨d, text, d', hparse, hroot, hlegible, hrender, hparse', hrender'⟩

/-! ## A point and a placemark -/

/-- A text with a point that is out of place, and a placemark after it. -/
def pointFirst : String := "<kml><Point id=\"x\"/><Placemark id=\"x\"/></kml>"

def pointAside : Element :=
  ⟨{ kind := .kml },
    [.element 1 ⟨{ kind := .placemark, attributes := ⟨[(.id, "x")]⟩ }, [], []⟩],
    [⟨{ kind := .point, attributes := ⟨[(.id, "x")]⟩ }, [], []⟩]⟩

theorem events_pointFirst : events pointFirst = { list :=
    [.startTag "kml" [] ⟨0, 5⟩, .startTag "Point" [("id", "x")] ⟨5, 20⟩, .endTag "Point" ⟨5, 20⟩,
      .startTag "Placemark" [("id", "x")] ⟨20, 39⟩, .endTag "Placemark" ⟨20, 39⟩,
      .endTag "kml" ⟨39, 45⟩] } := by
  have hchars : pointFirst = String.ofList
      ('<' :: ("kml".toList ++ (attributesChars [] ++ '>' ::
        '<' :: ("Point".toList ++ (attributesChars [("id", "x")] ++ '/' :: '>' ::
          '<' :: ("Placemark".toList ++ (attributesChars [("id", "x")] ++ '/' :: '>' ::
            '<' :: '/' :: ("kml".toList ++ ['>'])))))))) := by
    decide
  have hkeys : ∀ entry ∈ [("id", "x")], IsKey entry.1 := by
    intro entry hentry
    rw [List.mem_singleton.1 hentry]
    decide
  have hnodup : ([("id", "x")].map Prod.fst).Nodup := by simp
  have hkml (rest : List Char) :
      eventsFrom id [] 0 ('<' :: ("kml".toList ++ (attributesChars [] ++ '>' :: rest))) =
        (eventsFrom id ["kml"] 5 rest).prepend [.startTag "kml" [] ⟨0, 5⟩] :=
    eventsFrom_markup id [] 0 (readMarkup_startTag (by decide) (by simp) (by simp) [] 0 rest)
  have hpoint (rest : List Char) :
      eventsFrom id ["kml"] 5
          ('<' :: ("Point".toList ++ (attributesChars [("id", "x")] ++ '/' :: '>' :: rest))) =
        (eventsFrom id ["kml"] 20 rest).prepend
          [.startTag "Point" [("id", "x")] ⟨5, 20⟩, .endTag "Point" ⟨5, 20⟩] :=
    eventsFrom_markup id ["kml"] 5 (readMarkup_emptyTag (by decide) hkeys hnodup ["kml"] 5 rest)
  have hplacemark (rest : List Char) :
      eventsFrom id ["kml"] 20
          ('<' :: ("Placemark".toList ++ (attributesChars [("id", "x")] ++ '/' :: '>' :: rest))) =
        (eventsFrom id ["kml"] 39 rest).prepend
          [.startTag "Placemark" [("id", "x")] ⟨20, 39⟩, .endTag "Placemark" ⟨20, 39⟩] :=
    eventsFrom_markup id ["kml"] 20 (readMarkup_emptyTag (by decide) hkeys hnodup ["kml"] 20 rest)
  have hend (rest : List Char) :
      eventsFrom id ["kml"] 39 ('<' :: '/' :: ("kml".toList ++ '>' :: rest)) =
        (eventsFrom id [] 45 rest).prepend [.endTag "kml" ⟨39, 45⟩] :=
    eventsFrom_markup id ["kml"] 39 (readMarkup_endTag (by decide) [] 39 rest)
  have hnothing : eventsFrom id [] 45 [] = {} := eventsFrom_end [] 45 (by simp) rfl
  rw [hchars, events_ofList_angle, hkml, hpoint, hplacemark, hend, hnothing]
  rfl

theorem parse_pointFirst : ∃ d, parse pointFirst {} = .ok d ∧ d.root? = some pointAside := by
  rw [parse_eq events_pointFirst]
  exact ⟨_, rfl, rfl⟩

theorem all_pointAside {P : Element → Prop} (hkml : P pointAside)
    (hother : ∀ k : Kind, k ≠ .unknown → P ⟨{ kind := k, attributes := ⟨[(.id, "x")]⟩ }, [], []⟩) :
    pointAside.All P := by
  have hleaf (k : Kind) (hk : k ≠ .unknown) :
      Element.All P ⟨{ kind := k, attributes := ⟨[(.id, "x")]⟩ }, [], []⟩ :=
    .intro (hother k hk) (by simp [elements]) (by simp)
  refine .intro hkml (fun c hc => ?_) fun u hu => ?_
  · rw [List.mem_singleton.1 hc]
    exact hleaf .placemark (by decide)
  · rw [List.mem_singleton.1 hu]
    exact hleaf .point (by decide)

theorem legible_pointAside : pointAside.All Legible := by
  have hnone : ∀ key ∈ (∅ : AttributeMap String).keys, KeyReadsBack key := by
    intro key hkey
    cases hkey
  exact all_pointAside ⟨fun hkind => absurd hkind (by decide), hnone⟩ fun k hk =>
    ⟨fun hkind => absurd hkind hk, hnone⟩

theorem unprefixed_pointAside : pointAside.Unprefixed [] :=
  unprefixed_of_foreign (all_pointAside (by decide) fun _ _ _ h => absurd h List.not_mem_nil)
    (by simp [Foreign])

/-- A document that was read is not always written as a text that is read again. -/
theorem not_stable : ¬∀ (source : String) (d : Document) (options : RenderOptions),
    parse source {} = .ok d → ∃ text d', d.render options = .ok text ∧
      parse text {} = .ok d' ∧ d'.render options = .ok text := by
  intro h
  obtain ⟨d, hparse, hroot⟩ := parse_pointFirst
  obtain ⟨text, d', hrender, hparse', -⟩ := h _ d {} hparse
  rw [render_of_root hroot, Except.ok.injEq] at hrender
  subst hrender
  have hwritable := writable_arrange hparse hroot legible_pointAside unprefixed_pointAside
  have hfits := (parse_written hwritable { declaration := true }).isOk_iff.1 ⟨d', hparse'⟩
  exact absurd hfits (by decide +kernel)
end Document

end KmlTree
