import KmlTree.Proofs.Document.Reachable
import KmlTree.Proofs.Reading.Conformance
import KmlTree.Proofs.Reading.Prefixes

/-!
# Documents that are written and read again

The text of a conforming tree is read as the tree, under all options for the text. Main statement:
this fails only if an identifier is declared while it is taken.
-/
namespace KmlTree

open Builder Markup Text

namespace Builder

theorem Outside.texts {b : Builder} (h : Outside b) {blank : List Char}
    (hblank : ∀ c ∈ blank, isBlank c) {events : List Event}
    (htexts : Texts (String.ofList blank) events) :
    Yields (events.foldlM next b) True fun b' => Outside b' ∧ b'.options = b.options ∧
      b'.root? = b.root? ∧ b'.warnings = b.warnings := by
  generalize hs : String.ofList blank = s at htexts
  have hall : ∀ c ∈ s.toList, isBlank c := by
    rw [← hs, String.toList_ofList]
    exact hblank
  clear hs hblank
  induction htexts generalizing b with
  | nil => exact .ok ⟨h, rfl, rfl, rfl⟩
  | @cons text rest offset events htexts ih =>
    have htext : isAllBlank text = true :=
      List.all_eq_true.2 fun c hc => hall c (by simp [hc])
    rw [List.foldlM_cons, h.next_text, if_pos htext]
    exact ih (h.withOffset _) fun c hc => hall c (by simp [hc])

end Builder

/-- A tree can be written and read again. -/
structure Element.Writable (options : ReadOptions) (e : Element) : Prop where
  conforms : e.Every Element.Conforms
  readsBack : e.Every ReadsBack
  known : e.kind ≠ .unknown
  notSimple : e.kind.isSimple = false
  nests : e.NestsWithin options.maxDepth
  unprefixed : e.Unprefixed []
  lenient : options.strict = true → e.Neat

namespace Builder

theorem rereads_of_writable {b : Builder} {e : Element} (hb : Outside b)
    (hroot : b.root? = none) (h : e.Writable b.options) : Rereads b e := by
  have hdepth : 0 < b.options.maxDepth := h.nests.pos
  refine ⟨⟨hb.sound, hroot, hb.notDropped, ?_, fun _ => ⟨h.known, h.notSimple⟩, ?_, ?_⟩, h.conforms,
    ⟨_, h.nests, ?_⟩, ?_, h.lenient⟩
  · simp [hb.stack_eq]
  · rwa [hb.stack_eq]
  · rw [hb.stack_eq, h.conforms.self.toFitting.name_of_known h.known, nameIn_tag]
    exact ofName_tag h.conforms.self.toFitting h.known
  · simp [hb.stack_eq]
  · rw [hb.stack_eq]
    exact h.unprefixed

theorem Outside.root {b : Builder} {e : Element} (hb : Outside b) (hroot : b.root? = none)
    (h : e.Writable b.options) {events : List Event} (hspells : Spells e events) :
    Yields (events.foldlM next b) (e.fits [] = true) fun b' =>
      Outside b' ∧ (∃ ids, b'.root? = some (e, ids)) ∧ (e.Neat → b'.warnings = b.warnings) := by
  have hnone : ∀ id, id ∈ b.listed ↔ id ∈ ([] : List String) := by
    simp [listed, hb.stack_eq, hroot]
  cases hspells with
  | @intro _ span span' blank texts inner hblank hempty htexts hinner =>
  rw [← List.append_assoc, ← List.cons_append, ← and_true (e.fits [] = true)]
  refine yields_append (reopens e b [] span blank texts inner (rereads_of_writable hb hroot h) hnone
    ⟨hblank, hempty⟩ htexts hinner) fun b' hb' => ?_
  obtain ⟨x, hx, hcomplete⟩ := hb'
  obtain ⟨b₂, hnext, hstack, hdropped, hrootIs, hsound, hwarnings⟩ :=
    next_endTag_root hx hb.stack_eq hcomplete span'
  rw [foldlM_next_singleton, hnext]
  refine .ok ⟨⟨hsound, hstack, hdropped⟩, hrootIs, fun hneat => ?_⟩
  rw [hwarnings]
  exact hx.warnings (neat_complete.1 (hcomplete ▸ hneat))

end Builder

namespace Document

/-- The tree of a document that was read conforms, under all observers. -/
theorem conforms_of_read {σ : Type} {options : ReadOptions} {observers : List (Observer σ)}
    {source : String} {s s' : σ} {d : Document}
    (h : (read options observers source).run s = (.ok d, s')) : ∃ root, d.root? = some root ∧
      root.Every Element.Conforms ∧ root.NestsWithin options.maxDepth ∧
        root.kind ≠ .unknown ∧ root.kind.isSimple = false := by
  rw [read_run] at h
  split at h
  · next d' _ hsource =>
    obtain ⟨b, hrun, hfinish⟩ := ofSource_run hsource
    obtain ⟨-, -, root, ids, hroot, rfl⟩ := finish_eq_ok_iff.1 hfinish
    have hconformant := hrun.conformant (conformant_new options)
    have hoptions : b.options = options := hrun.options_eq
    cases h
    exact ⟨root, rfl, hoptions ▸ hconformant.root (root, ids) hroot⟩
  · cases h

/-- A written tree is read as it was, just when its identifiers fit. -/
theorem parse_written {options : ReadOptions} {e : Element} (h : e.Writable options)
    (renderOptions : RenderOptions) :
    Yields (parse (e.written renderOptions) options) (e.fits [] = true) fun d =>
      d.root? = some e ∧ d.index = .ofList e.declared ∧ (e.Neat → d.warnings = []) := by
  obtain ⟨blank, before, inner, after, hblank, hbefore, hinner, hafter, hevents⟩ :=
    events_written h.readsBack renderOptions
  have hnew : Outside (.new options) := ⟨sound_new options, rfl, rfl⟩
  have hbuilder : Yields ((before ++ (inner ++ after)).foldlM next (.new options))
      (e.fits [] = true) fun b =>
        Outside b ∧ (∃ ids, b.root? = some (e, ids)) ∧ (e.Neat → b.warnings = []) := by
    rw [← true_and (e.fits [] = true), ← and_true (e.fits [] = true)]
    refine yields_append (hnew.texts hblank hbefore) fun b₁ ⟨hb₁, hoptions, hroot, hwarnings⟩ =>
      yields_append (hb₁.root hroot (hoptions ▸ h) hinner) fun b₂ ⟨hb₂, ⟨ids, hids⟩, hneat⟩ => ?_
    refine (hb₂.texts (isBlank_gap _ _) hafter).imp Iff.rfl fun b₃ ⟨hb₃, _, hroot₃, hwarnings₃⟩ => ?_
    exact ⟨hb₃, ⟨ids, hroot₃.trans hids⟩,
      fun hn => hwarnings₃.trans ((hneat hn).trans hwarnings)⟩
  have hread : Yields ((before ++ (inner ++ after)).foldlM next (.new options) >>= finish)
      (e.fits [] = true) fun d =>
        d.root? = some e ∧ d.index = .ofList e.declared ∧ (e.Neat → d.warnings = []) := by
    rw [← and_true (e.fits [] = true)]
    refine hbuilder.bind fun b ⟨hb, ⟨ids, hids⟩, hneat⟩ => ?_
    have hfinish : b.finish = .ok
        { root? := some e, index := .ofList ids, warnings := b.warnings } :=
      finish_eq_ok_iff.2 ⟨hb.stack_eq, hb.notDropped, e, ids, hids, rfl⟩
    have hindex := (indexed_finish hb.sound hfinish).index_eq e rfl
    rw [hfinish]
    exact .ok ⟨rfl, hindex, hneat⟩
  rw [parse_eq hevents]
  cases houtcome : (before ++ (inner ++ after)).foldlM next (.new options) >>= finish with
  | error error =>
    rw [houtcome] at hread
    have hnot : ¬e.fits [] = true := fun hfits => by
      obtain ⟨d, heq⟩ := hread.isOk_iff.2 hfits
      cases heq
    exact Yields.error.imp (by simp [hnot]) fun _ h => h
  | ok d =>
    rw [houtcome] at hread
    obtain ⟨hroot, hindex, hneat⟩ := hread.result d rfl
    refine (Yields.ok ⟨hroot, hindex, fun hn => ?_⟩).imp
      (iff_of_true trivial (hread.isOk_iff.1 ⟨d, rfl⟩)) fun _ h => h
    rw [hneat hn]
    rfl

/-- A written tree is read as one with no more colons, and with as many only if no prefix is lost. -/
theorem unprefixed_of_parse {options : ReadOptions} {e : Element} (hconforms : e.Every Element.Conforms)
    (hreads : e.Every ReadsBack) (hknown : e.kind ≠ .unknown) {renderOptions : RenderOptions}
    {d : Document} (h : parse (e.written renderOptions) options = .ok d) :
    ∃ root, d.root? = some root ∧ root.writtenColons ≤ e.writtenColons ∧
      (e.writtenColons ≤ root.writtenColons → e.Unprefixed []) := by
  obtain ⟨blank, before, inner, after, hblank, hbefore, hinner, hafter, hevents⟩ :=
    events_written hreads renderOptions
  have hnew : Outside (.new options) := ⟨sound_new options, rfl, rfl⟩
  rw [parse_eq hevents] at h
  cases hrun : (before ++ (inner ++ after)).foldlM next (.new options) with
  | error error =>
    rw [hrun] at h
    cases h
  | ok b₃ =>
    obtain ⟨b₁, hrun₁, hrun'⟩ := foldlM_append_ok hrun
    obtain ⟨b₂, hrun₂, hrun₃⟩ := foldlM_append_ok hrun'
    obtain ⟨h₁, -, -, -⟩ := (hnew.texts hblank hbefore).result b₁ hrun₁
    obtain ⟨root, ids, hroot, hdropped, hstack, hle, htight⟩ :=
      root_tight hconforms hknown h₁.notDropped h₁.stack_eq hinner hrun₂
    have h₂ : Outside b₂ := ⟨(foldlM_next_run hrun₂).sound h₁.sound, hstack, hdropped⟩
    obtain ⟨h₃, -, hroot₃, -⟩ := (h₂.texts (isBlank_gap _ _) hafter).result b₃ hrun₃
    have hfinish : b₃.finish = .ok
        { root? := some root, index := .ofList ids, warnings := b₃.warnings } :=
      finish_eq_ok_iff.2 ⟨h₃.stack_eq, h₃.notDropped, root, ids, hroot₃.trans hroot, rfl⟩
    have hbind : Except.ok b₃ >>= finish =
        .ok { root? := some root, index := .ofList ids, warnings := b₃.warnings } := hfinish
    rw [hrun, hbind] at h
    cases h
    exact ⟨root, rfl, hle, htight⟩

end Document

end KmlTree
