import KmlTree.Proofs.Document.Canonical
import KmlTree.Proofs.Document.Obtained

/-!
# Reading what was written

However a tree was built, if it is canonical then its text is read as the tree itself, under all
options for the text and for the reading. Main statement: the document that is read is the one that
the tree has by itself.
-/
namespace KmlTree

open Markup

namespace Element

/-- The trees that can be built: read from a source text under any observers, or put together and
changed step by step. -/
inductive Built : Element → Prop
  | ofKind (kind : Kind) : Built (.ofKind kind)
  | ofName (name : String) : Built (.ofName name)
  | unnamed (name : String) : Built (.unnamed name)
  | read {σ : Type} {options : ReadOptions} {observers : List (Observer σ)} {source : String}
      {s s' : σ} {d : Document} {root : Element}
      (h : (Document.read options observers source).run s = (.ok d, s'))
      (hroot : d.root? = some root) : Built root
  | known {e c : Element} (h : Built e) (hc : c ∈ e.elements) : Built c
  | unknown {e u : Element} (h : Built e) (hu : u ∈ e.unknown) : Built u
  | setAttribute {e : Element} (h : Built e) (name value : String) : Built (e.setAttribute name value)
  | eraseAttribute {e : Element} (h : Built e) (name : String) : Built (e.eraseAttribute name)
  | setText {e : Element} (h : Built e) (text : String) : Built { e with text }
  | appendText {e : Element} (h : Built e) (text : String) : Built (e.appendText text)
  | addChild {e child e' : Element} (h : Built e) (hchild : Built child)
      (ha : e.addChild child = .ok e') : Built e'
  | addUnknown {e child : Element} (h : Built e) (hchild : Built child) : Built (e.addUnknown child)
  | setFieldText {e e' : Element} {kind : Kind} {text : String} (h : Built e)
      (hs : e.setFieldText kind text = .ok e') : Built e'
  | setField {α : Type} [FieldValue α] {e e' : Element} {kind : Kind} {value : α} (h : Built e)
      (hs : e.setField kind value = .ok e') : Built e'
  | clearField {e : Element} (h : Built e) (kind : Kind) : Built (e.clearField kind)

/-! ## What building keeps -/

variable {e : Element}

theorem Built.obtained (h : Built e) : Obtained e := by
  induction h with
  | ofKind kind => exact .ofKind kind
  | ofName name => exact .ofName name
  | unnamed name => exact .unnamed name
  | read h hroot => exact .read h hroot
  | known _ hc ih => exact ih.known hc
  | unknown _ hu ih => exact ih.unknown hu
  | setAttribute _ name value ih => exact ih.applied (.setAttribute name value) (by simp [Edit.parts]) rfl
  | eraseAttribute _ name ih => exact ih.applied (.eraseAttribute name) (by simp [Edit.parts]) rfl
  | setText _ text ih => exact ih.applied (.setText text) (by simp [Edit.parts]) rfl
  | appendText _ text ih => exact ih.applied (.appendText text) (by simp [Edit.parts]) rfl
  | @addChild _ child _ _ _ ha ih ihChild =>
    exact ih.applied (.addChild child) (by simpa [Edit.parts] using ihChild)
      (by rw [Edit.apply, ha]; rfl)
  | @addUnknown _ child _ _ ih ihChild =>
    exact ih.applied (.addUnknown child) (by simpa [Edit.parts] using ihChild) rfl
  | @setFieldText _ _ kind text _ hs ih =>
    exact ih.applied (.setFieldText kind text) (by simp [Edit.parts])
      (by rw [Edit.apply, hs]; rfl)
  | @setField _ _ _ _ kind value _ hs ih =>
    exact ih.applied (.setField kind value) (by simp [Edit.parts])
      (by rw [Edit.apply, hs]; rfl)
  | clearField _ kind ih => exact ih.applied (.clearField kind) (by simp [Edit.parts]) rfl

theorem Built.stored (h : Built e) : e.All Stored := h.obtained.seated.imp fun _ he => he.toStored

/-- The text of a canonical tree is read as the document that the tree has by itself, whether it is
written as a tree or as this document, under all options that leave room for it. -/
theorem Built.parse_render {root : Element} (h : root.Built) (hc : root.Canonical) :
    ∃ d : Document, Document.ofRoot root = .ok d ∧ d.root? = some root ∧ d.warnings = [] ∧
      ∀ (renderOptions : RenderOptions) (readOptions : ReadOptions),
        root.NestsWithin readOptions.maxDepth →
          (∃ text, root.render renderOptions = .ok text ∧
            Document.parse text readOptions = .ok d) ∧
          ∃ text, d.render renderOptions = .ok text ∧ Document.parse text readOptions = .ok d := by
  have hordered : root.arrange = root :=
    arrange_eq_self (hc.regular.imp fun _ he => he.toOrdered)
  have hconforms := hc.conforms h.stored
  have hfits : root.fits [] = true :=
    hc.neat.fits (hconforms.all.imp fun _ he => he.toFitting) hc.ids_nodup (by simp)
  refine ⟨{ root? := some root, index := .ofList root.declared },
    Document.ofRoot_eq_ok_iff.2 ⟨hc.ids_nodup, rfl⟩, rfl, rfl, fun renderOptions readOptions hnests => ?_⟩
  have hread (renderOptions : RenderOptions) : ∃ text, root.render renderOptions = .ok text ∧
      Document.parse text readOptions =
        .ok { root? := some root, index := .ofList root.declared } := by
    have hyields := Document.parse_written (hc.writable h.stored hnests) renderOptions
    obtain ⟨⟨root?, index, warnings⟩, hparse⟩ := hyields.isOk_iff.2 hfits
    obtain ⟨hroot, hindex, hwarnings⟩ := hyields.result _ hparse
    have hnone := hwarnings hc.neat
    dsimp only at hroot hindex hnone
    subst hroot hindex hnone
    refine ⟨root.written renderOptions, ?_, hparse⟩
    rw [render_eq, hordered]
  exact ⟨hread renderOptions, hread { renderOptions with declaration := true }⟩

/-! ## A placemark with a remark -/

/-- An element that the schema does not know, with text and an attribute that need references. -/
def remark : Element :=
  ⟨{ kind := .unknown, writtenName? := some "x:y", otherAttributes := ⟨[("k", "<\"")]⟩,
     text := "]]> & more" }, [], []⟩

def signpost : Element :=
  ⟨{ kind := .placemark, attributes := ⟨[(.id, "p")]⟩ }, [.field 0 ⟨.name, "A < B"⟩], [remark]⟩

def signposted : Element := ⟨{ kind := .kml }, [.element 1 signpost], []⟩

theorem built_signposted : signposted.Built := by
  have hremark : remark.Built := ((Built.unnamed "x:y").setAttribute "k" "<\"").setText "]]> & more"
  have hnamed : ((Element.ofName "Placemark").setAttribute "id" "p").setFieldText .name "A < B" =
    .ok ⟨{ kind := .placemark, attributes := ⟨[(.id, "p")]⟩ }, [.field 0 ⟨.name, "A < B"⟩], []⟩ := rfl
  have hsignpost : signpost.Built :=
    (((Built.ofName "Placemark").setAttribute "id" "p").setFieldText hnamed).addUnknown hremark
  exact (Built.ofKind .kml).addChild hsignpost rfl

theorem canonical_signposted : signposted.Canonical where
  known := by decide
  regular := by
    have hremark : remark.All Regular :=
      .intro (by decide) (by simp [remark, elements]) (by simp [remark])
    have hsignpost : signpost.All Regular := by
      refine .intro (by decide) (by simp [signpost, elements, Child.element?]) fun u hu => ?_
      rw [List.mem_singleton.1 hu]
      exact hremark
    refine .intro (by decide) (fun c hc => ?_) (by simp [signposted])
    rw [List.mem_singleton.1 hc]
    exact hsignpost
  ids_nodup := by decide

theorem nestsWithin_signposted {room : Nat} : signposted.NestsWithin (room + 3) := by
  have hleaf {e : Element} (he : e.nodes = []) : e.NestsWithin (room + 1) :=
    .intro (by simp [he])
  refine .intro fun n hn => ?_
  rw [List.mem_singleton.1 hn]
  refine .intro fun n hn => ?_
  rcases List.mem_cons.1 hn with rfl | hn
  · exact hleaf rfl
  · rw [List.mem_singleton.1 hn]
    exact hleaf rfl

/-- The document with the placemark is read again, line by line and strictly. -/
theorem parse_render_signposted : signposted.Built ∧ signposted.Canonical ∧
    signposted.NestsWithin 3 ∧ ∃ d text, Document.ofRoot signposted = .ok d ∧
      d.render { pretty := true } = .ok text ∧
        Document.parse text { strict := true, maxDepth := 3 } = .ok d := by
  have hnests : signposted.NestsWithin 3 := nestsWithin_signposted
  obtain ⟨d, hd, -, -, hread⟩ := Built.parse_render built_signposted canonical_signposted
  obtain ⟨text, htext, hparse⟩ := (hread { pretty := true } { strict := true, maxDepth := 3 } hnests).2
  exact ⟨built_signposted, canonical_signposted, hnests, d, text, hd, htext, hparse⟩

end Element

end KmlTree
