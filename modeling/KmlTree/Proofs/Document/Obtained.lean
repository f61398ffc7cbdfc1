import KmlTree.Proofs.Document.Written
import KmlTree.Proofs.Style.Ingredients
import KmlTree.Proofs.Tree.Changes

/-!
# Elements that can be obtained

Elements are read, or made and changed step by step, or put together as the style of a feature. Main
statement: in whichever way an element was obtained, it is as the schema wants it, and a change that
is refused leaves it as it was.
-/
namespace KmlTree

namespace Element

/-- The elements that can be obtained: made anew, read from a source text or from events under any
observers, taken from another element or the style of a feature, and changed in any way. -/
inductive Obtained : Element → Prop
  | ofKind (kind : Kind) : Obtained (.ofKind kind)
  | ofName (name : String) : Obtained (.ofName name)
  | unnamed (name : String) : Obtained (.unnamed name)
  | read {σ : Type} {options : ReadOptions} {observers : List (Observer σ)} {source : String}
      {s s' : σ} {d : Document} {root : Element}
      (h : (Document.read options observers source).run s = (.ok d, s'))
      (hroot : d.root? = some root) : Obtained root
  | ofEvents {σ : Type} {options : ReadOptions} {observers : List (Observer σ)}
      {events : List Markup.Event} {s s' : σ} {d : Document} {root : Element}
      (h : (Document.ofEvents options observers events).run s = (.ok d, s'))
      (hroot : d.root? = some root) : Obtained root
  | known {e c : Element} (h : Obtained e) (hc : c ∈ e.elements) : Obtained c
  | unknown {e u : Element} (h : Obtained e) (hu : u ∈ e.unknown) : Obtained u
  | edited {e e' : Element} (h : Obtained e) (edit : Edit)
      (hparts : ∀ part ∈ edit.parts, Obtained part) {outcome : Except Refusal Unit}
      (hrun : edit.run.run e = (outcome, e')) : Obtained e'
  | style {d : Document} (hroot : ∀ root, d.root? = some root → Obtained root) {feature : Element}
      (hfeature : Obtained feature) (state : StyleState) :
      Obtained (d.resolve state feature).style

variable {e e' : Element}

theorem Obtained.applied (h : Obtained e) (edit : Edit) (hparts : ∀ part ∈ edit.parts, Obtained part)
    (happly : edit.apply e = .ok e') : Obtained e' :=
  h.edited edit hparts (Edit.run_of_apply happly)

theorem refused_addChild {child : Element} {refusal : Refusal}
    (h : (Edit.addChild child).run.run e = (.error refusal, e')) :
    refusal = .child ⟨e.kind, child⟩ := by
  obtain ⟨happly, -⟩ := Edit.of_refused h
  rw [Edit.apply, addChild] at happly
  cases hattach : e.attach child with
  | ok a =>
    rw [hattach] at happly
    cases happly
  | error rejected =>
    obtain ⟨-, -, -, rfl⟩ := attach_eq_error_iff.1 hattach
    rw [hattach] at happly
    cases happly
    rfl

theorem all_seated_apply {edit : Edit} (h : e.All Seated)
    (hparts : ∀ part ∈ edit.parts, part.All Seated) (happly : edit.apply e = .ok e') :
    e'.All Seated := by
  have hmapped {ε : Type} {refusal : ε → Refusal} {x : Except ε Element}
      (hx : x.mapError refusal = .ok e') : x = .ok e' := by
    cases x <;> cases hx
    rfl
  cases edit with
  | setAttribute name value =>
    cases happly
    exact h.setAttribute (h.self.setAttribute name value)
  | eraseAttribute name =>
    cases happly
    exact h.eraseAttribute (h.self.eraseAttribute name)
  | setText text =>
    cases happly
    exact h.congr (h.self.withText text) rfl rfl
  | appendText text =>
    cases happly
    exact h.congr (h.self.withText _) rfl rfl
  | addChild child =>
    exact all_seated_addChild h (hparts child List.mem_cons_self) (hmapped happly)
  | addUnknown child =>
    cases happly
    exact h.addUnknown (hparts child List.mem_cons_self) (h.self.addUnknown child)
  | setFieldText kind text => exact all_seated_setFieldText h (hmapped happly)
  | setField kind value => exact all_seated_setField h (hmapped happly)
  | clearField kind =>
    cases happly
    exact all_seated_clearField h kind

theorem all_seated_edited {edit : Edit} {outcome : Except Refusal Unit} (h : e.All Seated)
    (hparts : ∀ part ∈ edit.parts, part.All Seated) (hrun : edit.run.run e = (outcome, e')) :
    e'.All Seated := by
  cases outcome with
  | error refusal => exact (Edit.of_refused hrun).2 ▸ h
  | ok =>
    rw [Edit.run_eq] at hrun
    cases happly : edit.apply e <;> rw [happly] at hrun <;> cases hrun
    exact all_seated_apply h hparts happly

/-! ## All that can be obtained -/

theorem all_seated_finish {b : Builder} {options : ReadOptions} {events : List Markup.Event}
    (h : Builder.Run (.new options) events b) {d : Document} (hd : b.finish = .ok d)
    {root : Element} (hroot : d.root? = some root) : root.All Seated := by
  obtain ⟨-, -, root', ids, hroot', rfl⟩ := Builder.finish_eq_ok_iff.1 hd
  cases hroot
  have hconforms := ((h.conformant (Builder.conformant_new options)).root (root, ids) hroot').1
  exact hconforms.all.imp fun _ he => he.toFitting.seated

theorem Obtained.seated (h : Obtained e) : e.All Seated := by
  induction h with
  | ofKind kind => exact all_seated_empty rfl rfl
  | ofName name => exact all_seated_ofName name
  | unnamed name => exact all_seated_empty rfl rfl
  | read h hroot =>
    obtain ⟨root, hroot', hconforms, -⟩ := Document.conforms_of_read h
    rw [hroot] at hroot'
    cases hroot'
    exact hconforms.all.imp fun _ he => he.toFitting.seated
  | ofEvents h hroot =>
    obtain ⟨b, hrun, hfinish⟩ := Document.ofEvents_run h
    exact all_seated_finish hrun hfinish hroot
  | known _ hc ih => exact ih.known _ hc
  | unknown _ hu ih => exact ih.unknown _ hu
  | edited _ edit _ hrun ih ihParts => exact all_seated_edited ih ihParts hrun
  | style _ _ state ihRoot ihFeature =>
    exact additive_seated.resolve (hereditary_all Seated) (all_seated_empty rfl rfl) ihRoot ihFeature

/-- However an element was obtained, all of it is as the schema wants it; a change that is refused
leaves it as it was, and a child that is refused is handed back. -/
theorem Obtained.schematic (h : Obtained e) :
    e.All Schematic ∧ ∀ (edit : Edit) (refusal : Refusal) (e' : Element),
      edit.run.run e = (.error refusal, e') →
        e' = e ∧ ∀ child, edit = .addChild child → refusal = .child ⟨e.kind, child⟩ := by
  refine ⟨h.seated.imp fun _ he => he.toSchematic, fun edit refusal e' hrun =>
    ⟨(Edit.of_refused hrun).2, ?_⟩⟩
  rintro child rfl
  exact refused_addChild hrun

/-! ## A placemark with a point -/

def campsite : Element :=
  ⟨{ kind := .placemark, attributes := ⟨[(.id, "c")]⟩, otherAttributes := ⟨[("k", "v")]⟩ },
    [.field 0 ⟨.name, "Camp"⟩, .element 13 (ofKind .point)], []⟩

theorem obtained_campsite : campsite.Obtained := by
  have hstart : (ofName "Placemark").Obtained := .ofName "Placemark"
  have hmarked : Obtained { ofKind .placemark with attributes := ⟨[(.id, "c")]⟩ } :=
    hstart.edited (.setAttribute "id" "c") (by simp [Edit.parts]) rfl
  have hremarked : Obtained { ofKind .placemark with
      attributes := ⟨[(.id, "c")]⟩, otherAttributes := ⟨[("k", "v")]⟩ } :=
    hmarked.edited (.setAttribute "k" "v") (by simp [Edit.parts]) rfl
  have hnamed : Obtained { ofKind .placemark with
      attributes := ⟨[(.id, "c")]⟩, otherAttributes := ⟨[("k", "v")]⟩,
      children := [.field 0 ⟨.name, "Tent"⟩] } :=
    hremarked.edited (.setFieldText .name "Tent") (by simp [Edit.parts]) rfl
  have hplaced : Obtained { ofKind .placemark with
      attributes := ⟨[(.id, "c")]⟩, otherAttributes := ⟨[("k", "v")]⟩,
      children := [.field 0 ⟨.name, "Tent"⟩, .element 13 (ofKind .point)] } := by
    refine hnamed.edited (.addChild (ofKind .point)) ?_ rfl
    simpa [Edit.parts] using Obtained.ofKind .point
  exact hplaced.edited (.setField .name "Camp") (by simp [Edit.parts]) rfl

/-- The placemark is as the schema wants it, and stays so when it refuses a style of icons. -/
theorem schematic_campsite : campsite.Obtained ∧ campsite.All Schematic ∧
    ∃ refusal e', (Edit.addChild (ofKind .iconStyle)).run.run campsite = (.error refusal, e') ∧
      e' = campsite ∧ refusal = .child ⟨.placemark, ofKind .iconStyle⟩ := by
  obtain ⟨hall, hrefused⟩ := Obtained.schematic obtained_campsite
  have hrun : (Edit.addChild (ofKind .iconStyle)).run.run campsite =
      (.error (.child ⟨.placemark, ofKind .iconStyle⟩), campsite) := rfl
  obtain ⟨hsame, hback⟩ := hrefused _ _ _ hrun
  exact ⟨obtained_campsite, hall, _, _, hrun, hsame, hback _ rfl⟩

end Element

end KmlTree
