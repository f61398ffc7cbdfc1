import KmlTree.Style.Resolve
import KmlTree.Proofs.Document.Indexing

/-!
# Expansion of style selectors

The styles that a feature asks for, by plain recursion over selectors and references: a shared
selector is expanded wherever a reference leads to it, and only a reference back into the chain of
shared selectors is cut. What a selector shows and refers to by itself does not depend on the chain.
-/
namespace KmlTree

/-! ## References -/

/-- A reference within the document is an identifier with `#` before it, apart from blanks around
the two. -/
theorem localId?_eq_some_iff {url id : String} :
    localId? url = some id ↔ Text.trim url = "#" ++ id := by
  rw [← String.toList_inj, Text.trim, String.toList_ofList, String.toList_append, localId?]
  split
  · next rest hrest =>
    rw [hrest, Option.some.injEq, ← String.toList_inj, String.toList_ofList]
    exact (List.cons_inj_right '#').symm
  · next hother =>
    exact iff_of_false (by simp) fun heq => hother id.toList heq

theorem localId?_eq_none_iff {url : String} :
    localId? url = none ↔ (Text.trim url).toList.head? ≠ some '#' := by
  rw [Text.trim, String.toList_ofList, localId?]
  split
  · next rest hrest => simp [hrest]
  · next hother =>
    refine iff_of_true rfl fun hhead => ?_
    obtain ⟨rest, hrest⟩ := List.head?_eq_some_iff.1 hhead
    exact hother rest hrest

theorem id_unique {url id id' : String} (h : Text.trim url = "#" ++ id)
    (h' : Text.trim url = "#" ++ id') : id = id' :=
  (String.append_right_inj _).1 (h.symm.trans h')

namespace Document

/-- The identifier in the document that a reference gives. -/
def targetId? (d : Document) (url : String) : Option String :=
  (d.index.entries.find? fun entry => Text.trim url == "#" ++ entry.1).map Prod.fst

theorem targetId?_eq_some_iff {d : Document} {url id : String} :
    d.targetId? url = some id ↔
      Text.trim url = "#" ++ id ∧ ∃ path, (id, path) ∈ d.index.entries := by
  constructor
  · intro h
    obtain ⟨⟨own, path⟩, hfind, rfl⟩ := Option.map_eq_some_iff.1 h
    exact ⟨by simpa using List.find?_some hfind, path, List.mem_of_find?_eq_some hfind⟩
  · rintro ⟨htext, path, hmem⟩
    cases hfind : d.index.entries.find? fun entry => Text.trim url == "#" ++ entry.1 with
    | none => exact absurd (beq_iff_eq.2 htext) (List.find?_eq_none.1 hfind _ hmem)
    | some entry =>
      have hentry : Text.trim url = "#" ++ entry.1 := by simpa using List.find?_some hfind
      rw [targetId?, hfind, Option.map_some, Option.some.injEq]
      exact id_unique hentry htext

theorem targetId?_eq {d : Document} {url id : String} (hid : Text.trim url = "#" ++ id) :
    d.targetId? url = if d.index.get? id = none then none else some id := by
  split
  · next hget =>
    cases htarget : d.targetId? url with
    | none => rfl
    | some own =>
      obtain ⟨htext, path, hmem⟩ := targetId?_eq_some_iff.1 htarget
      obtain rfl : id = own := id_unique hid htext
      exact absurd (List.lookup_eq_none_iff.1 hget _ hmem) (by simp)
  · next hget =>
    obtain ⟨path, hget⟩ := Option.ne_none_iff_exists'.1 hget
    exact targetId?_eq_some_iff.2 ⟨hid, path, ObjectIndex.get?_eq_some_iff.1 hget⟩

/-! ## Expansion -/

def sharedSelector? (d : Document) (id : String) : Option StyleSelector :=
  (d.lookup? id).bind fun e => (e.view? .styleSelector).map StyleSelector.ofView

theorem mem_keys_of_sharedSelector? {d : Document} {id : String} {selector : StyleSelector}
    (h : d.sharedSelector? id = some selector) : ∃ path, (id, path) ∈ d.index.entries := by
  obtain ⟨e, hlookup, -⟩ := Option.bind_eq_some_iff.1 h
  obtain ⟨root, -, hroot⟩ := Option.bind_eq_some_iff.1 hlookup
  obtain ⟨path, hpath, -⟩ := Option.bind_eq_some_iff.1 hroot
  exact ⟨path, ObjectIndex.get?_eq_some_iff.1 hpath⟩

/-- A longer chain leaves fewer selectors to be entered. -/
theorem remaining_cons_lt {d : Document} {chain : List String} {id : String}
    {selector : StyleSelector} (h : d.sharedSelector? id = some selector) (hid : id ∉ chain) :
    d.remaining (id :: chain) < d.remaining chain := by
  obtain ⟨path, hmem⟩ := mem_keys_of_sharedSelector? h
  have hfilter : (d.index.entries.filter fun entry => !(id :: chain).contains entry.1) =
      (d.index.entries.filter fun entry => !chain.contains entry.1).filter
        fun entry => !decide (entry.1 = id) := by
    rw [List.filter_filter]
    congr 1
    funext entry
    simp
  rw [remaining, remaining, hfilter, List.length_filter_lt_length_iff_exists]
  exact ⟨(id, path), by simp [hmem, hid], by simp⟩

end Document

theorem Element.size_pairFor?_lt {e : Element} {state : StyleState} {pair : Pair}
    (h : e.pairFor? state = some pair) : pair.element.size < e.size :=
  size_lt_of_mem_elements (mem_elements_of_mem_viewsOf (List.mem_of_find?_eq_some h))

theorem Pair.size_styleSelector?_lt {pair : Pair} {selector : StyleSelector}
    (h : pair.styleSelector? = some selector) : selector.element.size < pair.element.size := by
  obtain ⟨view, hview, rfl⟩ := List.mem_map.1 (List.mem_of_mem_head? h)
  rw [StyleSelector.element_ofView]
  exact Element.size_lt_of_mem_elements (Element.mem_elements_of_mem_viewsOf hview)

namespace Document

mutual

/-- The styles that a selector expands to, below a chain of shared selectors. -/
def expandSelector (d : Document) (state : StyleState) (chain : List String) :
    StyleSelector → List Element
  | .style e => [e]
  | .styleMap e =>
    match _hpair : e.pairFor? state with
    | none => []
    | some pair =>
      (match _hselector : pair.styleSelector? with
        | none => []
        | some selector => d.expandSelector state chain selector) ++
      (match pair.element.styleUrl? with
        | none => []
        | some url => d.expandUrl state chain url)
termination_by selector => (d.remaining chain, selector.element.size)
decreasing_by
  · have hlt := Pair.size_styleSelector?_lt _hselector
    have hlt' := Element.size_pairFor?_lt _hpair
    exact Prod.Lex.right _ (Nat.lt_trans hlt hlt')
  · exact Prod.Lex.right _ (Nat.zero_lt_of_lt (Element.size_pairFor?_lt _hpair))

def expandUrl (d : Document) (state : StyleState) (chain : List String) (url : String) :
    List Element :=
  match d.targetId? url with
  | none => []
  | some id =>
    if _hid : id ∈ chain then []
    else
      match _hselector : d.sharedSelector? id with
      | none => []
      | some selector => d.expandSelector state (id :: chain) selector
termination_by (d.remaining chain, 0)
decreasing_by exact Prod.Lex.left _ _ (remaining_cons_lt _hselector _hid)

end

/-- The styles that a feature asks for, those that count for more before the others. -/
def contributions (d : Document) (state : StyleState) (f : Feature) : List Element :=
  (Feature.styleSelectors f).flatMap (d.expandSelector state []) ++
    (Feature.styleUrl? f).toList.flatMap (d.expandUrl state [])

variable (d : Document) (state : StyleState) (chain : List String)

theorem expandSelector_style (e : Element) : d.expandSelector state chain (.style e) = [e] := by
  rw [expandSelector]

theorem expandSelector_styleMap (e : Element) :
    d.expandSelector state chain (.styleMap e) = match e.pairFor? state with
      | none => []
      | some pair =>
        pair.styleSelector?.toList.flatMap (d.expandSelector state chain) ++
          pair.element.styleUrl?.toList.flatMap (d.expandUrl state chain) := by
  rw [expandSelector]
  split
  · next hpair => rw [hpair]
  · next pair hpair =>
    rw [hpair]
    congr 1
    · split
      · next hnone => simp [hnone]
      · next selector hselector => simp [hselector]
    · split
      · next hnone => simp [hnone]
      · next url hurl => simp [hurl]

theorem expandUrl_eq (url : String) :
    d.expandUrl state chain url = match localId? url with
      | none => []
      | some id =>
        if id ∈ chain then []
        else (d.sharedSelector? id).toList.flatMap (d.expandSelector state (id :: chain)) := by
  rw [expandUrl]
  cases htarget : d.targetId? url with
  | some id =>
    obtain ⟨htext, -⟩ := targetId?_eq_some_iff.1 htarget
    rw [localId?_eq_some_iff.2 htext]
    dsimp only
    split
    · rfl
    · split
      · next hnone => simp [hnone]
      · next selector hselector => simp [hselector]
  | none =>
    cases hlocal : localId? url with
    | none => rfl
    | some id =>
      -- no object has the identifier, so no selector has
      have hnone : d.sharedSelector? id = none := by
        cases hselector : d.sharedSelector? id with
        | none => rfl
        | some selector =>
          have hid := targetId?_eq_some_iff.2
            ⟨localId?_eq_some_iff.1 hlocal, mem_keys_of_sharedSelector? hselector⟩
          rw [htarget] at hid
          cases hid
      simp [hnone]

end Document

end KmlTree
