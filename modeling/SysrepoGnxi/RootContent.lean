import Mathlib.Data.List.Pairwise
import SysrepoGnxi.Lib.JsonText
import SysrepoGnxi.Lib.Lists
import SysrepoGnxi.SchemaTree

/-!
# What the Text of a Root Tells

`json_read` writes a JSON text for each tree an xpath selects. `contentTold_iff` says for
which schema nodes this text tells the content of the tree, and is the JSON of its value for
a leaf: for containers and list instances whose children are told (`SchemaNode.Told`), and
for no leaf, since `json_tree` only looks at the children of a tree.

In one direction instances are told apart part by part (`sameContent_siblings`); in the other
two instances with the same JSON are built where something is not told (`SiblingsCollide`).
-/

open JsonDoc Lists YangJson

namespace SysrepoGnxi

namespace SchemaNode

/-! ### The parts of instances -/

section Parts

variable {s s' : SchemaNode} {t t' : Tree} {p : Part}

/-- An instance with a part is shown. -/
theorem shown_of_part (hs : s.WellFormed) (ht : s.Instance t) (hp : t.part = .ok p) :
    s.Shown := by
  cases s with
  | leaf q type => exact ⟨t.data, p, ht.2.1, part_leaf (hs _ ht.2.1) ▸ hp⟩
  | leafList q type => exact ⟨t.data, p, ht.2.1, part_leaf (hs _ ht.2.1) ▸ hp⟩
  | container | list => trivial

/-- The part of a list instance is an entry, with the value `json_tree` has for it. -/
theorem entry_of_isList (hlist : s.IsList) (ht : s.Instance t) (hp : t.part = .ok p) :
    ∃ j, jsonTree t = .ok j ∧ p = .entry j := by
  cases s with
  | list q children =>
      rw [Tree.part, ht.2.1] at hp
      obtain ⟨j, hj, rfl⟩ := map_eq_ok.mp hp
      exact ⟨j, hj, rfl⟩
  | leaf | leafList | container => exact hlist.elim

/-- The part of a leaf that has no value in JSON is that of an empty one. -/
theorem leafPart_of_empty {v : Val} (hno : ∀ x, v.json ≠ .ok x) (hleaf : ¬ v.IsNested)
    (hp : v.leafPart = .ok p) : v = .leafEmpty ∧ p = .entry (.str "null") := by
  by_cases hempty : v = .leafEmpty
  · rw [hempty] at hp
    exact ⟨hempty, (Except.ok.inj hp).symm⟩
  · rw [leafPart_scalar ⟨hleaf, hempty⟩] at hp
    obtain ⟨x, hx, -⟩ := map_eq_ok.mp hp
    exact absurd hx (hno x)

/-- The part of an instance of only empty leaves. -/
theorem entry_of_onlyEmpty (hs : s.WellFormed) (hempty : s.OnlyEmpty) (ht : s.Instance t)
    (hp : t.part = .ok p) : p = .entry (.str "null") := by
  cases s with
  | leaf q type =>
      have hleaf := hs _ ht.2.1
      rw [part_leaf hleaf] at hp
      exact (leafPart_of_empty (fun x => hempty _ x ht.2.1) hleaf hp).2
  | leafList q type =>
      have hleaf := hs _ ht.2.1
      rw [part_leaf hleaf] at hp
      exact (leafPart_of_empty (fun x => hempty _ x ht.2.1) hleaf hp).2
  | container | list => exact hempty.elim

/-- The part of an instance that may be repeated is an entry. -/
theorem entry_of_repeats (hs : s.WellFormed) (htold : s.Told) (hrepeats : s.Repeats)
    (ht : s.Instance t) (hp : t.part = .ok p) : ∃ j, p = .entry j := by
  cases s with
  | leafList q type =>
      have honly : (leafList q type).OnlyEmpty := fun v x hv => htold v x hv
      exact ⟨_, entry_of_onlyEmpty hs honly ht hp⟩
  | list q children =>
      have hlist : (list q children).IsList := trivial
      obtain ⟨j, -, rfl⟩ := entry_of_isList hlist ht hp
      exact ⟨j, rfl⟩
  | leaf | container => exact hrepeats.elim

/-- A list instance and an empty leaf have different parts. -/
theorem part_ne_of_isList (hs' : s'.WellFormed) (hlist : s.IsList) (hempty : s'.OnlyEmpty)
    (ht : s.Instance t) (ht' : s'.Instance t') (hp : t.part = .ok p) : t'.part ≠ .ok p := by
  intro hp'
  obtain ⟨j, hj, rfl⟩ := entry_of_isList hlist ht hp
  obtain rfl := Part.entry.inj (entry_of_onlyEmpty hs' hempty ht' hp')
  obtain ⟨m, -, hm⟩ := jsonTree_eq_ok.mp hj
  cases m <;> cases hm

instance : Std.Symm Compatible where
  symm a b hab heq := by
    rcases hab heq.symm with h | h | ⟨h, h'⟩ | ⟨h, h'⟩
    · exact Or.inr (Or.inl h)
    · exact Or.inl h
    · exact Or.inr (Or.inr (Or.inr ⟨h', h⟩))
    · exact Or.inr (Or.inr (Or.inl ⟨h', h⟩))

/-- Compatible schema nodes of one local name that are shown. -/
theorem compatible_shown {children : List SchemaNode} (hcompat : children.Pairwise Compatible)
    (hs : s ∈ children) (hs' : s' ∈ children) (hne : s ≠ s') (hname : s.name.name = s'.name.name)
    (hshown : s.Shown) (hshown' : s'.Shown) :
    (s.IsList ∧ s'.OnlyEmpty) ∨ (s.OnlyEmpty ∧ s'.IsList) := by
  rcases hcompat.forall hs hs' hne hname with h | h | h
  · exact absurd hshown h
  · exact absurd hshown' h
  · exact h

end Parts

/-! ### Siblings are told by their object -/

section Siblings

variable {children : List SchemaNode} {trees trees' : List Tree}

/-- Instances with one local name and parts have one schema node, or are a list instance and
an empty leaf. -/
theorem same_or_differ {s s' : SchemaNode} {t t' : Tree} {p p' : Part}
    (hwell : ∀ s ∈ children, s.WellFormed) (hcompat : children.Pairwise Compatible)
    (hs : s ∈ children) (hs' : s' ∈ children) (ht : s.Instance t) (ht' : s'.Instance t')
    (hp : t.part = .ok p) (hp' : t'.part = .ok p') (hname : t.name = t'.name) :
    s = s' ∨ (s.IsList ∧ s'.OnlyEmpty) ∨ (s.OnlyEmpty ∧ s'.IsList) := by
  by_cases heq : s = s'
  · exact Or.inl heq
  · refine Or.inr (compatible_shown hcompat hs hs' heq ?_ (shown_of_part (hwell s hs) ht hp)
      (shown_of_part (hwell s' hs') ht' hp'))
    rw [← ht.qname, ← ht'.qname, t.name_qname, t'.name_qname, hname]

/-- **The parts of siblings** are consistent: only entries share a name. -/
theorem Siblings.consistent (h : Siblings children trees) (hnodup : (children.map name).Nodup)
    (hwell : ∀ s ∈ children, s.WellFormed) (hcompat : children.Pairwise Compatible)
    (htold : ∀ s ∈ children, s.Told) {parts : List (String × Part)}
    (hparts : List.Forall₂ HasPart trees parts) : Consistent parts := by
  have hboth := (List.forall₂_and_left _ _).mpr ⟨h.isInstance, hparts⟩
  refine pairwise_of_forall₂ hboth h.beside ?_
  rintro a b e e' ⟨⟨s, hs, ha⟩, hae, hpa⟩ ⟨⟨s', hs', hb⟩, hbe, hpb⟩ hrepeats hname
  have hlocal : a.name = b.name := hae.trans (hname.trans hbe.symm)
  rcases same_or_differ hwell hcompat hs hs' ha hb hpa hpb hlocal with
    rfl | ⟨hlist, hempty⟩ | ⟨hempty, hlist⟩
  · obtain ⟨s', hs', hname', hrepeats⟩ := hrepeats (ha.qname.trans hb.qname.symm)
    obtain rfl : s' = s := List.inj_on_of_nodup_map hnodup hs' hs (hname'.trans ha.qname)
    exact ⟨entry_of_repeats (hwell s' hs) (htold s' hs) hrepeats ha hpa,
      entry_of_repeats (hwell s' hs) (htold s' hs) hrepeats hb hpb⟩
  · obtain ⟨j, -, hj⟩ := entry_of_isList hlist ha hpa
    exact ⟨⟨j, hj⟩, ⟨_, entry_of_onlyEmpty (hwell s' hs') hempty hb hpb⟩⟩
  · obtain ⟨j, -, hj⟩ := entry_of_isList hlist hb hpb
    exact ⟨⟨_, entry_of_onlyEmpty (hwell s hs) hempty ha hpa⟩, ⟨j, hj⟩⟩

/-- Among the trees of a local name are those of a qualified one. -/
theorem ofName_filter (q : QName) (trees : List Tree) :
    ofName q (trees.filter fun t => t.name = q.name) = ofName q trees := by
  rw [ofName, ofName, List.filter_filter]
  refine List.filter_congr fun t _ => ?_
  have himp : t.qname = q → t.name = q.name := fun h => by rw [← h, t.name_qname]
  by_cases hq : t.qname = q
  · simp [hq, himp hq]
  · simp [hq]

/-- The trees of a local name have the parts under it. -/
theorem hasPart_under {parts : List (String × Part)} (h : List.Forall₂ HasPart trees parts)
    (k : String) :
    List.Forall₂ HasPart (trees.filter fun t => t.name = k) (under k parts) := by
  refine List.rel_filter ?_ h
  rintro t e ⟨hname, -⟩
  simp [hname]

/-- **The object tells the parts**: with the same members, consistent siblings have the same
parts under each name. -/
theorem under_eq_of_jsonSiblings {parts parts' : List (String × Part)}
    (hparts : List.Forall₂ HasPart trees parts) (hparts' : List.Forall₂ HasPart trees' parts')
    (hcons : Consistent parts) (hcons' : Consistent parts') {m : Members}
    (hm : jsonSiblings trees [] = .ok m) (hm' : jsonSiblings trees' [] = .ok m) (k : String) :
    under k parts = under k parts' := by
  have hmembers : members parts = members parts' := by
    have hloop := jsonSiblings_of_renders (hparts.imp fun _ _ => HasPart.renders) [] hcons
    have hloop' := jsonSiblings_of_renders (hparts'.imp fun _ _ => HasPart.renders) [] hcons'
    exact Except.ok.inj (hloop.symm.trans (hm.trans (hm'.symm.trans hloop')))
  refine under_eq_of_members_eq hcons hcons' (fun e he elems heq => ?_) hmembers k
  rcases List.mem_append.mp he with he | he
  · obtain ⟨t, -, ht⟩ := exists_left_of_forall₂ hparts he
    exact single_ne_arr (heq ▸ ht.2)
  · obtain ⟨t, -, ht⟩ := exists_left_of_forall₂ hparts' he
    exact single_ne_arr (heq ▸ ht.2)

/-- **Siblings are told by their object**: with the same members they have the same content
under each name, if instances of each schema node with the same part do. -/
theorem sameContent_siblings (h : Siblings children trees) (h' : Siblings children trees')
    (hnodup : (children.map name).Nodup) (hwell : ∀ s ∈ children, s.WellFormed)
    (hcompat : children.Pairwise Compatible) (htold : ∀ s ∈ children, s.Told)
    (hsame : ∀ s ∈ children, ∀ t t' p, s.Instance t → s.Instance t' → t.part = .ok p →
      t'.part = .ok p → SameContent t t')
    {m : Members} (hm : jsonSiblings trees [] = .ok m) (hm' : jsonSiblings trees' [] = .ok m)
    (q : QName) : List.Forall₂ SameContent (ofName q trees) (ofName q trees') := by
  obtain ⟨parts, hparts⟩ := exists_parts hm
  obtain ⟨parts', hparts'⟩ := exists_parts hm'
  have hcons := h.consistent hnodup hwell hcompat htold hparts
  have hcons' := h'.consistent hnodup hwell hcompat htold hparts'
  have hunder := under_eq_of_jsonSiblings hparts hparts' hcons hcons' hm hm' q.name
  have hleft := hasPart_under hparts q.name
  have hright := hasPart_under hparts' q.name
  rw [← hunder] at hright
  have hcommon := forall₂_of_common
    ((List.forall₂_and_left _ _).mpr
      ⟨fun t ht => h.isInstance t (List.mem_filter.mp ht).1, hleft⟩)
    ((List.forall₂_and_left _ _).mpr
      ⟨fun t ht => h'.isInstance t (List.mem_filter.mp ht).1, hright⟩)
  have hcontent : List.Forall₂ (fun t t' => t.qname = t'.qname ∧ SameContent t t')
      (trees.filter fun t => t.name = q.name) (trees'.filter fun t => t.name = q.name) := by
    refine hcommon.imp ?_
    rintro t t' ⟨e, ⟨⟨s, hs, ht⟩, hname, hp⟩, ⟨s', hs', ht'⟩, hname', hp'⟩
    rcases same_or_differ hwell hcompat hs hs' ht ht' hp hp' (hname.trans hname'.symm) with
      rfl | ⟨hlist, hempty⟩ | ⟨hempty, hlist⟩
    · exact ⟨ht.qname.trans ht'.qname.symm, hsame s hs t t' e.2 ht ht' hp hp'⟩
    · exact absurd hp' (part_ne_of_isList (hwell s' hs') hlist hempty ht ht' hp)
    · exact absurd hp (part_ne_of_isList (hwell s hs) hlist hempty ht' ht hp')
  rw [← ofName_filter q trees, ← ofName_filter q trees']
  refine (List.rel_filter ?_ hcontent).imp fun _ _ h => h.2
  rintro t t' ⟨hqname, -⟩
  simp [hqname]

end Siblings

/-! ### Instances are told by their parts -/

section Told

variable {t t' : Tree}

/-- Leaves with the same value have the same content. -/
theorem sameContent_leaf (hname : t.qname = t'.qname) (hdata : t.data = t'.data)
    (hchildren : t.children = []) (hchildren' : t'.children = []) : SameContent t t' := by
  obtain ⟨module, name, data, children⟩ := t
  obtain ⟨module', name', data', children'⟩ := t'
  obtain ⟨rfl, rfl⟩ := QName.mk.inj hname
  obtain rfl : data = data' := hdata
  obtain rfl : children = [] := hchildren
  obtain rfl : children' = [] := hchildren'
  exact SameContent.node fun q => List.Forall₂.nil

/-- Nodes with the same value and, under each name, children of the same content. -/
theorem sameContent_node (hname : t.qname = t'.qname) (hdata : t.data = t'.data)
    (hchildren : ∀ q, List.Forall₂ SameContent (ofName q t.children) (ofName q t'.children)) :
    SameContent t t' := by
  obtain ⟨module, name, data, children⟩ := t
  obtain ⟨module', name', data', children'⟩ := t'
  obtain ⟨rfl, rfl⟩ := QName.mk.inj hname
  obtain rfl : data = data' := hdata
  exact SameContent.node hchildren

/-- The values of leaves with the same part have the same JSON, or are empty. -/
theorem leafPart_inj {v v' : Val} {p : Part} (hleaf : ¬ v.IsNested) (hleaf' : ¬ v'.IsNested)
    (hp : v.leafPart = .ok p) (hp' : v'.leafPart = .ok p) :
    v = v' ∨ ∃ x, v.json = .ok x ∧ v'.json = .ok x := by
  by_cases hempty : v = .leafEmpty <;> by_cases hempty' : v' = .leafEmpty
  · exact Or.inl (hempty.trans hempty'.symm)
  · rw [hempty] at hp
    rw [leafPart_scalar ⟨hleaf', hempty'⟩, ← hp] at hp'
    obtain ⟨x, -, heq⟩ := map_eq_ok.mp hp'
    cases heq
  · rw [hempty'] at hp'
    rw [leafPart_scalar ⟨hleaf, hempty⟩, ← hp'] at hp
    obtain ⟨x, -, heq⟩ := map_eq_ok.mp hp
    cases heq
  · rw [leafPart_scalar ⟨hleaf, hempty⟩] at hp
    rw [leafPart_scalar ⟨hleaf', hempty'⟩] at hp'
    obtain ⟨x, hx, rfl⟩ := map_eq_ok.mp hp
    obtain ⟨x', hx', heq⟩ := map_eq_ok.mp hp'
    obtain rfl := Part.single.inj heq
    exact Or.inr ⟨_, hx, hx'⟩

theorem isNested_presence (presence : Bool) :
    (if presence then Val.containerPresence else .container).IsNested := by
  cases presence <;> simp [Val.IsNested]

/-- Nodes with children, of one kind and with the same JSON, have the same part. -/
theorem part_of_jsonTree {j : Json} (hnested : t.data.IsNested) (hdata : t'.data = t.data)
    (hj : jsonTree t = .ok j) (hj' : jsonTree t' = .ok j) :
    ∃ p, t.part = .ok p ∧ t'.part = .ok p := by
  rw [Tree.part, Tree.part, hdata, hj, hj']
  rcases hnested with heq | heq | heq <;> rw [heq] <;> exact ⟨_, rfl, rfl⟩

/-- Nodes with children, of one kind and with the same part, have the same JSON. -/
theorem jsonTree_of_part {p : Part} (hnested : t.data.IsNested) (hdata : t'.data = t.data)
    (hp : t.part = .ok p) (hp' : t'.part = .ok p) :
    ∃ j, jsonTree t = .ok j ∧ jsonTree t' = .ok j := by
  rw [Tree.part] at hp
  rw [Tree.part, hdata] at hp'
  rcases hnested with heq | heq | heq <;> rw [heq] at hp hp' <;>
    (obtain ⟨j, hj, rfl⟩ := map_eq_ok.mp hp
     obtain ⟨j', hj', heq⟩ := map_eq_ok.mp hp'
     cases heq
     exact ⟨j, hj, hj'⟩)

/-- Instances with children and the same JSON have the same members. -/
theorem members_of_jsonTree {j : Json} (h : jsonTree t = .ok j) (h' : jsonTree t' = .ok j) :
    ∃ m, jsonSiblings t.children [] = .ok m ∧ jsonSiblings t'.children [] = .ok m := by
  obtain ⟨m, hm, rfl⟩ := jsonTree_eq_ok.mp h
  obtain ⟨m', hm', heq⟩ := jsonTree_eq_ok.mp h'
  have hmm : m' = m := by
    cases m <;> cases m' <;> first | rfl | exact Json.obj.inj heq | cases heq
  exact ⟨m, hm, hmm ▸ hm'⟩

/-- **Nodes with children and the same part** have the same content, if the children of each
schema node with the same part do. -/
theorem sameContent_of_children {children : List SchemaNode} {p : Part}
    (hnested : t.data.IsNested) (hname : t.qname = t'.qname) (hdata : t.data = t'.data)
    (h : Siblings children t.children) (h' : Siblings children t'.children)
    (hwell : (children.map name).Nodup ∧ AllWellFormed children)
    (htold : children.Pairwise Compatible ∧ AllTold children)
    (hsame : ∀ s ∈ children, ∀ t t' p, s.Instance t → s.Instance t' → t.part = .ok p →
      t'.part = .ok p → SameContent t t')
    (hp : t.part = .ok p) (hp' : t'.part = .ok p) : SameContent t t' := by
  obtain ⟨j, hj, hj'⟩ := jsonTree_of_part hnested hdata.symm hp hp'
  obtain ⟨m, hm, hm'⟩ := members_of_jsonTree hj hj'
  exact sameContent_node hname hdata (sameContent_siblings h h' hwell.1
    (allWellFormed_iff.mp hwell.2) htold.1 (allTold_iff.mp htold.2) hsame hm hm')

mutual

/-- **Instances of a told schema node with the same part have the same content.** -/
theorem sameContent_of_part : (s : SchemaNode) → s.WellFormed → s.Told → ∀ t t' p,
    s.Instance t → s.Instance t' → t.part = .ok p → t'.part = .ok p → SameContent t t'
  | leaf q type, hwell, htold, t, t', p, ht, ht', hp, hp' => by
      rw [part_leaf (hwell _ ht.2.1)] at hp
      rw [part_leaf (hwell _ ht'.2.1)] at hp'
      refine sameContent_leaf (ht.1.trans ht'.1.symm) ?_ ht.2.2 ht'.2.2
      rcases leafPart_inj (hwell _ ht.2.1) (hwell _ ht'.2.1) hp hp' with heq | ⟨x, hx, hx'⟩
      · exact heq
      · exact htold _ _ x ht.2.1 ht'.2.1 hx hx'
  | leafList q type, hwell, htold, t, t', p, ht, ht', hp, hp' => by
      rw [part_leaf (hwell _ ht.2.1)] at hp
      rw [part_leaf (hwell _ ht'.2.1)] at hp'
      have hempty := (leafPart_of_empty (fun x => htold _ x ht.2.1) (hwell _ ht.2.1) hp).1
      have hempty' := (leafPart_of_empty (fun x => htold _ x ht'.2.1) (hwell _ ht'.2.1) hp').1
      exact sameContent_leaf (ht.1.trans ht'.1.symm) (hempty.trans hempty'.symm) ht.2.2 ht'.2.2
  | container q presence children, hwell, htold, t, t', p, ht, ht', hp, hp' => by
      obtain ⟨hq, hdata, hsiblings⟩ := instance_container_iff.mp ht
      obtain ⟨hq', hdata', hsiblings'⟩ := instance_container_iff.mp ht'
      exact sameContent_of_children (hdata.symm ▸ isNested_presence presence)
        (hq.trans hq'.symm) (hdata.trans hdata'.symm) hsiblings hsiblings' hwell htold
        (sameContent_of_parts children hwell.2 htold.2) hp hp'
  | list q children, hwell, htold, t, t', p, ht, ht', hp, hp' => by
      obtain ⟨hq, hdata, hsiblings⟩ := instance_list_iff.mp ht
      obtain ⟨hq', hdata', hsiblings'⟩ := instance_list_iff.mp ht'
      exact sameContent_of_children (Or.inl hdata) (hq.trans hq'.symm)
        (hdata.trans hdata'.symm) hsiblings hsiblings' hwell htold
        (sameContent_of_parts children hwell.2 htold.2) hp hp'

theorem sameContent_of_parts : (children : List SchemaNode) → AllWellFormed children →
    AllTold children → ∀ s ∈ children, ∀ t t' p, s.Instance t → s.Instance t' →
      t.part = .ok p → t'.part = .ok p → SameContent t t'
  | [], _, _, s, hs => absurd hs List.not_mem_nil
  | s :: rest, hwell, htold, s', hs' => by
      rcases List.mem_cons.mp hs' with heq | hs'
      · rw [heq]
        exact sameContent_of_part s hwell.1 htold.1
      · exact sameContent_of_parts rest hwell.2 htold.2 s' hs'

end

end Told

/-! ### Siblings that collide -/

/-- Siblings with the same members and different content. -/
def SiblingsCollide (children : List SchemaNode) : Prop :=
  ∃ trees trees' m q, Siblings children trees ∧ Siblings children trees' ∧
    jsonSiblings trees [] = .ok m ∧ jsonSiblings trees' [] = .ok m ∧
    ¬ List.Forall₂ SameContent (ofName q trees) (ofName q trees')

section Collide

variable {children : List SchemaNode} {s s' : SchemaNode} {t t' : Tree} {p : Part} {j : Json}

/-- The members of one sibling. -/
theorem jsonSiblings_one (hp : t.part = .ok p) :
    jsonSiblings [t] [] = .ok [(t.name, p.alone)] := by
  rw [jsonSiblings_cons, setMember_eq, hp]
  cases p <;> rfl

/-- A single value takes the place of what a sibling of its name has set. -/
theorem jsonSiblings_two (hp : t.part = .ok p) (hp' : t'.part = .ok (.single j))
    (hname : t.name = t'.name) : jsonSiblings [t, t'] [] = .ok [(t'.name, j)] := by
  change jsonSiblings ([t] ++ [t']) [] = _
  rw [jsonSiblings_append, jsonSiblings_one hp]
  change jsonSiblings [t'] [(t.name, p.alone)] = _
  rw [jsonSiblings_cons, setMember_eq, hp', hname]
  change Except.ok (put t'.name j [(t'.name, p.alone)]) = _
  simp [put]

theorem siblings_one (hs : s ∈ children) (ht : s.Instance t) : Siblings children [t] where
  isInstance _ hc := ⟨s, hs, List.mem_singleton.mp hc ▸ ht⟩
  beside := List.pairwise_singleton _ _

theorem ofName_self (ht : s.Instance t) : ofName s.name [t] = [t] := by
  simp [ofName, ht.qname]

theorem ofName_other (ht : s.Instance t) (hne : s.name ≠ s'.name) : ofName s'.name [t] = [] := by
  simp [ofName, ht.qname, hne]

/-- Instances of one schema node with the same part collide. -/
theorem collide_of_part (hs : s ∈ children) (ht : s.Instance t) (ht' : s.Instance t')
    (hp : t.part = .ok p) (hp' : t'.part = .ok p) (hne : ¬ SameContent t t') :
    SiblingsCollide children := by
  refine ⟨[t], [t'], _, s.name, siblings_one hs ht, siblings_one hs ht', jsonSiblings_one hp,
    ?_, ?_⟩
  · have hname : t'.name = t.name := by rw [← t.name_qname, ← t'.name_qname, ht.qname, ht'.qname]
    rw [jsonSiblings_one hp', hname]
  · rw [ofName_self ht, ofName_self ht']
    simpa using hne

/-- An instance with a single value collides with its repetition. -/
theorem collide_of_repeats (hs : s ∈ children) (hrepeats : s.Repeats) (ht : s.Instance t)
    (hp : t.part = .ok (.single j)) : SiblingsCollide children := by
  refine ⟨[t], [t, t], _, s.name, siblings_one hs ht, ⟨fun c hc => ?_, ?_⟩,
    jsonSiblings_one hp, jsonSiblings_two hp hp rfl, ?_⟩
  · exact ⟨s, hs, by simpa [show c = t by simpa using hc] using ht⟩
  · exact List.pairwise_pair.mpr fun _ => ⟨s, hs, ht.qname.symm, hrepeats⟩
  · rw [ofName_self ht]
    intro h
    have hlen := h.length_eq
    simp [ofName, ht.qname] at hlen

/-- A single value collides with itself after an instance of another schema node. -/
theorem collide_of_overwrite (hs : s ∈ children) (hs' : s' ∈ children) (hne : s.name ≠ s'.name)
    (hlocal : s.name.name = s'.name.name) (ht : s.Instance t) (ht' : s'.Instance t')
    (hp : t.part = .ok p) (hp' : t'.part = .ok (.single j)) : SiblingsCollide children := by
  have hname : t.name = t'.name := by
    rw [← t.name_qname, ← t'.name_qname, ht.qname, ht'.qname, hlocal]
  refine ⟨[t, t'], [t'], _, s.name, ⟨fun c hc => ?_, ?_⟩, siblings_one hs' ht',
    jsonSiblings_two hp hp' hname, jsonSiblings_one hp', ?_⟩
  · rcases List.mem_pair.mp hc with rfl | rfl
    · exact ⟨s, hs, ht⟩
    · exact ⟨s', hs', ht'⟩
  · exact List.pairwise_pair.mpr fun heq => absurd (ht.qname ▸ ht'.qname ▸ heq) hne
  · rw [ofName_other ht' hne.symm]
    intro h
    have hlen := h.length_eq
    simp [ofName, ht.qname] at hlen

/-- Instances of different schema nodes with the same part collide. -/
theorem collide_of_mixup (hs : s ∈ children) (hs' : s' ∈ children) (hne : s.name ≠ s'.name)
    (hlocal : s.name.name = s'.name.name) (ht : s.Instance t) (ht' : s'.Instance t')
    (hp : t.part = .ok p) (hp' : t'.part = .ok p) : SiblingsCollide children := by
  have hname : t'.name = t.name := by
    rw [← t.name_qname, ← t'.name_qname, ht.qname, ht'.qname, hlocal]
  refine ⟨[t], [t'], _, s.name, siblings_one hs ht, siblings_one hs' ht', jsonSiblings_one hp,
    ?_, ?_⟩
  · rw [jsonSiblings_one hp', hname]
  · rw [ofName_self ht, ofName_other ht' hne.symm]
    intro h
    cases h

/-- A leaf with a value. -/
def leafTree (q : QName) (v : Val) : Tree := .node q.module q.name v []

/-- A value with a JSON is the part of its leaf. -/
theorem part_of_json {q : QName} {v : Val} (h : v.json = .ok j) :
    (leafTree q v).part = .ok (.single j) := by
  cases v <;> cases h <;> rfl

/-- A shown type has a value with a JSON, or its values shown are empty. -/
theorem leafPart_cases {type : Val → Prop} (hleaf : ∀ v, type v → ¬ v.IsNested)
    (hshown : ∃ v p, type v ∧ v.leafPart = .ok p) :
    (∃ v j, type v ∧ v.json = .ok j) ∨ (∀ v x, type v → v.json ≠ .ok x) ∧ type .leafEmpty := by
  by_cases hvalue : ∃ v j, type v ∧ v.json = .ok j
  · exact Or.inl hvalue
  · have hno : ∀ v x, type v → v.json ≠ .ok x := fun v x hv hx => hvalue ⟨v, x, hv, hx⟩
    obtain ⟨v, p, hv, hp⟩ := hshown
    obtain ⟨rfl, -⟩ := leafPart_of_empty (fun x => hno v x hv) (hleaf v hv) hp
    exact Or.inr ⟨hno, hv⟩

/-- The instances of a shown schema node: some have a single value, or they are childless list
instances, or empty leaves. -/
theorem shown_cases (hs : s.WellFormed) (hshown : s.Shown) :
    (∃ t j, s.Instance t ∧ t.part = .ok (.single j)) ∨
      (s.IsList ∧ ∃ t, s.Instance t ∧ t.part = .ok (.entry .null)) ∨
      (s.OnlyEmpty ∧ ∃ t, s.Instance t ∧ t.part = .ok (.entry (.str "null"))) := by
  have hbare {children : List SchemaNode} : Siblings children [] := ⟨by simp, List.Pairwise.nil⟩
  cases s with
  | leaf q type =>
      rcases leafPart_cases hs hshown with ⟨v, j, hv, hj⟩ | ⟨hno, hempty⟩
      · exact Or.inl ⟨leafTree q v, j, ⟨rfl, hv, rfl⟩, part_of_json hj⟩
      · exact Or.inr (Or.inr ⟨hno, leafTree q .leafEmpty, ⟨rfl, hempty, rfl⟩, rfl⟩)
  | leafList q type =>
      rcases leafPart_cases hs hshown with ⟨v, j, hv, hj⟩ | ⟨hno, hempty⟩
      · exact Or.inl ⟨leafTree q v, j, ⟨rfl, hv, rfl⟩, part_of_json hj⟩
      · exact Or.inr (Or.inr ⟨hno, leafTree q .leafEmpty, ⟨rfl, hempty, rfl⟩, rfl⟩)
  | container q presence children =>
      refine Or.inl ⟨.node q.module q.name (if presence then .containerPresence else .container)
        [], .null, instance_container_iff.mpr ⟨rfl, rfl, hbare⟩, ?_⟩
      cases presence <;> rfl
  | list q children =>
      exact Or.inr (Or.inl ⟨trivial, .node q.module q.name .list [],
        instance_list_iff.mpr ⟨rfl, rfl, hbare⟩, rfl⟩)

/-- A shown schema node has an instance with a part. -/
theorem exists_shown (hs : s.WellFormed) (hshown : s.Shown) :
    ∃ t p, s.Instance t ∧ t.part = .ok p := by
  rcases shown_cases hs hshown with ⟨t, j, ht, hp⟩ | ⟨-, t, ht, hp⟩ | ⟨-, t, ht, hp⟩ <;>
    exact ⟨t, _, ht, hp⟩

/-- **Instances of schema nodes that are not compatible collide.** -/
theorem collide_of_not_compatible (hs : s ∈ children) (hs' : s' ∈ children)
    (hwell : s.WellFormed) (hwell' : s'.WellFormed) (hne : s.name ≠ s'.name)
    (h : ¬ Compatible s s') : SiblingsCollide children := by
  simp only [Compatible, Classical.not_imp, not_or, not_not] at h
  obtain ⟨hlocal, hshown, hshown', hleft, hright⟩ := h
  rcases shown_cases hwell' hshown' with ⟨t', j', ht', hp'⟩ | hlist' | hempty'
  · obtain ⟨t, p, ht, hp⟩ := exists_shown hwell hshown
    exact collide_of_overwrite hs hs' hne hlocal ht ht' hp hp'
  all_goals
    rcases shown_cases hwell hshown with ⟨t, j, ht, hp⟩ | ⟨hlist, t, ht, hp⟩ | ⟨hempty, t, ht, hp⟩
    · obtain ⟨t', p', ht', hp'⟩ := exists_shown hwell' hshown'
      exact collide_of_overwrite hs' hs hne.symm hlocal.symm ht' ht hp' hp
  · obtain ⟨-, t', ht', hp'⟩ := hlist'
    exact collide_of_mixup hs hs' hne hlocal ht ht' hp hp'
  · exact absurd ⟨hempty, hlist'.1⟩ hright
  · exact absurd ⟨hlist, hempty'.1⟩ hleft
  · obtain ⟨-, t', ht', hp'⟩ := hempty'
    exact collide_of_mixup hs hs' hne hlocal ht ht' hp hp'

/-- Siblings that are not pairwise compatible collide. -/
theorem collide_of_not_pairwise (hnodup : (children.map name).Nodup)
    (hwell : ∀ s ∈ children, s.WellFormed) (h : ¬ children.Pairwise Compatible) :
    SiblingsCollide children := by
  by_contra hno
  refine h ((List.pairwise_map.mp hnodup).imp_of_mem fun {s s'} hs hs' hne => ?_)
  by_contra hcompat
  exact hno (collide_of_not_compatible hs hs' (hwell s hs) (hwell s' hs') hne hcompat)

/-- Roots with siblings that collide as their children have the same JSON and different
content. -/
theorem roots_of_collide (h : SiblingsCollide children) (q : QName) (data : Val) :
    ∃ trees trees' j, Siblings children trees ∧ Siblings children trees' ∧
      jsonTree (.node q.module q.name data trees) = .ok j ∧
      jsonTree (.node q.module q.name data trees') = .ok j ∧
      ¬ SameContent (.node q.module q.name data trees) (.node q.module q.name data trees') := by
  obtain ⟨trees, trees', m, q', htrees, htrees', hm, hm', hne⟩ := h
  refine ⟨trees, trees', Json.ofMembers m, htrees, htrees', jsonTree_eq_ok.mpr ⟨m, hm, rfl⟩,
    jsonTree_eq_ok.mpr ⟨m, hm', rfl⟩, ?_⟩
  rintro ⟨hsame⟩
  exact hne (hsame q')

/-- Such roots have the same part. -/
theorem parts_of_collide {children : List SchemaNode} (h : SiblingsCollide children)
    (q : QName) {data : Val} (hnested : data.IsNested) :
    ∃ trees trees' p, Siblings children trees ∧ Siblings children trees' ∧
      (Tree.node q.module q.name data trees).part = .ok p ∧
      (Tree.node q.module q.name data trees').part = .ok p ∧
      ¬ SameContent (.node q.module q.name data trees) (.node q.module q.name data trees') := by
  obtain ⟨trees, trees', j, htrees, htrees', hj, hj', hne⟩ := roots_of_collide h q data
  have hroot : (Tree.node q.module q.name data trees).data.IsNested := hnested
  have hdata : (Tree.node q.module q.name data trees').data =
      (Tree.node q.module q.name data trees).data := rfl
  obtain ⟨p, hp, hp'⟩ := part_of_jsonTree hroot hdata hj hj'
  exact ⟨trees, trees', p, htrees, htrees', hp, hp', hne⟩

mutual

/-- **What is not told collides**, beside whatever else there may be. -/
theorem collide_of_not_told : (s : SchemaNode) → s.WellFormed → ¬ s.Told →
    ∀ children, s ∈ children → SiblingsCollide children
  | leaf q type, hwell, h, children, hs => by
      simp only [Told, not_forall] at h
      obtain ⟨v, v', j, hv, hv', hj, hj', hne⟩ := h
      have ht : (leaf q type).Instance (leafTree q v) := ⟨rfl, hv, rfl⟩
      have ht' : (leaf q type).Instance (leafTree q v') := ⟨rfl, hv', rfl⟩
      refine collide_of_part hs ht ht' (part_of_json hj) (part_of_json hj') fun hsame => ?_
      cases hsame
      exact hne rfl
  | leafList q type, hwell, h, children, hs => by
      simp only [Told, not_forall, not_not] at h
      obtain ⟨v, j, hv, hj⟩ := h
      have ht : (leafList q type).Instance (leafTree q v) := ⟨rfl, hv, rfl⟩
      exact collide_of_repeats hs trivial ht (part_of_json hj)
  | container q presence below, hwell, h, children, hs => by
      obtain ⟨trees, trees', p, htrees, htrees', hp, hp', hne⟩ :=
        parts_of_collide (siblingsCollide below hwell h) q (isNested_presence presence)
      have hinstance {trees : List Tree} (htrees : Siblings below trees) :
          (container q presence below).Instance (.node q.module q.name
            (if presence then .containerPresence else .container) trees) :=
        instance_container_iff.mpr ⟨rfl, rfl, htrees⟩
      exact collide_of_part hs (hinstance htrees) (hinstance htrees') hp hp' hne
  | list q below, hwell, h, children, hs => by
      obtain ⟨trees, trees', p, htrees, htrees', hp, hp', hne⟩ :=
        parts_of_collide (siblingsCollide below hwell h) q (show Val.list.IsNested from Or.inl rfl)
      have hinstance {trees : List Tree} (htrees : Siblings below trees) :
          (list q below).Instance (.node q.module q.name .list trees) :=
        instance_list_iff.mpr ⟨rfl, rfl, htrees⟩
      exact collide_of_part hs (hinstance htrees) (hinstance htrees') hp hp' hne

theorem siblingsCollide : (below : List SchemaNode) →
    (below.map name).Nodup ∧ AllWellFormed below →
    ¬ (below.Pairwise Compatible ∧ AllTold below) → SiblingsCollide below
  | below, hwell, h => by
      by_cases hpairwise : below.Pairwise Compatible
      · exact collide_of_not_allTold below hwell.2 (fun htold => h ⟨hpairwise, htold⟩) below
          fun _ hs => hs
      · exact collide_of_not_pairwise hwell.1 (allWellFormed_iff.mp hwell.2) hpairwise

theorem collide_of_not_allTold : (some : List SchemaNode) → AllWellFormed some →
    ¬ AllTold some → ∀ children, (∀ s ∈ some, s ∈ children) → SiblingsCollide children
  | [], _, h, _, _ => absurd trivial h
  | s :: rest, hwell, h, children, hsub => by
      by_cases htold : s.Told
      · exact collide_of_not_allTold rest hwell.2 (fun hrest => h ⟨htold, hrest⟩) children
          fun s' hs' => hsub s' (List.mem_cons_of_mem _ hs')
      · exact collide_of_not_told s hwell.1 htold children (hsub s List.mem_cons_self)

end

end Collide

/-- The roots of a schema node whose text tells their content: no leaves that are shown, and
what is told otherwise. -/
def RootTold : SchemaNode → Prop
  | leaf q type => ¬ (leaf q type).Shown
  | leafList q type => ¬ (leafList q type).Shown
  | s => s.Told

end SchemaNode

/-! ### The text of a root -/

/-- The text `json_read` writes for a tree. -/
def ReadText (fastWriter : Json → String) (t : Tree) (text : String) : Prop :=
  ∃ j, jsonTree t = .ok j ∧ text = fastWriter j

/-- A root of a type `json_tree` supports. -/
def Tree.Supported (t : Tree) : Prop := t.data.IsNested ∨ ∃ p, t.data.leafPart = .ok p

/-- **The text of a root tells its content**, and is the JSON of its value for a leaf. -/
structure ContentTold (fastWriter : Json → String) (s : SchemaNode) : Prop where
  content : ∀ t t' text, s.Instance t → s.Instance t' → t.Supported → t'.Supported →
    ReadText fastWriter t text → ReadText fastWriter t' text → SameContent t t'
  leaf : ∀ t p text, s.Instance t → t.data.leafPart = .ok p → ReadText fastWriter t text →
    text = fastWriter p.alone

section ContentTold

variable {fastWriter : Json → String} {reader : String → Option Json} {s : SchemaNode}

/-- A text that is read back is written for one value only. -/
theorem readText_inj (hjson : ∀ j : Json, j.Canonical → reader (fastWriter j) = some j)
    {t t' : Tree} {text : String} (h : ReadText fastWriter t text)
    (h' : ReadText fastWriter t' text) : ∃ j, jsonTree t = .ok j ∧ jsonTree t' = .ok j := by
  obtain ⟨j, hj, rfl⟩ := h
  obtain ⟨j', hj', htext⟩ := h'
  have hread := hjson j (canonical_jsonTree t j hj)
  rw [htext, hjson j' (canonical_jsonTree t' j' hj')] at hread
  exact ⟨j, hj, Option.some.inj hread ▸ hj'⟩

/-- A container or list instance has no part as a leaf. -/
theorem leafPart_of_isNested {v : Val} {p : Part} (h : v.IsNested) : v.leafPart ≠ .ok p := by
  intro hp
  rcases h with rfl | rfl | rfl <;> cases hp

/-- **Instances with children** whose schema node is told have a text that tells them. -/
theorem contentTold_of_told (hjson : ∀ j : Json, j.Canonical → reader (fastWriter j) = some j)
    (hwell : s.WellFormed) (htold : s.Told) {data : Val} (hnested : data.IsNested)
    (hdata : ∀ t, s.Instance t → t.data = data) : ContentTold fastWriter s where
  content t t' text ht ht' _ _ h h' := by
    obtain ⟨j, hj, hj'⟩ := readText_inj hjson h h'
    obtain ⟨p, hp, hp'⟩ := SchemaNode.part_of_jsonTree ((hdata t ht).symm ▸ hnested)
      ((hdata t' ht').trans (hdata t ht).symm) hj hj'
    exact SchemaNode.sameContent_of_part s hwell htold t t' p ht ht' hp hp'
  leaf t p _ ht hp _ := absurd hp (leafPart_of_isNested ((hdata t ht).symm ▸ hnested))

/-- The JSON of a leaf is canonical and not null. -/
theorem alone_of_leafPart {v : Val} {p : Part} (hp : v.leafPart = .ok p) :
    p.alone.Canonical ∧ p.alone ≠ .null := by
  by_cases hempty : v = .leafEmpty
  · rw [hempty] at hp
    obtain rfl := Except.ok.inj hp
    exact ⟨Json.Canonical.arr fun x hx => List.mem_singleton.mp hx ▸ Json.Canonical.str _, by
      simp [Part.alone]⟩
  · by_cases hnested : v.IsNested
    · exact absurd hp (leafPart_of_isNested hnested)
    · rw [leafPart_scalar ⟨hnested, hempty⟩] at hp
      obtain ⟨x, hx, rfl⟩ := map_eq_ok.mp hp
      refine ⟨canonical_json hx, ?_⟩
      rintro rfl
      cases v <;> cases hx

/-- **The text of no leaf tells its value**: it is that of null. -/
theorem not_shown_of_contentTold {q : QName} {type : Val → Prop}
    (hjson : ∀ j : Json, j.Canonical → reader (fastWriter j) = some j)
    (hinstance : ∀ v, type v → s.Instance (SchemaNode.leafTree q v))
    (h : ContentTold fastWriter s) : ¬ ∃ v p, type v ∧ v.leafPart = .ok p := by
  rintro ⟨v, p, hv, hp⟩
  have htext := h.leaf _ p (fastWriter .null) (hinstance v hv) hp ⟨.null, rfl, rfl⟩
  obtain ⟨hcanonical, hne⟩ := alone_of_leafPart hp
  have hread := hjson .null Json.Canonical.null
  rw [htext, hjson _ hcanonical] at hread
  exact hne (Option.some.inj hread)

/-- Leaves that are never shown are no roots of a supported type. -/
theorem contentTold_of_not_shown {type : Val → Prop}
    (hinstance : ∀ t, s.Instance t → type t.data) (hleaf : ∀ v, type v → ¬ v.IsNested)
    (hno : ¬ ∃ v p, type v ∧ v.leafPart = .ok p) : ContentTold fastWriter s where
  content t _ _ ht _ hsupported _ _ _ := by
    rcases hsupported with hnested | ⟨p, hp⟩
    · exact absurd hnested (hleaf _ (hinstance t ht))
    · exact absurd ⟨t.data, p, hinstance t ht, hp⟩ hno
  leaf t p _ ht hp _ := absurd ⟨t.data, p, hinstance t ht, hp⟩ hno

/-- Where the children of roots collide, the text does not tell the content. -/
theorem not_contentTold_of_collide {children : List SchemaNode} {q : QName} {data : Val}
    (hnested : data.IsNested)
    (hinstance : ∀ trees, SchemaNode.Siblings children trees →
      s.Instance (.node q.module q.name data trees))
    (h : SchemaNode.SiblingsCollide children) : ¬ ContentTold fastWriter s := by
  intro htold
  obtain ⟨trees, trees', j, htrees, htrees', hj, hj', hne⟩ := SchemaNode.roots_of_collide h q data
  exact hne (htold.content _ _ (fastWriter j) (hinstance _ htrees) (hinstance _ htrees')
    (Or.inl hnested) (Or.inl hnested) ⟨j, hj, rfl⟩ ⟨j, hj', rfl⟩)

/-- **The text of a root tells its content exactly** for containers and list instances whose
schema node is told, and for no leaf that is shown. -/
theorem contentTold_iff (hwell : s.WellFormed)
    (hjson : ∀ j : Json, j.Canonical → reader (fastWriter j) = some j) :
    ContentTold fastWriter s ↔ s.RootTold := by
  cases s with
  | leaf q type =>
      exact ⟨not_shown_of_contentTold hjson fun v hv => ⟨rfl, hv, rfl⟩,
        contentTold_of_not_shown (fun t ht => ht.2.1) hwell⟩
  | leafList q type =>
      exact ⟨not_shown_of_contentTold hjson fun v hv => ⟨rfl, hv, rfl⟩,
        contentTold_of_not_shown (fun t ht => ht.2.1) hwell⟩
  | container q presence children =>
      have hnested := SchemaNode.isNested_presence presence
      constructor
      · intro h
        by_contra hno
        refine not_contentTold_of_collide (q := q) hnested (fun trees htrees => ?_)
          (SchemaNode.siblingsCollide children hwell hno) h
        exact SchemaNode.instance_container_iff.mpr ⟨rfl, rfl, htrees⟩
      · intro htold
        exact contentTold_of_told hjson hwell htold hnested fun t ht =>
          (SchemaNode.instance_container_iff.mp ht).2.1
  | list q children =>
      have hnested : Val.list.IsNested := Or.inl rfl
      constructor
      · intro h
        by_contra hno
        refine not_contentTold_of_collide (q := q) hnested (fun trees htrees => ?_)
          (SchemaNode.siblingsCollide children hwell hno) h
        exact SchemaNode.instance_list_iff.mpr ⟨rfl, rfl, htrees⟩
      · intro htold
        exact contentTold_of_told hjson hwell htold hnested fun t ht =>
          (SchemaNode.instance_list_iff.mp ht).2.1

/-- A container with a string and a list of numbers. -/
def usersSchema : SchemaNode :=
  .container ⟨"sys", "system"⟩ false
    [.leaf ⟨"sys", "hostname"⟩ fun v => ∃ s, v = .string s,
      .list ⟨"sys", "user"⟩ [.leaf ⟨"sys", "id"⟩ fun v => ∃ n, v = .uint16 n]]

theorem usersSchema_contentTold : ContentTold JsonText.write usersSchema := by
  have hwell : usersSchema.WellFormed := by
    simp [usersSchema, SchemaNode.WellFormed, SchemaNode.AllWellFormed, SchemaNode.name,
      Val.IsNested]
  have htold : usersSchema.RootTold := by
    simp only [usersSchema, SchemaNode.RootTold, SchemaNode.Told, SchemaNode.AllTold, and_true]
    refine ⟨by simp [SchemaNode.Compatible, SchemaNode.name], ?_, by simp, ?_⟩
    · rintro _ _ x ⟨s, rfl⟩ ⟨s', rfl⟩ hx hx'
      rw [Json.str.inj (Except.ok.inj (hx.trans hx'.symm))]
    · rintro _ _ x ⟨n, rfl⟩ ⟨n', rfl⟩ hx hx'
      have hnum := Json.num.inj (Except.ok.inj (hx.trans hx'.symm))
      rw [UInt16.toNat.inj (Int.ofNat.inj hnum)]
  exact (contentTold_iff hwell fun j _ => JsonText.parse_write j).mpr htold

/-- Two leaves with different values are read as the same text. -/
theorem not_contentTold : ¬ ∀ (fastWriter : Json → String) (reader : String → Option Json)
    (s : SchemaNode), s.WellFormed →
    (∀ j : Json, j.Canonical → reader (fastWriter j) = some j) → ContentTold fastWriter s := by
  intro h
  have hwell : (SchemaNode.leaf ⟨"sys", "hostname"⟩ fun v => ∃ s, v = .string s).WellFormed := by
    rintro v ⟨s, rfl⟩
    simp [Val.IsNested]
  have htold := h JsonText.write JsonText.parse _ hwell fun j _ => JsonText.parse_write j
  have hsame := htold.content (SchemaNode.leafTree ⟨"sys", "hostname"⟩ (.string "a"))
    (SchemaNode.leafTree ⟨"sys", "hostname"⟩ (.string "b")) (JsonText.write .null)
    ⟨rfl, ⟨_, rfl⟩, rfl⟩ ⟨rfl, ⟨_, rfl⟩, rfl⟩ (Or.inr ⟨_, rfl⟩) (Or.inr ⟨_, rfl⟩)
    ⟨.null, rfl, rfl⟩ ⟨.null, rfl, rfl⟩
  exact absurd (Val.string.inj hsame.data) (by decide)

end ContentTold

end SysrepoGnxi
