import SysrepoGnxi.Rendering

/-!
# Places in the JSON of a Tree

A node below a tree is told by the siblings around it and around each node above it: a list of
forks. Where nothing is set over them later (`Fork.Kept`), what `json_tree` makes of the node
stands in the JSON of the tree, at the place its names and the numbers of its list instances
lead to (`EnteredBy.follow`, `LeafOf.follow`).
-/

open JsonDoc YangJson

namespace SysrepoGnxi

/-! ### Arrays under construction -/

/-- The loop of `json_tree` appends for a list instance and for an empty leaf. -/
def Tree.Appends (t : Tree) : Prop := t.data = .list ∨ t.data = .leafEmpty

instance (t : Tree) : Decidable t.Appends := inferInstanceAs (Decidable (_ ∨ _))

/-- The part of a sibling is an entry exactly if the loop appends for it. -/
theorem appends_iff {t : Tree} {p : Part} (h : t.part = .ok p) :
    t.Appends ↔ ∃ x, p = .entry x := by
  by_cases hnested : t.data.IsNested
  · rcases hnested with hdata | hdata | hdata <;> rw [Tree.part, hdata] at h <;>
      (obtain ⟨x, -, rfl⟩ := map_eq_ok.mp h; simp [Tree.Appends, hdata])
  · rw [part_leaf hnested] at h
    by_cases hempty : t.data = .leafEmpty
    · rw [hempty] at h
      obtain rfl := Except.ok.inj h
      simp [Tree.Appends, hempty]
    · rw [leafPart_scalar ⟨hnested, hempty⟩] at h
      obtain ⟨x, -, rfl⟩ := map_eq_ok.mp h
      have hlist : t.data ≠ .list := fun hdata => hnested (Or.inl hdata)
      simp [Tree.Appends, hlist, hempty]

/-- The elements of an array; there are none in any other value. -/
def elementsOf : Option Json → List Json
  | some (.arr elems) => elems
  | _ => []

/-- An appended value follows the elements there are. -/
theorem appendMember_elements {k : String} {x : Json} {val val' : Members}
    (h : appendMember k x val = .ok val') :
    val' = put k (.arr (elementsOf (get k val) ++ [x])) val := by
  rw [appendMember] at h
  split at h
  · next hget => rw [hget]; exact (Except.ok.inj h).symm
  · next hget => rw [hget]; exact (Except.ok.inj h).symm
  · next elems hget => rw [hget]; exact (Except.ok.inj h).symm
  · cases h

/-- **What one sibling leaves under a name**: what was there, if it has another name; the value
it sets; or the array with the value it appends. -/
theorem get_setMember {c : Tree} {val val' : Members} (h : setMember c val = .ok val')
    (k : String) :
    c.name ≠ k ∧ get k val' = get k val ∨
      c.name = k ∧ ¬ c.Appends ∧ (∃ x, c.part = .ok (.single x) ∧ get k val' = some x) ∨
      c.name = k ∧ c.Appends ∧ ∃ x, c.part = .ok (.entry x) ∧
        get k val' = some (.arr (elementsOf (get k val) ++ [x])) := by
  rw [setMember_eq] at h
  obtain ⟨p, hp, hset⟩ := bind_eq_ok.mp h
  have hentry := appends_iff hp
  by_cases hk : c.name = k
  · subst hk
    cases p with
    | single x =>
        obtain rfl := Except.ok.inj hset
        have hnot : ¬ c.Appends := by rw [hentry]; simp
        exact Or.inr (Or.inl ⟨rfl, hnot, x, hp, by rw [get_put, if_pos rfl]⟩)
    | entry x =>
        obtain rfl := appendMember_elements hset
        exact Or.inr (Or.inr ⟨rfl, hentry.mpr ⟨x, rfl⟩, x, hp, by rw [get_put, if_pos rfl]⟩)
  · refine Or.inl ⟨hk, ?_⟩
    cases p with
    | single x =>
        obtain rfl := Except.ok.inj hset
        rw [get_put, if_neg hk]
    | entry x =>
        obtain rfl := appendMember_elements hset
        rw [get_put, if_neg hk]

/-- How many of the last siblings of a name are appended in a row. -/
def trailing (k : String) (trees : List Tree) : ℕ :=
  ((trees.reverse.filter fun t => t.name = k).takeWhile fun t => t.Appends).length

/-- **The array of a name** has an element for each sibling appended since the member was set
last. The induction is on the siblings, from the last. -/
theorem length_elementsOf {trees : List Tree} {val : Members}
    (h : jsonSiblings trees [] = .ok val) (k : String) :
    (elementsOf (get k val)).length = trailing k trees := by
  induction trees using List.reverseRecOn generalizing val with
  | nil =>
      obtain rfl : [] = val := Except.ok.inj h
      rfl
  | append_singleton trees c ih =>
      obtain ⟨before, val', hbefore, hset, hnil⟩ := jsonSiblings_split h
      obtain rfl : val' = val := Except.ok.inj hnil
      have hlength := ih hbefore
      rw [trailing, List.reverse_append, List.reverse_singleton, List.singleton_append]
      rcases get_setMember hset k with
        ⟨hk, hget⟩ | ⟨hk, hnot, x, hp, hget⟩ | ⟨hk, happ, x, hp, hget⟩
      · rw [hget, List.filter_cons_of_neg (by simpa using hk), ← trailing]
        exact hlength
      · rw [hget, List.filter_cons_of_pos (by simpa using hk),
          List.takeWhile_cons_of_neg (by simpa using hnot)]
        cases x with
        | arr elems => exact absurd hp single_ne_arr
        | _ => rfl
      · rw [hget, List.filter_cons_of_pos (by simpa using hk),
          List.takeWhile_cons_of_pos (by simpa using happ), List.length_cons, ← trailing, ← hlength]
        exact List.length_append

/-- Where siblings only append, what was in the array stays in front. -/
theorem elements_of_appends {trees : List Tree} {k : String} {elems : List Json}
    {val m : Members} (happ : ∀ t ∈ trees, t.name = k → t.Appends)
    (hval : get k val = some (.arr elems)) (h : jsonSiblings trees val = .ok m) :
    ∃ more, get k m = some (.arr (elems ++ more)) := by
  induction trees generalizing elems val with
  | nil =>
      obtain rfl : val = m := Except.ok.inj h
      exact ⟨[], by rw [List.append_nil, hval]⟩
  | cons c trees ih =>
      rw [jsonSiblings_cons] at h
      obtain ⟨val', hset, hrest⟩ := bind_eq_ok.mp h
      have hrestApp := fun t ht => happ t (List.mem_cons_of_mem _ ht)
      rcases get_setMember hset k with ⟨hk, hget⟩ | ⟨hk, hnot, -⟩ | ⟨hk, -, x, -, hget⟩
      · rw [hval] at hget
        exact ih hrestApp hget hrest
      · exact absurd (happ c List.mem_cons_self hk) hnot
      · rw [hval] at hget
        obtain ⟨more, hmore⟩ := ih hrestApp hget hrest
        exact ⟨x :: more, by rw [hmore, elementsOf, List.append_assoc]; rfl⟩

/-! ### Forks -/

/-- A child of a tree, between the siblings before and after it. -/
structure Fork where
  pre : List Tree
  child : Tree
  post : List Tree

namespace Fork

/-- The children of a tree fork so. -/
def Of (f : Fork) (d : Tree) : Prop := d.children = f.pre ++ f.child :: f.post

/-- The number of a list instance among the elements of its array. -/
def index (f : Fork) : ℕ := trailing f.child.name f.pre

/-- The steps to what `json_tree` makes of the child. -/
def tokens (f : Fork) : List Json.Token :=
  if f.child.data = .list then [.member f.child.name, .element f.index]
  else [.member f.child.name]

/-- **Nothing is set over the child later**: no later sibling has its name, unless both are
appended to one array. -/
def Kept (f : Fork) : Prop :=
  ∀ s ∈ f.post, s.name = f.child.name → f.child.data = .list ∧ s.Appends

/-- What stands under the name of a child that is kept. -/
theorem shown {f : Fork} {d : Tree} {j : Json} (hof : f.Of d) (hkept : f.Kept)
    (hj : jsonTree d = .ok j) :
    ∃ m, j = .obj m ∧
      ((∃ x, f.child.part = .ok (.single x) ∧ get f.child.name m = some x) ∨
        ∃ x elems, f.child.part = .ok (.entry x) ∧ get f.child.name m = some (.arr elems) ∧
          elems[f.index]? = some x) := by
  obtain ⟨m, hm, rfl⟩ := jsonTree_eq_ok.mp hj
  rw [hof] at hm
  obtain ⟨val, val', hpre, hset, hpost⟩ := jsonSiblings_split hm
  rcases get_setMember hset f.child.name with ⟨hk, -⟩ | ⟨-, hnot, x, hp, hget⟩ |
    ⟨-, -, x, hp, hget⟩
  · exact absurd rfl hk
  · have hlast : ∀ s ∈ f.post, s.name ≠ f.child.name :=
      fun s hs hname => hnot (Or.inl (hkept s hs hname).1)
    rw [← get_jsonSiblings_of_absent hlast hpost] at hget
    exact ⟨m, ofMembers_of_get hget, Or.inl ⟨x, hp, hget⟩⟩
  · obtain ⟨more, hmore⟩ :=
      elements_of_appends (fun s hs hname => (hkept s hs hname).2) hget hpost
    refine ⟨m, ofMembers_of_get hmore, Or.inr ⟨x, _, hp, hmore, ?_⟩⟩
    have hindex : f.index = (elementsOf (get f.child.name val)).length :=
      (length_elementsOf hpre _).symm
    rw [List.append_assoc, hindex, List.getElem?_append_right le_rfl, Nat.sub_self]
    rfl

/-- A list instance or a container that is kept stands at its place. -/
theorem follow_nested {f : Fork} {d : Tree} {j : Json} (hof : f.Of d) (hkept : f.Kept)
    (hnested : f.child.data.IsNested) (hj : jsonTree d = .ok j) :
    ∃ x, jsonTree f.child = .ok x ∧ j.follow f.tokens = some x := by
  obtain ⟨m, rfl, hshown⟩ := shown hof hkept hj
  rcases hnested with hdata | hdata | hdata
  · rcases hshown with ⟨x, hp, -⟩ | ⟨x, elems, hp, hget, helem⟩ <;>
      rw [Tree.part, hdata] at hp <;> obtain ⟨y, hy, heq⟩ := map_eq_ok.mp hp
    · cases heq
    · obtain rfl := Part.entry.inj heq
      rw [tokens, if_pos hdata]
      exact ⟨y, hy, by rw [Json.follow_member hget, Json.follow_element helem]; rfl⟩
  all_goals
    rcases hshown with ⟨x, hp, hget⟩ | ⟨x, elems, hp, -, -⟩ <;>
      rw [Tree.part, hdata] at hp <;> obtain ⟨y, hy, heq⟩ := map_eq_ok.mp hp
    · obtain rfl := Part.single.inj heq
      rw [tokens, if_neg (by simp [hdata])]
      exact ⟨y, hy, by rw [Json.follow_member hget]; rfl⟩
    · cases heq

/-- A leaf that is kept stands at its place. -/
theorem follow_scalar {f : Fork} {d : Tree} {j : Json} (hof : f.Of d) (hkept : f.Kept)
    (hscalar : f.child.data.IsScalar) (hj : jsonTree d = .ok j) :
    ∃ x, f.child.data.json = .ok x ∧ j.follow f.tokens = some x := by
  have hdata : f.child.data ≠ .list := fun h => hscalar.1 (Or.inl h)
  obtain ⟨m, rfl, hshown⟩ := shown hof hkept hj
  rw [part_leaf hscalar.1, leafPart_scalar hscalar] at hshown
  rcases hshown with ⟨x, hp, hget⟩ | ⟨x, elems, hp, -, -⟩ <;>
    obtain ⟨y, hy, heq⟩ := map_eq_ok.mp hp
  · obtain rfl := Part.single.inj heq
    rw [tokens, if_neg hdata]
    exact ⟨y, hy, by rw [Json.follow_member hget]; rfl⟩
  · cases heq

/-- An empty leaf that is kept has its text in an array. -/
theorem follow_leafEmpty {f : Fork} {d : Tree} {j : Json} (hof : f.Of d) (hkept : f.Kept)
    (hdata : f.child.data = .leafEmpty) (hj : jsonTree d = .ok j) :
    ∃ elems, j.follow f.tokens = some (.arr elems) ∧ Json.str "null" ∈ elems := by
  have hleaf : ¬ f.child.data.IsNested := by simp [hdata, Val.IsNested]
  obtain ⟨m, rfl, hshown⟩ := shown hof hkept hj
  rw [part_leaf hleaf, hdata] at hshown
  rw [tokens, if_neg (by simp [hdata])]
  rcases hshown with ⟨x, hp, -⟩ | ⟨x, elems, hp, hget, helem⟩
  · cases hp
  · obtain rfl := Part.entry.inj (Except.ok.inj hp)
    exact ⟨elems, by rw [Json.follow_member hget]; rfl, List.mem_of_getElem? helem⟩

end Fork

/-! ### Nodes below a tree -/

/-- The place that forks lead to. -/
def wayOf (forks : List Fork) : List Json.Token := forks.flatMap Fork.tokens

/-- `json_tree` comes to a tree, by forks at the list instances and containers above it. -/
inductive EnteredBy : Tree → List Fork → Tree → Prop
  | root (t : Tree) : EnteredBy t [] t
  | child {d e : Tree} {f : Fork} {forks : List Fork} :
      f.Of d → f.child.data.IsNested → EnteredBy f.child forks e → EnteredBy d (f :: forks) e

/-- **The leaves of a tree**: the tree itself, or a child of a tree `json_tree` comes to. -/
inductive LeafOf (t : Tree) : List Fork → Val → Prop
  | root : ¬ t.data.IsNested → LeafOf t [] t.data
  | child {d : Tree} {f : Fork} {forks : List Fork} :
      EnteredBy t forks d → f.Of d → ¬ f.child.data.IsNested → LeafOf t (forks ++ [f]) f.child.data

/-- The trees that are entered are those that forks lead to. -/
theorem entered_iff {t d : Tree} : Entered t d ↔ ∃ forks, EnteredBy t forks d := by
  constructor
  · have hsnoc {t d : Tree} {forks : List Fork} (h : EnteredBy t forks d) {f : Fork} (hof : f.Of d)
        (hnested : f.child.data.IsNested) : EnteredBy t (forks ++ [f]) f.child := by
      induction h with
      | root t => exact EnteredBy.child hof hnested (EnteredBy.root _)
      | child hof' hnested' _ ih => exact EnteredBy.child hof' hnested' (ih hof)
    intro h
    induction h with
    | root => exact ⟨[], EnteredBy.root t⟩
    | child _ hmem hnested ih =>
        obtain ⟨forks, hforks⟩ := ih
        obtain ⟨pre, post, hchildren⟩ := List.append_of_mem hmem
        exact ⟨_, hsnoc hforks (f := ⟨pre, _, post⟩) hchildren hnested⟩
  · rintro ⟨forks, h⟩
    have htrans {s : Tree} (hs : Entered s t) : Entered s d := by
      induction h with
      | root => exact hs
      | child hof hnested _ ih =>
          exact ih (Entered.child hs (hof ▸ by simp) hnested)
    exact htrans Entered.root

/-- **What is kept stands at its place**: induction on the depth. -/
theorem EnteredBy.follow {t d : Tree} {forks : List Fork} (h : EnteredBy t forks d)
    (hkept : ∀ f ∈ forks, f.Kept) {j : Json} (hj : jsonTree t = .ok j) :
    ∃ x, jsonTree d = .ok x ∧ j.follow (wayOf forks) = some x := by
  induction h generalizing j with
  | root => exact ⟨j, hj, rfl⟩
  | child hof hnested _ ih =>
      obtain ⟨hhead, hrest⟩ := List.forall_mem_cons.mp hkept
      obtain ⟨x, hx, hfollow⟩ := Fork.follow_nested hof hhead hnested hj
      obtain ⟨y, hy, hfollow'⟩ := ih hrest hx
      refine ⟨y, hy, ?_⟩
      rw [wayOf, List.flatMap_cons, Json.follow_append, hfollow]
      exact hfollow'

/-- What is in a tree that is kept goes on from its place. -/
theorem EnteredBy.follow_concat {t d : Tree} {forks : List Fork} (h : EnteredBy t forks d)
    (hkept : ∀ f ∈ forks, f.Kept) {j x : Json} (hj : jsonTree t = .ok j)
    (hx : jsonTree d = .ok x) (way : List Json.Token) :
    j.follow (wayOf forks ++ way) = x.follow way := by
  obtain ⟨y, hy, hfollow⟩ := h.follow hkept hj
  obtain rfl : x = y := Except.ok.inj (hx.symm.trans hy)
  rw [Json.follow_append, hfollow]
  rfl

theorem wayOf_concat (forks : List Fork) (f : Fork) :
    wayOf (forks ++ [f]) = wayOf forks ++ f.tokens := by
  simp [wayOf]

/-- **A scalar that is kept stands at its place**, unless it is the tree itself. -/
theorem LeafOf.follow {t : Tree} {forks : List Fork} {v : Val} (h : LeafOf t forks v)
    (hne : forks ≠ []) (hkept : ∀ f ∈ forks, f.Kept) (hscalar : v.IsScalar) {j : Json}
    (hj : jsonTree t = .ok j) : ∃ x, v.json = .ok x ∧ j.follow (wayOf forks) = some x := by
  cases h with
  | root => exact absurd rfl hne
  | @child d f forks hd hof hleaf =>
      obtain ⟨hforks, hf⟩ := List.forall_mem_append.mp hkept
      obtain ⟨y, hy, -⟩ := hd.follow hforks hj
      obtain ⟨x, hx, hfollow⟩ := Fork.follow_scalar hof (hf f List.mem_cons_self) hscalar hy
      exact ⟨x, hx, by rw [wayOf_concat, hd.follow_concat hforks hj hy, hfollow]⟩

end SysrepoGnxi
