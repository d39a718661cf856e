import SysrepoGnxi.Places

/-!
# Leaves and Leaf-Lists in JSON

What becomes of the leaves below a tree, at every depth, in the JSON `json_tree` returns for it.

* `rfc7951_iff` — each leaf is shown as RFC 7951 has it, for the types it is told for, exactly
  if none is a boolean, which is shown as a string, or empty, shown as an array of a string, and
  none is lost: the tree is no leaf itself, and no later sibling takes the place of a leaf or of
  a node above one;
* `keepsLeafLists_iff` — each leaf-list is shown as the array of its entries exactly if there
  is no entry at all: the loop sets the member of a scalar, so only the last entry stays.
-/

open JsonDoc

namespace SysrepoGnxi

/-! ### Leaves -/

/-- The JSON of a leaf by RFC 7951: integers of up to 32 bits are numbers and wider ones
strings, a boolean is one, an empty leaf is an array of null, and the other types are
strings. Instance-identifiers and `decimal64` are left out. -/
def Val.rfc7951 : Val → Option Json
  | uint8 n => some (.num n.toNat)
  | uint16 n => some (.num n.toNat)
  | uint32 n => some (.num n.toNat)
  | int8 n => some (.num n.toInt)
  | int16 n => some (.num n.toInt)
  | int32 n => some (.num n.toInt)
  | int64 n => some (.str (toString n.toInt))
  | uint64 n => some (.str (toString n.toNat))
  | bool b => some (.bool b)
  | leafEmpty => some (.arr [.null])
  | string s => some (.str s)
  | enumeration s => some (.str s)
  | identityref s => some (.str s)
  | bits s => some (.str s)
  | binary s => some (.str s)
  | _ => none

/-- **Each leaf is shown as RFC 7951 has it**: in the JSON `json_tree` returns for a tree, every
leaf of it, at any depth, has a place where nothing is set over it, and its JSON stands there. -/
def FollowsRfc7951 (t : Tree) (j : Json) : Prop :=
  ∀ forks v x, LeafOf t forks v → v.rfc7951 = some x →
    (∀ f ∈ forks, f.Kept) ∧ j.follow (wayOf forks) = some x

/-- A leaf whose type is told, but for the two, has its JSON from `json_tree`. -/
theorem json_of_rfc7951 {v : Val} {x : Json} (h : v.rfc7951 = some x)
    (hne : v ≠ .leafEmpty ∧ ∀ b, v ≠ .bool b) : v.IsScalar ∧ v.json = .ok x := by
  cases v with
  | leafEmpty => exact absurd rfl hne.1
  | bool b => exact absurd rfl (hne.2 b)
  | _ => cases h <;> exact ⟨⟨by simp [Val.IsNested], hne.1⟩, rfl⟩

/-- The JSON of a leaf is not that of a tree. -/
theorem jsonTree_ne_rfc7951 {t : Tree} {j : Json} (hj : jsonTree t = .ok j) (v : Val) :
    v.rfc7951 ≠ some j := by
  obtain ⟨m, -, rfl⟩ := jsonTree_eq_ok.mp hj
  intro h
  cases m <;> cases v <;> cases h

/-- A boolean and an empty leaf are shown otherwise. -/
theorem ne_of_shown {d : Tree} {f : Fork} {j x : Json} (hof : f.Of d) (hkept : f.Kept)
    (hj : jsonTree d = .ok j) (hx : f.child.data.rfc7951 = some x)
    (hshown : j.follow f.tokens = some x) :
    f.child.data ≠ .leafEmpty ∧ ∀ b, f.child.data ≠ .bool b := by
  constructor
  · intro hdata
    obtain ⟨elems, hfollow, hmem⟩ := Fork.follow_leafEmpty hof hkept hdata hj
    rw [hshown, ← hx, hdata] at hfollow
    obtain rfl : [Json.null] = elems := Json.arr.inj (Option.some.inj hfollow)
    cases List.mem_singleton.mp hmem
  · intro b hdata
    have hscalar : f.child.data.IsScalar := by simp [hdata, Val.IsScalar, Val.IsNested]
    obtain ⟨y, hy, hfollow⟩ := Fork.follow_scalar hof hkept hscalar hj
    rw [hshown] at hfollow
    obtain rfl := Option.some.inj hfollow
    rw [hdata] at hx hy
    cases hx
    cases hy

/-- **Leaves follow RFC 7951 exactly if none is a boolean or empty, or lost**: the tree is no leaf
itself, and nothing is set over a leaf, or over a node above one, later. -/
theorem rfc7951_iff {t : Tree} {j : Json} (h : jsonTree t = .ok j) :
    FollowsRfc7951 t j ↔
      ∀ forks v, LeafOf t forks v → v.rfc7951 ≠ none →
        (v ≠ .leafEmpty ∧ ∀ b, v ≠ .bool b) ∧ forks ≠ [] ∧ ∀ f ∈ forks, f.Kept := by
  constructor
  · intro hfollows forks v hleaf htold
    obtain ⟨x, hx⟩ := Option.ne_none_iff_exists'.mp htold
    obtain ⟨hkept, hshown⟩ := hfollows forks v x hleaf hx
    cases hleaf with
    | root =>
        obtain rfl : j = x := Option.some.inj hshown
        exact absurd hx (jsonTree_ne_rfc7951 h _)
    | @child d f forks hd hof _ =>
        obtain ⟨hforks, hf⟩ := List.forall_mem_append.mp hkept
        obtain ⟨y, hy, -⟩ := hd.follow hforks h
        rw [wayOf_concat, hd.follow_concat hforks h hy] at hshown
        exact ⟨ne_of_shown hof (hf f List.mem_cons_self) hy hx hshown, by simp, hkept⟩
  · intro hcond forks v x hleaf hx
    obtain ⟨hne, hroot, hkept⟩ := hcond forks v hleaf (by simp [hx])
    obtain ⟨hscalar, hvalue⟩ := json_of_rfc7951 hx hne
    obtain ⟨y, hy, hfollow⟩ := hleaf.follow hroot hkept hscalar h
    obtain rfl : y = x := Except.ok.inj (hy.symm.trans hvalue)
    exact ⟨hkept, hfollow⟩

/-- An only child is the child of every fork. -/
theorem Fork.of_only {f : Fork} {d c : Tree} (hof : f.Of d) (hd : d.children = [c]) :
    f.child = c ∧ f.Kept := by
  rw [Fork.Of, hd] at hof
  obtain ⟨pre, child, post⟩ := f
  rcases pre with _ | ⟨s, pre⟩
  · obtain ⟨rfl, rfl⟩ := List.cons.inj hof
    exact ⟨rfl, by simp [Fork.Kept]⟩
  · simp at hof

/-- A container with a number two levels below. -/
def clockTree : Tree :=
  .node "sys" "system" .container
    [.node "sys" "clock" .container [.node "sys" "utc-offset" (.int16 60) []]]

theorem clockTree_followsRfc7951 :
    FollowsRfc7951 clockTree (.obj [("clock", .obj [("utc-offset", .num 60)])]) := by
  refine (rfc7951_iff rfl).mpr fun forks v hleaf _ => ?_
  cases hleaf with
  | root hnot => exact absurd (Or.inr (Or.inl rfl)) hnot
  | child hd hof hnot =>
      cases hd with
      | root =>
          obtain ⟨hchild, -⟩ := Fork.of_only hof rfl
          rw [hchild] at hnot
          exact absurd (Or.inr (Or.inl rfl)) hnot
      | child hof' hnested' hd' =>
          obtain ⟨hchild', hkept'⟩ := Fork.of_only hof' rfl
          rw [hchild'] at hd'
          cases hd' with
          | root =>
              obtain ⟨hchild, hkept⟩ := Fork.of_only hof rfl
              simp [hchild, Tree.data, hkept, hkept']
          | child hof'' hnested'' _ =>
              obtain ⟨hchild'', -⟩ := Fork.of_only hof'' rfl
              rw [hchild''] at hnested''
              simp [Tree.data, Val.IsNested] at hnested''

/-- The only child of a container, a boolean. -/
def enabledFork : Fork := ⟨[], .node "sys" "enabled" (.bool true) [], []⟩

/-- A boolean is shown as a string. -/
theorem not_followsRfc7951 :
    ¬ ∀ (t : Tree) (j : Json), jsonTree t = .ok j → FollowsRfc7951 t j := by
  intro h
  have hnot : ¬ enabledFork.child.data.IsNested := by
    simp [enabledFork, Tree.data, Val.IsNested]
  have hleaf : LeafOf (.node "sys" "system" .container [enabledFork.child]) [enabledFork]
      (.bool true) := LeafOf.child (EnteredBy.root _) rfl hnot
  obtain ⟨-, hshown⟩ := h _ _ rfl _ _ _ hleaf rfl
  cases hshown

/-! ### Leaf-lists -/

/-- The children of a name. -/
def Tree.named (d : Tree) (k : String) : List Tree := d.children.filter fun c => c.name = k

/-- **Each leaf-list is shown as the array of its entries**, at any depth: nothing is set over
the tree it is in, and the array stands at its place in the JSON `json_tree` returns. Which names
of a tree are leaf-lists is up to the schema. -/
def KeepsLeafLists (isLeafList : Tree → String → Prop) (t : Tree) (j : Json) : Prop :=
  ∀ forks d, EnteredBy t forks d → ∀ k, isLeafList d k → d.named k ≠ [] →
    (∀ f ∈ forks, f.Kept) ∧ ∃ elems, j.follow (wayOf forks ++ [.member k]) = some (.arr elems) ∧
      List.Forall₂ (fun e x => e.data.json = .ok x) (d.named k) elems

/-- Of scalars under one name, the object has the value of the last. -/
theorem get_of_scalars {d e : Tree} {m : Members} (hm : jsonSiblings d.children [] = .ok m)
    (he : e ∈ d.children) (hscalar : ∀ c ∈ d.children, c.name = e.name → c.data.IsScalar) :
    ∃ v x, Val.json v = .ok x ∧ get e.name m = some x := by
  obtain ⟨last, hlast⟩ := exists_lastNamed he rfl
  obtain ⟨hname, pre, post, hchildren, hpost⟩ := split_of_lastNamed hlast
  rw [hchildren] at hm hscalar
  obtain ⟨val, val', -, hset, hrest⟩ := jsonSiblings_split hm
  rw [setMember_scalar (hscalar last (by simp) hname)] at hset
  obtain ⟨x, hx, hput⟩ := bind_eq_ok.mp hset
  obtain rfl := Except.ok.inj hput
  exact ⟨last.data, x, hx, by rw [get_jsonSiblings_of_absent hpost hrest, get_put, if_pos hname]⟩

/-- **Leaf-lists are kept exactly if they have no entries.** -/
theorem keepsLeafLists_iff {isLeafList : Tree → String → Prop} {t : Tree} {j : Json}
    (h : jsonTree t = .ok j)
    (hscalar : ∀ d k, isLeafList d k → ∀ e ∈ d.children, e.name = k → e.data.IsScalar) :
    KeepsLeafLists isLeafList t j ↔
      ∀ d, Entered t d → ∀ k, isLeafList d k → ∀ e ∈ d.children, e.name ≠ k := by
  constructor
  · rintro hkeeps d hd k hk e he rfl
    obtain ⟨forks, hforks⟩ := entered_iff.mp hd
    have hne : d.named e.name ≠ [] := List.ne_nil_of_mem (List.mem_filter.mpr ⟨he, by simp⟩)
    obtain ⟨hkept, elems, hfollow, -⟩ := hkeeps forks d hforks e.name hk hne
    obtain ⟨y, hy, -⟩ := hforks.follow hkept h
    obtain ⟨m, hm, rfl⟩ := jsonTree_eq_ok.mp hy
    obtain ⟨v, x, hx, hget⟩ := get_of_scalars hm he (hscalar d e.name hk)
    -- the value of a scalar stands where the array should
    rw [hforks.follow_concat hkept h hy, ofMembers_of_get hget, Json.follow_member hget] at hfollow
    exact json_ne_arr (Option.some.inj hfollow ▸ hx)
  · intro hno forks d hd k hk hne
    obtain ⟨e, he⟩ := List.exists_mem_of_ne_nil _ hne
    obtain ⟨he, hname⟩ := List.mem_filter.mp he
    exact absurd (by simpa using hname) (hno d (entered_iff.mpr ⟨forks, hd⟩) k hk e he)

/-- A container with a leaf-list of two entries. -/
def serversTree : Tree :=
  .node "sys" "dns" .container
    [.node "sys" "search" (.string "a.example") [], .node "sys" "search" (.string "b.example") []]

/-- The schema of that container: its leaf-list is the only one. -/
def isSearchList (d : Tree) (k : String) : Prop := d = serversTree ∧ k = "search"

theorem isSearchList_scalar (d : Tree) (k : String) (h : isSearchList d k) :
    ∀ e ∈ d.children, e.name = k → e.data.IsScalar := by
  obtain ⟨rfl, rfl⟩ := h
  intro e he _
  rcases List.mem_pair.mp he with rfl | rfl <;> simp [Tree.data, Val.IsScalar, Val.IsNested]

theorem serversTree_not_kept :
    ¬ KeepsLeafLists isSearchList serversTree (.obj [("search", .str "b.example")]) := fun hkeeps =>
  (keepsLeafLists_iff rfl isSearchList_scalar).mp hkeeps serversTree Entered.root "search"
    ⟨rfl, rfl⟩ _ List.mem_cons_self rfl

/-- Of the two entries of a leaf-list the second is shown. -/
theorem not_keepsLeafLists : ¬ ∀ (isLeafList : Tree → String → Prop) (t : Tree) (j : Json),
    jsonTree t = .ok j →
    (∀ d k, isLeafList d k → ∀ e ∈ d.children, e.name = k → e.data.IsScalar) →
    KeepsLeafLists isLeafList t j := by
  intro h
  have hkeeps := h isSearchList serversTree _ rfl isSearchList_scalar
  obtain ⟨-, elems, hfollow, -⟩ := hkeeps [] serversTree (EnteredBy.root _) "search" ⟨rfl, rfl⟩
    (List.cons_ne_nil _ _)
  cases hfollow

end SysrepoGnxi
