import SysrepoGnxi.Identify

/-!
# Whose Key a Result Carries

`json_read` returns a key and a JSON text for each tree an xpath selects. It sets the key
for list instances only, in a variable that outlives the round of the loop, and takes the
text of the key from the JSON it has just made of the tree.

`ownKeys_iff` says when every result carries the key of its own tree: when each list
instance shows its first child under the name of this child, and no tree of another kind
comes after a list instance, whose key it would carry.
-/

open Dialogue JsonDoc Lists

namespace SysrepoGnxi

variable (sch : Schema) (fastWriter : Json → String)

/-- The key of a tree: the name and the canonical text of the first child of a list
instance, and none for any other tree. -/
def ownKey (tree : Tree) : String × String :=
  match tree.data, tree.children with
  | .list, first :: _ => (first.name, sch.text first.data)
  | _, _ => ("", "")

/-- A result made of a tree alone: its key, and the text of its JSON. -/
def OwnResult (tree : Tree) (result : JsonData) : Prop :=
  result.key = ownKey sch tree ∧ ∃ val, jsonTree tree = .ok val ∧ result.data = fastWriter val

/-- A list instance **shows its first child**: the member that `json_tree` leaves under the
name of this child, which is that of the last child so named, has the text of the first. -/
def ShowsFirst (tree : Tree) : Prop :=
  ∀ first last, tree.children.head? = some first →
    lastNamed first.name tree.children = some last → last.data.shownText = sch.text first.data

/-- The key left after trees: that of the last list instance, or the one before them. -/
def keyLeft (previous : String × String) (trees : List Tree) : String × String :=
  trees.foldl (fun key tree => if tree.data = .list then ownKey sch tree else key) previous

/-- Trees whose results carry their own keys: every list instance shows its first child, and
where a tree of another kind comes no key is left. -/
structure KeysApart (trees : List Tree) : Prop where
  shown : ∀ tree ∈ trees, tree.data = .list → ShowsFirst sch tree
  noneLeft : ∀ pre tree post, trees = pre ++ tree :: post → tree.data ≠ .list →
    keyLeft sch ("", "") pre = ("", "")

/-! ### One tree -/

variable {sch fastWriter}

/-- A tree that is no list instance has no key. -/
theorem ownKey_of_ne_list {tree : Tree} (h : tree.data ≠ .list) : ownKey sch tree = ("", "") := by
  obtain ⟨module, name, data, children⟩ := tree
  cases data <;> first | rfl | exact absurd rfl h

/-- The key a list instance shows is its own if and only if it shows its first child. -/
theorem ownKey_eq_iff {tree : Tree} {key : String × String} (hlist : tree.data = .list)
    (h : shownKey tree = some key) : key = ownKey sch tree ↔ ShowsFirst sch tree := by
  obtain ⟨module, name, data, children⟩ := tree
  obtain rfl : data = .list := hlist
  cases children with
  | nil => cases h
  | cons first rest =>
      obtain ⟨last, hlast, hkey⟩ := Option.bind_eq_some_iff.mp h
      obtain rfl := Option.some.inj hkey
      simp only [ownKey, Tree.data, Tree.children, Prod.mk.injEq, true_and]
      constructor
      · intro heq first' last' hfirst' hlast'
        obtain rfl := Option.some.inj hfirst'
        obtain rfl := Option.some.inj (hlast.symm.trans hlast')
        exact heq
      · exact fun hshows => hshows first last rfl hlast

/-- **One round of the loop**: its result is the own one of the tree exactly if a list
instance shows its first child, and if no key is left for a tree of another kind. -/
theorem ownResult_iff {tree : Tree} {val : Json} {previous key : String × String}
    (hval : jsonTree tree = .ok val) (hkey : noteKey previous val tree = .ok key) :
    OwnResult sch fastWriter tree ⟨key, fastWriter val⟩ ↔
      (tree.data = .list → ShowsFirst sch tree) ∧ (tree.data ≠ .list → previous = ("", "")) := by
  have hown : OwnResult sch fastWriter tree ⟨key, fastWriter val⟩ ↔ key = ownKey sch tree :=
    ⟨fun h => h.1, fun h => ⟨h, val, hval, rfl⟩⟩
  rw [hown]
  by_cases hlist : tree.data = .list
  · rw [ownKey_eq_iff hlist (shownKey_of_noteKey hlist hval hkey)]
    simp [hlist]
  · obtain rfl := noteKey_of_ne_list hlist hkey
    rw [ownKey_of_ne_list hlist]
    simp [hlist]

/-- A result that is the own one of its tree leaves the key behind that the tree leaves. -/
theorem keyLeft_cons {tree : Tree} {val : Json} {previous key : String × String}
    (hkey : noteKey previous val tree = .ok key) (hown : key = ownKey sch tree)
    (pre : List Tree) : keyLeft sch previous (tree :: pre) = keyLeft sch key pre := by
  rw [keyLeft, List.foldl_cons]
  split_ifs with hlist
  · rw [← hown, keyLeft]
  · obtain rfl := noteKey_of_ne_list hlist hkey
    rw [keyLeft]

/-! ### The loop -/

/-- **The loop of `json_read`**, round by round. -/
theorem forall₂_ownResult_iff {trees : List Tree} {tmp : JsonData} {vec : List JsonData}
    (h : readTrees fastWriter tmp trees = .ok vec) :
    List.Forall₂ (OwnResult sch fastWriter) trees vec ↔
      ∀ pre tree post, trees = pre ++ tree :: post →
        (tree.data = .list → ShowsFirst sch tree) ∧
          (tree.data ≠ .list → keyLeft sch tmp.key pre = ("", "")) := by
  induction trees generalizing tmp vec with
  | nil =>
      obtain rfl := Except.ok.inj h
      simp
  | cons tree trees ih =>
      obtain ⟨val, key, vec', hval, hkey, hrest, rfl⟩ := readTrees_cons_eq_ok.mp h
      have hround : OwnResult sch fastWriter tree ⟨key, fastWriter val⟩ ↔ _ :=
        ownResult_iff hval hkey
      rw [List.forall₂_cons, forall_place_cons, hround]
      refine and_congr_right fun hown => ?_
      have hleft := keyLeft_cons hkey (hround.mpr hown).1
      rw [ih hrest]
      simp only [hleft]

theorem keysApart_iff {trees : List Tree} : KeysApart sch trees ↔
    ∀ pre tree post, trees = pre ++ tree :: post →
      (tree.data = .list → ShowsFirst sch tree) ∧
        (tree.data ≠ .list → keyLeft sch ("", "") pre = ("", "")) := by
  constructor
  · intro h pre tree post htrees
    exact ⟨h.shown tree (by simp [htrees]), h.noneLeft pre tree post htrees⟩
  · refine fun h => ⟨fun tree htree => ?_, fun pre tree post htrees => (h pre tree post htrees).2⟩
    obtain ⟨pre, post, htrees⟩ := List.append_of_mem htree
    exact (h pre tree post htrees).1

/-- `json_read` returns what its loop makes of the trees sysrepo selects. -/
theorem yields_jsonRead {xpath : String} {trees : List Tree} {vec : List JsonData} :
    Yields (jsonRead fastWriter xpath).run [⟨.getSubtrees (cStr xpath), .ok (some trees)⟩]
      (.ok vec) ↔ readTrees fastWriter {} trees = .ok vec := by
  rw [yields_jsonRead_iff]
  constructor
  · rintro ⟨reply, hevs, hvec⟩
    cases hevs
    exact hvec.symm
  · intro h
    exact ⟨_, rfl, h.symm⟩

/-- **Every result carries the key of its own tree exactly if** each list instance shows its
first child and no key is left where a tree of another kind comes. -/
theorem ownKeys_iff {xpath : String} {trees : List Tree} {vec : List JsonData}
    (h : Yields (jsonRead fastWriter xpath).run [⟨.getSubtrees (cStr xpath), .ok (some trees)⟩]
      (.ok vec)) :
    List.Forall₂ (OwnResult sch fastWriter) trees vec ↔ KeysApart sch trees := by
  rw [keysApart_iff]
  exact forall₂_ownResult_iff (yields_jsonRead.mp h)

/-- An instance of a list of interfaces. -/
def interfaceTree (name : String) : Tree :=
  .node "if" "interface" .list [.node "if" "name" (.string name) []]

/-- A schema without names, and with one text for every `decimal64`. -/
def namelessSchema : Schema := Schema.ofTable [] Schema.ofTable_nil

theorem interfaceTree_showsFirst (name : String) :
    ShowsFirst namelessSchema (interfaceTree name) := by
  intro first last hfirst hlast
  obtain rfl := Option.some.inj hfirst
  have hself : lastNamed "name" [Tree.node "if" "name" (.string name) []] =
      some (.node "if" "name" (.string name) []) := rfl
  obtain rfl := Option.some.inj (hself.symm.trans hlast)
  rfl

theorem twoInterfaces_ownKeys :
    List.Forall₂ (OwnResult namelessSchema fun _ => "")
      [interfaceTree "eth0", interfaceTree "eth1"]
      [⟨("name", "eth0"), ""⟩, ⟨("name", "eth1"), ""⟩] := by
  have hread : Yields (jsonRead (fun _ => "") "/if:interface").run
      [⟨.getSubtrees (cStr "/if:interface"),
        .ok (some [interfaceTree "eth0", interfaceTree "eth1"])⟩]
      (.ok [⟨("name", "eth0"), ""⟩, ⟨("name", "eth1"), ""⟩]) := yields_jsonRead.mpr rfl
  have hlist : ∀ tree ∈ [interfaceTree "eth0", interfaceTree "eth1"],
      tree.data = .list ∧ ShowsFirst namelessSchema tree := by
    intro tree htree
    rcases List.mem_pair.mp htree with rfl | rfl <;> exact ⟨rfl, interfaceTree_showsFirst _⟩
  refine (ownKeys_iff hread).mpr ⟨fun tree htree _ => (hlist tree htree).2, ?_⟩
  intro pre tree post htrees hne
  exact absurd (hlist tree (by simp [htrees])).1 hne

/-- A container read after a list instance carries the key of the list instance. -/
theorem not_ownKeys : ¬ ∀ (sch : Schema) (fastWriter : Json → String) (xpath : String)
    (trees : List Tree) (vec : List JsonData),
    Yields (jsonRead fastWriter xpath).run [⟨.getSubtrees (cStr xpath), .ok (some trees)⟩]
      (.ok vec) → List.Forall₂ (OwnResult sch fastWriter) trees vec := by
  intro h
  have hread : Yields (jsonRead (fun _ => "") "/*").run
      [⟨.getSubtrees (cStr "/*"),
        .ok (some [interfaceTree "eth0", .node "sys" "system" .container []])⟩]
      (.ok [⟨("name", "eth0"), ""⟩, ⟨("name", "eth0"), ""⟩]) := yields_jsonRead.mpr rfl
  have hown := h namelessSchema _ _ _ _ hread
  obtain ⟨-, hsystem⟩ := List.forall₂_cons.mp hown
  obtain ⟨⟨hkey, -⟩, -⟩ := List.forall₂_cons.mp hsystem
  exact absurd hkey (by decide)

end SysrepoGnxi
