import SysrepoGnxi.GetSpec
import SysrepoGnxi.Rendering

/-!
# What Stops a Read

`json_read` and the loop that makes updates of its results throw at the first node they
cannot handle. The things that stop them are the obstacles of a forest, listed here in the
order in which the code comes to them: nodes of a type without JSON, siblings that append to
a member that is no array, list instances without a key that can be shown, and list keys for
a path without elements.

Two of them are thrown as exceptions that the handlers catch around `json_read`. A read is
`Harmless` if what stops it first, if anything, is of these; `readOutcome_ok_iff` says that
exactly then no exception leaves it.
-/

open Dialogue JsonDoc YangJson

namespace SysrepoGnxi

/-- What may stop a read. -/
inductive Obstacle where
  /-- A node of a type `json_tree` does not support. -/
  | unsupported
  /-- An instance-identifier, which is read with the getter of another type. -/
  | wrongGetter
  /-- A list instance or an empty leaf appends to a member that is no array. -/
  | notAppendable
  /-- A list instance without children is asked for its first child. -/
  | noFirstChild
  /-- The member of the first child of a list instance is an array or an object. -/
  | keyNotText
  /-- A list key is put in the last element of a path that has none. -/
  | noElement
deriving DecidableEq

/-- The exceptions thrown for it are caught around `json_read`. -/
def Obstacle.caught : Obstacle → Bool
  | unsupported => true
  | wrongGetter => true
  | _ => false

/-! ### The members of an object under construction -/

/-- The kinds of members that `append` and `asString` tell apart. -/
inductive MemberKind where
  | null
  | text
  | array
  | object
deriving DecidableEq

/-- The kind of a value. -/
def kindOf : Json → MemberKind
  | .null => .null
  | .arr _ => .array
  | .obj _ => .object
  | _ => .text

/-- The kind of the member a sibling leaves under its name. -/
def Tree.memberKind (t : Tree) : MemberKind :=
  match t.data, t.children with
  | .list, _ => .array
  | .leafEmpty, _ => .array
  | .container, [] => .null
  | .container, _ :: _ => .object
  | .containerPresence, [] => .null
  | .containerPresence, _ :: _ => .object
  | _, _ => .text

/-! ### The obstacles of a forest -/

/-- The obstacle a leaf is. -/
def Val.obstacles : Val → List Obstacle
  | .instanceid _ => [.wrongGetter]
  | .anydata => [.unsupported]
  | .anyxml => [.unsupported]
  | .unknown => [.unsupported]
  | .treeIterator => [.unsupported]
  | .notification => [.unsupported]
  | _ => []

/-- Appending under a name, after siblings the last of which has left a value there. -/
def appendObstacles (before : List Tree) (name : String) : List Obstacle :=
  match (lastNamed name before).map Tree.memberKind with
  | some .text => [.notAppendable]
  | some .object => [.notAppendable]
  | _ => []

/-- The obstacles a sibling brings, after those of `before`. `nested` are the obstacles
`json_tree` comes to in it. -/
def Tree.memberObstacles (nested : List Obstacle) (before : List Tree) (iter : Tree) :
    List Obstacle :=
  match iter.data with
  | .list => nested ++ appendObstacles before iter.name
  | .leafEmpty => appendObstacles before iter.name
  | .container => nested
  | .containerPresence => nested
  | v => v.obstacles

mutual

/-- The obstacles `json_tree` comes to, in order. -/
def Tree.obstacles : Tree → List Obstacle
  | .node _ _ _ children => siblingObstacles [] children

/-- The obstacles among siblings, after those of `before`. -/
def siblingObstacles (before : List Tree) : List Tree → List Obstacle
  | [] => []
  | iter :: rest =>
      iter.memberObstacles iter.obstacles before ++ siblingObstacles (before ++ [iter]) rest

end

/-- The obstacles on the way to the key of a result. -/
def Tree.keyObstacles (t : Tree) : List Obstacle :=
  match t.data, t.children with
  | .list, [] => [.noFirstChild]
  | .list, first :: rest =>
      match (lastNamed first.name (first :: rest)).map Tree.memberKind with
      | some .array => [.keyNotText]
      | some .object => [.keyNotText]
      | _ => []
  | _, _ => []

/-- A list instance whose first child has a name, which becomes the key of the result. -/
def Tree.givesKey (t : Tree) : Bool :=
  match t.data, t.children with
  | .list, first :: _ => first.name ≠ ""
  | _, _ => false

/-- The obstacles of `json_read` on the trees an xpath selects. -/
def forestObstacles (trees : List Tree) : List Obstacle :=
  trees.flatMap fun t => t.obstacles ++ t.keyObstacles

/-- The obstacles of the updates made for a path, which is `bare` if it has no elements. -/
def elementObstacles (bare : Bool) (trees : List Tree) : List Obstacle :=
  if bare = true ∧ ∃ tree ∈ trees, tree.givesKey = true then [.noElement] else []

/-- The obstacles of a read for a path. -/
def readObstacles (bare : Bool) (trees : List Tree) : List Obstacle :=
  forestObstacles trees ++ elementObstacles bare trees

/-! ### Stopping at the first obstacle -/

/-- A computation **stops at the first of the obstacles**, with an exception that is caught
around `json_read` if the obstacle is. -/
def StopsAt {α : Type} (obstacles : List Obstacle) (x : Except Exn α) : Prop :=
  match x with
  | .ok _ => obstacles = []
  | .error exc => ∃ o rest, obstacles = o :: rest ∧ (catchRead exc).isSome = o.caught

section StopsAt

variable {α β : Type} {obstacles obstacles₁ obstacles₂ : List Obstacle} {x : Except Exn α}
  {f : α → Except Exn β}

/-- **The sequencing rule**: the obstacles of the second part follow those of the first. -/
theorem StopsAt.bind (hx : StopsAt obstacles₁ x)
    (hf : ∀ a, x = .ok a → StopsAt obstacles₂ (f a)) :
    StopsAt (obstacles₁ ++ obstacles₂) (x >>= f) := by
  cases x with
  | ok a =>
      obtain rfl : obstacles₁ = [] := hx
      exact hf a rfl
  | error exc =>
      obtain ⟨o, rest, rfl, hcaught⟩ := hx
      exact ⟨o, rest ++ obstacles₂, rfl, hcaught⟩

/-- A second part without obstacles adds none. -/
theorem StopsAt.bind_ok (hx : StopsAt obstacles x)
    (hf : ∀ a, x = .ok a → StopsAt [] (f a)) : StopsAt obstacles (x >>= f) := by
  have h : StopsAt (obstacles ++ []) (x >>= f) := hx.bind hf
  rwa [List.append_nil] at h

theorem stopsAt_ok (a : α) : StopsAt [] (.ok a : Except Exn α) := rfl

theorem stopsAt_error {exc : Exn} {o : Obstacle} (h : (catchRead exc).isSome = o.caught) :
    StopsAt [o] (.error exc : Except Exn α) := ⟨o, [], rfl, h⟩

/-- A computation has a value exactly if nothing stops it. -/
theorem StopsAt.ok_iff (h : StopsAt obstacles x) : (∃ a, x = .ok a) ↔ obstacles = [] := by
  cases x with
  | ok a => exact ⟨fun _ => h, fun _ => ⟨a, rfl⟩⟩
  | error exc =>
      obtain ⟨o, rest, rfl, -⟩ := h
      simp

end StopsAt

/-! ### The loop over siblings -/

/-- A leaf is stopped by what it is. -/
theorem stopsAt_json {v : Val} (hscalar : v.IsScalar) : StopsAt v.obstacles v.json := by
  cases v with
  | list | container | containerPresence => exact absurd (by simp [Val.IsNested]) hscalar.1
  | leafEmpty => exact absurd rfl hscalar.2
  | instanceid s => exact stopsAt_error rfl
  | anydata | anyxml | unknown | treeIterator | notification => exact stopsAt_error rfl
  | _ => exact stopsAt_ok _

/-- The members set so far, as far as the siblings before tell their kinds. -/
def KindsOf (before : List Tree) (val : Members) : Prop :=
  ∀ k, (get k val).map kindOf = (lastNamed k before).map Tree.memberKind

theorem lastNamed_concat (k : String) (before : List Tree) (iter : Tree) :
    lastNamed k (before ++ [iter]) = if iter.name = k then some iter else lastNamed k before := by
  rw [lastNamed, List.reverse_append, List.reverse_singleton, List.singleton_append,
    List.find?_cons]
  split_ifs with h <;> simp [h, lastNamed]

/-- If the loop has passed a sibling, the object is not null. -/
theorem members_ne_nil_of_cons {iter : Tree} {rest : List Tree} {val m : Members}
    (h : jsonSiblings (iter :: rest) val = .ok m) : m ≠ [] := by
  obtain ⟨last, hlast⟩ := exists_lastNamed (List.mem_cons_self (a := iter) (l := rest)) rfl
  obtain ⟨hname, pre, post, hsplit, hpost⟩ := split_of_lastNamed hlast
  rw [hsplit, jsonSiblings_append] at h
  obtain ⟨val₁, -, h⟩ := bind_eq_ok.mp h
  rw [jsonSiblings_cons] at h
  obtain ⟨val₂, hset, h⟩ := bind_eq_ok.mp h
  obtain ⟨x, rfl, -⟩ := setMember_eq_ok hset
  have hget := get_jsonSiblings_of_absent hpost h
  rintro rfl
  simp [hname] at hget

/-- The JSON of a tree is null or an object, as it has no children or some. -/
theorem kindOf_jsonTree {t : Tree} {j : Json} (h : jsonTree t = .ok j) :
    kindOf j = if t.children = [] then .null else .object := by
  obtain ⟨m, hm, rfl⟩ := jsonTree_eq_ok.mp h
  cases hchildren : t.children with
  | nil =>
      rw [hchildren] at hm
      obtain rfl : [] = m := Except.ok.inj hm
      rfl
  | cons c rest =>
      rw [hchildren] at hm
      cases m with
      | nil => exact absurd rfl (members_ne_nil_of_cons hm)
      | cons e m => rfl

/-- The JSON of a leaf is a text or a number. -/
theorem kindOf_json {v : Val} {j : Json} (h : v.json = .ok j) : kindOf j = .text := by
  cases v <;> cases h <;> rfl

/-- The kind of the member that is made of a part. -/
def kindOfPart : Part → MemberKind
  | .single j => kindOf j
  | .entry _ => .array

/-- **The kind of a member** is that of the sibling that has set it. -/
theorem kindOf_part {t : Tree} {p : Part} (h : t.part = .ok p) :
    kindOfPart p = t.memberKind := by
  by_cases hnested : t.data.IsNested
  · obtain ⟨module, name, data, children⟩ := t
    rcases hnested with hdata | hdata | hdata <;> obtain rfl := hdata <;>
      obtain ⟨j, hj, rfl⟩ := map_eq_ok.mp h
    · rfl
    all_goals
      have hkind := kindOf_jsonTree hj
      cases children <;> exact hkind
  · rw [part_leaf hnested] at h
    obtain ⟨module, name, data, children⟩ := t
    by_cases hempty : data = .leafEmpty
    · subst hempty
      obtain rfl := Except.ok.inj h
      rfl
    · rw [leafPart_scalar ⟨hnested, hempty⟩] at h
      obtain ⟨j, hj, rfl⟩ := map_eq_ok.mp h
      rw [kindOfPart, kindOf_json hj]
      cases data with
      | list | container | containerPresence =>
          exact absurd (by simp [Val.IsNested, Tree.data]) hnested
      | leafEmpty => exact absurd rfl hempty
      | _ => rfl

/-- **One more sibling** leaves a member of its kind. -/
theorem KindsOf.setMember {before : List Tree} {val val' : Members} (h : KindsOf before val)
    {iter : Tree} (hset : setMember iter val = .ok val') : KindsOf (before ++ [iter]) val' := by
  obtain ⟨x, rfl, hx⟩ : ∃ x, val' = put iter.name x val ∧ kindOf x = iter.memberKind := by
    rw [setMember_eq] at hset
    obtain ⟨p, hp, hset⟩ := bind_eq_ok.mp hset
    have hkind := kindOf_part hp
    cases p with
    | single j => exact ⟨j, (Except.ok.inj hset).symm, hkind⟩
    | entry j =>
        obtain ⟨elems, rfl⟩ := appendMember_eq_ok hset
        exact ⟨_, rfl, hkind⟩
  intro k
  rw [get_put, lastNamed_concat]
  split_ifs
  · simp [hx]
  · exact h k

/-- Appending is stopped by a member that is a text or an object. -/
theorem KindsOf.stopsAt_appendMember {before : List Tree} {val : Members}
    (h : KindsOf before val) (name : String) (x : Json) :
    StopsAt (appendObstacles before name) (appendMember name x val) := by
  rw [appendObstacles, ← h name, appendMember]
  cases get name val with
  | none => exact stopsAt_ok _
  | some j =>
      cases j with
      | null | arr => exact stopsAt_ok _
      | _ => exact stopsAt_error rfl

/-- What stops the loop at a sibling, if `json_tree` stops at the obstacles of a tree. -/
theorem KindsOf.stopsAt_setMember {before : List Tree} {val : Members} (h : KindsOf before val)
    {iter : Tree} (htree : StopsAt iter.obstacles (jsonTree iter)) :
    StopsAt (iter.memberObstacles iter.obstacles before) (SysrepoGnxi.setMember iter val) := by
  by_cases hnested : iter.data.IsNested
  · rcases hnested with hdata | hdata | hdata <;> rw [SysrepoGnxi.setMember, setMemberWith,
      Tree.memberObstacles, hdata]
    · exact htree.bind fun x _ => h.stopsAt_appendMember _ _
    · exact htree.bind_ok fun x _ => stopsAt_ok _
    · exact htree.bind_ok fun x _ => stopsAt_ok _
  · by_cases hempty : iter.data = .leafEmpty
    · rw [SysrepoGnxi.setMember, setMemberWith, Tree.memberObstacles, hempty]
      exact h.stopsAt_appendMember _ _
    · have hleaf : StopsAt iter.data.obstacles
          (iter.data.json >>= fun x => pure (put iter.name x val)) :=
        (stopsAt_json ⟨hnested, hempty⟩).bind_ok fun x _ => stopsAt_ok _
      rw [setMember_scalar ⟨hnested, hempty⟩]
      obtain ⟨module, name, data, children⟩ := iter
      cases data with
      | list | container | containerPresence =>
          exact absurd (by simp [Val.IsNested, Tree.data]) hnested
      | leafEmpty => exact absurd rfl hempty
      | _ => exact hleaf

mutual

/-- **`json_tree` stops at the first obstacle** of the tree. -/
theorem stopsAt_jsonTree : (t : Tree) → StopsAt t.obstacles (jsonTree t)
  | .node _ _ _ children => by
      rw [Tree.obstacles, jsonTree]
      exact (stopsAt_jsonSiblings children fun _ => rfl).bind_ok fun _ _ => stopsAt_ok _

theorem stopsAt_jsonSiblings : (trees : List Tree) → ∀ {before : List Tree} {val : Members},
    KindsOf before val → StopsAt (siblingObstacles before trees) (jsonSiblings trees val)
  | [], _, _, _ => rfl
  | iter :: rest, _, _, h => by
      rw [siblingObstacles, jsonSiblings_cons]
      refine (h.stopsAt_setMember (stopsAt_jsonTree iter)).bind fun val' hset => ?_
      exact stopsAt_jsonSiblings rest (h.setMember hset)

end

/-! ### The loops of a read -/

/-- After the loop the members are as the siblings tell. -/
theorem KindsOf.jsonSiblings {trees before : List Tree} {val m : Members}
    (h : KindsOf before val) (hok : jsonSiblings trees val = .ok m) :
    KindsOf (before ++ trees) m := by
  induction trees generalizing before val with
  | nil =>
      obtain rfl := Except.ok.inj hok
      rwa [List.append_nil]
  | cons iter rest ih =>
      rw [jsonSiblings_cons] at hok
      obtain ⟨val', hset, hok⟩ := bind_eq_ok.mp hok
      rw [List.append_cons]
      exact ih (h.setMember hset) hok

/-- The text of a key is not to be had from an array or an object. -/
theorem stopsAt_asString (j : Json) : StopsAt
    (match some (kindOf j) with
      | some .array => [.keyNotText]
      | some .object => [.keyNotText]
      | _ => []) (asString j) := by
  cases j with
  | arr | obj => exact stopsAt_error rfl
  | _ => exact stopsAt_ok _

/-- What stops the round of a tree at its key. -/
theorem stopsAt_noteKey {tree : Tree} {val : Json} (hval : jsonTree tree = .ok val)
    (previous : String × String) :
    StopsAt tree.keyObstacles (noteKey previous val tree) := by
  by_cases hlist : tree.data = .list
  · cases hchildren : tree.children with
    | nil =>
        rw [Tree.keyObstacles, noteKey, hlist, hchildren]
        exact stopsAt_error rfl
    | cons first rest =>
        obtain ⟨m, hm, rfl⟩ := jsonTree_eq_ok.mp hval
        have hkinds : KindsOf ([] ++ tree.children) m := KindsOf.jsonSiblings (fun _ => rfl) hm
        have hfirst := hkinds first.name
        obtain ⟨last, hlast⟩ := exists_lastNamed (List.mem_cons_self (a := first) (l := rest)) rfl
        rw [List.nil_append, hchildren, hlast] at hfirst
        obtain ⟨x, hx, hkind⟩ := Option.map_eq_some_iff.mp hfirst
        rw [Tree.keyObstacles, noteKey, hlist, hchildren]
        dsimp only
        rw [hlast, Option.map_some, ← hkind, member_ofMembers, hx, Option.getD_some]
        exact (stopsAt_asString x).bind_ok fun _ _ => stopsAt_ok _
  · obtain ⟨module, name, data, children⟩ := tree
    cases data with
    | list => exact absurd rfl hlist
    | _ => exact stopsAt_ok _

/-- **`json_read` stops at the first obstacle** of the forest. -/
theorem stopsAt_readTrees (fastWriter : Json → String) (trees : List Tree) (tmp : JsonData) :
    StopsAt (forestObstacles trees) (readTrees fastWriter tmp trees) := by
  induction trees generalizing tmp with
  | nil => exact stopsAt_ok _
  | cons tree rest ih =>
      rw [forestObstacles, List.flatMap_cons, List.append_assoc]
      refine (stopsAt_jsonTree tree).bind fun val hval => ?_
      refine (stopsAt_noteKey hval tmp.key).bind fun key _ => ?_
      exact (ih _).bind_ok fun _ _ => stopsAt_ok _

/-- A result has a key if its tree or one before gives one. -/
theorem exists_key_iff {fastWriter : Json → String} {trees : List Tree} {tmp : JsonData}
    {vec : List JsonData} (h : readTrees fastWriter tmp trees = .ok vec) (htmp : tmp.key.1 = "") :
    (∃ it ∈ vec, it.key.1 ≠ "") ↔ ∃ tree ∈ trees, tree.givesKey = true := by
  induction trees generalizing tmp vec with
  | nil =>
      obtain rfl := Except.ok.inj h
      simp
  | cons tree rest ih =>
      obtain ⟨val, key, vec', -, hkey, hrest, rfl⟩ := readTrees_cons_eq_ok.mp h
      have hgives : key.1 ≠ "" ↔ tree.givesKey = true := by
        obtain ⟨module, name, data, children⟩ := tree
        cases data with
        | list =>
            cases children with
            | nil => cases hkey
            | cons first rest =>
                obtain ⟨text, -, hpure⟩ := bind_eq_ok.mp hkey
                obtain rfl := Except.ok.inj hpure
                simp [Tree.givesKey, Tree.data, Tree.children]
        | _ =>
            obtain rfl := Except.ok.inj hkey
            simp [htmp, Tree.givesKey, Tree.data]
      by_cases hnone : key.1 = ""
      · have hfalse : tree.givesKey = false := by
          rw [← Bool.not_eq_true, ← hgives]
          exact not_not_intro hnone
        simp only [List.exists_mem_cons_iff, hnone, ne_eq, not_true_eq_false, false_or, hfalse,
          Bool.false_eq_true]
        exact ih hrest hnone
      · simp [hnone, hgives.mp hnone]

/-- Putting a key into the last element fails on a path without elements only. -/
theorem stopsAt_putLastKey (key : String × String) (elem : List PathElem) :
    StopsAt (if elem = [] then [.noElement] else []) (putLastKey key elem) := by
  induction elem with
  | nil => exact stopsAt_error rfl
  | cons node rest ih =>
      cases rest with
      | nil => exact stopsAt_ok _
      | cons node' rest => exact ih.bind_ok fun _ _ => stopsAt_ok _

/-- The update of a result that has no key, or of a path that has elements. -/
theorem exists_treeUpdate {path : Path} {it : JsonData} (h : path.elem = [] → it.key.1 = "") :
    ∃ u, treeUpdate path it = .ok u := by
  rw [treeUpdate]
  split_ifs with hkey
  · have helem : path.elem ≠ [] := fun hnil => hkey (h hnil)
    have hstops := stopsAt_putLastKey it.key path.elem
    rw [if_neg helem] at hstops
    obtain ⟨elem, helem'⟩ := hstops.ok_iff.mpr rfl
    exact ⟨_, by rw [helem']; rfl⟩
  · exact ⟨_, rfl⟩

/-- **The loop of updates** is stopped by a key, if the path has no element for it. -/
theorem stopsAt_treeUpdates (path : Path) (vec : List JsonData) (us : List Update) :
    StopsAt (if path.elem = [] ∧ ∃ it ∈ vec, it.key.1 ≠ "" then [.noElement] else [])
      (treeUpdates path vec us) := by
  induction vec generalizing us with
  | nil =>
      rw [if_neg (by simp)]
      exact stopsAt_ok us
  | cons it rest ih =>
      by_cases hbad : path.elem = [] ∧ it.key.1 ≠ ""
      · obtain ⟨helem, hkey⟩ := hbad
        rw [if_pos ⟨helem, it, List.mem_cons_self, hkey⟩, treeUpdates, treeUpdate, if_pos hkey,
          helem]
        exact stopsAt_error rfl
      · have hnokey : path.elem = [] → it.key.1 = "" :=
          fun helem => by_contra fun hkey => hbad ⟨helem, hkey⟩
        obtain ⟨u, hu⟩ := exists_treeUpdate hnokey
        have hsame : (path.elem = [] ∧ ∃ it' ∈ it :: rest, it'.key.1 ≠ "") ↔
            path.elem = [] ∧ ∃ it' ∈ rest, it'.key.1 ≠ "" := by
          rw [List.exists_mem_cons_iff]
          tauto
        rw [if_congr hsame rfl rfl, treeUpdates, hu]
        exact ih _

/-! ### A whole read -/

/-- The reply of `get_subtrees` is **harmless** for a path: an error that is caught, no
trees, or trees of which the first obstacle, if there is one, is caught. -/
def Harmless (bare : Bool) : Except Exn (Option (List Tree)) → Prop
  | .error exc => (catchRead exc).isSome = true
  | .ok none => True
  | .ok (some trees) => ∀ o ∈ (readObstacles bare trees).head?, o.caught = true

theorem readFailure_ok_iff (exc : Exn) :
    (∃ o, readFailure exc = .ok o) ↔ (catchRead exc).isSome = true := by
  rw [readFailure]
  cases catchRead exc <;> simp

/-- **No exception leaves a read exactly if the reply is harmless.** -/
theorem readOutcome_ok_iff (fastWriter : Json → String) (path : Path) (us : List Update)
    (reply : Except Exn (Option (List Tree))) :
    (∃ o, readOutcome fastWriter path us reply = .ok o) ↔ Harmless path.elem.isEmpty reply := by
  rcases reply with exc | _ | trees
  · exact readFailure_ok_iff exc
  · simp [readOutcome, jsonOutcome, readFailure, catchRead, Exn.isInvalidArgument, Harmless]
  · have hread := stopsAt_readTrees fastWriter trees {}
    rw [readOutcome, jsonOutcome, Harmless, readObstacles]
    cases hvec : readTrees fastWriter {} trees with
    | error exc =>
        rw [hvec] at hread
        obtain ⟨o, rest, hobstacles, hcaught⟩ := hread
        rw [hobstacles]
        simpa [← hcaught] using readFailure_ok_iff exc
    | ok vec =>
        rw [hvec] at hread
        have hnone : forestObstacles trees = [] := hread
        have hkeys := exists_key_iff hvec rfl
        have hupdates := stopsAt_treeUpdates path vec us
        rw [if_congr (and_congr List.isEmpty_iff.symm hkeys) rfl rfl, ← elementObstacles]
          at hupdates
        rw [hnone, List.nil_append]
        have hmap : (∃ o, (treeUpdates path vec us).map (Except.ok (ε := Status)) = .ok o) ↔
            ∃ us', treeUpdates path vec us = .ok us' := by
          cases treeUpdates path vec us <;> simp [Except.map]
        rw [hmap, hupdates.ok_iff, elementObstacles]
        split_ifs <;> simp [Obstacle.caught]

end SysrepoGnxi
