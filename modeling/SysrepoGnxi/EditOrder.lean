import SysrepoGnxi.Failures
import SysrepoGnxi.Lib.Preorder
import SysrepoGnxi.Lossless
import SysrepoGnxi.Placement

/-!
# The Order of a Document's Edits

`store_tree` creates a list instance before it populates the leaves in it. For a tree without
leafrefs and unsupported types `storeTree_parentFirst` says what its `set_item` calls are:
one for each list instance and each leaf that is no key, at its own path, and after those of
the instances around it; up to the first that fails.

The tree as `tree_dfs()` walks it is a tree of labels (`DataNode.rose`), so the order comes
from the general facts about such walks.
-/

open Dialogue Preorder

namespace SysrepoGnxi

/-! ### Places in a tree -/

namespace DataNode

/-- The node at a place below a node, with its path; a place is the list of child indices on
the way. -/
def nodeAt (parent : NodeRef) (node : DataNode) : List ℕ → Option (NodeRef × DataNode)
  | [] => some (parent ++ [node.step], node)
  | i :: pos => node.children[i]?.bind fun child => nodeAt (parent ++ [node.step]) child pos

/-- The call that a node should make: a list instance is created and a leaf that is no key is
set, each at its own path. -/
def ownCall (path : NodeRef) : DataNode → Option (ItemPath × Option Val)
  | leaf _ isKey value =>
      if isKey then none else value.toVal.toOption.map fun val => (.dataNode path, some val)
  | list _ _ _ => some (.dataNode path, some .list)
  | _ => none

/-- A tree without leafrefs and unsupported types. -/
def Plain (node : DataNode) : Prop :=
  ∀ it ∈ treeDfs [] node, ∀ name isKey value, it.2 = .leaf name isKey value →
    ∃ val, value.toVal = .ok val

mutual

/-- The tree of the nodes `tree_dfs()` comes by, each with its path. -/
def rose (parent : NodeRef) : DataNode → Rose (NodeRef × DataNode)
  | leaf name isKey value => .node (parent ++ [.leaf name], leaf name isKey value) []
  | leaflist name value => .node (parent ++ [.leaflist name value], leaflist name value) []
  | list name keys children =>
      .node (parent ++ [.list name keys], list name keys children)
        (roses (parent ++ [.list name keys]) children)
  | container name presence children =>
      .node (parent ++ [.container name presence], container name presence children)
        (roses (parent ++ [.container name presence]) children)
  | other name children =>
      .node (parent ++ [.other name], other name children)
        (roses (parent ++ [.other name]) children)

/-- The trees of siblings. -/
def roses (parent : NodeRef) : List DataNode → List (Rose (NodeRef × DataNode))
  | [] => []
  | node :: rest => rose parent node :: roses parent rest

end

theorem rose_eq (parent : NodeRef) (node : DataNode) :
    node.rose parent = .node (parent ++ [node.step], node)
      (roses (parent ++ [node.step]) node.children) := by
  cases node <;> simp [rose, step, children, roses]

theorem roses_eq (parent : NodeRef) (nodes : List DataNode) :
    roses parent nodes = nodes.map (rose parent) := by
  induction nodes with
  | nil => rfl
  | cons node nodes ih => rw [roses, ih, List.map_cons]

/-- The label at a place is the node there. -/
theorem labelAt_rose (parent : NodeRef) (node : DataNode) (pos : List ℕ) :
    labelAt pos (node.rose parent) = node.nodeAt parent pos := by
  induction pos generalizing parent node with
  | nil => rw [rose_eq, labelAt, nodeAt]
  | cons i pos ih =>
      rw [rose_eq, labelAt, nodeAt, roses_eq, List.getElem?_map]
      cases node.children[i]? with
      | none => rfl
      | some child => exact ih _ _

end DataNode

mutual

/-- **The walk of the tree is `tree_dfs()`.** -/
theorem walk_rose (parent : NodeRef) : (node : DataNode) →
    (walk (node.rose parent)).map Prod.snd = treeDfs parent node
  | .leaf _ _ _ => rfl
  | .leaflist _ _ => rfl
  | .list name keys children => by
      rw [DataNode.rose, walk, List.map_cons, walkFrom_roses, treeDfs]
  | .container name presence children => by
      rw [DataNode.rose, walk, List.map_cons, walkFrom_roses, treeDfs]
  | .other name children => by
      rw [DataNode.rose, walk, List.map_cons, walkFrom_roses, treeDfs]

theorem walkFrom_roses (parent : NodeRef) : (nodes : List DataNode) → (i : ℕ) →
    (walkFrom i (DataNode.roses parent nodes)).map Prod.snd = forestDfs parent nodes
  | [], _ => rfl
  | node :: rest, i => by
      have hmap : (((walk (node.rose parent)).map fun e => (i :: e.1, e.2)).map Prod.snd) =
          (walk (node.rose parent)).map Prod.snd := by
        rw [List.map_map]
        rfl
      rw [DataNode.roses, walkFrom, List.map_append, hmap, walk_rose parent node,
        walkFrom_roses parent rest, forestDfs]

end

/-! ### The order of the calls -/

/-- **Edits are emitted parent first, each once**: `places` are the nodes of which `calls` are
the calls. -/
structure ParentFirst (node : DataNode) (places : List (List ℕ))
    (calls : List (ItemPath × Option Val)) : Prop where
  /-- Each place is listed once. -/
  once : places.Nodup
  /-- The places are those of the list instances and of the leaves that are no key. -/
  addressed : ∀ pos, pos ∈ places ↔ ∃ it, node.nodeAt [] pos = some it ∧ it.2.addressed = true
  /-- The calls are those of the nodes at the places. -/
  own : (places.map fun pos => (node.nodeAt [] pos).bind fun it => it.2.ownCall it.1) =
    calls.map some
  /-- A call comes after those of all list instances around its node. -/
  enclosing : ∀ before pos after, places = before ++ pos :: after →
    ∀ outer path name keys children, outer <+: pos → outer ≠ pos →
      node.nodeAt [] outer = some (path, .list name keys children) → outer ∈ before
  /-- When nothing fails `store_tree` returns, and these are its calls. -/
  complete : ∀ evs r, Yields (storeTree node).run evs r → (∀ ev ∈ evs, raisedBy ev = none) →
    r = .ok () ∧ setItemCalls evs = calls
  /-- When a call fails it is the last one, the edits of the calls before it have been made,
  and its exception leaves `store_tree`; a string, which is no std exception, may do so as an
  invalid argument. -/
  failed : ∀ evs r, Yields (storeTree node).run evs r → ∀ before path val exc after,
    evs = before ++ ⟨.setItem path val, .error exc⟩ :: after → ∀ k,
      (setItemCalls before).length = k →
        after = [] ∧ setItemCalls evs = calls.take (k + 1) ∧
          acceptedEdits evs = (calls.take k).map (fun call => .set call.1 call.2) ∧
          (r = .error exc ∨
            exc.isStdException = none ∧ ∃ what, r = .error (.invalidArgument what))

/-- The edits of a leaf of a supported type. -/
theorem leafEdits_of_toVal (path : NodeRef) (isKey : Bool) {value : LyValue} {val : Val}
    (h : value.toVal = .ok val) :
    leafEdits path isKey value = if isKey then [] else [.set (.dataNode path) (some val)] := by
  cases value with
  | leafref targetPath targetKey target => cases h
  | _ => rw [leafEdits, h]; simp

/-- A leaf of a supported type can be stored. -/
theorem LyValue.storable_of_toVal (isKey : Bool) {value : LyValue} {val : Val}
    (h : value.toVal = .ok val) : value.Storable isKey := by
  cases value with
  | leafref targetPath targetKey target => cases h
  | _ => exact Or.inr ⟨val, h⟩

/-- **A node of a plain tree makes its own call**, if it is addressed, and none otherwise. -/
theorem callsOf_nodeEdits (path : NodeRef) {node : DataNode}
    (h : ∀ name isKey value, node = .leaf name isKey value → ∃ val, value.toVal = .ok val) :
    callsOf (nodeEdits path node) = (node.ownCall path).toList ∧
      node.addressed = (node.ownCall path).isSome ∧ node.Storable := by
  cases node with
  | leaf name isKey value =>
      obtain ⟨val, hval⟩ := h name isKey value rfl
      have hcall : (DataNode.leaf name isKey value).ownCall path =
          if isKey then none else some (.dataNode path, some val) := by
        rw [DataNode.ownCall, hval]
        rfl
      rw [nodeEdits, leafEdits_of_toVal path isKey hval, hcall]
      refine ⟨?_, ?_, LyValue.storable_of_toVal isKey hval⟩
      · cases isKey <;> rfl
      · cases isKey <;> rfl
  | list name keys children => exact ⟨rfl, rfl, trivial⟩
  | _ => exact ⟨rfl, rfl, trivial⟩

/-- The calls of a plain tree, node by node. -/
theorem DataNode.Plain.calls {node : DataNode} (h : node.Plain) :
    (callsOf (treeEdits node)).map some =
      ((treeDfs [] node).filter fun it => it.2.addressed).map fun it => it.2.ownCall it.1 := by
  have hcalls : callsOf (treeEdits node) =
      (treeDfs [] node).filterMap fun it => it.2.ownCall it.1 := by
    rw [treeEdits, callsOf, List.filterMap_flatMap, List.filterMap_eq_flatMap_toList]
    exact List.flatMap_congr fun it hit => (callsOf_nodeEdits it.1 (h it hit)).1
  rw [hcalls]
  exact Lists.map_some_filterMap fun it hit => (callsOf_nodeEdits it.1 (h it hit)).2.1

/-- A plain tree can be stored. -/
theorem DataNode.Plain.allStorable {node : DataNode} (h : node.Plain) : node.AllStorable :=
  fun it hit => (callsOf_nodeEdits it.1 (h it hit)).2.2

/-! ### Where store_tree stops -/

/-- A call has raised an exception. -/
def Failed (ev : CallEvent) : Prop := raisedBy ev ≠ none

theorem halts_newVal (v : Val) : (newVal v).Halts Failed := by
  refine Throwing.halts_ask ?_
  rintro (exc | u) hfailed
  · exact ⟨exc, rfl⟩
  · exact absurd rfl hfailed

theorem halts_setItem (path : ItemPath) (val : Option Val) :
    (setItem path val).Halts Failed := by
  refine Throwing.halts_ask ?_
  rintro (exc | u) hfailed
  · exact ⟨exc, rfl⟩
  · exact absurd rfl hfailed

/-- `store_tree` stops at the first call that fails. -/
theorem storeRules_halts : StoreRules fun _ x => x.Halts Failed where
  pure a := Throwing.halts_pure a
  bind hx hf := hx.bind hf
  invalid _ := Throwing.halts_throw _
  newVal v := halts_newVal v
  setItem path val := halts_setItem path val
  catchString hx := by
    refine hx.rethrow (fun _ => rfl) ?_
    intro exc
    cases exc <;> exact ⟨_, rfl⟩

/-- A call of `store_tree` that has not failed is granted. -/
theorem granted_of_not_failed {ev : CallEvent} (hwriting : Writing ev.1)
    (h : raisedBy ev = none) : Granted (fun _ => .ok []) ev.1 ev.2 := by
  obtain ⟨c, r⟩ := ev
  cases c with
  | newVal v | setItem path val =>
      cases r with
      | error exc => cases h
      | ok u => rfl
  | _ => exact hwriting.elim

/-- The edits of calls of which none has failed. -/
theorem acceptedEdits_of_not_failed {evs : List CallEvent}
    (h : ∀ ev ∈ evs, Writing ev.1 ∧ raisedBy ev = none) :
    acceptedEdits evs = (setItemCalls evs).map fun call => .set call.1 call.2 := by
  rw [acceptedEdits, setItemCalls, List.map_filterMap]
  refine List.filterMap_congr fun ev hev => ?_
  obtain ⟨hwriting, hraised⟩ := h ev hev
  obtain ⟨c, r⟩ := ev
  cases c with
  | newVal v => rfl
  | setItem path val =>
      cases r with
      | error exc => cases hraised
      | ok u => rfl
  | _ => exact hwriting.elim

/-- **The dialogue of `store_tree` up to a call that fails.** -/
theorem storeTree_failed {node : DataNode} {evs : List CallEvent} {r : Except Exn Unit}
    (hy : Yields (storeTree node).run evs r) {before after : List CallEvent} {path : ItemPath}
    {val : Option Val} {exc : Exn}
    (hevs : evs = before ++ ⟨.setItem path val, .error exc⟩ :: after) {k : ℕ}
    (hk : (setItemCalls before).length = k) :
    after = [] ∧ setItemCalls evs = (callsOf (treeEdits node)).take (k + 1) ∧
      acceptedEdits evs =
        ((callsOf (treeEdits node)).take k).map (fun call => .set call.1 call.2) ∧
      (r = .error exc ∨
        exc.isStdException = none ∧ ∃ what, r = .error (.invalidArgument what)) := by
  obtain ⟨rfl, ⟨thrown, rfl⟩, hfailed⟩ :=
    (storeRules_halts.storeNodes (treeDfs [] node)).split (hevs ▸ hy) (by simp [Failed, raisedBy])
  have hbefore : ∀ ev ∈ before, raisedBy ev = none := fun ev hev => not_not.mp (hfailed ev hev)
  have hwriting : ∀ ev ∈ evs, Writing ev.1 := (storeRules_only.storeNodes (treeDfs [] node)).mem hy
  have hcalls : setItemCalls evs = setItemCalls before ++ [(path, val)] := by
    rw [hevs, setItemCalls, List.filterMap_append]
    rfl
  have hparsed : ∀ ev ∈ evs, Parsed (fun _ => .ok []) ev.1 ev.2 := fun ev hev =>
    Writing.parsed (hwriting ev hev)
  have hprefix : setItemCalls evs <+: callsOf (treeEdits node) :=
    (emits_storeNodes (treeDfs [] node) evs _ hy hparsed).1
  have hlength : (setItemCalls evs).length = k + 1 := by
    rw [hcalls, List.length_append, hk]
    rfl
  have hmade : setItemCalls evs = (callsOf (treeEdits node)).take (k + 1) := by
    rw [← hlength]
    exact List.prefix_iff_eq_take.mp hprefix
  refine ⟨rfl, hmade, ?_, ?_⟩
  · have haccepted : acceptedEdits evs = acceptedEdits before := by
      rw [hevs, acceptedEdits_append]
      exact List.append_nil _
    have hfirst : setItemCalls before = (callsOf (treeEdits node)).take k := by
      have hpart : setItemCalls before <+: setItemCalls evs := hcalls ▸ List.prefix_append _ _
      rw [← hk]
      exact List.prefix_iff_eq_take.mp (hpart.trans hprefix)
    rw [haccepted, ← hfirst]
    refine acceptedEdits_of_not_failed fun ev hev => ⟨hwriting ev ?_, hbefore ev hev⟩
    rw [hevs]
    exact List.mem_append_left _ hev
  · have hraised : evs.findSome? raisedBy = some exc := by
      rw [hevs, List.findSome?_append, List.findSome?_eq_none_iff.mpr hbefore]
      rfl
    have hthrown := (storeRules_relays.storeNodes (treeDfs [] node)).threw evs thrown hy
    rw [hraised] at hthrown
    rcases hthrown with rfl | ⟨hstd, what, rfl⟩
    · exact Or.inl rfl
    · exact Or.inr ⟨hstd, what, rfl⟩

/-- **The dialogue of `store_tree` when nothing fails.** -/
theorem storeTree_complete {node : DataNode} (h : node.AllStorable) {evs : List CallEvent}
    {r : Except Exn Unit} (hy : Yields (storeTree node).run evs r)
    (hquiet : ∀ ev ∈ evs, raisedBy ev = none) :
    r = .ok () ∧ setItemCalls evs = callsOf (treeEdits node) := by
  have hwriting : ∀ ev ∈ evs, Writing ev.1 := (storeRules_only.storeNodes (treeDfs [] node)).mem hy
  obtain ⟨u, rfl, -⟩ := (returns_storeNodes h).yields hy fun ev hev =>
    granted_of_not_failed (hwriting ev hev) (hquiet ev hev)
  have hparsed : ∀ ev ∈ evs, Parsed (fun _ => .ok []) ev.1 ev.2 := fun ev hev =>
    Writing.parsed (hwriting ev hev)
  exact ⟨rfl, ((emits_storeNodes (treeDfs [] node) evs _ hy hparsed).2 u rfl).1⟩

/-- **`store_tree` emits its edits parent first and each once**, for every tree without
leafrefs and unsupported types. -/
theorem storeTree_parentFirst {node : DataNode} (h : node.Plain) :
    ∃ places calls, ParentFirst node places calls := by
  obtain ⟨places, hnodup, hmem, hlabels, henclosing⟩ :=
    exists_places (node.rose []) fun it => it.2.addressed
  simp only [DataNode.labelAt_rose] at hmem hlabels
  rw [walk_rose] at hlabels
  refine ⟨places, callsOf (treeEdits node), hnodup, hmem, ?_, ?_,
    fun evs r hy hquiet => storeTree_complete h.allStorable hy hquiet,
    fun evs r hy before path val exc after hevs k hk => storeTree_failed hy hevs hk⟩
  · have hbind := congrArg (List.map fun o => o.bind fun it => it.2.ownCall it.1) hlabels
    rw [List.map_map, List.map_map] at hbind
    rw [h.calls]
    exact hbind
  · intro before pos after hsplit outer path name keys children hprefix hne hlist
    have houter : outer ∈ places := (hmem outer).mpr ⟨_, hlist, rfl⟩
    exact henclosing before pos after hsplit outer houter hprefix hne

theorem interfaceDocument_parentFirst :
    ∃ places calls, ParentFirst interfaceDocument places calls := by
  refine storeTree_parentFirst ?_
  intro it hit name isKey value hleaf
  simp only [interfaceDocument, treeDfs, forestDfs, List.nil_append, List.append_nil,
    List.cons_append, List.mem_cons, List.not_mem_nil, or_false] at hit
  rcases hit with rfl | rfl | rfl | rfl <;> cases hleaf
  · exact ⟨_, rfl⟩
  · exact ⟨_, rfl⟩

end SysrepoGnxi
