import Mathlib.Data.List.Forall2
import SysrepoGnxi.Documents
import SysrepoGnxi.Lib.JsonText
import SysrepoGnxi.Rendering

/-!
# Write, Then Read

`json_update` and `json_read` are written independently of each other, over the types of
libyang and over those of sysrepo. On data trees of containers, list entries with keys, and
leaves of the types both support (`DataTree`), they are inverse to each other: a document
that is stored and committed is read back as the JSON of its content (`writeThenRead`).

The datastore in between is given node by node: `storedNode` is what the writes of a node
leave (`setAll_dataWrites`), and what `json_tree` makes of it is the part the node has in
the JSON of its parent (`renders_storedNode`).
-/

open Dialogue PathStore JsonDoc YangJson

namespace SysrepoGnxi

/-! ### Data trees -/

/-- A data tree of one module: the name and the content of its root, a container. -/
structure DataTree where
  module : String
  name : String
  children : List Data
  nonempty : children ≠ []
  valid : ForestValid children
  named : XPath.IsName (module ++ ":" ++ name)

/-- The value of a leaf, as libyang has it. -/
def lyValue : Scalar → LyValue
  | .int8 n => .int8 n
  | .int16 n => .int16 n
  | .int32 n => .int32 n
  | .int64 n => .int64 n
  | .uint8 n => .uint8 n
  | .uint16 n => .uint16 n
  | .uint32 n => .uint32 n
  | .uint64 n => .uint64 n
  | .string s => .string s
  | .enumeration name => .enm name
  | .identityref module name => .ident module name

/-- The value of a leaf, as sysrepo has it. -/
def scalarVal : Scalar → Val
  | .int8 n => .int8 n
  | .int16 n => .int16 n
  | .int32 n => .int32 n
  | .int64 n => .int64 n
  | .uint8 n => .uint8 n
  | .uint16 n => .uint16 n
  | .uint32 n => .uint32 n
  | .uint64 n => .uint64 n
  | .string s => .string s
  | .enumeration name => .enumeration name
  | .identityref module name => .identityref (module ++ ":" ++ name)

/-- The keys of an entry, as its path carries them. -/
def keyVals (keys : List (String × Scalar)) : List (String × Val) :=
  keys.map fun k => (k.1, scalarVal k.2)

/-- The step of a node in the paths of a module. -/
def dataStep (m : String) : Data → RefStep
  | .leaf name _ => .leaf ⟨m, name⟩
  | .container name presence _ => .container ⟨m, name⟩ presence
  | .entry name keys _ => .list ⟨m, name⟩ (keyVals keys)

/-- The key leaves of an entry, as libyang has them. -/
def keyNodes (m : String) (keys : List (String × Scalar)) : List DataNode :=
  keys.map fun k => .leaf ⟨m, k.1⟩ true (lyValue k.2)

mutual

/-- A node, as libyang has it: the keys of an entry are its first children. -/
def dataNode (m : String) : Data → DataNode
  | .leaf name value => .leaf ⟨m, name⟩ false (lyValue value)
  | .container name presence children => .container ⟨m, name⟩ presence (dataNodes m children)
  | .entry name keys children =>
      .list ⟨m, name⟩ (keyVals keys) (keyNodes m keys ++ dataNodes m children)

/-- Siblings, as libyang has them. -/
def dataNodes (m : String) : List Data → List DataNode
  | [] => []
  | d :: rest => dataNode m d :: dataNodes m rest

end

namespace DataTree

/-- The tree, as libyang has it. -/
def node (t : DataTree) : DataNode :=
  .container ⟨t.module, t.name⟩ false (dataNodes t.module t.children)

/-- The step of the root. -/
def root (t : DataTree) : RefStep := .container ⟨t.module, t.name⟩ false

/-- The xpath of the root. -/
def xpath (t : DataTree) : String := "/" ++ t.module ++ ":" ++ t.name

/-- The JSON of the content. -/
def json (t : DataTree) : Json := object (childParts t.children)

end DataTree

/-! ### What is written -/

mutual

/-- The writes of a node, by the paths below its parent. -/
def dataWrites (m : String) : Data → List (NodeRef × Val)
  | .leaf name value => [([.leaf ⟨m, name⟩], scalarVal value)]
  | .container name presence children =>
      (forestWrites m children).map fun w => (.container ⟨m, name⟩ presence :: w.1, w.2)
  | .entry name keys children =>
      ([.list ⟨m, name⟩ (keyVals keys)], .list) ::
        (forestWrites m children).map fun w => (.list ⟨m, name⟩ (keyVals keys) :: w.1, w.2)

/-- The writes of siblings. -/
def forestWrites (m : String) : List Data → List (NodeRef × Val)
  | [] => []
  | d :: rest => dataWrites m d ++ forestWrites m rest

end

/-- The places of visited nodes. -/
def places (its : List (NodeRef × DataNode)) : List (NodeRef × Val) :=
  its.filterMap fun it => it.2.place it.1

theorem places_cons (it : NodeRef × DataNode) (its : List (NodeRef × DataNode)) :
    places (it :: its) = (it.2.place it.1).toList ++ places its := by
  rw [places, List.filterMap_cons]
  cases it.2.place it.1 <;> rfl

theorem places_append (its its' : List (NodeRef × DataNode)) :
    places (its ++ its') = places its ++ places its' :=
  List.filterMap_append

theorem forestDfs_append (parent : NodeRef) (nodes rest : List DataNode) :
    forestDfs parent (nodes ++ rest) = forestDfs parent nodes ++ forestDfs parent rest := by
  induction nodes with
  | nil => rfl
  | cons node nodes ih => simp [forestDfs, ih]

/-- A leaf is stored as it is, unless it is a key. -/
theorem place_leaf (path : NodeRef) (name : QName) (isKey : Bool) (v : Scalar) :
    (DataNode.leaf name isKey (lyValue v)).place path =
      if isKey then none else some (path, scalarVal v) := by
  cases v <;> rfl

/-- Key leaves are stored nowhere. -/
theorem places_keyNodes (m : String) (parent : NodeRef) (keys : List (String × Scalar)) :
    places (forestDfs parent (keyNodes m keys)) = [] := by
  induction keys with
  | nil => rfl
  | cons k keys ih =>
      rw [keyNodes, List.map_cons, forestDfs, treeDfs, List.singleton_append, places_cons,
        place_leaf]
      exact ih

mutual

/-- **The places of a node's tree** are its writes, below the parent. -/
theorem places_dataNode (m : String) (parent : NodeRef) : (d : Data) →
    places (treeDfs parent (dataNode m d)) =
      (dataWrites m d).map fun w => (parent ++ w.1, w.2)
  | .leaf name value => by
      rw [dataNode, treeDfs, places_cons, place_leaf, dataWrites]
      rfl
  | .container name presence children => by
      rw [dataNode, treeDfs, places_cons, places_dataNodes, dataWrites, List.map_map]
      simp [DataNode.place, Function.comp_def]
  | .entry name keys children => by
      rw [dataNode, treeDfs, places_cons, forestDfs_append, places_append, places_keyNodes,
        places_dataNodes, dataWrites, List.map_cons, List.map_map]
      simp [DataNode.place, Function.comp_def]

theorem places_dataNodes (m : String) (parent : NodeRef) : (data : List Data) →
    places (forestDfs parent (dataNodes m data)) =
      (forestWrites m data).map fun w => (parent ++ w.1, w.2)
  | [] => rfl
  | d :: rest => by
      rw [dataNodes, forestDfs, places_append, places_dataNode, places_dataNodes, forestWrites,
        List.map_append]

end

/-- The writes of a data tree are those of its content, below the root. -/
theorem treeWrites_node (t : DataTree) :
    treeWrites t.node =
      (forestWrites t.module t.children).map fun w => (t.root :: w.1, w.2) := by
  change places (treeDfs [] t.node) = _
  rw [DataTree.node, treeDfs, places_cons, places_dataNodes]
  rfl

/-! ### What the writes leave -/

mutual

/-- A node, as the datastore has it. -/
def storedNode (m : String) : Data → Node RefStep Val
  | .leaf name value => .mk (.leaf ⟨m, name⟩) (scalarVal value) []
  | .container name presence children =>
      .mk (.container ⟨m, name⟩ presence) (RefStep.container ⟨m, name⟩ presence).value
        (storedNodes m children)
  | .entry name keys children =>
      .mk (.list ⟨m, name⟩ (keyVals keys)) .list (storedNodes m children)

/-- Siblings, as the datastore has them. -/
def storedNodes (m : String) : List Data → Store
  | [] => []
  | d :: rest => storedNode m d :: storedNodes m rest

end

@[simp] theorem key_storedNode (m : String) (d : Data) :
    (storedNode m d).key = dataStep m d := by
  cases d <;> rfl

/-- The JSON of a leaf is determined by its value in the datastore. -/
theorem json_scalarVal (v : Scalar) : (scalarVal v).json = .ok v.json := by
  cases v <;> rfl

/-- Siblings that may stand beside each other have different steps. -/
theorem dataStep_ne {m : String} {d d' : Data} (h : d.Apart d') :
    dataStep m d ≠ dataStep m d' := by
  intro heq
  cases d with
  | leaf name value =>
      cases d' with
      | leaf name' value' =>
          simp only [dataStep, RefStep.leaf.injEq, QName.mk.injEq, true_and] at heq
          exact h heq
      | _ => cases heq
  | container name presence children =>
      cases d' with
      | container name' presence' children' =>
          simp only [dataStep, RefStep.container.injEq, QName.mk.injEq, true_and] at heq
          exact h heq.1
      | _ => cases heq
  | entry name keys children =>
      cases d' with
      | entry name' keys' children' =>
          simp only [dataStep, RefStep.list.injEq, QName.mk.injEq, true_and] at heq
          refine h heq.1 ?_
          -- the JSON of the keys can be told from their values
          have hjson : ∀ keys : List (String × Scalar),
              (keys.map fun k => (k.1, (k.2.json : Json))).map
                (fun k => (k.1, (Except.ok k.2 : Except Exn Json))) =
              (keyVals keys).map fun k => (k.1, k.2.json) := by
            intro keys
            simp [keyVals, Function.comp_def, json_scalarVal]
          have hmap := (hjson keys).trans ((congrArg _ heq.2).trans (hjson keys').symm)
          refine List.map_injective_iff.mpr ?_ hmap
          rintro ⟨k, j⟩ ⟨k', j'⟩ hk
          simpa using hk
      | _ => cases heq

theorem path_ne_nil_of_mem_dataWrites {m : String} {d : Data} {w : NodeRef × Val}
    (h : w ∈ dataWrites m d) : w.1 ≠ [] := by
  cases d with
  | leaf name value =>
      obtain rfl := List.mem_singleton.mp h
      simp
  | container name presence children =>
      obtain ⟨w', -, rfl⟩ := List.mem_map.mp h
      simp
  | entry name keys children =>
      rcases List.mem_cons.mp h with rfl | h
      · simp
      · obtain ⟨w', -, rfl⟩ := List.mem_map.mp h
        simp

theorem path_ne_nil_of_mem_forestWrites {m : String} {data : List Data} {w : NodeRef × Val}
    (h : w ∈ forestWrites m data) : w.1 ≠ [] := by
  induction data with
  | nil => simp [forestWrites] at h
  | cons d rest ih =>
      rcases List.mem_append.mp h with h | h
      · exact path_ne_nil_of_mem_dataWrites h
      · exact ih h

mutual

/-- A valid node has something to write: its containers are not empty. -/
theorem dataWrites_ne_nil (m : String) : (d : Data) → d.Valid → dataWrites m d ≠ []
  | .leaf _ _, _ => by simp [dataWrites]
  | .container _ _ children, h => by
      simpa [dataWrites] using forestWrites_ne_nil m children h.1 h.2
  | .entry _ _ _, _ => by simp [dataWrites]

theorem forestWrites_ne_nil (m : String) : (data : List Data) → data ≠ [] →
    ForestValid data → forestWrites m data ≠ []
  | [], hne, _ => absurd rfl hne
  | d :: rest, _, h => by
      simp [forestWrites, dataWrites_ne_nil m d h.2.1]

end

mutual

/-- **The writes of a node leave the node**, after the siblings there are. -/
theorem setAll_dataWrites (m : String) : (d : Data) → d.Valid → (f : Store) →
    child (dataStep m d) f = none →
    setAll RefStep.value (dataWrites m d) f = f ++ [storedNode m d]
  | .leaf name value, _, f, hnew => by
      rw [dataStep] at hnew
      rw [dataWrites, setAll_cons, setAll_nil, set_of_absent _ hnew]
      rfl
  | .container name presence children, h, f, hnew => by
      rw [dataStep] at hnew
      rw [dataWrites, setAll_map_cons _ _ (forestWrites_ne_nil m children h.1 h.2)
        (fun w => path_ne_nil_of_mem_forestWrites), alter_of_absent hnew, childrenOf,
        setAll_forestWrites m children h.2 [] fun _ _ => rfl]
      rfl
  | .entry name keys children, h, f, hnew => by
      rw [dataStep] at hnew
      rw [dataWrites, setAll_cons, set_of_absent _ hnew,
        setAll_append_node _ hnew _ (fun w => path_ne_nil_of_mem_forestWrites),
        setAll_forestWrites m children h.2.2.2 [] fun _ _ => rfl]
      rfl

theorem setAll_forestWrites (m : String) : (data : List Data) → ForestValid data →
    (f : Store) → (∀ d ∈ data, child (dataStep m d) f = none) →
    setAll RefStep.value (forestWrites m data) f = f ++ storedNodes m data
  | [], _, f, _ => by simp [forestWrites, storedNodes]
  | d :: rest, ⟨hapart, hd, hrest⟩, f, hnew => by
      have hnew' : ∀ d' ∈ rest, child (dataStep m d') (f ++ [storedNode m d]) = none := by
        intro d' hd'
        rw [child_append, hnew d' (List.mem_cons_of_mem _ hd')]
        simpa using dataStep_ne (hapart d' hd')
      rw [forestWrites, setAll_append, setAll_dataWrites m d hd f (hnew d List.mem_cons_self),
        setAll_forestWrites m rest hrest _ hnew', List.append_assoc]
      rfl

end

/-! ### What is read back -/

/-- A leaf renders its value. -/
theorem renders_leaf (m name : String) (v : Scalar) :
    Renders (.node m name (scalarVal v) []) (name, .single v.json) := by
  refine ⟨rfl, fun val => ?_⟩
  cases v <;> rfl

/-- The key leaves of an entry render its keys. -/
theorem renders_keyLeaves (m name : String) (keys : List (String × Scalar)) :
    List.Forall₂ Renders (RefStep.list ⟨m, name⟩ (keyVals keys)).keyLeaves (keyParts keys) := by
  rw [RefStep.keyLeaves, RefStep.keys, keyVals, keyParts, List.map_map,
    List.forall₂_map_left_iff, List.forall₂_map_right_iff, List.forall₂_same]
  exact fun k _ => renders_leaf m k.1 k.2

theorem childParts_ne_nil {data : List Data} (h : data ≠ []) : childParts data ≠ [] := by
  cases data with
  | nil => exact absurd rfl h
  | cons d rest => simp [childParts]

mutual

/-- **A stored node renders its part** in the JSON of its parent. -/
theorem renders_storedNode (m : String) : (d : Data) → d.Valid →
    Renders (treeOf (storedNode m d)) (d.name, d.part)
  | .leaf name value, _ => renders_leaf m name value
  | .container name presence children, h => by
      have hjson (data : Val) : jsonTree (.node m name data (treesOf (storedNodes m children))) =
          .ok (object (childParts children)) :=
        jsonTree_of_renders (renders_storedNodes m children h.2) (childParts_ne_nil h.1)
          (consistent_childParts h.2)
      refine ⟨rfl, fun val => ?_⟩
      have htree : treeOf (storedNode m (.container name presence children)) =
          .node m name (RefStep.container ⟨m, name⟩ presence).value
            (treesOf (storedNodes m children)) := rfl
      cases presence <;> rw [htree, setMember, setMemberWith] <;>
        simp [RefStep.value, Tree.data, hjson] <;> rfl
  | .entry name keys children, h => by
      have hjson : jsonTree (.node m name .list
          ((RefStep.list ⟨m, name⟩ (keyVals keys)).keyLeaves ++
            treesOf (storedNodes m children))) =
          .ok (object (keyParts keys ++ childParts children)) := by
        refine jsonTree_of_renders ?_ ?_ (consistent_entry h)
        · exact List.rel_append (renders_keyLeaves m name keys)
            (renders_storedNodes m children h.2.2.2)
        · simp [keyParts, h.1]
      refine ⟨rfl, fun val => ?_⟩
      have htree : treeOf (storedNode m (.entry name keys children)) =
          .node m name .list ((RefStep.list ⟨m, name⟩ (keyVals keys)).keyLeaves ++
            treesOf (storedNodes m children)) := rfl
      rw [htree, setMember, setMemberWith]
      simp [Tree.data, hjson]
      rfl

theorem renders_storedNodes (m : String) : (data : List Data) → ForestValid data →
    List.Forall₂ Renders (treesOf (storedNodes m data)) (childParts data)
  | [], _ => List.Forall₂.nil
  | d :: rest, ⟨_, hd, hrest⟩ =>
      List.Forall₂.cons (renders_storedNode m d hd) (renders_storedNodes m rest hrest)

end

/-! ### The datastore in between -/

namespace DataTree

variable (t : DataTree)

/-- The root, as the datastore has it. -/
def storedRoot : Node RefStep Val := .mk t.root .container (storedNodes t.module t.children)

/-- There is no data under the root: its xpath selects nothing, or a container with nothing
in it. -/
def NoDataIn (s : Store) : Prop :=
  (s.filter fun n => n.key.passes none (t.module ++ ":" ++ t.name)) = [] ∨
    (s.filter fun n => n.key.passes none (t.module ++ ":" ++ t.name)) =
      [.mk t.root .container []]

/-- **What the writes of the tree leave** where the root's xpath looks: the root. -/
theorem filter_setAll {s : Store} (h : t.NoDataIn s) :
    (setAll RefStep.value (treeWrites t.node) s).filter
      (fun n => n.key.passes none (t.module ++ ":" ++ t.name)) = [t.storedRoot] := by
  have hpasses : t.root.passes none (t.module ++ ":" ++ t.name) = true := by
    simp [root, RefStep.passes, RefStep.name]
  have hcontent : setAll RefStep.value (forestWrites t.module t.children) [] =
      storedNodes t.module t.children :=
    setAll_forestWrites t.module t.children t.valid [] fun _ _ => rfl
  rw [treeWrites_node, setAll_map_cons _ _ (forestWrites_ne_nil t.module _ t.nonempty t.valid)
    (fun w => path_ne_nil_of_mem_forestWrites),
    filter_alter (k := t.root) (q := fun step => step.passes none (t.module ++ ":" ++ t.name))
      (fun _ => rfl) hpasses]
  rcases h with hnil | hroot
  · rw [hnil, alter, childrenOf, hcontent]
    rfl
  · rw [hroot, alter, if_pos (by rfl), childrenOf, Node.children_mk, hcontent]
    rfl

/-- The root's xpath reads as the step of its name. -/
theorem read_xpath : XPath.read t.xpath = some [⟨t.module ++ ":" ++ t.name, []⟩] := by
  have hrender : t.xpath = String.ofList (XPath.render [⟨t.module ++ ":" ++ t.name, []⟩]) := by
    rw [← String.toList_inj, String.toList_ofList]
    simp [xpath, XPath.render, XPath.Step.render]
  rw [hrender]
  refine XPath.read_render ?_ ?_
  · rintro s hs
    obtain rfl := List.mem_singleton.mp hs
    exact ⟨t.named, by simp⟩
  · rintro s hs
    obtain rfl := List.mem_singleton.mp hs
    simp [XPath.Step.QuoteFree]

/-- The root's xpath is its own C string. -/
theorem cStr_xpath : cStr t.xpath = t.xpath := by
  refine cStr_eq_self fun c hc => ?_
  have hchars : t.xpath.toList = '/' :: (t.module ++ ":" ++ t.name).toList := by simp [xpath]
  rw [hchars] at hc
  rcases List.mem_cons.mp hc with rfl | hc
  · decide
  · exact t.named.ne_zero hc

/-- The subtrees at the root's xpath, once the tree has been written. -/
theorem subtrees_setAll (sch : Schema) {s : Store} (h : t.NoDataIn s) :
    sch.subtrees t.xpath (setAll RefStep.value (treeWrites t.node) s) =
      some [treeOf t.storedRoot] := by
  have htest : sch.test ⟨t.module ++ ":" ++ t.name, []⟩ =
      fun parent step => step.passes parent (t.module ++ ":" ++ t.name) := by
    funext parent step
    simp [Schema.test]
  have hsel : sch.selection t.xpath (setAll RefStep.value (treeWrites t.node) s) =
      [([t.root], t.storedRoot)] := by
    rw [Schema.selection, t.read_xpath]
    simp only [List.map_cons, List.map_nil, htest, select, List.foldl_nil, stepDown,
      List.getLast?_nil, t.filter_setAll h]
    rfl
  rw [Schema.subtrees, hsel]
  rfl

/-- `json_tree` makes the JSON of the content of the root. -/
theorem jsonTree_storedRoot : jsonTree (treeOf t.storedRoot) = .ok t.json :=
  jsonTree_of_renders (renders_storedNodes t.module t.children t.valid)
    (childParts_ne_nil t.nonempty) (consistent_childParts t.valid)

end DataTree

/-! ### The run -/

theorem storable_leaf (name : QName) (isKey : Bool) (v : Scalar) :
    (DataNode.leaf name isKey (lyValue v)).Storable := by
  cases v <;> exact Or.inr ⟨_, rfl⟩

mutual

/-- The leaves of a data tree are storable. -/
theorem storable_dataNode (m : String) (parent : NodeRef) : (d : Data) →
    ∀ it ∈ treeDfs parent (dataNode m d), it.2.Storable
  | .leaf _ value, it, h => by
      obtain rfl := List.mem_singleton.mp h
      exact storable_leaf _ _ value
  | .container _ _ children, it, h => by
      rcases List.mem_cons.mp h with rfl | h
      · trivial
      · exact storable_dataNodes m _ children it h
  | .entry _ keys children, it, h => by
      rcases List.mem_cons.mp h with rfl | h
      · trivial
      · rw [forestDfs_append] at h
        rcases List.mem_append.mp h with h | h
        · obtain ⟨node, hnode, h⟩ := mem_forestDfs.mp h
          obtain ⟨k, -, rfl⟩ := List.mem_map.mp hnode
          obtain rfl := List.mem_singleton.mp h
          exact storable_leaf _ _ k.2
        · exact storable_dataNodes m _ children it h

theorem storable_dataNodes (m : String) (parent : NodeRef) : (data : List Data) →
    ∀ it ∈ forestDfs parent (dataNodes m data), it.2.Storable
  | [], it, h => by simp [dataNodes, forestDfs] at h
  | d :: rest, it, h => by
      rcases List.mem_append.mp h with h | h
      · exact storable_dataNode m parent d it h
      · exact storable_dataNodes m parent rest it h

end

theorem DataTree.allStorable (t : DataTree) : t.node.AllStorable := by
  intro it h
  rcases List.mem_cons.mp h with rfl | h
  · trivial
  · exact storable_dataNodes t.module _ t.children it h

section Run

variable {D : Type}

/-- Serve `json_read` of an xpath. -/
def serveRead (env : Env D) (fastWriter : Json → String) (w : World D) (xpath : String) :
    Outcome Call Call.Reply (World D) (Except Exn (List JsonData)) :=
  Dialogue.run (serve env) (jsonRead fastWriter xpath).run w

/-- What `json_read` returns when sysrepo answers it. -/
theorem serveRead_value {env : Env D} {fastWriter : Json → String} {w : World D}
    {xpath : String} {trees : List Tree} (hanswer : env.fails w.calls = none)
    (hsel : env.sysrepo.subtrees (cStr xpath) (w.view env.sysrepo) = some trees) :
    (serveRead env fastWriter w xpath).value = readTrees fastWriter {} trees := by
  obtain ⟨hy, ha, -⟩ := yields_run (serve env) (jsonRead fastWriter xpath).run w
  change Yields _ (serveRead env fastWriter w xpath).log _ at hy
  change Answers _ _ (serveRead env fastWriter w xpath).log at ha
  have hserve : (serve env w (.getSubtrees (cStr xpath))).1 = .ok (some trees) := by
    simp [serve, orFail, hanswer, hsel]
  obtain ⟨reply, hlog, hvalue⟩ := yields_jsonRead_iff.mp hy
  rw [hlog] at ha
  obtain rfl : reply = .ok (some trees) := ha.1.trans hserve
  exact hvalue

end Run

/-- **Write, then read**: a data tree that is stored and committed where there was no data
under its root is read back, at the xpath of the root, as one value without a key whose text
is read as the JSON of the content. And it is stored and committed if no call is refused. -/
theorem writeThenRead (t : DataTree) {sch : Schema} (env : Env Store) (w : World Store)
    (data : String) {fastWriter : Json → String} {reader : String → Option Json}
    (hsr : env.sysrepo = sch.sysrepo) (hdoc : documentTree env.parse data = some t.node)
    (hempty : t.NoDataIn (w.view env.sysrepo))
    (hjson : ∀ j : Json, j.Canonical → reader (fastWriter j) = some j) :
    ((∀ n, env.fails n = none) → (serveUpdate env w data).value = .ok ()) ∧
      ((serveUpdate env w data).value = .ok () →
        env.fails (serveUpdate env w data).state.calls = none →
        ∃ text, (serveRead env fastWriter (serveUpdate env w data).state t.xpath).value =
            .ok [⟨("", ""), text⟩] ∧
          reader text = some t.json) := by
  refine ⟨fun hfails => serveUpdate_granted hfails w hdoc t.allStorable, fun hok hanswer => ?_⟩
  obtain ⟨node, hdoc', -, hpending, -⟩ := serveUpdate_ok hok
  have hview : (serveUpdate env w data).state.view env.sysrepo =
      setAll RefStep.value (treeWrites t.node) (w.view env.sysrepo) := by
    rw [World.view, hpending, Sysrepo.applyAll_nil, running_serveUpdate hsr hdoc hok]
  have hsel : env.sysrepo.subtrees (cStr t.xpath)
      ((serveUpdate env w data).state.view env.sysrepo) = some [treeOf t.storedRoot] := by
    rw [hview, t.cStr_xpath, hsr, sch.subtrees_sysrepo]
    exact t.subtrees_setAll sch (hsr ▸ hempty)
  refine ⟨fastWriter t.json, ?_, hjson t.json (canonical_object (canonical_childParts _))⟩
  rw [serveRead_value hanswer hsel]
  have hread : readTrees fastWriter ⟨("", ""), fastWriter t.json⟩ [] = .ok [] := rfl
  exact readTrees_cons_eq_ok.mpr ⟨t.json, ("", ""), [], t.jsonTree_storedRoot, rfl, hread, rfl⟩

/-- A system with two interfaces. -/
def systemTree : DataTree where
  module := "ex"
  name := "system"
  children := [
    .leaf "hostname" (.string "r1"),
    .entry "interface" [("name", .string "eth0")] [.leaf "mtu" (.uint16 1500)],
    .entry "interface" [("name", .string "eth1")]
      [.container "counters" false [.leaf "octets" (.uint64 42)]]]
  nonempty := by simp
  valid := by simp [ForestValid, Data.Valid, Data.Apart, Data.name, Scalar.json]
  named := by decide

/-- The document of the system. -/
def systemDocument : String := JsonText.write (.obj [("ex:system", systemTree.json)])

/-- An environment that parses it. -/
def systemTreeEnv : Env Store := (Schema.ofTable [] Schema.ofTable_nil).granting systemTree.node

/-- The session after the document has been stored and committed. -/
def systemStored : Outcome Call Call.Reply (World Store) (Except Exn Unit) :=
  serveUpdate systemTreeEnv (World.start []) systemDocument

/-- The system is read back as it was written. -/
theorem systemTree_readBack :
    systemStored.value = .ok () ∧
      ∃ text, (serveRead systemTreeEnv JsonText.write systemStored.state
          systemTree.xpath).value = .ok [⟨("", ""), text⟩] ∧
        JsonText.parse text = some systemTree.json := by
  obtain ⟨hstored, hread⟩ := writeThenRead systemTree systemTreeEnv (World.start [])
    systemDocument rfl rfl (Or.inl rfl) fun j _ => JsonText.parse_write j
  exact ⟨hstored fun _ => rfl, hread (hstored fun _ => rfl) rfl⟩

end SysrepoGnxi
