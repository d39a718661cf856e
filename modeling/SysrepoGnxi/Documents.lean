import SysrepoGnxi.SetSpec
import SysrepoGnxi.Store

/-!
# Data Trees and What Is Stored of Them

The nodes `store_tree` visits, as places in a datastore. `Visited` is membership in
`tree_dfs()` as an induction: a visited node is a sibling, or below one. `DataNode.place`
is where the value of a visited node is stored, if it is; the writes of a document are the
places of its nodes (`written_treeEdits`).
-/

open Dialogue PathStore

namespace SysrepoGnxi

/-! ### Visited nodes -/

namespace DataNode

/-- The children of a node. -/
def children : DataNode → List DataNode
  | leaf _ _ _ => []
  | leaflist _ _ => []
  | list _ _ children => children
  | container _ _ children => children
  | other _ children => children

end DataNode

/-- A node `tree_dfs()` comes by, from siblings below `parent`. -/
inductive Visited : NodeRef → List DataNode → NodeRef × DataNode → Prop where
  | here {parent : NodeRef} {nodes : List DataNode} {node : DataNode} :
      node ∈ nodes → Visited parent nodes (parent ++ [node.step], node)
  | under {parent : NodeRef} {nodes : List DataNode} {node : DataNode}
      {it : NodeRef × DataNode} :
      node ∈ nodes → Visited (parent ++ [node.step]) node.children it →
        Visited parent nodes it

/-- `tree_dfs()` lists a node and then what is below it. -/
theorem treeDfs_eq (parent : NodeRef) (node : DataNode) :
    treeDfs parent node =
      (parent ++ [node.step], node) :: forestDfs (parent ++ [node.step]) node.children := by
  cases node <;> rfl

theorem forestDfs_singleton (parent : NodeRef) (node : DataNode) :
    forestDfs parent [node] = treeDfs parent node := by
  simp [forestDfs]

theorem mem_forestDfs {parent : NodeRef} {nodes : List DataNode} {it : NodeRef × DataNode} :
    it ∈ forestDfs parent nodes ↔ ∃ node ∈ nodes, it ∈ treeDfs parent node := by
  induction nodes with
  | nil => simp [forestDfs]
  | cons node nodes ih => simp [forestDfs, ih]

/-- What is visited is listed. -/
theorem Visited.mem {parent : NodeRef} {nodes : List DataNode} {it : NodeRef × DataNode}
    (h : Visited parent nodes it) : it ∈ forestDfs parent nodes := by
  induction h with
  | here hmem =>
      refine mem_forestDfs.mpr ⟨_, hmem, ?_⟩
      rw [treeDfs_eq]
      exact List.mem_cons_self
  | under hmem _ ih =>
      refine mem_forestDfs.mpr ⟨_, hmem, ?_⟩
      rw [treeDfs_eq]
      exact List.mem_cons_of_mem _ ih

mutual

/-- What is listed for a node is the node, or visited below it. -/
theorem visited_of_mem_treeDfs (parent : NodeRef) :
    (node : DataNode) → ∀ it ∈ treeDfs parent node, Visited parent [node] it
  | .leaf _ _ _, it, h => by
      obtain rfl := List.mem_singleton.mp h
      exact Visited.here (List.mem_singleton.mpr rfl)
  | .leaflist _ _, it, h => by
      obtain rfl := List.mem_singleton.mp h
      exact Visited.here (List.mem_singleton.mpr rfl)
  | .list name keys children, it, h => by
      rcases List.mem_cons.mp h with rfl | h
      · exact Visited.here (List.mem_singleton.mpr rfl)
      · exact Visited.under (List.mem_singleton.mpr rfl)
          (visited_of_mem_forestDfs _ children it h)
  | .container name presence children, it, h => by
      rcases List.mem_cons.mp h with rfl | h
      · exact Visited.here (List.mem_singleton.mpr rfl)
      · exact Visited.under (List.mem_singleton.mpr rfl)
          (visited_of_mem_forestDfs _ children it h)
  | .other name children, it, h => by
      rcases List.mem_cons.mp h with rfl | h
      · exact Visited.here (List.mem_singleton.mpr rfl)
      · exact Visited.under (List.mem_singleton.mpr rfl)
          (visited_of_mem_forestDfs _ children it h)

theorem visited_of_mem_forestDfs (parent : NodeRef) :
    (nodes : List DataNode) → ∀ it ∈ forestDfs parent nodes, Visited parent nodes it
  | [], it, h => by simp [forestDfs] at h
  | node :: rest, it, h => by
      rcases List.mem_append.mp h with h | h
      · cases visited_of_mem_treeDfs parent node it h with
        | here hmem =>
            obtain rfl := List.mem_singleton.mp hmem
            exact Visited.here List.mem_cons_self
        | under hmem hv =>
            obtain rfl := List.mem_singleton.mp hmem
            exact Visited.under List.mem_cons_self hv
      · cases visited_of_mem_forestDfs parent rest it h with
        | here hmem => exact Visited.here (List.mem_cons_of_mem _ hmem)
        | under hmem hv => exact Visited.under (List.mem_cons_of_mem _ hmem) hv

end

/-- **The nodes of `tree_dfs()`** are the visited ones. -/
theorem visited_iff {parent : NodeRef} {nodes : List DataNode} {it : NodeRef × DataNode} :
    Visited parent nodes it ↔ it ∈ forestDfs parent nodes :=
  ⟨Visited.mem, visited_of_mem_forestDfs parent nodes it⟩

/-- A visited node lies below the parent, and its path ends with its own step. -/
theorem Visited.path {parent : NodeRef} {nodes : List DataNode} {it : NodeRef × DataNode}
    (h : Visited parent nodes it) : ∃ way, it.1 = parent ++ way ++ [it.2.step] := by
  induction h with
  | here _ => exact ⟨[], by simp⟩
  | @under parent nodes node it _ _ ih =>
      obtain ⟨way, hway⟩ := ih
      exact ⟨node.step :: way, by rw [hway]; simp⟩

/-- Nothing lies between a node and its child. -/
theorem eq_child_of_between {parent q : NodeRef} {step : RefStep} (hparent : parent <+: q)
    (hne : q ≠ parent) (hq : q <+: parent ++ [step]) : q = parent ++ [step] := by
  rcases List.prefix_concat_iff.mp hq with heq | hle
  · exact heq
  · exact absurd (hle.eq_of_length_le hparent.length_le) hne

/-- **Whatever lies above a visited node is visited**, and has children. -/
theorem Visited.above {parent : NodeRef} {nodes : List DataNode} {it : NodeRef × DataNode}
    (h : Visited parent nodes it) {q : NodeRef} (hparent : parent <+: q) (hne : q ≠ parent)
    (hq : q <+: it.1) :
    q = it.1 ∨ ∃ node, Visited parent nodes (q, node) ∧ node.children ≠ [] := by
  induction h with
  | @here parent nodes node _ => exact Or.inl (eq_child_of_between hparent hne hq)
  | @under parent nodes node it hmem hv ih =>
      have hchildren : node.children ≠ [] := by
        intro hnil
        rw [hnil] at hv
        cases hv <;> simp_all
      obtain ⟨way, hway⟩ := hv.path
      have hstep : parent ++ [node.step] <+: it.1 := ⟨way ++ [it.2.step], by simp [hway]⟩
      by_cases hlong : q.length ≤ (parent ++ [node.step]).length
      · -- the node between `parent` and what is below it
        have hpre : q <+: parent ++ [node.step] := List.prefix_of_prefix_length_le hq hstep hlong
        have heq : q = parent ++ [node.step] := eq_child_of_between hparent hne hpre
        exact Or.inr ⟨node, heq ▸ Visited.here hmem, hchildren⟩
      · have hpre : parent ++ [node.step] <+: q :=
          List.prefix_of_prefix_length_le hstep hq (by omega)
        have hne' : q ≠ parent ++ [node.step] := by
          rintro rfl
          omega
        rcases ih hpre hne' hq with heq | ⟨n, hn, hc⟩
        · exact Or.inl heq
        · exact Or.inr ⟨n, Visited.under hmem hn, hc⟩

/-! ### Where values are stored -/

/-- Where `storeLeaf` stores a value, and which: a leafref stores its target. -/
def LyValue.place (path : NodeRef) (isKey : Bool) : LyValue → Option (NodeRef × Val)
  | .leafref targetPath targetKey target =>
      if isKey then none else target.place targetPath targetKey
  | value => if isKey then none else value.toVal.toOption.map fun val => (path, val)

@[simp] theorem LyValue.place_true (path : NodeRef) (value : LyValue) :
    value.place path true = none := by
  cases value <;> rfl

@[simp] theorem LyValue.place_leafref (path targetPath : NodeRef) (targetKey : Bool)
    (target : LyValue) :
    (LyValue.leafref targetPath targetKey target).place path false =
      target.place targetPath targetKey := rfl

/-- A value that is no leafref is stored where it is. -/
theorem LyValue.place_of_not_leafref (path : NodeRef) {value : LyValue}
    (h : ∀ targetPath targetKey target, value ≠ .leafref targetPath targetKey target) :
    value.place path false = value.toVal.toOption.map fun val => (path, val) := by
  cases value with
  | leafref targetPath targetKey target => exact absurd rfl (h _ _ _)
  | _ => rfl

/-- Nothing of a key is stored. -/
theorem LyValue.isKey_of_place {path : NodeRef} {isKey : Bool} {value : LyValue}
    {w : NodeRef × Val} (h : value.place path isKey = some w) : isKey = false := by
  cases isKey with
  | false => rfl
  | true =>
      rw [LyValue.place_true] at h
      cases h

/-- A value of a supported type is stored where it is: it is no leafref. -/
theorem LyValue.place_of_toVal (path : NodeRef) {value : LyValue} {val : Val}
    (h : value.toVal = .ok val) : value.place path false = some (path, val) := by
  have hval : ∀ targetPath targetKey target,
      value ≠ .leafref targetPath targetKey target := by
    rintro targetPath targetKey target rfl
    cases h
  rw [LyValue.place_of_not_leafref path hval, h]
  rfl

/-- Where the value of a visited node is stored, and which. -/
def DataNode.place (path : NodeRef) : DataNode → Option (NodeRef × Val)
  | leaf _ isKey value => value.place path isKey
  | list _ _ _ => some (path, .list)
  | _ => none

/-- The writes of a document's tree. -/
def treeWrites (node : DataNode) : List (NodeRef × Val) :=
  (treeDfs [] node).filterMap fun it => it.2.place it.1

theorem written_leafEdits (sch : Schema) (path : NodeRef) (isKey : Bool) (value : LyValue) :
    (leafEdits path isKey value).filterMap sch.written =
      (value.place path isKey).toList := by
  fun_induction leafEdits path isKey value with
  | case1 => simp
  | case2 path isKey targetPath targetKey target hkey ih =>
      obtain rfl : isKey = false := by simpa using hkey
      simp [ih, Schema.written]
  | case3 path value hval => simp
  | case4 path isKey value hval hkey exc hto =>
      obtain rfl : isKey = false := by simpa using hkey
      rw [LyValue.place_of_not_leafref path hval, hto]
      rfl
  | case5 path isKey value hval hkey val hto =>
      obtain rfl : isKey = false := by simpa using hkey
      rw [LyValue.place_of_not_leafref path hval, hto]
      simp [Schema.written, Schema.target, Except.toOption]

theorem written_nodeEdits (sch : Schema) (path : NodeRef) (node : DataNode) :
    (nodeEdits path node).filterMap sch.written = (node.place path).toList := by
  cases node with
  | leaf name isKey value => exact written_leafEdits sch path isKey value
  | _ => simp [nodeEdits, DataNode.place, Schema.written, Schema.target]

/-- **The writes of a document** are the places of its nodes. -/
theorem written_treeEdits (sch : Schema) (node : DataNode) :
    (treeEdits node).filterMap sch.written = treeWrites node := by
  rw [treeEdits, List.filterMap_flatMap, treeWrites, List.filterMap_eq_flatMap_toList]
  exact List.flatMap_congr fun it _ => written_nodeEdits sch it.1 it.2

theorem delete_notMem_treeEdits (node : DataNode) (xpath : String) :
    Edit.delete xpath ∉ treeEdits node := by
  intro h
  obtain ⟨⟨path, n⟩, -, hn⟩ := List.mem_flatMap.mp h
  cases n with
  | leaf name isKey value =>
      have hleaf : ∀ path isKey value, Edit.delete xpath ∉ leafEdits path isKey value := by
        intro path isKey value
        fun_induction leafEdits path isKey value <;> simp_all
      exact hleaf _ _ _ hn
  | _ => simp [nodeEdits] at hn

/-- The edits of a document write its places. -/
theorem applyAll_treeEdits (sch : Schema) (node : DataNode) (s : Store) :
    sch.sysrepo.applyAll (treeEdits node) s = setAll RefStep.value (treeWrites node) s := by
  rw [sch.applyAll_sets (delete_notMem_treeEdits node), written_treeEdits]

/-! ### A document, stored and committed -/

/-- The replies of an environment that refuses no call. -/
def Granted (parse : String → Except Exn (List DataNode)) : (c : Call) → c.Reply → Prop
  | .newVal _, r => r = .ok ()
  | .setItem _ _, r => r = .ok ()
  | .deleteItem _, r => r = .ok ()
  | .commit, r => r = .ok ()
  | .refresh, r => r = .ok ()
  | .parseDataMem data, r => r = parse data
  | _, _ => True

section Granted

variable {parse : String → Except Exn (List DataNode)}

/-- Every call may be granted. -/
theorem exists_granted (c : Call) : ∃ r, Granted parse c r := by
  cases c with
  | getSubtrees xpath => exact ⟨.ok none, trivial⟩
  | getTimeNanosec => exact ⟨(0 : ℕ), trivial⟩
  | now => exact ⟨TimePoint.ofNat 0, trivial⟩
  | write | tryCancel => exact ⟨(), trivial⟩
  | _ => exact ⟨_, rfl⟩

/-- Where no call is refused the parser has answered. -/
theorem Granted.parsed {c : Call} {r : c.Reply} (h : Granted parse c r) : Parsed parse c r := by
  rintro data nodes ⟨⟩
  exact h.symm

theorem returns_setVal (path : ItemPath) (val : Val) :
    (setVal path val).Returns (Granted parse) fun _ => True := by
  have hnew : (newVal val).Returns (Granted parse) fun _ => True := by
    refine Throwing.returns_ask ?_
    rintro r rfl
    exact ⟨val, rfl, trivial⟩
  refine hnew.bind fun v _ => Throwing.returns_ask ?_
  rintro r rfl
  exact ⟨(), rfl, trivial⟩

/-- A storable leaf is stored: induction on the chain of leafrefs. -/
theorem returns_storeLeaf (path : NodeRef) (isKey : Bool) (value : LyValue)
    (h : value.Storable isKey) :
    (storeLeaf path isKey value).Returns (Granted parse) fun _ => True := by
  fun_induction storeLeaf path isKey value with
  | case1 => exact Throwing.returns_pure trivial
  | case2 path isKey targetPath targetKey target hkey ih =>
      have htarget : target.Storable targetKey := h.resolve_left hkey
      refine (ih htarget).bind fun _ _ => Throwing.returns_ask ?_
      rintro r rfl
      exact ⟨(), rfl, trivial⟩
  | case3 => exact Throwing.returns_pure trivial
  | case4 path isKey value hval hkey exc hto =>
      obtain ⟨val, hok⟩ := ((LyValue.storable_iff hval).mp h).resolve_left hkey
      cases hto.symm.trans hok
  | case5 => exact returns_setVal _ _

theorem returns_catchString {x : Handler Unit}
    (hx : x.Returns (Granted parse) fun _ => True) :
    (catchString x).Returns (Granted parse) fun _ => True := by
  refine hx.observe.bind ?_
  rintro r ⟨a, rfl, -⟩
  exact Throwing.returns_pure trivial

theorem returns_storeNodes {nodes : List (NodeRef × DataNode)}
    (h : ∀ it ∈ nodes, it.2.Storable) :
    (storeNodes nodes).Returns (Granted parse) fun _ => True := by
  induction nodes with
  | nil => exact Throwing.returns_pure trivial
  | cons it rest ih =>
      have hnode : (storeNode it.1 it.2).Returns (Granted parse) fun _ => True := by
        obtain ⟨path, node⟩ := it
        have hit : node.Storable := h _ List.mem_cons_self
        cases node with
        | leaf name isKey value => exact returns_catchString (returns_storeLeaf _ _ _ hit)
        | list name keys children => exact returns_setVal _ _
        | _ => exact Throwing.returns_pure trivial
      exact hnode.bind fun _ _ => ih fun it hit => h it (List.mem_cons_of_mem _ hit)

/-- **A document of storable leaves is stored** when no call is refused. -/
theorem returns_jsonUpdate {data : String} {node : DataNode}
    (hdoc : documentTree parse data = some node) (h : node.AllStorable) :
    (jsonUpdate data).Returns (Granted parse) fun _ => True := by
  have hparse : (parseDataMem (cStr data)).Returns (Granted parse)
      fun nodes => ∃ siblings, nodes = node :: siblings := by
    refine Throwing.returns_ask ?_
    rintro r rfl
    rw [documentTree] at hdoc
    rcases hp : parse (cStr data) with exc | (- | ⟨n, siblings⟩)
    · simp [hp] at hdoc
    · simp [hp] at hdoc
    · obtain rfl : n = node := by simpa [hp] using hdoc
      exact ⟨_, rfl, siblings, rfl⟩
  refine hparse.bind ?_
  rintro _ ⟨siblings, rfl⟩
  exact returns_storeNodes h

end Granted

section Update

variable {D : Type}

/-- An environment that refuses no call gives such replies. -/
theorem granted_of_answers {env : Env D} (hfails : ∀ n, env.fails n = none) {w : World D}
    {evs : List CallEvent} (h : Answers (serve env) w evs) :
    ∀ ev ∈ evs, Granted env.parse ev.1 ev.2 := by
  induction evs generalizing w with
  | nil => simp
  | cons ev evs ih =>
      obtain ⟨c, r⟩ := ev
      intro ev' hev'
      rcases List.mem_cons.mp hev' with rfl | hev'
      · have hrep := h.1
        have hgranted := @orFail_of_granted D env w (hfails w.calls)
        cases c with
        | getSubtrees | getTimeNanosec | now | write | tryCancel => trivial
        | _ => exact hrep.trans (congrArg Prod.fst (hgranted _ _))
      · exact ih h.2 ev' hev'

/-- `json_update` of a document, and a commit. -/
def updateAndCommit (data : String) : Handler Unit := do
  jsonUpdate data
  commit

/-- Serve `json_update` of a document and a commit. -/
def serveUpdate (env : Env D) (w : World D) (data : String) :
    Outcome Call Call.Reply (World D) (Except Exn Unit) :=
  Dialogue.run (serve env) (updateAndCommit data).run w

/-- **A document that is stored and committed** adds its edits to the datastore. -/
theorem serveUpdate_ok {env : Env D} {w : World D} {data : String}
    (h : (serveUpdate env w data).value = .ok ()) :
    ∃ node, documentTree env.parse data = some node ∧ node.AllStorable ∧
      (serveUpdate env w data).state.pending = [] ∧
      (serveUpdate env w data).state.running =
        env.sysrepo.applyAll (w.pending ++ treeEdits node) w.running := by
  obtain ⟨hy, ha, hs⟩ := yields_run (serve env) (updateAndCommit data).run w
  change Yields _ (serveUpdate env w data).log (serveUpdate env w data).value at hy
  change Answers (serve env) w (serveUpdate env w data).log at ha
  change (serveUpdate env w data).state = after _ _ (serveUpdate env w data).log at hs
  rw [h] at hy
  rcases Throwing.yields_bind.mp hy with ⟨evs, evs', u, hlog, h₁, h₂⟩ | ⟨exc, -, heq⟩
  · obtain ⟨r, rfl, hr⟩ := Throwing.yields_ask.mp h₂
    obtain rfl : Except.ok () = r := hr
    rw [show [(⟨.commit, .ok ()⟩ : CallEvent)] = [committed] from rfl] at hlog
    have hparsed := parsed_of_answers ha
    rw [hlog] at hparsed
    obtain ⟨node, hdoc, hedits, hall⟩ := ends_jsonUpdate data evs u h₁
      fun ev hev => hparsed ev (List.mem_append_left _ hev)
    have hno : ∀ ev ∈ evs, ev ≠ committed := by
      rintro ev hev rfl
      exact (only_jsonUpdate data).mem h₁ _ hev
    rw [hlog] at ha hs
    obtain ⟨hrun, hpend, -⟩ := after_committed env ha hno
    refine ⟨node, hdoc, hall, ?_, ?_⟩
    · rw [hs, hpend]
    · rw [hs, hrun, hedits]
  · cases heq

/-- A document of storable leaves is stored and committed when no call is refused. -/
theorem serveUpdate_granted {env : Env D} (hfails : ∀ n, env.fails n = none) (w : World D)
    {data : String} {node : DataNode} (hdoc : documentTree env.parse data = some node)
    (h : node.AllStorable) : (serveUpdate env w data).value = .ok () := by
  obtain ⟨hy, ha, -⟩ := yields_run (serve env) (updateAndCommit data).run w
  have hreturns : (updateAndCommit data).Returns (Granted env.parse) fun _ => True := by
    refine (returns_jsonUpdate hdoc h).bind fun _ _ => Throwing.returns_ask ?_
    rintro r rfl
    exact ⟨(), rfl, trivial⟩
  obtain ⟨u, hu, -⟩ := hreturns.yields hy (granted_of_answers hfails ha)
  exact hu

/-- The datastore after a document has been stored and committed. -/
theorem running_serveUpdate {sch : Schema} {env : Env Store} (hsr : env.sysrepo = sch.sysrepo)
    {w : World Store} {data : String} {node : DataNode}
    (hdoc : documentTree env.parse data = some node)
    (h : (serveUpdate env w data).value = .ok ()) :
    (serveUpdate env w data).state.running =
      setAll RefStep.value (treeWrites node) (w.view env.sysrepo) := by
  obtain ⟨node', hdoc', -, -, hrun⟩ := serveUpdate_ok h
  obtain rfl : node' = node := Option.some.inj (hdoc'.symm.trans hdoc)
  rw [hrun, hsr, Sysrepo.applyAll_append, applyAll_treeEdits]
  rfl

end Update

end SysrepoGnxi
