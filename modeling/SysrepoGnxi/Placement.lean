import SysrepoGnxi.Replace

/-!
# Where an Item Is Placed

An item should touch the subtree its path names and nothing else. `handleUpdate` sets a
scalar at that path, but stores a JSON document where libyang's own paths put its nodes,
whatever the path of the item: `touchesOnly_iff` says that an item is placed right exactly
if its value is a scalar and the path its own C string, or it is a document at the root, or
one of which nothing is stored.

`Throwing.Emits` carries the proof: the `set_item` calls of every dialogue, also of one
that fails, are an initial segment of the calls of the document.
-/

open Dialogue PathStore

namespace SysrepoGnxi

/-! ### The calls of an item -/

/-- The `set_item` call of an exchange, accepted or not. -/
def setItemCall : CallEvent → Option (ItemPath × Option Val)
  | ⟨.setItem path val, _⟩ => some (path, val)
  | _ => none

/-- The `set_item` calls of a dialogue. -/
def setItemCalls (evs : List CallEvent) : List (ItemPath × Option Val) :=
  evs.filterMap setItemCall

/-- The call an edit is made by. -/
def Edit.call : Edit → Option (ItemPath × Option Val)
  | .set path val => some (path, val)
  | .delete _ => none

/-- The calls of edits. -/
def callsOf (edits : List Edit) : List (ItemPath × Option Val) := edits.filterMap Edit.call

/-- A path of a document, relative to a node. -/
def ItemPath.below (base : NodeRef) : ItemPath → ItemPath
  | xpath s => .xpath s
  | dataNode ref => .dataNode (base ++ ref)

section Placement

variable (sch : Schema) (parse : String → Except Exn (List DataNode))

/-- **Where a value belongs** that is to be at the node `fullpath` names: a scalar there, the
nodes of a document below it. -/
def placedCalls (fullpath : String) (reqval : TypedValue) : List (ItemPath × Option Val) :=
  match SetRpc.scalar reqval, reqval with
  | some val, _ => [(.xpath fullpath, some val)]
  | none, .jsonIetfVal data =>
      match sch.resolve fullpath, documentTree parse data with
      | some base, some node =>
          (callsOf (treeEdits node)).map fun call => (call.1.below base, call.2)
      | _, _ => []
  | none, _ => []

/-- The calls an item should make. -/
def Update.placedCalls (pfx : Option Path) (upd : Update) : List (ItemPath × Option Val) :=
  match upd.path, upd.val with
  | some path, some reqval => SysrepoGnxi.placedCalls sch parse (fullXpath pfx path) reqval
  | _, _ => []

/-- **An item touches only the subtree it names**, in every dialogue of `handleUpdate`. -/
structure TouchesOnly (pfx : Option Path) (upd : Update) : Prop where
  /-- Every call is made where the value belongs, in order. -/
  placed : ∀ evs r, Yields (SetRpc.handleUpdate upd {} (pfx.elim "" gnmiToXpath)).run evs r →
    (∀ ev ∈ evs, Parsed parse ev.1 ev.2) →
    setItemCalls evs <+: upd.placedCalls sch parse pfx
  /-- A node that is not at or below the path keeps its value. -/
  frame : ∀ evs r, Yields (SetRpc.handleUpdate upd {} (pfx.elim "" gnmiToXpath)).run evs r →
    (∀ ev ∈ evs, Parsed parse ev.1 ev.2) →
    ∀ path base, upd.path = some path → sch.resolve (fullXpath pfx path) = some base →
    ∀ (s : Store) q val, ¬ base <+: q → get q s = some val →
      get q (sch.sysrepo.applyAll (acceptedEdits evs) s) = some val
  /-- The response reports the path of the item. -/
  reported : ∀ evs out,
    Yields (SetRpc.handleUpdate upd {} (pfx.elim "" gnmiToXpath)).run evs (.ok (.OK, out)) →
    (∀ ev ∈ evs, Parsed parse ev.1 ev.2) → out.path = upd.path

/-! ### The condition -/

/-- A node `store_tree` makes a call for, unless it throws: a list instance, or a leaf that
is no key. -/
def DataNode.addressed : DataNode → Bool
  | leaf _ isKey _ => !isKey
  | list _ _ _ => true
  | _ => false

/-- Something of a document is stored: its first list instance or leaf that is no key, if
it has one, has a supported type. -/
def StoresSome (data : String) : Prop :=
  ∃ node it, documentTree parse data = some node ∧
    ((treeDfs [] node).find? fun it => it.2.addressed) = some it ∧ it.2.Storable

/-- The item is a scalar whose path has no NUL, a document at the root, a document of which
nothing is stored, or none of these and refused. -/
def InPlace (fullpath : String) (reqval : TypedValue) : Prop :=
  match SetRpc.scalar reqval, reqval with
  | some _, _ => ∀ c ∈ fullpath.toList, c.toNat ≠ 0
  | none, .jsonIetfVal data => fullpath = "" ∨ ¬ StoresSome parse data
  | none, _ => True

end Placement

/-! ### The calls handleUpdate makes -/

section Emits

variable {parse : String → Except Exn (List DataNode)}

/-- The calls of a part of `handleUpdate`. -/
abbrev EmitsCalls {α : Type} (parse : String → Except Exn (List DataNode))
    (calls : List (ItemPath × Option Val)) (post : α → Prop) (x : Handler α) : Prop :=
  x.Emits setItemCall (Parsed parse) calls post

theorem emits_setItem (path : ItemPath) (val : Option Val) :
    EmitsCalls parse [(path, val)] (fun _ => True) (setItem path val) :=
  Throwing.emits_ask (fun _ => rfl) fun _ _ _ _ => trivial

theorem emits_setVal (path : ItemPath) (val : Val) :
    EmitsCalls parse [(path, some val)] (fun _ => True) (setVal path val) := by
  have hnew : EmitsCalls parse [] (fun v => v = val) (newVal val) := by
    refine Throwing.emits_ask (fun _ => rfl) ?_
    rintro (exc | u) a - h
    · cases h
    · exact (Except.ok.inj h).symm
  refine hnew.bind ?_
  rintro v rfl
  exact emits_setItem _ _

/-- The calls of `storeLeaf`: induction on the chain of leafrefs. -/
theorem emits_storeLeaf (path : NodeRef) (isKey : Bool) (value : LyValue) :
    EmitsCalls parse (callsOf (leafEdits path isKey value)) (fun _ => True)
      (storeLeaf path isKey value) := by
  fun_induction storeLeaf path isKey value with
  | case1 => exact (by simpa [leafEdits, callsOf] using Throwing.emits_pure trivial)
  | case2 path isKey targetPath targetKey target hkey ih =>
      have h := ih.bind fun _ _ => emits_setItem (.dataNode path) none
      simpa [leafEdits, callsOf, hkey, Edit.call] using h
  | case3 path value hval =>
      have hedits : leafEdits path true value = [] := by cases value <;> simp [leafEdits]
      rw [hedits]
      exact Throwing.emits_pure trivial
  | case4 => exact Throwing.emits_throw
  | case5 path isKey value hval hkey val hto =>
      have hedits : leafEdits path isKey value = [.set (.dataNode path) (some val)] := by
        cases value <;> simp_all [leafEdits]
      rw [hedits]
      exact emits_setVal _ _

theorem emits_storeNode (path : NodeRef) (node : DataNode) :
    EmitsCalls parse (callsOf (nodeEdits path node)) (fun _ => True)
      (storeNode path node) := by
  cases node with
  | leaf name isKey value =>
      refine (emits_storeLeaf path isKey value).rethrow (fun _ => rfl) ?_
      intro exc
      cases exc <;> exact ⟨_, rfl⟩
  | list name keys children => exact emits_setVal _ _
  | _ => exact Throwing.emits_pure trivial

theorem emits_storeNodes (nodes : List (NodeRef × DataNode)) :
    EmitsCalls parse (callsOf (nodes.flatMap fun it => nodeEdits it.1 it.2)) (fun _ => True)
      (storeNodes nodes) := by
  induction nodes with
  | nil => exact Throwing.emits_pure trivial
  | cons it rest ih =>
      rw [List.flatMap_cons, callsOf, List.filterMap_append]
      exact (emits_storeNode it.1 it.2).bind fun _ _ => ih

/-- **The calls of `json_update`** are those of the tree libyang returns. -/
theorem emits_jsonUpdate (data : String) :
    EmitsCalls parse ((documentTree parse data).elim [] fun node => callsOf (treeEdits node))
      (fun _ => True) (jsonUpdate data) := by
  have hparse : EmitsCalls parse [] (fun nodes => parse (cStr data) = .ok nodes)
      (parseDataMem (cStr data)) := by
    refine Throwing.emits_ask (fun _ => rfl) ?_
    rintro r nodes hr rfl
    exact hr (cStr data) nodes rfl
  refine hparse.bind ?_
  rintro (- | ⟨node, siblings⟩) hp
  · exact Throwing.emits_throw
  · have hdoc : documentTree parse data = some node := by simp [documentTree, hp]
    rw [hdoc]
    exact emits_storeNodes _

/-- **The calls of `handleUpdate`**: those of the edits of its item. -/
theorem emits_handleUpdate (pfx : String) (upd : Update) :
    EmitsCalls parse (callsOf (updateEdits parse pfx upd))
      (fun res => res.1 = .OK → res.2.path = upd.path) (SetRpc.handleUpdate upd {} pfx) := by
  obtain ⟨_ | path, _ | reqval⟩ := upd
  · exact Throwing.emits_pure fun h => by cases h
  · exact Throwing.emits_pure fun h => by cases h
  · exact Throwing.emits_pure fun h => by cases h
  · have hvalue : EmitsCalls parse
        (callsOf (valueEdits parse (pfx ++ gnmiToXpath path) reqval)) (fun _ => True)
        (SetRpc.storeValue (pfx ++ gnmiToXpath path) reqval) := by
      cases reqval with
      | stringVal | intVal | uintVal | boolVal | floatVal => exact emits_setVal _ _
      | jsonIetfVal data =>
          have hcalls : callsOf (valueEdits parse (pfx ++ gnmiToXpath path)
              (.jsonIetfVal data)) =
              (documentTree parse data).elim [] fun node => callsOf (treeEdits node) := by
            simp only [valueEdits, SetRpc.scalar]
            cases documentTree parse data <;> rfl
          rw [hcalls]
          refine (emits_jsonUpdate data).rethrow (fun _ => rfl) ?_
          intro exc
          cases exc <;> exact ⟨_, rfl⟩
      | _ => exact Throwing.emits_throw
    have hres : EmitsCalls parse []
        (fun res : StatusCode × UpdateResult => res.1 = .OK → res.2.path = some path)
        (pure (.OK, { path := some path })) := Throwing.emits_pure fun _ => rfl
    have h := hvalue.bind fun _ _ => hres
    rw [List.append_nil] at h
    exact h

/-! ### Documents of which nothing is stored -/

/-- A leaf of an unsupported type makes no call and throws. -/
theorem emits_unstorableLeaf (path : NodeRef) (isKey : Bool) (value : LyValue)
    (h : ¬ value.Storable isKey) :
    EmitsCalls parse [] (fun _ => False) (storeLeaf path isKey value) := by
  fun_induction storeLeaf path isKey value with
  | case1 => exact absurd (Or.inl rfl) h
  | case2 path isKey targetPath targetKey target hkey ih =>
      have htarget : ¬ target.Storable targetKey := fun hs => h (Or.inr hs)
      exact (ih htarget).bind_never
  | case3 path value hval => exact absurd ((LyValue.storable_iff hval).mpr (Or.inl rfl)) h
  | case4 => exact Throwing.emits_throw
  | case5 path isKey value hval hkey val hto =>
      exact absurd ((LyValue.storable_iff hval).mpr (Or.inr ⟨val, hto⟩)) h

/-- A node that is not addressed makes no call. -/
theorem storeNode_of_not_addressed {path : NodeRef} {node : DataNode}
    (h : node.addressed = false) : storeNode path node = pure () := by
  cases node with
  | leaf name isKey value =>
      obtain rfl : isKey = true := by simpa [DataNode.addressed] using h
      have hleaf : storeLeaf path true value = pure () := by
        cases value <;> simp [storeLeaf]
      rw [storeNode, hleaf]
      rfl
  | list name keys children => cases h
  | _ => rfl

/-- A node of an unsupported type makes no call and throws. -/
theorem emits_unstorableNode (path : NodeRef) (node : DataNode) (h : ¬ node.Storable) :
    EmitsCalls parse [] (fun _ => False) (storeNode path node) := by
  cases node with
  | leaf name isKey value =>
      refine (emits_unstorableLeaf path isKey value h).rethrow (fun _ => rfl) ?_
      intro exc
      cases exc <;> exact ⟨_, rfl⟩
  | _ => exact absurd trivial h

/-- Without a stored node no call is made: induction up to the first addressed node. -/
theorem emits_storeNodes_none {nodes : List (NodeRef × DataNode)}
    (h : ∀ it, (nodes.find? fun it => it.2.addressed) = some it → ¬ it.2.Storable) :
    EmitsCalls parse [] (fun _ => True) (storeNodes nodes) := by
  induction nodes with
  | nil => exact Throwing.emits_pure trivial
  | cons it rest ih =>
      cases haddr : it.2.addressed with
      | true =>
          have hit : ¬ it.2.Storable := h it (by simp [haddr])
          exact (emits_unstorableNode it.1 it.2 hit).bind_never
      | false =>
          have hnode : EmitsCalls parse [] (fun _ => True) (storeNode it.1 it.2) := by
            rw [storeNode_of_not_addressed haddr]
            exact Throwing.emits_pure trivial
          exact hnode.bind fun _ _ => ih fun it' hit' => h it' (by simpa [haddr] using hit')

theorem emits_jsonUpdate_none {data : String} (h : ¬ StoresSome parse data) :
    EmitsCalls parse [] (fun _ => True) (jsonUpdate data) := by
  have hparse : EmitsCalls parse [] (fun nodes => parse (cStr data) = .ok nodes)
      (parseDataMem (cStr data)) := by
    refine Throwing.emits_ask (fun _ => rfl) ?_
    rintro r nodes hr rfl
    exact hr (cStr data) nodes rfl
  refine hparse.bind ?_
  rintro (- | ⟨node, siblings⟩) hp
  · exact Throwing.emits_throw
  · have hdoc : documentTree parse data = some node := by simp [documentTree, hp]
    exact emits_storeNodes_none fun it hit hs => h ⟨node, it, hdoc, hit, hs⟩

/-- A JSON value of which nothing is stored makes no call. -/
theorem emits_jsonValue_none {data : String} (h : ¬ StoresSome parse data) (pos : String) :
    EmitsCalls parse [] (fun _ => True) (SetRpc.storeValue pos (.jsonIetfVal data)) := by
  refine (emits_jsonUpdate_none h).rethrow (fun _ => rfl) ?_
  intro exc
  cases exc <;> exact ⟨_, rfl⟩

/-! ### Documents of which something is stored -/

/-- The exception with which sysrepo refuses a call. -/
def refusal : Exn := .sysrepoException "SR_ERR_INTERNAL"

/-- A part of `handleUpdate` may make one call at a node of the document, which is refused,
and end there. -/
def Refusable {α : Type} (x : Handler α) : Prop :=
  ∃ ref val evs, Yields x.run evs (.error refusal) ∧
    setItemCalls evs = [(.dataNode ref, val)] ∧
    ∀ ev ∈ evs, ∀ data nodes, ev ≠ ⟨.parseDataMem data, .ok nodes⟩

theorem refusable_setItem (ref : NodeRef) (val : Option Val) :
    Refusable (setItem (.dataNode ref) val) :=
  ⟨ref, val, [⟨.setItem (.dataNode ref) val, .error refusal⟩], Yields.call (Yields.ret _), rfl,
    by simp⟩

theorem refusable_setVal (ref : NodeRef) (val : Val) :
    Refusable (setVal (.dataNode ref) val) :=
  ⟨ref, some val, [⟨.newVal val, .ok ()⟩, ⟨.setItem (.dataNode ref) (some val), .error refusal⟩],
    Yields.call (Yields.call (Yields.ret _)), rfl, by simp⟩

/-- What follows a refused part is not reached. -/
theorem Refusable.bind {α β : Type} {x : Handler α} {f : α → Handler β} (h : Refusable x) :
    Refusable (x >>= f) := by
  obtain ⟨ref, val, evs, hy, hcalls, hparse⟩ := h
  exact ⟨ref, val, evs, Throwing.yields_bind.mpr (Or.inr ⟨_, hy, rfl⟩), hcalls, hparse⟩

theorem Refusable.catchString {x : Handler Unit} (h : Refusable x) :
    Refusable (catchString x) := by
  obtain ⟨ref, val, evs, hy, hcalls, hparse⟩ := h
  refine ⟨ref, val, evs, ?_, hcalls, hparse⟩
  refine Throwing.yields_bind.mpr (Or.inl ⟨evs, [], .error refusal, by simp, ?_, Yields.ret _⟩)
  exact Throwing.yields_observe.mpr ⟨_, rfl, hy⟩

/-- A storable leaf that is no key makes a call: induction on the chain of leafrefs. -/
theorem refusable_storeLeaf {path : NodeRef} {value : LyValue} (h : value.Storable false) :
    Refusable (storeLeaf path false value) := by
  induction value generalizing path with
  | leafref targetPath targetKey target ih =>
      have htarget : target.Storable targetKey := h.resolve_left (by simp)
      rw [storeLeaf, if_neg (by simp)]
      cases targetKey with
      | true =>
          have hkey : storeLeaf targetPath true target = pure () := by
            cases target <;> simp [storeLeaf]
          rw [hkey, pure_bind]
          exact refusable_setItem path none
      | false => exact (ih htarget).bind
  | _ =>
      obtain ⟨val, hval⟩ := h.resolve_left (by simp)
      simp only [storeLeaf, hval]
      exact refusable_setVal path val

/-- **A document of which something is stored** makes a call: induction up to its first
addressed node. -/
theorem refusable_storeNodes {nodes : List (NodeRef × DataNode)} {it : NodeRef × DataNode}
    (hit : (nodes.find? fun it => it.2.addressed) = some it) (hs : it.2.Storable) :
    Refusable (storeNodes nodes) := by
  induction nodes with
  | nil => simp at hit
  | cons first rest ih =>
      cases haddr : first.2.addressed with
      | true =>
          obtain rfl : first = it := by simpa [haddr] using hit
          refine Refusable.bind ?_
          obtain ⟨path, node⟩ := first
          cases node with
          | leaf name isKey value =>
              obtain rfl : isKey = false := by simpa [DataNode.addressed] using haddr
              exact (refusable_storeLeaf hs).catchString
          | list name keys children => exact refusable_setVal path .list
          | _ => cases haddr
      | false =>
          rw [storeNodes, storeNode_of_not_addressed haddr, pure_bind]
          exact ih (by simpa [haddr] using hit)

/-- The dialogue of a refused document. -/
theorem refusable_jsonItem (pfx : Option Path) (path : Path) {data : String}
    (h : StoresSome parse data) :
    ∃ ref val evs r, Yields (SetRpc.handleUpdate ⟨some path, some (.jsonIetfVal data)⟩ {}
        (pfx.elim "" gnmiToXpath)).run evs r ∧
      setItemCalls evs = [(.dataNode ref, val)] ∧ ∀ ev ∈ evs, Parsed parse ev.1 ev.2 := by
  obtain ⟨node, it, hdoc, hit, hs⟩ := h
  obtain ⟨ref, val, evs, hy, hcalls, hparse⟩ := refusable_storeNodes hit hs
  obtain ⟨siblings, hp⟩ : ∃ siblings, parse (cStr data) = .ok (node :: siblings) := by
    rw [documentTree] at hdoc
    rcases hp : parse (cStr data) with exc | (- | ⟨n, siblings⟩)
    · simp [hp] at hdoc
    · simp [hp] at hdoc
    · obtain rfl : n = node := by simpa [hp] using hdoc
      exact ⟨siblings, rfl⟩
  let first : CallEvent := ⟨.parseDataMem (cStr data), .ok (node :: siblings)⟩
  have hjson : Yields (jsonUpdate data).run (first :: evs) (.error refusal) :=
    Throwing.yields_bind.mpr (Or.inl ⟨[first], evs, node :: siblings, rfl,
      Throwing.yields_ask.mpr ⟨_, rfl, rfl⟩, hy⟩)
  have hstore : Yields (SetRpc.rethrowInvalid (jsonUpdate data)).run (first :: evs)
      (.error (.invalidArgument "SR_ERR_INTERNAL")) :=
    Throwing.yields_bind.mpr (Or.inl ⟨first :: evs, [], .error refusal, by simp,
      Throwing.yields_observe.mpr ⟨_, rfl, hjson⟩, Yields.ret _⟩)
  refine ⟨ref, val, first :: evs, _, Throwing.yields_bind.mpr (Or.inr ⟨_, hstore, rfl⟩),
    hcalls, ?_⟩
  intro ev hev data' nodes heq
  rcases List.mem_cons.mp hev with rfl | hev
  · cases heq
    exact hp
  · exact absurd heq (hparse ev hev data' nodes)

/-- The dialogue of an accepted scalar. -/
theorem yields_scalarItem (pfx : Option Path) (path : Path) {reqval : TypedValue} {val : Val}
    (h : SetRpc.scalar reqval = some val) :
    ∃ evs r, Yields (SetRpc.handleUpdate ⟨some path, some reqval⟩ {}
        (pfx.elim "" gnmiToXpath)).run evs r ∧
      setItemCalls evs = [(.xpath (cStr (fullXpath pfx path)), some val)] ∧
      ∀ ev ∈ evs, Parsed parse ev.1 ev.2 := by
  have hvalue : SetRpc.storeValue (fullXpath pfx path) reqval =
      setVal (.xpath (cStr (fullXpath pfx path))) val := by
    simp [SetRpc.storeValue, h]
  refine ⟨[⟨.newVal val, .ok ()⟩, ⟨.setItem _ (some val), .ok ()⟩],
    .ok (.OK, { path := some path }), ?_, rfl, ?_⟩
  · refine Throwing.yields_bind.mpr (Or.inl
      ⟨_, [], (), (List.append_nil _).symm, ?_, Yields.ret _⟩)
    rw [show pfx.elim "" gnmiToXpath ++ gnmiToXpath path = fullXpath pfx path from rfl, hvalue]
    exact Yields.call (Yields.call (Yields.ret _))
  · intro ev hev data nodes heq
    simp only [List.mem_cons, List.not_mem_nil, or_false] at hev
    rcases hev with rfl | rfl <;> cases heq

end Emits

/-! ### What follows from the placement -/

/-- The calls of a document are made at nodes. -/
theorem mem_callsOf_treeEdits {node : DataNode} {call : ItemPath × Option Val}
    (h : call ∈ callsOf (treeEdits node)) : ∃ ref, call.1 = .dataNode ref := by
  obtain ⟨e, he, hcall⟩ := List.mem_filterMap.mp h
  obtain ⟨⟨path, n⟩, -, hn⟩ := List.mem_flatMap.mp he
  have hleaf : ∀ path isKey value, e ∈ leafEdits path isKey value →
      ∃ ref, call.1 = .dataNode ref := by
    intro path isKey value
    fun_induction leafEdits path isKey value with
    | case2 path isKey targetPath targetKey target hkey ih =>
        intro h
        rcases List.mem_append.mp h with h | h
        · exact ih h
        · obtain rfl := List.mem_singleton.mp h
          exact ⟨path, by rw [← Option.some.inj hcall]⟩
    | case5 path isKey value hval hkey val hto =>
        intro h
        obtain rfl := List.mem_singleton.mp h
        exact ⟨path, by rw [← Option.some.inj hcall]⟩
    | _ => simp
  cases n with
  | leaf name isKey value => exact hleaf _ _ _ hn
  | list name keys children =>
      obtain rfl := List.mem_singleton.mp hn
      exact ⟨path, by rw [← Option.some.inj hcall]⟩
  | _ => simp [nodeEdits] at hn

section Frame

variable {sch : Schema} {parse : String → Except Exn (List DataNode)}

/-- What belongs to a node is at or below it. -/
theorem below_of_placed {fullpath : String} {base : NodeRef}
    (hbase : sch.resolve fullpath = some base) {reqval : TypedValue}
    {call : ItemPath × Option Val} (h : call ∈ placedCalls sch parse fullpath reqval)
    {ref : NodeRef} (href : sch.target call.1 = some ref) : base <+: ref := by
  have hscalar (val : Val) (h : call ∈ [(ItemPath.xpath fullpath, some val)]) :
      base <+: ref := by
    obtain rfl := List.mem_singleton.mp h
    obtain rfl : base = ref := Option.some.inj (hbase.symm.trans href)
    exact List.prefix_refl _
  cases reqval with
  | jsonIetfVal data =>
      simp only [placedCalls, SetRpc.scalar, hbase] at h
      cases hdoc : documentTree parse data with
      | none => simp [hdoc] at h
      | some node =>
          simp only [hdoc] at h
          obtain ⟨call', hcall', rfl⟩ := List.mem_map.mp h
          obtain ⟨ref', href'⟩ := mem_callsOf_treeEdits hcall'
          rw [href'] at href
          obtain rfl : base ++ ref' = ref := Option.some.inj href
          exact List.prefix_append _ _
  | stringVal | intVal | uintVal | boolVal | floatVal => exact hscalar _ h
  | _ => simp [placedCalls, SetRpc.scalar] at h

/-- Only the `set_item` calls of an item leave an edit pending. -/
theorem set_of_mem_acceptedEdits {pfx : String} {upd : Update} {evs : List CallEvent}
    {r : Except Exn (StatusCode × UpdateResult)}
    (hy : Yields (SetRpc.handleUpdate upd {} pfx).run evs r) {e : Edit}
    (he : e ∈ acceptedEdits evs) : ∃ call ∈ setItemCalls evs, e = .set call.1 call.2 := by
  obtain ⟨⟨c, reply⟩, hmem, hacc⟩ := List.mem_filterMap.mp he
  have honly := (SetRpc.only_handleUpdate upd {} _).mem hy _ hmem
  cases c with
  | setItem p v =>
      refine ⟨(p, v), List.mem_filterMap.mpr ⟨_, hmem, rfl⟩, ?_⟩
      cases reply with
      | error exc => cases hacc
      | ok u => exact (Option.some.inj hacc).symm
  | deleteItem xpath => exact honly.elim
  | _ => cases hacc

/-- **The frame of an item that is placed right**: a node that is not at or below its path
keeps its value. -/
theorem frame_of_placed {pfx : Option Path} {upd : Update} {evs : List CallEvent}
    {r : Except Exn (StatusCode × UpdateResult)}
    (hy : Yields (SetRpc.handleUpdate upd {} (pfx.elim "" gnmiToXpath)).run evs r)
    (hplaced : setItemCalls evs <+: upd.placedCalls sch parse pfx) {path : Path}
    {base : NodeRef} (hpath : upd.path = some path)
    (hbase : sch.resolve (fullXpath pfx path) = some base) {s : Store} {q : NodeRef}
    {val : Val} (hq : ¬ base <+: q) (hval : get q s = some val) :
    get q (sch.sysrepo.applyAll (acceptedEdits evs) s) = some val := by
  have hnodelete : ∀ xpath, Edit.delete xpath ∉ acceptedEdits evs := by
    intro xpath h
    obtain ⟨call, -, heq⟩ := set_of_mem_acceptedEdits hy h
    cases heq
  rw [sch.applyAll_sets hnodelete]
  refine get_setAll_of_some _ (fun w hw heq => hq ?_) hval
  obtain ⟨e, he, hwritten⟩ := List.mem_filterMap.mp hw
  obtain ⟨⟨p, v⟩, hcall, rfl⟩ := set_of_mem_acceptedEdits hy he
  have hmem := hplaced.subset hcall
  obtain ⟨upath, uval⟩ := upd
  obtain rfl : upath = some path := hpath
  cases uval with
  | none => simp [Update.placedCalls] at hmem
  | some reqval =>
      cases v with
      | none => cases hwritten
      | some v =>
          obtain ⟨ref, href, rfl⟩ := Option.map_eq_some_iff.mp hwritten
          rw [heq]
          exact below_of_placed hbase hmem href

/-- At the root nothing moves. -/
theorem map_below_nil (calls : List (ItemPath × Option Val)) :
    (calls.map fun call => (call.1.below [], call.2)) = calls := by
  refine List.map_id'' (fun call => ?_) calls
  obtain ⟨path, val⟩ := call
  cases path <;> rfl

/-- **An item whose value belongs where it is stored is placed right.** -/
theorem placed_of_inPlace {pfx : Option Path} {upd : Update}
    (h : ∀ path reqval, upd.path = some path → upd.val = some reqval →
      InPlace parse (fullXpath pfx path) reqval)
    {evs : List CallEvent} {r : Except Exn (StatusCode × UpdateResult)}
    (hy : Yields (SetRpc.handleUpdate upd {} (pfx.elim "" gnmiToXpath)).run evs r)
    (hr : ∀ ev ∈ evs, Parsed parse ev.1 ev.2) :
    setItemCalls evs <+: upd.placedCalls sch parse pfx := by
  have hcalls : setItemCalls evs <+: callsOf (updateEdits parse (pfx.elim "" gnmiToXpath) upd) :=
    (emits_handleUpdate _ upd evs r hy hr).1
  obtain ⟨_ | path, _ | reqval⟩ := upd
  · exact hcalls
  · exact hcalls
  · exact hcalls
  · have hin := h path reqval rfl rfl
    change setItemCalls evs <+: callsOf (valueEdits parse (fullXpath pfx path) reqval) at hcalls
    change setItemCalls evs <+: placedCalls sch parse (fullXpath pfx path) reqval
    cases reqval with
    | jsonIetfVal data =>
        rcases hin with hroot | hnone
        · -- at the root a document belongs where it is stored
          have hresolve : sch.resolve (fullXpath pfx path) = some [] :=
            (sch.resolve_eq_nil _).mpr hroot
          simp only [valueEdits, placedCalls, SetRpc.scalar, hresolve] at hcalls ⊢
          cases hdoc : documentTree parse data with
          | none => simpa [hdoc, callsOf] using hcalls
          | some node =>
              simp only [hdoc, map_below_nil] at hcalls ⊢
              exact hcalls
        · have hvalue := emits_jsonValue_none hnone (fullXpath pfx path)
          have hres : EmitsCalls parse [] (fun _ => True)
              (pure (.OK, { path := some path }) : Handler (StatusCode × UpdateResult)) :=
            Throwing.emits_pure trivial
          have hnil := (hvalue.bind fun _ _ => hres) evs r hy hr
          exact hnil.1.trans List.nil_prefix
    | stringVal | intVal | uintVal | boolVal | floatVal =>
        have hpath : cStr (fullXpath pfx path) = fullXpath pfx path := cStr_eq_self hin
        simp only [valueEdits, SetRpc.scalar, hpath] at hcalls
        exact hcalls
    | _ => exact hcalls

/-- A scalar that touches only its subtree is at a path without a NUL: it is set at the C
string of the path. -/
theorem TouchesOnly.no_nul {sch : Schema} {parse : String → Except Exn (List DataNode)}
    {pfx : Option Path} {path : Path} {reqval : TypedValue} {val : Val}
    (h : TouchesOnly sch parse pfx ⟨some path, some reqval⟩)
    (hs : SetRpc.scalar reqval = some val)
    (hplace : placedCalls sch parse (fullXpath pfx path) reqval =
      [(.xpath (fullXpath pfx path), some val)]) :
    ∀ c ∈ (fullXpath pfx path).toList, c.toNat ≠ 0 := by
  obtain ⟨evs, r, hy, hcalls, hr⟩ := yields_scalarItem pfx path hs
  have hpre : setItemCalls evs <+: placedCalls sch parse (fullXpath pfx path) reqval :=
    h.placed evs r hy hr
  rw [hcalls, hplace] at hpre
  have heq := hpre.eq_of_length rfl
  simp only [List.cons.injEq, Prod.mk.injEq, ItemPath.xpath.injEq, and_true] at heq
  exact cStr_eq_self_iff.mp heq

/-- A document of which something is stored touches only its subtree at the root: its first
call is made at a place that belongs below the path. -/
theorem TouchesOnly.root {sch : Schema} {parse : String → Except Exn (List DataNode)}
    {pfx : Option Path} {path : Path} {data : String}
    (h : TouchesOnly sch parse pfx ⟨some path, some (.jsonIetfVal data)⟩)
    (hstores : StoresSome parse data) : fullXpath pfx path = "" := by
  obtain ⟨ref, val, evs, r, hy, hcalls, hr⟩ := refusable_jsonItem pfx path hstores
  have hmade : setItemCalls evs <+:
      callsOf (valueEdits parse (fullXpath pfx path) (.jsonIetfVal data)) :=
    (emits_handleUpdate _ _ evs r hy hr).1
  have hpre : setItemCalls evs <+:
      placedCalls sch parse (fullXpath pfx path) (.jsonIetfVal data) :=
    h.placed evs r hy hr
  obtain ⟨node, -, hdoc, -⟩ := hstores
  rw [hcalls] at hmade hpre
  simp only [valueEdits, placedCalls, SetRpc.scalar, hdoc, Option.elim_some] at hmade hpre
  cases hbase : sch.resolve (fullXpath pfx path) with
  | none => simp [hbase] at hpre
  | some base =>
      -- the first call is made at `ref` and belongs at `base ++ ref`
      obtain ⟨tail, htail⟩ := hmade
      simp only [hbase, ← htail, List.singleton_append, List.map_cons,
        ItemPath.below, List.cons_prefix_cons, Prod.mk.injEq, ItemPath.dataNode.injEq] at hpre
      have hnil : base = [] := List.self_eq_append_left.mp hpre.1.1
      exact (sch.resolve_eq_nil _).mp (hnil ▸ hbase)

/-- **Which items touch only the subtree they name**: scalars at a path without a NUL, and
documents that are at the root or of which nothing is stored. -/
theorem touchesOnly_iff (sch : Schema) (parse : String → Except Exn (List DataNode))
    (pfx : Option Path) (upd : Update) :
    TouchesOnly sch parse pfx upd ↔
      ∀ path reqval, upd.path = some path → upd.val = some reqval →
        InPlace parse (fullXpath pfx path) reqval := by
  constructor
  · intro h path reqval hpath hval
    obtain ⟨upath, uval⟩ := upd
    obtain rfl : upath = some path := hpath
    obtain rfl : uval = some reqval := hval
    cases reqval with
    | jsonIetfVal data =>
        by_contra hnot
        obtain ⟨hroot, hstores⟩ : fullXpath pfx path ≠ "" ∧ StoresSome parse data := by
          simpa [InPlace, SetRpc.scalar] using hnot
        exact hroot (h.root hstores)
    | stringVal | intVal | uintVal | boolVal | floatVal => exact h.no_nul rfl rfl
    | _ => trivial
  · intro h
    refine ⟨fun evs r hy hr => placed_of_inPlace h hy hr, ?_, ?_⟩
    · intro evs r hy hr path base hpath hbase s q val hq hval
      exact frame_of_placed hy (placed_of_inPlace h hy hr) hpath hbase hq hval
    · intro evs out hy hr
      exact ((emits_handleUpdate _ upd evs _ hy hr).2 _ rfl).2 rfl

end Frame

/-- The path of the leaf `/ex:clock/zone`. -/
def zoneRef : NodeRef := [.container ⟨"ex", "clock"⟩ false, .leaf ⟨"ex", "zone"⟩]

/-- The document `{"ex:clock": {"zone": "UTC"}}`. -/
def clockDocument : DataNode :=
  .container ⟨"ex", "clock"⟩ false [.leaf ⟨"ex", "zone"⟩ false (.string "UTC")]

/-- The text of that document. -/
def clockText : String :=
  JsonText.write (.obj [("ex:clock", .obj [("zone", .str "UTC")])])

/-- That document as the value of the path `/ex:system`. -/
def clockInSystem : Update :=
  ⟨some { elem := [⟨"ex:system", []⟩] }, some (.jsonIetfVal clockText)⟩

/-- **An item changes what lies outside its path**: with the document of the clock at
`/ex:system`, `handleUpdate` sets `/ex:clock/zone`. -/
theorem not_touchesOnly :
    ¬ TouchesOnly systemSchema (systemSchema.granting clockDocument).parse none
      clockInSystem := by
  intro h
  obtain ⟨hy, ha, -⟩ := yields_run (serve (systemSchema.granting clockDocument))
    (SetRpc.handleUpdate clockInSystem {} "").run (World.start [])
  have hzone := h.frame _ _ hy (parsed_of_answers ha) { elem := [⟨"ex:system", []⟩] } systemRef
    rfl (by decide) (set RefStep.value zoneRef (.string "CET") []) zoneRef (.string "CET")
    (by decide) (by decide)
  exact absurd hzone (by decide)

end SysrepoGnxi
