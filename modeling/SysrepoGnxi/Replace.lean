import Mathlib.Data.List.Nodup
import SysrepoGnxi.Documents
import SysrepoGnxi.Lib.JsonText
import SysrepoGnxi.Utils

/-!
# Replace and Update

A replace item should leave exactly the data of its value below its path, an update item
should keep what its value does not mention. `Set::run` serves both with `handleUpdate`,
which only writes. The update half holds of every request; `replaces_iff` says when the
replace half does: when nothing was there that the value does not mention, and what
`store_tree` passes over was there already.

The data of a value is a list of entries: the nodes of its document, at the paths libyang
gives them, each leaf with the value `storeLeaf` makes of it. Key leaves are part of the
path of their list instance.
-/

open PathStore

namespace SysrepoGnxi

/-! ### The data of a value -/

/-- A node some data mentions, with its value if it is a leaf whose value can be stored. -/
abbrev Entry : Type := NodeRef × Option Val

/-- The value of a leaf, which a leafref has from its target. -/
def LyValue.final : LyValue → Option Val
  | .leafref _ _ target => target.final
  | value => value.toVal.toOption

/-- What a node of a document mentions. -/
def DataNode.entry (path : NodeRef) : DataNode → Option Entry
  | leaf _ isKey value => if isKey then none else some (path, value.final)
  | _ => some (path, none)

/-- What a document mentions: the nodes of all its trees. -/
def documentEntries (nodes : List DataNode) : List Entry :=
  (forestDfs [] nodes).filterMap fun it => it.2.entry it.1

section Value

variable (parse : String → Except Exn (List DataNode)) (base : NodeRef)

/-- The top-level nodes of a document; a refused one has none. -/
def documentNodes (data : String) : List DataNode :=
  match parse (cStr data) with
  | .ok nodes => nodes
  | .error _ => []

/-- **The data of a value** that is to be at a node. -/
def valueEntries (reqval : TypedValue) : List Entry :=
  match SetRpc.scalar reqval, reqval with
  | some val, _ => [(base, some val)]
  | none, .jsonIetfVal data => documentEntries (documentNodes parse data)
  | none, _ => []

/-- What is written of a value at a node. -/
def valueWrites (reqval : TypedValue) : List (NodeRef × Val) :=
  match SetRpc.scalar reqval, reqval with
  | some val, _ => [(base, val)]
  | none, .jsonIetfVal data => (documentTree parse data).elim [] treeWrites
  | none, _ => []

end Value

/-- An entry is in a datastore. -/
def Entry.InStore (s : Store) (e : Entry) : Prop :=
  match e.2 with
  | none => (get e.1 s).isSome
  | some val => get e.1 s = some val

/-! ### What replace and update mean -/

/-- **Replaced**: the subtree at `base` consists of exactly these entries. -/
structure Replaced (base : NodeRef) (entries : List Entry) (after : Store) : Prop where
  only : ∀ q, base <+: q → (get q after).isSome → ∃ e ∈ entries, e.1 = q
  inside : ∀ e ∈ entries, base <+: e.1 ∨ e.1 <+: base
  all : ∀ e ∈ entries, base <+: e.1 → e.InStore after

/-- **Kept**: below `base` nothing has changed but what is mentioned. -/
def Kept (base : NodeRef) (entries : List Entry) (before after : Store) : Prop :=
  ∀ q, base <+: q → (∀ e ∈ entries, e.1 ≠ q) → get q after = get q before

/-- What the operation of an item promises. -/
def Fulfilled (op : Operation) (base : NodeRef) (entries : List Entry)
    (before after : Store) : Prop :=
  (op = .REPLACE → Replaced base entries after) ∧
    (op = .UPDATE → Kept base entries before after)

/-- The condition on a replace: the value covers what was there, lies where it is to be,
and what is not written of it was there. -/
structure Covers (base : NodeRef) (entries : List Entry) (writes : List (NodeRef × Val))
    (before : Store) : Prop where
  /-- No scalar is set at the root, which holds none. -/
  rooted : ∀ e ∈ entries, base <+: e.1 → e.1 ≠ []
  only : ∀ q, base <+: q → (get q before).isSome → ∃ e ∈ entries, e.1 = q
  inside : ∀ e ∈ entries, base <+: e.1 ∨ e.1 <+: base
  unwritten : ∀ e ∈ entries, base <+: e.1 → (∀ w ∈ writes, ¬ e.1 <+: w.1) →
    e.InStore before

/-- How the writes of a value fit its entries: all that is written is mentioned, and
written with the value it has. -/
structure Fits (base : NodeRef) (entries : List Entry) (writes : List (NodeRef × Val)) :
    Prop where
  mentioned : ∀ w ∈ writes, ∀ q, q ≠ [] → base <+: q → q <+: w.1 → ∃ e ∈ entries, e.1 = q
  agree : ∀ e ∈ entries, ∀ val, e.2 = some val → ∀ w ∈ writes, e.1 <+: w.1 →
    w = (e.1, val)

section Writes

variable {base : NodeRef} {entries : List Entry} {writes later : List (NodeRef × Val)}

/-- Later writes elsewhere leave the subtree alone. -/
theorem get_of_later (hlater : ∀ w ∈ later, ¬ base <+: w.1) {q : NodeRef} (hq : base <+: q)
    (s : Store) :
    get q (setAll RefStep.value (writes ++ later) s) =
      get q (setAll RefStep.value writes s) := by
  rw [setAll_append]
  refine get_setAll_of_off_path _ (fun w hw hpre => hlater w hw ?_) _
  exact hq.trans hpre

/-- A node that exists after the writes existed before, or is mentioned. -/
theorem mentioned_of_isSome (hfits : Fits base entries writes) {s : Store} {q : NodeRef}
    (hq : base <+: q) (h : (get q (setAll RefStep.value writes s)).isSome) :
    (get q s).isSome ∨ ∃ e ∈ entries, e.1 = q := by
  have hne : q ≠ [] := by
    rintro rfl
    simp at h
  rcases (isSome_get_setAll RefStep.value hne writes s).mp h with hold | ⟨w, hw, hpre⟩
  · exact Or.inl hold
  · exact Or.inr (hfits.mentioned w hw q hne hq hpre)

/-- **Update keeps**: a node that is not mentioned is left alone. -/
theorem kept_setAll (hfits : Fits base entries writes)
    (hlater : ∀ w ∈ later, ¬ base <+: w.1) (s : Store) :
    Kept base entries s (setAll RefStep.value (writes ++ later) s) := by
  intro q hq hfree
  rw [get_of_later hlater hq]
  cases hold : get q s with
  | some val =>
      have hne : q ≠ [] := by
        rintro rfl
        simp at hold
      refine get_setAll_of_some _ (fun w hw heq => ?_) hold
      obtain ⟨e, he, heq'⟩ := hfits.mentioned w hw q hne hq (heq ▸ List.prefix_refl _)
      exact hfree e he heq'
  | none =>
      by_contra hnew
      obtain h | ⟨e, he, heq⟩ :=
        mentioned_of_isSome (s := s) hfits hq (Option.isSome_iff_ne_none.mpr hnew)
      · simp [hold] at h
      · exact hfree e he heq

/-- An entry that is written is in the datastore afterwards. -/
theorem inStore_of_written (hfits : Fits base entries writes) {e : Entry} (he : e ∈ entries)
    (hne : e.1 ≠ []) {w : NodeRef × Val} (hw : w ∈ writes) (hpre : e.1 <+: w.1) (s : Store) :
    e.InStore (setAll RefStep.value writes s) := by
  obtain ⟨q, content⟩ := e
  cases content with
  | none => exact (isSome_get_setAll RefStep.value hne writes s).mpr (Or.inr ⟨w, hw, hpre⟩)
  | some val =>
      have hagree : ∀ w ∈ writes, w.1 = q → w.2 = val := by
        intro w hw heq
        rw [hfits.agree _ he val rfl w hw (heq ▸ List.prefix_refl _)]
      have heq : w = (q, val) := hfits.agree _ he val rfl w hw hpre
      exact get_setAll_of_mem RefStep.value hne (heq ▸ hw) hagree s

/-- An entry that is not written is in the datastore afterwards if it was before. -/
theorem inStore_of_unwritten {e : Entry} (h : ∀ w ∈ writes, ¬ e.1 <+: w.1) (s : Store) :
    e.InStore (setAll RefStep.value writes s) ↔ e.InStore s := by
  rw [Entry.InStore, Entry.InStore, get_setAll_of_off_path _ h]

/-- **Writing replaces** exactly when the value covers what was there. -/
theorem replaced_setAll_iff (hfits : Fits base entries writes)
    (hlater : ∀ w ∈ later, ¬ base <+: w.1) (s : Store) :
    Replaced base entries (setAll RefStep.value (writes ++ later) s) ↔
      Covers base entries writes s := by
  have hin (e : Entry) (he : base <+: e.1) :
      e.InStore (setAll RefStep.value (writes ++ later) s) ↔
        e.InStore (setAll RefStep.value writes s) := by
    rw [Entry.InStore, Entry.InStore, get_of_later hlater he]
  constructor
  · intro h
    refine ⟨?_, ?_, h.inside, ?_⟩
    · rintro ⟨q, content⟩ he hpre rfl
      have hroot := h.all _ he hpre
      cases content <;> simp [Entry.InStore] at hroot
    · intro q hq hold
      refine h.only q hq ?_
      rw [get_of_later hlater hq]
      have hne : q ≠ [] := by
        rintro rfl
        simp at hold
      exact (isSome_get_setAll RefStep.value hne writes s).mpr (Or.inl hold)
    · intro e he hpre hun
      exact (inStore_of_unwritten hun s).mp ((hin e hpre).mp (h.all e he hpre))
  · intro h
    refine ⟨?_, h.inside, ?_⟩
    · intro q hq hnew
      rw [get_of_later hlater hq] at hnew
      rcases mentioned_of_isSome hfits hq hnew with hold | hmem
      · exact h.only q hq hold
      · exact hmem
    · intro e he hpre
      rw [hin e hpre]
      by_cases hun : ∀ w ∈ writes, ¬ e.1 <+: w.1
      · exact (inStore_of_unwritten hun s).mpr (h.unwritten e he hpre hun)
      · obtain ⟨w, hw, hpre'⟩ : ∃ w ∈ writes, e.1 <+: w.1 := by
          by_contra hno
          exact hun fun w hw hpre' => hno ⟨w, hw, hpre'⟩
        exact inStore_of_written hfits he (h.rooted e he hpre) hw hpre' s

end Writes

/-! ### What is written of a value is mentioned by it -/

/-- The trees of a document as libyang builds them: no two nodes have the same path, and the
target of a leafref is a node of the document. -/
structure DataForest (nodes : List DataNode) : Prop where
  distinct : ((forestDfs [] nodes).map Prod.fst).Nodup
  targets : ∀ path name isKey targetPath targetKey target,
    (path, .leaf name isKey (.leafref targetPath targetKey target)) ∈ forestDfs [] nodes →
      (∃ name, (targetPath, .leaf name targetKey target) ∈ forestDfs [] nodes) ∨
        (targetKey = false ∧ ∃ name val, target.toVal = .ok val ∧
          (targetPath, .leaflist name val) ∈ forestDfs [] nodes)

section Document

variable {nodes : List DataNode}

/-- A path leads to one node. -/
theorem DataForest.unique (h : DataForest nodes) {path : NodeRef} {m n : DataNode}
    (hm : (path, m) ∈ forestDfs [] nodes) (hn : (path, n) ∈ forestDfs [] nodes) : m = n := by
  have heq := List.inj_on_of_nodup_map h.distinct hm hn rfl
  exact (Prod.mk.inj heq).2

/-- The value of a leaf is stored at a node that is mentioned with that value: induction on
the chain of leafrefs. -/
theorem DataForest.place_leaf (h : DataForest nodes) {value : LyValue} {path : NodeRef}
    {name : QName} {isKey : Bool}
    (hmem : (path, .leaf name isKey value) ∈ forestDfs [] nodes) {w : NodeRef × Val}
    (hw : value.place path isKey = some w) :
    ∃ n content, (w.1, n) ∈ forestDfs [] nodes ∧ n.entry w.1 = some (w.1, content) ∧
      ∀ val, content = some val → w.2 = val := by
  induction value generalizing path name isKey with
  | leafref targetPath targetKey target ih =>
      obtain rfl := LyValue.isKey_of_place hw
      rw [LyValue.place_leafref] at hw
      rcases h.targets _ _ _ _ _ _ hmem with ⟨name', hleaf⟩ | ⟨rfl, name', val, hval, hll⟩
      · exact ih hleaf hw
      · obtain rfl : (targetPath, val) = w :=
          Option.some.inj ((LyValue.place_of_toVal targetPath hval).symm.trans hw)
        exact ⟨_, none, hll, rfl, by simp⟩
  | _ =>
      obtain rfl := LyValue.isKey_of_place hw
      rw [LyValue.place_of_not_leafref path (by simp)] at hw
      obtain ⟨val, hval, rfl⟩ := Option.map_eq_some_iff.mp hw
      exact ⟨_, some val, hmem, congrArg (fun content => some (path, content)) hval, by simp⟩

theorem DataForest.place (h : DataForest nodes) {it : NodeRef × DataNode}
    (hmem : it ∈ forestDfs [] nodes) {w : NodeRef × Val} (hw : it.2.place it.1 = some w) :
    ∃ n content, (w.1, n) ∈ forestDfs [] nodes ∧ n.entry w.1 = some (w.1, content) ∧
      ∀ val, content = some val → w.2 = val := by
  obtain ⟨path, n⟩ := it
  cases n with
  | leaf name isKey value => exact h.place_leaf hmem hw
  | list name keys children =>
      obtain rfl : (path, .list) = w := by simpa [DataNode.place] using hw
      exact ⟨_, none, hmem, rfl, by simp⟩
  | _ => simp [DataNode.place] at hw

/-- A node that is mentioned, as an entry of the document. -/
theorem mem_documentEntries {path : NodeRef} {n : DataNode} {e : Entry}
    (hmem : (path, n) ∈ forestDfs [] nodes) (he : n.entry path = some e) :
    e ∈ documentEntries nodes :=
  List.mem_filterMap.mpr ⟨_, hmem, he⟩

/-- An entry has the path of its node. -/
theorem DataNode.path_of_entry {n : DataNode} {path : NodeRef} {e : Entry}
    (h : n.entry path = some e) : e.1 = path := by
  cases n with
  | leaf name isKey value =>
      cases isKey with
      | true => simp [DataNode.entry] at h
      | false => rw [← Option.some.inj h]
  | _ => rw [← Option.some.inj h]

/-- A node with children is mentioned. -/
theorem DataNode.entry_of_children {n : DataNode} (h : n.children ≠ []) (path : NodeRef) :
    n.entry path = some (path, none) := by
  cases n <;> simp_all [DataNode.children, DataNode.entry]

/-- **The writes of a document fit its entries.** -/
theorem DataForest.fits (base : NodeRef) {node : DataNode} {siblings : List DataNode}
    (h : DataForest (node :: siblings)) :
    Fits base (documentEntries (node :: siblings)) (treeWrites node) := by
  have hplace : ∀ w ∈ treeWrites node, ∃ n content,
      (w.1, n) ∈ forestDfs [] (node :: siblings) ∧ n.entry w.1 = some (w.1, content) ∧
        ∀ val, content = some val → w.2 = val := by
    intro w hw
    obtain ⟨it, hit, hplace⟩ := List.mem_filterMap.mp hw
    exact h.place (List.mem_append_left _ hit) hplace
  constructor
  · intro w hw q hne _ hq
    obtain ⟨n, content, hmem, hentry, -⟩ := hplace w hw
    rcases (visited_iff.mpr hmem).above List.nil_prefix hne hq with heq | ⟨m, hm, hc⟩
    · exact ⟨_, mem_documentEntries hmem hentry, heq.symm⟩
    · exact ⟨_, mem_documentEntries hm.mem (DataNode.entry_of_children hc q), rfl⟩
  · intro e he val hval w hw hq
    obtain ⟨⟨path, m⟩, hm, hentry⟩ := List.mem_filterMap.mp he
    obtain ⟨q, c⟩ := e
    obtain ⟨p, v⟩ := w
    obtain rfl : q = path := DataNode.path_of_entry hentry
    obtain rfl : c = some val := hval
    obtain ⟨n, content, hmem, hentry', hcontent⟩ := hplace _ hw
    have hne : q ≠ [] := by
      obtain ⟨way, hway⟩ := (visited_iff.mpr hm).path
      rw [show q = [] ++ way ++ [m.step] from hway]
      simp
    rcases (visited_iff.mpr hmem).above List.nil_prefix hne hq with heq | ⟨m', hm', hc⟩
    · obtain rfl : q = p := heq
      obtain rfl := h.unique hm hmem
      have hc := Option.some.inj (hentry.symm.trans hentry')
      obtain rfl : v = val := hcontent val (Prod.mk.inj hc).2.symm
      rfl
    · -- a node with children has no value
      obtain rfl := h.unique hm hm'.mem
      rw [show m.entry q = _ from DataNode.entry_of_children hc q] at hentry
      cases hentry

end Document

/-! ### The items of a request -/

/-- The replace and update items of a request, in the order `run` takes them. -/
def SetRequest.items (request : SetRequest) : List (Operation × Update) :=
  request.replace.map (fun upd => (.REPLACE, upd)) ++
    request.update.map fun upd => (.UPDATE, upd)

section Request

variable (sch : Schema) (parse : String → Except Exn (List DataNode))

/-- The edits of the items of a request with this prefix. -/
def itemEdits (pfx : Option Path) (items : List (Operation × Update)) : List Edit :=
  items.flatMap fun it => updateEdits parse (pfx.elim "" gnmiToXpath) it.2

/-- The datastore an item comes to, after the deletes and the items `pre`. -/
def storeBefore (w : World Store) (request : SetRequest) (pre : List (Operation × Update)) :
    Store :=
  sch.sysrepo.applyAll
    (request.delete.map (fun path => .delete (cStr (fullXpath request.pfx path))) ++
      itemEdits parse request.pfx pre) (w.view sch.sysrepo)

/-- An item overlaps a node if it writes at or below it. -/
def Update.Overlaps (pfx : Option Path) (base : NodeRef) (upd : Update) : Prop :=
  ∃ e ∈ updateEdits parse (pfx.elim "" gnmiToXpath) upd, ∃ w,
    sch.written e = some w ∧ base <+: w.1

variable {sch parse}

theorem requestEdits_eq (request : SetRequest) :
    requestEdits parse request =
      request.delete.map (fun path => .delete (cStr (fullXpath request.pfx path))) ++
        itemEdits parse request.pfx request.items := by
  simp [requestEdits, itemEdits, SetRequest.items, fullXpath, List.flatMap_map]

/-- A value deletes nothing. -/
theorem delete_notMem_valueEdits (fullpath : String) (reqval : TypedValue) (xpath : String) :
    Edit.delete xpath ∉ valueEdits parse fullpath reqval := by
  rw [valueEdits.eq_def]
  cases SetRpc.scalar reqval with
  | some val => simp
  | none =>
      cases reqval with
      | jsonIetfVal data =>
          dsimp only
          cases documentTree parse data with
          | none => simp
          | some node => exact delete_notMem_treeEdits node xpath
      | _ => exact List.not_mem_nil

/-- An item deletes nothing. -/
theorem delete_notMem_updateEdits (pfx : String) (upd : Update) (xpath : String) :
    Edit.delete xpath ∉ updateEdits parse pfx upd := by
  obtain ⟨_ | path, _ | reqval⟩ := upd
  case some.some => exact delete_notMem_valueEdits _ reqval xpath
  all_goals simp [updateEdits]

theorem delete_notMem_itemEdits (pfx : Option Path) (items : List (Operation × Update))
    (xpath : String) : Edit.delete xpath ∉ itemEdits parse pfx items := by
  intro h
  obtain ⟨it, -, hit⟩ := List.mem_flatMap.mp h
  exact delete_notMem_updateEdits _ _ _ hit

/-- **What an item writes** at the node its path names. -/
theorem written_updateEdits {pfx : Option Path} {path : Path} {base : NodeRef}
    (hbase : sch.resolve (fullXpath pfx path) = some base) (reqval : TypedValue) :
    (updateEdits parse (pfx.elim "" gnmiToXpath) ⟨some path, some reqval⟩).filterMap
        sch.written = valueWrites parse base reqval := by
  change (valueEdits parse (fullXpath pfx path) reqval).filterMap sch.written = _
  have hscalar (val : Val) :
      [Edit.set (.xpath (cStr (fullXpath pfx path))) (some val)].filterMap sch.written =
        [(base, val)] := by
    simp [Schema.written, Schema.target, sch.cStr_of_resolve _ _ hbase, hbase]
  cases reqval with
  | jsonIetfVal data =>
      simp only [valueEdits, valueWrites, SetRpc.scalar]
      cases documentTree parse data with
      | none => rfl
      | some node => exact written_treeEdits sch node
  | stringVal | intVal | uintVal | boolVal | floatVal => exact hscalar _
  | _ => rfl

/-- A value writes what it mentions. -/
theorem fits_value (base : NodeRef) {reqval : TypedValue}
    (h : ∀ data, reqval = .jsonIetfVal data → DataForest (documentNodes parse data)) :
    Fits base (valueEntries parse base reqval) (valueWrites parse base reqval) := by
  have hscalar (val : Val) : Fits base [(base, some val)] [(base, val)] := by
    constructor
    · intro w hw q _ hq hpre
      obtain rfl := List.mem_singleton.mp hw
      exact ⟨_, List.mem_singleton.mpr rfl, hq.eq_of_length_le hpre.length_le⟩
    · intro e he v hv w hw _
      obtain rfl := List.mem_singleton.mp he
      obtain rfl := List.mem_singleton.mp hw
      obtain rfl : val = v := Option.some.inj hv
      rfl
  have hnone : Fits base [] [] := ⟨by simp, by simp⟩
  cases reqval with
  | jsonIetfVal data =>
      have hforest := h data rfl
      simp only [valueEntries, valueWrites, documentNodes, documentTree, SetRpc.scalar]
        at hforest ⊢
      rcases hp : parse (cStr data) with exc | (- | ⟨node, siblings⟩)
      · exact hnone
      · exact hnone
      · simp only [hp] at hforest
        exact hforest.fits base
  | stringVal | intVal | uintVal | boolVal | floatVal => exact hscalar _
  | _ => exact hnone

/-- **The datastore after a request**, around one of its items: what came before, the
writes of the item, and those of the items after it. -/
theorem running_serveSet {env : Env Store} (hsr : env.sysrepo = sch.sysrepo)
    {w : World Store} {request : SetRequest} (hok : (serveSet env w request).value.Ok)
    {pre post : List (Operation × Update)} {op : Operation} {path : Path}
    {reqval : TypedValue} {base : NodeRef}
    (hitems : request.items = pre ++ (op, ⟨some path, some reqval⟩) :: post)
    (hbase : sch.resolve (fullXpath request.pfx path) = some base) :
    (serveSet env w request).state.running =
      setAll RefStep.value (valueWrites env.parse base reqval ++
        (itemEdits env.parse request.pfx post).filterMap sch.written)
        (storeBefore sch env.parse w request pre) := by
  have hsplit : itemEdits env.parse request.pfx request.items =
      itemEdits env.parse request.pfx pre ++
        itemEdits env.parse request.pfx ((op, ⟨some path, some reqval⟩) :: post) := by
    rw [hitems, itemEdits, List.flatMap_append]
    rfl
  rw [(serveSet_ok hok).1, requestEdits_eq, hsr, hsplit, ← List.append_assoc,
    ← List.append_assoc, Sysrepo.applyAll_append,
    sch.applyAll_sets (delete_notMem_itemEdits _ _), List.append_assoc,
    Sysrepo.applyAll_append]
  have hwrites : (itemEdits env.parse request.pfx
      ((op, ⟨some path, some reqval⟩) :: post)).filterMap sch.written =
      valueWrites env.parse base reqval ++
        (itemEdits env.parse request.pfx post).filterMap sch.written := by
    rw [itemEdits, List.flatMap_cons, List.filterMap_append, written_updateEdits hbase]
    rfl
  rw [hwrites]
  rfl

/-- **Replace replaces, and update keeps**, in every request that returns OK, for every item
no later one overlaps: an update always, a replace exactly if its value covers what was at
its path. -/
theorem replaces_iff {env : Env Store} (hsr : env.sysrepo = sch.sysrepo)
    {w : World Store} {request : SetRequest} (hok : (serveSet env w request).value.Ok)
    {pre post : List (Operation × Update)} {op : Operation} {path : Path}
    {reqval : TypedValue} {base : NodeRef}
    (hitems : request.items = pre ++ (op, ⟨some path, some reqval⟩) :: post)
    (hbase : sch.resolve (fullXpath request.pfx path) = some base)
    (hlast : ∀ it ∈ post, ¬ it.2.Overlaps sch env.parse request.pfx base)
    (hdoc : ∀ data, reqval = .jsonIetfVal data → DataForest (documentNodes env.parse data)) :
    Fulfilled op base (valueEntries env.parse base reqval)
        (storeBefore sch env.parse w request pre) (serveSet env w request).state.running ↔
      (op = .REPLACE → Covers base (valueEntries env.parse base reqval)
        (valueWrites env.parse base reqval) (storeBefore sch env.parse w request pre)) := by
  have hfits := fits_value base hdoc
  have hlater : ∀ v ∈ (itemEdits env.parse request.pfx post).filterMap sch.written,
      ¬ base <+: v.1 := by
    intro v hv hpre
    obtain ⟨e, he, hwr⟩ := List.mem_filterMap.mp hv
    obtain ⟨it, hit, hmem⟩ := List.mem_flatMap.mp he
    exact hlast it hit ⟨e, hmem, v, hwr, hpre⟩
  rw [running_serveSet hsr hok hitems hbase, Fulfilled, replaced_setAll_iff hfits hlater]
  exact ⟨fun h => h.1, fun h => ⟨h, fun _ => kept_setAll hfits hlater _⟩⟩

end Request

/-! ### Replacing the system container -/

/-- The path of the container `/ex:system`. -/
def systemRef : NodeRef := [.container ⟨"ex", "system"⟩ false]

/-- The schema of that container. -/
def systemSchema : Schema := .ofTable [("/ex:system", systemRef)] (by decide)

/-- The document `{"ex:system": {"hostname": "new"}}`. -/
def hostnameDocument : DataNode :=
  .container ⟨"ex", "system"⟩ false [.leaf ⟨"ex", "hostname"⟩ false (.string "new")]

/-- The text of that document. -/
def hostnameText : String :=
  JsonText.write (.obj [("ex:system", .obj [("hostname", .str "new")])])

/-- A datastore with leaves of the system container. -/
def systemStore (leaves : List (String × String)) : Store :=
  [.mk (.container ⟨"ex", "system"⟩ false) .container
    (leaves.map fun e => .mk (.leaf ⟨"ex", e.1⟩) (.string e.2) [])]

/-- A request to replace the system container by that document. -/
def replaceSystem : SetRequest :=
  { replace := [⟨some { elem := [⟨"ex:system", []⟩] }, some (.jsonIetfVal hostnameText)⟩] }

/-- The environment that parses that document. -/
def systemEnv : Env Store := systemSchema.granting hostnameDocument

/-- The data of that document: the container, and the hostname with its value. -/
def hostnameEntries : List Entry :=
  valueEntries systemEnv.parse systemRef (.jsonIetfVal hostnameText)

/-- Where the hostname was all there was, it is replaced. -/
theorem replaceSystem_replaces :
    Fulfilled .REPLACE systemRef hostnameEntries (systemStore [("hostname", "old")])
      (serveSet systemEnv (World.start (systemStore [("hostname", "old")]))
        replaceSystem).state.running := by
  have hforest : DataForest [hostnameDocument] := by
    refine ⟨by decide, ?_⟩
    intro path name isKey targetPath targetKey target h
    simp [hostnameDocument, forestDfs, treeDfs] at h
  have hok : (serveSet systemEnv (World.start (systemStore [("hostname", "old")]))
      replaceSystem).value.Ok := by decide
  have hitems : replaceSystem.items = [] ++ (.REPLACE, ⟨some { elem := [⟨"ex:system", []⟩] },
      some (.jsonIetfVal hostnameText)⟩) :: [] := rfl
  have hbase : systemSchema.resolve (fullXpath replaceSystem.pfx
      { elem := [⟨"ex:system", []⟩] }) = some systemRef := by decide
  refine (replaces_iff rfl hok hitems hbase (by simp) fun _ _ => hforest).mpr fun _ => ?_
  change Covers systemRef hostnameEntries _ (systemStore [("hostname", "old")])
  have hinside : ∀ e ∈ hostnameEntries, systemRef <+: e.1 := by decide
  refine ⟨?_, ?_, fun e he => Or.inl (hinside e he), ?_⟩
  · intro e _ hpre hnil
    rw [hnil] at hpre
    exact absurd hpre (by decide)
  · rintro _ ⟨rest, rfl⟩ h
    rcases rest with - | ⟨step, rest⟩
    · exact ⟨_, List.mem_cons_self, rfl⟩
    · by_cases hstep : step = .leaf ⟨"ex", "hostname"⟩
      · subst hstep
        cases rest with
        | nil => exact ⟨_, List.mem_cons_of_mem _ List.mem_cons_self, rfl⟩
        | cons => simp [systemStore, systemRef, PathStore.get_cons] at h
      · simp [systemStore, systemRef, PathStore.get_cons, Ne.symm hstep] at h
  · intro e he _ hun
    have hwritten : ∀ e ∈ hostnameEntries, e.1 <+: systemRef ++ [.leaf ⟨"ex", "hostname"⟩] := by
      decide
    exact absurd (hwritten e he) (hun (_, .string "new") List.mem_cons_self)

/-- **A replaced container keeps what the value does not mention**: the domain is still
there after a replace that gives the hostname only, and the request returns OK. -/
theorem not_replaces :
    (serveSet systemEnv (World.start (systemStore [("hostname", "old"), ("domain", "net")]))
      replaceSystem).value.Ok ∧
    ¬ Fulfilled .REPLACE systemRef hostnameEntries
      (systemStore [("hostname", "old"), ("domain", "net")])
      (serveSet systemEnv
        (World.start (systemStore [("hostname", "old"), ("domain", "net")]))
        replaceSystem).state.running := by
  refine ⟨by decide, fun h => ?_⟩
  obtain ⟨e, he, heq⟩ := (h.1 rfl).only (systemRef ++ [.leaf ⟨"ex", "domain"⟩])
    (List.prefix_append _ _) (by decide)
  have hnot : ∀ e ∈ hostnameEntries, e.1 ≠ systemRef ++ [.leaf ⟨"ex", "domain"⟩] := by decide
  exact hnot e he heq

end SysrepoGnxi
