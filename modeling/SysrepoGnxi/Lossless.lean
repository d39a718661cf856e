import SysrepoGnxi.Documents
import SysrepoGnxi.Lib.JsonText

/-!
# What json_update Loses

`json_update` should store every node of a document that carries information, or refuse the
document. It refuses unsupported types, but `store_tree` has nothing to store for an entry
of a leaf-list or a presence container, and what it writes at the path of a leafref is a
null value: `losesNothing_iff` says that exactly the documents in which such a node has
nothing stored at or below it lose data, and `not_losesNothing` shows one.
-/

open PathStore

namespace SysrepoGnxi

/-- A node that carries information: a leaf, an entry of a leaf-list, a list instance or a
presence container. -/
def DataNode.Informs : DataNode → Prop
  | leaf _ _ _ => True
  | leaflist _ _ => True
  | list _ _ _ => True
  | container _ presence _ => presence = true
  | other _ _ => False

/-- A visited node exists in a datastore. A key leaf does with its list instance, whose
path ends where that of the leaf does but for the last step. -/
def Present (s : Store) (it : NodeRef × DataNode) : Prop :=
  match it.2 with
  | .leaf _ true _ => (get it.1.dropLast s).isSome
  | _ => (get it.1 s).isSome

/-- `json_update` of a document with this tree loses nothing silently, whatever the session
and the datastore. -/
structure LosesNothing (sch : Schema) (data : String) (node : DataNode) : Prop where
  /-- A document that is stored and committed has every informing node in the
  datastore. -/
  stored : ∀ env w, env.sysrepo = sch.sysrepo → documentTree env.parse data = some node →
    (serveUpdate env w data).value = .ok () →
    ∀ it ∈ treeDfs [] node, it.2.Informs → Present (serveUpdate env w data).state.running it
  /-- A document with a leaf that cannot be stored is refused, and so is every Set request
  with it. -/
  refused : ∀ env w, env.sysrepo = sch.sysrepo → documentTree env.parse data = some node →
    ¬ node.AllStorable → (serveUpdate env w data).value ≠ .ok () ∧
      ∀ request upd path, upd ∈ request.replace ++ request.update → upd.path = some path →
        upd.val = some (.jsonIetfVal data) → ¬ (serveSet env w request).value.Ok

/-! ### The condition -/

/-- A node `store_tree` stores no value for: a leafref that is no key, an entry of a
leaf-list, a presence container. -/
def DataNode.Unwritten : DataNode → Prop
  | leaf _ isKey (.leafref _ _ _) => isKey = false
  | leaflist _ _ => True
  | container _ presence _ => presence = true
  | _ => False

/-- The value of some node of the tree is stored at or below a path. -/
def DataNode.StoresAt (node : DataNode) (path : NodeRef) : Prop :=
  ∃ it ∈ treeDfs [] node, ∃ place, it.2.place it.1 = some place ∧ path <+: place.1

/-- Every node that is not written itself has something stored at or below it. -/
def DataNode.Reaches (node : DataNode) : Prop :=
  ∀ it ∈ treeDfs [] node, it.2.Unwritten → node.StoresAt it.1

/-- Every key leaf is a child of a list instance, as libyang has it. -/
def DataNode.KeysInLists (node : DataNode) : Prop :=
  ∀ it ∈ treeDfs [] node, ∀ name value, it.2 = .leaf name true value →
    ∃ above list keys, it.1 = above ++ [.list list keys, .leaf name]

theorem storesAt_iff {node : DataNode} {path : NodeRef} :
    node.StoresAt path ↔ ∃ w ∈ treeWrites node, path <+: w.1 := by
  constructor
  · rintro ⟨it, hit, w, hw, hpath⟩
    exact ⟨w, List.mem_filterMap.mpr ⟨it, hit, hw⟩, hpath⟩
  · rintro ⟨w, hmem, hpath⟩
    obtain ⟨it, hit, hw⟩ := List.mem_filterMap.mp hmem
    exact ⟨it, hit, w, hw, hpath⟩

/-- The path of a visited node is not the root. -/
theorem ne_nil_of_mem_treeDfs {node : DataNode} {it : NodeRef × DataNode}
    (h : it ∈ treeDfs [] node) : it.1 ≠ [] := by
  obtain ⟨way, hway⟩ := (visited_of_mem_treeDfs [] node it h).path
  rw [hway]
  simp

/-- What a document stores at or below a path exists after it has been stored. -/
theorem isSome_get_treeWrites {node : DataNode} {path : NodeRef} (hne : path ≠ [])
    (s : Store) :
    (get path (setAll RefStep.value (treeWrites node) s)).isSome ↔
      (get path s).isSome ∨ node.StoresAt path := by
  rw [isSome_get_setAll RefStep.value hne, storesAt_iff]

/-- A storable leaf that is neither a key nor a leafref is stored at its own path. -/
theorem storesAt_leaf {node : DataNode} {path : NodeRef} {name : QName} {value : LyValue}
    (h : (path, .leaf name false value) ∈ treeDfs [] node) (hs : value.Storable false) :
    node.StoresAt path ∨ (DataNode.leaf name false value).Unwritten := by
  cases value with
  | leafref => exact Or.inr rfl
  | _ =>
      obtain ⟨val, hval⟩ := hs.resolve_left (by simp)
      refine Or.inl ⟨_, h, (path, val), ?_, List.prefix_refl _⟩
      simp [DataNode.place, LyValue.place, hval, Except.toOption]

/-- The list instance of a key leaf is stored. -/
theorem storesAt_of_key {node : DataNode} (hkeys : node.KeysInLists) {path : NodeRef}
    {name : QName} {value : LyValue} (h : (path, .leaf name true value) ∈ treeDfs [] node) :
    path.dropLast ≠ [] ∧ node.StoresAt path.dropLast := by
  obtain ⟨above, list, keys, hpath⟩ := hkeys _ h _ _ rfl
  simp only at hpath
  have hdrop : path.dropLast = above ++ [.list list keys] := by
    rw [hpath]
    simp
  have hv := visited_of_mem_treeDfs [] node _ h
  -- the instance lies above its key, so it is visited
  rcases hv.above (q := path.dropLast) List.nil_prefix (by simp [hdrop])
    (List.dropLast_prefix _) with heq | ⟨n, hn, -⟩
  · have hlen := congrArg List.length heq
    simp [hpath] at hlen
  · have hmem : (path.dropLast, n) ∈ treeDfs [] node := by
      rw [← forestDfs_singleton]
      exact hn.mem
    obtain ⟨way, hway⟩ := hn.path
    rw [hdrop] at hway
    have hstep : n.step = .list list keys := by
      have := congrArg List.getLast? hway
      simpa using this.symm
    refine ⟨by simp [hdrop], (path.dropLast, n), hmem, (path.dropLast, .list), ?_,
      List.prefix_refl _⟩
    cases n <;> simp_all [DataNode.step, DataNode.place]

/-- **What a stored document leaves in the datastore**: an informing node exists if
something is stored at or below it, or if it is no unwritten one. -/
theorem present_of_reaches {node : DataNode} (hkeys : node.KeysInLists)
    (hall : node.AllStorable) (hreach : node.Reaches) (s : Store)
    {it : NodeRef × DataNode} (hit : it ∈ treeDfs [] node) (hinf : it.2.Informs) :
    Present (setAll RefStep.value (treeWrites node) s) it := by
  obtain ⟨path, n⟩ := it
  have hne : path ≠ [] := ne_nil_of_mem_treeDfs hit
  have hput : node.StoresAt path →
      (get path (setAll RefStep.value (treeWrites node) s)).isSome := fun h =>
    (isSome_get_treeWrites hne s).mpr (Or.inr h)
  cases n with
  | leaf name isKey value =>
      cases isKey with
      | true =>
          obtain ⟨hdrop, hat⟩ := storesAt_of_key hkeys hit
          exact (isSome_get_treeWrites hdrop s).mpr (Or.inr hat)
      | false =>
          rcases storesAt_leaf hit (hall _ hit) with hat | hun
          · exact hput hat
          · exact hput (hreach _ hit hun)
  | leaflist name value => exact hput (hreach _ hit trivial)
  | list name keys children =>
      exact hput ⟨_, hit, (path, .list), rfl, List.prefix_refl _⟩
  | container name presence children => exact hput (hreach _ hit hinf)
  | other name children => exact hinf.elim

/-- An unwritten node informs, and is no key. -/
theorem DataNode.Unwritten.informs {n : DataNode} (h : n.Unwritten) :
    n.Informs ∧ ∀ (s : Store) path, Present s (path, n) ↔ (get path s).isSome := by
  cases n with
  | leaf name isKey value =>
      cases value <;> first
        | exact h.elim
        | exact ⟨trivial, fun s path => by simp [Present, show isKey = false from h]⟩
  | leaflist => exact ⟨trivial, fun _ _ => Iff.rfl⟩
  | container => exact ⟨h, fun _ _ => Iff.rfl⟩
  | list => exact h.elim
  | other => exact h.elim

/-- **`json_update` loses nothing silently** exactly for the documents that are refused for
an unsupported type or whose unwritten nodes have something stored at or below them. -/
theorem losesNothing_iff (sch : Schema) (data : String) {node : DataNode}
    (hkeys : node.KeysInLists) :
    LosesNothing sch data node ↔ (node.AllStorable → node.Reaches) := by
  constructor
  · intro h hall it hit hun
    -- on an empty datastore, what exists afterwards has been stored
    let env := sch.granting node
    have hok : (serveUpdate env (World.start []) data).value = .ok () :=
      serveUpdate_granted (fun _ => rfl) _ rfl hall
    obtain ⟨hinf, hpresent⟩ := hun.informs
    have hget := h.stored env (World.start []) rfl rfl hok it hit hinf
    rw [running_serveUpdate rfl rfl hok] at hget
    have hsome := (hpresent _ it.1).mp hget
    rw [isSome_get_treeWrites (ne_nil_of_mem_treeDfs hit)] at hsome
    rcases hsome with hold | hnew
    · simp [World.view, World.start] at hold
    · exact hnew
  · intro h
    refine ⟨?_, ?_⟩
    · intro env w hsr hdoc hok it hit hinf
      obtain ⟨node', hdoc', hall, -, -⟩ := serveUpdate_ok hok
      obtain rfl : node' = node := Option.some.inj (hdoc'.symm.trans hdoc)
      rw [running_serveUpdate hsr hdoc hok]
      exact present_of_reaches hkeys hall (h hall) _ hit hinf
    · intro env w _ hdoc hnot
      refine ⟨?_, ?_⟩
      · intro hok
        obtain ⟨node', hdoc', hall, -, -⟩ := serveUpdate_ok hok
        obtain rfl : node' = node := Option.some.inj (hdoc'.symm.trans hdoc)
        exact hnot hall
      · intro request upd path hupd hpath hval hok
        obtain ⟨-, -, -, hstor⟩ := serveSet_ok hok
        rcases hstor upd hupd path _ hpath hval with ⟨val, hscalar⟩ | ⟨d, n, heq, hd, hn⟩
        · cases hscalar
        · obtain rfl : data = d := by simpa using heq
          obtain rfl : n = node := Option.some.inj (hd.symm.trans hdoc)
          exact hnot hn

/-- A document with an interface named by its key. -/
def interfaceDocument : DataNode :=
  .container ⟨"ex", "interfaces"⟩ false
    [.list ⟨"ex", "interface"⟩ [("name", .string "eth0")]
      [.leaf ⟨"ex", "name"⟩ true (.string "eth0"), .leaf ⟨"ex", "mtu"⟩ false (.uint16 1500)]]

/-- The text of that document. -/
def interfaceText : String :=
  JsonText.write (.obj [("ex:interfaces", .obj [("interface",
    .arr [.obj [("mtu", .num 1500), ("name", .str "eth0")]])])])

/-- The document of an interface loses nothing. -/
theorem interfaceDocument_losesNothing :
    LosesNothing (.ofTable [] (by simp)) interfaceText interfaceDocument := by
  have hkeys : interfaceDocument.KeysInLists := by
    intro it hit name value heq
    simp only [interfaceDocument, treeDfs, forestDfs, List.nil_append, List.append_nil,
      List.mem_cons, List.mem_append, List.not_mem_nil, or_false] at hit
    rcases hit with rfl | rfl | rfl | rfl <;> cases heq
    exact ⟨[.container ⟨"ex", "interfaces"⟩ false], _, _, rfl⟩
  refine (losesNothing_iff _ interfaceText hkeys).mpr fun _ it hit hun => ?_
  simp only [interfaceDocument, treeDfs, forestDfs, List.nil_append, List.append_nil,
    List.mem_cons, List.mem_append, List.not_mem_nil, or_false] at hit
  rcases hit with rfl | rfl | rfl | rfl <;> cases hun

/-- A document with an entry of a leaf-list. -/
def taggedDocument : DataNode :=
  .container ⟨"ex", "system"⟩ false [.leaflist ⟨"ex", "tag"⟩ (.string "core")]

/-- The text of that document. -/
def taggedText : String :=
  JsonText.write (.obj [("ex:system", .obj [("tag", .arr [.str "core"])])])

/-- **`json_update` loses data silently**: it returns on the document of a leaf-list, and
the entry is not in the datastore after the commit. -/
theorem not_losesNothing :
    ¬ LosesNothing (.ofTable [] (by simp)) taggedText taggedDocument := by
  intro h
  let sch : Schema := .ofTable [] (by simp)
  have hall : taggedDocument.AllStorable := by
    intro it hit
    simp only [taggedDocument, treeDfs, forestDfs, List.nil_append, List.append_nil,
      List.mem_cons, List.not_mem_nil, or_false] at hit
    rcases hit with rfl | rfl <;> trivial
  have hok : (serveUpdate (sch.granting taggedDocument) (World.start []) taggedText).value =
      .ok () := serveUpdate_granted (fun _ => rfl) _ rfl hall
  have hentry := h.stored _ _ rfl rfl hok
    ([.container ⟨"ex", "system"⟩ false, .leaflist ⟨"ex", "tag"⟩ (.string "core")],
      .leaflist ⟨"ex", "tag"⟩ (.string "core"))
    (by simp [taggedDocument, treeDfs, forestDfs]) trivial
  rw [running_serveUpdate rfl rfl hok] at hentry
  exact absurd (show (get _ _).isSome = true from hentry) (by decide)

end SysrepoGnxi
