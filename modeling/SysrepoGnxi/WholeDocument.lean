import SysrepoGnxi.Placement

/-!
# Documents with Several Top-Level Members

`parse_data_mem` returns the first of the top-level nodes of a document, and `store_tree`
walks the tree below it and nothing beside it. `storedWhole_iff` says for which documents
`json_update` stores every member all the same: where the first is refused, or where the
others have nothing to store.
-/

open Dialogue

namespace SysrepoGnxi

variable (parse : String → Except Exn (List DataNode))

/-- **A document is stored whole**: whenever `json_update` returns, it has left the edits of
all top-level trees, in order, each of them made of leaves that can be stored. -/
def StoredWhole (data : String) : Prop :=
  ∀ nodes, parse (cStr data) = .ok nodes → ∀ evs, Yields (jsonUpdate data).run evs (.ok ()) →
    (∀ ev ∈ evs, Parsed parse ev.1 ev.2) →
      acceptedEdits evs = nodes.flatMap treeEdits ∧ ∀ node ∈ nodes, node.AllStorable

variable {parse}

/-- A node that can be stored and leaves no edit is not addressed. -/
theorem addressed_of_nodeEdits {path : NodeRef} {node : DataNode} (hs : node.Storable)
    (h : nodeEdits path node = []) : node.addressed = false := by
  cases node with
  | leaf name isKey value =>
      cases isKey with
      | true => rfl
      | false =>
          cases value with
          | leafref targetPath targetKey target => simp [nodeEdits, leafEdits] at h
          | _ =>
              obtain ⟨val, hval⟩ := hs.resolve_left (by simp)
              simp [nodeEdits, leafEdits, hval] at h
  | list name keys children => cases h
  | _ => rfl

/-- A node that is not addressed can be stored and leaves no edit. -/
theorem nodeEdits_of_not_addressed {node : DataNode} (h : node.addressed = false) :
    (∀ path, nodeEdits path node = []) ∧ node.Storable := by
  cases node with
  | leaf name isKey value =>
      obtain rfl : isKey = true := by simpa [DataNode.addressed] using h
      cases value <;> simp [nodeEdits, leafEdits, DataNode.Storable, LyValue.Storable]
  | list name keys children => cases h
  | _ => exact ⟨fun _ => rfl, trivial⟩

/-- Trees without an addressed node are those that can be stored and leave no edit. -/
theorem none_addressed_iff {nodes : List DataNode} :
    (∀ it ∈ forestDfs [] nodes, it.2.addressed = false) ↔
      nodes.flatMap treeEdits = [] ∧ ∀ node ∈ nodes, node.AllStorable := by
  simp only [List.flatMap_eq_nil_iff, treeEdits, DataNode.AllStorable]
  constructor
  · intro h
    have hit : ∀ node ∈ nodes, ∀ it ∈ treeDfs [] node, it.2.addressed = false :=
      fun node hnode it hit => h it (mem_forestDfs.mpr ⟨node, hnode, hit⟩)
    exact ⟨fun node hnode it hmem => (nodeEdits_of_not_addressed (hit node hnode it hmem)).1 it.1,
      fun node hnode it hmem => (nodeEdits_of_not_addressed (hit node hnode it hmem)).2⟩
  · rintro ⟨hedits, hs⟩ it hit
    obtain ⟨node, hnode, hmem⟩ := mem_forestDfs.mp hit
    exact addressed_of_nodeEdits (hs node hnode it hmem) (hedits node hnode it hmem)

/-- A dialogue in which everything is granted shows that nothing of the later members is
addressed. -/
theorem not_addressed_of_storedWhole {parse : String → Except Exn (List DataNode)}
    {data : String} (h : StoredWhole parse data) {first : DataNode} {rest : List DataNode}
    (hparse : parse (cStr data) = .ok (first :: rest)) (hall : first.AllStorable) :
    ∀ it ∈ forestDfs [] rest, it.2.addressed = false := by
  have hdoc : documentTree parse data = some first := by simp [documentTree, hparse]
  obtain ⟨evs, u, hy, hgranted, -⟩ :=
    (returns_jsonUpdate hdoc hall).exists_yields exists_granted
  have hparsed : ∀ ev ∈ evs, Parsed parse ev.1 ev.2 := fun ev hev => (hgranted ev hev).parsed
  obtain ⟨node, hdoc', hedits, -⟩ := ends_jsonUpdate data evs _ hy hparsed
  obtain rfl := Option.some.inj (hdoc.symm.trans hdoc')
  obtain ⟨hwhole, hstorable⟩ := h _ hparse evs hy hparsed
  rw [none_addressed_iff]
  refine ⟨?_, fun node hnode => hstorable node (List.mem_cons_of_mem _ hnode)⟩
  rw [hedits, List.flatMap_cons] at hwhole
  exact List.self_eq_append_right.mp hwhole

/-- **Which documents are stored whole**: those of which the first member is refused, and
those of which no later member has a list instance or a leaf that is no key. -/
theorem storedWhole_iff (parse : String → Except Exn (List DataNode)) (data : String) :
    StoredWhole parse data ↔
      ∀ first rest, parse (cStr data) = .ok (first :: rest) → first.AllStorable →
        ∀ it ∈ forestDfs [] rest, it.2.addressed = false := by
  constructor
  · exact fun h first rest hparse hall => not_addressed_of_storedWhole h hparse hall
  · intro h nodes hparse evs hy hparsed
    obtain ⟨first, hdoc, hedits, hall⟩ := ends_jsonUpdate data evs _ hy hparsed
    cases nodes with
    | nil => simp [documentTree, hparse] at hdoc
    | cons node rest =>
        obtain rfl : node = first := by simpa [documentTree, hparse] using hdoc
        obtain ⟨hrest, hstorable⟩ := none_addressed_iff.mp (h node rest hparse hall)
        refine ⟨by rw [hedits, List.flatMap_cons, hrest, List.append_nil], ?_⟩
        exact List.forall_mem_cons.mpr ⟨hall, hstorable⟩

/-- The nodes of `{"ex:clock": {"zone": "UTC"}, "ex:mtu": 1500}`. -/
def twoMembers : List DataNode := [clockDocument, .leaf ⟨"ex", "mtu"⟩ false (.uint16 1500)]

/-- The text of that document. -/
def twoMembersText : String :=
  JsonText.write (.obj [("ex:clock", .obj [("zone", .str "UTC")]), ("ex:mtu", .num 1500)])

/-- Of two members the second is dropped. -/
theorem not_storedWhole : ¬ ∀ (parse : String → Except Exn (List DataNode)) (data : String),
    StoredWhole parse data := by
  intro h
  have hall : clockDocument.AllStorable := by
    intro it hit
    simp only [clockDocument, treeDfs, forestDfs, List.nil_append, List.append_nil,
      List.mem_cons, List.not_mem_nil, or_false] at hit
    rcases hit with rfl | rfl
    · trivial
    · exact Or.inr ⟨_, rfl⟩
  have hnone := not_addressed_of_storedWhole (h (fun _ => .ok twoMembers) twoMembersText) rfl hall
    ([.leaf ⟨"ex", "mtu"⟩], .leaf ⟨"ex", "mtu"⟩ false (.uint16 1500))
    (by simp [forestDfs, treeDfs])
  cases hnone

end SysrepoGnxi
