import SysrepoGnxi.Rendering

/-!
# Trees by Schema

The schema of the trees sysrepo returns, as far as it says which trees there are
(`SchemaNode.Instance`): names, the values of the types of leaves, and what may stand beside
what. Instances have the same content if they differ in the order of differently named
siblings only (`SameContent`).

`Told` says of a schema node that the JSON of its instances tells them apart: no type has two
values of the same JSON, no leaf-list has values, and no two children share a local name,
unless their parts differ.
-/

open JsonDoc YangJson

namespace SysrepoGnxi

/-- The name of a node with its module. -/
def Tree.qname : Tree → QName
  | node module name _ _ => ⟨module, name⟩

@[simp] theorem Tree.name_qname (t : Tree) : t.qname.name = t.name := by
  cases t
  rfl

/-- The trees of a name among siblings. -/
def ofName (q : QName) (trees : List Tree) : List Tree := trees.filter fun t => t.qname = q

/-- **Trees with the same content**: the same value, and under each name the same instances
in the same order. -/
inductive SameContent : Tree → Tree → Prop
  | node {module name : String} {data : Val} {children children' : List Tree} :
      (∀ q, List.Forall₂ SameContent (ofName q children) (ofName q children')) →
      SameContent (.node module name data children) (.node module name data children')

theorem SameContent.data {t t' : Tree} (h : SameContent t t') : t.data = t'.data := by
  cases h
  rfl

/-! ### Schema nodes and their instances -/

/-- A schema node: its name, the values of the type of a leaf, and the schema nodes below. -/
inductive SchemaNode where
  | leaf (name : QName) (type : Val → Prop)
  | leafList (name : QName) (type : Val → Prop)
  | container (name : QName) (presence : Bool) (children : List SchemaNode)
  | list (name : QName) (children : List SchemaNode)

namespace SchemaNode

/-- The name of a schema node. -/
def name : SchemaNode → QName
  | leaf name _ => name
  | leafList name _ => name
  | container name _ _ => name
  | list name _ => name

/-- A schema node that may have several instances beside each other. -/
def Repeats : SchemaNode → Prop
  | leafList _ _ => True
  | list _ _ => True
  | _ => False

/-- A schema node of list instances. -/
def IsList : SchemaNode → Prop
  | list _ _ => True
  | _ => False

mutual

/-- A schema node is well formed if its types have values of leaves only and siblings have
different names. -/
def WellFormed : SchemaNode → Prop
  | leaf _ type => ∀ v, type v → ¬ v.IsNested
  | leafList _ type => ∀ v, type v → ¬ v.IsNested
  | container _ _ children => (children.map name).Nodup ∧ AllWellFormed children
  | list _ children => (children.map name).Nodup ∧ AllWellFormed children

/-- All of the schema nodes are well formed. -/
def AllWellFormed : List SchemaNode → Prop
  | [] => True
  | s :: rest => s.WellFormed ∧ AllWellFormed rest

end

/-- Trees that may stand beside each other: of one name only if it may be repeated. -/
def Beside (children : List SchemaNode) (trees : List Tree) : Prop :=
  trees.Pairwise fun a b => a.qname = b.qname → ∃ s ∈ children, s.name = a.qname ∧ s.Repeats

mutual

/-- The trees of a schema node. -/
def Instance : SchemaNode → Tree → Prop
  | leaf name type, t => t.qname = name ∧ type t.data ∧ t.children = []
  | leafList name type, t => t.qname = name ∧ type t.data ∧ t.children = []
  | container name presence children, t =>
      t.qname = name ∧ t.data = (if presence then .containerPresence else .container) ∧
        (∀ c ∈ t.children, SomeInstance children c) ∧ Beside children t.children
  | list name children, t =>
      t.qname = name ∧ t.data = .list ∧
        (∀ c ∈ t.children, SomeInstance children c) ∧ Beside children t.children

/-- The trees of some of the schema nodes. -/
def SomeInstance : List SchemaNode → Tree → Prop
  | [], _ => False
  | s :: rest, t => s.Instance t ∨ SomeInstance rest t

end

theorem someInstance_iff {children : List SchemaNode} {t : Tree} :
    SomeInstance children t ↔ ∃ s ∈ children, s.Instance t := by
  induction children with
  | nil => simp [SomeInstance]
  | cons s rest ih => simp [SomeInstance, ih]

theorem allWellFormed_iff {children : List SchemaNode} :
    AllWellFormed children ↔ ∀ s ∈ children, s.WellFormed := by
  induction children with
  | nil => simp [AllWellFormed]
  | cons s rest ih => simp [AllWellFormed, ih]

/-- The children of an instance. -/
structure Siblings (children : List SchemaNode) (trees : List Tree) : Prop where
  isInstance : ∀ c ∈ trees, ∃ s ∈ children, s.Instance c
  beside : Beside children trees

/-- An instance has the name of its schema node. -/
theorem Instance.qname {s : SchemaNode} {t : Tree} (h : s.Instance t) : t.qname = s.name := by
  cases s <;> exact h.1

theorem instance_container_iff {q : QName} {presence : Bool} {children : List SchemaNode}
    {t : Tree} : (container q presence children).Instance t ↔
      t.qname = q ∧ t.data = (if presence then .containerPresence else .container) ∧
        Siblings children t.children := by
  simp only [Instance, someInstance_iff]
  exact ⟨fun ⟨hq, hd, hi, hb⟩ => ⟨hq, hd, hi, hb⟩, fun ⟨hq, hd, hs⟩ => ⟨hq, hd, hs.1, hs.2⟩⟩

theorem instance_list_iff {q : QName} {children : List SchemaNode} {t : Tree} :
    (list q children).Instance t ↔ t.qname = q ∧ t.data = .list ∧ Siblings children t.children := by
  simp only [Instance, someInstance_iff]
  exact ⟨fun ⟨hq, hd, hi, hb⟩ => ⟨hq, hd, hi, hb⟩, fun ⟨hq, hd, hs⟩ => ⟨hq, hd, hs.1, hs.2⟩⟩

/-! ### Schemas told by the JSON of their instances -/

/-- A schema node with instances that are shown in JSON. -/
def Shown : SchemaNode → Prop
  | leaf _ type => ∃ v p, type v ∧ v.leafPart = .ok p
  | leafList _ type => ∃ v p, type v ∧ v.leafPart = .ok p
  | _ => True

/-- A schema node of leaves that have no value in JSON: those shown are empty. -/
def OnlyEmpty : SchemaNode → Prop
  | leaf _ type => ∀ v x, type v → v.json ≠ .ok x
  | leafList _ type => ∀ v x, type v → v.json ≠ .ok x
  | _ => False

/-- Schema nodes that may stand beside each other: with one local name either one of them is
never shown, or the parts of list instances stand beside those of empty leaves. -/
def Compatible (s s' : SchemaNode) : Prop :=
  s.name.name = s'.name.name →
    ¬ s.Shown ∨ ¬ s'.Shown ∨ (s.IsList ∧ s'.OnlyEmpty) ∨ (s.OnlyEmpty ∧ s'.IsList)

mutual

/-- A schema node whose instances are told apart by their parts. -/
def Told : SchemaNode → Prop
  | leaf _ type => ∀ v v' x, type v → type v' → v.json = .ok x → v'.json = .ok x → v = v'
  | leafList _ type => ∀ v x, type v → v.json ≠ .ok x
  | container _ _ children => children.Pairwise Compatible ∧ AllTold children
  | list _ children => children.Pairwise Compatible ∧ AllTold children

/-- All of the schema nodes are told. -/
def AllTold : List SchemaNode → Prop
  | [] => True
  | s :: rest => s.Told ∧ AllTold rest

end

theorem allTold_iff {children : List SchemaNode} :
    AllTold children ↔ ∀ s ∈ children, s.Told := by
  induction children with
  | nil => simp [AllTold]
  | cons s rest ih => simp [AllTold, ih]

end SchemaNode

end SysrepoGnxi
