import SysrepoGnxi.Lib.PathStore
import SysrepoGnxi.Lib.XPath
import SysrepoGnxi.Sysrepo

/-!
# A Datastore of Data Nodes

The parameter `Sysrepo` of the session, filled in: a datastore is a forest of data nodes
in the order of their creation, each under its step. It is what the handlers may rely on of
sysrepo beyond the session:

* `set_item` writes a value at the node its path names and creates the nodes missing above
  it; with a null value it writes none;
* `delete_item` removes, and `get_subtrees` returns, the nodes an xpath selects.

The keys of a list instance are part of its step, as they are of its path. They exist with
the instance, and a subtree shows them as its first leaves.

This is sysrepo on data models without a `choice`, where no node excludes another, and without
default values, where no node exists unset; and of the predicates of an xpath those on list
keys are told apart. Elsewhere sysrepo does more, and what is said of this store does not hold.
-/

open PathStore

namespace SysrepoGnxi

/-- A datastore: its top-level data nodes. -/
abbrev Store : Type := Forest RefStep Val

/-! ### Nodes -/

namespace RefStep

/-- The qualified name of a step. -/
def name : RefStep → QName
  | container name _ => name
  | list name _ => name
  | leaf name => name
  | leaflist name _ => name
  | other name => name

/-- The value a node has when it is created on the way to another. -/
def value : RefStep → Val
  | container _ presence => if presence then .containerPresence else .container
  | list _ _ => .list
  | leaf _ => .unknown
  | leaflist _ value => value
  | other _ => .anydata

/-- The keys a step carries. -/
def keys : RefStep → List (String × Val)
  | list _ keys => keys
  | _ => []

/-- The key leaves of a list instance. -/
def keyLeaves (step : RefStep) : List Tree :=
  step.keys.map fun key => .node step.name.module key.1 key.2 []

/-- A node test: a qualified name, a name in the module of the parent, or any name. -/
def passes (step : RefStep) (parent : Option RefStep) (test : String) : Bool :=
  test == "*" || test == step.name.module ++ ":" ++ step.name.name ||
    (test == step.name.name && parent.map (fun p => p.name.module) == some step.name.module)

end RefStep

mutual

/-- The sysrepo tree of a node: its key leaves, then its children. -/
def treeOf : Node RefStep Val → Tree
  | .mk step val children =>
      .node step.name.module step.name.name val (step.keyLeaves ++ treesOf children)

/-- The trees of siblings. -/
def treesOf : List (Node RefStep Val) → List Tree
  | [] => []
  | n :: rest => treeOf n :: treesOf rest

end

/-- What the schema adds: the data node a string names, if it names one, and the canonical
text of a `decimal64`, which depends on its fraction digits. A string that names a node is
its own C string, and only the empty one names the root.

The schemas are those without a `choice` and its cases, without default values, and with no
predicates in a path but those on list keys. -/
structure Schema where
  resolve : String → Option NodeRef
  resolve_eq_nil : ∀ s, resolve s = some [] ↔ s = ""
  cStr_of_resolve : ∀ s ref, resolve s = some ref → cStr s = s
  decimalText : Double → String

namespace Schema

/-- The schema of a table of names, without `decimal64` leaves: a string names the node the
table lists for it, and the empty one the root. -/
def ofTable (table : List (String × NodeRef))
    (h : ∀ e ∈ table, e.1 ≠ "" ∧ e.2 ≠ [] ∧ cStr e.1 = e.1) : Schema where
  resolve s := if s = "" then some [] else (table.find? fun e => e.1 = s).map Prod.snd
  resolve_eq_nil := by
    intro s
    by_cases hs : s = ""
    · simp [hs]
    · rw [if_neg hs, Option.map_eq_some_iff]
      refine ⟨?_, fun hs' => absurd hs' hs⟩
      rintro ⟨e, he, href⟩
      exact absurd href (h e (List.mem_of_find?_eq_some he)).2.1
  cStr_of_resolve := by
    intro s ref
    by_cases hs : s = ""
    · subst hs
      exact fun _ => cStr_eq_self (by simp)
    · rw [if_neg hs, Option.map_eq_some_iff]
      rintro ⟨e, he, -⟩
      obtain rfl : e.1 = s := by simpa using List.find?_some he
      exact (h e (List.mem_of_find?_eq_some he)).2.2
  decimalText _ := ""

theorem ofTable_nil :
    ∀ e ∈ ([] : List (String × NodeRef)), e.1 ≠ "" ∧ e.2 ≠ [] ∧ cStr e.1 = e.1 :=
  List.forall_mem_nil _

variable (sch : Schema)

/-- The canonical text of a value, which a key predicate is compared with. -/
def text : Val → String
  | .binary s => s
  | .bits s => s
  | .bool b => if b then "true" else "false"
  | .decimal64 x => sch.decimalText x
  | .enumeration s => s
  | .identityref s => s
  | .instanceid s => s
  | .int8 n => toString n.toInt
  | .int16 n => toString n.toInt
  | .int32 n => toString n.toInt
  | .int64 n => toString n.toInt
  | .string s => s
  | .uint8 n => toString n.toNat
  | .uint16 n => toString n.toNat
  | .uint32 n => toString n.toNat
  | .uint64 n => toString n.toNat
  | _ => ""

/-! ### Selections by XPath -/

/-- A key predicate: the step has the key, with that text. -/
def keyTest (pred : String × String) (step : RefStep) : Bool :=
  (step.keys.lookup pred.1).map sch.text == some pred.2

/-- One location step, as a test of a node under its parent. -/
def test (s : XPath.Step) (parent : Option RefStep) (step : RefStep) : Bool :=
  step.passes parent s.name && s.preds.all fun pred => sch.keyTest pred step

/-- The nodes an xpath selects, with their paths. -/
def selection (xpath : String) (s : Store) : List (NodeRef × Node RefStep Val) :=
  match XPath.read xpath with
  | none => []
  | some steps => select (steps.map sch.test) s

/-- `get_subtrees` on a store. -/
def subtrees (xpath : String) (s : Store) : Option (List Tree) :=
  match sch.selection xpath s with
  | [] => none
  | found => some (found.map fun x => treeOf x.2)

/-! ### Edits -/

/-- The node the path of an edit names. -/
def target : ItemPath → Option NodeRef
  | .xpath s => sch.resolve s
  | .dataNode ref => some ref

/-- The value an edit writes, with the node it writes it at. -/
def written : Edit → Option (NodeRef × Val)
  | .set path (some val) => (sch.target path).map fun ref => (ref, val)
  | _ => none

/-- The effect of an edit. -/
def applyEdit : Edit → Store → Store
  | .delete xpath, s =>
      match XPath.read xpath with
      | none => s
      | some steps => prune none (steps.map sch.test) s
  | e, s => (sch.written e).elim s fun w => set RefStep.value w.1 w.2 s

/-- sysrepo on a store of data nodes. -/
def sysrepo : Sysrepo Store := ⟨sch.applyEdit, sch.subtrees⟩

@[simp] theorem subtrees_sysrepo : sch.sysrepo.subtrees = sch.subtrees := rfl

/-- **Edits without a deletion are writes**, one for each that carries a value to a
node. -/
theorem applyAll_sets {edits : List Edit} (h : ∀ xpath, Edit.delete xpath ∉ edits)
    (s : Store) :
    sch.sysrepo.applyAll edits s = setAll RefStep.value (edits.filterMap sch.written) s := by
  induction edits generalizing s with
  | nil => rfl
  | cons e edits ih =>
      have ih := ih (fun xpath hx => h xpath (List.mem_cons_of_mem _ hx))
      have hstep : sch.applyEdit e s =
          (sch.written e).elim s fun w => set RefStep.value w.1 w.2 s := by
        cases e with
        | set path val => rfl
        | delete xpath => exact absurd List.mem_cons_self (h xpath)
      rw [Sysrepo.applyAll, List.foldl_cons, ← Sysrepo.applyAll]
      rw [show sch.sysrepo.apply e s = sch.applyEdit e s from rfl, hstep, ih,
        List.filterMap_cons]
      cases sch.written e <;> rfl

/-- An environment on a store that refuses no call and parses every document as one
tree. -/
def granting (node : DataNode) : Env Store where
  sysrepo := sch.sysrepo
  parse := fun _ => .ok [node]
  fails := fun _ => none
  systemClock := fun n => n
  highResolutionClock := .ofNat

end Schema

end SysrepoGnxi
