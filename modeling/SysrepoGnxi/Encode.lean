import SysrepoGnxi.Sysrepo

/-!
# Storing a JSON Document

The update half of the `Encode` class: `json_update` parses a JSON document with libyang
and `store_tree` walks the data tree in depth-first order, storing leaves and list
instances through the session, one `set_item` each.

`jsonUpdate` is the source's function. `storeTree` and `storeLeaf` keep its cases: a key
leaf is skipped, a leafref stores the leaf it refers to and then writes its own path
without a value, unsupported types throw, an entry of a leaf-list is only logged, and any
node that is neither leaf nor list is passed over.
-/

open Dialogue

namespace SysrepoGnxi

/-- Rounds a positive quotient `n / 2 ^ e` to the nearest integer, ties to even. -/
def roundHalfEven (n e : ℕ) : ℕ :=
  let q := n / 2 ^ e
  let r := n % 2 ^ e
  if 2 * r < 2 ^ e ∨ (2 * r = 2 ^ e ∧ q % 2 = 0) then q else q + 1

/-- `static_cast<double>` of an integer: exact up to 53 significant bits, rounded to the
nearest such number beyond. -/
def Double.ofInt (n : ℤ) : Double :=
  let m := n.natAbs
  let e := Nat.log2 m - 52
  .finite (n.sign * (roundHalfEven m e * 2 ^ e : ℕ) : ℤ)

/-- The value `storeLeaf` builds for each value type but `LY_TYPE_LEAFREF`; it throws for
the unsupported ones. -/
def LyValue.toVal : LyValue → Except Exn Val
  | binary s => .ok (.string s)
  | string s => .ok (.string s)
  | bln b => .ok (.bool b)
  | dec64 _ digits => .ok (.decimal64 (Double.ofInt digits.toInt))
  | int8 n => .ok (.int8 n)
  | uint8 n => .ok (.uint8 n)
  | int16 n => .ok (.int16 n)
  | uint16 n => .ok (.uint16 n)
  | int32 n => .ok (.int32 n)
  | uint32 n => .ok (.uint32 n)
  | int64 n => .ok (.int64 n)
  | uint64 n => .ok (.uint64 n)
  | ident module name => .ok (.identityref (module ++ ":" ++ name))
  | enm name => .ok (.enumeration name)
  | empty => .ok .leafEmpty
  | leafref _ _ _ => .error (.invalidArgument "Unknown type")
  | bits => .error (.invalidArgument "Unsupported BITS type")
  | inst => .error (.invalidArgument "Unsupported INSTANCE-IDENTIFIER type")
  | union => .error (.invalidArgument "Unsupported UNION type")
  | der => .error (.invalidArgument "Unsupported DERIVED type")
  | unknown => .error (.invalidArgument "Unsupported UNKNOWN type")

/-- `Encode::storeLeaf`, on the leaf at `path`. Its `catch` around `set_item` rethrows what
it caught. -/
def storeLeaf (path : NodeRef) (isKey : Bool) : LyValue → Handler Unit
  | .leafref targetPath targetKey target =>
      if isKey then pure ()
      else do
        -- the value stays null: the recursive call fills a variable of its own
        storeLeaf targetPath targetKey target
        setItem (.dataNode path) none
  | value =>
      if isKey then pure ()
      else
        match value.toVal with
        | .error exc => throw exc
        | .ok val => setVal (.dataNode path) val

/-- The step of the path that names a node below its parent. -/
def DataNode.step : DataNode → RefStep
  | leaf name _ _ => .leaf name
  | leaflist name value => .leaflist name value
  | list name keys _ => .list name keys
  | container name presence _ => .container name presence
  | other name _ => .other name

mutual

/-- `tree_dfs()`: a node and its descendants in depth-first pre-order, each with its
path; `parent` is the path of the parent. -/
def treeDfs (parent : NodeRef) : DataNode → List (NodeRef × DataNode)
  | .leaf name isKey value => [(parent ++ [.leaf name], .leaf name isKey value)]
  | .leaflist name value => [(parent ++ [.leaflist name value], .leaflist name value)]
  | .list name keys children =>
      (parent ++ [.list name keys], .list name keys children) ::
        forestDfs (parent ++ [.list name keys]) children
  | .container name presence children =>
      (parent ++ [.container name presence], .container name presence children) ::
        forestDfs (parent ++ [.container name presence]) children
  | .other name children =>
      (parent ++ [.other name], .other name children) ::
        forestDfs (parent ++ [.other name]) children

/-- `treeDfs` of every sibling in turn. -/
def forestDfs (parent : NodeRef) : List DataNode → List (NodeRef × DataNode)
  | [] => []
  | node :: rest => treeDfs parent node ++ forestDfs parent rest

end

/-- `catch (std::string str)` around `storeLeaf`. -/
def catchString (x : Handler Unit) : Handler Unit := do
  match ← Throwing.observe x with
  | .ok () => pure ()
  | .error (.stdString _) =>
      throw (.invalidArgument "Internal error with JSON encoding")
  | .error exc => throw exc

/-- The body of the loop of `storeTree`, on the node at `path`. -/
def storeNode (path : NodeRef) : DataNode → Handler Unit
  | .leaf _ isKey value => catchString (storeLeaf path isKey value)
  | .leaflist _ _ => pure ()
  | .list _ _ _ => setVal (.dataNode path) .list
  | .container _ _ _ => pure ()
  | .other _ _ => pure ()

/-- The loop of `storeTree` over the visited nodes. -/
def storeNodes : List (NodeRef × DataNode) → Handler Unit
  | [] => pure ()
  | it :: rest => do
      storeNode it.1 it.2
      storeNodes rest

/-- `Encode::storeTree`, on a top-level node. -/
def storeTree (node : DataNode) : Handler Unit := storeNodes (treeDfs [] node)

/-- `Encode::json_update`. libyang returns the first of the top-level nodes, and a null
pointer for a document without any. -/
def jsonUpdate (data : String) : Handler Unit := do
  match ← parseDataMem (cStr data) with
  | [] => throw .nullPointer
  | node :: _ => storeTree node

end SysrepoGnxi
