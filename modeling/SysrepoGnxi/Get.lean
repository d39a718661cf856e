import SysrepoGnxi.JsonIetf
import SysrepoGnxi.Utils

/-!
# The Get RPC

`impl::Get`: one notification per requested path, with one update per tree the path
selects. The path of an update is the requested one, with the key noted by `json_read`
put into its last element.
-/

open Dialogue JsonDoc

namespace SysrepoGnxi

/-- `(*key)[name] = value` on a key map. -/
def putKey (name value : String) : List (String × String) → List (String × String)
  | [] => [(name, value)]
  | e :: keys => if e.1 = name then (name, value) :: keys else e :: putKey name value keys

/-- Put a key into the last element of a path. The source indexes the element with
`elem_size() - 1` whatever the size: on a path without elements that is no element. -/
def putLastKey (key : String × String) : List PathElem → Except Exn (List PathElem)
  | [] => .error .nullPointer
  | [node] => .ok [{ node with key := putKey key.1 key.2 node.key }]
  | node :: rest => do
      let rest ← putLastKey key rest
      pure (node :: rest)

/-- The body of the loop over `json_vec`: the update made for one tree. -/
def treeUpdate (path : Path) (it : JsonData) : Except Exn Update :=
  if it.key.1 ≠ "" then do
    let elem ← putLastKey it.key path.elem
    pure ⟨some { path with elem := elem }, some (.jsonIetfVal it.data)⟩
  else
    pure ⟨some path, some (.jsonIetfVal it.data)⟩

/-- The loop over `json_vec`, appending to `updateList`. -/
def treeUpdates (path : Path) : List JsonData → List Update → Except Exn (List Update)
  | [], updateList => pure updateList
  | it :: rest, updateList => do
      let update ← treeUpdate path it
      treeUpdates path rest (updateList ++ [update])

/-- The catch clauses around `json_read`, the same in Get and Subscribe. -/
def catchRead (exc : Exn) : Option Status :=
  match exc.isInvalidArgument with
  | some what => some ⟨.NOT_FOUND, what⟩
  | none => exc.isSysrepoException.map fun what => ⟨.INVALID_ARGUMENT, what⟩

/-- Read the trees at `fullpath` and append an update for each to `updateList`: the JSON
case of `BuildGetUpdate` and of `BuildSubsUpdate`. -/
def readUpdates (fastWriter : Json → String) (path : Path) (fullpath : String)
    (updateList : List Update) : Handler (Except Status (List Update)) := do
  match ← Throwing.observe (jsonRead fastWriter fullpath) with
  | .ok jsonVec => do
      let updateList ← ofExcept (treeUpdates path jsonVec updateList)
      pure (.ok updateList)
  | .error exc =>
      match catchRead exc with
      | some status => pure (.error status)
      | none => throw exc

/-- `Encoding_Name`. A value that is not declared has no name. -/
def Encoding.nameOf : Encoding → String
  | JSON => "JSON"
  | BYTES => "BYTES"
  | PROTO => "PROTO"
  | ASCII => "ASCII"
  | JSON_IETF => "JSON_IETF"
  | other _ => ""

/-- `GetRequest_DataType_Name`. -/
def DataType.nameOf : DataType → String
  | ALL => "ALL"
  | CONFIG => "CONFIG"
  | STATE => "STATE"
  | OPERATIONAL => "OPERATIONAL"
  | other _ => ""

/-- `GetRequest_DataType_IsValid`. -/
def DataType.isValid : DataType → Bool
  | other _ => false
  | _ => true

namespace GetRpc

/-- `Get::BuildGetUpdate`, on the update list of a fresh notification. -/
def buildGetUpdate (fastWriter : Json → String) (path : Path) (fullpath : String)
    (encoding : Encoding) : Handler (Except Status (List Update)) := do
  refresh
  match encoding with
  | .JSON => readUpdates fastWriter path fullpath []
  | .JSON_IETF => readUpdates fastWriter path fullpath []
  | _ => pure (.error ⟨.UNIMPLEMENTED, encoding.nameOf⟩)

/-- `Get::BuildGetNotification`. -/
def buildGetNotification (fastWriter : Json → String) (pfx : Option Path) (path : Path)
    (encoding : Encoding) : Handler (Except Status Notification) := do
  let timestamp ← getTimeNanosec
  match ← buildGetUpdate fastWriter path (fullXpath pfx path) encoding with
  | .error status => pure (.error status)
  | .ok updates => pure (.ok { timestamp := timestamp, pfx := pfx, update := updates })

/-- `verifyGetRequest`: the status of a request that is refused. -/
def verifyGetRequest (request : GetRequest) : Option Status :=
  if request.encoding ≠ .JSON ∧ request.encoding ≠ .JSON_IETF then
    some ⟨.UNIMPLEMENTED, request.encoding.nameOf⟩
  else if request.type.isValid = false then
    some ⟨.UNIMPLEMENTED, request.type.nameOf⟩
  else if request.useModelsSize > 0 then
    some ⟨.UNIMPLEMENTED, "use_model feature unsupported"⟩
  else if request.extensionSize > 0 then
    some ⟨.UNIMPLEMENTED, "extension feature unsupported"⟩
  else none

/-- The loop of `run` over the requested paths. -/
def pathLoop (fastWriter : Json → String) (pfx : Option Path) (encoding : Encoding) :
    List Path → List Notification → Handler (Except Status GetResponse)
  | [], notifications => pure (.ok ⟨notifications⟩)
  | path :: rest, notifications => do
      match ← buildGetNotification fastWriter pfx path encoding with
      | .error status => pure (.error status)
      | .ok notification =>
          pathLoop fastWriter pfx encoding rest (notifications ++ [notification])

/-- `Get::run`. A status other than OK goes without a response. -/
def run (fastWriter : Json → String) (req : GetRequest) :
    Handler (Except Status GetResponse) :=
  match verifyGetRequest req with
  | some status => pure (.error status)
  | none => pathLoop fastWriter req.pfx req.encoding req.path []

end GetRpc

end SysrepoGnxi
