import SysrepoGnxi.Encode
import SysrepoGnxi.Utils

/-!
# The Set RPC

`impl::Set`: `run` deletes, replaces and updates the items of a request through the
shared session and commits. `handleUpdate` serves replace and update items alike.

A status other than OK ends the RPC without a response, so `run` ends with a status or
with the response that goes with OK; an exception it does not catch escapes from it.
-/

open Dialogue

namespace SysrepoGnxi

namespace SetRpc

/-- The scalar `handleUpdate` builds a value of, for the value cases that have one. -/
def scalar : TypedValue → Option Val
  | .stringVal s => some (.string (cStr s))
  | .intVal n => some (.int64 n)
  | .uintVal n => some (.uint64 n)
  | .boolVal b => some (.bool b)
  | .floatVal x => some (.decimal64 x)
  | _ => none

/-- The text of the exception `handleUpdate` throws for the other value cases. -/
def unsupported : TypedValue → String
  | .bytesVal => "Unsupported BYTES Encoding"
  | .decimalVal => "Unsupported Decimal64 type"
  | .leaflistVal => "Unsupported leaflist type"
  | .anyVal => "Unsupported PROTOBUF Encoding"
  | .jsonVal => "Unsupported JSON Encoding"
  | .asciiVal => "Unsupported ASCII Encoding"
  | .protoBytes => "Unsupported PROTOBUF BYTE Encoding"
  | .notSet => "Value not set"
  | _ => "Unknown value type"

/-- The `try` around `json_update`: runtime errors and invalid arguments are thrown on as
invalid arguments. -/
def rethrowInvalid (x : Handler Unit) : Handler Unit := do
  match ← Throwing.observe x with
  | .ok () => pure ()
  | .error exc =>
      match exc.isRuntimeError with
      | some what => throw (.invalidArgument what)
      | none =>
          match exc.isInvalidArgument with
          | some what => throw (.invalidArgument what)
          | none => throw exc

/-- Store the value of an item at its full path: the `switch` of `handleUpdate`. -/
def storeValue (fullpath : String) (reqval : TypedValue) : Handler Unit :=
  match scalar reqval with
  | some val => setVal (.xpath (cStr fullpath)) val
  | none =>
      match reqval with
      | .jsonIetfVal data => rethrowInvalid (jsonUpdate data)
      | _ => throw (.invalidArgument (unsupported reqval))

/-- `Set::handleUpdate`. It returns its code and what it leaves in `out`. -/
def handleUpdate (upd : Update) (out : UpdateResult) (pfx : String) :
    Handler (StatusCode × UpdateResult) :=
  match upd.path, upd.val with
  | some path, some reqval => do
      storeValue (pfx ++ gnmiToXpath path) reqval
      pure (.OK, { out with path := some path })
  | _, _ => pure (.INVALID_ARGUMENT, out)

/-- The loop over the paths to delete. -/
def deleteLoop (pfx : String) : List Path → SetResponse → Handler (Except Status SetResponse)
  | [], response => pure (.ok response)
  | delpath :: rest, response => do
      let fullpath := pfx ++ gnmiToXpath delpath
      match ← Throwing.observe (deleteItem (cStr fullpath)) with
      | .ok () =>
          deleteLoop pfx rest
            { response with response := response.response ++ [⟨some delpath, .DELETE⟩] }
      | .error exc =>
          match exc.isStdException with
          | some _ => pure (.error ⟨.INTERNAL, "delete item failed"⟩)
          | none => throw exc

/-- The catch clauses around a replace item. -/
def catchReplace (exc : Exn) : Option Status :=
  match exc.isInvalidArgument with
  | some what => some ⟨.INVALID_ARGUMENT, what⟩
  | none =>
      match exc.isSysrepoException with
      | some what => some ⟨.INTERNAL, what⟩
      | none => exc.isStdException.map fun what => ⟨.INTERNAL, what⟩

/-- The catch clauses around an update item: the last one of `catchReplace` is missing. -/
def catchUpdate (exc : Exn) : Option Status :=
  match exc.isInvalidArgument with
  | some what => some ⟨.INVALID_ARGUMENT, what⟩
  | none => exc.isSysrepoException.map fun what => ⟨.INTERNAL, what⟩

/-- The loop over the items to replace or to update, with its operation and its catch
clauses. The code `handleUpdate` returns is not looked at. -/
def updateLoop (op : Operation) (clauses : Exn → Option Status) (pfx : String) :
    List Update → SetResponse → Handler (Except Status SetResponse)
  | [], response => pure (.ok response)
  | upd :: rest, response => do
      match ← Throwing.observe (handleUpdate upd {} pfx) with
      | .ok (_, res) =>
          updateLoop op clauses pfx rest
            { response with response := response.response ++ [{ res with op := op }] }
      | .error exc =>
          match clauses exc with
          | some status => pure (.error status)
          | none => throw exc

/-- Continue with the response unless a status has been returned. -/
def andThen (x : Handler (Except Status SetResponse))
    (f : SetResponse → Handler (Except Status SetResponse)) :
    Handler (Except Status SetResponse) := do
  match ← x with
  | .error status => pure (.error status)
  | .ok response => f response

/-- The commit at the end of `run`. -/
def commitAll (response : SetResponse) : Handler (Except Status SetResponse) := do
  match ← Throwing.observe commit with
  | .ok () => pure (.ok response)
  | .error exc =>
      match exc.isStdException with
      | some _ => pure (.error ⟨.INTERNAL, "commit failed"⟩)
      | none => throw exc

/-- The three loops of `run`: deletes, replaces, updates. -/
def items (request : SetRequest) (response : SetResponse) :
    Handler (Except Status SetResponse) :=
  let pfx := request.pfx.elim "" gnmiToXpath
  andThen (deleteLoop pfx request.delete response) fun response =>
    andThen (updateLoop .REPLACE catchReplace pfx request.replace response) fun response =>
      updateLoop .UPDATE catchUpdate pfx request.update response

/-- `Set::run`. -/
def run (request : SetRequest) : Handler (Except Status SetResponse) :=
  if request.extensionSize > 0 then
    pure (.error ⟨.UNIMPLEMENTED, "Extensions not implemented"⟩)
  else do
    let timestamp ← getTimeNanosec
    andThen (items request ⟨request.pfx, [], timestamp⟩) commitAll

end SetRpc

end SysrepoGnxi
