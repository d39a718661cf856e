import Mathlib.Data.Rat.Defs

/-!
# The gNMI Messages

The messages of `proto/gnmi.proto` that the Set, Get and Subscribe handlers read or
write, with the fields they use. An optional message field is an `Option`, a repeated
field a list, a `oneof` an inductive type with a constructor for the unset case. A proto3
enumeration is open: a value outside the declared ones is `other`.

The prefix of a request or a notification is the field `pfx`.
-/

namespace SysrepoGnxi

/-- The value of a C++ `double`: a rational, an infinity or not a number. -/
inductive Double where
  | finite (q : ℚ)
  | infinity (negative : Bool)
  | nan
deriving DecidableEq

/-- `PathElem`: an element of a path. `key` is the key map in its iteration order, which
protobuf leaves open. -/
structure PathElem where
  name : String
  key : List (String × String) := []
deriving DecidableEq

/-- `Path`. -/
structure Path where
  origin : String := ""
  elem : List PathElem := []
  target : String := ""
deriving DecidableEq

/-- `TypedValue`. The payload of a value no handler reads is left out. -/
inductive TypedValue where
  | stringVal (s : String)
  | intVal (n : Int64)
  | uintVal (n : UInt64)
  | boolVal (b : Bool)
  | bytesVal
  | floatVal (x : Double)
  | decimalVal
  | leaflistVal
  | anyVal
  | jsonVal
  | jsonIetfVal (data : String)
  | asciiVal
  | protoBytes
  | notSet
deriving DecidableEq

/-- `Update`: a path and the value at it. -/
structure Update where
  path : Option Path := none
  val : Option TypedValue := none
deriving DecidableEq

/-- `UpdateResult.Operation`. -/
inductive Operation where
  | INVALID
  | DELETE
  | REPLACE
  | UPDATE
deriving DecidableEq

/-- `UpdateResult`. -/
structure UpdateResult where
  path : Option Path := none
  op : Operation := .INVALID
deriving DecidableEq

/-- `SetRequest`; `extensionSize` counts its extensions. -/
structure SetRequest where
  pfx : Option Path := none
  delete : List Path := []
  replace : List Update := []
  update : List Update := []
  extensionSize : ℕ := 0
deriving DecidableEq

/-- `SetResponse`. -/
structure SetResponse where
  pfx : Option Path := none
  response : List UpdateResult := []
  timestamp : ℕ := 0
deriving DecidableEq

/-- `Encoding`. -/
inductive Encoding where
  | JSON
  | BYTES
  | PROTO
  | ASCII
  | JSON_IETF
  | other (n : ℕ)
deriving DecidableEq

/-- `GetRequest.DataType`. -/
inductive DataType where
  | ALL
  | CONFIG
  | STATE
  | OPERATIONAL
  | other (n : ℕ)
deriving DecidableEq

/-- `GetRequest`; `useModelsSize` and `extensionSize` count its models and extensions. -/
structure GetRequest where
  pfx : Option Path := none
  path : List Path := []
  type : DataType := .ALL
  encoding : Encoding := .JSON
  useModelsSize : ℕ := 0
  extensionSize : ℕ := 0
deriving DecidableEq

/-- `Notification`. -/
structure Notification where
  timestamp : ℕ := 0
  pfx : Option Path := none
  update : List Update := []
  atomic : Bool := false
deriving DecidableEq

/-- `GetResponse`. -/
structure GetResponse where
  notification : List Notification := []
deriving DecidableEq

/-- `SubscriptionMode`. -/
inductive SubscriptionMode where
  | TARGET_DEFINED
  | ON_CHANGE
  | SAMPLE
  | other (n : ℕ)
deriving DecidableEq

/-- `Subscription`. -/
structure Subscription where
  path : Path := {}
  mode : SubscriptionMode := .TARGET_DEFINED
  sampleInterval : UInt64 := 0
deriving DecidableEq

/-- `SubscriptionList.Mode`. -/
inductive ListMode where
  | STREAM
  | ONCE
  | POLL
  | other (n : ℕ)
deriving DecidableEq

/-- `SubscriptionList`. -/
structure SubscriptionList where
  pfx : Option Path := none
  subscription : List Subscription := []
  useAliases : Bool := false
  mode : ListMode := .STREAM
  encoding : Encoding := .JSON
  updatesOnly : Bool := false
deriving DecidableEq

/-- The `request` field of `SubscribeRequest`. -/
inductive RequestCase where
  | subscribe (list : SubscriptionList)
  | poll
  | aliases
  | notSet
deriving DecidableEq

/-- `SubscribeRequest`. -/
structure SubscribeRequest where
  request : RequestCase := .notSet
  extensionSize : ℕ := 0
deriving DecidableEq

/-- `SubscribeResponse`. -/
inductive SubscribeResponse where
  | update (notification : Notification)
  | syncResponse (b : Bool)
deriving DecidableEq

/-- The gRPC status codes the handlers use. -/
inductive StatusCode where
  | OK
  | UNKNOWN
  | INVALID_ARGUMENT
  | NOT_FOUND
  | UNIMPLEMENTED
  | INTERNAL
  | UNAUTHENTICATED
deriving DecidableEq

/-- A gRPC `Status`. -/
structure Status where
  code : StatusCode
  message : String
deriving DecidableEq

end SysrepoGnxi
