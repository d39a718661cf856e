import SysrepoGnxi.Get

/-!
# The Subscribe RPC

`impl::Subscribe`: after a first message with the list of subscriptions, the handler writes
notifications to the stream: once, on every poll, or, in the STREAM mode, once and then
each time the sample interval of a subscription has passed.

What the client does is a parameter: the messages it sends, in order, and for how many
cycles of the STREAM mode it has not cancelled yet.
-/

open Dialogue JsonDoc

namespace SysrepoGnxi

/-- `Status::OK`. -/
def Status.OK : Status := ⟨.OK, ""⟩

namespace SubscribeRpc

/-- `Subscribe::BuildSubsUpdate`: it first adds an update of its own, with the path and a
value in which nothing is set, and then one for each tree. -/
def buildSubsUpdate (fastWriter : Json → String) (updateList : List Update) (path : Path)
    (fullpath : String) (encoding : Encoding) : Handler (Except Status (List Update)) := do
  let updateList := updateList ++ [⟨some path, some .notSet⟩]
  refresh
  match encoding with
  | .JSON => readUpdates fastWriter path fullpath updateList
  | .JSON_IETF => readUpdates fastWriter path fullpath updateList
  | .PROTO => pure (.ok updateList)
  | _ => pure (.error ⟨.UNIMPLEMENTED, encoding.nameOf⟩)

/-- The loop over the subscriptions. The path read is the converted path alone. -/
def subscriptionLoop (fastWriter : Json → String) (encoding : Encoding) :
    List Subscription → List Update → Handler (Except Status (List Update))
  | [], updateList => pure (.ok updateList)
  | sub :: rest, updateList => do
      match ← buildSubsUpdate fastWriter updateList sub.path (gnmiToXpath sub.path) encoding
        with
      | .error status => pure (.error status)
      | .ok updateList => subscriptionLoop fastWriter encoding rest updateList

/-- The status of a list of subscriptions that is refused. -/
def verifyList (request : SubscriptionList) : Option Status :=
  if request.encoding ≠ .JSON ∧ request.encoding ≠ .JSON_IETF then
    some ⟨.UNIMPLEMENTED, request.encoding.nameOf⟩
  else if request.useAliases then some ⟨.UNIMPLEMENTED, "alias not supported"⟩
  else none

/-- `Subscribe::BuildSubscribeNotification`, on a fresh notification. -/
def buildSubscribeNotification (fastWriter : Json → String) (request : SubscriptionList) :
    Handler (Except Status Notification) :=
  match verifyList request with
  | some status => pure (.error status)
  | none => do
      let timestamp ← getTimeNanosec
      match ← subscriptionLoop fastWriter request.encoding request.subscription [] with
      | .error status => pure (.error status)
      | .ok updates =>
          pure (.ok
            { timestamp := timestamp, pfx := request.pfx, update := updates, atomic := false })

/-- Build a notification and write it, or cancel the RPC: the status to return then. -/
def notify (fastWriter : Json → String) (request : SubscriptionList) :
    Handler (Option Status) := do
  match ← buildSubscribeNotification fastWriter request with
  | .error status => do
      tryCancel
      pure (some status)
  | .ok notification => do
      write (.update notification)
      pure none

/-- `duration<long long, std::nano>::max().count()`. -/
def maxInterval : ℕ := 2 ^ 63 - 1

/-- `nanoseconds{n}`: the count is converted to the signed 64-bit one of a duration. -/
def nanoseconds (n : UInt64) : Int64 := n.toInt64

/-- The `chronomap` of `handleStream`: the SAMPLE subscriptions, each with the current
time. -/
def startSamples : List Subscription → Handler (List (Subscription × TimePoint))
  | [] => pure []
  | sub :: rest =>
      match sub.mode with
      | .SAMPLE => do
          let t ← now
          let chronomap ← startSamples rest
          pure ((sub, t) :: chronomap)
      | _ => startSamples rest

/-- One pass over `chronomap`: the map with the times of the due subscriptions renewed, and
the due subscriptions. -/
def dueSamples :
    List (Subscription × TimePoint) → Handler (List (Subscription × TimePoint) × List Subscription)
  | [] => pure ([], [])
  | (sub, last) :: rest => do
      let t ← now
      if t.since last > nanoseconds sub.sampleInterval then do
        let renewed ← now
        let (chronomap, due) ← dueSamples rest
        pure ((sub, renewed) :: chronomap, sub :: due)
      else do
        let (chronomap, due) ← dueSamples rest
        pure ((sub, last) :: chronomap, due)

/-- Notify of the due subscriptions, if there are any. -/
def notifyDue (fastWriter : Json → String) (request : SubscriptionList)
    (due : List Subscription) : Handler (Option Status) :=
  if due.length > 0 then notify fastWriter { request with subscription := due }
  else pure none

/-- The `while` loop of `handleStream`, for the number of cycles after which the client has
cancelled. -/
def sampleLoop (fastWriter : Json → String) (request : SubscriptionList) :
    ℕ → List (Subscription × TimePoint) → Handler Status
  | 0, _ => pure .OK
  | cycles + 1, chronomap => do
      let _start ← now
      let (chronomap, due) ← dueSamples chronomap
      match ← notifyDue fastWriter request due with
      | some status => pure status
      | none => do
          let _end ← now
          sampleLoop fastWriter request cycles chronomap

/-- `Subscribe::handleStream`. -/
def handleStream (fastWriter : Json → String) (request : SubscriptionList) (cycles : ℕ) :
    Handler Status :=
  if request.subscription.any fun sub => maxInterval < sub.sampleInterval.toNat then do
    tryCancel
    pure ⟨.INVALID_ARGUMENT,
      "sample_interval must be less than 9223372036854775807 nanoseconds"⟩
  else do
    match ← notify fastWriter request with
    | some status => pure status
    | none => do
        write (.syncResponse true)
        let chronomap ← startSamples request.subscription
        sampleLoop fastWriter request cycles chronomap

/-- `Subscribe::handleOnce`. -/
def handleOnce (fastWriter : Json → String) (request : SubscriptionList) :
    Handler Status := do
  match ← notify fastWriter request with
  | some status => pure status
  | none => do
      write (.syncResponse true)
      pure .OK

/-- `Subscribe::handlePoll`, on the messages that follow the first one. -/
def handlePoll (fastWriter : Json → String) (subscription : SubscriptionList) :
    List SubscribeRequest → Handler Status
  | [] => pure .OK
  | request :: rest =>
      match request.request with
      | .poll => do
          match ← notify fastWriter subscription with
          | some status => pure status
          | none => handlePoll fastWriter subscription rest
      | .aliases => pure ⟨.UNIMPLEMENTED, "Aliases not implemented yet"⟩
      | .subscribe _ =>
          pure ⟨.INVALID_ARGUMENT, "A SubscriptionList has already been received for this RPC"⟩
      | .notSet => pure ⟨.INVALID_ARGUMENT, "Unknown content for SubscribeRequest message"⟩

/-- `Subscribe::run`, on the messages of the client. Without any, the first request stays
empty. -/
def run (fastWriter : Json → String) (messages : List SubscribeRequest) (cycles : ℕ) :
    Handler Status :=
  let request := messages.headD {}
  if request.extensionSize > 0 then
    pure ⟨.UNIMPLEMENTED, "Extensions not implemented"⟩
  else
    match request.request with
    | .subscribe list =>
        match list.mode with
        | .STREAM => handleStream fastWriter list cycles
        | .ONCE => handleOnce fastWriter list
        | .POLL => handlePoll fastWriter list messages.tail
        | .other _ => pure ⟨.UNKNOWN, "Unknown subscription mode"⟩
    | _ => do
        tryCancel
        pure ⟨.INVALID_ARGUMENT, "SubscribeRequest needs non-empty SubscriptionList"⟩

end SubscribeRpc

end SysrepoGnxi
