import SysrepoGnxi.Lib.Turns
import SysrepoGnxi.Durability

/-!
# RPCs Wait for Nobody

The RPCs of the service share one session, but none holds it against another: each call is
served when it is made. So every RPC has ended after a number of turns of its own that its
request bounds (`Rpc.turns`), whatever turns the others have had in between, and whatever has
failed (`ends_of_turns`).

A Set request needs at most two calls for each of its edits, one more for each item, and two
around them; a read needs a refresh and a selection for each path.
-/

open Dialogue JsonDoc

namespace SysrepoGnxi

variable {parse : String → Except Exn (List DataNode)} {fastWriter : Json → String}

/-! ### Set -/

/-- The calls for a replace or update item: at most two for each edit, and one for libyang. -/
def updateTurns (parse : String → Except Exn (List DataNode)) (pfx : String) (upd : Update) : ℕ :=
  1 + 2 * (updateEdits parse pfx upd).length

/-- A part of a handler makes at most `n` calls. -/
abbrev Needs (parse : String → Except Exn (List DataNode)) {α : Type} (x : Handler α) (n : ℕ) :
    Prop :=
  Within (Parsed parse) x.run n

/-- A part that makes no more calls. -/
theorem needs_before {α β : Type} {x : Handler α} {f : α → Handler β} {n : ℕ}
    (hx : Needs parse x n) (hf : ∀ a, Needs parse (f a) 0) : Needs parse (x >>= f) n :=
  Throwing.within_bind hx hf

theorem within_ofExcept {α : Type} (r : Except Exn α) : Needs parse (ofExcept r) 0 := by
  cases r with
  | error exc => exact Throwing.within_throw _
  | ok a => exact Throwing.within_pure _

theorem needs_setItem (path : ItemPath) (val : Option Val) :
    Needs parse (setItem path val) 1 := Throwing.within_ask _ _

theorem needs_setVal (path : ItemPath) (val : Val) : Needs parse (setVal path val) 2 :=
  Throwing.within_bind (Throwing.within_ask _ _) fun _ => needs_setItem _ _

/-- Induction on the chain of leafrefs. -/
theorem needs_storeLeaf (path : NodeRef) (isKey : Bool) (value : LyValue) :
    Needs parse (storeLeaf path isKey value) (2 * (leafEdits path isKey value).length) := by
  fun_induction storeLeaf path isKey value with
  | case1 => exact Throwing.within_pure _
  | case2 path isKey targetPath targetKey target hkey ih =>
      rw [leafEdits, if_neg hkey, List.length_append, List.length_singleton, Nat.mul_add]
      exact (Throwing.within_bind ih fun _ => needs_setItem _ _).mono (by omega)
  | case3 => exact Throwing.within_pure _
  | case4 => exact Throwing.within_throw _
  | case5 path isKey value hval hkey val hto =>
      have hedits : leafEdits path isKey value = [.set (.dataNode path) (some val)] := by
        cases value <;> simp_all [leafEdits]
      rw [hedits]
      exact needs_setVal _ _

theorem needs_catchString {x : Handler Unit} {n : ℕ} (hx : Needs parse x n) :
    Needs parse (catchString x) n := by
  refine needs_before (Throwing.within_observe hx) ?_
  rintro (exc | u)
  · cases exc <;> exact Throwing.within_throw _
  · exact Throwing.within_pure _

theorem needs_storeNode (path : NodeRef) (node : DataNode) :
    Needs parse (storeNode path node) (2 * (nodeEdits path node).length) := by
  cases node with
  | leaf name isKey value => exact needs_catchString (needs_storeLeaf path isKey value)
  | list name keys children => exact needs_setVal _ _
  | _ => exact Throwing.within_pure _

theorem needs_storeNodes (nodes : List (NodeRef × DataNode)) :
    Needs parse (storeNodes nodes)
      (2 * (nodes.flatMap fun it => nodeEdits it.1 it.2).length) := by
  induction nodes with
  | nil => exact Throwing.within_pure _
  | cons it rest ih =>
      rw [List.flatMap_cons, List.length_append, Nat.mul_add]
      exact Throwing.within_bind (needs_storeNode it.1 it.2) fun _ => ih

theorem needs_jsonUpdate (data : String) :
    Needs parse (jsonUpdate data)
      (1 + 2 * ((documentTree parse data).elim [] treeEdits).length) := by
  have hparse : (parseDataMem (cStr data)).Ends (Parsed parse)
      fun nodes _ => parse (cStr data) = .ok nodes := by
    refine Throwing.ends_ask ?_
    rintro r nodes hr rfl
    exact hr (cStr data) nodes rfl
  have hone : Needs parse (parseDataMem (cStr data)) 1 := Throwing.within_ask _ _
  refine Throwing.within_bind_of_ends hone hparse ?_
  rintro (- | ⟨node, siblings⟩) evs hp
  · exact Throwing.within_throw _
  · rw [show documentTree parse data = some node by simp [documentTree, hp]]
    exact needs_storeNodes _

namespace SetRpc

theorem needs_rethrowInvalid {x : Handler Unit} {n : ℕ} (hx : Needs parse x n) :
    Needs parse (rethrowInvalid x) n := by
  refine needs_before (Throwing.within_observe hx) ?_
  rintro (exc | u)
  · cases exc <;> exact Throwing.within_throw _
  · exact Throwing.within_pure _

theorem needs_storeValue (fullpath : String) (reqval : TypedValue) :
    Needs parse (storeValue fullpath reqval)
      (1 + 2 * (valueEdits parse fullpath reqval).length) := by
  cases reqval with
  | stringVal | intVal | uintVal | boolVal | floatVal =>
      exact (needs_setVal _ _).mono (Nat.le_add_left 2 1)
  | jsonIetfVal data => exact needs_rethrowInvalid (needs_jsonUpdate data)
  | _ => exact Throwing.within_throw _

theorem needs_handleUpdate (upd : Update) (out : UpdateResult) (pfx : String) :
    Needs parse (handleUpdate upd out pfx) (updateTurns parse pfx upd) := by
  obtain ⟨_ | path, _ | reqval⟩ := upd
  · exact Throwing.within_pure _
  · exact Throwing.within_pure _
  · exact Throwing.within_pure _
  · exact needs_before (needs_storeValue _ _) fun _ => Throwing.within_pure _

theorem needs_deleteLoop (pfx : String) (paths : List Path) (response : SetResponse) :
    Needs parse (deleteLoop pfx paths response) paths.length := by
  induction paths generalizing response with
  | nil => exact Throwing.within_pure _
  | cons delpath rest ih =>
      rw [List.length_cons, Nat.add_comm]
      refine Throwing.within_bind (Throwing.within_observe (Throwing.within_ask _ _)) ?_
      rintro (exc | u)
      · cases exc with
        | stdString | nullPointer => exact Throwing.within_throw _
        | _ => exact Throwing.within_pure _
      · exact ih _

theorem needs_updateLoop (op : Operation) (clauses : Exn → Option Status) (pfx : String)
    (upds : List Update) (response : SetResponse) :
    Needs parse (updateLoop op clauses pfx upds response)
      (upds.map (updateTurns parse pfx)).sum := by
  induction upds generalizing response with
  | nil => exact Throwing.within_pure _
  | cons upd rest ih =>
      rw [List.map_cons, List.sum_cons]
      refine Throwing.within_bind (Throwing.within_observe (needs_handleUpdate upd {} pfx)) ?_
      rintro (exc | ⟨code, res⟩)
      · dsimp only
        cases clauses exc with
        | none => exact Throwing.within_throw _
        | some status => exact Throwing.within_pure _
      · exact ih _

theorem needs_andThen {x : Handler (Except Status SetResponse)}
    {f : SetResponse → Handler (Except Status SetResponse)} {m n : ℕ} (hx : Needs parse x m)
    (hf : ∀ response, Needs parse (f response) n) : Needs parse (andThen x f) (m + n) := by
  refine Throwing.within_bind hx ?_
  rintro (status | response)
  · exact Throwing.within_pure _
  · exact hf response

/-- The turns of a Set request: its calls at most. -/
def turns (parse : String → Except Exn (List DataNode)) (request : SetRequest) : ℕ :=
  let pfx := request.pfx.elim "" gnmiToXpath
  1 + (request.delete.length + ((request.replace.map (updateTurns parse pfx)).sum +
    (request.update.map (updateTurns parse pfx)).sum) + 1)

theorem needs_run (request : SetRequest) : Needs parse (run request) (turns parse request) := by
  rw [run]
  split_ifs
  · exact Throwing.within_pure _
  · refine Throwing.within_bind (Throwing.within_ask _ _) fun timestamp => ?_
    refine needs_andThen ?_ fun response => ?_
    · exact needs_andThen (needs_deleteLoop _ _ _) fun _ =>
        needs_andThen (needs_updateLoop _ _ _ _ _) fun _ => needs_updateLoop _ _ _ _ _
    · have hcommit : Needs parse (Throwing.observe commit) 1 :=
        Throwing.within_observe (Throwing.within_ask _ _)
      refine needs_before hcommit ?_
      rintro (exc | u)
      · cases exc with
        | stdString | nullPointer => exact Throwing.within_throw _
        | _ => exact Throwing.within_pure _
      · exact Throwing.within_pure _

end SetRpc

/-! ### Reads -/

theorem needs_readUpdates (path : Path) (fullpath : String) (updateList : List Update) :
    Needs parse (readUpdates fastWriter path fullpath updateList) 1 := by
  have hread : Needs parse (jsonRead fastWriter fullpath) 1 := by
    refine needs_before (Throwing.within_ask _ _) ?_
    rintro (- | trees)
    · exact Throwing.within_throw _
    · exact within_ofExcept _
  refine needs_before (Throwing.within_observe hread) ?_
  rintro (exc | jsonVec)
  · dsimp only
    cases catchRead exc with
    | none => exact Throwing.within_throw _
    | some status => exact Throwing.within_pure _
  · exact needs_before (within_ofExcept _) fun _ => Throwing.within_pure _

/-- A read, with the refresh before it. -/
theorem needs_refreshed {x : Handler (Except Status (List Update))} (hx : Needs parse x 1) :
    Needs parse (refresh >>= fun _ => x) 2 :=
  Throwing.within_bind (Throwing.within_ask _ _) fun _ => hx

namespace GetRpc

theorem needs_buildGetNotification (pfx : Option Path) (path : Path) (encoding : Encoding) :
    Needs parse (buildGetNotification fastWriter pfx path encoding) 3 := by
  have hupdate : Needs parse (buildGetUpdate fastWriter path (fullXpath pfx path) encoding) 2 := by
    refine needs_refreshed ?_
    cases encoding with
    | JSON | JSON_IETF => exact needs_readUpdates _ _ _
    | _ => exact Throwing.within_pure _
  refine Throwing.within_bind (Throwing.within_ask _ _) fun timestamp => needs_before hupdate ?_
  rintro (status | updates) <;> exact Throwing.within_pure _

theorem needs_pathLoop (pfx : Option Path) (encoding : Encoding) (paths : List Path)
    (notifications : List Notification) :
    Needs parse (pathLoop fastWriter pfx encoding paths notifications) (3 * paths.length) := by
  induction paths generalizing notifications with
  | nil => exact Throwing.within_pure _
  | cons path rest ih =>
      rw [List.length_cons, Nat.mul_add_one, Nat.add_comm]
      refine Throwing.within_bind (needs_buildGetNotification pfx path encoding) ?_
      rintro (status | notification)
      · exact Throwing.within_pure _
      · exact ih _

/-- The turns of a Get request. -/
def turns (request : GetRequest) : ℕ := 3 * request.path.length

theorem needs_run (request : GetRequest) :
    Needs parse (run fastWriter request) (turns request) := by
  rw [run]
  cases verifyGetRequest request with
  | some status => exact Throwing.within_pure _
  | none => exact needs_pathLoop _ _ _ _

end GetRpc

namespace SubscribeRpc

/-- The turns of a notification: two reads for each subscription, the time, and its write. -/
def notifyTurns (subscriptions : ℕ) : ℕ := 1 + 2 * subscriptions + 1

theorem needs_subscriptionLoop (encoding : Encoding) (subs : List Subscription)
    (updateList : List Update) :
    Needs parse (subscriptionLoop fastWriter encoding subs updateList) (2 * subs.length) := by
  induction subs generalizing updateList with
  | nil => exact Throwing.within_pure _
  | cons sub rest ih =>
      rw [List.length_cons, Nat.mul_add_one, Nat.add_comm]
      have hupdate : Needs parse
          (buildSubsUpdate fastWriter updateList sub.path (gnmiToXpath sub.path) encoding) 2 := by
        refine needs_refreshed ?_
        cases encoding with
        | JSON | JSON_IETF => exact needs_readUpdates _ _ _
        | _ => exact Throwing.within_pure _
      refine Throwing.within_bind hupdate ?_
      rintro (status | updateList')
      · exact Throwing.within_pure _
      · exact ih _

theorem needs_notify (request : SubscriptionList) :
    Needs parse (notify fastWriter request) (notifyTurns request.subscription.length) := by
  have hbuild : Needs parse (buildSubscribeNotification fastWriter request)
      (1 + 2 * request.subscription.length) := by
    rw [buildSubscribeNotification]
    cases verifyList request with
    | some status => exact Throwing.within_pure _
    | none =>
        refine Throwing.within_bind (Throwing.within_ask _ _) fun timestamp =>
          needs_before (needs_subscriptionLoop _ _ _) ?_
        rintro (status | updates) <;> exact Throwing.within_pure _
  refine Throwing.within_bind hbuild ?_
  rintro (status | notification)
  · exact needs_before (Throwing.within_ask _ _) fun _ => Throwing.within_pure _
  · exact needs_before (Throwing.within_ask _ _) fun _ => Throwing.within_pure _

theorem needs_now : Needs parse now 1 := Throwing.within_ask _ _

theorem needs_startSamples (subs : List Subscription) :
    Needs parse (startSamples subs) subs.length := by
  induction subs with
  | nil => exact Throwing.within_pure _
  | cons sub rest ih =>
      rw [startSamples, List.length_cons, Nat.add_comm]
      cases sub.mode with
      | SAMPLE =>
          exact Throwing.within_bind needs_now fun _ =>
            needs_before ih fun _ => Throwing.within_pure _
      | _ => exact ih.mono (Nat.le_add_left _ _)

theorem needs_dueSamples (chronomap : List (Subscription × TimePoint)) :
    Needs parse (dueSamples chronomap) (2 * chronomap.length) := by
  induction chronomap with
  | nil => exact Throwing.within_pure _
  | cons entry rest ih =>
      obtain ⟨sub, last⟩ := entry
      rw [List.length_cons, Nat.mul_add_one, Nat.add_comm, show 2 = 1 + 1 from rfl, Nat.add_assoc]
      refine Throwing.within_bind needs_now fun t => ?_
      split_ifs
      · exact Throwing.within_bind needs_now fun _ =>
          needs_before ih fun _ => Throwing.within_pure _
      · exact (needs_before ih fun _ => Throwing.within_pure _).mono (Nat.le_add_left _ _)

/-- Not more subscriptions are sampled than there are. -/
theorem ends_startSamples (subs : List Subscription) :
    (startSamples subs).Ends (Parsed parse) fun chronomap _ =>
      chronomap.length ≤ subs.length := by
  induction subs with
  | nil => exact Throwing.ends_pure le_rfl
  | cons sub rest ih =>
      rw [startSamples]
      cases sub.mode with
      | SAMPLE =>
          have hnow : now.Ends (Parsed parse) fun _ _ => True := fun _ _ _ _ => trivial
          refine hnow.bind fun t _ _ => ih.bind fun chronomap _ hle => ?_
          exact Throwing.ends_pure (Nat.succ_le_succ hle)
      | _ => exact fun evs chronomap hy hr => (ih evs chronomap hy hr).trans (Nat.le_succ _)

/-- A pass keeps their number, and not more of them are due. -/
theorem ends_dueSamples (chronomap : List (Subscription × TimePoint)) :
    (dueSamples chronomap).Ends (Parsed parse) fun result _ =>
      result.1.length = chronomap.length ∧ result.2.length ≤ chronomap.length := by
  have hnow : now.Ends (Parsed parse) fun _ _ => True := fun _ _ _ _ => trivial
  induction chronomap with
  | nil => exact Throwing.ends_pure ⟨rfl, le_rfl⟩
  | cons entry rest ih =>
      obtain ⟨sub, last⟩ := entry
      refine hnow.bind fun t _ _ => ?_
      split_ifs
      · refine hnow.bind fun renewed _ _ => ih.bind ?_
        rintro ⟨chronomap', due⟩ _ ⟨hmap, hdue⟩
        exact Throwing.ends_pure ⟨congrArg Nat.succ hmap, Nat.succ_le_succ hdue⟩
      · refine ih.bind ?_
        rintro ⟨chronomap', due⟩ _ ⟨hmap, hdue⟩
        exact Throwing.ends_pure ⟨congrArg Nat.succ hmap, hdue.trans (Nat.le_succ _)⟩

theorem needs_notifyDue (request : SubscriptionList) {due : List Subscription} {n : ℕ}
    (hdue : due.length ≤ n) : Needs parse (notifyDue fastWriter request due) (notifyTurns n) := by
  rw [notifyDue]
  split_ifs
  · refine (needs_notify { request with subscription := due }).mono ?_
    change notifyTurns due.length ≤ notifyTurns n
    rw [notifyTurns, notifyTurns]
    omega
  · exact Throwing.within_pure _

/-- The turns of a cycle of the sampling loop. -/
def cycleTurns (subscriptions : ℕ) : ℕ :=
  1 + (2 * subscriptions + (notifyTurns subscriptions + 1))

/-- Induction on the cycles. -/
theorem needs_sampleLoop (request : SubscriptionList) (cycles : ℕ)
    (chronomap : List (Subscription × TimePoint)) :
    Needs parse (sampleLoop fastWriter request cycles chronomap)
      (cycles * cycleTurns chronomap.length) := by
  induction cycles generalizing chronomap with
  | zero => exact Throwing.within_pure _
  | succ cycles ih =>
      have hcycle : (cycles + 1) * cycleTurns chronomap.length =
          1 + (2 * chronomap.length + (notifyTurns chronomap.length +
            (1 + cycles * cycleTurns chronomap.length))) := by
        rw [Nat.succ_mul, cycleTurns]
        omega
      rw [hcycle]
      refine Throwing.within_bind needs_now fun _ => ?_
      refine Throwing.within_bind_of_ends (needs_dueSamples chronomap)
        (ends_dueSamples chronomap) ?_
      rintro ⟨chronomap', due⟩ _ ⟨hmap, hdue⟩
      refine Throwing.within_bind (needs_notifyDue request hdue) ?_
      rintro (- | status)
      · refine Throwing.within_bind needs_now fun _ => ?_
        rw [← hmap]
        exact ih chronomap'
      · exact Throwing.within_pure _

/-- The turns of a stream that is cancelled after some cycles. -/
def streamTurns (subscriptions cycles : ℕ) : ℕ :=
  notifyTurns subscriptions + (1 + (subscriptions + cycles * cycleTurns subscriptions))

theorem needs_handleStream (request : SubscriptionList) (cycles : ℕ) :
    Needs parse (handleStream fastWriter request cycles)
      (streamTurns request.subscription.length cycles) := by
  rw [handleStream]
  split_ifs
  · have hcancel : Needs parse tryCancel 1 := Throwing.within_ask _ _
    refine (needs_before hcancel fun _ => Throwing.within_pure _).mono ?_
    rw [streamTurns]
    omega
  · refine Throwing.within_bind (needs_notify request) ?_
    rintro (- | status)
    · refine Throwing.within_bind (Throwing.within_ask _ _) fun _ => ?_
      refine Throwing.within_bind_of_ends (needs_startSamples _) (ends_startSamples _) ?_
      intro chronomap _ hle
      refine (needs_sampleLoop request cycles chronomap).mono (Nat.mul_le_mul_left cycles ?_)
      rw [cycleTurns, cycleTurns, notifyTurns, notifyTurns]
      omega
    · exact Throwing.within_pure _

theorem needs_handleOnce (request : SubscriptionList) :
    Needs parse (handleOnce fastWriter request)
      (notifyTurns request.subscription.length + 1) := by
  refine Throwing.within_bind (needs_notify request) ?_
  rintro (- | status)
  · exact needs_before (Throwing.within_ask _ _) fun _ => Throwing.within_pure _
  · exact Throwing.within_pure _

/-- Induction on the messages of the client. -/
theorem needs_handlePoll (subscription : SubscriptionList) (messages : List SubscribeRequest) :
    Needs parse (handlePoll fastWriter subscription messages)
      (messages.length * notifyTurns subscription.subscription.length) := by
  induction messages with
  | nil => exact Throwing.within_pure _
  | cons request rest ih =>
      rw [handlePoll]
      cases request.request with
      | poll =>
          rw [List.length_cons, Nat.succ_mul, Nat.add_comm]
          refine Throwing.within_bind (needs_notify subscription) ?_
          rintro (- | status)
          · exact ih
          · exact Throwing.within_pure _
      | _ => exact Throwing.within_pure _

/-- The turns of a Subscribe RPC: one notification for each message in POLL mode, a stream that
is cancelled after `cycles` cycles in STREAM mode. -/
def turns (messages : List SubscribeRequest) (cycles : ℕ) : ℕ :=
  match (messages.headD {}).request with
  | .subscribe list =>
      match list.mode with
      | .STREAM => streamTurns list.subscription.length cycles
      | .ONCE => notifyTurns list.subscription.length + 1
      | .POLL => messages.tail.length * notifyTurns list.subscription.length
      | .other _ => 0
  | _ => 1

theorem needs_run (messages : List SubscribeRequest) (cycles : ℕ) :
    Needs parse (run fastWriter messages cycles) (turns messages cycles) := by
  rw [run, turns]
  split_ifs
  · exact Throwing.within_pure _
  · cases (messages.headD {}).request with
    | subscribe list =>
        dsimp only
        cases list.mode with
        | STREAM => exact needs_handleStream _ _
        | ONCE => exact needs_handleOnce _
        | POLL => exact needs_handlePoll _ _
        | other n => exact Throwing.within_pure _
    | _ =>
        have hcancel : Needs parse tryCancel 1 := Throwing.within_ask _ _
        exact needs_before hcancel fun _ => Throwing.within_pure _

end SubscribeRpc

/-! ### The service -/

/-- **The turns of an RPC**: its calls at most. -/
def Rpc.turns (parse : String → Except Exn (List DataNode)) : Rpc → ℕ
  | set request => SetRpc.turns parse request
  | get request => GetRpc.turns request
  | subscribe messages cycles => SubscribeRpc.turns messages cycles

theorem needs_handler (rpc : Rpc) : Needs parse (rpc.handler fastWriter) (rpc.turns parse) := by
  cases rpc with
  | set request => exact needs_before (SetRpc.needs_run _) fun _ => Throwing.within_pure _
  | get request => exact needs_before (GetRpc.needs_run _) fun _ => Throwing.within_pure _
  | subscribe messages cycles =>
      exact needs_before (SubscribeRpc.needs_run _ _) fun _ => Throwing.within_pure _

/-- **RPCs wait for nobody**: each has ended after its own turns, whatever turns the others have
had and whatever has failed. -/
theorem ends_of_turns {D : Type} (env : Env D) (fastWriter : Json → String) (d : D)
    (rpcs : ℕ → Rpc) (sched : List ℕ) (i : ℕ) (h : (rpcs i).turns env.parse ≤ sched.count i) :
    ∃ r, (Service.runs env fastWriter d rpcs sched).procs i = .ret r := by
  have hparsed : ∀ ev ∈ own i (Service.runs env fastWriter d rpcs sched).log,
      Parsed env.parse ev.1 ev.2 := fun ev hev =>
    parsed_of_answers (answers_log env fastWriter d rpcs sched).1 ev ((own_sublist i _).subset hev)
  exact Pool.returns_of_within hparsed (needs_handler (rpcs i)) h

/-- A Set of one leaf and a Get of it, served in turns. -/
theorem ends_of_turns_setThenGet :
    ∃ r, (Service.runs (leafEnv fun _ => none) leafWriter "old" setThenGet
      [0, 1, 0, 1, 0, 1, 0, 0, 0]).procs 1 = .ret r :=
  ends_of_turns (leafEnv fun _ => none) leafWriter "old" setThenGet [0, 1, 0, 1, 0, 1, 0, 0, 0] 1
    (by decide)

end SysrepoGnxi
