import SysrepoGnxi.Correspondence
import SysrepoGnxi.ElementIndex

/-!
# Exceptions That Leave the Read RPCs

A Get or a Subscribe request should end with a status whatever sysrepo answers. The handlers
catch two classes of exceptions, around `json_read` only; `refresh` is called outside, and so
are the updates made of what was read. `returns_iff` says exactly which dialogues end with a
status: those in which every refresh succeeds and every read is harmless for its path.
-/

open Dialogue JsonDoc

namespace SysrepoGnxi

/-! ### Get -/

/-- A Get **survives** a dialogue that reads for these paths: every refresh succeeds, and the
reply for each path is harmless for it. -/
structure GetRpc.Survives (paths : List Path) (evs : List CallEvent) : Prop where
  refreshed : ∀ exc, (⟨.refresh, .error exc⟩ : CallEvent) ∉ evs
  harmless : ∀ (k : ℕ) (path : Path) (read : String × ReadReply), paths[k]? = some path →
    (reads evs)[k]? = some read → Harmless path.elem.isEmpty read.2

variable {fastWriter : Json → String}

namespace GetRpc

/-- **The update of a Get**: a refresh, and if that succeeds one read. -/
theorem yields_buildGetUpdate {encoding : Encoding}
    (hencoding : encoding = .JSON ∨ encoding = .JSON_IETF) {path : Path} {fullpath : String}
    {evs : List CallEvent} {r : Except Exn (Except Status (List Update))}
    (h : Yields (buildGetUpdate fastWriter path fullpath encoding).run evs r) :
    (∃ exc, evs = [⟨.refresh, .error exc⟩] ∧ r = .error exc) ∨
      ∃ reply, evs = [⟨.refresh, .ok ()⟩, ⟨.getSubtrees (cStr fullpath), reply⟩] ∧
        r = readOutcome fastWriter path [] reply := by
  rcases Throwing.yields_bind.mp h with ⟨evs₁, evs₂, u, rfl, h₁, h₂⟩ | ⟨exc, h₁, rfl⟩
  · obtain ⟨reply, rfl, hreply⟩ := Throwing.yields_ask.mp h₁
    obtain rfl : Except.ok u = reply := hreply
    have h₃ : Yields (readUpdates fastWriter path fullpath []).run evs₂ r := by
      rcases hencoding with rfl | rfl <;> exact h₂
    obtain ⟨reply, rfl, rfl⟩ := yields_readUpdates_iff.mp h₃
    exact Or.inr ⟨reply, rfl, rfl⟩
  · obtain ⟨reply, rfl, hreply⟩ := Throwing.yields_ask.mp h₁
    obtain rfl : Except.error exc = reply := hreply
    exact Or.inl ⟨exc, rfl, rfl⟩

/-- **One round of a Get** ends with a status or a notification exactly if the refresh succeeds
and the reply is harmless. -/
theorem yields_buildGetNotification {encoding : Encoding}
    (hencoding : encoding = .JSON ∨ encoding = .JSON_IETF) {pfx : Option Path} {path : Path}
    {evs : List CallEvent} {r : Except Exn (Except Status Notification)}
    (h : Yields (buildGetNotification fastWriter pfx path encoding).run evs r) :
    ∃ t : ℕ, (∃ exc, evs = [⟨.getTimeNanosec, t⟩, ⟨.refresh, .error exc⟩] ∧ r = .error exc) ∨
      ∃ reply, evs = [⟨.getTimeNanosec, t⟩, ⟨.refresh, .ok ()⟩,
          ⟨.getSubtrees (cStr (fullXpath pfx path)), reply⟩] ∧
        ((∃ o, r = .ok o) ↔ Harmless path.elem.isEmpty reply) := by
  obtain ⟨t, evs₁, rfl, htail⟩ := Throwing.yields_ask_bind.mp h
  refine ⟨t, ?_⟩
  rcases Throwing.yields_bind.mp htail with ⟨evs₂, evs₃, o, rfl, h₁, h₂⟩ | ⟨exc, h₁, rfl⟩
  · rcases yields_buildGetUpdate hencoding h₁ with ⟨exc, -, heq⟩ | ⟨reply, rfl, heq⟩
    · cases heq
    · refine Or.inr ⟨reply, ?_⟩
      rw [← readOutcome_ok_iff fastWriter path [] reply, ← heq]
      cases o <;> obtain ⟨rfl, rfl⟩ := Throwing.yields_pure.mp h₂ <;> simp
  · rcases yields_buildGetUpdate hencoding h₁ with ⟨exc', rfl, heq⟩ | ⟨reply, rfl, heq⟩
    · obtain rfl := Except.error.inj heq
      exact Or.inl ⟨exc, rfl, rfl⟩
    · refine Or.inr ⟨reply, rfl, ?_⟩
      rw [← readOutcome_ok_iff fastWriter path [] reply, ← heq]
      simp

/-- After a round the rest of the paths is read in the rest of the dialogue. -/
theorem survives_cons {path : Path} {rest : List Path} {t : ℕ} {xpath : String}
    {reply : ReadReply} {evs : List CallEvent} :
    Survives (path :: rest) (⟨.getTimeNanosec, t⟩ :: ⟨.refresh, .ok ()⟩ ::
        ⟨.getSubtrees xpath, reply⟩ :: evs) ↔
      Harmless path.elem.isEmpty reply ∧ Survives rest evs := by
  have hreads : reads (⟨.getTimeNanosec, t⟩ :: ⟨.refresh, .ok ()⟩ ::
      ⟨.getSubtrees xpath, reply⟩ :: evs) = (xpath, reply) :: reads evs := rfl
  constructor
  · intro h
    refine ⟨h.harmless 0 path (xpath, reply) rfl (by rw [hreads]; rfl), ⟨?_, ?_⟩⟩
    · intro exc hmem
      exact h.refreshed exc (by simp [hmem])
    · intro k path' read hpath hread
      exact h.harmless (k + 1) path' read hpath (by rw [hreads]; exact hread)
  · rintro ⟨hharmless, h⟩
    refine ⟨fun exc hmem => ?_, fun k path' read hpath hread => ?_⟩
    · simp only [List.mem_cons, reduceCtorEq, Sigma.mk.injEq, heq_eq_eq, false_or, and_false,
        false_and] at hmem
      exact h.refreshed exc hmem
    · rw [hreads] at hread
      cases k with
      | zero =>
          obtain rfl := Option.some.inj hpath
          obtain rfl := Option.some.inj hread
          exact hharmless
      | succ k => exact h.harmless k path' read hpath hread

/-- **The loop of a Get** ends with a status or a response exactly if it survives. -/
theorem pathLoop_returns_iff {encoding : Encoding}
    (hencoding : encoding = .JSON ∨ encoding = .JSON_IETF) {pfx : Option Path}
    {paths : List Path} {notifications : List Notification} {evs : List CallEvent}
    {r : Except Exn (Except Status GetResponse)}
    (h : Yields (pathLoop fastWriter pfx encoding paths notifications).run evs r) :
    (∃ o, r = .ok o) ↔ Survives paths evs := by
  induction paths generalizing notifications evs with
  | nil =>
      obtain ⟨rfl, rfl⟩ := Throwing.yields_pure.mp h
      exact iff_of_true ⟨_, rfl⟩ ⟨by simp, by simp⟩
  | cons path rest ih =>
      rcases Throwing.yields_bind.mp h with ⟨evs₁, evs₂, o, rfl, h₁, h₂⟩ | ⟨exc, h₁, rfl⟩
      · obtain ⟨t, ⟨exc, -, heq⟩ | ⟨reply, rfl, hround⟩⟩ :=
          yields_buildGetNotification hencoding h₁
        · cases heq
        · have hharmless := hround.mp ⟨o, rfl⟩
          change _ ↔ Survives (path :: rest) (⟨.getTimeNanosec, t⟩ :: ⟨.refresh, .ok ()⟩ ::
            ⟨.getSubtrees (cStr (fullXpath pfx path)), reply⟩ :: evs₂)
          rw [survives_cons]
          cases o with
          | error status =>
              obtain ⟨rfl, rfl⟩ := Throwing.yields_pure.mp h₂
              exact iff_of_true ⟨_, rfl⟩ ⟨hharmless, by simp, by simp [reads]⟩
          | ok n =>
              rw [ih h₂]
              simp [hharmless]
      · obtain ⟨t, ⟨exc', rfl, heq⟩ | ⟨reply, rfl, hround⟩⟩ :=
          yields_buildGetNotification hencoding h₁
        · refine iff_of_false (by simp) fun hsurvives => hsurvives.refreshed exc' (by simp)
        · refine iff_of_false (by simp) fun hsurvives => ?_
          have hharmless := (survives_cons.mp hsurvives).1
          obtain ⟨o, ho⟩ := hround.mpr hharmless
          cases ho

/-- **When a Get ends with a status or a response.** -/
theorem run_returns_iff {req : GetRequest} {evs : List CallEvent}
    {r : Except Exn (Except Status GetResponse)}
    (h : Yields (run fastWriter req).run evs r) : (∃ o, r = .ok o) ↔ Survives req.path evs := by
  rw [run] at h
  cases hverify : verifyGetRequest req with
  | some status =>
      rw [hverify] at h
      obtain ⟨rfl, rfl⟩ := Throwing.yields_pure.mp h
      exact iff_of_true ⟨_, rfl⟩ ⟨by simp, by simp [reads]⟩
  | none =>
      rw [hverify] at h
      exact pathLoop_returns_iff (encoding_of_verify hverify) h

end GetRpc

/-! ### Subscribe -/

namespace SubscribeRpc

/-- An exchange that a Subscribe handler **survives**: a refresh that succeeds, a read whose
reply is harmless for its path, which has no elements if it is the root, and any other. -/
def Survives : CallEvent → Prop
  | ⟨.refresh, reply⟩ => ∃ u, reply = .ok u
  | ⟨.getSubtrees xpath, reply⟩ => Harmless (xpath == "") reply
  | _ => True

/-- A handler that ends with a value exactly if it survives its exchanges. -/
abbrev Robust {α : Type} (x : Handler α) : Prop := x.EndsIff Survives

theorem robust_readUpdates (path : Path) (us : List Update) :
    Robust (readUpdates fastWriter path (gnmiToXpath path) us) := by
  intro evs r hy
  obtain ⟨reply, rfl, rfl⟩ := yields_readUpdates_iff.mp hy
  have hbare : (cStr (gnmiToXpath path) == "") = path.elem.isEmpty := by
    rw [Bool.eq_iff_iff, beq_iff_eq, List.isEmpty_iff, cStr_gnmiToXpath_eq_empty]
  rw [readOutcome_ok_iff]
  simp [Survives, hbare]

/-- Calls that always have an answer. -/
theorem robust_call {α : Type} {c : Call} {h : c.Reply → α} (hc : ∀ r, Survives ⟨c, r⟩) :
    Robust (Throwing.ask c fun r => .ok (h r) : Handler α) :=
  Throwing.endsIff_ask fun r => iff_of_true ⟨_, rfl⟩ (hc r)

theorem robust_refresh : Robust refresh := Throwing.endsIff_ask fun _ => Iff.rfl

theorem robust_now : Robust now := robust_call fun _ => trivial

theorem robust_getTimeNanosec : Robust getTimeNanosec := robust_call fun _ => trivial

theorem robust_write (response : SubscribeResponse) : Robust (write response) :=
  robust_call fun _ => trivial

theorem robust_tryCancel : Robust tryCancel := robust_call fun _ => trivial

theorem robust_buildSubsUpdate (us : List Update) (path : Path) (encoding : Encoding) :
    Robust (buildSubsUpdate fastWriter us path (gnmiToXpath path) encoding) := by
  refine robust_refresh.bind fun _ => ?_
  cases encoding with
  | JSON | JSON_IETF => exact robust_readUpdates _ _
  | _ => exact Throwing.endsIff_pure _

theorem robust_subscriptionLoop (encoding : Encoding) (subs : List Subscription)
    (us : List Update) : Robust (subscriptionLoop fastWriter encoding subs us) := by
  induction subs generalizing us with
  | nil => exact Throwing.endsIff_pure _
  | cons sub rest ih =>
      refine (robust_buildSubsUpdate us sub.path encoding).bind ?_
      rintro (status | us')
      · exact Throwing.endsIff_pure _
      · exact ih us'

theorem robust_notify (request : SubscriptionList) : Robust (notify fastWriter request) := by
  have hbuild : Robust (buildSubscribeNotification fastWriter request) := by
    rw [buildSubscribeNotification]
    cases verifyList request with
    | some status => exact Throwing.endsIff_pure _
    | none =>
        refine robust_getTimeNanosec.bind fun t =>
          (robust_subscriptionLoop request.encoding request.subscription []).bind ?_
        rintro (status | us) <;> exact Throwing.endsIff_pure _
  refine hbuild.bind ?_
  rintro (status | n)
  · exact robust_tryCancel.bind fun _ => Throwing.endsIff_pure _
  · exact (robust_write _).bind fun _ => Throwing.endsIff_pure _

/-- A notification, and then the rest of a handler. -/
theorem robust_notify_bind {request : SubscriptionList} {g : Option Status → Handler Status}
    (hsome : ∀ status, g (some status) = pure status) (hnone : Robust (g none)) :
    Robust (notify fastWriter request >>= g) := by
  refine (robust_notify request).bind ?_
  rintro (_ | status)
  · exact hnone
  · rw [hsome]
    exact Throwing.endsIff_pure _

theorem robust_startSamples (subs : List Subscription) : Robust (startSamples subs) := by
  induction subs with
  | nil => exact Throwing.endsIff_pure _
  | cons sub rest ih =>
      rw [startSamples]
      cases sub.mode with
      | SAMPLE => exact robust_now.bind fun _ => ih.bind fun _ => Throwing.endsIff_pure _
      | _ => exact ih

theorem robust_dueSamples (chronomap : List (Subscription × TimePoint)) :
    Robust (dueSamples chronomap) := by
  induction chronomap with
  | nil => exact Throwing.endsIff_pure _
  | cons entry rest ih =>
      obtain ⟨sub, last⟩ := entry
      refine robust_now.bind fun t => ?_
      split_ifs
      · exact robust_now.bind fun _ => ih.bind fun _ => Throwing.endsIff_pure _
      · exact ih.bind fun _ => Throwing.endsIff_pure _

theorem robust_sampleLoop (request : SubscriptionList) (cycles : ℕ)
    (chronomap : List (Subscription × TimePoint)) :
    Robust (sampleLoop fastWriter request cycles chronomap) := by
  induction cycles generalizing chronomap with
  | zero => exact Throwing.endsIff_pure _
  | succ cycles ih =>
      refine robust_now.bind fun _ => (robust_dueSamples chronomap).bind ?_
      rintro ⟨chronomap', due⟩
      have hdue : Robust (notifyDue fastWriter request due) := by
        rw [notifyDue]
        split_ifs
        · exact robust_notify _
        · exact Throwing.endsIff_pure _
      refine hdue.bind ?_
      rintro (_ | status)
      · exact robust_now.bind fun _ => ih _
      · exact Throwing.endsIff_pure _

theorem robust_handlePoll (subscription : SubscriptionList) (messages : List SubscribeRequest) :
    Robust (handlePoll fastWriter subscription messages) := by
  induction messages with
  | nil => exact Throwing.endsIff_pure _
  | cons message rest ih =>
      rw [handlePoll]
      cases message.request with
      | poll => exact robust_notify_bind (fun _ => rfl) ih
      | _ => exact Throwing.endsIff_pure _

/-- **When a Subscribe ends with a status**, whatever the client sends and however long it
stays. -/
theorem robust_run (messages : List SubscribeRequest) (cycles : ℕ) :
    Robust (run fastWriter messages cycles) := by
  rw [run]
  split_ifs
  · exact Throwing.endsIff_pure _
  · cases (messages.headD {}).request with
    | subscribe list =>
        dsimp only
        cases list.mode with
        | STREAM =>
            dsimp only
            rw [handleStream]
            split_ifs
            · exact robust_tryCancel.bind fun _ => Throwing.endsIff_pure _
            · refine robust_notify_bind (fun _ => rfl) ((robust_write _).bind fun _ => ?_)
              exact (robust_startSamples _).bind fun _ => robust_sampleLoop _ _ _
        | ONCE =>
            exact robust_notify_bind (fun _ => rfl)
              ((robust_write _).bind fun _ => Throwing.endsIff_pure _)
        | POLL => exact robust_handlePoll _ _
        | other n => exact Throwing.endsIff_pure _
    | _ => exact robust_tryCancel.bind fun _ => Throwing.endsIff_pure _

end SubscribeRpc

/-! ### Both RPCs -/

/-- **When the read RPCs return**: a Get exactly if it survives its dialogue, a Subscribe
exactly if it survives every exchange of its own. -/
theorem returns_iff {req : GetRequest} {evs : List CallEvent}
    {r : Except Exn (Except Status GetResponse)} {messages : List SubscribeRequest}
    {cycles : ℕ} {evs' : List CallEvent} {r' : Except Exn Status}
    (h : Yields (GetRpc.run fastWriter req).run evs r)
    (h' : Yields (SubscribeRpc.run fastWriter messages cycles).run evs' r') :
    ((∃ o, r = .ok o) ↔ GetRpc.Survives req.path evs) ∧
      ((∃ status, r' = .ok status) ↔ ∀ ev ∈ evs', SubscribeRpc.Survives ev) :=
  ⟨GetRpc.run_returns_iff h, SubscribeRpc.robust_run messages cycles evs' r' h'⟩

/-- The exceptions of `refresh` and `get_subtrees` are sysrepo's own. -/
def RaisesSysrepo : CallEvent → Prop
  | ⟨.refresh, .error exc⟩ => exc.isSysrepoException.isSome = true
  | ⟨.getSubtrees _, .error exc⟩ => exc.isSysrepoException.isSome = true
  | _ => True

/-- A Get for the interfaces. -/
def getInterfaces : GetRequest := { path := [interfacesPath], encoding := .JSON_IETF }

/-- The exchanges of a handler whose first refresh fails. -/
def failedRefresh : List CallEvent :=
  [⟨.getTimeNanosec, (0 : ℕ)⟩, ⟨.refresh, .error (.sysrepoException "SR_ERR_INTERNAL")⟩]

theorem yields_failedRefresh : Yields (GetRpc.run (fun _ => "") getInterfaces).run failedRefresh
    (.error (.sysrepoException "SR_ERR_INTERNAL")) :=
  Yields.call (Yields.call (Yields.ret _))

/-- A first message that subscribes to the interfaces once. -/
def subscribeOnce : SubscribeRequest :=
  { request := .subscribe (toInterfaces [{ path := interfacesPath }]) }

theorem yields_subscribeOnce : Yields (SubscribeRpc.run (fun _ => "") [subscribeOnce] 0).run
    (interfaceReads ++ [⟨.write (.update interfaceNotification), ()⟩,
      ⟨.write (.syncResponse true), ()⟩]) (.ok .OK) :=
  Yields.call (Yields.call (Yields.call (Yields.call (Yields.call (Yields.ret _)))))

theorem returns_interfaces :
    ((∃ o, (.error (.sysrepoException "SR_ERR_INTERNAL") :
        Except Exn (Except Status GetResponse)) = .ok o) ↔
      GetRpc.Survives getInterfaces.path failedRefresh) ∧
    ((∃ status, (.ok .OK : Except Exn Status) = .ok status) ↔
      ∀ ev ∈ interfaceReads ++ [⟨.write (.update interfaceNotification), ()⟩,
        ⟨.write (.syncResponse true), ()⟩], SubscribeRpc.Survives ev) :=
  returns_iff yields_failedRefresh yields_subscribeOnce

/-- An exception of `refresh` leaves a Get. -/
theorem not_returns : ¬ ∀ (fastWriter : Json → String) (req : GetRequest)
    (evs : List CallEvent) (r : Except Exn (Except Status GetResponse)),
    Yields (GetRpc.run fastWriter req).run evs r → (∀ ev ∈ evs, RaisesSysrepo ev) →
      ∃ o, r = .ok o := by
  intro h
  have hraises : ∀ ev ∈ failedRefresh, RaisesSysrepo ev := by
    intro ev hev
    simp only [failedRefresh, List.mem_cons, List.not_mem_nil, or_false] at hev
    rcases hev with rfl | rfl
    · trivial
    · rfl
  obtain ⟨o, ho⟩ := h _ _ _ _ yields_failedRefresh hraises
  cases ho

end SysrepoGnxi
