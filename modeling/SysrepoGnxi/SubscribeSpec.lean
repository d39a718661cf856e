import SysrepoGnxi.GetSpec
import SysrepoGnxi.Subscribe

/-!
# What a Subscribe Request Writes

The specification of the parts the three modes of Subscribe share, by their dialogues:

* a notification is built by reading alone, and a build that fails does so with a status
  other than OK (`keeps_buildSubscribeNotification`);
* a build reads once for each subscription, and makes a group of updates of each read
  (`endsInStep_buildSubscribeNotification`), so that a notification that is built is a
  `SnapshotOf` the list: for every subscription, in order, an update with its path and one for
  each tree read at its xpath (`ends_buildSubscribeNotification`);
* it is written if it is built, and the RPC is cancelled otherwise (`yields_notify`).
-/

open Dialogue JsonDoc

namespace SysrepoGnxi

/-! ### What a dialogue shows -/

/-- The response an exchange writes to the stream. -/
def writtenOf : CallEvent → Option SubscribeResponse
  | ⟨.write response, _⟩ => some response
  | _ => none

/-- The responses a dialogue writes, in order. -/
def written (evs : List CallEvent) : List SubscribeResponse := evs.filterMap writtenOf

/-- The clock reading of an exchange. -/
def readingOf : CallEvent → Option TimePoint
  | ⟨.now, t⟩ => some t
  | _ => none

/-- The clock readings of a dialogue, in order. -/
def readings (evs : List CallEvent) : List TimePoint := evs.filterMap readingOf

/-- The xpath an exchange reads. -/
def xpathOf : CallEvent → Option String
  | ⟨.getSubtrees xpath, _⟩ => some xpath
  | _ => none

/-- The xpaths a dialogue reads, in order. -/
def xpathsRead (evs : List CallEvent) : List String := evs.filterMap xpathOf

@[simp] theorem written_append (evs₁ evs₂ : List CallEvent) :
    written (evs₁ ++ evs₂) = written evs₁ ++ written evs₂ := List.filterMap_append

/-- The xpaths are those of the reads. -/
theorem xpathsRead_eq (evs : List CallEvent) : xpathsRead evs = (reads evs).map Prod.fst := by
  rw [xpathsRead, reads, List.map_filterMap]
  refine List.filterMap_congr ?_
  rintro ⟨c, r⟩ -
  cases c <;> rfl

/-- A reader writes nothing. -/
theorem written_of_reading {evs : List CallEvent} (h : ∀ ev ∈ evs, Reading ev.1) :
    written evs = [] := by
  refine List.filterMap_eq_nil_iff.mpr ?_
  rintro ⟨c, r⟩ hev
  cases c <;> first | rfl | exact (h _ hev).elim

/-! ### What a build reads -/

section Build

variable {fastWriter : Json → String}

namespace SubscribeRpc

/-- The subscriptions of a build, their updates and its reads, one of each at a time. -/
inductive GroupsInStep (fastWriter : Json → String) :
    List Subscription → List (List Update) → List (String × ReadReply) → Prop
  | nil : GroupsInStep fastWriter [] [] []
  | cons {sub : Subscription} {subs : List Subscription} {us : List Update}
      {groups : List (List Update)} {trees : List Tree} {reads : List (String × ReadReply)} :
      Reports fastWriter sub.path ("", "") trees us →
      GroupsInStep fastWriter subs groups reads →
      GroupsInStep fastWriter (sub :: subs) ((⟨some sub.path, some .notSet⟩ :: us) :: groups)
        ((cStr (gnmiToXpath sub.path), .ok (some trees)) :: reads)

theorem endsInStep_buildSubsUpdate {encoding : Encoding}
    (hencoding : encoding = .JSON ∨ encoding = .JSON_IETF) (sub : Subscription)
    (updates : List Update) :
    (buildSubsUpdate fastWriter updates sub.path (gnmiToXpath sub.path) encoding).Ends AnyReply
      fun o evs => ∀ us, o = .ok us → ∃ new trees,
        us = updates ++ ⟨some sub.path, some .notSet⟩ :: new ∧
          reads evs = [(cStr (gnmiToXpath sub.path), .ok (some trees))] ∧
          Reports fastWriter sub.path ("", "") trees new := by
  refine (ends_unread (c := .refresh) fun _ => rfl).bind fun _ evs₁ h₁ => ?_
  have hread : (readUpdates fastWriter sub.path (gnmiToXpath sub.path)
      (updates ++ [⟨some sub.path, some .notSet⟩])).Ends AnyReply fun o evs₂ =>
        ∀ us, o = .ok us → ∃ new trees, us = updates ++ ⟨some sub.path, some .notSet⟩ :: new ∧
          reads (evs₁ ++ evs₂) = [(cStr (gnmiToXpath sub.path), .ok (some trees))] ∧
          Reports fastWriter sub.path ("", "") trees new := by
    intro evs₂ o hy hr us ho
    obtain ⟨new, trees, rfl, hreads, hnew⟩ := ends_readUpdates _ _ _ evs₂ o hy hr us ho
    exact ⟨new, trees, by simp, by rw [reads_append, h₁, hreads, List.nil_append], hnew⟩
  rcases hencoding with rfl | rfl <;> exact hread

/-- Induction on the subscriptions. -/
theorem endsInStep_subscriptionLoop {encoding : Encoding}
    (hencoding : encoding = .JSON ∨ encoding = .JSON_IETF) (subs : List Subscription)
    (updates : List Update) :
    (subscriptionLoop fastWriter encoding subs updates).Ends AnyReply fun o evs =>
      ∀ us, o = .ok us → ∃ groups, us = updates ++ groups.flatten ∧
        GroupsInStep fastWriter subs groups (reads evs) := by
  induction subs generalizing updates with
  | nil =>
      refine Throwing.ends_pure ?_
      rintro us ⟨⟩
      exact ⟨[], by simp, GroupsInStep.nil⟩
  | cons sub rest ih =>
      refine (endsInStep_buildSubsUpdate hencoding sub updates).bind ?_
      rintro (status | us) evs₁ h₁
      · exact Throwing.ends_pure (by simp)
      · obtain ⟨new, trees, rfl, hread, hnew⟩ := h₁ us rfl
        intro evs₂ o hy hr us' ho
        obtain ⟨groups, rfl, hstep⟩ := ih _ evs₂ o hy hr us' ho
        refine ⟨(⟨some sub.path, some .notSet⟩ :: new) :: groups, by simp, ?_⟩
        rw [reads_append, hread]
        exact GroupsInStep.cons hnew hstep

theorem GroupsInStep.length_eq {subs : List Subscription}
    {groups : List (List Update)} {rds : List (String × ReadReply)}
    (h : GroupsInStep fastWriter subs groups rds) : groups.length = subs.length := by
  induction h with
  | nil => rfl
  | cons _ _ ih => exact congrArg Nat.succ ih

/-- A list that is not refused has an encoding that is read. -/
theorem encoding_of_verifyList {request : SubscriptionList}
    (h : verifyList request = none) :
    request.encoding = .JSON ∨ request.encoding = .JSON_IETF := by
  rw [verifyList] at h
  split_ifs at h with henc
  by_cases hjson : request.encoding = .JSON
  · exact Or.inl hjson
  · exact Or.inr (by_contra fun hietf => henc ⟨hjson, hietf⟩)

/-- **What a build reads** is what it is built of. -/
theorem endsInStep_buildSubscribeNotification (request : SubscriptionList) :
    (buildSubscribeNotification fastWriter request).Ends AnyReply fun o evs =>
      ∀ n, o = .ok n → n.pfx = request.pfx ∧ ∃ groups, n.update = groups.flatten ∧
        GroupsInStep fastWriter request.subscription groups (reads evs) := by
  rw [buildSubscribeNotification]
  cases hverify : verifyList request with
  | some status => exact Throwing.ends_pure (by simp)
  | none =>
      refine (ends_unread (c := .getTimeNanosec) fun _ => rfl).bind fun timestamp evs₁ h₁ => ?_
      refine (endsInStep_subscriptionLoop (encoding_of_verifyList hverify) _ []).bind ?_
      rintro (status | us) evs₂ h₂
      · exact Throwing.ends_pure (by simp)
      · refine Throwing.ends_pure ?_
        rintro n ⟨⟩
        obtain ⟨groups, rfl, hstep⟩ := h₂ us rfl
        refine ⟨rfl, groups, by simp, ?_⟩
        rwa [List.append_nil, reads_append, h₁, List.nil_append]

/-- Each read is at the xpath of its subscription. -/
theorem GroupsInStep.xpaths {subs : List Subscription} {groups : List (List Update)}
    {rds : List (String × ReadReply)} (h : GroupsInStep fastWriter subs groups rds) :
    rds.map Prod.fst = subs.map fun sub => cStr (gnmiToXpath sub.path) := by
  induction h with
  | nil => rfl
  | cons _ _ ih => simp [ih]

end SubscribeRpc

end Build

/-! ### The updates of a subscription -/

section Snapshot

-- the trees a read may have been given for an xpath
variable (selected : String → List Tree → Prop) (fastWriter : Json → String)

/-- **The updates of one path**: they report the trees selected for an xpath. -/
def UpdatesOf (xpath : String) (path : Path) (us : List Update) : Prop :=
  ∃ trees, selected (cStr xpath) trees ∧ Reports fastWriter path ("", "") trees us

/-- **The updates of one subscription**: a first one with its path and a value in which
nothing is set, and those of the path, read at the path's own xpath. -/
def GroupOf (sub : Subscription) (us : List Update) : Prop :=
  ∃ new, us = ⟨some sub.path, some .notSet⟩ :: new ∧
    UpdatesOf selected fastWriter (gnmiToXpath sub.path) sub.path new

/-- **The notification of a list**: its prefix, and the updates of all its subscriptions. -/
def SnapshotOf (request : SubscriptionList) (n : Notification) : Prop :=
  n.pfx = request.pfx ∧ ∃ groups,
    List.Forall₂ (GroupOf selected fastWriter) request.subscription groups ∧
      n.update = groups.flatten

/-- The reads give selected trees. -/
def Selects (c : Call) (r : c.Reply) : Prop :=
  ∀ xpath trees, (⟨c, r⟩ : CallEvent) = ⟨.getSubtrees xpath, .ok (some trees)⟩ →
    selected xpath trees

variable {selected fastWriter}

/-- What was read was selected. -/
theorem selected_of_reads {evs : List CallEvent}
    (h : ∀ ev ∈ evs, Selects selected ev.1 ev.2) {xpath : String} {trees : List Tree}
    (hread : (xpath, .ok (some trees)) ∈ reads evs) : selected xpath trees :=
  h _ (mem_reads hread) xpath trees rfl

namespace SubscribeRpc

/-- Where the trees read were selected, the groups are those of the subscriptions. -/
theorem GroupsInStep.groupsOf {subs : List Subscription} {groups : List (List Update)}
    {rds : List (String × ReadReply)} (h : GroupsInStep fastWriter subs groups rds)
    (hsel : ∀ xpath trees, (xpath, .ok (some trees)) ∈ rds → selected xpath trees) :
    List.Forall₂ (GroupOf selected fastWriter) subs groups := by
  induction h with
  | nil => exact List.Forall₂.nil
  | cons hreports _ ih =>
      refine List.Forall₂.cons ⟨_, rfl, _, hsel _ _ List.mem_cons_self, hreports⟩ (ih ?_)
      exact fun xpath trees hread => hsel xpath trees (List.mem_cons_of_mem _ hread)

/-- **A notification that is built** is the one of its list, read at the xpath of every
subscription. -/
theorem ends_buildSubscribeNotification (request : SubscriptionList) :
    (buildSubscribeNotification fastWriter request).Ends (Selects selected) fun o evs =>
      ∀ n, o = .ok n → SnapshotOf selected fastWriter request n ∧
        xpathsRead evs = request.subscription.map fun sub => cStr (gnmiToXpath sub.path) := by
  rintro evs o hy hselects n ho
  obtain ⟨hpfx, groups, hupdate, hstep⟩ :=
    endsInStep_buildSubscribeNotification request evs o hy (fun _ _ => trivial) n ho
  refine ⟨⟨hpfx, groups, hstep.groupsOf fun _ _ => selected_of_reads hselects, hupdate⟩, ?_⟩
  rw [xpathsRead_eq, hstep.xpaths]

end SubscribeRpc

end Snapshot

/-! ### Builds that fail -/

/-- A part of a handler that only reads; a status it ends with is not OK. -/
abbrev Builds {α : Type} (x : Handler (Except Status α)) : Prop :=
  x.Keeps Reading (fun _ _ => True) fun o => ∀ status, o = .error status → status.code ≠ .OK

variable {fastWriter : Json → String}

/-- A read that ends with a status does so with another than OK. -/
theorem not_ok_of_readOutcome {path : Path} {us : List Update} {reply : ReadReply}
    {status : Status} (h : readOutcome fastWriter path us reply = .ok (.error status)) :
    status.code ≠ .OK := by
  rw [readOutcome] at h
  cases hread : jsonOutcome fastWriter reply with
  | error exc =>
      simp only [hread, readFailure] at h
      cases exc <;> simp [catchRead, Exn.isInvalidArgument, Exn.isSysrepoException] at h <;>
        simp [← h]
  | ok vec =>
      simp only [hread] at h
      cases hup : treeUpdates path vec us <;> simp [hup, Except.map] at h

theorem builds_readUpdates (path : Path) (fullpath : String) (updates : List Update) :
    Builds (readUpdates fastWriter path fullpath updates) := by
  refine (only_readUpdates path fullpath updates).keeps_of_ends ?_
  rintro evs o hy - status rfl
  obtain ⟨reply, -, ho⟩ := yields_readUpdates_iff.mp hy
  exact not_ok_of_readOutcome ho.symm

namespace SubscribeRpc

theorem builds_subscriptionLoop (encoding : Encoding) (subs : List Subscription)
    (updates : List Update) :
    Builds (subscriptionLoop fastWriter encoding subs updates) := by
  induction subs generalizing updates with
  | nil => exact Throwing.keeps_pure (by simp)
  | cons sub rest ih =>
      have hrefresh : refresh.Only Reading := Throwing.only_ask trivial
      have hsub : Builds (buildSubsUpdate fastWriter updates sub.path (gnmiToXpath sub.path)
          encoding) := by
        refine Throwing.Keeps.bind hrefresh fun _ _ => ?_
        cases encoding with
        | JSON | JSON_IETF => exact builds_readUpdates _ _ _
        | PROTO => exact Throwing.keeps_pure (by simp)
        | _ =>
            refine Throwing.keeps_pure ?_
            rintro status ⟨⟩
            simp
      refine hsub.bind ?_
      rintro (status | us) h
      · exact Throwing.keeps_pure (by simpa using h)
      · exact ih us

/-- **A build only reads**, and a build that fails does so with a status other than OK. -/
theorem builds_buildSubscribeNotification (request : SubscriptionList) :
    Builds (buildSubscribeNotification fastWriter request) := by
  rw [buildSubscribeNotification]
  cases hverify : verifyList request with
  | some status =>
      refine Throwing.keeps_pure ?_
      rintro status' ⟨⟩
      rw [verifyList] at hverify
      split_ifs at hverify <;> (obtain rfl := Option.some.inj hverify; simp)
  | none =>
      have htime : getTimeNanosec.Only Reading := Throwing.only_ask trivial
      refine Throwing.Keeps.bind htime fun t _ =>
        (builds_subscriptionLoop request.encoding request.subscription []).bind ?_
      rintro (status | us) h
      · exact Throwing.keeps_pure (by simpa using h)
      · exact Throwing.keeps_pure (by simp)

/-! ### Notifications that are written -/

/-- A notification is built for a list in the exchanges `evs`. -/
abbrev Built (fastWriter : Json → String) (request : SubscriptionList)
    (evs : List CallEvent) (n : Notification) : Prop :=
  Yields (buildSubscribeNotification fastWriter request).run evs (.ok (.ok n))

/-- **A build fails** in the exchanges `evs`, and the RPC ends with `r`: it is cancelled and
returns the status of the build, or an exception of the build escapes. -/
def FailedBuild (fastWriter : Json → String) (request : SubscriptionList)
    (evs : List CallEvent) (r : Except Exn Status) : Prop :=
  (∃ evs₀ status,
    Yields (buildSubscribeNotification fastWriter request).run evs₀ (.ok (.error status)) ∧
      evs = evs₀ ++ [⟨.tryCancel, ()⟩] ∧ r = .ok status) ∨
  (∃ exc, Yields (buildSubscribeNotification fastWriter request).run evs (.error exc) ∧
    r = .error exc)

variable {request : SubscriptionList} {evs : List CallEvent} {n : Notification}
  {r : Except Exn Status}

/-- The exchanges of a build are reads. -/
theorem reading_of_build {o : Except Exn (Except Status Notification)}
    (h : Yields (buildSubscribeNotification fastWriter request).run evs o) :
    ∀ ev ∈ evs, Reading ev.1 :=
  ((builds_buildSubscribeNotification request).yields h fun _ _ => trivial).1

/-- The notification of a list, whatever has been read. -/
theorem Built.snapshotOf (h : Built fastWriter request evs n) :
    SnapshotOf (fun _ _ => True) fastWriter request n :=
  (ends_buildSubscribeNotification request evs _ h
    (fun _ _ _ _ _ => trivial) n rfl).1

/-- What it was built of. -/
theorem Built.inStep (h : Built fastWriter request evs n) : n.pfx = request.pfx ∧
    ∃ groups, n.update = groups.flatten ∧
      GroupsInStep fastWriter request.subscription groups (reads evs) :=
  endsInStep_buildSubscribeNotification request evs _ h (fun _ _ => trivial) n rfl

theorem Built.written (h : Built fastWriter request evs n) : written evs = [] :=
  written_of_reading (reading_of_build h)

theorem FailedBuild.written (h : FailedBuild fastWriter request evs r) :
    written evs = [] := by
  rcases h with ⟨evs₀, status, hy, rfl, -⟩ | ⟨exc, hy, -⟩
  · rw [written_append, written_of_reading (reading_of_build hy)]
    rfl
  · exact written_of_reading (reading_of_build hy)

/-- **After a build that fails the RPC does not end OK.** -/
theorem FailedBuild.not_ok (h : FailedBuild fastWriter request evs r) {status : Status}
    (hr : r = .ok status) : status.code ≠ .OK := by
  rcases h with ⟨evs₀, status', hy, -, rfl⟩ | ⟨exc, -, rfl⟩
  · obtain rfl : status' = status := Except.ok.inj hr
    exact ((builds_buildSubscribeNotification request).yields hy fun _ _ => trivial).2
      _ rfl _ rfl
  · cases hr

/-- **What `notify` does before the rest of a handler**: either it writes the notification
it has built and the handler goes on, or the build fails and the handler ends. -/
theorem yields_notify {p : Handler Status}
    (h : Yields (notify fastWriter request >>= fun
      | some status => pure status
      | none => p).run evs r) :
    (∃ evs₀ n evs₁, Built fastWriter request evs₀ n ∧
        evs = evs₀ ++ ⟨.write (.update n), ()⟩ :: evs₁ ∧ Yields p.run evs₁ r) ∨
      FailedBuild fastWriter request evs r := by
  rw [notify, bind_assoc] at h
  rcases Throwing.yields_bind.mp h with ⟨evs₀, evs₁, o, rfl, h₀, h₁⟩ | ⟨exc, h₀, rfl⟩
  · cases o with
    | error status =>
        dsimp only at h₁
        rw [bind_assoc, tryCancel] at h₁
        obtain ⟨u, evs₂, rfl, h₂⟩ := Throwing.yields_ask_bind.mp h₁
        obtain ⟨rfl, rfl⟩ := Throwing.yields_pure.mp h₂
        exact Or.inr (Or.inl ⟨evs₀, status, h₀, rfl, rfl⟩)
    | ok n =>
        dsimp only at h₁
        rw [bind_assoc, write] at h₁
        obtain ⟨u, evs₂, rfl, h₂⟩ := Throwing.yields_ask_bind.mp h₁
        exact Or.inl ⟨evs₀, n, evs₂, h₀, rfl, h₂⟩
  · exact Or.inr (Or.inr ⟨exc, h₀, rfl⟩)

end SubscribeRpc

end SysrepoGnxi
