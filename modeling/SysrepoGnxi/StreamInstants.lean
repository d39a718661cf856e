import SysrepoGnxi.Instants
import SysrepoGnxi.StreamProtocol

/-!
# The Instants of a Notification

A notification that Subscribe writes is built of one read for each of its subscriptions, and
other RPCs may come between these. So it shows no datastore as a whole either, but the updates
of each subscription show one: that of the instant of its read (`stream_at_instants`).

The handler writes nothing but what it has just built (`SubscribeRpc.safe_run`): this is a
property of a written exchange and of those before it, and follows the operations of the
handler by the rules for `Safe`.
-/

open Dialogue JsonDoc

namespace SysrepoGnxi

variable {fastWriter : Json → String}

/-- A request for some of the subscriptions of a list. -/
structure SubList (list request : SubscriptionList) : Prop where
  pfx : request.pfx = list.pfx
  subset : request.subscription ⊆ list.subscription

/-- A notification is written right after it has been built, for some of the subscriptions. -/
def WrittenAsBuilt (fastWriter : Json → String) (list : SubscriptionList)
    (past : List CallEvent) (ev : CallEvent) : Prop :=
  ∀ n, ev = ⟨.write (.update n), ()⟩ → ∃ before build request, past = before ++ build ∧
    SubscribeRpc.Built fastWriter request build n ∧ SubList list request

namespace SubscribeRpc

variable {list request : SubscriptionList}

/-- The rest of a handler writes only what it has built, whatever came before. -/
def WritesAsBuilt (fastWriter : Json → String) (list : SubscriptionList) {α : Type}
    (x : Handler α) : Prop :=
  ∀ past, Dialogue.Safe (WrittenAsBuilt fastWriter list) x.run past

theorem writes_pure {α : Type} (a : α) : WritesAsBuilt fastWriter list (pure a) :=
  fun _ => Throwing.safe_pure a

/-- Calls other than writes. -/
theorem writes_only {α : Type} {x : Handler α} {calls : Call → Prop} (hx : x.Only calls)
    (hcalls : ∀ response, ¬ calls (.write response)) : WritesAsBuilt fastWriter list x := by
  intro past
  refine hx.safe ?_
  rintro past c r hc n ⟨⟩
  exact absurd hc (hcalls _)

theorem WritesAsBuilt.bind {α β : Type} {x : Handler α} {f : α → Handler β}
    (hx : WritesAsBuilt fastWriter list x)
    (hf : ∀ evs a, Yields x.run evs (.ok a) → WritesAsBuilt fastWriter list (f a)) :
    WritesAsBuilt fastWriter list (x >>= f) :=
  fun past => Throwing.safe_bind (hx past) fun evs a hy => hf evs a hy (past ++ evs)

theorem writes_now : WritesAsBuilt fastWriter list now := by
  have honly : now.Only Looking := Throwing.only_ask trivial
  exact writes_only honly fun _ => id

theorem writes_tryCancel : WritesAsBuilt fastWriter list tryCancel := by
  have honly : tryCancel.Only (· = .tryCancel) := Throwing.only_ask rfl
  exact writes_only honly (by simp)

theorem writes_sync : WritesAsBuilt fastWriter list (write (.syncResponse true)) := by
  intro past
  refine Throwing.safe_ask ?_
  rintro r n ⟨⟩

/-- **`notify` and the rest of a handler**: what is written has been built in the exchanges
right before. -/
theorem writes_notify (hrequest : SubList list request) {p : Handler Status}
    (hp : WritesAsBuilt fastWriter list p) :
    WritesAsBuilt fastWriter list (notify fastWriter request >>= fun
      | some status => pure status
      | none => p) := by
  intro past
  have hbuild : WritesAsBuilt fastWriter list (buildSubscribeNotification fastWriter request) := by
    have hkeeps : Builds (buildSubscribeNotification fastWriter request) :=
      builds_buildSubscribeNotification request
    exact writes_only (hkeeps.mono fun _ _ => trivial) fun _ => id
  rw [notify, bind_assoc]
  refine Throwing.safe_bind (hbuild past) ?_
  rintro evs (status | n) hy
  · dsimp only
    rw [bind_assoc]
    exact writes_tryCancel.bind (fun _ _ _ => writes_pure status) _
  · dsimp only
    rw [bind_assoc]
    refine Throwing.safe_bind (Throwing.safe_ask ?_) fun evs₁ _ _ => hp _
    rintro r n' ⟨⟩
    exact ⟨past, evs, request, rfl, hy, hrequest⟩

/-- The sampled subscriptions are subscriptions of the list. -/
theorem sampled_startSamples (subs : List Subscription) :
    (startSamples subs).Keeps Looking (fun _ _ => True) fun chronomap =>
      chronomap.map Prod.fst ⊆ subs := by
  have hnow : now.Only Looking := Throwing.only_ask trivial
  induction subs with
  | nil => exact Throwing.keeps_pure (List.Subset.refl _)
  | cons sub rest ih =>
      have hrest : (startSamples rest).Keeps Looking (fun _ _ => True) fun chronomap =>
          chronomap.map Prod.fst ⊆ sub :: rest :=
        ih.mono fun _ h => List.subset_cons_of_subset _ h
      rw [startSamples]
      cases sub.mode with
      | SAMPLE =>
          refine Throwing.Keeps.bind hnow fun t _ => ih.bind fun chronomap hsub => ?_
          exact Throwing.keeps_pure (List.cons_subset_cons _ hsub)
      | _ => exact hrest

/-- So are the due ones, and those sampled go on. -/
theorem sampled_dueSamples (chronomap : List (Subscription × TimePoint)) :
    (dueSamples chronomap).Keeps Looking (fun _ _ => True) fun result =>
      result.1.map Prod.fst ⊆ chronomap.map Prod.fst ∧ result.2 ⊆ chronomap.map Prod.fst := by
  have hnow : now.Only Looking := Throwing.only_ask trivial
  induction chronomap with
  | nil => exact Throwing.keeps_pure ⟨List.Subset.refl _, List.Subset.refl _⟩
  | cons entry rest ih =>
      obtain ⟨sub, last⟩ := entry
      refine Throwing.Keeps.bind hnow fun t _ => ?_
      split_ifs
      · refine Throwing.Keeps.bind hnow fun renewed _ => ih.bind ?_
        rintro ⟨chronomap', due⟩ ⟨hmap, hdue⟩
        exact Throwing.keeps_pure
          ⟨List.cons_subset_cons _ hmap, List.cons_subset_cons _ hdue⟩
      · refine ih.bind ?_
        rintro ⟨chronomap', due⟩ ⟨hmap, hdue⟩
        exact Throwing.keeps_pure
          ⟨List.cons_subset_cons _ hmap, List.subset_cons_of_subset _ hdue⟩

/-- A part that only looks, and what it promises. -/
theorem WritesAsBuilt.look {α β : Type} {promise : α → Prop} {x : Handler α} {f : α → Handler β}
    (hx : x.Keeps Looking (fun _ _ => True) promise)
    (hf : ∀ a, promise a → WritesAsBuilt fastWriter list (f a)) :
    WritesAsBuilt fastWriter list (x >>= f) :=
  (writes_only (hx.mono fun _ _ => trivial) fun _ => id).bind fun _ a hy =>
    hf a ((hx.yields hy fun _ _ => trivial).2 a rfl)

/-- Induction on the cycles: the due subscriptions of each are among those of the list. -/
theorem writes_sampleLoop (cycles : ℕ) (chronomap : List (Subscription × TimePoint))
    (hsub : chronomap.map Prod.fst ⊆ list.subscription) :
    WritesAsBuilt fastWriter list (sampleLoop fastWriter list cycles chronomap) := by
  induction cycles generalizing chronomap with
  | zero => exact writes_pure _
  | succ cycles ih =>
      refine writes_now.bind fun _ _ _ => ?_
      refine WritesAsBuilt.look (sampled_dueSamples chronomap) ?_
      rintro ⟨chronomap', due⟩ ⟨hmap, hdue⟩
      have hrest : WritesAsBuilt fastWriter list
          (now >>= fun _ => sampleLoop fastWriter list cycles chronomap') :=
        writes_now.bind fun _ _ _ => ih chronomap' (List.Subset.trans hmap hsub)
      dsimp only
      rw [notifyDue]
      split_ifs
      · have hrequest : SubList list { list with subscription := due } :=
          ⟨rfl, List.Subset.trans hdue hsub⟩
        exact writes_notify hrequest hrest
      · exact hrest

theorem writes_handleStream (cycles : ℕ) :
    WritesAsBuilt fastWriter list (handleStream fastWriter list cycles) := by
  rw [handleStream]
  split_ifs
  · exact writes_tryCancel.bind fun _ _ _ => writes_pure _
  · refine writes_notify ⟨rfl, List.Subset.refl _⟩ (writes_sync.bind fun _ _ _ => ?_)
    exact WritesAsBuilt.look (sampled_startSamples _) fun chronomap hsub =>
      writes_sampleLoop cycles chronomap hsub

theorem writes_handlePoll (messages : List SubscribeRequest) :
    WritesAsBuilt fastWriter list (handlePoll fastWriter list messages) := by
  induction messages with
  | nil => exact writes_pure _
  | cons request rest ih =>
      rw [handlePoll]
      cases request.request with
      | poll => exact writes_notify ⟨rfl, List.Subset.refl _⟩ ih
      | _ => exact writes_pure _

/-- **Subscribe writes only what it has just built**, of the list of its first message. -/
theorem writes_run {messages : List SubscribeRequest} (cycles : ℕ)
    (hlist : (messages.headD {}).request = .subscribe list) :
    WritesAsBuilt fastWriter list (run fastWriter messages cycles) := by
  rw [run]
  split_ifs
  · exact writes_pure _
  · rw [hlist]
    dsimp only
    cases list.mode with
    | STREAM => exact writes_handleStream cycles
    | ONCE =>
        exact writes_notify ⟨rfl, List.Subset.refl _⟩ (writes_sync.bind fun _ _ _ => writes_pure _)
    | POLL => exact writes_handlePoll _
    | other n => exact writes_pure _

end SubscribeRpc

/-! ### The instants of a notification -/

variable {D : Type}

/-- A group of updates shows a subscription in a datastore. -/
def ShownIn (sr : Sysrepo D) (fastWriter : Json → String) (d : D)
    (group : Subscription × List Update) : Prop :=
  GroupOf (fun xpath trees => sr.subtrees xpath d = some trees) fastWriter group.1 group.2

/-- Where the reads are answered at instants, so are the groups. -/
theorem SubscribeRpc.GroupsInStep.atInstants {sr : Sysrepo D} {d : D} {subs : List Subscription}
    {groups : List (List Update)} {rds : List (String × ReadReply)} {log : List CallEvent}
    (h : GroupsInStep fastWriter subs groups rds)
    (hreads : AtInstants log (AnswersAt sr d) rds) :
    AtInstants log (fun group evs => ShownIn sr fastWriter
      (sr.applyAll (acceptedEdits evs) d) group) (subs.zip groups) := by
  refine hreads.mono ?_
  clear hreads
  induction h with
  | nil => exact List.Forall₂.nil
  | cons hreports _ ih =>
      refine List.Forall₂.cons (fun evs hans => ?_) ih
      exact ⟨_, rfl, _, (hans _ rfl).symm, hreports⟩

/-- The exchanges of one program, cut in two, are those of two parts of the log. -/
theorem own_split {i : ℕ} {log : List (ℕ × CallEvent)} {evs₁ evs₂ : List CallEvent}
    (h : own i log = evs₁ ++ evs₂) :
    ∃ log₁ log₂, log = log₁ ++ log₂ ∧ own i log₁ = evs₁ ∧ own i log₂ = evs₂ := by
  obtain ⟨l₁, l₂, hfilter, hl₁, hl₂⟩ := List.map_eq_append_iff.mp h
  obtain ⟨log₁, log₂, rfl, h₁, h₂⟩ := List.filter_eq_append_iff.mp hfilter
  exact ⟨log₁, log₂, rfl, by rw [own, h₁, hl₁], by rw [own, h₂, hl₂]⟩

/-- Where a Subscribe RPC has written a notification, it had built it right before. -/
theorem writtenAsBuilt_of_log {env : Env D} {d : D} {rpcs : ℕ → Rpc} {sched : List ℕ} {i : ℕ}
    {messages : List SubscribeRequest} {cycles : ℕ} {list : SubscriptionList}
    {before after : List (ℕ × CallEvent)} {n : Notification}
    (hrpc : rpcs i = .subscribe messages cycles)
    (hlist : (messages.headD {}).request = .subscribe list)
    (hlog : (Service.runs env fastWriter d rpcs sched).log =
      before ++ (i, ⟨.write (.update n), ()⟩) :: after) :
    ∃ evs build request, own i before = evs ++ build ∧
      SubscribeRpc.Built fastWriter request build n ∧ SubList list request := by
  have hsteps := Pool.steps (serve env) (fun i => ((rpcs i).handler fastWriter).run)
    (World.start d) sched i
  have hown : own i (Service.runs env fastWriter d rpcs sched).log =
      own i before ++ ⟨.write (.update n), ()⟩ :: own i after := by
    rw [hlog, own_append, own_cons_self]
  rw [show own i (Pool.runs (serve env) (Pool.start (fun i => ((rpcs i).handler fastWriter).run)
    (World.start d)) sched).log = _ from hown, hrpc] at hsteps
  have hsafe : SubscribeRpc.WritesAsBuilt fastWriter list
      ((Rpc.subscribe messages cycles).handler fastWriter) :=
    (SubscribeRpc.writes_run cycles hlist).bind fun _ _ _ => SubscribeRpc.writes_pure _
  exact (hsafe []).steps hsteps n rfl

/-- **A notification of Subscribe shows its subscriptions as they are**: it is for some of the
subscriptions of the list, with a group of updates for each. Each group shows the datastore of
an instant, with all edits accepted until then. The instants are in the order of the
subscriptions, and none is older than what the stream has written before. -/
def StreamAtInstants (env : Env D) (fastWriter : Json → String) (d : D) (rpcs : ℕ → Rpc)
    (sched : List ℕ) : Prop :=
  ∀ i messages cycles list before after n, rpcs i = .subscribe messages cycles →
    (messages.headD {}).request = .subscribe list →
    (Service.runs env fastWriter d rpcs sched).log =
      before ++ (i, ⟨.write (.update n), ()⟩) :: after →
    n.pfx = list.pfx ∧ ∃ subs groups past recent, subs ⊆ list.subscription ∧
      n.update = groups.flatten ∧ groups.length = subs.length ∧ before = past ++ recent ∧
      written (own i recent) = [] ∧
      AtInstants (recent.map Prod.snd) (fun group evs => ShownIn env.sysrepo fastWriter
        (env.sysrepo.applyAll (acceptedEdits (past.map Prod.snd ++ evs)) d) group)
        (subs.zip groups)

theorem stream_at_instants (env : Env D) (fastWriter : Json → String) (d : D) (rpcs : ℕ → Rpc)
    (sched : List ℕ) : StreamAtInstants env fastWriter d rpcs sched := by
  intro i messages cycles list before after n hrpc hlist hlog
  obtain ⟨evs, build, request, hbefore, hbuilt, hsub⟩ := writtenAsBuilt_of_log hrpc hlist hlog
  obtain ⟨past, recent, rfl, -, hrecent⟩ := own_split hbefore
  obtain ⟨hpfx, groups, hupdate, hstep⟩ := hbuilt.inStep
  have hreads : AtInstants (recent.map Prod.snd)
      (AnswersAt env.sysrepo (env.sysrepo.applyAll (acceptedEdits (past.map Prod.snd)) d))
      (reads build) := by
    rw [← hrecent]
    refine reads_at_instants ?_ i
    intro evs₁ evs₂ xpath reply heq
    have hreply := (history_of_answers (answers_log env fastWriter d rpcs sched).1).reads
      (past.map Prod.snd ++ evs₁) (evs₂ ++ ⟨.write (.update n), ()⟩ :: after.map Prod.snd)
      xpath reply (by rw [hlog]; simp [heq])
    rwa [acceptedEdits_append, Sysrepo.applyAll_append] at hreply
  have hinstants := hstep.atInstants hreads
  refine ⟨hpfx.trans hsub.pfx, request.subscription, groups, past, recent, hsub.subset, hupdate,
    hstep.length_eq, rfl, ?_, ?_⟩
  · rw [hrecent]
    exact hbuilt.written
  · simp only [acceptedEdits_append, Sysrepo.applyAll_append]
    exact hinstants

end SysrepoGnxi
