import SysrepoGnxi.Lib.Protocol
import SysrepoGnxi.Reads

/-!
# The Protocol of a Subscribe Stream

A client of Subscribe relies on the order of what comes over the stream: in the STREAM mode a
first notification, the sync response and then notifications, in the ONCE mode the first two
alone, in the POLL mode notifications alone. And a cancelled RPC sends nothing more.

`streamProtocol` is the automaton of a stream, and `SubscribeRpc.obeys_run` says that the
handler keeps to it, whatever sysrepo and the client do. `stream_conforms` is what this means
for every Subscribe among the RPCs of the service, at every point of every schedule.
-/

open Dialogue JsonDoc

namespace SysrepoGnxi

/-! ### What a stream may look like -/

/-- The mode a Subscribe is served in: that of the list in its first message, if that has one
and no extensions. -/
def subscriptionMode (messages : List SubscribeRequest) : Option ListMode :=
  let request := messages.headD {}
  if request.extensionSize > 0 then none
  else
    match request.request with
    | .subscribe list => some list.mode
    | _ => none

/-- The responses that may have come over the stream in a mode, at any time. -/
def ResponsesOf (mode : Option ListMode) (responses : List SubscribeResponse) : Prop :=
  match mode with
  | some .STREAM => ∃ (n : Notification) (ns : List Notification),
      responses <+: .update n :: .syncResponse true :: ns.map .update
  | some .ONCE => ∃ n, responses <+: [.update n, .syncResponse true]
  | some .POLL => ∃ ns : List Notification, responses = ns.map .update
  | _ => responses = []

/-- The exchange that cancels the RPC. -/
def cancelled : CallEvent := ⟨.tryCancel, ()⟩

/-- **A stream so far**: its responses are those of the mode, nothing follows a cancellation,
and no exchange stages an edit or commits. -/
structure StreamSession (mode : Option ListMode) (evs : List CallEvent) : Prop where
  responses : ResponsesOf mode (written evs)
  silent : ∀ evs₁ evs₂, evs = evs₁ ++ cancelled :: evs₂ → evs₂ = []
  reads : ∀ ev ∈ evs, ¬ Staging ev.1 ∧ ev.1 ≠ .commit

/-- **A stream that has ended**: an OK or an exception goes without a cancellation; in the
STREAM and the ONCE mode every other status goes with one. -/
def StreamEnd (mode : Option ListMode) (evs : List CallEvent) : Except Exn Answer → Prop
  | .ok (.subscribe status) =>
      (cancelled ∈ evs → status.code ≠ .OK) ∧
        (mode = some .STREAM ∨ mode = some .ONCE → status.code ≠ .OK → cancelled ∈ evs)
  | .ok _ => False
  | .error _ => cancelled ∉ evs

/-! ### The automaton -/

/-- How far a stream has come. -/
inductive Phase where
  | opening
  | updated
  | synced
  | cancelled
deriving DecidableEq

namespace Phase

/-- The phase after a notification, where one may come. -/
def afterUpdate (mode : Option ListMode) : Phase → Option Phase
  | opening =>
      match mode with
      | some .STREAM => some updated
      | some .ONCE => some updated
      | some .POLL => some opening
      | _ => none
  | synced => if mode = some .STREAM then some synced else none
  | _ => none

/-- The handler may read, look at a clock or cancel. -/
def idle : Phase → Bool
  | opening => true
  | synced => true
  | _ => false

end Phase

/-- The protocol of a stream in a mode. -/
def streamProtocol (mode : Option ListMode) : Protocol Call Call.Reply Phase := fun q ev =>
  match ev.1 with
  | .write (.update _) => q.afterUpdate mode
  | .write (.syncResponse b) => if q = .updated ∧ b then some .synced else none
  | .tryCancel => if q.idle then some .cancelled else none
  | .refresh => if q.idle then some q else none
  | .getTimeNanosec => if q.idle then some q else none
  | .getSubtrees _ => if q.idle then some q else none
  | .now => if q.idle then some q else none
  | _ => none

/-- A call that reads, or looks at a clock. -/
def Looking : Call → Prop
  | .now => True
  | c => Reading c

/-- **What the protocol allows**: a notification or the sync response where it may come, a
cancellation or a look while the stream is idle. -/
theorem streamProtocol_cases {mode : Option ListMode} {q q' : Phase} {ev : CallEvent}
    (h : streamProtocol mode q ev = some q') :
    (∃ n, ev = ⟨.write (.update n), ()⟩ ∧ q.afterUpdate mode = some q') ∨
      (ev = ⟨.write (.syncResponse true), ()⟩ ∧ q = .updated ∧ q' = .synced) ∨
      (ev = cancelled ∧ q.idle ∧ q' = .cancelled) ∨
      (Looking ev.1 ∧ q.idle ∧ q' = q) := by
  obtain ⟨c, r⟩ := ev
  cases c with
  | write response =>
      cases response with
      | update n => exact Or.inl ⟨n, rfl, h⟩
      | syncResponse b =>
          simp only [streamProtocol] at h
          split_ifs at h with hsync
          obtain ⟨rfl, rfl⟩ := hsync
          exact Or.inr (Or.inl ⟨rfl, rfl, (Option.some.inj h).symm⟩)
  | tryCancel =>
      simp only [streamProtocol] at h
      split_ifs at h with hidle
      exact Or.inr (Or.inr (Or.inl ⟨rfl, hidle, (Option.some.inj h).symm⟩))
  | refresh | getTimeNanosec | getSubtrees | now =>
      simp only [streamProtocol] at h
      split_ifs at h with hidle
      exact Or.inr (Or.inr (Or.inr ⟨trivial, hidle, (Option.some.inj h).symm⟩))
  | _ => cases h

/-- A look in an idle phase is allowed and changes nothing. -/
theorem streamProtocol_looking (mode : Option ListMode) {q : Phase} (hq : q.idle) (c : Call)
    (r : c.Reply) (hc : Looking c) : streamProtocol mode q ⟨c, r⟩ = some q := by
  cases c <;> first | exact if_pos hq | exact hc.elim

theorem ne_cancelled_of_idle {q : Phase} (h : q.idle) : q ≠ .cancelled := by
  rintro rfl
  cases h

theorem idle_of_afterUpdate {mode : Option ListMode} {q q' : Phase}
    (h : q.afterUpdate mode = some q') : q.idle ∧ q' ≠ .cancelled := by
  cases q with
  | opening =>
      match mode, h with
      | some .STREAM, h | some .ONCE, h | some .POLL, h =>
          obtain rfl := Option.some.inj h
          exact ⟨rfl, by simp⟩
  | synced =>
      rw [Phase.afterUpdate] at h
      split_ifs at h
      obtain rfl := Option.some.inj h
      exact ⟨rfl, by simp⟩
  | updated | cancelled => cases h

/-- The responses that lead to a phase. -/
def Phase.Shows (mode : Option ListMode) : Phase → List SubscribeResponse → Prop
  | .opening, responses =>
      if mode = some .POLL then ∃ ns : List Notification, responses = ns.map .update
      else responses = []
  | .updated, responses =>
      (mode = some .STREAM ∨ mode = some .ONCE) ∧ ∃ n, responses = [.update n]
  | .synced, responses =>
      (mode = some .STREAM ∨ mode = some .ONCE) ∧ ∃ (n : Notification) (ns : List Notification),
        responses = .update n :: .syncResponse true :: ns.map .update ∧
          (mode = some .ONCE → ns = [])
  | .cancelled, responses => ResponsesOf mode responses

/-- In every phase the responses are those of the mode. -/
theorem Phase.Shows.responsesOf {mode : Option ListMode} {q : Phase}
    {responses : List SubscribeResponse} (h : q.Shows mode responses) :
    ResponsesOf mode responses := by
  cases q with
  | opening =>
      rw [Phase.Shows] at h
      split_ifs at h with hpoll
      · subst hpoll
        exact h
      · subst h
        match mode with
        | some .STREAM => exact ⟨{}, [], List.nil_prefix⟩
        | some .ONCE => exact ⟨{}, List.nil_prefix⟩
        | some .POLL => exact absurd rfl hpoll
        | some (.other _) | none => rfl
  | updated =>
      obtain ⟨rfl | rfl, n, rfl⟩ := h
      · exact ⟨n, [], [.syncResponse true], rfl⟩
      · exact ⟨n, [.syncResponse true], rfl⟩
  | synced =>
      obtain ⟨rfl | rfl, n, ns, rfl, hns⟩ := h
      · exact ⟨n, ns, List.prefix_rfl⟩
      · obtain rfl := hns rfl
        exact ⟨n, List.prefix_rfl⟩
  | cancelled => exact h

/-- A notification leads from the responses of a phase to those of the next. -/
theorem shows_afterUpdate {mode : Option ListMode} {q q' : Phase} (n : Notification)
    {responses : List SubscribeResponse} (h : q.Shows mode responses)
    (hq : q.afterUpdate mode = some q') : q'.Shows mode (responses ++ [.update n]) := by
  cases q with
  | opening =>
      match mode, hq with
      | some .STREAM, hq | some .ONCE, hq =>
          obtain rfl := Option.some.inj hq
          obtain rfl : responses = [] := h
          exact ⟨by simp, n, rfl⟩
      | some .POLL, hq =>
          obtain rfl := Option.some.inj hq
          obtain ⟨ns, rfl⟩ : ∃ ns : List Notification, responses = ns.map .update := h
          exact ⟨ns ++ [n], by simp⟩
  | synced =>
      obtain ⟨-, n₀, ns, rfl, -⟩ := h
      rw [Phase.afterUpdate] at hq
      split_ifs at hq with hstream
      obtain rfl := Option.some.inj hq
      exact ⟨Or.inl hstream, n₀, ns ++ [n], by simp, by simp [hstream]⟩
  | updated | cancelled => cases hq

/-- What one allowed exchange adds to the responses. -/
theorem shows_of_step {mode : Option ListMode} {q q' : Phase} {ev : CallEvent}
    {responses : List SubscribeResponse} (h : q.Shows mode responses)
    (hstep : streamProtocol mode q ev = some q') :
    q'.Shows mode (responses ++ (writtenOf ev).toList) := by
  rcases streamProtocol_cases hstep with ⟨n, rfl, hq⟩ | ⟨rfl, rfl, rfl⟩ | ⟨rfl, -, rfl⟩ |
    ⟨hlook, -, rfl⟩
  · exact shows_afterUpdate n h hq
  · obtain ⟨hmode, n, rfl⟩ := h
    exact ⟨hmode, n, [], rfl, fun _ => rfl⟩
  · have hnone : responses ++ (writtenOf cancelled).toList = responses := List.append_nil _
    rw [hnone]
    exact h.responsesOf
  · have hnone : writtenOf ev = none := by
      obtain ⟨c, r⟩ := ev
      cases c <;> first | rfl | exact hlook.elim
    rw [hnone, Option.toList_none, List.append_nil]
    exact h

/-- The stream is cancelled by the cancellation alone, and allows nothing afterwards. -/
theorem cancelled_of_step {mode : Option ListMode} {q q' : Phase} {ev : CallEvent}
    (hstep : streamProtocol mode q ev = some q') :
    q ≠ .cancelled ∧ (q' = .cancelled ↔ ev = cancelled) := by
  rcases streamProtocol_cases hstep with ⟨n, rfl, hq⟩ | ⟨rfl, rfl, rfl⟩ | ⟨rfl, hq, rfl⟩ |
    ⟨hlook, hq, rfl⟩
  · obtain ⟨hidle, hne⟩ := idle_of_afterUpdate hq
    exact ⟨ne_cancelled_of_idle hidle, fun h => absurd h hne, by rintro ⟨⟩⟩
  · exact ⟨by simp, by simp, by rintro ⟨⟩⟩
  · exact ⟨ne_cancelled_of_idle hq, fun _ => rfl, fun _ => rfl⟩
  · refine ⟨ne_cancelled_of_idle hq, fun h => absurd h (ne_cancelled_of_idle hq), ?_⟩
    rintro rfl
    exact hlook.elim

/-- No allowed exchange edits. -/
theorem reads_of_step {mode : Option ListMode} {q q' : Phase} {ev : CallEvent}
    (hstep : streamProtocol mode q ev = some q') : ¬ Staging ev.1 ∧ ev.1 ≠ .commit := by
  rcases streamProtocol_cases hstep with ⟨n, rfl, -⟩ | ⟨rfl, -, -⟩ | ⟨rfl, -, -⟩ | ⟨hlook, -, -⟩
  · exact ⟨id, by rintro ⟨⟩⟩
  · exact ⟨id, by rintro ⟨⟩⟩
  · exact ⟨id, by rintro ⟨⟩⟩
  · obtain ⟨c, r⟩ := ev
    cases c with
    | refresh | getTimeNanosec | getSubtrees | now => exact ⟨id, by rintro ⟨⟩⟩
    | _ => exact hlook.elim

/-- **What the automaton says of a stream.** -/
theorem streamSession_of_advance {mode : Option ListMode} {q : Phase} {evs : List CallEvent}
    (h : (streamProtocol mode).advance .opening evs = some q) :
    StreamSession mode evs ∧ (cancelled ∈ evs ↔ q = .cancelled) := by
  have hshows : q.Shows mode (written evs) := by
    refine Protocol.advance_induction (I := fun q evs => q.Shows mode (written evs)) ?_ ?_ h
    · change if _ then _ else _
      split_ifs
      · exact ⟨[], rfl⟩
      · rfl
    · intro q evs ev q' hq hstep
      have hlast : written (evs ++ [ev]) = written evs ++ (writtenOf ev).toList := by
        rw [written_append]
        cases hev : writtenOf ev <;> simp [written, hev]
      rw [hlast]
      exact shows_of_step hq hstep
  have hcancel : (cancelled ∈ evs ↔ q = .cancelled) ∧
      ∀ evs₁ evs₂, evs = evs₁ ++ cancelled :: evs₂ → evs₂ = [] := by
    refine Protocol.advance_induction (I := fun q evs => (cancelled ∈ evs ↔ q = .cancelled) ∧
      ∀ evs₁ evs₂, evs = evs₁ ++ cancelled :: evs₂ → evs₂ = []) ?_ ?_ h
    · exact ⟨by simp, by simp⟩
    · rintro q evs ev q' ⟨hmem, -⟩ hstep
      obtain ⟨hq, hq'⟩ := cancelled_of_step hstep
      have hnot : cancelled ∉ evs := fun hc => hq (hmem.mp hc)
      refine ⟨?_, ?_⟩
      · rw [List.mem_append, List.mem_singleton, hq', eq_comm (a := cancelled)]
        exact or_iff_right hnot
      · intro evs₁ evs₂ heq
        rcases List.eq_nil_or_concat evs₂ with rfl | ⟨evs₃, ev', rfl⟩
        · rfl
        · rw [List.concat_eq_append, ← List.cons_append, ← List.append_assoc] at heq
          obtain ⟨rfl, -⟩ := List.append_inj' heq rfl
          exact absurd (by simp) hnot
  have hreads : ∀ ev ∈ evs, ¬ Staging ev.1 ∧ ev.1 ≠ .commit := by
    refine Protocol.advance_induction
      (I := fun _ evs => ∀ ev ∈ evs, ¬ Staging ev.1 ∧ ev.1 ≠ .commit) (by simp) ?_ h
    intro q evs ev q' hall hstep ev' hev'
    rcases List.mem_append.mp hev' with hev' | hev'
    · exact hall ev' hev'
    · rw [List.mem_singleton.mp hev']
      exact reads_of_step hstep
  exact ⟨⟨hshows.responsesOf, hcancel.2, hreads⟩, hcancel.1⟩

/-! ### The handler keeps to it -/

/-- How a stream may end in a phase. -/
def Closing (mode : Option ListMode) : Except Exn Status → Phase → Prop
  | .ok status, q =>
      (q = .cancelled → status.code ≠ .OK) ∧
        (mode = some .STREAM ∨ mode = some .ONCE → status.code ≠ .OK → q = .cancelled)
  | .error _, q => q ≠ .cancelled

theorem closing_ok {mode : Option ListMode} {q : Phase} (hq : q ≠ .cancelled) :
    Closing mode (.ok .OK) q :=
  ⟨fun h => absurd h hq, fun _ h => absurd rfl h⟩

theorem closing_cancelled {mode : Option ListMode} {status : Status} (h : status.code ≠ .OK) :
    Closing mode (.ok status) .cancelled :=
  ⟨fun _ => h, fun _ _ => rfl⟩

/-- A refusal without a cancellation, in the other modes. -/
theorem closing_refused {mode : Option ListMode} {q : Phase} (hq : q ≠ .cancelled)
    (hmode : ¬ (mode = some .STREAM ∨ mode = some .ONCE)) (status : Status) :
    Closing mode (.ok status) q :=
  ⟨fun h => absurd h hq, fun h => absurd h hmode⟩

namespace SubscribeRpc

variable {fastWriter : Json → String} {mode : Option ListMode} {q q₁ : Phase}

/-- **`notify` and the rest of a handler**: the rest starts in the phase after a
notification. -/
theorem obeys_notify (hq : q.afterUpdate mode = some q₁) (request : SubscriptionList)
    {p : Handler Status} (hp : p.Obeys (streamProtocol mode) q₁ (Closing mode)) :
    (notify fastWriter request >>= fun
      | some status => pure status
      | none => p).Obeys (streamProtocol mode) q (Closing mode) := by
  obtain ⟨hidle, -⟩ := idle_of_afterUpdate hq
  have hbuild : Builds (buildSubscribeNotification fastWriter request) :=
    builds_buildSubscribeNotification request
  have hstays := hbuild.stays fun c r hc =>
    streamProtocol_looking mode hidle c r (by cases c <;> trivial)
  rw [notify, bind_assoc]
  refine hstays.bind ?_ ?_
  · rintro (status | n) q' ⟨rfl, hstatus⟩
    · have hcode : status.code ≠ .OK := hstatus _ rfl status rfl
      dsimp only
      rw [bind_assoc]
      refine Throwing.Obeys.bind (m := fun r q' => r = .ok () ∧ q' = .cancelled)
        (Throwing.obeys_ask fun _ => ⟨.cancelled, if_pos hidle, rfl, rfl⟩) ?_ ?_
      · rintro u q' ⟨-, rfl⟩
        exact Throwing.obeys_pure (closing_cancelled hcode)
      · rintro e q' ⟨⟨⟩, -⟩
    · dsimp only
      rw [bind_assoc]
      refine Throwing.Obeys.bind (m := fun r q' => r = .ok () ∧ q' = q₁)
        (Throwing.obeys_ask fun _ => ⟨q₁, hq, rfl, rfl⟩) ?_ ?_
      · rintro u q' ⟨-, rfl⟩
        exact hp
      · rintro e q' ⟨⟨⟩, -⟩
  · rintro e q' ⟨rfl, -⟩
    exact ne_cancelled_of_idle hidle

/-- A look at the clock and the rest of a handler. -/
theorem obeys_now {α : Type} {post : Except Exn α → Phase → Prop} (hidle : q.idle)
    {f : TimePoint → Handler α} (hf : ∀ t, (f t).Obeys (streamProtocol mode) q post) :
    (now >>= f).Obeys (streamProtocol mode) q post := by
  refine Throwing.Obeys.bind (m := fun r q' => (∃ t, r = .ok t) ∧ q' = q)
    (Throwing.obeys_ask fun t => ⟨q, if_pos hidle, ⟨t, rfl⟩, rfl⟩) ?_ ?_
  · rintro t q' ⟨-, rfl⟩
    exact hf t
  · rintro e q' ⟨⟨t, ⟨⟩⟩, -⟩

theorem only_startSamples (subs : List Subscription) : (startSamples subs).Only Looking := by
  induction subs with
  | nil => exact Throwing.only_pure _
  | cons sub rest ih =>
      rw [startSamples]
      cases sub.mode with
      | SAMPLE =>
          exact (Throwing.only_ask trivial).bind fun _ => ih.bind fun _ => Throwing.only_pure _
      | _ => exact ih

theorem only_dueSamples (chronomap : List (Subscription × TimePoint)) :
    (dueSamples chronomap).Only Looking := by
  have hnow : now.Only Looking := Throwing.only_ask trivial
  induction chronomap with
  | nil => exact Throwing.only_pure _
  | cons entry rest ih =>
      obtain ⟨sub, last⟩ := entry
      refine hnow.bind fun t => ?_
      split_ifs
      · exact hnow.bind fun _ => ih.bind fun _ => Throwing.only_pure _
      · exact ih.bind fun _ => Throwing.only_pure _

/-- **The sample loop**: induction on its cycles, each of which starts where the last one has
ended. -/
theorem obeys_sampleLoop (request : SubscriptionList) (cycles : ℕ)
    (chronomap : List (Subscription × TimePoint)) :
    (sampleLoop fastWriter request cycles chronomap).Obeys (streamProtocol (some .STREAM)) .synced
      (Closing (some .STREAM)) := by
  induction cycles generalizing chronomap with
  | zero => exact Throwing.obeys_pure (closing_ok (by simp))
  | succ cycles ih =>
      refine obeys_now rfl fun _ => ?_
      refine ((only_dueSamples chronomap).stays fun c r hc =>
        streamProtocol_looking _ rfl c r hc).bind ?_ ?_
      · rintro ⟨chronomap', due⟩ q' ⟨rfl, -⟩
        have hrest : (now >>= fun _ => sampleLoop fastWriter request cycles chronomap').Obeys
            (streamProtocol (some .STREAM)) .synced (Closing (some .STREAM)) :=
          obeys_now rfl fun _ => ih chronomap'
        dsimp only
        rw [notifyDue]
        split_ifs
        · exact obeys_notify rfl _ hrest
        · exact hrest
      · rintro e q' ⟨rfl, -⟩
        exact ne_cancelled_of_idle rfl

/-- The sync response and the rest of a handler. -/
theorem obeys_sync {p : Handler Status}
    (hp : p.Obeys (streamProtocol mode) .synced (Closing mode)) :
    (write (.syncResponse true) >>= fun _ => p).Obeys (streamProtocol mode) .updated
      (Closing mode) := by
  refine Throwing.Obeys.bind (m := fun r q' => r = .ok () ∧ q' = .synced)
    (Throwing.obeys_ask fun _ => ⟨.synced, rfl, rfl, rfl⟩) ?_ ?_
  · rintro u q' ⟨-, rfl⟩
    exact hp
  · rintro e q' ⟨⟨⟩, -⟩

/-- A cancellation with a status. -/
theorem obeys_tryCancel {status : Status} (h : status.code ≠ .OK) :
    (tryCancel >>= fun _ => pure status).Obeys (streamProtocol mode) .opening (Closing mode) := by
  refine Throwing.Obeys.bind (m := fun r q' => r = .ok () ∧ q' = .cancelled)
    (Throwing.obeys_ask fun _ => ⟨.cancelled, rfl, rfl, rfl⟩) ?_ ?_
  · rintro u q' ⟨-, rfl⟩
    exact Throwing.obeys_pure (closing_cancelled h)
  · rintro e q' ⟨⟨⟩, -⟩

theorem obeys_handleStream (request : SubscriptionList) (cycles : ℕ) :
    (handleStream fastWriter request cycles).Obeys (streamProtocol (some .STREAM)) .opening
      (Closing (some .STREAM)) := by
  rw [handleStream]
  split_ifs
  · exact obeys_tryCancel (by simp)
  · refine obeys_notify rfl request (obeys_sync ?_)
    refine ((only_startSamples request.subscription).stays fun c r hc =>
      streamProtocol_looking _ rfl c r hc).bind ?_ ?_
    · rintro chronomap q' ⟨rfl, -⟩
      exact obeys_sampleLoop request cycles chronomap
    · rintro e q' ⟨rfl, -⟩
      exact ne_cancelled_of_idle rfl

theorem obeys_handleOnce (request : SubscriptionList) :
    (handleOnce fastWriter request).Obeys (streamProtocol (some .ONCE)) .opening
      (Closing (some .ONCE)) :=
  obeys_notify rfl request (obeys_sync (Throwing.obeys_pure (closing_ok (by simp))))

/-- Induction on the messages: every notification leads back to where it started. -/
theorem obeys_handlePoll (subscription : SubscriptionList) (messages : List SubscribeRequest) :
    (handlePoll fastWriter subscription messages).Obeys (streamProtocol (some .POLL)) .opening
      (Closing (some .POLL)) := by
  induction messages with
  | nil => exact Throwing.obeys_pure (closing_ok (by simp))
  | cons request rest ih =>
      rw [handlePoll]
      cases request.request with
      | poll => exact obeys_notify rfl subscription ih
      | _ => exact Throwing.obeys_pure (closing_refused (by simp) (by simp) _)

/-- **Subscribe keeps to the protocol of its mode.** -/
theorem obeys_run (messages : List SubscribeRequest) (cycles : ℕ) :
    (run fastWriter messages cycles).Obeys (streamProtocol (subscriptionMode messages)) .opening
      (Closing (subscriptionMode messages)) := by
  rw [run, subscriptionMode]
  split_ifs
  · exact Throwing.obeys_pure (closing_refused (by simp) (by simp) _)
  · cases (messages.headD {}).request with
    | subscribe list =>
        dsimp only
        cases list.mode with
        | STREAM => exact obeys_handleStream list cycles
        | ONCE => exact obeys_handleOnce list
        | POLL => exact obeys_handlePoll list _
        | other n => exact Throwing.obeys_pure (closing_refused (by simp) (by simp) _)
    | _ => exact obeys_tryCancel (by simp)

end SubscribeRpc

/-! ### The streams of the service -/

variable {D : Type}

/-- How a Subscribe RPC ends, and the phase of its stream then. -/
def StreamVerdict (mode : Option ListMode) (r : Except Exn Answer) (q : Phase) : Prop :=
  (∀ status, r = .ok (.subscribe status) → Closing mode (.ok status) q) ∧
    (∀ e, r = .error e → q ≠ .cancelled) ∧ ∀ a, r = .ok a → ∃ status, a = .subscribe status

theorem SubscribeRpc.obeys_handler (fastWriter : Json → String) (messages : List SubscribeRequest)
    (cycles : ℕ) :
    ((Rpc.subscribe messages cycles).handler fastWriter).Obeys
      (streamProtocol (subscriptionMode messages)) .opening
      (StreamVerdict (subscriptionMode messages)) := by
  refine (SubscribeRpc.obeys_run messages cycles).bind ?_ ?_
  · intro status q hq
    refine Throwing.obeys_pure ⟨?_, by simp, fun a ha => ⟨status, (Except.ok.inj ha).symm⟩⟩
    rintro status' ⟨⟩
    exact hq
  · intro e q hq
    exact ⟨by simp, fun _ _ => hq, by simp⟩

/-- The phase of a stream of the service. -/
theorem exists_phase (env : Env D) (fastWriter : Json → String) (d : D) {rpcs : ℕ → Rpc}
    (sched : List ℕ) {i : ℕ} {messages : List SubscribeRequest} {cycles : ℕ}
    (h : rpcs i = .subscribe messages cycles) :
    ∃ q, (streamProtocol (subscriptionMode messages)).advance .opening
        (own i (Service.runs env fastWriter d rpcs sched).log) = some q ∧
      ∀ r, (Service.runs env fastWriter d rpcs sched).procs i = .ret r →
        StreamVerdict (subscriptionMode messages) r q := by
  have hobeys := SubscribeRpc.obeys_handler fastWriter messages cycles
  rw [← h] at hobeys
  obtain ⟨q, hadvance, hrest⟩ := Pool.follows (serve env)
    (fun i => ((rpcs i).handler fastWriter).run) (World.start d) sched hobeys
  refine ⟨q, hadvance, fun r hr => ?_⟩
  rwa [show (Pool.runs (serve env) (Pool.start (fun i => ((rpcs i).handler fastWriter).run)
    (World.start d)) sched).procs i = .ret r from hr] at hrest

/-- A stream that has ended is cancelled as its status says. -/
theorem streamEnd_of_ended {env : Env D} {fastWriter : Json → String} {d : D} {rpcs : ℕ → Rpc}
    {sched : List ℕ} {i : ℕ} {messages : List SubscribeRequest} {cycles : ℕ}
    (h : rpcs i = .subscribe messages cycles) {r : Except Exn Answer}
    (hr : (Service.runs env fastWriter d rpcs sched).procs i = .ret r) :
    StreamEnd (subscriptionMode messages)
      (own i (Service.runs env fastWriter d rpcs sched).log) r := by
  obtain ⟨q, hadvance, hverdict⟩ := exists_phase env fastWriter d sched h
  obtain ⟨-, hcancel⟩ := streamSession_of_advance hadvance
  obtain ⟨hstatus, herror, hkind⟩ := hverdict r hr
  cases r with
  | error e => exact fun hc => herror e rfl (hcancel.mp hc)
  | ok a =>
      obtain ⟨status, rfl⟩ := hkind a rfl
      obtain ⟨hnot, hmode⟩ := hstatus status rfl
      exact ⟨fun hc => hnot (hcancel.mp hc), fun hm hcode => hcancel.mpr (hmode hm hcode)⟩

/-- **Every stream of the service keeps to the protocol of its mode**, at every point of every
schedule, and a stream that has ended is cancelled as its status says. -/
theorem stream_conforms (env : Env D) (fastWriter : Json → String) (d : D) (rpcs : ℕ → Rpc)
    (sched : List ℕ) {i : ℕ} {messages : List SubscribeRequest} {cycles : ℕ}
    (h : rpcs i = .subscribe messages cycles) :
    StreamSession (subscriptionMode messages)
        (own i (Service.runs env fastWriter d rpcs sched).log) ∧
      ∀ r, (Service.runs env fastWriter d rpcs sched).procs i = .ret r →
        StreamEnd (subscriptionMode messages)
          (own i (Service.runs env fastWriter d rpcs sched).log) r := by
  obtain ⟨q, hadvance, -⟩ := exists_phase env fastWriter d sched h
  exact ⟨(streamSession_of_advance hadvance).1, fun r hr => streamEnd_of_ended h hr⟩

/-- Two clients of the ONCE mode. -/
def twoOnce (_ : ℕ) : Rpc :=
  .subscribe [⟨.subscribe { subscription := [{}], mode := .ONCE }, 0⟩] 0

/-- The stream of one of them while they are served in turns. -/
theorem twoOnce_conforms :
    StreamSession (some .ONCE)
        (own 0 (Service.runs (leafEnv fun _ => none) leafWriter "up" twoOnce
          [0, 1, 0, 1, 0, 0, 0]).log) ∧
      ∀ r, (Service.runs (leafEnv fun _ => none) leafWriter "up" twoOnce
        [0, 1, 0, 1, 0, 0, 0]).procs 0 = .ret r →
        StreamEnd (some .ONCE) (own 0 (Service.runs (leafEnv fun _ => none) leafWriter "up" twoOnce
          [0, 1, 0, 1, 0, 0, 0]).log) r :=
  stream_conforms (leafEnv fun _ => none) leafWriter "up" twoOnce [0, 1, 0, 1, 0, 0, 0] (i := 0) rfl

end SysrepoGnxi
