import SysrepoGnxi.Reads

/-!
# Polls and Their Answers

In the POLL mode the handler reads the messages of the client one by one, and answers each
Poll with a notification of the list it was given first. `poll_correspondence` says which
messages are answered, and how the RPC ends, for every sequence of messages and any build
that may fail.
-/

open Dialogue JsonDoc

namespace SysrepoGnxi

/-- The number of Polls before the first message that is none. -/
def polls (messages : List SubscribeRequest) : ℕ :=
  (messages.takeWhile fun m => m.request = .poll).length

/-- The exchanges of an answered Poll: those of the build, and the notification written. -/
def answerEvents (answer : List CallEvent × Notification) : List CallEvent :=
  answer.1 ++ [⟨.write (.update answer.2), ()⟩]

/-- The RPC ends with a status that is OK. -/
def EndsOk (r : Except Exn Status) : Prop := ∃ status, r = .ok status ∧ status.code = .OK

/-- **Requests and answers** of a dialogue in the POLL mode, with the messages that follow
the list. -/
structure PollRun (fastWriter : Json → String) (list : SubscriptionList)
    (messages : List SubscribeRequest) (evs : List CallEvent) (r : Except Exn Status)
    (answers : List (List CallEvent × Notification)) : Prop where
  /-- Every answer is built of all subscriptions of the list. -/
  built : ∀ answer ∈ answers, SubscribeRpc.Built fastWriter list answer.1 answer.2 ∧
    SnapshotOf (fun _ _ => True) fastWriter list answer.2
  /-- The answers are what is written. -/
  written : written evs = answers.map fun answer => .update answer.2
  /-- All Polls are answered up to the first other message, which ends the RPC with a status
  that is not OK; or all up to the first build that fails, which ends the RPC. -/
  stops :
    (answers.length = polls messages ∧ evs = answers.flatMap answerEvents ∧
      ((messages[polls messages]? = none ∧ r = .ok .OK) ∨
        (messages[polls messages]? ≠ none ∧ ∃ status, r = .ok status ∧ status.code ≠ .OK))) ∨
    (answers.length < polls messages ∧ ∃ evs', evs = answers.flatMap answerEvents ++ evs' ∧
      SubscribeRpc.FailedBuild fastWriter list evs' r)
  /-- It ends OK exactly when every message was an answered Poll. -/
  ok : EndsOk r ↔ (∀ m ∈ messages, m.request = .poll) ∧ answers.length = messages.length

variable {fastWriter : Json → String} {list : SubscriptionList}
  {messages : List SubscribeRequest} {evs : List CallEvent} {r : Except Exn Status}

/-- An answer goes before the others. -/
theorem PollRun.cons {message : SubscribeRequest} {evs₀ : List CallEvent} {n : Notification}
    {answers : List (List CallEvent × Notification)} (hpoll : message.request = .poll)
    (hbuilt : SubscribeRpc.Built fastWriter list evs₀ n)
    (h : PollRun fastWriter list messages evs r answers) :
    PollRun fastWriter list (message :: messages)
      (evs₀ ++ ⟨.write (.update n), ()⟩ :: evs) r ((evs₀, n) :: answers) := by
  have hpolls : polls (message :: messages) = polls messages + 1 := by
    simp [polls, hpoll]
  have hevents : evs₀ ++ ⟨.write (.update n), ()⟩ :: evs = answerEvents (evs₀, n) ++ evs := by
    simp [answerEvents]
  refine ⟨?_, ?_, ?_, ?_⟩
  · intro answer hanswer
    rcases List.mem_cons.mp hanswer with rfl | hanswer
    · exact ⟨hbuilt, hbuilt.snapshotOf⟩
    · exact h.built answer hanswer
  · rw [hevents, written_append, answerEvents, written_append, hbuilt.written, h.written]
    rfl
  · rw [hpolls, List.getElem?_cons_succ, hevents, List.flatMap_cons]
    rcases h.stops with ⟨hlen, rfl, hend⟩ | ⟨hlen, evs', rfl, hfailed⟩
    · exact Or.inl ⟨by simp [hlen], rfl, hend⟩
    · exact Or.inr ⟨by simpa using hlen, evs', by rw [List.append_assoc], hfailed⟩
  · rw [h.ok]
    simp [hpoll]

/-- A message that is no Poll ends the RPC with a status that is not OK. -/
theorem PollRun.other {message : SubscribeRequest} {status : Status}
    (hother : message.request ≠ .poll) (hstatus : status.code ≠ .OK) :
    PollRun fastWriter list (message :: messages) [] (.ok status) [] := by
  have hpolls : polls (message :: messages) = 0 := by simp [polls, hother]
  refine ⟨by simp, rfl, Or.inl ⟨hpolls.symm, rfl, Or.inr ⟨by simp [hpolls], status, rfl, hstatus⟩⟩,
    ?_⟩
  constructor
  · rintro ⟨status', heq, hok⟩
    obtain rfl := Except.ok.inj heq
    exact absurd hok hstatus
  · rintro ⟨hall, -⟩
    exact absurd (hall message List.mem_cons_self) hother

/-- A Poll whose build fails ends the RPC. -/
theorem PollRun.failed {message : SubscribeRequest} (hpoll : message.request = .poll)
    (h : SubscribeRpc.FailedBuild fastWriter list evs r) :
    PollRun fastWriter list (message :: messages) evs r [] := by
  have hpolls : 0 < polls (message :: messages) := by simp [polls, hpoll]
  refine ⟨by simp, h.written, Or.inr ⟨hpolls, evs, rfl, h⟩, ?_⟩
  constructor
  · rintro ⟨status, rfl, hok⟩
    exact absurd hok (h.not_ok rfl)
  · rintro ⟨-, hlen⟩
    simp at hlen

/-- **What `handlePoll` does**, by induction on the messages. -/
theorem SubscribeRpc.yields_handlePoll
    (h : Yields (handlePoll fastWriter list messages).run evs r) :
    ∃ answers, PollRun fastWriter list messages evs r answers := by
  induction messages generalizing evs with
  | nil =>
      obtain ⟨rfl, rfl⟩ := Throwing.yields_pure.mp h
      exact ⟨[], by simp, rfl, Or.inl ⟨rfl, rfl, Or.inl ⟨rfl, rfl⟩⟩,
        ⟨fun _ => ⟨by simp, rfl⟩, fun _ => ⟨.OK, rfl, rfl⟩⟩⟩
  | cons message rest ih =>
      rw [handlePoll] at h
      cases hrequest : message.request with
      | poll =>
          rw [hrequest] at h
          rcases yields_notify h with ⟨evs₀, n, evs₁, hbuilt, rfl, h₁⟩ | hfailed
          · obtain ⟨answers, hrun⟩ := ih h₁
            exact ⟨(evs₀, n) :: answers, hrun.cons hrequest hbuilt⟩
          · exact ⟨[], PollRun.failed hrequest hfailed⟩
      | _ =>
          rw [hrequest] at h
          obtain ⟨rfl, rfl⟩ := Throwing.yields_pure.mp h
          exact ⟨[], PollRun.other (by simp [hrequest]) (by simp)⟩

/-- A list in the POLL mode is served by `handlePoll`. -/
theorem SubscribeRpc.run_poll {cycles : ℕ} (hmode : list.mode = .POLL) :
    run fastWriter (⟨.subscribe list, 0⟩ :: messages) cycles =
      handlePoll fastWriter list messages := by
  simp [run, hmode]

/-- **Requests and answers correspond** in every dialogue with a list in the POLL mode and
any messages after it. -/
theorem poll_correspondence {cycles : ℕ} (hmode : list.mode = .POLL)
    (h : Yields (SubscribeRpc.run fastWriter (⟨.subscribe list, 0⟩ :: messages) cycles).run
      evs r) :
    ∃ answers, PollRun fastWriter list messages evs r answers := by
  rw [SubscribeRpc.run_poll hmode] at h
  exact SubscribeRpc.yields_handlePoll h

/-- One container, to be polled. -/
def polledList : SubscriptionList :=
  { subscription := [{ path := { elem := [⟨"c", []⟩] } }], mode := .POLL }

/-- Two Polls, a request for aliases, and a third Poll. -/
def polledTwice : Outcome Call Call.Reply (World String) (Except Exn Status) :=
  Dialogue.run (serve (leafEnv fun _ => none))
    (SubscribeRpc.run leafWriter
      [⟨.subscribe polledList, 0⟩, ⟨.poll, 0⟩, ⟨.poll, 0⟩, ⟨.aliases, 0⟩, ⟨.poll, 0⟩] 0).run
    (World.start "old")

/-- The first two Polls are answered. -/
theorem polledTwice_correspondence : ∃ answers,
    PollRun leafWriter polledList [⟨.poll, 0⟩, ⟨.poll, 0⟩, ⟨.aliases, 0⟩, ⟨.poll, 0⟩]
      polledTwice.log polledTwice.value answers :=
  poll_correspondence rfl (yields_run _ _ _).1

end SysrepoGnxi
