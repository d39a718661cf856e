import SysrepoGnxi.Poll
import SysrepoGnxi.SameData
import SysrepoGnxi.Schedule

/-!
# Announcing Synchronization

A client waits for the `sync_response` that marks the end of a snapshot. `handleStream` and
`handleOnce` write it after the first notification, `handlePoll` never does.

Main results:

* `announced_iff` — every dialogue announces synchronization exactly unless it is sure that
  the first message after a POLL list is a Poll that can be answered;
* `not_announced` — one Poll.
-/

open Dialogue JsonDoc

namespace SysrepoGnxi

/-- **Synchronization is announced** in the responses to a list: the marker comes only after
a notification of all its subscriptions, and right after every snapshot, which is the first
notification or, in the POLL mode, any. -/
def Announced (fastWriter : Json → String) (list : SubscriptionList)
    (responses : List SubscribeResponse) : Prop :=
  ∀ before m after, responses = before ++ m :: after →
    (∀ b, m = .syncResponse b →
      ∃ n, .update n ∈ before ∧ SnapshotOf (fun _ _ => True) fastWriter list n) ∧
    (∀ n, m = .update n → before = [] ∨ list.mode = .POLL →
      ∃ rest, after = .syncResponse true :: rest)

/-- Synchronization is announced in every run with these messages of the client. -/
def AlwaysAnnounced (messages : List SubscribeRequest) : Prop :=
  ∀ (fastWriter : Json → String) (cycles : ℕ) (evs : List CallEvent) (r : Except Exn Status)
    (list : SubscriptionList), (messages.headD {}).request = .subscribe list →
    Yields (SubscribeRpc.run fastWriter messages cycles).run evs r →
    Announced fastWriter list (written evs)

/-- No Poll can be answered: unless the list is in another mode or refused, the message after
it is no Poll. -/
def Unpolled (messages : List SubscribeRequest) : Prop :=
  ∀ list rest, messages = ⟨.subscribe list, 0⟩ :: rest → list.mode = .POLL →
    SubscribeRpc.verifyList list = none → polls rest = 0

/-! ### Modes that announce -/

section Announced

variable {fastWriter : Json → String} {list : SubscriptionList}

/-- Without responses there is nothing to announce. -/
theorem announced_nil : Announced fastWriter list [] := by
  rintro before m after h
  simp at h

/-- **A snapshot, the marker, and notifications that are no snapshots.** -/
theorem announced_stream {n : Notification} {ns : List Notification}
    (hn : SnapshotOf (fun _ _ => True) fastWriter list n) (hmode : list.mode ≠ .POLL) :
    Announced fastWriter list (.update n :: .syncResponse true :: ns.map .update) := by
  intro before m after h
  match before with
  | [] =>
      simp only [List.nil_append, List.cons.injEq] at h
      obtain ⟨rfl, rfl⟩ := h
      exact ⟨by simp, fun _ _ _ => ⟨_, rfl⟩⟩
  | [b] =>
      simp only [List.cons_append, List.nil_append, List.cons.injEq] at h
      obtain ⟨rfl, rfl, rfl⟩ := h
      exact ⟨fun _ _ => ⟨n, List.mem_cons_self, hn⟩, by simp⟩
  | b :: c :: before =>
      simp only [List.cons_append, List.cons.injEq] at h
      obtain ⟨n', -, rfl⟩ : ∃ n', n' ∈ ns ∧ .update n' = m :=
        List.mem_map.mp (h.2.2 ▸ List.mem_append_right _ List.mem_cons_self)
      refine ⟨by simp, fun _ _ hsnapshot => ?_⟩
      rcases hsnapshot with hnil | hpoll
      · cases hnil
      · exact absurd hpoll hmode

variable {evs : List CallEvent} {r : Except Exn Status}

theorem announced_handleStream {cycles : ℕ} (hmode : list.mode ≠ .POLL)
    (h : Yields (SubscribeRpc.handleStream fastWriter list cycles).run evs r) :
    Announced fastWriter list (written evs) := by
  rcases SubscribeRpc.yields_handleStream h with
    ⟨-, rfl, -⟩ | ⟨-, hfailed | ⟨build, n, starts, rounds, hstream⟩⟩
  · exact announced_nil
  · rw [hfailed.written]
    exact announced_nil
  · rw [hstream.written]
    exact announced_stream hstream.built.snapshotOf hmode

theorem announced_handleOnce (hmode : list.mode ≠ .POLL)
    (h : Yields (SubscribeRpc.handleOnce fastWriter list).run evs r) :
    Announced fastWriter list (written evs) := by
  rcases SubscribeRpc.yields_notify h with ⟨evs₀, n, evs₁, hbuilt, rfl, h₁⟩ | hfailed
  · obtain ⟨u, evs₂, rfl, h₂⟩ := Throwing.yields_ask_bind.mp h₁
    obtain ⟨rfl, rfl⟩ := Throwing.yields_pure.mp h₂
    rw [written_append, hbuilt.written]
    have hannounced : Announced fastWriter list
        (.update n :: .syncResponse true :: [].map .update) :=
      announced_stream hbuilt.snapshotOf hmode
    exact hannounced
  · rw [hfailed.written]
    exact announced_nil

/-- Answers to Polls are announced exactly when there are none. -/
theorem announced_poll_iff {messages : List SubscribeRequest}
    {answers : List (List CallEvent × Notification)}
    (h : PollRun fastWriter list messages evs r answers) :
    Announced fastWriter list (written evs) ↔ answers = [] := by
  rw [h.written]
  constructor
  · intro hannounced
    cases answers with
    | nil => rfl
    | cons answer answers =>
        obtain ⟨rest, hrest⟩ := (hannounced [] (.update answer.2)
          (answers.map fun answer => .update answer.2) rfl).2 _ rfl (Or.inl rfl)
        have hmem : SubscribeResponse.syncResponse true ∈
            answers.map fun answer => SubscribeResponse.update answer.2 := by
          rw [hrest]
          exact List.mem_cons_self
        simp at hmem
  · rintro rfl
    exact announced_nil

end Announced

/-! ### When a Poll is answered -/

/-- With bare replies no build of a list that is not refused fails. -/
theorem not_failedBuild_of_bare {fastWriter : Json → String} {list : SubscriptionList}
    {evs : List CallEvent} {r : Except Exn Status}
    (hverify : SubscribeRpc.verifyList list = none) (hbare : ∀ ev ∈ evs, Bare ev.1 ev.2) :
    ¬ SubscribeRpc.FailedBuild fastWriter list evs r := by
  have hreturns : (SubscribeRpc.buildSubscribeNotification fastWriter list).Returns Bare
      fun o => ∃ n, o = .ok n := returns_buildSubscribeNotification hverify
  rintro (⟨evs₀, status, hy, rfl, -⟩ | ⟨exc, hy, -⟩)
  · obtain ⟨_, heq, n, rfl⟩ := hreturns.yields hy fun ev hev =>
      hbare ev (List.mem_append_left _ hev)
    cases heq
  · obtain ⟨_, heq, -⟩ := hreturns.yields hy hbare
    cases heq

/-- Where the replies are bare every Poll up to the first other message is answered. -/
theorem PollRun.length_of_bare {fastWriter : Json → String} {list : SubscriptionList}
    {messages : List SubscribeRequest} {evs : List CallEvent} {r : Except Exn Status}
    {answers : List (List CallEvent × Notification)}
    (h : PollRun fastWriter list messages evs r answers)
    (hverify : SubscribeRpc.verifyList list = none) (hbare : ∀ ev ∈ evs, Bare ev.1 ev.2) :
    answers.length = polls messages := by
  rcases h.stops with ⟨hlen, -⟩ | ⟨-, evs', rfl, hfailed⟩
  · exact hlen
  · exact absurd hfailed (not_failedBuild_of_bare hverify fun ev hev =>
      hbare ev (List.mem_append_right _ hev))

/-- A list of which no build succeeds is one that is refused. -/
theorem not_built_of_refused {fastWriter : Json → String} {list : SubscriptionList}
    (hverify : SubscribeRpc.verifyList list ≠ none) (evs : List CallEvent) (n : Notification) :
    ¬ SubscribeRpc.Built fastWriter list evs n := by
  intro hbuilt
  obtain ⟨status, hstatus⟩ := Option.ne_none_iff_exists'.mp hverify
  rw [SubscribeRpc.Built, SubscribeRpc.buildSubscribeNotification, hstatus] at hbuilt
  obtain ⟨-, heq⟩ := Throwing.yields_pure.mp hbuilt
  cases heq

/-- Unless a Poll can be answered, every mode announces synchronization. -/
theorem announced_of_unpolled {messages : List SubscribeRequest} (h : Unpolled messages) :
    AlwaysAnnounced messages := by
  intro fastWriter cycles evs r list hfirst hy
  cases messages with
  | nil => cases hfirst
  | cons first rest =>
      obtain ⟨request, extensionSize⟩ := first
      obtain rfl : request = .subscribe list := hfirst
      rw [SubscribeRpc.run] at hy
      split_ifs at hy with hext
      · obtain ⟨rfl, rfl⟩ := Throwing.yields_pure.mp hy
        exact announced_nil
      · obtain rfl : extensionSize = 0 := Nat.eq_zero_of_not_pos hext
        simp only [List.headD_cons, List.tail_cons] at hy
        cases hmode : list.mode with
        | STREAM =>
            rw [hmode] at hy
            exact announced_handleStream (by simp [hmode]) hy
        | ONCE =>
            rw [hmode] at hy
            exact announced_handleOnce (by simp [hmode]) hy
        | POLL =>
            rw [hmode] at hy
            obtain ⟨answers, hrun⟩ := SubscribeRpc.yields_handlePoll hy
            refine (announced_poll_iff hrun).mpr ?_
            by_cases hverify : SubscribeRpc.verifyList list = none
            · have hnone := h list rest rfl hmode hverify
              rcases hrun.stops with ⟨hlen, -⟩ | ⟨hlen, -⟩
              · exact List.length_eq_zero_iff.mp (hlen.trans hnone)
              · omega
            · refine List.eq_nil_iff_forall_not_mem.mpr fun answer hanswer => ?_
              exact not_built_of_refused hverify _ _ (hrun.built answer hanswer).1
        | other n =>
            rw [hmode] at hy
            obtain ⟨rfl, rfl⟩ := Throwing.yields_pure.mp hy
            exact announced_nil

/-- A Poll that can be answered is answered without a marker in some run. -/
theorem unpolled_of_announced {messages : List SubscribeRequest}
    (h : AlwaysAnnounced messages) : Unpolled messages := by
  rintro list rest rfl hmode hverify
  obtain ⟨evs, r, hy, hbare⟩ := exists_yields_reply exists_bare
    (SubscribeRpc.run (fun _ => "") (⟨.subscribe list, 0⟩ :: rest) 0).run
  have hannounced := h _ _ _ _ list rfl hy
  rw [SubscribeRpc.run_poll hmode] at hy
  obtain ⟨answers, hrun⟩ := SubscribeRpc.yields_handlePoll hy
  rw [← hrun.length_of_bare hverify hbare, (announced_poll_iff hrun).mp hannounced]
  rfl

/-- **When synchronization is always announced**: exactly unless a Poll that can be answered
follows the list. -/
theorem announced_iff (messages : List SubscribeRequest) :
    AlwaysAnnounced messages ↔ Unpolled messages :=
  ⟨unpolled_of_announced, announced_of_unpolled⟩

/-- The client polls once, and the notification it gets is not followed by the marker. -/
theorem not_announced : ¬ AlwaysAnnounced [⟨.subscribe { mode := .POLL }, 0⟩, ⟨.poll, 0⟩] := by
  intro h
  have hpolls := unpolled_of_announced h { mode := .POLL } [⟨.poll, 0⟩] rfl rfl rfl
  exact absurd hpolls (by decide)

end SysrepoGnxi
