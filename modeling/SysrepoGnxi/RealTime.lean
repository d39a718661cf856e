import SysrepoGnxi.Durability
import SysrepoGnxi.StreamInstants

/-!
# Reads after an OK

A client that has seen a Set answered OK, of its own or of another client, and then begins a
Get or a Subscribe, is shown no datastore without that Set: every notification shows one with
all its edits, and with everything that had been published when the read began
(`reads_after_ok`). Whatever else happens in between comes on top.
-/

open Dialogue JsonDoc

namespace SysrepoGnxi

variable {D : Type}

/-- **A read that begins later shows all that was accepted before.** -/
theorem answersAt_of_begun {sr : Sysrepo D} {d : D} {w : World D} {log₁ log₂ : List (ℕ × CallEvent)}
    (h : History sr d ((log₁ ++ log₂).map Prod.snd) w) {j : ℕ} (hnone : own j log₁ = [])
    {read : String × ReadReply} (hread : read ∈ reads (own j (log₁ ++ log₂))) :
    ∃ later, AnswersAt sr d read (log₁.map Prod.snd ++ later) := by
  rw [own_append, hnone, List.nil_append] at hread
  obtain ⟨before, after, hlog⟩ := List.append_of_mem (mem_own.mp (mem_reads hread))
  refine ⟨before.map Prod.snd, fun trees htrees => ?_⟩
  refine h.reads _ (after.map Prod.snd) _ _ ?_
  rw [hlog, htrees]
  simp

/-- What a read shows that begins at a point of a service: a datastore with the edits that are
published there, and others after them. -/
def ShowsSince (sr : Sysrepo D) (d : D) (published : List Edit) (shows : D → Prop) : Prop :=
  ∃ edits, published <+: edits ∧ shows (sr.applyAll edits d)

/-- **The reads that begin at a point of a service**: those of RPCs that have not made any call
there. -/
structure ReadsSince (env : Env D) (fastWriter : Json → String) (d : D) (rpcs : ℕ → Rpc)
    (sched later : List ℕ) (j : ℕ) : Prop where
  get : ∀ request response, rpcs j = .get request →
    (Service.runs env fastWriter d rpcs (sched ++ later)).procs j =
      .ret (.ok (.get (.ok response))) →
    response.notification.length = request.path.length ∧
      ∀ pn ∈ request.path.zip response.notification,
        ShowsSince env.sysrepo d (Service.runs env fastWriter d rpcs sched).state.published
          fun datastore => NotificationOf env.sysrepo fastWriter datastore request.pfx pn.1 pn.2
  subscribe : ∀ messages cycles list n, rpcs j = .subscribe messages cycles →
    (messages.headD {}).request = .subscribe list →
    (j, ⟨.write (.update n), ()⟩) ∈ (Service.runs env fastWriter d rpcs (sched ++ later)).log →
    ∃ subs groups, subs ⊆ list.subscription ∧ n.update = groups.flatten ∧
      groups.length = subs.length ∧ ∀ group ∈ subs.zip groups,
        ShowsSince env.sysrepo d (Service.runs env fastWriter d rpcs sched).state.published
          fun datastore => ShownIn env.sysrepo fastWriter datastore group

/-! ### The reads behind the notifications -/

/-- Every notification of a Get is that of one of its reads. -/
theorem InStep.mem {fastWriter : Json → String} {pfx : Option Path} {paths : List Path}
    {ns : List Notification} {rds : List (String × ReadReply)}
    (h : InStep fastWriter pfx paths ns rds) {pn : Path × Notification} (hpn : pn ∈ paths.zip ns) :
    ∃ read ∈ rds, NotedBy fastWriter pfx pn.1 pn.2 read := by
  induction h with
  | nil => cases hpn
  | @cons path paths n ns read rds hnoted _ ih =>
      rcases List.mem_cons.mp hpn with rfl | hpn
      · exact ⟨read, List.mem_cons_self, hnoted⟩
      · obtain ⟨read', hmem, hnoted'⟩ := ih hpn
        exact ⟨read', List.mem_cons_of_mem _ hmem, hnoted'⟩

namespace SubscribeRpc

/-- Every group of a notification of Subscribe is that of one of the reads of its build. -/
theorem GroupsInStep.mem {fastWriter : Json → String} {subs : List Subscription}
    {groups : List (List Update)} {rds : List (String × ReadReply)}
    (h : GroupsInStep fastWriter subs groups rds) {group : Subscription × List Update}
    (hgroup : group ∈ subs.zip groups) :
    ∃ trees us, (cStr (gnmiToXpath group.1.path), .ok (some trees)) ∈ rds ∧
      group.2 = ⟨some group.1.path, some .notSet⟩ :: us ∧
      Reports fastWriter group.1.path ("", "") trees us := by
  induction h with
  | nil => cases hgroup
  | @cons sub subs us groups trees rds hreports _ ih =>
      rcases List.mem_cons.mp hgroup with rfl | hgroup
      · exact ⟨trees, us, List.mem_cons_self, rfl, hreports⟩
      · obtain ⟨trees', us', hmem, heq, hreports'⟩ := ih hgroup
        exact ⟨trees', us', List.mem_cons_of_mem _ hmem, heq, hreports'⟩

end SubscribeRpc

/-! ### Reads that begin later -/

section Later

variable {env : Env D} {fastWriter : Json → String} {d : D} {rpcs : ℕ → Rpc}
  {sched later : List ℕ} {j : ℕ}

/-- A read of an RPC that had not begun shows what was published then. -/
theorem showsSince_of_read
    (hnone : own j (Service.runs env fastWriter d rpcs sched).log = [])
    {read : String × ReadReply}
    (hread : read ∈ reads (own j (Service.runs env fastWriter d rpcs (sched ++ later)).log))
    {shows : D → Prop}
    (hshows : ∀ evs, AnswersAt env.sysrepo d read evs →
      shows (env.sysrepo.applyAll (acceptedEdits evs) d)) :
    ShowsSince env.sysrepo d (Service.runs env fastWriter d rpcs sched).state.published shows := by
  obtain ⟨log, hlog⟩ := Pool.log_runs_append (serve env)
    (Pool.start (fun i => ((rpcs i).handler fastWriter).run) (World.start d)) sched later
  have hlog : (Service.runs env fastWriter d rpcs (sched ++ later)).log =
      (Service.runs env fastWriter d rpcs sched).log ++ log := hlog
  have hhistory := history_log env fastWriter d rpcs (sched ++ later)
  rw [hlog] at hhistory hread
  obtain ⟨evs, hans⟩ := answersAt_of_begun hhistory hnone hread
  refine ⟨_, ?_, hshows _ hans⟩
  rw [acceptedEdits_append, ← (history_log env fastWriter d rpcs sched).conserved,
    List.append_assoc]
  exact List.prefix_append _ _

/-- **No read is older than its begin.** -/
theorem readsSince_of_none
    (hnone : own j (Service.runs env fastWriter d rpcs sched).log = []) :
    ReadsSince env fastWriter d rpcs sched later j := by
  constructor
  · intro request response hrpc hr
    have hyields := yields_of_ended hr
    rw [hrpc] at hyields
    obtain ⟨o, hrun, ho⟩ := Throwing.yields_bind_pure.mp hyields
    cases o with
    | error exc => cases ho
    | ok result =>
        obtain rfl : .ok response = result := Answer.get.inj (Except.ok.inj ho)
        have hstep := GetRpc.endsInStep_run request _ _ hrun (fun _ _ => trivial) response rfl
        refine ⟨hstep.length_eq, fun pn hpn => ?_⟩
        obtain ⟨read, hread, hxpath, hpfx, trees, htrees, hreports⟩ := hstep.mem hpn
        refine showsSince_of_read hnone hread fun evs hans => ?_
        exact ⟨hpfx, trees, hxpath ▸ (hans _ htrees).symm, hreports⟩
  · intro messages cycles list n hrpc hlist hwritten
    obtain ⟨before, after, hlog⟩ := List.append_of_mem hwritten
    obtain ⟨evs, build, request, hbefore, hbuilt, hsub⟩ := writtenAsBuilt_of_log hrpc hlist hlog
    obtain ⟨-, groups, hupdate, hstep⟩ := hbuilt.inStep
    refine ⟨request.subscription, groups, hsub.subset, hupdate, hstep.length_eq, ?_⟩
    intro group hgroup
    obtain ⟨trees, us, hread, heq, hreports⟩ := hstep.mem hgroup
    have hread : (cStr (gnmiToXpath group.1.path), .ok (some trees)) ∈
        reads (own j (Service.runs env fastWriter d rpcs (sched ++ later)).log) := by
      rw [hlog, own_append, hbefore, reads_append, reads_append]
      exact List.mem_append_left _ (List.mem_append_right _ hread)
    refine showsSince_of_read hnone hread fun evs hans => ?_
    exact ⟨us, heq, trees, (hans _ rfl).symm, hreports⟩

end Later

/-- **Reads after an OK**: whoever begins to read after a Set request has been answered OK is
shown its edits, and everything published then. -/
theorem reads_after_ok (env : Env D) (fastWriter : Json → String) (d : D) (rpcs : ℕ → Rpc)
    (sched later : List ℕ) (i j : ℕ) (request : SetRequest) (r : Except Exn Answer)
    (hrpc : rpcs i = .set request)
    (hr : (Service.runs env fastWriter d rpcs sched).procs i = .ret r) (hok : AnsweredOk r)
    (hnone : own j (Service.runs env fastWriter d rpcs sched).log = []) :
    List.Sublist (requestEdits env.parse request)
        (Service.runs env fastWriter d rpcs sched).state.published ∧
      ReadsSince env fastWriter d rpcs sched later j :=
  ⟨published_of_ok hrpc hr hok, readsSince_of_none hnone⟩

/-- The Set of the leaf. -/
def leafRequest : SetRequest :=
  { update := [⟨some { elem := [⟨"c", []⟩, ⟨"x", []⟩] }, some (.stringVal "new")⟩] }

/-- A Get begun after it was answered OK. -/
theorem reads_after_ok_setThenGet :
    List.Sublist (requestEdits (leafEnv fun _ => none).parse leafRequest)
        (Service.runs (leafEnv fun _ => none) leafWriter "old" setThenGet
          [0, 0, 0, 0]).state.published ∧
      ReadsSince (leafEnv fun _ => none) leafWriter "old" setThenGet [0, 0, 0, 0] [1, 1, 1] 1 :=
  reads_after_ok (leafEnv fun _ => none) leafWriter "old" setThenGet [0, 0, 0, 0] [1, 1, 1] 0 1 _ _
    rfl rfl ⟨_, rfl⟩ rfl

end SysrepoGnxi
