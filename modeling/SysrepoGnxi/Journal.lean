import SysrepoGnxi.Interleaving
import SysrepoGnxi.Progress

/-!
# The Journal of the Set Requests

The ledger of a session takes any edit from anyone. What the handlers do with it is told by the
**journal**, a ledger in which every edit is signed by its request and a request is done with
its commit. Its guards are what the handlers keep to:

* an edit is staged by a Set request only, and it is the next of its edits;
* a request commits when all its edits are in the journal, and is done then;
* who reads is no Set request;
* who is done does nothing more.

A commit still publishes whatever is staged, of whichever request. `service_refines_journal`
says that the log of every schedule is a run of the journal, and that the requests that are
done are those that have been answered OK.
-/

open Dialogue JsonDoc SharedBuffer Transition

namespace SysrepoGnxi

variable {α D : Type}

/-- The edits a Set request asks for; no other RPC may make any. -/
def Rpc.edits (parse : String → Except Exn (List DataNode)) : Rpc → Option (List Edit)
  | set request => some (requestEdits parse request)
  | _ => none

/-! ### The journal -/

/-- The edits committed so far and those staged since, each with its request, and the requests
that are done. -/
structure Journal where
  committed : List (ℕ × Edit)
  staged : List (ℕ × Edit)
  done : List ℕ

namespace Journal

/-- The journal before any call. -/
def empty : Journal := ⟨[], [], []⟩

/-- The edits of a request, staged or committed. -/
def edits (j : Journal) (i : ℕ) : List Edit :=
  ownWork i (j.committed ++ j.staged)

/-- The journal without the signatures. -/
def ledger (j : Journal) : Ledger := ⟨j.committed.map Prod.snd, j.staged.map Prod.snd⟩

/-- The steps of a journal on a first datastore, where request `i` may make the edits
`work i`. -/
inductive Step (sr : Sysrepo D) (d : D) (work : ℕ → Option (List Edit)) :
    Journal → ℕ × CallEvent → Journal → Prop
  | stage {j : Journal} {i : ℕ} {ev : CallEvent} {e : Edit} {all : List Edit} :
      work i = some all → i ∉ j.done → acceptedEdit ev = some e → j.edits i ++ [e] <+: all →
      Step sr d work j (i, ev) { j with staged := j.staged ++ [(i, e)] }
  | commit {j : Journal} {i : ℕ} :
      work i = some (j.edits i) → i ∉ j.done →
      Step sr d work j (i, SysrepoGnxi.committed) ⟨j.committed ++ j.staged, [], j.done ++ [i]⟩
  | read {j : Journal} {i : ℕ} {xpath : String} :
      work i = none →
      Step sr d work j
        (i, ⟨.getSubtrees xpath, .ok (sr.subtrees xpath
          (sr.applyAll (j.ledger.committed ++ j.ledger.staged) d))⟩) j
  | idle {j : Journal} {i : ℕ} {ev : CallEvent} :
      i ∉ j.done → acceptedEdit ev = none → ev ≠ SysrepoGnxi.committed → ¬ ReadOk ev →
      Step sr d work j (i, ev) j

/-- A journal and the service it stands for. -/
structure Tells (env : Env D) (d : D) (rpcs : ℕ → Rpc)
    (service : Service D) (j : Journal) : Prop where
  books : Books env.sysrepo d service.state j.ledger
  edits : ∀ i, j.edits i = acceptedEdits (own i service.log)
  done : ∀ i, i ∈ j.done ↔
    ∃ request r, rpcs i = .set request ∧ service.procs i = .ret r ∧ AnsweredOk r

end Journal

/-- The journal as a transition system. -/
def journal (sr : Sysrepo D) (d : D) (work : ℕ → Option (List Edit)) :
    System Journal (ℕ × CallEvent) := ⟨Journal.Step sr d work⟩

section Tells

variable {env : Env D} {fastWriter : Json → String} {d : D} {rpcs : ℕ → Rpc} {sched : List ℕ}
  {i : ℕ} {j : Journal}

/-- Whoever has committed is a Set request. -/
theorem set_of_committed
    (h : committed ∈ own i (Service.runs env fastWriter d rpcs sched).log) :
    ∃ request, rpcs i = .set request := by
  have hmay := (conduct_own env fastWriter d rpcs sched i).calls committed h
  cases hrpc : rpcs i with
  | set request => exact ⟨request, rfl⟩
  | _ =>
      rw [hrpc] at hmay
      cases hmay

/-- A handler in the last stage has ended. -/
theorem ended_of_finished {kind : Rpc.Kind} {post : α → Stage → Prop}
    {p : Prog Call Call.Reply α} (h : Follows (conduct kind) post p .finished) :
    ∃ r, p = .ret r := by
  cases p with
  | ret r => exact ⟨r, rfl⟩
  | call c k =>
      obtain ⟨reply⟩ := (inferInstance : Nonempty c.Reply)
      obtain ⟨q, hq, -⟩ := h reply
      obtain ⟨⟨-, hready⟩, -⟩ := conduct_eq_some.mp hq
      cases hready

/-- **Who has committed has ended**, and is answered OK: the requests that are done. -/
theorem answeredOk_iff_mem_committed :
    (∃ request r, rpcs i = .set request ∧
        (Service.runs env fastWriter d rpcs sched).procs i = .ret r ∧ AnsweredOk r) ↔
      committed ∈ own i (Service.runs env fastWriter d rpcs sched).log := by
  constructor
  · rintro ⟨request, r, hrpc, hr, hok⟩
    exact (answeredOk_iff_committed (by rw [hrpc]; rfl) hr).mp hok
  · intro hmem
    obtain ⟨request, hrpc⟩ := set_of_committed hmem
    have hkind : (rpcs i).kind = .set := by rw [hrpc]; rfl
    obtain ⟨q, hadvance, hrest⟩ := Pool.follows (serve env)
      (fun i => ((rpcs i).handler fastWriter).run) (World.start d) sched
      (Rpc.obeys_handler fastWriter (rpcs i))
    have hq : q = .finished := by
      rw [hkind] at hadvance
      exact (finished_iff_committed hadvance).mpr hmem
    subst hq
    obtain ⟨r, hr⟩ := ended_of_finished hrest
    exact ⟨request, r, hrpc, hr, (answeredOk_iff_committed hkind hr).mpr hmem⟩

/-- Who makes a call has not committed before. -/
theorem not_committed_before {kind : Rpc.Kind} {evs : List CallEvent} {ev : CallEvent}
    (h : Conduct kind (evs ++ [ev])) : committed ∉ evs := by
  intro hmem
  obtain ⟨evs₁, evs₂, rfl⟩ := List.append_of_mem hmem
  rw [List.append_assoc, List.cons_append] at h
  have hnil := h.commitLast _ _ _ rfl
  simp at hnil

/-! ### The guards -/

/-- An edit that is accepted is the next one of a Set request. -/
theorem next_of_accepted {past : List CallEvent} {ev : CallEvent} {e : Edit}
    (hown : own i (Service.runs env fastWriter d rpcs sched).log = past ++ [ev])
    (hacc : acceptedEdit ev = some e) :
    ∃ all, (rpcs i).edits env.parse = some all ∧ acceptedEdits past ++ [e] <+: all := by
  have hall : acceptedEdits (own i (Service.runs env fastWriter d rpcs sched).log) =
      acceptedEdits past ++ [e] := by
    rw [hown, acceptedEdits_append]
    simp [acceptedEdits, hacc]
  have hmem : e ∈ acceptedEdits (own i (Service.runs env fastWriter d rpcs sched).log) := by
    simp [hall]
  obtain ⟨request, hrpc⟩ := set_of_acceptedEdit hmem
  refine ⟨requestEdits env.parse request, by rw [hrpc]; rfl, ?_⟩
  rw [← hall]
  exact acceptedEdits_first hrpc

/-- Who commits is a Set request that has made all its edits. -/
theorem all_of_committed {past : List CallEvent}
    (hown : own i (Service.runs env fastWriter d rpcs sched).log = past ++ [committed]) :
    (rpcs i).edits env.parse = some (acceptedEdits past) := by
  have hmem : committed ∈ own i (Service.runs env fastWriter d rpcs sched).log := by simp [hown]
  obtain ⟨request, r, hrpc, hr, hok⟩ := answeredOk_iff_mem_committed.mpr hmem
  have hall := acceptedEdits_of_ok hrpc hr hok
  rw [hown, acceptedEdits_append] at hall
  rw [hrpc, Rpc.edits, ← hall]
  exact congrArg some (List.append_nil _)

/-- Who reads is no Set request. -/
theorem edits_of_read {past : List CallEvent} {xpath : String}
    {reply : Except Exn (Option (List Tree))}
    (hown : own i (Service.runs env fastWriter d rpcs sched).log =
      past ++ [⟨.getSubtrees xpath, reply⟩]) :
    (rpcs i).edits env.parse = none := by
  have hmay := (conduct_own env fastWriter d rpcs sched i).calls ⟨.getSubtrees xpath, reply⟩
    (by simp [hown])
  cases hrpc : rpcs i with
  | set request =>
      rw [hrpc] at hmay
      cases hmay
  | _ => rfl

/-! ### The steps -/

/-- An edit that is staged is one of its request. -/
theorem edits_stage (j : Journal) (i k : ℕ) (e : Edit) :
    ({ j with staged := j.staged ++ [(i, e)] } : Journal).edits k =
      j.edits k ++ if i = k then [e] else [] := by
  by_cases hik : i = k <;> simp [Journal.edits, ownWork, hik]

/-- A commit keeps the edits of all requests. -/
theorem edits_commit (j : Journal) (done : List ℕ) (k : ℕ) :
    (⟨j.committed ++ j.staged, [], done⟩ : Journal).edits k = j.edits k := by
  simp [Journal.edits]

/-- The journal after one more exchange of the service. -/
theorem tells_next {j' : Journal} {ev : CallEvent}
    (h : j.Tells env d rpcs (Service.runs env fastWriter d rpcs sched))
    (hlog : (Service.runs env fastWriter d rpcs (sched ++ [i])).log =
      (Service.runs env fastWriter d rpcs sched).log ++ [(i, ev)])
    (hbooks : Books env.sysrepo d (Service.runs env fastWriter d rpcs (sched ++ [i])).state
      j'.ledger)
    (hedits : ∀ k, j'.edits k = j.edits k ++ if i = k then (acceptedEdit ev).toList else [])
    (hdone : ∀ k, k ∈ j'.done ↔ k ∈ j.done ∨ i = k ∧ ev = committed) :
    j'.Tells env d rpcs (Service.runs env fastWriter d rpcs (sched ++ [i])) := by
  refine ⟨hbooks, fun k => ?_, fun k => ?_⟩
  · rw [hedits, h.edits, hlog, own_append, own_single, acceptedEdits_append]
    split_ifs
    · rw [acceptedEdits_cons]
      simp [acceptedEdits]
    · rfl
  · rw [hdone, h.done, answeredOk_iff_mem_committed, answeredOk_iff_mem_committed, hlog,
      own_append, own_single, List.mem_append]
    split_ifs with hik <;> simp [hik, eq_comm]

/-- **An exchange of the service is a step of the journal.** -/
theorem tells_step {ev : CallEvent}
    (h : j.Tells env d rpcs (Service.runs env fastWriter d rpcs sched))
    (hlog : (Service.runs env fastWriter d rpcs (sched ++ [i])).log =
      (Service.runs env fastWriter d rpcs sched).log ++ [(i, ev)])
    (hserved : (session env).step (Service.runs env fastWriter d rpcs sched).state ev
      (Service.runs env fastWriter d rpcs (sched ++ [i])).state) :
    ∃ j', Journal.Step env.sysrepo d (fun i => (rpcs i).edits env.parse) j (i, ev) j' ∧
      j'.Tells env d rpcs (Service.runs env fastWriter d rpcs (sched ++ [i])) := by
  obtain ⟨l', hstep, hbooks⟩ := simulates_session env d _ _ _ _ h.books hserved
  have hown : own i (Service.runs env fastWriter d rpcs (sched ++ [i])).log =
      own i (Service.runs env fastWriter d rpcs sched).log ++ [ev] := by
    rw [hlog, own_append, own_single, if_pos rfl]
  have hgoes : i ∉ j.done := by
    rw [h.done, answeredOk_iff_mem_committed]
    have hconduct := conduct_own env fastWriter d rpcs (sched ++ [i]) i
    rw [hown] at hconduct
    exact not_committed_before hconduct
  cases hstep with
  | stage hacc =>
      obtain ⟨all, hwork, hnext⟩ := next_of_accepted hown hacc
      rw [← h.edits] at hnext
      refine ⟨_, Journal.Step.stage hwork hgoes hacc hnext, ?_⟩
      refine tells_next h hlog (by simpa [Journal.ledger] using hbooks) (fun k => ?_) fun k => ?_
      · rw [edits_stage, hacc]
        rfl
      · have hne : ev ≠ committed := by
          rintro rfl
          cases hacc
        simp [hne]
  | commit =>
      have hwork := all_of_committed hown
      rw [← h.edits] at hwork
      refine ⟨_, Journal.Step.commit hwork hgoes, ?_⟩
      refine tells_next h hlog (by simpa [Journal.ledger] using hbooks) (fun k => ?_) fun k => ?_
      · rw [edits_commit, acceptedEdit_committed]
        simp
      · simp [eq_comm]
  | read =>
      refine ⟨j, Journal.Step.read (edits_of_read hown), ?_⟩
      refine tells_next h hlog hbooks (fun k => ?_) fun k => ?_
      · simp [acceptedEdit_read]
      · simp [committed]
  | idle hacc hne hread =>
      refine ⟨j, Journal.Step.idle hgoes hacc hne hread, ?_⟩
      exact tells_next h hlog hbooks (fun k => by simp [hacc]) fun k => by simp [hne]

end Tells

/-- **The service refines the journal**: the log of every schedule of RPCs is a run of the
journal, and ends with the journal the service stands for. -/
theorem service_refines_journal (env : Env D) (fastWriter : Json → String) (d : D)
    (rpcs : ℕ → Rpc) (sched : List ℕ) :
    ∃ j, Run (journal env.sysrepo d fun i => (rpcs i).edits env.parse) .empty
        (Service.runs env fastWriter d rpcs sched).log j ∧
      j.Tells env d rpcs (Service.runs env fastWriter d rpcs sched) := by
  induction sched using List.reverseRecOn with
  | nil =>
      refine ⟨.empty, Run.nil _, ⟨rfl, rfl, rfl⟩, fun i => rfl, fun i => ?_⟩
      rw [answeredOk_iff_mem_committed]
      exact iff_of_false List.not_mem_nil List.not_mem_nil
  | append_singleton sched i ih =>
      obtain ⟨j, hrun, htells⟩ := ih
      have hstep : Service.runs env fastWriter d rpcs (sched ++ [i]) =
          Pool.step (serve env) (Service.runs env fastWriter d rpcs sched) i :=
        Pool.runs_append (serve env) _ sched [i]
      rcases Pool.step_cases (serve env) (Service.runs env fastWriter d rpcs sched) i with
        hsame | ⟨c, k, -, -, hstate, hlog⟩
      · rw [hstep, hsame]
        exact ⟨j, hrun, htells⟩
      · rw [← hstep] at hstate hlog
        obtain ⟨j', hnext, htells'⟩ := tells_step htells hlog ⟨rfl, hstate⟩
        refine ⟨j', ?_, htells'⟩
        rw [hlog]
        exact Run.append_iff.mpr ⟨j, hrun, Run.cons hnext (Run.nil j')⟩

end SysrepoGnxi
