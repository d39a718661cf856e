import SysrepoGnxi.FailStop
import SysrepoGnxi.Ledger

/-!
# What OK Promises to a Set Client

The Set requests of the service are neither atomic nor isolated: the commit of one publishes
whatever is pending, of whichever request. This module says what a client may rely on all the
same, under every schedule and every failure.

* `Durable.ok` — the edits of a request that was answered OK are published, all of them and in
  order, from then on;
* `Durable.pending` — an edit that is pending is that of a Set request which has not
  committed, and so has not been answered OK.
-/

open Dialogue JsonDoc

namespace SysrepoGnxi

variable {D : Type}

/-- **What OK promises**, at a point of a schedule of RPCs. -/
structure Durable (env : Env D) (fastWriter : Json → String) (d : D) (rpcs : ℕ → Rpc)
    (sched : List ℕ) : Prop where
  ok : ∀ i request r, rpcs i = .set request →
    (Service.runs env fastWriter d rpcs sched).procs i = .ret r → AnsweredOk r →
    List.Sublist (requestEdits env.parse request)
      (Service.runs env fastWriter d rpcs sched).state.published
  pending : ∀ e ∈ (Service.runs env fastWriter d rpcs sched).state.pending, ∃ i request,
    rpcs i = .set request ∧
      e ∈ acceptedEdits (own i (Service.runs env fastWriter d rpcs sched).log) ∧
      committed ∉ own i (Service.runs env fastWriter d rpcs sched).log

/-! ### The last commit of a log -/

/-- A log with a successful commit has a last one. -/
theorem exists_last_commit {evs : List CallEvent} (h : committed ∈ evs) :
    ∃ evs₁ evs₂, evs = evs₁ ++ committed :: evs₂ ∧ committed ∉ evs₂ := by
  obtain ⟨rest, front, hrev, hno⟩ := List.eq_append_cons_of_mem (List.mem_reverse.mpr h)
  refine ⟨front.reverse, rest.reverse, ?_, by simpa using hno⟩
  rw [← List.reverse_reverse evs, hrev]
  simp

/-- The exchanges of one RPC are among all. -/
theorem own_sublist (i : ℕ) (log : List (ℕ × CallEvent)) :
    List.Sublist (own i log) (log.map Prod.snd) :=
  List.filter_sublist.map _

/-- Where an RPC has committed, none of its exchanges comes after the last commit. -/
theorem own_after_last_commit {kind : Rpc.Kind} {i j : ℕ} {log₁ log₂ : List (ℕ × CallEvent)}
    (hconduct : Conduct kind (own i (log₁ ++ (j, committed) :: log₂)))
    (hmem : committed ∈ own i (log₁ ++ (j, committed) :: log₂))
    (hno : committed ∉ log₂.map Prod.snd) : own i log₂ = [] := by
  have hsplit : log₁ ++ (j, committed) :: log₂ = (log₁ ++ [(j, committed)]) ++ log₂ := by simp
  rw [hsplit, own_append] at hconduct hmem
  have hfront : committed ∈ own i (log₁ ++ [(j, committed)]) := by
    rcases List.mem_append.mp hmem with hmem | hmem
    · exact hmem
    · exact absurd ((own_sublist i log₂).subset hmem) hno
  obtain ⟨evs₁, evs₂, hevs⟩ := List.append_of_mem hfront
  rw [hevs, List.append_assoc, List.cons_append] at hconduct
  exact (List.append_eq_nil_iff.mp (hconduct.commitLast _ _ _ rfl)).2

/-- The log of a service around its last commit: what was accepted before it is published,
what was accepted after it is pending. -/
theorem split_at_last_commit {sr : Sysrepo D} {d : D} {log : List (ℕ × CallEvent)} {w : World D}
    (h : History sr d (log.map Prod.snd) w) (hmem : committed ∈ log.map Prod.snd) :
    ∃ log₁ j log₂, log = log₁ ++ (j, committed) :: log₂ ∧ committed ∉ log₂.map Prod.snd ∧
      w.published = acceptedEdits (log₁.map Prod.snd) ∧
      w.pending = acceptedEdits (log₂.map Prod.snd) := by
  obtain ⟨evs₁, evs₂, hevs, hno⟩ := exists_last_commit hmem
  obtain ⟨log₁, rest, rfl, rfl, hrest⟩ := List.map_eq_append_iff.mp hevs
  obtain ⟨⟨j, ev⟩, log₂, rfl, rfl, rfl⟩ := List.map_eq_cons_iff.mp hrest
  have hpublished := h.published _ _ hevs hno
  refine ⟨log₁, j, log₂, rfl, hno, hpublished, ?_⟩
  have hall := h.conserved
  rw [hpublished, hevs, acceptedEdits_append, acceptedEdits_cons] at hall
  exact List.append_cancel_left hall

/-- An accepted edit was accepted of some RPC. -/
theorem exists_own_of_accepted {log : List (ℕ × CallEvent)} {e : Edit}
    (h : e ∈ acceptedEdits (log.map Prod.snd)) :
    ∃ i ev, (i, ev) ∈ log ∧ acceptedEdit ev = some e ∧ e ∈ acceptedEdits (own i log) := by
  obtain ⟨ev, hev, hedit⟩ := List.mem_filterMap.mp h
  obtain ⟨⟨i, ev⟩, hi, rfl⟩ := List.mem_map.mp hev
  exact ⟨i, ev, hi, hedit, List.mem_filterMap.mpr ⟨ev, mem_own.mpr hi, hedit⟩⟩

/-- Whoever has had an edit accepted is a Set request. -/
theorem set_of_acceptedEdit {env : Env D} {fastWriter : Json → String} {d : D} {rpcs : ℕ → Rpc}
    {sched : List ℕ} {i : ℕ} {e : Edit}
    (h : e ∈ acceptedEdits (own i (Service.runs env fastWriter d rpcs sched).log)) :
    ∃ request, rpcs i = .set request := by
  obtain ⟨ev, hev, hedit⟩ := List.mem_filterMap.mp h
  have hmay := (conduct_own env fastWriter d rpcs sched i).calls ev hev
  cases hrpc : rpcs i with
  | set request => exact ⟨request, rfl⟩
  | _ =>
      rw [hrpc] at hmay
      obtain ⟨c, r⟩ := ev
      cases c with
      | setItem | deleteItem => cases hmay
      | _ => cases hedit

/-- The edits accepted of a Set request that has been answered OK are all it asks for. -/
theorem acceptedEdits_of_ok {env : Env D} {fastWriter : Json → String} {d : D} {rpcs : ℕ → Rpc}
    {sched : List ℕ} {i : ℕ} {request : SetRequest} {r : Except Exn Answer}
    (hrpc : rpcs i = .set request)
    (hr : (Service.runs env fastWriter d rpcs sched).procs i = .ret r) (hok : AnsweredOk r) :
    acceptedEdits (own i (Service.runs env fastWriter d rpcs sched).log) =
      requestEdits env.parse request := by
  obtain ⟨hanswers, -⟩ := answers_log env fastWriter d rpcs sched
  have hparsed : ∀ ev ∈ own i (Service.runs env fastWriter d rpcs sched).log,
      Parsed env.parse ev.1 ev.2 := fun ev hev =>
    parsed_of_answers hanswers ev ((own_sublist i _).subset hev)
  have hyields := yields_of_ended hr
  rw [hrpc] at hyields
  obtain ⟨o, hrun, rfl⟩ := Throwing.yields_bind_pure.mp hyields
  cases o with
  | error e => exact hok.elim
  | ok result =>
      obtain ⟨response, rfl⟩ := hok
      exact (SetRpc.acceptedEdits_run hrun hparsed).1

/-- A pending edit was accepted of a Set request that has not committed. -/
theorem uncommitted_of_pending {env : Env D} {fastWriter : Json → String} {d : D} {rpcs : ℕ → Rpc}
    {sched : List ℕ} {e : Edit}
    (he : e ∈ (Service.runs env fastWriter d rpcs sched).state.pending) :
    ∃ i request, rpcs i = .set request ∧
      e ∈ acceptedEdits (own i (Service.runs env fastWriter d rpcs sched).log) ∧
      committed ∉ own i (Service.runs env fastWriter d rpcs sched).log := by
  have hhistory := history_log env fastWriter d rpcs sched
  have hall : e ∈ acceptedEdits ((Service.runs env fastWriter d rpcs sched).log.map Prod.snd) := by
    rw [← hhistory.conserved]
    exact List.mem_append_right _ he
  by_cases hmem : committed ∈ (Service.runs env fastWriter d rpcs sched).log.map Prod.snd
  · obtain ⟨log₁, j, log₂, hlog, hno, -, hpend⟩ := split_at_last_commit hhistory hmem
    rw [hpend] at he
    obtain ⟨i, ev, hi, -, hown⟩ := exists_own_of_accepted he
    have hin : e ∈ acceptedEdits (own i (Service.runs env fastWriter d rpcs sched).log) := by
      rw [hlog, show log₁ ++ (j, committed) :: log₂ = log₁ ++ [(j, committed)] ++ log₂ by simp,
        own_append, acceptedEdits_append]
      exact List.mem_append_right _ hown
    obtain ⟨request, hrpc⟩ := set_of_acceptedEdit hin
    refine ⟨i, request, hrpc, hin, ?_⟩
    intro hcommit
    have hconduct := conduct_own env fastWriter d rpcs sched i
    rw [hlog] at hconduct hcommit
    have hnil := own_after_last_commit hconduct hcommit hno
    exact List.not_mem_nil (hnil ▸ mem_own.mpr hi)
  · obtain ⟨i, -, -, -, hin⟩ := exists_own_of_accepted hall
    obtain ⟨request, hrpc⟩ := set_of_acceptedEdit hin
    exact ⟨i, request, hrpc, hin, fun hc => hmem ((own_sublist i _).subset hc)⟩

/-- The edits of a Set request that has been answered OK are published. -/
theorem published_of_ok {env : Env D} {fastWriter : Json → String} {d : D} {rpcs : ℕ → Rpc}
    {sched : List ℕ} {i : ℕ} {request : SetRequest} {r : Except Exn Answer}
    (hrpc : rpcs i = .set request)
    (hr : (Service.runs env fastWriter d rpcs sched).procs i = .ret r) (hok : AnsweredOk r) :
    List.Sublist (requestEdits env.parse request)
      (Service.runs env fastWriter d rpcs sched).state.published := by
  have hhistory := history_log env fastWriter d rpcs sched
  have hconduct := conduct_own env fastWriter d rpcs sched i
  have hmem := (answeredOk_iff_committed (by rw [hrpc]; rfl) hr).mp hok
  rw [← acceptedEdits_of_ok hrpc hr hok]
  obtain ⟨log₁, j, log₂, hlog, hno, hpub, -⟩ :=
    split_at_last_commit hhistory ((own_sublist i _).subset hmem)
  rw [hlog] at hconduct hmem ⊢
  -- all exchanges of the request come before the last commit, or are that commit
  have hnil := own_after_last_commit hconduct hmem hno
  have hown : acceptedEdits (own i (log₁ ++ (j, committed) :: log₂)) =
      acceptedEdits (own i log₁) := by
    have hsplit : log₁ ++ (j, committed) :: log₂ = log₁ ++ [(j, committed)] ++ log₂ := by simp
    rw [hsplit, own_append, own_append, hnil, own_single, List.append_nil, acceptedEdits_append]
    split_ifs
    · exact List.append_nil _
    · exact List.append_nil _
  rw [hown, hpub]
  exact (own_sublist i log₁).filterMap _

/-- **Durability**: an OK is kept, and what is pending has not been promised. -/
theorem durable (env : Env D) (fastWriter : Json → String) (d : D) (rpcs : ℕ → Rpc)
    (sched : List ℕ) : Durable env fastWriter d rpcs sched :=
  ⟨fun _ _ _ hrpc hr hok => published_of_ok hrpc hr hok, fun _ he => uncommitted_of_pending he⟩

end SysrepoGnxi
