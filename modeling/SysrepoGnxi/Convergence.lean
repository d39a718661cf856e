import SysrepoGnxi.Journal

/-!
# Concurrent Clients Converge

The Set requests of the service are not isolated: their edits mix on the session, and a commit
publishes those of others. Clients whose edits commute in the datastore need not care. Once all
of them have been answered OK, the running datastore is the one that their requests make one
after another, in any order, whatever the schedule was, whoever has read in between and however
the commits have mixed the edits (`sets_converge`).

Two things about the handlers carry this. A request that has been answered OK has made each of
its edits once and in order, and when all have been, nothing is left on the session.
-/

open Dialogue JsonDoc SharedBuffer

namespace SysrepoGnxi

variable {D : Type}

/-- All Set requests that take part in a schedule have been answered OK. -/
def SetsDone (env : Env D) (fastWriter : Json → String) (d : D) (rpcs : ℕ → Rpc)
    (sched : List ℕ) : Prop :=
  ∀ i ∈ sched, ∀ request, rpcs i = .set request →
    ∃ r, (Service.runs env fastWriter d rpcs sched).procs i = .ret r ∧ AnsweredOk r

/-- **The edits of different requests commute**, whatever is in the datastore. -/
def EditsCommute (sr : Sysrepo D) (work : ℕ → List Edit) (sched : List ℕ) : Prop :=
  ∀ i ∈ sched, ∀ j ∈ sched, i ≠ j → ∀ e ∈ work i, ∀ e' ∈ work j, ∀ d,
    sr.apply e' (sr.apply e d) = sr.apply e (sr.apply e' d)

/-- The edits of an RPC: none where it is no Set request. -/
def Rpc.work (parse : String → Except Exn (List DataNode)) (rpc : Rpc) : List Edit :=
  (rpc.edits parse).getD []

section Converge

variable {env : Env D} {fastWriter : Json → String} {d : D} {rpcs : ℕ → Rpc} {sched : List ℕ}
  {i : ℕ}

/-- Whoever has made a call takes part in the schedule. -/
theorem mem_sched_of_own {ev : CallEvent}
    (h : ev ∈ own i (Service.runs env fastWriter d rpcs sched).log) : i ∈ sched := by
  obtain ⟨sched₁, sched₂, -, hsched, -⟩ := Pool.mem_log (mem_own.mp h)
  rw [hsched]
  simp

/-- Where every Set request is done, nothing is pending. -/
theorem SetsDone.pending_eq_nil (h : SetsDone env fastWriter d rpcs sched) :
    (Service.runs env fastWriter d rpcs sched).state.pending = [] := by
  refine List.eq_nil_iff_forall_not_mem.mpr fun e he => ?_
  obtain ⟨i, request, hrpc, hacc, hno⟩ := uncommitted_of_pending he
  obtain ⟨ev, hev, -⟩ := List.mem_filterMap.mp hacc
  obtain ⟨r, hr, hok⟩ := h i (mem_sched_of_own hev) request hrpc
  exact hno ((answeredOk_iff_committed (by rw [hrpc]; rfl) hr).mp hok)

/-- So the running datastore has all accepted edits. -/
theorem SetsDone.running_eq (h : SetsDone env fastWriter d rpcs sched) :
    (Service.runs env fastWriter d rpcs sched).state.running =
      env.sysrepo.applyAll
        (acceptedEdits ((Service.runs env fastWriter d rpcs sched).log.map Prod.snd)) d := by
  have hhistory := history_log env fastWriter d rpcs sched
  rw [hhistory.running, ← hhistory.conserved, h.pending_eq_nil, List.append_nil]

/-- Those accepted of an RPC of the schedule are all it may make. -/
theorem SetsDone.acceptedEdits_own (h : SetsDone env fastWriter d rpcs sched) (hi : i ∈ sched) :
    acceptedEdits (own i (Service.runs env fastWriter d rpcs sched).log) =
      (rpcs i).work env.parse := by
  cases hrpc : rpcs i with
  | set request =>
      obtain ⟨r, hr, hok⟩ := h i hi request hrpc
      exact acceptedEdits_of_ok hrpc hr hok
  | _ =>
      refine List.eq_nil_iff_forall_not_mem.mpr fun e he => ?_
      obtain ⟨request, hset⟩ := set_of_acceptedEdit he
      rw [hrpc] at hset
      cases hset

/-- The marks of a log hold its accepted edits. -/
theorem map_snd_puts_marks (log : List (ℕ × CallEvent)) :
    (puts (marks log)).map Prod.snd = acceptedEdits (log.map Prod.snd) := by
  induction log with
  | nil => rfl
  | cons ev log ih =>
      obtain ⟨i, ev⟩ := ev
      rw [List.map_cons, acceptedEdits_cons, ← ih, marks_cons]
      by_cases hev : ev = committed
      · subst hev
        rfl
      · rw [mark_of_ne hev]
        cases acceptedEdit ev <;> rfl

end Converge

/-- **Set requests whose edits commute converge**: once all of them have been answered OK,
nothing is pending, and the running datastore is the one they make one after another, in any
order. -/
theorem sets_converge (env : Env D) (fastWriter : Json → String) (d : D) (rpcs : ℕ → Rpc)
    (sched : List ℕ) (hcomm : EditsCommute env.sysrepo (fun i => (rpcs i).work env.parse) sched)
    (hdone : SetsDone env fastWriter d rpcs sched) (order : List ℕ) (hnodup : order.Nodup)
    (horder : ∀ i, i ∈ order ↔ i ∈ sched) :
    (Service.runs env fastWriter d rpcs sched).state.pending = [] ∧
      (Service.runs env fastWriter d rpcs sched).state.running =
        env.sysrepo.applyAll (order.flatMap fun i => (rpcs i).work env.parse) d := by
  refine ⟨hdone.pending_eq_nil, ?_⟩
  set log := (Service.runs env fastWriter d rpcs sched).log
  have hown : ∀ i, ownWork i (puts (marks log)) =
      if i ∈ order then (rpcs i).work env.parse else [] := by
    intro i
    rw [ownWork_marks]
    split_ifs with hi
    · exact hdone.acceptedEdits_own ((horder i).mp hi)
    · refine List.eq_nil_iff_forall_not_mem.mpr fun e he => ?_
      obtain ⟨ev, hev, -⟩ := List.mem_filterMap.mp he
      exact hi ((horder i).mpr (mem_sched_of_own hev))
  have hwork {x : ℕ × Edit} (hx : x ∈ puts (marks log)) :
      x.1 ∈ sched ∧ x.2 ∈ (rpcs x.1).work env.parse := by
    have hmem := mem_ownWork.mpr hx
    rw [hown] at hmem
    split_ifs at hmem with hi
    · exact ⟨(horder x.1).mp hi, hmem⟩
    · cases hmem
  rw [hdone.running_eq, ← map_snd_puts_marks]
  refine foldl_eq_serial hnodup hown (fun x hx y hy hne => ?_) d
  obtain ⟨hi, he⟩ := hwork hx
  obtain ⟨hj, he'⟩ := hwork hy
  exact hcomm x.1 hi y.1 hj hne x.2 he y.2 he'

/-! ### Two clients -/

/-- A datastore of two leaves, the host name and the domain. -/
def twoLeaves : Sysrepo (String × String) where
  apply
    | .set (.xpath path) (some (.string s)), d =>
        if path = "/ex:hostname" then (s, d.2)
        else if path = "/ex:domain" then (d.1, s)
        else d
    | _, d => d
  subtrees _ _ := none

/-- The environment with the two leaves, in which no call fails. -/
def twoLeavesEnv : Env (String × String) where
  sysrepo := twoLeaves
  parse _ := .ok []
  fails _ := none
  systemClock n := n
  highResolutionClock := .ofNat

/-- A client writes one of the leaves. -/
def writeLeaf (i : ℕ) : Rpc :=
  let name := if i = 0 then "ex:hostname" else "ex:domain"
  .set { update := [⟨some { elem := [⟨name, []⟩] }, some (.stringVal "new")⟩] }

/-- The two clients take turns. -/
def inTurns : List ℕ := [1, 0, 0, 1, 1, 0, 0, 1]

theorem mem_inTurns {i : ℕ} : i ∈ inTurns ↔ i = 0 ∨ i = 1 := by
  simp only [inTurns, List.mem_cons, List.not_mem_nil, or_false]
  omega

theorem mem_work_zero {e : Edit} (h : e ∈ (writeLeaf 0).work twoLeavesEnv.parse) :
    e = .set (.xpath "/ex:hostname") (some (.string "new")) := List.mem_singleton.mp h

theorem mem_work_one {e : Edit} (h : e ∈ (writeLeaf 1).work twoLeavesEnv.parse) :
    e = .set (.xpath "/ex:domain") (some (.string "new")) := List.mem_singleton.mp h

theorem commute_writeLeaf :
    EditsCommute twoLeaves (fun i => (writeLeaf i).work twoLeavesEnv.parse) inTurns := by
  intro i hi j hj hne e he e' he' d
  rcases mem_inTurns.mp hi with rfl | rfl
  · obtain rfl : j = 1 := (mem_inTurns.mp hj).resolve_left (Ne.symm hne)
    rw [mem_work_zero he, mem_work_one he']
    rfl
  · obtain rfl : j = 0 := (mem_inTurns.mp hj).resolve_right (Ne.symm hne)
    rw [mem_work_one he, mem_work_zero he']
    rfl

theorem setsDone_writeLeaf :
    SetsDone twoLeavesEnv (fun _ => "") ("old", "old") writeLeaf inTurns := by
  intro i hi request _
  rcases mem_inTurns.mp hi with rfl | rfl
  · exact ⟨_, rfl, _, rfl⟩
  · exact ⟨_, rfl, _, rfl⟩

/-- The two clients in turns leave what they leave one after the other. -/
theorem writeLeaf_converge :
    (Service.runs twoLeavesEnv (fun _ => "") ("old", "old") writeLeaf inTurns).state.pending =
        [] ∧
      (Service.runs twoLeavesEnv (fun _ => "") ("old", "old") writeLeaf inTurns).state.running =
        twoLeaves.applyAll ([0, 1].flatMap fun i => (writeLeaf i).work twoLeavesEnv.parse)
          ("old", "old") :=
  sets_converge twoLeavesEnv (fun _ => "") ("old", "old") writeLeaf inTurns commute_writeLeaf
    setsDone_writeLeaf [0, 1] (by decide) fun i => by
      rw [mem_inTurns]
      simp

end SysrepoGnxi
