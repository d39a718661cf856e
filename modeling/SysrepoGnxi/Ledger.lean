import SysrepoGnxi.Lib.Transition
import SysrepoGnxi.Reads

/-!
# The Session as a Ledger

Whatever calls are made of it, the one session behaves as a **ledger**: a list of committed
edits and a list of staged ones. An accepted edit goes on the second list, a successful commit
moves that list to the end of the first, and a read shows both lists applied to the first
datastore (`simulates_session`).

So no accepted edit is lost, doubled or reordered, and a read shows every edit accepted before
it, committed or not (`history_of_answers`). This is of the session alone; what is accepted
when, and of whom, depends on the handlers.
-/

open Dialogue JsonDoc Transition

namespace SysrepoGnxi

variable {D : Type}

/-! ### The ledger -/

/-- The edits committed so far, and those staged since. -/
structure Ledger where
  committed : List Edit
  staged : List Edit

/-- A reply to a read that has succeeded. -/
def ReadOk (ev : CallEvent) : Prop := ∃ xpath reply, ev = ⟨.getSubtrees xpath, .ok reply⟩

/-- The steps of a ledger on a first datastore. -/
inductive Ledger.Step (sr : Sysrepo D) (d : D) : Ledger → CallEvent → Ledger → Prop
  | stage {l : Ledger} {ev : CallEvent} {e : Edit} :
      acceptedEdit ev = some e → Step sr d l ev ⟨l.committed, l.staged ++ [e]⟩
  | commit {l : Ledger} :
      Step sr d l SysrepoGnxi.committed ⟨l.committed ++ l.staged, []⟩
  | read {l : Ledger} {xpath : String} :
      Step sr d l
        ⟨.getSubtrees xpath, .ok (sr.subtrees xpath (sr.applyAll (l.committed ++ l.staged) d))⟩ l
  | idle {l : Ledger} {ev : CallEvent} :
      acceptedEdit ev = none → ev ≠ SysrepoGnxi.committed → ¬ ReadOk ev → Step sr d l ev l

/-- The ledger as a transition system. -/
def ledger (sr : Sysrepo D) (d : D) : System Ledger CallEvent := ⟨Ledger.Step sr d⟩

/-- The session as a transition system: an exchange with the reply its environment gives. -/
def session (env : Env D) : System (World D) CallEvent :=
  ⟨fun w ev w' => ev.2 = (serve env w ev.1).1 ∧ w' = (serve env w ev.1).2⟩

/-- A session and the ledger it stands for. -/
structure Books (sr : Sysrepo D) (d : D) (w : World D) (l : Ledger) : Prop where
  published : w.published = l.committed
  pending : w.pending = l.staged
  running : w.running = sr.applyAll l.committed d

/-- What a session shows is both lists of its ledger. -/
theorem Books.view {sr : Sysrepo D} {d : D} {w : World D} {l : Ledger} (h : Books sr d w l) :
    w.view sr = sr.applyAll (l.committed ++ l.staged) d := by
  rw [World.view, h.pending, h.running, ← Sysrepo.applyAll_append]

/-- **The ledger simulates the session.** -/
theorem simulates_session (env : Env D) (d : D) :
    Simulates (session env) (ledger env.sysrepo d) (Books env.sysrepo d) := by
  rintro w l ev _ hbooks ⟨hreply, rfl⟩
  by_cases hcommit : ev = committed
  · subst hcommit
    refine ⟨_, Ledger.Step.commit, ?_⟩
    rw [serve_committed env w hreply]
    refine ⟨?_, rfl, ?_⟩
    · simp [World.publish, hbooks.published, hbooks.pending]
    · simp only [World.tick_running, World.publish, hbooks.view]
  · obtain ⟨hrun, hpub, hpend⟩ := serve_frame env w hreply hcommit
    cases hacc : acceptedEdit ev with
    | some e =>
        refine ⟨_, Ledger.Step.stage hacc, hpub.trans hbooks.published, ?_,
          hrun.trans hbooks.running⟩
        rw [hpend, hacc, hbooks.pending]
        rfl
    | none =>
        have hsame : Books env.sysrepo d (serve env w ev.1).2 l := by
          refine ⟨hpub.trans hbooks.published, ?_, hrun.trans hbooks.running⟩
          rw [hpend, hacc, hbooks.pending]
          exact List.append_nil _
        refine ⟨l, ?_, hsame⟩
        by_cases hread : ReadOk ev
        · obtain ⟨xpath, reply, rfl⟩ := hread
          have hshown : reply = env.sysrepo.subtrees xpath (w.view env.sysrepo) := by
            rcases orFail_cases env w
              (.ok (env.sysrepo.subtrees xpath (w.view env.sysrepo))) w with ⟨exc, heq⟩ | heq
            · simp only [serve, heq] at hreply
              cases hreply
            · simp only [serve, heq] at hreply
              exact Except.ok.inj hreply
          rw [hshown, hbooks.view]
          exact Ledger.Step.read
        · exact Ledger.Step.idle hacc hcommit hread

/-- The replies of an environment are a run of the session. -/
theorem run_session {env : Env D} {w : World D} {evs : List CallEvent}
    (h : Answers (serve env) w evs) : Run (session env) w evs (after (serve env) w evs) := by
  induction evs generalizing w with
  | nil => exact Run.nil w
  | cons ev evs ih => exact Run.cons ⟨h.1, rfl⟩ (ih h.2)

/-- An RPC that has ended is a whole dialogue. -/
theorem yields_of_ended {env : Env D} {fastWriter : Json → String} {d : D} {rpcs : ℕ → Rpc}
    {sched : List ℕ} {i : ℕ} {r : Except Exn Answer}
    (hr : (Service.runs env fastWriter d rpcs sched).procs i = .ret r) :
    Yields ((rpcs i).handler fastWriter).run
      (own i (Service.runs env fastWriter d rpcs sched).log) r := by
  have hsteps := Pool.steps (serve env) (fun i => ((rpcs i).handler fastWriter).run)
    (World.start d) sched i
  rw [show (Pool.runs (serve env) (Pool.start (fun i => ((rpcs i).handler fastWriter).run)
    (World.start d)) sched).procs i = .ret r from hr] at hsteps
  rw [← List.append_nil (own i _)]
  exact hsteps.yields (Yields.ret r)

/-- What a session answers is a run of its ledger. -/
theorem exists_ledger {env : Env D} {d : D} {evs : List CallEvent}
    (h : Answers (serve env) (World.start d) evs) :
    ∃ l, Run (ledger env.sysrepo d) ⟨[], []⟩ evs l ∧
      Books env.sysrepo d (after (serve env) (World.start d) evs) l := by
  have hstart : Books env.sysrepo d (World.start d) ⟨[], []⟩ := ⟨rfl, rfl, rfl⟩
  exact (simulates_session env d).run (run_session h) hstart

/-- The log of a service is what its session has answered. -/
theorem answers_log (env : Env D) (fastWriter : Json → String) (d : D) (rpcs : ℕ → Rpc)
    (sched : List ℕ) :
    Answers (serve env) (World.start d)
        ((Service.runs env fastWriter d rpcs sched).log.map Prod.snd) ∧
      (Service.runs env fastWriter d rpcs sched).state = after (serve env) (World.start d)
        ((Service.runs env fastWriter d rpcs sched).log.map Prod.snd) :=
  Pool.answers (serve env) (fun i => ((rpcs i).handler fastWriter).run) (World.start d) sched

/-! ### What a ledger has recorded -/

theorem acceptedEdit_committed : acceptedEdit committed = none := rfl

theorem acceptedEdit_read (xpath : String) (reply : Except Exn (Option (List Tree))) :
    acceptedEdit ⟨.getSubtrees xpath, reply⟩ = none := rfl

theorem acceptedEdits_cons (ev : CallEvent) (evs : List CallEvent) :
    acceptedEdits (ev :: evs) = (acceptedEdit ev).toList ++ acceptedEdits evs := by
  cases hacc : acceptedEdit ev <;> simp [acceptedEdits, hacc]

/-- **A ledger holds exactly the accepted edits**, in order. -/
theorem recorded_of_run {sr : Sysrepo D} {d : D} {l l' : Ledger} {evs : List CallEvent}
    (h : Run (ledger sr d) l evs l') :
    l'.committed ++ l'.staged = l.committed ++ l.staged ++ acceptedEdits evs := by
  induction h with
  | nil l => simp [acceptedEdits]
  | @cons l l₁ l₂ ev evs hstep _ ih =>
      rw [ih, acceptedEdits_cons]
      cases hstep with
      | stage hacc => simp [hacc]
      | commit => simp [acceptedEdit_committed]
      | read => simp [acceptedEdit_read]
      | idle hacc => simp [hacc]

/-- Without a successful commit nothing moves from one list to the other. -/
theorem committed_of_run {sr : Sysrepo D} {d : D} {l l' : Ledger} {evs : List CallEvent}
    (h : Run (ledger sr d) l evs l') (hno : committed ∉ evs) : l'.committed = l.committed := by
  induction h with
  | nil l => rfl
  | @cons l l₁ l₂ ev evs hstep _ ih =>
      rw [ih fun hmem => hno (List.mem_cons_of_mem _ hmem)]
      cases hstep with
      | commit => exact absurd List.mem_cons_self hno
      | _ => rfl

/-- **The history of a service**: with the exchanges `evs` of a schedule on the datastore `d`
and the session `w` after it. -/
structure History (sr : Sysrepo D) (d : D) (evs : List CallEvent) (w : World D) : Prop where
  /-- Every accepted edit is published or pending, once and in order. -/
  conserved : w.published ++ w.pending = acceptedEdits evs
  /-- The published ones are those before the last successful commit. -/
  published : ∀ evs₁ evs₂, evs = evs₁ ++ committed :: evs₂ → committed ∉ evs₂ →
    w.published = acceptedEdits evs₁
  /-- Without one nothing is published. -/
  unpublished : committed ∉ evs → w.published = []
  /-- The running datastore is that of the published edits. -/
  running : w.running = sr.applyAll w.published d
  /-- A read shows all edits accepted before it. -/
  reads : ∀ evs₁ evs₂ xpath reply, evs = evs₁ ++ ⟨.getSubtrees xpath, .ok reply⟩ :: evs₂ →
    reply = sr.subtrees xpath (sr.applyAll (acceptedEdits evs₁) d)

/-- The history of what a session answers. -/
theorem history_of_answers {env : Env D} {d : D} {evs : List CallEvent}
    (h : Answers (serve env) (World.start d) evs) :
    History env.sysrepo d evs (after (serve env) (World.start d) evs) := by
  obtain ⟨l, hrun, hbooks⟩ := exists_ledger h
  generalize after (serve env) (World.start d) evs = w at hbooks
  clear h
  refine ⟨?_, ?_, ?_, ?_, ?_⟩
  · rw [hbooks.published, hbooks.pending]
    exact recorded_of_run hrun
  · rintro evs₁ evs₂ rfl hno
    obtain ⟨l₁, hrun₁, hrest⟩ := Run.append_iff.mp hrun
    obtain ⟨l₂, hcommit, hrun₂⟩ := Run.cons_iff.mp hrest
    have hmoved : l₂.committed = l₁.committed ++ l₁.staged := by
      cases hcommit with
      | stage hacc => cases hacc
      | commit => rfl
      | idle _ hne => exact absurd rfl hne
    rw [hbooks.published, committed_of_run hrun₂ hno, hmoved, recorded_of_run hrun₁]
    rfl
  · intro hno
    rw [hbooks.published, committed_of_run hrun hno]
  · rw [hbooks.running, hbooks.published]
  · rintro evs₁ evs₂ xpath reply rfl
    obtain ⟨l₁, hrun₁, hrest⟩ := Run.append_iff.mp hrun
    obtain ⟨l₂, hread, -⟩ := Run.cons_iff.mp hrest
    have hall : l₁.committed ++ l₁.staged = acceptedEdits evs₁ := recorded_of_run hrun₁
    cases hread with
    | stage hacc => cases hacc
    | read => rw [hall]
    | idle _ _ hnot => exact absurd ⟨xpath, reply, rfl⟩ hnot

/-- **No edit is lost, doubled or reordered**, at any point of any schedule of RPCs. -/
theorem history_log (env : Env D) (fastWriter : Json → String) (d : D) (rpcs : ℕ → Rpc)
    (sched : List ℕ) :
    History env.sysrepo d ((Service.runs env fastWriter d rpcs sched).log.map Prod.snd)
      (Service.runs env fastWriter d rpcs sched).state := by
  obtain ⟨hanswers, hstate⟩ := answers_log env fastWriter d rpcs sched
  rw [hstate]
  exact history_of_answers hanswers

end SysrepoGnxi
