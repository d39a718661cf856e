import SysrepoGnxi.Lib.SharedBuffer
import SysrepoGnxi.Transaction

/-!
# Concurrent Set Requests

Set requests served concurrently share the one session, so their calls interleave there in
any order (`servePool`). They are isolated if every commit publishes exactly the edits of
the request that makes it, and the running datastore only passes through states that whole
requests make, one after another (`Isolated`).

To the session an interleaving is a buffer shared by writers: an accepted edit is put into
it and a successful commit flushes it. Each handler commits once and last, with all its
edits made (`complete_marks`), so `isolated_iff` follows from the general fact about such
buffers: requests are isolated iff the session is handed over without pending edits.
-/

open Dialogue SharedBuffer

namespace SysrepoGnxi

variable {D : Type}

/-- What an exchange does to the edits pending on the session. -/
def mark : CallEvent → Option (Mark Edit)
  | ⟨.commit, .ok _⟩ => some .flush
  | ev => (acceptedEdit ev).map .put

/-- The exchanges of a log that change the pending edits, each with its request. -/
def marks (log : List (ℕ × CallEvent)) : List (SharedBuffer.Entry Edit) :=
  log.filterMap fun ev => (mark ev.2).map fun m => (ev.1, m)

/-- Set requests served concurrently: the pool after the calls of a schedule. -/
def servePool (env : Env D) (d : D) (requests : ℕ → SetRequest) (sched : List ℕ) :
    Pool Call Call.Reply (World D) SetResult :=
  Pool.runs (serve env) (Pool.start (fun i => (SetRpc.run (requests i)).run) (.start d)) sched

/-- **The requests are isolated**: each commit publishes the edits of its own request, and
whenever the schedule is interrupted, the running datastore is the initial one under the
edits of some of the requests, each as a whole and one after another. -/
structure Isolated (env : Env D) (d : D) (requests : ℕ → SetRequest) (sched : List ℕ) :
    Prop where
  published : ∀ b ∈ batches [] (marks (servePool env d requests sched).log),
    b.2.map Prod.snd = requestEdits env.parse (requests b.1)
  serial : ∀ sched₁, sched₁ <+: sched → ∃ order : List ℕ, order.Nodup ∧
    (servePool env d requests sched₁).state.running =
      env.sysrepo.applyAll (order.flatMap fun i => requestEdits env.parse (requests i)) d

/-! ### The session as a shared buffer -/

theorem mark_committed : mark committed = some .flush := rfl

theorem mark_of_ne {ev : CallEvent} (h : ev ≠ committed) :
    mark ev = (acceptedEdit ev).map .put := by
  obtain ⟨c, r⟩ := ev
  cases c with
  | commit =>
      cases r with
      | error exc => rfl
      | ok u => exact absurd rfl h
  | _ => rfl

/-- Only a successful commit flushes the session. -/
theorem mark_eq_flush {ev : CallEvent} : mark ev = some .flush ↔ ev = committed := by
  by_cases hev : ev = committed
  · simp [hev, mark_committed]
  · rw [mark_of_ne hev]
    simp [hev]

theorem marks_cons (i : ℕ) (ev : CallEvent) (log : List (ℕ × CallEvent)) :
    marks ((i, ev) :: log) = ((mark ev).map fun m => (i, m)).toList ++ marks log := by
  cases hm : mark ev <;> simp [marks, hm]

@[simp] theorem marks_append (log₁ log₂ : List (ℕ × CallEvent)) :
    marks (log₁ ++ log₂) = marks log₁ ++ marks log₂ := by
  simp [marks]

theorem mem_marks_flush {i : ℕ} {log : List (ℕ × CallEvent)} :
    (i, .flush) ∈ marks log ↔ (i, committed) ∈ log := by
  constructor
  · intro h
    obtain ⟨⟨j, ev⟩, hmem, hev⟩ := List.mem_filterMap.mp h
    obtain ⟨hflush, rfl⟩ : mark ev = some .flush ∧ j = i := by simpa using hev
    exact mark_eq_flush.mp hflush ▸ hmem
  · intro h
    exact List.mem_filterMap.mpr ⟨_, h, rfl⟩

/-- A flush in the marks of a log is a commit in the log, at the same place. -/
theorem exists_of_marks_eq_append {log : List (ℕ × CallEvent)} {i : ℕ}
    {log₁ log₂ : List (SharedBuffer.Entry Edit)}
    (h : marks log = log₁ ++ (i, .flush) :: log₂) :
    ∃ l₁ l₂, log = l₁ ++ (i, committed) :: l₂ ∧ marks l₁ = log₁ := by
  obtain ⟨l₁, l₂, rfl, rfl, hl₂⟩ := List.filterMap_eq_append_iff.mp h
  obtain ⟨l₃, ⟨j, ev⟩, l₄, rfl, hl₃, hev, -⟩ := List.filterMap_eq_cons_iff.mp hl₂
  obtain ⟨hflush, rfl⟩ : mark ev = some .flush ∧ j = i := by simpa using hev
  obtain rfl := mark_eq_flush.mp hflush
  -- the exchanges between the last mark and the commit leave none
  have hnil : marks l₃ = [] := List.filterMap_eq_nil_iff.mpr fun x hx => by
    simpa using hl₃ x hx
  refine ⟨l₁ ++ l₃, l₄, by simp, ?_⟩
  rw [marks_append, hnil, List.append_nil]
  rfl

/-- **The session is a shared buffer**: pending are the edits left in it, and the batches
are what has been published. -/
theorem session_marks (env : Env D) {w : World D} {buf : Buffer Edit}
    (hbuf : w.pending = buf.map Prod.snd) {log : List (ℕ × CallEvent)}
    (h : Answers (serve env) w (log.map Prod.snd)) :
    (after (serve env) w (log.map Prod.snd)).pending =
        (remaining buf (marks log)).map Prod.snd ∧
      (after (serve env) w (log.map Prod.snd)).running =
        env.sysrepo.applyAll ((batches buf (marks log)).flatMap fun b => b.2.map Prod.snd)
          w.running := by
  induction log generalizing w buf with
  | nil => simp [marks, remaining, batches, hbuf]
  | cons ev log ih =>
      obtain ⟨i, ev⟩ := ev
      obtain ⟨hrep, hrest⟩ := h
      by_cases hev : ev = committed
      · subst hev
        have hnext := serve_committed env w hrep
        rw [marks_cons, mark_committed]
        simp only [List.map_cons, after_cons] at hrest ⊢
        rw [hnext] at hrest ⊢
        have hempty : (w.publish env.sysrepo).tick.pending =
            ([] : Buffer Edit).map Prod.snd := rfl
        obtain ⟨hp, hr⟩ := ih hempty hrest
        refine ⟨hp, ?_⟩
        rw [hr]
        simp only [Option.map_some, Option.toList_some, List.cons_append, List.nil_append,
          batches, List.flatMap_cons, Sysrepo.applyAll_append, World.tick_running,
          World.publish, World.view, hbuf]
      · obtain ⟨hr₁, -, hp₁⟩ := serve_frame env w hrep hev
        rw [marks_cons, mark_of_ne hev]
        simp only [List.map_cons, after_cons] at hrest ⊢
        cases hacc : acceptedEdit ev with
        | none =>
            rw [hacc, Option.toList_none, List.append_nil] at hp₁
            obtain ⟨hp, hr⟩ := ih (hp₁.trans hbuf) hrest
            exact ⟨hp, hr.trans (by rw [hr₁]; rfl)⟩
        | some e =>
            rw [hacc] at hp₁
            have hput : (serve env w ev.1).2.pending = (buf ++ [(i, e)]).map Prod.snd := by
              rw [hp₁, hbuf]
              simp
            obtain ⟨hp, hr⟩ := ih hput hrest
            exact ⟨hp, hr.trans (by rw [hr₁]; rfl)⟩

/-- The edits a request has had accepted are its own work in the buffer. -/
theorem ownWork_marks (i : ℕ) (log : List (ℕ × CallEvent)) :
    ownWork i (puts (marks log)) = acceptedEdits (own i log) := by
  induction log with
  | nil => rfl
  | cons ev log ih =>
      obtain ⟨j, ev⟩ := ev
      have hsplit : ((j, ev) :: log : List (ℕ × CallEvent)) = [(j, ev)] ++ log := rfl
      rw [hsplit, own_append, acceptedEdits_append, ← ih, own_single]
      by_cases hev : ev = committed
      · subst hev
        have hnone : acceptedEdits (if j = i then [committed] else []) = [] := by
          split_ifs <;> rfl
        rw [hnone, marks_append]
        simp [marks, mark_committed, puts]
      · rw [marks_append]
        cases hacc : acceptedEdit ev with
        | none =>
            have hnone : acceptedEdits (if j = i then [ev] else []) = [] := by
              split_ifs <;> simp [acceptedEdits, hacc]
            rw [hnone]
            simp [marks, mark_of_ne hev, hacc]
        | some e =>
            by_cases hji : j = i <;>
              simp [marks, mark_of_ne hev, hacc, puts, ownWork, hji, acceptedEdits]

instance (c : Call) : Nonempty c.Reply := by
  cases c with
  | getTimeNanosec => exact ⟨(0 : ℕ)⟩
  | now => exact ⟨TimePoint.ofNat 0⟩
  | write | tryCancel => exact ⟨()⟩
  | _ => exact ⟨.error .nullPointer⟩

/-- **A request has made all its edits when it commits**, and commits once. -/
theorem own_before_commit {request : SetRequest} {evs₁ evs₂ : List CallEvent}
    {q : Prog Call Call.Reply SetResult} {parse : String → Except Exn (List DataNode)}
    (h : Steps (SetRpc.run request).run (evs₁ ++ committed :: evs₂) q)
    (hr : ∀ ev ∈ evs₁ ++ committed :: evs₂, Parsed parse ev.1 ev.2) :
    acceptedEdits evs₁ = requestEdits parse request ∧ committed ∉ evs₁ := by
  -- the handler has ended with this commit: no exchange can follow in a whole dialogue
  obtain ⟨evs₃, r, hq⟩ := exists_yields q
  have hy := h.yields hq
  rcases SetRpc.yields_run_cases hy with ⟨evs', t, response, hevs, -, hno, rfl⟩ | ⟨hno, -⟩
  · have hne : committed ∉ (⟨.getTimeNanosec, t⟩ :: evs' : List CallEvent) := by
      intro hmem
      rcases List.mem_cons.mp hmem with heq | hmem
      · simp [committed] at heq
      · exact hno _ hmem rfl
    have hsplit : evs₁ ++ committed :: (evs₂ ++ evs₃) =
        (⟨.getTimeNanosec, t⟩ :: evs') ++ committed :: [] := by
      rw [← hevs]
      simp
    -- the commit stands at the only place where there is one
    obtain ⟨hevs₁, -, hlast⟩ :=
      (List.append_cons_inj_of_notMem hne List.not_mem_nil).mp hsplit.symm
    obtain ⟨rfl, rfl⟩ := List.append_eq_nil_iff.mp hlast.symm
    rw [List.append_nil] at hy
    have hedits := (SetRpc.acceptedEdits_run hy hr).1
    refine ⟨?_, by rw [← hevs₁]; exact hne⟩
    rw [← hedits, acceptedEdits_append]
    exact (List.append_nil _).symm
  · exact absurd rfl (hno committed (by simp))

/-- **Every handler of the pool flushes once, when its work is complete.** -/
theorem complete_marks (env : Env D) (d : D) (requests : ℕ → SetRequest) (sched : List ℕ) :
    Complete (fun i => requestEdits env.parse (requests i))
      (marks (servePool env d requests sched).log) := by
  intro log₁ i log₂ hlog
  obtain ⟨l₁, l₂, hsplit, rfl⟩ := exists_of_marks_eq_append hlog
  have hown : own i (servePool env d requests sched).log =
      own i l₁ ++ committed :: own i l₂ := by
    rw [hsplit, own_append, own_cons_self]
  have hsteps := Pool.steps (serve env) (fun i => (SetRpc.run (requests i)).run) (.start d)
    sched i
  obtain ⟨hans, -⟩ := Pool.answers (serve env) (fun i => (SetRpc.run (requests i)).run)
    (.start d) sched
  have hparsed : ∀ ev ∈ own i (servePool env d requests sched).log,
      Parsed env.parse ev.1 ev.2 := fun ev hev =>
    parsed_of_answers hans ev (List.mem_map.mpr ⟨(i, ev), mem_own.mp hev, rfl⟩)
  rw [hown] at hparsed
  rw [← servePool, hown] at hsteps
  obtain ⟨hwork, hfirst⟩ := own_before_commit hsteps hparsed
  rw [ownWork_marks, hwork]
  exact ⟨rfl, fun hmem => hfirst (mem_own.mpr (mem_marks_flush.mp hmem))⟩

/-- **When concurrent Set requests are isolated**: exactly when the session is handed over
from one to another without pending edits, up to the last commit. -/
theorem isolated_iff (env : Env D) (d : D) (requests : ℕ → SetRequest) (sched : List ℕ) :
    Isolated env d requests sched ↔
      HandsOver none (marks (servePool env d requests sched).log) := by
  have hcomplete := complete_marks env d requests
  constructor
  · intro h
    exact (batches_whole_iff (hcomplete sched)).mp h.published
  · intro h
    have hpub := (batches_whole_iff (hcomplete sched)).mpr h
    refine ⟨hpub, ?_⟩
    rintro sched₁ ⟨sched₂, rfl⟩
    obtain ⟨log, hlog⟩ := Pool.log_runs_append (serve env)
      (Pool.start (fun i => (SetRpc.run (requests i)).run) (.start d)) sched₁ sched₂
    refine ⟨_, (hcomplete sched₁).nodup_flushers, ?_⟩
    obtain ⟨hans, hstate⟩ := Pool.answers (serve env)
      (fun i => (SetRpc.run (requests i)).run) (.start d) sched₁
    have hempty : (World.start d).pending = ([] : Buffer Edit).map Prod.snd := rfl
    obtain ⟨-, hrun⟩ := session_marks env hempty hans
    rw [servePool, hstate, hrun, List.flatMap_map]
    congr 1
    refine List.flatMap_congr fun b hb => hpub b ?_
    rw [servePool, hlog, marks_append, batches_append]
    exact List.mem_append_left _ hb

/-- A datastore of node names, and no call fails. -/
def quietNames : Env (List String) := { thirdFails with fails := fun _ => none }

/-- Request 0 deletes `/a` and `/c`, every other request deletes `/b`. -/
def twoDeletes (i : ℕ) : SetRequest :=
  if i = 0 then { delete := [{ elem := [⟨"a", []⟩] }, { elem := [⟨"c", []⟩] }] }
  else { delete := [{ elem := [⟨"b", []⟩] }] }

/-- Request 1 commits between the two deletes of request 0: it publishes half of them, and
both requests go on to return OK. -/
theorem not_isolated :
    ¬ Isolated quietNames ["/a", "/b", "/c"] twoDeletes [0, 0, 1, 1, 1, 0, 0] := by
  intro h
  have hb := h.published (1, [(0, .delete "/a"), (1, .delete "/b")]) (by decide)
  exact absurd hb (by decide)

end SysrepoGnxi
