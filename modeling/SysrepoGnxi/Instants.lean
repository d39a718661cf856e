import SysrepoGnxi.Ledger
import SysrepoGnxi.ReadRounds

/-!
# The Instants of a Get

A Get of several paths makes a read for each, and other RPCs may come between. So its response
does not show one datastore. But every notification shows one: that of an instant at which its
path was read, with all edits accepted until then, and the instants are in the order of the
paths (`get_at_instants`).
-/

open Dialogue JsonDoc

namespace SysrepoGnxi

variable {D : Type}

/-- **At instants in order**: there are points of a log, each after the one before, and each
of the values holds of what was logged until its point. -/
def AtInstants {α : Type} (log : List CallEvent) (holds : α → List CallEvent → Prop)
    (values : List α) : Prop :=
  ∃ points : List (List CallEvent), points.Pairwise (· <+: ·) ∧ (∀ p ∈ points, p <+: log) ∧
    List.Forall₂ holds values points

/-- What a read is answered with the edits accepted until an instant. -/
def AnswersAt (sr : Sysrepo D) (d : D) (read : String × ReadReply) (evs : List CallEvent) : Prop :=
  ∀ trees, read.2 = .ok trees → trees = sr.subtrees read.1 (sr.applyAll (acceptedEdits evs) d)

theorem AtInstants.mono {α β : Type} {log : List CallEvent} {holds : α → List CallEvent → Prop}
    {holds' : β → List CallEvent → Prop} {values : List α} {values' : List β}
    (h : AtInstants log holds values)
    (hall : List.Forall₂ (fun b a => ∀ p, holds a p → holds' b p) values' values) :
    AtInstants log holds' values' := by
  obtain ⟨points, hpairwise, hfirst, hholds⟩ := h
  refine ⟨points, hpairwise, hfirst, ?_⟩
  clear hpairwise hfirst
  induction hall generalizing points with
  | nil =>
      cases hholds
      exact List.Forall₂.nil
  | cons hhead _ ih =>
      cases hholds with
      | cons hp hrest => exact List.Forall₂.cons (hhead _ hp) (ih _ hrest)

/-- Every read shows the edits accepted until an instant, and the instants of the reads of one
RPC are in order. The induction is on the log, from its end. -/
theorem reads_at_instants {sr : Sysrepo D} {d : D} {log : List (ℕ × CallEvent)}
    (h : ∀ evs₁ evs₂ xpath reply,
      log.map Prod.snd = evs₁ ++ ⟨.getSubtrees xpath, .ok reply⟩ :: evs₂ →
      reply = sr.subtrees xpath (sr.applyAll (acceptedEdits evs₁) d)) (i : ℕ) :
    AtInstants (log.map Prod.snd) (AnswersAt sr d) (reads (own i log)) := by
  induction log using List.reverseRecOn with
  | nil => exact ⟨[], List.Pairwise.nil, by simp, List.Forall₂.nil⟩
  | append_singleton log ev ih =>
      obtain ⟨j, ev⟩ := ev
      obtain ⟨points, hpairwise, hfirst, hholds⟩ := ih (by
        intro evs₁ evs₂ xpath reply heq
        refine h evs₁ (evs₂ ++ [ev]) xpath reply ?_
        rw [List.map_append, heq]
        simp)
      have hlog : log.map Prod.snd <+: (log ++ [(j, ev)]).map Prod.snd := by
        rw [List.map_append]
        exact List.prefix_append _ _
      have hown : reads (own i (log ++ [(j, ev)])) =
          reads (own i log) ++ reads (if j = i then [ev] else []) := by
        rw [own_append, own_single, reads_append]
      rw [hown]
      by_cases hread : j = i ∧ ∃ xpath, ev.1 = .getSubtrees xpath
      · obtain ⟨rfl, xpath, hxpath⟩ := hread
        obtain ⟨c, reply⟩ := ev
        obtain rfl : c = .getSubtrees xpath := hxpath
        refine ⟨points ++ [log.map Prod.snd], ?_, ?_, ?_⟩
        · rw [List.pairwise_append]
          refine ⟨hpairwise, List.pairwise_singleton _ _, fun p hp q hq => ?_⟩
          rw [List.mem_singleton.mp hq]
          exact hfirst p hp
        · intro p hp
          rcases List.mem_append.mp hp with hp | hp
          · exact (hfirst p hp).trans hlog
          · exact List.mem_singleton.mp hp ▸ hlog
        · rw [if_pos rfl]
          refine List.rel_append hholds (List.Forall₂.cons ?_ List.Forall₂.nil)
          rintro trees rfl
          exact h (log.map Prod.snd) [] xpath trees (by simp)
      · have hnone : reads (if j = i then [ev] else []) = [] := by
          split_ifs with hji
          · obtain ⟨c, reply⟩ := ev
            cases c with
            | getSubtrees xpath => exact absurd ⟨hji, xpath, rfl⟩ hread
            | _ => rfl
          · rfl
        refine ⟨points, hpairwise, fun p hp => (hfirst p hp).trans hlog, ?_⟩
        rw [hnone, List.append_nil]
        exact hholds

section Get

variable {fastWriter : Json → String}

/-- Where the reads are answered at instants, so are the notifications. -/
theorem InStep.atInstants {sr : Sysrepo D} {d : D} {pfx : Option Path} {paths : List Path}
    {ns : List Notification} {rds : List (String × ReadReply)} {log : List CallEvent}
    (h : InStep fastWriter pfx paths ns rds) (hreads : AtInstants log (AnswersAt sr d) rds) :
    AtInstants log (fun pn evs => NotificationOf sr fastWriter
      (sr.applyAll (acceptedEdits evs) d) pfx pn.1 pn.2) (paths.zip ns) := by
  refine hreads.mono ?_
  clear hreads
  induction h with
  | nil => exact List.Forall₂.nil
  | cons hnoted _ ih =>
      obtain ⟨hxpath, hpfx, trees, htrees, hreports⟩ := hnoted
      refine List.Forall₂.cons (fun evs hans => ?_) ih
      exact ⟨hpfx, trees, hxpath ▸ (hans _ htrees).symm, hreports⟩

end Get

/-- **Every notification of a Get shows the datastore of an instant**, with all edits that were
accepted until then, and the instants are in the order of the paths. -/
def GetAtInstants (env : Env D) (fastWriter : Json → String) (d : D) (rpcs : ℕ → Rpc)
    (sched : List ℕ) : Prop :=
  ∀ i request response, rpcs i = .get request →
    (Service.runs env fastWriter d rpcs sched).procs i = .ret (.ok (.get (.ok response))) →
    response.notification.length = request.path.length ∧
      AtInstants ((Service.runs env fastWriter d rpcs sched).log.map Prod.snd)
        (fun pn evs => NotificationOf env.sysrepo fastWriter
          (env.sysrepo.applyAll (acceptedEdits evs) d) request.pfx pn.1 pn.2)
        (request.path.zip response.notification)

theorem get_at_instants (env : Env D) (fastWriter : Json → String) (d : D) (rpcs : ℕ → Rpc)
    (sched : List ℕ) : GetAtInstants env fastWriter d rpcs sched := by
  intro i request response hrpc hr
  have hyields := yields_of_ended hr
  rw [hrpc] at hyields
  obtain ⟨o, hrun, ho⟩ := Throwing.yields_bind_pure.mp hyields
  cases o with
  | error exc => cases ho
  | ok result =>
      obtain rfl : .ok response = result := Answer.get.inj (Except.ok.inj ho)
      have hstep := GetRpc.endsInStep_run request _ _ hrun (fun _ _ => trivial) response rfl
      have hhistory := history_of_answers (answers_log env fastWriter d rpcs sched).1
      exact ⟨hstep.length_eq, hstep.atInstants (reads_at_instants hhistory.reads i)⟩

end SysrepoGnxi
