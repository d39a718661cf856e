import SysrepoGnxi.SetSpec

/-!
# Set Requests as Transactions

The changes of one Set request are meant as a transaction. This module serves a sequence
of requests on the shared session, whatever calls fail, and compares the running datastore
with the one that the edits of the requests answered OK make (`Transactional`).

A request that fails leaves the edits sysrepo has accepted of it on the session: nothing
discards them, and the commit of a later request publishes them. `published_serveSets`
accounts for every published edit, and `transactional_iff` draws the line: the sequence is
transactional iff every request answered OK found the session without pending edits.
-/

open Dialogue

namespace SysrepoGnxi

variable {D : Type}

/-- A request that has been served: the world it found, and what came of it. -/
structure Served (D : Type) where
  before : World D
  request : SetRequest
  outcome : Outcome Call Call.Reply (World D) SetResult

/-- The request was answered OK. -/
def Served.Ok (s : Served D) : Prop := s.outcome.value.Ok

instance (s : Served D) : Decidable s.Ok :=
  inferInstanceAs (Decidable s.outcome.value.Ok)

/-- Serve requests one after another. -/
def serveSets (env : Env D) : World D → List SetRequest → List (Served D)
  | _, [] => []
  | w, request :: requests =>
      let outcome := serveSet env w request
      ⟨w, request, outcome⟩ :: serveSets env outcome.state requests

/-- The world the last served request leaves. -/
def lastWorld (w : World D) : List (Served D) → World D
  | [] => w
  | s :: served => lastWorld s.outcome.state served

/-- The edits of the requests answered OK, in order. -/
def okEdits (env : Env D) (served : List (Served D)) : List Edit :=
  served.flatMap fun s => if s.Ok then requestEdits env.parse s.request else []

/-- No request answered OK found edits of earlier requests pending. -/
def FoundClean (served : List (Served D)) : Prop :=
  ∀ s ∈ served, s.Ok → s.before.pending = []

/-- **The requests are transactions**: the running datastore afterwards is the initial one
under the edits of the requests answered OK, and no other edit has been published. -/
def Transactional (env : Env D) (d : D) (requests : List SetRequest) : Prop :=
  let served := serveSets env (World.start d) requests
  let final := lastWorld (World.start d) served
  final.running = env.sysrepo.applyAll (okEdits env served) d ∧
    final.published = okEdits env served

/-- **Everything published, and nothing else, is in the running datastore.** -/
theorem running_serveSets (env : Env D) (d : D) {w : World D}
    (h : w.running = env.sysrepo.applyAll w.published d) (requests : List SetRequest) :
    (lastWorld w (serveSets env w requests)).running =
      env.sysrepo.applyAll (lastWorld w (serveSets env w requests)).published d := by
  induction requests generalizing w with
  | nil => exact h
  | cons request requests ih =>
      refine ih (w := (serveSet env w request).state) ?_
      by_cases hok : (serveSet env w request).value.Ok
      · obtain ⟨hr, -, hp, -⟩ := serveSet_ok hok
        rw [hr, hp, h, List.append_assoc, ← Sysrepo.applyAll_append]
      · obtain ⟨hr, hp, -⟩ := serveSet_not_ok hok
        rw [hr, hp, h]

theorem okEdits_cons (env : Env D) (s : Served D) (served : List (Served D)) :
    okEdits env (s :: served) =
      (if s.Ok then requestEdits env.parse s.request else []) ++ okEdits env served := rfl

theorem foundClean_cons (s : Served D) (served : List (Served D)) :
    FoundClean (s :: served) ↔ (s.Ok → s.before.pending = []) ∧ FoundClean served :=
  List.forall_mem_cons

/-- **What the commits publish**: the edits of the requests answered OK if each of these
found the session clean, and more edits than that if one of them did not. -/
theorem published_serveSets (env : Env D) (w : World D) (requests : List SetRequest) :
    ∃ edits, (lastWorld w (serveSets env w requests)).published = w.published ++ edits ∧
      (FoundClean (serveSets env w requests) →
        edits = okEdits env (serveSets env w requests)) ∧
      (¬ FoundClean (serveSets env w requests) →
        (okEdits env (serveSets env w requests)).length < edits.length) := by
  induction requests generalizing w with
  | nil => exact ⟨[], by simp [serveSets, lastWorld], fun _ => rfl, by simp [FoundClean, serveSets]⟩
  | cons request requests ih =>
      obtain ⟨edits, hpub, hclean, hdirty⟩ := ih (serveSet env w request).state
      rw [serveSets]
      set rest := serveSets env (serveSet env w request).state requests
      simp only [okEdits_cons, foundClean_cons, Served.Ok, lastWorld]
      by_cases hok : (serveSet env w request).value.Ok
      · obtain ⟨-, -, hp, -⟩ := serveSet_ok hok
        simp only [hok, if_true, true_imp_iff]
        refine ⟨w.pending ++ requestEdits env.parse request ++ edits, ?_, ?_, ?_⟩
        · rw [hpub, hp]
          simp only [List.append_assoc]
        · rintro ⟨hw, hf⟩
          rw [hw, hclean hf, List.nil_append]
        · intro h
          simp only [List.length_append]
          by_cases hf : FoundClean rest
          · have hw : w.pending ≠ [] := fun hw => h ⟨hw, hf⟩
            have hpos := List.length_pos_iff.mpr hw
            rw [hclean hf]
            omega
          · -- the rest publishes a surplus of its own, whatever was pending here
            have hlt := hdirty hf
            omega
      · obtain ⟨-, hp, -⟩ := serveSet_not_ok hok
        simp only [hok, if_false, false_imp_iff, true_and, List.nil_append]
        exact ⟨edits, by rw [hpub, hp], hclean, hdirty⟩

/-- **When Set requests are transactions**: exactly when every request answered OK found
the session without pending edits. -/
theorem transactional_iff (env : Env D) (d : D) (requests : List SetRequest) :
    Transactional env d requests ↔
      FoundClean (serveSets env (World.start d) requests) := by
  obtain ⟨edits, hpub, hclean, hdirty⟩ :=
    published_serveSets env (World.start d) requests
  have hrun := running_serveSets env d (w := World.start d) rfl requests
  have hpub' : (lastWorld (World.start d) (serveSets env (World.start d) requests)).published
      = edits := by
    rw [hpub]
    rfl
  constructor
  · rintro ⟨-, h⟩
    by_contra hc
    have hlt := hdirty hc
    rw [← hpub', h] at hlt
    exact lt_irrefl _ hlt
  · intro h
    refine ⟨?_, by rw [hpub', hclean h]⟩
    rw [hrun, hpub', hclean h]

/-- A datastore of node names, on which only deletion is of interest. -/
def nameStore : Sysrepo (List String) where
  apply
    | .delete xpath, d => d.filter (· ≠ xpath)
    | .set _ _, d => d
  subtrees _ _ := none

/-- sysrepo refuses the third call: the second `delete_item` of the first request. -/
def thirdFails : Env (List String) where
  sysrepo := nameStore
  parse _ := .ok []
  fails n := if n = 2 then some (.sysrepoException "SR_ERR_UNAUTHORIZED") else none
  systemClock n := n
  highResolutionClock := .ofNat

/-- A request to delete `/a` and `/b` fails at the latter; the empty request after it
publishes the deletion of `/a`. -/
theorem not_transactional :
    ¬ Transactional thirdFails ["/a", "/b"]
      [{ delete := [{ elem := [⟨"a", []⟩] }, { elem := [⟨"b", []⟩] }] }, {}] := by
  rintro ⟨-, h⟩
  exact absurd h (by decide)

end SysrepoGnxi
