import Mathlib.Data.Nat.Find
import SysrepoGnxi.Documents
import SysrepoGnxi.Progress
import SysrepoGnxi.RealTime
import SysrepoGnxi.Schedule
import SysrepoGnxi.SetItems
import SysrepoGnxi.WaitFree

/-!
# When a Set Is Answered OK

Sets of several clients get into each other's commits, but they do not get into each other's
answers: a request that can be stored (`SetRequest.Storable`) and has had its turns is answered
OK exactly if sysrepo and libyang refuse none of its own calls, whatever the other RPCs do
(`set_served_iff`).

So a client that repeats such a request is answered OK in the end, if calls do not fail for
ever (`retry_succeeds`). What the failed attempts have left on the session is published with
it: the first edits of the request, once more for each of them.
-/

open Dialogue JsonDoc

namespace SysrepoGnxi

variable {parse : String → Except Exn (List DataNode)}

/-- **A request that can be stored**: it has no extensions, and the value of each item, if there
is one to store, is storable. -/
structure SetRequest.Storable (parse : String → Except Exn (List DataNode))
    (request : SetRequest) : Prop where
  noExtensions : request.extensionSize = 0
  items : ∀ upd ∈ request.replace ++ request.update, upd.Storable parse

/-! ### A request that is not refused -/

namespace SetRpc

/-- Where no call is refused, a part of the handler goes on with a response. -/
abbrev GoesOn (parse : String → Except Exn (List DataNode))
    (x : Handler (Except Status SetResponse)) : Prop :=
  x.Returns (Granted parse) fun o => ∃ response, o = .ok response

theorem stores_storeValue (fullpath : String) {reqval : TypedValue} (h : reqval.Storable parse) :
    (storeValue fullpath reqval).Returns (Granted parse) fun _ => True := by
  rcases h with ⟨val, hval⟩ | ⟨data, node, rfl, hdoc, hall⟩
  · rw [storeValue_scalar hval]
    exact returns_setVal _ _
  · refine Throwing.Returns.bind (returns_jsonUpdate hdoc hall).observe ?_
    rintro o ⟨u, rfl, -⟩
    exact Throwing.returns_pure trivial

theorem stores_handleUpdate {upd : Update} (out : UpdateResult) (pfx : String)
    (h : upd.Storable parse) :
    (handleUpdate upd out pfx).Returns (Granted parse) fun _ => True := by
  obtain ⟨_ | path, _ | reqval⟩ := upd
  case some.some =>
    exact (stores_storeValue _ (h path reqval rfl rfl)).bind fun _ _ =>
      Throwing.returns_pure trivial
  all_goals exact Throwing.returns_pure trivial

theorem goesOn_deleteLoop (pfx : String) (paths : List Path) (response : SetResponse) :
    GoesOn parse (deleteLoop pfx paths response) := by
  induction paths generalizing response with
  | nil => exact Throwing.returns_pure ⟨response, rfl⟩
  | cons delpath rest ih =>
      have hdelete : (deleteItem (cStr (pfx ++ gnmiToXpath delpath))).Returns (Granted parse)
          fun _ => True := by
        refine Throwing.returns_ask ?_
        rintro r rfl
        exact ⟨(), rfl, trivial⟩
      refine Throwing.Returns.bind hdelete.observe ?_
      rintro o ⟨u, rfl, -⟩
      exact ih _

theorem goesOn_updateLoop (op : Operation) (clauses : Exn → Option Status) (pfx : String)
    {upds : List Update} (response : SetResponse) (h : ∀ upd ∈ upds, upd.Storable parse) :
    GoesOn parse (updateLoop op clauses pfx upds response) := by
  induction upds generalizing response with
  | nil => exact Throwing.returns_pure ⟨response, rfl⟩
  | cons upd rest ih =>
      have hupdate := stores_handleUpdate {} pfx (h upd List.mem_cons_self)
      refine Throwing.Returns.bind hupdate.observe ?_
      rintro o ⟨⟨code, res⟩, rfl, -⟩
      exact ih _ fun upd hupd => h upd (List.mem_cons_of_mem _ hupd)

theorem goesOn_commitAll (response : SetResponse) : GoesOn parse (commitAll response) := by
  have hcommit : commit.Returns (Granted parse) fun _ => True := by
    refine Throwing.returns_ask ?_
    rintro r rfl
    exact ⟨(), rfl, trivial⟩
  refine Throwing.Returns.bind hcommit.observe ?_
  rintro o ⟨u, rfl, -⟩
  exact Throwing.returns_pure ⟨response, rfl⟩

theorem GoesOn.andThen {x : Handler (Except Status SetResponse)}
    {f : SetResponse → Handler (Except Status SetResponse)} (hx : GoesOn parse x)
    (hf : ∀ response, GoesOn parse (f response)) : GoesOn parse (andThen x f) := by
  refine Throwing.Returns.bind hx ?_
  rintro o ⟨response, rfl⟩
  exact hf response

/-- **A request that can be stored is answered OK** where no call is refused. -/
theorem goesOn_run {request : SetRequest} (h : request.Storable parse) :
    GoesOn parse (run request) := by
  have htime : getTimeNanosec.Returns (Granted parse) fun _ => True :=
    Throwing.returns_ask fun t _ => ⟨t, rfl, trivial⟩
  have hreplace := fun upd hupd => h.items upd (List.mem_append_left _ hupd)
  have hupdate := fun upd hupd => h.items upd (List.mem_append_right _ hupd)
  rw [run, if_neg (Nat.not_lt.mpr h.noExtensions.le)]
  refine htime.bind fun t _ => GoesOn.andThen ?_ goesOn_commitAll
  exact (goesOn_deleteLoop _ _ _).andThen fun response =>
    (goesOn_updateLoop _ _ _ response hreplace).andThen fun response =>
      goesOn_updateLoop _ _ _ response hupdate

/-- A request that is answered OK can be stored. -/
theorem storable_of_ok {request : SetRequest} {evs : List CallEvent} {response : SetResponse}
    (h : Yields (run request).run evs (.ok (.ok response)))
    (hparsed : ∀ ev ∈ evs, Parsed parse ev.1 ev.2) : request.Storable parse := by
  refine ⟨?_, (acceptedEdits_run h hparsed).2⟩
  by_contra hext
  rw [run, if_pos (Nat.pos_of_ne_zero hext)] at h
  cases (Throwing.yields_pure.mp h).2

end SetRpc

/-- A call that does not fail is granted. -/
theorem granted_of_unfailed {ev : CallEvent} (hparsed : Parsed parse ev.1 ev.2)
    (hfailed : failed ev = false) : Granted parse ev.1 ev.2 := by
  obtain ⟨c, r⟩ := ev
  cases c with
  | getSubtrees | getTimeNanosec | now | write | tryCancel => trivial
  | parseDataMem data =>
      rcases r with exc | nodes
      · cases hfailed
      · exact (hparsed data nodes rfl).symm
  | _ =>
      rcases r with exc | u
      · cases hfailed
      · rfl

/-! ### In a service -/

section Service

variable {D : Type}

/-- **A Set is served as if it were alone**: once it has had its turns, it is answered OK exactly
if it can be stored and none of its own calls fails. -/
theorem set_served_iff (env : Env D) (fastWriter : Json → String) (d : D) (rpcs : ℕ → Rpc)
    (sched : List ℕ) (i : ℕ) (request : SetRequest) (hrpc : rpcs i = .set request)
    (hturns : SetRpc.turns env.parse request ≤ sched.count i) :
    (∃ r, (Service.runs env fastWriter d rpcs sched).procs i = .ret r ∧ AnsweredOk r) ↔
      request.Storable env.parse ∧
        ∀ ev ∈ own i (Service.runs env fastWriter d rpcs sched).log, failed ev = false := by
  have hparsed : ∀ ev ∈ own i (Service.runs env fastWriter d rpcs sched).log,
      Parsed env.parse ev.1 ev.2 := fun ev hev =>
    parsed_of_answers (answers_log env fastWriter d rpcs sched).1 ev ((own_sublist i _).subset hev)
  have hyields {r : Except Exn Answer}
      (hr : (Service.runs env fastWriter d rpcs sched).procs i = .ret r) :
      ∃ o, Yields (SetRpc.run request).run
        (own i (Service.runs env fastWriter d rpcs sched).log) o ∧ r = o.map .set := by
    have hyields := yields_of_ended hr
    rw [hrpc] at hyields
    exact Throwing.yields_bind_pure.mp hyields
  constructor
  · rintro ⟨r, hr, hok⟩
    refine ⟨?_, fun ev hev => not_failed_of_answeredOk hr hok hev⟩
    obtain ⟨o, hrun, rfl⟩ := hyields hr
    rcases o with exc | status | response
    · cases hok
    · obtain ⟨response, hresponse⟩ := hok
      cases hresponse
    · exact SetRpc.storable_of_ok hrun hparsed
  · rintro ⟨hstorable, hfailed⟩
    have hneeds : Needs env.parse ((rpcs i).handler fastWriter)
        (SetRpc.turns env.parse request) := by
      rw [hrpc]
      exact needs_handler (.set request)
    obtain ⟨r, hr⟩ := Pool.returns_of_within hparsed hneeds hturns
    obtain ⟨o, hrun, rfl⟩ := hyields hr
    obtain ⟨_, rfl, response, rfl⟩ := (SetRpc.goesOn_run hstorable).yields hrun fun ev hev =>
      granted_of_unfailed (hparsed ev hev) (hfailed ev hev)
    exact ⟨_, hr, response, rfl⟩

/-- A Set of one leaf is served, whatever the turns of a Get in between. -/
theorem set_served_setThenGet :
    ∃ r, (Service.runs (leafEnv fun _ => none) leafWriter "old" setThenGet
      [0, 1, 0, 1, 0, 1, 0, 0, 0]).procs 0 = .ret r ∧ AnsweredOk r := by
  have hstorable : leafRequest.Storable (leafEnv fun _ => none).parse := by
    refine ⟨rfl, ?_⟩
    rintro upd hupd path reqval - hval
    obtain rfl := List.mem_singleton.mp hupd
    obtain rfl := Option.some.inj hval
    exact Or.inl ⟨_, rfl⟩
  exact (set_served_iff (leafEnv fun _ => none) leafWriter "old" setThenGet
    [0, 1, 0, 1, 0, 1, 0, 0, 0] 0 leafRequest rfl (by decide)).mpr ⟨hstorable, by decide⟩

/-! ### Repeated requests -/

/-- The calls made so far. -/
theorem calls_after (env : Env D) (w : World D) (evs : List CallEvent) :
    (after (serve env) w evs).calls = w.calls + evs.length := by
  induction evs generalizing w with
  | nil => rfl
  | cons ev evs ih =>
      rw [after_cons, ih, calls_serve, List.length_cons]
      omega

/-- Where no call fails from now on, all calls are granted. -/
theorem granted_from {env : Env D} {w : World D} (hfails : ∀ n, w.calls ≤ n → env.fails n = none)
    {evs : List CallEvent} (h : Answers (serve env) w evs) :
    ∀ ev ∈ evs, Granted env.parse ev.1 ev.2 := by
  induction evs generalizing w with
  | nil => simp
  | cons ev evs ih =>
      obtain ⟨c, r⟩ := ev
      intro ev' hev'
      rcases List.mem_cons.mp hev' with rfl | hev'
      · have hrep := h.1
        have hgranted := @orFail_of_granted D env w (hfails w.calls le_rfl)
        cases c with
        | getSubtrees | getTimeNanosec | now | write | tryCancel => trivial
        | _ => exact hrep.trans (congrArg Prod.fst (hgranted _ _))
      · refine ih (fun n hn => hfails n ?_) h.2 ev' hev'
        rw [calls_serve] at hn
        omega

variable {env : Env D} {request : SetRequest}

theorem serveSet_granted {w : World D} (hstorable : request.Storable env.parse)
    (hfails : ∀ n, w.calls ≤ n → env.fails n = none) : (serveSet env w request).value.Ok := by
  obtain ⟨hy, ha, -⟩ := yields_serveSet env w request
  obtain ⟨_, hvalue, response, rfl⟩ := (SetRpc.goesOn_run hstorable).yields hy
    (granted_from hfails ha)
  exact ⟨response, hvalue⟩

/-- The session after some attempts at a request, one after another. -/
def attempts (env : Env D) (request : SetRequest) : ℕ → World D → World D
  | 0, w => w
  | n + 1, w => attempts env request n (serveSet env w request).state

/-- Every attempt makes a call. -/
theorem calls_attempts (hext : request.extensionSize = 0) (n : ℕ) (w : World D) :
    w.calls + n ≤ (attempts env request n w).calls := by
  induction n generalizing w with
  | zero => exact le_rfl
  | succ n ih =>
      have hone : w.calls + 1 ≤ (serveSet env w request).state.calls := by
        obtain ⟨hy, -, hs⟩ := yields_serveSet env w request
        rw [hs, calls_after]
        rw [SetRpc.run, if_neg (Nat.not_lt.mpr hext.le)] at hy
        obtain ⟨t, evs, hlog, -⟩ := Throwing.yields_ask_bind.mp hy
        rw [hlog, List.length_cons]
        omega
      have hrest := ih (serveSet env w request).state
      rw [attempts]
      omega

/-- **What an attempt that fails leaves on the session**: the first edits of its request. -/
theorem leaves_attempt {w : World D} (h : ¬ (serveSet env w request).value.Ok) :
    ∃ left, left <+: requestEdits env.parse request ∧
      (serveSet env w request).state.running = w.running ∧
      (serveSet env w request).state.published = w.published ∧
      (serveSet env w request).state.pending = w.pending ++ left := by
  obtain ⟨hrun, hpub, hpend⟩ := serveSet_not_ok h
  obtain ⟨hy, ha, -⟩ := yields_serveSet env w request
  have hfirst := (SetRpc.issues_run request).prefix_of_steps (steps_of_yields hy)
    (parsed_of_answers ha)
  exact ⟨_, hfirst, hrun, hpub, hpend⟩

/-- What some of them leave. -/
theorem leaves_attempts {n : ℕ} {w : World D}
    (h : ∀ m < n, ¬ (serveSet env (attempts env request m w) request).value.Ok) :
    ∃ lefts : List (List Edit), lefts.length = n ∧
      (∀ left ∈ lefts, left <+: requestEdits env.parse request) ∧
      (attempts env request n w).running = w.running ∧
      (attempts env request n w).published = w.published ∧
      (attempts env request n w).pending = w.pending ++ lefts.flatten := by
  induction n generalizing w with
  | zero => exact ⟨[], rfl, by simp, rfl, rfl, (List.append_nil _).symm⟩
  | succ n ih =>
      have hfails : ¬ (serveSet env w request).value.Ok := h 0 (Nat.succ_pos n)
      obtain ⟨left, hfirst, hrun₁, hpub₁, hpend₁⟩ := leaves_attempt hfails
      obtain ⟨lefts, hlength, hfirsts, hrun, hpub, hpend⟩ :=
        ih fun m hm => h (m + 1) (Nat.succ_lt_succ hm)
      refine ⟨left :: lefts, by rw [List.length_cons, hlength], ?_, hrun.trans hrun₁,
        hpub.trans hpub₁, ?_⟩
      · exact List.forall_mem_cons.mpr ⟨hfirst, hfirsts⟩
      · rw [attempts, hpend, hpend₁, List.flatten_cons, List.append_assoc]

end Service

/-- **Retried**: after `n` attempts that failed a request is answered OK. The edits that were
pending, those of the attempts and those of the request are published, in this order. -/
structure Retried {D : Type} (env : Env D) (request : SetRequest) (w : World D) (n : ℕ)
    (lefts : List (List Edit)) : Prop where
  failed : ∀ m < n, ¬ (serveSet env (attempts env request m w) request).value.Ok
  ok : (serveSet env (attempts env request n w) request).value.Ok
  length : lefts.length = n
  first : ∀ left ∈ lefts, left <+: requestEdits env.parse request
  published : (serveSet env (attempts env request n w) request).state.published =
    w.published ++ (w.pending ++ lefts.flatten ++ requestEdits env.parse request)
  running : (serveSet env (attempts env request n w) request).state.running =
    env.sysrepo.applyAll (w.pending ++ lefts.flatten ++ requestEdits env.parse request) w.running
  pending : (serveSet env (attempts env request n w) request).state.pending = []

/-- **A Set request that can be stored is answered OK in the end**, if no call fails from some
point on: after at most as many attempts as there are calls until then. Each attempt before has
left the first of its edits to be published with it. -/
theorem retry_succeeds {D : Type} (env : Env D) (w : World D) (request : SetRequest) {N : ℕ}
    (hstorable : request.Storable env.parse) (hfails : ∀ n, N ≤ n → env.fails n = none) :
    ∃ n ≤ N, ∃ lefts, Retried env request w n lefts := by
  have hlast : (serveSet env (attempts env request N w) request).value.Ok := by
    refine serveSet_granted hstorable fun n hn => hfails n ?_
    have hcalls : w.calls + N ≤ (attempts env request N w).calls :=
      calls_attempts hstorable.noExtensions N w
    omega
  have hex : ∃ n, (serveSet env (attempts env request n w) request).value.Ok := ⟨N, hlast⟩
  have hbefore : ∀ m < Nat.find hex, ¬ (serveSet env (attempts env request m w) request).value.Ok :=
    fun m hm => Nat.find_min hex hm
  obtain ⟨lefts, hlength, hfirst, hrun, hpub, hpend⟩ := leaves_attempts hbefore
  obtain ⟨hrunning, hpending, hpublished, -⟩ := serveSet_ok (Nat.find_spec hex)
  refine ⟨Nat.find hex, Nat.find_min' hex hlast, lefts, hbefore, Nat.find_spec hex, hlength, hfirst,
    ?_, ?_, hpending⟩
  · rw [hpublished, hpub, hpend]
    simp only [List.append_assoc]
  · rw [hrunning, hrun, hpend]

/-- The commit of the first attempt at a Set of one leaf is refused. -/
theorem retry_succeeds_refused :
    ∃ n ≤ 4, ∃ lefts, Retried
      (leafEnv fun n => if n = 3 then some (.sysrepoException "refused") else none) leafRequest
      (World.start "old") n lefts := by
  have hstorable : leafRequest.Storable
      (leafEnv fun n => if n = 3 then some (.sysrepoException "refused") else none).parse := by
    refine ⟨rfl, ?_⟩
    rintro upd hupd path reqval - hval
    obtain rfl := List.mem_singleton.mp hupd
    obtain rfl := Option.some.inj hval
    exact Or.inl ⟨_, rfl⟩
  exact retry_succeeds _ _ leafRequest hstorable fun n hn => if_neg (by omega)

end SysrepoGnxi
