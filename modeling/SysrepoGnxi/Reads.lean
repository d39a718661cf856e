import Mathlib.Data.List.Infix
import SysrepoGnxi.SetSpec
import SysrepoGnxi.SubscribeSpec

/-!
# What Readers See

Set, Get and Subscribe handlers served together work on the one session, and a read on a
session sees the edits pending on it. This module follows a value from the client back to
the read it comes from: everything a notification carries was selected by some
`get_subtrees` call of the same handler (`delivered_read`).

Whether that value was ever in the running datastore is up to the edits pending at the
read. `readsCommitted_of_undisturbed` gives the runs in which no reader sees uncommitted
data: those where the pending edits never change what a read selects.
-/

open Dialogue JsonDoc

namespace SysrepoGnxi

variable {D : Type}

/-- An RPC of the service. -/
inductive Rpc where
  | set (request : SetRequest)
  | get (request : GetRequest)
  | subscribe (messages : List SubscribeRequest) (cycles : ℕ)

/-- What an RPC returns. -/
inductive Answer where
  | set (result : Except Status SetResponse)
  | get (result : Except Status GetResponse)
  | subscribe (status : Status)

/-- The handler of an RPC. -/
def Rpc.handler (fastWriter : Json → String) : Rpc → Handler Answer
  | set request => do
      let result ← SetRpc.run request
      pure (.set result)
  | get request => do
      let result ← GetRpc.run fastWriter request
      pure (.get result)
  | subscribe messages cycles => do
      let status ← SubscribeRpc.run fastWriter messages cycles
      pure (.subscribe status)

/-- The service: RPCs served concurrently on one session. -/
abbrev Service (D : Type) : Type := Pool Call Call.Reply (World D) (Except Exn Answer)

/-- The service before any call. -/
def Service.start (fastWriter : Json → String) (d : D) (rpcs : ℕ → Rpc) : Service D :=
  Pool.start (fun i => ((rpcs i).handler fastWriter).run) (World.start d)

/-- The service after the calls of a schedule. -/
def Service.runs (env : Env D) (fastWriter : Json → String) (d : D) (rpcs : ℕ → Rpc)
    (sched : List ℕ) : Service D :=
  Pool.runs (serve env) (Service.start fastWriter d rpcs) sched

/-! ### Values -/

/-- The JSON texts an update list carries. -/
def updateTexts (updates : List Update) : List String :=
  updates.filterMap fun u =>
    match u.val with
    | some (.jsonIetfVal data) => some data
    | _ => none

/-- A text is the JSON of one of the trees. -/
def Carries (fastWriter : Json → String) (trees : List Tree) (data : String) : Prop :=
  ∃ tree ∈ trees, ∃ val, jsonTree tree = .ok val ∧ fastWriter val = data

/-- A text has been delivered to the client of RPC `i`: in the response of a Get, or in a
notification written by a Subscribe. -/
def Delivered (c : Service D) (i : ℕ) (data : String) : Prop :=
  (∃ response, c.procs i = .ret (.ok (.get (.ok response))) ∧
    ∃ n ∈ response.notification, data ∈ updateTexts n.update) ∨
  (∃ n, (i, (⟨.write (.update n), ()⟩ : CallEvent)) ∈ c.log ∧ data ∈ updateTexts n.update)

/-- **The value comes from the running datastore**: RPC `i` has read it, with some xpath at
some point of the schedule, and at that point or before one of the trees the same xpath
selects in the running datastore has that value. -/
def FromRunning (env : Env D) (fastWriter : Json → String) (d : D) (rpcs : ℕ → Rpc)
    (sched : List ℕ) (i : ℕ) (data : String) : Prop :=
  ∃ sched₁ sched₂ xpath k trees, sched = sched₁ ++ i :: sched₂ ∧
    (Service.runs env fastWriter d rpcs sched₁).procs i = .call (.getSubtrees xpath) k ∧
    (serve env (Service.runs env fastWriter d rpcs sched₁).state (.getSubtrees xpath)).1 =
      .ok (some trees) ∧
    Carries fastWriter trees data ∧
    ∃ sched₀ trees₀, sched₀ <+: sched₁ ∧
      env.sysrepo.subtrees xpath (Service.runs env fastWriter d rpcs sched₀).state.running =
        some trees₀ ∧
      Carries fastWriter trees₀ data

/-- **Reads never expose uncommitted data.** -/
def ReadsCommitted (env : Env D) (fastWriter : Json → String) (d : D) (rpcs : ℕ → Rpc)
    (sched : List ℕ) : Prop :=
  ∀ i data, Delivered (Service.runs env fastWriter d rpcs sched) i data →
    FromRunning env fastWriter d rpcs sched i data

/-- The pending edits change nothing of what the next call reads, if it is a read. -/
def UndisturbedRead (env : Env D) (w : World D) : Prog Call Call.Reply (Except Exn Answer) → Prop
  | .call (.getSubtrees xpath) _ =>
      env.sysrepo.subtrees xpath (w.view env.sysrepo) = env.sysrepo.subtrees xpath w.running
  | _ => True

/-- Along a schedule, the pending edits never change what a read selects. -/
def Undisturbed (env : Env D) : Service D → List ℕ → Prop
  | _, [] => True
  | c, i :: sched =>
      UndisturbedRead env c.state (c.procs i) ∧ Undisturbed env (c.step (serve env) i) sched

/-- Every read of an undisturbed schedule is undisturbed. -/
theorem Undisturbed.split {env : Env D} {c : Service D} {sched₁ sched₂ : List ℕ} {i : ℕ}
    (h : Undisturbed env c (sched₁ ++ i :: sched₂)) :
    UndisturbedRead env (Pool.runs (serve env) c sched₁).state
      ((Pool.runs (serve env) c sched₁).procs i) := by
  induction sched₁ generalizing c with
  | nil => exact h.1
  | cons j sched₁ ih => exact ih h.2

/-! ### From the client back to the read -/

section Source

-- the trees a read may have been given for an xpath
variable (selected : String → List Tree → Prop) (fastWriter : Json → String)

/-- A text is the JSON of a tree some read was given. -/
def HasSource (data : String) : Prop :=
  ∃ xpath trees, selected xpath trees ∧ Carries fastWriter trees data

/-- Every text of an update list has a source. -/
def Sourced (updates : List Update) : Prop :=
  ∀ data ∈ updateTexts updates, HasSource selected fastWriter data

/-- Only sourced updates are written. -/
def WritesSourced : Call → Prop
  | .write (.update n) => Sourced selected fastWriter n.update
  | _ => True

variable {selected fastWriter}

/-- A handler of which the written updates and, by `post`, the value have sources. -/
abbrev KeepsSourced (selected : String → List Tree → Prop) (fastWriter : Json → String)
    {α : Type} (post : α → Prop) (x : Handler α) : Prop :=
  x.Keeps (WritesSourced selected fastWriter) (Selects selected) post

/-- A call that is allowed. -/
theorem keeps_call {α : Type} {c : Call} (hc : WritesSourced selected fastWriter c)
    (h : c.Reply → Except Exn α) :
    KeepsSourced selected fastWriter (fun _ => True) (Throwing.ask c h) :=
  Throwing.keeps_ask hc fun _ _ _ _ => trivial

theorem keeps_getTimeNanosec :
    KeepsSourced selected fastWriter (fun _ => True) getTimeNanosec :=
  keeps_call (c := .getTimeNanosec) trivial _

theorem keeps_now : KeepsSourced selected fastWriter (fun _ => True) now :=
  keeps_call (c := .now) trivial _

theorem keeps_tryCancel : KeepsSourced selected fastWriter (fun _ => True) tryCancel :=
  keeps_call (c := .tryCancel) trivial _

theorem keeps_write {response : SubscribeResponse}
    (h : WritesSourced selected fastWriter (.write response)) :
    KeepsSourced selected fastWriter (fun _ => True) (write response) := keeps_call h _

/-- Only what is read is called. -/
theorem only_sourced {α : Type} {x : Handler α} (hx : x.Only Reading) :
    x.Only (WritesSourced selected fastWriter) := by
  refine hx.mono fun c hc => ?_
  cases c <;> trivial

/-- The updates that report trees carry their JSON. -/
theorem carries_of_reports {path : Path} {previous : String × String} {trees : List Tree}
    {us : List Update} (h : Reports fastWriter path previous trees us) {data : String}
    (hdata : data ∈ updateTexts us) : Carries fastWriter trees data := by
  induction h with
  | nil => cases hdata
  | @cons previous key tree trees val u us hval hkey hu _ ih =>
      rw [updateTexts, List.filterMap_cons, val_of_treeUpdate hu] at hdata
      rcases List.mem_cons.mp hdata with rfl | hdata
      · exact ⟨tree, List.mem_cons_self, val, hval, rfl⟩
      · obtain ⟨t, ht, hcarries⟩ := ih hdata
        exact ⟨t, List.mem_cons_of_mem _ ht, hcarries⟩

theorem sourced_of_reports {path : Path} {previous : String × String} {xpath : String}
    {trees : List Tree} {us : List Update} (h : Reports fastWriter path previous trees us)
    (hsel : selected xpath trees) : Sourced selected fastWriter us :=
  fun _ hdata => ⟨xpath, trees, hsel, carries_of_reports h hdata⟩

theorem InStep.sourced {pfx : Option Path} {paths : List Path} {ns : List Notification}
    {rds : List (String × ReadReply)} (h : InStep fastWriter pfx paths ns rds)
    (hsel : ∀ xpath trees, (xpath, .ok (some trees)) ∈ rds → selected xpath trees) :
    ∀ n ∈ ns, Sourced selected fastWriter n.update := by
  induction h with
  | nil => simp
  | @cons path paths n ns read rds hnoted _ ih =>
      obtain ⟨-, -, trees, htrees, hreports⟩ := hnoted
      have hread : (read.1, .ok (some trees)) ∈ read :: rds := by
        rw [← htrees]
        exact List.mem_cons_self
      refine List.forall_mem_cons.mpr ⟨sourced_of_reports hreports (hsel _ _ hread), ih ?_⟩
      exact fun xpath trees hread => hsel xpath trees (List.mem_cons_of_mem _ hread)

/-- **Every value of a Get response has a source.** -/
theorem GetRpc.keeps_run (req : GetRequest) :
    KeepsSourced selected fastWriter
      (fun r => ∀ response, r = .ok response →
        ∀ n ∈ response.notification, Sourced selected fastWriter n.update)
      (run fastWriter req) := by
  refine (only_sourced (only_run req)).keeps_of_ends ?_
  intro evs o hy hselects response ho
  exact (endsInStep_run req evs o hy (fun _ _ => trivial) response ho).sourced
    fun _ _ => selected_of_reads hselects

namespace SubscribeRpc

/-- A group of updates has sources: its first update carries no text. -/
theorem GroupsInStep.sourced {subs : List Subscription} {groups : List (List Update)}
    {rds : List (String × ReadReply)} (h : GroupsInStep fastWriter subs groups rds)
    (hsel : ∀ xpath trees, (xpath, .ok (some trees)) ∈ rds → selected xpath trees) :
    Sourced selected fastWriter groups.flatten := by
  induction h with
  | nil => simp [Sourced, updateTexts]
  | @cons sub subs us groups trees rds hreports _ ih =>
      have hrest : Sourced selected fastWriter groups.flatten :=
        ih fun xpath trees hread => hsel xpath trees (List.mem_cons_of_mem _ hread)
      intro data hdata
      have htexts : updateTexts (((⟨some sub.path, some .notSet⟩ : Update) :: us) ++
          groups.flatten) = updateTexts us ++ updateTexts groups.flatten := by
        simp [updateTexts]
      rw [List.flatten_cons, htexts] at hdata
      rcases List.mem_append.mp hdata with hdata | hdata
      · exact sourced_of_reports hreports (hsel _ _ List.mem_cons_self) data hdata
      · exact hrest data hdata

theorem keeps_buildSubscribeNotification (request : SubscriptionList) :
    KeepsSourced selected fastWriter
      (fun r => ∀ n, r = .ok n → Sourced selected fastWriter n.update)
      (buildSubscribeNotification fastWriter request) := by
  have honly : (buildSubscribeNotification fastWriter request).Only Reading :=
    Throwing.Keeps.mono (fun _ _ => trivial) (builds_buildSubscribeNotification request)
  refine (only_sourced honly).keeps_of_ends ?_
  intro evs o hy hselects n ho
  obtain ⟨-, groups, hupdate, hstep⟩ :=
    endsInStep_buildSubscribeNotification request evs o hy (fun _ _ => trivial) n ho
  rw [hupdate]
  exact hstep.sourced fun _ _ => selected_of_reads hselects

/-- Every notification written has sources for its values. -/
theorem keeps_notify (request : SubscriptionList) :
    KeepsSourced selected fastWriter (fun _ => True) (notify fastWriter request) := by
  refine (keeps_buildSubscribeNotification request).bind ?_
  rintro (status | n) hn
  · exact keeps_tryCancel.bind fun _ _ => Throwing.keeps_pure trivial
  · have hw : WritesSourced selected fastWriter (.write (.update n)) := hn n rfl
    exact (keeps_write hw).bind fun _ _ => Throwing.keeps_pure trivial

theorem keeps_startSamples (subs : List Subscription) :
    KeepsSourced selected fastWriter (fun _ => True) (startSamples subs) := by
  induction subs with
  | nil => exact Throwing.keeps_pure trivial
  | cons sub rest ih =>
      rw [startSamples]
      cases sub.mode with
      | SAMPLE =>
          exact keeps_now.bind fun _ _ =>
            ih.bind fun _ _ => Throwing.keeps_pure trivial
      | _ => exact ih

theorem keeps_dueSamples (chronomap : List (Subscription × TimePoint)) :
    KeepsSourced selected fastWriter (fun _ => True) (dueSamples chronomap) := by
  induction chronomap with
  | nil => exact Throwing.keeps_pure trivial
  | cons entry rest ih =>
      refine keeps_now.bind fun t _ => ?_
      dsimp only
      split_ifs
      · exact keeps_now.bind fun _ _ =>
          ih.bind fun _ _ => Throwing.keeps_pure trivial
      · exact ih.bind fun _ _ => Throwing.keeps_pure trivial

theorem keeps_sampleLoop (request : SubscriptionList) (cycles : ℕ)
    (chronomap : List (Subscription × TimePoint)) :
    KeepsSourced selected fastWriter (fun _ => True)
      (sampleLoop fastWriter request cycles chronomap) := by
  induction cycles generalizing chronomap with
  | zero => exact Throwing.keeps_pure trivial
  | succ cycles ih =>
      refine keeps_now.bind fun _ _ =>
        (keeps_dueSamples chronomap).bind ?_
      rintro ⟨chronomap, due⟩ -
      have hnotify : KeepsSourced selected fastWriter (fun _ => True)
          (notifyDue fastWriter request due) := by
        rw [notifyDue]
        split_ifs
        · exact keeps_notify _
        · exact Throwing.keeps_pure trivial
      refine hnotify.bind ?_
      rintro (_ | status) -
      · exact keeps_now.bind fun _ _ => ih chronomap
      · exact Throwing.keeps_pure trivial

theorem keeps_handlePoll (subscription : SubscriptionList)
    (messages : List SubscribeRequest) :
    KeepsSourced selected fastWriter (fun _ => True)
      (handlePoll fastWriter subscription messages) := by
  induction messages with
  | nil => exact Throwing.keeps_pure trivial
  | cons request rest ih =>
      rw [handlePoll]
      cases request.request with
      | poll =>
          refine (keeps_notify subscription).bind ?_
          rintro (_ | status) -
          · exact ih
          · exact Throwing.keeps_pure trivial
      | _ => exact Throwing.keeps_pure trivial

/-- **Every value a Subscribe writes has a source.** -/
theorem keeps_run (messages : List SubscribeRequest) (cycles : ℕ) :
    KeepsSourced selected fastWriter (fun _ => True) (run fastWriter messages cycles) := by
  have hsync : KeepsSourced selected fastWriter (fun _ => True)
      (write (.syncResponse true)) := keeps_write trivial
  rw [run]
  split_ifs
  · exact Throwing.keeps_pure trivial
  · cases (messages.headD {}).request with
    | subscribe list =>
        dsimp only
        cases list.mode with
        | STREAM =>
            dsimp only [handleStream]
            split_ifs
            · exact keeps_tryCancel.bind fun _ _ =>
                Throwing.keeps_pure trivial
            · refine (keeps_notify list).bind ?_
              rintro (_ | status) -
              · exact hsync.bind fun _ _ => (keeps_startSamples _).bind fun _ _ =>
                  keeps_sampleLoop _ _ _
              · exact Throwing.keeps_pure trivial
        | ONCE =>
            refine (keeps_notify list).bind ?_
            rintro (_ | status) -
            · exact hsync.bind fun _ _ => Throwing.keeps_pure trivial
            · exact Throwing.keeps_pure trivial
        | POLL => exact keeps_handlePoll _ _
        | other n => exact Throwing.keeps_pure trivial
    | _ =>
        exact keeps_tryCancel.bind fun _ _ => Throwing.keeps_pure trivial

end SubscribeRpc

/-- A Set handler writes nothing to a stream. -/
theorem keeps_set (request : SetRequest) :
    KeepsSourced selected fastWriter (fun _ => True) (SetRpc.run request) := by
  have hcommit (response : SetResponse) : KeepsSourced selected fastWriter (fun _ => True)
      (SetRpc.commitAll response) := by
    have hask : KeepsSourced selected fastWriter (fun _ => True) commit :=
      keeps_call (c := .commit) trivial _
    refine hask.observe.bind ?_
    rintro (exc | u) -
    · dsimp only
      cases exc.isStdException with
      | none => exact Throwing.keeps_throw
      | some what => exact Throwing.keeps_pure trivial
    · exact Throwing.keeps_pure trivial
  rw [SetRpc.run]
  split_ifs
  · exact Throwing.keeps_pure trivial
  · refine keeps_getTimeNanosec.bind fun t _ => ?_
    have hitems : KeepsSourced selected fastWriter (fun _ => True)
        (SetRpc.items request ⟨request.pfx, [], t⟩) := by
      refine (SetRpc.only_items request _).keeps fun c hc => ?_
      cases c <;> trivial
    refine hitems.bind ?_
    rintro (status | response) -
    · exact Throwing.keeps_pure trivial
    · exact hcommit response

/-- **Every value an RPC delivers has a source.** -/
theorem keeps_handler (rpc : Rpc) :
    KeepsSourced selected fastWriter
      (fun answer => ∀ response, answer = .get (.ok response) →
        ∀ n ∈ response.notification, Sourced selected fastWriter n.update)
      (rpc.handler fastWriter) := by
  cases rpc with
  | set request =>
      exact (keeps_set request).bind fun _ _ => Throwing.keeps_pure (by simp)
  | get request =>
      refine (GetRpc.keeps_run request).bind fun result hresult => Throwing.keeps_pure ?_
      rintro response ⟨⟩
      exact hresult response rfl
  | subscribe messages cycles =>
      exact (SubscribeRpc.keeps_run messages cycles).bind fun _ _ =>
        Throwing.keeps_pure (by simp)

end Source

/-! ### The runs in which readers see committed data -/

/-- RPC `i` has been given the trees for an xpath, at some point of a schedule. -/
def Read (env : Env D) (fastWriter : Json → String) (d : D) (rpcs : ℕ → Rpc)
    (sched : List ℕ) (i : ℕ) (xpath : String) (trees : List Tree) : Prop :=
  ∃ sched₁ sched₂ k, sched = sched₁ ++ i :: sched₂ ∧
    (Service.runs env fastWriter d rpcs sched₁).procs i = .call (.getSubtrees xpath) k ∧
    (serve env (Service.runs env fastWriter d rpcs sched₁).state (.getSubtrees xpath)).1 =
      .ok (some trees)

/-- **A delivered value is the JSON of a tree its handler has read.** -/
theorem delivered_read {env : Env D} {fastWriter : Json → String} {d : D} {rpcs : ℕ → Rpc}
    {sched : List ℕ} {i : ℕ} {data : String}
    (h : Delivered (Service.runs env fastWriter d rpcs sched) i data) :
    ∃ xpath trees, Read env fastWriter d rpcs sched i xpath trees ∧
      Carries fastWriter trees data := by
  have hsteps := Pool.steps (serve env) (fun i => ((rpcs i).handler fastWriter).run)
    (World.start d) sched i
  have hreads : ∀ ev ∈ own i (Service.runs env fastWriter d rpcs sched).log,
      Selects (Read env fastWriter d rpcs sched i) ev.1 ev.2 := by
    rintro ⟨c, r⟩ hev xpath trees ⟨⟩
    obtain ⟨sched₁, sched₂, k, hsched, hproc, hreply⟩ := Pool.mem_log (mem_own.mp hev)
    exact ⟨sched₁, sched₂, k, hsched, hproc, hreply.symm⟩
  have hkeeps : KeepsSourced (Read env fastWriter d rpcs sched i) fastWriter _
      ((rpcs i).handler fastWriter) := keeps_handler (rpcs i)
  obtain ⟨hwrites, hrest⟩ := Spec.steps hkeeps hsteps hreads
  rcases h with ⟨response, hret, n, hn, hdata⟩ | ⟨n, hlog, hdata⟩
  · rw [show (Pool.runs (serve env) (Pool.start (fun i => ((rpcs i).handler fastWriter).run)
      (World.start d)) sched).procs i = .ret (.ok (.get (.ok response))) from hret] at hrest
    exact hrest _ rfl response rfl n hn data hdata
  · exact hwrites _ (mem_own.mpr hlog) data hdata

/-- **When reads are committed**: in every run in which the pending edits never change what
a read selects, in particular if none is pending at any read. -/
theorem readsCommitted_of_undisturbed (env : Env D) (fastWriter : Json → String) (d : D)
    (rpcs : ℕ → Rpc) (sched : List ℕ)
    (h : Undisturbed env (Service.start fastWriter d rpcs) sched) :
    ReadsCommitted env fastWriter d rpcs sched := by
  intro i data hdel
  obtain ⟨xpath, trees, ⟨sched₁, sched₂, k, rfl, hproc, hreply⟩, hcarries⟩ :=
    delivered_read hdel
  have hclean := h.split
  change UndisturbedRead env (Service.runs env fastWriter d rpcs sched₁).state
    ((Service.runs env fastWriter d rpcs sched₁).procs i) at hclean
  rw [hproc] at hclean
  refine ⟨sched₁, sched₂, xpath, k, trees, rfl, hproc, hreply, hcarries, sched₁, trees,
    List.prefix_refl _, ?_, hcarries⟩
  rw [← hclean]
  rcases orFail_cases env (Service.runs env fastWriter d rpcs sched₁).state
      (.ok (env.sysrepo.subtrees xpath
        ((Service.runs env fastWriter d rpcs sched₁).state.view env.sysrepo)))
      (Service.runs env fastWriter d rpcs sched₁).state with ⟨exc, hf⟩ | hf
  · simp [serve, hf] at hreply
  · simpa [serve, hf] using hreply

/-- A datastore that holds a container `c` with one leaf `x`: its value. -/
def leafStore : Sysrepo String where
  apply
    | .set _ (some (.string s)), _ => s
    | _, d => d
  subtrees _ d :=
    some [.node "ex" "c" .container [.node "ex" "x" (.string d) []]]

/-- The leaf store with a pattern of failures. -/
def leafEnv (fails : ℕ → Option Exn) : Env String where
  sysrepo := leafStore
  parse _ := .ok []
  fails := fails
  systemClock n := n
  highResolutionClock := .ofNat

/-- The text of a leaf in an object, the only text the leaf store leads to. -/
def leafWriter : Json → String
  | .obj [(_, .str s)] => s
  | _ => ""

/-- RPC 0 sets `/c/x` to `new`, every other RPC gets `/c`. -/
def setThenGet (i : ℕ) : Rpc :=
  if i = 0 then
    .set { update := [⟨some { elem := [⟨"c", []⟩, ⟨"x", []⟩] }, some (.stringVal "new")⟩] }
  else .get { path := [{ elem := [⟨"c", []⟩] }] }

/-- With a commit that succeeds, the Get that follows reads committed data. -/
theorem setThenGet_readsCommitted :
    ReadsCommitted (leafEnv fun _ => none) leafWriter "old" setThenGet [0, 0, 0, 0, 1, 1, 1] :=
  readsCommitted_of_undisturbed _ _ _ _ _
    ⟨trivial, trivial, trivial, trivial, trivial, trivial, rfl, trivial⟩

/-- The commit of the Set, the fourth call, fails. -/
def commitFails : Env String :=
  leafEnv fun n => if n = 3 then some (.sysrepoException "SR_ERR_VALIDATION_FAILED") else none

/-- The commit fails, so the Set is answered INTERNAL; the Get that follows delivers the
value it has left pending, which the running datastore never had. -/
theorem not_readsCommitted :
    ¬ ReadsCommitted commitFails leafWriter "old" setThenGet [0, 0, 0, 0, 1, 1, 1] := by
  intro h
  have hdel : Delivered
      (Service.runs commitFails leafWriter "old" setThenGet [0, 0, 0, 0, 1, 1, 1]) 1 "new" :=
    Or.inl ⟨⟨[{ timestamp := 4, update :=
      [⟨some { elem := [⟨"c", []⟩] }, some (.jsonIetfVal "new")⟩] }]⟩, rfl, _,
      List.mem_cons_self, by decide⟩
  obtain ⟨sched₁, sched₂, xpath, k, trees, hsched, -, -, -, sched₀, trees₀, hpre, hsub,
    tree, htree, val, hval, htext⟩ := h 1 "new" hdel
  have hinits : sched₀ ∈ List.inits [0, 0, 0, 0, 1, 1, 1] := by
    rw [List.mem_inits, hsched]
    exact hpre.trans (List.prefix_append _ _)
  have hold : ∀ s ∈ List.inits [0, 0, 0, 0, 1, 1, 1],
      (Service.runs commitFails leafWriter "old" setThenGet s).state.running = "old" := by
    decide
  rw [hold sched₀ hinits] at hsub
  obtain rfl := Option.some.inj hsub
  obtain rfl := List.mem_singleton.mp htree
  obtain rfl := Except.ok.inj hval
  exact absurd htext (by decide)

end SysrepoGnxi
