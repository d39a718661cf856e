import SysrepoGnxi.Get

/-!
# What a Get Request Returns

Everything a handler learns of the datastore comes from `readUpdates`: one call of
`get_subtrees`, whose reply decides how it ends (`yields_readUpdates_iff`). So the reads of a
dialogue are kept with their replies (`reads`), and a Get that ends with a response has read
once for each of its paths and made a notification of it (`endsInStep_run`).

On a datastore that does not change under the Get these are the trees the paths select
(`NotificationOf`, `serveGet_ok`).

`Reports` says what the two loops over the trees of a read do, one tree at a time: the JSON of
the tree, the key noted for it, which is the previous one for a tree that is no list instance,
and the update with that key in its path.
-/

open Dialogue JsonDoc

namespace SysrepoGnxi

/-! ### One update for each tree -/

/-- The updates made of trees, in order; `previous` is the key noted last. -/
inductive Reports (fastWriter : Json → String) (path : Path) :
    String × String → List Tree → List Update → Prop where
  | nil (previous : String × String) : Reports fastWriter path previous [] []
  | cons {previous key : String × String} {tree : Tree} {trees : List Tree} {val : Json}
      {u : Update} {us : List Update} :
      jsonTree tree = .ok val → noteKey previous val tree = .ok key →
      treeUpdate path ⟨key, fastWriter val⟩ = .ok u →
      Reports fastWriter path key trees us →
      Reports fastWriter path previous (tree :: trees) (u :: us)

/-- **The loops over trees** report every tree, after what was there. -/
theorem reports_of_loops {fastWriter : Json → String} {path : Path} {trees : List Tree}
    {tmp : JsonData} {vec : List JsonData} {us us' : List Update}
    (hread : readTrees fastWriter tmp trees = .ok vec)
    (hupdates : treeUpdates path vec us = .ok us') :
    ∃ new, us' = us ++ new ∧ Reports fastWriter path tmp.key trees new := by
  induction trees generalizing tmp vec us with
  | nil =>
      cases hread
      cases hupdates
      exact ⟨[], (List.append_nil _).symm, Reports.nil _⟩
  | cons tree trees ih =>
      obtain ⟨val, key, vec', hval, hkey, hrest, rfl⟩ := readTrees_cons_eq_ok.mp hread
      obtain ⟨u, hu, hupdates⟩ := bind_eq_ok.mp hupdates
      obtain ⟨new, rfl, hnew⟩ := ih hrest hupdates
      exact ⟨u :: new, by simp, Reports.cons hval hkey hu hnew⟩

/-- An update made of a result carries its text. -/
theorem val_of_treeUpdate {path : Path} {it : JsonData} {u : Update}
    (h : treeUpdate path it = .ok u) : u.val = some (.jsonIetfVal it.data) := by
  rw [treeUpdate] at h
  split_ifs at h
  · obtain ⟨elem, -, hpure⟩ := bind_eq_ok.mp h
    rw [← Except.ok.inj hpure]
  · cases h
    rfl

/-! ### Reading at an xpath -/

/-- What an exception at `json_read` makes of a read. -/
def readFailure (exc : Exn) : Except Exn (Except Status (List Update)) :=
  match catchRead exc with
  | some status => .ok (.error status)
  | none => .error exc

/-- What `readUpdates` ends with on a reply of `get_subtrees`. -/
def readOutcome (fastWriter : Json → String) (path : Path) (us : List Update)
    (reply : Except Exn (Option (List Tree))) : Except Exn (Except Status (List Update)) :=
  match jsonOutcome fastWriter reply with
  | .error exc => readFailure exc
  | .ok vec => (treeUpdates path vec us).map .ok

variable {fastWriter : Json → String}

/-- **Reading at an xpath** asks for its subtrees once, and ends as the reply tells. -/
theorem yields_readUpdates_iff {path : Path} {fullpath : String} {us : List Update}
    {evs : List CallEvent} {r : Except Exn (Except Status (List Update))} :
    Yields (readUpdates fastWriter path fullpath us).run evs r ↔
      ∃ reply, evs = [⟨.getSubtrees (cStr fullpath), reply⟩] ∧
        r = readOutcome fastWriter path us reply := by
  refine (Throwing.yields_observe_quiet (g := fun o => match o with
    | .error exc => readFailure exc
    | .ok vec => (treeUpdates path vec us).map .ok) ?_).trans ?_
  · rintro (exc | vec) evs r
    · simp only [readFailure]
      cases hcatch : catchRead exc with
      | some status => exact Throwing.yields_pure
      | none => exact Throwing.yields_throw
    · dsimp only
      rw [Throwing.yields_bind_pure]
      constructor
      · rintro ⟨o, ho, rfl⟩
        obtain ⟨rfl, rfl⟩ := yields_ofExcept.mp ho
        exact ⟨rfl, rfl⟩
      · rintro ⟨rfl, rfl⟩
        exact ⟨_, yields_ofExcept.mpr ⟨rfl, rfl⟩, rfl⟩
  · constructor
    · rintro ⟨o, ho, rfl⟩
      obtain ⟨reply, rfl, rfl⟩ := yields_jsonRead_iff.mp ho
      exact ⟨reply, rfl, rfl⟩
    · rintro ⟨reply, rfl, rfl⟩
      exact ⟨_, yields_jsonRead_iff.mpr ⟨reply, rfl, rfl⟩, rfl⟩

/-- A read that ends with updates was given trees, and reports them. -/
theorem reports_of_readOutcome {path : Path} {us us' : List Update}
    {reply : Except Exn (Option (List Tree))}
    (h : readOutcome fastWriter path us reply = .ok (.ok us')) :
    ∃ trees new, reply = .ok (some trees) ∧ us' = us ++ new ∧
      Reports fastWriter path ("", "") trees new := by
  rw [readOutcome] at h
  cases hread : jsonOutcome fastWriter reply with
  | error exc =>
      simp only [hread, readFailure] at h
      cases hcatch : catchRead exc <;> simp [hcatch] at h
  | ok vec =>
      simp only [hread] at h
      obtain ⟨trees, rfl⟩ : ∃ trees, reply = .ok (some trees) := by
        rcases reply with exc | _ | trees
        · cases hread
        · cases hread
        · exact ⟨trees, rfl⟩
      cases hup : treeUpdates path vec us with
      | error exc => simp [hup, Except.map] at h
      | ok us₁ =>
          obtain rfl : us₁ = us' := by simpa [hup, Except.map] using h
          obtain ⟨new, rfl, hnew⟩ := reports_of_loops hread hup
          exact ⟨trees, new, rfl, rfl, hnew⟩

/-! ### The reads of a dialogue -/

/-- A call of a reader. -/
def Reading : Call → Prop
  | .refresh => True
  | .getTimeNanosec => True
  | .getSubtrees _ => True
  | _ => False

theorem only_readUpdates (path : Path) (fullpath : String) (updates : List Update) :
    (readUpdates fastWriter path fullpath updates).Only Reading := by
  have hread : (jsonRead fastWriter fullpath).Only Reading := by
    refine (Throwing.only_ask (by trivial)).bind ?_
    rintro (_ | trees)
    · exact Throwing.only_throw _
    · dsimp only
      cases readTrees fastWriter {} trees with
      | error exc => exact Throwing.only_throw _
      | ok vec => exact Throwing.only_pure _
  refine hread.observe.bind ?_
  rintro (exc | vec)
  · dsimp only
    cases catchRead exc with
    | none => exact Throwing.only_throw _
    | some status => exact Throwing.only_pure _
  · dsimp only
    cases treeUpdates path vec updates with
    | error exc => exact Throwing.only_throw _
    | ok us => exact Throwing.only_pure _

/-- What `get_subtrees` answers. -/
abbrev ReadReply : Type := Except Exn (Option (List Tree))

/-- The read an exchange is: its xpath and the reply. -/
def readOf : CallEvent → Option (String × ReadReply)
  | ⟨.getSubtrees xpath, reply⟩ => some (xpath, reply)
  | _ => none

/-- The reads of a dialogue, in order. -/
def reads (evs : List CallEvent) : List (String × ReadReply) := evs.filterMap readOf

@[simp] theorem reads_append (evs₁ evs₂ : List CallEvent) :
    reads (evs₁ ++ evs₂) = reads evs₁ ++ reads evs₂ := List.filterMap_append

/-- What has been read is among the exchanges. -/
theorem mem_reads {evs : List CallEvent} {read : String × ReadReply} (h : read ∈ reads evs) :
    ⟨.getSubtrees read.1, read.2⟩ ∈ evs := by
  obtain ⟨⟨c, r⟩, hev, hread⟩ := List.mem_filterMap.mp h
  cases c with
  | getSubtrees xpath =>
      obtain rfl := Option.some.inj hread
      exact hev
  | _ => cases hread

/-- A call that reads nothing. -/
theorem reads_ask {α : Type} {c : Call} {h : c.Reply → Except Exn α}
    (hc : ∀ r, readOf ⟨c, r⟩ = none) {evs : List CallEvent} {r : Except Exn α}
    (hy : Yields (Throwing.ask c h : Handler α).run evs r) : reads evs = [] := by
  obtain ⟨reply, rfl, -⟩ := Throwing.yields_ask.mp hy
  simp [reads, hc]

/-- No condition on the replies. -/
abbrev AnyReply (c : Call) (_ : c.Reply) : Prop := True

theorem ends_unread {α : Type} {c : Call} {h : c.Reply → Except Exn α}
    (hc : ∀ r, readOf ⟨c, r⟩ = none) :
    (Throwing.ask c h : Handler α).Ends AnyReply fun _ evs => reads evs = [] :=
  fun _ _ hy _ => reads_ask hc hy

/-- **The updates of one path** are those of one read. -/
theorem ends_readUpdates (path : Path) (fullpath : String) (updates : List Update) :
    (readUpdates fastWriter path fullpath updates).Ends AnyReply fun o evs =>
      ∀ us, o = .ok us → ∃ new trees, us = updates ++ new ∧
        reads evs = [(cStr fullpath, .ok (some trees))] ∧
        Reports fastWriter path ("", "") trees new := by
  rintro evs o hy - us rfl
  obtain ⟨reply, rfl, ho⟩ := yields_readUpdates_iff.mp hy
  obtain ⟨trees, new, rfl, rfl, hnew⟩ := reports_of_readOutcome ho.symm
  exact ⟨new, trees, rfl, rfl, hnew⟩

/-! ### What a Get reads, and what it makes of it -/

/-- A notification is that of a path and of a read, made for the path. -/
def NotedBy (fastWriter : Json → String) (pfx : Option Path) (path : Path) (n : Notification)
    (read : String × ReadReply) : Prop :=
  read.1 = cStr (fullXpath pfx path) ∧ n.pfx = pfx ∧
    ∃ trees, read.2 = .ok (some trees) ∧ Reports fastWriter path ("", "") trees n.update

/-- The paths of a Get, its notifications and its reads, one of each at a time. -/
inductive InStep (fastWriter : Json → String) (pfx : Option Path) :
    List Path → List Notification → List (String × ReadReply) → Prop
  | nil : InStep fastWriter pfx [] [] []
  | cons {path : Path} {paths : List Path} {n : Notification} {ns : List Notification}
      {read : String × ReadReply} {reads : List (String × ReadReply)} :
      NotedBy fastWriter pfx path n read → InStep fastWriter pfx paths ns reads →
      InStep fastWriter pfx (path :: paths) (n :: ns) (read :: reads)

namespace GetRpc

theorem endsNoted_buildGetNotification (pfx : Option Path) (path : Path) (encoding : Encoding) :
    (buildGetNotification fastWriter pfx path encoding).Ends AnyReply fun o evs =>
      ∀ n, o = .ok n → ∃ read, reads evs = [read] ∧ NotedBy fastWriter pfx path n read := by
  have hupdate : (buildGetUpdate fastWriter path (fullXpath pfx path) encoding).Ends AnyReply
      fun o evs => ∀ us, o = .ok us → ∃ read, reads evs = [read] ∧
        NotedBy fastWriter pfx path { pfx := pfx, update := us } read := by
    refine (ends_unread (c := .refresh) fun _ => rfl).bind fun _ evs₁ h₁ => ?_
    intro evs₂ o hy hr us ho
    rw [reads_append, h₁, List.nil_append]
    cases encoding with
    | JSON | JSON_IETF =>
        obtain ⟨new, trees, rfl, hreads, hnew⟩ :=
          ends_readUpdates path (fullXpath pfx path) [] evs₂ o hy hr us ho
        exact ⟨_, hreads, rfl, rfl, trees, rfl, hnew⟩
    | _ =>
        obtain ⟨-, hstatus⟩ := Throwing.yields_pure.mp hy
        rw [ho] at hstatus
        cases hstatus
  refine (ends_unread (c := .getTimeNanosec) fun _ => rfl).bind fun timestamp evs₁ h₁ => ?_
  refine hupdate.bind ?_
  rintro (status | us) evs₂ h₂
  · exact Throwing.ends_pure (by simp)
  · refine Throwing.ends_pure ?_
    rintro n ⟨⟩
    obtain ⟨read, hreads, hnoted⟩ := h₂ us rfl
    exact ⟨read, by simp [h₁, hreads], hnoted⟩

/-- Induction on the paths. -/
theorem endsInStep_pathLoop (pfx : Option Path) (encoding : Encoding) (paths : List Path)
    (notifications : List Notification) :
    (pathLoop fastWriter pfx encoding paths notifications).Ends AnyReply fun o evs =>
      ∀ response, o = .ok response → ∃ new, response.notification = notifications ++ new ∧
        InStep fastWriter pfx paths new (reads evs) := by
  induction paths generalizing notifications with
  | nil =>
      refine Throwing.ends_pure ?_
      rintro response ⟨⟩
      exact ⟨[], by simp, InStep.nil⟩
  | cons path rest ih =>
      refine (endsNoted_buildGetNotification pfx path encoding).bind ?_
      rintro (status | n) evs₁ h₁
      · exact Throwing.ends_pure (by simp)
      · obtain ⟨read, hread, hnoted⟩ := h₁ n rfl
        intro evs₂ o hy hr response ho
        obtain ⟨new, hnew, hstep⟩ := ih (notifications ++ [n]) evs₂ o hy hr response ho
        refine ⟨n :: new, by simp [hnew], ?_⟩
        rw [reads_append, hread]
        exact InStep.cons hnoted hstep

theorem endsInStep_run (req : GetRequest) :
    (run fastWriter req).Ends AnyReply fun o evs => ∀ response, o = .ok response →
      InStep fastWriter req.pfx req.path response.notification (reads evs) := by
  rw [run]
  cases verifyGetRequest req with
  | some status => exact Throwing.ends_pure (by simp)
  | none =>
      intro evs o hy hr response ho
      obtain ⟨new, hnew, hstep⟩ :=
        endsInStep_pathLoop req.pfx req.encoding req.path [] evs o hy hr response ho
      rw [hnew]
      exact hstep

/-- **A Get only reads.** -/
theorem only_run (req : GetRequest) : (run fastWriter req).Only Reading := by
  have htime : getTimeNanosec.Only Reading := Throwing.only_ask trivial
  have hrefresh : refresh.Only Reading := Throwing.only_ask trivial
  have hnotification (path : Path) :
      (buildGetNotification fastWriter req.pfx path req.encoding).Only Reading := by
    have hupdate : (buildGetUpdate fastWriter path (fullXpath req.pfx path) req.encoding).Only
        Reading := by
      refine hrefresh.bind fun _ => ?_
      cases req.encoding with
      | JSON | JSON_IETF => exact only_readUpdates _ _ _
      | _ => exact Throwing.only_pure _
    refine htime.bind fun _ => hupdate.bind ?_
    rintro (status | us) <;> exact Throwing.only_pure _
  have hloop (paths : List Path) (notifications : List Notification) :
      (pathLoop fastWriter req.pfx req.encoding paths notifications).Only Reading := by
    induction paths generalizing notifications with
    | nil => exact Throwing.only_pure _
    | cons path rest ih =>
        refine (hnotification path).bind ?_
        rintro (status | n)
        · exact Throwing.only_pure _
        · exact ih _
  rw [run]
  cases verifyGetRequest req with
  | some status => exact Throwing.only_pure _
  | none => exact hloop req.path []

end GetRpc

/-- Each read is at the xpath of its path. -/
theorem InStep.xpaths {pfx : Option Path} {paths : List Path} {ns : List Notification}
    {rds : List (String × ReadReply)} (h : InStep fastWriter pfx paths ns rds) :
    rds.map Prod.fst = paths.map fun path => cStr (fullXpath pfx path) := by
  induction h with
  | nil => rfl
  | cons hnoted _ ih => simp [ih, hnoted.1]

theorem InStep.length_eq {pfx : Option Path} {paths : List Path} {ns : List Notification}
    {rds : List (String × ReadReply)} (h : InStep fastWriter pfx paths ns rds) :
    ns.length = paths.length := by
  induction h with
  | nil => rfl
  | cons _ _ ih => exact congrArg Nat.succ ih

/-! ### The handler on a datastore -/

section Get

variable {D : Type}

/-- The replies of a session that shows this datastore. -/
def Shows (sr : Sysrepo D) (d : D) (c : Call) (r : c.Reply) : Prop :=
  ∀ xpath trees, (⟨c, r⟩ : CallEvent) = ⟨.getSubtrees xpath, .ok trees⟩ →
    trees = sr.subtrees xpath d

/-- **The notification of a path**: its updates report the trees the path selects. -/
def NotificationOf (sr : Sysrepo D) (fastWriter : Json → String) (d : D)
    (pfx : Option Path) (path : Path) (n : Notification) : Prop :=
  n.pfx = pfx ∧ ∃ trees, sr.subtrees (cStr (fullXpath pfx path)) d = some trees ∧
    Reports fastWriter path ("", "") trees n.update

/-- Where the reads show a datastore, so do the notifications. -/
theorem InStep.shown {sr : Sysrepo D} {d : D} {pfx : Option Path} {paths : List Path}
    {ns : List Notification} {rds : List (String × ReadReply)}
    (h : InStep fastWriter pfx paths ns rds)
    (hreads : ∀ read ∈ rds, ∀ trees, read.2 = .ok trees → trees = sr.subtrees read.1 d) :
    List.Forall₂ (NotificationOf sr fastWriter d pfx) paths ns := by
  induction h with
  | nil => exact List.Forall₂.nil
  | cons hnoted _ ih =>
      obtain ⟨hxpath, hpfx, trees, htrees, hreports⟩ := hnoted
      have htrees' := hreads _ List.mem_cons_self _ htrees
      exact List.Forall₂.cons ⟨hpfx, trees, hxpath ▸ htrees'.symm, hreports⟩
        (ih fun read hread => hreads read (List.mem_cons_of_mem _ hread))

/-! ### A served request -/

/-- How a Get request ends. -/
abbrev GetResult : Type := Except Exn (Except Status GetResponse)

/-- Serve a Get request. -/
def serveGet (env : Env D) (fastWriter : Json → String) (w : World D) (req : GetRequest) :
    Outcome Call Call.Reply (World D) GetResult :=
  Dialogue.run (serve env) (GetRpc.run fastWriter req).run w

/-- A reader's call leaves what the session shows, and is shown it. -/
theorem serve_reading (env : Env D) (w : World D) {c : Call} (hc : Reading c) :
    Shows env.sysrepo (w.view env.sysrepo) c (serve env w c).1 ∧
      (serve env w c).2.running = w.running ∧ (serve env w c).2.pending = w.pending := by
  cases c with
  | getSubtrees xpath =>
      refine ⟨?_, by simp [serve], by simp [serve]⟩
      rcases orFail_cases env w
        (.ok (env.sysrepo.subtrees xpath (w.view env.sysrepo))) w with ⟨exc, heq⟩ | heq
      · simp only [serve, heq]
        rintro _ _ ⟨⟩
      · simp only [serve, heq]
        rintro _ _ ⟨⟩
        rfl
  | refresh => exact ⟨by rintro _ _ ⟨⟩, by simp [serve], by simp [serve]⟩
  | getTimeNanosec => exact ⟨by rintro _ _ ⟨⟩, rfl, rfl⟩
  | _ => exact hc.elim

/-- **What a Get that returns OK has returned**: the notification of each requested path, on
the datastore the session shows. -/
theorem serveGet_ok {env : Env D} {fastWriter : Json → String} {w : World D}
    {req : GetRequest} {response : GetResponse}
    (h : (serveGet env fastWriter w req).value = .ok (.ok response)) :
    List.Forall₂ (NotificationOf env.sysrepo fastWriter (w.view env.sysrepo) req.pfx)
      req.path response.notification := by
  have hserve : ∀ w' c, w'.running = w.running ∧ w'.pending = w.pending → Reading c →
      Shows env.sysrepo (w.view env.sysrepo) c (serve env w' c).1 ∧
        (serve env w' c).2.running = w.running ∧
        (serve env w' c).2.pending = w.pending := by
    rintro w' c ⟨hr, hp⟩ hc
    obtain ⟨hshows, hr', hp'⟩ := serve_reading env w' hc
    have hview : w'.view env.sysrepo = w.view env.sysrepo := by rw [World.view, hr, hp]; rfl
    rw [hview] at hshows
    exact ⟨hshows, hr'.trans hr, hp'.trans hp⟩
  obtain ⟨hyields, hanswers, -⟩ := yields_run (serve env) (GetRpc.run fastWriter req).run w
  have hshows := hanswers.promised hserve ⟨rfl, rfl⟩ ((GetRpc.only_run req).mem hyields)
  rw [serveGet] at h
  rw [h] at hyields
  refine (GetRpc.endsInStep_run req _ _ hyields (fun _ _ => trivial) response rfl).shown ?_
  intro read hread trees htrees
  have hev := hshows _ (mem_reads hread)
  exact hev read.1 trees (by rw [htrees])

end Get

end SysrepoGnxi
