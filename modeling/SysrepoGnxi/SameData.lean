import SysrepoGnxi.SubscribeSpec

/-!
# Subscribe and Get on the Same Paths

A Subscribe notification and a Get with the same prefix and paths are built by two separate
loops. The one of Get reads at the converted prefix followed by the converted path, the one
of Subscribe at the converted path alone.

Main results:

* `sameAsGet_iff` — the two read the same data exactly for lists without subscriptions and
  for prefixes that add nothing to the xpath;
* `not_sameAsGet` — a prefix with one element is ignored by Subscribe.
-/

open Dialogue JsonDoc

namespace SysrepoGnxi

/-! ### What Get reads -/

section Get

variable {selected : String → List Tree → Prop} {fastWriter : Json → String}

/-- The notification Get makes of a path. -/
def GetNotificationOf (selected : String → List Tree → Prop) (fastWriter : Json → String)
    (pfx : Option Path) (path : Path) (n : Notification) : Prop :=
  n.pfx = pfx ∧ UpdatesOf selected fastWriter (fullXpath pfx path) path n.update

/-- Where the trees read were selected, the notifications are those of the paths. -/
theorem InStep.notificationsOf {pfx : Option Path} {paths : List Path} {ns : List Notification}
    {rds : List (String × ReadReply)} (h : InStep fastWriter pfx paths ns rds)
    (hsel : ∀ xpath trees, (xpath, .ok (some trees)) ∈ rds → selected xpath trees) :
    List.Forall₂ (GetNotificationOf selected fastWriter pfx) paths ns := by
  induction h with
  | nil => exact List.Forall₂.nil
  | @cons path paths n ns read rds hnoted _ ih =>
      obtain ⟨hxpath, hpfx, trees, htrees, hreports⟩ := hnoted
      have hread : (cStr (fullXpath pfx path), .ok (some trees)) ∈ read :: rds := by
        rw [← hxpath, ← htrees]
        exact List.mem_cons_self
      refine List.Forall₂.cons ⟨hpfx, trees, hsel _ _ hread, hreports⟩ (ih ?_)
      exact fun xpath trees hread => hsel xpath trees (List.mem_cons_of_mem _ hread)

namespace GetRpc

theorem ends_run (req : GetRequest) :
    (run fastWriter req).Ends (Selects selected) fun o evs => ∀ response, o = .ok response →
      xpathsRead evs = req.path.map (fun path => cStr (fullXpath req.pfx path)) ∧
        List.Forall₂ (GetNotificationOf selected fastWriter req.pfx) req.path
          response.notification := by
  intro evs o hy hselects response ho
  have hstep := endsInStep_run req evs o hy (fun _ _ => trivial) response ho
  refine ⟨?_, hstep.notificationsOf fun _ _ => selected_of_reads hselects⟩
  rw [xpathsRead_eq, hstep.xpaths]

end GetRpc

end Get

/-! ### The same data -/

section SameData

/-- The Get request for the prefix and the paths of a list of subscriptions. -/
def getOf (request : SubscriptionList) : GetRequest :=
  { pfx := request.pfx, path := request.subscription.map (·.path)
    encoding := request.encoding }

/-- The updates in which a value is set. -/
def carried (updates : List Update) : List Update :=
  updates.filter fun u => u.val ≠ some .notSet

/-- **Subscribe and Get read the same data** under a prefix for a list of subscriptions: on
every datastore, a notification that is built for them and a Get with this prefix and these
paths read at the same xpaths and carry the same updates, and the notification was read
under the prefix it has. -/
def SameAsGet (pfx : Option Path) (subs : List Subscription) : Prop :=
  ∀ (D : Type) (sr : Sysrepo D) (d : D) (fastWriter : Json → String)
    (request : SubscriptionList) (evs evs' : List CallEvent) (n : Notification)
    (response : GetResponse), request.pfx = pfx → request.subscription = subs →
    SubscribeRpc.Built fastWriter request evs n → (∀ ev ∈ evs, Shows sr d ev.1 ev.2) →
    Yields (GetRpc.run fastWriter (getOf request)).run evs' (.ok (.ok response)) →
    (∀ ev ∈ evs', Shows sr d ev.1 ev.2) →
    xpathsRead evs = xpathsRead evs' ∧
      carried n.update = response.notification.flatMap (·.update) ∧
      xpathsRead evs = subs.map fun sub => cStr (fullXpath n.pfx sub.path)

/-- The prefix adds nothing to what is read at a path: there is none, it has no elements, or
its xpath holds a NUL, at which `c_str()` ends, and the one of the path agrees with it up to
there. -/
def IdlePrefix (pfx : Option Path) (path : Path) : Prop :=
  ∀ p, pfx = some p → p.elem = [] ∨
    (∃ c ∈ (gnmiToXpath p).toList, c.toNat = 0) ∧
      cStr (gnmiToXpath p) = cStr (gnmiToXpath path)

/-- A text before another changes the C string exactly when it is not empty and, if it holds
a NUL, differs from the other. -/
theorem cStr_append_eq_iff {s t : String} :
    cStr (s ++ t) = cStr t ↔ s = "" ∨ (∃ c ∈ s.toList, c.toNat = 0) ∧ cStr s = cStr t := by
  by_cases hs : ∀ c ∈ s.toList, c.toNat ≠ 0
  · have happend : cStr (s ++ t) = s ++ cStr t := by
      rw [← String.toList_inj]
      simp only [cStr, String.toList_ofList, String.toList_append]
      exact List.takeWhile_append_of_pos (by simpa using hs)
    rw [happend]
    constructor
    · intro h
      have hlen : (s ++ cStr t).toList.length = (cStr t).toList.length := by rw [h]
      rw [String.toList_append, List.length_append] at hlen
      have hnil : s.toList = [] := List.length_eq_zero_iff.mp (by omega)
      exact Or.inl (String.toList_inj.mp hnil)
    · rintro (rfl | ⟨⟨c, hc, hzero⟩, -⟩)
      · simp
      · exact absurd hzero (hs c hc)
  · obtain ⟨c, hc, hzero⟩ : ∃ c ∈ s.toList, c.toNat = 0 := by
      simpa only [not_forall, not_not, exists_prop] using hs
    have hcut : cStr (s ++ t) = cStr s := by
      rw [← String.toList_inj]
      simp only [cStr, String.toList_ofList, String.toList_append]
      rw [List.takeWhile_append, if_neg]
      intro hlen
      have hall := List.takeWhile_eq_self_iff.mp
        ((List.takeWhile_prefix _).eq_of_length hlen) c hc
      simp [hzero] at hall
    have hne : s ≠ "" := by
      rintro rfl
      simp at hc
    rw [hcut]
    exact ⟨fun h => Or.inr ⟨⟨c, hc, hzero⟩, h⟩, fun h => (h.resolve_left hne).2⟩

/-- The xpath of a path is empty exactly if the path has no elements. -/
theorem gnmiToXpath_eq_empty_iff {path : Path} : gnmiToXpath path = "" ↔ path.elem = [] := by
  obtain ⟨origin, elem, target⟩ := path
  cases elem with
  | nil => simp [gnmiToXpath]
  | cons node elems =>
      have hne : (gnmiToXpath ⟨origin, node :: elems, target⟩).toList ≠ [] := by
        simp [gnmiToXpath, elemsToXpath]
      constructor
      · intro h
        rw [h] at hne
        exact absurd rfl hne
      · intro h
        cases h

/-- **When the two xpaths agree**: exactly under an idle prefix. -/
theorem cStr_fullXpath_iff {pfx : Option Path} {path : Path} :
    cStr (fullXpath pfx path) = cStr (gnmiToXpath path) ↔ IdlePrefix pfx path := by
  cases pfx with
  | none => simp [fullXpath, IdlePrefix]
  | some p =>
      rw [fullXpath, Option.elim_some, cStr_append_eq_iff, gnmiToXpath_eq_empty_iff]
      constructor
      · rintro h p' ⟨⟩
        exact h
      · exact fun h => h p rfl

variable {fastWriter : Json → String}

/-- The updates that report given trees are determined. -/
theorem Reports.unique {path : Path} {previous : String × String} {trees : List Tree}
    {us us' : List Update} (h : Reports fastWriter path previous trees us)
    (h' : Reports fastWriter path previous trees us') : us = us' := by
  induction h generalizing us' with
  | nil =>
      cases h'
      rfl
  | cons hval hkey hu _ ih =>
      cases h' with
      | cons hval' hkey' hu' hrest' =>
          obtain rfl := Except.ok.inj (hval.symm.trans hval')
          obtain rfl := Except.ok.inj (hkey.symm.trans hkey')
          obtain rfl := Except.ok.inj (hu.symm.trans hu')
          rw [ih hrest']

/-- Every update that reports a tree carries a value. -/
theorem Reports.carried {path : Path} {previous : String × String} {trees : List Tree}
    {us : List Update} (h : Reports fastWriter path previous trees us) : carried us = us := by
  refine List.filter_eq_self.mpr ?_
  induction h with
  | nil => simp
  | cons hval hkey hu _ ih =>
      intro u hmem
      rcases List.mem_cons.mp hmem with rfl | hmem
      · simp [val_of_treeUpdate hu]
      · exact ih u hmem

section Datastore

variable {D : Type} {sr : Sysrepo D} {d : D}

/-- What a datastore shows is selected in it. -/
theorem Shows.selects {ev : CallEvent} (h : Shows sr d ev.1 ev.2) :
    Selects (fun xpath trees => sr.subtrees xpath d = some trees) ev.1 ev.2 := by
  intro xpath trees heq
  exact (h xpath (some trees) heq).symm

/-- The updates of a path in a datastore are determined by the C string of the xpath. -/
theorem updatesOf_unique {xpath xpath' : String} {path : Path} {us us' : List Update}
    (hxpath : cStr xpath = cStr xpath')
    (h : UpdatesOf (fun xpath trees => sr.subtrees xpath d = some trees) fastWriter xpath path us)
    (h' : UpdatesOf (fun xpath trees => sr.subtrees xpath d = some trees) fastWriter xpath' path
      us') : us = us' := by
  obtain ⟨trees, hsel, hreports⟩ := h
  obtain ⟨trees', hsel', hreports'⟩ := h'
  rw [hxpath, hsel'] at hsel
  obtain rfl := Option.some.inj hsel
  exact hreports.unique hreports'

/-- Under a prefix that adds nothing the values of a snapshot are those of the Get. -/
theorem carried_groups {pfx : Option Path} {subs : List Subscription}
    {groups : List (List Update)} {ns : List Notification}
    (hidle : ∀ sub ∈ subs, IdlePrefix pfx sub.path)
    (hgroups : List.Forall₂ (GroupOf (fun xpath trees => sr.subtrees xpath d = some trees)
      fastWriter) subs groups)
    (hns : List.Forall₂ (GetNotificationOf (fun xpath trees => sr.subtrees xpath d = some trees)
      fastWriter pfx) (subs.map (·.path)) ns) :
    carried groups.flatten = ns.flatMap (·.update) := by
  induction hgroups generalizing ns with
  | nil =>
      cases hns
      rfl
  | @cons sub group subs groups hgroup _ ih =>
      obtain ⟨new, rfl, hnew⟩ := hgroup
      cases hns with
      | @cons _ n _ ns hn hns =>
          have hxpath : cStr (gnmiToXpath sub.path) = cStr (fullXpath pfx sub.path) :=
            (cStr_fullXpath_iff.mpr (hidle sub List.mem_cons_self)).symm
          obtain rfl : new = n.update := updatesOf_unique hxpath hnew hn.2
          obtain ⟨trees, -, hreports⟩ := hnew
          have hrest := ih (fun s hs => hidle s (List.mem_cons_of_mem _ hs)) hns
          have hbare : carried ((⟨some sub.path, some .notSet⟩ :: n.update) ++ groups.flatten) =
              carried n.update ++ carried groups.flatten := by
            simp [carried, List.filter_append]
          rw [List.flatten_cons, hbare, hreports.carried, hrest, List.flatMap_cons]

end Datastore

/-- **Under a prefix that adds nothing** the two read the same data. -/
theorem sameAsGet_of_idle {pfx : Option Path} {subs : List Subscription}
    (hidle : ∀ sub ∈ subs, IdlePrefix pfx sub.path) : SameAsGet pfx subs := by
  rintro D sr d fastWriter request evs evs' n response rfl rfl hbuilt hshows hget hshows'
  obtain ⟨⟨hpfx, groups, hgroups, hflatten⟩, hreads⟩ :=
    SubscribeRpc.ends_buildSubscribeNotification request evs _ hbuilt
      (fun ev hev => (hshows ev hev).selects) n rfl
  obtain ⟨hreads', hns⟩ := GetRpc.ends_run _ evs' _ hget
    (fun ev hev => (hshows' ev hev).selects) response rfl
  have hsame : request.subscription.map (fun sub => cStr (gnmiToXpath sub.path)) =
      request.subscription.map fun sub => cStr (fullXpath request.pfx sub.path) :=
    List.map_congr_left fun sub hsub => (cStr_fullXpath_iff.mpr (hidle sub hsub)).symm
  refine ⟨?_, ?_, ?_⟩
  · rw [hreads, hreads', hsame]
    simp [getOf]
  · rw [hflatten]
    exact carried_groups hidle hgroups hns
  · rw [hreads, hsame, hpfx]

/-! ### A datastore in which every xpath selects nothing -/

/-- The replies when nothing fails and every xpath selects an empty list of trees. -/
def Bare (c : Call) (r : c.Reply) : Prop :=
  (∀ e, (⟨c, r⟩ : CallEvent) = ⟨.refresh, e⟩ → e = .ok ()) ∧
    ∀ xpath trees, (⟨c, r⟩ : CallEvent) = ⟨.getSubtrees xpath, trees⟩ → trees = .ok (some [])

theorem returns_refresh : refresh.Returns Bare fun _ => True := by
  refine Throwing.returns_ask ?_
  intro r hr
  exact ⟨(), hr.1 r rfl, trivial⟩

theorem returns_getTimeNanosec : getTimeNanosec.Returns Bare fun _ => True :=
  Throwing.returns_ask fun r _ => ⟨r, rfl, trivial⟩

theorem returns_readUpdates (path : Path) (fullpath : String) (updates : List Update) :
    (readUpdates fastWriter path fullpath updates).Returns Bare fun o => o = .ok updates := by
  have hget : (getSubtrees (cStr fullpath)).Returns Bare fun r => r = some [] :=
    Throwing.returns_ask fun r hr => ⟨some [], hr.2 (cStr fullpath) r rfl, rfl⟩
  have hread : (jsonRead fastWriter fullpath).Returns Bare fun vec => vec = [] := by
    refine hget.bind ?_
    rintro r rfl
    exact Throwing.returns_pure rfl
  refine Throwing.Returns.bind hread.observe ?_
  rintro o ⟨vec, rfl, rfl⟩
  exact Throwing.returns_pure rfl

/-- With these replies a notification is built for every list that is not refused. -/
theorem returns_buildSubscribeNotification {request : SubscriptionList}
    (h : SubscribeRpc.verifyList request = none) :
    (SubscribeRpc.buildSubscribeNotification fastWriter request).Returns Bare
      fun o => ∃ n, o = .ok n := by
  have hencoding := SubscribeRpc.encoding_of_verifyList h
  have hloop (subs : List Subscription) (updates : List Update) :
      (SubscribeRpc.subscriptionLoop fastWriter request.encoding subs updates).Returns Bare
        fun o => ∃ us, o = .ok us := by
    induction subs generalizing updates with
    | nil => exact Throwing.returns_pure ⟨updates, rfl⟩
    | cons sub rest ih =>
        have hsub : (SubscribeRpc.buildSubsUpdate fastWriter updates sub.path
            (gnmiToXpath sub.path) request.encoding).Returns Bare fun o => ∃ us, o = .ok us := by
          refine returns_refresh.bind fun _ _ => ?_
          have hread (updates : List Update) : (readUpdates fastWriter sub.path
              (gnmiToXpath sub.path) updates).Returns Bare fun o => ∃ us, o = .ok us :=
            Spec.mono (fun r ⟨o, hr, ho⟩ => ⟨o, hr, updates, ho⟩) (returns_readUpdates _ _ _)
          rcases hencoding with heq | heq <;> rw [heq] <;> exact hread _
        refine hsub.bind ?_
        rintro o ⟨us, rfl⟩
        exact ih us
  rw [SubscribeRpc.buildSubscribeNotification, h]
  refine returns_getTimeNanosec.bind fun t _ => (hloop _ _).bind ?_
  rintro o ⟨us, rfl⟩
  exact Throwing.returns_pure ⟨_, rfl⟩

/-- With these replies a Get that is not refused ends OK. -/
theorem returns_getRun {req : GetRequest} (hverify : GetRpc.verifyGetRequest req = none)
    (hencoding : req.encoding = .JSON) :
    (GetRpc.run fastWriter req).Returns Bare fun o => ∃ response, o = .ok response := by
  have hloop (paths : List Path) (ns : List Notification) :
      (GetRpc.pathLoop fastWriter req.pfx req.encoding paths ns).Returns Bare
        fun o => ∃ response, o = .ok response := by
    induction paths generalizing ns with
    | nil => exact Throwing.returns_pure ⟨_, rfl⟩
    | cons path rest ih =>
        have hn : (GetRpc.buildGetNotification fastWriter req.pfx path req.encoding).Returns Bare
            fun o => ∃ n, o = .ok n := by
          rw [hencoding]
          refine returns_getTimeNanosec.bind fun t _ => ?_
          refine Throwing.Returns.bind
            (returns_refresh.bind fun _ _ => returns_readUpdates _ _ _) ?_
          rintro o rfl
          exact Throwing.returns_pure ⟨_, rfl⟩
        refine hn.bind ?_
        rintro o ⟨n, rfl⟩
        exact ih _
  rw [GetRpc.run, hverify]
  exact hloop _ _

theorem exists_bare (c : Call) : ∃ r, Bare c r := by
  cases c with
  | refresh => exact ⟨.ok (), by rintro e ⟨⟩; rfl, by rintro _ _ ⟨⟩⟩
  | getSubtrees xpath => exact ⟨.ok (some []), by rintro _ ⟨⟩, by rintro _ _ ⟨⟩; rfl⟩
  | getTimeNanosec => exact ⟨(0 : ℕ), by rintro _ ⟨⟩, by rintro _ _ ⟨⟩⟩
  | now => exact ⟨TimePoint.ofNat 0, by rintro _ ⟨⟩, by rintro _ _ ⟨⟩⟩
  | write | tryCancel => exact ⟨(), by rintro _ ⟨⟩, by rintro _ _ ⟨⟩⟩
  | _ => exact ⟨.error .nullPointer, by rintro _ ⟨⟩, by rintro _ _ ⟨⟩⟩

/-- The datastore in which every xpath selects nothing. -/
def bareStore : Sysrepo Unit := ⟨fun _ d => d, fun _ _ => some []⟩

theorem Bare.shows {ev : CallEvent} (h : Bare ev.1 ev.2) : Shows bareStore () ev.1 ev.2 := by
  intro xpath trees heq
  exact Except.ok.inj (h.2 xpath (.ok trees) heq)

/-- A prefix under which the two read the same data adds nothing. -/
theorem idle_of_sameAsGet {pfx : Option Path} {subs : List Subscription}
    (h : SameAsGet pfx subs) : ∀ sub ∈ subs, IdlePrefix pfx sub.path := by
  let request : SubscriptionList := { pfx := pfx, subscription := subs }
  have hbuild : (SubscribeRpc.buildSubscribeNotification (fun _ => "") request).Returns Bare
      fun o => ∃ n, o = .ok n := returns_buildSubscribeNotification rfl
  have hrun : (GetRpc.run (fun _ => "") (getOf request)).Returns Bare
      fun o => ∃ response, o = .ok response := returns_getRun rfl rfl
  obtain ⟨evs, _, hbuilt, hbare, n, rfl⟩ := hbuild.exists_yields exists_bare
  obtain ⟨evs', _, hget, hbare', response, rfl⟩ := hrun.exists_yields exists_bare
  have hshows : ∀ ev ∈ evs, Shows bareStore () ev.1 ev.2 := fun ev hev => (hbare ev hev).shows
  obtain ⟨-, -, hunder⟩ := h Unit bareStore () _ request _ _ n response rfl rfl
    hbuilt hshows hget fun ev hev => (hbare' ev hev).shows
  obtain ⟨⟨hpfx, -⟩, hreads⟩ := SubscribeRpc.ends_buildSubscribeNotification request _ _ hbuilt
    (fun ev hev => (hshows ev hev).selects) n rfl
  rw [hreads, hpfx] at hunder
  intro sub hsub
  exact cStr_fullXpath_iff.mp (List.map_inj_left.mp hunder sub hsub).symm

/-- **When Subscribe and Get read the same data**: exactly for subscriptions to whose paths
the prefix adds nothing. -/
theorem sameAsGet_iff (pfx : Option Path) (subs : List Subscription) :
    SameAsGet pfx subs ↔ ∀ sub ∈ subs, IdlePrefix pfx sub.path :=
  ⟨idle_of_sameAsGet, sameAsGet_of_idle⟩

/-- Under the prefix `/ex:system` a subscription to `hostname` reads `/hostname`, a Get
`/ex:system/hostname`. -/
theorem not_sameAsGet :
    ¬ SameAsGet (some { elem := [⟨"ex:system", []⟩] })
      [{ path := { elem := [⟨"hostname", []⟩] } }] := by
  intro h
  have hidle := idle_of_sameAsGet h _ List.mem_cons_self _ rfl
  rcases hidle with hnil | ⟨⟨c, hc, hzero⟩, -⟩
  · cases hnil
  · have hnul : ∀ c ∈ "/ex:system".toList, c.toNat ≠ 0 := by simp
    exact hnul c hc hzero

end SameData

end SysrepoGnxi
