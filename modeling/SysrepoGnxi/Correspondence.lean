import SysrepoGnxi.Lib.Lists
import SysrepoGnxi.SameData

/-!
# Updates and the Trees They Report

Every update of a notification should report one of the trees read for it: for each
subscription, in order, one update for each tree, with the JSON of the tree as its value
(`Corresponds`). `BuildSubsUpdate` adds an update before it has read anything, so each
subscription has one that reports no tree and whose value is unset. `corresponds_iff` says
that the notification of a list corresponds to its reads only if it has no subscription.
-/

open Dialogue JsonDoc

namespace SysrepoGnxi

open SubscribeRpc

/-- An update **reports a tree**: its value is set, to the text of the JSON of the tree. -/
def ReportsTree (fastWriter : Json → String) (tree : Tree) (u : Update) : Prop :=
  ∃ val, jsonTree tree = .ok val ∧ u.val = some (.jsonIetfVal (fastWriter val))

/-- **The updates correspond to the reads**: those of each subscription, in order, report
the trees a datastore has at its xpath, one update for each. -/
def Corresponds {D : Type} (sr : Sysrepo D) (d : D) (fastWriter : Json → String)
    (request : SubscriptionList) (n : Notification) : Prop :=
  ∃ groups, List.Forall₂ (fun sub us => ∃ trees,
      sr.subtrees (cStr (gnmiToXpath sub.path)) d = some trees ∧
        List.Forall₂ (ReportsTree fastWriter) trees us) request.subscription groups ∧
    n.update = groups.flatten

variable {D : Type} {sr : Sysrepo D} {d : D} {fastWriter : Json → String}
  {request : SubscriptionList} {n : Notification}

/-- Where the updates correspond to the reads, every value is set. -/
theorem Corresponds.value_set (h : Corresponds sr d fastWriter request n) :
    ∀ u ∈ n.update, u.val ≠ some .notSet := by
  obtain ⟨groups, hgroups, hupdate⟩ := h
  intro u hu
  rw [hupdate] at hu
  obtain ⟨us, hus, hmem⟩ := List.mem_flatten.mp hu
  obtain ⟨sub, -, trees, -, hreports⟩ := Lists.exists_left_of_forall₂ hgroups hus
  obtain ⟨tree, -, val, -, hval⟩ := Lists.exists_left_of_forall₂ hreports hmem
  rw [hval]
  simp

/-- The notification of a list with a subscription has an update whose value is unset. -/
theorem SnapshotOf.exists_unset {selected : String → List Tree → Prop}
    (h : SnapshotOf selected fastWriter request n) (hsub : request.subscription ≠ []) :
    ∃ u ∈ n.update, u.val = some .notSet := by
  obtain ⟨-, groups, hgroups, hupdate⟩ := h
  obtain ⟨sub, rest, hlist⟩ := List.exists_cons_of_ne_nil hsub
  rw [hlist] at hgroups
  cases hgroups with
  | cons hgroup _ =>
      obtain ⟨new, rfl, -⟩ := hgroup
      rw [hupdate]
      exact ⟨_, List.mem_flatten.mpr ⟨_, List.mem_cons_self, List.mem_cons_self⟩, rfl⟩

/-- **When a notification corresponds to its reads**: exactly if there was nothing to
read. -/
theorem corresponds_iff {evs : List CallEvent} (h : Built fastWriter request evs n)
    (hshows : ∀ ev ∈ evs, Shows sr d ev.1 ev.2) :
    Corresponds sr d fastWriter request n ↔ request.subscription = [] := by
  obtain ⟨hsnapshot, -⟩ := ends_buildSubscribeNotification request evs _ h
    (fun ev hev => (hshows ev hev).selects) n rfl
  constructor
  · intro hcorr
    by_contra hne
    obtain ⟨u, hu, hunset⟩ := hsnapshot.exists_unset hne
    exact hcorr.value_set u hu hunset
  · intro hnil
    obtain ⟨-, groups, hgroups, hupdate⟩ := hsnapshot
    rw [hnil] at hgroups
    cases hgroups
    exact ⟨[], by rw [hnil]; exact List.Forall₂.nil, hupdate⟩

/-! ### One subscription -/

/-- A datastore with one interface at every xpath. -/
def oneInterface : Sysrepo Unit :=
  ⟨fun _ d => d, fun _ _ => some [.node "if" "interface" .list
    [.node "if" "name" (.string "eth0") []]]⟩

/-- A list of subscriptions to the interfaces. -/
def toInterfaces (subs : List Subscription) : SubscriptionList :=
  { subscription := subs, mode := .ONCE, encoding := .JSON_IETF }

/-- The path of the interfaces. -/
def interfacesPath : Path := { elem := [⟨"if:interface", []⟩] }

/-- The exchanges of the build for one subscription. -/
def interfaceReads : List CallEvent :=
  [⟨.getTimeNanosec, (0 : ℕ)⟩, ⟨.refresh, .ok ()⟩,
    ⟨.getSubtrees (cStr (gnmiToXpath interfacesPath)),
      .ok (oneInterface.subtrees (cStr (gnmiToXpath interfacesPath)) ())⟩]

/-- The notification of one subscription: an update without a value, and one for the
interface. -/
def interfaceNotification : Notification :=
  { update := [⟨some interfacesPath, some .notSet⟩,
      ⟨some { interfacesPath with elem := [⟨"if:interface", [("name", "eth0")]⟩] },
        some (.jsonIetfVal "")⟩] }

theorem built_interfaceNotification :
    Built (fun _ => "") (toInterfaces [{ path := interfacesPath }]) interfaceReads
      interfaceNotification :=
  Yields.call (Yields.call (Yields.call (Yields.ret _)))

theorem shows_interfaceReads : ∀ ev ∈ interfaceReads, Shows oneInterface () ev.1 ev.2 := by
  intro ev hev xpath trees heq
  simp only [interfaceReads, List.mem_cons, List.not_mem_nil, or_false] at hev
  rcases hev with rfl | rfl | rfl <;> cases heq
  rfl

theorem interfaceNotification_iff :
    Corresponds oneInterface () (fun _ => "") (toInterfaces [{ path := interfacesPath }])
        interfaceNotification ↔
      (toInterfaces [{ path := interfacesPath }]).subscription = [] :=
  corresponds_iff built_interfaceNotification shows_interfaceReads

/-- A subscription to the interfaces, of which there is one, is answered with two updates. -/
theorem not_corresponds : ¬ ∀ (D : Type) (sr : Sysrepo D) (d : D) (fastWriter : Json → String)
    (request : SubscriptionList) (evs : List CallEvent) (n : Notification),
    Built fastWriter request evs n → (∀ ev ∈ evs, Shows sr d ev.1 ev.2) →
      Corresponds sr d fastWriter request n := by
  intro h
  have hcorr := h _ _ _ _ _ _ _ built_interfaceNotification shows_interfaceReads
  exact hcorr.value_set _ List.mem_cons_self rfl

end SysrepoGnxi
