import SysrepoGnxi.KeyAttribution
import SysrepoGnxi.ReadRounds

/-!
# The Element a List Key Is Put In

The key of a list instance is put in the last element of the returned path, at the index
`elem_size() - 1`. The trees are read at the prefix and the path together, but the returned
path is that of the item alone: under a prefix with elements it may have none, and a list
instance may be read all the same. `safe_iff` says which Get requests cannot come to that,
and that no Subscribe request can, whose xpaths are made of the path alone.
-/

open Dialogue JsonDoc

namespace SysrepoGnxi

/-- `elem_size() - 1`, the index handed to `mutable_elem`. -/
def patchIndex (path : Path) : ℤ := path.elem.length - 1

/-- The index is that of an element. -/
def IndexInRange (path : Path) : Prop :=
  0 ≤ patchIndex path ∧ patchIndex path ≤ path.elem.length - 1

theorem indexInRange_iff {path : Path} : IndexInRange path ↔ path.elem ≠ [] := by
  have hlen : 0 < path.elem.length ↔ path.elem ≠ [] := List.length_pos_iff
  rw [← hlen, IndexInRange, patchIndex]
  omega

/-- sysrepo returns no trees for the empty xpath. -/
def NoneAtRoot (ev : CallEvent) : Prop :=
  ∀ xpath trees, readOf ev = some (xpath, .ok (some trees)) → xpath ≠ ""

/-- A key is put in a path without crashing exactly if the index is that of an element. -/
theorem treeUpdate_iff {path : Path} {it : JsonData} :
    treeUpdate path it ≠ .error .nullPointer ↔ (it.key.1 ≠ "" → IndexInRange path) := by
  rw [indexInRange_iff]
  constructor
  · intro hupdate hkey helem
    exact hupdate (by rw [treeUpdate, if_pos hkey, helem]; rfl)
  · intro hrange
    have hbare : path.elem = [] → it.key.1 = "" := fun helem =>
      by_contra fun hkey => hrange hkey helem
    obtain ⟨u, hu⟩ := exists_treeUpdate hbare
    rw [hu]
    simp

/-- Wherever the update of a result is made for a path, in a dialogue that reads for these paths
in order, it is made without crashing: a key is only put in an element that exists. -/
def PatchesInRange (fastWriter : Json → String) (paths : List Path) (evs : List CallEvent) :
    Prop :=
  ∀ (k : ℕ) (path : Path) (xpath : String) (trees : List Tree) (vec : List JsonData),
    paths[k]? = some path → (reads evs)[k]? = some (xpath, .ok (some trees)) →
    readTrees fastWriter {} trees = .ok vec →
      ∀ it ∈ vec, treeUpdate path it ≠ .error .nullPointer ∧ (it.key.1 ≠ "" → IndexInRange path)

/-- A Get request is **safe**: no run of it puts a key out of range. -/
def GetRpc.Safe (fastWriter : Json → String) (req : GetRequest) : Prop :=
  ∀ evs r, Yields (run fastWriter req).run evs r → (∀ ev ∈ evs, NoneAtRoot ev) →
    PatchesInRange fastWriter req.path evs

/-- A list of subscriptions is **safe**: no build of its notification puts a key out of
range. -/
def SubscribeRpc.Safe (fastWriter : Json → String) (request : SubscriptionList) : Prop :=
  ∀ evs r, Yields (buildSubscribeNotification fastWriter request).run evs r →
    (∀ ev ∈ evs, NoneAtRoot ev) →
      PatchesInRange fastWriter (request.subscription.map Subscription.path) evs

/-! ### Xpaths that are empty -/

/-- The xpath of a path is the root exactly if the path has no elements. -/
theorem cStr_gnmiToXpath_eq_empty {path : Path} :
    cStr (gnmiToXpath path) = "" ↔ path.elem = [] := by
  cases helem : path.elem with
  | nil => simp [gnmiToXpath, helem, cStr]
  | cons node rest =>
      refine iff_of_false ?_ (by simp)
      intro hempty
      have hchars := congrArg String.toList hempty
      rw [cStr, String.toList_ofList, toList_gnmiToXpath, Path.steps, helem, elemSteps,
        XPath.render_cons] at hchars
      simp at hchars

theorem cStr_fullXpath_eq_empty {pfx : Option Path} {path : Path} :
    cStr (fullXpath pfx path) = "" ↔ (∀ p, pfx = some p → p.elem = []) ∧ path.elem = [] := by
  cases pfx with
  | none => simpa [fullXpath] using cStr_gnmiToXpath_eq_empty
  | some p =>
      cases helem : p.elem with
      | nil =>
          have hpath : cStr (gnmiToXpath path) = "" ↔ path.elem = [] := cStr_gnmiToXpath_eq_empty
          simpa [fullXpath, gnmiToXpath, helem] using hpath
      | cons node rest =>
          refine iff_of_false ?_ (by simp [helem])
          intro hempty
          have hchars := congrArg String.toList hempty
          rw [cStr, String.toList_ofList, fullXpath, String.toList_append, Option.elim_some,
            toList_gnmiToXpath, Path.steps, helem, elemSteps, XPath.render_cons] at hchars
          simp at hchars

/-! ### Safe reads -/

/-- Reads in order of paths, none of which has trees at the root, put no key out of range if
only the paths read at the root have no elements. -/
theorem patchesInRange_of_readsUpTo {fastWriter : Json → String} {α : Type}
    {x : Handler (Except Status α)} {paths : List Path} {xpath : Path → String}
    (hreads : ReadsUpTo (paths.map xpath) x)
    (hempty : ∀ path ∈ paths, path.elem = [] → xpath path = "") {evs : List CallEvent}
    {r : Except Exn (Except Status α)} (hy : Yields x.run evs r)
    (hroot : ∀ ev ∈ evs, NoneAtRoot ev) : PatchesInRange fastWriter paths evs := by
  intro k path name trees vec hpath hread _ it _
  rw [treeUpdate_iff, and_self, indexInRange_iff]
  intro _ helem
  obtain ⟨⟨rest, hprefix⟩, -⟩ := hreads evs r hy
  have hlt : k < ((reads evs).map Prod.fst).length := by
    rw [List.length_map]
    exact (List.getElem?_eq_some_iff.mp hread).1
  have hname : (paths.map xpath)[k]? = some name := by
    rw [← hprefix, List.getElem?_append_left hlt, List.getElem?_map, hread]
    rfl
  rw [List.getElem?_map, hpath] at hname
  obtain rfl : xpath path = name := Option.some.inj hname
  rw [hempty path (List.mem_of_getElem? hpath) helem] at hread
  obtain ⟨ev, hev, hof⟩ := List.mem_filterMap.mp (List.mem_of_getElem? hread)
  exact hroot ev hev _ trees hof rfl

/-- **No Subscribe request puts a key out of range.** -/
theorem SubscribeRpc.safe (fastWriter : Json → String) (request : SubscriptionList) :
    SubscribeRpc.Safe fastWriter request := by
  intro evs r hy hroot
  cases hverify : verifyList request with
  | some status =>
      rw [buildSubscribeNotification, hverify] at hy
      obtain ⟨rfl, -⟩ := Throwing.yields_pure.mp hy
      intro k path xpath trees vec _ hread
      simp [reads] at hread
  | none =>
      have hreads : ReadsUpTo
          ((request.subscription.map Subscription.path).map fun path => cStr (gnmiToXpath path))
          (buildSubscribeNotification fastWriter request) := by
        rw [List.map_map]
        exact readsUpTo_buildSubscribeNotification hverify
      exact patchesInRange_of_readsUpTo hreads
        (fun path _ helem => cStr_gnmiToXpath_eq_empty.mpr helem) hy hroot

/-- A Get request is safe if no path without elements is read under a prefix with some. -/
theorem GetRpc.safe_of {fastWriter : Json → String} {req : GetRequest}
    (h : verifyGetRequest req ≠ none ∨ (∀ p, req.pfx = some p → p.elem = []) ∨
      ∀ path ∈ req.path, path.elem ≠ []) : Safe fastWriter req := by
  intro evs r hy hroot
  cases hverify : verifyGetRequest req with
  | some status =>
      rw [run, hverify] at hy
      obtain ⟨rfl, -⟩ := Throwing.yields_pure.mp hy
      intro k path xpath trees vec _ hread
      simp [reads] at hread
  | none =>
      refine patchesInRange_of_readsUpTo (readsUpTo_run hverify) ?_ hy hroot
      intro path hpath helem
      rcases h with h | h | h
      · exact absurd hverify h
      · exact cStr_fullXpath_eq_empty.mpr ⟨h, helem⟩
      · exact absurd helem (h path hpath)

/-! ### A request that is not safe -/

section Unsafe

variable (fastWriter : Json → String) {encoding : Encoding}

/-- The exchanges of one round of a Get with this reply. -/
def roundWith (pfx : Option Path) (path : Path) (reply : ReadReply) : List CallEvent :=
  [⟨.getTimeNanosec, (0 : ℕ)⟩, ⟨.refresh, .ok ()⟩,
    ⟨.getSubtrees (cStr (fullXpath pfx path)), reply⟩]

theorem reads_roundWith (pfx : Option Path) (path : Path) (reply : ReadReply) :
    reads (roundWith pfx path reply) = [(cStr (fullXpath pfx path), reply)] := rfl

/-- A round in which nothing is found goes on. -/
theorem yields_emptyRound (hencoding : encoding = .JSON ∨ encoding = .JSON_IETF)
    (pfx : Option Path) (path : Path) :
    ∃ n, Yields (GetRpc.buildGetNotification fastWriter pfx path encoding).run
      (roundWith pfx path (.ok (some []))) (.ok (.ok n)) := by
  rcases hencoding with rfl | rfl <;>
    exact ⟨_, Yields.call (Yields.call (Yields.call (Yields.ret _)))⟩

/-- A round in which an interface is found for a path without elements crashes. -/
theorem yields_crash (hencoding : encoding = .JSON ∨ encoding = .JSON_IETF)
    (pfx : Option Path) {path : Path} (helem : path.elem = []) :
    Yields (GetRpc.buildGetNotification fastWriter pfx path encoding).run
      (roundWith pfx path (.ok (some [interfaceTree "eth0"]))) (.error .nullPointer) := by
  obtain ⟨origin, elem, target⟩ := path
  obtain rfl : elem = [] := helem
  rcases hencoding with rfl | rfl <;>
    exact Yields.call (Yields.call (Yields.call (Yields.ret _)))

/-- A Get in which nothing is found up to a path without elements, and an interface at it. -/
theorem yields_crashing_pathLoop (hencoding : encoding = .JSON ∨ encoding = .JSON_IETF)
    (pfx : Option Path) (pre : List Path) {path : Path} (helem : path.elem = [])
    (post : List Path) (ns : List Notification) :
    Yields (GetRpc.pathLoop fastWriter pfx encoding (pre ++ path :: post) ns).run
      (pre.flatMap (fun p => roundWith pfx p (.ok (some []))) ++
        roundWith pfx path (.ok (some [interfaceTree "eth0"]))) (.error .nullPointer) := by
  induction pre generalizing ns with
  | nil =>
      have hcrash := yields_crash fastWriter hencoding pfx helem
      exact Throwing.yields_bind.mpr (Or.inr ⟨_, hcrash, rfl⟩)
  | cons p pre ih =>
      obtain ⟨n, hn⟩ := yields_emptyRound fastWriter hencoding pfx p
      rw [List.flatMap_cons, List.append_assoc]
      exact Throwing.yields_bind.mpr (Or.inl ⟨_, _, _, rfl, hn, ih (ns ++ [n])⟩)

theorem reads_rounds (pfx : Option Path) (pre : List Path) (reply : ReadReply) :
    reads (pre.flatMap fun p => roundWith pfx p reply) =
      pre.map fun p => (cStr (fullXpath pfx p), reply) := by
  induction pre with
  | nil => rfl
  | cons p pre ih => simp [ih, reads_roundWith]

/-- The exchanges of a round with an xpath that is not empty. -/
theorem noneAtRoot_roundWith {pfx : Option Path} {path : Path} {reply : ReadReply}
    (h : cStr (fullXpath pfx path) ≠ "") : ∀ ev ∈ roundWith pfx path reply, NoneAtRoot ev := by
  intro ev hev xpath trees hread
  simp only [roundWith, List.mem_cons, List.not_mem_nil, or_false] at hev
  rcases hev with rfl | rfl | rfl
  · cases hread
  · cases hread
  · obtain ⟨rfl, -⟩ := Prod.mk.inj (Option.some.inj hread)
    exact h

/-- **A path without elements under a prefix with some** makes a Get unsafe. -/
theorem GetRpc.not_safe {req : GetRequest} (hverify : verifyGetRequest req = none) {p : Path}
    (hpfx : req.pfx = some p) (hp : p.elem ≠ []) {path : Path} (hpath : path ∈ req.path)
    (helem : path.elem = []) : ¬ Safe fastWriter req := by
  intro hsafe
  obtain ⟨pre, post, hpaths⟩ := List.append_of_mem hpath
  have hy := yields_crashing_pathLoop fastWriter (encoding_of_verify hverify) req.pfx pre helem
    post []
  rw [← hpaths] at hy
  have hnonempty (q : Path) : cStr (fullXpath req.pfx q) ≠ "" :=
    fun hnil => hp ((cStr_fullXpath_eq_empty.mp hnil).1 p hpfx)
  have hroot : ∀ ev ∈ pre.flatMap (fun p => roundWith req.pfx p (.ok (some []))) ++
      roundWith req.pfx path (.ok (some [interfaceTree "eth0"])), NoneAtRoot ev := by
    intro ev hev
    rcases List.mem_append.mp hev with hev | hev
    · obtain ⟨q, -, hq⟩ := List.mem_flatMap.mp hev
      exact noneAtRoot_roundWith (hnonempty q) ev hq
    · exact noneAtRoot_roundWith (hnonempty path) ev hev
  have hrange : PatchesInRange fastWriter req.path _ :=
    hsafe _ (.error .nullPointer) (by rw [run, hverify]; exact hy) hroot
  have hname : ("name" : String) ≠ "" := by decide
  have hpatch := hrange pre.length path (cStr (fullXpath req.pfx path)) [interfaceTree "eth0"]
    [⟨("name", "eth0"), _⟩] (by simp [hpaths])
    (by rw [reads_append, reads_rounds, reads_roundWith]; simp) rfl _ List.mem_cons_self
  exact indexInRange_iff.mp (hpatch.2 hname) helem

end Unsafe

/-- **Which requests are safe**: a Get exactly if it is refused, its prefix has no elements,
or all its paths have some; a Subscribe request always. -/
theorem safe_iff (fastWriter : Json → String) :
    (∀ req : GetRequest, GetRpc.Safe fastWriter req ↔
      GetRpc.verifyGetRequest req ≠ none ∨ (∀ p, req.pfx = some p → p.elem = []) ∨
        ∀ path ∈ req.path, path.elem ≠ []) ∧
      ∀ request : SubscriptionList, SubscribeRpc.Safe fastWriter request := by
  refine ⟨fun req => ⟨fun hsafe => ?_, GetRpc.safe_of⟩, SubscribeRpc.safe fastWriter⟩
  by_contra hnot
  obtain ⟨hverify, hnot⟩ := not_or.mp hnot
  obtain ⟨hpfx, hpaths⟩ := not_or.mp hnot
  push Not at hverify hpfx hpaths
  obtain ⟨p, hpfx, hp⟩ := hpfx
  obtain ⟨path, hpath, helem⟩ := hpaths
  exact GetRpc.not_safe fastWriter hverify hpfx hp hpath helem hsafe

/-- A Get for the interface itself, which is in the prefix. -/
def interfaceInPrefix : GetRequest :=
  { pfx := some { elem := [⟨"if:interface", []⟩] }, path := [{}], encoding := .JSON_IETF }

theorem not_safe_interfaceInPrefix :
    ¬ ∀ (fastWriter : Json → String) (req : GetRequest), GetRpc.Safe fastWriter req := by
  intro h
  have hverify : GetRpc.verifyGetRequest interfaceInPrefix = none := rfl
  exact GetRpc.not_safe (fun _ => "") hverify rfl (by simp) List.mem_cons_self rfl
    (h (fun _ => "") interfaceInPrefix)

end SysrepoGnxi
