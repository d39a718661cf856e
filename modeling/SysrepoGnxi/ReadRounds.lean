import SysrepoGnxi.Obstacles
import SysrepoGnxi.SubscribeSpec

/-!
# The Reads of a Handler

Get and Subscribe read path by path: for each one refresh of the session and one call of
`get_subtrees`, whose reply decides how the round ends. `reads` are these calls with their
replies, in order. The k-th of them belongs to the k-th path (`readsUpTo_getRun`,
`readsUpTo_buildSubscribeNotification`).
-/

open Dialogue JsonDoc

namespace SysrepoGnxi

/-- A handler that may end with a status **reads up to** the end of a list of xpaths: it
reads at the first of them, and has read at all of them when it ends without one. -/
def ReadsUpTo {α : Type} (xpaths : List String) (x : Handler (Except Status α)) : Prop :=
  ∀ evs r, Yields x.run evs r → (reads evs).map Prod.fst <+: xpaths ∧
    ∀ a, r = .ok (.ok a) → (reads evs).map Prod.fst = xpaths

section ReadsUpTo

variable {α β : Type} {xpaths₁ xpaths₂ : List String}

theorem readsUpTo_pure (o : Except Status α) : ReadsUpTo [] (pure o) := by
  intro evs r hy
  obtain ⟨rfl, rfl⟩ := Throwing.yields_pure.mp hy
  exact ⟨List.prefix_rfl, fun _ _ => rfl⟩

/-- **The sequencing rule**: a status ends the handler. -/
theorem ReadsUpTo.bind {x : Handler (Except Status α)}
    {g : Except Status α → Handler (Except Status β)} (hx : ReadsUpTo xpaths₁ x)
    (herror : ∀ status, g (.error status) = pure (.error status))
    (hok : ∀ a, ReadsUpTo xpaths₂ (g (.ok a))) : ReadsUpTo (xpaths₁ ++ xpaths₂) (x >>= g) := by
  intro evs r hy
  rcases Throwing.yields_bind.mp hy with ⟨evs₁, evs₂, o, rfl, h₁, h₂⟩ | ⟨exc, h₁, rfl⟩
  · obtain ⟨hpre, hall⟩ := hx evs₁ _ h₁
    cases o with
    | error status =>
        rw [herror] at h₂
        obtain ⟨rfl, rfl⟩ := Throwing.yields_pure.mp h₂
        rw [List.append_nil]
        exact ⟨hpre.trans (List.prefix_append _ _), by rintro a ⟨⟩⟩
    | ok a =>
        obtain ⟨hpre₂, hall₂⟩ := hok a evs₂ r h₂
        rw [reads_append, List.map_append, hall a rfl]
        refine ⟨(List.prefix_append_right_inj _).mpr hpre₂, fun b hb => ?_⟩
        rw [hall₂ b hb]
  · obtain ⟨hpre, -⟩ := hx evs _ h₁
    exact ⟨hpre.trans (List.prefix_append _ _), by rintro a ⟨⟩⟩

/-- A part that reads nothing may come before. -/
theorem ReadsUpTo.after {x : Handler α} {f : α → Handler (Except Status β)}
    (hx : ∀ evs r, Yields x.run evs r → reads evs = []) (hf : ∀ a, ReadsUpTo xpaths₁ (f a)) :
    ReadsUpTo xpaths₁ (x >>= f) := by
  intro evs r hy
  rcases Throwing.yields_bind.mp hy with ⟨evs₁, evs₂, a, rfl, h₁, h₂⟩ | ⟨exc, h₁, rfl⟩
  · rw [reads_append, hx evs₁ _ h₁, List.nil_append]
    exact hf a evs₂ r h₂
  · rw [hx evs _ h₁]
    exact ⟨List.nil_prefix, by rintro a ⟨⟩⟩

end ReadsUpTo

variable {fastWriter : Json → String}

theorem readsUpTo_readUpdates (path : Path) (fullpath : String) (us : List Update) :
    ReadsUpTo [cStr fullpath] (readUpdates fastWriter path fullpath us) := by
  intro evs r hy
  obtain ⟨reply, rfl, -⟩ := yields_readUpdates_iff.mp hy
  exact ⟨List.prefix_rfl, fun _ _ => rfl⟩

namespace GetRpc

/-- An encoding of a request that is not refused. -/
theorem encoding_of_verify {req : GetRequest} (h : verifyGetRequest req = none) :
    req.encoding = .JSON ∨ req.encoding = .JSON_IETF := by
  rw [verifyGetRequest] at h
  split_ifs at h with henc
  by_cases hjson : req.encoding = .JSON
  · exact Or.inl hjson
  · exact Or.inr (by_contra fun hietf => henc ⟨hjson, hietf⟩)

theorem readsUpTo_buildGetNotification {encoding : Encoding}
    (hencoding : encoding = .JSON ∨ encoding = .JSON_IETF) (pfx : Option Path) (path : Path) :
    ReadsUpTo [cStr (fullXpath pfx path)]
      (buildGetNotification fastWriter pfx path encoding) := by
  have hupdate : ReadsUpTo [cStr (fullXpath pfx path)]
      (buildGetUpdate fastWriter path (fullXpath pfx path) encoding) := by
    refine ReadsUpTo.after (fun evs r hy => reads_ask (fun _ => rfl) hy) fun _ => ?_
    rcases hencoding with rfl | rfl <;> exact readsUpTo_readUpdates _ _ _
  refine ReadsUpTo.after (fun evs r hy => reads_ask (fun _ => rfl) hy) fun timestamp => ?_
  rw [← List.append_nil [cStr (fullXpath pfx path)]]
  exact hupdate.bind (fun _ => rfl) fun _ => readsUpTo_pure _

theorem readsUpTo_pathLoop {encoding : Encoding}
    (hencoding : encoding = .JSON ∨ encoding = .JSON_IETF) (pfx : Option Path)
    (paths : List Path) (notifications : List Notification) :
    ReadsUpTo (paths.map fun path => cStr (fullXpath pfx path))
      (pathLoop fastWriter pfx encoding paths notifications) := by
  induction paths generalizing notifications with
  | nil => exact readsUpTo_pure _
  | cons path rest ih =>
      exact (readsUpTo_buildGetNotification hencoding pfx path).bind (fun _ => rfl) fun n => ih _

/-- **The k-th read of a Get** is that of its k-th path. -/
theorem readsUpTo_run {req : GetRequest} (h : verifyGetRequest req = none) :
    ReadsUpTo (req.path.map fun path => cStr (fullXpath req.pfx path)) (run fastWriter req) := by
  rw [run, h]
  exact readsUpTo_pathLoop (encoding_of_verify h) _ _ _

end GetRpc

namespace SubscribeRpc

/-- **The k-th read of a build** is that of its k-th subscription. -/
theorem readsUpTo_buildSubscribeNotification {request : SubscriptionList}
    (h : verifyList request = none) :
    ReadsUpTo (request.subscription.map fun sub => cStr (gnmiToXpath sub.path))
      (buildSubscribeNotification fastWriter request) := by
  have hencoding := encoding_of_verifyList h
  have hsub (sub : Subscription) (us : List Update) :
      ReadsUpTo [cStr (gnmiToXpath sub.path)]
        (buildSubsUpdate fastWriter us sub.path (gnmiToXpath sub.path) request.encoding) := by
    refine ReadsUpTo.after (fun evs r hy => reads_ask (fun _ => rfl) hy) fun _ => ?_
    rcases hencoding with heq | heq <;> rw [heq] <;> exact readsUpTo_readUpdates _ _ _
  have hloop (subs : List Subscription) (us : List Update) :
      ReadsUpTo (subs.map fun sub => cStr (gnmiToXpath sub.path))
        (subscriptionLoop fastWriter request.encoding subs us) := by
    induction subs generalizing us with
    | nil => exact readsUpTo_pure _
    | cons sub rest ih => exact (hsub sub us).bind (fun _ => rfl) fun us' => ih us'
  rw [buildSubscribeNotification, h]
  refine ReadsUpTo.after (fun evs r hy => reads_ask (fun _ => rfl) hy) fun timestamp => ?_
  rw [← List.append_nil (request.subscription.map _)]
  exact (hloop request.subscription []).bind (fun _ => rfl) fun _ => readsUpTo_pure _

end SubscribeRpc

end SysrepoGnxi
