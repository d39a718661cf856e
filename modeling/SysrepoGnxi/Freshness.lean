import SysrepoGnxi.Interleaving
import SysrepoGnxi.RealTime
import SysrepoGnxi.Schedule

/-!
# How Old a Sampled Value Is

A stream reads its SAMPLE subscriptions when their intervals have passed, while other RPCs go on
writing. So what a client has been shown of a subscription may be out of date, but not by much:
at the end of a cycle it contains every edit that was accepted before another cycle began, more
than the interval earlier (`shown_within_interval`).

The times are those of a sampler (`Samples.exists_renewed`), and the data those of the reads
behind the notification of the cycle in which it took a sample.
-/

open Dialogue JsonDoc Sampling

namespace SysrepoGnxi

/-! ### Between two cycles -/

/-- What is later than the interval stays so, from an earlier time on or until a later one. -/
theorem Later.mono {sub : Subscription} {a b c c' : TimePoint} (hab : a ≤ b) (hcc : c ≤ c')
    (h : Later sub b c) : Later sub a c' := by
  rw [TimePoint.le_def] at hab hcc
  rw [Later] at h ⊢
  omega

theorem readings_append (evs₁ evs₂ : List CallEvent) :
    readings (evs₁ ++ evs₂) = readings evs₁ ++ readings evs₂ := List.filterMap_append

theorem streamEvents_append (build : List CallEvent) (n : Notification) (starts : List TimePoint)
    (rounds₁ rounds₂ : List Round) :
    streamEvents build n starts (rounds₁ ++ rounds₂) =
      streamEvents build n starts rounds₁ ++ rounds₂.flatMap Round.events := by
  simp [streamEvents]

/-- A cycle that is not the last has not failed. -/
theorem Ended.result_eq_none {cycles : ℕ} {rounds before after : List Round} {round : Round}
    {r : Except Exn Status} (h : Ended cycles rounds r) (hrounds : rounds = before ++ after)
    (hafter : after ≠ []) (hround : round ∈ before) : round.ending.result = none := by
  rcases h with ⟨-, hall, -⟩ | ⟨init, last, hinit, -, hall, -⟩
  · exact hall round (hrounds ▸ List.mem_append_left _ hround)
  · have hdrop : init = before ++ after.dropLast := by
      rw [← List.dropLast_append_of_ne_nil hafter, ← hrounds, hinit, List.dropLast_concat]
    exact hall round (hdrop ▸ List.mem_append_left _ hround)

section Between

variable {fastWriter : Json → String} {list : SubscriptionList} {cycles : ℕ}
  {evs : List CallEvent} {r : Except Exn Status} {build : List CallEvent} {n : Notification}
  {starts : List TimePoint} {before mid after : List Round} {first final : Round}
  {sub : Subscription}

/-- The times recorded before a cycle are up to its beginning. -/
theorem recorded_le_start
    (hclock : (readings (streamEvents build n starts before ++
      ⟨.now, first.start⟩ :: evs)).Pairwise (· ≤ ·)) {i : ℕ} {t : TimePoint}
    (ht : starts[i]? = some t) :
    ∀ t' ∈ recorded t (ownLooks i (before.map Round.looks)), t' ≤ first.start := by
  have hle : ∀ t' ∈ readings (streamEvents build n starts before), t' ≤ first.start := by
    rw [readings_append] at hclock
    exact fun t' ht' => (List.pairwise_append.mp hclock).2.2 t' ht' _ List.mem_cons_self
  intro t' ht'
  refine hle t' ?_
  rw [streamEvents, readings_append]
  refine List.mem_append_right _ ?_
  change t' ∈ readings (starts.map (fun t => ⟨.now, t⟩) ++ before.flatMap Round.events)
  rw [readings_append]
  rcases List.mem_cons.mp ht' with rfl | ht'
  · refine List.mem_append_left _ (List.mem_filterMap.mpr ⟨⟨.now, t'⟩, ?_, rfl⟩)
    exact List.mem_map_of_mem (List.mem_of_getElem? ht)
  · refine List.mem_append_right _ ?_
    obtain ⟨l, hl, hrenewed⟩ := List.mem_filterMap.mp ht'
    obtain ⟨looks, hlooks, hget⟩ := List.mem_filterMap.mp hl
    obtain ⟨round, hround, rfl⟩ := List.mem_map.mp hlooks
    refine List.mem_filterMap.mpr ⟨⟨.now, t'⟩, ?_, rfl⟩
    refine (lookEvents_sublist hround (List.mem_of_getElem? hget)).subset ?_
    simp [lookEvents, hrenewed]

/-- A cycle looks at the clock after it has begun. -/
theorem start_le_reading {round : Round} (hclock : (readings round.events).Pairwise (· ≤ ·))
    {l : Look TimePoint} (hl : l ∈ round.looks) : round.start ≤ l.reading := by
  refine (List.pairwise_cons.mp hclock).1 l.reading ?_
  refine List.mem_filterMap.mpr ⟨⟨.now, l.reading⟩, ?_, rfl⟩
  exact List.mem_append_left _ (List.mem_flatMap.mpr ⟨l, hl, List.mem_cons_self⟩)

/-- **Between two cycles more than its interval apart a subscription is due.** -/
theorem StreamRun.due_between
    (h : StreamRun fastWriter list cycles evs r build n starts
      (before ++ first :: (mid ++ final :: after)))
    (hclock : (readings (streamEvents build n starts
      (before ++ first :: (mid ++ [final])))).Pairwise (· ≤ ·))
    (hsub : sub ∈ sampled list.subscription) (hlater : Later sub first.start final.start) :
    ∃ round ∈ first :: (mid ++ [final]),
      sub ∈ Sampling.due (sampled list.subscription) round.looks := by
  obtain ⟨i, hi⟩ := List.getElem?_of_mem hsub
  obtain ⟨t, ht⟩ : ∃ t, starts[i]? = some t := by
    have hlt : i < starts.length := h.length ▸ (List.getElem?_eq_some_iff.mp hi).1
    exact ⟨_, List.getElem?_eq_getElem hlt⟩
  have hentry : ((sampled list.subscription).zip starts)[i]? = some (sub, t) :=
    List.getElem?_zip_eq_some.mpr ⟨hi, ht⟩
  obtain ⟨l, hl⟩ : ∃ l, final.looks[i]? = some l := by
    have hlen := h.passes.length final.looks (List.mem_map_of_mem (by simp))
    have hlt : i < final.looks.length := hlen ▸ (List.getElem?_eq_some_iff.mp hentry).1
    exact ⟨_, List.getElem?_eq_getElem hlt⟩
  -- the looks at the subscription, cut at the two cycles
  have hlooks (rounds : List Round) : ownLooks i ((first :: (mid ++ final :: rounds)).map
      Round.looks) = ownLooks i ((first :: mid).map Round.looks) ++
        l :: ownLooks i (rounds.map Round.looks) := by
    rw [← List.cons_append, List.map_append, ownLooks_append, List.map_cons, List.map_cons,
      ownLooks_cons hl]
  have hsamples := h.passes.samples hentry
  rw [List.map_append, ownLooks_append, hlooks] at hsamples
  rw [streamEvents_append, List.flatMap_cons, Round.events, List.cons_append] at hclock
  have hstart := recorded_le_start hclock ht
  have hfinal : final.start ≤ l.reading := by
    refine start_le_reading ?_ (List.mem_of_getElem? hl)
    rw [← List.cons_append] at hclock
    refine hclock.sublist (List.Sublist.filterMap _ ?_)
    refine List.Sublist.trans ?_ (List.sublist_append_right _ _)
    refine List.Sublist.trans ?_ (List.sublist_append_right _ _)
    exact List.sublist_flatten_of_mem (List.mem_map_of_mem (by simp))
  have hfar : ∀ a b c, a ≤ b → Later sub b c → Later sub a c := fun _ _ _ hab =>
    Later.mono hab le_rfl
  obtain ⟨l', hl', hrenewed⟩ :=
    hsamples.exists_renewed hfar hstart (hlater.mono le_rfl hfinal)
  have hwindow : l' ∈ ownLooks i ((first :: (mid ++ [final])).map Round.looks) := by
    rw [hlooks]
    exact hl'
  obtain ⟨looks, hmem, hget⟩ := List.mem_filterMap.mp hwindow
  obtain ⟨round, hround, rfl⟩ := List.mem_map.mp hmem
  exact ⟨round, hround, mem_due hi hget hrenewed⟩

/-- What ends a cycle comes after the first of some cycles has begun. -/
theorem ending_infix {round : Round} {rounds : List Round} (h : round ∈ first :: rounds) :
    round.ending.events <:+: first.looks.flatMap lookEvents ++ first.ending.events ++
      rounds.flatMap Round.events := by
  rcases List.mem_cons.mp h with rfl | h
  · exact ⟨_, _, rfl⟩
  · have hround : round.ending.events <:+: round.events :=
      ((List.suffix_append _ _).trans (List.suffix_cons _ _)).isInfix
    have hrounds : round.events <:+: rounds.flatMap Round.events :=
      List.infix_of_mem_flatten (List.mem_map_of_mem h)
    exact (hround.trans hrounds).trans (List.suffix_append _ _).isInfix

/-- **And so it is read**: for a notification that is built after the first of them has
begun. -/
theorem StreamRun.built_between
    (h : StreamRun fastWriter list cycles evs r build n starts
      (before ++ first :: (mid ++ final :: after)))
    (hclock : (readings (streamEvents build n starts
      (before ++ first :: (mid ++ [final])))).Pairwise (· ≤ ·))
    (hfinal : final.ending.result = none) (hsub : sub ∈ sampled list.subscription)
    (hlater : Later sub first.start final.start) :
    ∃ request build' n' evs₁ evs₂, SubscribeRpc.Built fastWriter request build' n' ∧
      sub ∈ request.subscription ∧ (first :: (mid ++ [final])).flatMap Round.events =
        ⟨.now, first.start⟩ :: (evs₁ ++ (build' ++ ⟨.write (.update n'), ()⟩ :: evs₂)) := by
  obtain ⟨round, hround, hdue⟩ := h.due_between hclock hsub hlater
  have hmem : round ∈ before ++ first :: (mid ++ final :: after) := by
    simp only [List.mem_append, List.mem_cons, List.not_mem_nil, or_false] at hround ⊢
    tauto
  have hnone : round.ending.result = none := by
    rw [← List.cons_append] at hround
    rcases List.mem_append.mp hround with hround | hround
    · have hrounds : before ++ first :: (mid ++ final :: after) =
          (before ++ first :: mid) ++ (final :: after) := by simp
      exact h.ended.result_eq_none hrounds (by simp) (List.mem_append_right before hround)
    · rw [List.mem_singleton.mp hround, hfinal]
  have hfor := h.due round hmem
  cases hending : round.ending with
  | quiet stop =>
      rw [hending] at hfor
      rw [show Sampling.due _ _ = [] from hfor] at hdue
      cases hdue
  | failed evs r =>
      rw [hending] at hnone
      cases hnone
  | sent build' n' stop =>
      rw [hending] at hfor
      obtain ⟨evs₁, evs₂, hinfix⟩ := ending_infix hround
      rw [hending] at hinfix
      refine ⟨_, build', n', evs₁, ⟨.now, stop⟩ :: evs₂, hfor.2, hdue, ?_⟩
      rw [List.flatMap_cons, Round.events, List.cons_append, ← hinfix]
      simp [Ending.events]

end Between

/-! ### In a service -/

section Service

variable {D : Type}

/-- **Shown since**: in the second part of a log an RPC writes a notification with updates that
show a subscription in the datastore of an instant after the first part. -/
def ShownSince (sr : Sysrepo D) (fastWriter : Json → String) (d : D) (i : ℕ) (sub : Subscription)
    (log₁ log₂ : List (ℕ × CallEvent)) : Prop :=
  ∃ recent after n us evs, log₂ = recent ++ (i, ⟨.write (.update n), ()⟩) :: after ∧
    us <:+: n.update ∧ evs <+: recent.map Prod.snd ∧
    ShownIn sr fastWriter (sr.applyAll (acceptedEdits (log₁.map Prod.snd ++ evs)) d) (sub, us)

/-- The first of the exchanges of one program, in the log. -/
theorem own_cons {i : ℕ} {log : List (ℕ × CallEvent)} {ev : CallEvent} {evs : List CallEvent}
    (h : own i log = ev :: evs) :
    ∃ log₁ log₂, log = log₁ ++ (i, ev) :: log₂ ∧ own i log₁ = [] ∧ own i log₂ = evs := by
  obtain ⟨⟨j, ev'⟩, rest, hfilter, rfl, hrest⟩ := List.map_eq_cons_iff.mp h
  obtain ⟨log₁, log₂, rfl, hnone, hj, rfl⟩ := List.filter_eq_cons_iff.mp hfilter
  obtain rfl : j = i := by simpa using hj
  refine ⟨log₁, log₂, rfl, ?_, hrest⟩
  rw [own, List.filter_eq_nil_iff.mpr hnone, List.map_nil]

/-- What has been built and written since shows its subscriptions as they are since. -/
theorem shownSince_of_built {sr : Sysrepo D} {fastWriter : Json → String} {d : D} {w : World D}
    {i : ℕ} {log₁ log₂ : List (ℕ × CallEvent)}
    (hhistory : History sr d ((log₁ ++ log₂).map Prod.snd) w)
    {request : SubscriptionList} {build evs₁ evs₂ : List CallEvent} {n : Notification}
    (hbuilt : SubscribeRpc.Built fastWriter request build n)
    (hown : own i log₂ = evs₁ ++ (build ++ ⟨.write (.update n), ()⟩ :: evs₂))
    {sub : Subscription} (hsub : sub ∈ request.subscription) :
    ShownSince sr fastWriter d i sub log₁ log₂ := by
  obtain ⟨-, groups, hupdate, hstep⟩ := hbuilt.inStep
  obtain ⟨⟨sub, us⟩, hmem, rfl⟩ : ∃ group ∈ request.subscription.zip groups, group.1 = sub := by
    rw [← List.map_fst_zip hstep.length_eq.ge] at hsub
    exact List.mem_map.mp hsub
  obtain ⟨trees, us', hread, hus, hreports⟩ := hstep.mem hmem
  dsimp only at hread hus hreports ⊢
  -- the write, and the read behind the group before it
  rw [← List.append_assoc] at hown
  obtain ⟨log₃, log₄, rfl, h₃, h₄⟩ := own_split hown
  obtain ⟨skip, after, rfl, -, -⟩ := own_cons h₄
  have hget : (i, ⟨.getSubtrees (cStr (gnmiToXpath sub.path)), .ok (some trees)⟩) ∈ log₃ := by
    rw [← mem_own, h₃]
    exact List.mem_append_right _ (mem_reads hread)
  obtain ⟨before, rest, hlog⟩ := List.append_of_mem hget
  refine ⟨log₃ ++ skip, after, n, us, before.map Prod.snd, by simp, ?_, ?_, us', hus, trees, ?_,
    hreports⟩
  · rw [hupdate]
    exact List.infix_of_mem_flatten (List.of_mem_zip hmem).2
  · rw [hlog]
    simp
  · refine (hhistory.reads _ (rest.map Prod.snd ++ skip.map Prod.snd ++
      ⟨.write (.update n), ()⟩ :: after.map Prod.snd) _ _ ?_).symm
    rw [hlog]
    simp

/-- **How old the samples of a stream are**: where it has written anything, it has made its
snapshot and cycles (`rest` is how it may go on); and at the end of a cycle that has not failed
it has shown of every SAMPLE subscription what was accepted until another cycle had begun, if
that was more than the interval earlier. -/
def ShownWithinInterval (sr : Sysrepo D) (fastWriter : Json → String) (d : D)
    (list : SubscriptionList) (cycles i : ℕ) (log : List (ℕ × CallEvent)) : Prop :=
  written (own i log) = [] ∨ ∃ rest r build n starts rounds,
    StreamRun fastWriter list cycles (own i log ++ rest) r build n starts rounds ∧
      ∀ before first mid final after log₁ log₂ sub,
        rounds = before ++ first :: (mid ++ final :: after) →
        streamEvents build n starts (before ++ first :: (mid ++ [final])) <+: own i log →
        final.ending.result = none → log = log₁ ++ log₂ →
        own i log₁ = streamEvents build n starts before ++ [⟨.now, first.start⟩] →
        sub ∈ sampled list.subscription → Later sub first.start final.start →
        ShownSince sr fastWriter d i sub log₁ log₂

/-- **A STREAM RPC at any point of a service**: it has written nothing, or its exchanges are
those of a stream that may go on. -/
theorem silent_or_streamRun {env : Env D} {fastWriter : Json → String} {d : D} {rpcs : ℕ → Rpc}
    {sched : List ℕ} {i : ℕ} {messages : List SubscribeRequest} {cycles : ℕ}
    {list : SubscriptionList} (hrpc : rpcs i = .subscribe messages cycles)
    (hlist : (messages.headD {}).request = .subscribe list) (hmode : list.mode = .STREAM) :
    written (own i (Service.runs env fastWriter d rpcs sched).log) = [] ∨
      ∃ rest r build n starts rounds, StreamRun fastWriter list cycles
        (own i (Service.runs env fastWriter d rpcs sched).log ++ rest) r build n starts rounds := by
  have hsteps := Pool.steps (serve env) (fun i => ((rpcs i).handler fastWriter).run)
    (World.start d) sched i
  obtain ⟨rest, o, hrest⟩ := exists_yields ((Service.runs env fastWriter d rpcs sched).procs i)
  have hyields := hsteps.yields hrest
  change Yields _ (own i (Service.runs env fastWriter d rpcs sched).log ++ rest) o at hyields
  generalize own i (Service.runs env fastWriter d rpcs sched).log = evs at hyields ⊢
  have hsilent : written (evs ++ rest) = [] → written evs = [] := fun h =>
    (List.append_eq_nil_iff.mp (written_append evs rest ▸ h)).1
  rw [hrpc] at hyields
  obtain ⟨r, hrun, -⟩ := Throwing.yields_bind_pure.mp hyields
  rw [SubscribeRpc.run] at hrun
  split_ifs at hrun with hext
  · obtain ⟨hevs, -⟩ := Throwing.yields_pure.mp hrun
    exact Or.inl (hsilent (hevs ▸ rfl))
  · rw [hlist] at hrun
    dsimp only at hrun
    rw [hmode] at hrun
    rcases SubscribeRpc.yields_handleStream hrun with ⟨-, hevs, -⟩ | ⟨-, hfailed | hstream⟩
    · exact Or.inl (hsilent (hevs ▸ rfl))
    · exact Or.inl (hsilent hfailed.written)
    · exact Or.inr ⟨rest, r, hstream⟩

/-- **A client of a stream is shown no older samples than the interval allows**, on a clock that
does not go back, whatever the other RPCs do and whichever calls fail. -/
theorem shown_within_interval (env : Env D) (fastWriter : Json → String) (d : D) (rpcs : ℕ → Rpc)
    (sched : List ℕ) (i : ℕ) (messages : List SubscribeRequest) (cycles : ℕ)
    (list : SubscriptionList) (hclock : Monotone env.highResolutionClock)
    (hrpc : rpcs i = .subscribe messages cycles)
    (hlist : (messages.headD {}).request = .subscribe list) (hmode : list.mode = .STREAM) :
    ShownWithinInterval env.sysrepo fastWriter d list cycles i
      (Service.runs env fastWriter d rpcs sched).log := by
  have hanswers := (answers_log env fastWriter d rpcs sched).1
  have hhistory := history_of_answers hanswers
  have hreadings := (readings_of_answers hclock hanswers).2
  rcases silent_or_streamRun hrpc hlist hmode with hsilent | hstream
  · exact Or.inl hsilent
  obtain ⟨rest, r, build, n, starts, rounds, hstream⟩ := hstream
  refine Or.inr ⟨rest, r, build, n, starts, rounds, hstream, ?_⟩
  generalize (Service.runs env fastWriter d rpcs sched).log = log at hhistory hreadings hstream ⊢
  rintro before first mid final after log₁ log₂ sub rfl ⟨tail, htail⟩ hfinal rfl hown hsub hlater
  have hcycles : (streamEvents build n starts (before ++ first :: (mid ++ [final]))).Sublist
      ((log₁ ++ log₂).map Prod.snd) :=
    (htail ▸ List.sublist_append_left _ tail).trans (own_sublist i _)
  obtain ⟨request, build', n', evs₁, evs₂, hbuilt, hmem, hevents⟩ :=
    hstream.built_between (hreadings.sublist (hcycles.filterMap readingOf)) hfinal hsub hlater
  have hown₂ : own i log₂ = evs₁ ++ (build' ++ ⟨.write (.update n'), ()⟩ :: (evs₂ ++ tail)) := by
    rw [own_append, hown, streamEvents_append, hevents] at htail
    simpa using htail.symm
  exact shownSince_of_built hhistory hbuilt hown₂ hmem

end Service

/-- RPC 0 streams, every other RPC sets the leaf. -/
def streamAndSet (i : ℕ) : Rpc :=
  if i = 0 then .subscribe [{ request := .subscribe tickingList }] 4 else .set leafRequest

/-- The Set has its turns between the snapshot and the first cycle. -/
def setBetween : List ℕ := List.replicate 8 0 ++ [1, 1, 1, 1] ++ List.replicate 24 0

theorem streamAndSet_shown :
    written (own 0 (Service.runs (leafEnv fun _ => none) leafWriter "old" streamAndSet
        setBetween).log) ≠ [] ∧
      ShownWithinInterval leafStore leafWriter "old" tickingList 4 0
        (Service.runs (leafEnv fun _ => none) leafWriter "old" streamAndSet setBetween).log :=
  ⟨by decide, shown_within_interval (leafEnv fun _ => none) leafWriter "old" streamAndSet setBetween
    0 _ 4 tickingList TimePoint.ofNat_mono rfl rfl rfl⟩

end SysrepoGnxi
