import SysrepoGnxi.Lib.Sampling
import SysrepoGnxi.Reads

/-!
# The Sampling Schedule of a Stream

`handleStream` writes a snapshot of all subscriptions and a `sync_response`, and then samples:
in every cycle it looks at the clock once for each SAMPLE subscription, once more for each
one that is due, and builds a notification of these.

Its times are a board of samplers (`Sampling.Rounds`), one for each SAMPLE subscription, so
that what the library says of a sampler holds of each subscription by itself. The comparison
the code makes on signed 64-bit counts is the one of the exact numbers (`exact_interval`).

`stream_schedule` puts this together for every dialogue of `handleStream` on a clock that does
not go back.
-/

open Dialogue JsonDoc Sampling

namespace SysrepoGnxi

/-! ### Times and intervals -/

instance : Preorder TimePoint := Preorder.lift TimePoint.count

theorem TimePoint.le_def {a b : TimePoint} : a ≤ b ↔ a.count ≤ b.count := Iff.rfl

/-- The time `t` is more than the sample interval of a subscription after `last`. -/
def Later (sub : Subscription) (last t : TimePoint) : Prop :=
  last.count + sub.sampleInterval.toNat < t.count

/-- The difference of two time points does not overflow. -/
theorem TimePoint.toInt_since (t last : TimePoint) :
    (t.since last).toInt = t.count - last.count := by
  have ht := t.inRange
  have hlast := last.inRange
  rw [since, Int64.toInt_sub, Int64.toInt_ofNat_of_lt ht, Int64.toInt_ofNat_of_lt hlast]
  exact Int.bmod_eq_of_le (by omega) (by omega)

namespace SubscribeRpc

/-- An interval that passes the check of `handleStream` is represented exactly. -/
theorem toInt_nanoseconds {n : UInt64} (h : n.toNat ≤ maxInterval) :
    (nanoseconds n).toInt = n.toNat := by
  have hlt : n.toNat < 2 ^ 63 := Nat.lt_of_le_of_lt h (by decide)
  have hofNat : nanoseconds n = Int64.ofNat n.toNat := by
    rw [nanoseconds, ← UInt64.toInt64_ofNat', UInt64.ofNat_toNat]
  rw [hofNat, Int64.toInt_ofNat_of_lt hlt]

/-- **The comparison of the code is exact** for an interval that passes the check. -/
theorem since_gt_iff {sub : Subscription} (h : sub.sampleInterval.toNat ≤ maxInterval)
    (last t : TimePoint) :
    t.since last > nanoseconds sub.sampleInterval ↔ Later sub last t := by
  rw [gt_iff_lt, Int64.lt_iff_toInt_lt, toInt_nanoseconds h, TimePoint.toInt_since, Later]
  omega

end SubscribeRpc

/-! ### Looks and rounds -/

/-- The exchanges of a look at the clock. -/
def lookEvents (l : Look TimePoint) : List CallEvent :=
  ⟨.now, l.reading⟩ :: l.renewed.toList.map fun t => ⟨.now, t⟩

/-- How a cycle of the stream ends: nothing was due, a notification has been written, or a
build has failed and the RPC ends with `r`. -/
inductive Ending where
  | quiet (stop : TimePoint)
  | sent (build : List CallEvent) (n : Notification) (stop : TimePoint)
  | failed (evs : List CallEvent) (r : Except Exn Status)

namespace Ending

/-- The exchanges of an ending. -/
def events : Ending → List CallEvent
  | quiet stop => [⟨.now, stop⟩]
  | sent build n stop => build ++ [⟨.write (.update n), ()⟩, ⟨.now, stop⟩]
  | failed evs _ => evs

/-- The notification written, if any. -/
def notification : Ending → Option Notification
  | sent _ n _ => some n
  | _ => none

/-- How the RPC ends, if a build has failed. -/
def result : Ending → Option (Except Exn Status)
  | failed _ r => some r
  | _ => none

/-- **An ending for the due subscriptions**: nothing is built without any; otherwise the
notification is built of exactly these, with everything else as in the original list. -/
def For (fastWriter : Json → String) (request : SubscriptionList) (due : List Subscription) :
    Ending → Prop
  | quiet _ => due = []
  | sent build n _ =>
      due ≠ [] ∧ SubscribeRpc.Built fastWriter { request with subscription := due } build n
  | failed evs r =>
      due ≠ [] ∧ SubscribeRpc.FailedBuild fastWriter { request with subscription := due } evs r

end Ending

/-- One cycle of the stream: the first clock reading, a look for each SAMPLE subscription,
and how it ends. -/
structure Round where
  start : TimePoint
  looks : List (Look TimePoint)
  ending : Ending

/-- The exchanges of a cycle. -/
def Round.events (round : Round) : List CallEvent :=
  ⟨.now, round.start⟩ :: (round.looks.flatMap lookEvents ++ round.ending.events)

/-- **How the cycles end**: after the given number of them, with OK, or with the first in
which a build fails. -/
def Ended (cycles : ℕ) (rounds : List Round) (r : Except Exn Status) : Prop :=
  (rounds.length = cycles ∧ (∀ round ∈ rounds, round.ending.result = none) ∧ r = .ok .OK) ∨
    ∃ init last, rounds = init ++ [last] ∧ rounds.length ≤ cycles ∧
      (∀ round ∈ init, round.ending.result = none) ∧ last.ending.result = some r

/-- A cycle that does not fail goes before others. -/
theorem Ended.cons {cycles : ℕ} {round : Round} {rounds : List Round} {r : Except Exn Status}
    (hround : round.ending.result = none) (h : Ended cycles rounds r) :
    Ended (cycles + 1) (round :: rounds) r := by
  rcases h with ⟨hlen, hall, rfl⟩ | ⟨init, last, rfl, hlen, hall, hlast⟩
  · exact Or.inl ⟨by simp [hlen], List.forall_mem_cons.mpr ⟨hround, hall⟩, rfl⟩
  · exact Or.inr ⟨round :: init, last, rfl, by simpa using hlen,
      List.forall_mem_cons.mpr ⟨hround, hall⟩, hlast⟩

/-- A cycle that fails is the last. -/
theorem Ended.failed {cycles : ℕ} {round : Round} {r : Except Exn Status}
    (hround : round.ending.result = some r) : Ended (cycles + 1) [round] r :=
  Or.inr ⟨[], round, rfl, by simp, by simp, hround⟩

/-- The subscriptions that are sampled. -/
def sampled (subs : List Subscription) : List Subscription :=
  subs.filter fun sub => sub.mode = .SAMPLE

namespace SubscribeRpc

variable {fastWriter : Json → String} {request : SubscriptionList} {evs : List CallEvent}

/-- **What the start of the sampling does**: a reading for each SAMPLE subscription. -/
theorem yields_startSamples {subs : List Subscription}
    {r : Except Exn (List (Subscription × TimePoint))}
    (h : Yields (startSamples subs).run evs r) :
    ∃ starts : List TimePoint, starts.length = (sampled subs).length ∧
      evs = starts.map (fun t => ⟨.now, t⟩) ∧ r = .ok ((sampled subs).zip starts) := by
  induction subs generalizing evs r with
  | nil =>
      obtain ⟨rfl, rfl⟩ := Throwing.yields_pure.mp h
      exact ⟨[], rfl, rfl, rfl⟩
  | cons sub rest ih =>
      rw [startSamples] at h
      cases hmode : sub.mode with
      | SAMPLE =>
          rw [hmode] at h
          obtain ⟨t, evs₁, rfl, h₁⟩ := Throwing.yields_ask_bind.mp h
          obtain ⟨o, h₂, rfl⟩ := Throwing.yields_bind_pure.mp h₁
          obtain ⟨starts, hlen, rfl, rfl⟩ := ih h₂
          refine ⟨t :: starts, ?_, by simp, ?_⟩
          · simpa [sampled, hmode] using hlen
          · simp [sampled, hmode, Except.map]
      | _ =>
          rw [hmode] at h
          obtain ⟨starts, hlen, hevs, hr⟩ := ih h
          have hskip : sampled (sub :: rest) = sampled rest := by simp [sampled, hmode]
          exact ⟨starts, by rw [hskip, hlen], hevs, by rw [hskip, hr]⟩

/-- **What one pass over the subscriptions does**: it is a pass over the board of their
times. -/
theorem yields_dueSamples {board : List (Subscription × TimePoint)}
    {r : Except Exn (List (Subscription × TimePoint) × List Subscription)}
    (hmax : ∀ e ∈ board, e.1.sampleInterval.toNat ≤ maxInterval)
    (h : Yields (dueSamples board).run evs r) :
    ∃ looks, Pass Later board looks ∧ evs = looks.flatMap lookEvents ∧
      r = .ok (renew board looks, due (board.map Prod.fst) looks) := by
  induction board generalizing evs r with
  | nil =>
      obtain ⟨rfl, rfl⟩ := Throwing.yields_pure.mp h
      exact ⟨[], List.Forall₂.nil, rfl, rfl⟩
  | cons e rest ih =>
      obtain ⟨sub, last⟩ := e
      have hrest := fun e he => hmax e (List.mem_cons_of_mem _ he)
      rw [dueSamples] at h
      obtain ⟨t, evs₁, rfl, h₁⟩ := Throwing.yields_ask_bind.mp h
      have hiff := since_gt_iff (hmax _ List.mem_cons_self) last t
      split_ifs at h₁ with hdue
      · obtain ⟨renewed, evs₂, rfl, h₂⟩ := Throwing.yields_ask_bind.mp h₁
        obtain ⟨o, h₃, rfl⟩ := (Throwing.yields_bind_pure
          (f := fun (map, due) => ((sub, renewed) :: map, sub :: due))).mp h₂
        obtain ⟨looks, hpass, rfl, rfl⟩ := ih hrest h₃
        refine ⟨⟨t, some renewed⟩ :: looks,
          List.Forall₂.cons ⟨fun _ => hiff.mp hdue, fun _ => rfl⟩ hpass, ?_, rfl⟩
        simp [lookEvents]
      · obtain ⟨o, h₃, rfl⟩ := (Throwing.yields_bind_pure
          (f := fun (map, (due : List Subscription)) => ((sub, last) :: map, due))).mp h₁
        obtain ⟨looks, hpass, rfl, rfl⟩ := ih hrest h₃
        refine ⟨⟨t, none⟩ :: looks,
          List.Forall₂.cons (by simpa using fun hl => hdue (hiff.mpr hl)) hpass, ?_, rfl⟩
        simp [lookEvents]

/-- **What one cycle does before the rest of the loop.** -/
theorem yields_notifyDue {due : List Subscription} {p : Handler Status} {r : Except Exn Status}
    (h : Yields (notifyDue fastWriter request due >>= fun
      | some status => pure status
      | none => do
          let _end ← now
          p).run evs r) :
    ∃ (ending : Ending) (evs' : List CallEvent), ending.For fastWriter request due ∧
      evs = ending.events ++ evs' ∧
      ((ending.result = none ∧ Yields p.run evs' r) ∨ (ending.result = some r ∧ evs' = [])) := by
  rw [notifyDue] at h
  split_ifs at h with hdue
  · have hne : due ≠ [] := List.length_pos_iff.mp hdue
    rcases yields_notify h with ⟨evs₀, n, evs₁, hbuilt, rfl, h₁⟩ | hfailed
    · obtain ⟨stop, evs', rfl, h'⟩ := Throwing.yields_ask_bind.mp h₁
      exact ⟨.sent evs₀ n stop, evs', ⟨hne, hbuilt⟩, by simp [Ending.events], Or.inl ⟨rfl, h'⟩⟩
    · exact ⟨.failed evs r, [], ⟨hne, hfailed⟩, by simp [Ending.events], Or.inr ⟨rfl, rfl⟩⟩
  · have hnil : due = [] := by simpa using hdue
    rw [pure_bind] at h
    obtain ⟨stop, evs', rfl, h'⟩ := Throwing.yields_ask_bind.mp h
    exact ⟨.quiet stop, evs', hnil, rfl, Or.inl ⟨rfl, h'⟩⟩

/-- **What the loop does**: rounds over the board, each with a notification of the
subscriptions that were due in it. -/
theorem yields_sampleLoop {cycles : ℕ} {board : List (Subscription × TimePoint)}
    {r : Except Exn Status} (hmax : ∀ e ∈ board, e.1.sampleInterval.toNat ≤ maxInterval)
    (h : Yields (sampleLoop fastWriter request cycles board).run evs r) :
    ∃ rounds : List Round, evs = rounds.flatMap Round.events ∧
      Rounds Later board (rounds.map Round.looks) ∧
      (∀ round ∈ rounds,
        round.ending.For fastWriter request (due (board.map Prod.fst) round.looks)) ∧
      Ended cycles rounds r := by
  induction cycles generalizing board evs with
  | zero =>
      obtain ⟨rfl, rfl⟩ := Throwing.yields_pure.mp h
      exact ⟨[], rfl, Rounds.nil _, by simp, Or.inl ⟨rfl, by simp, rfl⟩⟩
  | succ cycles ih =>
      rw [sampleLoop] at h
      obtain ⟨start, evs₁, rfl, h₁⟩ := Throwing.yields_ask_bind.mp h
      rcases Throwing.yields_bind.mp h₁ with ⟨evs₂, evs₃, o, rfl, h₂, h₃⟩ | ⟨exc, h₂, -⟩
      · obtain ⟨looks, hpass, rfl, ho⟩ := yields_dueSamples hmax h₂
        obtain rfl := Except.ok.inj ho
        obtain ⟨ending, evs', hfor, rfl, hcont⟩ := yields_notifyDue h₃
        let round : Round := ⟨start, looks, ending⟩
        rcases hcont with ⟨hnone, h'⟩ | ⟨hsome, rfl⟩
        · have hmax' : ∀ e ∈ renew board looks, e.1.sampleInterval.toNat ≤ maxInterval := by
            intro e he
            have hmem : e.1 ∈ board.map Prod.fst := by
              rw [← hpass.map_renew]
              exact List.mem_map_of_mem he
            obtain ⟨e', he', heq⟩ := List.mem_map.mp hmem
            exact heq ▸ hmax e' he'
          obtain ⟨rounds, rfl, hrounds, hends, hended⟩ := ih hmax' h'
          rw [hpass.map_renew] at hends
          exact ⟨round :: rounds, by simp [Round.events, round], Rounds.cons hpass hrounds,
            List.forall_mem_cons.mpr ⟨hfor, hends⟩, Ended.cons hnone hended⟩
        · exact ⟨[round], by simp [Round.events, round], Rounds.cons hpass (Rounds.nil _),
            by simpa [round] using hfor, Ended.failed hsome⟩
      · obtain ⟨_, -, -, ho⟩ := yields_dueSamples hmax h₂
        cases ho

end SubscribeRpc

/-- The exchanges of a stream: the snapshot, the marker after it, the times its SAMPLE
subscriptions start from, its cycles. -/
def streamEvents (build : List CallEvent) (n : Notification) (starts : List TimePoint)
    (rounds : List Round) : List CallEvent :=
  build ++ ⟨.write (.update n), ()⟩ :: ⟨.write (.syncResponse true), ()⟩ ::
    (starts.map (fun t => ⟨.now, t⟩) ++ rounds.flatMap Round.events)

/-- **A stream** whose snapshot has been built, with its cycles. -/
structure StreamRun (fastWriter : Json → String) (request : SubscriptionList) (cycles : ℕ)
    (evs : List CallEvent) (r : Except Exn Status) (build : List CallEvent) (n : Notification)
    (starts : List TimePoint) (rounds : List Round) : Prop where
  events : evs = streamEvents build n starts rounds
  /-- The snapshot is built of all subscriptions. -/
  built : SubscribeRpc.Built fastWriter request build n
  /-- Every SAMPLE subscription has a starting time. -/
  length : starts.length = (sampled request.subscription).length
  /-- The cycles are passes over the times of these subscriptions. -/
  passes : Rounds Later ((sampled request.subscription).zip starts) (rounds.map Round.looks)
  /-- The notification of a cycle is built of the subscriptions due in it, in order. -/
  due : ∀ round ∈ rounds,
    round.ending.For fastWriter request (due (sampled request.subscription) round.looks)
  /-- The cycles end with the first build that fails. -/
  ended : Ended cycles rounds r

/-- **What `handleStream` does**: it refuses an interval that is too long, fails to build the
snapshot, or runs a stream. -/
theorem SubscribeRpc.yields_handleStream {fastWriter : Json → String}
    {request : SubscriptionList} {cycles : ℕ} {evs : List CallEvent} {r : Except Exn Status}
    (h : Yields (handleStream fastWriter request cycles).run evs r) :
    ((∃ sub ∈ request.subscription, maxInterval < sub.sampleInterval.toNat) ∧
      evs = [⟨.tryCancel, ()⟩] ∧ ∃ what, r = .ok ⟨.INVALID_ARGUMENT, what⟩) ∨
    ((∀ sub ∈ request.subscription, sub.sampleInterval.toNat ≤ maxInterval) ∧
      (FailedBuild fastWriter request evs r ∨
        ∃ build n starts rounds,
          StreamRun fastWriter request cycles evs r build n starts rounds)) := by
  rw [handleStream] at h
  split_ifs at h with hlong
  · obtain ⟨sub, hsub, hmax⟩ := List.any_eq_true.mp hlong
    obtain ⟨u, evs', rfl, h₁⟩ := Throwing.yields_ask_bind.mp h
    obtain ⟨rfl, rfl⟩ := Throwing.yields_pure.mp h₁
    exact Or.inl ⟨⟨sub, hsub, by simpa using hmax⟩, rfl, _, rfl⟩
  · have hmax : ∀ sub ∈ request.subscription, sub.sampleInterval.toNat ≤ maxInterval := by
      intro sub hsub
      by_contra hlt
      exact hlong (List.any_eq_true.mpr ⟨sub, hsub, by simpa using hlt⟩)
    refine Or.inr ⟨hmax, ?_⟩
    rcases yields_notify h with ⟨build, n, evs₁, hbuilt, rfl, h₁⟩ | hfailed
    · obtain ⟨u, evs₂, rfl, h₂⟩ := Throwing.yields_ask_bind.mp h₁
      rcases Throwing.yields_bind.mp h₂ with ⟨evs₃, evs₄, board, rfl, h₃, h₄⟩ | ⟨exc, h₃, -⟩
      · obtain ⟨starts, hlen, rfl, hboard⟩ := yields_startSamples h₃
        obtain rfl := Except.ok.inj hboard
        have hmem : ∀ e ∈ (sampled request.subscription).zip starts,
            e.1.sampleInterval.toNat ≤ maxInterval := by
          intro e he
          exact hmax e.1 (List.mem_filter.mp (List.of_mem_zip he).1).1
        obtain ⟨rounds, rfl, hrounds, hfor, hended⟩ := yields_sampleLoop hmem h₄
        rw [List.map_fst_zip hlen.ge] at hfor
        exact Or.inr ⟨build, n, starts, rounds, rfl, hbuilt, hlen, hrounds, hfor, hended⟩
      · obtain ⟨_, -, -, hboard⟩ := yields_startSamples h₃
        cases hboard
    · exact Or.inl hfailed

/-! ### The schedule -/

/-- **The schedule of a stream**, on top of its run. -/
structure Schedule (fastWriter : Json → String) (request : SubscriptionList) (cycles : ℕ)
    (evs : List CallEvent) (r : Except Exn Status) (build : List CallEvent) (n : Notification)
    (starts : List TimePoint) (rounds : List Round) : Prop
    extends StreamRun fastWriter request cycles evs r build n starts rounds where
  covers : SnapshotOf (fun _ _ => True) fastWriter request n
  /-- Nothing is written but the snapshot, the marker, and the notifications of cycles. -/
  written : written evs = .update n :: .syncResponse true ::
    (rounds.filterMap fun round => round.ending.notification).map .update
  nonempty : ∀ n ∈ rounds.filterMap fun round => round.ending.notification, n.update ≠ []
  /-- Every cycle looks at every SAMPLE subscription. -/
  looked : ∀ round ∈ rounds, round.looks.length = (sampled request.subscription).length
  /-- Due are those whose interval has passed since their own last time. -/
  due_iff : ∀ before round after, rounds = before ++ round :: after →
    ∀ i sub t l, (sampled request.subscription)[i]? = some sub → starts[i]? = some t →
      round.looks[i]? = some l →
      (l.renewed.isSome ↔ Later sub
        ((ownLooks i (before.map Round.looks)).foldl (fun t l => l.last t) t) l.reading)
  /-- The schedule of a subscription is that of a sampler with its own looks alone. -/
  own : ∀ i sub t, (sampled request.subscription)[i]? = some sub → starts[i]? = some t →
    Samples (Later sub) t (ownLooks i (rounds.map Round.looks))
  /-- Any two recorded times of a subscription are more than its interval apart. -/
  spaced : ∀ i sub t, (sampled request.subscription)[i]? = some sub → starts[i]? = some t →
    (recorded t (ownLooks i (rounds.map Round.looks))).Pairwise (Later sub)

variable {fastWriter : Json → String} {request : SubscriptionList} {cycles : ℕ}
  {evs : List CallEvent} {r : Except Exn Status}

/-- The exchanges of a look are among those of its cycle. -/
theorem lookEvents_sublist {rounds : List Round} {round : Round} {l : Look TimePoint}
    (hround : round ∈ rounds) (hl : l ∈ round.looks) :
    (lookEvents l).Sublist (rounds.flatMap Round.events) := by
  have hlook : (lookEvents l).Sublist (round.looks.flatMap lookEvents) :=
    List.sublist_flatten_of_mem (List.mem_map_of_mem hl)
  have hround : round.events.Sublist (rounds.flatMap Round.events) :=
    List.sublist_flatten_of_mem (List.mem_map_of_mem hround)
  exact (hlook.trans (List.sublist_append_left _ _)).trans
    ((List.sublist_cons_self _ _).trans hround)

/-- On a clock that does not go back, no time is recorded before its reading. -/
theorem reading_le_renewed {rounds : List Round}
    (hclock : (readings (rounds.flatMap Round.events)).Pairwise (· ≤ ·)) (i : ℕ) :
    ∀ l ∈ ownLooks i (rounds.map Round.looks), ∀ t ∈ l.renewed, l.reading ≤ t := by
  intro l hl t ht
  obtain ⟨looks, hlooks, hget⟩ := List.mem_filterMap.mp hl
  obtain ⟨round, hround, rfl⟩ := List.mem_map.mp hlooks
  have hsub : (readings (lookEvents l)).Sublist (readings (rounds.flatMap Round.events)) :=
    (lookEvents_sublist hround (List.mem_of_getElem? hget)).filterMap readingOf
  have hpair := hclock.sublist hsub
  obtain ⟨reading, renewed⟩ := l
  obtain rfl : renewed = some t := ht
  exact (List.pairwise_cons.mp hpair).1 t (by simp [readingOf])

/-- A notification of due subscriptions has updates. -/
theorem update_ne_nil {request : SubscriptionList} {n : Notification}
    (h : SnapshotOf (fun _ _ => True) fastWriter request n) (hne : request.subscription ≠ []) :
    n.update ≠ [] := by
  obtain ⟨-, groups, hgroups, hupdate⟩ := h
  obtain ⟨sub, subs, hsubs⟩ := List.exists_cons_of_ne_nil hne
  rw [hsubs] at hgroups
  cases hgroups with
  | cons hgroup _ =>
      obtain ⟨new, rfl, -⟩ := hgroup
      simp [hupdate]

/-- What a cycle writes is its notification. -/
theorem written_round {round : Round} {due : List Subscription}
    (h : round.ending.For fastWriter request due) :
    written round.events = (round.ending.notification.toList).map .update := by
  obtain ⟨start, looks, ending⟩ := round
  have hlook (l : Look TimePoint) : written (lookEvents l) = [] := by
    cases hl : l.renewed <;> simp [lookEvents, written, writtenOf, hl]
  have hlooks (looks : List (Look TimePoint)) : written (looks.flatMap lookEvents) = [] := by
    induction looks with
    | nil => rfl
    | cons l looks ih => rw [List.flatMap_cons, written_append, hlook, ih, List.nil_append]
  have hevents : written (Round.events ⟨start, looks, ending⟩) = written ending.events := by
    rw [Round.events, ← List.singleton_append, written_append, written_append, hlooks]
    rfl
  rw [hevents]
  cases ending with
  | quiet stop => rfl
  | sent build n stop =>
      rw [Ending.events, written_append, h.2.written]
      rfl
  | failed evs r => exact h.2.written

/-- What the cycles write are their notifications. -/
theorem written_rounds {rounds : List Round} {due : Round → List Subscription}
    (h : ∀ round ∈ rounds, round.ending.For fastWriter request (due round)) :
    written (rounds.flatMap Round.events) =
      (rounds.filterMap fun round => round.ending.notification).map .update := by
  induction rounds with
  | nil => rfl
  | cons round rounds ih =>
      rw [List.flatMap_cons, written_append, written_round (h round List.mem_cons_self),
        ih fun round hround => h round (List.mem_cons_of_mem _ hround), List.filterMap_cons]
      cases round.ending.notification <;> rfl

/-- A notification of a cycle has updates. -/
theorem update_ne_nil_of_for {due : List Subscription} {ending : Ending} {n : Notification}
    (h : ending.For fastWriter request due) (hn : ending.notification = some n) :
    n.update ≠ [] := by
  cases ending with
  | quiet stop => cases hn
  | sent build n' stop =>
      obtain rfl : n' = n := Option.some.inj hn
      exact update_ne_nil h.2.snapshotOf h.1
  | failed evs r => cases hn

/-- **What a stream writes**: the snapshot, the marker, the notifications of its cycles. -/
theorem StreamRun.written {build : List CallEvent} {n : Notification} {starts : List TimePoint}
    {rounds : List Round}
    (h : StreamRun fastWriter request cycles evs r build n starts rounds) :
    written evs = .update n :: .syncResponse true ::
      (rounds.filterMap fun round => round.ending.notification).map .update := by
  have hstarts : SysrepoGnxi.written (starts.map fun t => (⟨.now, t⟩ : CallEvent)) = [] := by
    refine List.filterMap_eq_nil_iff.mpr ?_
    rintro ev hev
    obtain ⟨t, -, rfl⟩ := List.mem_map.mp hev
    rfl
  have hcycles := written_rounds h.due
  rw [h.events, streamEvents, written_append, h.built.written, List.nil_append, ← hcycles,
    ← List.nil_append (SysrepoGnxi.written (rounds.flatMap Round.events)), ← hstarts,
    ← written_append]
  rfl

/-- **A stream keeps its schedule** on a clock that does not go back. -/
theorem StreamRun.schedule {build : List CallEvent} {n : Notification}
    {starts : List TimePoint} {rounds : List Round}
    (h : StreamRun fastWriter request cycles evs r build n starts rounds)
    (hclock : (readings evs).Pairwise (· ≤ ·)) :
    Schedule fastWriter request cycles evs r build n starts rounds := by
  have hentry {i : ℕ} {sub : Subscription} {t : TimePoint}
      (hsub : (sampled request.subscription)[i]? = some sub) (ht : starts[i]? = some t) :
      ((sampled request.subscription).zip starts)[i]? = some (sub, t) := by
    rw [List.getElem?_zip_eq_some]
    exact ⟨hsub, ht⟩
  refine ⟨h, h.built.snapshotOf, h.written, ?_, ?_, ?_, ?_, ?_⟩
  · intro n' hn'
    obtain ⟨round, hround, hnotification⟩ := List.mem_filterMap.mp hn'
    exact update_ne_nil_of_for (h.due round hround) hnotification
  · intro round hround
    rw [h.passes.length _ (List.mem_map_of_mem hround), List.length_zip, h.length, Nat.min_self]
  · rintro before round after rfl i sub t l hsub ht hl
    have hsamples := h.passes.samples (hentry hsub ht)
    rw [List.map_append, List.map_cons, ownLooks, List.filterMap_append, List.filterMap_cons, hl]
      at hsamples
    exact hsamples.isSome_iff
  · intro i sub t hsub ht
    exact h.passes.samples (hentry hsub ht)
  · intro i sub t hsub ht
    refine (h.passes.samples (hentry hsub ht)).pairwise ?_ ?_ ?_
    · intro a b c hab hbc
      exact Nat.lt_of_lt_of_le hab (TimePoint.le_def.mp hbc)
    · intro a b hab
      rw [TimePoint.le_def]
      rw [Later] at hab
      omega
    · have hrounds : (readings (rounds.flatMap Round.events)).Pairwise (· ≤ ·) := by
        refine hclock.sublist (List.Sublist.filterMap _ ?_)
        rw [h.events, streamEvents]
        have hcycles := List.sublist_append_right (starts.map fun t => (⟨.now, t⟩ : CallEvent))
          (rounds.flatMap Round.events)
        exact ((hcycles.cons _).cons _).trans (List.sublist_append_right build _)
      exact reading_le_renewed hrounds i

/-- **The schedule of a stream**, for every dialogue of `handleStream` on a clock that does
not go back. An interval above INT64_MAX is refused before anything is written; the others
are compared exactly, and either the snapshot fails and nothing is written, or the stream
keeps its schedule. -/
theorem stream_schedule
    (h : Yields (SubscribeRpc.handleStream fastWriter request cycles).run evs r)
    (hclock : (readings evs).Pairwise (· ≤ ·)) :
    ((∃ sub ∈ request.subscription, 2 ^ 63 - 1 < sub.sampleInterval.toNat) →
      written evs = [] ∧ ∃ what, r = .ok ⟨.INVALID_ARGUMENT, what⟩) ∧
    ((∀ sub ∈ request.subscription, sub.sampleInterval.toNat ≤ 2 ^ 63 - 1) →
      (∀ sub ∈ request.subscription,
        (SubscribeRpc.nanoseconds sub.sampleInterval).toInt = sub.sampleInterval.toNat ∧
        ∀ last t : TimePoint, t.since last > SubscribeRpc.nanoseconds sub.sampleInterval ↔
          Later sub last t) ∧
      ((∃ build n starts rounds,
        Schedule fastWriter request cycles evs r build n starts rounds) ∨
        (SubscribeRpc.FailedBuild fastWriter request evs r ∧ written evs = []))) := by
  rcases SubscribeRpc.yields_handleStream h with ⟨⟨sub, hsub, hlt⟩, rfl, what, rfl⟩ | ⟨hmax, hrun⟩
  · refine ⟨fun _ => ⟨rfl, what, rfl⟩, fun hall => ?_⟩
    exact absurd hlt (Nat.not_lt.mpr (hall sub hsub))
  · refine ⟨?_, fun _ => ⟨fun sub hsub => ⟨SubscribeRpc.toInt_nanoseconds (hmax sub hsub),
      SubscribeRpc.since_gt_iff (hmax sub hsub)⟩, ?_⟩⟩
    · rintro ⟨sub, hsub, hlt⟩
      exact absurd (hmax sub hsub) (Nat.not_le.mpr hlt)
    · rcases hrun with hfailed | ⟨build, n, starts, rounds, hstream⟩
      · exact Or.inr ⟨hfailed, hfailed.written⟩
      · exact Or.inl ⟨build, n, starts, rounds, hstream.schedule hclock⟩

/-! ### A served stream -/

section Served

variable {D : Type}

/-- Every call is counted. -/
theorem calls_serve (env : Env D) (w : World D) (c : Call) :
    (serve env w c).2.calls = w.calls + 1 := by
  have hfail {β : Type} (reply : Except Exn β) (w' : World D) (h : w'.calls = w.calls) :
      (orFail env w reply w').2.calls = w.calls + 1 := by
    rcases orFail_cases env w reply w' with ⟨exc, heq⟩ | heq <;> simp [heq, World.tick, h]
  cases c <;> first | rfl | exact hfail _ _ rfl

/-- **A clock that does not go back** gives a served handler readings in order. -/
theorem readings_of_answers {env : Env D} (hmono : Monotone env.highResolutionClock)
    {w : World D} {evs : List CallEvent} (h : Answers (serve env) w evs) :
    (∀ t ∈ readings evs, env.highResolutionClock w.calls ≤ t) ∧
      (readings evs).Pairwise (· ≤ ·) := by
  induction evs generalizing w with
  | nil => exact ⟨by simp [readings], List.Pairwise.nil⟩
  | cons ev evs ih =>
      obtain ⟨hle, hpair⟩ := ih h.2
      rw [calls_serve] at hle
      have hlater : ∀ t ∈ readings evs, env.highResolutionClock w.calls ≤ t := fun t ht =>
        le_trans (hmono (Nat.le_succ _)) (hle t ht)
      obtain ⟨c, reply⟩ := ev
      cases c with
      | now =>
          obtain rfl : reply = env.highResolutionClock w.calls := h.1
          refine ⟨?_, List.pairwise_cons.mpr ⟨hlater, hpair⟩⟩
          intro t ht
          rcases List.mem_cons.mp ht with rfl | ht
          · exact le_rfl
          · exact hlater t ht
      | _ => exact ⟨hlater, hpair⟩

end Served

theorem TimePoint.ofNat_mono : Monotone TimePoint.ofNat := by
  intro a b h
  simp only [TimePoint.le_def, TimePoint.ofNat]
  omega

/-- A container sampled every two nanoseconds, and one that is not sampled. -/
def tickingList : SubscriptionList :=
  { subscription :=
      [{ path := { elem := [⟨"c", []⟩] }, mode := .SAMPLE, sampleInterval := 2 },
        { path := { elem := [⟨"c", []⟩] } }] }

/-- Four cycles of the stream, on a clock that advances with every call. -/
def tickingStream : Outcome Call Call.Reply (World String) (Except Exn Status) :=
  Dialogue.run (serve (leafEnv fun _ => none))
    (SubscribeRpc.handleStream leafWriter tickingList 4).run (World.start "old")

/-- The stream keeps its schedule. -/
theorem tickingStream_schedule : ∃ build n starts rounds,
    Schedule leafWriter tickingList 4 tickingStream.log tickingStream.value build n starts
      rounds := by
  obtain ⟨hy, hanswers, -⟩ := yields_run (serve (leafEnv fun _ => none))
    (SubscribeRpc.handleStream leafWriter tickingList 4).run (World.start "old")
  have h := stream_schedule hy (readings_of_answers TimePoint.ofNat_mono hanswers).2
  refine (h.2 (by decide)).2.resolve_right fun hfailed => ?_
  exact absurd hfailed.2 (by decide)

end SysrepoGnxi
