import Mathlib.Data.List.Forall2
import Mathlib.Order.Basic

/-!
# Periodic Samplers

A sampler records a time whenever it finds, at a look at the clock, that it is far enough
from the last recorded one. What it records is the result of a second look, a little later.

* `Samples far last looks` — one sampler and its own looks. `Samples.pairwise`: on a clock
  that does not go back, any two recorded times are far from each other. `Samples.exists_renewed`:
  between two times that are far from each other a sample is taken.
* `Rounds far board rounds` — a board of samplers, each with a last time of its own, looked
  at in rounds. `Rounds.samples`: every entry of the board is a sampler by its own looks;
  those of the other entries do not occur.

`far` is a parameter, for a board one for each entry.
-/

namespace Sampling

/-- A look at the clock: the time that was read and, if the sample was due, the time that
was recorded for it. -/
structure Look (T : Type) where
  reading : T
  renewed : Option T

variable {α T : Type}

/-- The last recorded time after a look. -/
def Look.last (l : Look T) (last : T) : T := l.renewed.getD last

/-! ### One sampler -/

/-- **A sampler** with the given last time, along its looks: a time is recorded at exactly
those whose reading is far from the last one. -/
inductive Samples (far : T → T → Prop) : T → List (Look T) → Prop where
  | nil (last : T) : Samples far last []
  | wait {last reading : T} {looks : List (Look T)} :
      ¬ far last reading → Samples far last looks →
      Samples far last (⟨reading, none⟩ :: looks)
  | sample {last reading t : T} {looks : List (Look T)} :
      far last reading → Samples far t looks →
      Samples far last (⟨reading, some t⟩ :: looks)

/-- The times recorded along looks, from the given last one on. -/
def recorded (last : T) (looks : List (Look T)) : List T := last :: looks.filterMap Look.renewed

/-- A look at which exactly a sample that is due is recorded goes before a sampler with the
time that is last then. -/
theorem Samples.cons {far : T → T → Prop} {last : T} {l : Look T} {looks : List (Look T)}
    (hl : l.renewed.isSome ↔ far last l.reading) (h : Samples far (l.last last) looks) :
    Samples far last (l :: looks) := by
  obtain ⟨reading, renewed⟩ := l
  cases renewed with
  | none => exact Samples.wait (fun hfar => by simpa using hl.mpr hfar) h
  | some t => exact Samples.sample (hl.mp rfl) h

/-- **When a sample is taken**: at a look whose reading is far from the time last recorded
before it. -/
theorem Samples.isSome_iff {far : T → T → Prop} {last : T} {l : Look T}
    {before after : List (Look T)} (h : Samples far last (before ++ l :: after)) :
    l.renewed.isSome ↔ far (before.foldl (fun t l => l.last t) last) l.reading := by
  induction before generalizing last with
  | nil =>
      cases h with
      | wait hfar _ => simpa using hfar
      | sample hfar _ => simpa using hfar
  | cons b before ih =>
      cases h with
      | wait _ h => exact ih h
      | sample _ h => exact ih h

section Spaced

variable [Preorder T] {far : T → T → Prop}

/-- Any recorded time is far from the last one before. -/
theorem Samples.far_of_mem (hfar : ∀ a b c, far a b → b ≤ c → far a c)
    (hle : ∀ a b, far a b → a ≤ b) {last : T} {looks : List (Look T)}
    (h : Samples far last looks) (hclock : ∀ l ∈ looks, ∀ t ∈ l.renewed, l.reading ≤ t) :
    ∀ t ∈ looks.filterMap Look.renewed, far last t := by
  induction h with
  | nil => simp
  | wait _ _ ih => exact ih fun l hl => hclock l (List.mem_cons_of_mem _ hl)
  | @sample last reading t looks hdue _ ih =>
      have ht : far last t := hfar _ _ _ hdue (hclock _ List.mem_cons_self t rfl)
      intro t' ht'
      rw [List.filterMap_cons] at ht'
      rcases List.mem_cons.mp ht' with rfl | ht'
      · exact ht
      · have hfar' := ih (fun l hl => hclock l (List.mem_cons_of_mem _ hl)) t' ht'
        exact hfar _ _ _ ht (hle _ _ hfar')

/-- **Any two recorded times of a sampler are far from each other**, if the clock does not
go back between a reading and the recorded time. -/
theorem Samples.pairwise (hfar : ∀ a b c, far a b → b ≤ c → far a c)
    (hle : ∀ a b, far a b → a ≤ b) {last : T} {looks : List (Look T)}
    (h : Samples far last looks) (hclock : ∀ l ∈ looks, ∀ t ∈ l.renewed, l.reading ≤ t) :
    (recorded last looks).Pairwise far := by
  refine List.pairwise_cons.mpr ⟨h.far_of_mem hfar hle hclock, ?_⟩
  induction h with
  | nil => exact List.Pairwise.nil
  | wait _ _ ih => exact ih fun l hl => hclock l (List.mem_cons_of_mem _ hl)
  | sample _ hrest ih =>
      have hclock' := fun l hl => hclock l (List.mem_cons_of_mem _ hl)
      rw [List.filterMap_cons]
      exact List.pairwise_cons.mpr ⟨hrest.far_of_mem hfar hle hclock', ih hclock'⟩

end Spaced

/-- The last time after some looks is one of the recorded ones. -/
theorem last_mem_recorded (last : T) (looks : List (Look T)) :
    looks.foldl (fun t l => l.last t) last ∈ recorded last looks := by
  induction looks generalizing last with
  | nil => exact List.mem_singleton_self last
  | cons l looks ih =>
      obtain ⟨reading, renewed⟩ := l
      cases renewed with
      | none => exact ih last
      | some t => exact List.mem_cons_of_mem _ (ih t)

/-- Without a sample the last time stays. -/
theorem last_of_none {last : T} {looks : List (Look T)} (h : ∀ l ∈ looks, l.renewed = none) :
    looks.foldl (fun t l => l.last t) last = last := by
  induction looks with
  | nil => rfl
  | cons l looks ih =>
      have hlast : l.last last = last := by rw [Look.last, h l List.mem_cons_self, Option.getD_none]
      rw [List.foldl_cons, hlast]
      exact ih fun l' hl' => h l' (List.mem_cons_of_mem _ hl')

/-- **Between two times that are far from each other a sample is taken**: at one of some looks,
if all times recorded before them are up to `s`, and the last of them reads a time far from
`s`. -/
theorem Samples.exists_renewed [Preorder T] {far : T → T → Prop}
    (hfar : ∀ a b c, a ≤ b → far b c → far a c) {last s : T} {l : Look T}
    {before mid after : List (Look T)} (h : Samples far last (before ++ (mid ++ l :: after)))
    (hs : ∀ t ∈ recorded last before, t ≤ s) (hl : far s l.reading) :
    ∃ l' ∈ mid ++ [l], l'.renewed.isSome := by
  by_contra hnone
  have hmid : ∀ l' ∈ mid, l'.renewed = none := fun l' hl' =>
    Option.not_isSome_iff_eq_none.mp fun hsome =>
      hnone ⟨l', List.mem_append_left _ hl', hsome⟩
  rw [← List.append_assoc] at h
  refine hnone ⟨l, List.mem_append_right _ (List.mem_singleton_self l), h.isSome_iff.mpr ?_⟩
  rw [List.foldl_append, last_of_none hmid]
  exact hfar _ _ _ (hs _ (last_mem_recorded last before)) hl

/-! ### A board of samplers -/

/-- One pass over a board: a look for each entry, at which exactly a sample that is due is
recorded. -/
def Pass (far : α → T → T → Prop) (board : List (α × T)) (looks : List (Look T)) : Prop :=
  List.Forall₂ (fun e l => l.renewed.isSome ↔ far e.1 e.2 l.reading) board looks

/-- The board after a pass. -/
def renew (board : List (α × T)) (looks : List (Look T)) : List (α × T) :=
  List.zipWith (fun e l => (e.1, l.last e.2)) board looks

/-- The items whose sample was due in a pass, in order. -/
def due (items : List α) (looks : List (Look T)) : List α :=
  ((items.zip looks).filter fun x => x.2.renewed.isSome).map Prod.fst

theorem mem_due {items : List α} {looks : List (Look T)} {i : ℕ} {item : α} {l : Look T}
    (hitem : items[i]? = some item) (hl : looks[i]? = some l) (hdue : l.renewed.isSome) :
    item ∈ due items looks := by
  have hzip : (items.zip looks)[i]? = some (item, l) :=
    List.getElem?_zip_eq_some.mpr ⟨hitem, hl⟩
  exact List.mem_map.mpr ⟨(item, l),
    List.mem_filter.mpr ⟨List.mem_of_getElem? hzip, hdue⟩, rfl⟩

/-- Passes over a board, one after the other. -/
inductive Rounds (far : α → T → T → Prop) : List (α × T) → List (List (Look T)) → Prop where
  | nil (board : List (α × T)) : Rounds far board []
  | cons {board : List (α × T)} {looks : List (Look T)} {rounds : List (List (Look T))} :
      Pass far board looks → Rounds far (renew board looks) rounds →
      Rounds far board (looks :: rounds)

/-- The looks of one entry of the board. -/
def ownLooks (i : ℕ) (rounds : List (List (Look T))) : List (Look T) :=
  rounds.filterMap fun looks => looks[i]?

theorem ownLooks_append (i : ℕ) (rounds₁ rounds₂ : List (List (Look T))) :
    ownLooks i (rounds₁ ++ rounds₂) = ownLooks i rounds₁ ++ ownLooks i rounds₂ :=
  List.filterMap_append

theorem ownLooks_cons {i : ℕ} {looks : List (Look T)} {l : Look T} (h : looks[i]? = some l)
    (rounds : List (List (Look T))) : ownLooks i (looks :: rounds) = l :: ownLooks i rounds := by
  rw [ownLooks, List.filterMap_cons, h]
  rfl

/-- The items of the board stay where they are. -/
theorem Pass.map_renew {far : α → T → T → Prop} {board : List (α × T)} {looks : List (Look T)}
    (h : Pass far board looks) : (renew board looks).map Prod.fst = board.map Prod.fst := by
  induction h with
  | nil => rfl
  | cons _ _ ih =>
      rw [renew, List.zipWith_cons_cons, List.map_cons, List.map_cons]
      exact congrArg _ ih

/-- A pass looks at every entry. -/
theorem Pass.get {far : α → T → T → Prop} {board : List (α × T)} {looks : List (Look T)}
    (h : Pass far board looks) {i : ℕ} {e : α × T} (he : board[i]? = some e) :
    ∃ l, looks[i]? = some l ∧ (l.renewed.isSome ↔ far e.1 e.2 l.reading) ∧
      (renew board looks)[i]? = some (e.1, l.last e.2) := by
  induction h generalizing i with
  | nil => simp at he
  | @cons b l board looks hl _ ih =>
      cases i with
      | zero =>
          obtain rfl : b = e := by simpa using he
          exact ⟨l, rfl, hl, rfl⟩
      | succ i => exact ih (by simpa using he)

/-- **Every entry of a board is a sampler of its own**: along its own looks, from its own
last time on, with its own distance. -/
theorem Rounds.samples {far : α → T → T → Prop} {board : List (α × T)}
    {rounds : List (List (Look T))} (h : Rounds far board rounds) {i : ℕ} {e : α × T}
    (he : board[i]? = some e) : Samples (far e.1) e.2 (ownLooks i rounds) := by
  induction h generalizing e with
  | nil => exact Samples.nil _
  | cons hpass _ ih =>
      obtain ⟨l, hl, hdue, hrenew⟩ := hpass.get he
      rw [ownLooks, List.filterMap_cons, hl]
      exact Samples.cons hdue (ih hrenew)

/-- Every pass of the rounds looks at all entries. -/
theorem Rounds.length {far : α → T → T → Prop} {board : List (α × T)}
    {rounds : List (List (Look T))} (h : Rounds far board rounds) :
    ∀ looks ∈ rounds, looks.length = board.length := by
  induction h with
  | nil => simp
  | @cons board looks rounds hpass _ ih =>
      have hlen : board.length = looks.length := hpass.length_eq
      intro looks' hmem
      rcases List.mem_cons.mp hmem with rfl | hmem
      · exact hlen.symm
      · rw [ih looks' hmem, renew, List.length_zipWith, hlen, Nat.min_self]

end Sampling
