import Mathlib.Data.List.Nodup
import Mathlib.Data.List.Infix
import Mathlib.Order.Basic

/-!
# Trees in Pre-Order

A tree of labels, its places, which are the child indices on the way to a node, and the
depth-first walk that lists each place with its label. The walk comes by the places in their
lexicographic order (`walk_sorted`), by each of them (`mem_walk`), and by a node before what
is below it. `exists_places` says so of the labels of any kind.
-/

namespace Preorder

/-- A tree with a label at each node. -/
inductive Rose (α : Type) where
  | node (label : α) (children : List (Rose α))

variable {α : Type}

mutual

/-- The places of a tree in depth-first pre-order, with their labels. -/
def walk : Rose α → List (List ℕ × α)
  | .node label children => ([], label) :: walkFrom 0 children

/-- The walks of siblings, the first of which is child `i`. -/
def walkFrom (i : ℕ) : List (Rose α) → List (List ℕ × α)
  | [] => []
  | t :: ts => (walk t).map (fun e => (i :: e.1, e.2)) ++ walkFrom (i + 1) ts

end

/-- The label at a place. -/
def labelAt : List ℕ → Rose α → Option α
  | [], .node label _ => some label
  | i :: pos, .node _ children => children[i]?.bind (labelAt pos)

mutual

/-- **The walk lists the label of each place.** -/
theorem mem_walk : {t : Rose α} → {pos : List ℕ} → {a : α} →
    ((pos, a) ∈ walk t ↔ labelAt pos t = some a)
  | .node label children, [], a => by
      have hno : ([], a) ∉ walkFrom 0 children := by
        rw [mem_walkFrom]
        rintro ⟨k, pos, h, -⟩
        cases h
      simp [walk, labelAt, hno, eq_comm]
  | .node label children, i :: pos, a => by
      rw [walk, List.mem_cons, mem_walkFrom, labelAt]
      constructor
      · rintro (h | ⟨k, pos', h, t, ht, hlabel⟩)
        · cases h
        · rw [Nat.zero_add] at h
          obtain ⟨rfl, rfl⟩ := List.cons.inj h
          rw [ht]
          exact hlabel
      · intro h
        obtain ⟨t, ht, hlabel⟩ := Option.bind_eq_some_iff.mp h
        exact Or.inr ⟨i, pos, by rw [Nat.zero_add], t, ht, hlabel⟩

theorem mem_walkFrom : {i : ℕ} → {ts : List (Rose α)} → {pos : List ℕ} → {a : α} →
    ((pos, a) ∈ walkFrom i ts ↔ ∃ k pos', pos = (i + k) :: pos' ∧
      ∃ t, ts[k]? = some t ∧ labelAt pos' t = some a)
  | i, [], pos, a => by simp [walkFrom]
  | i, t :: ts, pos, a => by
      rw [walkFrom, List.mem_append, List.mem_map, mem_walkFrom]
      constructor
      · rintro (⟨⟨pos', a'⟩, hmem, heq⟩ | ⟨k, pos', rfl, t', ht', hlabel⟩)
        · obtain ⟨rfl, rfl⟩ := Prod.mk.inj heq
          exact ⟨0, pos', rfl, t, rfl, mem_walk.mp hmem⟩
        · exact ⟨k + 1, pos', by rw [Nat.add_right_comm, Nat.add_assoc], t', ht', hlabel⟩
      · rintro ⟨k, pos', rfl, t', ht', hlabel⟩
        cases k with
        | zero =>
            obtain rfl : t = t' := Option.some.inj ht'
            exact Or.inl ⟨(pos', a), mem_walk.mpr hlabel, rfl⟩
        | succ k =>
            exact Or.inr ⟨k, pos', by rw [Nat.add_right_comm, Nat.add_assoc], t', ht', hlabel⟩

end

mutual

/-- **The walk comes by the places in order.** -/
theorem walk_sorted : (t : Rose α) → (walk t).Pairwise fun e e' => e.1 < e'.1
  | .node label children => by
      rw [walk]
      refine List.pairwise_cons.mpr ⟨?_, walkFrom_sorted 0 children⟩
      rintro ⟨pos, a⟩ hmem
      obtain ⟨k, pos', rfl, -⟩ := mem_walkFrom.mp hmem
      exact List.nil_lt_cons _ _

theorem walkFrom_sorted : (i : ℕ) → (ts : List (Rose α)) →
    (walkFrom i ts).Pairwise fun e e' => e.1 < e'.1
  | _, [] => List.Pairwise.nil
  | i, t :: ts => by
      rw [walkFrom, List.pairwise_append]
      refine ⟨?_, walkFrom_sorted (i + 1) ts, ?_⟩
      · rw [List.pairwise_map]
        exact (walk_sorted t).imp fun h => List.cons_lt_cons_iff.mpr (Or.inr ⟨rfl, h⟩)
      · -- the places below this sibling start with a smaller index
        rintro e he ⟨pos, a⟩ hmem
        obtain ⟨e', -, rfl⟩ := List.mem_map.mp he
        obtain ⟨k, pos', rfl, -⟩ := mem_walkFrom.mp hmem
        exact List.cons_lt_cons_iff.mpr (Or.inl (by omega))

end

/-- A place comes before the places below it. -/
theorem lt_of_above {outer pos : List ℕ} (h : outer <+: pos) (hne : outer ≠ pos) :
    outer < pos := by
  obtain ⟨way, rfl⟩ := h
  induction outer with
  | nil =>
      cases way with
      | nil => exact absurd rfl hne
      | cons i way => exact List.nil_lt_cons _ _
  | cons i outer ih =>
      refine List.cons_lt_cons_iff.mpr (Or.inr ⟨rfl, ih ?_⟩)
      rintro heq
      exact hne (congrArg (List.cons i) heq)

/-- What is smaller in a sorted list comes before. -/
theorem mem_before {before after : List (List ℕ)} {outer pos : List ℕ}
    (hsorted : (before ++ pos :: after).Pairwise (· < ·)) (hmem : outer ∈ before ++ pos :: after)
    (hlt : outer < pos) : outer ∈ before := by
  obtain ⟨-, hlate, -⟩ := List.pairwise_append.mp hsorted
  rcases List.mem_append.mp hmem with hmem | hmem
  · exact hmem
  · rcases List.mem_cons.mp hmem with rfl | hmem
    · exact absurd hlt (List.lt_irrefl _)
    · exact absurd hlt (List.lt_asymm ((List.pairwise_cons.mp hlate).1 outer hmem))

/-- **The labels of a kind, in the order of the walk**, are those of places that are listed
once each, and a place comes after the places above it. -/
theorem exists_places (t : Rose α) (kind : α → Bool) :
    ∃ places : List (List ℕ), places.Nodup ∧
      (∀ pos, pos ∈ places ↔ ∃ a, labelAt pos t = some a ∧ kind a = true) ∧
      (places.map fun pos => labelAt pos t) = (((walk t).map Prod.snd).filter kind).map some ∧
      ∀ before pos after, places = before ++ pos :: after → ∀ outer ∈ places,
        outer <+: pos → outer ≠ pos → outer ∈ before := by
  have hsorted : (((walk t).filter fun e => kind e.2).map Prod.fst).Pairwise (· < ·) :=
    List.pairwise_map.mpr ((walk_sorted t).filter _)
  refine ⟨((walk t).filter fun e => kind e.2).map Prod.fst, ?_, ?_, ?_, ?_⟩
  · refine List.Pairwise.imp ?_ hsorted
    rintro a _ hlt rfl
    exact List.lt_irrefl a hlt
  · intro pos
    simp only [List.mem_map, List.mem_filter, Prod.exists, exists_and_right, exists_eq_right,
      mem_walk]
  · rw [List.map_map, List.filter_map, List.map_map]
    refine List.map_congr_left fun e he => ?_
    exact mem_walk.mp (List.mem_filter.mp he).1
  · rintro before pos after heq outer hmem hprefix hne
    rw [heq] at hsorted hmem
    exact mem_before hsorted hmem (lt_of_above hprefix hne)

end Preorder
