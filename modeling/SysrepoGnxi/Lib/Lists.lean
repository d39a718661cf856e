import Mathlib.Data.List.Forall2

/-!
# Lists, Element by Element

What follows for two lists whose elements are related one by one (`List.Forall₂`), beyond
the lemmas of the library: `pairwise_of_forall₂` carries a property of the pairs of one list
over to the other, `forall₂_of_common` composes two such relations, and
`forall₂_iff_forall` reduces one to a property of the left list. `forall_place_cons` is the
induction step for properties of the places of a list.
-/

namespace Lists

variable {α β γ : Type} {l : List α} {l' : List β}

/-- Each element of the right list is related to one of the left. -/
theorem exists_left_of_forall₂ {r : α → β → Prop} (h : List.Forall₂ r l l') {b : β}
    (hb : b ∈ l') : ∃ a ∈ l, r a b := by
  induction h with
  | nil => cases hb
  | cons hab _ ih =>
      rcases List.mem_cons.mp hb with rfl | hb
      · exact ⟨_, List.mem_cons_self, hab⟩
      · obtain ⟨a, ha, hab⟩ := ih hb
        exact ⟨a, List.mem_cons_of_mem _ ha, hab⟩

/-- A pairwise property of a list gives one of a related list. -/
theorem pairwise_of_forall₂ {r : α → β → Prop} {p : α → α → Prop} {q : β → β → Prop}
    (h : List.Forall₂ r l l') (hp : l.Pairwise p)
    (himp : ∀ a a' b b', r a b → r a' b' → p a a' → q b b') : l'.Pairwise q := by
  induction h with
  | nil => exact List.Pairwise.nil
  | cons hab hrest ih =>
      obtain ⟨hhead, htail⟩ := List.pairwise_cons.mp hp
      refine List.pairwise_cons.mpr ⟨fun b' hb' => ?_, ih htail⟩
      obtain ⟨a', ha', hab'⟩ := exists_left_of_forall₂ hrest hb'
      exact himp _ a' _ b' hab hab' (hhead a' ha')

/-- Lists related to the same list are related to each other. -/
theorem forall₂_of_common {r : α → γ → Prop} {r' : β → γ → Prop} {m : List γ}
    (h : List.Forall₂ r l m) (h' : List.Forall₂ r' l' m) :
    List.Forall₂ (fun a b => ∃ c, r a c ∧ r' b c) l l' := by
  induction h generalizing l' with
  | nil =>
      cases h'
      exact List.Forall₂.nil
  | cons hac _ ih =>
      cases h' with
      | cons hbc h' => exact List.Forall₂.cons ⟨_, hac, hbc⟩ (ih h')

/-- Lists related one by one through functions are mapped to the same list. -/
theorem map_eq_of_forall₂ {f : α → γ} {g : β → γ}
    (h : List.Forall₂ (fun a b => f a = g b) l l') : l.map f = l'.map g := by
  rw [← List.forall₂_eq_eq_eq, List.forall₂_map_left_iff, List.forall₂_map_right_iff]
  exact h

/-- A relation that, where another holds, depends on its left side only. -/
theorem forall₂_iff_forall {r p : α → β → Prop} {q : α → Prop} (h : List.Forall₂ r l l')
    (hiff : ∀ a b, r a b → (p a b ↔ q a)) : List.Forall₂ p l l' ↔ ∀ a ∈ l, q a := by
  induction h with
  | nil => simp
  | cons hab _ ih => rw [List.forall₂_cons, List.forall_mem_cons, hiff _ _ hab, ih]

/-- What a function selects of a list, where it is known for which elements it is defined. -/
theorem map_some_filterMap {f : α → Option β} {p : α → Bool}
    (h : ∀ a ∈ l, p a = (f a).isSome) : (l.filterMap f).map some = (l.filter p).map f := by
  induction l with
  | nil => rfl
  | cons a l ih =>
      obtain ⟨ha, hl⟩ := List.forall_mem_cons.mp h
      cases hf : f a with
      | none =>
          rw [hf, Option.isSome_none] at ha
          rw [List.filterMap_cons_none hf, List.filter_cons_of_neg (by simp [ha]), ih hl]
      | some b =>
          rw [hf, Option.isSome_some] at ha
          rw [List.filterMap_cons_some hf, List.filter_cons_of_pos ha, List.map_cons,
            List.map_cons, hf, ih hl]

/-- A property of the places of a list, by its first place and the others. -/
theorem forall_place_cons {p : List α → α → Prop} {a : α} :
    (∀ pre x post, a :: l = pre ++ x :: post → p pre x) ↔
      p [] a ∧ ∀ pre x post, l = pre ++ x :: post → p (a :: pre) x := by
  constructor
  · intro h
    exact ⟨h [] a l rfl, fun pre x post hl => h (a :: pre) x post (by rw [hl]; rfl)⟩
  · rintro ⟨hhead, htail⟩ pre x post hl
    cases pre with
    | nil =>
        obtain ⟨rfl, -⟩ := List.cons.inj hl
        exact hhead
    | cons b pre =>
        obtain ⟨rfl, htl⟩ := List.cons.inj hl
        exact htail pre x post htl

end Lists
