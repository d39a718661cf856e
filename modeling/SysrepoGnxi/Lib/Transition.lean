import Mathlib.Data.List.Induction

/-!
# Transition Systems and Refinement

A transition system gives the labelled steps of a state. This module has the facts
about its runs that specifications are proved with:

* `Run.invariant` — what holds in the first state and is kept by every step holds in the last;
* `Run.history` — the same, of the labels up to a state and the state;
* `Run.append_iff` — a run over the labels of two lists passes through a state between them;
* `Simulates.run` — where one system simulates another step by step, it has every run of it.
-/

namespace Transition

/-- A transition system with states `S` and labels `L`. -/
structure System (S L : Type) where
  step : S → L → S → Prop

variable {S S' L : Type}

/-- A run: the labels of its steps, in order. -/
inductive Run (T : System S L) : S → List L → S → Prop
  | nil (s : S) : Run T s [] s
  | cons {s s₁ s₂ : S} {l : L} {ls : List L} :
      T.step s l s₁ → Run T s₁ ls s₂ → Run T s (l :: ls) s₂

section Run

variable {T : System S L} {s s' : S}

/-- **The invariant rule.** -/
theorem Run.invariant {I : S → Prop} (hstep : ∀ s l s', I s → T.step s l s' → I s')
    {ls : List L} (h : Run T s ls s') (hs : I s) : I s' := by
  induction h with
  | nil => exact hs
  | cons hl _ ih => exact ih (hstep _ _ _ hs hl)

/-- A run over two lists of labels passes through a state between them. -/
theorem Run.append_iff {ls₁ ls₂ : List L} :
    Run T s (ls₁ ++ ls₂) s' ↔ ∃ m, Run T s ls₁ m ∧ Run T m ls₂ s' := by
  induction ls₁ generalizing s with
  | nil =>
      refine ⟨fun h => ⟨s, Run.nil s, h⟩, ?_⟩
      rintro ⟨m, ⟨⟩, h⟩
      exact h
  | cons l ls₁ ih =>
      constructor
      · rintro (_ | ⟨hl, h⟩)
        obtain ⟨m, h₁, h₂⟩ := ih.mp h
        exact ⟨m, Run.cons hl h₁, h₂⟩
      · rintro ⟨m, _ | ⟨hl, h₁⟩, h₂⟩
        exact Run.cons hl (ih.mpr ⟨m, h₁, h₂⟩)

/-- The step of a run with one label. -/
theorem Run.cons_iff {l : L} {ls : List L} :
    Run T s (l :: ls) s' ↔ ∃ m, T.step s l m ∧ Run T m ls s' := by
  constructor
  · rintro (_ | ⟨hl, h⟩)
    exact ⟨_, hl, h⟩
  · rintro ⟨m, hl, h⟩
    exact Run.cons hl h

/-- **The invariant rule for histories**: what a step does may depend on the run before it. -/
theorem Run.history {I : List L → S → Prop} (h₀ : I [] s)
    (hstep : ∀ ls s₁ l s₂, Run T s ls s₁ → I ls s₁ → T.step s₁ l s₂ → I (ls ++ [l]) s₂)
    {ls : List L} (h : Run T s ls s') : I ls s' := by
  induction ls using List.reverseRecOn generalizing s' with
  | nil =>
      cases h
      exact h₀
  | append_singleton ls l ih =>
      obtain ⟨s₁, hrun, hlast⟩ := Run.append_iff.mp h
      obtain ⟨s₂, hl, hnil⟩ := Run.cons_iff.mp hlast
      cases hnil
      exact hstep ls s₁ l _ hrun (ih hrun) hl

end Run

/-- `Simulates C A R`: `A` can match every step of `C` between related states. -/
def Simulates (C : System S L) (A : System S' L) (R : S → S' → Prop) : Prop :=
  ∀ c a l c', R c a → C.step c l c' → ∃ a', A.step a l a' ∧ R c' a'

/-- **A simulation matches whole runs.** -/
theorem Simulates.run {C : System S L} {A : System S' L} {R : S → S' → Prop}
    (hsim : Simulates C A R) {c c' : S} {a : S'} {ls : List L} (h : Run C c ls c')
    (hR : R c a) : ∃ a', Run A a ls a' ∧ R c' a' := by
  induction h generalizing a with
  | nil c => exact ⟨a, Run.nil a, hR⟩
  | cons hl _ ih =>
      obtain ⟨a₁, hstep, hR₁⟩ := hsim _ _ _ _ hR hl
      obtain ⟨a', hrun, hR'⟩ := ih hR₁
      exact ⟨a', Run.cons hstep hrun, hR'⟩

end Transition
