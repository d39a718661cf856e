import SysrepoGnxi.Lib.Dialogue

/-!
# Bounds on the Turns of a Program

`Within reply p n` says that `p` returns after at most `n` calls, as long as its replies
satisfy `reply`. The rules follow the operations of a program, and add up the calls of its
parts (`Within.bind`); a bound on the second part may depend on what the first has been told.

In a pool every turn of a program is one of its calls until it returns
(`Pool.returned_or_length`). So a program within `n` calls has returned after `n` turns of its
own, whatever turns the others have had in between (`Pool.returns_of_within`): it waits for
nobody.
-/

namespace Dialogue

variable {E : Type} {R : E → Type} {α β σ : Type} {reply : (e : E) → R e → Prop}

/-- `p` makes at most `n` calls, as long as the replies satisfy `reply`. -/
def Within (reply : (e : E) → R e → Prop) : Prog E R α → ℕ → Prop
  | .ret _, _ => True
  | .call _ _, 0 => False
  | .call e k, n + 1 => ∀ r, reply e r → Within reply (k r) n

theorem Within.mono {p : Prog E R α} {m n : ℕ} (h : Within reply p m) (hle : m ≤ n) :
    Within reply p n := by
  induction p generalizing m n with
  | ret a => trivial
  | call e k ih =>
      cases m with
      | zero => exact h.elim
      | succ m =>
          obtain ⟨n, rfl⟩ : ∃ n', n = n' + 1 := ⟨n - 1, by omega⟩
          exact fun r hr => ih r (h r hr) (Nat.le_of_succ_le_succ hle)

/-- **The sequencing rule**: the calls of the second part come on top of those of the first. -/
theorem Within.bind {p : Prog E R α} {f : α → Prog E R β} {m n : ℕ} (hp : Within reply p m)
    (hf : ∀ evs a, Yields p evs a → (∀ ev ∈ evs, reply ev.1 ev.2) → Within reply (f a) n) :
    Within reply (p.bind f) (m + n) := by
  induction p generalizing m with
  | ret a => exact (hf [] a (Yields.ret a) (by simp)).mono (Nat.le_add_left n m)
  | call e k ih =>
      cases m with
      | zero => exact hp.elim
      | succ m =>
          rw [Nat.succ_add]
          refine fun r hr => ih r (hp r hr) fun evs a hy hevs => ?_
          refine hf (⟨e, r⟩ :: evs) a (Yields.call hy) ?_
          rintro ev (- | ⟨-, hev⟩)
          · exact hr
          · exact hevs ev hev

/-- The calls made so far are among them, and the rest makes the others. -/
theorem Within.steps {p q : Prog E R α} {evs : List (Event E R)} {n : ℕ} (hp : Within reply p n)
    (h : Steps p evs q) (hevs : ∀ ev ∈ evs, reply ev.1 ev.2) :
    ∃ m, n = evs.length + m ∧ Within reply q m := by
  induction h generalizing n with
  | nil p => exact ⟨n, by simp, hp⟩
  | @call e k r evs q _ ih =>
      cases n with
      | zero => exact hp.elim
      | succ n =>
          have hr : reply e r := hevs ⟨e, r⟩ List.mem_cons_self
          obtain ⟨m, hm, hq⟩ := ih (hp r hr) fun ev hev => hevs ev (List.mem_cons_of_mem _ hev)
          exact ⟨m, by rw [hm, List.length_cons]; omega, hq⟩

namespace Pool

/-- **A turn is a call**: a program that has not returned has made a call at each of its
turns. The induction is on the schedule, from its end. -/
theorem returned_or_length (serve : σ → (e : E) → R e × σ) (procs : ℕ → Prog E R α) (s : σ)
    (sched : List ℕ) (i : ℕ) :
    (∃ a, (runs serve (start procs s) sched).procs i = .ret a) ∨
      (own i (runs serve (start procs s) sched).log).length = sched.count i := by
  induction sched using List.reverseRecOn with
  | nil => exact Or.inr rfl
  | append_singleton sched j ih =>
      rw [runs_append, List.count_append, List.count_singleton]
      have hstep : runs serve (runs serve (start procs s) sched) [j] =
          step serve (runs serve (start procs s) sched) j := rfl
      rw [hstep]
      by_cases hij : j = i
      · subst hij
        cases hproc : (runs serve (start procs s) sched).procs j with
        | ret a => exact Or.inl ⟨a, by simp only [step, hproc]⟩
        | call e k =>
            have hlength : (own j (runs serve (start procs s) sched).log).length =
                sched.count j := by
              rcases ih with ⟨a, ha⟩ | hlength
              · rw [hproc] at ha
                cases ha
              · exact hlength
            right
            simp only [step, hproc]
            rw [own_append, own_single, if_pos rfl, List.length_append, hlength]
            simp
      · have hproc : (step serve (runs serve (start procs s) sched) j).procs i =
            (runs serve (start procs s) sched).procs i := by
          rcases step_cases serve (runs serve (start procs s) sched) j with heq |
            ⟨e, k, -, hprocs, -, -⟩
          · rw [heq]
          · rw [hprocs, Function.update_of_ne (Ne.symm hij)]
        have hown : own i (step serve (runs serve (start procs s) sched) j).log =
            own i (runs serve (start procs s) sched).log := by
          rcases step_cases serve (runs serve (start procs s) sched) j with heq |
            ⟨e, k, -, -, -, hlog⟩
          · rw [heq]
          · rw [hlog, own_append, own_single, if_neg hij, List.append_nil]
        rw [hproc, hown]
        simpa [hij] using ih

/-- **A program waits for nobody**: within `n` calls, it has returned after `n` turns. -/
theorem returns_of_within {serve : σ → (e : E) → R e × σ} {procs : ℕ → Prog E R α} {s : σ}
    {sched : List ℕ} {i n : ℕ} (hreply : ∀ ev ∈ own i (runs serve (start procs s) sched).log,
      reply ev.1 ev.2) (h : Within reply (procs i) n) (hturns : n ≤ sched.count i) :
    ∃ a, (runs serve (start procs s) sched).procs i = .ret a := by
  rcases returned_or_length serve procs s sched i with hret | hlength
  · exact hret
  · obtain ⟨m, hm, hrest⟩ := h.steps (steps serve procs s sched i) hreply
    obtain rfl : m = 0 := by omega
    cases hproc : (runs serve (start procs s) sched).procs i with
    | ret a => exact ⟨a, rfl⟩
    | call e k =>
        rw [hproc] at hrest
        exact hrest.elim

end Pool

namespace Throwing

variable {ε : Type} {m n : ℕ}

theorem within_pure (a : α) : Within reply (pure a : Throwing E R ε α).run n := trivial

theorem within_throw (e : ε) : Within reply (throw e : Throwing E R ε α).run n := trivial

theorem within_ask (e : E) (h : R e → Except ε α) : Within reply (ask e h).run 1 :=
  fun _ _ => trivial

/-- The sequencing rule, where the bound on the second part depends on what the first ends
with. -/
theorem within_bind_of_ends {post : α → List (Event E R) → Prop} {x : Throwing E R ε α}
    {f : α → Throwing E R ε β} (hx : Within reply x.run m) (hends : Ends reply post x)
    (hf : ∀ a evs, post a evs → Within reply (f a).run n) :
    Within reply (x >>= f).run (m + n) := by
  refine Within.bind hx ?_
  rintro evs (e | a) hy hevs
  · exact trivial
  · exact hf a evs (hends evs a hy hevs)

theorem within_bind {x : Throwing E R ε α} {f : α → Throwing E R ε β}
    (hx : Within reply x.run m) (hf : ∀ a, Within reply (f a).run n) :
    Within reply (x >>= f).run (m + n) := by
  have hany : Ends reply (fun _ _ => True) x := fun _ _ _ _ => trivial
  exact within_bind_of_ends hx hany fun a _ _ => hf a

theorem within_observe {x : Throwing E R ε α} (hx : Within reply x.run n) :
    Within reply (observe x).run n := by
  refine (Within.bind hx fun _ _ _ _ => ?_ : Within reply _ (n + 0))
  trivial

end Throwing

end Dialogue
