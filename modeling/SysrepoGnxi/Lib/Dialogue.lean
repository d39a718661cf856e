import Mathlib.Logic.Function.Basic
import Mathlib.Data.List.Basic
import Mathlib.Data.List.Forall2
import Mathlib.Data.List.Induction

/-!
# Programs in Dialogue with an Environment

A program that calls on an outside party — a database session, a clock, a network
stream — is a tree: it either returns, or makes one call and continues on the reply.
`Prog E R α` is that tree for calls `E` whose replies have type `R e`.

Three readings of such a program are given, and connected:

* `Yields p evs a` — the **dialogue** relation: `p` may return `a` after exactly the
  exchanges `evs`, whatever the environment. Its inversion over `bind`
  (`yields_bind_iff`) is the rule every specification of a program is assembled from.
* `run serve p s` — the program against a deterministic environment `serve` with state
  `s`, recording its exchanges (`yields_run`).
* `Pool` — many programs against one environment, one call at a time, in the order of a
  schedule. `Pool.steps` says that each program of the pool still conducts a dialogue of
  its own, which is how a specification proved of one program applies inside any
  interleaving.
-/

namespace Dialogue

/-- A program making calls `e : E` and continuing on replies of type `R e`. -/
inductive Prog (E : Type) (R : E → Type) (α : Type) : Type where
  | ret (a : α) : Prog E R α
  | call (e : E) (k : R e → Prog E R α) : Prog E R α

/-- One exchange: a call and the reply it got. -/
abbrev Event (E : Type) (R : E → Type) : Type := (e : E) × R e

variable {E : Type} {R : E → Type} {α β σ : Type}

namespace Prog

/-- Sequencing: run the first program, then the second on its result. -/
def bind : Prog E R α → (α → Prog E R β) → Prog E R β
  | ret a, f => f a
  | call e k, f => call e fun r => (k r).bind f

instance : Monad (Prog E R) where
  pure := ret
  bind := bind

theorem bind_eq (p : Prog E R α) (f : α → Prog E R β) : p >>= f = p.bind f := rfl

/-- Returning right after a program changes nothing. -/
theorem bind_ret (p : Prog E R α) : p.bind ret = p := by
  induction p with
  | ret a => rfl
  | call e k ih => simp only [bind, ih]

/-- Sequencing is associative. -/
theorem bind_assoc' {γ : Type} (p : Prog E R α) (f : α → Prog E R β)
    (g : β → Prog E R γ) : (p.bind f).bind g = p.bind fun a => (f a).bind g := by
  induction p with
  | ret a => rfl
  | call e k ih => simp only [bind, ih]

instance : LawfulMonad (Prog E R) :=
  LawfulMonad.mk' _ (fun p => bind_ret p) (fun _ _ => rfl)
    (fun p f g => bind_assoc' p f g)

end Prog

/-! ### Dialogues -/

/-- `Yields p evs a`: the program `p` returns `a` after exactly the exchanges `evs`. -/
inductive Yields : Prog E R α → List (Event E R) → α → Prop
  | ret (a : α) : Yields (.ret a) [] a
  | call {e : E} {k : R e → Prog E R α} {r : R e} {evs : List (Event E R)} {a : α} :
      Yields (k r) evs a → Yields (.call e k) (⟨e, r⟩ :: evs) a

/-- Inversion of a returning program. -/
@[simp] theorem yields_ret_iff {a b : α} {evs : List (Event E R)} :
    Yields (.ret a : Prog E R α) evs b ↔ evs = [] ∧ b = a := by
  constructor
  · intro h
    cases h
    exact ⟨rfl, rfl⟩
  · rintro ⟨rfl, rfl⟩
    exact Yields.ret b

/-- Inversion of a call: the first exchange is the call, and the rest is a dialogue of
the continuation on its reply. -/
theorem yields_call_iff {e : E} {k : R e → Prog E R α} {evs : List (Event E R)} {a : α} :
    Yields (.call e k) evs a ↔ ∃ r evs', evs = ⟨e, r⟩ :: evs' ∧ Yields (k r) evs' a := by
  constructor
  · intro h
    cases h with
    | call h => exact ⟨_, _, rfl, h⟩
  · rintro ⟨r, evs', rfl, h⟩
    exact Yields.call h

/-- A dialogue determines the value it ends with. -/
theorem Yields.unique {p : Prog E R α} {evs : List (Event E R)} {a b : α} (ha : Yields p evs a)
    (hb : Yields p evs b) : a = b := by
  induction ha with
  | ret a => exact (yields_ret_iff.mp hb).2.symm
  | call _ ih =>
      cases hb with
      | call hb => exact ih hb

/-- **Inversion of sequencing**: a dialogue of `p.bind f` is a dialogue of `p` followed
by one of the continuation on its result. -/
theorem yields_bind_iff {p : Prog E R α} {f : α → Prog E R β} {evs : List (Event E R)}
    {b : β} :
    Yields (p.bind f) evs b ↔
      ∃ evs₁ evs₂ a, evs = evs₁ ++ evs₂ ∧ Yields p evs₁ a ∧ Yields (f a) evs₂ b := by
  induction p generalizing evs with
  | ret a =>
      simp only [Prog.bind, yields_ret_iff]
      constructor
      · intro h
        exact ⟨[], evs, a, rfl, ⟨rfl, rfl⟩, h⟩
      · rintro ⟨evs₁, evs₂, a', rfl, ⟨rfl, rfl⟩, h⟩
        exact h
  | call e k ih =>
      simp only [Prog.bind, yields_call_iff, ih]
      constructor
      · rintro ⟨r, evs', rfl, evs₁, evs₂, a, rfl, h₁, h₂⟩
        exact ⟨⟨e, r⟩ :: evs₁, evs₂, a, rfl, ⟨r, evs₁, rfl, h₁⟩, h₂⟩
      · rintro ⟨_, evs₂, a, rfl, ⟨r, evs₁, rfl, h₁⟩, h₂⟩
        exact ⟨r, evs₁ ++ evs₂, rfl, evs₁, evs₂, a, rfl, h₁, h₂⟩

/-- A program has a dialogue with replies of a given kind, if there is one to every call. -/
theorem exists_yields_reply {reply : (e : E) → R e → Prop} (hreply : ∀ e, ∃ r, reply e r)
    (p : Prog E R α) : ∃ evs a, Yields p evs a ∧ ∀ ev ∈ evs, reply ev.1 ev.2 := by
  induction p with
  | ret a => exact ⟨[], a, Yields.ret a, by simp⟩
  | call e k ih =>
      obtain ⟨r, hr⟩ := hreply e
      obtain ⟨evs, a, h, hevs⟩ := ih r
      refine ⟨⟨e, r⟩ :: evs, a, Yields.call h, ?_⟩
      intro ev hev
      rcases List.mem_cons.mp hev with rfl | hev
      · exact hr
      · exact hevs ev hev

/-- A program has a dialogue, if every call has a reply. -/
theorem exists_yields [∀ e, Nonempty (R e)] (p : Prog E R α) : ∃ evs a, Yields p evs a := by
  have hreply : ∀ e, ∃ _r : R e, True := fun e =>
    (inferInstance : Nonempty (R e)).elim fun r => ⟨r, trivial⟩
  obtain ⟨evs, a, h, -⟩ := exists_yields_reply hreply p
  exact ⟨evs, a, h⟩

/-! ### Running against an environment -/

/-- What a run leaves behind: the returned value, the exchanges, the final state. -/
structure Outcome (E : Type) (R : E → Type) (σ α : Type) where
  value : α
  log : List (Event E R)
  state : σ

/-- Run a program against the environment `serve`, from state `s`. -/
def run (serve : σ → (e : E) → R e × σ) : Prog E R α → σ → Outcome E R σ α
  | .ret a, s => ⟨a, [], s⟩
  | .call e k, s =>
      let o := run serve (k (serve s e).1) (serve s e).2
      ⟨o.value, ⟨e, (serve s e).1⟩ :: o.log, o.state⟩

/-- The environment's state after it has answered the calls of a log. -/
def after (serve : σ → (e : E) → R e × σ) (s : σ) (evs : List (Event E R)) : σ :=
  evs.foldl (fun s ev => (serve s ev.1).2) s

@[simp] theorem after_nil (serve : σ → (e : E) → R e × σ) (s : σ) :
    after serve s [] = s := rfl

@[simp] theorem after_cons (serve : σ → (e : E) → R e × σ) (s : σ) (ev : Event E R)
    (evs : List (Event E R)) :
    after serve s (ev :: evs) = after serve (serve s ev.1).2 evs := rfl

theorem after_append (serve : σ → (e : E) → R e × σ) (s : σ)
    (evs₁ evs₂ : List (Event E R)) :
    after serve s (evs₁ ++ evs₂) = after serve (after serve s evs₁) evs₂ :=
  List.foldl_append

/-- `Answers serve s evs`: the replies in `evs` are the ones the environment gives to
its calls, in order, from state `s`. -/
def Answers (serve : σ → (e : E) → R e × σ) : σ → List (Event E R) → Prop
  | _, [] => True
  | s, ev :: evs => ev.2 = (serve s ev.1).1 ∧ Answers serve (serve s ev.1).2 evs

theorem answers_append {serve : σ → (e : E) → R e × σ} {s : σ}
    {evs₁ evs₂ : List (Event E R)} :
    Answers serve s (evs₁ ++ evs₂) ↔
      Answers serve s evs₁ ∧ Answers serve (after serve s evs₁) evs₂ := by
  induction evs₁ generalizing s with
  | nil => simp [Answers]
  | cons ev evs ih => simp only [List.cons_append, Answers, after_cons, ih, and_assoc]

/-- **A run is a dialogue**, its replies are the environment's, and its final state is
the state after the log. -/
theorem yields_run (serve : σ → (e : E) → R e × σ) (p : Prog E R α) (s : σ) :
    Yields p (run serve p s).log (run serve p s).value ∧
      Answers serve s (run serve p s).log ∧
      (run serve p s).state = after serve s (run serve p s).log := by
  induction p generalizing s with
  | ret a => exact ⟨Yields.ret a, trivial, rfl⟩
  | call e k ih =>
      obtain ⟨hy, ha, hs⟩ := ih (serve s e).1 (serve s e).2
      exact ⟨Yields.call hy, ⟨rfl, ha⟩, hs⟩

/-! ### Pools: many programs, one environment -/

/-- Programs, each under a number, against one environment; `log` labels every exchange
so far with the number of the program that made it. -/
structure Pool (E : Type) (R : E → Type) (σ α : Type) where
  procs : ℕ → Prog E R α
  state : σ
  log : List (ℕ × Event E R)

namespace Pool

/-- The pool before any call. -/
def start (procs : ℕ → Prog E R α) (s : σ) : Pool E R σ α := ⟨procs, s, []⟩

/-- Program `i` makes its next call; a program that has returned makes none. -/
def step (serve : σ → (e : E) → R e × σ) (c : Pool E R σ α) (i : ℕ) : Pool E R σ α :=
  match c.procs i with
  | .ret _ => c
  | .call e k =>
      { procs := Function.update c.procs i (k (serve c.state e).1)
        state := (serve c.state e).2
        log := c.log ++ [(i, ⟨e, (serve c.state e).1⟩)] }

/-- The pool after the calls of a schedule, which names the program to move next. -/
def runs (serve : σ → (e : E) → R e × σ) (c : Pool E R σ α) (sched : List ℕ) :
    Pool E R σ α :=
  sched.foldl (step serve) c

/-- What a step does: nothing, or one exchange of the scheduled program, all other
programs standing still. -/
theorem step_cases (serve : σ → (e : E) → R e × σ) (c : Pool E R σ α) (i : ℕ) :
    step serve c i = c ∨
      ∃ e k, c.procs i = .call e k ∧
        (step serve c i).procs = Function.update c.procs i (k (serve c.state e).1) ∧
        (step serve c i).state = (serve c.state e).2 ∧
        (step serve c i).log = c.log ++ [(i, ⟨e, (serve c.state e).1⟩)] := by
  cases h : c.procs i with
  | ret a => exact Or.inl (by simp only [step, h])
  | call e k => exact Or.inr ⟨e, k, rfl, by simp [step, h]⟩

/-- **The invariant rule**: what every step preserves holds after every schedule. -/
theorem runs_induction {serve : σ → (e : E) → R e × σ} (I : Pool E R σ α → Prop)
    (hstep : ∀ c i, I c → I (step serve c i)) {c : Pool E R σ α} (h : I c)
    (sched : List ℕ) : I (runs serve c sched) := by
  induction sched generalizing c with
  | nil => exact h
  | cons i sched ih => exact ih (hstep c i h)

end Pool

/-- `Steps p evs q`: after the exchanges `evs`, what is left of `p` is `q`. -/
inductive Steps : Prog E R α → List (Event E R) → Prog E R α → Prop
  | nil (p : Prog E R α) : Steps p [] p
  | call {e : E} {k : R e → Prog E R α} {r : R e} {evs : List (Event E R)}
      {q : Prog E R α} : Steps (k r) evs q → Steps (.call e k) (⟨e, r⟩ :: evs) q

/-- A partial dialogue can be prolonged by the next exchange of what is left. -/
theorem Steps.snoc {p : Prog E R α} {evs : List (Event E R)} {e : E}
    {k : R e → Prog E R α} (h : Steps p evs (.call e k)) (r : R e) :
    Steps p (evs ++ [⟨e, r⟩]) (k r) := by
  generalize hq : Prog.call e k = q at h
  induction h with
  | nil p =>
      subst hq
      exact Steps.call (Steps.nil _)
  | call _ ih => exact Steps.call (ih hq)

/-- A partial dialogue followed by a dialogue of what is left is a dialogue. -/
theorem Steps.yields {p q : Prog E R α} {evs₁ evs₂ : List (Event E R)} {a : α}
    (h : Steps p evs₁ q) (hq : Yields q evs₂ a) : Yields p (evs₁ ++ evs₂) a := by
  induction h with
  | nil p => exact hq
  | call _ ih => exact Yields.call (ih hq)

/-- A dialogue is a partial one that leaves the returned value. -/
theorem steps_of_yields {p : Prog E R α} {evs : List (Event E R)} {a : α}
    (h : Yields p evs a) : Steps p evs (.ret a) := by
  induction h with
  | ret a => exact Steps.nil _
  | call _ ih => exact Steps.call ih

/-- The exchanges of a labelled log made under the number `i`. -/
def own (i : ℕ) (log : List (ℕ × Event E R)) : List (Event E R) :=
  (log.filter fun ev => ev.1 = i).map Prod.snd

@[simp] theorem own_nil (i : ℕ) : own i ([] : List (ℕ × Event E R)) = [] := rfl

theorem own_append (i : ℕ) (log₁ log₂ : List (ℕ × Event E R)) :
    own i (log₁ ++ log₂) = own i log₁ ++ own i log₂ := by
  simp [own]

theorem own_single (i j : ℕ) (ev : Event E R) :
    own i [(j, ev)] = if j = i then [ev] else [] := by
  by_cases h : j = i <;> simp [own, h]

theorem own_cons_self (i : ℕ) (ev : Event E R) (log : List (ℕ × Event E R)) :
    own i ((i, ev) :: log) = ev :: own i log := by
  simp [own]

/-- The exchanges made under a number are in the log. -/
theorem mem_own {i : ℕ} {log : List (ℕ × Event E R)} {ev : Event E R} :
    ev ∈ own i log ↔ (i, ev) ∈ log := by
  constructor
  · intro h
    obtain ⟨⟨j, ev'⟩, hmem, rfl⟩ := List.mem_map.mp h
    obtain ⟨hlog, hj⟩ := List.mem_filter.mp hmem
    obtain rfl : j = i := by simpa using hj
    exact hlog
  · intro h
    exact List.mem_map.mpr ⟨(i, ev), List.mem_filter.mpr ⟨h, by simp⟩, rfl⟩

namespace Pool

/-- **Every program of a pool conducts its own dialogue**: after any schedule, what is
left of program `i` is what its own exchanges leave of it. -/
theorem steps (serve : σ → (e : E) → R e × σ) (procs : ℕ → Prog E R α) (s : σ)
    (sched : List ℕ) (i : ℕ) :
    Steps (procs i) (own i (runs serve (start procs s) sched).log)
      ((runs serve (start procs s) sched).procs i) := by
  refine runs_induction (fun c => Steps (procs i) (own i c.log) (c.procs i))
    ?_ (Steps.nil _) sched
  intro c j h
  rcases step_cases serve c j with heq | ⟨e, k, hj, hprocs, -, hlog⟩
  · rw [heq]
    exact h
  · rw [hprocs, hlog, own_append, own_single]
    by_cases hij : j = i
    · subst hij
      rw [hj] at h
      simpa using h.snoc _
    · simpa [Function.update_of_ne (Ne.symm hij), hij] using h

/-- The replies logged by a pool are the environment's, in the order of the log, and its
state is the state after that log. -/
theorem answers (serve : σ → (e : E) → R e × σ) (procs : ℕ → Prog E R α) (s : σ)
    (sched : List ℕ) :
    Answers serve s ((runs serve (start procs s) sched).log.map Prod.snd) ∧
      (runs serve (start procs s) sched).state =
        after serve s ((runs serve (start procs s) sched).log.map Prod.snd) := by
  refine runs_induction (fun c => Answers serve s (c.log.map Prod.snd) ∧
    c.state = after serve s (c.log.map Prod.snd)) ?_ ⟨by trivial, rfl⟩ sched
  rintro c j ⟨ha, hs⟩
  rcases step_cases serve c j with heq | ⟨e, k, -, -, hstate, hlog⟩
  · rw [heq]
    exact ⟨ha, hs⟩
  · rw [hstate, hlog, List.map_append, answers_append, after_append, ← hs]
    exact ⟨⟨ha, rfl, trivial⟩, rfl⟩

/-- A longer schedule continues the run of a shorter one. -/
theorem runs_append (serve : σ → (e : E) → R e × σ) (c : Pool E R σ α)
    (sched₁ sched₂ : List ℕ) :
    runs serve c (sched₁ ++ sched₂) = runs serve (runs serve c sched₁) sched₂ :=
  List.foldl_append

/-- The log only grows along a schedule. -/
theorem log_runs_append (serve : σ → (e : E) → R e × σ) (c : Pool E R σ α)
    (sched₁ sched₂ : List ℕ) :
    ∃ log, (runs serve c (sched₁ ++ sched₂)).log = (runs serve c sched₁).log ++ log := by
  rw [runs_append]
  refine runs_induction (fun c' => ∃ log, c'.log = (runs serve c sched₁).log ++ log) ?_
    ⟨[], by simp⟩ sched₂
  rintro c' i ⟨log, hlog⟩
  rcases step_cases serve c' i with heq | ⟨e, k, -, -, -, hstep⟩
  · exact ⟨log, by rw [heq, hlog]⟩
  · exact ⟨log ++ [(i, ⟨e, (serve c'.state e).1⟩)], by rw [hstep, hlog, List.append_assoc]⟩

/-- **Where an exchange comes from**: it was made at some point of the schedule, by the
program scheduled there, in the state the schedule had reached. -/
theorem mem_log {serve : σ → (e : E) → R e × σ} {procs : ℕ → Prog E R α} {s : σ}
    {sched : List ℕ} {i : ℕ} {ev : Event E R}
    (h : (i, ev) ∈ (runs serve (start procs s) sched).log) :
    ∃ sched₁ sched₂ k, sched = sched₁ ++ i :: sched₂ ∧
      (runs serve (start procs s) sched₁).procs i = .call ev.1 k ∧
      ev.2 = (serve (runs serve (start procs s) sched₁).state ev.1).1 := by
  induction sched using List.reverseRecOn with
  | nil => simp [runs, start] at h
  | append_singleton sched j ih =>
      rw [runs_append] at h
      have hstep : runs serve (runs serve (start procs s) sched) [j] =
          step serve (runs serve (start procs s) sched) j := rfl
      rw [hstep] at h
      have hold : (i, ev) ∈ (runs serve (start procs s) sched).log →
          ∃ sched₁ sched₂ k, sched ++ [j] = sched₁ ++ i :: sched₂ ∧
            (runs serve (start procs s) sched₁).procs i = .call ev.1 k ∧
            ev.2 = (serve (runs serve (start procs s) sched₁).state ev.1).1 := by
        intro h
        obtain ⟨sched₁, sched₂, k, rfl, hk, hr⟩ := ih h
        exact ⟨sched₁, sched₂ ++ [j], k, by simp, hk, hr⟩
      rcases step_cases serve (runs serve (start procs s) sched) j with
        heq | ⟨e, k, hk, -, -, hlog⟩
      · rw [heq] at h
        exact hold h
      · rw [hlog, List.mem_append, List.mem_singleton] at h
        rcases h with h | h
        · exact hold h
        · cases h
          exact ⟨sched, [], k, rfl, hk, rfl⟩

end Pool

/-! ### Contracts: what a program calls, given what it is told -/

/-- `Spec allow reply post p`: as long as the replies satisfy `reply`, every call `p`
makes satisfies `allow`, and a value it returns satisfies `post`. -/
def Spec (allow : E → Prop) (reply : (e : E) → R e → Prop) (post : α → Prop) :
    Prog E R α → Prop
  | .ret a => post a
  | .call e k => allow e ∧ ∀ r, reply e r → Spec allow reply post (k r)

section Spec

variable {allow : E → Prop} {reply : (e : E) → R e → Prop}

/-- **The sequencing rule** for contracts. -/
theorem Spec.bind {mid : α → Prop} {post : β → Prop} {p : Prog E R α}
    {f : α → Prog E R β} (hp : Spec allow reply mid p)
    (hf : ∀ a, mid a → Spec allow reply post (f a)) : Spec allow reply post (p.bind f) := by
  induction p with
  | ret a => exact hf a hp
  | call e k ih => exact ⟨hp.1, fun r hr => ih r (hp.2 r hr)⟩

/-- A contract that allows more calls, is promised more of the replies and demands less of
the value. -/
theorem Spec.weaken {allow' : E → Prop} {reply' : (e : E) → R e → Prop}
    {post post' : α → Prop} (hallow : ∀ e, allow e → allow' e)
    (hreply : ∀ e r, reply' e r → reply e r) (hpost : ∀ a, post a → post' a)
    {p : Prog E R α} (hp : Spec allow reply post p) : Spec allow' reply' post' p := by
  induction p with
  | ret a => exact hpost a hp
  | call e k ih => exact ⟨hallow e hp.1, fun r hr => ih r (hp.2 r (hreply e r hr))⟩

/-- A contract with a weaker postcondition. -/
theorem Spec.mono {post post' : α → Prop} (h : ∀ a, post a → post' a) {p : Prog E R α}
    (hp : Spec allow reply post p) : Spec allow reply post' p :=
  hp.weaken (fun _ he => he) (fun _ _ hr => hr) h

/-- A contract holds along every partial dialogue with the promised replies: the calls
made so far are allowed, and what is left of the program still keeps it. -/
theorem Spec.steps {post : α → Prop} {p q : Prog E R α} {evs : List (Event E R)}
    (hp : Spec allow reply post p) (h : Steps p evs q)
    (hr : ∀ ev ∈ evs, reply ev.1 ev.2) :
    (∀ ev ∈ evs, allow ev.1) ∧ Spec allow reply post q := by
  induction h with
  | nil p => exact ⟨by simp, hp⟩
  | @call e k r evs q _ ih =>
      obtain ⟨hall, hq⟩ := ih (hp.2 r (hr ⟨e, r⟩ (by simp)))
        fun ev hev => hr ev (List.mem_cons_of_mem _ hev)
      refine ⟨?_, hq⟩
      intro ev hev
      rcases List.mem_cons.mp hev with rfl | hev
      · exact hp.1
      · exact hall ev hev

/-- What holds of the values of all dialogues with the promised replies may be put into a
contract. -/
theorem Spec.of_yields {post : α → Prop} {p : Prog E R α}
    (hp : Spec allow (fun _ _ => True) (fun _ => True) p)
    (hpost : ∀ evs a, Yields p evs a → (∀ ev ∈ evs, reply ev.1 ev.2) → post a) :
    Spec allow reply post p := by
  induction p with
  | ret a => exact hpost [] a (Yields.ret a) (by simp)
  | call e k ih =>
      refine ⟨hp.1, fun r hr => ih r (hp.2 r trivial) fun evs a hy hevs => ?_⟩
      exact hpost (⟨e, r⟩ :: evs) a (Yields.call hy) (List.forall_mem_cons.mpr ⟨hr, hevs⟩)

/-- **Calls answered by an environment that keeps an invariant**: if in every state with the
invariant the replies to allowed calls are the promised ones and the invariant is kept, the
replies are the promised ones as long as the calls are allowed. -/
theorem Answers.promised {inv : σ → Prop} {serve : σ → (e : E) → R e × σ}
    (hserve : ∀ s e, inv s → allow e → reply e (serve s e).1 ∧ inv (serve s e).2) {s : σ}
    {evs : List (Event E R)} (h : Answers serve s evs) (hs : inv s)
    (hallow : ∀ ev ∈ evs, allow ev.1) : ∀ ev ∈ evs, reply ev.1 ev.2 := by
  induction evs generalizing s with
  | nil => simp
  | cons ev evs ih =>
      obtain ⟨hreply, hinv⟩ := hserve s ev.1 hs (hallow ev List.mem_cons_self)
      rw [← h.1] at hreply
      exact List.forall_mem_cons.mpr
        ⟨hreply, ih h.2 hinv fun ev' hev' => hallow ev' (List.mem_cons_of_mem _ hev')⟩

end Spec

/-! ### Programs that throw -/

/-- Programs that end with a value or with an exception of type `ε`. -/
abbrev Throwing (E : Type) (R : E → Type) (ε α : Type) : Type := ExceptT ε (Prog E R) α

namespace Throwing

variable {ε : Type}

/-- Make a call that may be answered with an exception, and throw it then. -/
def ask (e : E) (h : R e → Except ε α) : Throwing E R ε α :=
  ExceptT.mk (.call e fun r => .ret (h r))

/-- Run a program and hand over the exception it ends with instead of throwing it. -/
def observe (x : Throwing E R ε α) : Throwing E R ε (Except ε α) :=
  ExceptT.mk (x.run.bind fun r => .ret (.ok r))

@[simp] theorem yields_ask {e : E} {h : R e → Except ε α} {evs : List (Event E R)}
    {r : Except ε α} :
    Yields (ask e h : Throwing E R ε α).run evs r ↔ ∃ a, evs = [⟨e, a⟩] ∧ r = h a := by
  change Yields (.call e fun r => .ret (h r)) evs r ↔ _
  simp only [yields_call_iff, yields_ret_iff]
  constructor
  · rintro ⟨a, evs', rfl, rfl, rfl⟩
    exact ⟨a, rfl, rfl⟩
  · rintro ⟨a, rfl, rfl⟩
    exact ⟨a, [], rfl, rfl, rfl⟩

@[simp] theorem yields_pure {a : α} {evs : List (Event E R)} {r : Except ε α} :
    Yields (pure a : Throwing E R ε α).run evs r ↔ evs = [] ∧ r = .ok a :=
  yields_ret_iff

@[simp] theorem yields_throw {x : ε} {evs : List (Event E R)} {r : Except ε α} :
    Yields (throw x : Throwing E R ε α).run evs r ↔ evs = [] ∧ r = .error x :=
  yields_ret_iff

/-- **Inversion of sequencing with exceptions**: either the first part returns and the
second continues on its value, or the first part throws and nothing follows. -/
theorem yields_bind {x : Throwing E R ε α} {f : α → Throwing E R ε β}
    {evs : List (Event E R)} {r : Except ε β} :
    Yields (x >>= f).run evs r ↔
      (∃ evs₁ evs₂ a, evs = evs₁ ++ evs₂ ∧ Yields x.run evs₁ (.ok a) ∧
        Yields (f a).run evs₂ r) ∨
      (∃ e, Yields x.run evs (.error e) ∧ r = .error e) := by
  rw [ExceptT.run_bind, Prog.bind_eq, yields_bind_iff]
  constructor
  · rintro ⟨evs₁, evs₂, a | a, rfl, h₁, h₂⟩
    · obtain ⟨rfl, rfl⟩ := yields_ret_iff.mp h₂
      exact Or.inr ⟨a, by simpa using h₁, rfl⟩
    · exact Or.inl ⟨evs₁, evs₂, a, rfl, h₁, h₂⟩
  · rintro (⟨evs₁, evs₂, a, rfl, h₁, h₂⟩ | ⟨e, h, rfl⟩)
    · exact ⟨evs₁, evs₂, .ok a, rfl, h₁, h₂⟩
    · exact ⟨evs, [], .error e, by simp, h, Yields.ret _⟩

/-- A program whose value is only changed makes the same exchanges. -/
theorem yields_bind_pure {x : Throwing E R ε α} {f : α → β} {evs : List (Event E R)}
    {r : Except ε β} :
    Yields (x >>= fun a => pure (f a)).run evs r ↔ ∃ o, Yields x.run evs o ∧ r = o.map f := by
  rw [yields_bind]
  constructor
  · rintro (⟨evs₁, evs₂, a, rfl, h₁, h₂⟩ | ⟨e, h, rfl⟩)
    · obtain ⟨rfl, rfl⟩ := yields_pure.mp h₂
      exact ⟨.ok a, by simpa using h₁, rfl⟩
    · exact ⟨.error e, h, rfl⟩
  · rintro ⟨e | a, h, rfl⟩
    · exact Or.inr ⟨e, h, rfl⟩
    · exact Or.inl ⟨evs, [], a, by simp, h, yields_pure.mpr ⟨rfl, rfl⟩⟩

/-- A call whose reply is never an exception is the first exchange, and the rest follows. -/
theorem yields_ask_bind {e : E} {f : R e → Throwing E R ε β} {evs : List (Event E R)}
    {r : Except ε β} :
    Yields ((ask e .ok : Throwing E R ε (R e)) >>= f).run evs r ↔
      ∃ a evs', evs = ⟨e, a⟩ :: evs' ∧ Yields (f a).run evs' r := by
  rw [yields_bind]
  constructor
  · rintro (⟨evs₁, evs₂, a, rfl, h₁, h₂⟩ | ⟨exc, h, -⟩)
    · obtain ⟨a', rfl, heq⟩ := yields_ask.mp h₁
      obtain rfl : a = a' := Except.ok.inj heq
      exact ⟨a, evs₂, rfl, h₂⟩
    · obtain ⟨a, -, heq⟩ := yields_ask.mp h
      cases heq
  · rintro ⟨a, evs', rfl, h⟩
    exact Or.inl ⟨[⟨e, a⟩], evs', a, rfl, yields_ask.mpr ⟨a, rfl, rfl⟩, h⟩

/-- Observing a program changes neither its exchanges nor how it ends. -/
@[simp] theorem yields_observe {x : Throwing E R ε α} {evs : List (Event E R)}
    {r : Except ε (Except ε α)} :
    Yields (observe x).run evs r ↔ ∃ a, r = .ok a ∧ Yields x.run evs a := by
  change Yields (x.run.bind fun r => .ret (.ok r)) evs r ↔ _
  rw [yields_bind_iff]
  constructor
  · rintro ⟨evs₁, evs₂, a, rfl, h, h₂⟩
    obtain ⟨rfl, rfl⟩ := yields_ret_iff.mp h₂
    exact ⟨a, rfl, by simpa using h⟩
  · rintro ⟨a, rfl, h⟩
    exact ⟨evs, [], a, by simp, h, Yields.ret _⟩

/-- **Inversion of a try block**: what follows an observed program goes on however that has
ended. -/
theorem yields_observe_bind {x : Throwing E R ε α} {f : Except ε α → Throwing E R ε β}
    {evs : List (Event E R)} {r : Except ε β} :
    Yields (observe x >>= f).run evs r ↔
      ∃ evs₁ evs₂ o, evs = evs₁ ++ evs₂ ∧ Yields x.run evs₁ o ∧ Yields (f o).run evs₂ r := by
  rw [yields_bind]
  constructor
  · rintro (⟨evs₁, evs₂, o, rfl, h₁, h₂⟩ | ⟨e, h, rfl⟩)
    · obtain ⟨o', heq, h₁⟩ := yields_observe.mp h₁
      obtain rfl := Except.ok.inj heq
      exact ⟨evs₁, evs₂, o, rfl, h₁, h₂⟩
    · obtain ⟨o, heq, -⟩ := yields_observe.mp h
      cases heq
  · rintro ⟨evs₁, evs₂, o, rfl, h₁, h₂⟩
    exact Or.inl ⟨evs₁, evs₂, o, rfl, yields_observe.mpr ⟨o, rfl, h₁⟩, h₂⟩

/-- **A program that observes another and makes no call after it** has the dialogues of the
other, and ends as its outcome tells. -/
theorem yields_observe_quiet {x : Throwing E R ε α} {k : Except ε α → Throwing E R ε β}
    {g : Except ε α → Except ε β}
    (hk : ∀ o evs r, Yields (k o).run evs r ↔ evs = [] ∧ r = g o) {evs : List (Event E R)}
    {r : Except ε β} :
    Yields (observe x >>= k).run evs r ↔ ∃ o, Yields x.run evs o ∧ r = g o := by
  rw [yields_observe_bind]
  constructor
  · rintro ⟨evs₁, evs₂, o, rfl, h₁, h₂⟩
    obtain ⟨rfl, rfl⟩ := (hk o evs₂ r).mp h₂
    exact ⟨o, by simpa using h₁, rfl⟩
  · rintro ⟨o, h, rfl⟩
    exact ⟨evs, [], o, by simp, h, (hk o [] _).mpr ⟨rfl, rfl⟩⟩

/-- **A program that observes another, passes on its value and throws otherwise** ends with
that value, or with what the exception of the other is turned into. -/
theorem yields_rethrow {turns : ε → ε → Prop} {x : Throwing E R ε α}
    {g : Except ε α → Throwing E R ε α} (hok : ∀ a, g (.ok a) = pure a)
    (herror : ∀ e, ∃ e', g (.error e) = throw e' ∧ turns e e') {evs : List (Event E R)}
    {r : Except ε α} (h : Yields (observe x >>= g).run evs r) :
    (∃ a, Yields x.run evs (.ok a) ∧ r = .ok a) ∨
      ∃ e e', Yields x.run evs (.error e) ∧ turns e e' ∧ r = .error e' := by
  obtain ⟨evs₁, evs₂, o, rfl, h₁, h₂⟩ := yields_observe_bind.mp h
  cases o with
  | ok a =>
      rw [hok] at h₂
      obtain ⟨rfl, rfl⟩ := yields_pure.mp h₂
      exact Or.inl ⟨a, by simpa using h₁, rfl⟩
  | error e =>
      obtain ⟨e', he, hturns⟩ := herror e
      rw [he] at h₂
      obtain ⟨rfl, rfl⟩ := yields_throw.mp h₂
      exact Or.inr ⟨e, e', by simpa using h₁, hturns, rfl⟩

/-- Two programs that observe the same one, the second of them what `f` makes of its value. -/
theorem yields_observe_map {γ : Type} {x : Throwing E R ε α} {f : α → γ}
    {k : Except ε α → Throwing E R ε β} {k' : Except ε γ → Throwing E R ε β}
    {evs : List (Event E R)} {r : Except ε β}
    (h : ∀ o evs, Yields (k o).run evs r ↔ Yields (k' (o.map f)).run evs r) :
    Yields (observe x >>= k).run evs r ↔
      Yields (observe (x >>= fun a => pure (f a)) >>= k').run evs r := by
  rw [yields_observe_bind, yields_observe_bind]
  constructor
  · rintro ⟨evs₁, evs₂, o, rfl, h₁, h₂⟩
    exact ⟨evs₁, evs₂, o.map f, rfl, yields_bind_pure.mpr ⟨o, h₁, rfl⟩, (h o evs₂).mp h₂⟩
  · rintro ⟨evs₁, evs₂, o', rfl, h₁, h₂⟩
    obtain ⟨o, hx, rfl⟩ := yields_bind_pure.mp h₁
    exact ⟨evs₁, evs₂, o, rfl, hx, (h o evs₂).mpr h₂⟩

/-! ### Contracts of a program that throws -/

/-- `Keeps allow reply post x`: as long as the replies satisfy `reply`, every call of `x`
satisfies `allow`, and a value it ends with satisfies `post`. -/
def Keeps (allow : E → Prop) (reply : (e : E) → R e → Prop) (post : α → Prop)
    (x : Throwing E R ε α) : Prop :=
  Spec allow reply (fun r => ∀ a, r = .ok a → post a) x.run

section Keeps

variable {allow : E → Prop} {reply : (e : E) → R e → Prop} {post : α → Prop}

theorem keeps_pure {a : α} (h : post a) :
    Keeps allow reply post (pure a : Throwing E R ε α) := by
  rintro b ⟨⟩
  exact h

theorem keeps_throw {e : ε} : Keeps allow reply post (throw e : Throwing E R ε α) := by
  rintro b ⟨⟩

theorem keeps_ask {e : E} {h : R e → Except ε α} (he : allow e)
    (hpost : ∀ r a, reply e r → h r = .ok a → post a) : Keeps allow reply post (ask e h) :=
  ⟨he, fun r hr a ha => hpost r a hr ha⟩

theorem Keeps.bind {mid : α → Prop} {post : β → Prop} {x : Throwing E R ε α}
    {f : α → Throwing E R ε β} (hx : Keeps allow reply mid x)
    (hf : ∀ a, mid a → Keeps allow reply post (f a)) :
    Keeps allow reply post (x >>= f) := by
  refine Spec.bind hx ?_
  rintro (e | a) hmid
  · rintro b ⟨⟩
  · exact hf a (hmid a rfl)

theorem Keeps.observe {x : Throwing E R ε α} (hx : Keeps allow reply post x) :
    Keeps allow reply (fun r => ∀ a, r = .ok a → post a) (observe x) := by
  refine Spec.bind hx ?_
  rintro r hr r' ⟨⟩
  exact hr

theorem Keeps.mono {post' : α → Prop} (h : ∀ a, post a → post' a) {x : Throwing E R ε α}
    (hx : Keeps allow reply post x) : Keeps allow reply post' x :=
  Spec.mono (fun _ hr a ha => h a (hr a ha)) hx

/-- Every dialogue with the promised replies keeps the contract. -/
theorem Keeps.yields {x : Throwing E R ε α} (hx : Keeps allow reply post x)
    {evs : List (Event E R)} {r : Except ε α} (h : Yields x.run evs r)
    (hr : ∀ ev ∈ evs, reply ev.1 ev.2) :
    (∀ ev ∈ evs, allow ev.1) ∧ ∀ a, r = .ok a → post a :=
  Spec.steps hx (steps_of_yields h) hr

end Keeps

/-- `Only allow x`: every call of `x` satisfies `allow`, whatever it is told. -/
def Only (allow : E → Prop) (x : Throwing E R ε α) : Prop :=
  Keeps allow (fun _ _ => True) (fun _ => True) x

section Only

variable {allow : E → Prop}

theorem only_pure (a : α) : Only allow (pure a : Throwing E R ε α) := keeps_pure trivial

theorem only_throw (e : ε) : Only allow (throw e : Throwing E R ε α) := keeps_throw

theorem only_ask {e : E} {h : R e → Except ε α} (he : allow e) : Only allow (ask e h) :=
  keeps_ask he fun _ _ _ _ => trivial

theorem Only.bind {x : Throwing E R ε α} {f : α → Throwing E R ε β}
    (hx : Only allow x) (hf : ∀ a, Only allow (f a)) : Only allow (x >>= f) :=
  Keeps.bind hx fun a _ => hf a

theorem Only.observe {x : Throwing E R ε α} (hx : Only allow x) :
    Only allow (observe x) := (Keeps.observe hx).mono fun _ _ => trivial

/-- A program that makes only certain calls makes only others that include these. -/
theorem Only.mono {allow' : E → Prop} (h : ∀ e, allow e → allow' e)
    {x : Throwing E R ε α} (hx : Only allow x) : Only allow' x :=
  Spec.weaken h (fun _ _ hr => hr) (fun _ hp => hp) hx

/-- The calls of a dialogue of such a program. -/
theorem Only.mem {x : Throwing E R ε α} (hx : Only allow x) {evs : List (Event E R)}
    {r : Except ε α} (h : Yields x.run evs r) : ∀ ev ∈ evs, allow ev.1 := by
  have hsteps : Steps x.run evs (.ret r) := steps_of_yields h
  exact (Spec.steps hx hsteps fun _ _ => trivial).1

/-- A program that makes only certain calls keeps any contract that allows these. -/
theorem Only.keeps {allow' : E → Prop} {reply : (e : E) → R e → Prop}
    {x : Throwing E R ε α} (hx : Only allow x) (h : ∀ e, allow e → allow' e) :
    Keeps allow' reply (fun _ => True) x :=
  Spec.weaken (fun e he => h e he) (fun _ _ _ => trivial) (fun _ _ _ _ => trivial) hx

end Only

/-! ### What a dialogue that ends with a value has left behind -/

/-- `Ends reply post x`: a dialogue of `x` that ends with a value, its replies all
satisfying `reply`, satisfies `post` of the value and the exchanges. -/
def Ends (reply : (e : E) → R e → Prop) (post : α → List (Event E R) → Prop)
    (x : Throwing E R ε α) : Prop :=
  ∀ evs a, Yields x.run evs (.ok a) → (∀ ev ∈ evs, reply ev.1 ev.2) → post a evs

section Ends

variable {reply : (e : E) → R e → Prop} {post : α → List (Event E R) → Prop}

theorem ends_pure {a : α} (h : post a []) :
    Ends reply post (pure a : Throwing E R ε α) := by
  intro evs b hy _
  obtain ⟨rfl, hb⟩ := yields_pure.mp hy
  obtain rfl : b = a := Except.ok.inj hb
  exact h

theorem ends_throw {e : ε} : Ends reply post (throw e : Throwing E R ε α) := by
  intro evs a hy _
  obtain ⟨-, h⟩ := yields_throw.mp hy
  cases h

theorem ends_ask {e : E} {h : R e → Except ε α}
    (hpost : ∀ r a, reply e r → h r = .ok a → post a [⟨e, r⟩]) :
    Ends reply post (ask e h) := by
  intro evs a hy hr
  obtain ⟨r, rfl, heq⟩ := yields_ask.mp hy
  exact hpost r a (hr ⟨e, r⟩ (by simp)) heq.symm

/-- **The sequencing rule**: the exchanges of the second part follow those of the first. -/
theorem Ends.bind {mid : α → List (Event E R) → Prop} {post : β → List (Event E R) → Prop}
    {x : Throwing E R ε α} {f : α → Throwing E R ε β} (hx : Ends reply mid x)
    (hf : ∀ a evs₁, mid a evs₁ → Ends reply (fun b evs₂ => post b (evs₁ ++ evs₂)) (f a)) :
    Ends reply post (x >>= f) := by
  intro evs b hy hr
  rcases yields_bind.mp hy with ⟨evs₁, evs₂, a, rfl, h₁, h₂⟩ | ⟨e, -, heq⟩
  · have hmid : mid a evs₁ := hx evs₁ a h₁ fun ev hev => hr ev (List.mem_append_left _ hev)
    exact hf a evs₁ hmid evs₂ b h₂ fun ev hev => hr ev (List.mem_append_right _ hev)
  · cases heq

/-- An observed program has left what the program leaves, if it ended with a value. -/
theorem Ends.observe {x : Throwing E R ε α} (hx : Ends reply post x) :
    Ends reply (fun r evs => ∀ a, r = .ok a → post a evs) (observe x) := by
  intro evs r hy hr a ha
  obtain ⟨r', heq, hy'⟩ := yields_observe.mp hy
  obtain rfl : r = r' := Except.ok.inj heq
  exact hx evs a (ha ▸ hy') hr

/-- What a program leaves behind may be put into a contract with its calls. -/
theorem Only.keeps_of_ends {allow : E → Prop} {x : Throwing E R ε α} {post : α → Prop}
    (hx : Only allow x) (hends : Ends reply (fun a _ => post a) x) : Keeps allow reply post x := by
  have hspec : Spec allow (fun _ _ => True) (fun _ => True) x.run :=
    Spec.mono (fun _ _ => trivial) hx
  refine Spec.of_yields hspec ?_
  rintro evs r hy hevs a rfl
  exact hends evs a hy hevs

end Ends

/-! ### Programs that end with a value -/

/-- `Returns reply post x`: as long as the replies satisfy `reply`, `x` ends with a value,
and the value satisfies `post`. -/
def Returns (reply : (e : E) → R e → Prop) (post : α → Prop) (x : Throwing E R ε α) : Prop :=
  Spec (fun _ => True) reply (fun r => ∃ a, r = .ok a ∧ post a) x.run

section Returns

variable {reply : (e : E) → R e → Prop} {post : α → Prop}

theorem returns_pure {a : α} (h : post a) :
    Returns reply post (pure a : Throwing E R ε α) := ⟨a, rfl, h⟩

theorem returns_ask {e : E} {h : R e → Except ε α}
    (hpost : ∀ r, reply e r → ∃ a, h r = .ok a ∧ post a) : Returns reply post (ask e h) :=
  ⟨trivial, hpost⟩

theorem Returns.bind {mid : α → Prop} {post : β → Prop} {x : Throwing E R ε α}
    {f : α → Throwing E R ε β} (hx : Returns reply mid x)
    (hf : ∀ a, mid a → Returns reply post (f a)) : Returns reply post (x >>= f) := by
  refine Spec.bind hx ?_
  rintro r ⟨a, rfl, hmid⟩
  exact hf a hmid

/-- An observed program that ends with a value hands it over. -/
theorem Returns.observe {x : Throwing E R ε α} (hx : Returns reply post x) :
    Returns reply (fun r => ∃ a, r = .ok a ∧ post a) (observe x) := by
  refine Spec.bind hx ?_
  intro r hr
  exact ⟨r, rfl, hr⟩

/-- Every dialogue with the promised replies ends with a value. -/
theorem Returns.yields {x : Throwing E R ε α} (hx : Returns reply post x)
    {evs : List (Event E R)} {r : Except ε α} (h : Yields x.run evs r)
    (hr : ∀ ev ∈ evs, reply ev.1 ev.2) : ∃ a, r = .ok a ∧ post a :=
  (Spec.steps hx (steps_of_yields h) hr).2

/-- There is such a dialogue, if there is a promised reply to every call. -/
theorem Returns.exists_yields {x : Throwing E R ε α} (hx : Returns reply post x)
    (hreply : ∀ e, ∃ r, reply e r) :
    ∃ evs a, Yields x.run evs (.ok a) ∧ (∀ ev ∈ evs, reply ev.1 ev.2) ∧ post a := by
  obtain ⟨evs, r, hy, hevs⟩ := exists_yields_reply hreply x.run
  obtain ⟨a, rfl, hpost⟩ := hx.yields hy hevs
  exact ⟨evs, a, hy, hevs, hpost⟩

end Returns

/-! ### Which exchanges a program survives -/

/-- `EndsIff fine x`: a dialogue of `x` ends with a value exactly if all its exchanges are
`fine`. -/
def EndsIff (fine : Event E R → Prop) (x : Throwing E R ε α) : Prop :=
  ∀ evs r, Yields x.run evs r → ((∃ a, r = .ok a) ↔ ∀ ev ∈ evs, fine ev)

section EndsIff

variable {fine : Event E R → Prop}

theorem endsIff_pure (a : α) : EndsIff fine (pure a : Throwing E R ε α) := by
  intro evs r hy
  obtain ⟨rfl, rfl⟩ := yields_pure.mp hy
  simp

theorem endsIff_ask {e : E} {h : R e → Except ε α}
    (hfine : ∀ r, (∃ a, h r = .ok a) ↔ fine ⟨e, r⟩) : EndsIff fine (ask e h) := by
  intro evs r hy
  obtain ⟨reply, rfl, rfl⟩ := yields_ask.mp hy
  rw [hfine reply]
  simp

/-- **The sequencing rule**: the second part is reached if the first survives. -/
theorem EndsIff.bind {x : Throwing E R ε α} {f : α → Throwing E R ε β} (hx : EndsIff fine x)
    (hf : ∀ a, EndsIff fine (f a)) : EndsIff fine (x >>= f) := by
  intro evs r hy
  rcases yields_bind.mp hy with ⟨evs₁, evs₂, a, rfl, h₁, h₂⟩ | ⟨e, h₁, rfl⟩
  · have hfirst : ∀ ev ∈ evs₁, fine ev := (hx evs₁ _ h₁).mp ⟨a, rfl⟩
    rw [hf a evs₂ r h₂, List.forall_mem_append]
    exact ⟨fun h => ⟨hfirst, h⟩, fun h => h.2⟩
  · rw [← hx evs _ h₁]
    simp

end EndsIff

/-! ### Where the exceptions of a program come from -/

/-- `Relays raised becomes x`: if a dialogue of `x` ends with a value, none of its calls has
raised an exception; if it ends with an exception, this is one that the first exception raised
by a call `becomes`, or one of the program's own. -/
structure Relays (raised : Event E R → Option ε) (becomes : Option ε → ε → Prop)
    (x : Throwing E R ε α) : Prop where
  returned : ∀ evs a, Yields x.run evs (.ok a) → evs.findSome? raised = none
  threw : ∀ evs exc, Yields x.run evs (.error exc) → becomes (evs.findSome? raised) exc

section Relays

variable {raised : Event E R → Option ε} {becomes becomes' : Option ε → ε → Prop}

theorem relays_pure (a : α) : Relays raised becomes (pure a : Throwing E R ε α) where
  returned evs b hy := by
    obtain ⟨rfl, -⟩ := yields_pure.mp hy
    rfl
  threw evs exc hy := by
    obtain ⟨-, heq⟩ := yields_pure.mp hy
    cases heq

theorem relays_throw {e : ε} (h : becomes none e) :
    Relays raised becomes (throw e : Throwing E R ε α) where
  returned evs b hy := by
    obtain ⟨-, heq⟩ := yields_throw.mp hy
    cases heq
  threw evs exc hy := by
    obtain ⟨rfl, heq⟩ := yields_throw.mp hy
    obtain rfl := Except.error.inj heq
    exact h

theorem relays_ask {e : E} {h : R e → Except ε α}
    (hok : ∀ r a, h r = .ok a → raised ⟨e, r⟩ = none)
    (herror : ∀ r exc, h r = .error exc → becomes (raised ⟨e, r⟩) exc) :
    Relays raised becomes (ask e h) where
  returned evs a hy := by
    obtain ⟨r, rfl, hr⟩ := yields_ask.mp hy
    simpa using hok r a hr.symm
  threw evs exc hy := by
    obtain ⟨r, rfl, hr⟩ := yields_ask.mp hy
    have hbecomes := herror r exc hr.symm
    cases hraised : raised ⟨e, r⟩ <;> simpa [hraised] using hbecomes

/-- **The sequencing rule**: the second part is reached if nothing has been raised. -/
theorem Relays.bind {x : Throwing E R ε α} {f : α → Throwing E R ε β}
    (hx : Relays raised becomes x) (hf : ∀ a, Relays raised becomes (f a)) :
    Relays raised becomes (x >>= f) where
  returned evs b hy := by
    rcases yields_bind.mp hy with ⟨evs₁, evs₂, a, rfl, h₁, h₂⟩ | ⟨exc, -, heq⟩
    · rw [List.findSome?_append, hx.returned _ _ h₁, (hf a).returned _ _ h₂]
      rfl
    · cases heq
  threw evs exc hy := by
    rcases yields_bind.mp hy with ⟨evs₁, evs₂, a, rfl, h₁, h₂⟩ | ⟨exc', h, heq⟩
    · rw [List.findSome?_append, hx.returned _ _ h₁]
      exact (hf a).threw _ _ h₂
    · obtain rfl := Except.error.inj heq
      exact hx.threw _ _ h

/-- A program that observes another, passes on its value and throws what its exception is
turned into. -/
theorem Relays.rethrow {x : Throwing E R ε α} {g : Except ε α → Throwing E R ε α}
    (hx : Relays raised becomes x) (hok : ∀ a, g (.ok a) = pure a)
    (herror : ∀ e, ∃ e', g (.error e) = throw e' ∧ ∀ o, becomes o e → becomes' o e') :
    Relays raised becomes' (observe x >>= g) where
  returned evs b hy := by
    rcases yields_rethrow hok herror hy with ⟨a, h, -⟩ | ⟨e, e', -, -, heq⟩
    · exact hx.returned _ _ h
    · cases heq
  threw evs exc hy := by
    rcases yields_rethrow hok herror hy with ⟨a, -, heq⟩ | ⟨e, e', h, hbecomes, heq⟩
    · cases heq
    · obtain rfl := Except.error.inj heq
      exact hbecomes _ (hx.threw _ _ h)

theorem Relays.mono (h : ∀ o e, becomes o e → becomes' o e) {x : Throwing E R ε α}
    (hx : Relays raised becomes x) : Relays raised becomes' x where
  returned := hx.returned
  threw evs exc hy := h _ _ (hx.threw evs exc hy)

end Relays

/-! ### Where a program stops -/

/-- `Halts failed x`: an exchange that has failed is the last one of a dialogue of `x`, which
then ends with an exception. -/
def Halts (failed : Event E R → Prop) (x : Throwing E R ε α) : Prop :=
  ∀ evs r, Yields x.run evs r → ∀ before ev after, evs = before ++ ev :: after → failed ev →
    after = [] ∧ ∃ e, r = .error e

section Halts

variable {failed : Event E R → Prop}

theorem halts_pure (a : α) : Halts failed (pure a : Throwing E R ε α) := by
  intro evs r hy before ev after hevs _
  obtain ⟨rfl, -⟩ := yields_pure.mp hy
  simp at hevs

theorem halts_throw (e : ε) : Halts failed (throw e : Throwing E R ε α) := by
  intro evs r hy before ev after hevs _
  obtain ⟨rfl, -⟩ := yields_throw.mp hy
  simp at hevs

theorem halts_ask {e : E} {h : R e → Except ε α}
    (hfailed : ∀ r, failed ⟨e, r⟩ → ∃ exc, h r = .error exc) : Halts failed (ask e h) := by
  intro evs r hy before ev after hevs hev
  obtain ⟨reply, rfl, rfl⟩ := yields_ask.mp hy
  obtain ⟨rfl, rfl, rfl⟩ : before = [] ∧ ev = ⟨e, reply⟩ ∧ after = [] := by
    cases before <;> simp_all
  exact ⟨rfl, hfailed reply hev⟩

/-- **The sequencing rule**: the second part is not reached after a failed exchange. -/
theorem Halts.bind {x : Throwing E R ε α} {f : α → Throwing E R ε β} (hx : Halts failed x)
    (hf : ∀ a, Halts failed (f a)) : Halts failed (x >>= f) := by
  intro evs r hy before ev after hevs hev
  rcases yields_bind.mp hy with ⟨evs₁, evs₂, a, rfl, h₁, h₂⟩ | ⟨e, h₁, rfl⟩
  · rcases List.append_eq_append_iff.mp hevs with ⟨rest, rfl, hrest⟩ | ⟨rest, rfl, hrest⟩
    · exact hf a _ _ h₂ rest ev after hrest hev
    · cases rest with
      | nil => exact hf a _ _ h₂ [] ev after (by simpa using hrest.symm) hev
      | cons ev' rest =>
          obtain ⟨rfl, -⟩ := List.cons.inj hrest
          obtain ⟨-, e, heq⟩ := hx _ _ h₁ before ev rest rfl hev
          cases heq
  · obtain ⟨hafter, -⟩ := hx _ _ h₁ before ev after hevs hev
    exact ⟨hafter, e, rfl⟩

/-- A program that observes another, passes on its value and throws otherwise stops where the
other does. -/
theorem Halts.rethrow {x : Throwing E R ε α} {g : Except ε α → Throwing E R ε α}
    (hx : Halts failed x) (hok : ∀ a, g (.ok a) = pure a)
    (herror : ∀ e, ∃ e', g (.error e) = throw e') : Halts failed (observe x >>= g) := by
  intro evs r hy before ev after hevs hev
  have hturns : ∀ e, ∃ e', g (.error e) = throw e' ∧ True := by simpa using herror
  rcases yields_rethrow hok hturns hy with ⟨a, h, -⟩ | ⟨e, e', h, -, rfl⟩
  · obtain ⟨-, e, heq⟩ := hx _ _ h before ev after hevs hev
    cases heq
  · obtain ⟨hafter, -⟩ := hx _ _ h before ev after hevs hev
    exact ⟨hafter, e', rfl⟩

/-- The exchange that has failed is the only one: one before it would have been the last. -/
theorem Halts.split {x : Throwing E R ε α} (hx : Halts failed x) {before after : List (Event E R)}
    {ev : Event E R} {r : Except ε α} (hy : Yields x.run (before ++ ev :: after) r)
    (hev : failed ev) : after = [] ∧ (∃ e, r = .error e) ∧ ∀ ev' ∈ before, ¬ failed ev' := by
  obtain ⟨hafter, hr⟩ := hx _ r hy before ev after rfl hev
  refine ⟨hafter, hr, fun ev' hev' hfailed => ?_⟩
  obtain ⟨l, l', rfl⟩ := List.append_of_mem hev'
  obtain ⟨hnil, -⟩ := hx _ r hy l ev' (l' ++ ev :: after) (by simp) hfailed
  simp at hnil

end Halts

/-! ### What a program says, up to where it stops -/

/-- `Emits sel reply out post x`: of the exchanges of any dialogue of `x`, its replies all
satisfying `reply`, those that `sel` selects are an initial segment of `out`; all of `out`
if `x` ends with a value, which then satisfies `post`. -/
def Emits {γ : Type} (sel : Event E R → Option γ) (reply : (e : E) → R e → Prop)
    (out : List γ) (post : α → Prop) (x : Throwing E R ε α) : Prop :=
  ∀ evs r, Yields x.run evs r → (∀ ev ∈ evs, reply ev.1 ev.2) →
    evs.filterMap sel <+: out ∧ ∀ a, r = .ok a → evs.filterMap sel = out ∧ post a

section Emits

variable {γ : Type} {sel : Event E R → Option γ} {reply : (e : E) → R e → Prop}
  {out out₁ out₂ : List γ} {post : α → Prop}

theorem emits_pure {a : α} (h : post a) :
    Emits sel reply [] post (pure a : Throwing E R ε α) := by
  intro evs r hy _
  obtain ⟨rfl, rfl⟩ := yields_pure.mp hy
  refine ⟨List.prefix_rfl, fun b hb => ?_⟩
  obtain rfl : a = b := Except.ok.inj hb
  exact ⟨rfl, h⟩

theorem emits_throw {e : ε} : Emits sel reply out post (throw e : Throwing E R ε α) := by
  intro evs r hy _
  obtain ⟨rfl, rfl⟩ := yields_throw.mp hy
  exact ⟨List.nil_prefix, fun a ha => by cases ha⟩

theorem emits_ask {e : E} {h : R e → Except ε α} (hsel : ∀ r, (sel ⟨e, r⟩).toList = out)
    (hpost : ∀ r a, reply e r → h r = .ok a → post a) :
    Emits sel reply out post (ask e h) := by
  intro evs r hy hr
  obtain ⟨x, rfl, rfl⟩ := yields_ask.mp hy
  have hout : [(⟨e, x⟩ : Event E R)].filterMap sel = out := by
    rw [← hsel x]
    cases hs : sel ⟨e, x⟩ <;> simp [hs]
  rw [hout]
  exact ⟨List.prefix_rfl, fun a ha => ⟨rfl, hpost x a (hr ⟨e, x⟩ (by simp)) ha⟩⟩

/-- **The sequencing rule**: what the second part says follows. -/
theorem Emits.bind {mid : α → Prop} {post : β → Prop} {x : Throwing E R ε α}
    {f : α → Throwing E R ε β} (hx : Emits sel reply out₁ mid x)
    (hf : ∀ a, mid a → Emits sel reply out₂ post (f a)) :
    Emits sel reply (out₁ ++ out₂) post (x >>= f) := by
  intro evs r hy hr
  rcases yields_bind.mp hy with ⟨evs₁, evs₂, a, rfl, h₁, h₂⟩ | ⟨e, h₁, rfl⟩
  · obtain ⟨-, hdone⟩ := hx evs₁ _ h₁ fun ev hev => hr ev (List.mem_append_left _ hev)
    obtain ⟨heq, hmid⟩ := hdone a rfl
    obtain ⟨hpre, hdone⟩ := hf a hmid evs₂ r h₂ fun ev hev =>
      hr ev (List.mem_append_right _ hev)
    rw [List.filterMap_append, heq]
    refine ⟨(List.prefix_append_right_inj _).mpr hpre, fun b hb => ?_⟩
    obtain ⟨heq', hpost⟩ := hdone b hb
    exact ⟨by rw [heq'], hpost⟩
  · obtain ⟨hpre, -⟩ := hx evs _ h₁ hr
    exact ⟨hpre.trans (List.prefix_append _ _), fun b hb => by cases hb⟩

/-- After a program that never ends with a value nothing is said. -/
theorem Emits.bind_never {post : β → Prop} {x : Throwing E R ε α}
    {f : α → Throwing E R ε β} (hx : Emits sel reply out (fun _ => False) x) :
    Emits sel reply out post (x >>= f) := by
  have hf (a : α) (hfalse : False) : Emits sel reply [] post (f a) := hfalse.elim
  have h := hx.bind hf
  rwa [List.append_nil] at h

/-- A program that observes another, passes on its value and throws otherwise says what
the other says. -/
theorem Emits.rethrow {x : Throwing E R ε α} {g : Except ε α → Throwing E R ε α}
    (hx : Emits sel reply out post x) (hok : ∀ a, g (.ok a) = pure a)
    (herror : ∀ e, ∃ e', g (.error e) = throw e') :
    Emits sel reply out post (observe x >>= g) := by
  intro evs r hy hr
  have hturns : ∀ e, ∃ e', g (.error e) = throw e' ∧ True := by simpa using herror
  rcases yields_rethrow hok hturns hy with ⟨a, h, rfl⟩ | ⟨e, e', h, -, rfl⟩
  · exact hx evs _ h hr
  · exact ⟨(hx evs _ h hr).1, fun a ha => by cases ha⟩

end Emits

/-! ### One program for each item of a list -/

/-- `Each perform items segs as failure`: the programs of the items one after the other, up to
the first that throws. Each has conducted the dialogue `segs` lists for it; `as` are the
values they ended with, `failure` the exception of the last one, if it threw. -/
inductive Each {ι : Type} (perform : ι → Throwing E R ε α) :
    List ι → List (List (Event E R)) → List α → Option ε → Prop where
  | nil : Each perform [] [] [] none
  | cons {i : ι} {is : List ι} {seg : List (Event E R)} {segs : List (List (Event E R))} {a : α}
      {as : List α} {failure : Option ε} :
      Yields (perform i).run seg (.ok a) → Each perform is segs as failure →
      Each perform (i :: is) (seg :: segs) (a :: as) failure
  | fail {i : ι} {is : List ι} {seg : List (Event E R)} {exc : ε} :
      Yields (perform i).run seg (.error exc) → Each perform (i :: is) [seg] [] (some exc)

section Each

variable {ι : Type} {perform : ι → Throwing E R ε α} {is is' : List ι}
  {segs segs' : List (List (Event E R))} {as as' : List α} {failure : Option ε}

/-- Further items follow if none has thrown. -/
theorem Each.append (h : Each perform is segs as none) (h' : Each perform is' segs' as' failure) :
    Each perform (is ++ is') (segs ++ segs') (as ++ as') failure := by
  generalize hnone : (none : Option ε) = o at h
  induction h with
  | nil => exact h'
  | cons hi _ ih => exact Each.cons hi (ih hnone)
  | fail _ => cases hnone

/-- Every dialogue listed is one of the item at its place; if it has a value listed, it did
not throw. -/
theorem Each.yields (h : Each perform is segs as failure) {k : ℕ} {i : ι}
    {seg : List (Event E R)} (hi : is[k]? = some i) (hseg : segs[k]? = some seg) :
    ∃ r, Yields (perform i).run seg r ∧ (k < as.length → ∃ a, r = .ok a) := by
  induction h generalizing k with
  | nil => simp at hi
  | @cons _ _ _ _ a _ _ hy _ ih =>
      cases k with
      | zero =>
          obtain rfl := Option.some.inj hi
          obtain rfl := Option.some.inj hseg
          exact ⟨_, hy, fun _ => ⟨a, rfl⟩⟩
      | succ k =>
          obtain ⟨r, hy', hr⟩ := ih (by simpa using hi) (by simpa using hseg)
          exact ⟨r, hy', fun hlt => hr (by simpa using hlt)⟩
  | fail hy =>
      cases k with
      | zero =>
          obtain rfl := Option.some.inj hi
          obtain rfl := Option.some.inj hseg
          exact ⟨_, hy, by simp⟩
      | succ k => simp at hseg

/-- All items tried but the last have ended with a value. -/
theorem Each.length_le (h : Each perform is segs as failure) : segs.length ≤ as.length + 1 := by
  induction h with
  | nil => simp
  | cons _ _ ih => simpa using ih
  | fail _ => simp

/-- If no item has thrown, every item has a dialogue that ended with its value. -/
theorem Each.forall₂ (h : Each perform is segs as none) :
    List.Forall₂ (fun i a => ∃ seg ∈ segs, Yields (perform i).run seg (.ok a)) is as := by
  generalize hnone : (none : Option ε) = o at h
  induction h with
  | nil => exact List.Forall₂.nil
  | cons hi _ ih =>
      refine List.Forall₂.cons ⟨_, List.mem_cons_self, hi⟩ ((ih hnone).imp ?_)
      rintro i a ⟨seg, hseg, hy⟩
      exact ⟨seg, List.mem_cons_of_mem _ hseg, hy⟩
  | fail _ => cases hnone

/-- If no item has thrown, the dialogue at the place of an item ended with its value. -/
theorem Each.get (h : Each perform is segs as none) {k : ℕ} {i : ι} (hi : is[k]? = some i) :
    ∃ seg a, segs[k]? = some seg ∧ as[k]? = some a ∧ Yields (perform i).run seg (.ok a) := by
  generalize hnone : (none : Option ε) = o at h
  induction h generalizing k with
  | nil => simp at hi
  | cons hy _ ih =>
      cases k with
      | zero =>
          obtain rfl := Option.some.inj hi
          exact ⟨_, _, rfl, rfl, hy⟩
      | succ k => exact ih (by simpa using hi) hnone
  | fail _ => cases hnone

/-- The exchanges made are those of programs of the items. -/
theorem Each.forall_mem {P : Event E R → Prop} (h : Each perform is segs as failure)
    (hP : ∀ i ∈ is, ∀ seg r, Yields (perform i).run seg r → ∀ ev ∈ seg, P ev) :
    ∀ ev ∈ segs.flatten, P ev := by
  induction h with
  | nil => simp
  | cons hi _ ih =>
      intro ev hev
      rw [List.flatten_cons] at hev
      rcases List.mem_append.mp hev with hev | hev
      · exact hP _ List.mem_cons_self _ _ hi ev hev
      · exact ih (fun i hmem => hP i (List.mem_cons_of_mem _ hmem)) ev hev
  | fail hi =>
      intro ev hev
      exact hP _ List.mem_cons_self _ _ hi ev (by simpa using hev)

end Each

end Throwing

end Dialogue
