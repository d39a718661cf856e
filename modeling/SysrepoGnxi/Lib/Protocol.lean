import SysrepoGnxi.Lib.Dialogue

/-!
# Programs that Keep to a Protocol

A **protocol** is an automaton over the exchanges of a program with its environment: in
every state it says which exchange may come next, and the state after it. `Obeys P q post x`
says that `x`, started in the state `q`, never makes an exchange that `P` does not allow,
whatever it is told, and that how it ends and the state reached then satisfy `post`.

The rules follow the operations of a program (`obeys_pure`, `obeys_ask`, `Obeys.bind`,
`Obeys.observe`); a part whose exchanges leave a state as it is needs only `Keeps.stays`. What
they establish holds of every dialogue, finished or not (`Follows.steps`), and of every program
of a pool (`Pool.follows`). From the automaton to what it says about a list of exchanges leads
one induction (`Protocol.advance_induction`).

Where no finite state tells whether an exchange may come, `Safe` says it of the exchanges
before, with rules of the same shape.
-/

namespace Dialogue

variable {E : Type} {R : E → Type} {α β σ Q : Type}

/-- A protocol with states `Q`: the state after an exchange, `none` where that is not
allowed. -/
abbrev Protocol (E : Type) (R : E → Type) (Q : Type) : Type := Q → Event E R → Option Q

/-- The state after a list of exchanges, if all of them are allowed. -/
def Protocol.advance (P : Protocol E R Q) : Q → List (Event E R) → Option Q
  | q, [] => some q
  | q, ev :: evs => (P q ev).bind fun q' => P.advance q' evs

namespace Protocol

variable {P : Protocol E R Q}

@[simp] theorem advance_nil (q : Q) : P.advance q [] = some q := rfl

theorem advance_cons (q : Q) (ev : Event E R) (evs : List (Event E R)) :
    P.advance q (ev :: evs) = (P q ev).bind fun q' => P.advance q' evs := rfl

theorem advance_append (q : Q) (evs₁ evs₂ : List (Event E R)) :
    P.advance q (evs₁ ++ evs₂) = (P.advance q evs₁).bind fun q' => P.advance q' evs₂ := by
  induction evs₁ generalizing q with
  | nil => rfl
  | cons ev evs₁ ih =>
      rw [List.cons_append, advance_cons, advance_cons, Option.bind_assoc]
      exact Option.bind_congr fun q' _ => ih q'

/-- The state before the last exchange, which it allows. -/
theorem advance_concat {q q' : Q} {evs : List (Event E R)} {ev : Event E R} :
    P.advance q (evs ++ [ev]) = some q' ↔ ∃ q₁, P.advance q evs = some q₁ ∧ P q₁ ev = some q' := by
  rw [advance_append, Option.bind_eq_some_iff]
  simp [advance_cons]

/-- The states around an exchange in the middle. -/
theorem advance_middle {q q' : Q} {evs₁ evs₂ : List (Event E R)} {ev : Event E R}
    (h : P.advance q (evs₁ ++ ev :: evs₂) = some q') :
    ∃ q₁ q₂, P.advance q evs₁ = some q₁ ∧ P q₁ ev = some q₂ ∧ P.advance q₂ evs₂ = some q' := by
  rw [advance_append] at h
  obtain ⟨q₁, h₁, hrest⟩ := Option.bind_eq_some_iff.mp h
  obtain ⟨q₂, h₂, hrest⟩ := Option.bind_eq_some_iff.mp hrest
  exact ⟨q₁, q₂, h₁, h₂, hrest⟩

/-- **From a protocol to the exchanges it allows**: what holds of none in the first state,
and is kept by every allowed exchange, holds of all allowed exchanges in the state they lead
to. -/
theorem advance_induction {q₀ : Q} {I : Q → List (Event E R) → Prop} (h₀ : I q₀ [])
    (hstep : ∀ q evs ev q', I q evs → P q ev = some q' → I q' (evs ++ [ev])) {q : Q}
    {evs : List (Event E R)} (h : P.advance q₀ evs = some q) : I q evs := by
  induction evs using List.reverseRecOn generalizing q with
  | nil =>
      obtain rfl := Option.some.inj h
      exact h₀
  | append_singleton evs ev ih =>
      obtain ⟨q₁, hpre, hev⟩ := advance_concat.mp h
      exact hstep q₁ evs ev q (ih hpre) hev

end Protocol

/-- `Follows P post p q`: from the state `q` on every exchange of `p` is allowed, and the
value it ends with and the state reached satisfy `post`. -/
def Follows (P : Protocol E R Q) (post : α → Q → Prop) : Prog E R α → Q → Prop
  | .ret a, q => post a q
  | .call e k, q => ∀ r, ∃ q', P q ⟨e, r⟩ = some q' ∧ Follows P post (k r) q'

section Follows

variable {P : Protocol E R Q}

/-- A weaker promise. -/
theorem Follows.mono {post post' : α → Q → Prop} {p : Prog E R α} {q : Q}
    (hpost : ∀ a q', post a q' → post' a q') (h : Follows P post p q) : Follows P post' p q := by
  induction p generalizing q with
  | ret a => exact hpost a q h
  | call e k ih =>
      intro r
      obtain ⟨q', hq', hk⟩ := h r
      exact ⟨q', hq', ih r hk⟩

/-- **The sequencing rule** for protocols. -/
theorem Follows.bind {mid : α → Q → Prop} {post : β → Q → Prop} {p : Prog E R α}
    {f : α → Prog E R β} {q : Q} (hp : Follows P mid p q)
    (hf : ∀ a q', mid a q' → Follows P post (f a) q') : Follows P post (p.bind f) q := by
  induction p generalizing q with
  | ret a => exact hf a q hp
  | call e k ih =>
      intro r
      obtain ⟨q', hq', hk⟩ := hp r
      exact ⟨q', hq', ih r hk⟩

/-- **A protocol is kept along every partial dialogue**: its exchanges are allowed, and what
is left of the program keeps to the protocol from the state they lead to. -/
theorem Follows.steps {post : α → Q → Prop} {p p' : Prog E R α} {evs : List (Event E R)} {q : Q}
    (hp : Follows P post p q) (h : Steps p evs p') :
    ∃ q', P.advance q evs = some q' ∧ Follows P post p' q' := by
  induction h generalizing q with
  | nil p => exact ⟨q, rfl, hp⟩
  | call _ ih =>
      obtain ⟨q₁, hq₁, hk⟩ := hp _
      obtain ⟨q', hq', hrest⟩ := ih hk
      exact ⟨q', by rw [Protocol.advance_cons, hq₁]; exact hq', hrest⟩

/-- **Every program of a pool keeps to its protocol**, whatever the others do. -/
theorem Pool.follows {post : α → Q → Prop} (serve : σ → (e : E) → R e × σ)
    (procs : ℕ → Prog E R α) (s : σ) (sched : List ℕ) {i : ℕ} {q : Q}
    (h : Follows P post (procs i) q) :
    ∃ q', P.advance q (own i (Pool.runs serve (Pool.start procs s) sched).log) = some q' ∧
      Follows P post ((Pool.runs serve (Pool.start procs s) sched).procs i) q' :=
  h.steps (Pool.steps serve procs s sched i)

end Follows

/-! ### Exchanges allowed by the past -/

/-- `Safe allow p past`: every exchange of `p` is allowed after `past` and the exchanges before
it. -/
def Safe (allow : List (Event E R) → Event E R → Prop) : Prog E R α → List (Event E R) → Prop
  | .ret _, _ => True
  | .call e k, past => ∀ r, allow past ⟨e, r⟩ ∧ Safe allow (k r) (past ++ [⟨e, r⟩])

section Safe

variable {allow : List (Event E R) → Event E R → Prop}

/-- **The sequencing rule**: the second part comes after a dialogue of the first. -/
theorem Safe.bind {p : Prog E R α} {f : α → Prog E R β} {past : List (Event E R)}
    (hp : Safe allow p past)
    (hf : ∀ evs a, Yields p evs a → Safe allow (f a) (past ++ evs)) :
    Safe allow (p.bind f) past := by
  induction p generalizing past with
  | ret a =>
      have h := hf [] a (Yields.ret a)
      rwa [List.append_nil] at h
  | call e k ih =>
      intro r
      refine ⟨(hp r).1, ih r (hp r).2 fun evs a hy => ?_⟩
      simpa using hf (⟨e, r⟩ :: evs) a (Yields.call hy)

/-- **Every exchange of a partial dialogue is allowed** after those before it. -/
theorem Safe.steps {p p' : Prog E R α} {past evs₁ evs₂ : List (Event E R)} {ev : Event E R}
    (hp : Safe allow p past) (h : Steps p (evs₁ ++ ev :: evs₂) p') : allow (past ++ evs₁) ev := by
  induction evs₁ generalizing p past with
  | nil =>
      cases h with
      | call => simpa using (hp _).1
  | cons ev₁ evs₁ ih =>
      cases h with
      | call h => simpa using ih (hp _).2 h

end Safe

namespace Throwing

variable {ε : Type}

/-- `Obeys P q post x`: from the state `q` on every exchange of `x` is allowed, and how it
ends, with a value or an exception, and the state reached satisfy `post`. -/
def Obeys (P : Protocol E R Q) (q : Q) (post : Except ε α → Q → Prop)
    (x : Throwing E R ε α) : Prop :=
  Follows P post x.run q

section Obeys

variable {P : Protocol E R Q} {q : Q} {post : Except ε α → Q → Prop}

theorem obeys_pure {a : α} (h : post (.ok a) q) :
    Obeys P q post (pure a : Throwing E R ε α) := h

theorem obeys_throw {e : ε} (h : post (.error e) q) :
    Obeys P q post (throw e : Throwing E R ε α) := h

theorem obeys_ask {e : E} {h : R e → Except ε α}
    (hall : ∀ r, ∃ q', P q ⟨e, r⟩ = some q' ∧ post (h r) q') : Obeys P q post (ask e h) := hall

theorem Obeys.bind {m : Except ε α → Q → Prop} {post : Except ε β → Q → Prop}
    {x : Throwing E R ε α} {f : α → Throwing E R ε β} (hx : Obeys P q m x)
    (hf : ∀ a q', m (.ok a) q' → Obeys P q' post (f a))
    (herror : ∀ e q', m (.error e) q' → post (.error e) q') : Obeys P q post (x >>= f) := by
  refine Follows.bind hx ?_
  rintro (e | a) q' hm
  · exact herror e q' hm
  · exact hf a q' hm

theorem Obeys.observe {post : Except ε (Except ε α) → Q → Prop} {x : Throwing E R ε α}
    (hx : Obeys P q (fun r q' => post (.ok r) q') x) : Obeys P q post (observe x) :=
  Follows.bind hx fun _ _ hr => hr

/-- **A part that leaves the state alone**: calls that a contract allows, after each of which
the state is the same. -/
theorem Keeps.stays {allow : E → Prop} {promise : α → Prop} {x : Throwing E R ε α}
    (hx : Keeps allow (fun _ _ => True) promise x)
    (hstay : ∀ e r, allow e → P q ⟨e, r⟩ = some q) :
    Obeys P q (fun r q' => q' = q ∧ ∀ a, r = .ok a → promise a) x := by
  change Spec allow (fun _ _ => True) _ x.run at hx
  change Follows P _ x.run q
  generalize x.run = p at hx
  induction p with
  | ret r => exact ⟨rfl, hx⟩
  | call e k ih => exact fun r => ⟨q, hstay e r hx.1, ih r (hx.2 r trivial)⟩

end Obeys

/-! ### Exchanges allowed by the past -/

section Safe

variable {allow : List (Event E R) → Event E R → Prop} {past : List (Event E R)}

theorem safe_pure (a : α) : Safe allow (pure a : Throwing E R ε α).run past := trivial

theorem safe_ask {e : E} {h : R e → Except ε α} (hall : ∀ r, allow past ⟨e, r⟩) :
    Safe allow (ask e h).run past := fun r => ⟨hall r, trivial⟩

theorem safe_bind {x : Throwing E R ε α} {f : α → Throwing E R ε β}
    (hx : Safe allow x.run past)
    (hf : ∀ evs a, Yields x.run evs (.ok a) → Safe allow (f a).run (past ++ evs)) :
    Safe allow (x >>= f).run past := by
  refine Safe.bind hx ?_
  rintro evs (e | a) hy
  · exact trivial
  · exact hf evs a hy

/-- Calls that are always allowed. -/
theorem Only.safe {calls : E → Prop} {x : Throwing E R ε α} (hx : Only calls x)
    (hall : ∀ past e r, calls e → allow past ⟨e, r⟩) : Safe allow x.run past := by
  change Spec calls (fun _ _ => True) _ x.run at hx
  generalize x.run = p at hx
  induction p generalizing past with
  | ret r => exact trivial
  | call e k ih => exact fun r => ⟨hall past e r hx.1, ih r (hx.2 r trivial)⟩

end Safe

end Throwing

end Dialogue
