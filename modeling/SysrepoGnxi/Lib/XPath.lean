import Mathlib.Algebra.Ring.Nat
import Mathlib.Data.List.Basic
import Mathlib.Data.List.Forall2
import Mathlib.Data.List.Perm.Basic

/-!
# XPath Location Paths

The subset of XPath that addresses nodes of a data tree by name and by key: a location
path is a sequence of steps `/name[key="value"]…`, with literals in either kind of quote.
`read` reads a string as such a path, one character at a time, and refuses every other
string; `render` writes a path, always with double quotes.

* `read_render` — a path whose values hold no double quote reads back unchanged.
* `read_render_iff` — and only such a path does: a double quote in a value closes the
  literal early, so what is read is another path or none.
* `size_ne_of_quote` — for a step with one key, a double quote in the value is never
  harmless: what is read, if anything, has more steps or predicates.
-/

namespace XPath

/-- One location step: a node test and the key predicates on it. -/
structure Step where
  name : String
  preds : List (String × String)
deriving DecidableEq

/-- Two steps that address the same kind of node: the node tests are equal, and so are the
keys constrained, in whatever order. -/
def Step.SameKind (s t : Step) : Prop :=
  s.name = t.name ∧ (s.preds.map Prod.fst).Perm (t.preds.map Prod.fst)

/-- The characters of a node test or a key: those of a qualified name, and `*`. -/
def isNameChar (c : Char) : Bool :=
  c.isAlphanum || c == '_' || c == '-' || c == '.' || c == ':' || c == '*'

/-- Where the reader stands. `steps` are the steps read so far, `s` the step whose
predicates are being read. -/
inductive State where
  /-- Nothing has been read: the empty path is the root. -/
  | root
  | name (steps : List Step) (n : List Char)
  | key (steps : List Step) (s : Step) (k : List Char)
  /-- After `=`: a quote must follow. -/
  | quote (steps : List Step) (s : Step) (k : String)
  | literal (steps : List Step) (s : Step) (k : String) (q : Char) (v : List Char)
  /-- After the closing quote: `]` must follow. -/
  | closing (steps : List Step) (s : Step) (k v : String)
  /-- After `]`. -/
  | step (steps : List Step) (s : Step)

/-- Add a predicate to a step. -/
def Step.add (s : Step) (k v : String) : Step := ⟨s.name, s.preds ++ [(k, v)]⟩

/-- Read one character. -/
def State.next : State → Char → Option State
  | root, c => if c = '/' then some (name [] []) else none
  | name steps n, c =>
      if isNameChar c then some (name steps (n ++ [c]))
      else if n = [] then none
      else if c = '/' then some (name (steps ++ [⟨String.ofList n, []⟩]) [])
      else if c = '[' then some (key steps ⟨String.ofList n, []⟩ [])
      else none
  | key steps s k, c =>
      if isNameChar c then some (key steps s (k ++ [c]))
      else if k ≠ [] ∧ c = '=' then some (quote steps s (String.ofList k))
      else none
  | quote steps s k, c =>
      if c = '"' ∨ c = '\'' then some (literal steps s k c []) else none
  | literal steps s k q v, c =>
      if c = q then some (closing steps s k (String.ofList v))
      else some (literal steps s k q (v ++ [c]))
  | closing steps s k v, c => if c = ']' then some (step steps (s.add k v)) else none
  | step steps s, c =>
      if c = '/' then some (name (steps ++ [s]) [])
      else if c = '[' then some (key steps s [])
      else none

/-- The path read when the string ends here, if it may end here. -/
def State.finish : State → Option (List Step)
  | root => some []
  | name steps n => if n = [] then none else some (steps ++ [⟨String.ofList n, []⟩])
  | step steps s => some (steps ++ [s])
  | _ => none

/-- Read on from a state. -/
def State.feed : State → List Char → Option (List Step)
  | st, [] => st.finish
  | st, c :: cs => (st.next c).bind fun st' => st'.feed cs

/-- The location path a string spells. -/
def read (s : String) : Option (List Step) := State.root.feed s.toList

/-! ### Writing -/

/-- The text of one predicate, its value pasted between double quotes. -/
def renderPred (p : String × String) : List Char :=
  '[' :: p.1.toList ++ '=' :: '"' :: p.2.toList ++ ['"', ']']

/-- The text of one step. -/
def Step.render (s : Step) : List Char :=
  '/' :: s.name.toList ++ s.preds.flatMap renderPred

/-- The text of a path. -/
def render (steps : List Step) : List Char := steps.flatMap Step.render

/-- A name the reader can read: not empty, and made of name characters. -/
def IsName (s : String) : Prop := s ≠ "" ∧ ∀ c ∈ s.toList, isNameChar c = true

instance : DecidablePred IsName := fun s =>
  decidable_of_iff (s ≠ "" ∧ s.toList.all isNameChar = true) (by simp [IsName])

/-- A step whose node test and keys are names. -/
def Step.Named (s : Step) : Prop := IsName s.name ∧ ∀ p ∈ s.preds, IsName p.1

/-- No value of the step holds a double quote. -/
def Step.QuoteFree (s : Step) : Prop := ∀ p ∈ s.preds, '"' ∉ p.2.toList

theorem IsName.toList_ne_nil {s : String} (h : IsName s) : s.toList ≠ [] := by
  intro hs
  exact h.1 (String.toList_inj.mp (by simpa using hs))

/-- A name holds no NUL. -/
theorem IsName.ne_zero {n : String} (h : IsName n) {c : Char} (hc : c ∈ n.toList) :
    c.toNat ≠ 0 := by
  intro hz
  have hname := h.2 c hc
  have hnul : c = Char.ofNat 0 := by rw [← hz, Char.ofNat_toNat]
  rw [hnul] at hname
  exact absurd hname (by decide)

theorem isNameChar_slash : isNameChar '/' = false := by decide

theorem isNameChar_bracket : isNameChar '[' = false := by decide

theorem isNameChar_equals : isNameChar '=' = false := by decide

/-! ### Reading what was written -/

/-- Reading a name lengthens it. -/
theorem feed_name {steps : List Step} {n cs rest : List Char}
    (h : ∀ c ∈ cs, isNameChar c = true) :
    (State.name steps n).feed (cs ++ rest) = (State.name steps (n ++ cs)).feed rest := by
  induction cs generalizing n with
  | nil => simp
  | cons c cs ih =>
      have hc : isNameChar c = true := h c List.mem_cons_self
      have ih := ih (n := n ++ [c]) fun d hd => h d (List.mem_cons_of_mem _ hd)
      simpa [State.feed, State.next, hc] using ih

/-- Reading a key lengthens it. -/
theorem feed_key {steps : List Step} {s : Step} {k cs rest : List Char}
    (h : ∀ c ∈ cs, isNameChar c = true) :
    (State.key steps s k).feed (cs ++ rest) = (State.key steps s (k ++ cs)).feed rest := by
  induction cs generalizing k with
  | nil => simp
  | cons c cs ih =>
      have hc : isNameChar c = true := h c List.mem_cons_self
      have ih := ih (k := k ++ [c]) fun d hd => h d (List.mem_cons_of_mem _ hd)
      simpa [State.feed, State.next, hc] using ih

/-- Reading a literal lengthens it up to its closing quote. -/
theorem feed_literal {steps : List Step} {s : Step} {k : String} {q : Char}
    {v cs rest : List Char} (h : q ∉ cs) :
    (State.literal steps s k q v).feed (cs ++ rest) =
      (State.literal steps s k q (v ++ cs)).feed rest := by
  induction cs generalizing v with
  | nil => simp
  | cons c cs ih =>
      have hc : c ≠ q := fun hc => h (hc ▸ List.mem_cons_self)
      have ih := ih (v := v ++ [c]) fun hq => h (List.mem_cons_of_mem _ hq)
      simpa [State.feed, State.next, hc] using ih

/-- From an opening bracket, a written predicate is read up to the first double quote
inside its value or after it. -/
theorem feed_key_value {steps : List Step} {s : Step} {k : String} (hk : IsName k)
    {v rest : List Char} (hv : '"' ∉ v) :
    (State.key steps s []).feed (k.toList ++ '=' :: '"' :: v ++ '"' :: rest) =
      (State.closing steps s k (String.ofList v)).feed rest := by
  have hlit : (State.literal steps s k '"' []).feed (v ++ '"' :: rest) =
      (State.literal steps s k '"' v).feed ('"' :: rest) := feed_literal hv
  rw [List.append_assoc, feed_key hk.2]
  simpa [State.feed, State.next, hk.toList_ne_nil, isNameChar_equals] using hlit

/-- A written predicate with a quote-free value is read as itself. -/
theorem feed_renderPred {steps : List Step} {s : Step} {p : String × String}
    (hk : IsName p.1) (hv : '"' ∉ p.2.toList) (rest : List Char) :
    (State.step steps s).feed (renderPred p ++ rest) =
      (State.step steps (s.add p.1 p.2)).feed rest := by
  have h : (State.key steps s []).feed
      (p.1.toList ++ '=' :: '"' :: p.2.toList ++ '"' :: ']' :: rest) = _ :=
    feed_key_value hk hv
  simpa [renderPred, State.feed, State.next] using h

/-- A step just named behaves as one whose predicates may follow. -/
theorem feed_name_end {steps : List Step} {n : String} (hn : IsName n)
    {rest : List Char} (hrest : rest = [] ∨ rest.head? = some '/' ∨ rest.head? = some '[') :
    (State.name steps n.toList).feed rest = (State.step steps ⟨n, []⟩).feed rest := by
  have hne := hn.toList_ne_nil
  cases rest with
  | nil => simp [State.feed, State.finish, hne]
  | cons c rest =>
      rcases hrest with h | h | h
      · exact absurd h (by simp)
      · obtain rfl : c = '/' := by simpa using h
        simp [State.feed, State.next, hne, isNameChar_slash]
      · obtain rfl : c = '[' := by simpa using h
        simp [State.feed, State.next, hne, isNameChar_bracket]

/-- What follows a written step is the end, another step, or a predicate of it. -/
theorem head_preds_render (ps : List (String × String)) (steps : List Step) :
    ps.flatMap renderPred ++ render steps = [] ∨
      (ps.flatMap renderPred ++ render steps).head? = some '/' ∨
      (ps.flatMap renderPred ++ render steps).head? = some '[' := by
  cases ps with
  | cons p ps => exact Or.inr (Or.inr (by simp [renderPred]))
  | nil =>
      cases steps with
      | nil => exact Or.inl rfl
      | cons s steps => exact Or.inr (Or.inl (by simp [render, Step.render]))

/-- Written predicates with quote-free values are read as themselves. -/
theorem feed_renderPreds {steps : List Step} {s : Step} {ps : List (String × String)}
    (hk : ∀ p ∈ ps, IsName p.1) (hv : ∀ p ∈ ps, '"' ∉ p.2.toList) (rest : List Char) :
    (State.step steps s).feed (ps.flatMap renderPred ++ rest) =
      (State.step steps ⟨s.name, s.preds ++ ps⟩).feed rest := by
  induction ps generalizing s with
  | nil => simp
  | cons p ps ih =>
      rw [List.flatMap_cons, List.append_assoc,
        feed_renderPred (hk p List.mem_cons_self) (hv p List.mem_cons_self),
        ih (fun q hq => hk q (List.mem_cons_of_mem _ hq))
          (fun q hq => hv q (List.mem_cons_of_mem _ hq))]
      simp [Step.add]

/-- Reading the name of a written step, after which there may be more of the path. -/
theorem feed_step {done : List Step} {s : Step} {n : String} (hn : IsName n)
    (ps : List (String × String)) (steps : List Step) :
    (State.step done s).feed ('/' :: n.toList ++ (ps.flatMap renderPred ++ render steps)) =
      (State.step (done ++ [s]) ⟨n, []⟩).feed (ps.flatMap renderPred ++ render steps) := by
  have hstart : (State.step done s).feed
      ('/' :: n.toList ++ (ps.flatMap renderPred ++ render steps)) =
        (State.name (done ++ [s]) []).feed
          (n.toList ++ (ps.flatMap renderPred ++ render steps)) := by
    simp [State.feed, State.next]
  rw [hstart, feed_name hn.2, List.nil_append, feed_name_end hn (head_preds_render ps steps)]

/-- The text of a path is that of its first step and of the others. -/
theorem render_cons (t : Step) (steps : List Step) :
    render (t :: steps) =
      '/' :: t.name.toList ++ (t.preds.flatMap renderPred ++ render steps) := by
  simp [render, Step.render]

/-- Reading a written path from where a step has just been completed. -/
theorem feed_render {done : List Step} {s : Step} {steps : List Step}
    (hn : ∀ t ∈ steps, t.Named) (hq : ∀ t ∈ steps, t.QuoteFree) :
    (State.step done s).feed (render steps) = some (done ++ s :: steps) := by
  induction steps generalizing done s with
  | nil => simp [render, State.feed, State.finish]
  | cons t steps ih =>
      have ht := hn t List.mem_cons_self
      rw [render_cons, feed_step ht.1, feed_renderPreds ht.2 (hq t List.mem_cons_self)]
      simpa using @ih (done ++ [s]) t
        (fun u hu => hn u (List.mem_cons_of_mem _ hu))
        (fun u hu => hq u (List.mem_cons_of_mem _ hu))

/-- The reader leaves its first state into the first step. -/
theorem feed_root_render (s : Step) (steps : List Step) :
    State.root.feed (render (s :: steps)) =
      (State.name [] []).feed
        (s.name.toList ++ (s.preds.flatMap renderPred ++ render steps)) := by
  simp [render, Step.render, State.feed, State.next]

/-- **Round trip**: a written path whose values hold no double quote reads back. -/
theorem feed_root_of_quoteFree {steps : List Step} (hn : ∀ s ∈ steps, s.Named)
    (hq : ∀ s ∈ steps, s.QuoteFree) : State.root.feed (render steps) = some steps := by
  cases steps with
  | nil => rfl
  | cons s steps =>
      have hs := hn s List.mem_cons_self
      rw [feed_root_render, feed_name hs.1.2, List.nil_append,
        feed_name_end hs.1 (head_preds_render s.preds steps),
        feed_renderPreds hs.2 (hq s List.mem_cons_self),
        feed_render (fun u hu => hn u (List.mem_cons_of_mem _ hu))
          (fun u hu => hq u (List.mem_cons_of_mem _ hu))]
      simp

/-- Reading the text of a path is feeding it to the reader. -/
theorem read_ofList (cs : List Char) : read (String.ofList cs) = State.root.feed cs := by
  simp [read]

theorem read_render {steps : List Step} (hn : ∀ s ∈ steps, s.Named)
    (hq : ∀ s ∈ steps, s.QuoteFree) :
    read (String.ofList (render steps)) = some steps := by
  rw [read_ofList, feed_root_of_quoteFree hn hq]

/-! ### What has been read stays read -/

/-- The path `out` has the steps `steps`, and then one that begins like `s`. -/
def Opens (steps : List Step) (s : Step) (out : List Step) : Prop :=
  ∃ preds tail, out = steps ++ ⟨s.name, s.preds ++ preds⟩ :: tail

/-- What a state commits the final path to. -/
def State.Commits : State → List Step → Prop
  | root, _ => True
  | name steps _, out => steps <+: out
  | key steps s _, out => Opens steps s out
  | quote steps s _, out => Opens steps s out
  | literal steps s _ _ _, out => Opens steps s out
  | closing steps s k v, out => Opens steps (s.add k v) out
  | step steps s, out => Opens steps s out

/-- A step followed by another is itself, or longer by predicates. -/
theorem opens_of_begins {steps : List Step} {s : Step} {out : List Step}
    (h : steps ++ [s] <+: out) : Opens steps s out := by
  obtain ⟨tail, rfl⟩ := h
  exact ⟨[], tail, by simp⟩

/-- Opening a step commits to the steps before it. -/
theorem Opens.prefix_steps {steps : List Step} {s : Step} {out : List Step}
    (h : Opens steps s out) : steps <+: out := by
  obtain ⟨preds, tail, rfl⟩ := h
  exact List.prefix_append _ _

/-- A step with one more predicate begins like the step. -/
theorem Opens.of_add {steps : List Step} {s : Step} {k v : String} {out : List Step}
    (h : Opens steps (s.add k v) out) : Opens steps s out := by
  obtain ⟨preds, tail, rfl⟩ := h
  exact ⟨(k, v) :: preds, tail, by simp [Step.add]⟩

/-- A commitment made after one more character was already made before it. -/
theorem State.Commits.of_next {st st' : State} {c : Char} (h : st.next c = some st')
    {out : List Step} (hc : st'.Commits out) : st.Commits out := by
  cases st with
  | root => trivial
  | name steps n =>
      simp only [State.next] at h
      split_ifs at h <;> cases h
      · exact hc
      · exact (opens_of_begins hc).prefix_steps
      · exact Opens.prefix_steps hc
  | key steps s k =>
      simp only [State.next] at h
      split_ifs at h <;> cases h <;> exact hc
  | quote steps s k =>
      simp only [State.next] at h
      split_ifs at h
      cases h
      exact hc
  | literal steps s k q v =>
      simp only [State.next] at h
      split_ifs at h <;> cases h
      · exact Opens.of_add hc
      · exact hc
  | closing steps s k v =>
      simp only [State.next] at h
      split_ifs at h
      cases h
      exact hc
  | step steps s =>
      simp only [State.next] at h
      split_ifs at h <;> cases h
      · exact opens_of_begins hc
      · exact hc

/-- **A reader keeps what it has read**: the path it ends with begins with the steps and
predicates of every state on the way. -/
theorem State.commits_of_feed {st : State} {cs : List Char} {out : List Step}
    (h : st.feed cs = some out) : st.Commits out := by
  induction cs generalizing st with
  | nil =>
      cases st <;> simp only [State.feed, State.finish, reduceCtorEq, Option.some.injEq] at h
      · trivial
      · split_ifs at h
        cases h
        exact List.prefix_append _ _
      · exact opens_of_begins (h ▸ List.prefix_refl _)
  | cons c cs ih =>
      obtain ⟨st', hst, hfeed⟩ := Option.bind_eq_some_iff.mp h
      exact (ih hfeed).of_next hst

/-- A text splits at its first double quote. -/
theorem split_at_quote {v : List Char} (h : '"' ∈ v) :
    ∃ a b, v = a ++ '"' :: b ∧ '"' ∉ a := by
  induction v with
  | nil => exact absurd h List.not_mem_nil
  | cons c v ih =>
      by_cases hc : c = '"'
      · exact ⟨[], v, by rw [hc]; rfl, List.not_mem_nil⟩
      · have hv : '"' ∈ v := by
          rcases List.mem_cons.mp h with h | h
          · exact absurd h.symm hc
          · exact h
        obtain ⟨a, b, rfl, ha⟩ := ih hv
        exact ⟨c :: a, b, rfl, by simp [Ne.symm hc, ha]⟩

/-- A predicate whose value holds a double quote is read with a value cut at it. -/
theorem opens_cut_value {steps : List Step} {s : Step} {p : String × String}
    (hk : IsName p.1) (hv : '"' ∈ p.2.toList) {rest : List Char} {out : List Step}
    (h : (State.step steps s).feed (renderPred p ++ rest) = some out) :
    ∃ a, a ≠ p.2 ∧ Opens steps (s.add p.1 a) out := by
  obtain ⟨a, b, hab, ha⟩ := split_at_quote hv
  refine ⟨String.ofList a, ?_, ?_⟩
  · intro heq
    have hlist : a = p.2.toList := by rw [← heq, String.toList_ofList]
    exact ha (hlist ▸ hv)
  · have hfeed : (State.key steps s []).feed
        (p.1.toList ++ '=' :: '"' :: a ++ '"' :: (b ++ '"' :: ']' :: rest)) = some out := by
      simpa [renderPred, hab, State.feed, State.next] using h
    rw [feed_key_value hk ha] at hfeed
    exact State.commits_of_feed hfeed

/-- Predicates that read back hold no double quote. -/
theorem quoteFree_of_feed_preds {done : List Step} {s : Step}
    {ps : List (String × String)} (hk : ∀ p ∈ ps, IsName p.1) {rest : List Char}
    {out tail : List Step} (hout : out = done ++ ⟨s.name, s.preds ++ ps⟩ :: tail)
    (h : (State.step done s).feed (ps.flatMap renderPred ++ rest) = some out) :
    ∀ p ∈ ps, '"' ∉ p.2.toList := by
  induction ps generalizing s with
  | nil => simp
  | cons p ps ih =>
      have hp : '"' ∉ p.2.toList := by
        intro hv
        rw [List.flatMap_cons, List.append_assoc] at h
        obtain ⟨a, hne, preds, tail', heq⟩ := opens_cut_value (hk p List.mem_cons_self) hv h
        rw [hout] at heq
        simp only [Step.add, List.append_cancel_left_eq, List.cons.injEq, Step.mk.injEq,
          true_and, List.append_assoc, List.cons_append, List.nil_append] at heq
        exact hne (congrArg Prod.snd heq.1.1).symm
      rw [List.flatMap_cons, List.append_assoc, feed_renderPred (hk p List.mem_cons_self) hp]
        at h
      intro q hq
      rcases List.mem_cons.mp hq with rfl | hq
      · exact hp
      · exact ih (s := s.add p.1 p.2) (fun q hq => hk q (List.mem_cons_of_mem _ hq))
          (by simp [hout, Step.add]) h q hq

/-- Steps that read back hold no double quote. -/
theorem quoteFree_of_feed_render {done : List Step} {s : Step} {steps : List Step}
    (hn : ∀ t ∈ steps, t.Named) {out : List Step} (hout : out = done ++ s :: steps)
    (h : (State.step done s).feed (render steps) = some out) :
    ∀ t ∈ steps, t.QuoteFree := by
  induction steps generalizing done s with
  | nil => simp
  | cons t steps ih =>
      have ht := hn t List.mem_cons_self
      rw [render_cons, feed_step ht.1] at h
      have hq : t.QuoteFree := quoteFree_of_feed_preds ht.2 (by simp [hout]; rfl) h
      rw [feed_renderPreds ht.2 hq] at h
      intro u hu
      rcases List.mem_cons.mp hu with rfl | hu
      · exact hq
      · refine @ih (done ++ [s]) t (fun u hu => hn u (List.mem_cons_of_mem _ hu)) ?_
          (by simpa using h) u hu
        simp [hout]

/-- **Exactly the quote-free paths read back**: a written path reads back as itself iff no
value holds a double quote. -/
theorem read_render_iff {steps : List Step} (hn : ∀ s ∈ steps, s.Named) :
    read (String.ofList (render steps)) = some steps ↔ ∀ s ∈ steps, s.QuoteFree := by
  refine ⟨fun h => ?_, read_render hn⟩
  rw [read_ofList] at h
  cases steps with
  | nil => simp
  | cons s steps =>
      have hs := hn s List.mem_cons_self
      rw [feed_root_render, feed_name hs.1.2, List.nil_append,
        feed_name_end hs.1 (head_preds_render s.preds steps)] at h
      have hq : s.QuoteFree := quoteFree_of_feed_preds hs.2 (by simp; rfl) h
      rw [feed_renderPreds hs.2 hq] at h
      intro u hu
      rcases List.mem_cons.mp hu with rfl | hu
      · exact hq
      · exact quoteFree_of_feed_render (fun u hu => hn u (List.mem_cons_of_mem _ hu))
          (by simp) h u hu

/-- A path whose last step has more predicates is read up to these. -/
theorem feed_render_last {done : List Step} {s : Step} {steps : List Step} {n : String}
    {pre ps : List (String × String)} (hn : ∀ t ∈ steps, t.Named)
    (hq : ∀ t ∈ steps, t.QuoteFree) (hname : IsName n) (hpre : ∀ p ∈ pre, IsName p.1)
    (hpreq : ∀ p ∈ pre, '"' ∉ p.2.toList) :
    (State.step done s).feed (render (steps ++ [⟨n, pre ++ ps⟩])) =
      (State.step (done ++ s :: steps) ⟨n, pre⟩).feed (ps.flatMap renderPred) := by
  induction steps generalizing done s with
  | nil =>
      rw [List.nil_append, render_cons, feed_step hname, List.flatMap_append,
        List.append_assoc, feed_renderPreds hpre hpreq]
      simp [render]
  | cons t steps ih =>
      have ht := hn t List.mem_cons_self
      rw [List.cons_append, render_cons, feed_step ht.1,
        feed_renderPreds ht.2 (hq t List.mem_cons_self)]
      simpa using @ih (done ++ [s]) t
        (fun u hu => hn u (List.mem_cons_of_mem _ hu))
        (fun u hu => hq u (List.mem_cons_of_mem _ hu))

/-- **A double quote in the last step** is read as the end of its value: what is read has
the steps before it, and a step with the value cut. -/
theorem read_cut {steps : List Step} {n : String} {pre post : List (String × String)}
    {p : String × String} (hn : ∀ t ∈ steps, t.Named) (hq : ∀ t ∈ steps, t.QuoteFree)
    (hname : IsName n) (hpre : ∀ p ∈ pre, IsName p.1) (hpreq : ∀ p ∈ pre, '"' ∉ p.2.toList)
    (hk : IsName p.1) (hv : '"' ∈ p.2.toList) {out : List Step}
    (h : read (String.ofList (render (steps ++ [⟨n, pre ++ p :: post⟩]))) = some out) :
    ∃ a, a ≠ p.2 ∧ Opens steps ⟨n, pre ++ [(p.1, a)]⟩ out := by
  have hlast : (State.step steps ⟨n, pre⟩).feed ((p :: post).flatMap renderPred) =
      some out := by
    rw [read_ofList] at h
    cases steps with
    | nil =>
        rw [List.nil_append, feed_root_render, feed_name hname.2, List.nil_append,
          feed_name_end hname (head_preds_render _ []), List.flatMap_append,
          List.append_assoc, feed_renderPreds hpre hpreq] at h
        simpa [render] using h
    | cons s steps =>
        have hs := hn s List.mem_cons_self
        rw [List.cons_append, feed_root_render, feed_name hs.1.2, List.nil_append,
          feed_name_end hs.1 (head_preds_render s.preds _),
          feed_renderPreds hs.2 (hq s List.mem_cons_self),
          feed_render_last (fun u hu => hn u (List.mem_cons_of_mem _ hu))
            (fun u hu => hq u (List.mem_cons_of_mem _ hu)) hname hpre hpreq] at h
        simpa using h
  rw [List.flatMap_cons] at hlast
  exact opens_cut_value hk hv hlast

/-! ### Reading only adds -/

/-- The number of steps and predicates of a path. -/
def size (steps : List Step) : ℕ := (steps.map fun s => 1 + s.preds.length).sum

@[simp] theorem size_nil : size [] = 0 := rfl

@[simp] theorem size_append (steps₁ steps₂ : List Step) :
    size (steps₁ ++ steps₂) = size steps₁ + size steps₂ := by
  simp [size]

@[simp] theorem size_single (s : Step) : size [s] = 1 + s.preds.length := by
  simp [size]

/-- Paths to the same kind of node have the same size. -/
theorem size_eq_of_sameKind {steps₁ steps₂ : List Step}
    (h : List.Forall₂ Step.SameKind steps₁ steps₂) :
    size steps₁ = size steps₂ := by
  induction h with
  | nil => rfl
  | @cons s t steps₁ steps₂ hst _ ih =>
      have hlen := hst.2.length_eq
      simp only [List.length_map] at hlen
      simp only [size, List.map_cons, List.sum_cons] at ih ⊢
      omega

/-- The size of what a state has read or begun to read. -/
def State.weight : State → ℕ
  | root => 0
  | name steps _ => size steps + 1
  | key steps s _ => size (steps ++ [s]) + 1
  | quote steps s _ => size (steps ++ [s]) + 1
  | literal steps s _ _ _ => size (steps ++ [s]) + 1
  | closing steps s _ _ => size (steps ++ [s]) + 1
  | step steps s => size (steps ++ [s])

/-- A character never takes back anything, and one after a finished step begins
something. -/
theorem State.weight_next {st st' : State} {c : Char} (h : st.next c = some st') :
    st.weight ≤ st'.weight ∧ (∀ steps s, st = step steps s → st.weight < st'.weight) := by
  cases st with
  | root =>
      simp only [State.next] at h
      split_ifs at h
      cases h
      exact ⟨by simp [weight], by simp⟩
  | name steps n =>
      simp only [State.next] at h
      split_ifs at h <;> cases h <;> exact ⟨by simp [weight]; try omega, by simp⟩
  | key steps s k =>
      simp only [State.next] at h
      split_ifs at h <;> cases h <;> exact ⟨by simp [weight], by simp⟩
  | quote steps s k =>
      simp only [State.next] at h
      split_ifs at h
      cases h
      exact ⟨by simp [weight], by simp⟩
  | literal steps s k q v =>
      simp only [State.next] at h
      split_ifs at h <;> cases h <;> exact ⟨by simp [weight], by simp⟩
  | closing steps s k v =>
      simp only [State.next] at h
      split_ifs at h
      cases h
      refine ⟨?_, by simp⟩
      simp only [weight, Step.add, size_append, size_single, List.length_append,
        List.length_singleton]
      omega
  | step steps s =>
      simp only [State.next] at h
      split_ifs at h <;> cases h <;> exact ⟨by simp [weight], by simp [weight]⟩

/-- **Reading only adds**: a path is at least as large as any state on the way. -/
theorem State.weight_le_of_feed {st : State} {cs : List Char} {out : List Step}
    (h : st.feed cs = some out) : st.weight ≤ size out := by
  induction cs generalizing st with
  | nil =>
      cases st <;> simp only [State.feed, State.finish, reduceCtorEq, Option.some.injEq] at h
      · simp [weight]
      · split_ifs at h
        cases h
        simp [weight]
      · simp [weight, ← h]
  | cons c cs ih =>
      obtain ⟨st', hst, hfeed⟩ := Option.bind_eq_some_iff.mp h
      exact Nat.le_trans (weight_next hst).1 (ih hfeed)

/-- After a finished step, a path without anything more has no text any more. -/
theorem State.size_of_feed_step {steps : List Step} {s : Step} {cs : List Char}
    {out : List Step} (h : (State.step steps s).feed cs = some out) (hcs : cs ≠ []) :
    size (steps ++ [s]) < size out := by
  cases cs with
  | nil => exact absurd rfl hcs
  | cons c cs =>
      obtain ⟨st', hst, hfeed⟩ := Option.bind_eq_some_iff.mp h
      have hlt := (State.weight_next hst).2 steps s rfl
      exact Nat.lt_of_lt_of_le hlt (State.weight_le_of_feed hfeed)

/-- **A quote in the only key of a path shows**: what is read has not just one step and one
predicate. -/
theorem size_ne_of_quote {n k v : String} (hn : IsName n) (hk : IsName k)
    (hv : '"' ∈ v.toList) {out : List Step}
    (h : read (String.ofList (render [⟨n, [(k, v)]⟩])) = some out) :
    size out ≠ 2 := by
  obtain ⟨a, b, hab, ha⟩ := split_at_quote hv
  have hname : (State.name [] n.toList).feed ([(k, v)].flatMap renderPred ++ render []) =
      (State.step [] ⟨n, []⟩).feed ([(k, v)].flatMap renderPred ++ render []) :=
    feed_name_end hn (head_preds_render [(k, v)] [])
  have hopen : (State.step [] ⟨n, []⟩).feed ([(k, v)].flatMap renderPred ++ render []) =
      (State.key [] ⟨n, []⟩ []).feed
        (k.toList ++ '=' :: '"' :: a ++ '"' :: (b ++ ['"', ']'])) := by
    simp [renderPred, render, hab, State.feed, State.next]
  rw [read_ofList, feed_root_render, feed_name hn.2, List.nil_append, hname, hopen,
    feed_key_value hk ha] at h
  -- the literal is closed; what is left of the value must go on with a bracket
  cases b with
  | nil => simp [State.feed, State.next] at h
  | cons c b =>
      by_cases hc : c = ']'
      · subst hc
        have hstep : (State.step [] ⟨n, [(k, String.ofList a)]⟩).feed (b ++ ['"', ']']) =
            some out := by
          simpa [State.feed, State.next, Step.add] using h
        have hlt := State.size_of_feed_step hstep (by simp)
        have hsize : size ([] ++ [⟨n, [(k, String.ofList a)]⟩]) = 2 := rfl
        omega
      · simp [State.feed, State.next, hc] at h

end XPath
