import Mathlib.Data.List.Infix

/-!
# Path-Indexed Stores

A store of values under paths, kept as a forest whose nodes remember the order in which
they were created: `set` writes the value at a path, creating the nodes missing on the way
with a default value and appending them after their siblings, `get` reads it back.

The lemmas say what a write changes. `get_set_of_off_path` is the frame rule: only the
paths from the root down to the written one are touched. `get_set_of_some` sharpens it
for nodes that exist: only the written path itself is. `isSome_get_setAll` gives the nodes
that exist after any sequence of writes, `setAll_map_cons` makes the writes below a node one
change of that node, and `setAll_append_node` replays them inside it.

`select` finds the nodes that a path of tests leads to, one test for each level, and `prune`
removes them. `select_refine` says what one more condition on the last level leaves.
-/

namespace PathStore

variable {K V : Type}

/-- A node: its key among its siblings, its value, its children in creation order. -/
inductive Node (K V : Type) : Type where
  | mk (key : K) (val : V) (children : List (Node K V))

/-- A store: the top-level nodes, in creation order. -/
abbrev Forest (K V : Type) : Type := List (Node K V)

namespace Node

/-- The key of a node. -/
def key : Node K V → K
  | mk k _ _ => k

/-- The value of a node. -/
def val : Node K V → V
  | mk _ v _ => v

/-- The children of a node. -/
def children : Node K V → Forest K V
  | mk _ _ c => c

@[simp] theorem key_mk (k : K) (v : V) (c : Forest K V) : (mk k v c).key = k := rfl

@[simp] theorem val_mk (k : K) (v : V) (c : Forest K V) : (mk k v c).val = v := rfl

@[simp] theorem children_mk (k : K) (v : V) (c : Forest K V) :
    (mk k v c).children = c := rfl

end Node

/-- The children of a node that may be missing. -/
def childrenOf : Option (Node K V) → Forest K V
  | none => []
  | some n => n.children

section Ops

variable [DecidableEq K]

/-- The first node with a key. -/
def child (k : K) : Forest K V → Option (Node K V)
  | [] => none
  | n :: f => if n.key = k then some n else child k f

/-- Replace the first node with key `k` by what `g` makes of it, or append what `g` makes
of none. -/
def alter (k : K) (g : Option (Node K V) → Node K V) : Forest K V → Forest K V
  | [] => [g none]
  | n :: f => if n.key = k then g (some n) :: f else n :: alter k g f

/-- The value at a path. -/
def get : List K → Forest K V → Option V
  | [], _ => none
  | k :: p, f =>
      match child k f with
      | none => none
      | some n => if p = [] then some n.val else get p n.children

/-- Write the value at a path; nodes missing on the way get the value `dflt` gives them. -/
def set (dflt : K → V) : List K → V → Forest K V → Forest K V
  | [], _, f => f
  | k :: p, v, f =>
      alter k (fun old =>
        if p = [] then .mk k v (childrenOf old)
        else .mk k ((old.map Node.val).getD (dflt k)) (set dflt p v (childrenOf old))) f

/-- Write a sequence of values, first to last. -/
def setAll (dflt : K → V) (writes : List (List K × V)) (f : Forest K V) : Forest K V :=
  writes.foldl (fun f w => set dflt w.1 w.2 f) f

/-! ### One level -/

@[simp] theorem child_nil (k : K) : child k ([] : Forest K V) = none := rfl

@[simp] theorem child_cons (k : K) (n : Node K V) (f : Forest K V) :
    child k (n :: f) = if n.key = k then some n else child k f := rfl

/-- A node under a key is found among the first nodes, or among the others. -/
theorem child_append (k : K) (f f' : Forest K V) :
    child k (f ++ f') = (child k f).or (child k f') := by
  induction f with
  | nil => rfl
  | cons n f ih =>
      by_cases hn : n.key = k
      · simp [hn]
      · simp [hn, ih]

/-- **Lookup after `alter`**: the node under `k` is the new one, every other is kept. -/
theorem child_alter {k : K} {g : Option (Node K V) → Node K V}
    (hg : ∀ o, (g o).key = k) (j : K) (f : Forest K V) :
    child j (alter k g f) = if j = k then some (g (child k f)) else child j f := by
  induction f with
  | nil =>
      by_cases h : j = k
      · simp [alter, h, hg]
      · simp [alter, h, hg, Ne.symm h]
  | cons n f ih =>
      by_cases hn : n.key = k
      · by_cases h : j = k
        · simp [alter, hn, h, hg]
        · simp [alter, hn, h, hg, Ne.symm h]
      · by_cases h : n.key = j
        · subst h
          simp [alter, hn]
        · simp [alter, hn, h, ih]

/-- Altering under a key that is absent appends. -/
theorem alter_of_absent {k : K} {g : Option (Node K V) → Node K V} {f : Forest K V}
    (h : child k f = none) : alter k g f = f ++ [g none] := by
  induction f with
  | nil => rfl
  | cons n f ih =>
      by_cases hn : n.key = k
      · simp [hn] at h
      · simp only [child_cons, if_neg hn] at h
        simp [alter, hn, ih h]

/-- Altering under the key of the last node, absent before it, alters that node. -/
theorem alter_append_node {k : K} {g : Option (Node K V) → Node K V} {f : Forest K V}
    {n : Node K V} (h : child k f = none) (hn : n.key = k) :
    alter k g (f ++ [n]) = f ++ [g (some n)] := by
  induction f with
  | nil => simp [alter, hn]
  | cons m f ih =>
      by_cases hm : m.key = k
      · simp [hm] at h
      · simp only [child_cons, if_neg hm] at h
        simp [alter, hm, ih h]

/-- Altering twice under a key is altering once. -/
theorem alter_alter {k : K} {g g' : Option (Node K V) → Node K V}
    (hg : ∀ o, (g o).key = k) (f : Forest K V) :
    alter k g' (alter k g f) = alter k (fun o => g' (some (g o))) f := by
  induction f with
  | nil => simp [alter, hg]
  | cons n f ih =>
      by_cases hn : n.key = k
      · simp [alter, hn, hg]
      · simp [alter, hn, ih]

/-- Nodes chosen by their keys are altered among themselves. -/
theorem filter_alter {k : K} {g : Option (Node K V) → Node K V} (hg : ∀ o, (g o).key = k)
    {q : K → Bool} (hq : q k = true) (f : Forest K V) :
    (alter k g f).filter (fun n => q n.key) = alter k g (f.filter fun n => q n.key) := by
  induction f with
  | nil => simp [alter, hg, hq]
  | cons n f ih =>
      by_cases hn : n.key = k
      · simp [alter, hn, hg, hq]
      · by_cases hqn : q n.key = true
        · simp [alter, hn, hqn, ih]
        · simp [alter, hn, hqn, ih]

/-- A value under a new key goes to the end. -/
theorem set_of_absent (dflt : K → V) {k : K} {f : Forest K V} (h : child k f = none) (v : V) :
    set dflt [k] v f = f ++ [.mk k v []] := by
  rw [set, alter_of_absent h]
  rfl

/-! ### Reading after writing -/

@[simp] theorem get_nil (f : Forest K V) : get [] f = none := rfl

@[simp] theorem get_empty (p : List K) : get p ([] : Forest K V) = none := by
  cases p <;> rfl

theorem get_cons (k : K) (p : List K) (f : Forest K V) :
    get (k :: p) f = (child k f).bind fun n =>
      if p = [] then some n.val else get p n.children := by
  simp only [get]
  cases child k f <;> rfl

/-- A write leaves, under its first key, the written node or the write one level down. -/
theorem child_set (dflt : K → V) (k j : K) (p : List K) (v : V) (f : Forest K V) :
    child j (set dflt (k :: p) v f) =
      if j = k then
        some (if p = [] then .mk k v (childrenOf (child k f))
          else .mk k (((child k f).map Node.val).getD (dflt k))
            (set dflt p v (childrenOf (child k f))))
      else child j f := by
  rw [set, child_alter]
  intro o
  by_cases hp : p = [] <;> simp [hp]

/-- The written path reads back. -/
theorem get_set_self (dflt : K → V) {p : List K} (hp : p ≠ []) (v : V) (f : Forest K V) :
    get p (set dflt p v f) = some v := by
  induction p generalizing f with
  | nil => exact absurd rfl hp
  | cons k p ih =>
      rw [get_cons, child_set, if_pos rfl]
      by_cases hp : p = []
      · simp [hp]
      · simpa [hp] using ih hp _

/-- **The frame rule**: a path that is not on the way to the written one keeps its
value. -/
theorem get_set_of_off_path (dflt : K → V) {p q : List K} (h : ¬ q <+: p) (v : V)
    (f : Forest K V) : get q (set dflt p v f) = get q f := by
  induction p generalizing q f with
  | nil => rfl
  | cons k p ih =>
      cases q with
      | nil => exact absurd List.nil_prefix h
      | cons j q =>
          rw [get_cons, get_cons, child_set]
          by_cases hj : j = k
          · subst hj
            have hq : ¬ q <+: p := fun hq => h ((List.cons_prefix_cons).mpr ⟨rfl, hq⟩)
            have hq0 : q ≠ [] := fun hq0 => hq (hq0 ▸ List.nil_prefix)
            by_cases hp : p = []
            · cases hc : child j f <;> simp [hp, hq0, childrenOf]
            · cases hc : child j f <;> simp [hp, hq0, childrenOf, ih hq]
          · simp only [if_neg hj]

/-- **The sharp frame rule**: a node that exists keeps its value unless it is the one
written. -/
theorem get_set_of_some (dflt : K → V) {p q : List K} (hne : q ≠ p) {v w : V}
    {f : Forest K V} (h : get q f = some w) : get q (set dflt p v f) = some w := by
  induction p generalizing q f with
  | nil => exact h
  | cons k p ih =>
      cases q with
      | nil => simp at h
      | cons j q =>
          rw [get_cons] at h
          rw [get_cons, child_set]
          by_cases hj : j = k
          · subst hj
            cases hc : child j f with
            | none => simp [hc] at h
            | some n =>
                simp only [hc, Option.bind_some] at h
                by_cases hq : q = []
                · have hp : p ≠ [] := fun hp => hne (by rw [hq, hp])
                  simpa [hp, hq] using h
                · simp only [if_neg hq] at h
                  by_cases hp : p = []
                  · simpa [hp, hq, childrenOf] using h
                  · simpa [hp, hq, childrenOf] using
                      ih (fun heq => hne (by rw [heq])) h
          · simpa only [if_neg hj] using h

/-- A write makes the path and every node on the way exist, and no other. -/
theorem isSome_get_set (dflt : K → V) {p q : List K} (hq : q ≠ []) (v : V)
    (f : Forest K V) :
    (get q (set dflt p v f)).isSome ↔ (get q f).isSome ∨ q <+: p := by
  induction p generalizing q f with
  | nil => simp [set, hq]
  | cons k p ih =>
      cases q with
      | nil => exact absurd rfl hq
      | cons j q =>
          rw [get_cons, get_cons, child_set, List.cons_prefix_cons]
          by_cases hj : j = k
          · subst hj
            by_cases hq' : q = []
            · by_cases hp : p = [] <;> simp [hp, hq']
            · by_cases hp : p = []
              · cases hc : child j f <;> simp [hp, hq', childrenOf]
              · cases hc : child j f <;> simp [hp, hq', childrenOf, ih hq']
          · simp [hj]

/-! ### Sequences of writes -/

@[simp] theorem setAll_nil (dflt : K → V) (f : Forest K V) : setAll dflt [] f = f := rfl

@[simp] theorem setAll_cons (dflt : K → V) (w : List K × V) (ws : List (List K × V))
    (f : Forest K V) : setAll dflt (w :: ws) f = setAll dflt ws (set dflt w.1 w.2 f) :=
  rfl

theorem setAll_append (dflt : K → V) (ws₁ ws₂ : List (List K × V)) (f : Forest K V) :
    setAll dflt (ws₁ ++ ws₂) f = setAll dflt ws₂ (setAll dflt ws₁ f) :=
  List.foldl_append

/-- **Existence after a sequence of writes**: what existed, and what is on the way to a
written path. -/
theorem isSome_get_setAll (dflt : K → V) {q : List K} (hq : q ≠ [])
    (ws : List (List K × V)) (f : Forest K V) :
    (get q (setAll dflt ws f)).isSome ↔ (get q f).isSome ∨ ∃ w ∈ ws, q <+: w.1 := by
  induction ws generalizing f with
  | nil => simp
  | cons w ws ih => simp [ih, isSome_get_set dflt hq, or_assoc]

/-- The frame rule for a sequence of writes. -/
theorem get_setAll_of_off_path (dflt : K → V) {q : List K} {ws : List (List K × V)}
    (h : ∀ w ∈ ws, ¬ q <+: w.1) (f : Forest K V) : get q (setAll dflt ws f) = get q f := by
  induction ws generalizing f with
  | nil => rfl
  | cons w ws ih =>
      rw [setAll_cons, ih fun w hw => h w (List.mem_cons_of_mem _ hw),
        get_set_of_off_path dflt (h w List.mem_cons_self)]

/-- The sharp frame rule for a sequence of writes. -/
theorem get_setAll_of_some (dflt : K → V) {q : List K} {ws : List (List K × V)}
    (hne : ∀ w ∈ ws, q ≠ w.1) {f : Forest K V} {x : V} (h : get q f = some x) :
    get q (setAll dflt ws f) = some x := by
  induction ws generalizing f with
  | nil => exact h
  | cons w ws ih =>
      exact ih (fun w hw => hne w (List.mem_cons_of_mem _ hw))
        (get_set_of_some dflt (hne w List.mem_cons_self) h)

/-- **A written path reads back** after a sequence of writes that agree on its value. -/
theorem get_setAll_of_mem (dflt : K → V) {p : List K} (hp : p ≠ []) {v : V}
    {ws : List (List K × V)} (hmem : (p, v) ∈ ws) (hagree : ∀ w ∈ ws, w.1 = p → w.2 = v)
    (f : Forest K V) : get p (setAll dflt ws f) = some v := by
  induction ws generalizing f with
  | nil => simp at hmem
  | cons w ws ih =>
      have hagree' : ∀ w ∈ ws, w.1 = p → w.2 = v :=
        fun w hw => hagree w (List.mem_cons_of_mem _ hw)
      rw [setAll_cons]
      by_cases hlater : (p, v) ∈ ws
      · exact ih hlater hagree' _
      · obtain rfl : (p, v) = w := (List.mem_cons.mp hmem).resolve_right hlater
        -- this is the last write at the path, and the later ones keep its value
        refine get_setAll_of_some dflt ?_ (get_set_self dflt hp v f)
        rintro ⟨q, u⟩ hw rfl
        obtain rfl : u = v := hagree' _ hw rfl
        exact hlater hw

/-- **Writes below a node happen inside that node**: prefixing every path with the key of
the last node, absent before it, replays the writes on that node's children. -/
theorem setAll_append_node (dflt : K → V) {k : K} {f : Forest K V}
    (h : child k f = none) (v : V) {ws : List (List K × V)} (hws : ∀ w ∈ ws, w.1 ≠ [])
    (c : Forest K V) :
    setAll dflt (ws.map fun w => (k :: w.1, w.2)) (f ++ [.mk k v c]) =
      f ++ [.mk k v (setAll dflt ws c)] := by
  induction ws generalizing c with
  | nil => rfl
  | cons w ws ih =>
      have hw : w.1 ≠ [] := hws w List.mem_cons_self
      simp only [List.map_cons, setAll_cons, set]
      rw [alter_append_node h rfl]
      simpa [hw, childrenOf] using
        ih (fun w hw => hws w (List.mem_cons_of_mem _ hw)) (set dflt w.1 w.2 c)

/-- **Writes below a node alter it once**, whether it is there or is created on the way. -/
theorem setAll_map_cons (dflt : K → V) (k : K) {ws : List (List K × V)} (hne : ws ≠ [])
    (hws : ∀ w ∈ ws, w.1 ≠ []) (f : Forest K V) :
    setAll dflt (ws.map fun w => (k :: w.1, w.2)) f =
      alter k (fun old => .mk k ((old.map Node.val).getD (dflt k))
        (setAll dflt ws (childrenOf old))) f := by
  induction ws generalizing f with
  | nil => exact absurd rfl hne
  | cons w ws ih =>
      have hw : w.1 ≠ [] := hws w List.mem_cons_self
      have hset : set dflt (k :: w.1) w.2 f =
          alter k (fun old => .mk k ((old.map Node.val).getD (dflt k))
            (set dflt w.1 w.2 (childrenOf old))) f := by
        simp only [set, if_neg hw]
      rw [List.map_cons, setAll_cons, hset]
      by_cases hnil : ws = []
      · subst hnil
        rfl
      · rw [ih hnil fun w hw => hws w (List.mem_cons_of_mem _ hw)]
        exact alter_alter (k := k) (fun _ => rfl) f

end Ops

/-! ### Selections -/

/-- The nodes of one level that pass a test, with their paths: the test sees the key of
the parent, if there is one, and that of the node. -/
def stepDown (t : Option K → K → Bool) (above : List K) (f : Forest K V) :
    List (List K × Node K V) :=
  (f.filter fun n => t above.getLast? n.key).map fun n => (above ++ [n.key], n)

/-- One more level of a selection. -/
def stepInto (found : List (List K × Node K V)) (t : Option K → K → Bool) :
    List (List K × Node K V) :=
  found.flatMap fun x => stepDown t x.1 x.2.children

/-- The nodes that a path of tests, one for each level, leads to. -/
def select : List (Option K → K → Bool) → Forest K V → List (List K × Node K V)
  | [], _ => []
  | t :: ts, f => ts.foldl stepInto (stepDown t [] f)

/-- Remove the nodes that a path of tests leads to. -/
def prune (above : Option K) : List (Option K → K → Bool) → Forest K V → Forest K V
  | [], f => f
  | [t], f => f.filter fun n => !t above n.key
  | t :: t' :: ts, f => f.map fun n =>
      if t above n.key then .mk n.key n.val (prune (some n.key) (t' :: ts) n.children)
      else n

/-- The last level of a selection. -/
theorem select_append_singleton {ts : List (Option K → K → Bool)} (hts : ts ≠ [])
    (t : Option K → K → Bool) (f : Forest K V) :
    select (ts ++ [t]) f = stepInto (select ts f) t := by
  cases ts with
  | nil => exact absurd rfl hts
  | cons t₀ ts => simp [select]

theorem stepDown_and (t : Option K → K → Bool) (u : K → Bool) (above : List K)
    (f : Forest K V) :
    stepDown (fun p k => t p k && u k) above f =
      (stepDown t above f).filter fun x => u x.2.key := by
  rw [stepDown, stepDown, List.filter_map, List.filter_filter]
  congr 1
  refine List.filter_congr fun n _ => ?_
  exact Bool.and_comm _ _

/-- **One more condition on the last level** keeps those of the selected nodes that meet
it. -/
theorem select_refine (ts : List (Option K → K → Bool)) (t : Option K → K → Bool)
    (u : K → Bool) (f : Forest K V) :
    select (ts ++ [fun p k => t p k && u k]) f =
      (select (ts ++ [t]) f).filter fun x => u x.2.key := by
  by_cases hts : ts = []
  · subst hts
    exact stepDown_and t u [] f
  · rw [select_append_singleton hts, select_append_singleton hts, stepInto, stepInto,
      List.filter_flatMap]
    exact List.flatMap_congr fun x _ => stepDown_and t u x.1 x.2.children

/-- A selected node lies as deep as the path of tests is long. -/
theorem length_of_mem_select {ts : List (Option K → K → Bool)} {f : Forest K V}
    {x : List K × Node K V} (h : x ∈ select ts f) : x.1.length = ts.length := by
  induction ts using List.reverseRecOn generalizing x with
  | nil => simp [select] at h
  | append_singleton ts t ih =>
      by_cases hts : ts = []
      · subst hts
        obtain ⟨n, -, rfl⟩ := List.mem_map.mp h
        rfl
      · rw [select_append_singleton hts] at h
        obtain ⟨y, hy, hx⟩ := List.mem_flatMap.mp h
        obtain ⟨n, -, rfl⟩ := List.mem_map.mp hx
        have hlen := ih hy
        simp [hlen]

/-- A selected node passes the last test. -/
theorem last_of_mem_select {ts : List (Option K → K → Bool)} {t : Option K → K → Bool}
    {f : Forest K V} {x : List K × Node K V} (h : x ∈ select (ts ++ [t]) f) :
    ∃ above, t above x.2.key = true := by
  by_cases hts : ts = []
  · subst hts
    obtain ⟨n, hn, rfl⟩ := List.mem_map.mp h
    exact ⟨_, (List.mem_filter.mp hn).2⟩
  · rw [select_append_singleton hts] at h
    obtain ⟨y, -, hx⟩ := List.mem_flatMap.mp h
    obtain ⟨n, hn, rfl⟩ := List.mem_map.mp hx
    exact ⟨_, (List.mem_filter.mp hn).2⟩

end PathStore
