import Mathlib.Data.String.Basic
import Mathlib.Data.List.Basic

/-!
# JSON Values with Ordered Members

A JSON value as a library holding its objects in an ordered map has it: the members of an
object are a list sorted strictly by name, so two objects with the same content are the
same value. `put` inserts or overwrites a member, `get` reads one, and
`Sorted.ext` says that lookups determine the list. `follow` leads to a value at any depth.
-/

namespace JsonDoc

/-- A JSON value. Numbers are integers: nothing here produces any other. -/
inductive Json where
  | null
  | bool (b : Bool)
  | num (n : Int)
  | str (s : String)
  | arr (elems : List Json)
  | obj (members : List (String × Json))

/-- The members of an object, name first. -/
abbrev Members : Type := List (String × Json)

/-! ### Sorted association lists -/

section Assoc

variable {V : Type}

/-- Names in strictly increasing order. -/
def Sorted (m : List (String × V)) : Prop := m.Pairwise fun a b => a.1 < b.1

/-- The value under a name. -/
def get (k : String) : List (String × V) → Option V
  | [] => none
  | (j, w) :: m => if j = k then some w else get k m

/-- Insert or overwrite the entry of `k`, keeping the names in order. -/
def put (k : String) (v : V) : List (String × V) → List (String × V)
  | [] => [(k, v)]
  | (j, w) :: m =>
      if k < j then (k, v) :: (j, w) :: m
      else if k = j then (k, v) :: m
      else (j, w) :: put k v m

@[simp] theorem get_nil (k : String) : get k ([] : List (String × V)) = none := rfl

@[simp] theorem get_cons (k j : String) (w : V) (m : List (String × V)) :
    get k ((j, w) :: m) = if j = k then some w else get k m := rfl

/-- **Lookup after `put`**: the entry of `k` is the new value, every other is kept. -/
@[simp] theorem get_put (k j : String) (v : V) (m : List (String × V)) :
    get j (put k v m) = if k = j then some v else get j m := by
  induction m with
  | nil => rfl
  | cons e m ih =>
      obtain ⟨i, w⟩ := e
      by_cases hlt : k < i
      · simp only [put, if_pos hlt, get_cons]
      · by_cases heq : k = i
        · subst heq
          by_cases h : k = j <;> simp [put, h]
        · simp only [put, if_neg hlt, if_neg heq, get_cons, ih]
          by_cases h : i = j
          · subst h
            simp [heq]
          · simp [h]

/-- The names after `put` are the names before and the new one. -/
theorem mem_put {k : String} {v : V} {m : List (String × V)} {e : String × V}
    (h : e ∈ put k v m) : e = (k, v) ∨ e ∈ m := by
  induction m with
  | nil => simpa [put] using h
  | cons a m ih =>
      obtain ⟨i, w⟩ := a
      simp only [put] at h
      split_ifs at h with hlt heq
      · simpa using h
      · rcases List.mem_cons.mp h with h | h
        · exact Or.inl h
        · exact Or.inr (List.mem_cons_of_mem _ h)
      · rcases List.mem_cons.mp h with h | h
        · exact Or.inr (h ▸ List.mem_cons_self)
        · exact (ih h).imp id (List.mem_cons_of_mem _)

/-- `put` keeps the names in order. -/
theorem Sorted.put {m : List (String × V)} (hm : Sorted m) (k : String) (v : V) :
    Sorted (put k v m) := by
  induction m with
  | nil => exact List.pairwise_singleton _ _
  | cons a m ih =>
      obtain ⟨i, w⟩ := a
      obtain ⟨hhead, htail⟩ := List.pairwise_cons.mp hm
      simp only [JsonDoc.put]
      split_ifs with hlt heq
      · refine List.pairwise_cons.mpr ⟨?_, hm⟩
        intro e he
        rcases List.mem_cons.mp he with rfl | he
        · exact hlt
        · exact lt_trans hlt (hhead e he)
      · subst heq
        exact List.pairwise_cons.mpr ⟨hhead, htail⟩
      · refine List.pairwise_cons.mpr ⟨?_, ih htail⟩
        intro e he
        rcases mem_put he with rfl | he
        · exact lt_of_le_of_ne (not_lt.mp hlt) (Ne.symm heq)
        · exact hhead e he

/-- A name below every name of a sorted list is not in it. -/
theorem get_eq_none_of_lt {k : String} {m : List (String × V)}
    (h : ∀ e ∈ m, k < e.1) : get k m = none := by
  induction m with
  | nil => rfl
  | cons e m ih =>
      obtain ⟨i, w⟩ := e
      have hne : i ≠ k := (h (i, w) List.mem_cons_self).ne'
      simpa [hne] using ih fun e he => h e (List.mem_cons_of_mem _ he)

/-- The first name of a sorted list is the least of the names that are found in it. -/
theorem Sorted.head_le {i : String} {w : V} {m : List (String × V)}
    (hm : Sorted ((i, w) :: m)) {k : String} (hk : get k ((i, w) :: m) ≠ none) : i ≤ k := by
  by_contra hlt
  have hki : k < i := lt_of_not_ge hlt
  refine hk (get_eq_none_of_lt fun e he => ?_)
  rcases List.mem_cons.mp he with rfl | he
  · exact hki
  · exact lt_trans hki ((List.pairwise_cons.mp hm).1 e he)

/-- **Extensionality**: a sorted list is determined by its lookups. -/
theorem Sorted.ext {m m' : List (String × V)} (hm : Sorted m) (hm' : Sorted m')
    (h : ∀ k, get k m = get k m') : m = m' := by
  induction m generalizing m' with
  | nil =>
      cases m' with
      | nil => rfl
      | cons a m' => simpa [get] using h a.1
  | cons a m ih =>
      obtain ⟨i, w⟩ := a
      obtain ⟨hhead, htail⟩ := List.pairwise_cons.mp hm
      cases m' with
      | nil => simpa [get] using h i
      | cons a' m' =>
          obtain ⟨i', w'⟩ := a'
          obtain ⟨hhead', htail'⟩ := List.pairwise_cons.mp hm'
          -- the least name of either list is looked up in the other, so they agree
          have hi : i = i' := by
            refine le_antisymm (hm.head_le ?_) (hm'.head_le ?_)
            · rw [h i']
              simp
            · rw [← h i]
              simp
          subst hi
          have hw : w = w' := by simpa using h i
          subst hw
          congr 1
          refine ih htail htail' fun k => ?_
          by_cases hk : k = i
          · subst hk
            rw [get_eq_none_of_lt hhead, get_eq_none_of_lt hhead']
          · simpa [Ne.symm hk] using h k

end Assoc

namespace Json

/-- A value built member by member: null until the first member is set. -/
def ofMembers : Members → Json
  | [] => null
  | m => obj m

/-- One step into a value: to a member of an object, or to an element of an array. -/
inductive Token where
  | member (name : String)
  | element (index : ℕ)

/-- The value one step leads to. -/
def child : Token → Json → Option Json
  | .member name, obj members => get name members
  | .element index, arr elems => elems[index]?
  | _, _ => none

/-- The value that steps lead to, one after the other. -/
def follow : List Token → Json → Option Json
  | [], j => some j
  | token :: way, j => (child token j).bind (follow way)

/-- Steps after other steps go on from where these lead. -/
theorem follow_append (way₁ way₂ : List Token) (j : Json) :
    follow (way₁ ++ way₂) j = (follow way₁ j).bind (follow way₂) := by
  induction way₁ generalizing j with
  | nil => rfl
  | cons token way₁ ih =>
      rw [List.cons_append, follow, follow]
      cases child token j with
      | none => rfl
      | some x => exact ih x

/-- Steps to a member of an object go on from there. -/
theorem follow_member {k : String} {m : Members} {x : Json} (h : get k m = some x)
    (way : List Token) : follow (.member k :: way) (obj m) = follow way x := by
  rw [follow, child, h]
  rfl

/-- Steps to an element of an array go on from there. -/
theorem follow_element {i : ℕ} {elems : List Json} {x : Json} (h : elems[i]? = some x)
    (way : List Token) : follow (.element i :: way) (arr elems) = follow way x := by
  rw [follow, child, h]
  rfl

/-- Every object of the value, at any depth, has its members in order. -/
inductive Canonical : Json → Prop
  | null : Canonical .null
  | bool (b : Bool) : Canonical (.bool b)
  | num (n : Int) : Canonical (.num n)
  | str (s : String) : Canonical (.str s)
  | arr {elems : List Json} : (∀ j ∈ elems, Canonical j) → Canonical (.arr elems)
  | obj {members : Members} : Sorted members → (∀ e ∈ members, Canonical e.2) →
      Canonical (.obj members)

end Json

end JsonDoc
