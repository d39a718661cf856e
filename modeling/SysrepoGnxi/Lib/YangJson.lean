import Mathlib.Data.List.Nodup
import SysrepoGnxi.Lib.Json

/-!
# YANG Data in JSON

The data of one YANG module as a tree (`Data`), and its JSON by RFC 7951: a leaf is a number
or, for the 64-bit types and all others, a string; a container is an object; the entries of
a list are an array, in document order, each an object with its keys among its members.

Members of an object have no order in JSON, so what siblings amount to is said name by name
(`members`): the single value of a name, or the array of the entries of that name.
`members_concat_single` and `members_concat_entry` say what one more sibling adds.
-/

open JsonDoc

namespace YangJson

/-! ### Data -/

/-- The value of a leaf, by its type. -/
inductive Scalar where
  | int8 (n : Int8)
  | int16 (n : Int16)
  | int32 (n : Int32)
  | int64 (n : Int64)
  | uint8 (n : UInt8)
  | uint16 (n : UInt16)
  | uint32 (n : UInt32)
  | uint64 (n : UInt64)
  | string (s : String)
  | enumeration (name : String)
  | identityref (module name : String)
deriving DecidableEq

/-- A node of a data tree, under its name in the module. An entry of a list has its keys
apart from its other children. -/
inductive Data where
  | leaf (name : String) (value : Scalar)
  | container (name : String) (presence : Bool) (children : List Data)
  | entry (name : String) (keys : List (String × Scalar)) (children : List Data)

/-- The name of a node. -/
def Data.name : Data → String
  | leaf name _ => name
  | container name _ _ => name
  | entry name _ _ => name

/-- The JSON of a leaf: a 64-bit integer is a string, a narrower one a number. -/
def Scalar.json : Scalar → Json
  | int8 n => .num n.toInt
  | int16 n => .num n.toInt
  | int32 n => .num n.toInt
  | int64 n => .str (toString n.toInt)
  | uint8 n => .num n.toNat
  | uint16 n => .num n.toNat
  | uint32 n => .num n.toNat
  | uint64 n => .str (toString n.toNat)
  | string s => .str s
  | enumeration name => .str name
  | identityref module name => .str (module ++ ":" ++ name)

/-- Two siblings that may stand beside each other: they have different names, or are entries
of one list with different keys. -/
def Data.Apart : Data → Data → Prop
  | .entry name keys _, .entry name' keys' _ =>
      name = name' → keys.map (fun k => (k.1, k.2.json)) ≠ keys'.map fun k => (k.1, k.2.json)
  | d, d' => d.name ≠ d'.name

mutual

/-- A node is valid if its containers are not empty, its entries have keys, and siblings,
the keys among them, may stand beside each other. -/
def Data.Valid : Data → Prop
  | .leaf _ _ => True
  | .container _ _ children => children ≠ [] ∧ ForestValid children
  | .entry _ keys children =>
      keys ≠ [] ∧ (keys.map Prod.fst).Nodup ∧
        (∀ d ∈ children, d.name ∉ keys.map Prod.fst) ∧ ForestValid children

/-- Siblings are valid if each of them is, and they may stand beside each other. -/
def ForestValid : List Data → Prop
  | [] => True
  | d :: rest => (∀ d' ∈ rest, d.Apart d') ∧ d.Valid ∧ ForestValid rest

end

/-! ### Objects made of siblings -/

/-- What one sibling has under its name: the only value there, or one entry of an array. -/
inductive Part where
  | single (j : Json)
  | entry (j : Json)

/-- The value of an entry. -/
def Part.asEntry : Part → Option Json
  | single _ => none
  | entry j => some j

/-- What an object has under a name for a part alone. -/
def Part.alone : Part → Json
  | single j => j
  | entry j => .arr [j]

/-- The entries of a name, in order. -/
def entries (k : String) (parts : List (String × Part)) : List Json :=
  parts.filterMap fun e => if e.1 = k then e.2.asEntry else none

/-- The value of a name: the single one, or the array of the entries. -/
def valueOf (parts : List (String × Part)) (k : String) : Json :=
  match parts.lookup k with
  | some (.single j) => j
  | _ => .arr (entries k parts)

/-- The members of the object: the value of each name there is. -/
def members (parts : List (String × Part)) : Members :=
  (parts.map Prod.fst).foldr (fun k m => put k (valueOf parts k) m) []

/-- The object of siblings. -/
def object (parts : List (String × Part)) : Json := .obj (members parts)

/-- Only entries share a name. -/
def Consistent (parts : List (String × Part)) : Prop :=
  parts.Pairwise fun a b => a.1 = b.1 → (∃ j, a.2 = .entry j) ∧ ∃ j, b.2 = .entry j

theorem sorted_members (parts : List (String × Part)) : Sorted (members parts) := by
  rw [members]
  induction parts.map Prod.fst with
  | nil => exact List.Pairwise.nil
  | cons k names ih => exact Sorted.put ih k _

/-- **Lookup in an object of siblings.** -/
theorem get_members (parts : List (String × Part)) (k : String) :
    get k (members parts) =
      if k ∈ parts.map Prod.fst then some (valueOf parts k) else none := by
  rw [members]
  induction parts.map Prod.fst with
  | nil => rfl
  | cons j names ih =>
      rw [List.foldr_cons, get_put, ih]
      by_cases hj : j = k
      · subst hj
        simp
      · simp [hj, Ne.symm hj]

/-- An object of siblings is empty only if there are none. -/
theorem members_ne_nil {parts : List (String × Part)} (h : parts ≠ []) :
    members parts ≠ [] := by
  intro hnil
  obtain ⟨e, rest, rfl⟩ := List.exists_cons_of_ne_nil h
  have hget := get_members (e :: rest) e.1
  rw [hnil] at hget
  simp at hget

theorem lookup_append_of_ne {parts : List (String × Part)} {e : String × Part} {k : String}
    (hk : e.1 ≠ k) : (parts ++ [e]).lookup k = parts.lookup k := by
  obtain ⟨name, part⟩ := e
  have hbeq : (k == name) = false := by simpa using Ne.symm hk
  simp [List.lookup_append, List.lookup_cons, hbeq]

/-- One more sibling does not change the values of the other names. -/
theorem valueOf_append_of_ne {parts : List (String × Part)} {e : String × Part} {k : String}
    (hk : e.1 ≠ k) : valueOf (parts ++ [e]) k = valueOf parts k := by
  simp [valueOf, lookup_append_of_ne hk, entries, hk]

/-- Lookups in an object with one more sibling. -/
theorem get_members_concat (parts : List (String × Part)) (e : String × Part) (k : String) :
    get k (members (parts ++ [e])) =
      if e.1 = k then some (valueOf (parts ++ [e]) k) else get k (members parts) := by
  rw [get_members, get_members]
  by_cases hk : e.1 = k
  · simp [hk]
  · have hmem : k ∈ (parts ++ [e]).map Prod.fst ↔ k ∈ parts.map Prod.fst := by
      simp [Ne.symm hk]
    rw [if_neg hk, valueOf_append_of_ne hk]
    simp only [hmem]

/-- The siblings before one with a name: entries, if it is an entry, and none of that name
otherwise. -/
theorem Consistent.before {parts : List (String × Part)} {e : String × Part}
    (h : Consistent (parts ++ [e])) {a : String × Part} (ha : a ∈ parts) (hname : a.1 = e.1) :
    (∃ j, a.2 = .entry j) ∧ ∃ j, e.2 = .entry j :=
  (List.pairwise_append.mp h).2.2 a ha e List.mem_cons_self hname

/-- A single value goes under a new name. -/
theorem members_concat_single {parts : List (String × Part)} {k : String} {j : Json}
    (h : Consistent (parts ++ [(k, .single j)])) :
    members (parts ++ [(k, .single j)]) = put k j (members parts) := by
  have hnew : ∀ a ∈ parts, a.1 ≠ k := by
    intro a ha hname
    obtain ⟨-, j', hj'⟩ := h.before ha hname
    cases hj'
  have hlookup : parts.lookup k = none :=
    List.lookup_eq_none_iff.mpr fun a ha => by simpa using (hnew a ha).symm
  refine Sorted.ext (sorted_members _) ((sorted_members _).put k j) fun i => ?_
  rw [get_members_concat, get_put]
  by_cases hi : k = i
  · subst hi
    simp [valueOf, List.lookup_append, hlookup]
  · simp [hi]

/-- The value of a name that entries have is their array. -/
theorem valueOf_of_entries {parts : List (String × Part)} {k : String}
    (h : ∀ a ∈ parts, a.1 = k → ∃ j, a.2 = .entry j) :
    valueOf parts k = .arr (entries k parts) := by
  rw [valueOf]
  cases hlookup : parts.lookup k with
  | none => rfl
  | some part =>
      obtain ⟨a, ha, hname, rfl⟩ : ∃ a ∈ parts, a.1 = k ∧ a.2 = part := by
        obtain ⟨l₁, l₂, rfl, -⟩ := List.lookup_eq_some_iff.mp hlookup
        exact ⟨(k, part), by simp, rfl, rfl⟩
      obtain ⟨j, hj⟩ := h a ha hname
      rw [hj]

/-- **An entry goes to the end of the array** of its name, if there is one yet. -/
theorem members_concat_entry {parts : List (String × Part)} {k : String} {j : Json}
    (h : Consistent (parts ++ [(k, .entry j)])) :
    members (parts ++ [(k, .entry j)]) = put k (.arr (entries k parts ++ [j])) (members parts) ∧
      (get k (members parts) = none ∧ entries k parts = [] ∨
        get k (members parts) = some (.arr (entries k parts))) := by
  have hentries : ∀ a ∈ parts, a.1 = k → ∃ j, a.2 = .entry j :=
    fun a ha hname => (h.before ha hname).1
  constructor
  · refine Sorted.ext (sorted_members _) ((sorted_members _).put k _) fun i => ?_
    rw [get_members_concat, get_put]
    by_cases hi : k = i
    · subst hi
      rw [if_pos rfl, if_pos rfl, valueOf_of_entries]
      · simp [entries, Part.asEntry]
      · intro a ha hname
        rcases List.mem_append.mp ha with ha | ha
        · exact hentries a ha hname
        · obtain rfl := List.mem_singleton.mp ha
          exact ⟨j, rfl⟩
    · simp [hi]
  · by_cases hk : k ∈ parts.map Prod.fst
    · exact Or.inr (by rw [get_members, if_pos hk, valueOf_of_entries hentries])
    · refine Or.inl ⟨by rw [get_members, if_neg hk], List.filterMap_eq_nil_iff.mpr ?_⟩
      intro a ha
      have hname : a.1 ≠ k := fun hname => hk (hname ▸ List.mem_map_of_mem ha)
      simp [hname]

/-! ### Siblings told by their object -/

/-- The siblings of a name. -/
def under (k : String) (parts : List (String × Part)) : List (String × Part) :=
  parts.filter fun e => e.1 = k

/-- A single value stands alone under its name. -/
theorem Consistent.under_single {parts : List (String × Part)} (h : Consistent parts)
    {k : String} {j : Json} (hj : (k, .single j) ∈ parts) :
    under k parts = [(k, .single j)] ∧ valueOf parts k = j := by
  obtain ⟨pre, post, rfl⟩ := List.append_of_mem hj
  obtain ⟨-, htail, hcross⟩ := List.pairwise_append.mp h
  have hpre : ∀ a ∈ pre, a.1 ≠ k := by
    intro a ha hname
    obtain ⟨-, j', hj'⟩ := hcross a ha _ List.mem_cons_self hname
    cases hj'
  have hpost : ∀ b ∈ post, b.1 ≠ k := by
    intro b hb hname
    obtain ⟨⟨j', hj'⟩, -⟩ := (List.pairwise_cons.mp htail).1 b hb hname.symm
    cases hj'
  constructor
  · have hnil {l : List (String × Part)} (hl : ∀ a ∈ l, a.1 ≠ k) :
        l.filter (fun e => e.1 = k) = [] :=
      List.filter_eq_nil_iff.mpr fun a ha => by simpa using hl a ha
    simp [under, hnil hpre, hnil hpost]
  · have hlookup : pre.lookup k = none :=
      List.lookup_eq_none_iff.mpr fun a ha => by simpa using (hpre a ha).symm
    simp [valueOf, List.lookup_append, hlookup]

/-- Where entries have a name, they are its array. -/
theorem under_entries {parts : List (String × Part)} {k : String}
    (h : ∀ a ∈ parts, a.1 = k → ∃ j, a.2 = .entry j) :
    under k parts = (entries k parts).map fun j => (k, .entry j) := by
  induction parts with
  | nil => rfl
  | cons e parts ih =>
      have ih := ih fun a ha => h a (List.mem_cons_of_mem _ ha)
      obtain ⟨i, part⟩ := e
      by_cases hi : i = k
      · subst hi
        obtain ⟨j, rfl⟩ := h (i, part) List.mem_cons_self rfl
        simpa [under, entries, Part.asEntry] using ih
      · simpa [under, entries, hi] using ih

/-- What there is under a name: a single value, or the entries of its array. -/
theorem Consistent.under_cases {parts : List (String × Part)} (h : Consistent parts)
    (k : String) :
    (∃ j, under k parts = [(k, .single j)] ∧ valueOf parts k = j) ∨
      ∃ elems, under k parts = elems.map (fun j => (k, .entry j)) ∧
        valueOf parts k = .arr elems := by
  by_cases hsingle : ∃ j, (k, .single j) ∈ parts
  · obtain ⟨j, hj⟩ := hsingle
    exact Or.inl ⟨j, h.under_single hj⟩
  · have hentries : ∀ a ∈ parts, a.1 = k → ∃ j, a.2 = .entry j := by
      rintro ⟨i, part⟩ ha rfl
      cases part with
      | single j => exact absurd ⟨j, ha⟩ hsingle
      | entry j => exact ⟨j, rfl⟩
    exact Or.inr ⟨_, under_entries hentries, valueOf_of_entries hentries⟩

/-- **The object tells the siblings of each name**, if no single value is an array. -/
theorem under_eq_of_members_eq {parts parts' : List (String × Part)} (h : Consistent parts)
    (h' : Consistent parts') (harr : ∀ e ∈ parts ++ parts', ∀ elems, e.2 ≠ .single (.arr elems))
    (heq : members parts = members parts') (k : String) : under k parts = under k parts' := by
  have hget : (if k ∈ parts.map Prod.fst then some (valueOf parts k) else none) =
      if k ∈ parts'.map Prod.fst then some (valueOf parts' k) else none := by
    rw [← get_members, ← get_members, heq]
  have hnil {l : List (String × Part)} (hl : k ∉ l.map Prod.fst) : under k l = [] := by
    refine List.filter_eq_nil_iff.mpr fun a ha => ?_
    simpa using fun hname : a.1 = k => hl (hname ▸ List.mem_map_of_mem ha)
  by_cases hk : k ∈ parts.map Prod.fst <;> by_cases hk' : k ∈ parts'.map Prod.fst <;>
    simp only [hk, hk', if_true, if_false, reduceCtorEq, Option.some_inj] at hget
  · have hno {l : List (String × Part)} {j : Json} (hl : ∀ e ∈ l, e ∈ parts ++ parts')
        (hunder : under k l = [(k, .single j)]) (elems : List Json) : j ≠ .arr elems := by
      rintro rfl
      have hmem : (k, .single (.arr elems)) ∈ under k l := by simp [hunder]
      exact harr _ (hl _ (List.mem_filter.mp hmem).1) elems rfl
    have hleft : ∀ e ∈ parts, e ∈ parts ++ parts' := fun e => List.mem_append_left _
    have hright : ∀ e ∈ parts', e ∈ parts ++ parts' := fun e => List.mem_append_right _
    rcases h.under_cases k with ⟨j, hunder, rfl⟩ | ⟨elems, hunder, hvalue⟩ <;>
      rcases h'.under_cases k with ⟨j', hunder', hvalue'⟩ | ⟨elems', hunder', hvalue'⟩
    · rw [hunder, hunder', hget, hvalue']
    · exact absurd (hget.trans hvalue') (hno hleft hunder elems')
    · exact absurd (hvalue'.symm.trans (hget.symm.trans hvalue)) (hno hright hunder' elems)
    · rw [hvalue, hvalue', Json.arr.injEq] at hget
      rw [hunder, hunder', hget]
  · rw [hnil hk, hnil hk']

/-! ### The JSON of data -/

/-- The keys of an entry are its first members. -/
def keyParts (keys : List (String × Scalar)) : List (String × Part) :=
  keys.map fun k => (k.1, .single k.2.json)

mutual

/-- What a node has under its name in the JSON of its parent. -/
def Data.part : Data → Part
  | .leaf _ value => .single value.json
  | .container _ _ children => .single (object (childParts children))
  | .entry _ keys children => .entry (object (keyParts keys ++ childParts children))

/-- What siblings have in the JSON of their parent, by name. -/
def childParts : List Data → List (String × Part)
  | [] => []
  | d :: rest => (d.name, d.part) :: childParts rest

end

/-- The parts of siblings are those of nodes with the same name. -/
theorem mem_childParts {data : List Data} {e : String × Part} (h : e ∈ childParts data) :
    ∃ d ∈ data, e = (d.name, d.part) := by
  induction data with
  | nil => simp [childParts] at h
  | cons d rest ih =>
      rcases List.mem_cons.mp h with rfl | h
      · exact ⟨d, List.mem_cons_self, rfl⟩
      · obtain ⟨d', hd', he⟩ := ih h
        exact ⟨d', List.mem_cons_of_mem _ hd', he⟩

/-- Siblings of one name that may stand beside each other are entries. -/
theorem Data.Apart.entries {d d' : Data} (h : d.Apart d') (hname : d.name = d'.name) :
    (∃ j, d.part = .entry j) ∧ ∃ j, d'.part = .entry j := by
  cases d with
  | entry name keys children =>
      cases d' with
      | entry name' keys' children' => exact ⟨⟨_, rfl⟩, _, rfl⟩
      | _ => exact absurd hname h
  | _ => exact absurd hname h

/-- **Valid siblings** share a name only as entries. -/
theorem consistent_childParts {data : List Data} (h : ForestValid data) :
    Consistent (childParts data) := by
  induction data with
  | nil => exact List.Pairwise.nil
  | cons d rest ih =>
      obtain ⟨hapart, -, hrest⟩ := h
      refine List.pairwise_cons.mpr ⟨fun e he hname => ?_, ih hrest⟩
      obtain ⟨d', hd', rfl⟩ := mem_childParts he
      exact (hapart d' hd').entries hname

/-- The keys of an entry share no name with each other or with its children. -/
theorem consistent_entry {name : String} {keys : List (String × Scalar)} {data : List Data}
    (h : (Data.entry name keys data).Valid) :
    Consistent (keyParts keys ++ childParts data) := by
  obtain ⟨-, hnodup, hnew, hdata⟩ := h
  refine List.pairwise_append.mpr ⟨?_, consistent_childParts hdata, ?_⟩
  · rw [keyParts, List.pairwise_map]
    exact (List.pairwise_map.mp hnodup).imp fun hne hname => absurd hname hne
  · rintro a ha b hb hname
    obtain ⟨k, hk, rfl⟩ := List.mem_map.mp ha
    obtain ⟨d, hd, rfl⟩ := mem_childParts hb
    have hname : k.1 = d.name := hname
    exact absurd (List.mem_map_of_mem hk) (hname ▸ hnew d hd)

/-! ### Canonical objects -/

/-- The value of a part. -/
def Part.json : Part → Json
  | single j => j
  | entry j => j

/-- The object of canonical values is canonical. -/
theorem canonical_object {parts : List (String × Part)} (h : ∀ e ∈ parts, e.2.json.Canonical) :
    (object parts).Canonical := by
  have hvalue : ∀ k, (valueOf parts k).Canonical := by
    intro k
    rw [valueOf]
    split
    · next j hlookup =>
        obtain ⟨l₁, l₂, rfl, -⟩ := List.lookup_eq_some_iff.mp hlookup
        exact h (k, .single j) (by simp)
    · refine Json.Canonical.arr fun j hj => ?_
      obtain ⟨e, he, hentry⟩ := List.mem_filterMap.mp hj
      have hjson := h e he
      obtain ⟨k', part⟩ := e
      cases part with
      | single j' => simp [Part.asEntry] at hentry
      | entry j' =>
          obtain ⟨-, rfl⟩ : k' = k ∧ j' = j := by simpa [Part.asEntry] using hentry
          exact hjson
  refine Json.Canonical.obj (sorted_members parts) ?_
  rw [members]
  induction parts.map Prod.fst with
  | nil => simp
  | cons k names ih =>
      intro e he
      rcases mem_put he with rfl | he
      · exact hvalue k
      · exact ih e he

theorem canonical_scalar (v : Scalar) : v.json.Canonical := by
  cases v <;> constructor

mutual

/-- The JSON of data is canonical. -/
theorem canonical_part : (d : Data) → d.part.json.Canonical
  | .leaf _ value => canonical_scalar value
  | .container _ _ children => canonical_object (canonical_childParts children)
  | .entry _ keys children => by
      refine canonical_object fun e he => ?_
      rcases List.mem_append.mp he with he | he
      · obtain ⟨k, -, rfl⟩ := List.mem_map.mp he
        exact canonical_scalar k.2
      · exact canonical_childParts children e he

theorem canonical_childParts : (data : List Data) → ∀ e ∈ childParts data, e.2.json.Canonical
  | [], e, he => by simp [childParts] at he
  | d :: rest, e, he => by
      rcases List.mem_cons.mp he with rfl | he
      · exact canonical_part d
      · exact canonical_childParts rest e he

end

end YangJson
