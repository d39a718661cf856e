import Mathlib.Data.List.Forall2
import SysrepoGnxi.JsonIetf
import SysrepoGnxi.Lib.YangJson

/-!
# What the Loop of json_tree Renders

`json_tree` calls itself on the list instances and the containers below a tree, the trees it
enters (`Entered`), and makes an object of the children of each. A child either sets the
member of its name or appends to it; `Renders` says which, and with what value. Where only
appending siblings share a name the object is the one of the library (`jsonTree_of_renders`).
-/

open JsonDoc YangJson

namespace SysrepoGnxi

/-! ### Entered trees -/

/-- A value of a node that has children. -/
def Val.IsNested (v : Val) : Prop := v = .list ∨ v = .container ∨ v = .containerPresence

/-- A value of a leaf that has one. -/
def Val.IsScalar (v : Val) : Prop := ¬ v.IsNested ∧ v ≠ .leafEmpty

/-- The trees `json_tree` is called on for a tree, itself and below. -/
inductive Entered (t : Tree) : Tree → Prop
  | root : Entered t t
  | child {d c : Tree} : Entered t d → c ∈ d.children → c.data.IsNested → Entered t c

/-- `json_tree` returns the object of the members its loop sets. -/
theorem jsonTree_eq_ok {t : Tree} {j : Json} :
    jsonTree t = .ok j ↔ ∃ m, jsonSiblings t.children [] = .ok m ∧ Json.ofMembers m = j := by
  obtain ⟨module, name, data, children⟩ := t
  rw [jsonTree, bind_eq_ok]
  constructor
  · rintro ⟨m, hm, hj⟩
    exact ⟨m, hm, Except.ok.inj hj⟩
  · rintro ⟨m, hm, rfl⟩
    exact ⟨m, hm, rfl⟩

/-- A member of the object that is set is a member of an object. -/
theorem ofMembers_of_get {m : Members} {k : String} {x : Json} (h : get k m = some x) :
    Json.ofMembers m = .obj m := by
  cases m with
  | nil => simp at h
  | cons e m => rfl

theorem member_ofMembers (k : String) (m : Members) :
    member k (Json.ofMembers m) = (get k m).getD .null := by
  cases m <;> rfl

/-- The loop passes each of the siblings. -/
theorem jsonSiblings_split {pre post : List Tree} {c : Tree} {m : Members}
    (h : jsonSiblings (pre ++ c :: post) [] = .ok m) :
    ∃ val val', jsonSiblings pre [] = .ok val ∧ setMember c val = .ok val' ∧
      jsonSiblings post val' = .ok m := by
  rw [jsonSiblings_append] at h
  obtain ⟨val, hpre, h⟩ := bind_eq_ok.mp h
  rw [jsonSiblings_cons] at h
  obtain ⟨val', hset, hpost⟩ := bind_eq_ok.mp h
  exact ⟨val, val', hpre, hset, hpost⟩

/-- What a sibling sets, if `json_tree` is called on it. -/
theorem jsonTree_of_setMember {c : Tree} {val val' : Members} (h : setMember c val = .ok val')
    (hnested : c.data.IsNested) : ∃ x, jsonTree c = .ok x := by
  rcases hnested with hdata | hdata | hdata <;> rw [setMember, setMemberWith, hdata] at h <;>
    (obtain ⟨x, hx, -⟩ := bind_eq_ok.mp h; exact ⟨x, hx⟩)

/-- If `json_tree` returns for a tree, it does for each tree it enters. -/
theorem Entered.jsonTree_ok {t d : Tree} {j : Json} (h : Entered t d) (hok : jsonTree t = .ok j) :
    ∃ m, jsonSiblings d.children [] = .ok m := by
  induction h with
  | root =>
      obtain ⟨m, hm, -⟩ := jsonTree_eq_ok.mp hok
      exact ⟨m, hm⟩
  | child _ hmem hnested ih =>
      obtain ⟨m, hm⟩ := ih
      obtain ⟨pre, post, hchildren⟩ := List.append_of_mem hmem
      rw [hchildren] at hm
      obtain ⟨val, val', -, hset, -⟩ := jsonSiblings_split hm
      obtain ⟨x, hx⟩ := jsonTree_of_setMember hset hnested
      obtain ⟨m', hm', -⟩ := jsonTree_eq_ok.mp hx
      exact ⟨m', hm'⟩

/-- The last child of a name: the loop of `json_tree` leaves the member of that one. -/
def lastNamed (k : String) (trees : List Tree) : Option Tree :=
  trees.reverse.find? fun t => t.name = k

/-- Below the last child of a name no other has it. -/
theorem split_of_lastNamed {k : String} {trees : List Tree} {last : Tree}
    (h : lastNamed k trees = some last) :
    last.name = k ∧ ∃ pre post, trees = pre ++ last :: post ∧ ∀ t ∈ post, t.name ≠ k := by
  obtain ⟨hname, post, pre, hsplit, hpost⟩ := List.find?_eq_some_iff_append.mp h
  refine ⟨by simpa using hname, pre.reverse, post.reverse, ?_, fun t ht => ?_⟩
  · rw [← List.reverse_reverse trees, hsplit]
    simp
  · simpa using hpost t (List.mem_reverse.mp ht)

/-- There is a last child of a name if there is one. -/
theorem exists_lastNamed {k : String} {trees : List Tree} {t : Tree} (ht : t ∈ trees)
    (hname : t.name = k) : ∃ last, lastNamed k trees = some last := by
  rw [← Option.isSome_iff_exists, lastNamed, List.find?_isSome]
  exact ⟨t, List.mem_reverse.mpr ht, by simpa using hname⟩

/-! ### What a sibling renders -/

/-- A scalar sets the member of its name to its value. -/
theorem setMember_scalar {leaf : Tree} (h : leaf.data.IsScalar) (val : Members) :
    setMember leaf val = leaf.data.json >>= fun x => pure (put leaf.name x val) := by
  obtain ⟨module, name, data, children⟩ := leaf
  cases data with
  | list => exact absurd (Or.inl rfl) h.1
  | container => exact absurd (Or.inr (Or.inl rfl)) h.1
  | containerPresence => exact absurd (Or.inr (Or.inr rfl)) h.1
  | leafEmpty => exact absurd rfl h.2
  | _ => rfl

/-- A tree renders what a sibling has under its name: the loop of `json_tree` sets the member
of the name to a single value, and appends an entry to it. -/
def Renders (tree : Tree) (e : String × Part) : Prop :=
  tree.name = e.1 ∧
    match e.2 with
    | .single j => ∀ val, setMember tree val = .ok (put e.1 j val)
    | .entry j => ∀ val, setMember tree val = appendMember e.1 j val

/-- One tree adds its part to the members set so far. -/
theorem setMember_of_renders {tree : Tree} {e : String × Part} {parts : List (String × Part)}
    (h : Renders tree e) (hparts : Consistent (parts ++ [e])) :
    setMember tree (members parts) = .ok (members (parts ++ [e])) := by
  obtain ⟨k, part⟩ := e
  cases part with
  | single j => rw [h.2 (members parts), members_concat_single hparts]
  | entry j =>
      obtain ⟨hmembers, hget⟩ := members_concat_entry hparts
      rw [h.2 (members parts), hmembers, appendMember]
      rcases hget with ⟨hnone, hnil⟩ | hsome
      · rw [hnone, hnil]
        rfl
      · rw [hsome]

/-- **The loop of `json_tree`** makes the members of the parts its trees render. -/
theorem jsonSiblings_of_renders {trees : List Tree} {new : List (String × Part)}
    (h : List.Forall₂ Renders trees new) (parts : List (String × Part))
    (hparts : Consistent (parts ++ new)) :
    jsonSiblings trees (members parts) = .ok (members (parts ++ new)) := by
  induction h generalizing parts with
  | nil => rw [List.append_nil]; rfl
  | @cons tree e trees new htree _ ih =>
      rw [List.append_cons] at hparts ⊢
      have hhead : Consistent (parts ++ [e]) := (List.pairwise_append.mp hparts).1
      rw [jsonSiblings_cons, setMember_of_renders htree hhead]
      exact ih _ hparts

/-- `json_tree` makes the object of the parts the children render. -/
theorem jsonTree_of_renders {m name : String} {data : Val} {children : List Tree}
    {parts : List (String × Part)} (h : List.Forall₂ Renders children parts)
    (hne : parts ≠ []) (hparts : Consistent parts) :
    jsonTree (.node m name data children) = .ok (object parts) := by
  have hloop : jsonSiblings children [] = .ok (members parts) :=
    jsonSiblings_of_renders h [] hparts
  rw [jsonTree, hloop, object]
  cases hmembers : members parts with
  | nil => exact absurd hmembers (members_ne_nil hne)
  | cons e rest => rfl

/-- What a leaf renders: an entry for an empty one, which is appended, and its value. -/
def Val.leafPart : Val → Except Exn Part
  | .leafEmpty => .ok (.entry (.str "null"))
  | v => v.json.map .single

/-- What a sibling renders: an entry for a list instance too, and the object of a container. -/
def Tree.part (t : Tree) : Except Exn Part :=
  match t.data with
  | .list => (jsonTree t).map .entry
  | .container => (jsonTree t).map .single
  | .containerPresence => (jsonTree t).map .single
  | v => v.leafPart

/-- A sibling has a part under its name. -/
def HasPart (t : Tree) (e : String × Part) : Prop := t.name = e.1 ∧ t.part = .ok e.2

theorem map_eq_ok {α β : Type} {f : α → β} {x : Except Exn α} {b : β} :
    x.map f = .ok b ↔ ∃ a, x = .ok a ∧ f a = b := by
  cases x <;> simp [Except.map]

/-- The part of a leaf is that of its value. -/
theorem part_leaf {t : Tree} (h : ¬ t.data.IsNested) : t.part = t.data.leafPart := by
  obtain ⟨module, name, data, children⟩ := t
  cases data with
  | list => exact absurd (Or.inl rfl) h
  | container => exact absurd (Or.inr (Or.inl rfl)) h
  | containerPresence => exact absurd (Or.inr (Or.inr rfl)) h
  | _ => rfl

/-- The part of a scalar is its value. -/
theorem leafPart_scalar {v : Val} (h : v.IsScalar) : v.leafPart = v.json.map .single := by
  cases v with
  | leafEmpty => exact absurd rfl h.2
  | _ => rfl

/-- **What the loop does with a sibling**, by its part. -/
theorem setMember_eq (t : Tree) (val : Members) :
    setMember t val = t.part >>= fun
      | .single j => .ok (put t.name j val)
      | .entry j => appendMember t.name j val := by
  have hmap {f : Json → Part} {x : Except Exn Json} {g : Part → Except Exn Members} :
      x.map f >>= g = x >>= fun j => g (f j) := by
    cases x <;> rfl
  by_cases hnested : t.data.IsNested
  · rcases hnested with hdata | hdata | hdata <;>
      rw [setMember, setMemberWith, Tree.part, hdata, hmap] <;> rfl
  · by_cases hempty : t.data = .leafEmpty
    · rw [part_leaf hnested, setMember, setMemberWith, hempty]
      rfl
    · rw [part_leaf hnested, leafPart_scalar ⟨hnested, hempty⟩,
        setMember_scalar ⟨hnested, hempty⟩, hmap]
      rfl

/-- A sibling renders its part. -/
theorem HasPart.renders {t : Tree} {e : String × Part} (h : HasPart t e) : Renders t e := by
  obtain ⟨k, p⟩ := e
  obtain ⟨rfl, hp⟩ := h
  refine ⟨rfl, ?_⟩
  cases p <;> intro val <;> rw [setMember_eq, hp] <;> rfl

/-- A sibling the loop passes has a part. -/
theorem exists_part {t : Tree} {val val' : Members} (h : setMember t val = .ok val') :
    ∃ p, t.part = .ok p := by
  rw [setMember_eq] at h
  obtain ⟨p, hp, -⟩ := bind_eq_ok.mp h
  exact ⟨p, hp⟩

/-- If the loop returns, each of the siblings has a part. -/
theorem exists_parts {trees : List Tree} {val m : Members} (h : jsonSiblings trees val = .ok m) :
    ∃ parts, List.Forall₂ HasPart trees parts := by
  induction trees generalizing val with
  | nil => exact ⟨[], List.Forall₂.nil⟩
  | cons t trees ih =>
      rw [jsonSiblings_cons] at h
      obtain ⟨val', hset, hrest⟩ := bind_eq_ok.mp h
      obtain ⟨p, hp⟩ := exists_part hset
      obtain ⟨parts, hparts⟩ := ih hrest
      exact ⟨(t.name, p) :: parts, List.Forall₂.cons ⟨rfl, hp⟩ hparts⟩

/-- A value of a leaf is no array. -/
theorem json_ne_arr {v : Val} {elems : List Json} : v.json ≠ .ok (.arr elems) := by
  intro h
  cases v <;> cases h

/-- A single value is no array. -/
theorem single_ne_arr {t : Tree} {elems : List Json} : t.part ≠ .ok (.single (.arr elems)) := by
  intro hp
  by_cases hnested : t.data.IsNested
  · rcases hnested with hdata | hdata | hdata <;> rw [Tree.part, hdata] at hp <;>
      obtain ⟨j, hj, heq⟩ := map_eq_ok.mp hp
    · cases heq
    all_goals
      obtain rfl := Part.single.inj heq
      obtain ⟨m, -, hm⟩ := jsonTree_eq_ok.mp hj
      cases m <;> cases hm
  · rw [part_leaf hnested] at hp
    by_cases hempty : t.data = .leafEmpty
    · rw [hempty] at hp
      cases hp
    · rw [leafPart_scalar ⟨hnested, hempty⟩] at hp
      obtain ⟨j, hj, heq⟩ := map_eq_ok.mp hp
      obtain rfl := Part.single.inj heq
      exact json_ne_arr hj

/-! ### Canonical values -/

/-- The value of a leaf is canonical. -/
theorem canonical_json {v : Val} {x : Json} (h : v.json = .ok x) : x.Canonical := by
  cases v <;> cases h <;> constructor

/-- The members of an object that is canonical. -/
def CanonicalMembers (m : Members) : Prop := Sorted m ∧ ∀ e ∈ m, e.2.Canonical

theorem CanonicalMembers.put {m : Members} (h : CanonicalMembers m) (k : String) {x : Json}
    (hx : x.Canonical) : CanonicalMembers (put k x m) := by
  refine ⟨h.1.put k x, fun e he => ?_⟩
  rcases mem_put he with rfl | he
  · exact hx
  · exact h.2 e he

/-- A member read from a canonical object is canonical. -/
theorem CanonicalMembers.get {m : Members} (h : CanonicalMembers m) {k : String} {x : Json}
    (hx : get k m = some x) : x.Canonical := by
  obtain ⟨-, hm⟩ := h
  induction m with
  | nil => cases hx
  | cons e m ih =>
      rw [get_cons] at hx
      split_ifs at hx with hk
      · exact Option.some.inj hx ▸ hm e List.mem_cons_self
      · exact ih hx fun e he => hm e (List.mem_cons_of_mem _ he)

/-- A sibling with a canonical part keeps the members canonical. -/
theorem CanonicalMembers.setMember {t : Tree} {val val' : Members} (hval : CanonicalMembers val)
    (hpart : ∀ p, t.part = .ok p → p.json.Canonical) (h : setMember t val = .ok val') :
    CanonicalMembers val' := by
  rw [setMember_eq] at h
  obtain ⟨p, hp, h⟩ := bind_eq_ok.mp h
  have hj := hpart p hp
  cases p with
  | single j =>
      obtain rfl := Except.ok.inj h
      exact hval.put _ hj
  | entry j =>
      have hone : (Json.arr [j]).Canonical :=
        Json.Canonical.arr fun x hx => List.mem_singleton.mp hx ▸ hj
      simp only [appendMember] at h
      split at h
      · exact Except.ok.inj h ▸ hval.put _ hone
      · exact Except.ok.inj h ▸ hval.put _ hone
      · next elems hget =>
          have harr := hval.get hget
          cases harr with
          | arr helems =>
              refine Except.ok.inj h ▸ hval.put _ (Json.Canonical.arr fun x hx => ?_)
              rcases List.mem_append.mp hx with hx | hx
              · exact helems x hx
              · exact List.mem_singleton.mp hx ▸ hj
      · cases h

/-- A part is canonical if the JSON of its tree is. -/
theorem canonical_treePart {t : Tree} {p : Part} (hp : t.part = .ok p)
    (htree : ∀ j, jsonTree t = .ok j → j.Canonical) : p.json.Canonical := by
  by_cases hnested : t.data.IsNested
  · rcases hnested with hdata | hdata | hdata <;> rw [Tree.part, hdata] at hp <;>
      (obtain ⟨j, hj, rfl⟩ := map_eq_ok.mp hp; exact htree j hj)
  · rw [part_leaf hnested] at hp
    by_cases hempty : t.data = .leafEmpty
    · rw [hempty] at hp
      obtain rfl := Except.ok.inj hp
      exact Json.Canonical.str _
    · rw [leafPart_scalar ⟨hnested, hempty⟩] at hp
      obtain ⟨j, hj, rfl⟩ := map_eq_ok.mp hp
      exact canonical_json hj

mutual

/-- **`json_tree` returns canonical values.** -/
theorem canonical_jsonTree : (t : Tree) → ∀ j, jsonTree t = .ok j → j.Canonical
  | .node _ _ _ children, j, h => by
      obtain ⟨m, hm, rfl⟩ := jsonTree_eq_ok.mp h
      obtain ⟨hsorted, hmembers⟩ :=
        canonical_jsonSiblings children ⟨List.Pairwise.nil, by simp⟩ hm
      cases m with
      | nil => exact Json.Canonical.null
      | cons e m => exact Json.Canonical.obj hsorted hmembers

theorem canonical_jsonSiblings : (trees : List Tree) → ∀ {val m : Members},
    CanonicalMembers val → jsonSiblings trees val = .ok m → CanonicalMembers m
  | [], _, _, hval, h => Except.ok.inj h ▸ hval
  | t :: rest, _, _, hval, h => by
      rw [jsonSiblings_cons] at h
      obtain ⟨val', hset, hrest⟩ := bind_eq_ok.mp h
      have hval' := hval.setMember (fun p hp => canonical_treePart hp (canonical_jsonTree t)) hset
      exact canonical_jsonSiblings rest hval' hrest

end

end SysrepoGnxi
