import SysrepoGnxi.RootContent

/-!
# Reading Trees Back from Their JSON

A decoder that knows the kind and the type of each name (`TypedSchema`) reads the value
`json_tree` returns: each name is looked up in the object, a list has an instance for each
element of its array, and what is absent has none (`TypedSchema.decode`). Names are those
`json_tree` uses, without the module.

`decodable_iff` says for which roots the tree read has the content of the tree written: for
containers, list instances and empty leaves. The JSON of any other leaf is null as a root,
and no decoder finds its value there.
-/

open JsonDoc Lists YangJson

namespace SysrepoGnxi

/-! ### Types of leaves -/

/-- The types of leaves but decimals, instance identifiers and those without a JSON. -/
inductive LeafType where
  | binary
  | bits
  | boolean
  | empty
  | enumeration
  | identityref
  | int8
  | int16
  | int32
  | int64
  | uint8
  | uint16
  | uint32
  | uint64
  | string
deriving DecidableEq

namespace LeafType

/-- The values of a type. -/
def Has : LeafType → Val → Prop
  | binary, v => ∃ s, v = .binary s
  | bits, v => ∃ s, v = .bits s
  | boolean, v => ∃ b, v = .bool b
  | empty, v => v = .leafEmpty
  | enumeration, v => ∃ s, v = .enumeration s
  | identityref, v => ∃ s, v = .identityref s
  | int8, v => ∃ n, v = .int8 n
  | int16, v => ∃ n, v = .int16 n
  | int32, v => ∃ n, v = .int32 n
  | int64, v => ∃ n, v = .int64 n
  | uint8, v => ∃ n, v = .uint8 n
  | uint16, v => ∃ n, v = .uint16 n
  | uint32, v => ∃ n, v = .uint32 n
  | uint64, v => ∃ n, v = .uint64 n
  | string, v => ∃ s, v = .string s

/-- The integer `to_string` has written. -/
def readInt (s : String) : ℤ :=
  match s.toList with
  | [] => 0
  | c :: cs =>
      match JsonText.readNumber c cs with
      | some (.num n, _) => n
      | _ => 0

theorem readInt_toString (n : ℤ) : readInt (toString n) = n := by
  obtain ⟨c, cs, htext, -, hread⟩ := JsonText.readNumber_num n [] (by simp [JsonText.Ends])
  rw [List.append_nil] at hread
  rw [readInt, htext]
  simp only [hread]

/-- The value of a leaf with this JSON. -/
def decode : LeafType → Json → Val
  | empty, _ => .leafEmpty
  | binary, .str s => .binary s
  | bits, .str s => .bits s
  | boolean, .str s => .bool (s == "true")
  | enumeration, .str s => .enumeration s
  | identityref, .str s => .identityref s
  | string, .str s => .string s
  | int8, .num n => .int8 (Int8.ofInt n)
  | int16, .num n => .int16 (Int16.ofInt n)
  | int32, .num n => .int32 (Int32.ofInt n)
  | int64, .str s => .int64 (Int64.ofInt (readInt s))
  | uint8, .num n => .uint8 (UInt8.ofNat n.toNat)
  | uint16, .num n => .uint16 (UInt16.ofNat n.toNat)
  | uint32, .num n => .uint32 (UInt32.ofNat n.toNat)
  | uint64, .str s => .uint64 (UInt64.ofNat (readInt s).toNat)
  | _, _ => .unknown

/-- **A value is read back from its JSON.** -/
theorem decode_json {type : LeafType} {v : Val} (h : type.Has v) (hne : type ≠ empty) :
    ∃ x, v.json = .ok x ∧ type.decode x = v := by
  cases type with
  | empty => exact absurd rfl hne
  | boolean =>
      obtain ⟨b, rfl⟩ := h
      cases b <;> exact ⟨_, rfl, rfl⟩
  | binary | bits | enumeration | identityref | string =>
      obtain ⟨s, rfl⟩ := h
      exact ⟨_, rfl, rfl⟩
  | int8 | int16 | int32 =>
      obtain ⟨n, rfl⟩ := h
      exact ⟨_, rfl, by simp [decode]⟩
  | uint8 | uint16 | uint32 =>
      obtain ⟨n, rfl⟩ := h
      exact ⟨_, rfl, by simp [decode]⟩
  | int64 =>
      obtain ⟨n, rfl⟩ := h
      refine ⟨.str (toString n.toInt), rfl, ?_⟩
      rw [decode, readInt_toString, Int64.ofInt_toInt]
  | uint64 =>
      obtain ⟨n, rfl⟩ := h
      have hread : readInt (toString n.toNat) = n.toNat := readInt_toString n.toNat
      refine ⟨.str (toString n.toNat), rfl, ?_⟩
      rw [decode, hread, Int.toNat_natCast, UInt64.ofNat_toNat]

/-- The values of a type are those of leaves. -/
theorem not_isNested {type : LeafType} {v : Val} (h : type.Has v) : ¬ v.IsNested := by
  cases type with
  | empty =>
      obtain rfl := h
      simp [Val.IsNested]
  | _ =>
      obtain ⟨_, rfl⟩ := h
      simp [Val.IsNested]

/-- A type that is not empty has two values. -/
theorem exists_ne {type : LeafType} (hne : type ≠ empty) :
    ∃ v v', type.Has v ∧ type.Has v' ∧ v ≠ v' := by
  cases type with
  | empty => exact absurd rfl hne
  | boolean => exact ⟨.bool true, .bool false, ⟨_, rfl⟩, ⟨_, rfl⟩, by simp⟩
  | binary | bits | enumeration | identityref | string =>
      exact ⟨_, _, ⟨"a", rfl⟩, ⟨"b", rfl⟩, by simp⟩
  | int8 | int16 | int32 | int64 | uint8 | uint16 | uint32 | uint64 =>
      exact ⟨_, _, ⟨0, rfl⟩, ⟨1, rfl⟩, by simp⟩

end LeafType

/-! ### Schemas -/

/-- The kind of a name, the type of a leaf, and the names below. A leaf is one of a leaf-list
too, if it stands alone. -/
inductive TypedSchema where
  | leaf (name : QName) (type : LeafType)
  | container (name : QName) (presence : Bool) (children : List TypedSchema)
  | list (name : QName) (children : List TypedSchema)

namespace TypedSchema

/-- The name of a schema. -/
def name : TypedSchema → QName
  | leaf name _ => name
  | container name _ _ => name
  | list name _ => name

mutual

/-- The schema node, whose instances are the trees of the schema. -/
def node : TypedSchema → SchemaNode
  | leaf name type => .leaf name type.Has
  | container name presence children => .container name presence (nodes children)
  | list name children => .list name (nodes children)

def nodes : List TypedSchema → List SchemaNode
  | [] => []
  | s :: rest => s.node :: nodes rest

end

mutual

/-- A schema is well formed if the names `json_tree` uses for siblings are different. -/
def WellFormed : TypedSchema → Prop
  | leaf _ _ => True
  | container _ _ children => (children.map fun s => s.name.name).Nodup ∧ AllWellFormed children
  | list _ children => (children.map fun s => s.name.name).Nodup ∧ AllWellFormed children

/-- All of the schemas are well formed. -/
def AllWellFormed : List TypedSchema → Prop
  | [] => True
  | s :: rest => s.WellFormed ∧ AllWellFormed rest

end

@[simp] theorem name_node (s : TypedSchema) : s.node.name = s.name := by
  cases s <;> rw [node] <;> rfl

theorem nodes_eq (children : List TypedSchema) : nodes children = children.map node := by
  induction children with
  | nil => rfl
  | cons s rest ih => rw [nodes, ih, List.map_cons]

/-- The local names of the schema nodes are those of the schemas. -/
theorem pairwise_nodes {children : List TypedSchema}
    (h : (children.map fun s => s.name.name).Nodup) :
    (nodes children).Pairwise fun s s' => s.name.name ≠ s'.name.name := by
  rw [nodes_eq, List.pairwise_map]
  exact (List.pairwise_map.mp h).imp fun h => by simpa using h

/-- TypedSchema nodes of different local names have different names. -/
theorem nodup_nodes {children : List TypedSchema}
    (h : (children.map fun s => s.name.name).Nodup) :
    ((nodes children).map SchemaNode.name).Nodup :=
  List.pairwise_map.mpr ((pairwise_nodes h).imp fun hne heq => hne (congrArg QName.name heq))

/-- TypedSchema nodes of different local names are compatible. -/
theorem compatible_nodes {children : List TypedSchema}
    (h : (children.map fun s => s.name.name).Nodup) :
    (nodes children).Pairwise SchemaNode.Compatible :=
  (pairwise_nodes h).imp fun hne heq => absurd heq hne

mutual

/-- **The JSON of the instances tells them apart**, in a well-formed schema. -/
theorem wellFormed_node : (s : TypedSchema) → s.WellFormed → s.node.WellFormed ∧ s.node.Told
  | leaf q type, _ => by
      refine ⟨fun v hv => LeafType.not_isNested hv, fun v v' x hv hv' hx hx' => ?_⟩
      by_cases hempty : type = .empty
      · subst hempty
        exact hv.trans hv'.symm
      · obtain ⟨y, hy, hdecode⟩ := LeafType.decode_json hv hempty
        obtain ⟨y', hy', hdecode'⟩ := LeafType.decode_json hv' hempty
        rw [← hdecode, ← hdecode', Except.ok.inj (hy.symm.trans hx),
          Except.ok.inj (hy'.symm.trans hx')]
  | container q presence children, ⟨hnodup, hwell⟩ => by
      obtain ⟨hallWell, hallTold⟩ := wellFormed_nodes children hwell
      exact ⟨⟨nodup_nodes hnodup, hallWell⟩, compatible_nodes hnodup, hallTold⟩
  | list q children, ⟨hnodup, hwell⟩ => by
      obtain ⟨hallWell, hallTold⟩ := wellFormed_nodes children hwell
      exact ⟨⟨nodup_nodes hnodup, hallWell⟩, compatible_nodes hnodup, hallTold⟩

theorem wellFormed_nodes : (children : List TypedSchema) → AllWellFormed children →
    SchemaNode.AllWellFormed (nodes children) ∧ SchemaNode.AllTold (nodes children)
  | [], _ => ⟨trivial, trivial⟩
  | s :: rest, ⟨hs, hrest⟩ => by
      obtain ⟨hwell, htold⟩ := wellFormed_node s hs
      obtain ⟨hallWell, hallTold⟩ := wellFormed_nodes rest hrest
      exact ⟨⟨hwell, hallWell⟩, htold, hallTold⟩

end

/-! ### The decoder -/

/-- A schema whose parts are appended to an array: of list instances and of empty leaves. -/
def Appends : TypedSchema → Bool
  | leaf _ type => type == .empty
  | container _ _ _ => false
  | list _ _ => true

/-- The values of the instances that the value of a name is made of. -/
def elems (s : TypedSchema) (j : Json) : List Json :=
  if s.Appends then
    match j with
    | .arr js => js
    | _ => []
  else [j]

theorem elems_of_not_appends {s : TypedSchema} (h : s.Appends = false) (j : Json) :
    s.elems j = [j] := by
  simp [elems, h]

theorem elems_arr {s : TypedSchema} (h : s.Appends = true) (js : List Json) :
    s.elems (.arr js) = js := by
  simp [elems, h]

/-- The value of a name in an object. -/
def findMember (k : String) : Json → Option Json
  | .obj m => get k m
  | _ => none

/-- The values of the instances of a schema below a value. -/
def found (s : TypedSchema) (j : Json) : List Json := (findMember s.name.name j).elim [] s.elems

mutual

/-- The tree with this JSON. -/
def decode : TypedSchema → Json → Tree
  | leaf name type, j => .node name.module name.name (type.decode j) []
  | container name presence children, j =>
      .node name.module name.name (if presence then .containerPresence else .container)
        (decodeChildren children j)
  | list name children, j => .node name.module name.name .list (decodeChildren children j)

/-- The children of a tree with this JSON. -/
def decodeChildren : List TypedSchema → Json → List Tree
  | [], _ => []
  | s :: rest, j => (s.found j).map (fun x => s.decode x) ++ decodeChildren rest j

end

@[simp] theorem qname_decode (s : TypedSchema) (j : Json) : (s.decode j).qname = s.name := by
  cases s <;> rw [decode] <;> rfl

theorem findMember_ofMembers (k : String) (m : Members) :
    findMember k (Json.ofMembers m) = get k m := by
  cases m <;> rfl

/-- A name without a schema has no trees. -/
theorem ofName_decodeChildren_of_not_mem {children : List TypedSchema} {q : QName}
    (h : q ∉ children.map name) (j : Json) : ofName q (decodeChildren children j) = [] := by
  induction children with
  | nil => rfl
  | cons s rest ih =>
      rw [List.map_cons, List.mem_cons, not_or] at h
      obtain ⟨hs, hrest⟩ := h
      rw [decodeChildren, ofName, List.filter_append]
      refine List.append_eq_nil_iff.mpr ⟨List.filter_eq_nil_iff.mpr fun t ht => ?_, ih hrest⟩
      obtain ⟨x, -, rfl⟩ := List.mem_map.mp ht
      simpa using Ne.symm hs

/-- **The trees of a name** are those of its schema. -/
theorem ofName_decodeChildren {children : List TypedSchema} (hnodup : (children.map name).Nodup)
    {s : TypedSchema} (hs : s ∈ children) (j : Json) :
    ofName s.name (decodeChildren children j) = (s.found j).map fun x => s.decode x := by
  induction children with
  | nil => cases hs
  | cons s' rest ih =>
      obtain ⟨hs', hrest⟩ := List.nodup_cons.mp hnodup
      rw [decodeChildren, ofName, List.filter_append]
      rcases List.mem_cons.mp hs with rfl | hs
      · have hall : ((s.found j).map fun x => s.decode x).filter (fun t => t.qname = s.name) =
            (s.found j).map fun x => s.decode x := by
          refine List.filter_eq_self.mpr fun t ht => ?_
          obtain ⟨x, -, rfl⟩ := List.mem_map.mp ht
          simp
        have hnone := ofName_decodeChildren_of_not_mem hs' j
        rw [ofName] at hnone
        rw [hall, hnone, List.append_nil]
      · have hne : s'.name ≠ s.name := fun heq => hs' (heq ▸ List.mem_map_of_mem hs)
        have hnone : ((s'.found j).map fun x => s'.decode x).filter
            (fun t => t.qname = s.name) = [] := by
          refine List.filter_eq_nil_iff.mpr fun t ht => ?_
          obtain ⟨x, -, rfl⟩ := List.mem_map.mp ht
          simpa using hne
        rw [hnone, List.nil_append]
        exact ih hrest hs

/-! ### Instances are read back -/

/-- A part of the kind a schema has: an entry if it appends, and a single value otherwise. -/
def Fits (s : TypedSchema) : Part → Prop
  | .single _ => s.Appends = false
  | .entry _ => s.Appends = true

/-- An instance that is **read back** from its part. -/
def ReadBack (s : TypedSchema) (t : Tree) : Prop :=
  ∃ p, t.part = .ok p ∧ s.Fits p ∧ SameContent t (s.decode p.json)

/-- **What is found under a name** are the values of the parts there, if these fit. -/
theorem found_eq {s : TypedSchema} {parts : List (String × Part)} (hparts : Consistent parts)
    (hfits : ∀ e ∈ under s.name.name parts, s.Fits e.2) :
    s.found (Json.ofMembers (members parts)) =
      (under s.name.name parts).map fun e => e.2.json := by
  rw [found, findMember_ofMembers, get_members]
  by_cases hk : s.name.name ∈ parts.map Prod.fst
  · rw [if_pos hk, Option.elim_some]
    rcases hparts.under_cases s.name.name with ⟨j, hunder, hvalue⟩ | ⟨js, hunder, hvalue⟩
    · have happends : s.Appends = false := hfits (s.name.name, .single j) (by simp [hunder])
      rw [hvalue, hunder, elems_of_not_appends happends]
      rfl
    · obtain ⟨e, he, hname⟩ := List.mem_map.mp hk
      have hmem : e ∈ under s.name.name parts := List.mem_filter.mpr ⟨he, by simpa using hname⟩
      have happends : s.Appends = true := by
        have hentry := hmem
        rw [hunder] at hentry
        obtain ⟨j, -, rfl⟩ := List.mem_map.mp hentry
        exact hfits _ hmem
      rw [hvalue, hunder, elems_arr happends, List.map_map]
      exact (List.map_id js).symm
  · have hnil : under s.name.name parts = [] := by
      refine List.filter_eq_nil_iff.mpr fun e he => ?_
      simpa using fun hname : e.1 = s.name.name => hk (hname ▸ List.mem_map_of_mem he)
    rw [if_neg hk, hnil]
    rfl

/-- Siblings that are read back have parts. -/
theorem exists_parts_of_readBack {trees : List Tree}
    (h : ∀ t ∈ trees, ∃ s : TypedSchema, s.ReadBack t) :
    ∃ parts, List.Forall₂ HasPart trees parts := by
  induction trees with
  | nil => exact ⟨[], List.Forall₂.nil⟩
  | cons t rest ih =>
      obtain ⟨s, p, hp, -⟩ := h t List.mem_cons_self
      obtain ⟨parts, hparts⟩ := ih fun t' ht' => h t' (List.mem_cons_of_mem _ ht')
      exact ⟨(t.name, p) :: parts, List.Forall₂.cons ⟨rfl, hp⟩ hparts⟩

/-- A child of an instance is one of a schema below. -/
theorem exists_schema {children : List TypedSchema} {trees : List Tree}
    (h : SchemaNode.Siblings (nodes children) trees) :
    ∀ t ∈ trees, ∃ s ∈ children, s.node.Instance t := by
  intro t ht
  obtain ⟨s', hs', hinst⟩ := h.isInstance t ht
  rw [nodes_eq] at hs'
  obtain ⟨s, hs, rfl⟩ := List.mem_map.mp hs'
  exact ⟨s, hs, hinst⟩

/-- The trees of the name of a schema are its instances, and those of its local name. -/
theorem filter_name_eq {children : List TypedSchema} {trees : List Tree}
    (hnodup : (children.map fun s => s.name.name).Nodup)
    (h : ∀ t ∈ trees, ∃ s ∈ children, s.node.Instance t) {s : TypedSchema} (hs : s ∈ children) :
    (∀ t ∈ trees.filter fun t => t.name = s.name.name, s.node.Instance t) ∧
      ofName s.name trees = trees.filter fun t => t.name = s.name.name := by
  have hlocal {t : Tree} (ht : t ∈ trees) (hname : t.name = s.name.name) : s.node.Instance t := by
    obtain ⟨s', hs', hinst⟩ := h t ht
    have hnames : s'.name.name = s.name.name := by
      rw [← hname, ← t.name_qname, hinst.qname, name_node]
    obtain rfl : s' = s := List.inj_on_of_nodup_map hnodup hs' hs hnames
    exact hinst
  constructor
  · intro t ht
    obtain ⟨ht, hname⟩ := List.mem_filter.mp ht
    exact hlocal ht (by simpa using hname)
  · refine List.filter_congr fun t ht => ?_
    have hiff : t.qname = s.name ↔ t.name = s.name.name := by
      constructor
      · intro hq
        rw [← hq, t.name_qname]
      · intro hname
        rw [(hlocal ht hname).qname, name_node]
    simp only [hiff]

/-- The parts of the children of an instance are consistent. -/
theorem consistent_parts {children : List TypedSchema} {trees : List Tree}
    {parts : List (String × Part)} (hnodup : (children.map fun s => s.name.name).Nodup)
    (hwell : AllWellFormed children) (h : SchemaNode.Siblings (nodes children) trees)
    (hparts : List.Forall₂ HasPart trees parts) : Consistent parts := by
  obtain ⟨hallWell, hallTold⟩ := wellFormed_nodes children hwell
  exact h.consistent (nodup_nodes hnodup) (SchemaNode.allWellFormed_iff.mp hallWell)
    (compatible_nodes hnodup) (SchemaNode.allTold_iff.mp hallTold) hparts

/-- **The instances of a schema are found under its name**, in order, if each is read back from
its part. -/
theorem readBack_found {s : TypedSchema} {trees : List Tree} {parts : List (String × Part)}
    (hcons : Consistent parts) (hparts : List.Forall₂ HasPart trees parts)
    (hread : ∀ t ∈ trees.filter fun t => t.name = s.name.name, s.ReadBack t) :
    List.Forall₂ SameContent (trees.filter fun t => t.name = s.name.name)
      ((s.found (Json.ofMembers (members parts))).map fun x => s.decode x) := by
  have hunder : List.Forall₂ (fun t e => s.Fits e.2 ∧ SameContent t (s.decode e.2.json))
      (trees.filter fun t => t.name = s.name.name) (under s.name.name parts) := by
    refine ((List.forall₂_and_left _ _).mpr
      ⟨hread, SchemaNode.hasPart_under hparts s.name.name⟩).imp ?_
    rintro t e ⟨⟨p, hp, hfits, hsame⟩, -, hp'⟩
    obtain rfl := Except.ok.inj (hp'.symm.trans hp)
    exact ⟨hfits, hsame⟩
  have hfits : ∀ e ∈ under s.name.name parts, s.Fits e.2 := by
    intro e he
    obtain ⟨t, -, hfits, -⟩ := exists_left_of_forall₂ hunder he
    exact hfits
  rw [found_eq hcons hfits, List.map_map, List.forall₂_map_right_iff]
  exact hunder.imp fun _ _ h => h.2

/-- **Siblings are read back from their object**: under each name the same instances in the
same order. -/
theorem readBack_siblings {children : List TypedSchema} {trees : List Tree}
    (hnodup : (children.map fun s => s.name.name).Nodup) (hwell : AllWellFormed children)
    (h : SchemaNode.Siblings (nodes children) trees)
    (hread : ∀ s ∈ children, ∀ t, s.node.Instance t → s.ReadBack t) :
    ∃ m, jsonSiblings trees [] = .ok m ∧ ∀ q, List.Forall₂ SameContent (ofName q trees)
      (ofName q (decodeChildren children (Json.ofMembers m))) := by
  have hinstance := exists_schema h
  obtain ⟨parts, hparts⟩ := exists_parts_of_readBack fun t ht => by
    obtain ⟨s, hs, hinst⟩ := hinstance t ht
    exact ⟨s, hread s hs t hinst⟩
  have hcons := consistent_parts hnodup hwell h hparts
  have hloop : jsonSiblings trees [] = .ok (members parts) :=
    jsonSiblings_of_renders (hparts.imp fun _ _ => HasPart.renders) [] hcons
  refine ⟨members parts, hloop, fun q => ?_⟩
  by_cases hq : q ∈ children.map name
  · obtain ⟨s, hs, rfl⟩ := List.mem_map.mp hq
    have hnames : (children.map name).Nodup :=
      List.pairwise_map.mpr ((List.pairwise_map.mp hnodup).imp fun hne heq =>
        hne (congrArg QName.name heq))
    obtain ⟨hfilter, hofName⟩ := filter_name_eq hnodup hinstance hs
    rw [hofName, ofName_decodeChildren hnames hs]
    exact readBack_found hcons hparts fun t ht => hread s hs t (hfilter t ht)
  · have hnone : ofName q trees = [] := by
      refine List.filter_eq_nil_iff.mpr fun t ht => ?_
      obtain ⟨s, hs, hinst⟩ := hinstance t ht
      have hne : t.qname ≠ q := by
        rw [hinst.qname, name_node]
        exact fun heq => hq (heq ▸ List.mem_map_of_mem hs)
      simpa using hne
    rw [hnone, ofName_decodeChildren_of_not_mem hq]
    exact List.Forall₂.nil

mutual

/-- **Instances are read back**, the leaves by their types and the others by their children. -/
theorem readBack_instance : (s : TypedSchema) → s.WellFormed → ∀ t, s.node.Instance t →
    s.ReadBack t
  | leaf q type, _, t, ht => by
      obtain ⟨hq, hdata, hchildren⟩ := ht
      have hpart := part_leaf (LeafType.not_isNested hdata)
      by_cases hempty : type = .empty
      · subst hempty
        have hdata : t.data = .leafEmpty := hdata
        rw [hdata] at hpart
        exact ⟨_, hpart, rfl, SchemaNode.sameContent_leaf hq hdata hchildren rfl⟩
      · obtain ⟨x, hx, hdecode⟩ := LeafType.decode_json hdata hempty
        have hscalar : t.data.IsScalar := by
          refine ⟨LeafType.not_isNested hdata, fun heq => ?_⟩
          rw [heq] at hx
          cases hx
        rw [leafPart_scalar hscalar, hx] at hpart
        have happends : (leaf q type).Appends = false := by simpa [Appends] using hempty
        exact ⟨_, hpart, happends, SchemaNode.sameContent_leaf hq hdecode.symm hchildren rfl⟩
  | container q presence children, ⟨hnodup, hwell⟩, t, ht => by
      obtain ⟨hq, hdata, hsiblings⟩ := SchemaNode.instance_container_iff.mp ht
      obtain ⟨m, hm, hcontent⟩ := readBack_siblings hnodup hwell hsiblings
        (readBack_instances children hwell)
      have hpart : t.part = .ok (.single (Json.ofMembers m)) := by
        rw [Tree.part, hdata, jsonTree_eq_ok.mpr ⟨m, hm, rfl⟩]
        cases presence <;> rfl
      exact ⟨_, hpart, rfl, SchemaNode.sameContent_node hq hdata hcontent⟩
  | list q children, ⟨hnodup, hwell⟩, t, ht => by
      obtain ⟨hq, hdata, hsiblings⟩ := SchemaNode.instance_list_iff.mp ht
      obtain ⟨m, hm, hcontent⟩ := readBack_siblings hnodup hwell hsiblings
        (readBack_instances children hwell)
      have hpart : t.part = .ok (.entry (Json.ofMembers m)) := by
        rw [Tree.part, hdata, jsonTree_eq_ok.mpr ⟨m, hm, rfl⟩]
        rfl
      exact ⟨_, hpart, rfl, SchemaNode.sameContent_node hq hdata hcontent⟩

theorem readBack_instances : (children : List TypedSchema) → AllWellFormed children →
    ∀ s ∈ children, ∀ t, s.node.Instance t → s.ReadBack t
  | [], _, s, hs => absurd hs List.not_mem_nil
  | s :: rest, hwell, s', hs' => by
      rcases List.mem_cons.mp hs' with heq | hs'
      · rw [heq]
        exact readBack_instance s hwell.1
      · exact readBack_instances rest hwell.2 s' hs'

end

/-! ### Which trees are decoded -/

/-- A leaf that is not empty: of several values. -/
def Valued : TypedSchema → Prop
  | leaf _ type => type ≠ .empty
  | _ => False

/-- A decoder **recovers** the trees of a schema, from what `json_tree` returns for them, up to
the order of siblings of different names. -/
def Recovers (s : TypedSchema) (decoder : Json → Tree) : Prop :=
  ∀ t, s.node.Instance t → ∃ j, jsonTree t = .ok j ∧ SameContent t (decoder j)

/-- A tree with children is read back from its JSON as it is from its part. -/
theorem recovers_of_readBack {s : TypedSchema} {data : Val} (hnested : data.IsNested)
    (hdata : ∀ t, s.node.Instance t → t.data = data)
    (h : ∀ t, s.node.Instance t → s.ReadBack t) : Recovers s s.decode := by
  intro t ht
  obtain ⟨p, hp, -, hsame⟩ := h t ht
  refine ⟨p.json, ?_, hsame⟩
  rw [Tree.part, hdata t ht] at hp
  rcases hnested with rfl | rfl | rfl <;>
    (obtain ⟨j, hj, rfl⟩ := map_eq_ok.mp hp
     exact hj)

/-- **Trees are decoded**, unless they are leaves with a value. -/
theorem recovers_decode {s : TypedSchema} (hwell : s.WellFormed) (h : ¬ s.Valued) :
    Recovers s s.decode := by
  cases s with
  | leaf q type =>
      rintro t ⟨hq, hdata, hchildren⟩
      obtain rfl : type = .empty := not_not.mp h
      refine ⟨.null, jsonTree_eq_ok.mpr ⟨[], ?_, rfl⟩, ?_⟩
      · rw [hchildren]
        rfl
      · exact SchemaNode.sameContent_leaf hq hdata hchildren rfl
  | container q presence children =>
      exact recovers_of_readBack (SchemaNode.isNested_presence presence) (fun t ht => ht.2.1)
        (readBack_instance _ hwell)
  | list q children =>
      exact recovers_of_readBack (Or.inl rfl) (fun t ht => ht.2.1) (readBack_instance _ hwell)

/-- **No decoder recovers a leaf with a value**: its JSON is null whatever the value is. -/
theorem not_recovers_of_valued {s : TypedSchema} (h : s.Valued) (decoder : Json → Tree) :
    ¬ Recovers s decoder := by
  intro hrecovers
  cases s with
  | leaf q type =>
      obtain ⟨v, v', hv, hv', hne⟩ := LeafType.exists_ne h
      have hnull {v : Val} (hv : type.Has v) :
          SameContent (SchemaNode.leafTree q v) (decoder .null) := by
        obtain ⟨j, hj, hsame⟩ := hrecovers (SchemaNode.leafTree q v) ⟨rfl, hv, rfl⟩
        obtain rfl : Json.null = j := Except.ok.inj hj
        exact hsame
      exact hne ((hnull hv).data.trans (hnull hv').data.symm)
  | container | list => exact h

/-- **Which trees can be decoded**: all but the leaves with a value as roots, and `decode`
decodes them. -/
theorem decodable_iff {s : TypedSchema} (hwell : s.WellFormed) :
    (Recovers s s.decode ↔ ¬ s.Valued) ∧ ((∃ decoder, Recovers s decoder) ↔ ¬ s.Valued) := by
  have hno : s.Valued → ¬ ∃ decoder, Recovers s decoder := by
    rintro h ⟨decoder, hrecovers⟩
    exact not_recovers_of_valued h decoder hrecovers
  constructor
  · exact ⟨fun hrecovers h => hno h ⟨_, hrecovers⟩, recovers_decode hwell⟩
  · exact ⟨fun hrecovers h => hno h hrecovers, fun h => ⟨_, recovers_decode hwell h⟩⟩

/-- Interfaces with their addresses, and a switch beside them. -/
def interfaces : TypedSchema :=
  .container ⟨"ex", "interfaces"⟩ false
    [.list ⟨"ex", "interface"⟩ [.leaf ⟨"ex", "name"⟩ .string, .leaf ⟨"ex", "enabled"⟩ .empty,
        .list ⟨"ex", "address"⟩ [.leaf ⟨"ex", "prefix"⟩ .uint8]],
      .leaf ⟨"ex", "counter"⟩ .uint64]

theorem interfaces_decodable : Recovers interfaces interfaces.decode := by
  have hwell : interfaces.WellFormed := by
    simp [interfaces, WellFormed, AllWellFormed, name]
  exact (decodable_iff hwell).1.mpr id

/-- A string at the root is not recovered. -/
theorem not_decodable :
    ¬ ∀ s : TypedSchema, s.WellFormed → ∃ decoder, Recovers s decoder := by
  intro h
  obtain ⟨decoder, hrecovers⟩ := h (.leaf ⟨"ex", "hostname"⟩ .string) trivial
  exact not_recovers_of_valued (by simp [Valued]) decoder hrecovers

end TypedSchema

end SysrepoGnxi
