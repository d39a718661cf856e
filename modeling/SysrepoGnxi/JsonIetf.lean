import SysrepoGnxi.Lib.Json
import SysrepoGnxi.Sysrepo

/-!
# Reading Trees as JSON

The read half of `json_ietf.cpp`: `json_tree` turns the children of a sysrepo tree into a
JSON object, and `json_read` does so for every tree an xpath selects, noting the first
key of a list instance beside its text.

`Json::Value val` starts as null and becomes an object with its first member, so the
object under construction is the list of its members and `Json.ofMembers` is the value.
The text is the work of jsoncpp's `FastWriter`, a parameter of `jsonRead`.
-/

open Dialogue JsonDoc

namespace SysrepoGnxi

/-- The decimal digits of `n`, filled up with zeros to six. -/
def sixDigits (n : ℕ) : String :=
  let s := toString n
  String.ofList (List.replicate (6 - s.length) '0') ++ s

/-- The quotient `p / q` rounded to the nearest natural number, ties to even. -/
def roundDiv (p q : ℕ) : ℕ :=
  if 2 * (p % q) < q ∨ (2 * (p % q) = q ∧ p / q % 2 = 0) then p / q else p / q + 1

/-- `std::to_string(double)`: six digits after the point, rounded to the nearest. -/
def Double.toString : Double → String
  | finite x =>
      let n := roundDiv (x.num.natAbs * 10 ^ 6) x.den
      (if x.num < 0 then "-" else "") ++ ToString.toString (n / 10 ^ 6) ++ "." ++
        sixDigits (n % 10 ^ 6)
  | infinity negative => if negative then "-inf" else "inf"
  | nan => "nan"

/-- `get_identityref()`, which refuses a value of another type. -/
def Val.getIdentityref : Val → Except Exn String
  | identityref s => .ok s
  | _ => .error (.sysrepoException "SR_ERR_DATA_MISSING")

/-- The value `json_tree` assigns for a leaf; it throws for the unsupported types. -/
def Val.json : Val → Except Exn Json
  | uint8 n => .ok (.num n.toNat)
  | uint16 n => .ok (.num n.toNat)
  | uint32 n => .ok (.num n.toNat)
  | int8 n => .ok (.num n.toInt)
  | int16 n => .ok (.num n.toInt)
  | int32 n => .ok (.num n.toInt)
  | string s => .ok (.str s)
  | int64 n => .ok (.str (toString n.toInt))
  | uint64 n => .ok (.str (toString n.toNat))
  | decimal64 x => .ok (.str x.toString)
  | identityref s => .ok (.str s)
  | instanceid s => (instanceid s).getIdentityref.map .str
  | binary s => .ok (.str s)
  | bits s => .ok (.str s)
  | enumeration s => .ok (.str s)
  | bool b => .ok (.str (if b then "true" else "false"))
  | anydata => .error (.invalidArgument "unsupported ANYDATA and ANYXML types")
  | anyxml => .error (.invalidArgument "unsupported ANYDATA and ANYXML types")
  | _ => .error (.invalidArgument "Unknown tree node type")

/-- `val[name].append(x)`: it starts an array on a null value and throws on a value that
is neither null nor an array. -/
def appendMember (name : String) (x : Json) (val : Members) : Except Exn Members :=
  match get name val with
  | none => .ok (put name (.arr [x]) val)
  | some .null => .ok (put name (.arr [x]) val)
  | some (.arr elems) => .ok (put name (.arr (elems ++ [x])) val)
  | some _ => .error (.exception "in Json::Value::append(value): requires arrayValue")

/-- The switch of `json_tree`: what it sets for one sibling, on the members set so far. `nested`
is what `json_tree(iter)` returns, for the siblings it is called on. -/
def setMemberWith (nested : Except Exn Json) (iter : Tree) (val : Members) : Except Exn Members :=
  match iter.data with
  | .list => do
      let x ← nested
      appendMember iter.name x val
  | .leafEmpty => appendMember iter.name (.str "null") val
  | .container => do
      let x ← nested
      pure (put iter.name x val)
  | .containerPresence => do
      let x ← nested
      pure (put iter.name x val)
  | data => do
      let x ← data.json
      pure (put iter.name x val)

mutual

/-- `json_tree`: the JSON object of the children of a tree. -/
def jsonTree : Tree → Except Exn Json
  | .node _ _ _ children => do
      let val ← jsonSiblings children []
      pure (Json.ofMembers val)

/-- The loop of `json_tree` over the siblings, on the members set so far. -/
def jsonSiblings : List Tree → Members → Except Exn Members
  | [], val => pure val
  | iter :: rest, val => do
      let val ← setMemberWith (jsonTree iter) iter val
      jsonSiblings rest val

end

/-- What the loop of `json_tree` sets for one sibling. -/
def setMember (iter : Tree) (val : Members) : Except Exn Members :=
  setMemberWith (jsonTree iter) iter val

/-- The loop of `json_tree`, one sibling at a time. -/
theorem jsonSiblings_cons (iter : Tree) (rest : List Tree) (val : Members) :
    jsonSiblings (iter :: rest) val = setMember iter val >>= jsonSiblings rest := by
  rw [jsonSiblings, setMember]

/-- The loop of `json_tree` runs over the first siblings, then over the others. -/
theorem jsonSiblings_append (trees rest : List Tree) (val : Members) :
    jsonSiblings (trees ++ rest) val = jsonSiblings trees val >>= jsonSiblings rest := by
  induction trees generalizing val with
  | nil => rfl
  | cons iter trees ih =>
      rw [List.cons_append, jsonSiblings_cons, jsonSiblings_cons, bind_assoc]
      congr 1
      funext val'
      exact ih val'

/-- `asString()`: arrays and objects are not convertible. -/
def asString : Json → Except Exn String
  | .null => .ok ""
  | .bool b => .ok (if b then "true" else "false")
  | .num n => .ok (toString n)
  | .str s => .ok s
  | .arr _ => .error (.exception "Type is not convertible to string")
  | .obj _ => .error (.exception "Type is not convertible to string")

/-- `JsonData`: the first key of a list instance, name and value, and the JSON text. -/
structure JsonData where
  key : String × String := ("", "")
  data : String := ""
deriving DecidableEq

/-- `val[name]` as it is read from a value of the loop of `json_read`. -/
def member (name : String) : Json → Json
  | .obj m => (get name m).getD .null
  | _ => .null

/-- The key `json_read` notes for a tree: the name and text of the first child of a list
instance, and the key of the previous tree for any other. -/
def noteKey (previous : String × String) (val : Json) (tree : Tree) :
    Except Exn (String × String) :=
  match tree.data, tree.children with
  | .list, [] => .error .nullPointer
  | .list, child :: _ => do
      let text ← asString (member child.name val)
      pure (child.name, text)
  | _, _ => .ok previous

/-- The loop of `json_read`: `tmp` is one variable for all trees. -/
def readTrees (fastWriter : Json → String) (tmp : JsonData) :
    List Tree → Except Exn (List JsonData)
  | [] => pure []
  | tree :: rest => do
      let val ← jsonTree tree
      let key ← noteKey tmp.key val tree
      let tmp : JsonData := ⟨key, fastWriter val⟩
      let vec ← readTrees fastWriter tmp rest
      pure (tmp :: vec)

/-- A sequence of computations that may throw has a value if both have. -/
theorem bind_eq_ok {α β : Type} {x : Except Exn α} {f : α → Except Exn β} {b : β} :
    (x >>= f) = .ok b ↔ ∃ a, x = .ok a ∧ f a = .ok b := by
  cases x <;> simp [bind, Except.bind]

/-- An appended element ends an array. -/
theorem appendMember_eq_ok {name : String} {x : Json} {val val' : Members}
    (h : appendMember name x val = .ok val') :
    ∃ elems, val' = put name (.arr (elems ++ [x])) val := by
  simp only [appendMember] at h
  split at h
  · exact ⟨[], (Except.ok.inj h).symm⟩
  · exact ⟨[], (Except.ok.inj h).symm⟩
  · exact ⟨_, (Except.ok.inj h).symm⟩
  · cases h

/-- **A sibling sets the member of its name**, and no other: to an array if it is a list
instance or an empty leaf, to the value of the leaf, or to the object of a container. -/
theorem setMember_eq_ok {iter : Tree} {val val' : Members} (h : setMember iter val = .ok val') :
    ∃ x, val' = put iter.name x val ∧
      ((∃ elems, x = .arr elems) ∨ iter.data.json = .ok x ∨
        ((iter.data = .container ∨ iter.data = .containerPresence) ∧ jsonTree iter = .ok x)) := by
  have hleaf (h : (do let x ← iter.data.json; pure (put iter.name x val)) = .ok val') :
      ∃ x, val' = put iter.name x val ∧ iter.data.json = .ok x := by
    obtain ⟨x, hx, hput⟩ := bind_eq_ok.mp h
    exact ⟨x, (Except.ok.inj hput).symm, hx⟩
  cases hdata : iter.data with
  | list =>
      simp only [setMember, setMemberWith, hdata] at h
      obtain ⟨x, -, happend⟩ := bind_eq_ok.mp h
      obtain ⟨elems, rfl⟩ := appendMember_eq_ok happend
      exact ⟨_, rfl, Or.inl ⟨_, rfl⟩⟩
  | leafEmpty =>
      simp only [setMember, setMemberWith, hdata] at h
      obtain ⟨elems, rfl⟩ := appendMember_eq_ok h
      exact ⟨_, rfl, Or.inl ⟨_, rfl⟩⟩
  | container | containerPresence =>
      simp only [setMember, setMemberWith, hdata] at h
      obtain ⟨x, hx, hput⟩ := bind_eq_ok.mp h
      exact ⟨x, (Except.ok.inj hput).symm, Or.inr (Or.inr ⟨by simp, hx⟩)⟩
  | _ =>
      simp only [setMember, setMemberWith, hdata] at h
      rw [← hdata] at h
      obtain ⟨x, hput, hx⟩ := hleaf h
      exact ⟨x, hput, Or.inr (Or.inl (hdata ▸ hx))⟩

/-- The loop of `json_tree` leaves the members of other names alone. -/
theorem get_jsonSiblings_of_absent {trees : List Tree} {val m : Members} {k : String}
    (hk : ∀ t ∈ trees, t.name ≠ k) (h : jsonSiblings trees val = .ok m) :
    get k m = get k val := by
  induction trees generalizing val with
  | nil =>
      obtain rfl : val = m := Except.ok.inj h
      rfl
  | cons iter rest ih =>
      rw [jsonSiblings_cons] at h
      obtain ⟨val', hset, hrest⟩ := bind_eq_ok.mp h
      obtain ⟨x, rfl, -⟩ := setMember_eq_ok hset
      rw [ih (fun t ht => hk t (List.mem_cons_of_mem _ ht)) hrest, get_put,
        if_neg (hk iter List.mem_cons_self)]

/-- **Inversion of the loop of `json_read`**: what it makes of the first tree, and that it
goes on with the others. -/
theorem readTrees_cons_eq_ok {fastWriter : Json → String} {tmp : JsonData} {tree : Tree}
    {rest : List Tree} {vec : List JsonData} :
    readTrees fastWriter tmp (tree :: rest) = .ok vec ↔
      ∃ val key vec', jsonTree tree = .ok val ∧ noteKey tmp.key val tree = .ok key ∧
        readTrees fastWriter ⟨key, fastWriter val⟩ rest = .ok vec' ∧
        vec = ⟨key, fastWriter val⟩ :: vec' := by
  simp only [readTrees, bind_eq_ok]
  constructor
  · rintro ⟨val, hval, key, hkey, vec', hrest, h⟩
    exact ⟨val, key, vec', hval, hkey, hrest, (Except.ok.inj h).symm⟩
  · rintro ⟨val, key, vec', hval, hkey, hrest, rfl⟩
    exact ⟨val, hval, key, hkey, vec', hrest, rfl⟩

/-- A computation that may throw, as code of a handler. -/
def ofExcept {α : Type} (x : Except Exn α) : Handler α :=
  match x with
  | .ok a => pure a
  | .error exc => throw exc

theorem yields_ofExcept {α : Type} {x : Except Exn α} {evs : List CallEvent}
    {r : Except Exn α} : Yields (ofExcept x).run evs r ↔ evs = [] ∧ r = x := by
  cases x with
  | ok a => exact Throwing.yields_pure
  | error exc => exact Throwing.yields_throw

/-- `Encode::json_read`. -/
def jsonRead (fastWriter : Json → String) (xpath : String) : Handler (List JsonData) := do
  match ← getSubtrees (cStr xpath) with
  | none => throw (.invalidArgument "xpath not found")
  | some trees => ofExcept (readTrees fastWriter {} trees)

/-- What `json_read` ends with on a reply of `get_subtrees`. -/
def jsonOutcome (fastWriter : Json → String) :
    Except Exn (Option (List Tree)) → Except Exn (List JsonData)
  | .error exc => .error exc
  | .ok none => .error (.invalidArgument "xpath not found")
  | .ok (some trees) => readTrees fastWriter {} trees

/-- **`json_read`** asks for the subtrees once, and ends as the reply tells. -/
theorem yields_jsonRead_iff {fastWriter : Json → String} {xpath : String} {evs : List CallEvent}
    {r : Except Exn (List JsonData)} :
    Yields (jsonRead fastWriter xpath).run evs r ↔
      ∃ reply, evs = [⟨.getSubtrees (cStr xpath), reply⟩] ∧ r = jsonOutcome fastWriter reply := by
  rw [jsonRead, getSubtrees, Throwing.yields_bind]
  constructor
  · rintro (⟨evs₁, evs₂, o, rfl, h₁, h₂⟩ | ⟨exc, h₁, rfl⟩)
    · obtain ⟨reply, rfl, hreply⟩ := Throwing.yields_ask.mp h₁
      obtain rfl : Except.ok o = reply := hreply
      cases o with
      | none =>
          obtain ⟨rfl, rfl⟩ := Throwing.yields_throw.mp h₂
          exact ⟨_, rfl, rfl⟩
      | some trees =>
          obtain ⟨rfl, rfl⟩ := yields_ofExcept.mp h₂
          exact ⟨_, rfl, rfl⟩
    · obtain ⟨reply, rfl, hreply⟩ := Throwing.yields_ask.mp h₁
      obtain rfl : Except.error exc = reply := hreply
      exact ⟨_, rfl, rfl⟩
  · rintro ⟨exc | _ | trees, rfl, rfl⟩
    · exact Or.inr ⟨exc, Throwing.yields_ask.mpr ⟨_, rfl, rfl⟩, rfl⟩
    · exact Or.inl ⟨_, [], none, rfl, Throwing.yields_ask.mpr ⟨_, rfl, rfl⟩,
        Throwing.yields_throw.mpr ⟨rfl, rfl⟩⟩
    · exact Or.inl ⟨_, [], some trees, rfl, Throwing.yields_ask.mpr ⟨_, rfl, rfl⟩,
        yields_ofExcept.mpr ⟨rfl, rfl⟩⟩

end SysrepoGnxi
