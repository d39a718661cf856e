import Mathlib.Algebra.Order.Field.Rat
import Mathlib.Tactic.FieldSimp
import Mathlib.Tactic.Linarith
import SysrepoGnxi.Placement

/-!
# What Leaves Are Stored As

`store_leaf` on the two kinds of leaves whose value is not the one libyang hands out.

* A leafref leaf should be stored at its own path with the value of the leaf its chain leads
  to. `store_leaf` stores the target instead, where the target is; `storesOwn_iff`.
* A `decimal64` leaf has integer digits, and a scale in its type. The digits are stored
  without the scale; `realDecimals_iff`.
-/

open Dialogue

namespace SysrepoGnxi

/-- The values a dialogue sets, and where; a null value sets none. -/
def valuesSet (evs : List CallEvent) : List (ItemPath × Val) :=
  (setItemCalls evs).filterMap fun call => call.2.map fun val => (call.1, val)

/-- The value a leaf is stored as, if any, at the path of the leaf that has it. -/
theorem valuesSet_leafEdits (path : NodeRef) (isKey : Bool) (value : LyValue) :
    (callsOf (leafEdits path isKey value)).filterMap
        (fun call => call.2.map fun val => (call.1, val)) =
      ((value.place path isKey).map fun w => (ItemPath.dataNode w.1, w.2)).toList := by
  fun_induction leafEdits path isKey value with
  | case1 => simp [callsOf]
  | case2 path isKey targetPath targetKey target hkey ih =>
      obtain rfl : isKey = false := by simpa using hkey
      rw [callsOf, List.filterMap_append, List.filterMap_append, ← callsOf, ih]
      simp [Edit.call]
  | case3 path value hval => simp [callsOf]
  | case4 path isKey value hval hkey exc hto =>
      obtain rfl : isKey = false := by simpa using hkey
      rw [LyValue.place_of_not_leafref path hval, hto]
      rfl
  | case5 path isKey value hval hkey val hto =>
      obtain rfl : isKey = false := by simpa using hkey
      rw [LyValue.place_of_not_leafref path hval, hto]
      rfl

/-- **What a dialogue sets** that makes the calls of a leaf: the value of the leaf, or nothing
if it does not come to that. -/
theorem valuesSet_of_emits {path : NodeRef} {isKey : Bool} {value : LyValue} {x : Handler Unit}
    (honly : x.Only Writing)
    (hemits : EmitsCalls (fun _ => .ok []) (callsOf (leafEdits path isKey value))
      (fun _ => True) x) {evs : List CallEvent} {r : Except Exn Unit} (h : Yields x.run evs r) :
    valuesSet evs <+:
        ((value.place path isKey).map fun w => (ItemPath.dataNode w.1, w.2)).toList ∧
      (r = .ok () → valuesSet evs =
        ((value.place path isKey).map fun w => (ItemPath.dataNode w.1, w.2)).toList) := by
  have hparsed : ∀ ev ∈ evs, Parsed (fun _ => .ok []) ev.1 ev.2 := fun ev hev =>
    (honly.mem h ev hev).parsed
  obtain ⟨hpre, hall⟩ := hemits evs r h hparsed
  rw [← valuesSet_leafEdits]
  exact ⟨hpre.filterMap _, fun hr => congrArg (List.filterMap _) (hall () hr).1⟩

/-! ### Leafrefs -/

/-- The paths of the targets of a value, along the chain of leafrefs. -/
def LyValue.targets : LyValue → List NodeRef
  | .leafref targetPath _ target => targetPath :: target.targets
  | _ => []

/-- **A leafref leaf is stored at its own path**: whenever `store_leaf` returns, it has set
one value, the final one at the path of the leaf, and none at the path of a target. -/
def StoresOwn (path targetPath : NodeRef) (targetKey : Bool) (target : LyValue) : Prop :=
  ∀ evs, Yields (storeLeaf path false (.leafref targetPath targetKey target)).run evs (.ok ()) →
    (∃ val, target.final = some val ∧ valuesSet evs = [(.dataNode path, val)]) ∧
      ∀ p ∈ (LyValue.leafref targetPath targetKey target).targets, ∀ val,
        (.dataNode p, val) ∉ valuesSet evs

/-- What is stored of a leafref is stored at the path of a target. -/
theorem place_mem_targets {path targetPath : NodeRef} {targetKey : Bool} {target : LyValue}
    {w : NodeRef × Val}
    (h : (LyValue.leafref targetPath targetKey target).place path false = some w) :
    w.1 ∈ (LyValue.leafref targetPath targetKey target).targets := by
  rw [LyValue.place_leafref] at h
  obtain rfl := LyValue.isKey_of_place h
  induction target generalizing path targetPath with
  | leafref targetPath' targetKey' target ih =>
      rw [LyValue.place_leafref] at h
      obtain rfl := LyValue.isKey_of_place h
      exact List.mem_cons_of_mem _ (@ih targetPath _ h)
  | _ =>
      rw [LyValue.place_of_not_leafref _ (by simp)] at h
      obtain ⟨val, -, rfl⟩ := Option.map_eq_some_iff.mp h
      exact List.mem_cons_self

/-- A leafref that can be stored is not stored at its own path. -/
theorem not_storable_of_storesOwn {path targetPath : NodeRef} {targetKey : Bool}
    {target : LyValue} (h : StoresOwn path targetPath targetKey target) :
    ¬ target.Storable targetKey := by
  intro hs
  have hstorable : (LyValue.leafref targetPath targetKey target).Storable false := Or.inr hs
  have hreturns : (storeLeaf path false _).Returns (Granted fun _ => .ok []) fun _ => True :=
    returns_storeLeaf path false _ hstorable
  obtain ⟨evs, u, hy, -, -⟩ := hreturns.exists_yields exists_granted
  obtain ⟨⟨val, -, hown⟩, hnone⟩ := h evs hy
  have honly := storeRules_only.storeLeaf path false (.leafref targetPath targetKey target)
  have hwrites := (valuesSet_of_emits honly (emits_storeLeaf _ _ _) hy).2 rfl
  cases hplace : (LyValue.leafref targetPath targetKey target).place path false with
  | none =>
      rw [hplace, hown] at hwrites
      cases hwrites
  | some w =>
      rw [hplace] at hwrites
      exact hnone w.1 (place_mem_targets hplace) w.2 (by rw [hwrites]; exact List.mem_cons_self)

/-- **When a leafref leaf is stored at its own path**: only if it is not stored at all. -/
theorem storesOwn_iff (path targetPath : NodeRef) (targetKey : Bool) (target : LyValue) :
    StoresOwn path targetPath targetKey target ↔ ¬ target.Storable targetKey := by
  constructor
  · exact not_storable_of_storesOwn
  · intro hs evs hy
    have hparsed : ∀ ev ∈ evs, Parsed (fun _ => .ok []) ev.1 ev.2 := fun ev hev =>
      ((storeRules_only.storeLeaf path false _).mem hy ev hev).parsed
    obtain ⟨-, hstorable⟩ := ends_storeLeaf path false _ evs () hy hparsed
    exact absurd (hstorable.resolve_left (by simp)) hs

/-- The name of the primary interface refers to the key of an interface: nothing is set. -/
theorem not_storesOwn : ¬ ∀ (path targetPath : NodeRef) (targetKey : Bool) (target : LyValue),
    StoresOwn path targetPath targetKey target := by
  intro h
  have hown := h [.leaf ⟨"ex", "primary"⟩]
    [.list ⟨"ex", "interface"⟩ [("name", .string "eth0")], .leaf ⟨"ex", "name"⟩] true
    (.string "eth0")
  exact not_storable_of_storesOwn hown (Or.inl rfl)

/-! ### Doubles of integers -/

/-- Rounding an integer does not go below half of it. -/
theorem lt_two_mul_roundHalfEven {m : ℕ} (hm : m ≠ 0) :
    m < 2 * (roundHalfEven m (Nat.log2 m - 52) * 2 ^ (Nat.log2 m - 52)) := by
  generalize he : Nat.log2 m - 52 = e
  have hfloor : m / 2 ^ e ≤ roundHalfEven m e := by
    rw [roundHalfEven]
    split_ifs <;> omega
  have hpow : 2 ^ e ≤ m :=
    (Nat.pow_le_pow_right (by decide) (by omega)).trans (Nat.log2_self_le hm)
  have hone : 1 ≤ m / 2 ^ e := Nat.div_pos hpow (Nat.two_pow_pos e)
  calc m < (m / 2 ^ e + 1) * 2 ^ e := by
        rw [Nat.mul_comm]
        exact Nat.lt_mul_div_succ m (Nat.two_pow_pos e)
    _ ≤ 2 * (m / 2 ^ e) * 2 ^ e := Nat.mul_le_mul_right _ (by omega)
    _ ≤ 2 * (roundHalfEven m e * 2 ^ e) := by
        rw [Nat.mul_assoc]
        exact Nat.mul_le_mul_left _ (Nat.mul_le_mul_right _ hfloor)

/-- **The double of digits is not the number they denote** at a scale, but for zero. -/
theorem ofInt_eq_div_iff {n : ℤ} {f : ℕ} (hf : 1 ≤ f) :
    Double.ofInt n = .finite (n / 10 ^ f) ↔ n = 0 := by
  constructor
  · intro h
    by_contra hn
    have hpow : (10 : ℚ) ^ f ≠ 0 := by positivity
    have hq := Double.finite.inj h
    rw [eq_div_iff hpow] at hq
    have hz : n.sign * ((roundHalfEven n.natAbs (Nat.log2 n.natAbs - 52) *
        2 ^ (Nat.log2 n.natAbs - 52) : ℕ) : ℤ) * 10 ^ f = n := by exact_mod_cast hq
    have habs := congrArg Int.natAbs hz
    rw [Int.natAbs_mul, Int.natAbs_mul, Int.natAbs_sign_of_ne_zero hn, one_mul, Int.natAbs_natCast,
      Int.natAbs_pow] at habs
    have hlt := lt_two_mul_roundHalfEven (Int.natAbs_ne_zero.mpr hn)
    have hten : 10 ^ 1 ≤ 10 ^ f := Nat.pow_le_pow_right (by decide) hf
    have hle := Nat.mul_le_mul_left (roundHalfEven n.natAbs (Nat.log2 n.natAbs - 52) *
      2 ^ (Nat.log2 n.natAbs - 52)) hten
    rw [show (10 : ℤ).natAbs = 10 from rfl] at habs
    omega
  · rintro rfl
    simp [Double.ofInt]

/-! ### Decimals -/

/-- A number a double can hold: a mantissa of 53 bits at a scale in its range. -/
def Representable (q : ℚ) : Prop :=
  ∃ m e : ℤ, |m| < 2 ^ 53 ∧ -1074 ≤ e ∧ e ≤ 971 ∧ q = m * 2 ^ e

/-- The number that integer digits denote with so many fraction digits. -/
def decimalValue (fractionDigits : ℕ) (digits : Int64) : ℚ :=
  (digits.toInt : ℚ) / 10 ^ fractionDigits

/-- The fraction digits and the digits of the `decimal64` leaf that `store_leaf` stores for a
value, if it does: the leaf itself, or the last target of a leafref. -/
def LyValue.decimal (isKey : Bool) : LyValue → Option (ℕ × Int64)
  | .leafref _ targetKey target => if isKey then none else target.decimal targetKey
  | .dec64 fractionDigits digits => if isKey then none else some (fractionDigits, digits)
  | _ => none

/-- The `decimal64` leaf stored for a node. -/
def DataNode.decimal : DataNode → Option (ℕ × Int64)
  | leaf _ isKey value => value.decimal isKey
  | _ => none

/-- The body of the loop of `storeTree`. -/
def storeVisited (it : NodeRef × DataNode) : Handler Unit := storeNode it.1 it.2

/-- **The decimals of a tree are stored with their real value**: whatever `storeLeaf` sets for
a node of the tree, in the part of a dialogue that belongs to the node, is the number its
digits denote, if a double can hold it. -/
def RealDecimals (node : DataNode) : Prop :=
  ∀ segs as failure, Throwing.Each storeVisited (treeDfs [] node) segs as failure →
    ∀ (k : ℕ) it seg, (treeDfs [] node)[k]? = some it → segs[k]? = some seg →
      ∀ f d, it.2.decimal = some (f, d) → 1 ≤ f → f ≤ 18 → Representable (decimalValue f d) →
        ∀ w ∈ valuesSet seg, w.2 = .decimal64 (.finite (decimalValue f d))

/-- **The dialogue of `storeTree`** has a part for each node, up to one that throws. -/
theorem yields_storeNodes_iff {nodes : List (NodeRef × DataNode)} {evs : List CallEvent}
    {r : Except Exn Unit} : Yields (storeNodes nodes).run evs r ↔
      ∃ segs as failure, Throwing.Each storeVisited nodes segs as failure ∧
        evs = segs.flatten ∧ r = failure.elim (.ok ()) .error := by
  induction nodes generalizing evs r with
  | nil =>
      rw [storeNodes, Throwing.yields_pure]
      constructor
      · rintro ⟨rfl, rfl⟩
        exact ⟨[], [], none, Throwing.Each.nil, rfl, rfl⟩
      · rintro ⟨segs, as, failure, heach, rfl, rfl⟩
        cases heach
        exact ⟨rfl, rfl⟩
  | cons it rest ih =>
      rw [storeNodes, Throwing.yields_bind]
      constructor
      · rintro (⟨evs₁, evs₂, u, rfl, h₁, h₂⟩ | ⟨exc, h₁, rfl⟩)
        · obtain ⟨segs, as, failure, heach, rfl, rfl⟩ := ih.mp h₂
          exact ⟨evs₁ :: segs, u :: as, failure, Throwing.Each.cons h₁ heach, rfl, rfl⟩
        · exact ⟨[evs], [], some exc, Throwing.Each.fail h₁, by simp, rfl⟩
      · rintro ⟨segs, as, failure, heach, rfl, rfl⟩
        cases heach with
        | @cons _ _ seg segs u as _ hit hrest =>
            exact Or.inl ⟨seg, segs.flatten, u, rfl, hit,
              ih.mpr ⟨segs, as, failure, hrest, rfl, rfl⟩⟩
        | @fail _ _ seg exc hit =>
            rw [List.flatten_singleton]
            exact Or.inr ⟨exc, hit, rfl⟩

/-- What is stored for a decimal is the double of its digits. -/
theorem place_of_decimal (path : NodeRef) {isKey : Bool} {value : LyValue} {f : ℕ} {d : Int64}
    (h : value.decimal isKey = some (f, d)) :
    (∃ p, value.place path isKey = some (p, .decimal64 (Double.ofInt d.toInt))) ∧
      value.Storable isKey := by
  induction value generalizing path isKey with
  | leafref targetPath targetKey target ih =>
      cases isKey with
      | true => cases h
      | false =>
          obtain ⟨hplace, hs⟩ := ih targetPath h
          exact ⟨hplace, Or.inr hs⟩
  | dec64 f' d' =>
      cases isKey with
      | true => cases h
      | false =>
          obtain ⟨rfl, rfl⟩ := Prod.mk.inj (Option.some.inj h)
          exact ⟨⟨path, rfl⟩, Or.inr ⟨_, rfl⟩⟩
  | _ => cases h

/-- A node with a decimal is a leaf that can be stored. -/
theorem leaf_of_decimal {node : DataNode} {f : ℕ} {d : Int64} (h : node.decimal = some (f, d)) :
    ∃ name isKey value, node = .leaf name isKey value ∧ value.decimal isKey = some (f, d) := by
  cases node with
  | leaf name isKey value => exact ⟨name, isKey, value, rfl, h⟩
  | _ => cases h

/-- **What is set for a node with a decimal**: the double of its digits. -/
theorem valuesSet_decimal {it : NodeRef × DataNode} {f : ℕ} {d : Int64}
    (h : it.2.decimal = some (f, d)) {seg : List CallEvent} {r : Except Exn Unit}
    (hy : Yields (storeVisited it).run seg r) :
    ∃ p, valuesSet seg <+: [(.dataNode p, .decimal64 (Double.ofInt d.toInt))] ∧
      (r = .ok () → valuesSet seg = [(.dataNode p, .decimal64 (Double.ofInt d.toInt))]) := by
  obtain ⟨path, node⟩ := it
  obtain ⟨name, isKey, value, rfl, hvalue⟩ := leaf_of_decimal h
  obtain ⟨⟨p, hplace⟩, -⟩ := place_of_decimal path hvalue
  have hset := valuesSet_of_emits (storeRules_only.storeNode path (.leaf name isKey value))
    (emits_storeNode path (.leaf name isKey value)) hy
  rw [hplace] at hset
  exact ⟨p, hset⟩

/-- A node that can be stored, after others that can, is reached by a dialogue of the tree, and
its part ends well. -/
theorem exists_reached {pre post : List (NodeRef × DataNode)} {it : NodeRef × DataNode}
    (h : ∀ n ∈ pre ++ [it], n.2.Storable) :
    ∃ segs as failure seg, Throwing.Each storeVisited (pre ++ it :: post) segs as failure ∧
      segs[pre.length]? = some seg ∧ Yields (storeVisited it).run seg (.ok ()) := by
  have hreturns : (storeNodes (pre ++ [it])).Returns (Granted fun _ => .ok []) fun _ => True :=
    returns_storeNodes h
  obtain ⟨evs, u, hy, -, -⟩ := hreturns.exists_yields exists_granted
  obtain ⟨segs, as, failure, heach, -, hok⟩ := yields_storeNodes_iff.mp hy
  obtain rfl : failure = none := by
    cases failure with
    | none => rfl
    | some exc => cases hok
  -- the nodes behind it have some dialogue
  have hgranted : ∀ c, ∃ reply, Granted (fun _ => .ok []) c reply := exists_granted
  obtain ⟨evs', r, hy', -⟩ := exists_yields_reply hgranted (storeNodes post).run
  obtain ⟨segs', as', failure', heach', -, -⟩ := yields_storeNodes_iff.mp hy'
  have hwhole := heach.append heach'
  rw [List.append_assoc, List.singleton_append] at hwhole
  have hplace : (pre ++ [it])[pre.length]? = some it := by simp
  obtain ⟨seg, a, hseg, -, hit⟩ := heach.get hplace
  refine ⟨_, _, _, seg, hwhole, ?_, hit⟩
  rw [List.getElem?_append_left (List.getElem?_eq_some_iff.mp hseg).1, hseg]

/-- The nodes before one that is reached can be stored. -/
theorem storable_of_reached {nodes : List (NodeRef × DataNode)} {segs : List (List CallEvent)}
    {as : List Unit} {failure : Option Exn}
    (heach : Throwing.Each storeVisited nodes segs as failure) {k : ℕ} (hk : k < segs.length) :
    ∀ n ∈ nodes.take k, n.2.Storable := by
  intro n hn
  obtain ⟨j, hj, hnj⟩ := List.mem_take_iff_getElem.mp hn
  have hjk : j < k := lt_of_lt_of_le hj (Nat.min_le_left _ _)
  have hjn : nodes[j]? = some n := List.getElem?_eq_some_iff.mpr ⟨_, hnj⟩
  have hsegj : j < segs.length := hjk.trans hk
  have hjseg : segs[j]? = some segs[j] := List.getElem?_eq_getElem hsegj
  obtain ⟨r, hy, hr⟩ := heach.yields hjn hjseg
  -- only the last part may have ended with an exception
  have hlength := heach.length_le
  obtain ⟨u, rfl⟩ := hr (by omega)
  have hparsed : ∀ ev ∈ segs[j], Parsed (fun _ => .ok []) ev.1 ev.2 :=
    fun ev hev => ((storeRules_only.storeNode n.1 n.2).mem hy ev hev).parsed
  exact (ends_storeNode n.1 n.2 _ u hy hparsed).2

/-- A decimal that is reached and stored with its real value is zero. -/
theorem digits_eq_zero_of_realDecimals {node : DataNode} (h : RealDecimals node)
    {pre post : List (NodeRef × DataNode)} {it : NodeRef × DataNode}
    (hsplit : treeDfs [] node = pre ++ it :: post) (hpre : ∀ n ∈ pre, n.2.Storable) {f : ℕ}
    {d : Int64} (hdecimal : it.2.decimal = some (f, d)) (hone : 1 ≤ f) (hle : f ≤ 18)
    (hrep : Representable (decimalValue f d)) : d = 0 := by
  have hstorable : ∀ n ∈ pre ++ [it], n.2.Storable := by
    intro n hn
    rcases List.mem_append.mp hn with hn | hn
    · exact hpre n hn
    · obtain rfl := List.mem_singleton.mp hn
      obtain ⟨name, isKey, value, hleaf, hvalue⟩ := leaf_of_decimal hdecimal
      rw [hleaf]
      exact (place_of_decimal [] hvalue).2
  obtain ⟨segs, as, failure, seg, heach, hseg, hit⟩ := exists_reached hstorable
  obtain ⟨p, -, hset⟩ := valuesSet_decimal hdecimal hit
  rw [← hsplit] at heach
  have hreal := h _ _ _ heach pre.length it seg (by simp [hsplit]) hseg f d hdecimal hone hle hrep
    _ (by rw [hset rfl]; exact List.mem_cons_self)
  exact Int64.toInt_inj.mp ((ofInt_eq_div_iff hone).mp (Val.decimal64.inj hreal))

/-- **Which trees store their decimals with the real value**: those in which every decimal
that a double can hold, and that comes before all leaves of an unsupported type, is zero. -/
theorem realDecimals_iff (node : DataNode) : RealDecimals node ↔
    ∀ pre it post, treeDfs [] node = pre ++ it :: post → (∀ n ∈ pre, n.2.Storable) →
      ∀ f d, it.2.decimal = some (f, d) → 1 ≤ f → f ≤ 18 →
        Representable (decimalValue f d) → d = 0 := by
  constructor
  · intro h pre it post hsplit hpre f d hdecimal hone hle hrep
    exact digits_eq_zero_of_realDecimals h hsplit hpre hdecimal hone hle hrep
  · intro h segs as failure heach k it seg hit hseg f d hdecimal hone hle hrep w hw
    obtain ⟨hk, hget⟩ := List.getElem?_eq_some_iff.mp hit
    have hsplit : treeDfs [] node = (treeDfs [] node).take k ++ it ::
        (treeDfs [] node).drop (k + 1) := by
      rw [← hget, List.getElem_cons_drop, List.take_append_drop]
    have hpre := storable_of_reached heach (List.getElem?_eq_some_iff.mp hseg).1
    obtain rfl := h _ _ _ hsplit hpre f d hdecimal hone hle hrep
    obtain ⟨r, hy, -⟩ := heach.yields hit hseg
    obtain ⟨p, hset, -⟩ := valuesSet_decimal hdecimal hy
    obtain rfl := List.mem_singleton.mp (hset.subset hw)
    exact congrArg Val.decimal64 ((ofInt_eq_div_iff hone).mpr rfl)

/-- The half is stored as five. -/
theorem not_realDecimals : ¬ ∀ node, RealDecimals node := by
  intro h
  have hhalf : Representable (decimalValue 1 5) :=
    ⟨1, -1, by norm_num, by norm_num, by norm_num, by
      have hdigits : (5 : Int64).toInt = 5 := by decide
      rw [decimalValue, hdigits]
      norm_num⟩
  have hsplit : treeDfs [] (.leaf ⟨"ex", "ratio"⟩ false (.dec64 1 5)) =
      [] ++ ([.leaf ⟨"ex", "ratio"⟩], .leaf ⟨"ex", "ratio"⟩ false (.dec64 1 5)) :: [] := rfl
  have hzero : (5 : Int64) = 0 :=
    digits_eq_zero_of_realDecimals (h _) hsplit (by simp) rfl le_rfl (by decide) hhalf
  exact absurd hzero (by decide)

end SysrepoGnxi
