import SysrepoGnxi.LeafWrites
import SysrepoGnxi.Leaves
import SysrepoGnxi.Lib.Decimal

/-!
# Decimals Read Back

A `decimal64` leaf is shown as the text of `std::to_string`, which has six digits after the
point. `Decimal64.readBack_iff` says which decimals are read back from it, wherever in a tree
they stand: the whole numbers of millionths.
-/

open JsonDoc

namespace SysrepoGnxi

/-! ### The place of a leaf -/

/-- `LeafAt t way v`: below `t` there is a leaf with the value `v`, of which `json_tree` leaves
a value at the place `way` of its JSON. No later sibling sets the member of a leaf or of a
container, and a list instance has the instances of its list beside it under its name. -/
inductive LeafAt : Tree → List Json.Token → Val → Prop where
  | leaf {d leaf : Tree} {pre post : List Tree} :
      d.children = pre ++ leaf :: post → (∀ s ∈ post, s.name ≠ leaf.name) →
      leaf.data.IsScalar → LeafAt d [.member leaf.name] leaf.data
  | container {d c : Tree} {pre post : List Tree} {way : List Json.Token} {v : Val} :
      d.children = pre ++ c :: post → (∀ s ∈ post, s.name ≠ c.name) →
      c.data = .container ∨ c.data = .containerPresence → LeafAt c way v →
      LeafAt d (.member c.name :: way) v
  | list {d c : Tree} {pre post : List Tree} {way : List Json.Token} {v : Val} :
      d.children = pre ++ c :: post → (∀ s ∈ d.children, s.name = c.name → s.data = .list) →
      c.data = .list → LeafAt c way v →
      LeafAt d (.member c.name :: .element (pre.filter fun s => s.name = c.name).length :: way) v

/-- Of siblings that are all appended, each is counted. -/
theorem trailing_of_lists {k : String} {trees : List Tree}
    (h : ∀ t ∈ trees, t.name = k → t.data = .list) :
    trailing k trees = (trees.filter fun t => t.name = k).length := by
  have hall : ∀ t ∈ trees.reverse.filter fun t => t.name = k, decide t.Appends = true := by
    intro t ht
    obtain ⟨ht, hk⟩ := List.mem_filter.mp ht
    have happ : t.Appends := Or.inl (h t (List.mem_reverse.mp ht) (by simpa using hk))
    simpa using happ
  rw [trailing, List.takeWhile_eq_self_iff.mpr hall, List.filter_reverse, List.length_reverse]

/-- **The forks of a leaf** that has a place: the place they lead to is the same. -/
theorem LeafAt.exists_forks {t : Tree} {way : List Json.Token} {v : Val} (h : LeafAt t way v) :
    v.IsScalar ∧ ∃ forks d f, EnteredBy t forks d ∧ f.Of d ∧ f.child.data = v ∧
      (∀ f' ∈ forks ++ [f], f'.Kept) ∧ wayOf (forks ++ [f]) = way := by
  induction h with
  | @leaf d leaf pre post hchildren hpost hscalar =>
      refine ⟨hscalar, [], d, ⟨pre, leaf, post⟩, EnteredBy.root d, hchildren, rfl, ?_, ?_⟩
      · intro f' hf'
        obtain rfl := List.mem_singleton.mp hf'
        exact fun s hs hname => absurd hname (hpost s hs)
      · have hlist : leaf.data ≠ .list := fun hdata => hscalar.1 (Or.inl hdata)
        simp [wayOf, Fork.tokens, hlist]
  | @container d c pre post way v hchildren hpost hc _ ih =>
      obtain ⟨hscalar, forks, d', f, hd', hof, hdata, hkept, hway⟩ := ih
      refine ⟨hscalar, ⟨pre, c, post⟩ :: forks, d', f, ?_, hof, hdata, ?_, ?_⟩
      · exact EnteredBy.child hchildren (Or.inr hc) hd'
      · rw [List.cons_append, List.forall_mem_cons]
        exact ⟨fun s hs hname => absurd hname (hpost s hs), hkept⟩
      · have hlist : c.data ≠ .list := by rcases hc with hc | hc <;> simp [hc]
        rw [List.cons_append, wayOf, List.flatMap_cons, ← wayOf, hway, Fork.tokens, if_neg hlist]
        rfl
  | @list d c pre post way v hchildren hlists hc _ ih =>
      obtain ⟨hscalar, forks, d', f, hd', hof, hdata, hkept, hway⟩ := ih
      have hpre : ∀ s ∈ pre, s.name = c.name → s.data = .list :=
        fun s hs => hlists s (by simp [hchildren, hs])
      refine ⟨hscalar, ⟨pre, c, post⟩ :: forks, d', f, ?_, hof, hdata, ?_, ?_⟩
      · exact EnteredBy.child hchildren (Or.inl hc) hd'
      · rw [List.cons_append, List.forall_mem_cons]
        refine ⟨fun s hs hname => ⟨hc, Or.inl ?_⟩, hkept⟩
        exact hlists s (by simp [hchildren, hs]) hname
      · rw [List.cons_append, wayOf, List.flatMap_cons, ← wayOf, hway, Fork.tokens, if_pos hc,
          Fork.index, trailing_of_lists hpre]
        rfl

/-- **The place of a leaf has its value.** -/
theorem LeafAt.follow_jsonTree {t : Tree} {way : List Json.Token} {v : Val} (h : LeafAt t way v)
    {j x : Json} (hj : jsonTree t = .ok j) (hx : v.json = .ok x) : j.follow way = some x := by
  obtain ⟨hscalar, forks, d, f, hd, hof, rfl, hkept, rfl⟩ := h.exists_forks
  have hleaf : LeafOf t (forks ++ [f]) f.child.data := LeafOf.child hd hof hscalar.1
  obtain ⟨y, hy, hfollow⟩ := hleaf.follow (by simp) hkept hscalar hj
  rw [hfollow, ← Except.ok.inj (hy.symm.trans hx)]

/-! ### What is set for a leaf -/

/-- What the loop of `json_tree` has under the name of a leaf once it has passed it. -/
def shownAfter (pre : List Tree) (leaf : Tree) : Option Json :=
  ((jsonSiblings (pre ++ [leaf]) []).toOption).bind (get leaf.name)

/-- What the loop sets for a leaf, once it has passed the siblings before. -/
theorem shownAfter_eq {pre : List Tree} {leaf : Tree} {val val' : Members}
    (hpre : jsonSiblings pre [] = .ok val) (hset : setMember leaf val = .ok val') :
    shownAfter pre leaf = get leaf.name val' := by
  have hloop : jsonSiblings (pre ++ [leaf]) [] = .ok val' := by
    rw [jsonSiblings_append, hpre]
    change jsonSiblings [leaf] val = .ok val'
    rw [jsonSiblings_cons, hset]
    rfl
  rw [shownAfter, hloop]
  rfl

/-- Where `json_tree` enters a tree, its loop passes each of the children. -/
theorem Entered.split {t d : Tree} {j : Json} (h : Entered t d) (hok : jsonTree t = .ok j)
    {pre post : List Tree} {c : Tree} (hchildren : d.children = pre ++ c :: post) :
    ∃ val val' m, jsonSiblings pre [] = .ok val ∧ setMember c val = .ok val' ∧
      jsonSiblings post val' = .ok m ∧ jsonTree d = .ok (Json.ofMembers m) := by
  obtain ⟨m, hm⟩ := h.jsonTree_ok hok
  have hd := jsonTree_eq_ok.mpr ⟨m, hm, rfl⟩
  rw [hchildren] at hm
  obtain ⟨val, val', hpre, hset, hpost⟩ := jsonSiblings_split hm
  exact ⟨val, val', m, hpre, hset, hpost, hd⟩

/-! ### Six digits after the point -/

/-- The number `std::to_string` writes for another: the nearest with six digits after the
point. -/
def toSixDigits (q : ℚ) : ℚ :=
  (if q.num < 0 then -1 else 1) * (roundDiv (q.num.natAbs * 10 ^ 6) q.den / 10 ^ 6)

/-- The digits after the point are six. -/
theorem sixDigits_eq {n : ℕ} (h : n < 10 ^ 6) :
    ∃ k, sixDigits n = String.ofList (DecimalText.padded k n) ∧
      (DecimalText.padded k n).length = 6 := by
  refine ⟨6 - (toString n).length, ?_, ?_⟩
  · rw [sixDigits, DecimalText.padded, String.ofList_append, String.ofList_toList]
    rfl
  · have hlength : n.repr.length ≤ 6 := Nat.repr_length n 6 (by decide) h
    rw [DecimalText.padded, List.length_append, List.length_replicate, String.length_toList]
    exact Nat.sub_add_cancel hlength

/-- **What `std::to_string` writes** is read as the nearest number with six digits. -/
theorem read_toString (q : ℚ) :
    DecimalText.read (Double.finite q).toString = some (toSixDigits q) := by
  rw [Double.toString, toSixDigits]
  generalize roundDiv (q.num.natAbs * 10 ^ 6) q.den = n
  obtain ⟨k, htext, hlength⟩ := sixDigits_eq (Nat.mod_lt n (by decide : 10 ^ 6 > 0))
  have hread := DecimalText.read_fixed (decide (q.num < 0)) (n / 10 ^ 6) k (n % 10 ^ 6)
  have hsplit : ((n / 10 ^ 6 : ℕ) : ℚ) + (n % 10 ^ 6 : ℕ) / 10 ^ 6 = n / 10 ^ 6 := by
    have hdiv : ((10 ^ 6 * (n / 10 ^ 6) + n % 10 ^ 6 : ℕ) : ℚ) = n := by rw [Nat.div_add_mod]
    rw [← hdiv]
    push_cast
    ring
  rw [hlength, hsplit] at hread
  rw [htext]
  simpa only [decide_eq_true_eq] using hread

/-- A whole quotient is not rounded. -/
theorem roundDiv_mul (m : ℕ) {d : ℕ} (hd : 0 < d) : roundDiv (m * d) d = m := by
  have hmod : m * d % d = 0 := Nat.mul_mod_left m d
  rw [roundDiv, hmod, if_pos (Or.inl (by omega)), Nat.mul_div_cancel m hd]

/-- A whole number of millionths has its sign. -/
theorem sign_mul_natAbs {q : ℚ} {m : ℤ} (hm : q * 10 ^ 6 = m) :
    (if q.num < 0 then (-1 : ℚ) else 1) * m.natAbs = m := by
  have hneg : q.num < 0 ↔ m < 0 := by
    rw [Rat.num_neg, ← Int.cast_lt_zero (R := ℚ), ← hm]
    constructor <;> intro h <;> linarith
  by_cases h : m < 0
  · rw [if_pos (hneg.mpr h), Nat.cast_natAbs, abs_of_neg h]
    simp
  · rw [if_neg (mt hneg.mp h), Nat.cast_natAbs, abs_of_nonneg (not_lt.mp h), one_mul]

/-- **Which numbers have six digits after the point**: the whole numbers of millionths. -/
theorem toSixDigits_eq_iff (q : ℚ) : toSixDigits q = q ↔ ∃ m : ℤ, q * 10 ^ 6 = m := by
  constructor
  · intro h
    have hwhole : ∃ m : ℤ, toSixDigits q * 10 ^ 6 = m := by
      refine ⟨(if q.num < 0 then -1 else 1) * roundDiv (q.num.natAbs * 10 ^ 6) q.den, ?_⟩
      rw [toSixDigits]
      generalize roundDiv (q.num.natAbs * 10 ^ 6) q.den = n
      split_ifs <;> push_cast <;> ring
    rwa [h] at hwhole
  · rintro ⟨m, hm⟩
    have hnum : q.num * 10 ^ 6 = m * q.den := by
      have hcast : (q.num : ℚ) * 10 ^ 6 = m * q.den := by
        rw [← Rat.mul_den_eq_num q, ← hm]
        ring
      exact_mod_cast hcast
    have habs : q.num.natAbs * 10 ^ 6 = m.natAbs * q.den := by
      have h := congrArg Int.natAbs hnum
      simpa [Int.natAbs_mul] using h
    rw [toSixDigits, habs, roundDiv_mul _ q.den_pos, mul_div_assoc', sign_mul_natAbs hm, ← hm]
    field_simp

/-! ### The decimals that are read back -/

/-- A value of a `decimal64` type: the fraction digits of the type, and its digits. -/
structure Decimal64 where
  fractionDigits : ℕ
  digits : Int64
  inRange : 1 ≤ fractionDigits ∧ fractionDigits ≤ 18

namespace Decimal64

/-- The number a decimal is. -/
def number (x : Decimal64) : ℚ := decimalValue x.fractionDigits x.digits

/-- The decimal in sysrepo, held exactly. -/
def val (x : Decimal64) : Val := .decimal64 (.finite x.number)

/-- Six digits after the point are enough: the decimal is a whole number of millionths. -/
def FitsSixDigits (x : Decimal64) : Prop :=
  (10 : ℤ) ^ x.fractionDigits ∣ x.digits.toInt * 10 ^ 6

/-- **Stored decimals are read back without loss.** -/
structure ReadBack (stored : Set Decimal64) : Prop where
  /-- What `json_tree` sets for a leaf, at any depth, denotes its number. -/
  emitted : ∀ x ∈ stored, ∀ t j, jsonTree t = .ok j → ∀ d, Entered t d →
    ∀ pre leaf post, d.children = pre ++ leaf :: post → leaf.data = x.val →
      ∃ text, shownAfter pre leaf = some (.str text) ∧ DecimalText.read text = some x.number
  /-- So does what stands at the place of the leaf in the JSON that is returned. -/
  placed : ∀ x ∈ stored, ∀ t j, jsonTree t = .ok j → ∀ way, LeafAt t way x.val →
    ∃ text, j.follow way = some (.str text) ∧ DecimalText.read text = some x.number
  /-- Trees with different numbers at one place have different JSON. -/
  distinct : ∀ x ∈ stored, ∀ y ∈ stored, x.number ≠ y.number → ∀ t t' j j' way,
    jsonTree t = .ok j → jsonTree t' = .ok j' → LeafAt t way x.val → LeafAt t' way y.val → j ≠ j'

/-- The decimals that six digits after the point do not change. -/
theorem toSixDigits_number (x : Decimal64) : toSixDigits x.number = x.number ↔ x.FitsSixDigits := by
  have hpow : (10 : ℚ) ^ x.fractionDigits ≠ 0 := by positivity
  rw [toSixDigits_eq_iff, FitsSixDigits, number, decimalValue]
  constructor
  · rintro ⟨m, hm⟩
    refine ⟨m, ?_⟩
    rw [div_mul_eq_mul_div, div_eq_iff hpow, mul_comm (m : ℚ)] at hm
    exact_mod_cast hm
  · rintro ⟨m, hm⟩
    refine ⟨m, ?_⟩
    rw [div_mul_eq_mul_div, div_eq_iff hpow, mul_comm (m : ℚ)]
    exact_mod_cast hm

theorem isScalar_val (x : Decimal64) : x.val.IsScalar := by
  simp [val, Val.IsScalar, Val.IsNested]

/-- The JSON of a decimal. -/
theorem json_val (x : Decimal64) : x.val.json = .ok (.str (Double.finite x.number).toString) := rfl

/-- The text of a decimal that fits denotes its number. -/
theorem FitsSixDigits.read {x : Decimal64} (h : x.FitsSixDigits) :
    DecimalText.read (Double.finite x.number).toString = some x.number := by
  rw [read_toString, x.toSixDigits_number.mpr h]

/-- So does the text at its place in the JSON. -/
theorem FitsSixDigits.placed {x : Decimal64} (h : x.FitsSixDigits) {t : Tree} {j : Json}
    (hj : jsonTree t = .ok j) {way : List Json.Token} (hleaf : LeafAt t way x.val) :
    ∃ text, j.follow way = some (.str text) ∧ DecimalText.read text = some x.number :=
  ⟨_, hleaf.follow_jsonTree hj x.json_val, h.read⟩

/-- A container with a decimal. -/
def ratioTree (x : Decimal64) : Tree :=
  .node "ex" "limits" .container [.node "ex" "ratio" x.val []]

/-- A decimal that is read back fits. -/
theorem fitsSixDigits_of_readBack {stored : Set Decimal64} (h : ReadBack stored) {x : Decimal64}
    (hx : x ∈ stored) : x.FitsSixDigits := by
  obtain ⟨text, hshown, hread⟩ :=
    h.emitted x hx (ratioTree x) _ rfl _ Entered.root [] _ [] rfl rfl
  obtain rfl : (Double.finite x.number).toString = text :=
    Json.str.inj (Option.some.inj hshown)
  rw [read_toString] at hread
  exact x.toSixDigits_number.mp (Option.some.inj hread)

/-- **Which decimals are read back without loss**: the whole numbers of millionths. -/
theorem readBack_iff (stored : Set Decimal64) :
    ReadBack stored ↔ ∀ x ∈ stored, x.FitsSixDigits := by
  constructor
  · exact fun h x hx => fitsSixDigits_of_readBack h hx
  · intro h
    refine ⟨?_, fun x hx t j hj way => (h x hx).placed hj, ?_⟩
    · intro x hx t j hj d hd pre leaf post hchildren hdata
      obtain ⟨val, val', -, hpre, hset, -, -⟩ := hd.split hj hchildren
      have hscalar : leaf.data.IsScalar := hdata ▸ x.isScalar_val
      have hput := hset
      rw [setMember_scalar hscalar, hdata, json_val] at hput
      obtain rfl := Except.ok.inj hput
      refine ⟨_, ?_, (h x hx).read⟩
      rw [shownAfter_eq hpre hset, get_put, if_pos rfl]
    · rintro x hx y hy hne t t' j _ way hj hj' hleaf hleaf' rfl
      obtain ⟨text, hfollow, hread⟩ := (h x hx).placed hj hleaf
      obtain ⟨text', hfollow', hread'⟩ := (h y hy).placed hj' hleaf'
      obtain rfl : text = text' :=
        Json.str.inj (Option.some.inj (hfollow.symm.trans hfollow'))
      exact hne (Option.some.inj (hread.symm.trans hread'))

/-- A ten-millionth. -/
def tenMillionth : Decimal64 := ⟨7, 1, by decide⟩

/-- A ten-millionth is written as zero. -/
theorem not_readBack : ¬ ReadBack Set.univ := by
  intro h
  have hsix : tenMillionth.FitsSixDigits := fitsSixDigits_of_readBack h (Set.mem_univ _)
  have hnot : ¬ (10 : ℤ) ^ 7 ∣ (1 : Int64).toInt * 10 ^ 6 := by decide
  exact hnot hsix

end Decimal64

end SysrepoGnxi
