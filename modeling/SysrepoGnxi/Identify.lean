import Mathlib.Data.List.Forall2
import Mathlib.Data.List.Nodup
import SysrepoGnxi.GetSpec
import SysrepoGnxi.Lib.JsonText
import SysrepoGnxi.Lib.Lists
import SysrepoGnxi.Rendering
import SysrepoGnxi.Store

/-!
# What a Returned Path Identifies

Get answers a path with one update for each tree it selects, and puts the first key of a
list instance into the last element of the path of its update. A client takes that path for
the one of the tree. `identifies_iff` says when it is: when every requested path keeps the
nodes it selects separate (`Separate`).

A path is plain if its names are names of XPath and its key values hold neither a double
quote nor a NUL, which `gnmi_to_xpath` would not carry over. A plain path keeps nodes
separate when it selects a single one that is no list instance, or list instances only, whose
first keys are shown as they are and tell each of them from all the others (`KeyedApart`).
-/

open PathStore XPath JsonDoc Lists

namespace SysrepoGnxi

/-! ### The steps of a full path -/

/-- The steps a prefix and a path stand for. -/
def fullSteps (pfx : Option Path) (path : Path) : List Step :=
  pfx.elim [] Path.steps ++ path.steps

/-- A step is plain if its names are names and its values hold no double quote and no NUL. -/
def PlainStep (s : Step) : Prop :=
  s.Named ∧ ∀ p ∈ s.preds, '"' ∉ p.2.toList ∧ ∀ c ∈ p.2.toList, c.toNat ≠ 0

/-- A prefix and a path are plain if their steps are. -/
def Plain (pfx : Option Path) (path : Path) : Prop :=
  ∀ s ∈ fullSteps pfx path, PlainStep s

theorem toList_fullXpath (pfx : Option Path) (path : Path) :
    (fullXpath pfx path).toList = render (fullSteps pfx path) := by
  cases pfx with
  | none => simp [fullXpath, fullSteps, toList_gnmiToXpath]
  | some pfx =>
      simp [fullXpath, fullSteps, toList_gnmiToXpath, render, String.toList_append]

theorem fullXpath_eq (pfx : Option Path) (path : Path) :
    fullXpath pfx path = String.ofList (render (fullSteps pfx path)) := by
  rw [← toList_fullXpath, String.ofList_toList]

/-- A plain path is read as its own steps. -/
theorem read_fullXpath {pfx : Option Path} {path : Path} (h : Plain pfx path) :
    read (fullXpath pfx path) = some (fullSteps pfx path) := by
  rw [fullXpath_eq]
  exact read_render (fun s hs => (h s hs).1) fun s hs p hp => ((h s hs).2 p hp).1

/-- A path of names and of values without a NUL is its own C string. -/
theorem cStr_fullXpath {pfx : Option Path} {path : Path}
    (hnamed : ∀ s ∈ fullSteps pfx path, s.Named)
    (hvalues : ∀ s ∈ fullSteps pfx path, ∀ p ∈ s.preds, ∀ c ∈ p.2.toList, c.toNat ≠ 0) :
    cStr (fullXpath pfx path) = fullXpath pfx path := by
  refine cStr_eq_self fun c hc => ?_
  rw [toList_fullXpath, render] at hc
  obtain ⟨s, hs, hc⟩ := List.mem_flatMap.mp hc
  simp only [Step.render, List.cons_append, List.mem_cons, List.mem_append,
    List.mem_flatMap] at hc
  rcases hc with rfl | hc | ⟨p, hp, hc⟩
  · decide
  · exact (hnamed s hs).1.ne_zero hc
  · simp only [renderPred, List.cons_append, List.mem_cons, List.mem_append,
      List.not_mem_nil, or_false] at hc
    rcases hc with rfl | (hc | rfl | rfl | hc) | rfl | rfl
    · decide
    · exact ((hnamed s hs).2 p hp).ne_zero hc
    · decide
    · decide
    · exact hvalues s hs p hp c hc
    · decide
    · decide

/-! ### The patched path -/

/-- The key goes into the keys of the last element, over a value it may have there. -/
theorem putKey_cases (k t : String) (keys : List (String × String)) :
    (putKey k t keys = keys ++ [(k, t)] ∧ ∀ e ∈ keys, e.1 ≠ k) ∨
      ∃ before v after, keys = before ++ (k, v) :: after ∧
        putKey k t keys = before ++ (k, t) :: after := by
  induction keys with
  | nil => exact Or.inl ⟨rfl, by simp⟩
  | cons e keys ih =>
      by_cases he : e.1 = k
      · refine Or.inr ⟨[], e.2, keys, ?_, by simp [putKey, he]⟩
        rw [← he]
        rfl
      · rcases ih with ⟨heq, hne⟩ | ⟨before, v, after, rfl, heq⟩
        · refine Or.inl ⟨by simp [putKey, he, heq], fun e' he' => ?_⟩
          rcases List.mem_cons.mp he' with rfl | he'
          · exact he
          · exact hne e' he'
        · exact Or.inr ⟨e :: before, v, after, rfl, by simp [putKey, he, heq]⟩

/-- The key stands among the keys there are. -/
theorem putKey_split (k t : String) (keys : List (String × String)) :
    ∃ before after, putKey k t keys = before ++ (k, t) :: after ∧
      ∀ p ∈ before ++ after, p ∈ keys := by
  rcases putKey_cases k t keys with ⟨heq, -⟩ | ⟨before, v, after, rfl, heq⟩
  · exact ⟨keys, [], heq, by simp⟩
  · refine ⟨before, after, heq, fun p hp => ?_⟩
    simp only [List.mem_append, List.mem_cons] at hp ⊢
    exact hp.imp id Or.inr

/-- The path of an update: the requested one, with a key put into its last element. -/
def Path.narrowed (path : Path) (key : String × String) : Path :=
  if key.1 = "" then path
  else { path with elem := (putLastKey key path.elem).toOption.getD path.elem }

/-- What `putLastKey` does to the steps of a path that has elements. -/
theorem elemSteps_putLastKey (key : String × String) (origin : String)
    {elems : List PathElem} (h : elems ≠ []) (first : Bool) :
    ∃ elems' init n preds, putLastKey key elems = .ok elems' ∧
      elemSteps origin first elems = init ++ [⟨n, preds⟩] ∧
      elemSteps origin first elems' = init ++ [⟨n, putKey key.1 key.2 preds⟩] := by
  induction elems generalizing first with
  | nil => exact absurd rfl h
  | cons node rest ih =>
      cases rest with
      | nil => exact ⟨_, [], _, node.key, rfl, rfl, rfl⟩
      | cons node' rest =>
          obtain ⟨elems', init, n, preds, hput, h₁, h₂⟩ := ih (by simp) false
          refine ⟨node :: elems', ⟨qualify origin first node.name, node.key⟩ :: init, n, preds,
            bind_eq_ok.mpr ⟨elems', hput, rfl⟩, ?_, ?_⟩
          · rw [elemSteps, h₁]
            rfl
          · rw [elemSteps, h₂]
            rfl

/-- **The steps of a narrowed path** are those of the path, but for the keys of the last. -/
theorem fullSteps_narrowed (pfx : Option Path) {path : Path} {k : String} (t : String)
    (hk : k ≠ "") (helem : path.elem ≠ []) :
    ∃ init n preds, fullSteps pfx path = init ++ [⟨n, preds⟩] ∧
      fullSteps pfx (path.narrowed (k, t)) = init ++ [⟨n, putKey k t preds⟩] := by
  obtain ⟨elems', init, n, preds, hput, h₁, h₂⟩ :=
    elemSteps_putLastKey (k, t) path.origin helem true
  refine ⟨pfx.elim [] Path.steps ++ init, n, preds, ?_, ?_⟩
  · rw [fullSteps, Path.steps, h₁, List.append_assoc]
  · rw [fullSteps, Path.steps, Path.narrowed, if_neg hk, hput, List.append_assoc, ← h₂]
    rfl

section Selection

variable (sch : Schema)

/-- A step that one of its predicates refuses is refused. -/
theorem keyTest_of_test {n : String} {preds : List (String × String)} {p : String × String}
    (hp : p ∈ preds) {parent : Option RefStep} {step : RefStep}
    (h : sch.test ⟨n, preds⟩ parent step = true) : sch.keyTest p step = true := by
  simp only [Schema.test, Bool.and_eq_true, List.all_eq_true] at h
  exact h.2 p hp

/-- A selected node passes the predicates of the last step. -/
theorem keyTest_of_mem_select {init : List Step} {n : String}
    {preds : List (String × String)} {p : String × String} (hp : p ∈ preds) {s : Store}
    {x : NodeRef × Node RefStep Val}
    (h : x ∈ select ((init ++ [Step.mk n preds]).map sch.test) s) :
    sch.keyTest p x.2.key = true := by
  rw [List.map_append, List.map_singleton] at h
  obtain ⟨parent, htest⟩ := last_of_mem_select h
  exact keyTest_of_test sch hp htest

/-- The text of a key is one. -/
theorem keyTest_unique {k t u : String} {step : RefStep}
    (ht : sch.keyTest (k, t) step = true) (hu : sch.keyTest (k, u) step = true) : t = u := by
  simp only [Schema.keyTest, beq_iff_eq] at ht hu
  exact Option.some.inj (ht.symm.trans hu)

/-- **What a patched path selects**: with a key that one of the nodes has, those of the
nodes selected before that have it too. -/
theorem select_putKey {init : List Step} {n k t : String} {preds : List (String × String)}
    {s : Store} {x : NodeRef × Node RefStep Val}
    (hx : x ∈ select ((init ++ [Step.mk n preds]).map sch.test) s)
    (hkey : sch.keyTest (k, t) x.2.key = true) :
    select ((init ++ [Step.mk n (putKey k t preds)]).map sch.test) s =
      (select ((init ++ [Step.mk n preds]).map sch.test) s).filter
        fun y => sch.keyTest (k, t) y.2.key := by
  rcases putKey_cases k t preds with ⟨heq, -⟩ | ⟨before, v, after, rfl, heq⟩
  · have htest : sch.test ⟨n, preds ++ [(k, t)]⟩ =
        fun parent step => sch.test ⟨n, preds⟩ parent step && sch.keyTest (k, t) step := by
      funext parent step
      simp [Schema.test, Bool.and_assoc]
    rw [heq, List.map_append, List.map_singleton, htest, select_refine, List.map_append,
      List.map_singleton]
  · -- the path has the key already, so all the nodes have it
    have hv : ∀ y ∈ select ((init ++ [Step.mk n (before ++ (k, v) :: after)]).map sch.test) s,
        sch.keyTest (k, v) y.2.key = true := fun y hy =>
      keyTest_of_mem_select sch (by simp) hy
    obtain rfl : t = v := keyTest_unique sch hkey (hv x hx)
    rw [heq]
    exact (List.filter_eq_self.mpr hv).symm

end Selection

/-! ### The key of a tree -/

/-- The text a leaf has in the JSON of its parent, if it has one. -/
def Val.shownText (v : Val) : String := ((v.json >>= asString).toOption).getD ""

/-- The key a tree shows: the name of its first child, and the text that the JSON of the
tree has under this name. -/
def shownKey (tree : Tree) : Option (String × String) := do
  let first ← tree.children.head?
  let last ← lastNamed first.name tree.children
  pure (first.name, last.data.shownText)

/-- The text under a name is that of the last child of the name. -/
theorem asString_member {trees : List Tree} {m : Members} {k text : String} {last : Tree}
    (hlast : lastNamed k trees = some last) (hm : jsonSiblings trees [] = .ok m)
    (htext : asString (member k (Json.ofMembers m)) = .ok text) :
    text = last.data.shownText := by
  obtain ⟨rfl, pre, post, rfl, hpost⟩ := split_of_lastNamed hlast
  obtain ⟨val, val', -, hset, hrest⟩ := jsonSiblings_split hm
  obtain ⟨x, rfl, hx⟩ := setMember_eq_ok hset
  have hget : get last.name m = some x := by
    rw [get_jsonSiblings_of_absent hpost hrest, get_put, if_pos rfl]
  rw [member_ofMembers, hget, Option.getD_some] at htext
  rcases hx with ⟨elems, rfl⟩ | hx | ⟨hdata, hx⟩
  · cases htext
  · simp [Val.shownText, hx, htext, bind, Except.bind, Except.toOption]
  · -- a container has a text only when it shows nothing
    obtain ⟨module, name, data, children⟩ := last
    obtain ⟨m', -, hx⟩ := bind_eq_ok.mp hx
    obtain rfl := Except.ok.inj hx
    cases m' with
    | cons e m' => cases htext
    | nil =>
        obtain rfl : "" = text := Except.ok.inj htext
        rcases hdata with hdata | hdata <;> rw [hdata] <;> rfl

/-- For a tree that is no list instance the key noted before stays. -/
theorem noteKey_of_ne_list {tree : Tree} {json : Json} {previous key : String × String}
    (hdata : tree.data ≠ .list) (hkey : noteKey previous json tree = .ok key) :
    previous = key := by
  obtain ⟨module, name, data, children⟩ := tree
  cases data <;> first | exact Except.ok.inj hkey | exact absurd rfl hdata

/-- **The key noted for a list instance** is the one its tree shows. -/
theorem shownKey_of_noteKey {tree : Tree} {json : Json} {previous key : String × String}
    (hlist : tree.data = .list) (hjson : jsonTree tree = .ok json)
    (hkey : noteKey previous json tree = .ok key) : shownKey tree = some key := by
  obtain ⟨module, name, data, children⟩ := tree
  obtain rfl : data = .list := hlist
  cases children with
  | nil => cases hkey
  | cons child rest =>
      obtain ⟨text, htext, hkey⟩ := bind_eq_ok.mp hkey
      obtain rfl := Except.ok.inj hkey
      obtain ⟨m, hm, hjson⟩ := bind_eq_ok.mp hjson
      obtain rfl := Except.ok.inj hjson
      cases hlast : lastNamed child.name (child :: rest) with
      | none =>
          have hnone := List.find?_eq_none.mp hlast child (by simp)
          simp at hnone
      | some last =>
          have htext := asString_member hlast hm htext
          simp [shownKey, Tree.children, hlast, htext]

/-- The decimal digits of a number hold no double quote. -/
theorem quote_notMem_toString_nat (n : ℕ) : '"' ∉ (toString n).toList := by
  intro h
  rw [show toString n = n.repr from rfl, Nat.toList_repr] at h
  have hten : 0 < 10 := by decide
  have hdigit := Nat.isDigit_of_mem_toDigits hten (by decide) h
  exact absurd hdigit (by decide)

/-- The text of a `decimal64` holds no double quote. -/
theorem quote_notMem_double (x : Double) : '"' ∉ x.toString.toList := by
  cases x with
  | infinity negative => cases negative <;> decide
  | nan => decide
  | finite x =>
      have hsix : ∀ n, '"' ∉ (sixDigits n).toList := by
        intro n
        rw [sixDigits, String.toList_append, String.toList_ofList, List.mem_append, not_or]
        exact ⟨by simp, quote_notMem_toString_nat n⟩
      have hsign : '"' ∉ (if x.num < 0 then "-" else "").toList := by
        split <;> decide
      simp only [Double.toString, String.toList_append, List.mem_append, not_or]
      exact ⟨⟨⟨hsign, quote_notMem_toString_nat _⟩, by decide⟩, hsix _⟩

/-- **The text shown for a value** is its canonical text, but for a `decimal64` and for the
types without a text; a text of theirs holds no double quote. -/
theorem shownText_cases (sch : Schema) (v : Val) :
    v.shownText = sch.text v ∨ '"' ∉ v.shownText.toList := by
  cases v with
  | decimal64 x => exact Or.inr (quote_notMem_double x)
  | instanceid s =>
      have hnone : (Val.instanceid s).shownText = "" := rfl
      have hempty : '"' ∉ "".toList := by simp
      exact Or.inr (hnone ▸ hempty)
  | _ => exact Or.inl rfl

/-! ### The updates of list instances -/

theorem treeUpdate_eq_ok {path : Path} {it : JsonData} {u : Update}
    (h : treeUpdate path it = .ok u) :
    u = ⟨some (path.narrowed it.key), some (.jsonIetfVal it.data)⟩ ∧
      (it.key.1 ≠ "" → path.elem ≠ []) := by
  rw [treeUpdate] at h
  by_cases hkey : it.key.1 = ""
  · rw [if_neg (by simp [hkey])] at h
    rw [Path.narrowed, if_pos hkey]
    exact ⟨(Except.ok.inj h).symm, fun hne => absurd hkey hne⟩
  · rw [if_pos hkey] at h
    obtain ⟨elem, helem, h⟩ := bind_eq_ok.mp h
    rw [Path.narrowed, if_neg hkey, helem]
    refine ⟨(Except.ok.inj h).symm, fun _ hnil => ?_⟩
    rw [hnil] at helem
    cases helem

/-- The update of a list instance: its own key is in the path. -/
def InstanceUpdate (fastWriter : Json → String) (path : Path) (tree : Tree) (u : Update) :
    Prop :=
  tree.data = .list ∧ ∃ key json, shownKey tree = some key ∧ (key.1 ≠ "" → path.elem ≠ []) ∧
    jsonTree tree = .ok json ∧
    u = ⟨some (path.narrowed key), some (.jsonIetfVal (fastWriter json))⟩

section Reports

variable {fastWriter : Json → String} {path : Path} {previous : String × String}
  {trees : List Tree} {us : List Update}

/-- Trees that are list instances have updates of list instances. -/
theorem instances_of_lists (h : Reports fastWriter path previous trees us)
    (hlist : ∀ t ∈ trees, t.data = .list) :
    List.Forall₂ (InstanceUpdate fastWriter path) trees us := by
  induction h with
  | nil => exact List.Forall₂.nil
  | @cons previous key tree trees json u us hjson hkey hu _ ih =>
      have htree := hlist tree List.mem_cons_self
      obtain ⟨rfl, helem⟩ := treeUpdate_eq_ok hu
      refine List.Forall₂.cons ⟨htree, key, json, ?_, helem, hjson, rfl⟩
        (ih fun t ht => hlist t (List.mem_cons_of_mem _ ht))
      exact shownKey_of_noteKey htree hjson hkey

/-- **A tree that is no list instance repeats a path**: that of the update before it, whose
key is still there. So where no path is repeated all the trees are list instances. -/
theorem lists_of_nodup (h : Reports fastWriter path previous trees us)
    (hfresh : some (path.narrowed previous) ∉ us.map Update.path)
    (hnodup : (us.map Update.path).Nodup) : ∀ t ∈ trees, t.data = .list := by
  induction h with
  | nil => simp
  | @cons previous key tree trees json u us hjson hkey hu _ ih =>
      obtain ⟨rfl, -⟩ := treeUpdate_eq_ok hu
      obtain ⟨hhead, htail⟩ := List.nodup_cons.mp hnodup
      have htree : tree.data = .list := by
        by_contra hne
        obtain rfl := noteKey_of_ne_list hne hkey
        exact hfresh List.mem_cons_self
      intro t ht
      rcases List.mem_cons.mp ht with rfl | ht
      · exact htree
      · exact ih hhead htail t ht

end Reports

/-! ### Nodes that their first key sets apart -/

section Identify

variable (sch : Schema)

/-- The nodes a path selects in a store. -/
def Schema.selected (pfx : Option Path) (path : Path) (s : Store) :
    List (NodeRef × Node RefStep Val) :=
  sch.selection (cStr (fullXpath pfx path)) s

/-- A plain path selects what its own steps do. -/
theorem selected_of_plain {pfx : Option Path} {path : Path} (h : Plain pfx path) (s : Store) :
    sch.selected pfx path s = select ((fullSteps pfx path).map sch.test) s := by
  have hcstr := cStr_fullXpath (fun t ht => (h t ht).1) fun t ht p hp => ((h t ht).2 p hp).2
  rw [Schema.selected, hcstr, Schema.selection, read_fullXpath h]

/-- An ordinary list instance has keys, the first under a name that is one of XPath and of
no other child, with a value that holds no NUL. -/
def Ordinary (x : NodeRef × Node RefStep Val) : Prop :=
  ∃ k v rest, x.2.key.keys = (k, v) :: rest ∧ IsName k ∧
    (∀ t ∈ (treeOf x.2).children.tail, t.name ≠ k) ∧ ∀ c ∈ v.shownText.toList, c.toNat ≠ 0

/-- A node is set apart from others by its first key: the key is shown by its canonical
text, without a double quote in it, and no other of the nodes has that key. -/
def KeyedApart (nodes : List (NodeRef × Node RefStep Val)) (x : NodeRef × Node RefStep Val) :
    Prop :=
  ∃ k v rest, x.2.key.keys = (k, v) :: rest ∧ v.shownText = sch.text v ∧
    '"' ∉ (sch.text v).toList ∧
    (nodes.filter fun y => sch.keyTest (k, sch.text v) y.2.key) = [x]

theorem children_treeOf (n : Node RefStep Val) :
    (treeOf n).children = n.key.keyLeaves ++ treesOf n.children := by
  obtain ⟨step, val, children⟩ := n
  rfl

theorem data_treeOf (n : Node RefStep Val) : (treeOf n).data = n.val := by
  obtain ⟨step, val, children⟩ := n
  rfl

/-- The key an ordinary instance shows is its first. -/
theorem shownKey_of_ordinary {n : Node RefStep Val} {k : String} {v : Val}
    {rest : List (String × Val)} (hkeys : n.key.keys = (k, v) :: rest)
    (htail : ∀ t ∈ (treeOf n).children.tail, t.name ≠ k) :
    shownKey (treeOf n) = some (k, v.shownText) := by
  have hchildren : (treeOf n).children =
      .node n.key.name.module k v [] :: (treeOf n).children.tail := by
    rw [children_treeOf, RefStep.keyLeaves, hkeys]
    rfl
  have hlast : lastNamed k (treeOf n).children = some (.node n.key.name.module k v []) := by
    rw [lastNamed, hchildren, List.reverse_cons, List.find?_append, List.find?_eq_none.mpr]
    · simp [Tree.name]
    · intro t ht
      simpa using htail t (List.mem_reverse.mp ht)
  rw [hchildren] at hlast
  rw [shownKey, hchildren]
  simp [Tree.name, hlast, Tree.data]

/-- What holds of the names and keys of a path, and of a key put into it, holds of those of
the narrowed path. -/
theorem forall_narrowed {Q : String × String → Prop} {pfx : Option Path} {path : Path}
    (k t : String) (h : ∀ u ∈ fullSteps pfx path, IsName u.name ∧ ∀ p ∈ u.preds, Q p)
    (hQ : Q (k, t)) (hk : k ≠ "") (helem : path.elem ≠ []) :
    ∀ u ∈ fullSteps pfx (path.narrowed (k, t)), IsName u.name ∧ ∀ p ∈ u.preds, Q p := by
  obtain ⟨init, n, preds, h₁, h₂⟩ := fullSteps_narrowed pfx t hk helem
  rw [h₁] at h
  rw [h₂]
  intro u hu
  rcases List.mem_append.mp hu with hu | hu
  · exact h u (List.mem_append_left _ hu)
  · obtain rfl := List.mem_singleton.mp hu
    obtain ⟨hname, hpreds⟩ := h ⟨n, preds⟩ (by simp)
    refine ⟨hname, fun p hp => ?_⟩
    obtain ⟨before, after, hput, hrest⟩ := putKey_split k t preds
    simp only [hput, List.mem_append, List.mem_cons] at hp
    rcases hp with hp | rfl | hp
    · exact hpreds p (hrest p (List.mem_append_left _ hp))
    · exact hQ
    · exact hpreds p (hrest p (List.mem_append_right _ hp))

/-- A plain path narrowed by a key without a double quote and a NUL is plain. -/
theorem Plain.narrowed {pfx : Option Path} {path : Path} {k t : String} (h : Plain pfx path)
    (hk : IsName k) (hquote : '"' ∉ t.toList) (hnul : ∀ c ∈ t.toList, c.toNat ≠ 0)
    (helem : path.elem ≠ []) : Plain pfx (path.narrowed (k, t)) := by
  have hall := forall_narrowed k t (Q := fun p => IsName p.1 ∧ '"' ∉ p.2.toList ∧
    ∀ c ∈ p.2.toList, c.toNat ≠ 0)
    (fun u hu => ⟨(h u hu).1.1, fun p hp => ⟨(h u hu).1.2 p hp, (h u hu).2 p hp⟩⟩)
    ⟨hk, hquote, hnul⟩ hk.1 helem
  exact fun u hu => ⟨⟨(hall u hu).1, fun p hp => ((hall u hu).2 p hp).1⟩,
    fun p hp => ((hall u hu).2 p hp).2⟩

section Narrowed

variable {sch} {pfx : Option Path} {path : Path} {k t : String} {s : Store}
  {x : NodeRef × Node RefStep Val}

/-- A path narrowed by a key that a selected node has selects the nodes with this key. -/
theorem selected_narrowed (hplain : Plain pfx path) (hk : IsName k)
    (hquote : '"' ∉ t.toList) (hnul : ∀ c ∈ t.toList, c.toNat ≠ 0) (helem : path.elem ≠ [])
    (hx : x ∈ sch.selected pfx path s) (hkey : sch.keyTest (k, t) x.2.key = true) :
    sch.selected pfx (path.narrowed (k, t)) s =
      (sch.selected pfx path s).filter fun y => sch.keyTest (k, t) y.2.key := by
  obtain ⟨init, n, preds, h₁, h₂⟩ := fullSteps_narrowed pfx t hk.1 helem
  rw [selected_of_plain sch hplain, h₁] at hx ⊢
  rw [selected_of_plain sch (hplain.narrowed hk hquote hnul helem), h₂]
  exact select_putKey sch hx hkey

/-- A node that a narrowed path selects has the key, if its text holds no double quote. -/
theorem keyTest_of_narrowed (hplain : Plain pfx path) (hk : IsName k)
    (hquote : '"' ∉ t.toList) (hnul : ∀ c ∈ t.toList, c.toNat ≠ 0) (helem : path.elem ≠ [])
    (hx : x ∈ sch.selected pfx (path.narrowed (k, t)) s) :
    sch.keyTest (k, t) x.2.key = true := by
  obtain ⟨init, n, preds, -, h₂⟩ := fullSteps_narrowed pfx t hk.1 helem
  rw [selected_of_plain sch (hplain.narrowed hk hquote hnul helem), h₂] at hx
  obtain ⟨before, after, hput, -⟩ := putKey_split k t preds
  exact keyTest_of_mem_select sch (by simp [hput]) hx

/-- **A double quote cuts the key short**: a selected node that the narrowed path selects
too has another key. -/
theorem keyTest_of_cut (hplain : Plain pfx path) (hk : IsName k) (hquote : '"' ∈ t.toList)
    (hnul : ∀ c ∈ t.toList, c.toNat ≠ 0) (helem : path.elem ≠ [])
    (hx : x ∈ sch.selected pfx path s) (hx' : x ∈ sch.selected pfx (path.narrowed (k, t)) s) :
    ∃ a, a ≠ t ∧ sch.keyTest (k, a) x.2.key = true := by
  have hall := forall_narrowed k t
    (Q := fun p => IsName p.1 ∧ ∀ c ∈ p.2.toList, c.toNat ≠ 0)
    (fun u hu => ⟨(hplain u hu).1.1,
      fun p hp => ⟨(hplain u hu).1.2 p hp, ((hplain u hu).2 p hp).2⟩⟩) ⟨hk, hnul⟩ hk.1 helem
  have hcstr := cStr_fullXpath (fun u hu => ⟨(hall u hu).1, fun p hp => ((hall u hu).2 p hp).1⟩)
    fun u hu p hp => ((hall u hu).2 p hp).2
  obtain ⟨init, n, preds, h₁, h₂⟩ := fullSteps_narrowed pfx t hk.1 helem
  rw [selected_of_plain sch hplain, h₁] at hx
  rw [Plain, h₁] at hplain
  have hlast := hplain _ (List.mem_append_right _ List.mem_cons_self)
  have hinit : ∀ u ∈ init, PlainStep u := fun u hu => hplain u (List.mem_append_left _ hu)
  obtain ⟨before, after, hput, hrest⟩ := putKey_split k t preds
  have hbefore : ∀ p ∈ before, p ∈ preds := fun p hp => hrest p (List.mem_append_left _ hp)
  rw [Schema.selected, hcstr, Schema.selection] at hx'
  cases hread : read (fullXpath pfx (path.narrowed (k, t))) with
  | none => simp [hread] at hx'
  | some out =>
      rw [hread] at hx'
      rw [fullXpath_eq, h₂, hput] at hread
      obtain ⟨a, ha, more, tail, rfl⟩ := read_cut (fun u hu => (hinit u hu).1)
        (fun u hu p hp => ((hinit u hu).2 p hp).1) hlast.1.1
        (fun p hp => hlast.1.2 p (hbefore p hp)) (fun p hp => (hlast.2 p (hbefore p hp)).1) hk
        hquote hread
      -- the node is no deeper than the path, so nothing follows the step
      have hdepth := length_of_mem_select hx
      have hdepth' := length_of_mem_select hx'
      have htail : tail.length = 0 := by
        simp at hdepth hdepth'
        omega
      obtain rfl := List.length_eq_zero_iff.mp htail
      exact ⟨a, ha, keyTest_of_mem_select sch (p := (k, a)) (by simp) hx'⟩

end Narrowed

/-- **What it takes for an ordinary instance to be selected alone** by a plain path narrowed
by the key it shows: that its first key sets it apart. -/
theorem narrowed_iff_keyedApart {pfx : Option Path} {path : Path} {s : Store}
    {x : NodeRef × Node RefStep Val} {key : String × String} (hplain : Plain pfx path)
    (hx : x ∈ sch.selected pfx path s) (hord : Ordinary x)
    (hkey : shownKey (treeOf x.2) = some key) (helem : key.1 ≠ "" → path.elem ≠ []) :
    sch.selected pfx (path.narrowed key) s = [x] ↔
      KeyedApart sch (sch.selected pfx path s) x := by
  obtain ⟨k, v, rest, hkeys, hk, htail, hnul⟩ := hord
  obtain rfl : (k, v.shownText) = key :=
    Option.some.inj ((shownKey_of_ordinary hkeys htail).symm.trans hkey)
  have helem := helem hk.1
  have htext : sch.keyTest (k, sch.text v) x.2.key = true := by
    simp [Schema.keyTest, hkeys]
  constructor
  · intro hsel
    have hx' : x ∈ sch.selected pfx (path.narrowed (k, v.shownText)) s := by simp [hsel]
    have hquote : '"' ∉ v.shownText.toList := by
      rcases shownText_cases sch v with heq | hfree
      · intro hquote
        obtain ⟨a, hne, ha⟩ := keyTest_of_cut hplain hk hquote hnul helem hx hx'
        exact hne ((keyTest_unique sch ha htext).trans heq.symm)
      · exact hfree
    have hshown := keyTest_of_narrowed hplain hk hquote hnul helem hx'
    have heq : v.shownText = sch.text v := keyTest_unique sch hshown htext
    rw [selected_narrowed hplain hk hquote hnul helem hx hshown] at hsel
    rw [heq] at hquote hsel
    exact ⟨k, v, rest, hkeys, heq, hquote, hsel⟩
  · rintro ⟨k', v', rest', hkeys', heq, hquote, hfilter⟩
    obtain ⟨⟨rfl, rfl⟩, rfl⟩ : (k = k' ∧ v = v') ∧ rest = rest' := by
      simpa using hkeys.symm.trans hkeys'
    rw [← heq] at htext hquote hfilter
    rw [selected_narrowed hplain hk hquote hnul helem hx htext, hfilter]

end Identify

/-! ### What the updates identify -/

section Identified

variable (sch : Schema) (fastWriter : Json → String)

/-- **An update identifies a node**: its path selects this node and no other, and it carries
the JSON of its tree. -/
def Identifies (pfx : Option Path) (s : Store) (x : NodeRef × Node RefStep Val) (u : Update) :
    Prop :=
  ∃ path json, u.path = some path ∧ sch.selected pfx path s = [x] ∧
    jsonTree (treeOf x.2) = .ok json ∧ u.val = some (.jsonIetfVal (fastWriter json))

/-- **A notification identifies its data**: the updates identify the nodes that the requested
path selects, one by one, and their paths are pairwise distinct. -/
def IdentifiesAll (s : Store) (path : Path) (n : Notification) : Prop :=
  List.Forall₂ (Identifies sch fastWriter n.pfx s) (sch.selected n.pfx path s) n.update ∧
    (n.update.map Update.path).Nodup

/-- A list instance is distinguished: by its first key, where the path is plain and the
instance ordinary; and otherwise by whatever the path narrowed by the key it shows selects,
for there a name or a value spells more of the xpath than itself. -/
def Distinguished (pfx : Option Path) (path : Path) (s : Store)
    (x : NodeRef × Node RefStep Val) : Prop :=
  (Plain pfx path ∧ Ordinary x → KeyedApart sch (sch.selected pfx path s) x) ∧
    (¬(Plain pfx path ∧ Ordinary x) → ∃ key, shownKey (treeOf x.2) = some key ∧
      sch.selected pfx (path.narrowed key) s = [x])

/-- A requested path keeps the nodes it selects separate: it selects a single one that is no
list instance, or list instances only, all distinguished. -/
def Separate (pfx : Option Path) (path : Path) (s : Store) : Prop :=
  (∃ x, sch.selected pfx path s = [x] ∧ x.2.val ≠ .list) ∨
    ((sch.selected pfx path s).Nodup ∧ ∀ x ∈ sch.selected pfx path s,
      x.2.val = .list ∧ Distinguished sch pfx path s x)

variable {sch fastWriter} {pfx : Option Path} {path : Path} {s : Store} {n : Notification}

/-- The trees of a notification are those of the selected nodes. -/
theorem NotificationOf.reports (h : NotificationOf sch.sysrepo fastWriter s pfx path n) :
    Reports fastWriter path ("", "") ((sch.selected pfx path s).map fun x => treeOf x.2)
      n.update := by
  obtain ⟨-, trees, htrees, hreports⟩ := h
  rw [sch.subtrees_sysrepo, Schema.subtrees] at htrees
  rw [Schema.selected]
  cases hsel : sch.selection (cStr (fullXpath pfx path)) s with
  | nil => simp [hsel] at htrees
  | cons x found =>
      rw [hsel] at htrees
      exact Option.some.inj htrees ▸ hreports

/-- An instance that the path of its update selects alone is distinguished, and conversely. -/
theorem distinguished_iff {x : NodeRef × Node RefStep Val} {u : Update}
    (hx : x ∈ sch.selected pfx path s) (hu : InstanceUpdate fastWriter path (treeOf x.2) u) :
    Distinguished sch pfx path s x ↔ Identifies sch fastWriter pfx s x u := by
  obtain ⟨-, key, json, hkey, helem, hjson, rfl⟩ := hu
  have hid : Identifies sch fastWriter pfx s x
      ⟨some (path.narrowed key), some (.jsonIetfVal (fastWriter json))⟩ ↔
        sch.selected pfx (path.narrowed key) s = [x] := by
    constructor
    · rintro ⟨path', json', hpath, hsel, -, -⟩
      obtain rfl := Option.some.inj hpath
      exact hsel
    · exact fun hsel => ⟨_, json, rfl, hsel, hjson, rfl⟩
  rw [hid, Distinguished]
  by_cases hord : Plain pfx path ∧ Ordinary x
  · simp only [hord, not_true_eq_false, forall_const, false_implies, and_true]
    exact (narrowed_iff_keyedApart sch hord.1 hx hord.2 hkey helem).symm
  · simp [hord, hkey]

/-- The paths of updates give back the nodes they identify. -/
theorem selected_of_identifies {nodes : List (NodeRef × Node RefStep Val)} {us : List Update}
    (h : List.Forall₂ (Identifies sch fastWriter pfx s) nodes us) :
    (nodes.map fun x => [x]) =
      (us.map Update.path).map fun p => p.elim [] fun path => sch.selected pfx path s := by
  rw [List.map_map]
  refine map_eq_of_forall₂ (h.imp fun x u hu => ?_)
  obtain ⟨path, json, hpath, hsel, -, -⟩ := hu
  simp [hpath, hsel]

/-- The paths of updates that identify distinct nodes are distinct. -/
theorem nodup_of_identifies {nodes : List (NodeRef × Node RefStep Val)} {us : List Update}
    (h : List.Forall₂ (Identifies sch fastWriter pfx s) nodes us) (hnodup : nodes.Nodup) :
    (us.map Update.path).Nodup := by
  refine List.Nodup.of_map _ (selected_of_identifies h ▸ hnodup.map ?_)
  exact fun x y hxy => (List.cons.inj hxy).1

/-- Instances whose updates have distinct paths are distinct. -/
theorem nodup_of_instances {nodes : List (NodeRef × Node RefStep Val)} {us : List Update}
    (h : List.Forall₂ (fun x u => InstanceUpdate fastWriter path (treeOf x.2) u) nodes us)
    (hnodup : (us.map Update.path).Nodup) : nodes.Nodup := by
  have hmap : (nodes.map fun x => (shownKey (treeOf x.2)).map path.narrowed) =
      us.map Update.path := by
    refine map_eq_of_forall₂ (h.imp fun x u hu => ?_)
    obtain ⟨-, key, json, hkey, -, -, rfl⟩ := hu
    simp [hkey]
  exact List.Nodup.of_map _ (hmap ▸ hnodup)

/-- The updates of nodes that are all list instances. -/
theorem NotificationOf.instances (h : NotificationOf sch.sysrepo fastWriter s pfx path n)
    (hlist : ∀ x ∈ sch.selected pfx path s, x.2.val = .list) :
    List.Forall₂ (fun x u => x ∈ sch.selected pfx path s ∧
      InstanceUpdate fastWriter path (treeOf x.2) u) (sch.selected pfx path s) n.update := by
  refine (List.forall₂_and_left _ _).mpr ⟨fun x hx => hx, List.forall₂_map_left_iff.mp ?_⟩
  refine instances_of_lists h.reports fun t ht => ?_
  obtain ⟨x, hx, rfl⟩ := List.mem_map.mp ht
  exact (data_treeOf x.2).trans (hlist x hx)

/-- Where no path is repeated and not all the nodes are list instances, there is one node. -/
theorem NotificationOf.single (h : NotificationOf sch.sysrepo fastWriter s pfx path n)
    (hids : List.Forall₂ (Identifies sch fastWriter pfx s) (sch.selected pfx path s) n.update)
    (hnodup : (n.update.map Update.path).Nodup)
    (hlist : ¬∀ x ∈ sch.selected pfx path s, x.2.val = .list) :
    ∃ x, sch.selected pfx path s = [x] ∧ x.2.val ≠ .list := by
  -- the first of the others has the requested path, which selects all the nodes
  have hpath : some path ∈ n.update.map Update.path := by
    by_contra hfresh
    refine hlist fun x hx => ?_
    rw [← data_treeOf]
    exact lists_of_nodup h.reports hfresh hnodup _ (List.mem_map_of_mem hx)
  have hmem := List.mem_map_of_mem (f := fun p : Option Path =>
    p.elim [] fun path => sch.selected pfx path s) hpath
  rw [← selected_of_identifies hids] at hmem
  rw [Option.elim_some] at hmem
  obtain ⟨x, -, hx⟩ := List.mem_map.mp hmem
  refine ⟨x, hx.symm, fun hval => hlist fun y hy => ?_⟩
  rw [← hx] at hy
  rwa [List.mem_singleton.mp hy]

/-- The update of a single node that is no list instance identifies it. -/
theorem NotificationOf.identifies (h : NotificationOf sch.sysrepo fastWriter s pfx path n)
    {x : NodeRef × Node RefStep Val} (hsel : sch.selected pfx path s = [x])
    (hval : x.2.val ≠ .list) :
    ∃ u, n.update = [u] ∧ Identifies sch fastWriter pfx s x u := by
  have hreports := h.reports
  rw [hsel, List.map_singleton] at hreports
  generalize n.update = updates at hreports
  cases hreports with
  | cons hjson hkey hu hrest =>
      cases hrest
      obtain rfl := noteKey_of_ne_list (by rwa [data_treeOf]) hkey
      obtain ⟨rfl, -⟩ := treeUpdate_eq_ok hu
      exact ⟨_, rfl, path, _, rfl, hsel, hjson, rfl⟩

/-- **One notification** identifies its data if and only if the requested path keeps the
selected nodes separate. -/
theorem identifiesAll_iff (hn : NotificationOf sch.sysrepo fastWriter s pfx path n) :
    IdentifiesAll sch fastWriter s path n ↔ Separate sch pfx path s := by
  rw [IdentifiesAll, hn.1, Separate]
  constructor
  · rintro ⟨hids, hnodup⟩
    by_cases hlist : ∀ x ∈ sch.selected pfx path s, x.2.val = .list
    · have hinst := hn.instances hlist
      have hdist := (forall₂_iff_forall hinst fun x u hu =>
        (distinguished_iff hu.1 hu.2).symm).mp hids
      exact Or.inr ⟨nodup_of_instances (hinst.imp fun _ _ h => h.2) hnodup,
        fun x hx => ⟨hlist x hx, hdist x hx⟩⟩
    · exact Or.inl (hn.single hids hnodup hlist)
  · rintro (⟨x, hsel, hval⟩ | ⟨hnodup, hsep⟩)
    · obtain ⟨u, hu, hid⟩ := hn.identifies hsel hval
      rw [hsel, hu]
      exact ⟨List.Forall₂.cons hid List.Forall₂.nil, List.nodup_singleton _⟩
    · have hids := (forall₂_iff_forall (hn.instances fun x hx => (hsep x hx).1) fun x u hu =>
        (distinguished_iff hu.1 hu.2).symm).mpr fun x hx => (hsep x hx).2
      exact ⟨hids, nodup_of_identifies hids hnodup⟩

/-- **When a returned path identifies its data**: every notification of a Get that returns
OK does if and only if every requested path keeps the nodes it selects separate. -/
theorem identifies_iff {env : Env Store} {w : World Store} {req : GetRequest}
    {response : GetResponse} (hsr : env.sysrepo = sch.sysrepo)
    (h : (serveGet env fastWriter w req).value = .ok (.ok response)) :
    List.Forall₂ (IdentifiesAll sch fastWriter (w.view env.sysrepo)) req.path
        response.notification ↔
      ∀ path ∈ req.path, Separate sch req.pfx path (w.view env.sysrepo) := by
  have hall := serveGet_ok h
  rw [hsr] at hall ⊢
  exact forall₂_iff_forall hall fun path n hn => identifiesAll_iff hn

end Identified

/-! ### Routes, by one key and by two -/

/-- A datastore with instances of one list. -/
def routeStore (keys : List (List (String × Val))) : Store :=
  keys.map fun keys => .mk (.list ⟨"ex", "route"⟩ keys) .list []

/-- A schema without `decimal64` leaves, and no names for `set_item`. -/
def routeSchema : Schema := .ofTable [] Schema.ofTable_nil

/-- An environment on such a datastore. -/
def routeEnv : Env Store := routeSchema.granting (.container ⟨"ex", "routes"⟩ false [])

/-- A request for all the routes. -/
def getRoutes : GetRequest := { path := [{ elem := [⟨"ex:route", []⟩] }] }

/-- The response with an update for each route, by the prefix in its path and its JSON. -/
def routeResponse (routes : List (String × Json)) : GetResponse :=
  { notification := [{ update := routes.map fun route =>
      ⟨some { elem := [⟨"ex:route", [("prefix", route.1)]⟩] },
        some (.jsonIetfVal (JsonText.write route.2))⟩ }] }

/-- Two routes with one key. -/
def routesByPrefix : List (List (String × Val)) :=
  [[("prefix", .string "10.0.0.0/8")], [("prefix", .string "10.1.0.0/16")]]

/-- A route with one key is ordinary. -/
theorem ordinary_route {p : String} (hnul : ∀ c ∈ p.toList, c.toNat ≠ 0) (ref : NodeRef) :
    Ordinary (ref, .mk (.list ⟨"ex", "route"⟩ [("prefix", .string p)]) .list []) := by
  refine ⟨"prefix", .string p, [], rfl, by decide, ?_, hnul⟩
  simp [treeOf, treesOf, RefStep.keyLeaves, RefStep.keys, Tree.children]

/-- The response for them. -/
def prefixResponse : GetResponse :=
  routeResponse [("10.0.0.0/8", .obj [("prefix", .str "10.0.0.0/8")]),
    ("10.1.0.0/16", .obj [("prefix", .str "10.1.0.0/16")])]

/-- **Routes with one key are identified** by the paths returned. -/
theorem getRoutes_identifies :
    List.Forall₂ (IdentifiesAll routeSchema JsonText.write (routeStore routesByPrefix))
      getRoutes.path prefixResponse.notification := by
  have hok : (serveGet routeEnv JsonText.write (World.start (routeStore routesByPrefix))
      getRoutes).value = .ok (.ok prefixResponse) := by decide
  rw [← World.view_start routeEnv.sysrepo (routeStore routesByPrefix)]
  refine (identifies_iff rfl hok).mpr fun path hpath => ?_
  obtain rfl := List.mem_singleton.mp hpath
  have hsel : routeSchema.selected getRoutes.pfx { elem := [⟨"ex:route", []⟩] }
      (routeStore routesByPrefix) =
        (routeStore routesByPrefix).map fun n => ([n.key], n) := rfl
  have hplain : Plain getRoutes.pfx { elem := [⟨"ex:route", []⟩] } := by
    intro u hu
    obtain rfl := List.mem_singleton.mp hu
    exact ⟨⟨by decide, by simp⟩, by simp⟩
  rw [World.view_start, Separate, hsel]
  refine Or.inr ⟨by simp [routeStore, routesByPrefix], fun x hx => ?_⟩
  have hkeyed : Ordinary x ∧ KeyedApart routeSchema
      ((routeStore routesByPrefix).map fun n => ([n.key], n)) x := by
    simp only [routeStore, routesByPrefix, List.map_cons, List.map_nil, List.mem_cons,
      List.not_mem_nil, or_false] at hx
    rcases hx with rfl | rfl
    · exact ⟨ordinary_route (by simp) _, "prefix", _, [], rfl, rfl, by decide, rfl⟩
    · exact ⟨ordinary_route (by simp) _, "prefix", _, [], rfl, rfl, by decide, rfl⟩
  refine ⟨?_, ?_, fun hnot => absurd ⟨hplain, hkeyed.1⟩ hnot⟩
  · obtain ⟨n, hn, rfl⟩ := List.mem_map.mp hx
    obtain ⟨keys, -, rfl⟩ := List.mem_map.mp hn
    rfl
  · intro _
    rw [hsel]
    exact hkeyed.2

/-- Two routes with two keys, the first of which is the same. -/
def routesByMetric : List (List (String × Val)) :=
  [[("prefix", .string "10.0.0.0/8"), ("metric", .uint8 1)],
    [("prefix", .string "10.0.0.0/8"), ("metric", .uint8 2)]]

/-- The response for them. -/
def metricResponse : GetResponse :=
  routeResponse [("10.0.0.0/8", .obj [("metric", .num 1), ("prefix", .str "10.0.0.0/8")]),
    ("10.0.0.0/8", .obj [("metric", .num 2), ("prefix", .str "10.0.0.0/8")])]

/-- **Routes with two keys are returned under one path**: the first key only is put into
the paths of their updates. -/
theorem not_identifies :
    (serveGet routeEnv JsonText.write (World.start (routeStore routesByMetric))
        getRoutes).value = .ok (.ok metricResponse) ∧
      ¬List.Forall₂ (IdentifiesAll routeSchema JsonText.write (routeStore routesByMetric))
        getRoutes.path metricResponse.notification := by
  refine ⟨by decide, fun h => ?_⟩
  cases h with
  | cons hall _ => exact absurd hall.2 (by decide)

end SysrepoGnxi
