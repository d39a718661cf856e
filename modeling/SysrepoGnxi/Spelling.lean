import SysrepoGnxi.Injection

/-!
# How a Path Is Spelled

`gnmi_to_xpath` puts the origin of a path before the name of its first element. A path
without elements has no first element, so its origin is lost.

* `faithful_iff` — what becomes of a path that is split between the prefix of a request and
  the path of an item: the XPath is that of the whole path unless the prefix has an origin
  and no element to carry it.
* `decode_gnmiToXpath` — the elements of a path, the origin before the first name, can be
  read off its XPath. Two paths with one XPath have the same elements, unless the module of
  the first element is the origin of the one and is written in the name in the other.
-/

open XPath

namespace SysrepoGnxi

/-! ### The steps of the elements -/

/-- After the first element the origin plays no role. -/
theorem elemSteps_false (origin : String) (elems : List PathElem) :
    elemSteps origin false elems = elems.map fun node => ⟨node.name, node.key⟩ := by
  induction elems with
  | nil => rfl
  | cons node elems ih => simp [elemSteps, qualify, ih]

/-- Without an origin the first element is as the others. -/
theorem elemSteps_empty (first : Bool) (elems : List PathElem) :
    elemSteps "" first elems = elems.map fun node => ⟨node.name, node.key⟩ := by
  cases elems with
  | nil => rfl
  | cons node elems => simp [elemSteps, qualify, elemSteps_false]

/-- The steps of elements in two parts, the first of which is not empty. -/
theorem elemSteps_append {origin : String} {elems : List PathElem} (h : elems ≠ [])
    (more : List PathElem) :
    elemSteps origin true (elems ++ more) =
      elemSteps origin true elems ++ elemSteps "" true more := by
  cases elems with
  | nil => exact absurd rfl h
  | cons node elems => simp [elemSteps, elemSteps_false, elemSteps_empty]

/-! ### Paths split between prefix and path -/

/-- The one path of a prefix and a path: the origin of the prefix, and the elements of
both. -/
def Path.join (P Q : Path) : Path := { origin := P.origin, elem := P.elem ++ Q.elem }

/-- A split is **faithful**: the texts of the two parts make up the text of the whole path,
and the handlers address the same node whether they get the parts or the whole. -/
structure Path.Faithful (P Q : Path) : Prop where
  text : gnmiToXpath P ++ gnmiToXpath Q = gnmiToXpath (P.join Q)
  address : fullXpath (some P) Q = fullXpath none (P.join Q)

/-- A split is faithful exactly if the steps of the parts have the text of the whole. -/
theorem faithful_iff_render {P Q : Path} :
    P.Faithful Q ↔ render (P.steps ++ Q.steps) = render (P.join Q).steps := by
  have htext : gnmiToXpath P ++ gnmiToXpath Q = gnmiToXpath (P.join Q) ↔
      render (P.steps ++ Q.steps) = render (P.join Q).steps := by
    rw [← String.toList_inj]
    simp [toList_gnmiToXpath, render]
  rw [← htext]
  refine ⟨fun h => h.text, fun h => ⟨h, ?_⟩⟩
  simpa [fullXpath] using h

/-- An origin before a name shows in the text. -/
theorem render_origin_ne {origin : String} (ho : origin ≠ "") (node : PathElem)
    (elems : List PathElem) : render (elemSteps "" true (node :: elems)) ≠
      render (elemSteps origin true (node :: elems)) := by
  intro h
  rw [elemSteps, elemSteps, elemSteps_false, elemSteps_false, render_cons, render_cons] at h
  have hname := congrArg List.length (List.append_cancel_right h)
  simp [qualify, ho] at hname
  omega

/-- A prefix without elements has no origin that a faithful split could lose. -/
theorem origin_of_faithful {P Q : Path} (h : Q.origin = "") (hfaithful : P.Faithful Q)
    (hP : P.elem = []) : P.origin = "" ∨ Q.elem = [] := by
  rw [faithful_iff_render, Path.steps, Path.steps, Path.steps, Path.join, h, hP,
    List.nil_append] at hfaithful
  by_contra hnot
  obtain ⟨ho, hQ⟩ := not_or.mp hnot
  obtain ⟨node, elems, helem⟩ := List.exists_cons_of_ne_nil hQ
  rw [helem] at hfaithful
  exact render_origin_ne ho node elems hfaithful

/-- **Where the split of a path is faithful**: exactly where the prefix has an element to
carry its origin, or no origin, or where the path has no element. -/
theorem faithful_iff (P Q : Path) (h : Q.origin = "") :
    P.Faithful Q ↔ P.elem ≠ [] ∨ P.origin = "" ∨ Q.elem = [] := by
  by_cases hP : P.elem = []
  · constructor
    · exact fun hfaithful => Or.inr (origin_of_faithful h hfaithful hP)
    · rw [faithful_iff_render, Path.steps, Path.steps, Path.steps, Path.join, h, hP,
        List.nil_append]
      rintro (hne | ho | hQ)
      · exact absurd rfl hne
      · rw [ho]
        rfl
      · rw [hQ]
        rfl
  · rw [faithful_iff_render, Path.steps, Path.steps, Path.steps, Path.join, h]
    simp [hP, elemSteps_append hP]

/-- A path to an interface, split after its first element. -/
theorem interfaces_faithful :
    Path.Faithful { origin := "if", elem := [⟨"interfaces", []⟩] }
      { elem := [⟨"interface", [("name", "eth0")]⟩] } :=
  (faithful_iff _ _ rfl).mpr (Or.inl (by simp))

/-- The origin of a prefix without elements is lost. -/
theorem not_faithful : ¬ ∀ P Q : Path, Q.origin = "" → P.Faithful Q := by
  intro h
  have hsplit := h { origin := "if" } { elem := [⟨"interfaces", []⟩] } rfl
  have hlost := origin_of_faithful rfl hsplit rfl
  simp at hlost

/-! ### Reading the elements off an XPath -/

/-- The elements an XPath spells. -/
def decode (xpath : String) : Option (List PathElem) :=
  (XPath.read xpath).map fun steps => steps.map fun s => ⟨s.name, s.preds⟩

/-- The elements of a path, the first with the origin as the prefix of its name. -/
def Path.qualified (path : Path) : List PathElem :=
  match path.elem with
  | [] => []
  | first :: rest => { first with name := qualify path.origin true first.name } :: rest

/-- An identifier that another one qualifies. -/
def IsPrefixed (s : String) : Prop :=
  ∃ module name, IsIdentifier module ∧ IsIdentifier name ∧ s = module ++ ":" ++ name

/-- A path that has elements, made of identifiers, and without a double quote in its
values. Without an origin, the names of the elements may be prefixed. -/
structure Path.Decodable (path : Path) : Prop where
  nonempty : path.elem ≠ []
  origin : path.origin = "" ∨ IsIdentifier path.origin
  names : ∀ node ∈ path.elem,
    IsIdentifier node.name ∨ path.origin = "" ∧ IsPrefixed node.name
  keys : ∀ node ∈ path.elem, ∀ key ∈ node.key, IsIdentifier key.1 ∧ '"' ∉ key.2.toList

/-- Two paths with the same elements: the names in order, and for each the same key map. -/
def Path.SameElems (p q : Path) : Prop :=
  List.Forall₂ (fun e f => e.name = f.name ∧ e.key.Perm f.key) p.elem q.elem

/-- The first path writes the module of its first element in the name, the second as its
origin. They differ in nothing else. -/
def Path.Respells (p q : Path) : Prop :=
  p.origin = "" ∧ q.origin ≠ "" ∧ ∃ first rest, q.elem = first :: rest ∧
    p.elem = { first with name := q.origin ++ ":" ++ first.name } :: rest

theorem qualified_eq_steps (path : Path) :
    path.qualified = path.steps.map fun s => ⟨s.name, s.preds⟩ := by
  rw [Path.qualified, Path.steps]
  cases path.elem with
  | nil => rfl
  | cons first rest => simp [elemSteps, elemSteps_false, Function.comp_def]

/-- A prefixed identifier is the name of an element with an origin. -/
theorem qualify_of_isIdentifier {module : String} (hm : IsIdentifier module) (name : String) :
    qualify module true name = module ++ ":" ++ name := by
  simp [qualify, hm.1]

theorem IsPrefixed.isName {s : String} (h : IsPrefixed s) : IsName s := by
  obtain ⟨module, name, hm, hn, rfl⟩ := h
  rw [← qualify_of_isIdentifier hm]
  exact isName_qualify (Or.inr hm) hn true

/-- The steps of a decodable path are named. -/
theorem Path.Decodable.named {path : Path} (h : path.Decodable) :
    ∀ s ∈ path.steps, s.Named := by
  have hkeys : ∀ node ∈ path.elem, ∀ key ∈ node.key, IsName key.1 :=
    fun node hnode key hkey => (h.keys node hnode key hkey).1.isName
  rw [Path.steps]
  obtain horigin | hplain : path.origin = "" ∨ ∀ node ∈ path.elem, IsIdentifier node.name := by
    by_cases ho : path.origin = ""
    · exact Or.inl ho
    · exact Or.inr fun node hnode => (h.names node hnode).resolve_right fun hp => ho hp.1
  · rw [horigin, elemSteps_empty]
    intro s hs
    obtain ⟨node, hnode, rfl⟩ := List.mem_map.mp hs
    refine ⟨?_, hkeys node hnode⟩
    rcases h.names node hnode with hname | ⟨-, hname⟩
    · exact hname.isName
    · exact hname.isName
  · exact named_steps ⟨h.origin, fun node hnode =>
      ⟨hplain node hnode, fun key hkey => (h.keys node hnode key hkey).1⟩⟩

/-- **Reading a decodable path back** gives its steps. -/
theorem Path.Decodable.read_gnmiToXpath {path : Path} (h : path.Decodable) :
    XPath.read (gnmiToXpath path) = some path.steps := by
  have hquote : ∀ s ∈ path.steps, s.QuoteFree :=
    (quoteFree_steps path).mpr fun node hnode key hkey => (h.keys node hnode key hkey).2
  have hread := read_render h.named hquote
  rwa [← toList_gnmiToXpath, String.ofList_toList] at hread

theorem Path.Decodable.decode_eq {path : Path} (h : path.Decodable) :
    decode (gnmiToXpath path) = some path.qualified := by
  rw [decode, h.read_gnmiToXpath, qualified_eq_steps]
  rfl

/-! ### Paths with one XPath -/

theorem IsIdentifier.colon_notMem {s : String} (h : IsIdentifier s) : ':' ∉ s.toList := by
  intro hc
  exact absurd (List.all_eq_true.mp h.2.2 ':' hc) (by decide)

/-- An origin and a name can be told apart. -/
theorem prefixed_inj {module₁ module₂ name₁ name₂ : String}
    (hm₁ : IsIdentifier module₁) (hn₁ : IsIdentifier name₁)
    (h : module₁ ++ ":" ++ name₁ = module₂ ++ ":" ++ name₂) :
    module₁ = module₂ ∧ name₁ = name₂ := by
  have hchars : module₁.toList ++ ':' :: name₁.toList =
      module₂.toList ++ ':' :: name₂.toList := by
    simpa using congrArg String.toList h
  obtain ⟨hmod, -, hname⟩ := (List.append_cons_inj_of_notMem hm₁.colon_notMem
    hn₁.colon_notMem).mp hchars
  exact ⟨String.toList_inj.mp hmod, String.toList_inj.mp hname⟩

theorem sameElems_of_eq {p q : Path} (h : p.elem = q.elem) : p.SameElems q := by
  rw [Path.SameElems, h]
  exact List.forall₂_same.mpr fun e _ => ⟨rfl, List.Perm.refl _⟩

/-- Paths whose first elements are qualified alike, one with its origin. -/
theorem respells_of_qualified {p q : Path} (hp : p.Decodable) (ho : p.origin = "")
    (hq : IsIdentifier q.origin) (h : p.qualified = q.qualified) : p.Respells q := by
  obtain ⟨first, rest, hpe⟩ := List.exists_cons_of_ne_nil hp.nonempty
  rw [Path.qualified, Path.qualified, hpe, ho] at h
  cases hqe : q.elem with
  | nil =>
      rw [hqe] at h
      cases h
  | cons first' rest' =>
      rw [hqe] at h
      obtain ⟨hfirst, rfl⟩ := List.cons.inj h
      refine ⟨ho, hq.1, first', rest, hqe, ?_⟩
      rw [hpe, ← qualify_of_isIdentifier hq, ← hfirst]
      simp [qualify]

/-- **Paths with one XPath** have the same elements, or spell one module differently. -/
theorem sameElems_or_respells {p q : Path} (hp : p.Decodable) (hq : q.Decodable)
    (h : p.qualified = q.qualified) : p.SameElems q ∨ p.Respells q ∨ q.Respells p := by
  rcases hp.origin with hpo | hpo
  · rcases hq.origin with hqo | hqo
    · refine Or.inl (sameElems_of_eq ?_)
      rw [qualified_eq_steps, qualified_eq_steps, Path.steps, Path.steps, hpo, hqo,
        elemSteps_empty, elemSteps_empty] at h
      simpa [Function.comp_def] using h
    · exact Or.inr (Or.inl (respells_of_qualified hp hpo hqo h))
  · rcases hq.origin with hqo | hqo
    · exact Or.inr (Or.inr (respells_of_qualified hq hqo hpo h.symm))
    · obtain ⟨first, rest, hpe⟩ := List.exists_cons_of_ne_nil hp.nonempty
      obtain ⟨first', rest', hqe⟩ := List.exists_cons_of_ne_nil hq.nonempty
      have hname : IsIdentifier first.name :=
        (hp.names first (by simp [hpe])).resolve_right fun hpre => hpo.1 hpre.1
      rw [Path.qualified, Path.qualified, hpe, hqe, List.cons.injEq, PathElem.mk.injEq,
        qualify_of_isIdentifier hpo, qualify_of_isIdentifier hqo] at h
      obtain ⟨⟨hfirst, hkey⟩, rfl⟩ := h
      have hsame := (prefixed_inj hpo hname hfirst).2
      refine Or.inl (sameElems_of_eq ?_)
      obtain ⟨name, key⟩ := first
      obtain ⟨name', key'⟩ := first'
      obtain rfl : name = name' := hsame
      obtain rfl : key = key' := hkey
      rw [hpe, hqe]

/-- **The elements can be read off the XPath**: the reader recovers the names in order, the
first behind the origin, and the keys of each element. Two paths that differ in an element
or a key render alike only where one writes in the name what is the origin of the other. -/
theorem decode_gnmiToXpath (p q : Path) (hp : p.Decodable) (hq : q.Decodable) :
    decode (gnmiToXpath p) = some p.qualified ∧
      (gnmiToXpath p = gnmiToXpath q → p.SameElems q ∨ p.Respells q ∨ q.Respells p) := by
  refine ⟨hp.decode_eq, fun h => sameElems_or_respells hp hq ?_⟩
  have hdecode := congrArg decode h
  rw [hp.decode_eq, hq.decode_eq] at hdecode
  exact Option.some.inj hdecode

/-- The leaf `mtu` of an interface whose name holds delimiters of an XPath. -/
def portName : Path :=
  { origin := "if", elem := [⟨"interface", [("name", "ge-0/0/1]['x' =")]⟩, ⟨"mtu", []⟩] }

theorem decodable_portName : portName.Decodable := by
  have hif : IsIdentifier "if" := by decide
  have hnames : ∀ name ∈ ["interface", "mtu", "name"], IsIdentifier name := by decide
  refine ⟨by simp [portName], Or.inr hif, ?_, ?_⟩
  · intro node hnode
    rcases List.mem_pair.mp hnode with rfl | rfl <;> exact Or.inl (hnames _ (by simp))
  · intro node hnode key hkey
    rcases List.mem_pair.mp hnode with rfl | rfl
    · obtain rfl := List.mem_singleton.mp hkey
      exact ⟨hnames _ (by simp), by decide⟩
    · cases hkey

/-- The path `/m:a`, its module written in the name or as the origin. -/
def moduleNode (asOrigin : Bool) : Path :=
  if asOrigin then { origin := "m", elem := [⟨"a", []⟩] } else { elem := [⟨"m:a", []⟩] }

theorem decodable_moduleNode (asOrigin : Bool) : (moduleNode asOrigin).Decodable := by
  have hm : IsIdentifier "m" := by decide
  have ha : IsIdentifier "a" := by decide
  cases asOrigin with
  | true =>
      refine ⟨by simp [moduleNode], Or.inr hm, ?_, ?_⟩ <;> intro node hnode <;>
        obtain rfl := List.mem_singleton.mp hnode
      · exact Or.inl ha
      · intro key hkey
        cases hkey
  | false =>
      refine ⟨by simp [moduleNode], Or.inl rfl, ?_, ?_⟩ <;> intro node hnode <;>
        obtain rfl := List.mem_singleton.mp hnode
      · exact Or.inr ⟨rfl, "m", "a", hm, ha, rfl⟩
      · intro key hkey
        cases hkey

theorem decode_portName : decode (gnmiToXpath portName) = some portName.qualified ∧
    (gnmiToXpath portName = gnmiToXpath (moduleNode true) →
      portName.SameElems (moduleNode true) ∨ portName.Respells (moduleNode true) ∨
        (moduleNode true).Respells portName) :=
  decode_gnmiToXpath _ _ decodable_portName (decodable_moduleNode true)

/-- One module as an origin and in a name: the elements differ, and the XPath is the same. -/
theorem not_uniquelyDecodable : ¬ ∀ p q : Path, p.Decodable → q.Decodable →
    decode (gnmiToXpath p) = some p.qualified ∧
      (¬ p.SameElems q → gnmiToXpath p ≠ gnmiToXpath q) := by
  intro h
  have hmodule := h (moduleNode true) (moduleNode false) (decodable_moduleNode _)
    (decodable_moduleNode _)
  refine hmodule.2 ?_ (by decide)
  intro hsame
  obtain ⟨⟨hname, -⟩, -⟩ := List.forall₂_cons.mp hsame
  exact absurd hname (by decide)

end SysrepoGnxi
