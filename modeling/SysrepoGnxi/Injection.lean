import Mathlib.Data.Set.Insert
import SysrepoGnxi.Utils

/-!
# Key Values in Generated Paths

The keys of a gNMI path are pasted between double quotes into the XPath, and nothing
escapes them. Two paths that differ only in their key values should address the same kind
of node (`NoInjection`). For paths whose values come from a set of strings,
`noInjection_iff` says when they do: iff no string of the set holds a double quote.
-/

open XPath

namespace SysrepoGnxi

/-- A character of a YANG identifier. -/
def isIdentifierChar (c : Char) : Bool := c.isAlphanum || c == '_' || c == '-' || c == '.'

/-- A YANG identifier. -/
def IsIdentifier (s : String) : Prop :=
  s ≠ "" ∧ (s.toList.head?.all fun c => c.isAlpha || c == '_') = true ∧
    s.toList.all isIdentifierChar = true

instance : DecidablePred IsIdentifier := fun s =>
  inferInstanceAs (Decidable (s ≠ "" ∧
    (s.toList.head?.all fun c => c.isAlpha || c == '_') = true ∧
    s.toList.all isIdentifierChar = true))

/-- The origin, the element names and the key names of a path are identifiers. -/
def Path.Identified (path : Path) : Prop :=
  (path.origin = "" ∨ IsIdentifier path.origin) ∧
    ∀ node ∈ path.elem, IsIdentifier node.name ∧ ∀ key ∈ node.key, IsIdentifier key.1

/-- Two paths that differ only in their key values and in the order of their key maps. -/
def Path.SameButValues (p q : Path) : Prop :=
  p.origin = q.origin ∧
    List.Forall₂ (fun e f => e.name = f.name ∧ (e.key.map Prod.fst).Perm (f.key.map Prod.fst))
      p.elem q.elem

/-- The key values of a path are in a set. -/
def Path.ValuesIn (values : Set String) (path : Path) : Prop :=
  ∀ node ∈ path.elem, ∀ key ∈ node.key, key.2 ∈ values

/-- Two strings are XPaths with the same steps and the same keys in their predicates. -/
def SameKind (s t : String) : Prop :=
  ∃ steps₁ steps₂, read s = some steps₁ ∧ read t = some steps₂ ∧
    List.Forall₂ Step.SameKind steps₁ steps₂

/-- **A client cannot reach another schema node through a key value**, as long as the
values it sends are empty or from the set. -/
def NoInjection (values : Set String) : Prop :=
  ∀ p q : Path, p.Identified → q.Identified → p.SameButValues q →
    p.ValuesIn (insert "" values) → q.ValuesIn (insert "" values) →
    SameKind (gnmiToXpath p) (gnmiToXpath q)

/-! ### Identifiers are names -/

theorem IsIdentifier.isName {s : String} (h : IsIdentifier s) : IsName s := by
  refine ⟨h.1, fun c hc => ?_⟩
  have hchar := List.all_eq_true.mp h.2.2 c hc
  simp only [isIdentifierChar, Bool.or_eq_true, beq_iff_eq] at hchar
  rcases hchar with ((hchar | rfl) | rfl) | rfl
  · simp [isNameChar, hchar]
  · decide
  · decide
  · decide

/-- The name of an element is one in the XPath too, origin included. -/
theorem isName_qualify {origin name : String} (ho : origin = "" ∨ IsIdentifier origin)
    (hn : IsIdentifier name) (first : Bool) : IsName (qualify origin first name) := by
  rw [qualify]
  split_ifs with h
  · obtain rfl | ho := ho
    · simp at h
    · refine ⟨?_, ?_⟩
      · intro hnil
        have hchars := congrArg String.toList hnil
        simp at hchars
      · intro c hc
        simp only [String.toList_append, List.mem_append] at hc
        rcases hc with (hc | hc) | hc
        · exact ho.isName.2 c hc
        · obtain rfl : c = ':' := by simpa using hc
          decide
        · exact hn.isName.2 c hc
  · simpa using hn.isName

/-- The steps of a path of identifiers are named. -/
theorem named_steps {path : Path} (h : path.Identified) : ∀ s ∈ path.steps, s.Named := by
  suffices hgen : ∀ (first : Bool) (elems : List PathElem),
      (∀ node ∈ elems, IsIdentifier node.name ∧ ∀ key ∈ node.key, IsIdentifier key.1) →
      ∀ s ∈ elemSteps path.origin first elems, s.Named from hgen true path.elem h.2
  intro first elems helems
  induction elems generalizing first with
  | nil => simp [elemSteps]
  | cons node elems ih =>
      obtain ⟨hname, hkeys⟩ := helems node List.mem_cons_self
      intro s hs
      rcases List.mem_cons.mp hs with rfl | hs
      · exact ⟨isName_qualify h.1 hname first, fun key hkey => (hkeys key hkey).isName⟩
      · exact ih false (fun n hn => helems n (List.mem_cons_of_mem _ hn)) s hs

/-- The predicates of the steps are the keys of the elements. -/
theorem quoteFree_steps (path : Path) : (∀ s ∈ path.steps, s.QuoteFree) ↔
    ∀ node ∈ path.elem, ∀ key ∈ node.key, '"' ∉ key.2.toList := by
  rw [Path.steps]
  generalize true = first
  induction path.elem generalizing first with
  | nil => simp [elemSteps]
  | cons node elems ih =>
      rw [elemSteps, List.forall_mem_cons, List.forall_mem_cons, ih false]
      rfl

/-! ### When key values cannot inject -/

/-- **A path is read as itself** if and only if no key value holds a double quote. -/
theorem read_gnmiToXpath_iff {path : Path} (h : path.Identified) :
    read (gnmiToXpath path) = some path.steps ↔
      ∀ node ∈ path.elem, ∀ key ∈ node.key, '"' ∉ key.2.toList := by
  rw [← quoteFree_steps, ← read_render_iff (named_steps h), ← toList_gnmiToXpath,
    String.ofList_toList]

/-- Paths that differ only in their values have steps of the same kinds. -/
theorem sameKind_steps {p q : Path} (h : p.SameButValues q) :
    List.Forall₂ Step.SameKind p.steps q.steps := by
  obtain ⟨horigin, helems⟩ := h
  rw [Path.steps, Path.steps, horigin]
  generalize p.elem = pelem at helems ⊢
  generalize q.elem = qelem at helems ⊢
  generalize true = first
  induction helems generalizing first with
  | nil => exact List.Forall₂.nil
  | cons hef _ ih =>
      refine List.Forall₂.cons ⟨?_, hef.2⟩ (ih false)
      change qualify q.origin first _ = qualify q.origin first _
      rw [hef.1]

/-- The path of one element `e` with one key `k`. -/
def oneKey (value : String) : Path := { elem := [⟨"e", [("k", value)]⟩] }

theorem identified_oneKey (value : String) : (oneKey value).Identified := by
  have he : IsIdentifier "e" := by decide
  have hk : IsIdentifier "k" := by decide
  refine ⟨Or.inl rfl, ?_⟩
  intro node hnode
  obtain rfl : node = ⟨"e", [("k", value)]⟩ := by simpa [oneKey] using hnode
  refine ⟨he, ?_⟩
  intro key hkey
  obtain rfl : key = ("k", value) := by simpa using hkey
  exact hk

theorem valuesIn_oneKey {values : Set String} {value : String} (h : value ∈ values) :
    (oneKey value).ValuesIn values := by
  intro node hnode key hkey
  obtain rfl : node = ⟨"e", [("k", value)]⟩ := by simpa [oneKey] using hnode
  obtain rfl : key = ("k", value) := by simpa using hkey
  exact h

/-- **When key values cannot inject**: exactly when none of them holds a double quote. -/
theorem noInjection_iff (values : Set String) :
    NoInjection values ↔ ∀ v ∈ values, '"' ∉ v.toList := by
  constructor
  · intro h v hv hquote
    obtain ⟨steps₁, steps₂, h₁, h₂, hsame⟩ := h (oneKey "") (oneKey v)
      (identified_oneKey _) (identified_oneKey _)
      ⟨rfl, List.Forall₂.cons ⟨rfl, List.Perm.refl _⟩ List.Forall₂.nil⟩
      (valuesIn_oneKey (Set.mem_insert _ _)) (valuesIn_oneKey (Set.mem_insert_of_mem _ hv))
    have hread : read (String.ofList (render [⟨"e", [("k", v)]⟩])) = some steps₂ := by
      rw [← h₂, show [⟨"e", [("k", v)]⟩] = (oneKey v).steps from rfl, ← toList_gnmiToXpath,
        String.ofList_toList]
    have hplain : read (gnmiToXpath (oneKey "")) = some [⟨"e", [("k", "")]⟩] :=
      (read_gnmiToXpath_iff (identified_oneKey _)).mpr (by simp [oneKey])
    have hsize := size_eq_of_sameKind hsame
    rw [h₁] at hplain
    obtain rfl := Option.some.inj hplain
    exact size_ne_of_quote (by decide) (by decide) hquote hread hsize.symm
  · intro h p q hp hq hsame hvp hvq
    have hfree : ∀ {path : Path}, path.ValuesIn (insert "" values) →
        ∀ node ∈ path.elem, ∀ key ∈ node.key, '"' ∉ key.2.toList := by
      intro path hpath node hnode key hkey
      rcases hpath node hnode key hkey with hval | hval
      · rw [hval]
        exact List.not_mem_nil
      · exact h _ hval
    exact ⟨p.steps, q.steps, (read_gnmiToXpath_iff hp).mpr (hfree hvp),
      (read_gnmiToXpath_iff hq).mpr (hfree hvq), sameKind_steps hsame⟩

/-- The value `v"]/x[k="` takes `/e[k=…]` to the node `/e/x`. -/
theorem not_noInjection : ¬ NoInjection Set.univ := by
  intro h
  have hin (v : String) : (oneKey v).ValuesIn (insert "" Set.univ) :=
    fun _ _ _ _ => Set.mem_insert_of_mem _ (Set.mem_univ _)
  obtain ⟨steps₁, steps₂, h₁, h₂, hsame⟩ := h (oneKey "v") (oneKey "v\"]/x[k=\"")
    (identified_oneKey _) (identified_oneKey _)
    ⟨rfl, List.Forall₂.cons ⟨rfl, List.Perm.refl _⟩ List.Forall₂.nil⟩ (hin _) (hin _)
  have hplain : read (gnmiToXpath (oneKey "v")) = some [⟨"e", [("k", "v")]⟩] := by decide
  have hinjected : read (gnmiToXpath (oneKey "v\"]/x[k=\"")) =
      some [⟨"e", [("k", "v")]⟩, ⟨"x", [("k", "")]⟩] := by decide
  rw [h₁] at hplain
  rw [h₂] at hinjected
  obtain rfl := Option.some.inj hplain
  obtain rfl := Option.some.inj hinjected
  have hlen := hsame.length_eq
  simp at hlen

end SysrepoGnxi
