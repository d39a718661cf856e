import SysrepoGnxi.Lib.XPath
import SysrepoGnxi.Proto

/-!
# From gNMI Paths to XPath

`gnmiToXpath` is the conversion of `utils.h`. Every handler forms the path it hands to
sysrepo with it, as the concatenation of a converted prefix and a converted path.

The text it returns is `XPath.render` of the path's own steps (`toList_gnmiToXpath`), the
form in which the rest of the development reasons about it.
-/

namespace SysrepoGnxi

/-- The key predicates of an element, `[name="value"]` for every key of its map. -/
def keysToXpath : List (String × String) → String
  | [] => ""
  | key :: keys => "[" ++ key.1 ++ "=\"" ++ key.2 ++ "\"]" ++ keysToXpath keys

/-- The loop of `gnmi_to_xpath` over the elements; `first` holds until one is done. -/
def elemsToXpath (origin : String) (first : Bool) : List PathElem → String
  | [] => ""
  | node :: elems =>
      "/" ++ (if first && origin ≠ "" then origin ++ ":" else "") ++ node.name ++
        keysToXpath node.key ++ elemsToXpath origin false elems

/-- `gnmi_to_xpath`: the XPath of a gNMI path. The origin, the YANG namespace, is put
before the name of the first element. -/
def gnmiToXpath (path : Path) : String :=
  if path.elem.length ≤ 0 then ""
  else elemsToXpath path.origin true path.elem

/-- The full path of an item: the converted prefix, if any, and the converted path. -/
def fullXpath (pfx : Option Path) (path : Path) : String :=
  (pfx.elim "" gnmiToXpath) ++ gnmiToXpath path

/-! ### The steps of a path -/

/-- The name of an element in the XPath: the first one carries the origin. -/
def qualify (origin : String) (first : Bool) (name : String) : String :=
  (if first && origin ≠ "" then origin ++ ":" else "") ++ name

/-- The steps a list of elements stands for. -/
def elemSteps (origin : String) (first : Bool) : List PathElem → List XPath.Step
  | [] => []
  | node :: elems =>
      ⟨qualify origin first node.name, node.key⟩ :: elemSteps origin false elems

/-- The steps a gNMI path stands for. -/
def Path.steps (path : Path) : List XPath.Step := elemSteps path.origin true path.elem

theorem toList_keysToXpath (keys : List (String × String)) :
    (keysToXpath keys).toList = keys.flatMap XPath.renderPred := by
  induction keys with
  | nil => rfl
  | cons key keys ih =>
      simp only [keysToXpath, String.toList_append, ih, List.flatMap_cons, XPath.renderPred]
      simp

theorem toList_elemsToXpath (origin : String) (first : Bool) (elems : List PathElem) :
    (elemsToXpath origin first elems).toList =
      XPath.render (elemSteps origin first elems) := by
  induction elems generalizing first with
  | nil => rfl
  | cons node elems ih =>
      simp only [elemsToXpath, String.toList_append, ih, toList_keysToXpath, elemSteps,
        XPath.render, List.flatMap_cons, XPath.Step.render, qualify]
      simp

/-- **What `gnmi_to_xpath` writes** is the text of the path's own steps. -/
theorem toList_gnmiToXpath (path : Path) :
    (gnmiToXpath path).toList = XPath.render path.steps := by
  rw [gnmiToXpath]
  split_ifs with h
  · have helem : path.elem = [] := List.length_eq_zero_iff.mp (by omega)
    simp [Path.steps, helem, elemSteps, XPath.render]
  · exact toList_elemsToXpath _ _ _

end SysrepoGnxi
