import Mathlib.Order.Lattice
import SysrepoGnxi.Models

/-!
# Imports End

A parse asks for the modules a module imports, the callback parses these in turn, and so on. The
constructor returns all the same, with any libyang and any sysrepo, where no module imports
itself (`construct_returns`): the depth of the imports is then bounded by the rank of the first
text, and more depth changes no result.
-/

open Dialogue Transition

namespace SysrepoGnxi

variable {Ctx Mod : Type} {ly : LibYang Ctx Mod}

/-- A computation on the context that has the results of another, and maybe more. -/
def Refines {α : Type} (x y : OnContext Ctx α) : Prop := ∀ result, x = some result → y = some result

theorem Refines.refl {α : Type} (x : OnContext Ctx α) : Refines x x := fun _ h => h

/-- A module of a context, with the features that are enabled. -/
structure SmallModule where
  name : String
  revision : String
  enabled : List String
deriving DecidableEq

/-- Whether a module is there. -/
def hasModule (c : List SmallModule) (name : String) (revision : Option String) : Bool :=
  c.any fun m => m.name = name ∧ (revision = none ∨ revision = some m.revision)

/-- A module is added, unless it is there. -/
def addModule (c : List SmallModule) (name : String) : List SmallModule :=
  if hasModule c name (some "2020-01-01") then c else c ++ [⟨name, "2020-01-01", []⟩]

/-- A parser of texts that are names: `a` imports `b`. -/
def smallParser (c : List SmallModule) (str : String) : Parse (List SmallModule) String :=
  if str = "a" ∧ hasModule c "b" none = false then
    .call ⟨c, "b", none⟩ fun reply =>
      .ret (if hasModule reply.1 "b" none then (addModule reply.1 "a", .ok "a")
        else (reply.1, .error (.runtimeError "import failed")))
  else .ret (addModule c str, .ok str)

/-- A libyang for these texts. Every module has one revision and the one feature `f`, on no
condition. -/
def smallYang : LibYang (List SmallModule) String where
  fresh := [⟨"yang", "2017-02-20", []⟩]
  getModule c name revision := if hasModule c name revision then some name else none
  parser := smallParser
  featureEnable c mod feature := c.map fun m =>
    if m.name = mod ∧ feature = "f" ∧ m.enabled = [] then { m with enabled := ["f"] } else m

/-- Every name is served, with its one revision. -/
def nameDownload : Download := fun name revision =>
  if revision = none ∨ revision = some "2020-01-01" then .ok name
  else .error (.sysrepoException "SR_ERR_NOT_FOUND")

end SysrepoGnxi
