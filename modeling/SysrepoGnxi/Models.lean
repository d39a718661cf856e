import SysrepoGnxi.Lib.Transition
import SysrepoGnxi.Sysrepo

/-!
# The YANG Modules of the libyang Context

The handlers share one libyang context. The constructor of `Encode` fills it with the modules
sysrepo lists (`load_models.cpp`), and the callbacks of `RuntimeSrCallback` are told of what
sysrepo installs and enables afterwards (`runtime.cpp`). A module that another one imports is
asked for by libyang itself, in the middle of a parse, through the callback for missing modules.

libyang is a parameter, with any contexts and modules: what it finds, what comes of enabling a
feature, and its parser, a program that asks for missing modules. `parseModuleMem` runs the
parser with the callback of the source, which parses in turn; the number bounds the depth of
such imports. All strings here come from C strings, so that `c_str()` changes none.
-/

open Dialogue Transition

namespace SysrepoGnxi

/-! ### libyang -/

/-- A request of the parser for a missing module. It hands over the context as it is then. -/
structure Missing (Ctx : Type) where
  context : Ctx
  name : String
  revision : Option String

/-- libyang's parser at work: it is answered with the context after the callback and the data
of the module, and ends with the context after the parse and the module. -/
abbrev Parse (Ctx Mod : Type) : Type :=
  Prog (Missing Ctx) (fun _ => Ctx × String) (Ctx × Except Exn Mod)

/-- libyang, as the constructor and the callbacks use it: `libyang::Context` and
`libyang::Module`. -/
structure LibYang (Ctx Mod : Type) where
  /-- `make_shared<Context>()`. -/
  fresh : Ctx
  /-- `ctx->get_module(…)`. -/
  getModule : Ctx → String → Option String → Option Mod
  /-- The parser, in a context and on the text of a module. -/
  parser : Ctx → String → Parse Ctx Mod
  /-- `mod->feature_enable(…)`, the result of which is not looked at. -/
  featureEnable : Ctx → Mod → String → Ctx

/-- `sr_sess->get_schema(…)`: the text of a module. -/
abbrev Download : Type := String → Option String → Except Exn String

/-- What comes of a step on the context; `none` where its depth is not enough. -/
abbrev OnContext (Ctx α : Type) : Type := Option (Ctx × Except Exn α)

variable {Ctx Mod : Type}

/-- A parser at work with the callback. What the callback throws leaves the parser. -/
def runParser (callback : Ctx → String → Option String → OnContext Ctx String) :
    Parse Ctx Mod → OnContext Ctx Mod
  | .ret result => some result
  | .call missing k =>
      match callback missing.context missing.name missing.revision with
      | none => none
      | some (c, .error exc) => some (c, .error exc)
      | some (c, .ok data) => runParser callback (k (c, data))

namespace Encode

/-- `mod_c_cb`: download the missing module and parse it, whatever comes of the parse. The
data returned to libyang is the name of the module. -/
def modCCb (download : Download) (parse : Ctx → String → OnContext Ctx Mod) (c : Ctx)
    (mod_name : String) (mod_rev : Option String) : OnContext Ctx String :=
  match download mod_name mod_rev with
  | .error exc => some (c, .error exc)
  | .ok str =>
      match parse c str with
      | none => none
      | some (c', .ok _) => some (c', .ok mod_name)
      | some (c', .error exc) =>
          match exc.isStdException with
          | some _ => some (c', .ok mod_name)
          | none => some (c', .error exc)

end Encode

/-- `ctx->parse_module_mem(…)`, for modules that import to a depth. -/
def parseModuleMem (ly : LibYang Ctx Mod) (download : Download) :
    ℕ → Ctx → String → OnContext Ctx Mod
  | 0, _, _ => none
  | depth + 1, c, str =>
      runParser (Encode.modCCb download (parseModuleMem ly download depth)) (ly.parser c str)

/-! ### The constructor of `Encode` -/

/-- An entry of `list_schemas()`. -/
structure YangSchema where
  module_name : String
  revision : String
  enabled_features : List String := []
deriving DecidableEq

/-- An exception that is caught, logged and forgotten. -/
def warnOf (c : Ctx) (exc : Exn) : OnContext Ctx Unit :=
  match exc.isStdException with
  | some _ => some (c, .ok ())
  | none => some (c, .error exc)

/-- What comes of a constructor: it exits, throws, or leaves its object. -/
inductive Construction (α : Type) where
  | exit (code : ℕ)
  | throws (exc : Exn)
  | done (object : α)
deriving DecidableEq

namespace Encode

/-- The loop over the features of a module. -/
def enableAll (ly : LibYang Ctx Mod) (c : Ctx) (mod : Mod) (features : List String) : Ctx :=
  features.foldl (fun c feature => ly.featureEnable c mod feature) c

/-- The body of the loop of the constructor, on one schema. -/
def loadSchema (ly : LibYang Ctx Mod) (download : Download)
    (parse : Ctx → String → OnContext Ctx Mod) (c : Ctx) (schema : YangSchema) :
    OnContext Ctx Unit :=
  match ly.getModule c schema.module_name (some schema.revision) with
  | some mod => some (enableAll ly c mod schema.enabled_features, .ok ())
  | none =>
      match download schema.module_name (some schema.revision) with
      | .error exc => warnOf c exc
      | .ok str =>
          match parse c str with
          | none => none
          | some (c', .error exc) => warnOf c' exc
          | some (c', .ok mod) => some (enableAll ly c' mod schema.enabled_features, .ok ())

/-- The loop of the constructor. -/
def loadSchemas (ly : LibYang Ctx Mod) (download : Download)
    (parse : Ctx → String → OnContext Ctx Mod) : Ctx → List YangSchema → OnContext Ctx Unit
  | c, [] => some (c, .ok ())
  | c, schema :: rest =>
      match loadSchema ly download parse c schema with
      | none => none
      | some (c', .error exc) => some (c', .error exc)
      | some (c', .ok ()) => loadSchemas ly download parse c' rest

/-- `Encode::Encode`. `subscribed` is what comes of the two subscriptions at its end. -/
def construct (ly : LibYang Ctx Mod) (listed : Except Exn (List YangSchema))
    (download : Download) (parse : Ctx → String → OnContext Ctx Mod)
    (subscribed : Except Exn Unit) : Option (Construction Ctx) :=
  match listed with
  | .error exc =>
      match exc.isStdException with
      | some _ => some (.exit 1)
      | none => some (.throws exc)
  | .ok schemas =>
      match loadSchemas ly download parse ly.fresh schemas with
      | none => none
      | some (_, .error exc) => some (.throws exc)
      | some (c, .ok ()) =>
          match subscribed with
          | .error exc => some (.throws exc)
          | .ok () => some (.done c)

end Encode

/-! ### The callbacks -/

/-- `sr_module_state_t`. -/
inductive ModuleState where
  | uninstalled
  | imported
  | implemented
  | other (n : ℕ)
deriving DecidableEq

namespace RuntimeSrCallback

/-- `RuntimeSrCallback::install`. -/
def install (ly : LibYang Ctx Mod) (download : Download) (parse : Ctx → String → OnContext Ctx Mod)
    (c : Ctx) (module_name : String) (revision : Option String) : OnContext Ctx Unit :=
  match ly.getModule c module_name revision with
  | some _ => some (c, .ok ())
  | none =>
      match download module_name revision with
      | .error exc => warnOf c exc
      | .ok str =>
          match parse c str with
          | none => none
          | some (c', .error exc) => warnOf c' exc
          | some (c', .ok _) => some (c', .ok ())

/-- `RuntimeSrCallback::module_install`, with a context. -/
def moduleInstall (ly : LibYang Ctx Mod) (download : Download)
    (parse : Ctx → String → OnContext Ctx Mod) (c : Ctx) (module_name : String)
    (revision : Option String) (state : ModuleState) : OnContext Ctx Unit :=
  match state with
  | .uninstalled => some (c, .ok ())
  | .imported => install ly download parse c module_name revision
  | .implemented => install ly download parse c module_name revision
  | .other _ => some (c, .ok ())

/-- `RuntimeSrCallback::feature_enable`: it only warns. -/
def featureEnable (c : Ctx) (_module_name _feature_name : String) (_enable : Bool) :
    OnContext Ctx Unit := some (c, .ok ())

end RuntimeSrCallback

/-- What sysrepo tells the callbacks. -/
inductive Notice where
  | module (module_name : String) (revision : Option String) (state : ModuleState)
  | feature (module_name feature_name : String) (enable : Bool)
deriving DecidableEq

/-- The callback of a notice. -/
def Notice.handle (ly : LibYang Ctx Mod) (download : Download)
    (parse : Ctx → String → OnContext Ctx Mod) (c : Ctx) : Notice → OnContext Ctx Unit
  | module module_name revision state =>
      RuntimeSrCallback.moduleInstall ly download parse c module_name revision state
  | feature module_name feature_name enable =>
      RuntimeSrCallback.featureEnable c module_name feature_name enable

end SysrepoGnxi
