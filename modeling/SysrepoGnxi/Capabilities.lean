import SysrepoGnxi.ModelsSpec
import SysrepoGnxi.Proto

/-!
# The Capabilities RPC

`GNMIService::Capabilities` answers with the modules sysrepo lists at the time of the request.
The other handlers work with the libyang context, which knows what was listed when the
constructor asked and what the callbacks have been told of since.

`advertised_known` compares the two, after any notices: an advertised model is found in the
context, unless its module could not be downloaded or parsed at its turn, or was neither listed
at the start nor announced. What is installed after the constructor has asked for the list and
before it subscribes is of the last kind.
-/

open Dialogue Transition

namespace SysrepoGnxi

/-- `ModelData`. -/
structure ModelData where
  name : String
  version : String
deriving DecidableEq

/-- `CapabilityResponse`. -/
structure CapabilityResponse where
  supportedModels : List ModelData := []
  supportedEncodings : List Encoding := []
  gnmiVersion : String := ""
deriving DecidableEq

/-- The `gnmi_service` option of `gnmi.proto`. -/
def gnmiService : String := "0.7.0"

/-- `GNMIService::Capabilities`, on what `list_schemas()` answers. -/
def GNMIService.capabilities (extensionSize : ℕ) (listed : Except Exn (List YangSchema)) :
    Except Exn (Except Status CapabilityResponse) :=
  if extensionSize > 0 then .ok (.error ⟨.UNIMPLEMENTED, "Extensions not implemented"⟩)
  else
    match listed with
    | .error exc =>
        match exc.isStdException with
        | some _ => .ok (.error ⟨.INTERNAL, "Fail getting schemas"⟩)
        | none => .error exc
    | .ok schemas =>
        .ok (.ok
          { supportedModels := schemas.map fun schema => ⟨schema.module_name, schema.revision⟩
            supportedEncodings := [.JSON_IETF]
            gnmiVersion := gnmiService })

/-! ### What is found in a context -/

section Finds

variable {Ctx Mod : Type}

namespace LibYang

variable (ly : LibYang Ctx Mod)

/-- `get_module` finds a module. -/
def Finds (c : Ctx) (name : String) (revision : Option String) : Prop :=
  (ly.getModule c name revision).isSome

/-- The module of a name and a revision, empty where it has none, is found. -/
def Knows (c : Ctx) (name revision : String) : Prop :=
  ly.Finds c name (if revision = "" then none else some revision)

/-- Whatever was found still is. -/
def Grows (c c' : Ctx) : Prop :=
  ∀ name revision, ly.Finds c name revision → ly.Finds c' name revision

/-- **What libyang documents of a context.** `declares` is the name and the revision a text
declares. -/
structure Documented (declares : String → String × String) : Prop where
  /-- Where no revision is given, the newest is found. -/
  newest : ∀ c name revision, ly.Finds c name (some revision) → ly.Finds c name none
  /-- Enabling a feature loses no module. -/
  enabling : ∀ c mod feature, ly.Grows c (ly.featureEnable c mod feature)
  /-- A parse loses no module, as long as the callback does not, and a module that has been
  parsed is found. -/
  parsing : ∀ c str, Dialogue.Spec (fun missing => ly.Grows c missing.context)
    (fun missing reply => ly.Grows missing.context reply.1)
    (fun result => ly.Grows c result.1 ∧ ∀ mod, result.2 = .ok mod →
      ly.Knows result.1 (declares str).1 (declares str).2) (ly.parser c str)

end LibYang

/-- sysrepo serves under a name, and under a revision if one is given, the text of that
module. -/
def Serves (declares : String → String × String) (download : Download) : Prop :=
  ∀ name revision str, download name revision = .ok str → (declares str).1 = name ∧
    ∀ rev, revision = some rev → rev ≠ "" → (declares str).2 = rev

variable {ly : LibYang Ctx Mod} {declares : String → String × String} {download : Download}

theorem LibYang.Grows.refl (c : Ctx) : ly.Grows c c := fun _ _ h => h

theorem LibYang.Grows.trans {c₁ c₂ c₃ : Ctx} (h : ly.Grows c₁ c₂) (h' : ly.Grows c₂ c₃) :
    ly.Grows c₁ c₃ := fun name revision hfinds => h' name revision (h name revision hfinds)

/-- A module that is found at a revision, or at any, is known. -/
theorem knows_of_finds (hly : ly.Documented declares) {c : Ctx} {name : String}
    {revision : Option String} (h : ly.Finds c name revision) :
    ly.Knows c name (revision.getD "") := by
  rw [LibYang.Knows]
  cases revision with
  | none => simpa using h
  | some rev =>
      rw [Option.getD_some]
      split_ifs
      · exact hly.newest c name rev h
      · exact h

/-- **A parser at work grows the context**, and the module it has parsed is found. Induction on
the parser: what was found at the start still is whenever it asks for a module. -/
theorem grows_runParser {callback : Ctx → String → Option String → OnContext Ctx String}
    (hcallback : ∀ c name revision c' r, callback c name revision = some (c', r) → ly.Grows c c')
    {start : Ctx} {P : Ctx → Prop} {p : Parse Ctx Mod}
    (hspec : Dialogue.Spec (fun missing => ly.Grows start missing.context)
      (fun missing reply => ly.Grows missing.context reply.1)
      (fun result => ly.Grows start result.1 ∧ ∀ mod, result.2 = .ok mod → P result.1) p)
    {c : Ctx} {r : Except Exn Mod} (h : runParser callback p = some (c, r)) :
    ly.Grows start c ∧ ∀ mod, r = .ok mod → P c := by
  induction p with
  | ret result =>
      obtain rfl : result = (c, r) := Option.some.inj h
      exact hspec
  | call missing k ih =>
      obtain ⟨hbefore, hafter⟩ := hspec
      rw [runParser] at h
      cases hstep : callback missing.context missing.name missing.revision with
      | none => simp [hstep] at h
      | some result =>
          have hgrows := hcallback _ _ _ _ _ hstep
          obtain ⟨c₁, exc | data⟩ := result
          · simp only [hstep, Option.some.injEq, Prod.mk.injEq] at h
            obtain ⟨rfl, rfl⟩ := h
            exact ⟨hbefore.trans hgrows, by rintro mod ⟨⟩⟩
          · simp only [hstep] at h
            exact ih (c₁, data) (hafter (c₁, data) hgrows) h

/-- **A parse grows the context**, with all the modules it asks for. -/
theorem grows_parseModuleMem (hly : ly.Documented declares) {depth : ℕ} {c c' : Ctx} {str : String}
    {r : Except Exn Mod} (h : parseModuleMem ly download depth c str = some (c', r)) :
    ly.Grows c c' ∧ ∀ mod, r = .ok mod → ly.Knows c' (declares str).1 (declares str).2 := by
  induction depth generalizing c c' str r with
  | zero => cases h
  | succ depth ih =>
      refine grows_runParser (P := fun c => ly.Knows c (declares str).1 (declares str).2) ?_
        (hly.parsing c str) h
      intro c₁ name revision c₂ r₂ hcallback
      rw [Encode.modCCb] at hcallback
      cases hdown : download name revision with
      | error exc =>
          simp only [hdown, Option.some.injEq, Prod.mk.injEq] at hcallback
          exact hcallback.1 ▸ LibYang.Grows.refl c₁
      | ok text =>
          simp only [hdown] at hcallback
          cases hparse : parseModuleMem ly download depth c₁ text with
          | none => simp [hparse] at hcallback
          | some result =>
              obtain ⟨c₃, exc | mod⟩ := result
              · have hgrows := (ih hparse).1
                cases hexc : exc.isStdException <;>
                  simp only [hparse, hexc, Option.some.injEq, Prod.mk.injEq] at hcallback <;>
                  exact hcallback.1 ▸ hgrows
              · have hgrows := (ih hparse).1
                simp only [hparse, Option.some.injEq, Prod.mk.injEq] at hcallback
                exact hcallback.1 ▸ hgrows

theorem grows_warnOf {c c' : Ctx} {exc : Exn} {r : Except Exn Unit}
    (h : warnOf c exc = some (c', r)) : c' = c := by
  rw [warnOf] at h
  cases hexc : exc.isStdException <;>
    simp only [hexc, Option.some.injEq, Prod.mk.injEq] at h <;> exact h.1.symm

theorem grows_enableAll (hly : ly.Documented declares) (c : Ctx) (mod : Mod)
    (features : List String) : ly.Grows c (Encode.enableAll ly c mod features) := by
  induction features generalizing c with
  | nil => exact LibYang.Grows.refl c
  | cons feature rest ih => exact (hly.enabling c mod feature).trans (ih _)

/-! ### A module at its turn -/

/-- A module can be had: it is there, or can be downloaded and parsed. -/
def Loadable (ly : LibYang Ctx Mod) (download : Download) (parse : Ctx → String → OnContext Ctx Mod)
    (c : Ctx) (name : String) (revision : Option String) : Prop :=
  ly.Finds c name revision ∨ ∃ str c' mod, download name revision = .ok str ∧
    parse c str = some (c', .ok mod)

/-- The module that was downloaded and parsed is known. -/
theorem knows_of_parse (hly : ly.Documented declares) (hserves : Serves declares download)
    {depth : ℕ} {c c' : Ctx} {name str : String} {revision : Option String} {mod : Mod}
    (hdown : download name revision = .ok str)
    (hparse : parseModuleMem ly download depth c str = some (c', .ok mod)) :
    ly.Knows c' name (revision.getD "") := by
  obtain ⟨rfl, hrev⟩ := hserves name revision str hdown
  have hknows := (grows_parseModuleMem hly hparse).2 mod rfl
  by_cases hbare : revision.getD "" = ""
  · rw [LibYang.Knows, if_pos hbare]
    rw [LibYang.Knows] at hknows
    split_ifs at hknows
    · exact hknows
    · exact hly.newest _ _ _ hknows
  · obtain ⟨rev, rfl⟩ : ∃ rev, revision = some rev := by
      cases revision with
      | none => exact absurd rfl hbare
      | some rev => exact ⟨rev, rfl⟩
    rwa [hrev rev rfl hbare] at hknows

/-- **What `install` does to the context**: it grows, and the module is known if it can be had. -/
theorem install_cases (hly : ly.Documented declares) (hserves : Serves declares download)
    {depth : ℕ} {c c' : Ctx} {name : String} {revision : Option String} {r : Except Exn Unit}
    (h : RuntimeSrCallback.install ly download (parseModuleMem ly download depth) c name revision =
      some (c', r)) :
    ly.Grows c c' ∧ (Loadable ly download (parseModuleMem ly download depth) c name revision →
      ly.Knows c' name (revision.getD "")) := by
  rw [RuntimeSrCallback.install] at h
  cases hget : ly.getModule c name revision with
  | some mod =>
      simp only [hget, Option.some.injEq, Prod.mk.injEq] at h
      obtain ⟨rfl, -⟩ := h
      have hfinds : ly.Finds c name revision := by simp [LibYang.Finds, hget]
      exact ⟨LibYang.Grows.refl c, fun _ => knows_of_finds hly hfinds⟩
  | none =>
      have hnone : ¬ ly.Finds c name revision := by simp [LibYang.Finds, hget]
      simp only [hget] at h
      cases hdown : download name revision with
      | error exc =>
          simp only [hdown] at h
          rw [grows_warnOf h]
          refine ⟨LibYang.Grows.refl c, ?_⟩
          rintro (hfinds | ⟨str, c₁, mod, hstr, -⟩)
          · exact absurd hfinds hnone
          · rw [hdown] at hstr
            cases hstr
      | ok str =>
          simp only [hdown] at h
          cases hparse : parseModuleMem ly download depth c str with
          | none => simp [hparse] at h
          | some result =>
              have hgrows := (grows_parseModuleMem hly hparse).1
              obtain ⟨c₁, exc | mod⟩ := result
              · simp only [hparse] at h
                rw [grows_warnOf h]
                refine ⟨hgrows, ?_⟩
                rintro (hfinds | ⟨str', c₂, mod, hstr, hok⟩)
                · exact absurd hfinds hnone
                · rw [hdown] at hstr
                  obtain rfl := Except.ok.inj hstr
                  rw [hparse] at hok
                  cases hok
              · simp only [hparse, Option.some.injEq, Prod.mk.injEq] at h
                obtain ⟨rfl, -⟩ := h
                exact ⟨hgrows, fun _ => knows_of_parse hly hserves hdown hparse⟩

/-- The constructor does to the context what `install` does, and enables features then. -/
theorem install_of_loadSchema {parse : Ctx → String → OnContext Ctx Mod} {c c' : Ctx}
    {schema : YangSchema} {r : Except Exn Unit}
    (h : Encode.loadSchema ly download parse c schema = some (c', r)) :
    ∃ c₁, RuntimeSrCallback.install ly download parse c schema.module_name
        (some schema.revision) = some (c₁, r) ∧
      (c' = c₁ ∨ ∃ mod, c' = Encode.enableAll ly c₁ mod schema.enabled_features) := by
  rw [Encode.loadSchema] at h
  rw [RuntimeSrCallback.install]
  cases hget : ly.getModule c schema.module_name (some schema.revision) with
  | some mod =>
      simp only [hget, Option.some.injEq, Prod.mk.injEq] at h
      exact ⟨c, by rw [h.2], Or.inr ⟨mod, h.1.symm⟩⟩
  | none =>
      simp only [hget] at h
      cases hdown : download schema.module_name (some schema.revision) with
      | error exc =>
          simp only [hdown] at h
          exact ⟨c', h, Or.inl rfl⟩
      | ok str =>
          simp only [hdown] at h
          cases hparse : parse c str with
          | none => simp [hparse] at h
          | some result =>
              obtain ⟨c₁, exc | mod⟩ := result
              · simp only [hparse] at h
                exact ⟨c', by simp [hparse, h], Or.inl rfl⟩
              · simp only [hparse, Option.some.injEq, Prod.mk.injEq] at h
                exact ⟨c₁, by simp [hparse, h.2], Or.inr ⟨mod, h.1.symm⟩⟩

/-- The loop of the constructor as a system: it goes on with the next schema. -/
def loader (ly : LibYang Ctx Mod) (download : Download) (parse : Ctx → String → OnContext Ctx Mod) :
    System Ctx YangSchema :=
  ⟨fun c schema c' => Encode.loadSchema ly download parse c schema = some (c', .ok ())⟩

/-- The callbacks at work: each notice with what sysrepo serves at its time. -/
def callbacks (ly : LibYang Ctx Mod) (depth : ℕ) : System Ctx (Download × Notice) :=
  ⟨fun c label c' => ∃ r,
    label.2.handle ly label.1 (parseModuleMem ly label.1 depth) c = some (c', r)⟩

/-- A schema at its turn: the context grows, and its module is known if it can be had. -/
theorem loader_cases (hly : ly.Documented declares) (hserves : Serves declares download)
    {depth : ℕ} {c c' : Ctx} {schema : YangSchema}
    (h : (loader ly download (parseModuleMem ly download depth)).step c schema c') :
    ly.Grows c c' ∧ (Loadable ly download (parseModuleMem ly download depth) c
        schema.module_name (some schema.revision) →
      ly.Knows c' schema.module_name schema.revision) := by
  obtain ⟨c₁, hinstall, hc'⟩ := install_of_loadSchema h
  obtain ⟨hgrows, hknows⟩ := install_cases hly hserves hinstall
  have henabled : ly.Grows c₁ c' := by
    rcases hc' with rfl | ⟨mod, rfl⟩
    · exact LibYang.Grows.refl c'
    · exact grows_enableAll hly c₁ mod _
  exact ⟨hgrows.trans henabled, fun hloadable => henabled _ _ (hknows hloadable)⟩

/-- A notice tells of a module, with the state of an installed one. -/
def Announces (notice : Notice) (name revision : String) : Prop :=
  ∃ rev state, notice = .module name rev state ∧ rev.getD "" = revision ∧
    (state = .imported ∨ state = .implemented)

/-- A notice: the context grows, and the module it tells of is known if it can be had. -/
theorem callbacks_cases (hly : ly.Documented declares) {depth : ℕ} {c c' : Ctx}
    {label : Download × Notice} (hserves : Serves declares label.1)
    (h : (callbacks ly depth).step c label c') :
    ly.Grows c c' ∧ ∀ name rev state, label.2 = .module name rev state →
      (state = .imported ∨ state = .implemented) →
      Loadable ly label.1 (parseModuleMem ly label.1 depth) c name rev →
      ly.Knows c' name (rev.getD "") := by
  obtain ⟨download, notice⟩ := label
  obtain ⟨r, hstep⟩ := h
  cases notice with
  | feature module_name feature_name enable =>
      obtain rfl := (Prod.mk.inj (Option.some.inj hstep)).1
      exact ⟨LibYang.Grows.refl c, by rintro name rev state ⟨⟩⟩
  | module module_name revision state =>
      cases state with
      | imported | implemented =>
          obtain ⟨hgrows, hknows⟩ := install_cases hly hserves hstep
          refine ⟨hgrows, ?_⟩
          rintro name rev state ⟨⟩ -
          exact hknows
      | _ =>
          obtain rfl := (Prod.mk.inj (Option.some.inj hstep)).1
          refine ⟨LibYang.Grows.refl c, ?_⟩
          rintro name rev state ⟨⟩ (hstate | hstate) <;> cases hstate

/-! ### Every module has its turn -/

/-- A constructor that is done has run through all schemas. -/
theorem run_of_construct {parse : Ctx → String → OnContext Ctx Mod} {schemas : List YangSchema}
    {c : Ctx} (h : Encode.construct ly (.ok schemas) download parse (.ok ()) = some (.done c)) :
    Run (loader ly download parse) ly.fresh schemas c := by
  have hloop {c c' : Ctx} {schemas : List YangSchema}
      (h : Encode.loadSchemas ly download parse c schemas = some (c', .ok ())) :
      Run (loader ly download parse) c schemas c' := by
    induction schemas generalizing c with
    | nil =>
        cases h
        exact Run.nil _
    | cons schema rest ih =>
        rw [Encode.loadSchemas] at h
        cases hstep : Encode.loadSchema ly download parse c schema with
        | none => simp [hstep] at h
        | some result =>
            obtain ⟨c₁, exc | u⟩ := result
            · simp [hstep] at h
            · simp only [hstep] at h
              exact Run.cons hstep (ih h)
  simp only [Encode.construct] at h
  cases hload : Encode.loadSchemas ly download parse ly.fresh schemas with
  | none => simp [hload] at h
  | some result =>
      obtain ⟨c', exc | u⟩ := result
      · simp [hload] at h
      · simp only [hload, Option.some.injEq, Construction.done.injEq] at h
        exact h ▸ hloop hload

/-- **What has become of a module**, after the start with a list of schemas and after notices:
it is known, or at its turn it could not be had, or it never had a turn. -/
inductive Account (ly : LibYang Ctx Mod) (depth : ℕ) (download : Download)
    (schemas : List YangSchema) (start : Ctx) (notices : List (Download × Notice)) (c : Ctx)
    (name revision : String) : Prop
  | known : ly.Knows c name revision →
      Account ly depth download schemas start notices c name revision
  | refusedAtStart {before after : List YangSchema} {features : List String} {c₁ : Ctx} :
      schemas = before ++ ⟨name, revision, features⟩ :: after →
      Run (loader ly download (parseModuleMem ly download depth)) ly.fresh before c₁ →
      ¬ Loadable ly download (parseModuleMem ly download depth) c₁ name (some revision) →
      Account ly depth download schemas start notices c name revision
  | refusedLater {before after : List (Download × Notice)} {later : Download} {rev : Option String}
      {state : ModuleState} {c₁ : Ctx} :
      notices = before ++ (later, .module name rev state) :: after → rev.getD "" = revision →
      (state = .imported ∨ state = .implemented) →
      Run (callbacks ly depth) start before c₁ →
      ¬ Loadable ly later (parseModuleMem ly later depth) c₁ name rev →
      Account ly depth download schemas start notices c name revision
  | missed : (∀ schema ∈ schemas, (schema.module_name, schema.revision) ≠ (name, revision)) →
      (∀ label ∈ notices, ¬ Announces label.2 name revision) →
      Account ly depth download schemas start notices c name revision

variable {depth : ℕ} {schemas : List YangSchema} {start : Ctx} {name revision : String}

/-- After the start. -/
theorem account_of_startup (hly : ly.Documented declares) (hserves : Serves declares download)
    (h : Encode.construct ly (.ok schemas) download (parseModuleMem ly download depth) (.ok ()) =
      some (.done start)) :
    Account ly depth download schemas start [] start name revision := by
  by_cases hlisted : ∃ schema ∈ schemas, (schema.module_name, schema.revision) = (name, revision)
  · obtain ⟨⟨name', revision', features⟩, hschema, heq⟩ := hlisted
    obtain ⟨rfl, rfl⟩ := Prod.mk.inj heq
    obtain ⟨before, after, rfl⟩ := List.append_of_mem hschema
    obtain ⟨c₁, hrun₁, hrest⟩ := Run.append_iff.mp (run_of_construct h)
    obtain ⟨c₂, hstep, hrun₂⟩ := Run.cons_iff.mp hrest
    by_cases hloadable : Loadable ly download (parseModuleMem ly download depth) c₁ name'
        (some revision')
    · have hknows := (loader_cases hly hserves hstep).2 hloadable
      have hgrows : ly.Grows c₂ start := hrun₂.invariant (I := fun c => ly.Grows c₂ c)
        (fun _ _ _ hc hs => hc.trans (loader_cases hly hserves hs).1) (LibYang.Grows.refl c₂)
      exact .known (hgrows _ _ hknows)
    · exact .refusedAtStart rfl hrun₁ hloadable
  · simp only [not_exists, not_and] at hlisted
    exact .missed hlisted (by simp)

/-- **A notice keeps the account** of every module. -/
theorem Account.concat (hly : ly.Documented declares) {notices : List (Download × Notice)}
    {c c' : Ctx} {label : Download × Notice} (hserves : Serves declares label.1)
    (hrun : Run (callbacks ly depth) start notices c)
    (h : Account ly depth download schemas start notices c name revision)
    (hstep : (callbacks ly depth).step c label c') :
    Account ly depth download schemas start (notices ++ [label]) c' name revision := by
  obtain ⟨hgrows, hknows⟩ := callbacks_cases hly hserves hstep
  cases h with
  | known hk => exact .known (hgrows _ _ hk)
  | refusedAtStart hschemas hrun₁ hnot => exact .refusedAtStart hschemas hrun₁ hnot
  | @refusedLater before after later rev state c₁ hnotices hrev hstate hrun₁ hnot =>
      have hlater : notices ++ [label] =
          before ++ (later, .module name rev state) :: (after ++ [label]) := by
        rw [hnotices, List.append_assoc, List.cons_append]
      exact .refusedLater hlater hrev hstate hrun₁ hnot
  | missed hschemas hnone =>
      by_cases hannounces : Announces label.2 name revision
      · obtain ⟨download', notice⟩ := label
        obtain ⟨rev, state, rfl, rfl, hstate⟩ := hannounces
        by_cases hloadable : Loadable ly download' (parseModuleMem ly download' depth) c name rev
        · exact .known (hknows name rev state rfl hstate hloadable)
        · have hlast : notices ++ [(download', .module name rev state)] =
              notices ++ (download', .module name rev state) :: [] := rfl
          exact .refusedLater hlast rfl hstate hrun hloadable
      · refine .missed hschemas ?_
        intro label' hlabel'
        rcases List.mem_append.mp hlabel' with hlabel' | hlabel'
        · exact hnone label' hlabel'
        · exact List.mem_singleton.mp hlabel' ▸ hannounces

/-- **What is advertised, and what of it is known to the handlers**: a Capabilities response has
the modules sysrepo lists, and each of them is in the libyang context, unless at its turn it
could not be downloaded or parsed, or it was neither listed at the start nor announced since. -/
theorem advertised_known {notices : List (Download × Notice)} {c : Ctx} {extensionSize : ℕ}
    {listed : List YangSchema} {response : CapabilityResponse} (hly : ly.Documented declares)
    (hserves : Serves declares download)
    (h : Encode.construct ly (.ok schemas) download (parseModuleMem ly download depth) (.ok ()) =
      some (.done start))
    (hnotices : ∀ label ∈ notices, Serves declares label.1)
    (hrun : Run (callbacks ly depth) start notices c)
    (hresponse : GNMIService.capabilities extensionSize (.ok listed) = .ok (.ok response)) :
    response.supportedModels =
        listed.map (fun schema => ⟨schema.module_name, schema.revision⟩) ∧
      ∀ model ∈ response.supportedModels,
        Account ly depth download schemas start notices c model.name model.version := by
  constructor
  · rw [GNMIService.capabilities] at hresponse
    split_ifs at hresponse
    · cases hresponse
    · exact (Except.ok.inj (Except.ok.inj hresponse)) ▸ rfl
  · intro model _
    refine hrun.history (I := fun notices c => (∀ label ∈ notices, Serves declares label.1) →
      Account ly depth download schemas start notices c model.name model.version) ?_ ?_ hnotices
    · exact fun _ => account_of_startup hly hserves h
    · intro before c₁ label c₂ hbefore ih hstep hall
      refine Account.concat hly (hall label (by simp)) hbefore (ih fun label' hlabel' => ?_) hstep
      exact hall label' (List.mem_append_left _ hlabel')

end Finds

/-! ### A module that is installed later -/

/-- The revision of every text. -/
def nameDeclares (str : String) : String × String := (str, "2020-01-01")

theorem hasModule_none {c : List SmallModule} {name : String} {revision : Option String}
    (h : hasModule c name revision = true) : hasModule c name none = true := by
  simp only [hasModule, List.any_eq_true, decide_eq_true_eq] at h ⊢
  obtain ⟨m, hm, hname, -⟩ := h
  exact ⟨m, hm, hname, by simp⟩

theorem finds_smallYang {c : List SmallModule} {name : String} {revision : Option String} :
    smallYang.Finds c name revision ↔ hasModule c name revision = true := by
  simp only [LibYang.Finds, smallYang]
  split_ifs with h <;> simp [h]

theorem grows_append (c ms : List SmallModule) : smallYang.Grows c (c ++ ms) := by
  intro name revision h
  rw [finds_smallYang] at h ⊢
  rw [hasModule, List.any_append, Bool.or_eq_true]
  exact Or.inl h

theorem grows_addModule (c : List SmallModule) (name : String) :
    smallYang.Grows c (addModule c name) ∧
      smallYang.Knows (addModule c name) name "2020-01-01" := by
  have hrevision : "2020-01-01" ≠ "" := by decide
  rw [LibYang.Knows, if_neg hrevision, finds_smallYang, addModule]
  split_ifs with h
  · exact ⟨LibYang.Grows.refl c, h⟩
  · exact ⟨grows_append c _, by simp [hasModule]⟩

theorem documented_smallYang : smallYang.Documented nameDeclares where
  newest c name revision h := by
    rw [finds_smallYang] at h ⊢
    exact hasModule_none h
  enabling c mod feature name revision h := by
    rw [finds_smallYang] at h ⊢
    have hsame : hasModule (smallYang.featureEnable c mod feature) name revision =
        hasModule c name revision := by
      simp only [hasModule, smallYang, List.any_map]
      refine List.any_congr rfl fun m => ?_
      dsimp only [Function.comp_apply]
      split_ifs <;> rfl
    rw [hsame]
    exact h
  parsing c str := by
    rw [show smallYang.parser = smallParser from rfl, smallParser]
    split_ifs with hstr
    · obtain ⟨rfl, -⟩ := hstr
      refine ⟨LibYang.Grows.refl c, fun reply hreply => ?_⟩
      rw [Dialogue.Spec]
      split_ifs
      · obtain ⟨hgrows, hknows⟩ := grows_addModule reply.1 "a"
        exact ⟨LibYang.Grows.trans hreply hgrows, fun _ _ => hknows⟩
      · exact ⟨hreply, by rintro mod ⟨⟩⟩
    · obtain ⟨hgrows, hknows⟩ := grows_addModule c str
      exact ⟨hgrows, fun _ _ => hknows⟩

theorem serves_nameDownload : Serves nameDeclares nameDownload := by
  intro name revision str h
  rw [nameDownload] at h
  split_ifs at h with hrev
  obtain rfl := Except.ok.inj h
  refine ⟨rfl, ?_⟩
  rintro rev rfl -
  have hrev : rev = "2020-01-01" := by simpa using hrev
  exact hrev.symm

/-- The context after the start. -/
def nameContext : List SmallModule :=
  [⟨"yang", "2017-02-20", []⟩, ⟨"b", "2020-01-01", []⟩, ⟨"a", "2020-01-01", ["f"]⟩]

/-- sysrepo lists `a`, and installs `c` after the start: both are known. -/
theorem advertised_known_names :
    [(⟨"a", "2020-01-01"⟩ : ModelData), ⟨"c", "2020-01-01"⟩] =
        [(⟨"a", "2020-01-01", ["f"]⟩ : YangSchema), ⟨"c", "2020-01-01", []⟩].map
          (fun schema => ⟨schema.module_name, schema.revision⟩) ∧
      ∀ model ∈ [(⟨"a", "2020-01-01"⟩ : ModelData), ⟨"c", "2020-01-01"⟩],
        Account smallYang 2 nameDownload [⟨"a", "2020-01-01", ["f"]⟩] nameContext
          [(nameDownload, .module "c" (some "2020-01-01") .implemented)]
          (nameContext ++ [⟨"c", "2020-01-01", []⟩]) model.name model.version := by
  have hrun : Run (callbacks smallYang 2) nameContext
      [(nameDownload, .module "c" (some "2020-01-01") .implemented)]
      (nameContext ++ [⟨"c", "2020-01-01", []⟩]) := Run.cons ⟨.ok (), rfl⟩ (Run.nil _)
  have hresponse : GNMIService.capabilities 0
      (.ok [⟨"a", "2020-01-01", ["f"]⟩, ⟨"c", "2020-01-01", []⟩]) =
        .ok (.ok ⟨[⟨"a", "2020-01-01"⟩, ⟨"c", "2020-01-01"⟩], [.JSON_IETF], "0.7.0"⟩) := rfl
  exact advertised_known documented_smallYang serves_nameDownload rfl
    (by simpa using serves_nameDownload) hrun hresponse

end SysrepoGnxi
