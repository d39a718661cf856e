import SysrepoGnxi.Set

/-!
# What a Set Request Does

The specification of the Set handler by its dialogues with the environment, one lemma for
each function of the source. They say two things:

* only `run` commits, and the commit is its last call (`yields_run_cases`);
* a dialogue that ends well has left exactly the edits of its item pending, in order
  (`acceptedEdits_run`): `requestEdits` computes them from the request and what libyang
  makes of its documents.

On a datastore, a request that returns OK publishes these edits (`serveSet_ok`).
-/

open Dialogue

namespace SysrepoGnxi

/-! ### Who calls what -/

/-- A call that builds a value or sets one. -/
def Writing : Call → Prop
  | .newVal _ => True
  | .setItem _ _ => True
  | _ => False

/-- A call that stores a value, or prepares to. -/
def Storing : Call → Prop
  | .newVal _ => True
  | .setItem _ _ => True
  | .parseDataMem _ => True
  | _ => False

/-- A call that stages edits, or prepares one. -/
def Staging : Call → Prop
  | .deleteItem _ => True
  | c => Storing c

theorem Writing.storing (c : Call) (h : Writing c) : Storing c := by
  cases c <;> trivial

theorem Storing.staging (c : Call) (h : Storing c) : Staging c := by
  cases c <;> trivial

/-- A type that is not supported is an invalid argument. -/
theorem LyValue.toVal_error {value : LyValue} {exc : Exn} (h : value.toVal = .error exc) :
    ∃ what, exc = .invalidArgument what := by
  cases value <;> cases h <;> exact ⟨_, rfl⟩

/-- A property of handlers that the calls of `store_tree` have, and that sequencing and
`catch (std::string str)` keep: all of `store_tree` then has it. -/
structure StoreRules (P : (α : Type) → Handler α → Prop) : Prop where
  pure {α : Type} (a : α) : P α (pure a)
  bind {α β : Type} {x : Handler α} {f : α → Handler β} :
    P α x → (∀ a, P β (f a)) → P β (x >>= f)
  invalid (what : String) : P Unit (throw (.invalidArgument what))
  newVal (v : Val) : P Val (newVal v)
  setItem (path : ItemPath) (val : Option Val) : P Unit (setItem path val)
  catchString {x : Handler Unit} : P Unit x → P Unit (catchString x)

namespace StoreRules

variable {P : (α : Type) → Handler α → Prop} (hP : StoreRules P)
include hP

theorem setVal (path : ItemPath) (val : Val) : P Unit (setVal path val) :=
  hP.bind (hP.newVal val) fun _ => hP.setItem path _

/-- Induction on the chain of leafrefs. -/
theorem storeLeaf (path : NodeRef) (isKey : Bool) (value : LyValue) :
    P Unit (storeLeaf path isKey value) := by
  fun_induction SysrepoGnxi.storeLeaf path isKey value with
  | case1 => exact hP.pure _
  | case2 path isKey _ _ _ _ ih => exact hP.bind ih fun _ => hP.setItem _ _
  | case3 => exact hP.pure _
  | case4 _ _ _ _ _ _ hval =>
      obtain ⟨what, rfl⟩ := LyValue.toVal_error hval
      exact hP.invalid what
  | case5 => exact hP.setVal _ _

theorem storeNode (path : NodeRef) (node : DataNode) : P Unit (storeNode path node) := by
  cases node with
  | leaf name isKey value => exact hP.catchString (hP.storeLeaf _ _ _)
  | leaflist name value => exact hP.pure _
  | list name keys children => exact hP.setVal _ _
  | container name presence children => exact hP.pure _
  | other name children => exact hP.pure _

theorem storeNodes (nodes : List (NodeRef × DataNode)) : P Unit (storeNodes nodes) := by
  induction nodes with
  | nil => exact hP.pure _
  | cons it rest ih => exact hP.bind (hP.storeNode _ _) fun _ => ih

end StoreRules

/-- `store_tree` only writes. -/
theorem storeRules_only : StoreRules fun _ x => x.Only Writing where
  pure a := Throwing.only_pure a
  bind hx hf := hx.bind hf
  invalid _ := Throwing.only_throw _
  newVal _ := Throwing.only_ask trivial
  setItem _ _ := Throwing.only_ask trivial
  catchString hx := by
    refine hx.observe.bind ?_
    rintro (exc | a)
    · cases exc <;> exact Throwing.only_throw _
    · exact Throwing.only_pure _

theorem only_jsonUpdate (data : String) : (jsonUpdate data).Only Storing := by
  refine (Throwing.only_ask trivial).bind ?_
  rintro (- | ⟨node, siblings⟩)
  · exact Throwing.only_throw _
  · exact (storeRules_only.storeNodes _).mono Writing.storing

namespace SetRpc

theorem only_rethrowInvalid {x : Handler Unit} (hx : x.Only Storing) :
    (rethrowInvalid x).Only Storing := by
  refine hx.observe.bind ?_
  rintro (exc | a)
  · cases exc <;> exact Throwing.only_throw _
  · exact Throwing.only_pure _

theorem only_storeValue (fullpath : String) (reqval : TypedValue) :
    (storeValue fullpath reqval).Only Storing := by
  cases reqval <;> first
    | exact (storeRules_only.setVal _ _).mono Writing.storing
    | exact only_rethrowInvalid (only_jsonUpdate _)
    | exact Throwing.only_throw _

theorem only_handleUpdate (upd : Update) (out : UpdateResult) (pfx : String) :
    (handleUpdate upd out pfx).Only Storing := by
  obtain ⟨path, val⟩ := upd
  cases path with
  | none => exact Throwing.only_pure _
  | some path =>
      cases val with
      | none => exact Throwing.only_pure _
      | some reqval => exact (only_storeValue _ _).bind fun _ => Throwing.only_pure _

theorem only_deleteLoop (pfx : String) (paths : List Path) (response : SetResponse) :
    (deleteLoop pfx paths response).Only Staging := by
  induction paths generalizing response with
  | nil => exact Throwing.only_pure _
  | cons delpath rest ih =>
      have hdel : (deleteItem (cStr (pfx ++ gnmiToXpath delpath))).Only Staging :=
        Throwing.only_ask trivial
      refine hdel.observe.bind ?_
      rintro (exc | a)
      · cases exc <;> first | exact Throwing.only_pure _ | exact Throwing.only_throw _
      · exact ih _

theorem only_updateLoop (op : Operation) (clauses : Exn → Option Status) (pfx : String)
    (upds : List Update) (response : SetResponse) :
    (updateLoop op clauses pfx upds response).Only Staging := by
  induction upds generalizing response with
  | nil => exact Throwing.only_pure _
  | cons upd rest ih =>
      refine ((only_handleUpdate upd {} pfx).mono Storing.staging).observe.bind ?_
      rintro (exc | ⟨code, res⟩)
      · dsimp only
        cases clauses exc with
        | none => exact Throwing.only_throw _
        | some status => exact Throwing.only_pure _
      · exact ih _

theorem only_andThen {x : Handler (Except Status SetResponse)}
    {f : SetResponse → Handler (Except Status SetResponse)} (hx : x.Only Staging)
    (hf : ∀ response, (f response).Only Staging) : (andThen x f).Only Staging := by
  refine hx.bind ?_
  rintro (status | response)
  · exact Throwing.only_pure _
  · exact hf _

/-- The three loops of `run` only stage edits. -/
theorem only_items (request : SetRequest) (response : SetResponse) :
    (items request response).Only Staging :=
  only_andThen (only_deleteLoop _ _ _) fun _ =>
    only_andThen (only_updateLoop _ _ _ _ _) fun _ => only_updateLoop _ _ _ _ _

theorem yields_andThen {x : Handler (Except Status SetResponse)}
    {f : SetResponse → Handler (Except Status SetResponse)} {evs : List CallEvent}
    {r : Except Exn (Except Status SetResponse)} (h : Yields (andThen x f).run evs r) :
    (∃ evs₁ evs₂ response, evs = evs₁ ++ evs₂ ∧ Yields x.run evs₁ (.ok (.ok response)) ∧
      Yields (f response).run evs₂ r) ∨
      (Yields x.run evs r ∧ ∀ response, r ≠ .ok (.ok response)) := by
  rcases Throwing.yields_bind.mp h with ⟨evs₁, evs₂, o, rfl, h₁, h₂⟩ | ⟨exc, h₁, rfl⟩
  · cases o with
    | error status =>
        obtain ⟨rfl, rfl⟩ := Throwing.yields_pure.mp h₂
        exact Or.inr ⟨by simpa using h₁, by simp⟩
    | ok response => exact Or.inl ⟨evs₁, evs₂, response, rfl, h₁, h₂⟩
  · exact Or.inr ⟨h₁, by simp⟩

/-- How a request ends with a reply to its commit. -/
theorem yields_commitAll_iff {response : SetResponse} {evs : List CallEvent}
    {r : Except Exn (Except Status SetResponse)} :
    Yields (commitAll response).run evs r ↔
      ∃ reply : Except Exn Unit, evs = [⟨.commit, reply⟩] ∧
        r = match reply with
          | .ok _ => .ok (.ok response)
          | .error exc => exc.isStdException.elim (.error exc) fun _ =>
              .ok (.error ⟨.INTERNAL, "commit failed"⟩) := by
  refine (Throwing.yields_observe_quiet (g := fun reply => match reply with
    | .ok _ => .ok (.ok response)
    | .error exc => exc.isStdException.elim (.error exc) fun _ =>
        .ok (.error ⟨.INTERNAL, "commit failed"⟩)) ?_).trans ?_
  · rintro (exc | u) evs r
    · cases hstd : exc.isStdException with
      | some what =>
          simp only [hstd]
          exact Throwing.yields_pure
      | none =>
          simp only [hstd]
          exact Throwing.yields_throw
    · exact Throwing.yields_pure
  · constructor
    · rintro ⟨o, ho, rfl⟩
      obtain ⟨_, rfl, rfl⟩ := Throwing.yields_ask.mp ho
      exact ⟨_, rfl, rfl⟩
    · rintro ⟨reply, rfl, rfl⟩
      exact ⟨reply, Throwing.yields_ask.mpr ⟨reply, rfl, rfl⟩, rfl⟩

/-- **The commit at the end** is a single call: the request ends with its response if the
commit succeeds, and with none otherwise. -/
theorem yields_commitAll {response : SetResponse} {evs : List CallEvent}
    {r : Except Exn (Except Status SetResponse)} (h : Yields (commitAll response).run evs r) :
    ∃ reply : Except Exn Unit, evs = [⟨.commit, reply⟩] ∧
      (reply = .ok () → r = .ok (.ok response)) ∧
      (reply ≠ .ok () → ∀ response, r ≠ .ok (.ok response)) := by
  obtain ⟨reply, rfl, rfl⟩ := yields_commitAll_iff.mp h
  refine ⟨reply, rfl, ?_, fun hne response' heq => ?_⟩
  · rintro rfl
    rfl
  · cases reply with
    | ok u => exact hne rfl
    | error exc =>
        dsimp only at heq
        cases hstd : exc.isStdException <;> rw [hstd] at heq <;> cases heq

/-- **A Set request commits exactly when it ends OK**, and the commit is its last call. -/
theorem yields_run_cases {request : SetRequest} {evs : List CallEvent}
    {r : Except Exn (Except Status SetResponse)} (h : Yields (run request).run evs r) :
    (∃ evs' t response, evs = ⟨.getTimeNanosec, t⟩ :: evs' ++ [committed] ∧
      Yields (items request ⟨request.pfx, [], t⟩).run evs' (.ok (.ok response)) ∧
      (∀ ev ∈ evs', ev ≠ committed) ∧ r = .ok (.ok response)) ∨
      ((∀ ev ∈ evs, ev ≠ committed) ∧ ∀ response, r ≠ .ok (.ok response)) := by
  have hnot : ∀ {ev : CallEvent}, Staging ev.1 → ev ≠ committed := by
    rintro ev hev rfl
    exact hev
  rw [run] at h
  split_ifs at h with hext
  · obtain ⟨rfl, rfl⟩ := Throwing.yields_pure.mp h
    exact Or.inr ⟨by simp, by simp⟩
  · rcases Throwing.yields_bind.mp h with ⟨evs₁, evs₂, t, rfl, h₁, h₂⟩ | ⟨exc, h₁, rfl⟩
    · obtain ⟨t', rfl, heq⟩ := Throwing.yields_ask.mp h₁
      obtain rfl : t = t' := Except.ok.inj heq
      have htime : (⟨.getTimeNanosec, t⟩ : CallEvent) ≠ committed := by simp [committed]
      rcases yields_andThen h₂ with ⟨evs₃, evs₄, response, rfl, h₃, h₄⟩ | ⟨h₃, hr⟩
      · have hno : ∀ ev ∈ evs₃, ev ≠ committed := fun ev hev =>
          hnot ((only_items _ _).mem h₃ ev hev)
        obtain ⟨reply, rfl, hok, hrefused⟩ := yields_commitAll h₄
        by_cases hreply : reply = .ok ()
        · subst hreply
          exact Or.inl ⟨evs₃, t, response, rfl, h₃, hno, hok rfl⟩
        · refine Or.inr ⟨?_, hrefused hreply⟩
          intro ev hev
          rcases List.mem_append.mp hev with hev | hev
          · obtain rfl : ev = ⟨.getTimeNanosec, t⟩ := by simpa using hev
            exact htime
          · rcases List.mem_append.mp hev with hev | hev
            · exact hno ev hev
            · obtain rfl : ev = ⟨.commit, reply⟩ := by simpa using hev
              simpa [committed] using hreply
      · refine Or.inr ⟨?_, hr⟩
        intro ev hev
        rcases List.mem_cons.mp hev with rfl | hev
        · exact htime
        · exact hnot ((only_items _ _).mem h₃ ev hev)
    · obtain ⟨t', -, heq⟩ := Throwing.yields_ask.mp h₁
      cases heq

end SetRpc

/-! ### What an item leaves pending -/

/-- The edits of `storeLeaf`. -/
def leafEdits (path : NodeRef) (isKey : Bool) : LyValue → List Edit
  | .leafref targetPath targetKey target =>
      if isKey then []
      else leafEdits targetPath targetKey target ++ [.set (.dataNode path) none]
  | value =>
      if isKey then []
      else
        match value.toVal with
        | .error _ => []
        | .ok val => [.set (.dataNode path) (some val)]

/-- `storeLeaf` does not throw an exception of its own: the leaf is a key, or its value
has a supported type, at the end of a chain of leafrefs if it is one. -/
def LyValue.Storable (isKey : Bool) : LyValue → Prop
  | .leafref _ targetKey target => isKey = true ∨ target.Storable targetKey
  | value => isKey = true ∨ ∃ val, value.toVal = .ok val

/-- A leaf whose value is no leafref. -/
theorem LyValue.storable_iff {value : LyValue} {isKey : Bool}
    (h : ∀ targetPath targetKey target, value ≠ .leafref targetPath targetKey target) :
    value.Storable isKey ↔ isKey = true ∨ ∃ val, value.toVal = .ok val := by
  cases value with
  | leafref targetPath targetKey target => exact absurd rfl (h _ _ _)
  | _ => exact Iff.rfl

/-- The edits of one visited node. -/
def nodeEdits (path : NodeRef) : DataNode → List Edit
  | .leaf _ isKey value => leafEdits path isKey value
  | .list _ _ _ => [.set (.dataNode path) (some .list)]
  | _ => []

/-- The leaf of a visited node, if it is one, is storable. -/
def DataNode.Storable : DataNode → Prop
  | .leaf _ isKey value => value.Storable isKey
  | _ => True

/-- The edits of `storeTree`. -/
def treeEdits (node : DataNode) : List Edit :=
  (treeDfs [] node).flatMap fun it => nodeEdits it.1 it.2

/-- Every leaf of a tree is storable. -/
def DataNode.AllStorable (node : DataNode) : Prop :=
  ∀ it ∈ treeDfs [] node, it.2.Storable

section Edits

variable (parse : String → Except Exn (List DataNode))

/-- The tree `json_update` stores for a document: the first one libyang returns. -/
def documentTree (data : String) : Option DataNode :=
  match parse (cStr data) with
  | .ok (node :: _) => some node
  | _ => none

/-- The edits `handleUpdate` makes for a value. -/
def valueEdits (fullpath : String) (reqval : TypedValue) : List Edit :=
  match SetRpc.scalar reqval with
  | some val => [.set (.xpath (cStr fullpath)) (some val)]
  | none =>
      match reqval with
      | .jsonIetfVal data => (documentTree parse data).elim [] treeEdits
      | _ => []

/-- The edits of a replace or update item. -/
def updateEdits (pfx : String) (upd : Update) : List Edit :=
  match upd.path, upd.val with
  | some path, some reqval => valueEdits parse (pfx ++ gnmiToXpath path) reqval
  | _, _ => []

/-- **The edits of a Set request**: its deletes, its replaces, its updates. -/
def requestEdits (request : SetRequest) : List Edit :=
  let pfx := request.pfx.elim "" gnmiToXpath
  request.delete.map (fun path => .delete (cStr (pfx ++ gnmiToXpath path))) ++
    request.replace.flatMap (updateEdits parse pfx) ++
    request.update.flatMap (updateEdits parse pfx)

/-- A value `handleUpdate` can store: a scalar, or a document whose tree libyang returns
and whose leaves are all storable. -/
def TypedValue.Storable (reqval : TypedValue) : Prop :=
  (∃ val, SetRpc.scalar reqval = some val) ∨
    ∃ data node, reqval = .jsonIetfVal data ∧ documentTree parse data = some node ∧
      node.AllStorable

/-- An item whose value, if there is one to store, is storable. -/
def Update.Storable (upd : Update) : Prop :=
  ∀ path reqval, upd.path = some path → upd.val = some reqval → reqval.Storable parse

/-- The replies libyang's parser gives. -/
def Parsed (c : Call) (r : c.Reply) : Prop :=
  ∀ data nodes, (⟨c, r⟩ : CallEvent) = ⟨.parseDataMem data, .ok nodes⟩ →
    parse data = .ok nodes

variable {parse}

/-- A call that writes is no call of the parser. -/
theorem Writing.parsed {ev : CallEvent} (h : Writing ev.1) : Parsed parse ev.1 ev.2 := by
  obtain ⟨c, r⟩ := ev
  rintro data nodes heq
  cases heq
  exact h.elim

/-- The edits of exchanges that are followed by others. -/
theorem ends_setItem (path : ItemPath) (val : Option Val) :
    (setItem path val).Ends (Parsed parse)
      fun _ evs => acceptedEdits evs = [.set path val] := by
  refine Throwing.ends_ask ?_
  rintro r a - rfl
  rfl

theorem ends_deleteItem (xpath : String) :
    (deleteItem xpath).Ends (Parsed parse)
      fun _ evs => acceptedEdits evs = [.delete xpath] := by
  refine Throwing.ends_ask ?_
  rintro r a - rfl
  rfl

theorem ends_setVal (path : ItemPath) (val : Val) :
    (setVal path val).Ends (Parsed parse)
      fun _ evs => acceptedEdits evs = [.set path (some val)] := by
  have hnew : (newVal val).Ends (Parsed parse)
      fun v evs => v = val ∧ acceptedEdits evs = [] := by
    refine Throwing.ends_ask ?_
    rintro (exc | u) a - h
    · cases h
    · exact ⟨(Except.ok.inj h).symm, rfl⟩
  refine hnew.bind ?_
  rintro v evs₁ ⟨rfl, h₁⟩ evs₂ u hy hr
  rw [acceptedEdits_append, h₁]
  exact ends_setItem _ _ evs₂ u hy hr

/-- **`storeLeaf` makes the edits of its leaf**, and only a storable leaf gets through:
induction on the chain of leafrefs. -/
theorem ends_storeLeaf (path : NodeRef) (isKey : Bool) (value : LyValue) :
    (storeLeaf path isKey value).Ends (Parsed parse) fun _ evs =>
      acceptedEdits evs = leafEdits path isKey value ∧ value.Storable isKey := by
  fun_induction storeLeaf path isKey value with
  | case1 =>
      exact Throwing.ends_pure ⟨by simp [leafEdits, acceptedEdits], by simp [LyValue.Storable]⟩
  | case2 path isKey targetPath targetKey target hkey ih =>
      refine ih.bind ?_
      rintro u evs₁ ⟨h₁, hs⟩ evs₂ u' hy hr
      have h₂ := ends_setItem _ _ evs₂ u' hy hr
      refine ⟨?_, Or.inr hs⟩
      rw [acceptedEdits_append, h₁, h₂, leafEdits]
      simp [hkey]
  | case3 path value hval =>
      refine Throwing.ends_pure ⟨?_, ?_⟩
      · cases value <;> simp [leafEdits, acceptedEdits]
      · cases value <;> simp [LyValue.Storable]
  | case4 => exact Throwing.ends_throw
  | case5 path isKey value hval hkey val hto =>
      intro evs u hy hr
      have h := ends_setVal _ _ evs u hy hr
      refine ⟨?_, ?_⟩
      · cases value <;> simp_all [leafEdits]
      · cases value <;> simp_all [LyValue.Storable]

theorem ends_catchString {x : Handler Unit} {post : Unit → List CallEvent → Prop}
    (hx : x.Ends (Parsed parse) post) : (catchString x).Ends (Parsed parse) post := by
  refine hx.observe.bind ?_
  rintro (exc | u) evs₁ h₁
  · cases exc <;> exact Throwing.ends_throw
  · exact Throwing.ends_pure (by simpa using h₁ u rfl)

theorem ends_storeNode (path : NodeRef) (node : DataNode) :
    (storeNode path node).Ends (Parsed parse) fun _ evs =>
      acceptedEdits evs = nodeEdits path node ∧ node.Storable := by
  cases node with
  | leaf name isKey value => exact ends_catchString (ends_storeLeaf _ _ _)
  | leaflist name value => exact Throwing.ends_pure ⟨rfl, trivial⟩
  | list name keys children =>
      intro evs u hy hr
      exact ⟨ends_setVal _ _ evs u hy hr, trivial⟩
  | container name presence children => exact Throwing.ends_pure ⟨rfl, trivial⟩
  | other name children => exact Throwing.ends_pure ⟨rfl, trivial⟩

theorem ends_storeNodes (nodes : List (NodeRef × DataNode)) :
    (storeNodes nodes).Ends (Parsed parse) fun _ evs =>
      acceptedEdits evs = nodes.flatMap (fun it => nodeEdits it.1 it.2) ∧
        ∀ it ∈ nodes, it.2.Storable := by
  induction nodes with
  | nil => exact Throwing.ends_pure ⟨rfl, by simp⟩
  | cons it rest ih =>
      refine (ends_storeNode it.1 it.2).bind ?_
      rintro u evs₁ ⟨h₁, hs₁⟩ evs₂ u' hy hr
      obtain ⟨h₂, hs₂⟩ := ih evs₂ u' hy hr
      refine ⟨by rw [acceptedEdits_append, h₁, h₂, List.flatMap_cons], ?_⟩
      intro it' hit
      rcases List.mem_cons.mp hit with rfl | hit
      · exact hs₁
      · exact hs₂ it' hit

/-- **`json_update` makes the edits of the tree libyang returns**, and only a tree whose
leaves are all storable gets through. -/
theorem ends_jsonUpdate (data : String) :
    (jsonUpdate data).Ends (Parsed parse) fun _ evs =>
      ∃ node, documentTree parse data = some node ∧ acceptedEdits evs = treeEdits node ∧
        node.AllStorable := by
  have hparse : (parseDataMem (cStr data)).Ends (Parsed parse)
      fun nodes evs => parse (cStr data) = .ok nodes ∧ acceptedEdits evs = [] := by
    refine Throwing.ends_ask ?_
    rintro r nodes hr rfl
    exact ⟨hr (cStr data) nodes rfl, rfl⟩
  refine hparse.bind ?_
  rintro (- | ⟨node, siblings⟩) evs₁ ⟨hp, h₁⟩
  · exact Throwing.ends_throw
  · intro evs₂ u hy hr
    obtain ⟨h₂, hs⟩ := ends_storeNodes _ evs₂ u hy hr
    refine ⟨node, by simp [documentTree, hp], ?_, hs⟩
    rw [acceptedEdits_append, h₁, h₂]
    rfl

namespace SetRpc

theorem ends_rethrowInvalid {x : Handler Unit} {post : Unit → List CallEvent → Prop}
    (hx : x.Ends (Parsed parse) post) : (rethrowInvalid x).Ends (Parsed parse) post := by
  refine hx.observe.bind ?_
  rintro (exc | u) evs₁ h₁
  · cases exc <;> exact Throwing.ends_throw
  · exact Throwing.ends_pure (by simpa using h₁ u rfl)

/-- **The edits of a stored value.** -/
theorem ends_storeValue (fullpath : String) (reqval : TypedValue) :
    (storeValue fullpath reqval).Ends (Parsed parse) fun _ evs =>
      acceptedEdits evs = valueEdits parse fullpath reqval ∧ reqval.Storable parse := by
  cases reqval with
  | stringVal | intVal | uintVal | boolVal | floatVal =>
      exact fun evs u hy hr => ⟨ends_setVal _ _ evs u hy hr, Or.inl ⟨_, rfl⟩⟩
  | jsonIetfVal data =>
      intro evs u hy hr
      obtain ⟨node, hdoc, h, hall⟩ := ends_rethrowInvalid (ends_jsonUpdate data) evs u hy hr
      refine ⟨?_, Or.inr ⟨data, node, rfl, hdoc, hall⟩⟩
      simp [h, valueEdits, scalar, hdoc]
  | _ => exact Throwing.ends_throw

theorem ends_handleUpdate (upd : Update) (out : UpdateResult) (pfx : String) :
    (handleUpdate upd out pfx).Ends (Parsed parse) fun _ evs =>
      acceptedEdits evs = updateEdits parse pfx upd ∧ upd.Storable parse := by
  obtain ⟨_ | path, _ | reqval⟩ := upd
  · exact Throwing.ends_pure ⟨rfl, by simp [Update.Storable]⟩
  · exact Throwing.ends_pure ⟨rfl, by simp [Update.Storable]⟩
  · exact Throwing.ends_pure ⟨rfl, by simp [Update.Storable]⟩
  · refine (ends_storeValue (pfx ++ gnmiToXpath path) reqval).bind ?_
    rintro u evs₁ ⟨h₁, hs⟩
    refine Throwing.ends_pure ⟨by simpa [updateEdits] using h₁, ?_⟩
    rintro path' reqval' hp hv
    cases hp
    cases hv
    exact hs

/-- What a part of `run` leaves if it ends with a response and not with a status. -/
def Leaves (parse : String → Except Exn (List DataNode)) (edits : List Edit)
    (goal : Prop) (x : Handler (Except Status SetResponse)) : Prop :=
  x.Ends (Parsed parse) fun o evs =>
    ∀ response, o = .ok response → acceptedEdits evs = edits ∧ goal

theorem leaves_deleteLoop (pfx : String) (paths : List Path) (response : SetResponse) :
    Leaves parse (paths.map fun path => .delete (cStr (pfx ++ gnmiToXpath path))) True
      (deleteLoop pfx paths response) := by
  induction paths generalizing response with
  | nil => exact Throwing.ends_pure fun _ _ => ⟨rfl, trivial⟩
  | cons delpath rest ih =>
      refine (ends_deleteItem (cStr (pfx ++ gnmiToXpath delpath))).observe.bind ?_
      rintro (exc | u) evs₁ h₁
      · cases exc with
        | stdString | nullPointer => exact Throwing.ends_throw
        | _ => exact Throwing.ends_pure fun _ h => by cases h
      · intro evs₂ o hy hr response' ho
        obtain ⟨h₂, -⟩ := ih _ evs₂ o hy hr response' ho
        refine ⟨?_, trivial⟩
        rw [acceptedEdits_append, h₁ u rfl, h₂]
        rfl

theorem leaves_updateLoop (op : Operation) (clauses : Exn → Option Status) (pfx : String)
    (upds : List Update) (response : SetResponse) :
    Leaves parse (upds.flatMap (updateEdits parse pfx)) (∀ upd ∈ upds, upd.Storable parse)
      (updateLoop op clauses pfx upds response) := by
  induction upds generalizing response with
  | nil => exact Throwing.ends_pure fun _ _ => ⟨rfl, by simp⟩
  | cons upd rest ih =>
      refine (ends_handleUpdate upd {} pfx).observe.bind ?_
      rintro (exc | ⟨code, res⟩) evs₁ h₁
      · cases hcl : clauses exc with
        | none => exact (by simpa [hcl] using Throwing.ends_throw)
        | some status =>
            exact (by simpa [hcl] using Throwing.ends_pure fun _ h => by cases h)
      · intro evs₂ o hy hr response' ho
        obtain ⟨h₁, hs₁⟩ := h₁ (code, res) rfl
        obtain ⟨h₂, hs₂⟩ := ih _ evs₂ o hy hr response' ho
        refine ⟨by rw [acceptedEdits_append, h₁, h₂, List.flatMap_cons], ?_⟩
        intro upd' hupd
        rcases List.mem_cons.mp hupd with rfl | hupd
        · exact hs₁
        · exact hs₂ upd' hupd

/-- **Sequencing of the parts of `run`**: the edits of the second follow. -/
theorem Leaves.andThen {edits₁ edits₂ : List Edit} {goal₁ goal₂ : Prop}
    {x : Handler (Except Status SetResponse)}
    {f : SetResponse → Handler (Except Status SetResponse)}
    (hx : Leaves parse edits₁ goal₁ x)
    (hf : ∀ response, Leaves parse edits₂ goal₂ (f response)) :
    Leaves parse (edits₁ ++ edits₂) (goal₁ ∧ goal₂) (andThen x f) := by
  intro evs o hy hr response ho
  subst ho
  rcases yields_andThen hy with ⟨evs₁, evs₂, response', rfl, h₁, h₂⟩ | ⟨-, hno⟩
  · obtain ⟨he₁, hg₁⟩ := hx evs₁ _ h₁ (fun ev hev => hr ev (List.mem_append_left _ hev))
      response' rfl
    obtain ⟨he₂, hg₂⟩ := hf response' evs₂ _ h₂
      (fun ev hev => hr ev (List.mem_append_right _ hev)) response rfl
    exact ⟨by rw [acceptedEdits_append, he₁, he₂], hg₁, hg₂⟩
  · exact absurd rfl (hno response)

/-- **What the three loops leave**: the edits of the request, all items storable. -/
theorem leaves_items (request : SetRequest) (response : SetResponse) :
    Leaves parse (requestEdits parse request)
      (∀ upd ∈ request.replace ++ request.update, upd.Storable parse)
      (items request response) := by
  let pfx := request.pfx.elim "" gnmiToXpath
  have hupd (response : SetResponse) : Leaves parse _ _ _ :=
    (leaves_updateLoop .REPLACE catchReplace pfx request.replace response).andThen
      fun response => leaves_updateLoop .UPDATE catchUpdate pfx request.update response
  have h := (leaves_deleteLoop pfx request.delete response).andThen hupd
  intro evs o hy hr response' ho
  obtain ⟨he, -, h₁, h₂⟩ := h evs o hy hr response' ho
  refine ⟨by rw [he, requestEdits, List.append_assoc], ?_⟩
  intro upd hupd
  rcases List.mem_append.mp hupd with hupd | hupd
  · exact h₁ upd hupd
  · exact h₂ upd hupd

/-- **What an OK leaves**: the edits of the request and a commit, all items storable. -/
theorem acceptedEdits_run {request : SetRequest} {evs : List CallEvent}
    {response : SetResponse} (h : Yields (run request).run evs (.ok (.ok response)))
    (hr : ∀ ev ∈ evs, Parsed parse ev.1 ev.2) :
    acceptedEdits evs = requestEdits parse request ∧
      ∀ upd ∈ request.replace ++ request.update, upd.Storable parse := by
  rcases yields_run_cases h with ⟨evs', t, response', rfl, hy, -, -⟩ | ⟨-, hno⟩
  · obtain ⟨he, hs⟩ := leaves_items request _ evs' _ hy
      (fun ev hev => hr ev (by simp [hev])) response' rfl
    refine ⟨?_, hs⟩
    rw [acceptedEdits_append, show (⟨.getTimeNanosec, t⟩ : CallEvent) :: evs' =
      [⟨.getTimeNanosec, t⟩] ++ evs' from rfl, acceptedEdits_append, he]
    exact List.append_nil _
  · exact absurd rfl (hno response)

end SetRpc

end Edits

/-! ### A served request -/

variable {D : Type}

/-- The replies of the environment to the parser's calls are those of its parser. -/
theorem parsed_of_answers {env : Env D} {w : World D} {evs : List CallEvent}
    (h : Answers (serve env) w evs) : ∀ ev ∈ evs, Parsed env.parse ev.1 ev.2 := by
  induction evs generalizing w with
  | nil => simp
  | cons ev evs ih =>
      obtain ⟨c, r⟩ := ev
      intro ev' hev'
      rcases List.mem_cons.mp hev' with rfl | hev'
      · rintro data nodes ⟨⟩
        have hrep := h.1
        rcases orFail_cases env w (env.parse data) w with ⟨exc, hf⟩ | hf
        · simp [serve, hf] at hrep
        · simpa [serve, hf] using hrep.symm
      · exact ih h.2 ev' hev'

/-- How a Set request ends: with an exception, a status or the response of an OK. -/
abbrev SetResult : Type := Except Exn (Except Status SetResponse)

/-- The request returned OK. -/
def SetResult.Ok (r : SetResult) : Prop := ∃ response, r = .ok (.ok response)

instance (r : SetResult) : Decidable r.Ok :=
  match r with
  | .ok (.ok response) => isTrue ⟨response, rfl⟩
  | .ok (.error _) => isFalse (by rintro ⟨_, h⟩; cases h)
  | .error _ => isFalse (by rintro ⟨_, h⟩; cases h)

/-- Serve a Set request. -/
def serveSet (env : Env D) (w : World D) (request : SetRequest) :
    Outcome Call Call.Reply (World D) SetResult :=
  Dialogue.run (serve env) (SetRpc.run request).run w

/-- A served request is a dialogue with the environment. -/
theorem yields_serveSet (env : Env D) (w : World D) (request : SetRequest) :
    Yields (SetRpc.run request).run (serveSet env w request).log
        (serveSet env w request).value ∧
      Answers (serve env) w (serveSet env w request).log ∧
      (serveSet env w request).state = after (serve env) w (serveSet env w request).log :=
  yields_run _ _ _

/-- **A request that returns OK publishes what was pending and then its own edits.** -/
theorem serveSet_ok {env : Env D} {w : World D} {request : SetRequest}
    (h : (serveSet env w request).value.Ok) :
    (serveSet env w request).state.running =
        env.sysrepo.applyAll (w.pending ++ requestEdits env.parse request) w.running ∧
      (serveSet env w request).state.pending = [] ∧
      (serveSet env w request).state.published =
        w.published ++ w.pending ++ requestEdits env.parse request ∧
      ∀ upd ∈ request.replace ++ request.update, upd.Storable env.parse := by
  obtain ⟨hy, ha, hs⟩ := yields_serveSet env w request
  obtain ⟨response, hval⟩ := h
  rw [hval] at hy
  obtain ⟨hedits, hstor⟩ := SetRpc.acceptedEdits_run hy (parsed_of_answers ha)
  rcases SetRpc.yields_run_cases hy with ⟨evs', t, _, hlog, -, hno, -⟩ | ⟨-, hno⟩
  · have hpre : ∀ ev ∈ (⟨.getTimeNanosec, t⟩ :: evs' : List CallEvent), ev ≠ committed := by
      intro ev hev
      rcases List.mem_cons.mp hev with rfl | hev
      · simp [committed]
      · exact hno ev hev
    have hlog' : (serveSet env w request).log =
        (⟨.getTimeNanosec, t⟩ :: evs') ++ [committed] := hlog
    have hacc : acceptedEdits (⟨.getTimeNanosec, t⟩ :: evs') =
        requestEdits env.parse request := by
      rw [← hedits, hlog', acceptedEdits_append]
      exact (List.append_nil _).symm
    rw [hlog'] at ha hs
    obtain ⟨hr, hp, hpub⟩ := after_committed env ha hpre
    rw [hs, hr, hp, hpub, hacc]
    exact ⟨rfl, rfl, rfl, hstor⟩
  · exact absurd rfl (hno response)

/-- **A request that does not return OK publishes nothing**; the edits sysrepo accepted of
it stay pending. -/
theorem serveSet_not_ok {env : Env D} {w : World D} {request : SetRequest}
    (h : ¬ (serveSet env w request).value.Ok) :
    (serveSet env w request).state.running = w.running ∧
      (serveSet env w request).state.published = w.published ∧
      (serveSet env w request).state.pending =
        w.pending ++ acceptedEdits (serveSet env w request).log := by
  obtain ⟨hy, ha, hs⟩ := yields_serveSet env w request
  rcases SetRpc.yields_run_cases hy with ⟨_, _, response, -, -, -, hval⟩ | ⟨hno, -⟩
  · exact absurd ⟨response, hval⟩ h
  · rw [hs]
    exact after_frame env ha hno

end SysrepoGnxi
