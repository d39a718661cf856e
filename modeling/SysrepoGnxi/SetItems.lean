import SysrepoGnxi.Lib.Lists
import SysrepoGnxi.SetSpec

/-!
# The Items of a Set Request

A Set request is one list of items: its deletes, its replaces, its updates. The three loops
of `Set::run` are one loop over them, with its own catch clauses around each
(`yields_items_iff`): it attempts them in this order up to the first that throws, and commits
if none has (`yields_run_items`).

Two properties of requests follow:

* `ordered_iff` — the edits and the entries of the response come in the order of the items,
  each delete and scalar at its full xpath: for well-formed requests exactly those without
  a NUL in such an xpath;
* `allApplied_iff` — an OK or a commit means that every item has been applied: exactly for
  requests without malformed items, and for those that are refused anyway.
-/

open Dialogue Lists

namespace SysrepoGnxi

/-- An item of a Set request. -/
inductive Item where
  | delete (path : Path)
  | write (op : Operation) (upd : Update)
deriving DecidableEq

/-- The items of a request, in the order they are attempted. -/
def SetRequest.itemList (request : SetRequest) : List Item :=
  request.delete.map .delete ++ request.replace.map (.write .REPLACE) ++
    request.update.map (.write .UPDATE)

/-- The prefix of a request as it is put before the xpath of every item. -/
def SetRequest.xpathPrefix (request : SetRequest) : String := request.pfx.elim "" gnmiToXpath

namespace Item

/-- The path of an item. -/
def path : Item → Option Path
  | delete path => some path
  | write _ upd => upd.path

/-- The operation of an item. -/
def op : Item → Operation
  | delete _ => .DELETE
  | write op _ => op

/-- The entry of the response that reports an item. -/
def entry (item : Item) : UpdateResult := ⟨item.path, item.op⟩

/-- What `run` does for an item, without the catch clauses around it: the code and the entry
of the response. -/
def attempt (pfx : String) : Item → Handler (StatusCode × UpdateResult)
  | delete path => do
      deleteItem (cStr (pfx ++ gnmiToXpath path))
      pure (.OK, ⟨some path, .DELETE⟩)
  | write op upd => do
      let (code, res) ← SetRpc.handleUpdate upd {} pfx
      pure (code, { res with op := op })

/-- The full xpath of an item that is edited there: of a delete, or of a scalar. -/
def xpath (pfx : String) : Item → Option String
  | delete path => some (pfx ++ gnmiToXpath path)
  | write _ upd =>
      match upd.path, upd.val with
      | some path, some reqval => (SetRpc.scalar reqval).map fun _ => pfx ++ gnmiToXpath path
      | _, _ => none

end Item

/-! ### One loop over the items -/

/-- The catch clauses around an item. -/
def Item.clauses : Item → Exn → Option Status
  | delete _ => fun exc => exc.isStdException.map fun _ => ⟨.INTERNAL, "delete item failed"⟩
  | write .UPDATE _ => SetRpc.catchUpdate
  | write _ _ => SetRpc.catchReplace

namespace SetRpc

/-- The loops of `run` in one, over items of all kinds. -/
def itemLoop (pfx : String) : List Item → SetResponse → Handler (Except Status SetResponse)
  | [], response => pure (.ok response)
  | item :: rest, response => do
      match ← Throwing.observe (item.attempt pfx) with
      | .ok (_, res) =>
          itemLoop pfx rest { response with response := response.response ++ [res] }
      | .error exc =>
          match item.clauses exc with
          | some status => pure (.error status)
          | none => throw exc

variable {pfx : String} {response : SetResponse} {evs : List CallEvent} {r : SetResult}

/-- An item of the loop, and then the rest of it. -/
theorem yields_itemLoop_cons {item : Item} {rest : List Item} :
    Yields (itemLoop pfx (item :: rest) response).run evs r ↔
      (∃ evs₁ evs₂ result, evs = evs₁ ++ evs₂ ∧
        Yields (item.attempt pfx).run evs₁ (.ok result) ∧
        Yields (itemLoop pfx rest
          { response with response := response.response ++ [result.2] }).run evs₂ r) ∨
      ∃ exc, Yields (item.attempt pfx).run evs (.error exc) ∧
        r = (item.clauses exc).elim (.error exc) fun status => .ok (.error status) := by
  rw [itemLoop, Throwing.yields_observe_bind]
  constructor
  · rintro ⟨evs₁, evs₂, o, rfl, h₁, h₂⟩
    cases o with
    | ok result => exact Or.inl ⟨evs₁, evs₂, result, rfl, h₁, h₂⟩
    | error exc =>
        refine Or.inr ⟨exc, ?_⟩
        cases hclauses : item.clauses exc with
        | some status =>
            simp only [hclauses] at h₂
            obtain ⟨rfl, rfl⟩ := Throwing.yields_pure.mp h₂
            exact ⟨by simpa using h₁, rfl⟩
        | none =>
            simp only [hclauses] at h₂
            obtain ⟨rfl, rfl⟩ := Throwing.yields_throw.mp h₂
            exact ⟨by simpa using h₁, rfl⟩
  · rintro (⟨evs₁, evs₂, result, rfl, h₁, h₂⟩ | ⟨exc, h, rfl⟩)
    · exact ⟨evs₁, evs₂, .ok result, rfl, h₁, h₂⟩
    · refine ⟨evs, [], .error exc, by simp, h, ?_⟩
      cases hclauses : item.clauses exc with
      | some status =>
          simp only [hclauses]
          exact Throwing.yields_pure.mpr ⟨rfl, rfl⟩
      | none =>
          simp only [hclauses]
          exact Throwing.yields_throw.mpr ⟨rfl, rfl⟩

theorem yields_deleteLoop_iff {paths : List Path} :
    Yields (deleteLoop pfx paths response).run evs r ↔
      Yields (itemLoop pfx (paths.map .delete) response).run evs r := by
  induction paths generalizing response evs with
  | nil => exact Iff.rfl
  | cons delpath rest ih =>
      refine Throwing.yields_observe_map ?_
      rintro (exc | u) evs
      · have hclauses : (Item.delete delpath).clauses exc =
            exc.isStdException.map fun _ => ⟨.INTERNAL, "delete item failed"⟩ := rfl
        cases hstd : exc.isStdException <;> simp only [Except.map, hclauses, hstd, Option.map]
      · exact ih

theorem yields_updateLoop_iff {op : Operation} {clauses : Exn → Option Status}
    {upds : List Update} (hclauses : ∀ upd, (Item.write op upd).clauses = clauses) :
    Yields (updateLoop op clauses pfx upds response).run evs r ↔
      Yields (itemLoop pfx (upds.map (.write op)) response).run evs r := by
  induction upds generalizing response evs with
  | nil => exact Iff.rfl
  | cons upd rest ih =>
      refine Throwing.yields_observe_map ?_
      rintro (exc | ⟨code, res⟩) evs
      · cases hclause : clauses exc <;> simp only [Except.map, hclauses, hclause]
      · exact ih

/-- The loop over two lists of items is the loop over the one and then over the other. -/
theorem itemLoop_append (items items' : List Item) (response : SetResponse) :
    andThen (itemLoop pfx items response) (itemLoop pfx items') =
      itemLoop pfx (items ++ items') response := by
  induction items generalizing response with
  | nil => exact pure_bind _ _
  | cons item rest ih =>
      rw [List.cons_append, itemLoop, itemLoop, andThen, bind_assoc]
      congr 1
      funext o
      cases o with
      | ok result => exact ih _
      | error exc =>
          cases hclauses : item.clauses exc with
          | some status => simp only [hclauses, pure_bind]
          | none =>
              simp only [hclauses]
              rfl

/-- Parts of `run` with the same dialogues can stand for each other. -/
theorem yields_andThen_congr {x y : Handler (Except Status SetResponse)}
    {f g : SetResponse → Handler (Except Status SetResponse)}
    (hx : ∀ evs r, Yields x.run evs r ↔ Yields y.run evs r)
    (hf : ∀ response evs r, Yields (f response).run evs r ↔ Yields (g response).run evs r) :
    Yields (andThen x f).run evs r ↔ Yields (andThen y g).run evs r := by
  rw [andThen, andThen, Throwing.yields_bind, Throwing.yields_bind]
  refine or_congr (exists_congr fun evs₁ => exists_congr fun evs₂ => exists_congr fun o =>
    and_congr_right' (and_congr (hx _ _) ?_)) (exists_congr fun exc => and_congr_left' (hx _ _))
  cases o with
  | error status => exact Iff.rfl
  | ok response => exact hf response evs₂ r

/-- **The three loops of `run` are one loop over the items of the request.** -/
theorem yields_items_iff {request : SetRequest} :
    Yields (items request response).run evs r ↔
      Yields (itemLoop request.xpathPrefix request.itemList response).run evs r := by
  rw [SetRequest.itemList, List.append_assoc, ← itemLoop_append]
  refine yields_andThen_congr (fun _ _ => yields_deleteLoop_iff) fun response evs r => ?_
  rw [← itemLoop_append]
  exact yields_andThen_congr (fun _ _ => yields_updateLoop_iff fun _ => rfl)
    fun _ _ _ => yields_updateLoop_iff fun _ => rfl

/-! ### From the loop to the items -/

/-- **A part of `run` that attempts items**: the entries of the response follow the ones
before if none throws, and otherwise it does not end with a response. -/
def Tries (pfx : String) (items : List Item) (response : SetResponse) (evs : List CallEvent)
    (r : SetResult) : Prop :=
  ∃ segs results failure, Throwing.Each (Item.attempt pfx) items segs results failure ∧
    evs = segs.flatten ∧
    (failure = none →
      r = .ok (.ok { response with response := response.response ++ results.map Prod.snd })) ∧
    (failure ≠ none → ¬ r.Ok)

theorem Tries.nil : Tries pfx [] response [] (.ok (.ok response)) :=
  ⟨[], [], none, Throwing.Each.nil, rfl, by simp, by simp⟩

/-- An item that does not throw goes before others. -/
theorem Tries.cons {item : Item} {items : List Item} {evs₁ evs₂ : List CallEvent}
    {code : StatusCode} {res : UpdateResult}
    (hitem : Yields (item.attempt pfx).run evs₁ (.ok (code, res)))
    (h : Tries pfx items { response with response := response.response ++ [res] } evs₂ r) :
    Tries pfx (item :: items) response (evs₁ ++ evs₂) r := by
  obtain ⟨segs, results, failure, heach, rfl, hok, hfail⟩ := h
  refine ⟨evs₁ :: segs, (code, res) :: results, failure, heach.cons hitem, rfl, ?_, hfail⟩
  intro hnone
  rw [hok hnone]
  simp

/-- An item that throws is the last. -/
theorem Tries.fail {item : Item} {exc : Exn} (items : List Item)
    (hitem : Yields (item.attempt pfx).run evs (.error exc)) (hr : ¬ r.Ok) :
    Tries pfx (item :: items) response evs r :=
  ⟨[evs], [], some exc, Throwing.Each.fail hitem, by simp, by simp, fun _ => hr⟩

/-- What becomes of an exception is no response. -/
theorem not_ok_of_clauses (clauses : Exn → Option Status) (exc : Exn) :
    ¬ SetResult.Ok ((clauses exc).elim (.error exc) fun status => .ok (.error status)) := by
  rintro ⟨response, heq⟩
  cases hclauses : clauses exc <;> rw [hclauses] at heq <;> cases heq

/-- **The loop attempts its items.** -/
theorem tries_itemLoop {items : List Item}
    (h : Yields (itemLoop pfx items response).run evs r) : Tries pfx items response evs r := by
  induction items generalizing response evs with
  | nil =>
      obtain ⟨rfl, rfl⟩ := Throwing.yields_pure.mp h
      exact Tries.nil
  | cons item rest ih =>
      rcases yields_itemLoop_cons.mp h with ⟨evs₁, evs₂, result, rfl, h₁, h₂⟩ | ⟨exc, hitem, rfl⟩
      · exact Tries.cons h₁ (ih h₂)
      · exact Tries.fail _ hitem (not_ok_of_clauses item.clauses exc)

/-- The three loops attempt the items of the request. -/
theorem tries_items {request : SetRequest}
    (h : Yields (items request response).run evs r) :
    Tries request.xpathPrefix request.itemList response evs r :=
  tries_itemLoop (yields_items_iff.mp h)

end SetRpc

/-- **A dialogue of `run`, item by item**: the items in order, up to the first that throws,
which ends it; a single commit after all of them if none does, and the response with an
entry for each. -/
structure ItemRun (request : SetRequest) (evs : List CallEvent) (r : SetResult) (t : ℕ)
    (segs : List (List CallEvent)) (results : List (StatusCode × UpdateResult))
    (failure : Option Exn) (commits : List CallEvent) : Prop where
  events : evs = ⟨.getTimeNanosec, t⟩ :: (segs.flatten ++ commits)
  each : Throwing.Each (Item.attempt request.xpathPrefix) request.itemList segs results failure
  edits : ∀ ev ∈ segs.flatten, ev.1 ≠ .commit
  failed : failure ≠ none → commits = [] ∧ ¬ r.Ok
  committed : failure = none → ∃ reply : Except Exn Unit, commits = [⟨.commit, reply⟩] ∧
    (reply = .ok () → r = .ok (.ok ⟨request.pfx, results.map Prod.snd, t⟩)) ∧
    (reply ≠ .ok () → ¬ r.Ok)

/-- What `run` does for an item stages edits. -/
theorem Item.only_attempt (pfx : String) (item : Item) : (item.attempt pfx).Only Staging := by
  cases item with
  | delete path =>
      have hdelete : (deleteItem (cStr (pfx ++ gnmiToXpath path))).Only Staging :=
        Throwing.only_ask trivial
      exact hdelete.bind fun _ => Throwing.only_pure _
  | write op upd =>
      exact ((SetRpc.only_handleUpdate upd {} pfx).mono Storing.staging).bind fun _ =>
        Throwing.only_pure _

namespace SetRpc

/-- **What `run` does**, item by item. -/
theorem yields_run_items {request : SetRequest} {evs : List CallEvent} {r : SetResult}
    (hext : request.extensionSize = 0) (h : Yields (run request).run evs r) :
    ∃ t segs results failure commits, ItemRun request evs r t segs results failure commits := by
  rw [run, if_neg (by omega)] at h
  obtain ⟨t, evs', rfl, h'⟩ := Throwing.yields_ask_bind.mp h
  have hedits {segs results failure} (heach : Throwing.Each (Item.attempt request.xpathPrefix)
      request.itemList segs results failure) : ∀ ev ∈ segs.flatten, ev.1 ≠ .commit := by
    refine heach.forall_mem fun item _ seg r hy ev hev heq => ?_
    have hstaging := (item.only_attempt request.xpathPrefix).mem hy ev hev
    rw [heq] at hstaging
    exact hstaging
  rcases yields_andThen h' with ⟨evs₁, evs₂, response, rfl, h₁, h₂⟩ | ⟨h₁, hno⟩
  · obtain ⟨segs, results, failure, heach, rfl, hok, hfail⟩ := tries_items h₁
    cases failure with
    | some exc => exact absurd ⟨response, rfl⟩ (hfail (by simp))
    | none =>
        obtain rfl : response = _ := Except.ok.inj (Except.ok.inj (hok rfl))
        obtain ⟨reply, rfl, hcommit, hrefused⟩ := yields_commitAll h₂
        refine ⟨t, segs, results, none, _, rfl, heach, hedits heach, by simp,
          fun _ => ⟨reply, rfl, by simpa using hcommit, ?_⟩⟩
        rintro hne ⟨response, hr⟩
        exact hrefused hne response hr
  · obtain ⟨segs, results, failure, heach, rfl, hok, hfail⟩ := tries_items h₁
    cases failure with
    | none => exact absurd (hok rfl) (hno _)
    | some exc =>
        exact ⟨t, segs, results, some exc, [], by simp, heach, hedits heach,
          fun _ => ⟨rfl, hfail (by simp)⟩, by simp⟩

end SetRpc

/-! ### What an item reports and where it edits -/

/-- An item with a path and, unless it is a delete, a value. -/
def Item.Complete : Item → Prop
  | .delete _ => True
  | .write _ upd => (∃ path, upd.path = some path) ∧ ∃ reqval, upd.val = some reqval

/-- A delete is a single call. -/
theorem Item.attempt_delete {pfx : String} {path : Path} {seg : List CallEvent}
    {r : Except Exn (StatusCode × UpdateResult)}
    (h : Yields ((Item.delete path).attempt pfx).run seg r) :
    ∃ reply : Except Exn Unit,
      seg = [⟨.deleteItem (cStr (pfx ++ gnmiToXpath path)), reply⟩] ∧
        r = reply.map fun _ => (.OK, (Item.delete path).entry) := by
  obtain ⟨o, hdelete, rfl⟩ := Throwing.yields_bind_pure.mp h
  obtain ⟨reply, rfl, rfl⟩ := Throwing.yields_ask.mp hdelete
  exact ⟨o, rfl, rfl⟩

/-- An item with a path and a value stores the value. -/
theorem Item.attempt_write {pfx : String} {op : Operation} {path : Path} {reqval : TypedValue}
    {seg : List CallEvent} {r : Except Exn (StatusCode × UpdateResult)}
    (h : Yields ((Item.write op ⟨some path, some reqval⟩).attempt pfx).run seg r) :
    ∃ o, Yields (SetRpc.storeValue (pfx ++ gnmiToXpath path) reqval).run seg o ∧
      r = o.map fun _ => (.OK, (Item.write op ⟨some path, some reqval⟩).entry) := by
  obtain ⟨o, hupdate, rfl⟩ := Throwing.yields_bind_pure.mp h
  obtain ⟨o, hstore, rfl⟩ := Throwing.yields_bind_pure.mp hupdate
  refine ⟨o, hstore, ?_⟩
  cases o <;> rfl

/-- An item without a path or a value makes no call and reports no path. -/
theorem Item.attempt_incomplete {pfx : String} {item : Item} (hitem : ¬ item.Complete)
    {seg : List CallEvent} {r : Except Exn (StatusCode × UpdateResult)}
    (h : Yields (item.attempt pfx).run seg r) :
    seg = [] ∧ r = .ok (.INVALID_ARGUMENT, ⟨none, item.op⟩) := by
  cases item with
  | delete path => exact absurd trivial hitem
  | write op upd =>
      obtain ⟨o, hupdate, rfl⟩ := Throwing.yields_bind_pure.mp h
      obtain ⟨_ | path, _ | reqval⟩ := upd
      case some.some => exact absurd ⟨⟨path, rfl⟩, ⟨reqval, rfl⟩⟩ hitem
      all_goals
        obtain ⟨rfl, rfl⟩ := Throwing.yields_pure.mp hupdate
        exact ⟨rfl, rfl⟩

/-- **What an item that does not throw reports**: OK and its entry, if it is complete;
otherwise INVALID_ARGUMENT, and an entry without a path. -/
theorem Item.attempt_eq_ok {pfx : String} {item : Item} {seg : List CallEvent}
    {result : StatusCode × UpdateResult} (h : Yields (item.attempt pfx).run seg (.ok result)) :
    (item.Complete ∧ result = (.OK, item.entry)) ∨
      (¬ item.Complete ∧ result = (.INVALID_ARGUMENT, ⟨none, item.op⟩)) := by
  by_cases hitem : item.Complete
  · refine Or.inl ⟨hitem, ?_⟩
    cases item with
    | delete path =>
        obtain ⟨_ | u, -, hresult⟩ := Item.attempt_delete h
        · cases hresult
        · exact Except.ok.inj hresult
    | write op upd =>
        obtain ⟨path, reqval⟩ := upd
        obtain ⟨⟨path, rfl⟩, ⟨reqval, rfl⟩⟩ := hitem
        obtain ⟨_ | u, -, hresult⟩ := Item.attempt_write h
        · cases hresult
        · exact Except.ok.inj hresult
  · exact Or.inr ⟨hitem, Except.ok.inj (Item.attempt_incomplete hitem h).2⟩

/-- A scalar is set at the C string of its full xpath. -/
theorem SetRpc.storeValue_scalar {fullpath : String} {reqval : TypedValue} {val : Val}
    (h : scalar reqval = some val) :
    storeValue fullpath reqval = setVal (.xpath (cStr fullpath)) val := by
  cases reqval <;> simp only [scalar, reduceCtorEq] at h <;>
    (obtain rfl := Option.some.inj h; rfl)

/-- The calls that make a delete or a scalar at an xpath. -/
def Item.callsAt (xpath : String) : Item → List Call
  | delete _ => [.deleteItem xpath]
  | write _ upd =>
      match upd.val.bind SetRpc.scalar with
      | some val => [.newVal val, .setItem (.xpath xpath) (some val)]
      | none => []

/-- The calls tell the xpath. -/
theorem Item.callsAt_inj {pfx x y z : String} {item : Item} (hx : item.xpath pfx = some x)
    (h : item.callsAt y = item.callsAt z) : y = z := by
  cases item with
  | delete path => simpa [Item.callsAt] using h
  | write op upd =>
      obtain ⟨_ | path, _ | reqval⟩ := upd <;> simp only [Item.xpath, reduceCtorEq] at hx
      obtain ⟨val, hval, -⟩ := Option.map_eq_some_iff.mp hx
      simpa [Item.callsAt, hval] using h

/-- Setting a value builds it and then sets it, unless building it throws. -/
theorem calls_setVal {path : ItemPath} {val : Val} {evs : List CallEvent}
    {r : Except Exn Unit} (h : Yields (setVal path val).run evs r) :
    evs.map Sigma.fst <+: [.newVal val, .setItem path (some val)] ∧
      (r = .ok () → evs.map Sigma.fst = [.newVal val, .setItem path (some val)]) := by
  rcases Throwing.yields_bind.mp h with ⟨evs₁, evs₂, v, rfl, h₁, h₂⟩ | ⟨exc, h₁, rfl⟩
  · obtain ⟨reply, rfl, hv⟩ := Throwing.yields_ask.mp h₁
    obtain ⟨reply', rfl, -⟩ := Throwing.yields_ask.mp h₂
    cases reply with
    | error exc => cases hv
    | ok u =>
        obtain rfl := Except.ok.inj hv
        exact ⟨List.prefix_refl _, fun _ => rfl⟩
  · obtain ⟨reply, rfl, -⟩ := Throwing.yields_ask.mp h₁
    exact ⟨⟨[.setItem path (some val)], rfl⟩, by simp⟩

/-- **A delete or a scalar is edited at the C string of its full xpath.** -/
theorem Item.calls_attempt {pfx x : String} {item : Item} (hx : item.xpath pfx = some x)
    {seg : List CallEvent} {r : Except Exn (StatusCode × UpdateResult)}
    (h : Yields (item.attempt pfx).run seg r) :
    seg.map Sigma.fst <+: item.callsAt (cStr x) ∧
      ((∃ result, r = .ok result) → seg.map Sigma.fst = item.callsAt (cStr x)) := by
  cases item with
  | delete path =>
      obtain rfl := Option.some.inj hx
      obtain ⟨reply, rfl, -⟩ := Item.attempt_delete h
      exact ⟨List.prefix_refl _, fun _ => rfl⟩
  | write op upd =>
      obtain ⟨_ | path, _ | reqval⟩ := upd <;> simp only [Item.xpath, reduceCtorEq] at hx
      obtain ⟨val, hval, rfl⟩ := Option.map_eq_some_iff.mp hx
      obtain ⟨o, hstore, rfl⟩ := Item.attempt_write h
      rw [SetRpc.storeValue_scalar hval] at hstore
      have hat : (Item.write op ⟨some path, some reqval⟩).callsAt
          (cStr (pfx ++ gnmiToXpath path)) =
            [.newVal val, .setItem (.xpath (cStr (pfx ++ gnmiToXpath path))) (some val)] := by
        simp [Item.callsAt, hval]
      rw [hat]
      refine ⟨(calls_setVal hstore).1, ?_⟩
      rintro ⟨result, hresult⟩
      cases o with
      | error exc => cases hresult
      | ok u => exact (calls_setVal hstore).2 rfl

/-! ### A session that accepts everything -/

/-- The replies when sysrepo accepts every call and libyang parses every document, into a
container without children. -/
def Accepts : (c : Call) → c.Reply → Prop
  | .newVal _, r => r = .ok ()
  | .setItem _ _, r => r = .ok ()
  | .deleteItem _, r => r = .ok ()
  | .commit, r => r = .ok ()
  | .parseDataMem _, r => r = .ok [.container ⟨"", ""⟩ false []]
  | _, _ => True

/-- A value that `handleUpdate` supports: a scalar or a JSON document. -/
def TypedValue.Supported (reqval : TypedValue) : Prop :=
  (∃ val, SetRpc.scalar reqval = some val) ∨ ∃ data, reqval = .jsonIetfVal data

namespace SetRpc

theorem returns_storeValue (fullpath : String) {reqval : TypedValue} (h : reqval.Supported) :
    (storeValue fullpath reqval).Returns Accepts fun _ => True := by
  rcases h with ⟨val, hval⟩ | ⟨data, rfl⟩
  · rw [storeValue_scalar hval]
    have hnew : (newVal val).Returns Accepts fun _ => True := by
      refine Throwing.returns_ask ?_
      rintro r rfl
      exact ⟨val, rfl, trivial⟩
    refine hnew.bind fun v _ => Throwing.returns_ask ?_
    rintro r rfl
    exact ⟨(), rfl, trivial⟩
  · have hparse : (parseDataMem (cStr data)).Returns Accepts
        fun nodes => nodes = [.container ⟨"", ""⟩ false []] := by
      refine Throwing.returns_ask ?_
      rintro r rfl
      exact ⟨_, rfl, rfl⟩
    have hupdate : (jsonUpdate data).Returns Accepts fun _ => True := by
      refine hparse.bind ?_
      rintro nodes rfl
      exact Throwing.returns_pure trivial
    refine Throwing.Returns.bind hupdate.observe ?_
    rintro o ⟨u, rfl, -⟩
    exact Throwing.returns_pure trivial

/-- An item that is not complete or has a supported value does not throw. -/
theorem returns_handleUpdate {upd : Update} (out : UpdateResult) (pfx : String)
    (h : ∀ path reqval, upd.path = some path → upd.val = some reqval → reqval.Supported) :
    (handleUpdate upd out pfx).Returns Accepts fun _ => True := by
  obtain ⟨_ | path, _ | reqval⟩ := upd
  case some.some =>
    exact (returns_storeValue _ (h path reqval rfl rfl)).bind fun _ _ =>
      Throwing.returns_pure trivial
  all_goals exact Throwing.returns_pure trivial

theorem returns_deleteLoop (pfx : String) (paths : List Path) (response : SetResponse) :
    (deleteLoop pfx paths response).Returns Accepts fun o => ∃ response, o = .ok response := by
  induction paths generalizing response with
  | nil => exact Throwing.returns_pure ⟨response, rfl⟩
  | cons delpath rest ih =>
      have hdelete : (deleteItem (cStr (pfx ++ gnmiToXpath delpath))).Returns Accepts
          fun _ => True := by
        refine Throwing.returns_ask ?_
        rintro r rfl
        exact ⟨(), rfl, trivial⟩
      refine Throwing.Returns.bind hdelete.observe ?_
      rintro o ⟨u, rfl, -⟩
      exact ih _

theorem returns_updateLoop (op : Operation) (clauses : Exn → Option Status) (pfx : String)
    {upds : List Update} (response : SetResponse)
    (h : ∀ upd ∈ upds, ∀ path reqval, upd.path = some path → upd.val = some reqval →
      reqval.Supported) :
    (updateLoop op clauses pfx upds response).Returns Accepts
      fun o => ∃ response, o = .ok response := by
  induction upds generalizing response with
  | nil => exact Throwing.returns_pure ⟨response, rfl⟩
  | cons upd rest ih =>
      have hupdate := returns_handleUpdate {} pfx (h upd List.mem_cons_self)
      refine Throwing.Returns.bind hupdate.observe ?_
      rintro o ⟨⟨code, res⟩, rfl, -⟩
      exact ih _ fun upd hupd => h upd (List.mem_cons_of_mem _ hupd)

theorem returns_andThen {x : Handler (Except Status SetResponse)}
    {f : SetResponse → Handler (Except Status SetResponse)}
    (hx : x.Returns Accepts fun o => ∃ response, o = .ok response)
    (hf : ∀ response, (f response).Returns Accepts fun o => ∃ response, o = .ok response) :
    (andThen x f).Returns Accepts fun o => ∃ response, o = .ok response := by
  refine hx.bind ?_
  rintro o ⟨response, rfl⟩
  exact hf response

/-- **An accepting session answers OK**, if no item has an unsupported value. -/
theorem returns_run {request : SetRequest} (hext : request.extensionSize = 0)
    (h : ∀ upd ∈ request.replace ++ request.update, ∀ path reqval, upd.path = some path →
      upd.val = some reqval → reqval.Supported) :
    (run request).Returns Accepts fun o => ∃ response, o = .ok response := by
  rw [run, if_neg (by omega)]
  have htime : getTimeNanosec.Returns Accepts fun _ => True :=
    Throwing.returns_ask fun t _ => ⟨t, rfl, trivial⟩
  have hcommit (response : SetResponse) : (commitAll response).Returns Accepts
      fun o => ∃ response, o = .ok response := by
    have hcall : commit.Returns Accepts fun _ => True := by
      refine Throwing.returns_ask ?_
      rintro r rfl
      exact ⟨(), rfl, trivial⟩
    refine Throwing.Returns.bind hcall.observe ?_
    rintro o ⟨u, rfl, -⟩
    exact Throwing.returns_pure ⟨response, rfl⟩
  refine htime.bind fun t _ => returns_andThen ?_ hcommit
  exact returns_andThen (returns_deleteLoop _ _ _) fun response =>
    returns_andThen (returns_updateLoop _ _ _ response fun upd hupd =>
      h upd (List.mem_append_left _ hupd)) fun response =>
        returns_updateLoop _ _ _ response fun upd hupd => h upd (List.mem_append_right _ hupd)

end SetRpc

theorem exists_accepts (c : Call) : ∃ r, Accepts c r := by
  cases c with
  | newVal | setItem | deleteItem | commit | parseDataMem => exact ⟨_, rfl⟩
  | refresh | getSubtrees => exact ⟨.error .nullPointer, trivial⟩
  | getTimeNanosec => exact ⟨(0 : ℕ), trivial⟩
  | now => exact ⟨TimePoint.ofNat 0, trivial⟩
  | write | tryCancel => exact ⟨(), trivial⟩

/-! ### In order, each at its full xpath -/

/-- A request without extensions whose items all carry a path and a supported value. -/
structure SetRequest.WellFormed (request : SetRequest) : Prop where
  noExtensions : request.extensionSize = 0
  carries : ∀ upd ∈ request.replace ++ request.update,
    ∃ path reqval, upd = ⟨some path, some reqval⟩ ∧ reqval.Supported

/-- A dialogue of a request that **applies and reports its items in order**: item by item up
to the first that fails, with one commit after all of them if none does; each delete and
scalar is made at its full xpath; and a response reports the items, entry by entry. -/
def InOrder (request : SetRequest) (evs : List CallEvent) (r : SetResult) : Prop :=
  ∃ t segs results failure commits, ItemRun request evs r t segs results failure commits ∧
    (∀ (k : ℕ) item seg xpath, request.itemList[k]? = some item → segs[k]? = some seg →
      item.xpath request.xpathPrefix = some xpath →
      seg.map Sigma.fst <+: item.callsAt xpath ∧
        (k < results.length → seg.map Sigma.fst = item.callsAt xpath)) ∧
    ∀ response, r = .ok (.ok response) → response.response = request.itemList.map Item.entry

section

variable {request : SetRequest} {evs : List CallEvent} {r : SetResult} {t : ℕ}
  {segs : List (List CallEvent)} {results : List (StatusCode × UpdateResult)}
  {failure : Option Exn} {commits : List CallEvent}

/-- A run that ends with a response or commits has attempted every item. -/
theorem ItemRun.failure_eq_none (h : ItemRun request evs r t segs results failure commits)
    (hend : r.Ok ∨ ∃ reply, (⟨.commit, reply⟩ : CallEvent) ∈ evs) : failure = none := by
  by_contra hne
  obtain ⟨rfl, hr⟩ := h.failed hne
  rcases hend with hok | ⟨reply, hmem⟩
  · exact hr hok
  · rw [h.events, List.append_nil] at hmem
    rcases List.mem_cons.mp hmem with heq | hmem
    · cases heq
    · exact h.edits _ hmem rfl

/-- **A response reports the items**, entry by entry, if they are complete. -/
theorem ItemRun.response_eq (h : ItemRun request evs r t segs results failure commits)
    (hcomplete : ∀ item ∈ request.itemList, item.Complete) {response : SetResponse}
    (hr : r = .ok (.ok response)) : response.response = request.itemList.map Item.entry := by
  have hnone := h.failure_eq_none (Or.inl ⟨response, hr⟩)
  obtain ⟨reply, -, hok, hrefused⟩ := h.committed hnone
  have hreply : reply = .ok () := by
    by_contra hne
    exact hrefused hne ⟨response, hr⟩
  obtain rfl : response = _ := Except.ok.inj (Except.ok.inj (hr.symm.trans (hok hreply)))
  have heach := h.each
  rw [hnone] at heach
  have hentries : List.Forall₂ (fun item result => item.entry = result.2) request.itemList
      results := by
    refine ((List.forall₂_and_left _ _).mpr ⟨hcomplete, heach.forall₂⟩).imp ?_
    rintro item result ⟨hitem, seg, -, hy⟩
    rcases Item.attempt_eq_ok hy with ⟨-, rfl⟩ | ⟨hnot, -⟩
    · rfl
    · exact absurd hitem hnot
  exact (map_eq_of_forall₂ hentries).symm

end

/-- A request that is applied and reported in order, whatever calls fail. -/
def SetRequest.Ordered (request : SetRequest) : Prop :=
  ∀ evs r, Yields (SetRpc.run request).run evs r → InOrder request evs r

/-- The items of a well-formed request are complete. -/
theorem SetRequest.WellFormed.complete {request : SetRequest} (h : request.WellFormed) :
    ∀ item ∈ request.itemList, item.Complete := by
  have hwrite (op : Operation) {upds : List Update}
      (hsub : ∀ upd ∈ upds, upd ∈ request.replace ++ request.update) :
      ∀ item ∈ upds.map (Item.write op), item.Complete := by
    intro item hitem
    obtain ⟨upd, hupd, rfl⟩ := List.mem_map.mp hitem
    obtain ⟨path, reqval, rfl, -⟩ := h.carries upd (hsub upd hupd)
    exact ⟨⟨path, rfl⟩, ⟨reqval, rfl⟩⟩
  intro item hitem
  rw [SetRequest.itemList] at hitem
  rcases List.mem_append.mp hitem with hitem | hupdate
  · rcases List.mem_append.mp hitem with hdelete | hreplace
    · obtain ⟨path, -, rfl⟩ := List.mem_map.mp hdelete
      trivial
    · exact hwrite _ (fun _ => List.mem_append_left _) item hreplace
  · exact hwrite _ (fun _ => List.mem_append_right _) item hupdate

/-- The updates of a request are its other items. -/
theorem SetRequest.mem_itemList {request : SetRequest} {upd : Update}
    (h : upd ∈ request.replace ++ request.update) : ∃ op, Item.write op upd ∈ request.itemList := by
  rw [SetRequest.itemList]
  rcases List.mem_append.mp h with h | h
  · exact ⟨.REPLACE, List.mem_append_left _ (List.mem_append_right _ (List.mem_map_of_mem h))⟩
  · exact ⟨.UPDATE, List.mem_append_right _ (List.mem_map_of_mem h)⟩

/-- Where every dialogue is in order, the C strings of the full xpaths are these xpaths: a
session that accepts everything shows them. -/
theorem cStr_eq_of_inOrder {request : SetRequest} (hwell : request.WellFormed)
    (h : request.Ordered) :
    ∀ item ∈ request.itemList, ∀ xpath, item.xpath request.xpathPrefix = some xpath →
      cStr xpath = xpath := by
  intro item hitem xpath hx
  have hreturns := SetRpc.returns_run hwell.noExtensions fun upd hupd path reqval _ hval => by
    obtain ⟨path', reqval', rfl, hsupported⟩ := hwell.carries upd hupd
    exact Option.some.inj hval ▸ hsupported
  obtain ⟨evs, _, hy, -, response, rfl⟩ := hreturns.exists_yields exists_accepts
  obtain ⟨t, segs, results, failure, commits, hrun, hplaced, -⟩ := h evs _ hy
  have heach := hrun.each
  rw [hrun.failure_eq_none (Or.inl ⟨response, rfl⟩)] at heach
  obtain ⟨k, hk⟩ := List.getElem?_of_mem hitem
  obtain ⟨seg, result, hseg, hresult, hitemYields⟩ := heach.get hk
  have hlt : k < results.length := (List.getElem?_eq_some_iff.mp hresult).1
  have hcalls := (Item.calls_attempt hx hitemYields).2 ⟨result, rfl⟩
  have hat := (hplaced k item seg xpath hk hseg hx).2 hlt
  exact Item.callsAt_inj hx (hcalls.symm.trans hat)

/-- **A well-formed request applies and reports its items in order exactly if no full xpath
of a delete or a scalar holds a NUL**: the session sees the xpaths as C strings. -/
theorem ordered_iff {request : SetRequest} (hwell : request.WellFormed) :
    request.Ordered ↔
      ∀ item ∈ request.itemList, ∀ xpath, item.xpath request.xpathPrefix = some xpath →
        ∀ c ∈ xpath.toList, c.toNat ≠ 0 := by
  constructor
  · intro h item hitem xpath hx
    exact cStr_eq_self_iff.mp (cStr_eq_of_inOrder hwell h item hitem xpath hx)
  · intro h evs r hy
    obtain ⟨t, segs, results, failure, commits, hrun⟩ :=
      SetRpc.yields_run_items hwell.noExtensions hy
    refine ⟨t, segs, results, failure, commits, hrun, ?_,
      fun response hr => hrun.response_eq hwell.complete hr⟩
    intro k item seg xpath hk hseg hx
    have hself := cStr_eq_self (h item (List.mem_of_getElem? hk) xpath hx)
    obtain ⟨r', hitem, hok⟩ := hrun.each.yields hk hseg
    have hcalls := Item.calls_attempt hx hitem
    rw [hself] at hcalls
    exact ⟨hcalls.1, fun hlt => hcalls.2 (hok hlt)⟩

/-- A request with an item of every kind. -/
def mixedRequest : SetRequest where
  pfx := some { elem := [⟨"ex:system", []⟩] }
  delete := [{ elem := [⟨"old", []⟩] }]
  replace := [⟨some { elem := [⟨"name", []⟩] }, some (.stringVal "r1")⟩]
  update := [⟨some { elem := [⟨"ntp", []⟩] }, some (.jsonIetfVal "[]")⟩]

theorem mixedRequest_wellFormed : mixedRequest.WellFormed where
  noExtensions := rfl
  carries := by
    intro upd hupd
    simp only [mixedRequest, List.cons_append, List.nil_append, List.mem_cons, List.not_mem_nil,
      or_false] at hupd
    rcases hupd with rfl | rfl
    · exact ⟨_, _, rfl, Or.inl ⟨_, rfl⟩⟩
    · exact ⟨_, _, rfl, Or.inr ⟨_, rfl⟩⟩

theorem mixedRequest_ordered : mixedRequest.Ordered := by
  refine (ordered_iff mixedRequest_wellFormed).mpr ?_
  have hall : (mixedRequest.itemList.all fun item =>
      ((item.xpath mixedRequest.xpathPrefix).getD "").toList.all fun c => c.toNat != 0) = true :=
    rfl
  intro item hitem xpath hx c hc
  have hchars := List.all_eq_true.mp hall item hitem
  rw [hx] at hchars
  simpa using List.all_eq_true.mp hchars c hc

/-- A request to delete a path whose name holds a NUL. -/
def nulRequest : SetRequest where
  delete := [{ elem := [⟨String.ofList ['a', Char.ofNat 0, 'b'], []⟩] }]

/-- The request with the NUL deletes another path and reports its own. -/
theorem not_ordered : ¬ ∀ request : SetRequest, request.WellFormed → request.Ordered := by
  intro h
  have hwell : nulRequest.WellFormed := ⟨rfl, by simp [nulRequest]⟩
  have hself := cStr_eq_of_inOrder hwell (h nulRequest hwell) _ List.mem_cons_self _ rfl
  exact absurd hself (by decide)

/-! ### What OK means -/

/-- A dialogue in which **OK and the commit mean that every item was applied**: each has been
attempted and has ended with OK, and a response holds the path of each. -/
def AllApplied (request : SetRequest) (evs : List CallEvent) (r : SetResult) : Prop :=
  (r.Ok ∨ ∃ reply, (⟨.commit, reply⟩ : CallEvent) ∈ evs) →
    ∃ t segs results commits, evs = ⟨.getTimeNanosec, t⟩ :: (segs.flatten ++ commits) ∧
      Throwing.Each (Item.attempt request.xpathPrefix) request.itemList segs results none ∧
      List.Forall₂ (fun item result => result = (.OK, item.entry) ∧ item.path ≠ none)
        request.itemList results ∧
      ∀ response, r = .ok (.ok response) → response.response = request.itemList.map Item.entry

/-- An item with a path and a value that `handleUpdate` does not support. -/
def Item.Refused : Item → Prop
  | .delete _ => False
  | .write _ upd => ∃ path reqval, upd = ⟨some path, some reqval⟩ ∧ ¬ reqval.Supported

/-- An unsupported value is thrown on. -/
theorem SetRpc.storeValue_unsupported (fullpath : String) {reqval : TypedValue}
    (h : ¬ reqval.Supported) :
    storeValue fullpath reqval = throw (.invalidArgument (unsupported reqval)) := by
  cases reqval with
  | stringVal | intVal | uintVal | boolVal | floatVal => exact absurd (Or.inl ⟨_, rfl⟩) h
  | jsonIetfVal data => exact absurd (Or.inr ⟨data, rfl⟩) h
  | bytesVal | decimalVal | leaflistVal | anyVal | jsonVal | asciiVal | protoBytes | notSet => rfl

/-- An item with an unsupported value throws. -/
theorem Item.Refused.not_ok {item : Item} (h : item.Refused) {pfx : String}
    {seg : List CallEvent} {result : StatusCode × UpdateResult} :
    ¬ Yields (item.attempt pfx).run seg (.ok result) := by
  intro hy
  cases item with
  | delete path => exact h
  | write op upd =>
      obtain ⟨path, reqval, rfl, hunsupported⟩ := h
      obtain ⟨o, hstore, hresult⟩ := Item.attempt_write hy
      rw [SetRpc.storeValue_unsupported _ hunsupported] at hstore
      obtain ⟨-, rfl⟩ := Throwing.yields_throw.mp hstore
      cases hresult

/-- A complete item that has ended without throwing has been applied. -/
theorem ItemRun.allApplied {request : SetRequest} {evs : List CallEvent} {r : SetResult} {t : ℕ}
    {segs : List (List CallEvent)} {results : List (StatusCode × UpdateResult)}
    {failure : Option Exn} {commits : List CallEvent}
    (h : ItemRun request evs r t segs results failure commits)
    (hcomplete : ∀ item ∈ request.itemList, item.Complete) : AllApplied request evs r := by
  intro hend
  have heach := h.each
  rw [h.failure_eq_none hend] at heach
  refine ⟨t, segs, results, commits, h.events, heach, ?_,
    fun response hr => h.response_eq hcomplete hr⟩
  refine ((List.forall₂_and_left _ _).mpr ⟨hcomplete, heach.forall₂⟩).imp ?_
  rintro item result ⟨hitem, seg, -, hy⟩
  rcases Item.attempt_eq_ok hy with ⟨-, rfl⟩ | ⟨hnot, -⟩
  · refine ⟨rfl, ?_⟩
    cases item with
    | delete path => simp [Item.path]
    | write op upd =>
        obtain ⟨⟨path, hpath⟩, -⟩ := hitem
        simp [Item.path, hpath]
  · exact absurd hitem hnot

/-- A session that accepts everything shows an item that is not applied. -/
theorem complete_of_allApplied {request : SetRequest}
    (h : ∀ evs r, Yields (SetRpc.run request).run evs r → AllApplied request evs r)
    (hext : request.extensionSize = 0) (hrefused : ∀ item ∈ request.itemList, ¬ item.Refused) :
    ∀ item ∈ request.itemList, item.Complete := by
  intro item hitem
  have hreturns := SetRpc.returns_run hext fun upd hupd path reqval hpath hval => by
    obtain ⟨op, hmem⟩ := SetRequest.mem_itemList hupd
    by_contra hunsupported
    refine hrefused _ hmem ⟨path, reqval, ?_, hunsupported⟩
    cases upd
    rw [← hpath, ← hval]
  obtain ⟨evs, _, hy, -, response, rfl⟩ := hreturns.exists_yields exists_accepts
  obtain ⟨t, segs, results, commits, -, heach, happlied, -⟩ := h evs _ hy (Or.inl ⟨response, rfl⟩)
  obtain ⟨k, hk⟩ := List.getElem?_of_mem hitem
  obtain ⟨seg, result, hseg, hresult, hitemYields⟩ := heach.get hk
  obtain ⟨hlt, -⟩ := List.getElem?_eq_some_iff.mp hk
  obtain ⟨hlt', hget⟩ := List.getElem?_eq_some_iff.mp hresult
  have hok := (happlied.get hlt hlt').1
  rw [List.get_eq_getElem, hget] at hok
  rcases Item.attempt_eq_ok hitemYields with ⟨hcomplete, -⟩ | ⟨-, hinvalid⟩
  · exact hcomplete
  · rw [hinvalid] at hok
    cases hok

/-- **OK and the commit mean that every item was applied exactly** for requests that are
refused as such, for requests whose items all carry a path and a value, and for requests
with an unsupported value, which end in its exception. -/
theorem allApplied_iff {request : SetRequest} :
    (∀ evs r, Yields (SetRpc.run request).run evs r → AllApplied request evs r) ↔
      request.extensionSize > 0 ∨ (∀ item ∈ request.itemList, item.Complete) ∨
        ∃ item ∈ request.itemList, item.Refused := by
  constructor
  · intro h
    by_cases hext : request.extensionSize > 0
    · exact Or.inl hext
    · by_cases hrefused : ∃ item ∈ request.itemList, item.Refused
      · exact Or.inr (Or.inr hrefused)
      · simp only [not_exists, not_and] at hrefused
        exact Or.inr (Or.inl (complete_of_allApplied h (by omega) hrefused))
  · intro h evs r hy
    by_cases hext : request.extensionSize > 0
    · rw [SetRpc.run, if_pos hext] at hy
      obtain ⟨rfl, rfl⟩ := Throwing.yields_pure.mp hy
      rintro (⟨response, heq⟩ | ⟨reply, hmem⟩)
      · cases heq
      · cases hmem
    · obtain ⟨t, segs, results, failure, commits, hrun⟩ :=
        SetRpc.yields_run_items (by omega) hy
      rcases h with hpos | hcomplete | ⟨item, hitem, hrefused⟩
      · exact absurd hpos hext
      · exact hrun.allApplied hcomplete
      · intro hend
        have heach := hrun.each
        rw [hrun.failure_eq_none hend] at heach
        obtain ⟨k, hk⟩ := List.getElem?_of_mem hitem
        obtain ⟨seg, result, -, -, hitemYields⟩ := heach.get hk
        exact absurd hitemYields hrefused.not_ok

/-- A request to update a path, without a value. -/
def valuelessRequest : SetRequest where
  update := [⟨some { elem := [⟨"name", []⟩] }, none⟩]

/-- The update without a value is not applied, and the request is answered OK. -/
theorem not_allApplied : ¬ ∀ (request : SetRequest) evs r,
    Yields (SetRpc.run request).run evs r → AllApplied request evs r := by
  intro h
  have hcomplete := complete_of_allApplied (h valuelessRequest) rfl
    (by simp [valuelessRequest, SetRequest.itemList, Item.Refused]) _ List.mem_cons_self
  obtain ⟨-, reqval, heq⟩ := hcomplete
  cases heq

end SysrepoGnxi
