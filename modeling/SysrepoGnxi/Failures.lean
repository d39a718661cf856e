import SysrepoGnxi.SetItems

/-!
# How the Items of a Set Request Fail

A Set request handles replace and update items alike, but the catch clauses around them
differ: `catch (const exception &)` stands around a replace item and not around an update
item. An exception leaves the loop over the items if the clauses of its item let it pass
(`threw_itemLoop`).

`caught_iff` says which exceptions make the difference: a `runtime_error` that is not
sysrepo's, unless the value is a JSON document, and every `exception` of no other class.
-/

open Dialogue

namespace SysrepoGnxi

/-- The exception a call has raised. -/
def raisedBy : CallEvent → Option Exn
  | ⟨.newVal _, .error exc⟩ => some exc
  | ⟨.setItem _ _, .error exc⟩ => some exc
  | ⟨.deleteItem _, .error exc⟩ => some exc
  | ⟨.commit, .error exc⟩ => some exc
  | ⟨.refresh, .error exc⟩ => some exc
  | ⟨.getSubtrees _, .error exc⟩ => some exc
  | ⟨.parseDataMem _, .error exc⟩ => some exc
  | _ => none

/-! ### From the call to `handleUpdate` -/

/-- What leaves `storeTree` when a call has raised an exception: that exception, or an invalid
argument in place of a string. The code's own exceptions are invalid arguments and the null
pointer of a document without nodes. -/
def Rethrown : Option Exn → Exn → Prop
  | none, exc => (∃ what, exc = .invalidArgument what) ∨ exc = .nullPointer
  | some e, exc => exc = e ∨ (e.isStdException = none ∧ ∃ what, exc = .invalidArgument what)

theorem relays_newVal (v : Val) : (newVal v).Relays raisedBy Rethrown := by
  refine Throwing.relays_ask ?_ ?_
  · rintro (exc | u) v h
    · cases h
    · rfl
  · rintro (exc' | u) exc h
    · obtain rfl := Except.error.inj h
      exact Or.inl rfl
    · cases h

theorem relays_setItem (path : ItemPath) (val : Option Val) :
    (setItem path val).Relays raisedBy Rethrown := by
  refine Throwing.relays_ask ?_ ?_
  · rintro r u rfl
    rfl
  · rintro r exc rfl
    exact Or.inl rfl

theorem relays_parseDataMem (data : String) :
    (parseDataMem data).Relays raisedBy Rethrown := by
  refine Throwing.relays_ask ?_ ?_
  · rintro r nodes rfl
    rfl
  · rintro r exc rfl
    exact Or.inl rfl

/-- `catch (std::string str)` turns strings into invalid arguments, and nothing else. -/
theorem relays_catchString {x : Handler Unit} (hx : x.Relays raisedBy Rethrown) :
    (catchString x).Relays raisedBy Rethrown := by
  refine hx.rethrow (fun _ => rfl) fun exc => ?_
  cases exc with
  | stdString s =>
      refine ⟨_, rfl, fun o ho => ?_⟩
      cases o with
      | none => exact Or.inl ⟨_, rfl⟩
      | some e =>
          rcases ho with rfl | ⟨-, what, heq⟩
          · exact Or.inr ⟨rfl, _, rfl⟩
          · cases heq
  | _ => exact ⟨_, rfl, fun _ ho => ho⟩

/-- `store_tree` passes on what its calls raise. -/
theorem storeRules_relays : StoreRules fun _ x => x.Relays raisedBy Rethrown where
  pure a := Throwing.relays_pure a
  bind hx hf := hx.bind hf
  invalid what := Throwing.relays_throw (Or.inl ⟨what, rfl⟩)
  newVal v := relays_newVal v
  setItem path val := relays_setItem path val
  catchString hx := relays_catchString hx

theorem relays_jsonUpdate (data : String) : (jsonUpdate data).Relays raisedBy Rethrown := by
  refine (relays_parseDataMem _).bind ?_
  rintro (_ | ⟨node, rest⟩)
  · exact Throwing.relays_throw (Or.inr rfl)
  · exact storeRules_relays.storeNodes _

/-! ### From `handleUpdate` to the catch clauses -/

/-- An exception that makes an update item with this value fail otherwise than a replace item:
no catch clause of `updateLoop` is for it, and it is not rethrown as one of theirs. -/
def TypedValue.Uncaught (reqval : TypedValue) : Exn → Prop
  | .exception _ => True
  | .runtimeError _ => ∀ data, reqval ≠ .jsonIetfVal data
  | _ => False

namespace SetRpc

/-- A std exception that passes the catch clauses around an update item. -/
def Passes (exc : Exn) : Prop := exc.isStdException.isSome = true ∧ catchUpdate exc = none

/-- An exception of `handleUpdate` passes the clauses exactly if the one that a call has raised
is uncaught. -/
def PassesIff (reqval : TypedValue) (o : Option Exn) (exc : Exn) : Prop :=
  Passes exc ↔ ∃ e, o = some e ∧ reqval.Uncaught e

theorem not_passes_invalidArgument (what : String) : ¬ Passes (.invalidArgument what) := by
  rintro ⟨-, h⟩
  cases h

/-- What is no std exception is not uncaught: the clauses are not about it. -/
theorem not_uncaught {reqval : TypedValue} {e : Exn} (he : e.isStdException = none) :
    ¬ reqval.Uncaught e := by
  cases e with
  | stdString | nullPointer => exact id
  | _ => cases he

/-- Nothing that is uncaught, and nothing that passes. -/
theorem passesIff_of_not {reqval : TypedValue} {o : Option Exn} {exc : Exn} (hexc : ¬ Passes exc)
    (h : ∀ e, o = some e → ¬ reqval.Uncaught e) : PassesIff reqval o exc :=
  iff_of_false hexc fun ⟨e, he, huncaught⟩ => h e he huncaught

/-- Where exceptions are not rethrown as others, the uncaught ones pass. -/
theorem passesIff_of_rethrown {reqval : TypedValue} (hreqval : ∀ data, reqval ≠ .jsonIetfVal data)
    {o : Option Exn} {exc : Exn} (h : Rethrown o exc) : PassesIff reqval o exc := by
  cases o with
  | none =>
      rcases h with ⟨what, rfl⟩ | rfl
      · exact passesIff_of_not (not_passes_invalidArgument what) (by simp)
      · exact passesIff_of_not (fun h => by cases h.1) (by simp)
  | some e =>
      rcases h with rfl | ⟨he, what, rfl⟩
      · have hsome : (∃ e, some exc = some e ∧ reqval.Uncaught e) ↔ reqval.Uncaught exc := by simp
        rw [PassesIff, hsome]
        cases exc with
        | runtimeError what => exact iff_of_true ⟨rfl, rfl⟩ hreqval
        | exception what => exact iff_of_true ⟨rfl, rfl⟩ trivial
        | invalidArgument what => exact iff_of_false (not_passes_invalidArgument what) id
        | sysrepoException what => exact iff_of_false (fun h => by cases h.2) id
        | stdString | nullPointer => exact iff_of_false (fun h => by cases h.1) id
      · refine passesIff_of_not (not_passes_invalidArgument what) fun e' he' => ?_
        obtain rfl := Option.some.inj he'
        exact not_uncaught he

/-- Around a document runtime errors are rethrown as invalid arguments. -/
theorem relays_rethrowInvalid {data : String} {x : Handler Unit}
    (hx : x.Relays raisedBy Rethrown) :
    (rethrowInvalid x).Relays raisedBy (PassesIff (.jsonIetfVal data)) := by
  refine hx.rethrow (fun _ => rfl) fun exc => ?_
  -- an exception that does not pass comes from one that is not uncaught
  have hcaught (hexc : ¬ TypedValue.Uncaught (.jsonIetfVal data) exc) :
      ∀ o, Rethrown o exc → ∀ e, o = some e → ¬ TypedValue.Uncaught (.jsonIetfVal data) e := by
    rintro _ ho e rfl
    rcases ho with rfl | ⟨he, -⟩
    · exact hexc
    · exact not_uncaught he
  cases exc with
  | invalidArgument what | sysrepoException what =>
      exact ⟨_, rfl, fun o ho =>
        passesIff_of_not (not_passes_invalidArgument what) (hcaught id o ho)⟩
  | runtimeError what =>
      exact ⟨_, rfl, fun o ho =>
        passesIff_of_not (not_passes_invalidArgument what) (hcaught (fun h => h _ rfl) o ho)⟩
  | exception what =>
      refine ⟨_, rfl, fun o ho => ?_⟩
      cases o with
      | none => rcases ho with ⟨what, heq⟩ | heq <;> cases heq
      | some e =>
          rcases ho with rfl | ⟨-, what, heq⟩
          · exact iff_of_true ⟨rfl, rfl⟩ ⟨_, rfl, trivial⟩
          · cases heq
  | stdString | nullPointer =>
      exact ⟨_, rfl, fun o ho => passesIff_of_not (fun h => by cases h.1) (hcaught id o ho)⟩

/-- **What `handleUpdate` throws** passes the clauses around an update item exactly if the call
has raised an exception that is uncaught for the value. -/
theorem relays_storeValue (fullpath : String) (reqval : TypedValue) :
    (storeValue fullpath reqval).Relays raisedBy (PassesIff reqval) := by
  by_cases hsupported : reqval.Supported
  · obtain ⟨val, hval⟩ | ⟨data, rfl⟩ := hsupported
    · rw [storeValue_scalar hval]
      refine (storeRules_relays.setVal _ _).mono fun _ _ => passesIff_of_rethrown ?_
      rintro data rfl
      cases hval
    · exact relays_rethrowInvalid (relays_jsonUpdate data)
  · rw [storeValue_unsupported fullpath hsupported]
    exact Throwing.relays_throw (passesIff_of_not (not_passes_invalidArgument _) (by simp))

end SetRpc

/-- An exception that makes an update item fail otherwise than a replace item. -/
def Update.Uncaught (upd : Update) (e : Exn) : Prop :=
  ∃ reqval, upd.val = some reqval ∧ reqval.Uncaught e

/-- **What leaves an item with an update** passes the clauses around update items exactly if a
call has raised an exception that is uncaught for it. -/
theorem Item.passes_iff {pfx : String} {op : Operation} {upd : Update} {seg : List CallEvent}
    {exc : Exn} (h : Yields ((Item.write op upd).attempt pfx).run seg (.error exc)) :
    SetRpc.Passes exc ↔ ∃ e, seg.findSome? raisedBy = some e ∧ upd.Uncaught e := by
  obtain ⟨path, reqval⟩ := upd
  by_cases hcomplete : (Item.write op ⟨path, reqval⟩).Complete
  · obtain ⟨⟨path, rfl⟩, reqval, rfl⟩ := hcomplete
    obtain ⟨o, hstore, heq⟩ := Item.attempt_write h
    cases o with
    | ok u => cases heq
    | error exc' =>
        obtain rfl : exc = exc' := Except.error.inj heq
        have hpasses := (SetRpc.relays_storeValue _ reqval).threw _ _ hstore
        simpa [SetRpc.PassesIff, Update.Uncaught] using hpasses
  · obtain ⟨-, heq⟩ := Item.attempt_incomplete hcomplete h
    cases heq

/-! ### What leaves the loop -/

/-- The clauses that let a std exception pass are those around update items. -/
theorem Item.clauses_eq_none {item : Item} {exc : Exn} (h : item.clauses exc = none)
    (hstd : exc.isStdException ≠ none) :
    ∃ upd, item = .write .UPDATE upd ∧ SetRpc.catchUpdate exc = none := by
  cases item with
  | delete path => exact absurd (Option.map_eq_none_iff.mp h) hstd
  | write op upd =>
      cases op with
      | UPDATE => exact ⟨upd, rfl, h⟩
      | _ => cases exc <;> first | exact absurd rfl hstd | cases h

namespace SetRpc

variable {pfx : String} {response : SetResponse} {evs : List CallEvent} {r : SetResult}

/-- Past items that are done the loop goes on. -/
theorem yields_itemLoop_append {done items : List Item} {segs : List (List CallEvent)}
    {results : List (StatusCode × UpdateResult)}
    (hdone : Throwing.Each (Item.attempt pfx) done segs results none)
    (h : ∀ response, Yields (itemLoop pfx items response).run evs r) :
    Yields (itemLoop pfx (done ++ items) response).run (segs.flatten ++ evs) r := by
  generalize hnone : (none : Option Exn) = failure at hdone
  induction hdone generalizing response with
  | nil => exact h response
  | cons hitem _ ih =>
      rw [List.cons_append, List.flatten_cons, List.append_assoc]
      exact yields_itemLoop_cons.mpr (Or.inl ⟨_, _, _, rfl, hitem, ih hnone⟩)
  | fail _ => cases hnone

/-- **An exception leaves the loop** at an item whose clauses let it pass. -/
theorem threw_itemLoop {items : List Item} {exc : Exn}
    (h : Yields (itemLoop pfx items response).run evs (.error exc)) :
    ∃ done item rest segs results seg, items = done ++ item :: rest ∧
      evs = segs.flatten ++ seg ∧
      Throwing.Each (Item.attempt pfx) done segs results none ∧
      Yields (item.attempt pfx).run seg (.error exc) ∧ item.clauses exc = none := by
  induction items generalizing response evs with
  | nil =>
      obtain ⟨-, heq⟩ := Throwing.yields_pure.mp h
      cases heq
  | cons item rest ih =>
      rcases yields_itemLoop_cons.mp h with ⟨evs₁, evs₂, result, rfl, h₁, h₂⟩ | ⟨exc', h, heq⟩
      · obtain ⟨done, item', rest', segs, results, seg, rfl, rfl, hdone, hitem, hclauses⟩ := ih h₂
        exact ⟨item :: done, item', rest', evs₁ :: segs, result :: results, seg, rfl, by simp,
          Throwing.Each.cons h₁ hdone, hitem, hclauses⟩
      · cases hclauses : item.clauses exc' with
        | some status =>
            rw [hclauses] at heq
            cases heq
        | none =>
            rw [hclauses] at heq
            obtain rfl : exc = exc' := Except.error.inj heq
            exact ⟨[], item, rest, [], [], evs, rfl, rfl, Throwing.Each.nil, h, hclauses⟩

/-- What ends a part of `run` without a response ends the whole. -/
theorem yields_andThen_of_not_ok {x : Handler (Except Status SetResponse)}
    {f : SetResponse → Handler (Except Status SetResponse)} (hr : ¬ r.Ok)
    (h : Yields x.run evs r) : Yields (andThen x f).run evs r := by
  rcases r with exc | status | response
  · exact Throwing.yields_bind.mpr (Or.inr ⟨exc, h, rfl⟩)
  · exact Throwing.yields_bind.mpr
      (Or.inl ⟨evs, [], .error status, by simp, h, Throwing.yields_pure.mpr ⟨rfl, rfl⟩⟩)
  · exact absurd ⟨response, rfl⟩ hr

/-- **An item that throws ends the request**, with the status of its clauses or with the
exception that they let pass. -/
theorem yields_run_of_threw {request : SetRequest} (hext : request.extensionSize = 0)
    {done rest : List Item} {item : Item} (hitems : request.itemList = done ++ item :: rest)
    {segs : List (List CallEvent)} {results : List (StatusCode × UpdateResult)}
    (hdone : Throwing.Each (Item.attempt request.xpathPrefix) done segs results none)
    {seg : List CallEvent} {exc : Exn}
    (hitem : Yields (item.attempt request.xpathPrefix).run seg (.error exc)) (t : ℕ) :
    Yields (run request).run (⟨.getTimeNanosec, t⟩ :: (segs.flatten ++ seg))
      ((item.clauses exc).elim (.error exc) fun status => .ok (.error status)) := by
  rw [run, if_neg (by omega)]
  refine Throwing.yields_ask_bind.mpr ⟨t, _, rfl,
    yields_andThen_of_not_ok (not_ok_of_clauses item.clauses exc) ?_⟩
  rw [yields_items_iff, hitems]
  exact yields_itemLoop_append hdone fun _ => yields_itemLoop_cons.mpr (Or.inr ⟨exc, hitem, rfl⟩)

/-- A commit lets nothing pass that is a std exception. -/
theorem threw_commitAll {exc : Exn}
    (h : Yields (commitAll response).run evs (.error exc)) : exc.isStdException = none := by
  obtain ⟨reply, -, heq⟩ := yields_commitAll_iff.mp h
  cases reply with
  | ok u => cases heq
  | error exc' =>
      dsimp only at heq
      cases hstd : exc'.isStdException with
      | some what =>
          rw [hstd] at heq
          cases heq
      | none =>
          rw [hstd] at heq
          obtain rfl := Except.error.inj heq
          exact hstd

/-! ### Which exceptions make the difference -/

/-- What an update item catches a replace item catches as well, with the same status. -/
theorem catchReplace_of_catchUpdate {exc : Exn} {status : Status}
    (h : catchUpdate exc = some status) : catchReplace exc = some status ∧ status.code ≠ .OK := by
  cases exc with
  | invalidArgument what | sysrepoException what =>
      obtain rfl := Option.some.inj h
      exact ⟨rfl, by simp⟩
  | _ => cases h

/-- An item **fails alike** with a dialogue of `handleUpdate`: it ends every request with the
same status, as a replace and as an update item, and the calls are those of the dialogue. -/
def FailsAlike (pfx : Option Path) (upd : Update) (seg : List CallEvent) : Prop :=
  ∃ status : Status, status.code ≠ .OK ∧
    ∀ (request : SetRequest) op done rest segs results t, request.extensionSize = 0 →
      request.pfx = pfx → request.itemList = done ++ .write op upd :: rest →
      Throwing.Each (Item.attempt request.xpathPrefix) done segs results none →
      Yields (run request).run (⟨.getTimeNanosec, t⟩ :: (segs.flatten ++ seg))
        (.ok (.error status))

/-- No std exception leaves the request. -/
def Contained (r : SetResult) : Prop := ∀ exc, r = .error exc → exc.isStdException = none

/-- While an update item of the request was handled, a call raised an exception. -/
def RaisedAt (request : SetRequest) (evs : List CallEvent) (upd : Update) (e : Exn) : Prop :=
  ∃ done rest segs results seg exc t,
    request.itemList = done ++ .write .UPDATE upd :: rest ∧
    evs = ⟨.getTimeNanosec, t⟩ :: (segs.flatten ++ seg) ∧
    Throwing.Each (Item.attempt request.xpathPrefix) done segs results none ∧
    Yields ((Item.write .UPDATE upd).attempt request.xpathPrefix).run seg (.error exc) ∧
    seg.findSome? raisedBy = some e

/-- **Items fail alike exactly if what a call has raised is not uncaught.** -/
theorem failsAlike_iff {pfx : Option Path} {upd : Update} {seg : List CallEvent} {exc : Exn}
    (h : Yields (handleUpdate upd {} (pfx.elim "" gnmiToXpath)).run seg (.error exc))
    (hstd : exc.isStdException.isSome = true) :
    FailsAlike pfx upd seg ↔ ∀ e, seg.findSome? raisedBy = some e → ¬ upd.Uncaught e := by
  have hitem (op : Operation) :
      Yields ((Item.write op upd).attempt (pfx.elim "" gnmiToXpath)).run seg (.error exc) :=
    Throwing.yields_bind_pure.mpr ⟨.error exc, h, rfl⟩
  constructor
  · rintro ⟨status, -, halike⟩ e he huncaught
    obtain ⟨-, hnone⟩ := (Item.passes_iff (hitem .UPDATE)).mpr ⟨e, he, huncaught⟩
    let request : SetRequest := { pfx := pfx, update := [upd] }
    have hitems : request.itemList = [] ++ .write .UPDATE upd :: [] := rfl
    have hext : request.extensionSize = 0 := rfl
    have hthrown := yields_run_of_threw hext hitems Throwing.Each.nil (hitem .UPDATE) 0
    have hstatus := halike request .UPDATE [] [] [] [] 0 hext rfl hitems Throwing.Each.nil
    rw [show (Item.write .UPDATE upd).clauses exc = none from hnone] at hthrown
    cases hthrown.unique hstatus
  · intro hcaught
    obtain ⟨status, hstatus⟩ : ∃ status, catchUpdate exc = some status := by
      cases hnone : catchUpdate exc with
      | some status => exact ⟨status, rfl⟩
      | none =>
          obtain ⟨e, he, huncaught⟩ := (Item.passes_iff (hitem .UPDATE)).mp ⟨hstd, hnone⟩
          exact absurd huncaught (hcaught e he)
    obtain ⟨hreplace, hcode⟩ := catchReplace_of_catchUpdate hstatus
    refine ⟨status, hcode, fun request op done rest segs results t hext hpfx hitems hdone => ?_⟩
    have hclauses : (Item.write op upd).clauses exc = some status := by
      cases op with
      | UPDATE => exact hstatus
      | _ => exact hreplace
    subst hpfx
    have hrun := yields_run_of_threw hext hitems hdone (hitem op) t
    rwa [hclauses] at hrun

/-- **A std exception leaves a request exactly if one was raised at an update item that is
uncaught for it.** -/
theorem contained_iff {request : SetRequest} {evs : List CallEvent} {r : SetResult}
    (h : Yields (run request).run evs r) :
    Contained r ↔ ∀ upd e, RaisedAt request evs upd e → ¬ upd.Uncaught e := by
  by_cases hext : request.extensionSize > 0
  · rw [run, if_pos hext] at h
    obtain ⟨rfl, rfl⟩ := Throwing.yields_pure.mp h
    refine iff_of_true (fun exc heq => by cases heq) ?_
    rintro upd e ⟨done, rest, segs, results, seg, exc, t, -, heq, -⟩
    cases heq
  · constructor
    · rintro hcontained upd e
        ⟨done, rest, segs, results, seg, exc, t, hitems, rfl, hdone, hitem, he⟩ huncaught
      obtain ⟨hstd, hnone⟩ := (Item.passes_iff hitem).mpr ⟨e, he, huncaught⟩
      have hthrown := yields_run_of_threw (by omega) hitems hdone hitem t
      rw [show (Item.write .UPDATE upd).clauses exc = none from hnone] at hthrown
      rw [hcontained exc (h.unique hthrown)] at hstd
      cases hstd
    · rintro hcaught exc rfl
      by_contra hstd
      rw [run, if_neg hext] at h
      obtain ⟨t, evs', rfl, hrun⟩ := Throwing.yields_ask_bind.mp h
      rcases yields_andThen hrun with ⟨evs₁, evs₂, response, rfl, -, hcommit⟩ | ⟨hitems, -⟩
      · exact hstd (threw_commitAll hcommit)
      · obtain ⟨done, item, rest, segs, results, seg, hlist, rfl, hdone, hitem, hclauses⟩ :=
          threw_itemLoop (yields_items_iff.mp hitems)
        obtain ⟨upd, rfl, hnone⟩ := Item.clauses_eq_none hclauses hstd
        obtain ⟨e, he, huncaught⟩ :=
          (Item.passes_iff hitem).mp ⟨Option.isSome_iff_ne_none.mpr hstd, hnone⟩
        exact hcaught upd e ⟨done, rest, segs, results, seg, exc, t, hlist, rfl, hdone, hitem, he⟩
          huncaught

/-- **When replace and update items fail alike, and when no std exception leaves a request**:
exactly if nothing that a call has raised for the update item is uncaught for it. -/
theorem caught_iff {pfx : Option Path} {upd : Update} {seg : List CallEvent} {exc : Exn}
    (h : Yields (handleUpdate upd {} (pfx.elim "" gnmiToXpath)).run seg (.error exc))
    (hstd : exc.isStdException.isSome = true) {request : SetRequest} {evs : List CallEvent}
    {r : SetResult} (hrun : Yields (run request).run evs r) :
    (FailsAlike pfx upd seg ↔ ∀ e, seg.findSome? raisedBy = some e → ¬ upd.Uncaught e) ∧
      (Contained r ↔ ∀ upd e, RaisedAt request evs upd e → ¬ upd.Uncaught e) :=
  ⟨failsAlike_iff h hstd, contained_iff hrun⟩

/-- An update of a name. -/
def nameUpdate : Update := ⟨some { elem := [⟨"name", []⟩] }, some (.stringVal "r1")⟩

/-- There is no memory for the value. -/
def badAlloc : CallEvent := ⟨.newVal (.string "r1"), .error (.exception "std::bad_alloc")⟩

theorem yields_badAlloc :
    Yields (handleUpdate nameUpdate {} ((none : Option Path).elim "" gnmiToXpath)).run [badAlloc]
      (.error (.exception "std::bad_alloc")) :=
  Yields.call (Yields.ret _)

/-- The exception leaves a request with the update. -/
theorem yields_run_badAlloc : Yields (run { update := [nameUpdate] }).run
    [⟨.getTimeNanosec, (0 : ℕ)⟩, badAlloc] (.error (.exception "std::bad_alloc")) :=
  Yields.call (Yields.call (Yields.ret _))

theorem caught_badAlloc :
    (FailsAlike none nameUpdate [badAlloc] ↔
      ∀ e, [badAlloc].findSome? raisedBy = some e → ¬ nameUpdate.Uncaught e) ∧
    (Contained (.error (.exception "std::bad_alloc")) ↔
      ∀ upd e, RaisedAt { update := [nameUpdate] } [⟨.getTimeNanosec, (0 : ℕ)⟩, badAlloc] upd e →
        ¬ upd.Uncaught e) :=
  caught_iff yields_badAlloc rfl yields_run_badAlloc

/-- An update item without memory for its value fails otherwise than a replace item, and its
exception leaves the request. -/
theorem not_caught :
    ¬ (∀ (pfx : Option Path) (upd : Update) (seg : List CallEvent) (exc : Exn),
      Yields (handleUpdate upd {} (pfx.elim "" gnmiToXpath)).run seg (.error exc) →
        exc.isStdException.isSome = true → FailsAlike pfx upd seg) ∧
    ¬ ∀ (request : SetRequest) (evs : List CallEvent) (r : SetResult),
      Yields (run request).run evs r → Contained r := by
  constructor
  · intro h
    refine (failsAlike_iff yields_badAlloc rfl).mp (h _ _ _ _ yields_badAlloc rfl)
      _ rfl ⟨_, rfl, trivial⟩
  · intro h
    cases h _ _ _ yields_run_badAlloc _ rfl

end SetRpc

end SysrepoGnxi
