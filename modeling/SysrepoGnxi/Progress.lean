import SysrepoGnxi.Durability

/-!
# The Progress of a Set Request

A Set request that has not ended, or has failed, has had some of its edits accepted. Which
ones: the first of those it asks for, in its order, deletes before replaces before updates.
None is skipped, repeated or made up, at any point of any schedule (`progress_of_service`).

`Issues` says so of a part of the handler, whatever came before it: it is `Safe`, the next
accepted edit always being the next of the request. Its rules follow the handler.
-/

open Dialogue JsonDoc

namespace SysrepoGnxi

variable {parse : String → Except Exn (List DataNode)} {α β : Type}

/-- An exchange keeps to a list of edits: if it is an accepted edit, and libyang has parsed
what came before, it is the next one. -/
def NextOf (parse : String → Except Exn (List DataNode)) (edits : List Edit)
    (past : List CallEvent) (ev : CallEvent) : Prop :=
  (∀ ev' ∈ past, Parsed parse ev'.1 ev'.2) → ∀ e, acceptedEdit ev = some e →
    acceptedEdits past ++ [e] <+: edits

/-- A part of a handler **issues** edits: those accepted of it are the first ones, in order,
whatever was accepted before and is to follow. -/
def Issues (parse : String → Except Exn (List DataNode)) (edits : List Edit)
    (x : Handler α) : Prop :=
  ∀ past rest, Dialogue.Safe (NextOf parse (acceptedEdits past ++ edits ++ rest)) x.run past

/-- A part of a handler that issues nothing. -/
def Silent (x : Handler α) : Prop := x.Only fun c => ∀ r, acceptedEdit ⟨c, r⟩ = none

section Issues

variable {edits edits₁ edits₂ : List Edit}

theorem Silent.safe {x : Handler α} (h : Silent x) (edits : List Edit) (past : List CallEvent) :
    Dialogue.Safe (NextOf parse edits) x.run past := by
  refine Throwing.Only.safe h fun past c r hc _ e he => ?_
  rw [hc r] at he
  cases he

theorem Silent.issues {x : Handler α} (h : Silent x) : Issues parse edits x :=
  fun _ _ => h.safe _ _

theorem silent_pure (a : α) : Silent (pure a : Handler α) := Throwing.only_pure a

theorem silent_throw (exc : Exn) : Silent (throw exc : Handler α) := Throwing.only_throw exc

/-- Further edits may follow. -/
theorem Issues.append {x : Handler α} (h : Issues parse edits₁ x) (edits₂ : List Edit) :
    Issues parse (edits₁ ++ edits₂) x := by
  intro past rest
  have hsafe := h past (edits₂ ++ rest)
  simpa only [List.append_assoc] using hsafe

theorem Issues.observe {x : Handler α} (h : Issues parse edits x) :
    Issues parse edits (Throwing.observe x) :=
  fun past rest => Dialogue.Safe.bind (h past rest) fun _ _ _ => trivial

/-- After a parse that is not libyang's everything is allowed. -/
theorem safe_of_unparsed {p : Prog Call Call.Reply α} {past : List CallEvent}
    (h : ¬ ∀ ev ∈ past, Parsed parse ev.1 ev.2) : Dialogue.Safe (NextOf parse edits) p past := by
  induction p generalizing past with
  | ret a => trivial
  | call c k ih =>
      refine fun r => ⟨fun hall => absurd hall h, ih r fun hall => h fun ev hev => ?_⟩
      exact hall ev (List.mem_append_left _ hev)

/-- **The sequencing rule**: the first part ends with all its edits accepted, and those of the
second follow, or nothing more is issued. -/
theorem Issues.bind {post : α → List CallEvent → Prop} {x : Handler α} {f : α → Handler β}
    (hx : Issues parse edits₁ x) (hends : x.Ends (Parsed parse) post)
    (hf : ∀ a evs, post a evs →
      acceptedEdits evs = edits₁ ∧ Issues parse edits₂ (f a) ∨ Silent (f a)) :
    Issues parse (edits₁ ++ edits₂) (x >>= f) := by
  intro past rest
  have hfirst := hx.append edits₂ past rest
  refine Throwing.safe_bind hfirst fun evs a hy => ?_
  by_cases hparsed : ∀ ev ∈ past ++ evs, Parsed parse ev.1 ev.2
  · have hpost := hends evs a hy fun ev hev => hparsed ev (List.mem_append_right _ hev)
    rcases hf a evs hpost with ⟨hacc, hissues⟩ | hsilent
    · have hsafe := hissues (past ++ evs) rest
      rw [acceptedEdits_append, hacc] at hsafe
      simpa only [List.append_assoc] using hsafe
    · exact hsilent.safe _ _
  · exact safe_of_unparsed hparsed

/-- The first part issues nothing. -/
theorem Issues.after {post : α → List CallEvent → Prop} {x : Handler α} {f : α → Handler β}
    (hx : Silent x) (hends : x.Ends (Parsed parse) post)
    (hf : ∀ a evs, post a evs →
      acceptedEdits evs = [] ∧ Issues parse edits (f a) ∨ Silent (f a)) :
    Issues parse edits (x >>= f) :=
  have hnone : Issues parse [] x := hx.issues
  hnone.bind hends hf

/-- The second part issues nothing. -/
theorem Issues.before {x : Handler α} {f : α → Handler β} (hx : Issues parse edits x)
    (hf : ∀ a, Silent (f a)) : Issues parse edits (x >>= f) := by
  have hany : x.Ends (Parsed parse) fun _ _ => True := fun _ _ _ _ => trivial
  rw [← List.append_nil edits]
  exact hx.bind hany fun a _ _ => Or.inr (hf a)

/-! ### The parts of `run` -/

theorem issues_setItem (path : ItemPath) (val : Option Val) :
    Issues parse [.set path val] (setItem path val) := by
  intro past rest
  refine Throwing.safe_ask ?_
  rintro (exc | u) - e he
  · cases he
  · obtain rfl := Option.some.inj he
    exact List.prefix_append _ _

theorem issues_deleteItem (xpath : String) :
    Issues parse [.delete xpath] (deleteItem xpath) := by
  intro past rest
  refine Throwing.safe_ask ?_
  rintro (exc | u) - e he
  · cases he
  · obtain rfl := Option.some.inj he
    exact List.prefix_append _ _

theorem issues_setVal (path : ItemPath) (val : Val) :
    Issues parse [.set path (some val)] (setVal path val) := by
  have hnew : (newVal val).Ends (Parsed parse)
      fun v evs => v = val ∧ acceptedEdits evs = [] := by
    refine Throwing.ends_ask ?_
    rintro (exc | u) a - h
    · cases h
    · exact ⟨(Except.ok.inj h).symm, rfl⟩
  have hsilent : Silent (newVal val) := Throwing.only_ask fun _ => rfl
  refine Issues.after hsilent hnew ?_
  rintro v evs ⟨rfl, hevs⟩
  exact Or.inl ⟨hevs, issues_setItem _ _⟩

/-- Induction on the chain of leafrefs. -/
theorem issues_storeLeaf (path : NodeRef) (isKey : Bool) (value : LyValue) :
    Issues parse (leafEdits path isKey value) (storeLeaf path isKey value) := by
  fun_induction storeLeaf path isKey value with
  | case1 => exact (silent_pure _).issues
  | case2 path isKey targetPath targetKey target hkey ih =>
      rw [leafEdits, if_neg hkey]
      refine ih.bind (ends_storeLeaf _ _ _) ?_
      rintro u evs ⟨hevs, -⟩
      exact Or.inl ⟨hevs, issues_setItem _ _⟩
  | case3 => exact (silent_pure _).issues
  | case4 => exact (silent_throw _).issues
  | case5 path isKey value hval hkey val hto =>
      have hedits : leafEdits path isKey value = [.set (.dataNode path) (some val)] := by
        cases value <;> simp_all [leafEdits]
      rw [hedits]
      exact issues_setVal _ _

theorem issues_catchString {x : Handler Unit} (hx : Issues parse edits x) :
    Issues parse edits (catchString x) := by
  refine hx.observe.before ?_
  rintro (exc | u)
  · cases exc <;> exact silent_throw _
  · exact silent_pure _

theorem issues_storeNode (path : NodeRef) (node : DataNode) :
    Issues parse (nodeEdits path node) (storeNode path node) := by
  cases node with
  | leaf name isKey value => exact issues_catchString (issues_storeLeaf path isKey value)
  | list name keys children => exact issues_setVal _ _
  | _ => exact (silent_pure _).issues

theorem issues_storeNodes (nodes : List (NodeRef × DataNode)) :
    Issues parse (nodes.flatMap fun it => nodeEdits it.1 it.2) (storeNodes nodes) := by
  induction nodes with
  | nil => exact (silent_pure _).issues
  | cons it rest ih =>
      rw [List.flatMap_cons]
      refine (issues_storeNode it.1 it.2).bind (ends_storeNode it.1 it.2) ?_
      rintro u evs ⟨hevs, -⟩
      exact Or.inl ⟨hevs, ih⟩

theorem issues_jsonUpdate (data : String) :
    Issues parse ((documentTree parse data).elim [] treeEdits) (jsonUpdate data) := by
  have hparse : (parseDataMem (cStr data)).Ends (Parsed parse)
      fun nodes evs => parse (cStr data) = .ok nodes ∧ acceptedEdits evs = [] := by
    refine Throwing.ends_ask ?_
    rintro r nodes hr rfl
    exact ⟨hr (cStr data) nodes rfl, rfl⟩
  have hsilent : Silent (parseDataMem (cStr data)) := Throwing.only_ask fun _ => rfl
  refine Issues.after hsilent hparse ?_
  rintro (- | ⟨node, siblings⟩) evs ⟨hp, hevs⟩
  · exact Or.inr (silent_throw _)
  · refine Or.inl ⟨hevs, ?_⟩
    rw [show documentTree parse data = some node by simp [documentTree, hp]]
    exact issues_storeNodes _

namespace SetRpc

theorem issues_rethrowInvalid {x : Handler Unit} (hx : Issues parse edits x) :
    Issues parse edits (rethrowInvalid x) := by
  refine hx.observe.before ?_
  rintro (exc | u)
  · cases exc <;> exact silent_throw _
  · exact silent_pure _

theorem issues_storeValue (fullpath : String) (reqval : TypedValue) :
    Issues parse (valueEdits parse fullpath reqval) (storeValue fullpath reqval) := by
  cases reqval with
  | stringVal | intVal | uintVal | boolVal | floatVal => exact issues_setVal _ _
  | jsonIetfVal data => exact issues_rethrowInvalid (issues_jsonUpdate data)
  | _ => exact (silent_throw _).issues

theorem issues_handleUpdate (upd : Update) (out : UpdateResult) (pfx : String) :
    Issues parse (updateEdits parse pfx upd) (handleUpdate upd out pfx) := by
  obtain ⟨_ | path, _ | reqval⟩ := upd
  · exact (silent_pure _).issues
  · exact (silent_pure _).issues
  · exact (silent_pure _).issues
  · exact (issues_storeValue (pfx ++ gnmiToXpath path) reqval).before fun _ => silent_pure _

theorem issues_deleteLoop (pfx : String) (paths : List Path) (response : SetResponse) :
    Issues parse (paths.map fun path => .delete (cStr (pfx ++ gnmiToXpath path)))
      (deleteLoop pfx paths response) := by
  induction paths generalizing response with
  | nil => exact (silent_pure _).issues
  | cons delpath rest ih =>
      have hdelete : (deleteItem (cStr (pfx ++ gnmiToXpath delpath))).Ends (Parsed parse) _ :=
        ends_deleteItem _
      refine (issues_deleteItem _).observe.bind hdelete.observe ?_
      rintro (exc | u) evs h
      · cases exc with
        | stdString | nullPointer => exact Or.inr (silent_throw _)
        | _ => exact Or.inr (silent_pure _)
      · exact Or.inl ⟨h u rfl, ih _⟩

/-- An item without a path or a value issues nothing, and the loop goes on. -/
theorem issues_updateLoop (op : Operation) (clauses : Exn → Option Status) (pfx : String)
    (upds : List Update) (response : SetResponse) :
    Issues parse (upds.flatMap (updateEdits parse pfx))
      (updateLoop op clauses pfx upds response) := by
  induction upds generalizing response with
  | nil => exact (silent_pure _).issues
  | cons upd rest ih =>
      rw [List.flatMap_cons]
      refine (issues_handleUpdate upd {} pfx).observe.bind (ends_handleUpdate upd {} pfx).observe ?_
      rintro (exc | ⟨code, res⟩) evs h
      · dsimp only
        cases clauses exc with
        | none => exact Or.inr (silent_throw _)
        | some status => exact Or.inr (silent_pure _)
      · exact Or.inl ⟨(h (code, res) rfl).1, ih _⟩

theorem issues_andThen {goal : Prop} {x : Handler (Except Status SetResponse)}
    {f : SetResponse → Handler (Except Status SetResponse)} (hx : Issues parse edits₁ x)
    (hleaves : Leaves parse edits₁ goal x) (hf : ∀ response, Issues parse edits₂ (f response)) :
    Issues parse (edits₁ ++ edits₂) (andThen x f) := by
  refine hx.bind hleaves ?_
  rintro (status | response) evs h
  · exact Or.inr (silent_pure _)
  · exact Or.inl ⟨(h response rfl).1, hf response⟩

/-- **`run` issues the edits of its request.** -/
theorem issues_run (request : SetRequest) :
    Issues parse (requestEdits parse request) (run request) := by
  rw [run]
  split_ifs
  · exact (silent_pure _).issues
  · have htime : Silent getTimeNanosec := Throwing.only_ask fun _ => rfl
    have hnone : getTimeNanosec.Ends (Parsed parse) fun _ evs => acceptedEdits evs = [] := by
      refine Throwing.ends_ask ?_
      rintro t a - -
      rfl
    refine Issues.after htime hnone fun timestamp evs hevs => Or.inl ⟨hevs, ?_⟩
    have hitems : Issues parse (requestEdits parse request)
        (items request ⟨request.pfx, [], timestamp⟩) := by
      rw [requestEdits, List.append_assoc]
      exact issues_andThen (issues_deleteLoop _ _ _) (leaves_deleteLoop _ _ _) fun _ =>
        issues_andThen (issues_updateLoop _ _ _ _ _) (leaves_updateLoop _ _ _ _ _) fun _ =>
          issues_updateLoop _ _ _ _ _
    rw [← List.append_nil (requestEdits parse request)]
    refine issues_andThen hitems (leaves_items _ _) fun response => ?_
    have hcommit : Silent (Throwing.observe commit) :=
      Throwing.Only.observe (Throwing.only_ask fun _ => rfl)
    refine Silent.issues (hcommit.bind ?_)
    rintro (exc | u)
    · cases exc with
      | stdString | nullPointer => exact Throwing.only_throw _
      | _ => exact Throwing.only_pure _
    · exact Throwing.only_pure _

end SetRpc

end Issues

/-! ### The requests of the service -/

/-- Where every accepted edit was the next one, they are the first of the list. -/
theorem prefix_of_next {edits : List Edit} {evs : List CallEvent}
    (hparsed : ∀ ev ∈ evs, Parsed parse ev.1 ev.2)
    (h : ∀ evs₁ ev evs₂, evs = evs₁ ++ ev :: evs₂ → NextOf parse edits evs₁ ev) :
    acceptedEdits evs <+: edits := by
  induction evs using List.reverseRecOn with
  | nil => exact List.nil_prefix
  | append_singleton evs ev ih =>
      have hbefore : ∀ ev' ∈ evs, Parsed parse ev'.1 ev'.2 :=
        fun ev' hev' => hparsed ev' (List.mem_append_left _ hev')
      rw [acceptedEdits_append]
      cases hacc : acceptedEdit ev with
      | some e =>
          have hsingle : acceptedEdits [ev] = [e] := by simp [acceptedEdits, hacc]
          rw [hsingle]
          exact h evs ev [] rfl hbefore e hacc
      | none =>
          have hsingle : acceptedEdits [ev] = [] := by simp [acceptedEdits, hacc]
          rw [hsingle, List.append_nil]
          refine ih hbefore fun evs₁ ev' evs₂ heq => h evs₁ ev' (evs₂ ++ [ev]) ?_
          rw [heq]
          simp

/-- The edits accepted in a partial dialogue. -/
theorem Issues.prefix_of_steps {edits : List Edit} {x : Handler α} (hx : Issues parse edits x)
    {evs : List CallEvent} {p : Prog Call Call.Reply (Except Exn α)} (h : Steps x.run evs p)
    (hparsed : ∀ ev ∈ evs, Parsed parse ev.1 ev.2) : acceptedEdits evs <+: edits := by
  refine prefix_of_next hparsed fun evs₁ ev evs₂ heq => ?_
  subst heq
  have hsafe := hx [] []
  simpa [acceptedEdits] using hsafe.steps h

variable {D : Type}

/-- The edits accepted so far of a Set request of the service are the first it asks for. -/
theorem acceptedEdits_first {env : Env D} {fastWriter : Json → String} {d : D} {rpcs : ℕ → Rpc}
    {sched : List ℕ} {i : ℕ} {request : SetRequest} (hrpc : rpcs i = .set request) :
    acceptedEdits (own i (Service.runs env fastWriter d rpcs sched).log) <+:
      requestEdits env.parse request := by
  have hsteps := Pool.steps (serve env) (fun i => ((rpcs i).handler fastWriter).run)
    (World.start d) sched i
  have hparsed : ∀ ev ∈ own i (Service.runs env fastWriter d rpcs sched).log,
      Parsed env.parse ev.1 ev.2 := fun ev hev =>
    parsed_of_answers (answers_log env fastWriter d rpcs sched).1 ev ((own_sublist i _).subset hev)
  rw [hrpc] at hsteps
  have hissues : Issues env.parse (requestEdits env.parse request)
      ((Rpc.set request).handler fastWriter) :=
    (SetRpc.issues_run request).before fun _ => silent_pure _
  exact hissues.prefix_of_steps hsteps hparsed

/-- **The progress of the Set requests**: the edits accepted of a request are the first it asks
for, and all of them once it has been answered OK. -/
def Progress (env : Env D) (fastWriter : Json → String) (d : D) (rpcs : ℕ → Rpc)
    (sched : List ℕ) : Prop :=
  ∀ i request, rpcs i = .set request →
    acceptedEdits (own i (Service.runs env fastWriter d rpcs sched).log) <+:
        requestEdits env.parse request ∧
      ∀ r, (Service.runs env fastWriter d rpcs sched).procs i = .ret r → AnsweredOk r →
        acceptedEdits (own i (Service.runs env fastWriter d rpcs sched).log) =
          requestEdits env.parse request

theorem progress_of_service (env : Env D) (fastWriter : Json → String) (d : D) (rpcs : ℕ → Rpc)
    (sched : List ℕ) : Progress env fastWriter d rpcs sched :=
  fun _ _ hrpc => ⟨acceptedEdits_first hrpc, fun _ hr hok => acceptedEdits_of_ok hrpc hr hok⟩

end SysrepoGnxi
