import SysrepoGnxi.StreamProtocol

/-!
# The Conduct of an RPC on the Session

The handlers share a session and look after it alike. Whoever reads refreshes the session
right before. Whoever is refused something stops: after an exchange that fails no other
follows, but for the cancellation of a stream. And a commit is the last exchange of the Set
request that makes it.

`conduct` is the automaton of these rules, `Rpc.obeys_handler` says that every handler keeps
to it, and `conduct_of_service` is what this means for the RPCs of the service at every point
of every schedule: in particular a failure is never answered OK.
-/

open Dialogue JsonDoc

namespace SysrepoGnxi

/-! ### The rules -/

/-- The RPCs of the service by their kind. -/
inductive Rpc.Kind where
  | set
  | get
  | subscribe
deriving DecidableEq

def Rpc.kind : Rpc → Rpc.Kind
  | set _ => .set
  | get _ => .get
  | subscribe _ _ => .subscribe

/-- An exchange that fails: an exception, an xpath that selects nothing, or a document
without a node. -/
def failed : CallEvent → Bool
  | ⟨.newVal _, .error _⟩ => true
  | ⟨.setItem _ _, .error _⟩ => true
  | ⟨.deleteItem _, .error _⟩ => true
  | ⟨.commit, .error _⟩ => true
  | ⟨.refresh, .error _⟩ => true
  | ⟨.getSubtrees _, .error _⟩ => true
  | ⟨.getSubtrees _, .ok none⟩ => true
  | ⟨.parseDataMem _, .error _⟩ => true
  | ⟨.parseDataMem _, .ok []⟩ => true
  | _ => false

/-- The exchange that refreshes the session. -/
def refreshed : CallEvent := ⟨.refresh, .ok ()⟩

/-- An RPC is answered OK. -/
def AnsweredOk : Except Exn Answer → Prop
  | .ok (.set result) => ∃ response, result = .ok response
  | .ok (.get result) => ∃ response, result = .ok response
  | .ok (.subscribe status) => status.code = .OK
  | .error _ => False

/-- The calls an RPC of a kind may make. -/
def Rpc.Kind.may : Rpc.Kind → Call → Bool
  | _, .getTimeNanosec => true
  | .set, .newVal _ => true
  | .set, .setItem _ _ => true
  | .set, .deleteItem _ => true
  | .set, .parseDataMem _ => true
  | .set, .commit => true
  | .get, .refresh => true
  | .get, .getSubtrees _ => true
  | .subscribe, .refresh => true
  | .subscribe, .getSubtrees _ => true
  | .subscribe, .now => true
  | .subscribe, .write _ => true
  | .subscribe, .tryCancel => true
  | _, _ => false

/-- **The conduct of an RPC** of a kind, by its exchanges so far. -/
structure Conduct (kind : Rpc.Kind) (evs : List CallEvent) : Prop where
  calls : ∀ ev ∈ evs, kind.may ev.1 = true
  /-- A read comes right after a refresh. -/
  fresh : ∀ evs₁ xpath reply evs₂, evs = evs₁ ++ ⟨.getSubtrees xpath, reply⟩ :: evs₂ →
    evs₁.getLast? = some refreshed
  /-- After an exchange that fails comes nothing, or the cancellation of the stream. -/
  failStop : ∀ evs₁ ev evs₂, evs = evs₁ ++ ev :: evs₂ → failed ev = true →
    evs₂ = [] ∨ kind = .subscribe ∧ evs₂ = [cancelled]
  /-- Nothing comes after a commit. -/
  commitLast : ∀ evs₁ reply evs₂, evs = evs₁ ++ ⟨.commit, reply⟩ :: evs₂ → evs₂ = []

/-! ### The automaton -/

/-- Where an RPC stands. -/
inductive Stage where
  | idle
  | fresh
  | failed
  | finished
deriving DecidableEq

/-- The calls that may come in a stage: a read only after a refresh and nothing else there,
after a failure only a cancellation, and nothing in the end. -/
def Stage.ready : Stage → Call → Bool
  | idle, .getSubtrees _ => false
  | idle, _ => true
  | fresh, .getSubtrees _ => true
  | failed, .tryCancel => true
  | _, _ => false

/-- The stage after an exchange. -/
def Stage.after (ev : CallEvent) : Stage :=
  if SysrepoGnxi.failed ev then failed
  else
    match ev.1 with
    | .refresh => fresh
    | .commit => finished
    | .tryCancel => finished
    | _ => idle

/-- The protocol of an RPC of a kind. -/
def conduct (kind : Rpc.Kind) : Protocol Call Call.Reply Stage := fun q ev =>
  if kind.may ev.1 ∧ q.ready ev.1 then some (Stage.after ev) else none

theorem conduct_eq_some {kind : Rpc.Kind} {q q' : Stage} {ev : CallEvent} :
    conduct kind q ev = some q' ↔
      (kind.may ev.1 = true ∧ q.ready ev.1 = true) ∧ Stage.after ev = q' := by
  rw [conduct, Option.ite_none_right_eq_some, Option.some.injEq]

/-! ### What it says of a list of exchanges -/

section Advance

variable {kind : Rpc.Kind} {q q' : Stage} {evs : List CallEvent}

theorem after_failed {ev : CallEvent} (h : failed ev = true) : Stage.after ev = .failed :=
  if_pos h

/-- Only a refresh leads to the stage of a read. -/
theorem eq_refreshed {ev : CallEvent} (h : Stage.after ev = .fresh) : ev = refreshed := by
  obtain ⟨c, r⟩ := ev
  cases hf : failed ⟨c, r⟩ with
  | true =>
      rw [after_failed hf] at h
      cases h
  | false =>
      cases c with
      | refresh =>
          cases r with
          | ok u => rfl
          | error e => cases hf
      | _ => simp [Stage.after, hf] at h

/-- Only a commit or a cancellation leads to the last stage. -/
theorem eq_of_finished {ev : CallEvent} (h : Stage.after ev = .finished) :
    ev = committed ∨ ev = cancelled := by
  obtain ⟨c, r⟩ := ev
  cases hf : failed ⟨c, r⟩ with
  | true =>
      rw [after_failed hf] at h
      cases h
  | false =>
      cases c with
      | commit =>
          cases r with
          | ok u => exact Or.inl rfl
          | error e => cases hf
      | tryCancel => exact Or.inr rfl
      | _ => simp [Stage.after, hf] at h

theorem advance_finished (h : (conduct kind).advance .finished evs = some q) : evs = [] := by
  cases evs with
  | nil => rfl
  | cons ev evs =>
      obtain ⟨q₁, hev, -⟩ := Option.bind_eq_some_iff.mp h
      obtain ⟨⟨-, hready⟩, -⟩ := conduct_eq_some.mp hev
      cases hready

theorem advance_failed (h : (conduct kind).advance .failed evs = some q) :
    evs = [] ∨ kind = .subscribe ∧ evs = [cancelled] := by
  cases evs with
  | nil => exact Or.inl rfl
  | cons ev evs =>
      obtain ⟨q₁, hev, hrest⟩ := Option.bind_eq_some_iff.mp h
      obtain ⟨⟨hmay, hready⟩, rfl⟩ := conduct_eq_some.mp hev
      obtain ⟨c, r⟩ := ev
      cases c with
      | tryCancel =>
          refine Or.inr ⟨?_, ?_⟩
          · cases kind <;> first | rfl | cases hmay
          · rw [advance_finished hrest]
            rfl
      | _ => cases hready

/-- The last exchange before a stage. -/
theorem last_of_advance (h : (conduct kind).advance .idle evs = some q) (hq : q ≠ .idle) :
    ∃ evs₀ ev, evs = evs₀ ++ [ev] ∧ kind.may ev.1 = true ∧ Stage.after ev = q := by
  rcases List.eq_nil_or_concat evs with rfl | ⟨evs₀, ev, rfl⟩
  · exact absurd (Option.some.inj h).symm hq
  · rw [List.concat_eq_append] at h
    obtain ⟨q₁, -, hev⟩ := Protocol.advance_concat.mp h
    obtain ⟨⟨hmay, -⟩, hafter⟩ := conduct_eq_some.mp hev
    exact ⟨evs₀, ev, List.concat_eq_append, hmay, hafter⟩

/-- **What the automaton says of the exchanges of an RPC.** -/
theorem conduct_of_advance (h : (conduct kind).advance .idle evs = some q) :
    Conduct kind evs := by
  refine ⟨?_, ?_, ?_, ?_⟩
  · intro ev hev
    obtain ⟨evs₁, evs₂, rfl⟩ := List.append_of_mem hev
    obtain ⟨q₁, q₂, -, hstep, -⟩ := Protocol.advance_middle h
    exact (conduct_eq_some.mp hstep).1.1
  · rintro evs₁ xpath reply evs₂ rfl
    obtain ⟨q₁, q₂, hpre, hstep, -⟩ := Protocol.advance_middle h
    obtain ⟨⟨-, hready⟩, -⟩ := conduct_eq_some.mp hstep
    have hfresh : q₁ = .fresh := by cases q₁ <;> first | rfl | cases hready
    obtain ⟨evs₀, ev, rfl, -, hafter⟩ := last_of_advance hpre (by simp [hfresh])
    rw [List.getLast?_concat, eq_refreshed (hafter.trans hfresh)]
  · rintro evs₁ ev evs₂ rfl hf
    obtain ⟨q₁, q₂, -, hstep, hrest⟩ := Protocol.advance_middle h
    obtain ⟨-, rfl⟩ := conduct_eq_some.mp hstep
    rw [after_failed hf] at hrest
    exact advance_failed hrest
  · rintro evs₁ reply evs₂ rfl
    obtain ⟨q₁, q₂, -, hstep, hrest⟩ := Protocol.advance_middle h
    obtain ⟨⟨hmay, -⟩, rfl⟩ := conduct_eq_some.mp hstep
    cases reply with
    | ok u => exact advance_finished hrest
    | error e =>
        rcases advance_failed hrest with hnil | ⟨hkind, -⟩
        · exact hnil
        · rw [hkind] at hmay
          cases hmay

/-- An RPC past a failure is in the stage `failed` or cancelled. -/
theorem failed_of_mem {ev : CallEvent} (h : (conduct kind).advance .idle evs = some q)
    (hmem : ev ∈ evs) (hf : failed ev = true) : q = .failed ∨ cancelled ∈ evs := by
  obtain ⟨evs₁, evs₂, rfl⟩ := List.append_of_mem hmem
  rcases (conduct_of_advance h).failStop evs₁ ev evs₂ rfl hf with rfl | ⟨-, rfl⟩
  · obtain ⟨q₁, -, hstep⟩ := Protocol.advance_concat.mp h
    obtain ⟨-, hafter⟩ := conduct_eq_some.mp hstep
    exact Or.inl (hafter ▸ after_failed hf)
  · exact Or.inr (by simp)

/-- A Set request is in the last stage when it has committed. -/
theorem finished_iff_committed (h : (conduct .set).advance .idle evs = some q) :
    q = .finished ↔ committed ∈ evs := by
  constructor
  · rintro rfl
    obtain ⟨evs₀, ev, rfl, hmay, hafter⟩ := last_of_advance h (by simp)
    rcases eq_of_finished hafter with rfl | rfl
    · exact List.mem_append_right _ List.mem_cons_self
    · cases hmay
  · intro hmem
    obtain ⟨evs₁, evs₂, rfl⟩ := List.append_of_mem hmem
    obtain rfl := (conduct_of_advance h).commitLast evs₁ (.ok ()) evs₂ rfl
    obtain ⟨q₁, -, hstep⟩ := Protocol.advance_concat.mp h
    exact (conduct_eq_some.mp hstep).2.symm

end Advance

/-! ### The handlers keep to it -/

/-- A part of a handler that goes on well, or stops: where it has met with a failure, it
throws or ends with a value that is not `good`. -/
def AttemptsFrom (q : Stage) (kind : Rpc.Kind) {α : Type} (good : α → Prop) (x : Handler α) :
    Prop :=
  x.Obeys (conduct kind) q fun r q' => q' = .idle ∨ q' = .failed ∧ ∀ a, r = .ok a → ¬ good a

/-- Such a part, in a stage in which nothing is read. -/
abbrev Attempts (kind : Rpc.Kind) {α : Type} (good : α → Prop) (x : Handler α) : Prop :=
  AttemptsFrom .idle kind good x

/-- Code that ends without an exchange, and not with a `good` value. -/
def Quits {α : Type} (good : α → Prop) (x : Handler α) : Prop :=
  ∃ r, x.run = .ret r ∧ ∀ a, r = .ok a → ¬ good a

/-- Any value is good. -/
abbrev Anyhow {α : Type} (_ : α) : Prop := True

/-- A part that may end with a status ends with a value. -/
abbrev Valued {α : Type} (r : Except Status α) : Prop := ∃ a, r = .ok a

section Attempts

variable {kind : Rpc.Kind} {α β : Type} {good : α → Prop} {good' : β → Prop} {q : Stage}

theorem quits_pure {a : α} (h : ¬ good a) : Quits good (pure a) := by
  refine ⟨.ok a, rfl, ?_⟩
  rintro a' ⟨⟩
  exact h

theorem quits_throw (e : Exn) : Quits good (throw e) := ⟨.error e, rfl, by simp⟩

theorem quits_status (status : Status) : Quits (Valued (α := α)) (pure (.error status)) :=
  quits_pure (by simp)

theorem attempts_pure (a : α) : Attempts kind good (pure a) := Throwing.obeys_pure (Or.inl rfl)

theorem attempts_throw (e : Exn) : Attempts kind good (throw e : Handler α) :=
  Throwing.obeys_throw (Or.inl rfl)

theorem attempts_ask {c : Call} {h : c.Reply → Except Exn α} (hmay : kind.may c = true)
    (hready : q.ready c = true)
    (hreply : ∀ r, Stage.after ⟨c, r⟩ = .idle ∨
      Stage.after ⟨c, r⟩ = .failed ∧ ∀ a, h r = .ok a → ¬ good a) :
    AttemptsFrom q kind good (Throwing.ask c h) :=
  Throwing.obeys_ask fun r => ⟨_, conduct_eq_some.mpr ⟨⟨hmay, hready⟩, rfl⟩, hreply r⟩

/-- **Sequencing**: what comes after a failure quits. -/
theorem AttemptsFrom.bind {x : Handler α} {f : α → Handler β} (hx : AttemptsFrom q kind good x)
    (hf : ∀ a, Attempts kind good' (f a)) (hquits : ∀ a, ¬ good a → Quits good' (f a)) :
    AttemptsFrom q kind good' (x >>= f) := by
  refine Throwing.Obeys.bind hx ?_ ?_
  · rintro a q (rfl | ⟨rfl, hbad⟩)
    · exact hf a
    · obtain ⟨r, hr, hr'⟩ := hquits a (hbad a rfl)
      change Follows (conduct kind) _ (f a).run _
      rw [hr]
      exact Or.inr ⟨rfl, hr'⟩
  · rintro e q (rfl | ⟨rfl, -⟩)
    · exact Or.inl rfl
    · exact Or.inr ⟨rfl, by simp⟩

/-- Sequencing after a part that throws where it meets with a failure. -/
theorem AttemptsFrom.andThen {x : Handler α} {f : α → Handler β} (hx : AttemptsFrom q kind Anyhow x)
    (hf : ∀ a, Attempts kind good' (f a)) : AttemptsFrom q kind good' (x >>= f) :=
  hx.bind hf fun _ h => absurd trivial h

/-- An exception that is caught was a failure, maybe. -/
theorem AttemptsFrom.observe {x : Handler α} (hx : AttemptsFrom q kind Anyhow x) :
    AttemptsFrom q kind (fun r : Except Exn α => ∃ a, r = .ok a) (Throwing.observe x) := by
  refine Throwing.Obeys.observe (Follows.mono ?_ hx)
  rintro r q (hq | ⟨hq, hbad⟩)
  · exact Or.inl hq
  · refine Or.inr ⟨hq, ?_⟩
    rintro _ ⟨⟩ ⟨a, rfl⟩
    exact hbad a rfl trivial

/-- Exceptions that are thrown on, whatever they become, and values passed on. -/
theorem AttemptsFrom.rethrow {x : Handler Unit} {f : Except Exn Unit → Handler Unit}
    (hx : AttemptsFrom q kind Anyhow x) (hok : f (.ok ()) = pure ())
    (hexn : ∀ e, ∃ e', f (.error e) = throw e') :
    AttemptsFrom q kind Anyhow (Throwing.observe x >>= f) := by
  refine hx.observe.bind ?_ ?_
  · rintro (e | u)
    · obtain ⟨e', he'⟩ := hexn e
      rw [he']
      exact attempts_throw e'
    · rw [hok]
      exact attempts_pure ()
  · rintro (e | u) hbad
    · obtain ⟨e', he'⟩ := hexn e
      rw [he']
      exact quits_throw e'
    · exact absurd ⟨(), rfl⟩ hbad

end Attempts

/-- A call that fails if and only if it throws. -/
theorem attempts_call {kind : Rpc.Kind} {α : Type} {c : Call} {h : c.Reply → Except Exn α}
    (hmay : kind.may c = true) (hready : Stage.idle.ready c = true)
    (hreply : ∀ r, Stage.after ⟨c, r⟩ = .idle ∨
      Stage.after ⟨c, r⟩ = .failed ∧ ∃ e, h r = .error e) :
    Attempts kind Anyhow (Throwing.ask c h) := by
  refine attempts_ask hmay hready fun r => (hreply r).imp_right ?_
  rintro ⟨hfail, e, he⟩
  exact ⟨hfail, by simp [he]⟩

theorem attempts_newVal (v : Val) : Attempts .set Anyhow (newVal v) := by
  refine attempts_call rfl rfl ?_
  rintro (e | u)
  · exact Or.inr ⟨rfl, e, rfl⟩
  · exact Or.inl rfl

theorem attempts_setItem (path : ItemPath) (val : Option Val) :
    Attempts .set Anyhow (setItem path val) := by
  refine attempts_call rfl rfl ?_
  rintro (e | u)
  · exact Or.inr ⟨rfl, e, rfl⟩
  · exact Or.inl rfl

theorem attempts_deleteItem (xpath : String) : Attempts .set Anyhow (deleteItem xpath) := by
  refine attempts_call rfl rfl ?_
  rintro (e | u)
  · exact Or.inr ⟨rfl, e, rfl⟩
  · exact Or.inl rfl

/-- `store_tree` stops at a failure. -/
theorem storeRules_attempts : StoreRules fun _ x => Attempts .set Anyhow x where
  pure a := attempts_pure a
  bind hx hf := hx.andThen hf
  invalid _ := attempts_throw _
  newVal v := attempts_newVal v
  setItem path val := attempts_setItem path val
  catchString hx := by
    refine hx.rethrow rfl fun e => ?_
    cases e <;> exact ⟨_, rfl⟩

/-- A document without a node counts as a failure: the null pointer is followed. -/
theorem attempts_jsonUpdate (data : String) : Attempts .set Anyhow (jsonUpdate data) := by
  have hparse : Attempts .set (· ≠ []) (parseDataMem (cStr data)) := by
    refine attempts_ask rfl rfl ?_
    rintro (e | ⟨_ | ⟨node, rest⟩⟩)
    · exact Or.inr ⟨rfl, by simp⟩
    · exact Or.inr ⟨rfl, by simp⟩
    · exact Or.inl rfl
  refine hparse.bind ?_ ?_
  · rintro (_ | ⟨node, rest⟩)
    · exact attempts_throw _
    · exact storeRules_attempts.storeNodes _
  · rintro (_ | ⟨node, rest⟩) hbad
    · exact quits_throw _
    · exact absurd (by simp) hbad

namespace SetRpc

theorem attempts_rethrowInvalid {x : Handler Unit} (hx : Attempts .set Anyhow x) :
    Attempts .set Anyhow (rethrowInvalid x) := by
  refine hx.rethrow rfl fun e => ?_
  cases e <;> exact ⟨_, rfl⟩

theorem attempts_storeValue (fullpath : String) (reqval : TypedValue) :
    Attempts .set Anyhow (storeValue fullpath reqval) := by
  cases reqval <;> first
    | exact storeRules_attempts.setVal _ _
    | exact attempts_rethrowInvalid (attempts_jsonUpdate _)
    | exact attempts_throw _

theorem attempts_handleUpdate (upd : Update) (out : UpdateResult) (pfx : String) :
    Attempts .set Anyhow (handleUpdate upd out pfx) := by
  obtain ⟨path, val⟩ := upd
  cases path with
  | none => exact attempts_pure _
  | some path =>
      cases val with
      | none => exact attempts_pure _
      | some reqval => exact (attempts_storeValue _ _).andThen fun _ => attempts_pure _

/-- Induction on the paths: the status of the first that fails ends the loop. -/
theorem attempts_deleteLoop (pfx : String) (paths : List Path) (response : SetResponse) :
    Attempts .set Valued (deleteLoop pfx paths response) := by
  induction paths generalizing response with
  | nil => exact attempts_pure _
  | cons delpath rest ih =>
      refine (attempts_deleteItem _).observe.bind ?_ ?_
      · rintro (e | u)
        · cases e <;> first | exact attempts_pure _ | exact attempts_throw _
        · exact ih _
      · rintro (e | u) hbad
        · cases e <;> first | exact quits_status _ | exact quits_throw _
        · exact absurd ⟨u, rfl⟩ hbad

theorem attempts_updateLoop (op : Operation) (clauses : Exn → Option Status) (pfx : String)
    (upds : List Update) (response : SetResponse) :
    Attempts .set Valued (updateLoop op clauses pfx upds response) := by
  induction upds generalizing response with
  | nil => exact attempts_pure _
  | cons upd rest ih =>
      refine (attempts_handleUpdate upd {} pfx).observe.bind ?_ ?_
      · rintro (e | ⟨code, res⟩)
        · dsimp only
          cases clauses e with
          | none => exact attempts_throw _
          | some status => exact attempts_pure _
        · exact ih _
      · rintro (e | ⟨code, res⟩) hbad
        · dsimp only
          cases clauses e with
          | none => exact quits_throw _
          | some status => exact quits_status _
        · exact absurd ⟨_, rfl⟩ hbad

theorem attempts_andThen {x : Handler (Except Status SetResponse)}
    {f : SetResponse → Handler (Except Status SetResponse)} (hx : Attempts .set Valued x)
    (hf : ∀ response, Attempts .set Valued (f response)) :
    Attempts .set Valued (andThen x f) := by
  refine hx.bind ?_ ?_
  · rintro (status | response)
    · exact attempts_pure _
    · exact hf response
  · rintro (status | response) hbad
    · exact quits_status status
    · exact absurd ⟨response, rfl⟩ hbad

theorem attempts_items (request : SetRequest) (response : SetResponse) :
    Attempts .set Valued (items request response) :=
  attempts_andThen (attempts_deleteLoop _ _ _) fun _ =>
    attempts_andThen (attempts_updateLoop _ _ _ _ _) fun _ => attempts_updateLoop _ _ _ _ _

/-- The end of a Set request: with its response if and only if it has committed. -/
structure Settled (r : Except Exn (Except Status SetResponse)) (q : Stage) : Prop where
  eq : q = .finished ↔ ∃ response, r = .ok (.ok response)

theorem settled_status {q : Stage} (hq : q ≠ .finished) (status : Status) :
    Settled (.ok (.error status)) q :=
  ⟨by simp [hq]⟩

theorem settled_error {q : Stage} (hq : q ≠ .finished) (e : Exn) : Settled (.error e) q :=
  ⟨by simp [hq]⟩

theorem obeys_commitAll (response : SetResponse) :
    (commitAll response).Obeys (conduct .set) .idle Settled := by
  refine Throwing.Obeys.bind
    (m := fun r q => r = .ok (.ok ()) ∧ q = .finished ∨ (∃ e, r = .ok (.error e)) ∧ q = .failed)
    (Throwing.Obeys.observe (Throwing.obeys_ask ?_)) ?_ ?_
  · rintro (e | u)
    · exact ⟨.failed, rfl, Or.inr ⟨⟨e, rfl⟩, rfl⟩⟩
    · exact ⟨.finished, rfl, Or.inl ⟨rfl, rfl⟩⟩
  · rintro o q (⟨⟨⟩, rfl⟩ | ⟨⟨e, ⟨⟩⟩, rfl⟩)
    · exact Throwing.obeys_pure ⟨by simp⟩
    · dsimp only
      cases e.isStdException with
      | some what => exact Throwing.obeys_pure (settled_status (by simp) _)
      | none => exact Throwing.obeys_throw (settled_error (by simp) e)
  · rintro e q (⟨⟨⟩, -⟩ | ⟨⟨e', ⟨⟩⟩, -⟩)

/-- **A Set request commits if and only if it ends with its response.** -/
theorem obeys_run (request : SetRequest) :
    (run request).Obeys (conduct .set) .idle Settled := by
  rw [run]
  split_ifs
  · exact Throwing.obeys_pure (settled_status (by simp) _)
  · refine Throwing.Obeys.bind (m := fun r q => (∃ t, r = .ok t) ∧ q = .idle)
      (Throwing.obeys_ask fun t => ⟨.idle, rfl, ⟨t, rfl⟩, rfl⟩) ?_ ?_
    · rintro t q ⟨-, rfl⟩
      refine Throwing.Obeys.bind (attempts_items request _) ?_ ?_
      · rintro (status | response) q (rfl | ⟨rfl, hbad⟩)
        · exact Throwing.obeys_pure (settled_status (by simp) status)
        · exact Throwing.obeys_pure (settled_status (by simp) status)
        · exact obeys_commitAll response
        · exact absurd ⟨response, rfl⟩ (hbad _ rfl)
      · rintro e q (rfl | ⟨rfl, -⟩) <;> exact settled_error (by simp) e
    · rintro e q ⟨⟨t, ⟨⟩⟩, -⟩

end SetRpc

/-! ### Reading -/

section Reading

variable {kind : Rpc.Kind} {fastWriter : Json → String}

/-- An xpath that selects nothing counts as a failure: it throws. -/
theorem attempts_jsonRead (hkind : kind ≠ .set) (xpath : String) :
    AttemptsFrom .fresh kind Anyhow (jsonRead fastWriter xpath) := by
  have hget : AttemptsFrom .fresh kind (· ≠ none) (getSubtrees (cStr xpath)) := by
    refine attempts_ask (by cases kind <;> first | rfl | exact absurd rfl hkind) rfl ?_
    rintro (e | _ | trees)
    · exact Or.inr ⟨rfl, by simp⟩
    · exact Or.inr ⟨rfl, by simp⟩
    · exact Or.inl rfl
  refine hget.bind ?_ ?_
  · rintro (_ | trees)
    · exact attempts_throw _
    · dsimp only
      cases readTrees fastWriter {} trees with
      | ok vec => exact attempts_pure vec
      | error e => exact attempts_throw e
  · rintro (_ | trees) hbad
    · exact quits_throw _
    · exact absurd (by simp) hbad

theorem attempts_readUpdates (hkind : kind ≠ .set) (path : Path) (fullpath : String)
    (updateList : List Update) :
    AttemptsFrom .fresh kind Valued (readUpdates fastWriter path fullpath updateList) := by
  refine (attempts_jsonRead hkind fullpath).observe.bind ?_ ?_
  · rintro (e | jsonVec)
    · dsimp only
      cases catchRead e with
      | none => exact attempts_throw e
      | some status => exact attempts_pure _
    · dsimp only
      cases treeUpdates path jsonVec updateList with
      | ok us => exact attempts_pure _
      | error e => exact attempts_throw e
  · rintro (e | jsonVec) hbad
    · dsimp only
      cases catchRead e with
      | none => exact quits_throw e
      | some status => exact quits_status status
    · exact absurd ⟨jsonVec, rfl⟩ hbad

/-- **A read and the refresh before it.** -/
theorem attempts_refreshed (hkind : kind ≠ .set) (path : Path) (fullpath : String)
    (updateList : List Update) :
    Attempts kind Valued
      (refresh >>= fun _ => readUpdates fastWriter path fullpath updateList) := by
  have hmay : kind.may .refresh = true := by
    cases kind <;> first | rfl | exact absurd rfl hkind
  refine Throwing.Obeys.bind
    (m := fun r q => r = .ok () ∧ q = .fresh ∨ (∃ e, r = .error e) ∧ q = .failed)
    (Throwing.obeys_ask ?_) ?_ ?_
  · rintro (e | u)
    · exact ⟨.failed, conduct_eq_some.mpr ⟨⟨hmay, rfl⟩, rfl⟩, Or.inr ⟨⟨e, rfl⟩, rfl⟩⟩
    · exact ⟨.fresh, conduct_eq_some.mpr ⟨⟨hmay, rfl⟩, rfl⟩, Or.inl ⟨rfl, rfl⟩⟩
  · rintro u q (⟨-, rfl⟩ | ⟨⟨e, ⟨⟩⟩, -⟩)
    exact attempts_readUpdates hkind path fullpath updateList
  · rintro e q (⟨⟨⟩, -⟩ | ⟨-, rfl⟩)
    exact Or.inr ⟨rfl, by simp⟩

theorem attempts_getTimeNanosec : Attempts kind Anyhow getTimeNanosec :=
  attempts_ask (by cases kind <;> rfl) rfl fun _ => Or.inl rfl

/-- What comes after a part that may end with a status. -/
theorem AttemptsFrom.unlessStatus {α β : Type} {q : Stage} {x : Handler (Except Status α)}
    {f : Except Status α → Handler (Except Status β)} (hx : AttemptsFrom q kind Valued x)
    (hstatus : ∀ status, f (.error status) = pure (.error status))
    (hf : ∀ a, Attempts kind Valued (f (.ok a))) :
    AttemptsFrom q kind Valued (x >>= f) := by
  refine hx.bind ?_ ?_
  · rintro (status | a)
    · rw [hstatus]
      exact attempts_pure _
    · exact hf a
  · rintro (status | a) hbad
    · rw [hstatus]
      exact quits_status status
    · exact absurd ⟨a, rfl⟩ hbad

end Reading

namespace GetRpc

variable {fastWriter : Json → String} {encoding : Encoding}

theorem attempts_buildGetNotification (hencoding : encoding = .JSON ∨ encoding = .JSON_IETF)
    (pfx : Option Path) (path : Path) :
    Attempts .get Valued (buildGetNotification fastWriter pfx path encoding) := by
  have hbuild (fullpath : String) :
      Attempts .get Valued (buildGetUpdate fastWriter path fullpath encoding) := by
    obtain rfl | rfl := hencoding
    · exact attempts_refreshed (by simp) path fullpath []
    · exact attempts_refreshed (by simp) path fullpath []
  refine attempts_getTimeNanosec.andThen fun timestamp => ?_
  exact (hbuild _).unlessStatus (fun _ => rfl) fun us => attempts_pure _

theorem attempts_pathLoop (hencoding : encoding = .JSON ∨ encoding = .JSON_IETF)
    (pfx : Option Path) (paths : List Path) (notifications : List Notification) :
    Attempts .get Valued (pathLoop fastWriter pfx encoding paths notifications) := by
  induction paths generalizing notifications with
  | nil => exact attempts_pure _
  | cons path rest ih =>
      exact (attempts_buildGetNotification hencoding pfx path).unlessStatus (fun _ => rfl)
        fun n => ih _

/-- **Get**: only the encodings that are read pass the check. -/
theorem attempts_run (req : GetRequest) : Attempts .get Valued (run fastWriter req) := by
  rw [run]
  cases hverify : verifyGetRequest req with
  | some status => exact attempts_pure _
  | none =>
      refine attempts_pathLoop ?_ req.pfx req.path []
      by_contra hnot
      rw [not_or] at hnot
      rw [verifyGetRequest, if_pos hnot] at hverify
      cases hverify

end GetRpc

namespace SubscribeRpc

variable {fastWriter : Json → String}

theorem attempts_subscriptionLoop {encoding : Encoding}
    (hencoding : encoding = .JSON ∨ encoding = .JSON_IETF) (subs : List Subscription)
    (updateList : List Update) :
    Attempts .subscribe Valued (subscriptionLoop fastWriter encoding subs updateList) := by
  induction subs generalizing updateList with
  | nil => exact attempts_pure _
  | cons sub rest ih =>
      refine AttemptsFrom.unlessStatus ?_ (fun _ => rfl) fun us => ih us
      obtain rfl | rfl := hencoding
      · exact attempts_refreshed (by simp) _ _ _
      · exact attempts_refreshed (by simp) _ _ _

theorem attempts_buildSubscribeNotification (request : SubscriptionList) :
    Attempts .subscribe Valued (buildSubscribeNotification fastWriter request) := by
  rw [buildSubscribeNotification]
  cases hverify : verifyList request with
  | some status => exact attempts_pure _
  | none =>
      refine attempts_getTimeNanosec.andThen fun timestamp => ?_
      exact (attempts_subscriptionLoop (encoding_of_verifyList hverify) _ _).unlessStatus
        (fun _ => rfl) fun us => attempts_pure _

/-- A Subscribe handler from here on: where it ends with a status it has not failed, or it
has cancelled. -/
def Closes (q : Stage) (p : Handler Status) : Prop :=
  p.Obeys (conduct .subscribe) q fun r q' => ∀ status, r = .ok status → q' ≠ .failed

theorem closes_pure (status : Status) : Closes .idle (pure status) :=
  Throwing.obeys_pure fun _ _ => by simp

theorem closes_tryCancel {q : Stage} (hq : q = .idle ∨ q = .failed) (status : Status) :
    Closes q (tryCancel >>= fun _ => pure status) := by
  have hready : q.ready .tryCancel = true := by
    obtain rfl | rfl := hq <;> rfl
  refine Throwing.Obeys.bind (m := fun r q' => (∃ u, r = .ok u) ∧ q' = .finished)
    (Throwing.obeys_ask fun u => ⟨_, conduct_eq_some.mpr ⟨⟨rfl, hready⟩, rfl⟩, ⟨u, rfl⟩, rfl⟩) ?_ ?_
  · rintro u q' ⟨-, rfl⟩
    exact Throwing.obeys_pure fun _ _ => by simp
  · rintro e q' ⟨⟨u, ⟨⟩⟩, -⟩

theorem Closes.after {α : Type} {x : Handler α} {f : α → Handler Status}
    (hx : Attempts .subscribe Anyhow x) (hf : ∀ a, Closes .idle (f a)) :
    Closes .idle (x >>= f) := by
  refine Throwing.Obeys.bind hx ?_ ?_
  · rintro a q (rfl | ⟨rfl, hbad⟩)
    · exact hf a
    · exact absurd trivial (hbad a rfl)
  · rintro e q - status ⟨⟩

theorem attempts_now : Attempts .subscribe Anyhow now :=
  attempts_ask rfl rfl fun _ => Or.inl rfl

theorem attempts_write (response : SubscribeResponse) :
    Attempts .subscribe Anyhow (write response) :=
  attempts_ask rfl rfl fun _ => Or.inl rfl

/-- **`notify` and the rest of a handler.** -/
theorem closes_notify (request : SubscriptionList) {p : Handler Status} (hp : Closes .idle p) :
    Closes .idle (notify fastWriter request >>= fun
      | some status => pure status
      | none => p) := by
  rw [notify, bind_assoc]
  refine Throwing.Obeys.bind (attempts_buildSubscribeNotification request) ?_ ?_
  · rintro (status | n) q hq
    · dsimp only
      rw [bind_assoc]
      exact closes_tryCancel (hq.imp_right And.left) status
    · obtain rfl | ⟨rfl, hbad⟩ := hq
      · dsimp only
        rw [bind_assoc]
        exact Closes.after (attempts_write _) fun _ => hp
      · exact absurd ⟨n, rfl⟩ (hbad _ rfl)
  · rintro e q - status ⟨⟩

theorem attempts_startSamples (subs : List Subscription) :
    Attempts .subscribe Anyhow (startSamples subs) := by
  induction subs with
  | nil => exact attempts_pure _
  | cons sub rest ih =>
      rw [startSamples]
      cases sub.mode with
      | SAMPLE => exact attempts_now.andThen fun _ => ih.andThen fun _ => attempts_pure _
      | _ => exact ih

theorem attempts_dueSamples (chronomap : List (Subscription × TimePoint)) :
    Attempts .subscribe Anyhow (dueSamples chronomap) := by
  induction chronomap with
  | nil => exact attempts_pure _
  | cons entry rest ih =>
      obtain ⟨sub, last⟩ := entry
      refine attempts_now.andThen fun t => ?_
      split_ifs
      · exact attempts_now.andThen fun _ => ih.andThen fun _ => attempts_pure _
      · exact ih.andThen fun _ => attempts_pure _

theorem closes_sampleLoop (request : SubscriptionList) (cycles : ℕ)
    (chronomap : List (Subscription × TimePoint)) :
    Closes .idle (sampleLoop fastWriter request cycles chronomap) := by
  induction cycles generalizing chronomap with
  | zero => exact closes_pure _
  | succ cycles ih =>
      refine Closes.after attempts_now fun _ => ?_
      refine Closes.after (attempts_dueSamples chronomap) ?_
      rintro ⟨chronomap', due⟩
      have hrest : Closes .idle
          (now >>= fun _ => sampleLoop fastWriter request cycles chronomap') :=
        Closes.after attempts_now fun _ => ih chronomap'
      dsimp only
      rw [notifyDue]
      split_ifs
      · exact closes_notify _ hrest
      · exact hrest

theorem closes_handlePoll (subscription : SubscriptionList) (messages : List SubscribeRequest) :
    Closes .idle (handlePoll fastWriter subscription messages) := by
  induction messages with
  | nil => exact closes_pure _
  | cons request rest ih =>
      rw [handlePoll]
      cases request.request with
      | poll => exact closes_notify subscription ih
      | _ => exact closes_pure _

theorem closes_handleStream (request : SubscriptionList) (cycles : ℕ) :
    Closes .idle (handleStream fastWriter request cycles) := by
  rw [handleStream]
  split_ifs
  · exact closes_tryCancel (Or.inl rfl) _
  · refine closes_notify request (Closes.after (attempts_write _) fun _ => ?_)
    exact Closes.after (attempts_startSamples _) fun chronomap =>
      closes_sampleLoop request cycles chronomap

theorem closes_run (messages : List SubscribeRequest) (cycles : ℕ) :
    Closes .idle (run fastWriter messages cycles) := by
  rw [run]
  split_ifs
  · exact closes_pure _
  · cases (messages.headD {}).request with
    | subscribe list =>
        dsimp only
        cases list.mode with
        | STREAM => exact closes_handleStream list cycles
        | ONCE => exact closes_notify list (Closes.after (attempts_write _) fun _ => closes_pure _)
        | POLL => exact closes_handlePoll list _
        | other n => exact closes_pure _
    | _ => exact closes_tryCancel (Or.inl rfl) _

end SubscribeRpc

/-! ### The RPCs of the service -/

/-- How an RPC ends: with OK it has not failed, and a Set request has committed with OK and
only then. -/
def Verdict (kind : Rpc.Kind) (r : Except Exn Answer) (q : Stage) : Prop :=
  (AnsweredOk r → q ≠ .failed) ∧ (kind = .set → (AnsweredOk r ↔ q = .finished))

/-- **Every handler keeps to the rules of its kind.** -/
theorem Rpc.obeys_handler (fastWriter : Json → String) (rpc : Rpc) :
    (rpc.handler fastWriter).Obeys (conduct rpc.kind) .idle (Verdict rpc.kind) := by
  cases rpc with
  | set request =>
      refine Throwing.Obeys.bind (SetRpc.obeys_run request) ?_ ?_
      · rintro result q ⟨hq⟩
        have hok : AnsweredOk (.ok (.set result)) ↔ q = .finished := by
          simp [AnsweredOk, hq]
        refine Throwing.obeys_pure ⟨fun h => ?_, fun _ => hok⟩
        rw [hok.mp h]
        simp
      · rintro e q ⟨hq⟩
        have hne : q ≠ .finished := by simp [hq]
        exact ⟨fun h => h.elim, fun _ => ⟨fun h => h.elim, fun h => absurd h hne⟩⟩
  | get request =>
      refine Throwing.Obeys.bind (GetRpc.attempts_run request) ?_ ?_
      · rintro result q (rfl | ⟨rfl, hbad⟩)
        · exact Throwing.obeys_pure ⟨fun _ => by simp, by simp [Rpc.kind]⟩
        · exact Throwing.obeys_pure ⟨fun h => absurd h (hbad result rfl), by simp [Rpc.kind]⟩
      · exact fun e q _ => ⟨fun h => h.elim, by simp [Rpc.kind]⟩
  | subscribe messages cycles =>
      refine Throwing.Obeys.bind (SubscribeRpc.closes_run messages cycles) ?_ ?_
      · exact fun status q hq => Throwing.obeys_pure ⟨fun _ => hq status rfl, by simp [Rpc.kind]⟩
      · exact fun e q _ => ⟨fun h => h.elim, by simp [Rpc.kind]⟩

variable {D : Type}

/-- An RPC that has cancelled is not answered OK. -/
theorem not_answeredOk_of_cancelled {env : Env D} {fastWriter : Json → String} {d : D}
    {rpcs : ℕ → Rpc} {sched : List ℕ} {i : ℕ} {r : Except Exn Answer}
    (hmay : (rpcs i).kind.may .tryCancel = true)
    (hr : (Service.runs env fastWriter d rpcs sched).procs i = .ret r)
    (hmem : cancelled ∈ own i (Service.runs env fastWriter d rpcs sched).log) :
    ¬ AnsweredOk r := by
  cases hrpc : rpcs i with
  | subscribe messages cycles =>
      have hend := streamEnd_of_ended hrpc hr
      cases r with
      | error e => exact id
      | ok answer =>
          cases answer with
          | subscribe status => exact hend.1 hmem
          | _ => exact hend.elim
  | _ =>
      rw [hrpc] at hmay
      cases hmay

/-- The stage of an RPC of the service. -/
theorem exists_stage (env : Env D) (fastWriter : Json → String) (d : D) (rpcs : ℕ → Rpc)
    (sched : List ℕ) (i : ℕ) :
    ∃ q, (conduct (rpcs i).kind).advance .idle
        (own i (Service.runs env fastWriter d rpcs sched).log) = some q ∧
      ∀ r, (Service.runs env fastWriter d rpcs sched).procs i = .ret r →
        Verdict (rpcs i).kind r q := by
  obtain ⟨q, hadvance, hrest⟩ := Pool.follows (serve env)
    (fun i => ((rpcs i).handler fastWriter).run) (World.start d) sched
    (Rpc.obeys_handler fastWriter (rpcs i))
  refine ⟨q, hadvance, fun r hr => ?_⟩
  rwa [show (Pool.runs (serve env) (Pool.start (fun i => ((rpcs i).handler fastWriter).run)
    (World.start d)) sched).procs i = .ret r from hr] at hrest

/-- An RPC of the service keeps to the rules of its kind. -/
theorem conduct_own (env : Env D) (fastWriter : Json → String) (d : D) (rpcs : ℕ → Rpc)
    (sched : List ℕ) (i : ℕ) :
    Conduct (rpcs i).kind (own i (Service.runs env fastWriter d rpcs sched).log) := by
  obtain ⟨q, hadvance, -⟩ := exists_stage env fastWriter d rpcs sched i
  exact conduct_of_advance hadvance

/-- A Set request is answered OK if and only if it has committed. -/
theorem answeredOk_iff_committed {env : Env D} {fastWriter : Json → String} {d : D}
    {rpcs : ℕ → Rpc} {sched : List ℕ} {i : ℕ} {r : Except Exn Answer}
    (hkind : (rpcs i).kind = .set)
    (hr : (Service.runs env fastWriter d rpcs sched).procs i = .ret r) :
    AnsweredOk r ↔ committed ∈ own i (Service.runs env fastWriter d rpcs sched).log := by
  obtain ⟨q, hadvance, hverdict⟩ := exists_stage env fastWriter d rpcs sched i
  rw [(hverdict r hr).2 hkind]
  rw [hkind] at hadvance
  exact finished_iff_committed hadvance

/-- What is answered OK has met with no failure. -/
theorem not_failed_of_answeredOk {env : Env D} {fastWriter : Json → String} {d : D}
    {rpcs : ℕ → Rpc} {sched : List ℕ} {i : ℕ} {r : Except Exn Answer}
    (hr : (Service.runs env fastWriter d rpcs sched).procs i = .ret r) (hok : AnsweredOk r)
    {ev : CallEvent} (hev : ev ∈ own i (Service.runs env fastWriter d rpcs sched).log) :
    failed ev = false := by
  obtain ⟨q, hadvance, hverdict⟩ := exists_stage env fastWriter d rpcs sched i
  by_contra hf
  rcases failed_of_mem hadvance hev (by simpa using hf) with hq | hcancel
  · exact (hverdict r hr).1 hok hq
  · have hmay := (conduct_of_advance hadvance).calls cancelled hcancel
    exact not_answeredOk_of_cancelled hmay hr hcancel hok

/-- **The conduct of the RPCs of the service**, at every point of every schedule. One that is
answered OK has met with no failure, and a Set request is answered OK if and only if it has
committed. -/
theorem conduct_of_service (env : Env D) (fastWriter : Json → String) (d : D) (rpcs : ℕ → Rpc)
    (sched : List ℕ) (i : ℕ) :
    Conduct (rpcs i).kind (own i (Service.runs env fastWriter d rpcs sched).log) ∧
      ∀ r, (Service.runs env fastWriter d rpcs sched).procs i = .ret r →
        (AnsweredOk r → ∀ ev ∈ own i (Service.runs env fastWriter d rpcs sched).log,
          failed ev = false) ∧
        ((rpcs i).kind = .set →
          (AnsweredOk r ↔
            committed ∈ own i (Service.runs env fastWriter d rpcs sched).log)) := by
  refine ⟨conduct_own env fastWriter d rpcs sched i, fun r hr => ⟨?_, ?_⟩⟩
  · exact fun hok ev hev => not_failed_of_answeredOk hr hok hev
  · exact fun hkind => answeredOk_iff_committed hkind hr

end SysrepoGnxi
