import Mathlib.Algebra.Ring.Nat
import Mathlib.Data.List.TakeWhile
import SysrepoGnxi.Lib.Dialogue
import SysrepoGnxi.Proto

/-!
# The Session with sysrepo

Every handler works on one shared sysrepo session (`sr_sess` of `GNMIService`) and one
shared libyang context. This module gives the data the handlers exchange with them, the
calls they make (`Call`), and the environment that answers (`serve`).

The session is what the handlers rely on of sysrepo: `set_item` and `delete_item` append to
the edits pending on the session, a successful commit publishes all of them and clears
them, a failed call changes nothing, `refresh` keeps them, and a read sees them. What an
edit does to a datastore, and what a read selects in it, is a parameter (`Sysrepo`). Which
call fails, and with which exception, is up to the environment too.
-/

open Dialogue

namespace SysrepoGnxi

/-- A C++ exception, as far as the catch clauses of the handlers tell them apart. The
last constructor is a null pointer used as if it were none: no exception, and nothing
catches it. -/
inductive Exn where
  | invalidArgument (what : String)
  | runtimeError (what : String)
  /-- `sysrepo_exception`, which derives from `runtime_error`. -/
  | sysrepoException (what : String)
  /-- Any other `std::exception`. -/
  | exception (what : String)
  /-- A thrown `std::string`, which is no `std::exception`. -/
  | stdString (s : String)
  | nullPointer
deriving DecidableEq

namespace Exn

/-- Caught by `catch (const exception &)`, with the text of `what()`. -/
def isStdException : Exn → Option String
  | invalidArgument what => some what
  | runtimeError what => some what
  | sysrepoException what => some what
  | exception what => some what
  | stdString _ => none
  | nullPointer => none

/-- Caught by `catch (runtime_error &)`. -/
def isRuntimeError : Exn → Option String
  | runtimeError what => some what
  | sysrepoException what => some what
  | _ => none

/-- Caught by `catch (const invalid_argument &)`. -/
def isInvalidArgument : Exn → Option String
  | invalidArgument what => some what
  | _ => none

/-- Caught by `catch (const sysrepo_exception &)`. -/
def isSysrepoException : Exn → Option String
  | sysrepoException what => some what
  | _ => none

end Exn

/-! ### Data -/

/-- `sr_val_t`: the type of a sysrepo node and the payload of a leaf. -/
inductive Val where
  | unknown
  | treeIterator
  | list
  | container
  | containerPresence
  | leafEmpty
  | notification
  | binary (s : String)
  | bits (s : String)
  | bool (b : Bool)
  | decimal64 (x : Double)
  | enumeration (s : String)
  | identityref (s : String)
  | instanceid (s : String)
  | int8 (n : Int8)
  | int16 (n : Int16)
  | int32 (n : Int32)
  | int64 (n : Int64)
  | string (s : String)
  | uint8 (n : UInt8)
  | uint16 (n : UInt16)
  | uint32 (n : UInt32)
  | uint64 (n : UInt64)
  | anyxml
  | anydata
deriving DecidableEq

/-- A sysrepo tree, as `get_subtrees` returns it: the module and name of a node, its
value, and its children, `first_child` to last. -/
inductive Tree where
  | node (module name : String) (data : Val) (children : List Tree)

namespace Tree

/-- `name()`. -/
def name : Tree → String
  | node _ name _ _ => name

/-- `data()`; its constructor is `type()`. -/
def data : Tree → Val
  | node _ _ data _ => data

/-- The children, which `first_child()` and `next()` run through. -/
def children : Tree → List Tree
  | node _ _ _ children => children

end Tree

/-- A name qualified by the module that defines it. -/
structure QName where
  module : String
  name : String
deriving DecidableEq

/-- One step of the path of a data node: the kind and name of the schema node and, for a
list instance, its keys; an entry of a leaf-list is told apart by its value. -/
inductive RefStep where
  | container (name : QName) (presence : Bool)
  | list (name : QName) (keys : List (String × Val))
  | leaf (name : QName)
  | leaflist (name : QName) (value : Val)
  | other (name : QName)
deriving DecidableEq

/-- The data node that libyang's `path()` names, step by step from the root. -/
abbrev NodeRef : Type := List RefStep

/-- The `xpath` argument of `set_item`: a string made from a gNMI path, or the path
libyang gives of one of its nodes. -/
inductive ItemPath where
  | xpath (s : String)
  | dataNode (ref : NodeRef)
deriving DecidableEq

/-- An edit pending on the session. -/
inductive Edit where
  | set (path : ItemPath) (val : Option Val)
  | delete (xpath : String)
deriving DecidableEq

/-- `value_type()` and `value()` of a libyang leaf. A leafref carries the leaf it refers
to: its path, whether it is a key, its value. -/
inductive LyValue where
  | binary (s : String)
  | string (s : String)
  | bln (b : Bool)
  | dec64 (fractionDigits : ℕ) (digits : Int64)
  | int8 (n : Int8)
  | uint8 (n : UInt8)
  | int16 (n : Int16)
  | uint16 (n : UInt16)
  | int32 (n : Int32)
  | uint32 (n : UInt32)
  | int64 (n : Int64)
  | uint64 (n : UInt64)
  | ident (module name : String)
  | enm (name : String)
  | empty
  | leafref (path : NodeRef) (isKey : Bool) (target : LyValue)
  | bits
  | inst
  | union
  | der
  | unknown

/-- A libyang data node, by the `nodetype` of its schema node. A list instance carries its
keys, as its path names them. -/
inductive DataNode where
  | leaf (name : QName) (isKey : Bool) (value : LyValue)
  | leaflist (name : QName) (value : Val)
  | list (name : QName) (keys : List (String × Val)) (children : List DataNode)
  | container (name : QName) (presence : Bool) (children : List DataNode)
  | other (name : QName) (children : List DataNode)

/-! ### Time -/

/-- `time_point<high_resolution_clock>`: the nanoseconds since the epoch of the clock, a
count in a signed 64-bit integer. -/
structure TimePoint where
  count : ℕ
  inRange : count < 2 ^ 63
deriving DecidableEq

/-- The time point of a count, or the last one there is. -/
def TimePoint.ofNat (n : ℕ) : TimePoint := ⟨min n (2 ^ 63 - 1), by omega⟩

/-- `t - last` of two time points, a signed 64-bit duration. -/
def TimePoint.since (t last : TimePoint) : Int64 :=
  Int64.ofNat t.count - Int64.ofNat last.count

/-! ### Calls -/

/-- What a handler asks of its environment. -/
inductive Call where
  /-- `make_shared<Val>(…)`, which may throw. -/
  | newVal (v : Val)
  | setItem (path : ItemPath) (val : Option Val)
  | deleteItem (xpath : String)
  | commit
  | refresh
  | getSubtrees (xpath : String)
  /-- `ctx->parse_data_mem`: the top-level nodes of the document, of which libyang returns
  the first. -/
  | parseDataMem (data : String)
  /-- `get_time_nanosec()`. -/
  | getTimeNanosec
  /-- `high_resolution_clock::now()`. -/
  | now
  /-- `stream->Write`. -/
  | write (response : SubscribeResponse)
  /-- `context->TryCancel()`. -/
  | tryCancel
deriving DecidableEq

/-- The type of the reply to a call. -/
abbrev Call.Reply : Call → Type
  | newVal _ => Except Exn Unit
  | setItem _ _ => Except Exn Unit
  | deleteItem _ => Except Exn Unit
  | commit => Except Exn Unit
  | refresh => Except Exn Unit
  | getSubtrees _ => Except Exn (Option (List Tree))
  | parseDataMem _ => Except Exn (List DataNode)
  | getTimeNanosec => ℕ
  | now => TimePoint
  | write _ => Unit
  | tryCancel => Unit

/-- A call and its reply. -/
abbrev CallEvent : Type := Event Call Call.Reply

/-- Code of the handlers: it makes calls and ends with a value or an exception. -/
abbrev Handler (α : Type) : Type := Throwing Call Call.Reply Exn α

/-- `make_shared<Val>(…)`. -/
def newVal (v : Val) : Handler Val :=
  Throwing.ask (.newVal v) fun r => r.map fun _ => v

/-- `sr_sess->set_item(…)`. -/
def setItem (path : ItemPath) (val : Option Val) : Handler Unit :=
  Throwing.ask (.setItem path val) id

/-- Build a value and set it: `sval = make_shared<Val>(…)`, then `set_item(…, sval)`. -/
def setVal (path : ItemPath) (val : Val) : Handler Unit := do
  let sval ← newVal val
  setItem path (some sval)

/-- `sr_sess->delete_item(…)`. -/
def deleteItem (xpath : String) : Handler Unit := Throwing.ask (.deleteItem xpath) id

/-- `sr_sess->commit()`. -/
def commit : Handler Unit := Throwing.ask .commit id

/-- `sr_sess->refresh()`. -/
def refresh : Handler Unit := Throwing.ask .refresh id

/-- `sr_sess->get_subtrees(…)`; `none` is the null pointer. -/
def getSubtrees (xpath : String) : Handler (Option (List Tree)) :=
  Throwing.ask (.getSubtrees xpath) id

/-- `ctx->parse_data_mem(…)`. -/
def parseDataMem (data : String) : Handler (List DataNode) :=
  Throwing.ask (.parseDataMem data) id

/-- `get_time_nanosec()`. -/
def getTimeNanosec : Handler ℕ := Throwing.ask .getTimeNanosec .ok

/-- `high_resolution_clock::now()`. -/
def now : Handler TimePoint := Throwing.ask .now .ok

/-- `stream->Write(…)`. -/
def write (response : SubscribeResponse) : Handler Unit :=
  Throwing.ask (.write response) .ok

/-- `context->TryCancel()`. -/
def tryCancel : Handler Unit := Throwing.ask .tryCancel .ok

/-- `s.c_str()` where a C string is read from it: the characters before the first NUL. -/
def cStr (s : String) : String := String.ofList (s.toList.takeWhile fun c => c.toNat ≠ 0)

/-- A string is its own C string if and only if it holds no NUL. -/
theorem cStr_eq_self_iff {s : String} : cStr s = s ↔ ∀ c ∈ s.toList, c.toNat ≠ 0 := by
  have htake : cStr s = s ↔ s.toList.takeWhile (fun c => c.toNat ≠ 0) = s.toList := by
    rw [cStr, ← String.toList_inj, String.toList_ofList]
  rw [htake, List.takeWhile_eq_self_iff]
  simp

/-- A string without a NUL is its own C string. -/
theorem cStr_eq_self {s : String} (h : ∀ c ∈ s.toList, c.toNat ≠ 0) : cStr s = s :=
  cStr_eq_self_iff.mpr h

/-! ### The environment -/

/-- What sysrepo makes of a datastore: the effect of an edit, and the subtrees an xpath
selects, `none` when there are none. -/
structure Sysrepo (D : Type) where
  apply : Edit → D → D
  subtrees : String → D → Option (List Tree)

/-- Apply edits, first to last. -/
def Sysrepo.applyAll {D : Type} (sr : Sysrepo D) (edits : List Edit) (d : D) : D :=
  edits.foldl (fun d e => sr.apply e d) d

@[simp] theorem Sysrepo.applyAll_nil {D : Type} (sr : Sysrepo D) (d : D) :
    sr.applyAll [] d = d := rfl

theorem Sysrepo.applyAll_append {D : Type} (sr : Sysrepo D) (es₁ es₂ : List Edit) (d : D) :
    sr.applyAll (es₁ ++ es₂) d = sr.applyAll es₂ (sr.applyAll es₁ d) :=
  List.foldl_append

/-- The parties around the handlers: sysrepo, libyang's parser, the clocks, and which
calls fail — `fails n` is the exception the `n`-th call answers with, if any. -/
structure Env (D : Type) where
  sysrepo : Sysrepo D
  parse : String → Except Exn (List DataNode)
  fails : ℕ → Option Exn
  systemClock : ℕ → ℕ
  highResolutionClock : ℕ → TimePoint

/-- The running datastore and the one session: the edits pending on it, and all edits
its commits have published so far. `calls` counts the calls served. -/
structure World (D : Type) where
  running : D
  pending : List Edit
  published : List Edit
  calls : ℕ

/-- A fresh session on a datastore. -/
def World.start {D : Type} (d : D) : World D := ⟨d, [], [], 0⟩

/-- The datastore as the session sees it: the running one under the pending edits. -/
def World.view {D : Type} (sr : Sysrepo D) (w : World D) : D :=
  sr.applyAll w.pending w.running

@[simp] theorem World.view_start {D : Type} (sr : Sysrepo D) (d : D) :
    (World.start d).view sr = d := rfl

/-- One more call has been served. -/
def World.tick {D : Type} (w : World D) : World D := { w with calls := w.calls + 1 }

/-- One more edit is pending. -/
def World.stage {D : Type} (w : World D) (e : Edit) : World D :=
  { w with pending := w.pending ++ [e] }

/-- The pending edits are published. -/
def World.publish {D : Type} (sr : Sysrepo D) (w : World D) : World D :=
  { w with
    running := w.view sr, pending := [], published := w.published ++ w.pending }

variable {D : Type}

@[simp] theorem World.tick_running (w : World D) : w.tick.running = w.running := rfl

@[simp] theorem World.tick_pending (w : World D) : w.tick.pending = w.pending := rfl

@[simp] theorem World.tick_published (w : World D) : w.tick.published = w.published := rfl

/-- A call that sysrepo, libyang or a constructor may refuse: when it fails nothing
changes, otherwise it has the given reply and effect. -/
def orFail (env : Env D) (w : World D) {β : Type} (reply : Except Exn β) (w' : World D) :
    Except Exn β × World D :=
  match env.fails w.calls with
  | some exc => (.error exc, w.tick)
  | none => (reply, w'.tick)

/-- A call that may fail has one of two outcomes. -/
theorem orFail_cases (env : Env D) (w : World D) {β : Type} (reply : Except Exn β)
    (w' : World D) :
    (∃ exc, orFail env w reply w' = (.error exc, w.tick)) ∨
      orFail env w reply w' = (reply, w'.tick) := by
  unfold orFail
  cases env.fails w.calls with
  | some exc => exact Or.inl ⟨exc, rfl⟩
  | none => exact Or.inr rfl

/-- A call that does not fail is answered. -/
theorem orFail_of_granted {env : Env D} {w : World D} (h : env.fails w.calls = none) {β : Type}
    (reply : Except Exn β) (w' : World D) : orFail env w reply w' = (reply, w'.tick) := by
  rw [orFail, h]

/-- A call without an effect of its own leaves the session as it is, whether it fails or not. -/
@[simp] theorem orFail_self (env : Env D) (w : World D) {β : Type} (reply : Except Exn β) :
    (orFail env w reply w).2 = w.tick := by
  rcases orFail_cases env w reply w with ⟨exc, heq⟩ | heq <;> rw [heq]

/-- The environment's answer to a call, and the world after it. -/
def serve (env : Env D) (w : World D) : (c : Call) → c.Reply × World D
  | .newVal _ => orFail env w (.ok ()) w
  | .setItem path val => orFail env w (.ok ()) (w.stage (.set path val))
  | .deleteItem xpath => orFail env w (.ok ()) (w.stage (.delete xpath))
  | .commit => orFail env w (.ok ()) (w.publish env.sysrepo)
  | .refresh => orFail env w (.ok ()) w
  | .getSubtrees xpath =>
      orFail env w (.ok (env.sysrepo.subtrees xpath (w.view env.sysrepo))) w
  | .parseDataMem data => orFail env w (env.parse data) w
  | .getTimeNanosec => (env.systemClock w.calls, w.tick)
  | .now => (env.highResolutionClock w.calls, w.tick)
  | .write _ => ((), w.tick)
  | .tryCancel => ((), w.tick)

/-! ### What a call does to the session -/

/-- The edit an exchange leaves pending: that of a `set_item` or `delete_item` sysrepo
accepted. -/
def acceptedEdit : CallEvent → Option Edit
  | ⟨.setItem path val, .ok _⟩ => some (.set path val)
  | ⟨.deleteItem xpath, .ok _⟩ => some (.delete xpath)
  | _ => none

/-- The edits a dialogue leaves pending, in order. -/
def acceptedEdits (evs : List CallEvent) : List Edit := evs.filterMap acceptedEdit

theorem acceptedEdits_append (evs₁ evs₂ : List CallEvent) :
    acceptedEdits (evs₁ ++ evs₂) = acceptedEdits evs₁ ++ acceptedEdits evs₂ :=
  List.filterMap_append

/-- A commit that succeeded. -/
def committed : CallEvent := ⟨.commit, .ok ()⟩

/-- **Frame of the session**: any answered call but a successful commit leaves the
running datastore alone and appends the accepted edit, if any, to the pending ones. -/
theorem serve_frame (env : Env D) (w : World D) {ev : CallEvent}
    (h : ev.2 = (serve env w ev.1).1) (hc : ev ≠ committed) :
    (serve env w ev.1).2.running = w.running ∧
      (serve env w ev.1).2.published = w.published ∧
      (serve env w ev.1).2.pending = w.pending ++ (acceptedEdit ev).toList := by
  obtain ⟨c, r⟩ := ev
  cases c with
  | setItem path val =>
      rcases orFail_cases env w (.ok ()) (w.stage (.set path val)) with ⟨exc, heq⟩ | heq
      all_goals
        simp only [serve, heq] at h ⊢
        subst h
        simp [acceptedEdit, World.stage]
  | deleteItem xpath =>
      rcases orFail_cases env w (.ok ()) (w.stage (.delete xpath)) with ⟨exc, heq⟩ | heq
      all_goals
        simp only [serve, heq] at h ⊢
        subst h
        simp [acceptedEdit, World.stage]
  | commit =>
      rcases orFail_cases env w (.ok ()) (w.publish env.sysrepo) with ⟨exc, heq⟩ | heq
      · simp only [serve, heq] at h ⊢
        subst h
        simp [acceptedEdit]
      · simp only [serve, heq] at h
        exact absurd (by rw [h]; rfl) hc
  -- the other calls leave the session as it is
  | _ => simp [serve, acceptedEdit]

/-- A successful commit publishes the pending edits. -/
theorem serve_committed (env : Env D) (w : World D)
    (h : committed.2 = (serve env w committed.1).1) :
    (serve env w committed.1).2 = (w.publish env.sysrepo).tick := by
  simp only [committed, serve, orFail] at h ⊢
  cases hf : env.fails w.calls with
  | none => rfl
  | some exc => simp [hf] at h

/-- The frame of the session along a dialogue without a successful commit. -/
theorem after_frame (env : Env D) {w : World D} {evs : List CallEvent}
    (h : Answers (serve env) w evs) (hc : ∀ ev ∈ evs, ev ≠ committed) :
    (after (serve env) w evs).running = w.running ∧
      (after (serve env) w evs).published = w.published ∧
      (after (serve env) w evs).pending = w.pending ++ acceptedEdits evs := by
  induction evs generalizing w with
  | nil => simp [acceptedEdits]
  | cons ev evs ih =>
      obtain ⟨hr, hp, he⟩ := serve_frame env w h.1 (hc ev List.mem_cons_self)
      obtain ⟨hr', hp', he'⟩ := ih h.2 fun e hev => hc e (List.mem_cons_of_mem _ hev)
      refine ⟨hr'.trans hr, hp'.trans hp, ?_⟩
      rw [after_cons, he', he, List.append_assoc]
      cases hacc : acceptedEdit ev <;> simp [acceptedEdits, hacc]

/-- **A dialogue that ends with its only commit** publishes what was pending and then the
edits of the dialogue. -/
theorem after_committed (env : Env D) {w : World D} {evs : List CallEvent}
    (h : Answers (serve env) w (evs ++ [committed])) (hc : ∀ ev ∈ evs, ev ≠ committed) :
    (after (serve env) w (evs ++ [committed])).running =
        env.sysrepo.applyAll (w.pending ++ acceptedEdits evs) w.running ∧
      (after (serve env) w (evs ++ [committed])).pending = [] ∧
      (after (serve env) w (evs ++ [committed])).published =
        w.published ++ w.pending ++ acceptedEdits evs := by
  rw [answers_append] at h
  obtain ⟨hr, hp, he⟩ := after_frame env h.1 hc
  have hend : after (serve env) w (evs ++ [committed]) =
      ((after (serve env) w evs).publish env.sysrepo).tick := by
    rw [after_append]
    exact serve_committed env _ h.2.1
  rw [hend]
  refine ⟨?_, rfl, ?_⟩
  · simp only [World.tick_running, World.publish, World.view, hr, he]
  · simp only [World.tick_published, World.publish, hp, he, List.append_assoc]

end SysrepoGnxi
