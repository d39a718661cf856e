import Mathlib.Data.List.TakeWhile
import SysrepoGnxi.Proto

/-!
# Username and Password

`UserPassAuthenticator::Process` compares the username and password a client sends with the
configured ones. A received value is a `string_ref`: a pointer and a length into a buffer
that goes on after the value. The comparison takes the pointer for a C string, so it reads
on to the first NUL, wherever that is.

`exact_iff` says for which configured and received values this still authenticates exactly,
whatever the buffers hold: those a client is rejected with in any case. The right values are
never among them.
-/

namespace SysrepoGnxi

/-- The bytes of a C++ string. -/
abbrev Bytes : Type := List UInt8

/-- The bytes of an ASCII literal. -/
def ascii (s : String) : Bytes := s.toList.map fun c => UInt8.ofNat c.toNat

/-- `grpc::string_ref`: the bytes it delimits, and those that follow them in memory up to
the next NUL. -/
structure StringRef where
  bytes : Bytes
  after : Bytes
deriving DecidableEq

/-- What is read through `data()` as a C string. -/
def StringRef.cString (r : StringRef) : Bytes := (r.bytes ++ r.after).takeWhile (· ≠ 0)

/-- `InputMetadata`: keys and values, in key order. -/
abbrev InputMetadata : Type := List (StringRef × StringRef)

/-- `OutputMetadata`, in insertion order. -/
abbrev OutputMetadata : Type := List (Bytes × Bytes)

/-- `find` on the received metadata: the first entry with a key. -/
def InputMetadata.find (key : Bytes) (auth_metadata : InputMetadata) :
    Option (StringRef × StringRef) :=
  auth_metadata.find? fun kv => kv.1.bytes = key

/-- `UserPassAuthenticator`: the configured username and password. -/
structure UserPassAuthenticator where
  username : Bytes
  password : Bytes

namespace UserPassAuthenticator

/-- `compare(…) != 0`, on a configured string and a C string. -/
def differs (s c : Bytes) : Bool := s ≠ c

/-- `Process`: the status, and the consumed metadata afterwards. -/
def process (auth : UserPassAuthenticator) (auth_metadata : InputMetadata)
    (consumed_auth_metadata : OutputMetadata) : Status × OutputMetadata :=
  match auth_metadata.find (ascii "username") with
  | none => (⟨.UNAUTHENTICATED, "No username field"⟩, consumed_auth_metadata)
  | some user_kv =>
      match auth_metadata.find (ascii "password") with
      | none => (⟨.UNAUTHENTICATED, "No password field"⟩, consumed_auth_metadata)
      | some pass_kv =>
          if differs auth.password pass_kv.2.cString || differs auth.username user_kv.2.cString
          then (⟨.UNAUTHENTICATED, "Invalid username/password"⟩, consumed_auth_metadata)
          else
            (⟨.OK, ""⟩, consumed_auth_metadata ++
              [(user_kv.1.bytes, user_kv.2.bytes), (pass_kv.1.bytes, pass_kv.2.bytes)])

end UserPassAuthenticator

/-! ### Exact authentication -/

/-- What was received: the bytes of the keys and values, whatever follows them. -/
def InputMetadata.received (auth_metadata : InputMetadata) : List (Bytes × Bytes) :=
  auth_metadata.map fun kv => (kv.1.bytes, kv.2.bytes)

/-- The value received first under a key. -/
def valueOf (key : Bytes) (received : List (Bytes × Bytes)) : Option Bytes :=
  (received.find? fun kv => kv.1 = key).map Prod.snd

/-- A key occurs exactly once. -/
def Once (key : Bytes) (received : List (Bytes × Bytes)) : Prop :=
  (received.map Prod.fst).count key = 1

/-- The received username and password are the configured ones. -/
def RightValues (auth : UserPassAuthenticator) (received : List (Bytes × Bytes)) : Prop :=
  valueOf (ascii "username") received = some auth.username ∧
    valueOf (ascii "password") received = some auth.password

/-- **Exact authentication** of what was received, whatever memory follows the values: OK
only for the right values, OK for the right values if neither key is repeated, the same
decision for every memory, and nothing consumed without OK. -/
structure Exact (auth : UserPassAuthenticator) (received : List (Bytes × Bytes)) : Prop where
  only_if : ∀ md : InputMetadata, md.received = received → ∀ consumed,
    (auth.process md consumed).1.code = .OK → RightValues auth received
  if_once : RightValues auth received → Once (ascii "username") received →
    Once (ascii "password") received → ∀ md : InputMetadata, md.received = received →
    ∀ consumed, (auth.process md consumed).1.code = .OK
  independent : ∀ md md' : InputMetadata, md.received = received → md'.received = received →
    ∀ consumed, (auth.process md consumed).1.code = .OK →
      (auth.process md' consumed).1.code = .OK
  rejection : ∀ md : InputMetadata, md.received = received → ∀ consumed,
    (auth.process md consumed).1.code ≠ .OK → (auth.process md consumed).2 = consumed

/-- Some memory after the value makes it read as the configured string: that has no NUL, and
the value up to its first NUL is the string or, without one, may still become it. -/
def CanMatch (value configured : Bytes) : Prop :=
  (0 : UInt8) ∉ configured ∧
    if (0 : UInt8) ∈ value then value.takeWhile (· ≠ 0) = configured else value <+: configured

/-- Some memory makes both received values read as the configured ones. -/
def MayPass (auth : UserPassAuthenticator) (received : List (Bytes × Bytes)) : Prop :=
  ∃ user pass, valueOf (ascii "username") received = some user ∧
    valueOf (ascii "password") received = some pass ∧
    CanMatch user auth.username ∧ CanMatch pass auth.password

/-! ### What the comparison depends on -/

/-- A C string holds no NUL. -/
theorem zero_not_mem_cString (r : StringRef) : (0 : UInt8) ∉ r.cString := by
  intro h
  have := List.mem_takeWhile_imp h
  simp at this

/-- Up to a NUL inside the value, the memory after it does not matter. -/
theorem cString_of_mem {r : StringRef} (h : (0 : UInt8) ∈ r.bytes) :
    r.cString = r.bytes.takeWhile (· ≠ 0) := by
  rw [StringRef.cString, List.takeWhile_append]
  have hlen : (r.bytes.takeWhile (· ≠ 0)).length ≠ r.bytes.length := by
    intro hlen
    have hall := (List.takeWhile_prefix (fun x : UInt8 => decide (x ≠ 0))).eq_of_length hlen
    rw [List.takeWhile_eq_self_iff] at hall
    simpa using hall 0 h
  rw [if_neg hlen]

/-- Without one, the C string goes on into it. -/
theorem cString_of_not_mem {r : StringRef} (h : (0 : UInt8) ∉ r.bytes) :
    r.cString = r.bytes ++ r.after.takeWhile (· ≠ 0) := by
  have hself : r.bytes.takeWhile (· ≠ 0) = r.bytes :=
    List.takeWhile_eq_self_iff.mpr fun x hx => by
      simpa using fun heq : x = 0 => h (heq ▸ hx)
  rw [StringRef.cString, List.takeWhile_append, hself, if_pos rfl]

/-- **The values that can match** are those some memory makes read as the string. -/
theorem canMatch_iff (value configured : Bytes) :
    CanMatch value configured ↔ ∃ after, StringRef.cString ⟨value, after⟩ = configured := by
  constructor
  · rintro ⟨hfree, hval⟩
    split_ifs at hval with h
    · exact ⟨[], (cString_of_mem (r := ⟨value, []⟩) h).trans hval⟩
    · obtain ⟨rest, rfl⟩ := hval
      have hrest : rest.takeWhile (· ≠ 0) = rest := by
        refine List.takeWhile_eq_self_iff.mpr fun x hx => ?_
        simpa using fun heq : x = 0 => hfree (heq ▸ List.mem_append_right _ hx)
      refine ⟨rest, ?_⟩
      rw [cString_of_not_mem h, hrest]
  · rintro ⟨after, rfl⟩
    refine ⟨zero_not_mem_cString _, ?_⟩
    split_ifs with h
    · exact (cString_of_mem (r := ⟨value, after⟩) h).symm
    · rw [cString_of_not_mem h]
      exact List.prefix_append _ _

/-- Some memory after a value makes it read as something else. -/
theorem exists_cString_ne (value : Bytes) :
    ∃ after, StringRef.cString ⟨value, after⟩ ≠ value := by
  by_cases hz : (0 : UInt8) ∈ value
  · exact ⟨[], fun heq => zero_not_mem_cString ⟨value, []⟩ (heq.symm ▸ hz)⟩
  · refine ⟨[1], fun heq => ?_⟩
    rw [cString_of_not_mem hz] at heq
    have hlen := congrArg List.length heq
    simp at hlen

/-! ### From the metadata to the values -/

/-- The memory `userAfter` behind every username, `passAfter` behind every other value. -/
def laidOut (received : List (Bytes × Bytes)) (userAfter passAfter : Bytes) :
    InputMetadata :=
  received.map fun kv =>
    (⟨kv.1, []⟩, ⟨kv.2, if kv.1 = ascii "username" then userAfter else passAfter⟩)

theorem received_laidOut (received : List (Bytes × Bytes)) (userAfter passAfter : Bytes) :
    (laidOut received userAfter passAfter).received = received := by
  simp [InputMetadata.received, laidOut, Function.comp_def]

/-- What `find` finds is the value received first under the key. -/
theorem find_eq_some {md : InputMetadata} {key : Bytes} {kv : StringRef × StringRef}
    (h : md.find key = some kv) : valueOf key md.received = some kv.2.bytes := by
  rw [valueOf, InputMetadata.received, List.find?_map]
  simp only [InputMetadata.find] at h
  simp only [Function.comp_def, h, Option.map_some]

/-- The entry found in laid out metadata. -/
theorem find_laidOut {received : List (Bytes × Bytes)} {key value : Bytes}
    (h : valueOf key received = some value) (userAfter passAfter : Bytes) :
    (laidOut received userAfter passAfter).find key =
      some (⟨key, []⟩, ⟨value, if key = ascii "username" then userAfter else passAfter⟩) := by
  rw [valueOf] at h
  obtain ⟨⟨k, v⟩, hfind, rfl⟩ := Option.map_eq_some_iff.mp h
  have hkey : k = key := by simpa using List.find?_some hfind
  subst hkey
  rw [InputMetadata.find, laidOut, List.find?_map]
  simp only [Function.comp_def, hfind, Option.map_some]

/-- **When Process answers OK**: both keys are found and both C strings are the configured
ones. -/
theorem process_ok_iff (auth : UserPassAuthenticator) (md : InputMetadata)
    (consumed : OutputMetadata) :
    (auth.process md consumed).1.code = .OK ↔
      ∃ user_kv pass_kv, md.find (ascii "username") = some user_kv ∧
        md.find (ascii "password") = some pass_kv ∧
        user_kv.2.cString = auth.username ∧ pass_kv.2.cString = auth.password := by
  rw [UserPassAuthenticator.process]
  cases hu : md.find (ascii "username") with
  | none => simp
  | some user_kv =>
      cases hp : md.find (ascii "password") with
      | none => simp
      | some pass_kv =>
          by_cases hpass : auth.password = pass_kv.2.cString
          · by_cases huser : auth.username = user_kv.2.cString
            · simp [UserPassAuthenticator.differs, hpass, huser]
            · simp [UserPassAuthenticator.differs, huser, Ne.symm huser]
          · simp [UserPassAuthenticator.differs, hpass, Ne.symm hpass]

/-- Without OK nothing is consumed. -/
theorem process_consumed (auth : UserPassAuthenticator) (md : InputMetadata)
    (consumed : OutputMetadata) (h : (auth.process md consumed).1.code ≠ .OK) :
    (auth.process md consumed).2 = consumed := by
  rw [UserPassAuthenticator.process] at h ⊢
  cases hu : md.find (ascii "username") with
  | none => rfl
  | some user_kv =>
      cases hp : md.find (ascii "password") with
      | none => rfl
      | some pass_kv =>
          simp only [hu, hp] at h ⊢
          split_ifs at h ⊢
          · rfl
          · exact absurd rfl h

/-- An OK means that the values may pass. -/
theorem mayPass_of_ok {auth : UserPassAuthenticator} {md : InputMetadata}
    {consumed : OutputMetadata} (h : (auth.process md consumed).1.code = .OK) :
    MayPass auth md.received := by
  obtain ⟨user_kv, pass_kv, hu, hp, huser, hpass⟩ := (process_ok_iff _ _ _).mp h
  refine ⟨_, _, find_eq_some hu, find_eq_some hp, ?_, ?_⟩
  · exact (canMatch_iff _ _).mpr ⟨_, huser⟩
  · exact (canMatch_iff _ _).mpr ⟨_, hpass⟩

/-- Whether laid out metadata is let in. -/
theorem process_laidOut {auth : UserPassAuthenticator} {received : List (Bytes × Bytes)}
    {user pass : Bytes} (hu : valueOf (ascii "username") received = some user)
    (hp : valueOf (ascii "password") received = some pass) (userAfter passAfter : Bytes)
    (consumed : OutputMetadata) :
    (auth.process (laidOut received userAfter passAfter) consumed).1.code = .OK ↔
      StringRef.cString ⟨user, userAfter⟩ = auth.username ∧
        StringRef.cString ⟨pass, passAfter⟩ = auth.password := by
  have hne : ascii "password" ≠ ascii "username" := by decide
  rw [process_ok_iff, find_laidOut hu, find_laidOut hp, if_pos rfl, if_neg hne]
  simp

/-- The right values are turned away by some memory behind them. -/
theorem exists_rejected {auth : UserPassAuthenticator} {received : List (Bytes × Bytes)}
    (h : RightValues auth received) (passAfter : Bytes) (consumed : OutputMetadata) :
    ∃ userAfter, (auth.process (laidOut received userAfter passAfter) consumed).1.code ≠ .OK := by
  obtain ⟨after, hafter⟩ := exists_cString_ne auth.username
  refine ⟨after, fun hok => ?_⟩
  exact hafter ((process_laidOut h.1 h.2 _ _ _).mp hok).1

/-- **When the authentication is exact**: if the received values never pass, whatever memory
follows them, and are not the right ones either, each received once. -/
theorem exact_iff (auth : UserPassAuthenticator) (received : List (Bytes × Bytes)) :
    Exact auth received ↔
      ¬ MayPass auth received ∧
        ¬ (RightValues auth received ∧ Once (ascii "username") received ∧
          Once (ascii "password") received) := by
  constructor
  · intro h
    constructor
    · rintro ⟨user, pass, hu, hp, hmu, hmp⟩
      obtain ⟨userAfter, huser⟩ := (canMatch_iff _ _).mp hmu
      obtain ⟨passAfter, hpass⟩ := (canMatch_iff _ _).mp hmp
      have hok := (process_laidOut hu hp userAfter passAfter []).mpr ⟨huser, hpass⟩
      have hright := h.only_if _ (received_laidOut _ _ _) [] hok
      -- and with other memory behind the same username it is not OK
      obtain ⟨userAfter', hrej⟩ := exists_rejected hright passAfter []
      exact hrej (h.independent _ _ (received_laidOut _ _ _) (received_laidOut _ _ _) [] hok)
    · rintro ⟨hright, hou, hop⟩
      obtain ⟨userAfter, hrej⟩ := exists_rejected hright [] []
      exact hrej (h.if_once hright hou hop _ (received_laidOut _ _ _) [])
  · rintro ⟨hpass, hright⟩
    have hnever : ∀ md : InputMetadata, md.received = received → ∀ consumed,
        (auth.process md consumed).1.code ≠ .OK := by
      rintro md rfl consumed hok
      exact hpass (mayPass_of_ok hok)
    refine ⟨?_, ?_, ?_, ?_⟩
    · intro md hmd consumed hok
      exact absurd hok (hnever md hmd consumed)
    · intro hr hou hop
      exact absurd ⟨hr, hou, hop⟩ hright
    · intro md _ hmd _ consumed hok
      exact absurd hok (hnever md hmd consumed)
    · intro md _ consumed
      exact process_consumed auth md consumed

/-- The right password `pw`, followed in memory by another header, is turned away. -/
theorem not_exact :
    ¬ Exact ⟨ascii "admin", ascii "pw"⟩
      [(ascii "password", ascii "pw"), (ascii "username", ascii "admin")] := by
  intro h
  have hok := h.if_once ⟨by decide, by decide⟩ rfl rfl
    [(⟨ascii "password", []⟩, ⟨ascii "pw", ascii "te"⟩),
      (⟨ascii "username", []⟩, ⟨ascii "admin", []⟩)] rfl []
  exact absurd hok (by decide)

end SysrepoGnxi
