import SysrepoGnxi.Authentication
import SysrepoGnxi.Models

/-!
# The Start of the Server

`main` reads its options one by one into an `AuthBuilder`, a log level and an address, and
then runs a server with the credentials that `AuthBuilder::build` makes of them. This module
models that start: the loop over the options, the decision of `build`, and `RunServer`.

* `serves_iff` — when the server comes up, and with which credentials: each setting is that of
  the last option of its kind, in whatever order the kinds come.
* `guarded` — who is served: without `-f` nobody over plaintext, and nobody but those with a
  verified certificate or with metadata that passes for the last `-u` and `-p`.

What `getopt_long` makes of the command line is the input, as are the files; what gRPC does
with the credentials is a parameter.
-/

namespace SysrepoGnxi

/-! ### Exits -/

/-- Why `main` exits before it serves. -/
inductive Exit where
  /-- The usage has been shown. -/
  | usage
  /-- "Unused log level". -/
  | logLevel
  /-- "File … not found". -/
  | noFile (path : Bytes)
  /-- "Unsupported Authentication method". -/
  | unsupported
  /-- The constructor of the service has exited. -/
  | service (code : ℕ)
deriving DecidableEq

/-! ### `Log` -/

/-- `logging::trivial::severity_level`, as far as a level is set to it. -/
inductive Severity where
  | fatal
  | error
  | warning
  | info
  | debug
deriving DecidableEq

/-- `_boost_set_log_level`: the least severity that is logged. -/
def boostSetLogLevel (lvl : ℤ) : Except Exit Severity :=
  if lvl = 0 then .ok .fatal
  else if lvl = 1 then .ok .error
  else if lvl = 2 then .ok .warning
  else if lvl = 3 then .ok .info
  else if lvl = 4 then .ok .debug
  else .error .logLevel

/-- `isspace`, in the C locale. -/
def isSpace (b : UInt8) : Bool := b = 32 || (9 ≤ b && b ≤ 13)

/-- `isdigit`. -/
def isDigit (b : UInt8) : Bool := 48 ≤ b && b ≤ 57

/-- The number that the leading digits of a text denote. -/
def digitsValue (s : Bytes) : ℕ :=
  (s.takeWhile isDigit).foldl (fun n b => 10 * n + (b.toNat - 48)) 0

/-- The `long` that `strtol` makes of a number: one that does not fit is cut to its bounds. -/
def cutToLong (n : ℤ) : ℤ :=
  if n < -9223372036854775808 then -9223372036854775808
  else if 9223372036854775807 < n then 9223372036854775807
  else n

/-- `atoi`, as glibc has it: blanks, a sign and digits, read as a `long` and cut to 32 bits. -/
def atoi (s : Bytes) : ℤ :=
  let value : ℤ :=
    match s.dropWhile isSpace with
    | 45 :: rest => -digitsValue rest
    | 43 :: rest => digitsValue rest
    | rest => digitsValue rest
  (cutToLong value).bmod 4294967296

/-! ### `AuthBuilder` -/

/-- `grpc_ssl_client_certificate_request_type`, as far as it is used. -/
inductive ClientCertificateRequest where
  | GRPC_SSL_REQUEST_AND_REQUIRE_CLIENT_CERTIFICATE_AND_VERIFY
  | GRPC_SSL_DONT_REQUEST_CLIENT_CERTIFICATE
deriving DecidableEq

/-- `SslServerCredentialsOptions`; a pair is a private key and a certificate chain. -/
structure SslServerCredentialsOptions where
  client_certificate_request : ClientCertificateRequest
  pem_key_cert_pairs : List (Bytes × Bytes)
  pem_root_certs : Bytes
deriving DecidableEq

/-- `ServerCredentials`: insecure ones, or those of TLS with the metadata processor set on
them. -/
inductive ServerCredentials where
  | insecure
  | ssl (opts : SslServerCredentialsOptions) (processor : Option UserPassAuthenticator)

/-- The content of each file that can be read, by its path. -/
abbrev Files : Type := Bytes → Option Bytes

/-- `GetFileContent`. -/
def getFileContent (files : Files) (path : Bytes) : Except Exit Bytes :=
  match files path with
  | none => .error (.noFile path)
  | some content => .ok content

/-- The root certificates; without a path there are none. -/
def pemRootCerts (files : Files) (rpath : Bytes) : Except Exit Bytes :=
  if rpath.isEmpty then .ok [] else getFileContent files rpath

/-- `SslCredentialsHelper`. -/
def sslCredentialsHelper (files : Files) (ppath cpath rpath : Bytes) (client_cert : Bool) :
    Except Exit SslServerCredentialsOptions := do
  let private_key ← getFileContent files ppath
  let cert_chain ← getFileContent files cpath
  let pem_root_certs ← pemRootCerts files rpath
  pure
    { client_certificate_request :=
        if client_cert then .GRPC_SSL_REQUEST_AND_REQUIRE_CLIENT_CERTIFICATE_AND_VERIFY
        else .GRPC_SSL_DONT_REQUEST_CLIENT_CERTIFICATE
      pem_key_cert_pairs := [(private_key, cert_chain)]
      pem_root_certs := pem_root_certs }

/-- `AuthBuilder`. -/
structure AuthBuilder where
  private_key_path : Bytes := []
  cert_path : Bytes := []
  root_cert_path : Bytes := []
  username : Bytes := []
  password : Bytes := []
  insecure : Bool := false
deriving DecidableEq

namespace AuthBuilder

def setKeyPath (b : AuthBuilder) (keyPath : Bytes) : AuthBuilder :=
  { b with private_key_path := keyPath }

def setCertPath (b : AuthBuilder) (certPath : Bytes) : AuthBuilder :=
  { b with cert_path := certPath }

def setRootCertPath (b : AuthBuilder) (rootpath : Bytes) : AuthBuilder :=
  { b with root_cert_path := rootpath }

def setUsername (b : AuthBuilder) (user : Bytes) : AuthBuilder := { b with username := user }

def setPassword (b : AuthBuilder) (pass : Bytes) : AuthBuilder := { b with password := pass }

def setInsecure (b : AuthBuilder) (mode : Bool) : AuthBuilder := { b with insecure := mode }

/-- `build`. -/
def build (files : Files) (b : AuthBuilder) : Except Exit ServerCredentials :=
  if !b.private_key_path.isEmpty && !b.cert_path.isEmpty && b.username.isEmpty
      && b.password.isEmpty then do
    -- MUTUAL_TLS
    let opts ← sslCredentialsHelper files b.private_key_path b.cert_path b.root_cert_path true
    pure (.ssl opts none)
  else if !b.private_key_path.isEmpty && !b.cert_path.isEmpty && !b.username.isEmpty
      && !b.password.isEmpty then do
    -- USERPASS_TLS
    let opts ← sslCredentialsHelper files b.private_key_path b.cert_path b.root_cert_path false
    pure (.ssl opts (some ⟨b.username, b.password⟩))
  else if b.insecure then .ok .insecure
  else .error .unsupported

end AuthBuilder

/-! ### `main` -/

/-- The options with an argument. -/
inductive ArgOption where
  | username
  | password
  | privateKey
  | cert
  | ca
  | logLevel
  | bind
deriving DecidableEq

/-- What `getopt_long` returns for an option: its letter, and `optarg`. -/
inductive CmdOption where
  | help
  /-- `?`, an option that is not known or lacks its argument. -/
  | unknown
  | forceInsecure
  | arg (option : ArgOption) (optarg : Bytes)
deriving DecidableEq

/-- The local variables of `main`, and the log level. -/
structure Settings where
  bind_addr : Bytes := ascii "localhost:50051"
  auth : AuthBuilder := {}
  level : Severity := .info
deriving DecidableEq

namespace Settings

/-- `Log::setLevel`. -/
def setLevel (m : Settings) (lvl : ℤ) : Except Exit Settings :=
  match boostSetLogLevel lvl with
  | .error e => .error e
  | .ok level => .ok { m with level := level }

/-- One round of the loop over the options. -/
def read (m : Settings) : CmdOption → Except Exit Settings
  | .unknown => .error .usage
  | .help => .error .usage
  | .arg .username optarg => .ok { m with auth := m.auth.setUsername optarg }
  | .arg .password optarg => .ok { m with auth := m.auth.setPassword optarg }
  | .arg .privateKey optarg => .ok { m with auth := m.auth.setKeyPath optarg }
  | .arg .cert optarg => .ok { m with auth := m.auth.setCertPath optarg }
  | .arg .ca optarg => .ok { m with auth := m.auth.setRootCertPath optarg }
  | .arg .logLevel optarg => m.setLevel (atoi optarg)
  | .arg .bind optarg => .ok { m with bind_addr := optarg }
  | .forceInsecure => .ok { m with auth := m.auth.setInsecure true }

/-- The loop. -/
def readAll (m : Settings) : List CmdOption → Except Exit Settings
  | [] => .ok m
  | opt :: opts =>
      match m.read opt with
      | .error e => .error e
      | .ok m' => m'.readAll opts

end Settings

/-! ### The settings of a command line -/

namespace CmdOption

/-- The argument of an option, if it is of a kind. -/
def argOf (option : ArgOption) : CmdOption → Option Bytes
  | arg o optarg => if o = option then some optarg else none
  | _ => none

/-- What a level makes `main` exit with. -/
def refusedLevel (lvl : ℤ) : Option Exit :=
  match boostSetLogLevel lvl with
  | .error e => some e
  | .ok _ => none

/-- What an option makes `main` exit with. -/
def refused : CmdOption → Option Exit
  | help => some .usage
  | unknown => some .usage
  | arg .logLevel optarg => refusedLevel (atoi optarg)
  | _ => none

end CmdOption

/-- The level that an option sets. -/
def CmdOption.levelOf (opt : CmdOption) : Option Severity :=
  (opt.argOf .logLevel).bind fun optarg => (boostSetLogLevel (atoi optarg)).toOption

section Last

variable {β : Type}

/-- What the last of some options says that says anything. -/
def lastOf (f : CmdOption → Option β) (opts : List CmdOption) : Option β :=
  (opts.filterMap f).getLast?

theorem lastOf_cons (f : CmdOption → Option β) (opt : CmdOption) (opts : List CmdOption) :
    lastOf f (opt :: opts) = (lastOf f opts).or (f opt) := by
  rw [lastOf, List.filterMap_cons]
  cases hopt : f opt with
  | none => exact Option.or_none.symm
  | some b =>
      rw [List.getLast?_cons, lastOf]
      cases (opts.filterMap f).getLast? <;> rfl

theorem lastOf_singleton (f : CmdOption → Option β) (opt : CmdOption) :
    lastOf f [opt] = f opt := by
  rw [lastOf_cons, lastOf, List.filterMap_nil, List.getLast?_nil, Option.none_or]

end Last

namespace Settings

/-- The settings after some options: each that of the last option of its kind. -/
def after (m : Settings) (opts : List CmdOption) : Settings where
  bind_addr := (lastOf (CmdOption.argOf .bind) opts).getD m.bind_addr
  auth :=
    { private_key_path := (lastOf (CmdOption.argOf .privateKey) opts).getD m.auth.private_key_path
      cert_path := (lastOf (CmdOption.argOf .cert) opts).getD m.auth.cert_path
      root_cert_path := (lastOf (CmdOption.argOf .ca) opts).getD m.auth.root_cert_path
      username := (lastOf (CmdOption.argOf .username) opts).getD m.auth.username
      password := (lastOf (CmdOption.argOf .password) opts).getD m.auth.password
      insecure := m.auth.insecure || decide (.forceInsecure ∈ opts) }
  level := (lastOf CmdOption.levelOf opts).getD m.level

theorem after_nil (m : Settings) : m.after [] = m := by
  simp [after, lastOf]

theorem after_cons (m : Settings) (opt : CmdOption) (opts : List CmdOption) :
    (m.after [opt]).after opts = m.after (opt :: opts) := by
  have hinsecure : decide (CmdOption.forceInsecure ∈ opt :: opts) =
      (decide (.forceInsecure ∈ [opt]) || decide (.forceInsecure ∈ opts)) := by simp
  simp only [after, lastOf_cons _ opt opts, lastOf_singleton, Option.getD_or, hinsecure,
    Bool.or_assoc]

/-- One option sets what it is of. -/
theorem read_eq (m : Settings) (opt : CmdOption) :
    m.read opt = opt.refused.elim (.ok (m.after [opt])) .error := by
  cases opt with
  | help => rfl
  | unknown => rfl
  | forceInsecure =>
      have hinsecure : (m.auth.insecure || decide (CmdOption.forceInsecure ∈
          [CmdOption.forceInsecure])) = true := by simp
      rw [after, hinsecure]
      rfl
  | arg option optarg =>
      have hinsecure : (m.auth.insecure || decide (CmdOption.forceInsecure ∈
          [CmdOption.arg option optarg])) = m.auth.insecure := by simp
      rw [after, hinsecure]
      cases option with
      | logLevel =>
          change m.setLevel (atoi optarg) = (CmdOption.refusedLevel (atoi optarg)).elim _ _
          rw [setLevel, CmdOption.refusedLevel, lastOf_singleton CmdOption.levelOf]
          have hlevel : CmdOption.levelOf (.arg .logLevel optarg) =
              (boostSetLogLevel (atoi optarg)).toOption := rfl
          rw [hlevel]
          cases boostSetLogLevel (atoi optarg) <;> rfl
      | username | password | privateKey | cert | ca | bind => rfl

/-- **The loop over the options**: the first refused one ends it, and else the last one of each
kind counts. The induction is on the options. -/
theorem readAll_eq (m : Settings) (opts : List CmdOption) :
    m.readAll opts = (opts.findSome? CmdOption.refused).elim (.ok (m.after opts)) .error := by
  induction opts generalizing m with
  | nil => rw [readAll, List.findSome?_nil, after_nil, Option.elim_none]
  | cons opt opts ih =>
      rw [readAll, read_eq, List.findSome?_cons]
      cases opt.refused with
      | some e => rfl
      | none =>
          rw [Option.elim_none]
          dsimp only
          rw [ih, after_cons]

end Settings

/-- A server that waits for calls. -/
structure Server (Ctx : Type) where
  bind_addr : Bytes
  /-- The address it says it listens on. -/
  listening : Bytes
  cred : ServerCredentials
  level : Severity
  ctx : Ctx

/-- What comes of `main`. -/
inductive Launch (Ctx : Type) where
  | exits (e : Exit)
  | throws (exc : Exn)
  /-- `BuildAndStart` has failed, and `Wait` is called through a null pointer. -/
  | crashes
  | serves (server : Server Ctx)

variable {Ctx : Type}

/-- The address `RunServer` says it listens on. -/
def listeningOn (bind_addr : Bytes) : Bytes :=
  if (58 : UInt8) ∈ bind_addr then bind_addr else bind_addr ++ ascii ":443"

/-- `RunServer`. -/
def runServer (service : Construction Ctx) (started : Bool) (bind_addr : Bytes)
    (cred : ServerCredentials) (level : Severity) : Launch Ctx :=
  match service with
  | .exit code => .exits (.service code)
  | .throws exc => .throws exc
  | .done ctx =>
      if started then .serves ⟨bind_addr, listeningOn bind_addr, cred, level, ctx⟩
      else .crashes

/-- `main`: the files, what the constructor of the service comes to, and whether gRPC can start
a server at an address are given. -/
def main (files : Files) (service : Construction Ctx)
    (buildAndStart : Bytes → ServerCredentials → Bool) (opts : List CmdOption) : Launch Ctx :=
  match Settings.readAll {} opts with
  | .error e => .exits e
  | .ok m =>
      match m.auth.build files with
      | .error e => .exits e
      | .ok cred => runServer service (buildAndStart m.bind_addr cred) m.bind_addr cred m.level

/-! ### The credentials of the settings -/

/-- The content of the root certificates: none are read without a path. -/
def RootCerts (files : Files) (rpath roots : Bytes) : Prop :=
  if rpath = [] then roots = [] else files rpath = some roots

/-- What TLS is given of the files of the settings. -/
structure SslFrom (files : Files) (b : AuthBuilder) (request : ClientCertificateRequest)
    (opts : SslServerCredentialsOptions) : Prop where
  request : opts.client_certificate_request = request
  pair : ∃ key chain, files b.private_key_path = some key ∧ files b.cert_path = some chain ∧
    opts.pem_key_cert_pairs = [(key, chain)]
  roots : RootCerts files b.root_cert_path opts.pem_root_certs

/-- **The credentials that settings mean.** -/
inductive Configures (files : Files) (b : AuthBuilder) : ServerCredentials → Prop where
  /-- A key and a certificate, and no user: TLS with client certificates. -/
  | mutualTls {opts : SslServerCredentialsOptions} (key : b.private_key_path ≠ [])
      (cert : b.cert_path ≠ []) (user : b.username = []) (pass : b.password = [])
      (ssl : SslFrom files b .GRPC_SSL_REQUEST_AND_REQUIRE_CLIENT_CERTIFICATE_AND_VERIFY opts) :
      Configures files b (.ssl opts none)
  /-- A key and a certificate, and a user: TLS with a check of username and password. -/
  | userPassTls {opts : SslServerCredentialsOptions} (key : b.private_key_path ≠ [])
      (cert : b.cert_path ≠ []) (user : b.username ≠ []) (pass : b.password ≠ [])
      (ssl : SslFrom files b .GRPC_SSL_DONT_REQUEST_CLIENT_CERTIFICATE opts) :
      Configures files b (.ssl opts (some ⟨b.username, b.password⟩))
  /-- Everything else: plaintext, if it is forced. -/
  | insecure (forced : b.insecure = true)
      (rest : b.private_key_path = [] ∨ b.cert_path = [] ∨ ¬ (b.username = [] ↔ b.password = [])) :
      Configures files b .insecure

section Build

variable {files : Files} {b : AuthBuilder}

/-- A step that may exit, and what is done with its result. -/
theorem exit_bind_eq_ok_iff {α β : Type} {x : Except Exit α} {f : α → Except Exit β} {b : β} :
    (x >>= f) = .ok b ↔ ∃ a, x = .ok a ∧ f a = .ok b := by
  constructor
  · intro h
    cases x with
    | error e => cases h
    | ok a => exact ⟨a, rfl, h⟩
  · rintro ⟨a, rfl, h⟩
    exact h

theorem getFileContent_eq_ok_iff {path content : Bytes} :
    getFileContent files path = .ok content ↔ files path = some content := by
  rw [getFileContent]
  cases files path <;> simp

theorem pemRootCerts_eq_ok_iff {rpath roots : Bytes} :
    pemRootCerts files rpath = .ok roots ↔ RootCerts files rpath roots := by
  rw [pemRootCerts, RootCerts]
  by_cases h : rpath = []
  · rw [if_pos (List.isEmpty_iff.mpr h), if_pos h]
    exact ⟨fun heq => (Except.ok.inj heq).symm, fun heq => heq ▸ rfl⟩
  · rw [if_neg (mt List.isEmpty_iff.mp h), if_neg h, getFileContent_eq_ok_iff]

theorem sslCredentialsHelper_eq_ok_iff {client_cert : Bool} {opts : SslServerCredentialsOptions} :
    sslCredentialsHelper files b.private_key_path b.cert_path b.root_cert_path client_cert =
        .ok opts ↔
      SslFrom files b (if client_cert then
          .GRPC_SSL_REQUEST_AND_REQUIRE_CLIENT_CERTIFICATE_AND_VERIFY
        else .GRPC_SSL_DONT_REQUEST_CLIENT_CERTIFICATE) opts := by
  rw [sslCredentialsHelper]
  simp only [exit_bind_eq_ok_iff, getFileContent_eq_ok_iff, pemRootCerts_eq_ok_iff]
  constructor
  · rintro ⟨key, hkey, chain, hchain, roots, hroots, heq⟩
    obtain rfl := Except.ok.inj heq
    exact ⟨rfl, ⟨key, chain, hkey, hchain, rfl⟩, hroots⟩
  · rintro ⟨hrequest, ⟨key, chain, hkey, hchain, hpair⟩, hroots⟩
    refine ⟨key, hkey, chain, hchain, _, hroots, ?_⟩
    rw [← hrequest, ← hpair]
    rfl

/-- **What `build` makes of the settings.** -/
theorem build_eq_ok_iff {cred : ServerCredentials} :
    b.build files = .ok cred ↔ Configures files b cred := by
  have hmutual : (!b.private_key_path.isEmpty && !b.cert_path.isEmpty && b.username.isEmpty
      && b.password.isEmpty) = true ↔ b.private_key_path ≠ [] ∧ b.cert_path ≠ [] ∧
        b.username = [] ∧ b.password = [] := by
    simp [and_assoc]
  have huserPass : (!b.private_key_path.isEmpty && !b.cert_path.isEmpty && !b.username.isEmpty
      && !b.password.isEmpty) = true ↔ b.private_key_path ≠ [] ∧ b.cert_path ≠ [] ∧
        b.username ≠ [] ∧ b.password ≠ [] := by
    simp [and_assoc]
  rw [AuthBuilder.build]
  split_ifs with h₁ h₂ h₃
  · obtain ⟨hkey, hcert, huser, hpass⟩ := hmutual.mp h₁
    rw [exit_bind_eq_ok_iff]
    constructor
    · rintro ⟨opts, hopts, heq⟩
      obtain rfl := Except.ok.inj heq
      exact .mutualTls hkey hcert huser hpass (sslCredentialsHelper_eq_ok_iff.mp hopts)
    · rintro (⟨-, -, -, -, hssl⟩ | ⟨-, -, hno, -, -⟩ | ⟨-, hno | hno | hno⟩)
      · exact ⟨_, sslCredentialsHelper_eq_ok_iff.mpr hssl, rfl⟩
      · exact absurd huser hno
      · exact absurd hno hkey
      · exact absurd hno hcert
      · exact absurd (by rw [huser, hpass]) hno
  · obtain ⟨hkey, hcert, huser, hpass⟩ := huserPass.mp h₂
    rw [exit_bind_eq_ok_iff]
    constructor
    · rintro ⟨opts, hopts, heq⟩
      obtain rfl := Except.ok.inj heq
      exact .userPassTls hkey hcert huser hpass (sslCredentialsHelper_eq_ok_iff.mp hopts)
    · rintro (⟨-, -, hno, -, -⟩ | ⟨-, -, -, -, hssl⟩ | ⟨-, hno | hno | hno⟩)
      · exact absurd hno huser
      · exact ⟨_, sslCredentialsHelper_eq_ok_iff.mpr hssl, rfl⟩
      · exact absurd hno hkey
      · exact absurd hno hcert
      · exact absurd (iff_of_false huser hpass) hno
  all_goals
    rw [hmutual] at h₁
    rw [huserPass] at h₂
  · constructor
    · intro heq
      obtain rfl := Except.ok.inj heq
      refine .insecure h₃ ?_
      by_contra hall
      simp only [not_or, not_not] at hall
      obtain ⟨hkey, hcert, hiff⟩ := hall
      by_cases huser : b.username = []
      · exact h₁ ⟨hkey, hcert, huser, hiff.mp huser⟩
      · exact h₂ ⟨hkey, hcert, huser, mt hiff.mpr huser⟩
    · rintro (⟨hkey, hcert, huser, hpass, -⟩ | ⟨hkey, hcert, huser, hpass, -⟩ | -)
      · exact absurd ⟨hkey, hcert, huser, hpass⟩ h₁
      · exact absurd ⟨hkey, hcert, huser, hpass⟩ h₂
      · rfl
  · constructor
    · intro heq
      cases heq
    · rintro (⟨hkey, hcert, huser, hpass, -⟩ | ⟨hkey, hcert, huser, hpass, -⟩ | ⟨hforced, -⟩)
      · exact absurd ⟨hkey, hcert, huser, hpass⟩ h₁
      · exact absurd ⟨hkey, hcert, huser, hpass⟩ h₂
      · exact absurd hforced h₃

end Build

/-! ### The server that comes up -/

/-- The settings of a command line. -/
def settings (opts : List CmdOption) : Settings := Settings.after {} opts

/-- **A server that a command line brings up.** -/
structure BroughtUp (files : Files) (service : Construction Ctx)
    (buildAndStart : Bytes → ServerCredentials → Bool) (opts : List CmdOption)
    (server : Server Ctx) : Prop where
  accepted : ∀ opt ∈ opts, opt.refused = none
  credentials : Configures files (settings opts).auth server.cred
  service : service = .done server.ctx
  started : buildAndStart server.bind_addr server.cred = true
  bind_addr : server.bind_addr = (settings opts).bind_addr
  listening : server.listening = listeningOn server.bind_addr
  level : server.level = (settings opts).level

theorem runServer_eq_serves_iff {service : Construction Ctx} {started : Bool}
    {bind_addr : Bytes} {cred : ServerCredentials} {level : Severity} {server : Server Ctx} :
    runServer service started bind_addr cred level = .serves server ↔
      service = .done server.ctx ∧ started = true ∧ server.bind_addr = bind_addr ∧
        server.cred = cred ∧ server.level = level ∧
        server.listening = listeningOn bind_addr := by
  obtain ⟨addr, listening, cred', level', ctx'⟩ := server
  cases service with
  | exit code => simp [runServer]
  | throws exc => simp [runServer]
  | done ctx =>
      cases started with
      | false => simp [runServer]
      | true =>
          simp only [runServer, if_true, Launch.serves.injEq, Server.mk.injEq,
            Construction.done.injEq, true_and]
          constructor
          · rintro ⟨rfl, rfl, rfl, rfl, rfl⟩
            exact ⟨rfl, rfl, rfl, rfl, rfl⟩
          · rintro ⟨rfl, rfl, rfl, rfl, rfl⟩
            exact ⟨rfl, rfl, rfl, rfl, rfl⟩

/-- **When the server comes up**, and as which. -/
theorem serves_iff (files : Files) (service : Construction Ctx)
    (buildAndStart : Bytes → ServerCredentials → Bool) (opts : List CmdOption)
    (server : Server Ctx) :
    main files service buildAndStart opts = .serves server ↔
      BroughtUp files service buildAndStart opts server := by
  rw [main, Settings.readAll_eq]
  cases hrefused : opts.findSome? CmdOption.refused with
  | some e =>
      constructor
      · intro h
        cases h
      · intro h
        obtain ⟨opt, hopt, he⟩ := List.exists_of_findSome?_eq_some hrefused
        rw [h.accepted opt hopt] at he
        cases he
  | none =>
      have haccepted := List.findSome?_eq_none_iff.mp hrefused
      rw [Option.elim_none]
      dsimp only
      rw [show Settings.after {} opts = settings opts from rfl]
      cases hbuild : (settings opts).auth.build files with
      | error e =>
          constructor
          · intro h
            cases h
          · intro h
            rw [build_eq_ok_iff.mpr h.credentials] at hbuild
            cases hbuild
      | ok cred =>
          rw [runServer_eq_serves_iff]
          constructor
          · rintro ⟨hservice, hstarted, haddr, rfl, hlevel, hlistening⟩
            rw [← haddr] at hstarted hlistening
            exact ⟨haccepted, build_eq_ok_iff.mp hbuild, hservice, hstarted, haddr, hlistening,
              hlevel⟩
          · intro h
            rw [build_eq_ok_iff.mpr h.credentials] at hbuild
            obtain rfl := Except.ok.inj hbuild
            rw [← h.bind_addr]
            exact ⟨h.service, h.started, rfl, rfl, h.level, h.listening⟩

/-! ### Who is served -/

/-- The side of a client that decides whether gRPC serves its calls: whether the connection is
encrypted, the root certificates its own certificate is verified by, and the metadata. -/
structure Caller where
  encrypted : Bool
  verified : Bytes → Bool
  metadata : InputMetadata

/-- What gRPC documents of the credentials of a server: calls are dispatched over TLS only, of
clients with a verified certificate where one is required, and with metadata that its processor
has answered OK. -/
structure GrpcSecurity (dispatches : ServerCredentials → Caller → Prop) : Prop where
  encrypted : ∀ opts processor caller, dispatches (.ssl opts processor) caller →
    caller.encrypted = true
  verified : ∀ opts processor caller, dispatches (.ssl opts processor) caller →
    opts.client_certificate_request =
      .GRPC_SSL_REQUEST_AND_REQUIRE_CLIENT_CERTIFICATE_AND_VERIFY →
    caller.verified opts.pem_root_certs = true
  processed : ∀ opts auth caller, dispatches (.ssl opts (some auth)) caller →
    (auth.process caller.metadata []).1.code = .OK

/-- The last argument given for an option, if it is not empty. -/
def givenArg (option : ArgOption) (opts : List CmdOption) : Option Bytes :=
  (lastOf (CmdOption.argOf option) opts).filter fun optarg => !optarg.isEmpty

/-- **How a command line guards its calls.** -/
inductive Guarded (files : Files) (opts : List CmdOption) (caller : Caller) : Prop where
  /-- Not at all, if that is forced, and keys and user are not given together. -/
  | not (forced : .forceInsecure ∈ opts)
      (rest : givenArg .privateKey opts = none ∨ givenArg .cert opts = none ∨
        ¬ (givenArg .username opts = none ↔ givenArg .password opts = none))
  /-- With the root certificates, if neither username nor password are given. -/
  | byCertificate (encrypted : caller.encrypted = true) (user : givenArg .username opts = none)
      (pass : givenArg .password opts = none)
      (verified : ∃ roots, caller.verified roots = true ∧
        ((givenArg .ca opts).elim (roots = []) fun rpath => files rpath = some roots))
  /-- With the last username and password given. -/
  | byPassword (encrypted : caller.encrypted = true)
      (passes : ∃ user pass, givenArg .username opts = some user ∧
        givenArg .password opts = some pass ∧ MayPass ⟨user, pass⟩ caller.metadata.received)

section Given

variable {option : ArgOption} {opts : List CmdOption}

theorem givenArg_eq_none_iff :
    givenArg option opts = none ↔ (lastOf (CmdOption.argOf option) opts).getD [] = [] := by
  rw [givenArg]
  cases lastOf (CmdOption.argOf option) opts <;> simp

theorem givenArg_eq_some {optarg : Bytes}
    (h : (lastOf (CmdOption.argOf option) opts).getD [] = optarg) (hne : optarg ≠ []) :
    givenArg option opts = some optarg := by
  subst h
  rw [givenArg]
  cases hlast : lastOf (CmdOption.argOf option) opts with
  | none => simp [hlast] at hne
  | some optarg => simpa [hlast] using hne

end Given

/-- **Whom the server serves**: calls are guarded as the command line says, whatever it is. -/
theorem guarded (files : Files) (service : Construction Ctx)
    (buildAndStart : Bytes → ServerCredentials → Bool) (opts : List CmdOption) (server : Server Ctx)
    (dispatches : ServerCredentials → Caller → Prop) (caller : Caller)
    (h : main files service buildAndStart opts = .serves server)
    (hgrpc : GrpcSecurity dispatches) (hcall : dispatches server.cred caller) :
    Guarded files opts caller := by
  have hup := (serves_iff files service buildAndStart opts server).mp h
  obtain ⟨addr, listening, cred, level, ctx⟩ := server
  have hcred : Configures files (settings opts).auth cred := hup.credentials
  change dispatches cred caller at hcall
  cases hcred with
  | mutualTls key cert user pass ssl =>
      refine .byCertificate (hgrpc.encrypted _ _ _ hcall) (givenArg_eq_none_iff.mpr user)
        (givenArg_eq_none_iff.mpr pass) ⟨_, hgrpc.verified _ _ _ hcall ssl.request, ?_⟩
      have hroots := ssl.roots
      rw [RootCerts] at hroots
      split_ifs at hroots with hca
      · rw [givenArg_eq_none_iff.mpr hca]
        exact hroots
      · rw [givenArg_eq_some rfl hca]
        exact hroots
  | userPassTls key cert user pass ssl =>
      exact .byPassword (hgrpc.encrypted _ _ _ hcall) ⟨_, _, givenArg_eq_some rfl user,
        givenArg_eq_some rfl pass, mayPass_of_ok (hgrpc.processed _ _ _ hcall)⟩
  | insecure forced rest =>
      have hforced : CmdOption.forceInsecure ∈ opts := by
        simpa [settings, Settings.after] using forced
      refine .not hforced ?_
      rw [givenArg_eq_none_iff, givenArg_eq_none_iff, givenArg_eq_none_iff, givenArg_eq_none_iff]
      exact rest

/-- A client of a server with a username and a password. -/
def adminCaller : Caller where
  encrypted := true
  verified := fun _ => false
  metadata :=
    [(⟨ascii "password", []⟩, ⟨ascii "pw", []⟩), (⟨ascii "username", []⟩, ⟨ascii "admin", []⟩)]

/-- The command line of that server. -/
def adminOptions : List CmdOption :=
  [.arg .privateKey (ascii "key"), .arg .cert (ascii "cert"), .arg .username (ascii "root"),
    .arg .password (ascii "pw"), .arg .username (ascii "admin")]

/-- Calls that are dispatched as gRPC documents, and no others. -/
def documented (cred : ServerCredentials) (caller : Caller) : Prop :=
  match cred with
  | .insecure => caller.encrypted = false
  | .ssl opts processor => caller.encrypted = true ∧
      (opts.client_certificate_request =
          .GRPC_SSL_REQUEST_AND_REQUIRE_CLIENT_CERTIFICATE_AND_VERIFY →
        caller.verified opts.pem_root_certs = true) ∧
      ∀ auth, processor = some auth → (auth.process caller.metadata []).1.code = .OK

theorem grpcSecurity_documented : GrpcSecurity documented :=
  ⟨fun _ _ _ h => h.1, fun _ _ _ h => h.2.1, fun _ auth _ h => h.2.2 auth rfl⟩

/-- The server that comes up. -/
def adminServer : Server Unit where
  bind_addr := ascii "localhost:50051"
  listening := ascii "localhost:50051"
  cred := .ssl ⟨.GRPC_SSL_DONT_REQUEST_CLIENT_CERTIFICATE, [([], [])], []⟩
    (some ⟨ascii "admin", ascii "pw"⟩)
  level := .info
  ctx := ()

/-- That client is served, and so guarded by the last username given. -/
theorem guarded_admin : Guarded (fun _ => some []) adminOptions adminCaller := by
  refine guarded (fun _ => some []) (.done ()) (fun _ _ => true) adminOptions
    adminServer documented adminCaller rfl grpcSecurity_documented ?_
  refine ⟨rfl, fun h => ?_, fun auth h => ?_⟩
  · cases h
  · obtain rfl := Option.some.inj h
    decide

end SysrepoGnxi
