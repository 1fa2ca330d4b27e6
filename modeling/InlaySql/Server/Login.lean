import InlaySql.Lib.Dialogue
import InlaySql.Server.Handshake

/-!
# Logging in

The login exchange, from the greeting to the OK packet or the refusal, against a client that
may send anything. Beside it, what the exchange is for: a client is let in on proof only, a
client that follows the protocol with the right password is let in, and a client that is
turned away learns nothing of the account.
-/

namespace InlaySql.Server

open Lib Sql Dialogue

inductive TlsPolicy where
  | disabled
  | available
  | required
  deriving DecidableEq

/-- A connection: its number, and the certificate it may offer with the policy behind it. -/
structure Connection where
  connectionId : Nat
  tls : Option TlsPolicy

/-- How a login ends: turned away, or with a session of the user, which is `ready` unless the
schema it named is refused. -/
inductive Login where
  | refused
  | admitted (user : String) (ready : Bool)
  deriving DecidableEq

/-- The server's side of a login. -/
abbrev Exchange (α : Type) := Dialogue Bytes ServerMessage α

/-- `fail`: an error packet. -/
def fail {α : Type} (error : MysqlError) (answer : α) : Exchange α := do
  send (.error error)
  return answer

/-! ## The exchange -/

def fastAuthSuccess : UInt8 := 0x03
def performFullAuthentication : UInt8 := 0x04
def requestPublicKey : UInt8 := 0x02

namespace MysqlError

def noCertificate : MysqlError := new 2026 "HY000"
  ("SSL connection error: this server has no certificate configured. " ++
    "Start it with --tls-cert and --tls-key, or connect without TLS.")

def serverRequiresTls : MysqlError := new 1045 "28000"
  ("Access denied: this server requires TLS. Connect with --ssl-mode=REQUIRED " ++
    "(or your client's equivalent).")

def accountRequiresTls : MysqlError := new 1045 "28000"
  ("Access denied: this account's password is stored in a form that can only be " ++
    "checked over TLS. Serve this database with --tls-cert and --tls-key, and " ++
    "connect with --ssl-mode=REQUIRED.")

def cleartextRequiresTls : MysqlError := new 1045 "28000"
  ("Access denied: full authentication sends the password in the clear, and this " ++
    "server offers TLS, so it is only allowed over an encrypted connection. " ++
    "Reconnect with --ssl-mode=REQUIRED (or your client's equivalent).")

def noPublicKey : MysqlError := unsupported
  ("the RSA public-key exchange for caching_sha2_password is not implemented; " ++
    "this server has no key to hand out and takes the cleartext password directly " ++
    "during full authentication instead, which it allows only over TLS or on a " ++
    "server with no certificate at all — reconnect with --ssl-mode=REQUIRED if this " ++
    "server has a certificate, or tell the client to use mysql_native_password")

end MysqlError

section Exchange

variable (hashes : Hashes) (connection : Connection) (challenge : Bytes)

/-- `caching_sha2_authenticate`: whether the password is right and whether one was sent, or
`none` when the exchange ended on its own. -/
def cachingSha2Authenticate (encrypted : Bool) (account : Account) (initialResponse : Bytes) :
    Exchange (Option (Bool × Bool)) :=
  if initialResponse.length = 32 then
    if account.verifyCachingSha2 hashes challenge initialResponse then do
      send (.authMoreData [fastAuthSuccess])
      return some (true, true)
    else return some (false, true)
  else if !encrypted && account.requiresTls then fail .accountRequiresTls none
  else if !encrypted && connection.tls.isSome then fail .cleartextRequiresTls none
  else do
    send (.authMoreData [performFullAuthentication])
    match <- receive with
    | none => return none
    | some payload =>
      if payload = [requestPublicKey] then fail .noPublicKey none
      else return some (account.verifyCachingSha2Cleartext hashes payload, !payload.isEmpty)

/-- One plugin's exchange, from the token the client sent for it. -/
def completePlugin (encrypted : Bool) (account : Account) (plugin : String) (token : Bytes) :
    Exchange (Option (Bool × Bool)) :=
  if plugin = cachingSha2Password then
    cachingSha2Authenticate hashes connection challenge encrypted account token
  else return some (account.verifyNative hashes challenge token, !token.isEmpty)

/-- The plugin a client named; its token is `mysql_native_password`'s when it named none. -/
def HandshakeResponse.plugin (self : HandshakeResponse) : String :=
  if self.authPlugin = "" then nativePassword else self.authPlugin

/-- The proof: under the plugin the client named, or the one it is asked to switch to. -/
def checkPassword (encrypted : Bool) (account : Account) (response : HandshakeResponse) :
    Exchange (Option (Bool × Bool)) :=
  if (response.plugin = cachingSha2Password ∨ response.plugin = nativePassword) ∧
      account.speaks response.plugin then
    completePlugin hashes connection challenge encrypted account response.plugin
      response.authResponse
  else
    match account.preferredPlugin with
    | none => fail (.accessDenied response.username false) none
    | some switchTo => do
        send (.authSwitchRequest switchTo challenge)
        match <- receive with
        | none => return none
        | some token =>
          completePlugin hashes connection challenge encrypted account switchTo token

/-- `check_database`: the schemas of the server itself are not this file's. -/
def checkDatabase (name : String) : Except MysqlError Unit :=
  if name = "" ∨ lower name = "inlaysql" then .ok ()
  else if ["information_schema", "mysql", "performance_schema", "sys"].any (lower name = ·) then
    .error (.new 1044 "42000" ("Access denied for user to database '" ++ name ++ "'"))
  else .ok ()

/-- What follows a proof that went through. -/
def enter (response : HandshakeResponse) : Exchange Login :=
  match checkDatabase (response.database.getD "") with
  | .error error => fail error (.admitted response.username false)
  | .ok () => do
      send .ok
      return .admitted response.username true

/-- `authenticate`, once the handshake response is read. -/
def logIn (store : AccountStore) (encrypted : Bool) (response : HandshakeResponse) : Exchange Login :=
  if connection.tls = some .required ∧ encrypted = false then fail .serverRequiresTls .refused
  else
    match store.account response.username with
    | .error error => fail error .refused
    | .ok found => do
        let account := found.getD (.unknown response.username)
        match <- checkPassword hashes connection challenge encrypted account response with
        | none => return .refused
        | some (true, _) => enter response
        | some (false, withPassword) =>
          fail (.accessDenied response.username withPassword) .refused

/-- `authenticate`, up to the handshake response and whether it came encrypted; `none` when
the login ended before. -/
def readHandshake : Exchange (Option (HandshakeResponse × Bool)) := do
  send (.handshake connection.connectionId challenge connection.tls.isSome)
  match <- receive with
  | none => return none
  | some packet =>
    match parseHandshakeResponse packet true with
    | .error error => fail error none
    | .ok response =>
      if response.ssl then
        match connection.tls with
        | none => fail .noCertificate none
        | some _ => do
            -- The upgrade puts what follows on an encrypted link.
            match <- receive with
            | none => return none
            | some packet =>
              match parseHandshakeResponse packet false with
              | .error error => fail error none
              | .ok response => return some (response, true)
      else return some (response, false)

def authenticate (store : AccountStore) : Exchange Login := do
  match <- readHandshake connection challenge with
  | none => return .refused
  | some (response, encrypted) => logIn hashes connection challenge store encrypted response

end Exchange

/-! ## What a login is for -/

/-- Bytes the client handed over: a message of its own, or the token of a handshake response. -/
inductive Offered (turns : List (Turn Bytes ServerMessage)) : Bytes -> Prop
  | message {bytes : Bytes} (sent : .received bytes ∈ turns) : Offered turns bytes
  | token {packet : Bytes} {expectSslRequest : Bool} {response : HandshakeResponse}
      (sent : .received packet ∈ turns)
      (read : parseHandshakeResponse packet expectSslRequest = .ok response) :
      Offered turns response.authResponse

/-- A client is let in only as a user that has an account, and only once bytes it sent have
proved that account against this connection's challenge. -/
def GrantsOnProof (hashes : Hashes) (connection : Connection) (challenge : Bytes)
    (store : AccountStore) : Prop :=
  ∀ client user ready, (authenticate hashes connection challenge store client []).1 =
      .admitted user ready ->
    ∃ account, store.account user = .ok (some account) ∧ ∃ plugin bytes,
      account.speaks plugin ∧ Proof hashes challenge account plugin bytes ∧
        Offered (authenticate hashes connection challenge store client []).2 bytes

/-- The stored verifiers are those of the password. -/
structure Account.HasPassword (account : Account) (hashes : Hashes) (password : String) : Prop where
  native : ∀ verifier, account.native = some verifier -> verifier = nativeVerifier hashes password
  sha2 : ∀ verifier, account.sha2 = some verifier -> verifier = sha2Verifier hashes password ∨
    ∃ salt, verifier = strongVerifier hashes salt password

/-- The token of a plugin the client knows. -/
def Answers (hashes : Hashes) (password : String) (challenge : Bytes) (plugin : String)
    (token : Bytes) : Prop :=
  (plugin = nativePassword -> token = nativeToken hashes password challenge) ∧
    (plugin = cachingSha2Password -> token = sha2Token hashes password challenge)

/-- The client follows the protocol with a password: it answers the greeting with a handshake
response for some plugin, encrypted or not, an `AuthSwitchRequest` with the token of the
plugin it names, and a request for full authentication, on an encrypted link, with the
password. -/
structure Follows (hashes : Hashes) (user password : String) (encrypts : Bool)
    (client : Strategy Bytes ServerMessage) : Prop where
  asksForTls : encrypts -> ∀ connectionId challenge,
    ∃ packet request, client [.sent (.handshake connectionId challenge true)] = some packet ∧
      parseHandshakeResponse packet true = .ok request ∧ request.ssl
  respondsEncrypted : encrypts -> ∀ connectionId challenge request,
    ∃ packet response,
      client [.sent (.handshake connectionId challenge true), .received request] = some packet ∧
      parseHandshakeResponse packet false = .ok response ∧ response.username = user ∧
      Answers hashes password challenge response.plugin response.authResponse
  responds : encrypts = false -> ∀ connectionId challenge tls,
    ∃ packet response, client [.sent (.handshake connectionId challenge tls)] = some packet ∧
      parseHandshakeResponse packet true = .ok response ∧ response.ssl = false ∧
      response.username = user ∧
      Answers hashes password challenge response.plugin response.authResponse
  switches : ∀ turns plugin challenge, ∃ token,
    client (turns ++ [.sent (.authSwitchRequest plugin challenge)]) = some token ∧
      Answers hashes password challenge plugin token
  completes : encrypts -> ∀ turns,
    client (turns ++ [.sent (.authMoreData [performFullAuthentication])]) =
      some (utf8 password ++ [0])

/-- The token of the plugins the client knows. -/
def clientToken (hashes : Hashes) (password plugin : String) (challenge : Bytes) : Bytes :=
  if plugin = cachingSha2Password then sha2Token hashes password challenge
  else nativeToken hashes password challenge

/-- What the client answers to a message of the exchange. -/
def protocolReply (hashes : Hashes) (password : String) : Turn Bytes ServerMessage -> Option Bytes
  | .sent (.authSwitchRequest plugin challenge) => some (clientToken hashes password plugin challenge)
  | .sent (.authMoreData payload) =>
    if payload = [performFullAuthentication] then some (utf8 password ++ [0]) else none
  | _ => none

/-- A client that names a plugin and sends its token with the handshake response. -/
def protocolClient (hashes : Hashes) (user password plugin : String) (encrypts : Bool) :
    Strategy Bytes ServerMessage
  | [.sent (.handshake _ challenge _)] =>
    some (if encrypts then sslRequestPacket
      else responsePacket user plugin (clientToken hashes password plugin challenge))
  | [.sent (.handshake _ challenge _), .received _] =>
    some (responsePacket user plugin (clientToken hashes password plugin challenge))
  | turns => turns.getLast?.bind (protocolReply hashes password)

/-- The links an account may use. -/
structure Account.MayUse (account : Account) (connection : Connection) (encrypts : Bool) : Prop where
  offered : encrypts -> connection.tls.isSome
  policy : connection.tls = some .required -> encrypts
  verifier : account.requiresTls -> encrypts

/-- A client that follows the protocol with the account's non-empty password is let in. -/
def GrantsOnPassword (hashes : Hashes) (connection : Connection) (challenge : Bytes)
    (store : AccountStore) (user : String) : Prop :=
  ∀ account, store.account user = .ok (some account) -> (account.preferredPlugin).isSome ->
    ∀ password, password ≠ "" -> account.HasPassword hashes password ->
    ∀ encrypts, account.MayUse connection encrypts ->
    ∀ client, Follows hashes user password encrypts client ->
      ∃ ready, (authenticate hashes connection challenge store client []).1 = .admitted user ready

/-- A client that is turned away under either store was told the same under both. -/
def RefusesAlike (hashes : Hashes) (connection : Connection) (challenge : Bytes)
    (left right : AccountStore) : Prop :=
  ∀ client, (authenticate hashes connection challenge left client []).1 = .refused ->
    (authenticate hashes connection challenge right client []).1 = .refused ->
    said (authenticate hashes connection challenge left client []).2 =
      said (authenticate hashes connection challenge right client []).2

/-- Two readable stores that differ in the account of one user only. -/
structure StoresDifferingAt (user : String) where
  left : AccountStore
  right : AccountStore
  leftAccount : Option Account
  rightAccount : Option Account
  readsLeft : left.account user = .ok leftAccount
  readsRight : right.account user = .ok rightAccount
  elsewhere : ∀ other, other ≠ user -> left.account other = right.account other

/-- The whole of it, for two stores that differ in one account. -/
structure LoginHolds (hashes : Hashes) (connection : Connection) (challenge : Bytes)
    (user : String) (stores : StoresDifferingAt user) : Prop where
  proofLeft : GrantsOnProof hashes connection challenge stores.left
  proofRight : GrantsOnProof hashes connection challenge stores.right
  passwordLeft : GrantsOnPassword hashes connection challenge stores.left user
  passwordRight : GrantsOnPassword hashes connection challenge stores.right user
  alike : RefusesAlike hashes connection challenge stores.left stores.right

/-! ## When it holds -/

/-- The account can only be checked against its cleartext password, and some password is the
one it was made from. -/
def Account.Strong (self : Account) (hashes : Hashes) : Prop :=
  self.requiresTls ∧ ∃ password, password ≠ "" ∧ self.HasPassword hashes password

/-- The exchange treats the two accounts alike: they speak the same plugins, and need an
encrypted link both or neither, unless every link is encrypted. -/
structure Account.Alike (left right : Account) (connection : Connection) : Prop where
  native : left.speaks nativePassword = right.speaks nativePassword
  sha2 : left.speaks cachingSha2Password = right.speaks cachingSha2Password
  link : connection.tls ≠ some .required -> left.requiresTls = right.requiresTls

/-- No strong account meets a server that offers encryption, and the account or its stand-in
is like the other. A name with a NUL in it cannot be sent at all. -/
def LoginCondition (hashes : Hashes) (connection : Connection) (user : String)
    (stores : StoresDifferingAt user) : Prop :=
  '\x00' ∈ user.toList ∨
    ((∀ account, stores.leftAccount = some account ∨ stores.rightAccount = some account ->
        connection.tls.isSome -> ¬account.Strong hashes) ∧
      Account.Alike (stores.leftAccount.getD (.unknown user))
        (stores.rightAccount.getD (.unknown user)) connection)

end InlaySql.Server
