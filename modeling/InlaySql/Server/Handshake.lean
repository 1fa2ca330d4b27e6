import InlaySql.Server.Account
import InlaySql.Sql.Namespaces

/-!
# Handshake packets

The packets of a login: how the server reads a client's handshake response, and what it
sends. A client's messages are bytes; the server's are kept as what they say, since each is
written out by a function of its own.
-/

namespace InlaySql.Server

open Lib Sql

open Stateful (bind_eq_ok bind_of_ok)

/-! ## Reading a packet -/

/-- A packet that ended sooner than its own contents said it would. -/
inductive Malformed where
  | malformed

/-- A reader over the bytes of a packet that are left. -/
abbrev PacketReader := Stateful Bytes Malformed

namespace PacketReader

def take (count : Nat) : PacketReader Bytes := fun rest =>
  if rest.length < count then (.error .malformed, rest)
  else (.ok (rest.take count), rest.drop count)

/-- A little-endian integer. -/
def number (width : Nat) : PacketReader Nat := do return ofLe (<- take width)

def lenencInt : PacketReader (Option Nat) := do
  let first <- number 1
  if first = 0xfb then return none
  else if first = 0xfc then return some (<- number 2)
  else if first = 0xfd then return some (<- number 3)
  else if first = 0xfe then return some (<- number 8)
  else return some first

def lenencBytes : PacketReader (Option Bytes) := do
  match <- lenencInt with
  | none => return none
  | some length => return some (<- take length)

/-- `nul_str`: text up to a NUL. -/
def nulStr : PacketReader String := fun rest =>
  let bytes := rest.takeWhile (· ≠ 0)
  if bytes.length = rest.length then (.error .malformed, rest)
  else
    match fromUtf8 bytes with
    | some text => (.ok text, rest.drop (bytes.length + 1))
    | none => (.error .malformed, rest)

end PacketReader

/-! ## The handshake response -/

def clientConnectWithDb : Nat := 0x0000_0008
def clientProtocol41 : Nat := 0x0000_0200
def clientSsl : Nat := 0x0000_0800
def clientSecureConnection : Nat := 0x0000_8000
def clientPluginAuth : Nat := 0x0008_0000
def clientPluginAuthLenencClientData : Nat := 0x0020_0000

structure HandshakeResponse where
  capabilities : Nat
  username : String
  authResponse : Bytes
  database : Option String
  authPlugin : String

/-- Whether the client asks to encrypt. -/
def HandshakeResponse.ssl (self : HandshakeResponse) : Bool := self.capabilities &&& clientSsl != 0

/-- A reader whose errors all read the same to the client. -/
def orMalformed {α : Type} (reader : PacketReader α) : Stateful Bytes MysqlError α := fun rest =>
  match reader rest with
  | (.ok value, rest) => (.ok value, rest)
  | (.error _, rest) => (.error (.unknown "malformed handshake response"), rest)

/-- The token of a handshake response, framed as the capabilities say. -/
def readAuthResponse (capabilities : Nat) : Stateful Bytes MysqlError Bytes :=
  if capabilities &&& clientPluginAuthLenencClientData ≠ 0 then do
    return (<- orMalformed PacketReader.lenencBytes).getD []
  else if capabilities &&& clientSecureConnection ≠ 0 then do
    let length <- orMalformed (PacketReader.number 1)
    orMalformed (PacketReader.take length)
  else do
    return utf8 (<- orMalformed PacketReader.nulStr)

def readDatabase (capabilities : Nat) : Stateful Bytes MysqlError (Option String) :=
  if capabilities &&& clientConnectWithDb ≠ 0 then do
    return some (<- orMalformed PacketReader.nulStr)
  else return none

/-- `unwrap_or("")`: a text that cannot be read counts as none. -/
def orEmpty (reader : PacketReader String) : Stateful Bytes MysqlError String := fun rest =>
  match reader rest with
  | (.ok text, rest) => (.ok text, rest)
  | (.error _, rest) => (.ok "", rest)

def readAuthPlugin (capabilities : Nat) : Stateful Bytes MysqlError String :=
  if capabilities &&& clientPluginAuth ≠ 0 then orEmpty PacketReader.nulStr
  else return ""

/-- `parse_handshake_response`, as a reader. `expectSslRequest` is the phase of the handshake:
before an upgrade a client that sets `CLIENT_SSL` has sent nothing but the request. -/
def readHandshakeResponse (expectSslRequest : Bool) : Stateful Bytes MysqlError HandshakeResponse := do
  let capabilities <- orMalformed (PacketReader.number 4)
  if capabilities &&& clientProtocol41 = 0 then
    Stateful.fail (.new 1043 "08S01"
      "Bad handshake: this server requires a client speaking the 4.1 protocol or newer")
  else if expectSslRequest ∧ capabilities &&& clientSsl ≠ 0 then
    return ⟨capabilities, "", [], none, ""⟩
  else
    let _maxPacketSize <- orMalformed (PacketReader.number 4)
    let _charset <- orMalformed (PacketReader.number 1)
    let _reserved <- orMalformed (PacketReader.take 23)
    let username <- orMalformed PacketReader.nulStr
    let authResponse <- readAuthResponse capabilities
    let database <- readDatabase capabilities
    let authPlugin <- readAuthPlugin capabilities
    return ⟨capabilities, username, authResponse, database, authPlugin⟩

def parseHandshakeResponse (payload : Bytes) (expectSslRequest : Bool) :
    Except MysqlError HandshakeResponse :=
  (readHandshakeResponse expectSslRequest payload).1

/-! ## What the server sends -/

inductive ServerMessage where
  | handshake (connectionId : Nat) (challenge : Bytes) (tls : Bool)
  | authSwitchRequest (plugin : String) (challenge : Bytes)
  | authMoreData (payload : Bytes)
  | error (error : MysqlError)
  | ok
  deriving DecidableEq

/-! ## Names on the wire -/

theorem zero_mem_utf8 {text : String} (nul : '\x00' ∈ text.toList) : 0 ∈ utf8 text := by
  rw [utf8, List.mem_flatMap]
  exact ⟨'\x00', nul, by decide +kernel⟩

theorem utf8_of_fromUtf8 {bytes : Bytes} {text : String} (decoded : fromUtf8 bytes = some text) :
    utf8 text = bytes := by
  unfold fromUtf8 String.fromUTF8? at decoded
  split at decoded
  · cases decoded
    have same : (utf8 (String.fromUTF8 bytes.toByteArray ‹_›)).toByteArray = bytes.toByteArray :=
      toByteArray_utf8 _
    simpa using congrArg (fun array : ByteArray => array.data.toList) same
  · cases decoded

namespace PacketReader

theorem nul_notMem_of_nulStr {rest left : Bytes} {text : String}
    (read : nulStr rest = (.ok text, left)) : '\x00' ∉ text.toList := by
  intro nul
  unfold nulStr at read
  dsimp only at read
  split at read
  · cases read
  · split at read
    · rename_i decoded
      obtain ⟨rfl, -⟩ : _ = text ∧ _ := by simpa using read
      have zero := zero_mem_utf8 nul
      rw [utf8_of_fromUtf8 decoded] at zero
      simpa using List.mem_takeWhile_imp zero
    · cases read

theorem nulStr_utf8 {text : String} (free : '\x00' ∉ text.toList) (rest : Bytes) :
    nulStr (utf8 text ++ 0 :: rest) = (.ok text, rest) := by
  have clean := zero_notMem_utf8 free
  have front : (utf8 text ++ 0 :: rest).takeWhile (· ≠ 0) = utf8 text := by
    rw [List.takeWhile_append_of_pos (by
      intro byte member
      simpa using fun same : byte = 0 => clean (same ▸ member))]
    simp
  unfold nulStr
  simp only [front, fromUtf8_utf8]
  rw [if_neg (by simp)]
  simp

end PacketReader

theorem orMalformed_eq_ok {α : Type} {reader : PacketReader α} {rest left : Bytes} {value : α} :
    orMalformed reader rest = (.ok value, left) ↔ reader rest = (.ok value, left) := by
  unfold orMalformed
  rcases reader rest with ⟨_ | _, _⟩ <;> simp

theorem nul_notMem_username {payload : Bytes} {expectSslRequest : Bool}
    {response : HandshakeResponse}
    (read : parseHandshakeResponse payload expectSslRequest = .ok response) :
    '\x00' ∉ response.username.toList := by
  obtain ⟨left, ran⟩ : ∃ left, readHandshakeResponse expectSslRequest payload = (.ok response, left) :=
    ⟨_, Prod.ext read rfl⟩
  unfold readHandshakeResponse at ran
  obtain ⟨capabilities, _, -, ran⟩ := bind_eq_ok ran
  split at ran
  · cases ran
  · split at ran
    · cases ran
      simp
    · obtain ⟨_, _, -, ran⟩ := bind_eq_ok ran
      obtain ⟨_, _, -, ran⟩ := bind_eq_ok ran
      obtain ⟨_, _, -, ran⟩ := bind_eq_ok ran
      obtain ⟨username, _, named, ran⟩ := bind_eq_ok ran
      obtain ⟨_, _, -, ran⟩ := bind_eq_ok ran
      obtain ⟨_, _, -, ran⟩ := bind_eq_ok ran
      obtain ⟨_, _, -, ran⟩ := bind_eq_ok ran
      cases ran
      exact PacketReader.nul_notMem_of_nulStr (orMalformed_eq_ok.1 named)

/-! ## What a client sends -/

/-- The capabilities of a client that sends its token behind a one-byte length. -/
def clientCapabilities : Nat := clientProtocol41 ||| clientSecureConnection ||| clientPluginAuth

/-- A handshake response that names a user, a plugin and a token. -/
def responsePacket (user plugin : String) (token : Bytes) : Bytes :=
  leBytes 4 clientCapabilities ++ (leBytes 4 (2 ^ 24 - 1) ++ ([45] ++ (List.replicate 23 0 ++
    (utf8 user ++ 0 :: ([UInt8.ofNat token.length] ++ (token ++ (utf8 plugin ++ 0 :: [])))))))

/-- The first half of a handshake response, which asks to encrypt. -/
def sslRequestPacket : Bytes := leBytes 4 (clientProtocol41 ||| clientSsl) ++ List.replicate 28 0

theorem take_append {front : Bytes} {count : Nat} (size : front.length = count) (rest : Bytes) :
    orMalformed (PacketReader.take count) (front ++ rest) = (.ok front, rest) := by
  subst size
  simp [orMalformed, PacketReader.take]

theorem number_append {width number : Nat} (fits : number < 256 ^ width) (rest : Bytes) :
    orMalformed (PacketReader.number width) (leBytes width number ++ rest) = (.ok number, rest) := by
  have taken := orMalformed_eq_ok.1 (take_append (length_leBytes width number) rest)
  rw [orMalformed_eq_ok]
  unfold PacketReader.number
  rw [bind_of_ok taken, ofLe_leBytes fits]
  rfl

theorem parse_responsePacket {user plugin : String} {token : Bytes}
    (userFree : '\x00' ∉ user.toList) (pluginFree : '\x00' ∉ plugin.toList)
    (size : token.length < 256) (expectSslRequest : Bool) :
    parseHandshakeResponse (responsePacket user plugin token) expectSslRequest =
      .ok ⟨clientCapabilities, user, token, none, plugin⟩ := by
  have small : clientCapabilities < 256 ^ 4 := by decide
  have byteOfLength : [UInt8.ofNat token.length] = leBytes 1 token.length := rfl
  have charset : ([45] : Bytes) = leBytes 1 45 := by decide
  unfold parseHandshakeResponse readHandshakeResponse responsePacket
  rw [bind_of_ok (number_append small _)]
  rw [if_neg (by decide), if_neg (by simp [clientCapabilities, clientProtocol41,
    clientSecureConnection, clientPluginAuth, clientSsl])]
  rw [bind_of_ok (number_append (by decide) _)]
  rw [charset, bind_of_ok (number_append (by decide) _)]
  rw [bind_of_ok (take_append (by simp) _)]
  rw [bind_of_ok (orMalformed_eq_ok.2 (PacketReader.nulStr_utf8 userFree _))]
  have auth : readAuthResponse clientCapabilities
      ([UInt8.ofNat token.length] ++ (token ++ (utf8 plugin ++ 0 :: []))) =
        (.ok token, utf8 plugin ++ 0 :: []) := by
    unfold readAuthResponse
    rw [if_neg (by decide), if_pos (by decide), byteOfLength,
      bind_of_ok (number_append (by simpa using size) _), take_append rfl]
  rw [bind_of_ok auth]
  have noDatabase : readDatabase clientCapabilities (utf8 plugin ++ 0 :: []) =
      (.ok none, utf8 plugin ++ 0 :: []) := by
    unfold readDatabase
    rw [if_neg (by decide)]
    rfl
  rw [bind_of_ok noDatabase]
  have named : readAuthPlugin clientCapabilities (utf8 plugin ++ 0 :: []) = (.ok plugin, []) := by
    unfold readAuthPlugin
    rw [if_pos (by decide), orEmpty, PacketReader.nulStr_utf8 pluginFree]
  rw [bind_of_ok named]
  rfl

theorem parse_sslRequestPacket : parseHandshakeResponse sslRequestPacket true =
      .ok ⟨clientProtocol41 ||| clientSsl, "", [], none, ""⟩ := by
  unfold parseHandshakeResponse readHandshakeResponse sslRequestPacket
  rw [bind_of_ok (number_append (by decide) _), if_neg (by decide), if_pos (by decide)]
  rfl

end InlaySql.Server
