import InlaySql.Server.Verifier

/-!
# Accounts

An account holds one verifier for each plugin it can complete and a mask of privileges. The
store is the account table of the database, or the credential the server was started with
while the database has no such table. A name without an account is played by a stand-in that
no password satisfies.
-/

namespace InlaySql.Server

open Lib Sql

/-! ## Errors -/

structure MysqlError where
  code : Nat
  sqlstate : String
  message : String
  deriving DecidableEq, Repr

namespace MysqlError

def new (code : Nat) (sqlstate message : String) : MysqlError := ⟨code, sqlstate, message⟩

def accessDenied (user : String) (withPassword : Bool) : MysqlError :=
  new 1045 "28000"
    ("Access denied for user '" ++ user ++ "' (using password: " ++
      (if withPassword then "YES" else "NO") ++ ")")

def unsupported (message : String) : MysqlError := new 1235 "42000" message

def unknown (message : String) : MysqlError := new 1105 "HY000" message

end MysqlError

/-! ## Privileges -/

/-- A set of privileges, one bit each. -/
structure Privileges where
  mask : BitVec 32
  deriving DecidableEq, Repr

namespace Privileges

def none : Privileges := ⟨0⟩

/-- Everything but the grant option. -/
def all : Privileges := ⟨0b01111111⟩

def grantOption : Privileges := ⟨0b10000000⟩

def contains (self other : Privileges) : Bool := self.mask &&& other.mask == other.mask

/-- `with`: the union. -/
def withPrivileges (self other : Privileges) : Privileges := ⟨self.mask ||| other.mask⟩

def without (self other : Privileges) : Privileges := ⟨self.mask &&& ~~~other.mask⟩

def bits (self : Privileges) : Int := self.mask.toNat

/-- `from_bits`: a stored mask, less the bits nothing defines. -/
def fromBits (bits : Int) : Privileges :=
  ⟨BitVec.ofInt 32 bits &&& (all.mask ||| grantOption.mask)⟩

end Privileges

/-! ## One account -/

structure Account where
  name : String
  native : Option String
  sha2 : Option String
  global : Privileges

namespace Account

variable (hashes : Hashes) (self : Account)

def isSuperuser : Bool := self.global.contains (Privileges.all.withPrivileges .grantOption)

def verifier (plugin : String) : Option String :=
  if plugin = nativePassword then self.native
  else if plugin = cachingSha2Password then self.sha2
  else none

def speaks (plugin : String) : Bool := (self.verifier plugin).isSome

/-- `preferred_plugin`: the plugin a client is asked to switch to. -/
def preferredPlugin : Option String :=
  if self.native.isSome then some nativePassword
  else if self.sha2.isSome then some cachingSha2Password
  else none

def verifyNative (challenge response : Bytes) : Bool :=
  self.native.any fun verifier => Server.verifyNative hashes verifier challenge response

def verifyCachingSha2 (scramble response : Bytes) : Bool :=
  self.sha2.any fun verifier => Server.verifyCachingSha2 hashes verifier scramble response

def verifyCachingSha2Cleartext (payload : Bytes) : Bool :=
  self.sha2.any fun verifier =>
    if isStrong verifier then verifyStrongCleartext hashes verifier payload
    else Server.verifyCachingSha2Cleartext hashes verifier payload

/-- `requires_tls`: the stored verifier can only be checked against a cleartext password. -/
def requiresTls : Bool := self.sha2.any isStrong

/-- `Account::unknown`: the stand-in for a name the server has never heard of. -/
def unknown (name : String) : Account where
  name
  native := some "*"
  sha2 := some ""
  global := .none

end Account

/-! ## The store -/

/-- One row of the account table. -/
structure UserRow where
  name : String
  nativeAuth : Option String
  sha2Auth : Option String
  privileges : Option Int

def UserRow.account (row : UserRow) : Account where
  name := row.name
  native := row.nativeAuth
  sha2 := row.sha2Auth
  global := .fromBits (row.privileges.getD 0)

/-- The credential the server was started with. -/
structure Bootstrap where
  user : String
  native : String
  sha2 : String

namespace Bootstrap

def new (hashes : Hashes) (user password : String) : Bootstrap where
  user
  native := nativeVerifier hashes password
  sha2 := sha2Verifier hashes password

def account (self : Bootstrap) : Account where
  name := self.user
  native := some self.native
  sha2 := some self.sha2
  global := Privileges.all.withPrivileges .grantOption

end Bootstrap

/-- What reading the account table gives. -/
inductive UserTable where
  | absent
  | unreadable (error : MysqlError)
  | rows (rows : List UserRow)

structure AccountStore where
  table : UserTable
  bootstrap : Bootstrap

/-- `acl::account`. -/
def AccountStore.account (self : AccountStore) (name : String) : Except MysqlError (Option Account) :=
  match self.table with
  | .absent => .ok (if name = self.bootstrap.user then some self.bootstrap.account else none)
  | .unreadable error => .error error
  | .rows rows => .ok ((rows.find? fun row => row.name = name).map UserRow.account)

/-! ## What a verifier accepts -/

/-- What it takes to prove an account under a plugin, in answer to a challenge. -/
inductive Proof (hashes : Hashes) (challenge : Bytes) (account : Account) : String -> Bytes -> Prop
  | noPassword {verifier : String} (stored : account.native = some verifier)
      (empty : nativeVerifierOf verifier = .empty) : Proof hashes challenge account nativePassword []
  | native {verifier : String} {stage2 secret : Bytes} (stored : account.native = some verifier)
      (decoded : nativeVerifierOf verifier = .stage2 stage2) (size : secret.length = 20)
      (preimage : hashes.sha1 secret = stage2) :
      Proof hashes challenge account nativePassword
        (mask secret (hashes.sha1 (challenge ++ stage2)))
  | scramble {verifier : String} {stage2 secret : Bytes} (stored : account.sha2 = some verifier)
      (decoded : sha2Stage2 verifier = some stage2) (size : secret.length = 32)
      (preimage : hashes.sha256 secret = stage2) :
      Proof hashes challenge account cachingSha2Password
        (mask secret (hashes.sha256 (stage2 ++ challenge)))
  | cleartext {verifier : String} {stage2 payload : Bytes} (stored : account.sha2 = some verifier)
      (decoded : sha2Stage2 verifier = some stage2)
      (hashed : hashes.sha256 (hashes.sha256 (cleartextOf payload)) = stage2) :
      Proof hashes challenge account cachingSha2Password payload
  | iterated {verifier : String} {rounds : Nat} {salt expected payload : Bytes}
      (stored : account.sha2 = some verifier)
      (decoded : parseStrong verifier = some (rounds, salt, expected))
      (derived : hashes.pbkdf2 rounds salt (cleartextOf payload) = expected) :
      Proof hashes challenge account cachingSha2Password payload

namespace Account

variable {hashes : Hashes} {self : Account} {challenge response payload : Bytes}

theorem speaks_native : self.speaks nativePassword = self.native.isSome := by
  simp [speaks, verifier]

theorem speaks_sha2 : self.speaks cachingSha2Password = self.sha2.isSome := by
  simp [speaks, verifier, cachingSha2Password, nativePassword]

theorem proof_of_verifyNative (ok : self.verifyNative hashes challenge response = true) :
    Proof hashes challenge self nativePassword response := by
  obtain ⟨verifier, stored, checked⟩ := (Option.any_eq_true _ _).1 ok
  rcases verifyNative_iff.1 checked with ⟨empty, rfl⟩ | ⟨stage2, secret, decoded, size, hashed, rfl⟩
  · exact .noPassword stored empty
  · exact .native stored decoded size hashed

theorem proof_of_verifyCachingSha2 (ok : self.verifyCachingSha2 hashes challenge response = true) :
    Proof hashes challenge self cachingSha2Password response := by
  obtain ⟨verifier, stored, checked⟩ := (Option.any_eq_true _ _).1 ok
  obtain ⟨stage2, secret, decoded, size, hashed, rfl⟩ := verifyCachingSha2_iff.1 checked
  exact .scramble stored decoded size hashed

theorem proof_of_verifyCachingSha2Cleartext
    (ok : self.verifyCachingSha2Cleartext hashes payload = true) :
    Proof hashes challenge self cachingSha2Password payload := by
  obtain ⟨verifier, stored, checked⟩ := (Option.any_eq_true _ _).1 ok
  split at checked
  · obtain ⟨rounds, salt, expected, decoded, derived⟩ := verifyStrongCleartext_iff.1 checked
    exact .iterated stored decoded derived
  · obtain ⟨stage2, decoded, hashed⟩ := verifyCachingSha2Cleartext_iff.1 checked
    exact .cleartext stored decoded hashed

theorem not_proof_unknown {name plugin : String} :
    ¬Proof hashes challenge (unknown name) plugin response := by
  have lone : nativeVerifierOf "*" = .malformed := by
    have short : unhex 20 (String.ofList []) = none := by decide +kernel
    simp [nativeVerifierOf, short]
  have blank : sha2Stage2 "" = none := by decide +kernel
  have weak : parseStrong "" = none := by decide +kernel
  intro proof
  cases proof with
  | noPassword stored decoded => cases stored; simp [lone] at decoded
  | native stored decoded => cases stored; simp [lone] at decoded
  | scramble stored decoded => cases stored; simp [blank] at decoded
  | cleartext stored decoded => cases stored; simp [blank] at decoded
  | iterated stored decoded => cases stored; simp [weak] at decoded

end Account

end InlaySql.Server
