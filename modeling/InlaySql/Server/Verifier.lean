import InlaySql.Sql.CatalogRoundTrip

/-!
# Password verifiers

What the server keeps of a password and how it checks what a client sends against it: the
stage-two digests of `mysql_native_password` and `caching_sha2_password`, and the salted,
iterated digest of a strong account. The digests themselves are parameters.
-/

namespace InlaySql.Server

open Lib Sql

/-- SHA-1, SHA-256 and PBKDF2-HMAC-SHA256 (rounds, salt, password), with the sizes of what
they return. -/
structure Hashes where
  sha1 : Bytes -> Bytes
  sha256 : Bytes -> Bytes
  pbkdf2 : Nat -> Bytes -> Bytes -> Bytes
  length_sha1 : ∀ message, (sha1 message).length = 20
  length_sha256 : ∀ message, (sha256 message).length = 32

def nativePassword : String := "mysql_native_password"

def cachingSha2Password : String := "caching_sha2_password"

/-! ## Hexadecimal -/

/-- `char::from_digit` in base 16, raised by `to_ascii_uppercase`. -/
def hexDigit (digit : Nat) : Char := (Nat.digitChar digit).toUpper

def hexPair (byte : UInt8) : List Char :=
  [hexDigit (byte.toNat >>> 4), hexDigit (byte.toNat &&& 0x0f)]

def hex (bytes : Bytes) : String := String.ofList (bytes.flatMap hexPair)

/-- `char::to_digit` in base 16, of a byte taken as a character. -/
def toDigit (byte : UInt8) : Option Nat :=
  let code := byte.toNat
  if 48 ≤ code ∧ code ≤ 57 then some (code - 48)
  else if 65 ≤ code ∧ code ≤ 70 then some (code - 55)
  else if 97 ≤ code ∧ code ≤ 102 then some (code - 87)
  else none

def unhexPairs : Bytes -> Option Bytes
  | high :: low :: rest => do
      let high <- toDigit high
      let low <- toDigit low
      return UInt8.ofNat (high <<< 4 ||| low) :: (<- unhexPairs rest)
  | _ => some []

/-- `unhex`: exactly `width` bytes of hex. -/
def unhex (width : Nat) (text : String) : Option Bytes :=
  if (utf8 text).length ≠ width * 2 then none else unhexPairs (utf8 text)

theorem toDigit_hexDigit {digit : Nat} (small : digit < 16) :
    ∃ byte, String.utf8EncodeChar (hexDigit digit) = [byte] ∧ toDigit byte = some digit := by
  have all : ∀ digit < 16, ∃ byte ∈ String.utf8EncodeChar (hexDigit digit),
      String.utf8EncodeChar (hexDigit digit) = [byte] ∧ toDigit byte = some digit := by
    decide +kernel
  obtain ⟨byte, -, alone⟩ := all digit small
  exact ⟨byte, alone⟩

theorem halves (byte : UInt8) : byte.toNat >>> 4 < 16 ∧ byte.toNat &&& 0x0f < 16 ∧
      UInt8.ofNat (byte.toNat >>> 4 <<< 4 ||| byte.toNat &&& 0x0f) = byte := by
  have all : ∀ number < 256, number >>> 4 < 16 ∧ number &&& 0x0f < 16 ∧
      number >>> 4 <<< 4 ||| number &&& 0x0f = number := by decide +kernel
  obtain ⟨high, low, whole⟩ := all byte.toNat byte.toNat_lt
  exact ⟨high, low, by rw [whole]; simp⟩

theorem unhexPairs_flatMap (bytes : Bytes) :
    unhexPairs ((bytes.flatMap hexPair).flatMap String.utf8EncodeChar) = some bytes ∧
      ((bytes.flatMap hexPair).flatMap String.utf8EncodeChar).length = bytes.length * 2 := by
  induction bytes with
  | nil => exact ⟨rfl, rfl⟩
  | cons byte rest ih =>
    obtain ⟨high, low, whole⟩ := halves byte
    obtain ⟨first, writtenFirst, readFirst⟩ := toDigit_hexDigit high
    obtain ⟨second, writtenSecond, readSecond⟩ := toDigit_hexDigit low
    have written : ((byte :: rest).flatMap hexPair).flatMap String.utf8EncodeChar =
        first :: second :: (rest.flatMap hexPair).flatMap String.utf8EncodeChar := by
      simp [hexPair, writtenFirst, writtenSecond]
    rw [written]
    refine ⟨?_, by simp [ih.2]; omega⟩
    simp only [unhexPairs, readFirst, readSecond, ih.1, Option.bind_eq_bind, Option.bind_some,
      Option.pure_def, whole]

theorem unhex_hex {width : Nat} {bytes : Bytes} (size : bytes.length = width) :
    unhex width (hex bytes) = some bytes := by
  obtain ⟨read, length⟩ := unhexPairs_flatMap bytes
  simp [unhex, hex, utf8, String.toList_ofList, read, length, size]

/-! ## Comparing and masking -/

def constantTimeEq (left right : Bytes) : Bool :=
  if left.length ≠ right.length then false
  else (left.zip right).foldl (fun difference pair => difference ||| (pair.1 ^^^ pair.2)) 0 == 0

/-- A token with its mask laid over it, or stripped off. -/
def mask (token mask : Bytes) : Bytes := List.zipWith (· ^^^ ·) token mask

theorem foldl_difference_eq_zero (pairs : List (UInt8 × UInt8)) (found : UInt8) :
    pairs.foldl (fun difference pair => difference ||| (pair.1 ^^^ pair.2)) found = 0 ↔
      found = 0 ∧ ∀ pair ∈ pairs, pair.1 = pair.2 := by
  induction pairs generalizing found with
  | nil => simp
  | cons pair rest ih =>
    rw [List.foldl_cons, ih, UInt8.or_eq_zero_iff, UInt8.xor_eq_zero_iff]
    simp [and_assoc]

@[simp] theorem constantTimeEq_iff {left right : Bytes} :
    constantTimeEq left right = true ↔ left = right := by
  unfold constantTimeEq
  by_cases size : left.length = right.length
  · rw [if_neg (by simpa using size), beq_iff_eq, foldl_difference_eq_zero]
    constructor
    · rintro ⟨-, pairs⟩
      apply List.ext_getElem size
      intro index inLeft inRight
      exact pairs (left[index], right[index])
        (List.mem_iff_getElem.2 ⟨index, by simpa using ⟨inLeft, inRight⟩, by simp⟩)
    · rintro rfl
      refine ⟨rfl, fun pair member => ?_⟩
      obtain ⟨index, bound, rfl⟩ := List.mem_iff_getElem.1 member
      simp
  · rw [if_pos (by simpa using size)]
    simp only [Bool.false_eq_true, false_iff]
    rintro rfl
    exact size rfl

@[simp] theorem length_mask (token cover : Bytes) :
    (mask token cover).length = min token.length cover.length := by
  simp [mask]

theorem mask_mask {token cover : Bytes} (size : token.length = cover.length) :
    mask (mask token cover) cover = token := by
  apply List.ext_getElem (by simp [size])
  intro index _ bound
  simp [mask]

/-! ## `mysql_native_password` -/

/-- What a stored `mysql_native_password` verifier means. -/
inductive NativeVerifier where
  | empty
  | stage2 (digest : Bytes)
  | malformed

def nativeVerifier (hashes : Hashes) (password : String) : String :=
  if password = "" then "" else "*" ++ hex (hashes.sha1 (hashes.sha1 (utf8 password)))

def nativeVerifierOf (verifier : String) : NativeVerifier :=
  match verifier.toList with
  | [] => .empty
  | '*' :: digits =>
    match unhex 20 (String.ofList digits) with
    | some stage2 => .stage2 stage2
    | none => .malformed
  | _ => .malformed

def verifyNative (hashes : Hashes) (verifier : String) (challenge response : Bytes) : Bool :=
  match nativeVerifierOf verifier with
  | .empty => response.isEmpty
  | .malformed => false
  | .stage2 stage2 =>
    if response.length ≠ 20 then false
    else
      let claimed := mask response (hashes.sha1 (challenge ++ stage2))
      constantTimeEq (hashes.sha1 claimed) stage2

/-- What the client sends: the password's digest behind a mask of the challenge. -/
def nativeToken (hashes : Hashes) (password : String) (challenge : Bytes) : Bytes :=
  let digest := hashes.sha1 (utf8 password)
  mask digest (hashes.sha1 (challenge ++ hashes.sha1 digest))

variable {hashes : Hashes} {verifier : String} {challenge response payload : Bytes}

theorem nativeVerifierOf_nativeVerifier {password : String} (nonempty : password ≠ "") :
    nativeVerifierOf (nativeVerifier hashes password) =
      .stage2 (hashes.sha1 (hashes.sha1 (utf8 password))) := by
  have read := unhex_hex (hashes.length_sha1 (hashes.sha1 (utf8 password)))
  simp [nativeVerifier, nonempty, nativeVerifierOf, read]

/-- A token proves an empty password by being empty, and any other by covering a preimage of
the stored digest. -/
theorem verifyNative_iff : verifyNative hashes verifier challenge response = true ↔
      (nativeVerifierOf verifier = .empty ∧ response = []) ∨
        ∃ stage2 secret, nativeVerifierOf verifier = .stage2 stage2 ∧ secret.length = 20 ∧
          hashes.sha1 secret = stage2 ∧
          response = mask secret (hashes.sha1 (challenge ++ stage2)) := by
  unfold verifyNative
  cases nativeVerifierOf verifier with
  | empty => simp
  | malformed => simp
  | stage2 stage2 =>
    have cover := hashes.length_sha1 (challenge ++ stage2)
    simp only [reduceCtorEq, false_and, false_or, NativeVerifier.stage2.injEq]
    constructor
    · intro ok
      split at ok
      · simp at ok
      · rename_i size
        have same : response.length = (hashes.sha1 (challenge ++ stage2)).length := by
          rw [cover]
          omega
        exact ⟨stage2, _, rfl, by simp [same, cover], by simpa using ok, (mask_mask same).symm⟩
    · rintro ⟨_, secret, rfl, size, hashed, rfl⟩
      have same : secret.length = (hashes.sha1 (challenge ++ stage2)).length := by
        rw [cover, size]
      rw [if_neg (by simp [size, cover]), constantTimeEq_iff, mask_mask same, hashed]

theorem verifyNative_eq_false (wrong : response ≠ []) (size : response.length ≠ 20) :
    verifyNative hashes verifier challenge response = false := by
  rw [Bool.eq_false_iff]
  intro ok
  rcases verifyNative_iff.1 ok with ⟨-, rfl⟩ | ⟨stage2, secret, -, long, -, rfl⟩
  · exact wrong rfl
  · exact size (by simp [long, hashes.length_sha1])

theorem verifyNative_nativeToken {password : String} (nonempty : password ≠ "") :
    verifyNative hashes (nativeVerifier hashes password) challenge
      (nativeToken hashes password challenge) = true :=
  verifyNative_iff.2 <| .inr
    ⟨_, _, nativeVerifierOf_nativeVerifier nonempty, hashes.length_sha1 _, rfl, rfl⟩

variable (password : String)

@[simp] theorem length_nativeToken : (nativeToken hashes password challenge).length = 20 := by
  simp [nativeToken, hashes.length_sha1]

/-! ## `caching_sha2_password` -/

def sha2Verifier (hashes : Hashes) (password : String) : String :=
  hex (hashes.sha256 (hashes.sha256 (utf8 password)))

def sha2Stage2 (verifier : String) : Option Bytes := unhex 32 verifier

def verifyCachingSha2 (hashes : Hashes) (verifier : String) (scramble response : Bytes) : Bool :=
  if response.length ≠ 32 then false
  else
    match sha2Stage2 verifier with
    | none => false
    | some stage2 =>
      let claimed := mask response (hashes.sha256 (stage2 ++ scramble))
      constantTimeEq (hashes.sha256 claimed) stage2

/-- The payload of a full authentication without the terminator of its framing. -/
def cleartextOf (payload : Bytes) : Bytes :=
  if payload.getLast? = some 0 then payload.dropLast else payload

def verifyCachingSha2Cleartext (hashes : Hashes) (verifier : String) (payload : Bytes) : Bool :=
  match sha2Stage2 verifier with
  | none => false
  | some stage2 => constantTimeEq (hashes.sha256 (hashes.sha256 (cleartextOf payload))) stage2

/-- What the client sends: the password's digest behind a mask of the scramble. -/
def sha2Token (hashes : Hashes) (password : String) (scramble : Bytes) : Bytes :=
  let digest := hashes.sha256 (utf8 password)
  mask digest (hashes.sha256 (hashes.sha256 digest ++ scramble))

theorem sha2Stage2_sha2Verifier : sha2Stage2 (sha2Verifier hashes password) =
      some (hashes.sha256 (hashes.sha256 (utf8 password))) :=
  unhex_hex (hashes.length_sha256 _)

theorem verifyCachingSha2_iff : verifyCachingSha2 hashes verifier challenge response = true ↔
      ∃ stage2 secret, sha2Stage2 verifier = some stage2 ∧ secret.length = 32 ∧
        hashes.sha256 secret = stage2 ∧
        response = mask secret (hashes.sha256 (stage2 ++ challenge)) := by
  unfold verifyCachingSha2
  cases sha2Stage2 verifier with
  | none => simp
  | some stage2 =>
    have cover := hashes.length_sha256 (stage2 ++ challenge)
    simp only [Option.some.injEq]
    constructor
    · intro ok
      split at ok
      · simp at ok
      · rename_i size
        have same : response.length = (hashes.sha256 (stage2 ++ challenge)).length := by
          rw [cover]
          omega
        exact ⟨stage2, _, rfl, by simp [same, cover], by simpa using ok, (mask_mask same).symm⟩
    · rintro ⟨_, secret, rfl, size, hashed, rfl⟩
      have same : secret.length = (hashes.sha256 (stage2 ++ challenge)).length := by
        rw [cover, size]
      rw [if_neg (by simp [size, cover]), constantTimeEq_iff, mask_mask same, hashed]

theorem verifyCachingSha2_sha2Token :
    verifyCachingSha2 hashes (sha2Verifier hashes password) challenge
      (sha2Token hashes password challenge) = true :=
  verifyCachingSha2_iff.2 ⟨_, _, sha2Stage2_sha2Verifier password, hashes.length_sha256 _, rfl, rfl⟩

@[simp] theorem length_sha2Token : (sha2Token hashes password challenge).length = 32 := by
  simp [sha2Token, hashes.length_sha256]

theorem verifyCachingSha2Cleartext_iff : verifyCachingSha2Cleartext hashes verifier payload = true ↔
      ∃ stage2, sha2Stage2 verifier = some stage2 ∧
        hashes.sha256 (hashes.sha256 (cleartextOf payload)) = stage2 := by
  unfold verifyCachingSha2Cleartext
  cases sha2Stage2 verifier with
  | none => simp
  | some stage2 => simpa using eq_comm

/-! ## Strong verifiers -/

def strongPrefix : List Char := ['$', 'I', '$']

def strongRounds : Nat := 210000

def strongVerifier (hashes : Hashes) (salt : Bytes) (password : String) : String :=
  String.ofList (strongPrefix ++ (toString strongRounds).toList ++ '$' :: (hex salt).toList ++
    '$' :: (hex (hashes.pbkdf2 strongRounds salt (utf8 password))).toList)

def isStrong (verifier : String) : Bool := strongPrefix.isPrefixOf verifier.toList

/-- `str::parse::<u32>`: decimal digits behind an optional plus. -/
def parseU32 (text : List Char) : Option Nat :=
  let digits := match text with
    | '+' :: rest => rest
    | _ => text
  if digits = [] ∨ ¬digits.all Char.isDigit then none
  else
    let number := digits.foldl (fun number digit => number * 10 + (digit.toNat - 48)) 0
    if number < 2 ^ 32 then some number else none

/-- `parse_strong`: rounds, salt and digest. -/
def parseStrong (verifier : String) : Option (Nat × Bytes × Bytes) :=
  if isStrong verifier then
    match (verifier.toList.drop strongPrefix.length).splitOn '$' with
    | [rounds, salt, digest] => do
        let rounds <- parseU32 rounds
        let salt <- unhex 16 (String.ofList salt)
        let digest <- unhex 32 (String.ofList digest)
        if rounds = 0 then none else some (rounds, salt, digest)
    | _ => none
  else none

def verifyStrongCleartext (hashes : Hashes) (verifier : String) (payload : Bytes) : Bool :=
  match parseStrong verifier with
  | none => false
  | some (rounds, salt, expected) =>
    constantTimeEq (hashes.pbkdf2 rounds salt (cleartextOf payload)) expected

theorem verifyStrongCleartext_iff : verifyStrongCleartext hashes verifier payload = true ↔
      ∃ rounds salt expected, parseStrong verifier = some (rounds, salt, expected) ∧
        hashes.pbkdf2 rounds salt (cleartextOf payload) = expected := by
  unfold verifyStrongCleartext
  rcases parseStrong verifier with _ | ⟨rounds, salt, expected⟩
  · simp
  · simpa using eq_comm

@[simp] theorem isStrong_strongVerifier (salt : Bytes) (password : String) :
    isStrong (strongVerifier hashes salt password) = true := by
  simp [isStrong, strongVerifier, strongPrefix]

theorem sha2Stage2_of_isStrong (strong : isStrong verifier = true) : sha2Stage2 verifier = none := by
  obtain ⟨rest, spelled⟩ := List.isPrefixOf_iff_prefix.1 strong
  have front : ∃ tail, utf8 verifier = 36 :: 73 :: tail := by
    refine ⟨36 :: rest.flatMap String.utf8EncodeChar, ?_⟩
    rw [utf8, <- spelled, strongPrefix, List.flatMap_append]
    rfl
  obtain ⟨tail, front⟩ := front
  unfold sha2Stage2 unhex
  split
  · rfl
  · rw [front]
    rfl

theorem verifyCachingSha2_of_isStrong (strong : isStrong verifier = true) :
    verifyCachingSha2 hashes verifier challenge response = false := by
  rw [Bool.eq_false_iff]
  intro ok
  obtain ⟨stage2, -, decoded, -⟩ := verifyCachingSha2_iff.1 ok
  rw [sha2Stage2_of_isStrong strong] at decoded
  cases decoded

end InlaySql.Server
