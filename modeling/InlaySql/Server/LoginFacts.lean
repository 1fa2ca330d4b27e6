import InlaySql.Server.Login

/-!
# What a login grants and tells

Proof is always asked for. The right password is turned away exactly when it is stored strong
and the server offers encryption: the token every client sends first is checked against a
verifier that no token answers, and counts as a wrong password. And a refusal tells two
accounts apart exactly when they speak different plugins or need different links.
-/

namespace InlaySql.Server

open List Option Lib Sql Dialogue

variable {hashes : Hashes} {connection : Connection} {challenge : Bytes} {store : AccountStore}
  {account : Account} {response : HandshakeResponse} {client : Strategy Bytes ServerMessage}
  {turns : List (Turn Bytes ServerMessage)} {encrypted : Bool}

@[simp] theorem fail_run {α : Type} (error : MysqlError) (answer : α) :
    (fail error answer : Exchange α) client turns = (answer, turns ++ [.sent (.error error)]) := rfl

/-! ## One plugin's exchange -/

section CachingSha2

variable {token : Bytes}

theorem cachingSha2_fast (size : token.length = 32) :
    cachingSha2Authenticate hashes connection challenge encrypted account token client turns =
      if account.verifyCachingSha2 hashes challenge token
      then (some (true, true), turns ++ [.sent (.authMoreData [fastAuthSuccess])])
      else (some (false, true), turns) := by
  unfold cachingSha2Authenticate
  rw [if_pos size]
  split <;> rfl

theorem cachingSha2_accountLink (size : token.length ≠ 32) (strong : account.requiresTls = true) :
    cachingSha2Authenticate hashes connection challenge false account token client turns =
      (none, turns ++ [.sent (.error .accountRequiresTls)]) := by
  unfold cachingSha2Authenticate
  rw [if_neg size, if_pos (by simpa using strong)]
  rfl

theorem cachingSha2_serverLink (size : token.length ≠ 32) (weak : account.requiresTls = false)
    (offered : connection.tls.isSome = true) :
    cachingSha2Authenticate hashes connection challenge false account token client turns =
      (none, turns ++ [.sent (.error .cleartextRequiresTls)]) := by
  unfold cachingSha2Authenticate
  rw [if_neg size, if_neg (by simp [weak]), if_pos (by simpa using offered)]
  rfl

/-- The link may carry a cleartext password for this account. -/
def CarriesCleartext (connection : Connection) (encrypted : Bool) (account : Account) : Prop :=
  encrypted = true ∨ (account.requiresTls = false ∧ connection.tls = none)

theorem cachingSha2_full (size : token.length ≠ 32)
    (link : CarriesCleartext connection encrypted account) :
    cachingSha2Authenticate hashes connection challenge encrypted account token client turns =
      match client (turns ++ [.sent (.authMoreData [performFullAuthentication])]) with
      | none => (none, turns ++ [.sent (.authMoreData [performFullAuthentication])])
      | some payload =>
        if payload = [requestPublicKey] then
          (none, turns ++ [.sent (.authMoreData [performFullAuthentication]), .received payload,
            .sent (.error .noPublicKey)])
        else
          (some (account.verifyCachingSha2Cleartext hashes payload, !payload.isEmpty),
            turns ++ [.sent (.authMoreData [performFullAuthentication]), .received payload]) := by
  unfold cachingSha2Authenticate
  have open₁ : ¬(!encrypted && account.requiresTls) = true := by
    rcases link with rfl | ⟨weak, -⟩ <;> simp_all
  have open₂ : ¬(!encrypted && connection.tls.isSome) = true := by
    rcases link with rfl | ⟨-, none⟩ <;> simp_all
  rw [if_neg size, if_neg open₁, if_neg open₂]
  simp only [bind_run, send_run]
  cases answer : client (turns ++ [.sent (.authMoreData [performFullAuthentication])]) with
  | none => simp [receive_of_none answer]
  | some payload =>
    simp only [receive_of_some answer]
    split <;> simp

theorem cachingSha2_ways (connection : Connection) (encrypted : Bool) (account : Account)
    (token : Bytes) :
    token.length = 32 ∨ token.length ≠ 32 ∧ (CarriesCleartext connection encrypted account ∨
          encrypted = false ∧ account.requiresTls = true ∨
          encrypted = false ∧ account.requiresTls = false ∧ connection.tls.isSome = true) := by
  by_cases size : token.length = 32
  · exact .inl size
  · refine .inr ⟨size, ?_⟩
    cases encrypted with
    | true => exact .inl (.inl rfl)
    | false =>
      cases weak : account.requiresTls with
      | true => exact .inr (.inl ⟨rfl, rfl⟩)
      | false =>
        cases offered : connection.tls with
        | none => exact .inl (.inr ⟨weak, offered⟩)
        | some policy => exact .inr (.inr ⟨rfl, rfl, rfl⟩)

theorem proof_of_cachingSha2 {withPassword : Bool}
    (ok : (cachingSha2Authenticate hashes connection challenge encrypted account token client
      turns).1 = some (true, withPassword)) :
    ∃ bytes, Proof hashes challenge account cachingSha2Password bytes ∧
      (bytes = token ∨ .received bytes ∈
        (cachingSha2Authenticate hashes connection challenge encrypted account token client
          turns).2) := by
  rcases cachingSha2_ways connection encrypted account token with
    size | ⟨size, link | ⟨rfl, strong⟩ | ⟨rfl, weak, offered⟩⟩
  · rw [cachingSha2_fast size] at ok
    split at ok
    · exact ⟨token, Account.proof_of_verifyCachingSha2 ‹_›, .inl rfl⟩
    · simp at ok
  · rw [cachingSha2_full size link] at ok ⊢
    split at ok
    · cases ok
    · rename_i payload answer
      split at ok
      · cases ok
      · rename_i other
        obtain ⟨checked, -⟩ : account.verifyCachingSha2Cleartext hashes payload = true ∧ _ := by
          simpa using ok
        exact ⟨payload, Account.proof_of_verifyCachingSha2Cleartext checked, .inr (by simp [other])⟩
  · rw [cachingSha2_accountLink size strong] at ok
    cases ok
  · rw [cachingSha2_serverLink size weak offered] at ok
    cases ok

end CachingSha2

theorem records_fail {α : Type} (error : MysqlError) (answer : α) :
    Records (fail error answer : Exchange α) :=
  (Records.send _).bind fun _ => .pure answer

theorem records_completePlugin (plugin : String) (token : Bytes) :
    Records (completePlugin hashes connection challenge encrypted account plugin token) := by
  unfold completePlugin
  split
  · unfold cachingSha2Authenticate
    split
    · split
      · exact (Records.send _).bind fun _ => .pure _
      · exact .pure _
    · split
      · exact records_fail _ _
      · split
        · exact records_fail _ _
        · refine (Records.send _).bind fun _ => Records.receive.bind fun received => ?_
          cases received with
          | none => exact .pure _
          | some payload =>
            dsimp only
            split
            · exact records_fail _ _
            · exact .pure _
  · exact .pure _

/-! ## Proof -/

variable {plugin user password : String} {leftStore rightStore : AccountStore}

theorem proof_of_completePlugin {token : Bytes} {withPassword : Bool}
    (known : plugin = cachingSha2Password ∨ plugin = nativePassword)
    (ok : (completePlugin hashes connection challenge encrypted account plugin token client
      turns).1 = some (true, withPassword)) :
    ∃ bytes, Proof hashes challenge account plugin bytes ∧ (bytes = token ∨ .received bytes ∈
        (completePlugin hashes connection challenge encrypted account plugin token client turns).2) := by
  unfold completePlugin at ok ⊢
  split at ok
  · rename_i sha2
    subst sha2
    exact proof_of_cachingSha2 ok
  · rename_i native
    obtain rfl := known.resolve_left native
    obtain ⟨checked, -⟩ : account.verifyNative hashes challenge token = true ∧ _ := by simpa using ok
    exact ⟨token, Account.proof_of_verifyNative checked, .inl rfl⟩

section CheckPassword

/-- The plugin the client named can be completed as it stands. -/
def Completes (account : Account) (response : HandshakeResponse) : Prop :=
  (response.plugin = cachingSha2Password ∨ response.plugin = nativePassword) ∧
    account.speaks response.plugin = true

theorem checkPassword_of_completes (completes : Completes account response) :
    checkPassword hashes connection challenge encrypted account response client turns =
      completePlugin hashes connection challenge encrypted account response.plugin
        response.authResponse client turns := by
  unfold checkPassword
  rw [if_pos (show _ ∧ _ from completes)]

theorem checkPassword_of_sha2 (named : response.authPlugin = cachingSha2Password)
    {verifier : String} (stored : account.sha2 = some verifier) :
    checkPassword hashes connection challenge encrypted account response client turns =
      cachingSha2Authenticate hashes connection challenge encrypted account response.authResponse
        client turns := by
  have plugin : response.plugin = cachingSha2Password := by
    rw [HandshakeResponse.plugin, named]
    exact if_neg (by decide)
  rw [checkPassword_of_completes ⟨.inl plugin, by rw [plugin, Account.speaks_sha2, stored]; rfl⟩]
  unfold completePlugin
  rw [if_pos plugin]

theorem checkPassword_of_none (other : ¬Completes account response)
    (silent : account.preferredPlugin = none) :
    checkPassword hashes connection challenge encrypted account response client turns =
      (none, turns ++ [.sent (.error (.accessDenied response.username false))]) := by
  unfold checkPassword
  rw [if_neg (show ¬(_ ∧ _) from other), silent]
  rfl

variable {switchTo : String}

theorem checkPassword_of_switch (other : ¬Completes account response)
    (preferred : account.preferredPlugin = some switchTo) :
    checkPassword hashes connection challenge encrypted account response client turns =
      match client (turns ++ [.sent (.authSwitchRequest switchTo challenge)]) with
      | none => (none, turns ++ [.sent (.authSwitchRequest switchTo challenge)])
      | some token =>
        completePlugin hashes connection challenge encrypted account switchTo token client
          (turns ++ [.sent (.authSwitchRequest switchTo challenge), .received token]) := by
  unfold checkPassword
  rw [if_neg (show ¬(_ ∧ _) from other), preferred]
  simp only [bind_run, send_run]
  cases answer : client (turns ++ [.sent (.authSwitchRequest switchTo challenge)]) with
  | none => simp [receive_of_none answer]
  | some token => simp [receive_of_some answer]

theorem Account.preferredPlugin_known (preferred : account.preferredPlugin = some switchTo) :
    (switchTo = cachingSha2Password ∨ switchTo = nativePassword) ∧
      account.speaks switchTo = true := by
  unfold Account.preferredPlugin at preferred
  split at preferred
  · cases preferred
    exact ⟨.inr rfl, by rwa [Account.speaks_native]⟩
  · split at preferred
    · cases preferred
      exact ⟨.inl rfl, by rwa [Account.speaks_sha2]⟩
    · cases preferred

theorem proof_of_checkPassword {withPassword : Bool}
    (ok : (checkPassword hashes connection challenge encrypted account response client turns).1 =
      some (true, withPassword)) :
    ∃ plugin bytes, account.speaks plugin ∧ Proof hashes challenge account plugin bytes ∧
      (bytes = response.authResponse ∨ .received bytes ∈
        (checkPassword hashes connection challenge encrypted account response client turns).2) := by
  by_cases completes : Completes account response
  · rw [checkPassword_of_completes completes] at ok ⊢
    obtain ⟨bytes, proof, offered⟩ := proof_of_completePlugin completes.1 ok
    exact ⟨_, bytes, completes.2, proof, offered⟩
  · cases preferred : account.preferredPlugin with
    | none =>
      rw [checkPassword_of_none completes preferred] at ok
      cases ok
    | some switchTo =>
      obtain ⟨known, speaks⟩ := Account.preferredPlugin_known preferred
      rw [checkPassword_of_switch completes preferred] at ok ⊢
      split at ok
      · cases ok
      · rename_i token answer
        obtain ⟨bytes, proof, offered⟩ := proof_of_completePlugin known ok
        refine ⟨switchTo, bytes, speaks, proof, .inr ?_⟩
        rcases offered with rfl | received
        · exact (records_completePlugin switchTo bytes client _).subset (by simp)
        · exact received

end CheckPassword

theorem records_checkPassword :
    Records (checkPassword hashes connection challenge encrypted account response) := by
  unfold checkPassword
  split
  · exact records_completePlugin _ _
  · split
    · exact records_fail _ _
    · refine (Records.send _).bind fun _ => Records.receive.bind fun received => ?_
      cases received with
      | none => exact .pure _
      | some token => exact records_completePlugin _ _

theorem enter_run (response : HandshakeResponse) (client : Strategy Bytes ServerMessage)
    (turns : List (Turn Bytes ServerMessage)) : ∃ message ready,
    enter response client turns = (.admitted response.username ready, turns ++ [.sent message]) := by
  cases checked : checkDatabase (response.database.getD "") with
  | error error => exact ⟨.error error, false, by simp [enter, checked]⟩
  | ok => exact ⟨.ok, true, by simp [enter, checked]⟩

theorem records_enter : Records (enter response) := by
  intro client turns
  obtain ⟨message, ready, ran⟩ := enter_run response client turns
  rw [ran]
  exact prefix_append _ _

theorem records_logIn : Records (logIn hashes connection challenge store encrypted response) := by
  unfold logIn
  split
  · exact records_fail _ _
  · split
    · exact records_fail _ _
    · refine records_checkPassword.bind fun checked => ?_
      rcases checked with _ | ⟨_ | _, withPassword⟩
      · exact .pure _
      · exact records_fail _ _
      · exact records_enter

theorem logIn_of_found (link : connection.tls = some .required -> encrypted = true)
    {found : Option Account} (reads : store.account response.username = .ok found) :
    logIn hashes connection challenge store encrypted response client turns =
      match checkPassword hashes connection challenge encrypted
          (found.getD (.unknown response.username)) response client turns with
      | (none, turns) => (.refused, turns)
      | (some (true, _), turns) => enter response client turns
      | (some (false, withPassword), turns) =>
        (.refused, turns ++ [.sent (.error (.accessDenied response.username withPassword))]) := by
  unfold logIn
  rw [if_neg (by simpa using link), reads]
  simp only [bind_run]
  rcases checkPassword hashes connection challenge encrypted
    (found.getD (.unknown response.username)) response client turns with ⟨_ | ⟨_ | _, _⟩, _⟩ <;> rfl

theorem proof_of_logIn {ready : Bool}
    (admitted : (logIn hashes connection challenge store encrypted response client turns).1 =
      .admitted user ready) :
    user = response.username ∧ ∃ account, store.account user = .ok (some account) ∧
      ∃ plugin bytes, account.speaks plugin ∧ Proof hashes challenge account plugin bytes ∧
        (bytes = response.authResponse ∨ .received bytes ∈
          (logIn hashes connection challenge store encrypted response client turns).2) := by
  by_cases link : connection.tls = some .required -> encrypted = true
  · cases reads : store.account response.username with
    | error error =>
      unfold logIn at admitted
      rw [if_neg (by simpa using link), reads] at admitted
      cases admitted
    | ok found =>
      rw [logIn_of_found link reads] at admitted ⊢
      cases checked : checkPassword hashes connection challenge encrypted
          (found.getD (.unknown response.username)) response client turns with
      | mk outcome later =>
        rw [checked] at admitted
        rcases outcome with _ | ⟨_ | _, withPassword⟩
        · cases admitted
        · cases admitted
        · obtain ⟨message, entered, ran⟩ := enter_run response client later
          change (enter response client later).1 = _ at admitted
          have same : user = response.username := by
            rw [ran] at admitted
            injection admitted with same
            exact same.symm
          have ok : (checkPassword hashes connection challenge encrypted
              (found.getD (.unknown response.username)) response client turns).1 =
                some (true, withPassword) := by
            rw [checked]
          obtain ⟨plugin, bytes, speaks, proof, offered⟩ := proof_of_checkPassword ok
          rw [checked] at offered
          cases found with
          | none => exact absurd proof Account.not_proof_unknown
          | some account =>
            refine ⟨same, account, by rw [same, reads], plugin, bytes, speaks, proof, ?_⟩
            refine offered.imp_right fun received => ?_
            exact (records_enter client later).subset received
  · unfold logIn at admitted
    rw [if_pos (by simpa using link)] at admitted
    cases admitted

/-! ## The greeting -/

theorem received_of_readHandshake
    (ran : (readHandshake connection challenge client turns).1 = some (response, encrypted)) :
    ∃ packet expectSslRequest,
      .received packet ∈ (readHandshake connection challenge client turns).2 ∧
      parseHandshakeResponse packet expectSslRequest = .ok response := by
  unfold readHandshake at ran ⊢
  simp only [bind_run, send_run] at ran ⊢
  generalize turns ++ [.sent (.handshake connection.connectionId challenge connection.tls.isSome)] =
    greeted at ran ⊢
  cases answer : client greeted with
  | none => simp [receive_of_none answer] at ran
  | some packet =>
    simp only [receive_of_some answer] at ran ⊢
    cases parsed : parseHandshakeResponse packet true with
    | error error => simp [parsed] at ran
    | ok first =>
      simp only [parsed] at ran ⊢
      by_cases asks : first.ssl = true
      · simp only [asks, if_true] at ran ⊢
        cases offered : connection.tls with
        | none => simp [offered] at ran
        | some policy =>
          simp only [offered, bind_run] at ran ⊢
          cases again : client (greeted ++ [.received packet]) with
          | none => simp [receive_of_none again] at ran
          | some second =>
            simp only [receive_of_some again] at ran ⊢
            cases read : parseHandshakeResponse second false with
            | error error => simp [read] at ran
            | ok reply =>
              obtain ⟨rfl, -⟩ : reply = response ∧ _ := by simpa [read] using ran
              exact ⟨second, false, by simp, read⟩
      · obtain ⟨rfl, -⟩ : first = response ∧ _ := by simpa [asks] using ran
        exact ⟨packet, true, by simp [asks], parsed⟩

theorem authenticate_of_some
    (ran : (readHandshake connection challenge client []).1 = some (response, encrypted)) :
    authenticate hashes connection challenge store client [] =
      logIn hashes connection challenge store encrypted response client
        (readHandshake connection challenge client []).2 := by
  simp [authenticate, ran]

theorem authenticate_of_none (ran : (readHandshake connection challenge client []).1 = none) :
    authenticate hashes connection challenge store client [] =
      (.refused, (readHandshake connection challenge client []).2) := by
  simp [authenticate, ran]

theorem grantsOnProof : GrantsOnProof hashes connection challenge store := by
  intro client user ready admitted
  cases ran : (readHandshake connection challenge client []).1 with
  | none =>
    rw [authenticate_of_none ran] at admitted
    cases admitted
  | some opened =>
    obtain ⟨response, encrypted⟩ := opened
    rw [authenticate_of_some ran] at admitted ⊢
    obtain ⟨-, account, reads, plugin, bytes, speaks, proof, offered⟩ := proof_of_logIn admitted
    refine ⟨account, reads, plugin, bytes, speaks, proof, ?_⟩
    rcases offered with rfl | received
    · obtain ⟨packet, phase, sent, read⟩ := received_of_readHandshake ran
      exact .token ((records_logIn client _).subset sent) read
    · exact .message received

/-! ## The right password -/

theorem readHandshake_of_follows (connection : Connection) (challenge : Bytes) {encrypts : Bool}
    (follows : Follows hashes user password encrypts client)
    (offered : encrypts -> connection.tls.isSome) :
    ∃ response, (readHandshake connection challenge client []).1 = some (response, encrypts) ∧
      response.username = user ∧
      Answers hashes password challenge response.plugin response.authResponse := by
  unfold readHandshake
  simp only [bind_run, send_run, nil_append]
  cases encrypts with
  | false =>
    obtain ⟨packet, response, sent, read, plain, named, answers⟩ :=
      follows.responds rfl connection.connectionId challenge connection.tls.isSome
    refine ⟨response, ?_, named, answers⟩
    simp [receive_of_some sent, read, plain]
  | true =>
    have certificate := offered rfl
    rw [certificate]
    obtain ⟨first, request, sent, read, asks⟩ :=
      follows.asksForTls rfl connection.connectionId challenge
    obtain ⟨packet, response, sentAgain, readAgain, named, answers⟩ :=
      follows.respondsEncrypted rfl connection.connectionId challenge first
    refine ⟨response, ?_, named, answers⟩
    obtain ⟨policy, holds⟩ := isSome_iff_exists.1 certificate
    simp only [receive_of_some sent, read, asks, if_true, holds, bind_run, singleton_append]
    simp [receive_of_some sentAgain, readAgain]

theorem completePlugin_of_answers {token : Bytes}
    (known : plugin = cachingSha2Password ∨ plugin = nativePassword)
    (speaks : account.speaks plugin = true) (nonempty : password ≠ "")
    (right : account.HasPassword hashes password) (weak : account.requiresTls = false)
    (answers : Answers hashes password challenge plugin token) :
    ∃ withPassword, (completePlugin hashes connection challenge encrypted account plugin token client
      turns).1 = some (true, withPassword) := by
  unfold completePlugin
  rcases known with rfl | rfl
  · rw [if_pos rfl, answers.2 rfl, cachingSha2_fast (length_sha2Token password)]
    rw [Account.speaks_sha2] at speaks
    obtain ⟨verifier, stored⟩ := isSome_iff_exists.1 speaks
    have checked : account.verifyCachingSha2 hashes challenge (sha2Token hashes password challenge) =
        true := by
      refine (Option.any_eq_true _ _).2 ⟨verifier, stored, ?_⟩
      rcases right.sha2 verifier stored with rfl | ⟨salt, rfl⟩
      · exact verifyCachingSha2_sha2Token password
      · simp [Account.requiresTls, stored] at weak
    exact ⟨true, by rw [if_pos checked]⟩
  · rw [if_neg (by decide), answers.1 rfl]
    rw [Account.speaks_native] at speaks
    obtain ⟨verifier, stored⟩ := isSome_iff_exists.1 speaks
    have checked : account.verifyNative hashes challenge (nativeToken hashes password challenge) =
        true := by
      refine (Option.any_eq_true _ _).2 ⟨verifier, stored, ?_⟩
      rw [right.native verifier stored]
      exact verifyNative_nativeToken nonempty
    exact ⟨!(nativeToken hashes password challenge).isEmpty, by simp [checked]⟩

theorem checkPassword_of_answers (connection : Connection) (encrypted : Bool)
    (turns : List (Turn Bytes ServerMessage)) {encrypts : Bool}
    (follows : Follows hashes user password encrypts client)
    (spoken : account.preferredPlugin.isSome = true) (nonempty : password ≠ "")
    (right : account.HasPassword hashes password) (weak : account.requiresTls = false)
    (answers : Answers hashes password challenge response.plugin response.authResponse) :
    ∃ withPassword, (checkPassword hashes connection challenge encrypted account response client
      turns).1 = some (true, withPassword) := by
  by_cases completes : Completes account response
  · rw [checkPassword_of_completes completes]
    exact completePlugin_of_answers completes.1 completes.2 nonempty right weak answers
  · obtain ⟨switchTo, preferred⟩ := isSome_iff_exists.1 spoken
    obtain ⟨known, speaks⟩ := Account.preferredPlugin_known preferred
    obtain ⟨token, sent, answered⟩ := follows.switches turns switchTo challenge
    rw [checkPassword_of_switch completes preferred, sent]
    exact completePlugin_of_answers known speaks nonempty right weak answered

theorem grantsOnPassword_of_weak
    (weak : ∀ account, store.account user = .ok (some account) -> connection.tls.isSome ->
      ¬account.Strong hashes) : GrantsOnPassword hashes connection challenge store user := by
  intro account reads spoken password nonempty right encrypts may client follows
  have plain : account.requiresTls = false := by
    by_contra strong
    have link := may.verifier (by simpa using strong)
    exact weak account reads (may.offered link) ⟨by simpa using strong, password, nonempty, right⟩
  obtain ⟨response, opened, rfl, answers⟩ :=
    readHandshake_of_follows connection challenge follows may.offered
  rw [authenticate_of_some opened, logIn_of_found may.policy reads]
  obtain ⟨withPassword, checked⟩ := checkPassword_of_answers connection encrypts
    (readHandshake connection challenge client []).2 follows spoken nonempty right plain answers
  obtain ⟨later, ran⟩ : ∃ later, checkPassword hashes connection challenge encrypts account response
      client (readHandshake connection challenge client []).2 = (some (true, withPassword), later) :=
    ⟨_, Prod.ext checked rfl⟩
  obtain ⟨message, ready, entered⟩ := enter_run response client later
  refine ⟨ready, ?_⟩
  rw [getD_some, ran]
  exact congrArg Prod.fst entered

theorem length_clientToken (hashes : Hashes) (challenge : Bytes) (password plugin : String) :
    (clientToken hashes password plugin challenge).length < 256 := by
  unfold clientToken
  split <;> simp

theorem answers_clientToken (password plugin : String) :
    Answers hashes password challenge plugin (clientToken hashes password plugin challenge) := by
  constructor
  · rintro rfl
    exact if_neg (by decide)
  · rintro rfl
    exact if_pos rfl

theorem protocolClient_append (user password plugin : String) (encrypts : Bool)
    {message : ServerMessage} (later : ∀ connectionId challenge tls,
      message ≠ .handshake connectionId challenge tls) :
    protocolClient hashes user password plugin encrypts (turns ++ [.sent message]) =
      protocolReply hashes password (.sent message) := by
  unfold protocolClient
  split
  · rename_i connectionId challenge tls spelled
    have last := congrArg List.getLast? spelled
    simp at last
    exact absurd last (later _ _ _)
  · rename_i spelled
    have last := congrArg List.getLast? spelled
    simp at last
  · simp

theorem follows_protocolClient (userFree : '\x00' ∉ user.toList)
    (pluginFree : '\x00' ∉ plugin.toList) (named : plugin ≠ "") (password : String)
    (encrypts : Bool) :
    Follows hashes user password encrypts
      (protocolClient hashes user password plugin encrypts) where
  asksForTls asks connectionId challenge := by
    subst asks
    exact ⟨_, _, rfl, parse_sslRequestPacket, by decide⟩
  respondsEncrypted asks connectionId challenge request := by
    subst asks
    refine ⟨_, _, rfl, parse_responsePacket userFree pluginFree (length_clientToken _ _ _ _) false, rfl, ?_⟩
    simpa [HandshakeResponse.plugin, named] using answers_clientToken password plugin
  responds plain connectionId challenge tls := by
    subst plain
    refine ⟨_, _, rfl, parse_responsePacket userFree pluginFree (length_clientToken _ _ _ _) true,
      by simp [HandshakeResponse.ssl]; decide, rfl, ?_⟩
    simpa [HandshakeResponse.plugin, named] using answers_clientToken password plugin
  switches turns switchTo challenge := by
    refine ⟨_, protocolClient_append user password plugin encrypts (by simp), ?_⟩
    exact answers_clientToken password switchTo
  completes _ turns := by
    rw [protocolClient_append user password plugin encrypts (by simp)]
    simp [protocolReply]

theorem Account.sha2_of_requiresTls (strong : account.requiresTls = true) :
    ∃ verifier, account.sha2 = some verifier ∧ isStrong verifier = true :=
  (Option.any_eq_true _ _).1 strong

theorem not_grantsOnPassword_of_strong (free : '\x00' ∉ user.toList)
    (reads : store.account user = .ok (some account)) (offered : connection.tls.isSome)
    (strong : account.Strong hashes) :
    ¬GrantsOnPassword hashes connection challenge store user := by
  obtain ⟨requires, password, nonempty, right⟩ := strong
  obtain ⟨verifier, stored, iterated⟩ := Account.sha2_of_requiresTls requires
  intro grants
  let client := protocolClient hashes user password cachingSha2Password true
  have follows : Follows hashes user password true client :=
    follows_protocolClient free (by decide +kernel) (by decide) password true
  have spoken : account.preferredPlugin.isSome = true := by
    unfold Account.preferredPlugin
    split
    · rfl
    · simp [stored]
  have may : account.MayUse connection true := ⟨fun _ => offered, fun _ => rfl, fun _ => rfl⟩
  obtain ⟨ready, admitted⟩ := grants account reads spoken password nonempty right true may client follows
  obtain ⟨policy, holds⟩ := isSome_iff_exists.1 offered
  have opened : (readHandshake connection challenge client []).1 =
      some (⟨clientCapabilities, user, clientToken hashes password cachingSha2Password challenge,
        none, cachingSha2Password⟩, true) := by
    have named : '\x00' ∉ cachingSha2Password.toList := by decide +kernel
    have read := parse_responsePacket free named
      (length_clientToken hashes challenge password cachingSha2Password) false
    unfold readHandshake
    simp only [bind_run, send_run, nil_append]
    rw [@receive_of_some _ _ _ _ sslRequestPacket rfl]
    have asks : HandshakeResponse.ssl ⟨clientProtocol41 ||| clientSsl, "", [], none, ""⟩ = true := by
      decide
    simp only [parse_sslRequestPacket, asks, if_true, holds, bind_run]
    rw [receive_of_some rfl]
    simp [read]
  have refused : account.verifyCachingSha2 hashes challenge
      (clientToken hashes password cachingSha2Password challenge) = false := by
    simp [Account.verifyCachingSha2, stored, verifyCachingSha2_of_isStrong iterated]
  have size : (clientToken hashes password cachingSha2Password challenge).length = 32 := by
    simp [clientToken]
  rw [authenticate_of_some opened, logIn_of_found (fun _ => rfl) reads, getD_some,
    checkPassword_of_sha2 rfl stored, cachingSha2_fast size, refused] at admitted
  cases admitted

theorem grantsOnPassword_of_nul (nul : '\x00' ∈ user.toList) :
    GrantsOnPassword hashes connection challenge store user := by
  intro account reads spoken password nonempty right encrypts may client follows
  cases encrypts with
  | false =>
    obtain ⟨packet, response, -, read, -, rfl, -⟩ := follows.responds rfl 0 [] false
    exact absurd nul (nul_notMem_username read)
  | true =>
    obtain ⟨packet, response, -, read, rfl, -⟩ := follows.respondsEncrypted rfl 0 [] []
    exact absurd nul (nul_notMem_username read)

/-! ## What a refusal tells -/

section Alike

variable {left right : Account}

/-- Two checks that differ only where one of them accepts. -/
def DifferByAccepting (one other : Option (Bool × Bool) × List (Turn Bytes ServerMessage)) : Prop :=
  one = other ∨ (∃ withPassword, one.1 = some (true, withPassword)) ∨
    ∃ withPassword, other.1 = some (true, withPassword)

theorem differByAccepting_of_outcome (one other withPassword : Bool)
    (record : List (Turn Bytes ServerMessage)) :
    DifferByAccepting (some (one, withPassword), record) (some (other, withPassword), record) := by
  cases one with
  | true => exact .inr (.inl ⟨withPassword, rfl⟩)
  | false =>
    cases other with
    | true => exact .inr (.inr ⟨withPassword, rfl⟩)
    | false => exact .inl rfl

section

variable {token : Bytes} (link : encrypted = false -> left.requiresTls = right.requiresTls)

include link

theorem cachingSha2_alike : DifferByAccepting
      (cachingSha2Authenticate hashes connection challenge encrypted left token client turns)
      (cachingSha2Authenticate hashes connection challenge encrypted right token client turns) := by
  rcases cachingSha2_ways connection encrypted left token with
    size | ⟨size, carries | ⟨rfl, strong⟩ | ⟨rfl, weak, offered⟩⟩
  · rw [cachingSha2_fast size, cachingSha2_fast size]
    split
    · exact .inr (.inl ⟨true, rfl⟩)
    · split
      · exact .inr (.inr ⟨true, rfl⟩)
      · exact .inl rfl
  · have carriesRight : CarriesCleartext connection encrypted right := by
      cases encrypted with
      | true => exact .inl rfl
      | false => exact .inr ((carries.resolve_left (by simp)).imp_left fun weak => link rfl ▸ weak)
    rw [cachingSha2_full size carries, cachingSha2_full size carriesRight]
    split
    · exact .inl rfl
    · split
      · exact .inl rfl
      · exact differByAccepting_of_outcome _ _ _ _
  · rw [cachingSha2_accountLink size strong, cachingSha2_accountLink size (link rfl ▸ strong)]
    exact .inl rfl
  · rw [cachingSha2_serverLink size weak offered,
      cachingSha2_serverLink size (link rfl ▸ weak) offered]
    exact .inl rfl

theorem completePlugin_alike : DifferByAccepting
      (completePlugin hashes connection challenge encrypted left plugin token client turns)
      (completePlugin hashes connection challenge encrypted right plugin token client turns) := by
  unfold completePlugin
  split
  · exact cachingSha2_alike link
  · exact differByAccepting_of_outcome _ _ _ _

end

theorem preferredPlugin_alike (native : left.speaks nativePassword = right.speaks nativePassword)
    (sha2 : left.speaks cachingSha2Password = right.speaks cachingSha2Password) :
    left.preferredPlugin = right.preferredPlugin := by
  rw [Account.speaks_native, Account.speaks_native] at native
  rw [Account.speaks_sha2, Account.speaks_sha2] at sha2
  unfold Account.preferredPlugin
  rw [native, sha2]

theorem completes_alike (response : HandshakeResponse)
    (native : left.speaks nativePassword = right.speaks nativePassword)
    (sha2 : left.speaks cachingSha2Password = right.speaks cachingSha2Password) :
    Completes left response ↔ Completes right response := by
  unfold Completes
  refine and_congr_right fun known => ?_
  rcases known with named | named <;> rw [named]
  · rw [sha2]
  · rw [native]

theorem checkPassword_alike (hashes : Hashes) (challenge : Bytes) (response : HandshakeResponse)
    (client : Strategy Bytes ServerMessage) (turns : List (Turn Bytes ServerMessage))
    (native : left.speaks nativePassword = right.speaks nativePassword)
    (sha2 : left.speaks cachingSha2Password = right.speaks cachingSha2Password)
    (link : encrypted = false -> left.requiresTls = right.requiresTls) :
    DifferByAccepting
      (checkPassword hashes connection challenge encrypted left response client turns)
      (checkPassword hashes connection challenge encrypted right response client turns) := by
  have both := completes_alike response native sha2
  have asked := preferredPlugin_alike native sha2
  by_cases completes : Completes left response
  · rw [checkPassword_of_completes completes, checkPassword_of_completes (both.1 completes)]
    exact completePlugin_alike link
  · have neither : ¬Completes right response := fun right => completes (both.2 right)
    cases preferred : left.preferredPlugin with
    | none =>
      rw [checkPassword_of_none completes preferred,
        checkPassword_of_none neither (asked ▸ preferred)]
      exact .inl rfl
    | some switchTo =>
      rw [checkPassword_of_switch completes preferred,
        checkPassword_of_switch neither (asked ▸ preferred)]
      split
      · exact .inl rfl
      · exact completePlugin_alike link

theorem logIn_ne_refused (link : connection.tls = some .required -> encrypted = true)
    {found : Option Account} (reads : store.account response.username = .ok found)
    {withPassword : Bool}
    (accepted : (checkPassword hashes connection challenge encrypted
      (found.getD (.unknown response.username)) response client turns).1 = some (true, withPassword)) :
    (logIn hashes connection challenge store encrypted response client turns).1 ≠ .refused := by
  obtain ⟨later, ran⟩ : ∃ later, checkPassword hashes connection challenge encrypted
      (found.getD (.unknown response.username)) response client turns =
        (some (true, withPassword), later) := ⟨_, Prod.ext accepted rfl⟩
  obtain ⟨message, ready, entered⟩ := enter_run response client later
  rw [logIn_of_found link reads, ran]
  intro refused
  cases (congrArg Prod.fst entered).symm.trans refused

end Alike

theorem logIn_alike {left right : Option Account}
    (readsLeft : leftStore.account response.username = .ok left)
    (readsRight : rightStore.account response.username = .ok right)
    (alike : Account.Alike (left.getD (.unknown response.username))
      (right.getD (.unknown response.username)) connection)
    (refusedLeft : (logIn hashes connection challenge leftStore encrypted response client
      turns).1 = .refused)
    (refusedRight : (logIn hashes connection challenge rightStore encrypted response client
      turns).1 = .refused) :
    logIn hashes connection challenge leftStore encrypted response client turns =
      logIn hashes connection challenge rightStore encrypted response client turns := by
  by_cases link : connection.tls = some .required -> encrypted = true
  · have same : encrypted = false -> (left.getD (.unknown response.username)).requiresTls =
        (right.getD (.unknown response.username)).requiresTls := by
      rintro rfl
      exact alike.link fun required => absurd (link required) (by simp)
    rcases checkPassword_alike hashes challenge response client turns alike.native alike.sha2
        same with
      equal | ⟨withPassword, accepted⟩ | ⟨withPassword, accepted⟩
    · rw [logIn_of_found link readsLeft, logIn_of_found link readsRight, equal]
    · exact absurd refusedLeft (logIn_ne_refused link readsLeft accepted)
    · exact absurd refusedRight (logIn_ne_refused link readsRight accepted)
  · unfold logIn
    rw [if_pos (by simpa using link), if_pos (by simpa using link)]

theorem logIn_congr
    (same : leftStore.account response.username = rightStore.account response.username) :
    logIn hashes connection challenge leftStore encrypted response =
      logIn hashes connection challenge rightStore encrypted response := by
  unfold logIn
  rw [same]

/-- Stores that differ in like accounts refuse alike, and so do stores that differ only in a
name nobody can send. -/
theorem refusesAlike_of_alike (stores : StoresDifferingAt user)
    (alike : '\x00' ∈ user.toList ∨ Account.Alike (stores.leftAccount.getD (.unknown user))
      (stores.rightAccount.getD (.unknown user)) connection) :
    RefusesAlike hashes connection challenge stores.left stores.right := by
  intro client refusedLeft refusedRight
  cases ran : (readHandshake connection challenge client []).1 with
  | none => rw [authenticate_of_none ran, authenticate_of_none ran]
  | some opened =>
    obtain ⟨response, encrypted⟩ := opened
    rw [authenticate_of_some ran] at refusedLeft refusedRight ⊢
    rw [authenticate_of_some ran]
    by_cases named : response.username = user
    · obtain ⟨packet, phase, -, read⟩ := received_of_readHandshake ran
      subst named
      have alike := alike.resolve_left (nul_notMem_username read)
      rw [logIn_alike stores.readsLeft stores.readsRight alike refusedLeft refusedRight]
    · rw [logIn_congr (stores.elsewhere _ named)]

/-! ## Telling accounts apart -/

/-- What opens a probe: a handshake response, encrypted or not, whose token is one byte. -/
def probeOpening (user plugin : String) (encrypts : Bool) : List Bytes :=
  (if encrypts then [sslRequestPacket] else []) ++ [responsePacket user plugin [requestPublicKey]]

/-- A client that knows no password: behind the opening it only asks for the public key. -/
def probe (user plugin : String) (encrypts : Bool) : Strategy Bytes ServerMessage := fun turns =>
  some ((probeOpening user plugin encrypts)[spoken turns]?.getD [requestPublicKey])

/-- The response of a probe. -/
def probeResponse (user plugin : String) : HandshakeResponse :=
  ⟨clientCapabilities, user, [requestPublicKey], none, plugin⟩

section Probe

variable {user plugin : String} {encrypts : Bool}

theorem readHandshake_probe (challenge : Bytes) (userFree : '\x00' ∉ user.toList) (pluginFree : '\x00' ∉ plugin.toList)
    (offered : encrypts -> connection.tls.isSome) :
    ∃ opened, readHandshake connection challenge (probe user plugin encrypts) [] =
        (some (probeResponse user plugin, encrypts), opened) ∧
      spoken opened = (probeOpening user plugin encrypts).length := by
  have size : [requestPublicKey].length < 256 := by decide
  have read := parse_responsePacket userFree pluginFree size
  unfold readHandshake
  simp only [bind_run, send_run, nil_append]
  cases encrypts with
  | false =>
    rw [@receive_of_some _ _ _ _ (responsePacket user plugin [requestPublicKey]) rfl]
    have plain : HandshakeResponse.ssl
        ⟨clientCapabilities, user, [requestPublicKey], none, plugin⟩ = false := by
      simp [HandshakeResponse.ssl]
      decide
    simp only [read, plain]
    exact ⟨_, rfl, rfl⟩
  | true =>
    obtain ⟨policy, holds⟩ := isSome_iff_exists.1 (offered rfl)
    rw [@receive_of_some _ _ _ _ sslRequestPacket rfl]
    have asks : HandshakeResponse.ssl ⟨clientProtocol41 ||| clientSsl, "", [], none, ""⟩ = true := by
      decide
    simp only [parse_sslRequestPacket, asks, if_true, holds, bind_run]
    rw [@receive_of_some _ _ _ _ (responsePacket user plugin [requestPublicKey]) rfl]
    simp only [read]
    exact ⟨_, rfl, rfl⟩

theorem probe_of_opened (opened : (probeOpening user plugin encrypts).length ≤ spoken turns) :
    probe user plugin encrypts turns = some [requestPublicKey] := by
  unfold probe
  rw [getElem?_eq_none opened]
  rfl

/-- The client asks for the key from here on. -/
def AsksForKey (client : Strategy Bytes ServerMessage) (turns : List (Turn Bytes ServerMessage)) :
    Prop :=
  ∀ later, client (turns ++ later) = some [requestPublicKey]

theorem asksForKey_probe (opened : spoken turns = (probeOpening user plugin encrypts).length) :
    AsksForKey (probe user plugin encrypts) turns := by
  intro later
  refine probe_of_opened ?_
  rw [spoken, countP_append, <- opened]
  exact Nat.le_add_right _ _

theorem AsksForKey.append (asks : AsksForKey client turns)
    (more : List (Turn Bytes ServerMessage)) : AsksForKey client (turns ++ more) := by
  intro later
  rw [append_assoc]
  exact asks _

/-- What the plugin answers to a token of the wrong length. -/
def askedOf (connection : Connection) (encrypted : Bool) (account : Account) : ServerMessage :=
  if !encrypted && account.requiresTls then .error .accountRequiresTls
  else if !encrypted && connection.tls.isSome then .error .cleartextRequiresTls
  else .authMoreData [performFullAuthentication]

/-- What the server says first to a probe that names a plugin. -/
def firstAnswer (connection : Connection) (challenge : Bytes) (encrypted : Bool) (account : Account)
    (response : HandshakeResponse) : ServerMessage :=
  if (response.plugin = cachingSha2Password ∨ response.plugin = nativePassword) ∧
      account.speaks response.plugin then
    if response.plugin = cachingSha2Password then askedOf connection encrypted account
    else .error (.accessDenied response.username true)
  else
    match account.preferredPlugin with
    | none => .error (.accessDenied response.username false)
    | some switchTo => .authSwitchRequest switchTo challenge

/-- The exchange ends in a refusal, and these are the first words of it. -/
def RefusedWith (turns : List (Turn Bytes ServerMessage)) (message : ServerMessage)
    (ran : Option (Bool × Bool) × List (Turn Bytes ServerMessage)) : Prop :=
  ran.1 = none ∧ ∃ tail, ran.2 = turns ++ .sent message :: tail

theorem cachingSha2_probed (hashes : Hashes) (connection : Connection) (challenge : Bytes)
    (encrypted : Bool) (account : Account) (token : Bytes) (asks : AsksForKey client turns)
    (size : token.length ≠ 32) :
    RefusedWith turns (askedOf connection encrypted account)
      (cachingSha2Authenticate hashes connection challenge encrypted account token client turns) := by
  rcases cachingSha2_ways connection encrypted account token with
    right | ⟨-, carries | ⟨rfl, strong⟩ | ⟨rfl, weak, offered⟩⟩
  · exact absurd right size
  · have asked : askedOf connection encrypted account =
        .authMoreData [performFullAuthentication] := by
      rcases carries with rfl | ⟨weak, none⟩
      · simp [askedOf]
      · simp [askedOf, weak, none]
    rw [cachingSha2_full size carries, asks, asked]
    exact ⟨rfl, _, rfl⟩
  · rw [cachingSha2_accountLink size strong]
    exact ⟨rfl, [], by simp [askedOf, strong]⟩
  · rw [cachingSha2_serverLink size weak offered]
    exact ⟨rfl, [], by simp [askedOf, weak, offered]⟩

theorem verifyNative_probed (account : Account) :
    account.verifyNative hashes challenge [requestPublicKey] = false := by
  rw [Account.verifyNative, Option.any_eq_false]
  intro verifier _
  simp [verifyNative_eq_false]

theorem checkPassword_probed (hashes : Hashes) (connection : Connection) (challenge : Bytes)
    (encrypted : Bool) (account : Account) (token : response.authResponse = [requestPublicKey])
    (asks : AsksForKey client turns) :
    let ran := checkPassword hashes connection challenge encrypted account response client turns
    let first := firstAnswer connection challenge encrypted account response
    ran = (some (false, true), turns) ∧ first = .error (.accessDenied response.username true) ∨
      (ran.1 = none ∨ ran.1 = some (false, true)) ∧
        ∃ tail, ran.2 = turns ++ .sent first :: tail := by
  intro ran first
  by_cases completes : Completes account response
  · have named : first = if response.plugin = cachingSha2Password
        then askedOf connection encrypted account
        else .error (.accessDenied response.username true) := if_pos completes
    have same : ran = completePlugin hashes connection challenge encrypted account response.plugin
        [requestPublicKey] client turns := token ▸ checkPassword_of_completes completes
    unfold completePlugin at same
    split at same
    · rename_i sha2
      obtain ⟨ended, tail, record⟩ := cachingSha2_probed hashes connection challenge encrypted
        account [requestPublicKey] asks (by simp)
      rw [if_pos sha2] at named
      exact .inr ⟨.inl (same ▸ ended), tail, by rw [same, named, record]⟩
    · rename_i native
      rw [if_neg native] at named
      rw [verifyNative_probed] at same
      exact .inl ⟨same, named⟩
  · cases preferred : account.preferredPlugin with
    | none =>
      have named : first = .error (.accessDenied response.username false) := by
        refine (if_neg completes).trans ?_
        rw [preferred]
      have same : ran = _ := checkPassword_of_none completes preferred
      exact .inr ⟨.inl (by rw [same]), [], by rw [same, named]⟩
    | some switchTo =>
      have named : first = .authSwitchRequest switchTo challenge := by
        refine (if_neg completes).trans ?_
        rw [preferred]
      have same : ran = _ := checkPassword_of_switch completes preferred
      rw [asks] at same
      have later := asks.append [.sent (.authSwitchRequest switchTo challenge),
        .received [requestPublicKey]]
      unfold completePlugin at same
      dsimp only at same
      split at same
      · obtain ⟨ended, tail, record⟩ := cachingSha2_probed hashes connection challenge
          encrypted account [requestPublicKey] later (by simp)
        refine .inr ⟨.inl (same ▸ ended), .received [requestPublicKey] ::
          .sent (askedOf connection encrypted account) :: tail, ?_⟩
        rw [same, named, record, append_assoc]
        rfl
      · rw [verifyNative_probed] at same
        exact .inr ⟨.inr (by rw [same]; rfl), [.received [requestPublicKey]], by rw [same, named]; rfl⟩

theorem logIn_probed (hashes : Hashes) (challenge : Bytes) (response : HandshakeResponse)
    (link : connection.tls = some .required -> encrypted = true)
    {found : Option Account} (reads : store.account response.username = .ok found)
    (token : response.authResponse = [requestPublicKey]) (asks : AsksForKey client turns) :
    (logIn hashes connection challenge store encrypted response client turns).1 = .refused ∧
      ∃ tail, (logIn hashes connection challenge store encrypted response client turns).2 =
        turns ++ .sent (firstAnswer connection challenge encrypted
          (found.getD (.unknown response.username)) response) :: tail := by
  rw [logIn_of_found link reads]
  have checked := checkPassword_probed hashes connection challenge encrypted
    (found.getD (.unknown response.username)) token asks
  rcases ran : checkPassword hashes connection challenge encrypted
    (found.getD (.unknown response.username)) response client turns with ⟨outcome, record⟩
  rw [ran] at checked
  rcases checked with ⟨same, first⟩ | ⟨ended | ended, tail, same⟩
  · cases same
    exact ⟨rfl, [], by rw [first]⟩
  · dsimp only at ended same
    subst ended same
    exact ⟨rfl, tail, rfl⟩
  · dsimp only at ended same
    subst ended same
    refine ⟨rfl, tail ++ [.sent (.error (.accessDenied response.username true))], ?_⟩
    simp

theorem said_append (front back : List (Turn Bytes ServerMessage)) :
    said (front ++ back) = said front ++ said back := filterMap_append

theorem firstAnswer_of_refusesAlike (stores : StoresDifferingAt user)
    (alike : RefusesAlike hashes connection challenge stores.left stores.right)
    (userFree : '\x00' ∉ user.toList) (pluginFree : '\x00' ∉ plugin.toList)
    (offered : encrypts -> connection.tls.isSome)
    (policy : connection.tls = some .required -> encrypts) :
    firstAnswer connection challenge encrypts (stores.leftAccount.getD (.unknown user))
        (probeResponse user plugin) =
      firstAnswer connection challenge encrypts (stores.rightAccount.getD (.unknown user))
        (probeResponse user plugin) := by
  obtain ⟨opened, read, count⟩ := readHandshake_probe challenge userFree pluginFree offered
  have asks := asksForKey_probe count
  obtain ⟨refusedLeft, tailLeft, recordLeft⟩ := logIn_probed hashes challenge
    (probeResponse user plugin) policy stores.readsLeft rfl asks
  obtain ⟨refusedRight, tailRight, recordRight⟩ := logIn_probed hashes challenge
    (probeResponse user plugin) policy stores.readsRight rfl asks
  have through (store : AccountStore) :
      authenticate hashes connection challenge store (probe user plugin encrypts) [] =
        logIn hashes connection challenge store encrypts (probeResponse user plugin)
          (probe user plugin encrypts) opened := by
    rw [authenticate_of_some (congrArg Prod.fst read), read]
  have same := alike (probe user plugin encrypts)
  rw [through, through] at same
  have told := same refusedLeft refusedRight
  rw [recordLeft, recordRight, said_append, said_append] at told
  have first := append_cancel_left told
  simp only [said, filterMap_cons] at first
  exact (List.cons.inj first).1

theorem accessDenied_ne (user : String) :
    MysqlError.accessDenied user true ≠ MysqlError.accessDenied user false := by
  intro same
  have texts := congrArg (fun error => error.message.toList) same
  simp [MysqlError.accessDenied, MysqlError.new] at texts

theorem accessDenied_ne_link (user : String) (withPassword : Bool) :
    MysqlError.accessDenied user withPassword ≠ .accountRequiresTls ∧
      MysqlError.accessDenied user withPassword ≠ .cleartextRequiresTls := by
  constructor <;>
  · intro same
    have letters := congrArg (fun error => error.message.toList[13]?) same
    have front : (MysqlError.accessDenied user withPassword).message.toList[13]? = some ' ' := by
      simp [MysqlError.accessDenied, MysqlError.new]
    rw [front] at letters
    revert letters
    decide +kernel

section

variable {plugin : String} (known : plugin = cachingSha2Password ∨ plugin = nativePassword)

include known

theorem plugin_probeResponse : (probeResponse user plugin).plugin = plugin := by
  have named : plugin ≠ "" := by
    rcases known with rfl | rfl <;> decide
  exact if_neg named

theorem firstAnswer_named (speaks : account.speaks plugin = true) :
    firstAnswer connection challenge encrypted account (probeResponse user plugin) =
      if plugin = cachingSha2Password then askedOf connection encrypted account
      else .error (.accessDenied user true) := by
  unfold firstAnswer
  rw [plugin_probeResponse known, if_pos ⟨known, speaks⟩]
  rfl

end

theorem firstAnswer_other (connection : Connection) (challenge : Bytes) (encrypted : Bool)
    (user : String) (known : plugin = cachingSha2Password ∨
    plugin = nativePassword) (silent : account.speaks plugin = false) :
    firstAnswer connection challenge encrypted account (probeResponse user plugin) =
        .error (.accessDenied user false) ∨
      ∃ switchTo, firstAnswer connection challenge encrypted account (probeResponse user plugin) =
        .authSwitchRequest switchTo challenge := by
  unfold firstAnswer
  rw [plugin_probeResponse known, if_neg (by simp [silent])]
  cases account.preferredPlugin with
  | none => exact .inl rfl
  | some switchTo => exact .inr ⟨switchTo, rfl⟩

theorem firstAnswer_tells {spoken silent : Account}
    (known : plugin = cachingSha2Password ∨ plugin = nativePassword)
    (speaks : spoken.speaks plugin = true) (other : silent.speaks plugin = false) :
    firstAnswer connection challenge encrypted spoken (probeResponse user plugin) ≠
      firstAnswer connection challenge encrypted silent (probeResponse user plugin) := by
  obtain ⟨account, server⟩ := accessDenied_ne_link user false
  rw [firstAnswer_named known speaks]
  rcases firstAnswer_other connection challenge encrypted user known other with
    denied | ⟨switchTo, asked⟩
  · rw [denied]
    split
    · unfold askedOf
      split
      · simpa using account.symm
      · split
        · simpa using server.symm
        · simp
    · simpa using accessDenied_ne user
  · rw [asked]
    unfold askedOf
    split
    · split
      · simp
      · split <;> simp
    · simp

theorem alike_of_answers {left right : Account}
    (answers : ∀ (plugin : String) (encrypts : Bool), '\x00' ∉ plugin.toList → (encrypts → connection.tls.isSome) →
      (connection.tls = some .required -> encrypts) ->
      firstAnswer connection challenge encrypts left (probeResponse user plugin) =
        firstAnswer connection challenge encrypts right (probeResponse user plugin)) :
    Account.Alike left right connection := by
  have speaks (plugin : String) (known : plugin = cachingSha2Password ∨ plugin = nativePassword) :
      left.speaks plugin = right.speaks plugin := by
    have free : '\x00' ∉ plugin.toList := by
      rcases known with rfl | rfl <;> decide +kernel
    have same := answers plugin connection.tls.isSome free id (by rintro required; simp [required])
    cases one : left.speaks plugin <;> cases other : right.speaks plugin
    · rfl
    · exact absurd same.symm (firstAnswer_tells known other one)
    · exact absurd same (firstAnswer_tells known one other)
    · rfl
  refine ⟨speaks _ (.inr rfl), speaks _ (.inl rfl), fun optional => ?_⟩
  have same := answers cachingSha2Password false (by decide +kernel) (by simp)
    (fun required => absurd required optional)
  have sha2 := speaks _ (.inl rfl)
  cases spoken : left.speaks cachingSha2Password with
  | false =>
    rw [spoken] at sha2
    rw [Account.speaks_sha2] at spoken sha2
    have none : left.sha2 = none := by simpa using spoken
    have other : right.sha2 = Option.none := by simpa using sha2.symm
    rw [Account.requiresTls, Account.requiresTls, none, other]
  | true =>
    rw [firstAnswer_named (.inl rfl) spoken, firstAnswer_named (.inl rfl) (sha2 ▸ spoken),
      if_pos rfl, if_pos rfl] at same
    revert same
    unfold askedOf
    have apart : MysqlError.accountRequiresTls ≠ .cleartextRequiresTls := by decide +kernel
    cases left.requiresTls <;> cases right.requiresTls <;> cases connection.tls.isSome <;>
      simp [apart, apart.symm]

end Probe

/-! ## The whole -/

/-- The login does what it is for between two stores exactly when neither account is strong on
a server that offers encryption and the two are alike. -/
theorem loginHolds_iff (hashes : Hashes) (connection : Connection) (challenge : Bytes)
    (user : String) (stores : StoresDifferingAt user) :
    LoginHolds hashes connection challenge user stores ↔
      LoginCondition hashes connection user stores := by
  constructor
  · intro holds
    by_cases nul : '\x00' ∈ user.toList
    · exact .inl nul
    · refine .inr ⟨?_, ?_⟩
      · rintro account (found | found) offered strong
        · exact not_grantsOnPassword_of_strong nul (found ▸ stores.readsLeft) offered strong
            holds.passwordLeft
        · exact not_grantsOnPassword_of_strong nul (found ▸ stores.readsRight) offered strong
            holds.passwordRight
      · exact alike_of_answers fun plugin encrypts free offered policy =>
          firstAnswer_of_refusesAlike stores holds.alike nul free offered policy
  · rintro (nul | ⟨weak, alike⟩)
    · exact ⟨grantsOnProof, grantsOnProof, grantsOnPassword_of_nul nul, grantsOnPassword_of_nul nul,
        refusesAlike_of_alike stores (.inl nul)⟩
    · refine ⟨grantsOnProof, grantsOnProof, grantsOnPassword_of_weak ?_,
        grantsOnPassword_of_weak ?_, refusesAlike_of_alike stores (.inr alike)⟩
      · intro account reads offered
        exact weak account (.inl (Except.ok.inj (stores.readsLeft.symm.trans reads))) offered
      · intro account reads offered
        exact weak account (.inr (Except.ok.inj (stores.readsRight.symm.trans reads))) offered

/-- Digests that pad or cut what they are given. -/
def paddedHashes : Hashes where
  sha1 message := (message ++ List.replicate 20 0).take 20
  sha256 message := (message ++ List.replicate 32 0).take 32
  pbkdf2 _ salt password := (salt ++ password ++ List.replicate 32 0).take 32
  length_sha1 message := by simp
  length_sha256 message := by simp

/-- The row of an account created with `--strong-passwords`. -/
def strongRow : UserRow where
  name := "app"
  nativeAuth := none
  sha2Auth := some (strongVerifier paddedHashes (List.replicate 16 7) "s3cret")
  privileges := some 0

/-- A store that holds the strong account, and one that holds none. -/
def strongOrMissing : StoresDifferingAt "app" where
  left := ⟨.rows [strongRow], .new paddedHashes "root" ""⟩
  right := ⟨.rows [], .new paddedHashes "root" ""⟩
  leftAccount := some strongRow.account
  rightAccount := none
  readsLeft := rfl
  readsRight := rfl
  elsewhere other different := by
    have apart : ¬("app" = other) := fun same => different same.symm
    simp [AccountStore.account, strongRow, apart]

/-- On a server with a certificate the strong account's own password is turned away. -/
theorem strongAccount_turnedAway :
    ¬LoginHolds paddedHashes ⟨1, some .available⟩ (List.replicate 20 9) "app" strongOrMissing := by
  intro holds
  have right : strongRow.account.HasPassword paddedHashes "s3cret" := by
    refine ⟨fun verifier stored => (by cases stored), fun verifier stored => .inr ?_⟩
    exact ⟨List.replicate 16 7, (Option.some.inj stored).symm⟩
  have strong : strongRow.account.Strong paddedHashes :=
    ⟨isStrong_strongVerifier _ _, "s3cret", by decide, right⟩
  exact not_grantsOnPassword_of_strong (by decide +kernel) strongOrMissing.readsLeft rfl strong
    holds.passwordLeft

end InlaySql.Server
