import BtcIndexer.ReadBack
import BtcIndexer.Routing
import BtcIndexer.Snapshots

/-! The HTTP service and the commands of the indexer tool: the table of routes, the handlers, the
errors they answer with, and the URLs that the tool posts to. A handler of the protected routes
ends by sending a command; the rest of its answer is left to the channel. -/
namespace BtcIndexer
open Routing

namespace Api

inductive Method where
  | get
  | post
  | other
  deriving DecidableEq, Repr

structure Request where
  method : Method
  path : Text
  query : List (Text × Text)
  deriving DecidableEq, Repr

inductive Endpoint where
  | latestBlock
  | block
  | transaction
  | p2trBalance
  | p2trUtxo
  | balanceSnapshots
  | pauseHarvester
  | resumeHarvester
  | scanBlock
  | terminateHarvester
  deriving DecidableEq, Repr

def words (texts : List String) : Pattern := texts.map fun text => .literal text.toList

/-- Every path starts with a slash. -/
def scope : Pattern := words ["", "api", "v1"]

def harvester : Pattern := scope ++ words ["protected", "harvester"]

/-- A method is a guard of its resource, so a request with another goes on down the table. -/
def routes : List (Route Method Endpoint) :=
  [⟨.get, scope ++ words ["raw", "block", "latest"], .latestBlock⟩,
    ⟨.get, scope ++ words ["raw", "block"] ++ [.dynamic], .block⟩,
    ⟨.get, scope ++ words ["raw", "transaction"] ++ [.dynamic], .transaction⟩,
    ⟨.get, scope ++ words ["processed", "p2tr"] ++ .dynamic :: words ["balance"], .p2trBalance⟩,
    ⟨.get, scope ++ words ["processed", "p2tr"] ++ .dynamic :: words ["utxo"], .p2trUtxo⟩,
    ⟨.get, scope ++ words ["aggregated", "p2tr"] ++ [.dynamic], .balanceSnapshots⟩,
    ⟨.post, harvester ++ words ["pause"], .pauseHarvester⟩,
    ⟨.post, harvester ++ words ["resume"], .resumeHarvester⟩,
    ⟨.post, harvester ++ words ["scan"] ++ [.dynamic, .dynamic], .scanBlock⟩,
    ⟨.post, harvester ++ words ["terminate"], .terminateHarvester⟩]

inductive QueryError where
  | sqlx (e : SqlxError)
  | row (e : ReadError)
  deriving DecidableEq, Repr

/-- `ApiError`, with the texts of the errors that it prints. -/
inductive Error where
  | sqlx (e : QueryError)
  | payload (text : String)
  | paramsInvalid (text : String)
  | notFound (text : String)
  | reqwestHeader
  | serde
  | anyhow (text : String)
  | other (text : String)
  deriving DecidableEq, Repr

inductive Status where
  | ok
  | badRequest
  | notFound
  | internalServerError
  deriving DecidableEq, Repr

structure ErrorResponse where
  tag : String
  message : Option String
  deriving DecidableEq, Repr

def Error.info : Error → Status × ErrorResponse
  | .sqlx (.sqlx .rowNotFound) | .sqlx (.row .rowNotFound) =>
      (.notFound, ⟨"SQL_ERROR", some "row not found in database"⟩)
  | .sqlx (.row (.decode _)) | .sqlx (.row (.columnDecode _)) =>
      (.internalServerError, ⟨"SQL_ERROR", some "type decode error from database"⟩)
  | .sqlx _ => (.internalServerError, ⟨"SQL_ERROR", none⟩)
  | .payload text => (.badRequest, ⟨"PAYLOAD_ERROR", some text⟩)
  | .paramsInvalid text => (.badRequest, ⟨"INVALID_PARAMS_ERROR", some text⟩)
  | .notFound text => (.notFound, ⟨"NOT_FOUND_ERROR", some text⟩)
  | .reqwestHeader => (.internalServerError, ⟨"REQWEST_HEADER_ERROR", none⟩)
  | .serde => (.internalServerError, ⟨"SERDE_JSON_ERROR", none⟩)
  | .anyhow text | .other text => (.internalServerError, ⟨"OTHER_ERROR", some text⟩)

def Error.ofSnapshots : ApiError → Error
  | .sqlx e => .sqlx (.sqlx e)
  | .paramsInvalid text => .paramsInvalid text

structure Utxo where
  transactionId : Txid
  transactionIndex : Nat
  satoshi : Int
  blockHeight : Nat
  deriving DecidableEq, Repr

def Utxo.ofInfo (utxo : BtcUtxoInfo) : Utxo :=
  ⟨utxo.txid, utxo.vout, utxo.amount, utxo.blockNumber⟩

/-- The bodies of the answers. A block and a transaction are shown with the fields that the
decoders give them. -/
inductive Body where
  | empty
  | text (text : String)
  | latestBlockHeight (height : Option Nat)
  | blockHeaderData (block : BtcBlock)
  | transactionData (transaction : BtcTransaction)
  | currentBalance (amount : Int)
  | utxos (utxos : List Utxo)
  | snapshots (snapshots : Snapshots.SnapshotMap)
  | error (e : ErrorResponse)

/-- A handler that panics answers nothing: its connection is closed. -/
inductive Reply where
  | answer (status : Status) (body : Body)
  | aborted

def Reply.of : Except Error Body → Reply
  | .ok body => .answer .ok body
  | .error (.sqlx (.row (.panic _))) => .aborted
  | .error e => .answer e.info.1 (.error e.info.2)

/-- What the libraries read from the texts of a request, and the texts of their errors. -/
structure Libraries where
  router : Router routes
  blockHash : Text → Except String BlockHash
  txid : Text → Except String Txid
  address : Text → Except String Address
  usizeError : Text → String
  queryError : List (Text × Text) → String

structure Database where
  getLatestBlockNum : Except QueryError (Option Nat)
  getBlock : BlockHash → Except QueryError BtcBlock
  getTransaction : Txid → Except QueryError BtcTransaction
  getUnspentUtxosByOwner : Address → Except QueryError (List BtcUtxoInfo)
  connection : Connection

def Libraries.ofTextForms (T : TextForms) (error : String) : Libraries where
  router := .percent routes
  blockHash := fun text => (T.hash.fromStr text).elim (.error error) .ok
  txid := fun text => (T.txid.fromStr text).elim (.error error) .ok
  address := fun text => (T.address.fromStr text).elim (.error error) .ok
  usizeError := fun _ => error
  queryError := fun _ => error

def Database.down : Database where
  getLatestBlockNum := .error (.sqlx .io)
  getBlock := fun _ => .error (.sqlx .io)
  getTransaction := fun _ => .error (.sqlx .io)
  getUnspentUtxosByOwner := fun _ => .error (.sqlx .io)
  connection := ⟨fun _ => .error .io, fun _ _ _ _ => .error .io⟩

section Handlers

variable (L : Libraries) (db : Database)

def latestBlock : Except Error Body := do
  let n ← db.getLatestBlockNum.mapError .sqlx
  return .latestBlockHeight n

def block (blockHash : Text) : Except Error Body := do
  let hash ← (L.blockHash blockHash).mapError .paramsInvalid
  let b ← (db.getBlock hash).mapError .sqlx
  return .blockHeaderData b

def transaction (txId : Text) : Except Error Body := do
  let txid ← (L.txid txId).mapError .paramsInvalid
  let tx ← (db.getTransaction txid).mapError .sqlx
  return .transactionData tx

def p2trBalance (address : Text) : Except Error Body := do
  let address ← (L.address address).mapError .paramsInvalid
  match ← (db.connection.getBtcBalance address).mapError (fun e => .sqlx (.sqlx e)) with
  | none => throw (.notFound "Balance not found")
  | some amount => return .currentBalance amount

def p2trUtxo (address : Text) : Except Error Body := do
  let address ← (L.address address).mapError .paramsInvalid
  let utxos ← (db.getUnspentUtxosByOwner address).mapError .sqlx
  return .utxos (utxos.map Utxo.ofInfo)

/-- A parameter must be given once. -/
def param (name : String) (query : List (Text × Text)) : Option Text :=
  match query.filter (fun pair => pair.1 = name.toList) with
  | [(_, value)] => some value
  | _ => none

def timeSpan (text : Text) : Option TimeSpan :=
  if text = ['m'] then some .m else if text = ['w'] then some .w
  else if text = ['d'] then some .d else none

def granularity (text : Text) : Option Granularity :=
  if text = ['w'] then some .w else if text = ['d'] then some .d
  else if text = ['h'] then some .h else none

def balanceSnapshots (address : Text) (query : List (Text × Text)) : Except Error Body :=
  match (param "time_span" query).bind timeSpan, (param "granularity" query).bind granularity with
  | some timeSpan, some granularity =>
      ((Snapshots.balanceSnapshots db.connection (L.address address) timeSpan granularity).mapError
        .ofSnapshots).map .snapshots
  | _, _ => .error (.paramsInvalid (L.queryError query))

def usize (text : Text) : Except Error Nat :=
  match fromStr 64 text with
  | some n => .ok n
  | none => .error (.paramsInvalid (L.usizeError text))

def scanBlock (first last : Text) : Except Error Command := do
  let first ← usize L first
  let last ← usize L last
  if last < first then
    throw (.paramsInvalid "From block number must be less than to block number")
  else return .scanBlock first last

/-- A request is answered, or it has a command to send first. -/
inductive Handled where
  | reply (reply : Reply)
  | send (command : Command)

def Handled.of : Except Error Command → Handled
  | .ok command => .send command
  | .error e => .reply (.of (.error e))

def notFound : Reply := .answer .notFound .empty

def handler (query : List (Text × Text)) : Endpoint × List Text → Handled
  | (.latestBlock, []) => .reply (.of (latestBlock db))
  | (.block, [hash]) => .reply (.of (block L db hash))
  | (.transaction, [txid]) => .reply (.of (transaction L db txid))
  | (.p2trBalance, [address]) => .reply (.of (p2trBalance L db address))
  | (.p2trUtxo, [address]) => .reply (.of (p2trUtxo L db address))
  | (.balanceSnapshots, [address]) => .reply (.of (balanceSnapshots L db address query))
  | (.pauseHarvester, []) => .send .pause
  | (.resumeHarvester, []) => .send .autoScan
  | (.scanBlock, [first, last]) => .of (scanBlock L first last)
  | (.terminateHarvester, []) => .send .terminate
  | _ => .reply notFound

def Request.handled (r : Request) : Handled :=
  match L.router.recognize r.method r.path with
  | some target => handler L db r.query target
  | none => .reply notFound

end Handlers

def sent : Reply := .answer .ok (.text "OK")

def unsent : Reply := .of (.error (.other "channel closed"))

theorem Error.info_ne_ok (e : Error) : e.info.1 ≠ .ok := by
  unfold info
  split <;> exact fun h => by cases h

theorem Reply.of_eq_sent {x : Except Error Body} (h : Reply.of x = sent) :
    x = .ok (.text "OK") := by
  unfold Reply.of at h
  split at h
  · cases h
    rfl
  · cases h
  · next e _ => exact absurd (Reply.answer.inj h).1 e.info_ne_ok

theorem bind_ok_iff {α β : Type} {x : Except Error α} {f : α → Except Error β} {b : β} :
    (x >>= f) = .ok b ↔ ∃ a, x = .ok a ∧ f a = .ok b := by
  cases x with
  | ok a => simp [bind, Except.bind]
  | error e => simp [bind, Except.bind]

theorem handler_reply_ne_sent {L : Libraries} {db : Database} {query : List (Text × Text)}
    {target : Endpoint × List Text} {reply : Reply}
    (h : handler L db query target = .reply reply) : reply ≠ sent := by
  have hread : ∀ x : Except Error Body, (∀ text, x ≠ .ok (.text text)) → Reply.of x ≠ sent :=
    fun x hx hsent => hx _ (Reply.of_eq_sent hsent)
  unfold handler at h
  split at h
  all_goals first
    | cases h
    | skip
  · refine hread _ fun text hok => ?_
    obtain ⟨_, _, hbody⟩ := bind_ok_iff.mp hok
    cases hbody
  · refine hread _ fun text hok => ?_
    obtain ⟨_, _, hrest⟩ := bind_ok_iff.mp hok
    obtain ⟨_, _, hbody⟩ := bind_ok_iff.mp hrest
    cases hbody
  · refine hread _ fun text hok => ?_
    obtain ⟨_, _, hrest⟩ := bind_ok_iff.mp hok
    obtain ⟨_, _, hbody⟩ := bind_ok_iff.mp hrest
    cases hbody
  · refine hread _ fun text hok => ?_
    obtain ⟨_, _, hrest⟩ := bind_ok_iff.mp hok
    obtain ⟨balance, _, hbody⟩ := bind_ok_iff.mp hrest
    cases balance with
    | none => cases hbody
    | some amount => cases hbody
  · refine hread _ fun text hok => ?_
    obtain ⟨_, _, hrest⟩ := bind_ok_iff.mp hok
    obtain ⟨_, _, hbody⟩ := bind_ok_iff.mp hrest
    cases hbody
  · refine hread _ fun text hok => ?_
    unfold balanceSnapshots at hok
    split at hok
    · next timeSpan granularity _ _ =>
      cases hsnapshots : Snapshots.balanceSnapshots db.connection (L.address _) timeSpan
          granularity with
      | ok snapshots => rw [hsnapshots] at hok; cases hok
      | error e => rw [hsnapshots] at hok; cases hok
    · cases hok
  · next first last =>
    cases hscan : scanBlock L first last with
    | ok command => rw [hscan] at h; cases h
    | error e =>
        rw [hscan] at h
        rw [← Handled.reply.inj h]
        intro hsent
        cases Reply.of_eq_sent hsent
  · intro hsent
    cases hsent

def harvesterPath (rest : List Text) : List Text :=
  ["", "api", "v1", "protected", "harvester"].map String.toList ++ rest

/-- The segments of the path, once the router has decoded it. -/
def Request.segments (L : Libraries) (r : Request) : List Text := L.router.segments r.path

/-- The path of a request names a command. Numbers are read as the machine reads them, after their
own escapes are decoded. -/
def Request.Names (L : Libraries) (r : Request) : Command → Prop
  | .pause => r.segments L = harvesterPath ["pause".toList]
  | .autoScan => r.segments L = harvesterPath ["resume".toList]
  | .scanBlock first last => ∃ a b, r.segments L = harvesterPath ["scan".toList, a, b] ∧
      fromStr 64 (L.router.unquote a) = some first ∧
      fromStr 64 (L.router.unquote b) = some last ∧ first ≤ last
  | .terminate => r.segments L = harvesterPath ["terminate".toList]

section Commands

variable {L : Libraries} {db : Database} {r : Request}

theorem scanBlock_ok_iff {a b : Text} {command : Command} :
    scanBlock L a b = .ok command ↔ ∃ first last, fromStr 64 a = some first ∧
      fromStr 64 b = some last ∧ first ≤ last ∧ command = .scanBlock first last := by
  unfold scanBlock usize
  cases fromStr 64 a with
  | none => simp [bind, Except.bind]
  | some first =>
      cases fromStr 64 b with
      | none => simp [bind, Except.bind]
      | some last =>
          by_cases hlt : last < first
          · simp [bind, Except.bind, hlt, throw, throwThe, MonadExceptOf.throw]
          · simp only [bind, Except.bind, hlt, if_false, pure, Except.pure, Except.ok.injEq,
              Option.some.injEq]
            constructor
            · rintro rfl
              exact ⟨first, last, rfl, rfl, Nat.le_of_not_lt hlt, rfl⟩
            · rintro ⟨_, _, rfl, rfl, _, rfl⟩
              rfl

theorem Handled.of_eq_send {x : Except Error Command} {command : Command} :
    Handled.of x = .send command ↔ x = .ok command := by
  cases x <;> simp [Handled.of]

theorem Handled.of_eq_reply {x : Except Error Command} {reply : Reply}
    (h : Handled.of x = .reply reply) : ∃ e, x = .error e ∧ reply = .of (.error e) := by
  cases x with
  | ok command => cases h
  | error e =>
      cases h
      exact ⟨e, rfl, rfl⟩

def Target (command : Command) (target : Endpoint × List Text) : Prop :=
  match command with
  | .pause => target = (.pauseHarvester, [])
  | .autoScan => target = (.resumeHarvester, [])
  | .scanBlock first last => ∃ a b, target = (.scanBlock, [a, b]) ∧
      fromStr 64 a = some first ∧ fromStr 64 b = some last ∧ first ≤ last
  | .terminate => target = (.terminateHarvester, [])

theorem handler_send_iff {query : List (Text × Text)} {target : Endpoint × List Text}
    {command : Command} : handler L db query target = .send command ↔ Target command target := by
  constructor
  · intro h
    unfold handler at h
    split at h
    all_goals first
      | (cases h; rfl)
      | cases h
      | skip
    obtain ⟨first, last, hfirst, hlast, hle, rfl⟩ := scanBlock_ok_iff.mp (Handled.of_eq_send.mp h)
    exact ⟨_, _, rfl, hfirst, hlast, hle⟩
  · intro h
    cases command with
    | pause => rw [Target] at h; rw [h]; rfl
    | autoScan => rw [Target] at h; rw [h]; rfl
    | terminate => rw [Target] at h; rw [h]; rfl
    | scanBlock first last =>
        obtain ⟨a, b, rfl, hfirst, hlast, hle⟩ := h
        exact Handled.of_eq_send.mpr (scanBlock_ok_iff.mpr ⟨_, _, hfirst, hlast, hle, rfl⟩)

def Request.target (L : Libraries) (r : Request) : Option (Endpoint × List Text) :=
  L.router.recognize r.method r.path

theorem target_eq_some_iff (earlier : List (Route Method Endpoint))
    {later : List (Route Method Endpoint)} {route : Route Method Endpoint}
    (htable : routes = earlier ++ route :: later)
    (hapart : ∀ other ∈ earlier, route.method = other.method →
      route.pattern.apart other.pattern = true) {args : List Text} :
    r.target L = some (route.endpoint, args) ↔ r.method = route.method ∧
      ∃ texts, route.pattern.fill texts = some (r.segments L) ∧ [] ∉ texts ∧
        texts.map L.router.unquote = args := by
  have hendpoints : (routes.map Route.endpoint).Nodup := by decide
  rw [Request.target, L.router.recognize_eq_some_iff htable hapart hendpoints, eq_comm]
  rfl

/-- The routes without dynamic pieces. -/
theorem target_literal_iff (earlier : List (Route Method Endpoint))
    {later : List (Route Method Endpoint)} {word : String} {endpoint : Endpoint}
    (htable : routes = earlier ++ ⟨.post, harvester ++ words [word], endpoint⟩ :: later)
    (hapart : ∀ other ∈ earlier, .post = other.method →
      Pattern.apart (harvester ++ words [word]) other.pattern = true) :
    r.target L = some (endpoint, []) ↔
      r.method = .post ∧ r.segments L = harvesterPath [word.toList] := by
  have hfill : Pattern.fill (harvester ++ words [word]) [] =
      some (harvesterPath [word.toList]) := rfl
  rw [target_eq_some_iff earlier htable hapart]
  simp only [List.map_eq_nil_iff, exists_eq_right_right, hfill, Option.some.injEq,
    List.not_mem_nil, not_false_eq_true, and_true, eq_comm]

theorem target_scanBlock_iff {first last : Text} : r.target L = some (.scanBlock, [first, last]) ↔
    r.method = .post ∧ ∃ a b, r.segments L = harvesterPath ["scan".toList, a, b] ∧ a ≠ [] ∧
      b ≠ [] ∧ L.router.unquote a = first ∧ L.router.unquote b = last := by
  have hfill : ∀ a b, Pattern.fill (harvester ++ words ["scan"] ++ [.dynamic, .dynamic]) [a, b] =
      some (harvesterPath ["scan".toList, a, b]) := fun _ _ => rfl
  refine (target_eq_some_iff (routes.take 8) rfl (by decide)).trans (and_congr_right fun _ => ?_)
  constructor
  · rintro ⟨texts, hpath, hempty, hargs⟩
    obtain ⟨a, rest, rfl, rfl, hrest⟩ := List.map_eq_cons_iff.mp hargs
    obtain ⟨b, more, rfl, rfl, hnone⟩ := List.map_eq_cons_iff.mp hrest
    obtain rfl := List.map_eq_nil_iff.mp hnone
    rw [hfill] at hpath
    simp only [List.mem_cons, List.not_mem_nil, or_false, not_or] at hempty
    exact ⟨a, b, (Option.some.inj hpath).symm, Ne.symm hempty.1, Ne.symm hempty.2, rfl, rfl⟩
  · rintro ⟨a, b, hsegments, ha, hb, rfl, rfl⟩
    refine ⟨[a, b], by rw [hfill, hsegments], ?_, rfl⟩
    simp only [List.mem_cons, List.not_mem_nil, or_false, not_or]
    exact ⟨Ne.symm ha, Ne.symm hb⟩

theorem ne_nil_of_fromStr {bits n : Nat} {text : Text}
    (h : fromStr bits (L.router.unquote text) = some n) : text ≠ [] := by
  rintro rfl
  rw [L.router.unquote_plain [] List.not_mem_nil, fromStr_nil] at h
  cases h

theorem target_iff (command : Command) :
    (∃ target, r.target L = some target ∧ Target command target) ↔
      r.method = .post ∧ r.Names L command := by
  cases command with
  | pause =>
      simp only [Target, exists_eq_right, Request.Names]
      exact target_literal_iff (routes.take 6) rfl (by decide)
  | autoScan =>
      simp only [Target, exists_eq_right, Request.Names]
      exact target_literal_iff (routes.take 7) rfl (by decide)
  | terminate =>
      simp only [Target, exists_eq_right, Request.Names]
      exact target_literal_iff (routes.take 9) rfl (by decide)
  | scanBlock first last =>
      constructor
      · rintro ⟨_, htarget, _, _, rfl, hnumbers⟩
        obtain ⟨hmethod, a, b, hsegments, _, _, rfl, rfl⟩ := target_scanBlock_iff.mp htarget
        exact ⟨hmethod, a, b, hsegments, hnumbers⟩
      · rintro ⟨hmethod, a, b, hsegments, hfirst, hlast, hle⟩
        have htarget := target_scanBlock_iff.mpr ⟨hmethod, a, b, hsegments,
          ne_nil_of_fromStr hfirst, ne_nil_of_fromStr hlast, rfl, rfl⟩
        exact ⟨_, htarget, _, _, rfl, hfirst, hlast, hle⟩

theorem handled_reply_ne_sent {reply : Reply} (h : r.handled L db = .reply reply) :
    reply ≠ sent := by
  unfold Request.handled at h
  split at h
  · exact handler_reply_ne_sent h
  · rw [← Handled.reply.inj h]
    intro hsent
    cases hsent

theorem handled_target_iff {command : Command} : r.handled L db = .send command ↔
    ∃ target, r.target L = some target ∧ Target command target := by
  unfold Request.handled Request.target
  constructor
  · intro h
    cases htarget : L.router.recognize r.method r.path with
    | none =>
        rw [htarget] at h
        cases h
    | some target =>
        rw [htarget] at h
        exact ⟨target, rfl, handler_send_iff.mp h⟩
  · rintro ⟨target, htarget, hsends⟩
    rw [htarget]
    exact handler_send_iff.mpr hsends

/-- Only a post to the path of a command sends it, and a scan only in order and in range. -/
theorem handled_send_iff (command : Command) :
    r.handled L db = .send command ↔ r.method = .post ∧ r.Names L command :=
  handled_target_iff.trans (target_iff command)

example : Request.target (.ofTextForms .mainnet "invalid")
    ⟨.post, "/api/v1/protected/harvester/scan/%2B1/2".toList, []⟩ =
      some (.scanBlock, ["+1".toList, "2".toList]) := by decide +kernel

end Commands

inductive Subcommand where
  | scanBlock (first last : Nat)
  | terminate
  | pause
  | resume
  deriving DecidableEq, Repr

namespace Subcommand

/-- What follows the host in the URL. -/
def path : Subcommand → Text
  | .scanBlock first last => "/api/v1/protected/harvester/scan/".toList ++
      Nat.toDigits 10 first ++ '/' :: Nat.toDigits 10 last
  | .terminate => "/api/v1/protected/harvester/terminate".toList
  | .pause => "/api/v1/protected/harvester/pause".toList
  | .resume => "/api/v1/protected/harvester/resume".toList

def request (sub : Subcommand) : Request := ⟨.post, sub.path, []⟩

/-- The tool fails on every answer but a success. -/
def succeeds : Reply → Bool
  | .answer .ok _ => true
  | .answer _ _ | .aborted => false

theorem succeeds_error (e : Error) : succeeds (.of (.error e)) = false := by
  have hstatus := e.info_ne_ok
  have hanswer : ∀ status body, status ≠ .ok → succeeds (.answer status body) = false := by
    intro status body hne
    cases status with
    | ok => exact absurd rfl hne
    | badRequest => rfl
    | notFound => rfl
    | internalServerError => rfl
  unfold Reply.of
  split
  · next h => cases h
  · rfl
  · next h =>
    cases h
    exact hanswer _ _ hstatus

/-- What is asked for: a command, or the error of a scan that runs backwards. -/
def command : Subcommand → Except Error Command
  | .scanBlock first last => if last < first then
      .error (.paramsInvalid "From block number must be less than to block number")
    else .ok (.scanBlock first last)
  | .terminate => .ok .terminate
  | .pause => .ok .pause
  | .resume => .ok .autoScan

def Typed : Subcommand → Prop
  | .scanBlock first last => first < 2 ^ 64 ∧ last < 2 ^ 64
  | .terminate | .pause | .resume => True

instance (sub : Subcommand) : Decidable sub.Typed := by
  cases sub <;> unfold Typed <;> infer_instance

theorem notMem_path (sub : Subcommand) : '%' ∉ sub.path := by
  cases sub with
  | terminate => decide
  | pause => decide
  | resume => decide
  | scanBlock first last =>
      have hdigits : ∀ n, '%' ∉ Nat.toDigits 10 n := notMem_toDigits (by decide)
      have hfixed : '%' ∉ "/api/v1/protected/harvester/scan/".toList := by decide
      intro hmem
      rcases List.mem_append.mp hmem with hfirst | hlast
      · exact (List.mem_append.mp hfirst).elim hfixed (hdigits first)
      · exact hdigits last (List.mem_of_ne_of_mem (by decide) hlast)

theorem segments_request (L : Libraries) (sub : Subcommand) :
    sub.request.segments L = sub.path.splitOn '/' :=
  L.router.segments_plain sub.notMem_path

theorem segments_scanBlock (first last : Nat) : (Subcommand.scanBlock first last).path.splitOn '/' =
    harvesterPath ["scan".toList, Nat.toDigits 10 first, Nat.toDigits 10 last] := by
  have hfixed : "/api/v1/protected/harvester/scan/".toList =
      ['/'].intercalate (harvesterPath ["scan".toList] ++ [[]]) := by decide
  have hpath : (Subcommand.scanBlock first last).path = ['/'].intercalate
      (harvesterPath ["scan".toList] ++ [Nat.toDigits 10 first, Nat.toDigits 10 last]) := by
    rw [intercalate_two, ← hfixed]
    exact (List.append_assoc _ ['/'] _).symm
  have hwords : ∀ text ∈ harvesterPath ["scan".toList], '/' ∉ text := by decide
  have hdigits : ∀ n, '/' ∉ Nat.toDigits 10 n := notMem_toDigits (by decide)
  have hfree : ∀ text ∈ harvesterPath ["scan".toList] ++
      [Nat.toDigits 10 first, Nat.toDigits 10 last], '/' ∉ text := by
    intro text htext
    rcases List.mem_append.mp htext with hword | hnumber
    · exact hwords text hword
    · rcases List.mem_pair.mp hnumber with rfl | rfl
      · exact hdigits first
      · exact hdigits last
  rw [hpath, List.splitOn_intercalate '/' hfree (List.cons_ne_nil _ _)]
  rfl

/-- The service reads from the URL of a subcommand what the subcommand asks for. -/
theorem handled_request (L : Libraries) (db : Database) (sub : Subcommand) (htyped : sub.Typed) :
    sub.request.handled L db = .of sub.command := by
  have hliteral : ∀ command : Command, sub.request.Names L command →
      sub.request.handled L db = .send command := fun command hnames =>
    handled_target_iff.mpr ((target_iff command).mpr ⟨rfl, hnames⟩)
  cases sub with
  | pause => exact hliteral .pause ((segments_request L .pause).trans (by decide))
  | resume => exact hliteral .autoScan ((segments_request L .resume).trans (by decide))
  | terminate => exact hliteral .terminate ((segments_request L .terminate).trans (by decide))
  | scanBlock first last =>
      have hread : ∀ n, L.router.unquote (Nat.toDigits 10 n) = Nat.toDigits 10 n := fun n =>
        L.router.unquote_plain _ (notMem_toDigits (by decide) n)
      have htarget := target_scanBlock_iff.mpr ⟨rfl, _, _,
        (segments_request L _).trans (segments_scanBlock first last), Nat.toDigits_ne_nil,
        Nat.toDigits_ne_nil, hread first, hread last⟩
      have hscan : Api.scanBlock L (Nat.toDigits 10 first) (Nat.toDigits 10 last) =
          (Subcommand.scanBlock first last).command := by
        simp only [Api.scanBlock, usize, fromStr_toDigits, htyped.1, htyped.2, if_true, command]
        by_cases hlt : last < first
        · rw [if_pos hlt]
          simp only [bind, Except.bind, if_pos hlt]
          rfl
        · rw [if_neg hlt]
          simp only [bind, Except.bind, if_neg hlt]
          rfl
      unfold Request.target at htarget
      unfold Request.handled
      rw [htarget, ← hscan]
      rfl

end Subcommand

end Api
end BtcIndexer
