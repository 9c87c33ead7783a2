import BtcIndexer.Harvester

/-! The client of the node's JSON-RPC interface. The node and what lies between may answer a
request with anything: no answer at all, any status, any document. -/
namespace BtcIndexer

namespace Rpc

/-- What the libraries read and write for the values on the wire, as documents. -/
structure Json (V : Type) where
  ofHash : BlockHash → Except String V
  ofNat : Nat → V
  toCount : V → Option Nat
  toHash : V → Option BlockHash
  toHeader : V → Option Header
  toText : V → Option String
  deserializeHex : String → Except String (List Transaction)

structure RpcRequest (V : Type) where
  jsonrpc : String
  id : String
  method : String
  params : List V

structure RpcError where
  code : Int
  message : String
  deriving DecidableEq, Repr

/-- A member that is missing and one that is null are the same. -/
structure RpcResponse (T : Type) where
  result : Option T
  error : Option RpcError

inductive Error where
  | reqwest
  | rpcError (e : RpcError)
  | anyhow (text : String)
  deriving DecidableEq, Repr

def Error.kind : Error → BtcIndexer.RpcError
  | .reqwest => .reqwest
  | .rpcError _ => .rpcError
  | .anyhow _ => .anyhow

/-- The body is missing where it is no document of that form. -/
structure HttpResponse (V : Type) where
  status : Nat
  body : Option (RpcResponse V)

namespace HttpResponse

variable {V T : Type}

def isSuccess (response : HttpResponse V) : Bool := 200 ≤ response.status && response.status < 300

def isError (response : HttpResponse V) : Bool := 400 ≤ response.status && response.status < 600

def json (decode : V → Option T) (response : HttpResponse V) : Option (RpcResponse T) :=
  response.body.bind fun body => match body.result with
    | none => some ⟨none, body.error⟩
    | some v => (decode v).map fun result => ⟨some result, body.error⟩

end HttpResponse

/-- The result counts, whatever the error says. -/
def RpcResponse.into {T : Type} (value : RpcResponse T) : Except Error T :=
  match value.result with
  | some result => .ok result
  | none => match value.error with
    | some err => .error (.rpcError err)
    | none => .error (.anyhow "unknown err")

/-- What comes back for a request that is posted at a tick, with the given credentials. -/
structure BitcoinRpcClient (V : Type) where
  post : Nat → Option (String × String) → RpcRequest V → Option (HttpResponse V)
  user : Option String
  password : Option String

section Client

variable {V T : Type} (J : Json V) (client : BitcoinRpcClient V)

/-- Credentials are sent only if there are both. -/
def BitcoinRpcClient.auth : Option (String × String) :=
  match client.user, client.password with
  | some user, some password => some (user, password)
  | _, _ => none

def BitcoinRpcClient.request (decode : V → Option T) (method : String) (params : List V)
    (t : Nat) : Except Error (RpcResponse T) :=
  match client.post t client.auth ⟨"2.0", "1", method, params⟩ with
  | none => .error .reqwest
  | some response =>
      if response.isSuccess then
        match response.json decode with
        | some value => .ok value
        | none => .error .reqwest
      else if response.isError then .error .reqwest
      else .error (.anyhow "unknown err")

def intoJson (hash : BlockHash) : Except Error V :=
  match J.ofHash hash with
  | .ok v => .ok v
  | .error e => .error (.anyhow e)

def BitcoinRpcClient.getBlockCount (t : Nat) : Except Error Nat := do
  let response ← client.request J.toCount "getblockcount" [] t
  response.into

/-- The error of the answer is not looked at. -/
def BitcoinRpcClient.getBlock (t : Nat) (hash : BlockHash) : Except Error (List Transaction) := do
  let v ← intoJson J hash
  let response ← client.request J.toText "getblock" [v, J.ofNat 0] t
  match response.result with
  | none => .error (.anyhow "missing result")
  | some text => match J.deserializeHex text with
    | .ok txdata => .ok txdata
    | .error e => .error (.anyhow e)

def BitcoinRpcClient.getBlockHeader (t : Nat) (hash : BlockHash) : Except Error Header := do
  let v ← intoJson J hash
  let response ← client.request J.toHeader "getblockheader" [v] t
  response.into

def BitcoinRpcClient.getBlockHash (t height : Nat) : Except Error BlockHash := do
  let response ← client.request J.toHash "getblockhash" [J.ofNat height] t
  response.into

/-- The node as this client shows it to the harvester. -/
def BitcoinRpcClient.node : Node where
  getBlockCount := fun t => (client.getBlockCount J t).mapError Error.kind
  getBlockHash := fun t height => (client.getBlockHash J t height).mapError Error.kind
  getBlockHeader := fun t hash => (client.getBlockHeader J t hash).mapError Error.kind
  getBlock := fun t hash => (client.getBlock J t hash).mapError Error.kind

/-- The answer to a request has a status of success and a result that stands for the value. -/
def BitcoinRpcClient.Answers (decode : V → Option T) (method : String) (params : List V)
    (t : Nat) (value : T) : Prop :=
  ∃ response body v, client.post t client.auth ⟨"2.0", "1", method, params⟩ = some response ∧
    response.isSuccess = true ∧ response.body = some body ∧ body.result = some v ∧
    decode v = some value

end Client

section Answers

variable {V T : Type} {J : Json V} {client : BitcoinRpcClient V}

end Answers

end Rpc

end BtcIndexer
