import BtcIndexer.Columns
import BtcIndexer.Ledger
import BtcIndexer.Store
import BtcIndexer.TextForms

/-! The rows of the five tables as cells: the columns of the schema, the parameters that the
writing statements bind to them, the columns that the reading statements list, and the decoders,
which go by position. The difficulty and the sequence number stand in cells only, as nothing else
looks at them. -/
namespace BtcIndexer
open Columns

/-- What a decoder finds wrong with a cell that it could read. -/
inductive DecodeError where
  | hex
  | address
  | text (s : String)
  deriving DecidableEq, Repr

abbrev ReadError := RowError DecodeError

inductive BlockColumn where
  | hash
  | number
  | previousHash
  | timestamp
  | nonce
  | version
  | difficulty
  deriving DecidableEq, Repr

def btcBlocks : Table BlockColumn :=
  [⟨.hash, .varchar 66, false⟩, ⟨.number, .bigint, false⟩, ⟨.previousHash, .varchar 66, true⟩,
    ⟨.timestamp, .timestamptz, false⟩, ⟨.nonce, .bigint, true⟩, ⟨.version, .int, true⟩,
    ⟨.difficulty, .numeric, true⟩]

inductive TransactionColumn where
  | txid
  | blockHash
  | transactionIndex
  | lockTime
  | isCoinbase
  | version
  deriving DecidableEq, Repr

def btcTransactions : Table TransactionColumn :=
  [⟨.txid, .varchar 64, false⟩, ⟨.blockHash, .varchar 66, false⟩,
    ⟨.transactionIndex, .int, false⟩, ⟨.lockTime, .bigint, true⟩, ⟨.isCoinbase, .boolean, false⟩,
    ⟨.version, .int, true⟩]

inductive UtxoColumn where
  | id
  | address
  | txid
  | vout
  | amount
  | blockNumber
  | spentBlock
  deriving DecidableEq, Repr

def btcUtxos : Table UtxoColumn :=
  [⟨.id, .varchar 74, false⟩, ⟨.address, .varchar 64, false⟩, ⟨.txid, .varchar 64, false⟩,
    ⟨.vout, .bigint, false⟩, ⟨.amount, .numeric, false⟩, ⟨.blockNumber, .bigint, false⟩,
    ⟨.spentBlock, .numeric, true⟩]

/-- The columns of both tables of events, each of which lacks one of them. -/
inductive EventColumn where
  | sequenceId
  | blockNumber
  | txHash
  | address
  | amount
  | action
  | isCoinbase
  deriving DecidableEq, Repr

def btcP2trEvents : Table EventColumn :=
  [⟨.sequenceId, .bigint, false⟩, ⟨.blockNumber, .numeric, false⟩, ⟨.txHash, .varchar 66, false⟩,
    ⟨.address, .varchar 64, false⟩, ⟨.amount, .numeric, false⟩, ⟨.action, .smallint, false⟩]

def pendingBtcP2trEvents : Table EventColumn :=
  [⟨.blockNumber, .numeric, false⟩, ⟨.txHash, .varchar 66, false⟩,
    ⟨.address, .varchar 64, false⟩, ⟨.amount, .numeric, false⟩, ⟨.action, .smallint, false⟩,
    ⟨.isCoinbase, .boolean, false⟩]

/-- `BigDecimal::from_u64`, of a number that has to be a `u64`. -/
def fromU64 (n : Nat) : Option Cell := if n < 2 ^ 64 then some (.numeric n) else none

def toU64 : Int → Option Nat
  | .ofNat n => if n < 2 ^ 64 then some n else none
  | .negSucc _ => none

/-- `as i16`. -/
def Action.toI16 : Action → Int
  | .send => 0
  | .receive => 1
  | .reorg => 2

def Action.tryFrom (v : Int) : Option Action :=
  if v = Action.receive.toI16 then some .receive
  else if v = Action.send.toI16 then some .send
  else if v = Action.reorg.toI16 then some .reorg
  else none

@[simp] theorem Action.tryFrom_toI16 (action : Action) :
    Action.tryFrom action.toI16 = some action := by
  cases action <;> rfl

theorem toU64_natCast {n : Nat} (h : n < 2 ^ 64) : toU64 n = some n := if_pos h

section Writes

variable (T : TextForms)

/-- The insert of `upsert_block`. -/
def BlockRow.cells (difficulty : Int) (row : BlockRow) : Option Row := do
  let number ← fromU64 row.number
  btcBlocks.insert
    [.hash, .number, .previousHash, .timestamp, .nonce, .version, .difficulty]
    [.varchar (T.hash.text row.hash), number,
      (row.previousHash.map fun h => Cell.varchar (T.hash.text h)).getD .null,
      .timestamptz row.timestamp, .numeric row.nonce, .int row.version, .numeric difficulty]

/-- The insert of `upsert_transaction`. Its conflict branch puts another block's text in the
second cell. -/
def TransactionRow.cells (row : TransactionRow) : Option Row :=
  btcTransactions.insert [.txid, .blockHash, .transactionIndex, .lockTime, .isCoinbase, .version]
    [.varchar (T.txid.text row.txid), .varchar (T.hash.text row.blockHash),
      .int (asSigned 32 row.transactionIndex), .numeric row.lockTime, .boolean row.isCoinbase,
      .int row.version]

/-- The insert of `create_utxo`. -/
def UtxoRow.createdCells (row : UtxoRow) : Option Row := do
  let blockNum ← fromU64 row.blockNumber
  btcUtxos.insert [.id, .address, .txid, .vout, .amount, .blockNumber]
    [.varchar (T.txid.text row.txid ++ ':' :: Nat.toDigits 10 row.vout),
      .varchar (T.address.text row.address), .varchar (T.txid.text row.txid),
      .bigint (asSigned 64 row.vout), .numeric row.amount, blockNum]

/-- A row that is spent has gone through `spend_utxo` as well. -/
def UtxoRow.cells (row : UtxoRow) : Option Row := do
  let created ← row.createdCells T
  match row.spentBlock with
  | none => some created
  | some spent => do
      let blockNum ← fromU64 spent
      btcUtxos.update .spentBlock blockNum created

/-- The insert of `create_p2tr_event`, with the number that the sequence gives. -/
def P2trEventRow.cells (sequenceId : Int) (row : P2trEventRow) : Option Row := do
  let blockNum ← fromU64 row.blockNumber
  btcP2trEvents.insert [.sequenceId, .blockNumber, .txHash, .address, .amount, .action]
    [.bigint sequenceId, blockNum, .varchar (T.txid.text row.txid),
      .varchar (T.address.text row.address), .numeric row.amount, .smallint row.action.toI16]

/-- The insert of `create_pending_p2tr_event`. -/
def BtcP2trEvent.pendingCells (event : BtcP2trEvent) : Option Row := do
  let blockNum ← fromU64 event.blockNumber
  pendingBtcP2trEvents.insert [.blockNumber, .txHash, .address, .amount, .action, .isCoinbase]
    [blockNum, .varchar (T.txid.text event.txid), .varchar (T.address.text event.address),
      .numeric event.amount, .smallint event.action.toI16, .boolean event.isCoinbase]

end Writes

def selectUtxo (row : Row) : Row :=
  btcUtxos.project [.address, .txid, .vout, .amount, .blockNumber, .spentBlock] row

def selectEvent (row : Row) : Row :=
  btcP2trEvents.project [.blockNumber, .txHash, .address, .amount, .action] row ++
    .boolean false :: btcP2trEvents.project [.sequenceId] row

def returningPending (row : Row) : Row :=
  pendingBtcP2trEvents.project [.blockNumber, .txHash, .address, .amount, .action, .isCoinbase] row

structure BtcBlock where
  hash : BlockHash
  number : Nat
  previousHash : BlockHash
  timestamp : Nat
  nonce : Int
  version : Int
  difficulty : Int
  deriving DecidableEq, Repr

structure BtcTransaction where
  txid : Txid
  blockHash : BlockHash
  transactionIndex : Nat
  lockTime : Nat
  version : Int
  deriving DecidableEq, Repr

structure SequencedEvent where
  sequenceId : Int
  event : BtcP2trEvent
  deriving DecidableEq, Repr

/-- A result that `?` passes on as an error of the decoder. -/
def decoded {α : Type} (cause : DecodeError) : Option α → Except ReadError α
  | none => .error (.decode cause)
  | some a => .ok a

@[simp] theorem decoded_some {α : Type} (cause : DecodeError) (a : α) :
    decoded cause (some a) = .ok a := rfl

section Decoders

variable (T : TextForms)

def BtcBlock.tryFrom (row : Row) : Except ReadError BtcBlock := do
  let hash ← decoded .hex (T.hash.fromStr (← row.get .text 0))
  let previousHash ← decoded .hex (T.hash.fromStr (← row.get .text 2))
  let number ← row.get .i64 1
  let timestamp ← row.get .dateTime 3
  let nonce ← row.get .i64 4
  let version ← row.get .i32 5
  let difficulty ← row.get .decimal 6
  return ⟨hash, asUnsigned 64 number, previousHash, timestamp, nonce, version, difficulty⟩

def BtcTransaction.tryFrom (row : Row) : Except ReadError BtcTransaction := do
  let txid ← decoded .hex (T.txid.fromStr (← row.get .text 0))
  let blockHash ← decoded .hex (T.hash.fromStr (← row.get .text 1))
  let lockTime ← row.get .i64 3
  let version ← row.get .i32 5
  let transactionIndex ← row.get .i32 2
  return ⟨txid, blockHash, asUnsigned 64 transactionIndex, asUnsigned 64 lockTime, version⟩

def BtcUtxoInfo.tryFrom (row : Row) : Except ReadError BtcUtxoInfo := do
  let address ← row.get .text 0
  let txid ← decoded .hex (T.txid.fromStr (← row.get .text 1))
  let vout ← row.get .i64 2
  let amount ← row.get .decimal 3
  let blockNumber ← row.get .i64 4
  let spentBlock ← (← row.get (.option .decimal) 5).mapM fun bd =>
    decoded (.text "convert bigdecimal to u64 failed") (toU64 bd)
  let owner ← decoded .address (T.address.fromStr address)
  return ⟨owner, txid, asUnsigned 32 vout, amount, asUnsigned 64 blockNumber, spentBlock⟩

def SequencedEvent.tryFrom (row : Row) : Except ReadError SequencedEvent := do
  let blockNumber ← decoded (.text "convert bigdecimal to u64 failed")
    (toU64 (← row.tryGet .decimal 0))
  let txid ← decoded .hex (T.txid.fromStr (← row.get .text 1))
  let address ← decoded .address (T.address.fromStr (← row.get .text 2))
  let action ← decoded (.text "convert i16 to action failed") (Action.tryFrom (← row.get .i16 4))
  let amount ← row.get .decimal 3
  let isCoinbase ← row.get .bool 5
  let sequenceId := (row.tryGet .i64 6 : Except ReadError Int).toOption.getD 0
  return ⟨sequenceId, ⟨blockNumber, txid, address, amount, action, isCoinbase⟩⟩

end Decoders

theorem fromU64_eq_some {n : Nat} {cell : Cell} (h : fromU64 n = some cell) :
    n < 2 ^ 64 ∧ cell = .numeric n := by
  obtain ⟨hlt, hcell⟩ := Option.ite_none_right_eq_some.mp h
  exact ⟨hlt, (Option.some.inj hcell).symm⟩

section Cells

variable {T : TextForms} {cells : Row}

theorem BlockRow.cells_eq {row : BlockRow} {difficulty : Int}
    (h : row.cells T difficulty = some cells) :
    row.number < 2 ^ 64 ∧
      cells = [.varchar (T.hash.text row.hash), .bigint row.number,
        (row.previousHash.map fun h => Cell.varchar (T.hash.text h)).getD .null,
        .timestamptz row.timestamp, .bigint row.nonce, .int row.version, .numeric difficulty] := by
  obtain ⟨number, hnumber, hinsert⟩ := Option.bind_eq_some_iff.mp h
  obtain ⟨hlt, rfl⟩ := fromU64_eq_some hnumber
  exact ⟨hlt, Table.store_eq hinsert⟩

theorem TransactionRow.cells_eq {row : TransactionRow} (h : row.cells T = some cells) :
    row.lockTime < 2 ^ 64 ∧
      cells = [.varchar (T.txid.text row.txid), .varchar (T.hash.text row.blockHash),
        .int (asSigned 32 row.transactionIndex), .bigint row.lockTime, .boolean row.isCoinbase,
        .int row.version] := by
  refine ⟨?_, Table.store_eq h⟩
  have hlockTime : btcTransactions[3]? = some ⟨.lockTime, .bigint, true⟩ := rfl
  have hwidth := (admits_bigint.mp (Table.store_admits h hlockTime rfl)).2
  omega

/-- The text in the `id` column has room for no more than nine digits of an output's index. -/
theorem UtxoRow.createdCells_eq {row : UtxoRow} (h : row.createdCells T = some cells) :
    row.blockNumber < 2 ^ 64 ∧ row.vout < 2 ^ 32 ∧
      cells = [.varchar (T.txid.text row.txid ++ ':' :: Nat.toDigits 10 row.vout),
        .varchar (T.address.text row.address), .varchar (T.txid.text row.txid),
        .bigint (asSigned 64 row.vout), .numeric row.amount, .bigint row.blockNumber, .null] := by
  obtain ⟨number, hnumber, hinsert⟩ := Option.bind_eq_some_iff.mp h
  obtain ⟨hlt, rfl⟩ := fromU64_eq_some hnumber
  refine ⟨hlt, ?_, Table.store_eq hinsert⟩
  have hid : btcUtxos[0]? = some ⟨.id, .varchar 74, false⟩ := rfl
  have hlength := admits_varchar.mp (Table.store_admits hinsert hid rfl)
  rw [List.length_append, T.txid_length, List.length_cons] at hlength
  have hdigits : (Nat.toDigits 10 row.vout).length ≤ 9 := by omega
  have hvout := (Nat.length_toDigits_le_iff (by decide) (by decide)).mp hdigits
  omega

theorem UtxoRow.cells_eq {row : UtxoRow} (h : row.cells T = some cells) :
    row.blockNumber < 2 ^ 64 ∧ row.vout < 2 ^ 32 ∧ (∀ spent ∈ row.spentBlock, spent < 2 ^ 64) ∧
      cells = [.varchar (T.txid.text row.txid ++ ':' :: Nat.toDigits 10 row.vout),
        .varchar (T.address.text row.address), .varchar (T.txid.text row.txid),
        .bigint (asSigned 64 row.vout), .numeric row.amount, .bigint row.blockNumber,
        (row.spentBlock.map fun spent : Nat => Cell.numeric spent).getD .null] := by
  obtain ⟨created, hcreated, hcells⟩ := Option.bind_eq_some_iff.mp h
  obtain ⟨hblock, hvout, rfl⟩ := UtxoRow.createdCells_eq hcreated
  cases hs : row.spentBlock with
  | none =>
      rw [hs] at hcells
      exact ⟨hblock, hvout, nofun, (Option.some.inj hcells).symm⟩
  | some spent =>
      rw [hs] at hcells
      obtain ⟨number, hnumber, hupdate⟩ := Option.bind_eq_some_iff.mp hcells
      obtain ⟨hlt, rfl⟩ := fromU64_eq_some hnumber
      refine ⟨hblock, hvout, ?_, Table.store_eq hupdate⟩
      rintro n ⟨⟩
      exact hlt

theorem P2trEventRow.cells_eq {row : P2trEventRow} {sequenceId : Int}
    (h : row.cells T sequenceId = some cells) :
    row.blockNumber < 2 ^ 64 ∧
      cells = [.bigint sequenceId, .numeric row.blockNumber, .varchar (T.txid.text row.txid),
        .varchar (T.address.text row.address), .numeric row.amount,
        .smallint row.action.toI16] := by
  obtain ⟨number, hnumber, hinsert⟩ := Option.bind_eq_some_iff.mp h
  obtain ⟨hlt, rfl⟩ := fromU64_eq_some hnumber
  exact ⟨hlt, Table.store_eq hinsert⟩

theorem BtcP2trEvent.pendingCells_eq {event : BtcP2trEvent}
    (h : event.pendingCells T = some cells) :
    event.blockNumber < 2 ^ 64 ∧
      cells = [.numeric event.blockNumber, .varchar (T.txid.text event.txid),
        .varchar (T.address.text event.address), .numeric event.amount,
        .smallint event.action.toI16, .boolean event.isCoinbase] := by
  obtain ⟨number, hnumber, hinsert⟩ := Option.bind_eq_some_iff.mp h
  obtain ⟨hlt, rfl⟩ := fromU64_eq_some hnumber
  exact ⟨hlt, Table.store_eq hinsert⟩

end Cells

section RoundTrips

variable {T : TextForms} {cells : Row}

/-- `row.get(2)` unwraps, and a block without a previous hash has nothing there. -/
theorem BtcBlock.tryFrom_cells {row : BlockRow} {difficulty : Int}
    (h : row.cells T difficulty = some cells) :
    BtcBlock.tryFrom T cells = match row.previousHash with
      | none => .error (.panic 2)
      | some previous => .ok ⟨row.hash, row.number, previous, row.timestamp, row.nonce,
          row.version, difficulty⟩ := by
  obtain ⟨hnumber, rfl⟩ := BlockRow.cells_eq h
  cases row.previousHash with
  | none => simp [BtcBlock.tryFrom, Row.get_eq, T.hash.fromStr_text]
  | some previous =>
      simp [BtcBlock.tryFrom, Row.get_eq, T.hash.fromStr_text, asUnsigned_natCast hnumber]

/-- The index goes through an `i32`. -/
theorem BtcTransaction.tryFrom_cells {row : TransactionRow} (h : row.cells T = some cells) :
    BtcTransaction.tryFrom T cells = .ok ⟨row.txid, row.blockHash,
      asUnsigned 64 (asSigned 32 row.transactionIndex), row.lockTime, row.version⟩ := by
  obtain ⟨hlockTime, rfl⟩ := TransactionRow.cells_eq h
  simp [BtcTransaction.tryFrom, Row.get_eq, T.txid.fromStr_text, T.hash.fromStr_text,
    asUnsigned_natCast hlockTime]

theorem BtcUtxoInfo.tryFrom_cells {row : UtxoRow} (h : row.cells T = some cells) :
    BtcUtxoInfo.tryFrom T (selectUtxo cells) = .ok row.toInfo := by
  obtain ⟨hblock, hvout, hspent, rfl⟩ := UtxoRow.cells_eq h
  have hselect : ∀ c₀ c₁ c₂ c₃ c₄ c₅ c₆ : Cell,
      selectUtxo [c₀, c₁, c₂, c₃, c₄, c₅, c₆] = [c₁, c₂, c₃, c₄, c₅, c₆] :=
    fun _ _ _ _ _ _ _ => rfl
  have hback : asUnsigned 32 (asSigned 64 row.vout) = row.vout := by
    rw [asUnsigned_asSigned (by decide), Nat.mod_eq_of_lt hvout]
  rw [hselect]
  cases hs : row.spentBlock with
  | none =>
      simp [BtcUtxoInfo.tryFrom, Row.get_eq, T.txid.fromStr_text, T.address.fromStr_text, hback,
        asUnsigned_natCast hblock, UtxoRow.toInfo, hs]
  | some spent =>
      simp [BtcUtxoInfo.tryFrom, Row.get_eq, T.txid.fromStr_text, T.address.fromStr_text, hback,
        asUnsigned_natCast hblock, toU64_natCast (hspent spent hs), UtxoRow.toInfo, hs]

theorem SequencedEvent.tryFrom_cells {row : P2trEventRow} {sequenceId : Int}
    (h : row.cells T sequenceId = some cells) :
    SequencedEvent.tryFrom T (selectEvent cells) = .ok ⟨sequenceId, row.toEvent⟩ := by
  obtain ⟨hblock, rfl⟩ := P2trEventRow.cells_eq h
  have hselect : ∀ c₀ c₁ c₂ c₃ c₄ c₅ : Cell,
      selectEvent [c₀, c₁, c₂, c₃, c₄, c₅] = [c₁, c₂, c₃, c₄, c₅, .boolean false, c₀] :=
    fun _ _ _ _ _ _ => rfl
  rw [hselect]
  simp [SequencedEvent.tryFrom, Row.get_eq, Row.tryGet, T.txid.fromStr_text,
    T.address.fromStr_text, toU64_natCast hblock, P2trEventRow.toEvent, Except.toOption]

/-- There is no seventh cell here, and the sequence number is zero. -/
theorem SequencedEvent.tryFrom_pendingCells {event : BtcP2trEvent}
    (h : event.pendingCells T = some cells) :
    SequencedEvent.tryFrom T (returningPending cells) = .ok ⟨0, event⟩ := by
  obtain ⟨hblock, rfl⟩ := BtcP2trEvent.pendingCells_eq h
  have hselect : ∀ c₀ c₁ c₂ c₃ c₄ c₅ : Cell,
      returningPending [c₀, c₁, c₂, c₃, c₄, c₅] = [c₀, c₁, c₂, c₃, c₄, c₅] :=
    fun _ _ _ _ _ _ => rfl
  rw [hselect]
  simp [SequencedEvent.tryFrom, Row.get_eq, Row.tryGet, T.txid.fromStr_text,
    T.address.fromStr_text, toU64_natCast hblock, Except.toOption]

end RoundTrips

end BtcIndexer
