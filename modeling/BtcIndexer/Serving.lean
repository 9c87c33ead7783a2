import BtcIndexer.Api
import BtcIndexer.ForkRound

/-! What the service answers on the tables of a chain that it has followed: the heights, the
blocks and the transactions of the chain, its unspent outputs by owner, and their balances. -/
namespace BtcIndexer
open Stateful Outbox Rows Columns Routing

namespace Api

def Database.of {T : TextForms} {s : Store} (image : StoreImage T s) (connection : Connection) :
    Database where
  getLatestBlockNum := .ok s.getLatestBlockNum
  getBlock := fun hash => (image.getBlock hash).mapError .row
  getTransaction := fun txid => (image.getTransaction txid).mapError .row
  getUnspentUtxosByOwner := fun owner => (image.getUnspentUtxosByOwner owner).mapError .row
  connection := connection

namespace Request

variable (L : Libraries) (r : Request)

def Gets (rest : List Text) : Prop :=
  r.method = .get ∧ r.segments L = ["", "api", "v1"].map String.toList ++ rest

/-- Any other segment than `latest` is taken for a hash. -/
def GetsBlock (text : Text) : Prop :=
  text ≠ [] ∧ text ≠ "latest".toList ∧ r.Gets L ["raw".toList, "block".toList, text]

def GetsTransaction (text : Text) : Prop :=
  text ≠ [] ∧ r.Gets L ["raw".toList, "transaction".toList, text]

end Request

def Libraries.hashOf (L : Libraries) (text : Text) : Except String BlockHash :=
  L.blockHash (L.router.unquote text)

def Libraries.txidOf (L : Libraries) (text : Text) : Except String Txid :=
  L.txid (L.router.unquote text)

section Endpoints

variable {L : Libraries} {T : TextForms} {s : Store} {r : Request} {db : Database} {text : Text}

theorem handled_of_dispatch {endpoint : Endpoint} {args : List Text}
    (h : dispatch routes r.method (r.segments L) = some (endpoint, args)) :
    r.handled L db = handler L db r.query (endpoint, args.map L.router.unquote) := by
  unfold Request.handled
  rw [L.router.recognize_of_dispatch h]

/-- The get routes whose paths no earlier route shares. -/
theorem dispatch_get (earlier : List (Route Method Endpoint))
    {later : List (Route Method Endpoint)} {pattern : Pattern} {endpoint : Endpoint}
    (htable : routes = earlier ++ ⟨.get, pattern, endpoint⟩ :: later)
    (hapart : ∀ other ∈ earlier, .get = other.method → pattern.apart other.pattern = true)
    {args rest : List Text} (hr : r.Gets L rest)
    (hfill : pattern.fill args = some (["", "api", "v1"].map String.toList ++ rest))
    (hargs : [] ∉ args) : dispatch routes r.method (r.segments L) = some (endpoint, args) := by
  rw [hr.1, hr.2]
  exact dispatch_eq_some htable
    (fun other hother => Route.fits_of_apart (hapart other hother) hfill hargs) hfill hargs

theorem handled_latestBlock (hr : r.Gets L ["raw".toList, "block".toList, "latest".toList]) :
    r.handled L db = .reply (.of (latestBlock db)) :=
  handled_of_dispatch (dispatch_get [] rfl (by decide) hr rfl List.not_mem_nil)

theorem handled_block (hr : r.GetsBlock L text) :
    r.handled L db = .reply (.of (block L db (L.router.unquote text))) := by
  obtain ⟨hempty, hlatest, hgets⟩ := hr
  have htable : routes = routes.take 1 ++
      ⟨.get, scope ++ words ["raw", "block"] ++ [.dynamic], .block⟩ :: routes.drop 2 := rfl
  have hskipped : ∀ other ∈ routes.take 1, other.fits .get
      (["", "api", "v1"].map String.toList ++ ["raw".toList, "block".toList, text]) = none := by
    intro other hother
    rw [List.mem_singleton.mp hother]
    simp only [Route.fits, if_true, Option.map_eq_none_iff]
    exact if_neg hlatest
  have htarget : dispatch routes r.method (r.segments L) = some (.block, [text]) := by
    rw [hgets.1, hgets.2]
    exact dispatch_eq_some htable hskipped rfl fun hmem => hempty (List.mem_singleton.mp hmem).symm
  exact handled_of_dispatch htarget

theorem handled_transaction (hr : r.GetsTransaction L text) :
    r.handled L db = .reply (.of (transaction L db (L.router.unquote text))) := by
  have hargs : [] ∉ [text] := fun hmem => hr.1 (List.mem_singleton.mp hmem).symm
  exact handled_of_dispatch (dispatch_get (routes.take 2) rfl (by decide) hr.2 rfl hargs)

def paramsInvalid (error : String) : Reply := .of (.error (.paramsInvalid error))

def rowNotFound : Reply := .of (.error (.sqlx (.row .rowNotFound)))

theorem block_asked {hash : BlockHash} (hread : L.hashOf text = .ok hash)
    (hr : r.GetsBlock L text) : r.handled L db = .reply (.of (do
      let b ← (db.getBlock hash).mapError .sqlx
      return .blockHeaderData b)) := by
  rw [handled_block hr, block, show L.blockHash _ = _ from hread]
  rfl

theorem block_misread {error : String} (hread : L.hashOf text = .error error)
    (hr : r.GetsBlock L text) : r.handled L db = .reply (paramsInvalid error) := by
  rw [handled_block hr, block, show L.blockHash _ = _ from hread]
  rfl

theorem transaction_asked {txid : Txid} (hread : L.txidOf text = .ok txid)
    (hr : r.GetsTransaction L text) : r.handled L db = .reply (.of (do
      let tx ← (db.getTransaction txid).mapError .sqlx
      return .transactionData tx)) := by
  rw [handled_transaction hr, transaction, show L.txid _ = _ from hread]
  rfl

theorem transaction_misread {error : String} (hread : L.txidOf text = .error error)
    (hr : r.GetsTransaction L text) : r.handled L db = .reply (paramsInvalid error) := by
  rw [handled_transaction hr, transaction, show L.txid _ = _ from hread]
  rfl

variable (image : StoreImage T s) (connection : Connection)

theorem block_served {row : BlockRow} (hrow : row ∈ s.blocks) {previous : BlockHash}
    (hprevious : row.previousHash = some previous) (hread : L.hashOf text = .ok row.hash)
    (hr : r.GetsBlock L text) :
    ∃ difficulty, r.handled L (.of image connection) = .reply (.answer .ok (.blockHeaderData
      ⟨row.hash, row.number, previous, row.timestamp, row.nonce, row.version, difficulty⟩)) := by
  obtain ⟨difficulty, hfound⟩ := image.getBlock_eq hrow
  rw [hprevious] at hfound
  refine ⟨difficulty, (block_asked hread hr).trans ?_⟩
  simp only [Database.of, hfound]
  rfl

/-- One that is stored without is a panic of the decoder. -/
theorem block_aborted {row : BlockRow} (hrow : row ∈ s.blocks)
    (hprevious : row.previousHash = none) (hread : L.hashOf text = .ok row.hash)
    (hr : r.GetsBlock L text) : r.handled L (.of image connection) = .reply .aborted := by
  obtain ⟨difficulty, hfound⟩ := image.getBlock_eq hrow
  rw [hprevious] at hfound
  refine (block_asked hread hr).trans ?_
  simp only [Database.of, hfound]
  rfl

theorem block_unknown {hash : BlockHash} (hunknown : hash ∉ s.blocks.map BlockRow.hash)
    (hread : L.hashOf text = .ok hash) (hr : r.GetsBlock L text) :
    r.handled L (.of image connection) = .reply rowNotFound := by
  have hfound : image.getBlock hash = .error .rowNotFound :=
    image.blocks.fetchOne_none (find?_key_none.mpr hunknown) _
  refine (block_asked hread hr).trans ?_
  simp only [Database.of, hfound]
  rfl

theorem transaction_served {row : TransactionRow} (hrow : row ∈ s.transactions)
    (hread : L.txidOf text = .ok row.txid) (hr : r.GetsTransaction L text) :
    r.handled L (.of image connection) = .reply (.answer .ok (.transactionData ⟨row.txid,
      row.blockHash, asUnsigned 64 (asSigned 32 row.transactionIndex), row.lockTime,
      row.version⟩)) := by
  refine (transaction_asked hread hr).trans ?_
  simp only [Database.of, image.getTransaction_eq hrow]
  rfl

theorem transaction_unknown {txid : Txid}
    (hunknown : txid ∉ s.transactions.map TransactionRow.txid)
    (hread : L.txidOf text = .ok txid) (hr : r.GetsTransaction L text) :
    r.handled L (.of image connection) = .reply rowNotFound := by
  have hfound : image.getTransaction txid = .error .rowNotFound :=
    image.transactions.fetchOne_none (find?_key_none.mpr hunknown) _
  refine (transaction_asked hread hr).trans ?_
  simp only [Database.of, hfound]
  rfl

end Endpoints

end Api

namespace Processor

theorem Tables.latest {P : Processor} {chain : Nat → BlockInfo} {first size count : Nat}
    {blocks : List BlockInfo} {s : Store} (htables : P.Tables blocks s)
    (hperm : blocks.Perm (stretch chain first (count + 1))) (hchain : P.Indexes chain first size)
    (hlt : count < size) :
    s.getLatestBlockNum = some (first + count) := by
  have hrow : ∀ n, first ≤ n → n < first + (count + 1) →
      ∃ row ∈ s.blocks, row.number = n := by
    intro n hlow hhigh
    have hmem : chain n ∈ stretch chain first (count + 1) := mem_stretch.mpr ⟨n, hlow, hhigh, rfl⟩
    have hin : chain n ∈ stretch chain first size := mem_stretch.mpr ⟨n, hlow, by omega, rfl⟩
    obtain ⟨timestamp, hts⟩ := Option.isSome_iff_exists.mp (hchain.known _ hin).1
    refine ⟨blockRow (chain n).header timestamp, ?_, hchain.height n hlow (by omega)⟩
    rw [htables.blocks]
    exact List.mem_filterMap.mpr ⟨chain n, hperm.mem_iff.mpr hmem, by rw [hts]; rfl⟩
  have hbelow : ∀ row ∈ s.blocks, row.number ≤ first + count := by
    intro row hrow
    rw [htables.blocks] at hrow
    obtain ⟨b, hb, _, hnumber, _⟩ := mem_blockRows hrow
    obtain ⟨n, hlow, hhigh, rfl⟩ := mem_stretch.mp (hperm.subset hb)
    rw [hnumber, hchain.height n hlow (by omega)]
    omega
  obtain ⟨row, hmem, hnumber⟩ := hrow (first + count) (by omega) (by omega)
  refine List.max?_eq_some_iff.mpr ⟨List.mem_map.mpr ⟨row, hmem, hnumber⟩, fun n hn => ?_⟩
  obtain ⟨other, hother, rfl⟩ := List.mem_map.mp hn
  exact hbelow other hother

end Processor

/-- The answers to every get of the height, of a block or of a transaction, by any text, show the
blocks of a chain up to the last, and nothing else. -/
structure Api.ServesBlocks (L : Libraries) (db : Database) (P : Processor)
    (blocks : List BlockInfo) (last : Nat) : Prop where
  latest : ∀ r : Request, r.Gets L ["raw".toList, "block".toList, "latest".toList] →
    r.handled L db = .reply (.answer .ok (.latestBlockHeight (some last)))
  block : ∀ b ∈ blocks, ∀ previous, b.header.previousBlockHash = some previous →
    ∀ (r : Request) text, r.GetsBlock L text → L.hashOf text = .ok b.header.hash →
      ∃ timestamp difficulty, P.timestampOpt b.header.time = some timestamp ∧
        r.handled L db = .reply (.answer .ok (.blockHeaderData ⟨b.header.hash, b.header.height,
          previous, timestamp, b.header.nonce, b.header.version, difficulty⟩))
  /-- The block without a previous hash is the only one that is not shown. -/
  aborted : ∀ b ∈ blocks, b.header.previousBlockHash = none →
    ∀ (r : Request) text, r.GetsBlock L text → L.hashOf text = .ok b.header.hash →
      r.handled L db = .reply .aborted
  noBlock : ∀ hash ∉ blocks.map (fun b => b.header.hash), ∀ (r : Request) text,
    r.GetsBlock L text → L.hashOf text = .ok hash → r.handled L db = .reply rowNotFound
  noHash : ∀ (r : Request) text error, r.GetsBlock L text → L.hashOf text = .error error →
    r.handled L db = .reply (paramsInvalid error)
  transaction : ∀ b ∈ blocks, ∀ (idx : Nat) tx, b.txdata[idx]? = some tx →
    ∀ (r : Request) text, r.GetsTransaction L text → L.txidOf text = .ok tx.txid →
      r.handled L db = .reply (.answer .ok (.transactionData ⟨tx.txid, b.header.hash,
        asUnsigned 64 (asSigned 32 idx), tx.lockTime, tx.version⟩))
  noTransaction : ∀ txid ∉ blocks.flatMap BlockInfo.txids, ∀ (r : Request) text,
    r.GetsTransaction L text → L.txidOf text = .ok txid → r.handled L db = .reply rowNotFound
  noTxid : ∀ (r : Request) text error, r.GetsTransaction L text → L.txidOf text = .error error →
    r.handled L db = .reply (paramsInvalid error)

section Served

open Api

variable {P : Processor} {chain : Nat → BlockInfo} {first size count : Nat} {s : Store}
variable {T : TextForms}

theorem Processor.Covers.serves (hcovers : P.Covers chain first (count + 1) s)
    (hchain : P.Indexes chain first size) (hlt : count < size) (L : Libraries)
    (image : StoreImage T s) (connection : Connection) :
    ServesBlocks L (.of image connection) P (stretch chain first (count + 1))
      (first + count) := by
  obtain ⟨blocks, hperm, hindexed⟩ := hcovers
  have htables := hindexed.tables ((hchain.left hlt).distinct.perm hperm.symm)
  have hrow : ∀ b ∈ stretch chain first (count + 1), ∃ timestamp,
      P.timestampOpt b.header.time = some timestamp ∧ blockRow b.header timestamp ∈ s.blocks := by
    intro b hb
    obtain ⟨more, hmore⟩ := Nat.le.dest hlt
    have hin : b ∈ stretch chain first size := by
      rw [← hmore, stretch_append]
      exact List.mem_append_left _ hb
    obtain ⟨timestamp, hts⟩ := Option.isSome_iff_exists.mp (hchain.known b hin).1
    refine ⟨timestamp, hts, ?_⟩
    rw [htables.blocks]
    exact List.mem_filterMap.mpr ⟨b, hperm.mem_iff.mpr hb, by rw [hts]; rfl⟩
  constructor
  · intro r hr
    rw [handled_latestBlock hr, latestBlock]
    change Handled.reply (.of ((Except.ok s.getLatestBlockNum).mapError _ >>= _)) = _
    rw [htables.latest hperm hchain hlt]
    rfl
  · intro b hb previous hprevious r text hr hread
    obtain ⟨timestamp, hts, hmem⟩ := hrow b hb
    obtain ⟨difficulty, hserved⟩ := block_served image connection hmem hprevious hread hr
    exact ⟨timestamp, difficulty, hts, hserved⟩
  · intro b hb hprevious r text hr hread
    obtain ⟨timestamp, _, hmem⟩ := hrow b hb
    exact block_aborted image connection hmem hprevious hread hr
  · intro hash hunknown r text hr hread
    refine block_unknown image connection (fun hmem => ?_) hread hr
    rw [htables.blocks] at hmem
    exact hunknown ((hperm.map _).subset ((P.blockRows_hash_sublist _).subset hmem))
  · exact fun r text error hr hread => block_misread hread hr
  · intro b hb idx tx htx r text hr hread
    have hmem : transactionRow b.header.hash idx tx ∈ s.transactions := by
      rw [htables.transactions]
      refine List.mem_flatMap.mpr
        ⟨b, hperm.mem_iff.mpr hb, List.mem_map.mpr ⟨(tx, idx), ?_, rfl⟩⟩
      exact List.mem_zipIdx_iff_getElem?.mpr htx
    exact transaction_served image connection hmem hread hr
  · intro txid hunknown r text hr hread
    refine transaction_unknown image connection (fun hmem => ?_) hread hr
    rw [htables.transactions, map_txid_txRows] at hmem
    exact hunknown ((hperm.flatMap_right _).subset hmem)
  · exact fun r text error hr hread => transaction_misread hread hr

end Served

open Api in
/-- After a fork the heights, blocks and transactions that are served are those of the new chain
up to the cursor, and no others. -/
theorem fork_served (P : Processor) (node : Node) (env : DbEnv) (chain : Nat → BlockInfo)
    (tip : Nat → Nat) (since first size count rounds : Nat) (old : List BlockInfo)
    (shared : Store) (h : Harvester) (L : Libraries) (T : TextForms) (hquiet : env.Quiet)
    (hchain : P.Indexes chain first size)
    (htop : ∀ t, tip t < first + size) (hnode : node.StandsOn since chain first tip)
    (hleft : h.LeftBehind P chain first count old shared) (hopen : h.endHeight = none)
    (hsince : since ≤ h.world.clock)
    (htip : first + count + (old.length + 1) ≤ tip h.world.clock) :
    ∃ h' last,
      (∀ fuels : List Nat, fuels.length = rounds + 1 → (∀ fuel ∈ fuels, size + 1 < fuel) →
        start P node env (fuels.map .harvest) h = .ok () h') ∧
      tip h.world.clock ≤ last ∧ last ≤ tip h'.world.clock ∧
      ∀ (image : StoreImage T h'.world.store) (connection : Connection),
        ServesBlocks L (.of image connection) P (stretch chain first (last + 1 - first)) last := by
  obtain ⟨h', _, more, _, _, hrun, hreached, hcaught, _⟩ :=
    forkRounds_total hquiet hchain htop hnode hleft hopen hsince htip rounds
  have hbelow := htop h'.world.clock
  have hbehind := hcaught.behind
  have hcount : first + (count + (old.length + 1) + more) + 1 - first =
      count + (old.length + 1) + more + 1 := by omega
  refine ⟨h', first + (count + (old.length + 1) + more), hrun, by omega, hbehind, ?_⟩
  intro image connection
  rw [hcount]
  exact hcaught.covers.serves hchain (by omega) L image connection

open Api in
theorem replacedChain_served : ∃ h' last,
    (∀ fuels : List Nat, fuels.length = 0 + 1 → (∀ fuel ∈ fuels, 3 + 1 < fuel) →
      start Processor.mainnet (Node.ofBlocks (sharedBlock :: quietFork)) DbEnv.calm
        (fuels.map .harvest) (harvesterAt [sharedBlock, orphanBlock]) = .ok () h') ∧
    3 ≤ last ∧ last ≤ 3 ∧
    ∀ (image : StoreImage .mainnet h'.world.store) (connection : Connection),
      ServesBlocks (.ofTextForms .mainnet "invalid") (.of image connection) .mainnet
        (stretch replacedChain 1 (last + 1 - 1)) last :=
  fork_served Processor.mainnet (Node.ofBlocks (sharedBlock :: quietFork)) DbEnv.calm
    replacedChain (fun _ => 3) 0 1 3 0 0 [orphanBlock] (indexed [sharedBlock]).store
    (harvesterAt [sharedBlock, orphanBlock]) (.ofTextForms .mainnet "invalid") .mainnet
    DbEnv.calm_quiet replacedChain_indexes (fun _ => by decide) (replacedChain_standing 0)
    harvesterAt_leftBehind rfl (Nat.zero_le _) (by decide)

end BtcIndexer
