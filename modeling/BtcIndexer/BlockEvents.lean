import BtcIndexer.Chain
import BtcIndexer.Ledger

/-! What a block tells the aggregator. Each transaction is netted per address in a map and its
nonzero changes are sent; over the whole block they add up to what the unspent rows gain. -/
namespace BtcIndexer
open Stateful Outbox Rows

def UtxoRow.amountFor (a : Address) (u : UtxoRow) : Int := if u.address = a then u.amount else 0

def BtcUtxoInfo.amountFor (a : Address) (info : BtcUtxoInfo) : Int :=
  if info.owner = a then info.amount else 0

@[simp] theorem UtxoRow.amountFor_toInfo (a : Address) (u : UtxoRow) :
    u.toInfo.amountFor a = u.amountFor a := rfl

/-- The sum of the amounts of an address over the rows with `spent_block` NULL. -/
def unspentOf (rows : List UtxoRow) (a : Address) : Int :=
  total UtxoRow.amount (rows.filter (fun u => u.spentBlock.isNone && decide (u.address = a)))

theorem unspentOf_eq (rows : List UtxoRow) (a : Address) :
    unspentOf rows a =
      total (fun u => if u.spentBlock = none then u.amountFor a else 0) rows := by
  rw [unspentOf, total_filter]
  apply total_congr
  intro u _
  cases hs : u.spentBlock <;> by_cases ha : u.address = a <;> simp [UtxoRow.amountFor, ha]

theorem unspentOf_append (xs ys : List UtxoRow) (a : Address) :
    unspentOf (xs ++ ys) a = unspentOf xs a + unspentOf ys a := by
  rw [unspentOf_eq, unspentOf_eq, unspentOf_eq, total_append]

namespace BalanceUpdates

theorem get_insert (updates : BalanceUpdates) (b a : Address) (v : Int) :
    get (updates.insert b v) a = if b = a then v else updates.get a := by
  by_cases h : b = a
  · rw [if_pos h, ← h, get, AList.lookup_insert]
    rfl
  · rw [if_neg h, get, AList.lookup_insert_ne (Ne.symm h)]
    rfl

theorem keyed_pairs (updates : BalanceUpdates) : Keyed Prod.fst updates.pairs := by
  unfold Keyed pairs
  rw [List.map_map]
  exact updates.nodupKeys

theorem mem_pairs {updates : BalanceUpdates} {a : Address} {v : Int} :
    (a, v) ∈ updates.pairs ↔ updates.lookup a = some v := by
  rw [pairs, List.mem_map]
  constructor
  · rintro ⟨⟨b, u⟩, hmem, hpair⟩
    cases hpair
    exact AList.mem_lookup_iff.mpr hmem
  · intro h
    exact ⟨⟨a, v⟩, AList.mem_lookup_iff.mp h, rfl⟩

theorem total_pairs (updates : BalanceUpdates) (a : Address) :
    total (fun p : Address × Int => if p.1 = a then p.2 else 0) updates.pairs =
      updates.get a := by
  rw [updates.keyed_pairs.total_at]
  cases h : updates.lookup a with
  | some v =>
      rw [get, h]
      exact valueAt_of_mem updates.keyed_pairs (mem_pairs.mpr h)
  | none =>
      rw [get, h]
      apply valueAt_eq_zero
      intro hmem
      obtain ⟨⟨b, v⟩, hpair, rfl⟩ := List.mem_map.mp hmem
      have hsome := mem_pairs.mp hpair
      rw [h] at hsome
      cases hsome

end BalanceUpdates

namespace Processor

/-- What the candidates named by some outpoints hold for an address. -/
def spentFor (relevant : RelevantUtxos) (outpoints : List OutPoint) (a : Address) : Int :=
  total (fun info => if info.getOutPoint ∈ outpoints then info.amountFor a else 0) relevant

theorem spentFor_nil (relevant : RelevantUtxos) (a : Address) : spentFor relevant [] a = 0 :=
  total_eq_zero fun info _ => by simp

/-- A candidate is spent once, by the first input that names it. -/
theorem spentFor_cons {relevant : RelevantUtxos} (h : Keyed BtcUtxoInfo.getOutPoint relevant)
    {info : BtcUtxoInfo} (hinfo : info ∈ relevant) (outpoints : List OutPoint) (a : Address) :
    spentFor relevant (info.getOutPoint :: outpoints) a =
      info.amountFor a + spentFor (relevant.remove info.getOutPoint) outpoints a := by
  have hone : total (fun i => if i.getOutPoint = info.getOutPoint then i.amountFor a else 0)
      relevant = info.amountFor a := by
    rw [h.total_at]
    exact valueAt_of_mem h hinfo
  rw [spentFor, spentFor, RelevantUtxos.remove, total_filter, ← hone, ← total_add]
  apply total_congr
  intro i _
  by_cases hi : i.getOutPoint = info.getOutPoint <;> simp [hi]

theorem spentFor_skip {relevant : RelevantUtxos} {o : OutPoint}
    (h : o ∉ relevant.map BtcUtxoInfo.getOutPoint) (outpoints : List OutPoint) (a : Address) :
    spentFor relevant (o :: outpoints) a = spentFor relevant outpoints a := by
  apply total_congr
  intro i hi
  have hne : i.getOutPoint ≠ o := fun he => h (he ▸ List.mem_map_of_mem hi)
  simp [hne]

theorem debit_get {ins : List TxIn} {relevant : RelevantUtxos} {updates : BalanceUpdates}
    (h : Keyed BtcUtxoInfo.getOutPoint relevant) (a : Address) :
    (debit ins relevant updates).2.get a =
      updates.get a - spentFor relevant (ins.map TxIn.previousOutput) a := by
  induction ins generalizing relevant updates with
  | nil => simp [debit, spentFor_nil]
  | cons txin rest ih =>
      cases hget : relevant.get txin.previousOutput with
      | none =>
          simp only [debit, hget, ih h, List.map_cons]
          rw [spentFor_skip (RelevantUtxos.get_none hget)]
      | some utxo =>
          obtain ⟨hmem, hkey⟩ := RelevantUtxos.get_some hget
          have hleft : Keyed BtcUtxoInfo.getOutPoint (relevant.remove txin.previousOutput) :=
            h.filter _
          simp only [debit, hget]
          rw [ih hleft, List.map_cons, ← hkey, spentFor_cons h hmem, BalanceUpdates.get_insert,
            BtcUtxoInfo.amountFor]
          split
          · next ho => rw [ho]; omega
          · omega

theorem credit_get {P : Processor} {outs : List TxOut}
    (howner : ∀ out ∈ outs, P.isP2tr out.scriptPubkey = true → (P.owner out).isSome)
    (blockNum : Nat) (txid : Txid) (idx : Nat) (updates : BalanceUpdates) (a : Address) :
    (credit P outs updates).get a =
      updates.get a + total (UtxoRow.amountFor a) (P.createdFrom blockNum txid idx outs) := by
  induction outs generalizing idx updates with
  | nil => simp [credit, createdFrom]
  | cons txout rest ih =>
      have hrest := fun out hout => howner out (List.mem_cons_of_mem txout hout)
      rw [createdFrom_cons, total_append]
      cases hp : P.isP2tr txout.scriptPubkey with
      | false =>
          have hnone : P.owner txout = none := by simp [owner, hp]
          simp only [credit, hp, Bool.false_eq_true, if_false, ih hrest (idx + 1), hnone,
            Option.map_none, Option.toList_none, total_nil, Int.zero_add]
      | true =>
          cases hs : P.fromScript txout.scriptPubkey with
          | none =>
              have hsome := howner txout List.mem_cons_self hp
              simp [owner, hp, hs] at hsome
          | some address =>
              have howned : P.owner txout = some address := by simp [owner, hp, hs]
              simp only [credit, hp, hs, if_true, ih hrest (idx + 1), howned, Option.map_some,
                Option.toList_some, total_cons, total_nil, BalanceUpdates.get_insert]
              have hrow : (utxoRow blockNum txid idx address txout).amountFor a =
                  if address = a then (txout.value : Int) else 0 := rfl
              rw [hrow]
              split
              · next ha => rw [ha]; omega
              · omega

/-- What a transaction changes for an address: its outputs less the candidates it spends. -/
def netChange (P : Processor) (blockNum : Nat) (relevant : RelevantUtxos) (tx : Transaction)
    (a : Address) : Int :=
  total (UtxoRow.amountFor a) (P.createdBy blockNum tx) -
    spentFor relevant (tx.input.map TxIn.previousOutput) a

/-- Every taproot output of the transaction has an address. -/
def Owned (P : Processor) (tx : Transaction) : Prop :=
  ∀ out ∈ tx.output, P.isP2tr out.scriptPubkey = true → (P.owner out).isSome

theorem netUpdates_get {P : Processor} {tx : Transaction} {relevant : RelevantUtxos}
    (howned : P.Owned tx) (h : Keyed BtcUtxoInfo.getOutPoint relevant) (blockNum : Nat)
    (a : Address) :
    (netUpdates P tx relevant).get a = P.netChange blockNum relevant tx a := by
  have hempty : BalanceUpdates.get ∅ a = 0 := rfl
  rw [netUpdates, credit_get howned blockNum tx.txid 0, debit_get h, netChange, createdBy, hempty]
  omega

def txEvents (blockNum : Nat) (tx : Transaction) (pairs : List (Address × Int)) :
    List BtcP2trEvent :=
  (pairs.filter (fun p => p.2 ≠ 0)).map (fun p => eventOf blockNum tx p.1 p.2)

theorem keyed_txEvents (blockNum : Nat) (tx : Transaction) {pairs : List (Address × Int)}
    (h : Keyed Prod.fst pairs) :
    Keyed BtcP2trEvent.address (txEvents blockNum tx pairs) := by
  unfold Keyed txEvents
  rw [List.map_map]
  exact h.filter _

def txsEvents (P : Processor) (order : Nat → ScanOrder (Address × Int)) (blockNum : Nat) :
    Nat → List Transaction → RelevantUtxos → List BtcP2trEvent
  | _, [], _ => []
  | i, tx :: rest, relevant =>
      txEvents blockNum tx ((order i).order (netUpdates P tx relevant).pairs) ++
        txsEvents P order blockNum (i + 1) rest (debit tx.input relevant ∅).1

def blockEvents (P : Processor) (order : Nat → ScanOrder (Address × Int)) (block : BlockInfo)
    (s : Store) : List BtcP2trEvent :=
  txsEvents P order block.header.height 0 block.txdata (s.getRelevantUtxos block.outpoints)

theorem messages_upsertOps (blockHash : BlockHash) (idx : Nat) (txs : List Transaction) :
    messages (upsertOps blockHash idx txs) = [] := by
  induction txs generalizing idx with
  | nil => rfl
  | cons tx rest ih => exact ih (idx + 1)

theorem messages_spendOps (blockNum : Nat) (ins : List TxIn) (relevant : RelevantUtxos) :
    messages (spendOps blockNum ins relevant) = [] := by
  induction ins generalizing relevant with
  | nil => rfl
  | cons txin rest ih =>
      cases hget : relevant.get txin.previousOutput with
      | none => simp only [spendOps, hget, ih]
      | some utxo => simp only [spendOps, hget, messages_sql, ih]

theorem messages_createOps (P : Processor) (blockNum : Nat) (txid : Txid) (idx : Nat)
    (outs : List TxOut) : messages (createOps P blockNum txid idx outs) = [] := by
  induction outs generalizing idx with
  | nil => rfl
  | cons txout rest ih =>
      cases hp : P.isP2tr txout.scriptPubkey with
      | false => simp only [createOps, hp, Bool.false_eq_true, if_false, ih]
      | true =>
          cases hs : P.fromScript txout.scriptPubkey with
          | none =>
              simp only [createOps, hp, hs, if_true]
              rfl
          | some address => simp only [createOps, hp, hs, if_true, messages_sql, ih]

theorem messages_sendOps (blockNum : Nat) (tx : Transaction) (pairs : List (Address × Int)) :
    messages (sendOps blockNum tx pairs) = (txEvents blockNum tx pairs).map .event := by
  induction pairs with
  | nil => rfl
  | cons pair rest ih =>
      obtain ⟨address, value⟩ := pair
      by_cases hv : value = 0
      · simp only [sendOps, hv, if_true, ih]
        simp [txEvents]
      · simp only [sendOps, hv, if_false, messages_send, ih]
        simp [txEvents, hv]

theorem messages_txsOps (P : Processor) (order : Nat → ScanOrder (Address × Int))
    (blockNum i : Nat) (txs : List Transaction) (relevant : RelevantUtxos) :
    messages (txsOps P order blockNum i txs relevant) =
      (txsEvents P order blockNum i txs relevant).map .event := by
  induction txs generalizing i relevant with
  | nil => rfl
  | cons tx rest ih =>
      simp only [txsOps, txsEvents, messages_append, messages_spendOps, messages_createOps,
        messages_sendOps, ih, List.nil_append, List.map_append]

theorem messages_blockOps {P : Processor} {order : Nat → ScanOrder (Address × Int)}
    {block : BlockInfo} {s s' : Store} (h : apply (blockOps P order block s) s = .ok s') :
    messages (blockOps P order block s) = (blockEvents P order block s).map .event := by
  unfold blockOps at h ⊢
  cases hts : P.timestampOpt block.header.time with
  | none => rw [hts] at h; cases h
  | some timestamp =>
      simp only [messages_sql, messages_append, messages_upsertOps, messages_txsOps,
        List.nil_append]
      rfl

theorem amountOf_txEvents (blockNum : Nat) (tx : Transaction) (pairs : List (Address × Int))
    (a : Address) : Ledger.amountOf (txEvents blockNum tx pairs) a =
      total (fun p : Address × Int => if p.1 = a then p.2 else 0) pairs := by
  induction pairs with
  | nil => rfl
  | cons pair rest ih =>
      obtain ⟨address, value⟩ := pair
      rw [total_cons, ← ih]
      by_cases hv : value = 0
      · simp [txEvents, hv]
      · simp [txEvents, hv, Ledger.amountOf_cons, eventOf]

theorem amountOf_netUpdates {P : Processor} {tx : Transaction} {relevant : RelevantUtxos}
    (howned : P.Owned tx) (h : Keyed BtcUtxoInfo.getOutPoint relevant) (blockNum : Nat)
    (order : ScanOrder (Address × Int)) (a : Address) :
    Ledger.amountOf (txEvents blockNum tx (order.order (netUpdates P tx relevant).pairs)) a =
      P.netChange blockNum relevant tx a := by
  rw [amountOf_txEvents, total_perm _ (order.perm _), BalanceUpdates.total_pairs,
    netUpdates_get howned h blockNum]

theorem spentFor_append (relevant : RelevantUtxos) (xs ys : List OutPoint) (a : Address) :
    spentFor relevant (xs ++ ys) a = spentFor relevant xs a +
      spentFor (relevant.filter (fun info => info.getOutPoint ∉ xs)) ys a := by
  rw [spentFor, spentFor, spentFor, total_filter, ← total_add]
  apply total_congr
  intro info _
  by_cases hx : info.getOutPoint ∈ xs <;> simp [hx]

/-- The events of some transactions add up to their outputs less the candidates they spend. -/
theorem amountOf_txsEvents {P : Processor} {txs : List Transaction} {relevant : RelevantUtxos}
    (howned : ∀ tx ∈ txs, P.Owned tx) (h : Keyed BtcUtxoInfo.getOutPoint relevant)
    (order : Nat → ScanOrder (Address × Int)) (blockNum i : Nat) (a : Address) :
    Ledger.amountOf (txsEvents P order blockNum i txs relevant) a =
      total (UtxoRow.amountFor a) (txs.flatMap (P.createdBy blockNum)) -
        spentFor relevant (txs.flatMap (fun tx => tx.input.map TxIn.previousOutput)) a := by
  induction txs generalizing i relevant with
  | nil => simp [txsEvents, spentFor_nil]
  | cons tx rest ih =>
      have hleft := h.filter
        (fun info => info.getOutPoint ∉ tx.input.map TxIn.previousOutput)
      rw [txsEvents, Ledger.amountOf_append, debit_fst,
        amountOf_netUpdates (howned tx List.mem_cons_self) h,
        ih (fun t ht => howned t (List.mem_cons_of_mem tx ht)) hleft,
        List.flatMap_cons, List.flatMap_cons, total_append, spentFor_append, netChange]
      omega

theorem keyed_relevant (s : Store) (utxos : List OutPoint) :
    Keyed BtcUtxoInfo.getOutPoint (s.getRelevantUtxos utxos) := by
  unfold Keyed Store.getRelevantUtxos
  rw [List.map_map]
  exact s.outPointKey.filter _

theorem spentFor_relevant (s : Store) (block : BlockInfo) (a : Address) :
    spentFor (s.getRelevantUtxos block.outpoints) block.outpoints a =
      unspentOf s.utxos a - unspentOf (s.utxos.map block.spendRow) a := by
  have hspent : spentFor (s.getRelevantUtxos block.outpoints) block.outpoints a =
      total (fun u => if u.spentBlock.isNone && decide (u.outPoint ∈ block.outpoints)
        then (if u.outPoint ∈ block.outpoints then u.amountFor a else 0) else 0) s.utxos := by
    rw [spentFor, Store.getRelevantUtxos, total_map, Store.relevantRows, total_filter]
    rfl
  have hsplit : unspentOf s.utxos a = unspentOf (s.utxos.map block.spendRow) a +
      spentFor (s.getRelevantUtxos block.outpoints) block.outpoints a := by
    rw [hspent, unspentOf_eq, unspentOf_eq, total_map, ← total_add]
    apply total_congr
    intro u _
    cases hs : u.spentBlock <;> by_cases ho : u.outPoint ∈ block.outpoints <;>
      simp [BlockInfo.spendRow, hs, ho]
  omega

/-- The events of a block carry exactly the change of the unspent rows. -/
theorem Indexed.unspentOf {P : Processor} {block : BlockInfo} {s s' : Store}
    (h : P.Indexed block s s') (order : Nat → ScanOrder (Address × Int)) (a : Address) :
    BtcIndexer.unspentOf s'.utxos a =
      BtcIndexer.unspentOf s.utxos a + Ledger.amountOf (blockEvents P order block s) a := by
  have hnew : BtcIndexer.unspentOf (P.created block) a =
      total (UtxoRow.amountFor a) (P.created block) := by
    rw [unspentOf_eq]
    apply total_congr
    intro u hu
    rw [if_pos (mem_created hu).2.2.1]
  rw [h.utxos, unspentOf_append, hnew, blockEvents,
    amountOf_txsEvents h.owners (keyed_relevant s block.outpoints)]
  change _ = _ + (total _ (P.created block) - spentFor _ block.outpoints a)
  rw [spentFor_relevant]
  omega

/-- The tables after a run of blocks and the events sent along the way. The order in which a
hash map is walked may differ from block to block. -/
inductive Emitted (P : Processor) : List BlockInfo → Store → Store → List BtcP2trEvent → Prop
  | nil (s : Store) : Emitted P [] s s []
  | cons {block : BlockInfo} {rest : List BlockInfo} {s s₁ s' : Store}
      {events : List BtcP2trEvent} (order : Nat → ScanOrder (Address × Int))
      (first : P.Indexed block s s₁) (later : Emitted P rest s₁ s' events) :
      Emitted P (block :: rest) s s' (blockEvents P order block s ++ events)

theorem process_emitted {P : Processor} {env : DbEnv} {block : BlockInfo}
    {w w' : World Store AggregatorMsg} (h : process P env block w = .ok () w') :
    P.Indexed block w.store w'.store ∧ w'.channel =
      w.channel ++ (blockEvents P (env.hashOrder w.clock 0) block w.store).map .event := by
  rw [process_eq] at h
  obtain ⟨happly, hchannel⟩ := transact_ok h
  exact ⟨blockOps_ok happly, by rw [hchannel, messages_blockOps happly]⟩

theorem processAll_emitted {P : Processor} {env : DbEnv} {blocks : List BlockInfo}
    {w w' : World Store AggregatorMsg} (h : processAll P env blocks w = .ok () w') :
    ∃ events, Emitted P blocks w.store w'.store events ∧
      w'.channel = w.channel ++ events.map .event := by
  induction blocks generalizing w with
  | nil =>
      cases h
      exact ⟨[], .nil _, by simp⟩
  | cons block rest ih =>
      obtain ⟨_, w₁, hfirst, hrest⟩ := bind_eq_ok.mp h
      obtain ⟨hindexed, hchannel⟩ := process_emitted hfirst
      obtain ⟨events, hlater, hevents⟩ := ih hrest
      refine ⟨_, .cons (env.hashOrder w.clock 0) hindexed hlater, ?_⟩
      rw [hevents, hchannel, List.append_assoc, List.map_append]

theorem Emitted.indexedAll {P : Processor} {blocks : List BlockInfo} {s s' : Store}
    {events : List BtcP2trEvent} (h : P.Emitted blocks s s' events) :
    P.IndexedAll blocks s s' := by
  induction h with
  | nil s => exact .nil s
  | cons order first later ih => exact .cons first ih

theorem Emitted.unspentOf {P : Processor} {blocks : List BlockInfo} {s s' : Store}
    {events : List BtcP2trEvent} (h : P.Emitted blocks s s' events) (a : Address) :
    BtcIndexer.unspentOf s'.utxos a =
      BtcIndexer.unspentOf s.utxos a + Ledger.amountOf events a := by
  induction h with
  | nil s => simp
  | cons order first later ih =>
      rw [ih, first.unspentOf order, Ledger.amountOf_append]
      omega

end Processor

end BtcIndexer
