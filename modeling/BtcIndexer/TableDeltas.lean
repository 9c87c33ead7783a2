import BtcIndexer.ReorgTotality
import Mathlib.Data.List.TakeWhile

/-! Events against the utxo table, transaction by transaction. For one transaction and one
address there is at most one event, and its amount is the difference that the transaction makes
to the rows of the address: those it adds, less those that its inputs mark. -/
namespace BtcIndexer
open Stateful Outbox Rows

/-- The rows of an address that a transaction has added between two states of the tables. -/
def rowsCreated (s s' : Store) (tx : Transaction) (a : Address) : List UtxoRow :=
  s'.utxos.filter (fun u => u.txid = tx.txid ∧ u.address = a ∧
    u.outPoint ∉ s.utxos.map UtxoRow.outPoint)

/-- The transactions of a block before the first with this id. -/
def BlockInfo.earlier (block : BlockInfo) (tx : Transaction) : List Transaction :=
  block.txdata.takeWhile (fun t => t.txid ≠ tx.txid)

/-- The rows of an address, unspent in the first state of the tables and marked in the second,
which the transaction is the first of its block to name. -/
def rowsMarked (s s' : Store) (block : BlockInfo) (tx : Transaction) (a : Address) :
    List UtxoRow :=
  s.utxos.filter (fun u => u.address = a ∧ u.spentBlock = none ∧
    (∃ v ∈ s'.utxos, v.outPoint = u.outPoint ∧ v.spentBlock ≠ none) ∧
      u.outPoint ∈ tx.input.map TxIn.previousOutput ∧ u.outPoint ∉ namedBy (block.earlier tx))

/-- The difference a transaction makes to the unspent rows of an address. -/
def tableChange (s s' : Store) (block : BlockInfo) (tx : Transaction) (a : Address) : Int :=
  total UtxoRow.amount (rowsCreated s s' tx a) - total UtxoRow.amount (rowsMarked s s' block tx a)

/-- A transaction id stands for one transaction of the block. -/
def BlockInfo.Identified (block : BlockInfo) : Prop :=
  ∀ tx ∈ block.txdata, ∀ tx' ∈ block.txdata, tx.txid = tx'.txid → tx = tx'

instance (block : BlockInfo) : Decidable block.Identified :=
  inferInstanceAs (Decidable (∀ tx ∈ block.txdata, ∀ tx' ∈ block.txdata, _))

theorem BlockInfo.Identified.first {block : BlockInfo} (h : block.Identified) {tx : Transaction}
    (htx : tx ∈ block.txdata) :
    ∃ later, block.txdata = block.earlier tx ++ tx :: later ∧ tx ∉ block.earlier tx := by
  have hsplit := List.takeWhile_append_dropWhile (p := fun t => decide (t.txid ≠ tx.txid))
    (l := block.txdata)
  have hbefore : tx ∉ block.earlier tx := fun hmem => by
    simpa using List.mem_takeWhile_imp hmem
  cases hrest : block.txdata.dropWhile (fun t => decide (t.txid ≠ tx.txid)) with
  | nil =>
      rw [hrest, List.append_nil] at hsplit
      rw [BlockInfo.earlier, hsplit] at hbefore
      exact absurd htx hbefore
  | cons t later =>
      have hstop := List.head?_dropWhile_not (fun t => decide (t.txid ≠ tx.txid)) block.txdata
      rw [hrest] at hstop
      rw [hrest] at hsplit
      have hid : t.txid = tx.txid := by simpa using hstop
      have hin : t ∈ block.txdata := hsplit ▸ List.mem_append_right _ List.mem_cons_self
      cases h t hin tx htx hid
      exact ⟨later, hsplit.symm, hbefore⟩

theorem BlockInfo.Identified.earlier_eq {block : BlockInfo} (h : block.Identified)
    {tx : Transaction} {before after : List Transaction}
    (htxs : block.txdata = before ++ tx :: after) (hfirst : tx ∉ before) :
    block.earlier tx = before := by
  have hother : ∀ t ∈ before, decide (t.txid ≠ tx.txid) = true := by
    intro t ht
    apply decide_eq_true
    intro hid
    have hsame : t = tx := h t (by rw [htxs]; simp [ht]) tx (by rw [htxs]; simp) hid
    exact hfirst (hsame ▸ ht)
  unfold BlockInfo.earlier
  rw [htxs, List.takeWhile_append_of_pos hother, List.takeWhile_cons_of_neg (by simp),
    List.append_nil]

namespace Processor

section Deltas

variable {P : Processor} {block : BlockInfo} {s s' : Store}

theorem Indexed.created_keyed (h : P.Indexed block s s') :
    Keyed UtxoRow.outPoint (P.created block) := by
  have hkeyed := s'.outPointKey
  rw [h.utxos] at hkeyed
  exact hkeyed.right

theorem Indexed.total_rowsCreated (h : P.Indexed block s s') (hids : block.Identified)
    {tx : Transaction} (htx : tx ∈ block.txdata) (a : Address) :
    total UtxoRow.amount (rowsCreated s s' tx a) =
      total (UtxoRow.amountFor a) (P.createdBy block.header.height tx) := by
  have hkeyed := s'.outPointKey
  rw [h.utxos] at hkeyed
  have hnodup := h.created_keyed.rows_nodup
  have hsame : rowsCreated s s' tx a = (P.created block).filter
      (fun u => u.txid = tx.txid ∧ u.address = a) := by
    unfold rowsCreated
    rw [h.utxos, List.filter_append]
    have hnone : (s.utxos.map block.spendRow).filter (fun u => u.txid = tx.txid ∧ u.address = a ∧
        u.outPoint ∉ s.utxos.map UtxoRow.outPoint) = [] := by
      apply List.filter_eq_nil_iff.mpr
      intro u hu
      obtain ⟨old, hold, rfl⟩ := List.mem_map.mp hu
      have hin : old.outPoint ∈ s.utxos.map UtxoRow.outPoint := List.mem_map_of_mem hold
      simp [hin]
    rw [hnone, List.nil_append]
    apply List.filter_congr
    intro u hu
    have hnew : u.outPoint ∉ s.utxos.map UtxoRow.outPoint := by
      intro hmem
      obtain ⟨old, hold, hkey⟩ := List.mem_map.mp hmem
      exact hkeyed.ne_of_append (List.mem_map_of_mem hold) hu
        ((block.spendRow_outPoint old).trans hkey)
    simp only [hnew, not_false_eq_true, and_true]
  have hperm : ((P.created block).filter (fun u => decide (u.txid = tx.txid))).Perm
      (P.createdBy block.header.height tx) := by
    refine (List.perm_ext_iff_of_nodup (hnodup.filter _)
      ((List.nodup_flatMap.mp hnodup).1 tx htx)).mpr fun u => ?_
    rw [List.mem_filter, decide_eq_true_eq]
    constructor
    · rintro ⟨hu, hid⟩
      obtain ⟨tx', htx', hu'⟩ := List.mem_flatMap.mp hu
      cases hids tx' htx' tx htx ((mem_createdFrom hu').1.symm.trans hid)
      exact hu'
    · intro hu
      exact ⟨List.mem_flatMap.mpr ⟨tx, htx, hu⟩, (mem_createdFrom hu).1⟩
  rw [hsame, ← total_perm _ hperm, total_filter, total_filter]
  apply total_congr
  intro u _
  by_cases hid : u.txid = tx.txid <;> by_cases ha : u.address = a <;>
    simp [UtxoRow.amountFor, hid, ha]

/-- The rows that the inputs of a transaction mark are the unspent ones it names first. -/
theorem Indexed.total_rowsMarked (h : P.Indexed block s s') {tx : Transaction}
    (htx : tx ∈ block.txdata) (a : Address) :
    total UtxoRow.amount (rowsMarked s s' block tx a) =
      total (UtxoRow.amountFor a) (s.utxos.filter (fun u => u.spentBlock = none ∧
        u.outPoint ∈ tx.input.map TxIn.previousOutput ∧
          u.outPoint ∉ namedBy (block.earlier tx))) := by
  unfold rowsMarked
  rw [total_filter, total_filter]
  apply total_congr
  intro u hu
  by_cases hmarked : u.spentBlock = none ∧ u.outPoint ∈ tx.input.map TxIn.previousOutput
  · have hnamed : u.outPoint ∈ block.outpoints :=
      List.mem_flatMap.mpr ⟨tx, htx, hmarked.2⟩
    have hrow : ∃ v ∈ s'.utxos, v.outPoint = u.outPoint ∧ v.spentBlock ≠ none := by
      refine ⟨block.spendRow u, ?_, block.spendRow_outPoint u, ?_⟩
      · rw [h.utxos]
        exact List.mem_append_left _ (List.mem_map_of_mem hu)
      · rw [spendRow_of_mem hmarked.1 hnamed]
        exact Option.some_ne_none _
    by_cases ha : u.address = a <;> simp only [UtxoRow.amountFor, ha, hrow, true_and, false_and,
      decide_false, Bool.false_eq_true, if_false, if_true, ite_self]
  · by_cases hnone : u.spentBlock = none
    · have hnot : u.outPoint ∉ tx.input.map TxIn.previousOutput := fun hin =>
        hmarked ⟨hnone, hin⟩
      simp only [hnot, false_and, and_false, decide_false, Bool.false_eq_true, if_false]
    · simp only [hnone, false_and, and_false, decide_false, Bool.false_eq_true, if_false]

theorem Indexed.tableChange_eq (h : P.Indexed block s s') (hids : block.Identified)
    {tx : Transaction} (htx : tx ∈ block.txdata) (a : Address) :
    tableChange s s' block tx a =
      P.changeAt s.utxos block.header.height (block.earlier tx) tx a := by
  rw [tableChange, changeAt, h.total_rowsCreated hids htx, h.total_rowsMarked htx]

/-- A transaction that is met again changes nothing: its inputs have been taken, and it has no
taproot outputs, which could not be created twice. -/
theorem Indexed.changeAt_again (h : P.Indexed block s s') {earlier later : List Transaction}
    {tx : Transaction} (htxs : block.txdata = earlier ++ tx :: later) (hagain : tx ∈ earlier)
    (a : Address) : P.changeAt s.utxos block.header.height earlier tx a = 0 := by
  have hkeyed : Keyed UtxoRow.outPoint (earlier.flatMap (P.createdBy block.header.height) ++
      (tx :: later).flatMap (P.createdBy block.header.height)) := by
    rw [← List.flatMap_append, ← htxs]
    exact h.created_keyed
  have hnone : P.createdBy block.header.height tx = [] := by
    apply List.eq_nil_iff_forall_not_mem.mpr
    intro u hu
    exact hkeyed.ne_of_append (List.mem_flatMap.mpr ⟨tx, hagain, hu⟩)
      (List.mem_flatMap.mpr ⟨tx, List.mem_cons_self, hu⟩) rfl
  have hspent : s.utxos.filter (fun u => u.spentBlock = none ∧
      u.outPoint ∈ tx.input.map TxIn.previousOutput ∧ u.outPoint ∉ namedBy earlier) = [] := by
    apply List.filter_eq_nil_iff.mpr
    intro u _
    rw [decide_eq_true_eq]
    rintro ⟨_, hin, hnot⟩
    exact hnot (List.mem_flatMap.mpr ⟨tx, hagain, hin⟩)
  simp only [changeAt, hnone, hspent, total_nil, Int.sub_self]

theorem mem_blockEvents (h : P.Indexed block s s') (order : Nat → ScanOrder (Address × Int))
    {e : BtcP2trEvent} : e ∈ blockEvents P order block s ↔
      ∃ earlier tx later a, block.txdata = earlier ++ tx :: later ∧
        P.changeAt s.utxos block.header.height earlier tx a ≠ 0 ∧
        e = eventOf block.header.height tx a
          (P.changeAt s.utxos block.header.height earlier tx a) := by
  rw [blockEvents, mem_txsEvents h.owners (keyed_relevant s block.outpoints)]
  constructor
  · rintro ⟨earlier, tx, later, a, htxs, hv, rfl⟩
    rw [netChange_eq P s htxs] at hv ⊢
    exact ⟨earlier, tx, later, a, htxs, hv, rfl⟩
  · rintro ⟨earlier, tx, later, a, htxs, hv, rfl⟩
    rw [← netChange_eq P s htxs] at hv ⊢
    exact ⟨earlier, tx, later, a, htxs, hv, rfl⟩

theorem filter_namedBy_append (relevant : RelevantUtxos) (xs ys : List Transaction) :
    (relevant.filter (fun info => info.getOutPoint ∉ namedBy xs)).filter
        (fun info => info.getOutPoint ∉ namedBy ys) =
      relevant.filter (fun info => info.getOutPoint ∉ namedBy (xs ++ ys)) := by
  rw [List.filter_filter]
  apply List.filter_congr
  intro info _
  have happend : namedBy (xs ++ ys) = namedBy xs ++ namedBy ys := List.flatMap_append
  rw [happend, ← Bool.decide_and]
  apply decide_eq_decide.mpr
  rw [List.mem_append, not_or, and_comm]

theorem Indexed.keyed_txsEvents (h : P.Indexed block s s') (hids : block.Identified)
    (order : Nat → ScanOrder (Address × Int)) {done txs : List Transaction}
    (htxs : block.txdata = done ++ txs) (i : Nat) :
    Keyed (fun e => (e.txid, e.address)) (txsEvents P order block.header.height i txs
      ((s.getRelevantUtxos block.outpoints).filter
        (fun info => info.getOutPoint ∉ namedBy done))) := by
  induction txs generalizing done i with
  | nil => exact Keyed.nil _
  | cons tx rest ih =>
      have hnext : block.txdata = (done ++ [tx]) ++ rest := by
        rw [htxs, List.append_assoc, List.singleton_append]
      have hrest := ih hnext (i + 1)
      have hone : namedBy [tx] = tx.input.map TxIn.previousOutput := by simp [namedBy]
      rw [← filter_namedBy_append, hone] at hrest
      rw [txsEvents, debit_fst]
      unfold Keyed
      rw [List.map_append]
      refine List.Nodup.append ?_ hrest ?_
      · have hpairs := (netUpdates P tx ((s.getRelevantUtxos block.outpoints).filter
          (fun info => info.getOutPoint ∉ namedBy done))).keyed_pairs
        have haddress := keyed_txEvents block.header.height tx
          (hpairs.perm ((order i).perm _).symm)
        exact List.Nodup.of_map Prod.snd (by rwa [List.map_map])
      · intro key hhead htail
        obtain ⟨e, he, rfl⟩ := List.mem_map.mp hhead
        obtain ⟨f, hf, hkey⟩ := List.mem_map.mp htail
        have howned : ∀ t ∈ rest, P.Owned t := fun t ht =>
          h.owners t (htxs ▸ List.mem_append_right _ (List.mem_cons_of_mem _ ht))
        have hkeyed := ((keyed_relevant s block.outpoints).filter
          (fun info => info.getOutPoint ∉ namedBy done)).filter
            (fun info => info.getOutPoint ∉ tx.input.map TxIn.previousOutput)
        obtain ⟨earlier, t, later, a, hsplit, hv, rfl⟩ :=
          (mem_txsEvents howned hkeyed order block.header.height (i + 1)).mp hf
        obtain ⟨p, _, rfl⟩ := List.mem_map.mp he
        -- the same id later in the block is the same transaction, met again
        have hall : block.txdata = (done ++ tx :: earlier) ++ t :: later := by
          rw [htxs, hsplit, List.append_assoc, List.cons_append]
        have hsame : t = tx := hids t (by rw [hall]; simp) tx (by rw [hall]; simp)
          (congrArg Prod.fst hkey)
        rw [← hone, filter_namedBy_append, filter_namedBy_append, List.singleton_append,
          netChange_eq P s hall] at hv
        exact hv (h.changeAt_again hall (by simp [hsame]) a)

theorem Indexed.keyed_blockEvents (h : P.Indexed block s s') (hids : block.Identified)
    (order : Nat → ScanOrder (Address × Int)) :
    Keyed (fun e => (e.txid, e.address)) (blockEvents P order block s) := by
  have hnone : block.txdata = [] ++ block.txdata := rfl
  have hkeyed := h.keyed_txsEvents hids order hnone 0
  have hall : (s.getRelevantUtxos block.outpoints).filter
      (fun info => info.getOutPoint ∉ namedBy []) = s.getRelevantUtxos block.outpoints :=
    List.filter_eq_self.mpr fun info _ => by simp [namedBy]
  rwa [hall] at hkeyed

/-- The events of a transaction for an address, by the difference in the tables. -/
theorem Indexed.events_of (h : P.Indexed block s s') (hids : block.Identified)
    (order : Nat → ScanOrder (Address × Int)) {tx : Transaction} (htx : tx ∈ block.txdata)
    (a : Address) :
    (blockEvents P order block s).filter (fun e => e.txid = tx.txid ∧ e.address = a) =
      if tableChange s s' block tx a = 0 then []
      else [eventOf block.header.height tx a (tableChange s s' block tx a)] := by
  rw [h.tableChange_eq hids htx]
  obtain ⟨later, htxs, hfirst⟩ := hids.first htx
  split
  · next hzero =>
      apply List.filter_eq_nil_iff.mpr
      intro e he hmatch
      obtain ⟨hid, rfl⟩ := of_decide_eq_true hmatch
      obtain ⟨earlier, t, rest, b, hsplit, hv, rfl⟩ := (mem_blockEvents h order).mp he
      cases hids t (by rw [hsplit]; simp) tx htx hid
      by_cases hagain : tx ∈ earlier
      · exact hv (h.changeAt_again hsplit hagain b)
      · rw [hids.earlier_eq hsplit hagain] at hzero
        exact hv hzero
  · next hchange =>
      have hmem := (mem_blockEvents h order).mpr
        ⟨block.earlier tx, tx, later, a, htxs, hchange, rfl⟩
      refine (h.keyed_blockEvents hids order).filter_eq_singleton hmem fun e _ => ?_
      rw [decide_eq_true_eq, Prod.mk.injEq]
      rfl

end Deltas

/-- The events of a block that completes, against the two states of the tables. -/
theorem processBlock_events (P : Processor) (F : Faults ProcessorError)
    (order : Nat → ScanOrder (Address × Int)) (block : BlockInfo) (db db' : Store)
    (w w' : World Store AggregatorMsg) (h : processBlock P F order block db w = .ok db' w')
    (hids : block.Identified) :
    ∃ events, w'.channel = w.channel ++ events.map .event ∧
      (∀ e ∈ events, ∃ tx ∈ block.txdata, e.txid = tx.txid) ∧
      (∀ tx ∈ block.txdata, ∀ a,
        events.filter (fun e => e.txid = tx.txid ∧ e.address = a) =
          if tableChange db db' block tx a = 0 then []
          else [eventOf block.header.height tx a (tableChange db db' block tx a)]) ∧
      (∀ e ∈ events, (e.action = .receive ↔ 0 < e.amount) ∧ (e.action = .send ↔ e.amount < 0)) ∧
      ∀ a, Ledger.amountOf events a = unspentOf db'.utxos a - unspentOf db.utxos a := by
  rw [processBlock_eq] at h
  obtain ⟨happly, _, hchannel⟩ := run_ok h
  have hindexed := blockOps_ok happly
  rw [messages_blockOps happly] at hchannel
  refine ⟨blockEvents P order block db, hchannel, fun e he => ?_,
    fun tx htx a => hindexed.events_of hids order htx a, fun e he => ?_, fun a => ?_⟩
  · obtain ⟨earlier, tx, later, a, htxs, _, rfl⟩ := (mem_blockEvents hindexed order).mp he
    exact ⟨tx, by rw [htxs]; simp, rfl⟩
  · obtain ⟨earlier, tx, later, a, _, hv, rfl⟩ := (mem_blockEvents hindexed order).mp he
    simp only [eventOf]
    split
    · next hpos => simp [hpos, Int.le_of_lt hpos]
    · next hneg => simp; omega
  · rw [hindexed.unspentOf order a]
    omega

def tablesAfter (block : BlockInfo) (s : Store) : Store :=
  match processBlock mainnet DbEnv.calm.faults (fun _ => ScanOrder.asStored _) block s
      ⟨s, [], 0⟩ with
  | .ok db _ => db
  | .error _ _ => s

def funded : Store := tablesAfter (blockAt 101 1 100 [coinbaseTx 1 [payTaproot 7 50]]) Store.empty

/-- A payment of 20 out of an output of 50, with a change of 25. -/
def payment : Transaction := spendingTx 3 1 [payTaproot 8 20, payTaproot 7 25]

def sendingBlock : BlockInfo := blockAt 102 2 101 [coinbaseTx 2 [], payment]

/-- The payer sends what is spent less the change. -/
theorem payment_events : ∃ w' events,
    processBlock mainnet DbEnv.calm.faults (fun _ => ScanOrder.asStored _) sendingBlock funded
      ⟨funded, [], 0⟩ = .ok (tablesAfter sendingBlock funded) w' ∧
    w'.channel = events.map .event ∧
    events.filter (fun e => e.txid = payment.txid ∧ e.address = System.payee 7) =
      [⟨2, ⟨3⟩, System.payee 7, -25, .send, false⟩] ∧
    ∀ a, Ledger.amountOf events a =
      unspentOf (tablesAfter sendingBlock funded).utxos a - unspentOf funded.utxos a := by
  have hreturned : returned (processBlock mainnet DbEnv.calm.faults
      (fun _ => ScanOrder.asStored _) sendingBlock funded ⟨funded, [], 0⟩) = true := by
    decide +kernel
  cases hrun : processBlock mainnet DbEnv.calm.faults (fun _ => ScanOrder.asStored _)
      sendingBlock funded ⟨funded, [], 0⟩ with
  | ok db' w' =>
      have hdb : tablesAfter sendingBlock funded = db' := by rw [tablesAfter, hrun]
      obtain ⟨events, hchannel, _, hevents, _, hamount⟩ := processBlock_events mainnet
        DbEnv.calm.faults (fun _ => ScanOrder.asStored _) sendingBlock funded db'
        ⟨funded, [], 0⟩ w' hrun (by decide)
      have hchange : tableChange funded db' sendingBlock payment (System.payee 7) = -25 := by
        rw [← hdb]
        decide +kernel
      have hsent := hevents payment (by decide) (System.payee 7)
      rw [hchange, if_neg (by decide)] at hsent
      exact ⟨w', events, by rw [hdb], hchannel, hsent, fun a => by rw [hdb]; exact hamount a⟩
  | error e w' =>
      rw [hrun] at hreturned
      cases hreturned

end Processor

end BtcIndexer
