import BtcIndexer.ForkConservation
import BtcIndexer.ReorgTotality

/-! Where everything that is stored, announced and booked comes from: each row and each message
is a copy of a part of a block that was handed to the processor, or undoes such a copy. -/
namespace BtcIndexer
open Stateful Outbox Rows Machines

/-- The rows are copies from blocks of the given kind. The block of a transaction and its other
fields may come from two of them, and so may the creation of an output and its mark. -/
structure Copied (P : Processor) (S : BlockInfo → Prop) (s : Store) : Prop where
  blocks : ∀ row ∈ s.blocks, ∃ b, S b ∧ ∃ timestamp,
    P.timestampOpt b.header.time = some timestamp ∧ row = Processor.blockRow b.header timestamp
  transactions : ∀ t ∈ s.transactions, (∃ b, S b ∧ ∃ tx, b.txdata[t.transactionIndex]? = some tx ∧
    t = Processor.transactionRow t.blockHash t.transactionIndex tx) ∧
      ∃ c, S c ∧ c.header.hash = t.blockHash ∧ t.txid ∈ c.txdata.map Transaction.txid
  utxos : ∀ u ∈ s.utxos, (∃ b, S b ∧ { u with spentBlock := none } ∈ P.created b) ∧
    ∀ number, u.spentBlock = some number →
      ∃ c, S c ∧ c.header.height = number ∧ u.outPoint ∈ c.outpoints

/-- Outputs of blocks of the given kind that a transaction names with its inputs, each once. -/
structure Transaction.Spends (P : Processor) (S : BlockInfo → Prop) (tx : Transaction)
    (spent : List UtxoRow) : Prop where
  created : ∀ u ∈ spent, ∃ c, S c ∧ u ∈ P.created c
  named : ∀ u ∈ spent, u.outPoint ∈ tx.input.map TxIn.previousOutput
  once : Keyed UtxoRow.outPoint spent

/-- The message tells of a block of the given kind: an event is what a transaction of the block
changes for an address, its outputs to the address less what it spends of the address. -/
def AggregatorMsg.TellsOf (P : Processor) (S : BlockInfo → Prop) : AggregatorMsg → Prop
  | .event e => ∃ b, S b ∧ ∃ tx ∈ b.txdata, ∃ spent, tx.Spends P S spent ∧ e.amount ≠ 0 ∧
      e.amount = total (UtxoRow.amountFor e.address) (P.createdBy b.header.height tx) -
        total (UtxoRow.amountFor e.address) spent ∧
      e = Processor.eventOf b.header.height tx e.address e.amount
  | .reorg number => ∃ b, S b ∧ b.header.height = number

section Kinds

variable {P : Processor} {S S' : BlockInfo → Prop} {s : Store}

theorem Copied.mono (h : Copied P S s) (hle : ∀ b, S b → S' b) : Copied P S' s where
  blocks := fun row hrow => by
    obtain ⟨b, hb, hcopy⟩ := h.blocks row hrow
    exact ⟨b, hle b hb, hcopy⟩
  transactions := fun t ht => by
    obtain ⟨⟨b, hb, hcopy⟩, c, hc, hnamed⟩ := h.transactions t ht
    exact ⟨⟨b, hle b hb, hcopy⟩, c, hle c hc, hnamed⟩
  utxos := fun u hu => by
    obtain ⟨⟨b, hb, hcreated⟩, hmarked⟩ := h.utxos u hu
    refine ⟨⟨b, hle b hb, hcreated⟩, fun number hnumber => ?_⟩
    obtain ⟨c, hc, hspends⟩ := hmarked number hnumber
    exact ⟨c, hle c hc, hspends⟩

theorem Transaction.Spends.mono {tx : Transaction} {spent : List UtxoRow}
    (h : tx.Spends P S spent) (hle : ∀ b, S b → S' b) : tx.Spends P S' spent where
  created := fun u hu => by
    obtain ⟨c, hc, hcreated⟩ := h.created u hu
    exact ⟨c, hle c hc, hcreated⟩
  named := h.named
  once := h.once

theorem AggregatorMsg.TellsOf.mono {msg : AggregatorMsg} (h : msg.TellsOf P S)
    (hle : ∀ b, S b → S' b) : msg.TellsOf P S' := by
  cases msg with
  | event e =>
      obtain ⟨b, hb, tx, htx, spent, hspends, htells⟩ := h
      exact ⟨b, hle b hb, tx, htx, spent, hspends.mono hle, htells⟩
  | reorg number =>
      obtain ⟨b, hb, hheight⟩ := h
      exact ⟨b, hle b hb, hheight⟩

end Kinds

namespace Processor

variable {P : Processor} {S : BlockInfo → Prop} {block : BlockInfo} {s s' : Store}

theorem copied_transactions (all : List Transaction) {hash : BlockHash}
    {known : TransactionRow → Prop}
    (hnew : ∀ idx tx, all[idx]? = some tx → known (transactionRow hash idx tx))
    (hold : ∀ t, known t → t.txid ∈ all.map Transaction.txid → known { t with blockHash := hash })
    {idx : Nat} {txs : List Transaction} {rows : List TransactionRow}
    (htxs : all.drop idx = txs) (hrows : ∀ t ∈ rows, known t) :
    ∀ t ∈ indexTransactions hash idx txs rows, known t := by
  induction txs generalizing idx rows with
  | nil => exact hrows
  | cons tx rest ih =>
      have hat : all[idx]? = some tx := by
        rw [← List.head?_drop, htxs]
        rfl
      have hrest : all.drop (idx + 1) = rest := by
        rw [← List.tail_drop, htxs]
        rfl
      refine ih hrest fun t ht => ?_
      split at ht
      · obtain ⟨old, hin, rfl⟩ := List.mem_map.mp ht
        unfold Store.repoint
        split
        · next hid =>
            refine hold old (hrows old hin) ?_
            rw [hid]
            exact List.mem_map_of_mem (List.mem_of_getElem? hat)
        · exact hrows old hin
      · rcases List.mem_append.mp ht with hin | hin
        · exact hrows t hin
        · rw [List.mem_singleton.mp hin]
          exact hnew idx tx hat

theorem Indexed.copied (h : P.Indexed block s s') (hblock : S block) (hs : Copied P S s) :
    Copied P S s' where
  blocks := by
    intro row hrow
    obtain ⟨timestamp, htimestamp, hblocks⟩ := h.blocks
    rw [hblocks] at hrow
    unfold Store.upsertBlock at hrow
    split at hrow
    · exact hs.blocks row hrow
    · rcases List.mem_append.mp hrow with hold | hnew
      · exact hs.blocks row hold
      · exact ⟨block, hblock, timestamp, htimestamp, List.mem_singleton.mp hnew⟩
  transactions := by
    intro t ht
    rw [h.transactions] at ht
    refine copied_transactions block.txdata ?_ ?_ rfl hs.transactions t ht
    · intro idx tx hat
      exact ⟨⟨block, hblock, tx, hat, rfl⟩, block, hblock, rfl,
        List.mem_map_of_mem (List.mem_of_getElem? hat)⟩
    · rintro t ⟨⟨b, hb, tx, hat, hrow⟩, _⟩ hin
      refine ⟨⟨b, hb, tx, hat, ?_⟩, block, hblock, rfl, hin⟩
      rw [hrow]
      rfl
  utxos := by
    intro u hu
    rw [h.utxos] at hu
    rcases List.mem_append.mp hu with hold | hnew
    · obtain ⟨old, hin, rfl⟩ := List.mem_map.mp hold
      obtain ⟨hcreated, hmarked⟩ := hs.utxos old hin
      unfold BlockInfo.spendRow
      split
      · next hspends =>
          refine ⟨hcreated, fun number hnumber => ?_⟩
          cases hnumber
          exact ⟨block, hblock, rfl, hspends.2⟩
      · exact ⟨hcreated, hmarked⟩
    · have hnone := (mem_created hnew).2.2.1
      refine ⟨⟨block, hblock, ?_⟩, fun number hnumber => ?_⟩
      · rw [← hnone]
        exact hnew
      · cases hnone.symm.trans hnumber

theorem IndexedAll.copied {blocks : List BlockInfo} (h : P.IndexedAll blocks s s')
    (hblocks : ∀ b ∈ blocks, S b) (hs : Copied P S s) : Copied P S s' := by
  induction h with
  | nil s => exact hs
  | cons first later ih =>
      obtain ⟨hblock, hrest⟩ := List.forall_mem_cons.mp hblocks
      exact ih hrest (first.copied hblock hs)

end Processor

theorem Copied.rewind {P : Processor} {S : BlockInfo → Prop} {s : Store} (h : Copied P S s)
    (number : Nat) : Copied P S (s.rewind number) where
  blocks := fun row hrow => h.blocks row (List.mem_filter.mp hrow).1
  transactions := fun t ht => h.transactions t (List.mem_filter.mp ht).1
  utxos := by
    intro u hu
    obtain ⟨old, hold, rfl, _⟩ := Store.mem_rewind hu
    obtain ⟨hcreated, hmarked⟩ := h.utxos old hold
    refine ⟨hcreated, fun number' hnumber => ?_⟩
    exact hmarked number' (Option.filter_eq_some_iff.mp hnumber).1

namespace Processor

variable {P : Processor} {S : BlockInfo → Prop}

/-- Where the script of the outputs has no error, every taproot output has an address. -/
theorem owned_of_createOps {blockNum : Nat} {txid : Txid} {idx : Nat} {outs : List TxOut}
    (h : ∀ e, .raise e ∉ createOps P blockNum txid idx outs) :
    ∀ out ∈ outs, P.isP2tr out.scriptPubkey = true → (P.owner out).isSome := by
  induction outs generalizing idx with
  | nil => exact fun _ hout => absurd hout List.not_mem_nil
  | cons txout rest ih =>
      cases hp : P.isP2tr txout.scriptPubkey with
      | false =>
          simp only [createOps, hp, Bool.false_eq_true, if_false] at h
          refine List.forall_mem_cons.mpr ⟨fun htaproot => ?_, ih h⟩
          rw [hp] at htaproot
          cases htaproot
      | true =>
          cases hs : P.fromScript txout.scriptPubkey with
          | none =>
              simp only [createOps, hp, hs, if_true] at h
              exact absurd List.mem_cons_self (h _)
          | some address =>
              simp only [createOps, hp, hs, if_true] at h
              refine List.forall_mem_cons.mpr ⟨fun _ => ?_, ih fun e he =>
                h e (List.mem_cons_of_mem _ he)⟩
              simp only [owner, hp, hs, if_true, Option.isSome_some]

/-- What is heard of some transactions are events of the first of them, whose taproot outputs all
have addresses. -/
theorem heard_txsOps {order : Nat → ScanOrder (Address × Int)} {blockNum i : Nat}
    {txs : List Transaction} {relevant : RelevantUtxos} {msg : AggregatorMsg}
    (h : msg ∈ heard (txsOps P order blockNum i txs relevant)) :
    ∃ done, done <+: txs ∧ (∀ tx ∈ done, P.Owned tx) ∧
      ∃ e ∈ txsEvents P order blockNum i done relevant, msg = .event e := by
  induction txs generalizing i relevant with
  | nil => cases h
  | cons tx rest ih =>
      rcases mem_heard_append h with hspend | ⟨_, hcreating⟩
      · have hmem := heard_subset _ hspend
        rw [messages_spendOps] at hmem
        cases hmem
      rcases mem_heard_append hcreating with hcreate | ⟨hunraised, hsending⟩
      · have hmem := heard_subset _ hcreate
        rw [messages_createOps] at hmem
        cases hmem
      have howned : P.Owned tx := owned_of_createOps hunraised
      rcases mem_heard_append hsending with hsend | ⟨_, hlater⟩
      · have hmem := heard_subset _ hsend
        rw [messages_sendOps] at hmem
        obtain ⟨e, he, rfl⟩ := List.mem_map.mp hmem
        refine ⟨[tx], (List.prefix_cons_inj tx).mpr List.nil_prefix, ?_, e, ?_, rfl⟩
        · exact List.forall_mem_singleton.mpr howned
        · exact List.mem_append_left _ he
      · obtain ⟨done, hdone, hall, e, he, rfl⟩ := ih hlater
        exact ⟨tx :: done, (List.prefix_cons_inj tx).mpr hdone,
          List.forall_mem_cons.mpr ⟨howned, hall⟩, e, List.mem_append_right _ he, rfl⟩

theorem blockOps_tellsOf (order : Nat → ScanOrder (Address × Int)) (hblock : S block)
    (hs : Copied P S s) : ∀ msg ∈ heard (P.blockOps order block s), msg.TellsOf P S := by
  intro msg hmsg
  unfold blockOps at hmsg
  cases hts : P.timestampOpt block.header.time with
  | none =>
      rw [hts] at hmsg
      cases hmsg
  | some timestamp =>
      rw [hts] at hmsg
      have hsplit : msg ∈ heard (upsertOps block.header.hash 0 block.txdata ++ _) := hmsg
      rcases mem_heard_append hsplit with hupsert | ⟨_, htxs⟩
      · have hmem := heard_subset _ hupsert
        rw [messages_upsertOps] at hmem
        cases hmem
      obtain ⟨done, hdone, howned, e, he, rfl⟩ := heard_txsOps htxs
      obtain ⟨earlier, tx, later, a, rfl, hne, rfl⟩ :=
        (mem_txsEvents howned (keyed_relevant s _) order _ _).mp he
      obtain ⟨more, hall⟩ := hdone
      have hsplit : block.txdata = earlier ++ tx :: (later ++ more) := by
        rw [← hall, List.append_assoc]
        rfl
      have hchange := netChange_eq P s hsplit a
      refine ⟨block, hblock, tx, by rw [hsplit]; simp, s.utxos.filter (fun u =>
        u.spentBlock = none ∧ u.outPoint ∈ tx.input.map TxIn.previousOutput ∧
          u.outPoint ∉ namedBy earlier), ⟨?_, ?_, ?_⟩, hne, hchange, rfl⟩
      · intro u hu
        obtain ⟨hin, hmark⟩ := List.mem_filter.mp hu
        obtain ⟨b, hb, hcreated⟩ := (hs.utxos u hin).1
        have hsame : { u with spentBlock := none } = u := by rw [← (of_decide_eq_true hmark).1]
        exact ⟨b, hb, hsame ▸ hcreated⟩
      · exact fun u hu => (of_decide_eq_true (List.mem_filter.mp hu).2).2.1
      · exact Keyed.filter s.outPointKey _

theorem blocksOps_tellsOf (order : Nat → Nat → ScanOrder (Address × Int))
    {blocks : List BlockInfo} (hblocks : ∀ b ∈ blocks, S b) (i : Nat) (hs : Copied P S s) :
    ∀ msg ∈ heard (P.blocksOps order i blocks s), msg.TellsOf P S := by
  induction blocks generalizing i s with
  | nil => exact fun _ hmsg => absurd hmsg List.not_mem_nil
  | cons block rest ih =>
      obtain ⟨hblock, hrest⟩ := List.forall_mem_cons.mp hblocks
      intro msg hmsg
      rcases mem_heard_append hmsg with hfirst | ⟨_, hlater⟩
      · exact blockOps_tellsOf (order i) hblock hs msg hfirst
      · cases happly : apply (P.blockOps (order i) block s) s with
        | error e =>
            rw [happly] at hlater
            cases hlater
        | ok s' =>
            rw [happly] at hlater
            exact ih hrest _ ((blockOps_ok happly).copied hblock hs) msg hlater

theorem jobOps_tellsOf (env : DbEnv) {w : World Store AggregatorMsg} {job : Job}
    (hblocks : ∀ b ∈ job.blocks, S b) (hs : Copied P S w.store) :
    ∀ msg ∈ heard (job.ops P env w), msg.TellsOf P S := by
  cases job with
  | first block => exact blockOps_tellsOf _ (hblocks block List.mem_cons_self) hs
  | next block => exact blockOps_tellsOf _ (hblocks block List.mem_cons_self) hs
  | fork blocks =>
      intro msg hmsg
      simp only [Job.ops, forkOps] at hmsg
      cases hlast : blocks.getLast? with
      | none =>
          rw [hlast] at hmsg
          cases hmsg
      | some origin =>
          rw [hlast] at hmsg
          rcases List.mem_cons.mp hmsg with rfl | hlater
          · exact ⟨origin, hblocks origin (List.mem_of_getLast? hlast), rfl⟩
          · exact blocksOps_tellsOf _ hblocks 0 (hs.rewind origin.header.height) msg hlater

end Processor

/-- Tables and channel are copies. -/
structure Genuine (P : Processor) (S : BlockInfo → Prop) (w : World Store AggregatorMsg) :
    Prop where
  stored : Copied P S w.store
  announced : ∀ msg ∈ w.channel, msg.TellsOf P S

theorem Genuine.mono {P : Processor} {S S' : BlockInfo → Prop} {w : World Store AggregatorMsg}
    (h : Genuine P S w) (hle : ∀ b, S b → S' b) : Genuine P S' w :=
  ⟨h.stored.mono hle, fun msg hmsg => (h.announced msg hmsg).mono hle⟩

theorem Genuine.of_same {P : Processor} {S : BlockInfo → Prop} {w w' : World Store AggregatorMsg}
    (h : Genuine P S w) (hstore : w'.store = w.store) (hchannel : w'.channel = w.channel) :
    Genuine P S w' := ⟨hstore ▸ h.stored, hchannel ▸ h.announced⟩

theorem Processor.jobOps_copied {P : Processor} {env : DbEnv} {S : BlockInfo → Prop} {job : Job}
    {w : World Store AggregatorMsg} {s' : Store} (h : Copied P S w.store)
    (hblocks : ∀ b ∈ job.blocks, S b) (happly : apply (job.ops P env w) w.store = .ok s') :
    Copied P S s' := by
  obtain ⟨events, hemitted, _⟩ := jobOps_ok happly
  have hbase : Copied P S (job.base w.store) := by
    rcases Job.base_cases w.store job with hsame | ⟨number, hrewound⟩
    · rw [hsame]
      exact h
    · rw [hrewound]
      exact h.rewind number
  exact hemitted.indexedAll.copied hblocks hbase

/-- A call over blocks of the kind keeps tables and channel copies, also where it fails. -/
theorem Genuine.call {P : Processor} {env : DbEnv} {S : BlockInfo → Prop} {job : Job}
    {w : World Store AggregatorMsg} (h : Genuine P S w) (hblocks : ∀ b ∈ job.blocks, S b) :
    Genuine P S (final (job.run P env w)) := by
  have htells := Processor.jobOps_tellsOf env hblocks h.stored
  rw [Job.run_eq]
  cases hrun : transact env.faults (job.ops P env w) w with
  | ok a w' =>
      obtain ⟨happly, hchannel⟩ := transact_ok hrun
      refine ⟨Processor.jobOps_copied h.stored hblocks happly, fun msg hmsg => ?_⟩
      rw [final_ok, hchannel] at hmsg
      rcases List.mem_append.mp hmsg with hold | hnew
      · exact h.announced msg hold
      · refine htells msg ?_
        rw [← List.append_nil (job.ops P env w), heard_append_of_apply happly]
        exact List.mem_append_left _ hnew
  | error e w' =>
      obtain ⟨sent, hchannel, hpart⟩ := transact_error_heard hrun
      refine ⟨?_, fun msg hmsg => ?_⟩
      · rw [final_error, transact_error_store hrun]
        exact h.stored
      · rw [final_error, hchannel] at hmsg
        rcases List.mem_append.mp hmsg with hold | hnew
        · exact h.announced msg hold
        · exact htells msg (hpart msg hnew)

/-- The row copies an event of the given kind, or undoes it, or undoes that. -/
def P2trEventRow.Traces (K : BtcP2trEvent → Prop) (row : P2trEventRow) : Prop :=
  ∃ e, K e ∧ (row = e.toRow ∨ row = e.reorg.toRow ∨ row = e.reorg.reorg.toRow)

structure Ledger.Traced (K : BtcP2trEvent → Prop) (l : Ledger) : Prop where
  pending : ∀ e ∈ l.pending, K e
  events : ∀ row ∈ l.events, row.Traces K

theorem P2trEventRow.Traces.reorg {K : BtcP2trEvent → Prop} {row : P2trEventRow}
    (h : row.Traces K) : row.toEvent.reorg.toRow.Traces K := by
  obtain ⟨e, he, rfl | rfl | rfl⟩ := h
  · exact ⟨e, he, .inr (.inl rfl)⟩
  · exact ⟨e, he, .inr (.inr rfl)⟩
  · refine ⟨e, he, .inr (.inl ?_)⟩
    simp only [BtcP2trEvent.reorg, BtcP2trEvent.toRow, P2trEventRow.toEvent,
      P2trEventRow.mk.injEq, true_and, and_true]
    omega

namespace Aggregator

variable {K : BtcP2trEvent → Prop} {env : LedgerEnv} {agg : Aggregator} {l l' : Ledger}

theorem traced_append {rows : List P2trEventRow} (h : l.Traced K)
    (hpending : ∀ e ∈ l'.pending, K e) (hevents : l'.events = l.events ++ rows)
    (hrows : ∀ row ∈ rows, row.Traces K) : l'.Traced K := by
  refine ⟨hpending, fun row hrow => ?_⟩
  rw [hevents] at hrow
  rcases List.mem_append.mp hrow with hold | hnew
  · exact h.events row hold
  · exact hrows row hnew

theorem Recorded.traced {event : BtcP2trEvent} (hr : Recorded event l l') (h : l.Traced K)
    (hevent : K event) : l'.Traced K := by
  refine traced_append h ?_ hr.events ?_
  · intro e he
    rw [hr.pending] at he
    rcases List.mem_append.mp he with hold | hnew
    · exact h.pending e hold
    · cases hcb : event.isCoinbase with
      | true =>
          rw [hcb, if_pos rfl, List.mem_singleton] at hnew
          rwa [hnew]
      | false =>
          rw [hcb] at hnew
          cases hnew
  · intro row hrow
    cases hcb : event.isCoinbase with
    | true =>
        rw [hcb] at hrow
        cases hrow
    | false =>
        rw [hcb, if_neg Bool.false_ne_true, List.mem_singleton] at hrow
        exact ⟨event, hevent, .inl hrow⟩

theorem Swept.traced {blockNum : Nat} (hs : Swept blockNum l l') (h : l.Traced K) :
    l'.Traced K := by
  obtain ⟨es, hperm, hevents⟩ := hs.events
  refine traced_append h ?_ hevents ?_
  · intro e he
    rw [hs.pending] at he
    exact h.pending e (List.mem_filter.mp he).1
  · intro row hrow
    obtain ⟨e, he, rfl⟩ := List.mem_map.mp hrow
    have hmatured := hperm.mem_iff.mp he
    exact ⟨e, h.pending e (List.mem_filter.mp hmatured).1, .inl rfl⟩

theorem Reorged.traced {blockNumber : Nat} {agg' : Aggregator}
    (hr : Reorged env blockNumber agg agg') (h : agg.ledger.Traced K) : agg'.ledger.Traced K := by
  refine traced_append h ?_ hr.events ?_
  · intro e he
    rw [hr.pending] at he
    exact h.pending e (List.mem_filter.mp he).1
  · intro row hrow
    obtain ⟨r, hin, rfl⟩ := List.mem_map.mp hrow
    have hstored := (sinceRows_perm env blockNumber agg).mem_iff.mp hin
    exact (h.events r (List.mem_filter.mp hstored).1).reorg

/-- A sweep that loses the rows it has taken out leaves the others as they were. -/
theorem sweep_traced {blockNum : Nat} {w : World Ledger Empty} (h : w.store.Traced K) :
    (final (sweep env blockNum w)).store.Traced K := by
  rcases sweep_cases env blockNum w with ⟨_, _, hsame⟩ | ⟨_, _, _, hswept⟩ | ⟨_, _, _, hlost⟩
  · rw [hsame]
    exact h
  · exact hswept.traced h
  · rw [hlost]
    exact ⟨fun e he => h.pending e (List.mem_filter.mp he).1, h.events⟩

theorem handle_traced (env : LedgerEnv) {msg : AggregatorMsg} (h : agg.ledger.Traced K)
    (hmsg : ∀ event, msg = .event event → K event) :
    (final (handle env msg agg)).ledger.Traced K := by
  cases msg with
  | event event =>
      change (final (handleEvent env event agg)).ledger.Traced K
      cases hrun : storeEvent env event agg.world with
      | error e w =>
          rw [handleEvent_of_error hrun, final_error, ledger, storeEvent_error hrun]
          exact h
      | ok a w =>
          have hstored := (storeEvent_recorded hrun).traced h (hmsg event rfl)
          rw [handleEvent_of_stored hrun]
          split
          · rw [final_lift]
            exact sweep_traced hstored
          · exact hstored
  | reorg blockNumber =>
      change (final (handleReorg env blockNumber agg)).ledger.Traced K
      cases hrun : handleReorg env blockNumber agg with
      | error e agg' =>
          rw [final_error, (handleReorg_error hrun).1]
          exact h
      | ok a agg' =>
          rw [final_ok]
          exact (handleReorg_ok hrun).traced h

end Aggregator

namespace Service

/-- Tables, channel and ledger come from blocks of the given kind. -/
structure Derived (P : Processor) (env : DbEnv) (S : BlockInfo → Prop) (sys : Service) : Prop where
  underway : Underway P env (fun job _ => ∀ b ∈ job.blocks, S b) sys
  genuine : Genuine P S sys.world
  traced : sys.aggregator.ledger.Traced fun e => AggregatorMsg.TellsOf P S (.event e)
  balanced : Aggregator.Balanced sys.aggregator.ledger

section Effects

variable {P : Processor} {env : DbEnv} {ledgerEnv : LedgerEnv} {S : BlockInfo → Prop}
variable {sys sys' : Service} {turn : Turn}

theorem Underway.tellsOf (h : Underway P env (fun job _ => ∀ b ∈ job.blocks, S b) sys)
    (hstored : Copied P S sys.world.store) {db : Store} {op : ProcessorOp}
    {rest : List ProcessorOp} {since : Nat}
    (hopen : sys.writing = some ⟨db, op :: rest, since⟩) :
    ∀ msg ∈ op.message.toList, msg.TellsOf P S := by
  obtain ⟨job, pre, w, hw, hblocks, hops, hpre, _⟩ := (h.call _ hopen).script
  intro msg hmsg
  refine Processor.jobOps_tellsOf env hblocks (hw ▸ hstored) msg ?_
  rw [hops, heard_append_of_apply hpre]
  refine List.mem_append_right _ ?_
  cases op with
  | sql f => cases hmsg
  | raise e => cases hmsg
  | send m => exact List.mem_singleton.mp hmsg ▸ List.mem_cons_self

theorem Derived.effect (h : Derived P env S sys) (heffect : Effect P env ledgerEnv sys turn sys')
    (hgiven : ∀ job, turn = .call job → ∀ b ∈ job.blocks, S b) : Derived P env S sys' := by
  have hunder : Underway P env (fun job _ => ∀ b ∈ job.blocks, S b) sys' :=
    h.underway.effect heffect hgiven
  have hnext : ∀ {msg rest}, sys.inFlight = msg :: rest → ∀ event, msg = .event event →
      AggregatorMsg.TellsOf P S (.event event) := by
    rintro msg rest hflight event rfl
    have hin : .event event ∈ sys.inFlight := hflight ▸ List.mem_cons_self
    exact h.genuine.announced _ (List.mem_of_mem_drop hin)
  cases heffect with
  | pause beside store channel writing stray =>
      exact ⟨hunder, h.genuine.of_same store channel, beside.aggregator ▸ h.traced,
        beside.aggregator ▸ h.balanced⟩
  | opened beside idle store channel writing stray =>
      exact ⟨hunder, h.genuine.of_same store channel, beside.aggregator ▸ h.traced,
        beside.aggregator ▸ h.balanced⟩
  | advanced beside before apply store channel writing stray =>
      refine ⟨hunder, ⟨store ▸ h.genuine.stored, fun msg hmsg => ?_⟩,
        beside.aggregator ▸ h.traced, beside.aggregator ▸ h.balanced⟩
      rw [channel] at hmsg
      rcases List.mem_append.mp hmsg with hold | hnew
      · exact h.genuine.announced msg hold
      · exact h.underway.tellsOf h.genuine.stored before msg hnew
  | committed beside before store channel writing stray =>
      obtain ⟨job, w, hw, hblocks, happly, _⟩ := (h.underway.call _ before).done
      have hcopied : Copied P S w.store := hw ▸ h.genuine.stored
      exact ⟨hunder, ⟨store ▸ Processor.jobOps_copied hcopied hblocks happly,
        channel ▸ h.genuine.announced⟩, beside.aggregator ▸ h.traced,
        beside.aggregator ▸ h.balanced⟩
  | abandoned beside store channel writing stray =>
      exact ⟨hunder, h.genuine.of_same store channel, beside.aggregator ▸ h.traced,
        beside.aggregator ▸ h.balanced⟩
  | handled across next handle received stage unreturned =>
      have htraced := Aggregator.handle_traced ledgerEnv h.traced (hnext next)
      rw [handle, final_ok] at htraced
      exact ⟨hunder, across.world ▸ h.genuine, htraced, h.balanced.handle handle⟩
  | @failed _ msg _ _ across next handle received unreturned =>
      have htraced := Aggregator.handle_traced ledgerEnv h.traced (hnext next)
      have hbalanced := Aggregator.balanced_closed.step ledgerEnv (.handle msg) h.balanced
      rw [Aggregator.step, handle, final_error] at hbalanced
      rw [handle, final_error] at htraced
      exact ⟨hunder, across.world ▸ h.genuine, htraced, hbalanced⟩
  | turned across received aggregator unreturned empty =>
      exact ⟨hunder, across.world ▸ h.genuine, aggregator ▸ h.traced, aggregator ▸ h.balanced⟩
  | restarted => exact ⟨hunder, h.genuine, h.traced, h.balanced⟩

end Effects

end Service

end BtcIndexer
