import BtcIndexer.Maturation
import BtcIndexer.Conservation

/-! Where the events of a run without failures are. Events come in ascending order of their
blocks, so the last one handled decides: coinbase events less than 100 blocks below it are
withheld, everything else is booked. -/
namespace BtcIndexer
open Stateful Outbox Rows

/-- A coinbase event that the given height does not mature. -/
def withheldAt (last : Nat) (e : BtcP2trEvent) : Bool :=
  e.isCoinbase && decide (last < e.blockNumber + 100)

def lastBlock (events : List BtcP2trEvent) : Nat :=
  (events.getLast?.map BtcP2trEvent.blockNumber).getD 0

def Ascending (events : List BtcP2trEvent) : Prop :=
  events.Pairwise (fun e f => e.blockNumber ≤ f.blockNumber)

theorem lastBlock_snoc (events : List BtcP2trEvent) (event : BtcP2trEvent) :
    lastBlock (events ++ [event]) = event.blockNumber := by
  rw [lastBlock, List.getLast?_concat]
  rfl

theorem lastBlock_mem {events : List BtcP2trEvent} (h : events ≠ []) :
    ∃ e ∈ events, lastBlock events = e.blockNumber := by
  refine ⟨events.getLast h, List.getLast_mem h, ?_⟩
  rw [lastBlock, List.getLast?_eq_some_getLast h]
  rfl

theorem Ascending.le_last {events : List BtcP2trEvent} (h : Ascending events) {e : BtcP2trEvent}
    (he : e ∈ events) : e.blockNumber ≤ lastBlock events := by
  have hne := List.ne_nil_of_mem he
  obtain ⟨init, last, rfl⟩ : ∃ init last, events = init ++ [last] :=
    ⟨events.dropLast, events.getLast hne, (List.dropLast_append_getLast hne).symm⟩
  rw [lastBlock_snoc]
  rcases List.mem_append.mp he with he | he
  · exact (List.pairwise_append.mp h).2.2 e he last List.mem_cons_self
  · rw [List.mem_singleton.mp he]

theorem Ascending.last_le_snoc {events : List BtcP2trEvent} {event : BtcP2trEvent}
    (h : Ascending (events ++ [event])) : lastBlock events ≤ event.blockNumber := by
  cases hnil : events with
  | nil => exact Nat.zero_le _
  | cons first rest =>
      obtain ⟨e, he, hlast⟩ := lastBlock_mem (hnil ▸ List.cons_ne_nil first rest)
      rw [← hnil, hlast]
      exact (List.pairwise_append.mp h).2.2 e he event List.mem_cons_self

namespace Aggregator

/-- The state of an aggregator that has handled some events. -/
structure Settled (events : List BtcP2trEvent) (agg : Aggregator) : Prop where
  last : agg.lastBlockNumber = lastBlock events
  conserved : Conserved events agg.ledger
  pending : agg.ledger.pending.Perm (events.filter (withheldAt agg.lastBlockNumber))

theorem settled_new (clock : Nat) : Settled [] (new ⟨Ledger.empty, [], clock⟩) where
  last := rfl
  conserved := ⟨[], Placed.empty⟩
  pending := List.Perm.refl _

theorem Handled.conserved {event : BtcP2trEvent} {agg agg' : Aggregator}
    {events : List BtcP2trEvent} (h : Handled event agg agg')
    (hc : Conserved events agg.ledger) : Conserved (events ++ [event]) agg'.ledger := by
  obtain ⟨matured, hplaced⟩ := hc
  obtain ⟨l, hrecorded, hcases⟩ := h.tables
  rcases hcases with ⟨_, hl⟩ | ⟨_, hswept⟩
  · exact ⟨matured, hl ▸ hplaced.recorded hrecorded⟩
  · exact (hplaced.recorded hrecorded).swept hswept

theorem Settled.step {events : List BtcP2trEvent} {event : BtcP2trEvent} {agg agg' : Aggregator}
    (h : Settled events agg) (hasc : Ascending (events ++ [event]))
    (hh : Handled event agg agg') : Settled (events ++ [event]) agg' := by
  have hle : agg.lastBlockNumber ≤ event.blockNumber := h.last ▸ hasc.last_le_snoc
  have hlast : agg'.lastBlockNumber = event.blockNumber := by
    rw [hh.last]
    omega
  refine ⟨by rw [hlast, lastBlock_snoc], hh.conserved h.conserved, ?_⟩
  obtain ⟨l, hrecorded, hcases⟩ := hh.tables
  -- the event is withheld as long as the block before it decides
  have hl : l.pending.Perm
      ((events ++ [event]).filter (withheldAt agg.lastBlockNumber)) := by
    rw [hrecorded.pending, List.filter_append]
    refine h.pending.append (List.Perm.of_eq ?_)
    have hnew : agg.lastBlockNumber < event.blockNumber + 100 := by omega
    cases hcb : event.isCoinbase <;> simp [withheldAt, hcb, hnew]
  rw [hlast]
  rcases hcases with ⟨hno, hsame⟩ | ⟨hs, hswept⟩
  · rw [hsame]
    refine hl.trans (List.Perm.of_eq (List.filter_congr fun e _ => ?_))
    have hlow : event.blockNumber < 100 ∨ agg.lastBlockNumber = event.blockNumber := by
      by_cases hnew : agg.lastBlockNumber < event.blockNumber
      · exact .inl (Nat.lt_of_not_le fun hhigh => hno ⟨hnew, hhigh⟩)
      · exact .inr (by omega)
    unfold withheldAt
    congr 1
    exact decide_eq_decide.mpr (by omega)
  · rw [hswept.pending]
    refine (hl.filter _).trans (List.Perm.of_eq ?_)
    rw [List.filter_filter]
    apply List.filter_congr
    intro e _
    have hhigh := hs.2
    unfold withheldAt
    rw [← Bool.and_assoc, Bool.and_comm (decide _) e.isCoinbase, Bool.and_assoc,
      ← Bool.decide_and]
    congr 1
    exact decide_eq_decide.mpr (by omega)

theorem Settled.start {env : LedgerEnv} {before events : List BtcP2trEvent}
    {agg agg' : Aggregator} (h : Settled before agg) (hasc : Ascending (before ++ events))
    (hrun : start env (events.map .event) agg = .ok () agg') :
    Settled (before ++ events) agg' := by
  induction events generalizing before agg with
  | nil =>
      cases hrun
      rw [List.append_nil]
      exact h
  | cons event rest ih =>
      obtain ⟨_, agg₁, hfirst, hrest⟩ := bind_eq_ok.mp hrun
      rw [List.append_cons] at hasc ⊢
      have hstep := h.step (List.pairwise_append.mp hasc).1 (handleEvent_ok hfirst)
      exact ih hstep hasc hrest

theorem Settled.events {events : List BtcP2trEvent} {agg : Aggregator}
    (h : Settled events agg) : agg.ledger.events.Perm
      ((events.filter (fun e => !withheldAt agg.lastBlockNumber e)).map BtcP2trEvent.toRow) := by
  obtain ⟨matured, hplaced⟩ := h.conserved
  have hcoinbase := hplaced.coinbase
  rw [List.append_nil] at hcoinbase
  have hkept : (events.filter (fun e => e.isCoinbase)).filter
      (withheldAt agg.lastBlockNumber) = events.filter (withheldAt agg.lastBlockNumber) := by
    rw [List.filter_filter]
    apply List.filter_congr
    intro e _
    unfold withheldAt
    cases e.isCoinbase <;> simp
  have hmatured : matured.Perm ((events.filter (fun e => e.isCoinbase)).filter
      (fun e => !withheldAt agg.lastBlockNumber e)) := by
    have hsplit := List.filter_append_perm (withheldAt agg.lastBlockNumber)
      (events.filter (fun e => e.isCoinbase))
    rw [hkept] at hsplit
    have hboth := hsplit.trans (hcoinbase.trans (h.pending.append_right matured))
    exact ((List.perm_append_left_iff _).mp hboth).symm
  refine hplaced.events.trans (List.Perm.map _ ?_)
  refine (hmatured.append_left _).trans ?_
  have hsplit := List.filter_append_perm (fun e => !e.isCoinbase)
    (events.filter (fun e => !withheldAt agg.lastBlockNumber e))
  rw [List.filter_filter, List.filter_filter] at hsplit
  refine List.Perm.trans (List.Perm.of_eq ?_) hsplit
  rw [List.filter_filter]
  congr 1
  · apply List.filter_congr
    intro e _
    unfold withheldAt
    cases e.isCoinbase <;> simp
  · apply List.filter_congr
    intro e _
    cases e.isCoinbase <;> simp

end Aggregator

namespace Processor

theorem blockNumber_of_mem {P : Processor} {order : Nat → ScanOrder (Address × Int)}
    {block : BlockInfo} {s : Store} {e : BtcP2trEvent} (h : e ∈ P.blockEvents order block s) :
    e.blockNumber = block.header.height := by
  unfold blockEvents at h
  generalize s.getRelevantUtxos block.outpoints = relevant at h
  generalize 0 = i at h
  generalize block.txdata = txs at h
  induction txs generalizing i relevant with
  | nil => cases h
  | cons tx rest ih =>
      rcases List.mem_append.mp h with h | h
      · obtain ⟨p, _, rfl⟩ := List.mem_map.mp h
        rfl
      · exact ih _ _ h

theorem Emitted.mem_block {P : Processor} {blocks : List BlockInfo} {s s' : Store}
    {events : List BtcP2trEvent} (h : P.Emitted blocks s s' events) {e : BtcP2trEvent}
    (he : e ∈ events) : ∃ b ∈ blocks, e.blockNumber = b.header.height := by
  induction h with
  | nil s => cases he
  | @cons block rest s s₁ s' events order first later ih =>
      rcases List.mem_append.mp he with he | he
      · exact ⟨block, List.mem_cons_self, blockNumber_of_mem he⟩
      · obtain ⟨b, hb, hnumber⟩ := ih he
        exact ⟨b, List.mem_cons_of_mem block hb, hnumber⟩

theorem Emitted.ascending {P : Processor} {blocks : List BlockInfo} {s s' : Store}
    {events : List BtcP2trEvent} (h : P.Emitted blocks s s' events)
    (hasc : blocks.Pairwise (fun a b => a.header.height < b.header.height)) :
    Ascending events := by
  induction h with
  | nil s => exact List.Pairwise.nil
  | @cons block rest s s₁ s' events order first later ih =>
      obtain ⟨hfirst, hrest⟩ := List.pairwise_cons.mp hasc
      refine List.pairwise_append.mpr ⟨?_, ih hrest, ?_⟩
      · apply List.pairwise_of_forall_mem_list
        intro e he f hf
        rw [blockNumber_of_mem he, blockNumber_of_mem hf]
      · intro e he f hf
        obtain ⟨b, hb, hnumber⟩ := later.mem_block hf
        have hlt := hfirst b hb
        rw [blockNumber_of_mem he, hnumber]
        omega

end Processor

namespace System

/-- A run over ascending blocks, at any of its states: the events it sends, and the aggregator
on the first of them. -/
theorem settled_within {P : Processor} {env : DbEnv} {ledgerEnv : LedgerEnv}
    {moves rest : List Move} {sys done : System} (hrun : run P env ledgerEnv moves new = some sys)
    (hrest : run P env ledgerEnv rest sys = some done) (hidle : done.writing = none)
    (hasc : (indexedBlocks (moves ++ rest)).Pairwise
      (fun a b => a.header.height < b.header.height)) :
    ∃ events, P.Emitted (indexedBlocks (moves ++ rest)) Store.empty done.world.store events ∧
      done.world.channel = events.map .event ∧ events.take sys.received <+: events ∧
      Aggregator.Settled (events.take sys.received) sys.aggregator := by
  have hwhole : run P env ledgerEnv (moves ++ rest) new = some done := by
    rw [run_append, hrun]
    exact hrest
  obtain ⟨events, hemitted, hchannel⟩ :=
    Processor.processAll_emitted ((progress hwhole).idle hidle)
  have hchannel : done.world.channel = events.map .event := hchannel
  obtain ⟨more, hmore⟩ := run_channel hrest
  have hprogress := progress hrun
  have hsame : sys.world.channel.take sys.received = done.world.channel.take sys.received := by
    rw [← hmore, List.take_append_of_le_length hprogress.received]
  have hstart := hprogress.aggregator
  rw [hsame, hchannel, ← List.map_take] at hstart
  have hprefix := List.take_prefix sys.received events
  have hasc : Ascending (events.take sys.received) :=
    (hemitted.ascending hasc).sublist hprefix.sublist
  exact ⟨events, hemitted, hchannel, hprefix, (Aggregator.settled_new 0).start hasc hstart⟩

theorem settled_sent {P : Processor} {env : DbEnv} {ledgerEnv : LedgerEnv} {moves : List Move}
    {sys : System} (hrun : run P env ledgerEnv moves new = some sys) (hidle : sys.writing = none)
    (hdrained : sys.received = sys.world.channel.length)
    (hasc : (indexedBlocks moves).Pairwise (fun a b => a.header.height < b.header.height)) :
    ∃ events, sys.world.channel = events.map .event ∧
      P.Emitted (indexedBlocks moves) Store.empty sys.world.store events ∧
      Aggregator.Settled events sys.aggregator := by
  have hnothing : run P env ledgerEnv [] sys = some sys := rfl
  obtain ⟨events, hemitted, hchannel, _, hsettled⟩ :=
    settled_within hrun hnothing hidle (by rwa [List.append_nil])
  rw [List.append_nil] at hemitted
  rw [hdrained, hchannel, List.length_map, List.take_length] at hsettled
  exact ⟨events, hchannel, hemitted, hsettled⟩

theorem settled {P : Processor} {env : DbEnv} {ledgerEnv : LedgerEnv} {moves : List Move}
    {sys : System} (hrun : run P env ledgerEnv moves new = some sys) (hidle : sys.writing = none)
    (hdrained : sys.received = sys.world.channel.length)
    (hasc : (indexedBlocks moves).Pairwise (fun a b => a.header.height < b.header.height)) :
    ∃ events, P.Emitted (indexedBlocks moves) Store.empty sys.world.store events ∧
      Aggregator.Settled events sys.aggregator := by
  obtain ⟨events, _, hsettled⟩ := settled_sent hrun hidle hdrained hasc
  exact ⟨events, hsettled⟩

end System

end BtcIndexer
