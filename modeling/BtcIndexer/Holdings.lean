import BtcIndexer.Handoff
import BtcIndexer.Heights
import BtcIndexer.Histories
import BtcIndexer.Settlement

/-! What is held below a height, on both sides of the channel: the outputs that were created
below it and not spent below it, and the events below it, booked or withheld. Each message is an
entry of a history. A block posts its events and a fork cuts at its origin, whatever the order
in which it is replayed; the ledger posts what it handles and cuts where it is told to. -/
namespace BtcIndexer
open Stateful Outbox Rows Histories

/-- The message as a change in the history of an address. -/
def AggregatorMsg.toChange (a : Address) : AggregatorMsg → Change Nat Int
  | .event e => .post e.blockNumber (if e.address = a then e.amount else 0)
  | .reorg blockNumber => .cut blockNumber

def changes (a : Address) (msgs : List AggregatorMsg) : List (Change Nat Int) :=
  msgs.map (AggregatorMsg.toChange a)

@[simp] theorem changes_append (a : Address) (xs ys : List AggregatorMsg) :
    changes a (xs ++ ys) = changes a xs ++ changes a ys := List.map_append

theorem replay_events {blockNumber : Nat} {events : List BtcP2trEvent}
    (hsame : ∀ e ∈ events, e.blockNumber = blockNumber) (a : Address) (h : Nat → Int) :
    replay (changes a (events.map .event)) h =
      post blockNumber (Ledger.amountOf events a) h := by
  have hposts : changes a (events.map .event) = events.map fun e =>
      .post blockNumber (if e.address = a then e.amount else 0) := by
    rw [changes, List.map_map]
    apply List.map_congr_left
    intro e he
    rw [← hsame e he]
    rfl
  rw [hposts, replay_posts, Ledger.amountOf, total_filter]
  simp only [decide_eq_true_eq]
  rfl

/-- The row stands for an output that was there and unspent below the height. -/
def UtxoRow.heldBelow (bound : Nat) (u : UtxoRow) : Prop :=
  u.blockNumber < bound ∧ ∀ spent, u.spentBlock = some spent → bound ≤ spent

instance (bound : Nat) (u : UtxoRow) : Decidable (u.heldBelow bound) :=
  inferInstanceAs (Decidable (_ ∧ ∀ spent, u.spentBlock = some spent → bound ≤ spent))

def unspentBelow (rows : List UtxoRow) (a : Address) : Nat → Int := fun bound =>
  total (fun u => if u.heldBelow bound then u.amountFor a else 0) rows

theorem unspentBelow_append (xs ys : List UtxoRow) (a : Address) (bound : Nat) :
    unspentBelow (xs ++ ys) a bound = unspentBelow xs a bound + unspentBelow ys a bound :=
  total_append _ xs ys

/-- From some height on the history stands at what is unspent now. -/
theorem unspentBelow_of_high {rows : List UtxoRow} {bound : Nat}
    (hcreated : ∀ u ∈ rows, u.blockNumber < bound)
    (hspent : ∀ u ∈ rows, ∀ spent, u.spentBlock = some spent → spent < bound) (a : Address) :
    unspentBelow rows a bound = unspentOf rows a := by
  rw [unspentOf_eq]
  apply total_congr
  intro u hu
  have hheld : u.heldBelow bound ↔ u.spentBlock = none := by
    constructor
    · intro hheld
      cases hmark : u.spentBlock with
      | none => rfl
      | some spent =>
          have hlow := hspent u hu spent hmark
          have hhigh := hheld.2 spent hmark
          omega
    · intro hnone
      exact ⟨hcreated u hu, fun spent hmark => by rw [hnone] at hmark; cases hmark⟩
  simp only [hheld]

namespace Processor

variable {P : Processor} {block : BlockInfo} {s s' : Store}

/-- A block takes a row out of the history above its own height only. -/
theorem heldBelow_spendRow (block : BlockInfo) {u : UtxoRow} (a : Address) (bound : Nat)
    (hlow : u.outPoint ∈ block.outpoints → u.blockNumber ≤ block.header.height) :
    (if (block.spendRow u).heldBelow bound then (block.spendRow u).amountFor a else 0) =
      (if u.heldBelow bound then u.amountFor a else 0) +
        if block.header.height < bound then
          (if (block.spendRow u).spentBlock = none then (block.spendRow u).amountFor a else 0) -
            (if u.spentBlock = none then u.amountFor a else 0)
        else 0 := by
  by_cases hspends : u.spentBlock = none ∧ u.outPoint ∈ block.outpoints
  · obtain ⟨hnone, hnamed⟩ := hspends
    have hrow : block.spendRow u = { u with spentBlock := some block.header.height } := by
      rw [BlockInfo.spendRow, if_pos ⟨hnone, hnamed⟩]
    have hbefore : u.heldBelow bound ↔ u.blockNumber < bound := by
      simp [UtxoRow.heldBelow, hnone]
    have hafter : (block.spendRow u).heldBelow bound ↔
        u.blockNumber < bound ∧ bound ≤ block.header.height := by
      simp [UtxoRow.heldBelow, hrow]
    have hle := hlow hnamed
    have hamount : (block.spendRow u).amountFor a = u.amountFor a := by rw [hrow]; rfl
    have hmark : (block.spendRow u).spentBlock ≠ none := by rw [hrow]; simp
    simp only [hbefore, hafter, hamount, hmark, hnone, if_true, if_false]
    by_cases hb : block.header.height < bound
    · rw [if_neg (by omega), if_pos (by omega : u.blockNumber < bound), if_pos hb]
      omega
    · rw [if_neg hb, Int.add_zero]
      refine if_congr ?_ rfl rfl
      omega
  · have hrow : block.spendRow u = u := by rw [BlockInfo.spendRow, if_neg hspends]
    rw [hrow, Int.sub_self, ite_self, Int.add_zero]

/-- A block that spends nothing from above its height posts its events at its height. -/
theorem Indexed.unspentBelow (h : P.Indexed block s s') (order : Nat → ScanOrder (Address × Int))
    (hlow : ∀ u ∈ s.utxos, u.outPoint ∈ block.outpoints → u.blockNumber ≤ block.header.height)
    (a : Address) : unspentBelow s'.utxos a =
      post block.header.height (Ledger.amountOf (blockEvents P order block s) a)
        (BtcIndexer.unspentBelow s.utxos a) := by
  have hevents := h.unspentOf order a
  rw [h.utxos, unspentOf_append, unspentOf_eq, total_map, unspentOf_eq, unspentOf_eq] at hevents
  funext bound
  have hnew : BtcIndexer.unspentBelow (P.created block) a bound =
      if block.header.height < bound then
        total (fun u => if u.spentBlock = none then u.amountFor a else 0) (P.created block)
      else 0 := by
    split
    · next hb =>
        apply total_congr
        intro u hu
        obtain ⟨_, hnumber, hnone, _⟩ := mem_created hu
        have hheld : u.heldBelow bound := ⟨by omega, fun spent hmark => by
          rw [hnone] at hmark
          cases hmark⟩
        rw [if_pos hheld, if_pos hnone]
    · next hb =>
        apply total_eq_zero
        intro u hu
        have hnumber := (mem_created hu).2.1
        exact if_neg fun hheld => hb (hnumber ▸ hheld.1)
  have hold : BtcIndexer.unspentBelow (s.utxos.map block.spendRow) a bound =
      BtcIndexer.unspentBelow s.utxos a bound + if block.header.height < bound then
        total (fun u => if (block.spendRow u).spentBlock = none then
            (block.spendRow u).amountFor a else 0) s.utxos -
          total (fun u => if u.spentBlock = none then u.amountFor a else 0) s.utxos
      else 0 := by
    rw [BtcIndexer.unspentBelow, total_map, total_congr fun u hu =>
      heldBelow_spendRow block a bound (hlow u hu), total_add]
    congr 1
    split
    · rw [Int.sub_eq_add_neg, ← total_neg, ← total_add]
      rfl
    · exact total_eq_zero fun _ _ => rfl
  rw [h.utxos, unspentBelow_append, hnew, hold, post]
  split <;> omega

end Processor

namespace Store

theorem kept_iff {s : Store} (hagree : s.HeightsAgree) (number : Nat) {u : UtxoRow}
    (hu : u ∈ s.utxos) :
    u.txid ∈ (s.deleteBlocksSince number).transactions.map TransactionRow.txid ↔
      u.blockNumber < number := by
  obtain ⟨t, ht, hid, row, hrow, hhash, hnumber⟩ := hagree.created u hu
  constructor
  · intro hkept
    obtain ⟨t', ht', hid'⟩ := List.mem_map.mp hkept
    obtain ⟨hin, href⟩ := List.mem_filter.mp ht'
    cases s.txidKey.eq_of_key hin ht (hid'.trans hid.symm)
    obtain ⟨row', hrow', hhash'⟩ := List.mem_map.mp (of_decide_eq_true href)
    obtain ⟨hstored, hlow⟩ := List.mem_filter.mp hrow'
    cases s.hashKey.eq_of_key hstored hrow (hhash'.trans hhash.symm)
    exact hnumber ▸ of_decide_eq_true hlow
  · intro hlow
    refine List.mem_map.mpr ⟨t, List.mem_filter.mpr ⟨ht, decide_eq_true ?_⟩, hid⟩
    rw [← hhash]
    exact List.mem_map_of_mem (List.mem_filter.mpr ⟨hrow, decide_eq_true (hnumber ▸ hlow)⟩)

theorem rewind_utxos (s : Store) (number : Nat) : (s.rewind number).utxos =
    (s.utxos.filter fun u =>
      decide (u.txid ∈ (s.deleteBlocksSince number).transactions.map TransactionRow.txid)).map
        fun u => { u with spentBlock := clearSince number u.spentBlock } := rfl

/-- Going back to a height cuts the history there. -/
theorem unspentBelow_rewind {s : Store} (hagree : s.HeightsAgree) (number : Nat) (a : Address) :
    unspentBelow (s.rewind number).utxos a = cut number (unspentBelow s.utxos a) := by
  funext bound
  rw [unspentBelow, rewind_utxos, total_map, total_filter, cut, unspentBelow]
  apply total_congr
  intro u hu
  have hkept := kept_iff hagree number hu
  by_cases hlow : u.blockNumber < number
  · have hheld : ({ u with spentBlock := clearSince number u.spentBlock } : UtxoRow).heldBelow
        bound ↔ u.heldBelow (min bound number) := by
      simp only [UtxoRow.heldBelow, clearSince, Option.filter_eq_some_iff, decide_eq_true_eq,
        lt_min_iff, hlow, and_true, min_le_iff]
      refine and_congr_right fun _ => forall_congr' fun spent => ?_
      constructor
      · intro hkept hmark
        by_cases hspent : spent < number
        · exact .inl (hkept ⟨hmark, hspent⟩)
        · exact .inr (Nat.le_of_not_lt hspent)
      · rintro hmark ⟨hspent, hlt⟩
        rcases hmark hspent with hle | hle
        · exact hle
        · exact absurd hlt (Nat.not_lt.mpr hle)
    rw [if_pos (decide_eq_true (hkept.mpr hlow))]
    exact if_congr hheld rfl rfl
  · have hgone := fun hin => hlow (hkept.mp (of_decide_eq_true hin))
    have hnever : ¬ u.heldBelow (min bound number) := fun hheld =>
      hlow (lt_min_iff.mp hheld.1).2
    rw [if_neg hgone, if_neg hnever]

end Store

/-- The height from which the aggregator is told to go back. -/
def Job.origin : Job → Option Nat
  | .first _ | .next _ => none
  | .fork blocks => blocks.getLast?.map fun origin => origin.header.height

/-- No block spends a row that was created above its own height. -/
def Grounded (blocks : List BlockInfo) (rows : List UtxoRow) : Prop :=
  ∀ b ∈ blocks, ∀ u ∈ rows, u.outPoint ∈ b.outpoints → u.blockNumber ≤ b.header.height

instance (blocks : List BlockInfo) (rows : List UtxoRow) : Decidable (Grounded blocks rows) :=
  inferInstanceAs (Decidable (∀ b ∈ blocks, ∀ u ∈ rows, u.outPoint ∈ b.outpoints → _))

/-- Neither the rows that a call starts from nor those it creates are spent below their height. -/
def Job.Grounded (P : Processor) (job : Job) (s : Store) : Prop :=
  BtcIndexer.Grounded job.blocks ((job.base s).utxos ++ job.blocks.flatMap P.created)

instance (P : Processor) (job : Job) (s : Store) : Decidable (job.Grounded P s) :=
  inferInstanceAs (Decidable (BtcIndexer.Grounded _ _))

namespace Processor

variable {P : Processor}

theorem spendRow_blockNumber (block : BlockInfo) (u : UtxoRow) :
    (block.spendRow u).blockNumber = u.blockNumber := by
  unfold BlockInfo.spendRow
  split <;> rfl

theorem Emitted.unspentBelow {blocks : List BlockInfo} {s s' : Store}
    {events : List BtcP2trEvent} (h : P.Emitted blocks s s' events)
    (hgrounded : Grounded blocks (s.utxos ++ blocks.flatMap P.created)) (a : Address) :
    unspentBelow s'.utxos a =
      replay (changes a (events.map .event)) (BtcIndexer.unspentBelow s.utxos a) := by
  induction h with
  | nil s => rfl
  | @cons block rest s s₁ s' events order first later ih =>
      obtain ⟨hown, hrest⟩ := List.forall_mem_cons.mp hgrounded
      have hlater : Grounded rest (s₁.utxos ++ rest.flatMap P.created) := by
        intro b hb u hu hnamed
        rw [first.utxos, List.append_assoc, List.mem_append] at hu
        rcases hu with hold | hnew
        · obtain ⟨old, hin, rfl⟩ := List.mem_map.mp hold
          rw [BlockInfo.spendRow_outPoint] at hnamed
          rw [spendRow_blockNumber]
          exact hrest b hb old (List.mem_append_left _ hin) hnamed
        · exact hrest b hb u (List.mem_append_right _ (by rwa [List.flatMap_cons])) hnamed
      rw [ih hlater, List.map_append, changes_append, replay_append,
        replay_events (fun e he => blockNumber_of_mem he),
        first.unspentBelow order fun u hu => hown u (List.mem_append_left _ hu)]

theorem blocksOps_emitted {order : Nat → Nat → ScanOrder (Address × Int)} {i : Nat}
    {blocks : List BlockInfo} {s s' : Store} (h : apply (blocksOps P order i blocks s) s = .ok s') :
    ∃ events, P.Emitted blocks s s' events ∧
      messages (blocksOps P order i blocks s) = events.map .event := by
  induction blocks generalizing i s with
  | nil =>
      cases h
      exact ⟨[], .nil _, rfl⟩
  | cons block rest ih =>
      obtain ⟨s₁, hfirst, hrest⟩ := apply_append_ok h
      rw [hfirst] at hrest
      obtain ⟨events, hlater, hmessages⟩ := ih hrest
      refine ⟨_, .cons (order i) (blockOps_ok hfirst) hlater, ?_⟩
      rw [blocksOps, hfirst, messages_append, messages_blockOps hfirst, hmessages,
        List.map_append]

/-- What the script of a call leaves and sends: the blocks indexed on its base and their events,
after the height of the origin if the call replays a fork. -/
theorem jobOps_ok {job : Job} {env : DbEnv} {w : World Store AggregatorMsg} {s' : Store}
    (h : apply (job.ops P env w) w.store = .ok s') :
    ∃ events, P.Emitted job.blocks (job.base w.store) s' events ∧
      messages (job.ops P env w) =
        (job.origin.map AggregatorMsg.reorg).toList ++ events.map .event := by
  have hblock : ∀ block, apply (P.blockOps (env.hashOrder w.clock 0) block w.store) w.store =
      .ok s' → ∃ events, P.Emitted [block] w.store s' events ∧
        messages (P.blockOps (env.hashOrder w.clock 0) block w.store) =
          [] ++ events.map .event := by
    intro block hrun
    refine ⟨_, .cons (env.hashOrder w.clock 0) (blockOps_ok hrun) (.nil _), ?_⟩
    rw [messages_blockOps hrun, List.append_nil, List.nil_append]
  cases job with
  | first block => exact hblock block h
  | next block => exact hblock block h
  | fork blocks =>
      cases hlast : blocks.getLast? with
      | none =>
          simp only [Job.ops, forkOps, hlast] at h
          cases h
      | some origin =>
          have hrun := h
          rw [Job.ops, forkOps_apply (env.hashOrder w.clock) hlast rfl] at hrun
          obtain ⟨events, hemitted, hmessages⟩ := blocksOps_emitted hrun
          refine ⟨events, ?_, ?_⟩
          · rw [Job.base_fork hlast]
            exact hemitted
          · simp only [Job.ops, forkOps, hlast, messages_sql, messages_send, hmessages, Job.origin,
              Option.map_some, Option.toList_some, List.singleton_append]

theorem jobOps_unspentBelow {job : Job} {env : DbEnv} {w : World Store AggregatorMsg} {s' : Store}
    (h : apply (job.ops P env w) w.store = .ok s') (hgrounded : job.Grounded P w.store)
    (hagree : w.store.HeightsAgree) (a : Address) :
    unspentBelow s'.utxos a = replay (changes a (messages (job.ops P env w)))
      (BtcIndexer.unspentBelow w.store.utxos a) := by
  obtain ⟨events, hemitted, hmessages⟩ := jobOps_ok h
  rw [hemitted.unspentBelow hgrounded a, hmessages, changes_append, replay_append]
  congr 1
  cases job with
  | first block => rfl
  | next block => rfl
  | fork blocks =>
      cases hlast : blocks.getLast? with
      | none => simp only [Job.base, Job.origin, hlast]; rfl
      | some origin =>
          rw [Job.base_fork hlast, Store.unspentBelow_rewind hagree]
          simp only [Job.origin, hlast]
          rfl

end Processor

namespace Ledger

def heldBelow (l : Ledger) (a : Address) : Nat → Int := fun bound =>
  booked (l.eventsBelow bound) a +
    amountOf (l.pending.filter fun e => decide (e.blockNumber < bound)) a

theorem heldBelow_of_high {l : Ledger} {bound : Nat} (hbalanced : Aggregator.Balanced l)
    (hevents : ∀ e ∈ l.events, e.blockNumber < bound)
    (hpending : ∀ e ∈ l.pending, e.blockNumber < bound) (a : Address) :
    l.heldBelow a bound = l.balance a + amountOf l.pending a := by
  have hall : l.eventsBelow bound = l.events :=
    List.filter_eq_self.mpr fun e he => decide_eq_true (hevents e he)
  rw [heldBelow, hall, hbalanced a,
    List.filter_eq_self.mpr fun e he => decide_eq_true (hpending e he)]

end Ledger

namespace Aggregator

theorem amountOf_below (event : BtcP2trEvent) (bound : Nat) (a : Address) :
    Ledger.amountOf ([event].filter fun e => decide (e.blockNumber < bound)) a =
      if event.blockNumber < bound then (if event.address = a then event.amount else 0) else 0 := by
  by_cases hb : event.blockNumber < bound
  · rw [List.filter_cons_of_pos (by simpa using hb), if_pos hb, List.filter_nil,
      Ledger.amountOf_cons, Ledger.amountOf_nil, Int.add_zero]
  · rw [List.filter_cons_of_neg (by simpa using hb), if_neg hb]
    rfl

theorem booked_below (events : List BtcP2trEvent) (bound : Nat) (a : Address) :
    Ledger.booked ((events.map BtcP2trEvent.toRow).filter fun e =>
        decide (e.blockNumber < bound)) a =
      Ledger.amountOf (events.filter fun e => decide (e.blockNumber < bound)) a := by
  rw [List.filter_map, Ledger.booked_toRow]
  rfl

theorem Recorded.heldBelow {event : BtcP2trEvent} {l l' : Ledger} (h : Recorded event l l')
    (a : Address) : l'.heldBelow a =
      post event.blockNumber (if event.address = a then event.amount else 0) (l.heldBelow a) := by
  funext bound
  unfold Ledger.heldBelow Ledger.eventsBelow
  rw [h.events, h.pending, List.filter_append, List.filter_append, Ledger.booked_append,
    Ledger.amountOf_append, post]
  have hone := amountOf_below event bound a
  cases event.isCoinbase with
  | true =>
      simp only [if_true, List.filter_nil, hone]
      change _ + 0 + _ = _
      omega
  | false =>
      have hbooked := booked_below [event] bound a
      simp only [List.map_cons, List.map_nil] at hbooked
      simp only [Bool.false_eq_true, if_false, List.filter_nil, Ledger.amountOf_nil, hbooked, hone]
      omega

theorem Swept.heldBelow {n : Nat} {l l' : Ledger} (h : Swept n l l') (a : Address) :
    l'.heldBelow a = l.heldBelow a := by
  obtain ⟨es, hperm, hevents⟩ := h.events
  funext bound
  unfold Ledger.heldBelow Ledger.eventsBelow
  rw [hevents, h.pending, List.filter_append, Ledger.booked_append, booked_below,
    Ledger.amountOf_perm (hperm.filter _), Ledger.amountOf_perm ((l.pending_split n).filter _),
    List.filter_append, Ledger.amountOf_append]
  omega

theorem Handled.heldBelow {event : BtcP2trEvent} {agg agg' : Aggregator}
    (h : Handled event agg agg') (a : Address) : agg'.ledger.heldBelow a =
      post event.blockNumber (if event.address = a then event.amount else 0)
        (agg.ledger.heldBelow a) := by
  obtain ⟨l, hrecorded, hcases⟩ := h.tables
  rw [← hrecorded.heldBelow a]
  rcases hcases with ⟨_, rfl⟩ | ⟨_, hswept⟩
  · rfl
  · exact hswept.heldBelow a

theorem booked_below_split (rows : List P2trEventRow) (bound number : Nat) (a : Address) :
    Ledger.booked (rows.filter fun e => decide (e.blockNumber < bound)) a =
      Ledger.booked (rows.filter fun e => decide (e.blockNumber < min bound number)) a +
        Ledger.booked ((rows.filter fun e => decide (number ≤ e.blockNumber)).filter fun e =>
          decide (e.blockNumber < bound)) a := by
  have hsplit := List.filter_append_perm (fun e : P2trEventRow => decide (e.blockNumber < number))
    (rows.filter fun e => decide (e.blockNumber < bound))
  rw [← Ledger.booked_perm hsplit a, Ledger.booked_append, List.filter_filter, List.filter_filter,
    List.filter_filter]
  congr 2
  · apply List.filter_congr
    intro e _
    rw [← Bool.decide_and]
    exact decide_eq_decide.mpr (lt_min_iff.trans and_comm).symm
  · apply List.filter_congr
    intro e _
    rw [← decide_not, ← Bool.decide_and, ← Bool.decide_and]
    refine decide_eq_decide.mpr ?_
    omega

/-- A reorganisation cuts the history if the withheld events are those it is to drop. -/
theorem Reorged.heldBelow {env : LedgerEnv} {blockNumber : Nat} {agg agg' : Aggregator}
    (h : Reorged env blockNumber agg agg')
    (hpending : ∀ e ∈ agg.ledger.pending,
      blockNumber ≤ e.blockNumber ∧ e.blockNumber ≤ lastReturned env blockNumber agg)
    (a : Address) : agg'.ledger.heldBelow a = cut blockNumber (agg.ledger.heldBelow a) := by
  have hdropped : agg'.ledger.pending = [] := by
    rw [h.pending, h.last_eq.1]
    apply List.filter_eq_nil_iff.mpr
    intro e he hlater
    exact absurd (of_decide_eq_true hlater) (Nat.not_lt.mpr (hpending e he).2)
  funext bound
  have hnone : agg.ledger.pending.filter
      (fun e => decide (e.blockNumber < min bound blockNumber)) = [] := by
    apply List.filter_eq_nil_iff.mpr
    intro e he hlow
    have hlow := lt_min_iff.mp (of_decide_eq_true hlow)
    exact absurd hlow.2 (Nat.not_lt.mpr (hpending e he).1)
  have hinverse : Ledger.booked (((sinceRows env blockNumber agg).map
      (fun r => r.toEvent.reorg.toRow)).filter fun e => decide (e.blockNumber < bound)) a =
        -Ledger.booked ((agg.ledger.p2trEventsSinceBlock blockNumber).filter fun e =>
          decide (e.blockNumber < bound)) a := by
    have hrows := (sinceRows_perm env blockNumber agg).filter
      fun e => decide (e.blockNumber < bound)
    rw [← Ledger.booked_perm hrows a, ← Ledger.amountOf_reorg, ← Ledger.booked_toRow,
      List.map_map, List.filter_map]
    rfl
  have hsplit := booked_below_split agg.ledger.events bound blockNumber a
  unfold Ledger.heldBelow Ledger.eventsBelow
  rw [h.events, hdropped, List.filter_append, Ledger.booked_append, hinverse, hsplit, cut, hnone]
  change _ + _ + -Ledger.booked (List.filter _ (List.filter _ _)) a + 0 = _ + 0
  omega

/-- A handler that returns does to the history of an address what its message says. -/
theorem handle_heldBelow {env : LedgerEnv} {msg : AggregatorMsg} {agg agg' : Aggregator}
    (h : handle env msg agg = .ok () agg')
    (hpending : ∀ blockNumber, msg = .reorg blockNumber → ∀ e ∈ agg.ledger.pending,
      blockNumber ≤ e.blockNumber ∧ e.blockNumber ≤ lastReturned env blockNumber agg)
    (a : Address) : agg'.ledger.heldBelow a = (msg.toChange a).apply (agg.ledger.heldBelow a) := by
  cases msg with
  | event event => exact (handleEvent_ok h).heldBelow a
  | reorg blockNumber => exact (handleReorg_ok h).heldBelow (hpending blockNumber rfl) a

end Aggregator

end BtcIndexer
