import BtcIndexer.ProcessorScript

/-! What a block does to the tables. The nested loops of `process_block` over the shrinking
map of candidates amount to one pass over the utxo table, which marks the rows that were
unspent before the block and are named by its inputs, followed by the rows it creates. -/
namespace BtcIndexer
open Stateful Outbox Rows

namespace Processor

/-- The owner of an output that the service keeps track of. -/
def owner (P : Processor) (txout : TxOut) : Option Address :=
  if P.isP2tr txout.scriptPubkey then P.fromScript txout.scriptPubkey else none

def createdFrom (P : Processor) (blockNum : Nat) (txid : Txid) (idx : Nat)
    (outs : List TxOut) : List UtxoRow :=
  (outs.zipIdx idx).filterMap
    (fun o => (P.owner o.1).map (fun address => utxoRow blockNum txid o.2 address o.1))

def createdBy (P : Processor) (blockNum : Nat) (tx : Transaction) : List UtxoRow :=
  P.createdFrom blockNum tx.txid 0 tx.output

/-- The rows a block creates, all of them unspent. -/
def created (P : Processor) (block : BlockInfo) : List UtxoRow :=
  block.txdata.flatMap (P.createdBy block.header.height)

theorem createdFrom_cons (P : Processor) (blockNum : Nat) (txid : Txid) (idx : Nat)
    (out : TxOut) (outs : List TxOut) :
    P.createdFrom blockNum txid idx (out :: outs) =
      ((P.owner out).map (fun address => utxoRow blockNum txid idx address out)).toList ++
        P.createdFrom blockNum txid (idx + 1) outs := by
  unfold createdFrom
  rw [List.zipIdx_cons]
  cases h : P.owner out with
  | none => simp [h]
  | some address => simp [h]

theorem mem_createdFrom {P : Processor} {blockNum idx : Nat} {txid : Txid} {outs : List TxOut}
    {u : UtxoRow} (h : u ∈ P.createdFrom blockNum txid idx outs) :
    u.txid = txid ∧ u.blockNumber = blockNum ∧ u.spentBlock = none ∧ idx ≤ u.vout ∧
      0 ≤ u.amount := by
  obtain ⟨⟨out, i⟩, hi, hu⟩ := List.mem_filterMap.mp h
  obtain ⟨address, _, rfl⟩ := Option.map_eq_some_iff.mp hu
  have hle : idx ≤ i := (List.mem_zipIdx hi).1
  exact ⟨rfl, rfl, rfl, hle, Int.natCast_nonneg _⟩

theorem mem_created {P : Processor} {block : BlockInfo} {u : UtxoRow} (h : u ∈ P.created block) :
    u.txid ∈ block.txdata.map Transaction.txid ∧ u.blockNumber = block.header.height ∧
      u.spentBlock = none ∧ 0 ≤ u.amount := by
  obtain ⟨tx, htx, hu⟩ := List.mem_flatMap.mp h
  obtain ⟨ht, hb, hs, _, ha⟩ := mem_createdFrom hu
  exact ⟨ht ▸ List.mem_map_of_mem htx, hb, hs, ha⟩

end Processor

/-- The mark a run of inputs leaves: rows that are candidates and named by an input. -/
def settle (blockNum : Nat) (relevant : RelevantUtxos) (outpoints : List OutPoint)
    (u : UtxoRow) : UtxoRow :=
  if u.outPoint ∈ relevant.map BtcUtxoInfo.getOutPoint ∧ u.outPoint ∈ outpoints then
    { u with spentBlock := some blockNum }
  else u

@[simp] theorem settle_outPoint (blockNum : Nat) (relevant : RelevantUtxos)
    (outpoints : List OutPoint) (u : UtxoRow) :
    (settle blockNum relevant outpoints u).outPoint = u.outPoint := by
  unfold settle
  split <;> rfl

theorem settle_of_notMem {blockNum : Nat} {relevant : RelevantUtxos} {outpoints : List OutPoint}
    {u : UtxoRow} (h : u.outPoint ∉ relevant.map BtcUtxoInfo.getOutPoint) :
    settle blockNum relevant outpoints u = u := by
  unfold settle
  rw [if_neg fun hc => h hc.1]

@[simp] theorem settle_nil (blockNum : Nat) (relevant : RelevantUtxos) (u : UtxoRow) :
    settle blockNum relevant [] u = u := by
  simp [settle]

theorem settle_nil_map (blockNum : Nat) (relevant : RelevantUtxos) (rows : List UtxoRow) :
    rows.map (settle blockNum relevant []) = rows :=
  List.map_id'' (settle_nil blockNum relevant) rows

theorem RelevantUtxos.get_some {relevant : RelevantUtxos} {o : OutPoint} {info : BtcUtxoInfo}
    (h : relevant.get o = some info) : info ∈ relevant ∧ info.getOutPoint = o :=
  find?_key_some h

theorem RelevantUtxos.get_none {relevant : RelevantUtxos} {o : OutPoint}
    (h : relevant.get o = none) : o ∉ relevant.map BtcUtxoInfo.getOutPoint :=
  find?_key_none.mp h

theorem RelevantUtxos.mem_keys_remove {relevant : RelevantUtxos} {o p : OutPoint} :
    p ∈ (relevant.remove o).map BtcUtxoInfo.getOutPoint ↔
      p ∈ relevant.map BtcUtxoInfo.getOutPoint ∧ p ≠ o := by
  simp only [RelevantUtxos.remove, List.mem_map, List.mem_filter, decide_eq_true_eq]
  constructor
  · rintro ⟨info, ⟨hin, hne⟩, rfl⟩
    exact ⟨⟨info, hin, rfl⟩, hne⟩
  · rintro ⟨⟨info, hin, rfl⟩, hne⟩
    exact ⟨info, ⟨hin, hne⟩, rfl⟩

theorem settle_markSpent {blockNum : Nat} {relevant : RelevantUtxos} {o : OutPoint}
    {outpoints : List OutPoint} (ho : o ∈ relevant.map BtcUtxoInfo.getOutPoint) (u : UtxoRow) :
    settle blockNum (relevant.remove o) outpoints (Store.markSpent o blockNum u) =
      settle blockNum relevant (o :: outpoints) u := by
  by_cases hu : u.outPoint = o
  · have hm : Store.markSpent o blockNum u = { u with spentBlock := some blockNum } := by
      rw [Store.markSpent, if_pos hu]
    have hout : ({ u with spentBlock := some blockNum } : UtxoRow).outPoint = o := hu
    rw [hm, settle_of_notMem (by rw [hout, RelevantUtxos.mem_keys_remove]; simp), settle,
      if_pos ⟨hu ▸ ho, by simp [hu]⟩]
  · rw [Store.markSpent, if_neg hu]
    unfold settle
    simp only [RelevantUtxos.mem_keys_remove, List.mem_cons, hu, false_or, ne_eq,
      not_false_eq_true, and_true]

theorem settle_skip {blockNum : Nat} {relevant : RelevantUtxos} {o : OutPoint}
    {outpoints : List OutPoint} (ho : o ∉ relevant.map BtcUtxoInfo.getOutPoint) (u : UtxoRow) :
    settle blockNum relevant outpoints u = settle blockNum relevant (o :: outpoints) u := by
  by_cases hu : u.outPoint = o
  · rw [settle_of_notMem (hu ▸ ho), settle_of_notMem (hu ▸ ho)]
  · unfold settle
    simp only [List.mem_cons, hu, false_or]

namespace Processor

theorem debit_fst (ins : List TxIn) (relevant : RelevantUtxos) (updates : BalanceUpdates) :
    (debit ins relevant updates).1 =
      relevant.filter (fun info => info.getOutPoint ∉ ins.map TxIn.previousOutput) := by
  induction ins generalizing relevant updates with
  | nil => simp [debit]
  | cons txin rest ih =>
      cases hget : relevant.get txin.previousOutput with
      | none =>
          simp only [debit, hget, ih]
          apply List.filter_congr
          intro info hinfo
          have hne : info.getOutPoint ≠ txin.previousOutput := fun he =>
            RelevantUtxos.get_none hget (he ▸ List.mem_map_of_mem hinfo)
          simp [hne]
      | some utxo =>
          simp only [debit, hget, ih, RelevantUtxos.remove, List.filter_filter]
          apply List.filter_congr
          intro info _
          simp only [List.map_cons, List.mem_cons, not_or, ne_eq, Bool.decide_and]
          rw [Bool.and_comm]

theorem mem_keys_debit {ins : List TxIn} {relevant : RelevantUtxos} {updates : BalanceUpdates}
    {o : OutPoint} : o ∈ (debit ins relevant updates).1.map BtcUtxoInfo.getOutPoint ↔
      o ∈ relevant.map BtcUtxoInfo.getOutPoint ∧ o ∉ ins.map TxIn.previousOutput := by
  rw [debit_fst]
  constructor
  · intro h
    obtain ⟨info, hinfo, rfl⟩ := List.mem_map.mp h
    obtain ⟨hin, hno⟩ := List.mem_filter.mp hinfo
    exact ⟨List.mem_map_of_mem hin, of_decide_eq_true hno⟩
  · rintro ⟨h, hno⟩
    obtain ⟨info, hin, rfl⟩ := List.mem_map.mp h
    exact List.mem_map_of_mem (List.mem_filter.mpr ⟨hin, decide_eq_true hno⟩)

theorem settle_debit {blockNum : Nat} {ins : List TxIn} {relevant : RelevantUtxos}
    {updates : BalanceUpdates} {outpoints : List OutPoint} (u : UtxoRow) :
    settle blockNum (debit ins relevant updates).1 outpoints
        (settle blockNum relevant (ins.map TxIn.previousOutput) u) =
      settle blockNum relevant (ins.map TxIn.previousOutput ++ outpoints) u := by
  have hkey := settle_outPoint blockNum relevant (ins.map TxIn.previousOutput) u
  by_cases hin : u.outPoint ∈ ins.map TxIn.previousOutput
  · rw [settle_of_notMem (by rw [hkey, mem_keys_debit]; exact fun h => h.2 hin)]
    unfold settle
    simp only [hin, List.mem_append, true_or, and_true]
  · have hskip : settle blockNum relevant (ins.map TxIn.previousOutput) u = u := by
      rw [settle, if_neg fun h => hin h.2]
    rw [hskip]
    unfold settle
    simp only [mem_keys_debit, hin, List.mem_append, false_or, not_false_eq_true, and_true]

theorem spendOps_ok {blockNum : Nat} {ins : List TxIn} {relevant : RelevantUtxos}
    {s s' : Store} (h : apply (spendOps blockNum ins relevant) s = .ok s') :
    s'.blocks = s.blocks ∧ s'.transactions = s.transactions ∧
      s'.utxos = s.utxos.map (settle blockNum relevant (ins.map TxIn.previousOutput)) := by
  induction ins generalizing relevant s with
  | nil =>
      cases h
      exact ⟨rfl, rfl, (settle_nil_map blockNum relevant _).symm⟩
  | cons txin rest ih =>
      cases hget : relevant.get txin.previousOutput with
      | none =>
          simp only [spendOps, hget] at h
          obtain ⟨hb, ht, hu⟩ := ih h
          refine ⟨hb, ht, hu.trans (List.map_congr_left fun u _ => ?_)⟩
          exact settle_skip (RelevantUtxos.get_none hget) u
      | some utxo =>
          simp only [spendOps, hget] at h
          obtain ⟨hmem, hkey⟩ := RelevantUtxos.get_some hget
          obtain ⟨mid, hop, hrest⟩ := apply_cons_ok.mp h
          obtain ⟨hb₁, ht₁, hu₁⟩ := Store.spendUtxo_ok (refused_eq_ok.mp hop)
          obtain ⟨hb, ht, hu⟩ := ih hrest
          refine ⟨hb.trans hb₁, ht.trans ht₁, ?_⟩
          rw [hu, hu₁, List.map_map]
          apply List.map_congr_left
          intro u _
          have ho : (⟨utxo.txid, utxo.vout⟩ : OutPoint) = txin.previousOutput := hkey
          simp only [Function.comp_apply, List.map_cons, ho]
          exact settle_markSpent (hkey ▸ List.mem_map_of_mem hmem) u

theorem createOps_ok {P : Processor} {blockNum : Nat} {txid : Txid} {idx : Nat}
    {outs : List TxOut} {s s' : Store}
    (h : apply (createOps P blockNum txid idx outs) s = .ok s') :
    s'.blocks = s.blocks ∧ s'.transactions = s.transactions ∧
      s'.utxos = s.utxos ++ P.createdFrom blockNum txid idx outs ∧
        ∀ out ∈ outs, P.isP2tr out.scriptPubkey = true → (P.owner out).isSome := by
  induction outs generalizing idx s with
  | nil =>
      cases h
      exact ⟨rfl, rfl, by simp [createdFrom], by simp⟩
  | cons txout rest ih =>
      rw [createdFrom_cons]
      cases hp : P.isP2tr txout.scriptPubkey with
      | false =>
          simp only [createOps, hp, Bool.false_eq_true, if_false] at h
          obtain ⟨hb, ht, hu, ho⟩ := ih h
          have hnone : P.owner txout = none := by simp [owner, hp]
          refine ⟨hb, ht, by simpa [hnone] using hu, ?_⟩
          intro out hout hp'
          rcases List.mem_cons.mp hout with rfl | hout
          · rw [hp] at hp'; cases hp'
          · exact ho out hout hp'
      | true =>
          cases hs : P.fromScript txout.scriptPubkey with
          | none =>
              simp only [createOps, hp, hs, if_true] at h
              cases h
          | some address =>
              simp only [createOps, hp, hs, if_true] at h
              obtain ⟨mid, hop, hrest⟩ := apply_cons_ok.mp h
              obtain ⟨_, hb₁, ht₁, hu₁⟩ := Store.createUtxo_ok (refused_eq_ok.mp hop)
              obtain ⟨hb, ht, hu, ho⟩ := ih hrest
              have howner : P.owner txout = some address := by simp [owner, hp, hs]
              refine ⟨hb.trans hb₁, ht.trans ht₁, by simpa [howner, hu₁] using hu, ?_⟩
              intro out hout hp'
              rcases List.mem_cons.mp hout with rfl | hout
              · rw [howner]; rfl
              · exact ho out hout hp'

theorem sendOps_apply (blockNum : Nat) (tx : Transaction) (pairs : List (Address × Int))
    (s : Store) : apply (sendOps blockNum tx pairs) s = .ok s := by
  induction pairs with
  | nil => rfl
  | cons pair rest ih =>
      obtain ⟨address, value⟩ := pair
      by_cases hv : value = 0
      · simp only [sendOps, hv, if_true, ih]
      · simp only [sendOps, hv, if_false, apply, Op.apply, ih]

/-- The second pass over the transactions of a block, as one pass over the table. -/
theorem txsOps_ok {P : Processor} {order : Nat → ScanOrder (Address × Int)} {blockNum i : Nat}
    {txs : List Transaction} {relevant : RelevantUtxos} {s s' : Store}
    (hrel : ∀ o ∈ relevant.map BtcUtxoInfo.getOutPoint, o ∈ s.utxos.map UtxoRow.outPoint)
    (h : apply (txsOps P order blockNum i txs relevant) s = .ok s') :
    s'.blocks = s.blocks ∧ s'.transactions = s.transactions ∧
      s'.utxos = s.utxos.map (settle blockNum relevant
          (txs.flatMap (fun tx => tx.input.map TxIn.previousOutput))) ++
        txs.flatMap (P.createdBy blockNum) ∧
      ∀ tx ∈ txs, ∀ out ∈ tx.output, P.isP2tr out.scriptPubkey = true → (P.owner out).isSome := by
  induction txs generalizing i relevant s with
  | nil =>
      cases h
      refine ⟨rfl, rfl, ?_, by simp⟩
      simp only [List.flatMap_nil, settle_nil_map, List.append_nil]
  | cons tx rest ih =>
      obtain ⟨s₁, h₁, h⟩ := apply_append_ok h
      obtain ⟨s₂, h₂, h⟩ := apply_append_ok h
      rw [apply_append, sendOps_apply] at h
      obtain ⟨hb₁, ht₁, hu₁⟩ := spendOps_ok h₁
      obtain ⟨hb₂, ht₂, hu₂, ho₂⟩ := createOps_ok h₂
      have hkeys : s₁.utxos.map UtxoRow.outPoint = s.utxos.map UtxoRow.outPoint := by
        simp only [hu₁, List.map_map, Function.comp_def, settle_outPoint]
      have hrel' : ∀ o ∈ (debit tx.input relevant ∅).1.map BtcUtxoInfo.getOutPoint,
          o ∈ s₁.utxos.map UtxoRow.outPoint := by
        intro o hmem
        rw [hkeys]
        exact hrel o (mem_keys_debit.mp hmem).1
      obtain ⟨hb, ht, hu, ho⟩ := ih (fun o hmem => by
        rw [hu₂, List.map_append]
        exact List.mem_append_left _ (hrel' o hmem)) h
      -- rows created by this transaction are no candidates of the later ones
      have hnew : (P.createdFrom blockNum tx.txid 0 tx.output).map
          (settle blockNum (debit tx.input relevant ∅).1
            (rest.flatMap (fun tx => tx.input.map TxIn.previousOutput))) =
          P.createdFrom blockNum tx.txid 0 tx.output := by
        conv_rhs => rw [← List.map_id (P.createdFrom blockNum tx.txid 0 tx.output)]
        apply List.map_congr_left
        intro u hnew
        apply settle_of_notMem
        intro hmem
        obtain ⟨old, hold, hsame⟩ := List.mem_map.mp (hrel' _ hmem)
        exact (hu₂ ▸ s₂.outPointKey).ne_of_append hold hnew hsame
      refine ⟨hb.trans (hb₂.trans hb₁), ht.trans (ht₂.trans ht₁), ?_, ?_⟩
      · rw [hu, hu₂, hu₁, List.map_append, hnew, List.map_map, List.flatMap_cons,
          List.flatMap_cons, List.append_assoc]
        congr 1
        exact List.map_congr_left fun u _ => settle_debit u
      · intro t ht out hout hp
        rcases List.mem_cons.mp ht with rfl | ht
        · exact ho₂ out hout hp
        · exact ho t ht out hout hp

theorem spendOps_total (blockNum : Nat) (ins : List TxIn) {relevant : RelevantUtxos} {s : Store}
    (hrel : ∀ o ∈ relevant.map BtcUtxoInfo.getOutPoint, o ∈ s.utxos.map UtxoRow.outPoint) :
    ∃ s', apply (spendOps blockNum ins relevant) s = .ok s' := by
  induction ins generalizing relevant s with
  | nil => exact ⟨s, rfl⟩
  | cons txin rest ih =>
      cases hget : relevant.get txin.previousOutput with
      | none =>
          simp only [spendOps, hget]
          exact ih hrel
      | some utxo =>
          obtain ⟨hmem, _⟩ := RelevantUtxos.get_some hget
          have hin := hrel _ (List.mem_map_of_mem hmem)
          obtain ⟨mid, hmid⟩ := Store.spendUtxo_of_mem blockNum hin
          have hkeys : mid.utxos.map UtxoRow.outPoint = s.utxos.map UtxoRow.outPoint := by
            rw [(Store.spendUtxo_ok hmid).2.2, List.map_map]
            apply List.map_congr_left
            intro u _
            simp only [Function.comp_apply, Store.markSpent]
            split <;> rfl
          have hrel' : ∀ o ∈ (relevant.remove txin.previousOutput).map BtcUtxoInfo.getOutPoint,
              o ∈ mid.utxos.map UtxoRow.outPoint := fun o ho =>
            hkeys ▸ hrel o (RelevantUtxos.mem_keys_remove.mp ho).1
          obtain ⟨s', hs'⟩ := ih hrel'
          simp only [spendOps, hget]
          exact ⟨s', apply_cons_ok.mpr ⟨mid, refused_eq_ok.mpr hmid, hs'⟩⟩

theorem createOps_total {P : Processor} {blockNum : Nat} {txid : Txid} {idx : Nat}
    {outs : List TxOut} {s : Store} (ht : txid ∈ s.transactions.map TransactionRow.txid)
    (hnew : Keyed UtxoRow.outPoint (s.utxos ++ P.createdFrom blockNum txid idx outs))
    (howner : ∀ out ∈ outs, P.isP2tr out.scriptPubkey = true → (P.owner out).isSome) :
    ∃ s', apply (createOps P blockNum txid idx outs) s = .ok s' := by
  induction outs generalizing idx s with
  | nil => exact ⟨s, rfl⟩
  | cons txout rest ih =>
      have hrest := fun out hout => howner out (List.mem_cons_of_mem txout hout)
      rw [createdFrom_cons] at hnew
      cases hp : P.isP2tr txout.scriptPubkey with
      | false =>
          simp only [createOps, hp, Bool.false_eq_true, if_false]
          have hnone : P.owner txout = none := by simp [owner, hp]
          exact ih ht (by simpa [hnone] using hnew) hrest
      | true =>
          have hsome := howner txout List.mem_cons_self hp
          cases hs : P.fromScript txout.scriptPubkey with
          | none => simp [owner, hp, hs] at hsome
          | some address =>
              have howned : P.owner txout = some address := by simp [owner, hp, hs]
              simp only [howned, Option.map_some, Option.toList_some] at hnew
              rw [← List.append_assoc] at hnew
              have hfresh : (utxoRow blockNum txid idx address txout).outPoint ∉
                  s.utxos.map UtxoRow.outPoint := by
                intro hmem
                obtain ⟨old, hold, hsame⟩ := List.mem_map.mp hmem
                exact hnew.left.ne_of_append hold (List.mem_singleton.mpr rfl) hsame
              obtain ⟨mid, hmid⟩ := Store.createUtxo_of_fresh hfresh ht
              obtain ⟨_, _, ht₁, hu₁⟩ := Store.createUtxo_ok hmid
              obtain ⟨s', hs'⟩ := ih (s := mid) (ht₁ ▸ ht) (hu₁ ▸ hnew) hrest
              simp only [createOps, hp, hs, if_true]
              exact ⟨s', apply_cons_ok.mpr ⟨mid, refused_eq_ok.mpr hmid, hs'⟩⟩

theorem txsOps_total {P : Processor} (order : Nat → ScanOrder (Address × Int)) {blockNum : Nat}
    (i : Nat) {txs : List Transaction} {relevant : RelevantUtxos} {s : Store}
    (hrel : ∀ o ∈ relevant.map BtcUtxoInfo.getOutPoint, o ∈ s.utxos.map UtxoRow.outPoint)
    (ht : ∀ tx ∈ txs, tx.txid ∈ s.transactions.map TransactionRow.txid)
    (hnew : Keyed UtxoRow.outPoint (s.utxos ++ txs.flatMap (P.createdBy blockNum)))
    (howner : ∀ tx ∈ txs, ∀ out ∈ tx.output, P.isP2tr out.scriptPubkey = true →
      (P.owner out).isSome) :
    ∃ s', apply (txsOps P order blockNum i txs relevant) s = .ok s' := by
  induction txs generalizing i relevant s with
  | nil => exact ⟨s, rfl⟩
  | cons tx rest ih =>
      rw [List.flatMap_cons, ← List.append_assoc] at hnew
      obtain ⟨s₁, h₁⟩ := spendOps_total blockNum tx.input hrel
      obtain ⟨_, ht₁, hu₁⟩ := spendOps_ok h₁
      have hkeys : s₁.utxos.map UtxoRow.outPoint = s.utxos.map UtxoRow.outPoint := by
        simp only [hu₁, List.map_map, Function.comp_def, settle_outPoint]
      have hnew₁ : Keyed UtxoRow.outPoint
          (s₁.utxos ++ P.createdBy blockNum tx ++ rest.flatMap (P.createdBy blockNum)) := by
        unfold Keyed at hnew ⊢
        simpa only [List.map_append, hkeys] using hnew
      obtain ⟨s₂, h₂⟩ := createOps_total (ht₁ ▸ ht tx List.mem_cons_self) hnew₁.left
        (howner tx List.mem_cons_self)
      obtain ⟨_, ht₂, hu₂, _⟩ := createOps_ok h₂
      have hrel₂ : ∀ o ∈ (debit tx.input relevant ∅).1.map BtcUtxoInfo.getOutPoint,
          o ∈ s₂.utxos.map UtxoRow.outPoint := by
        intro o ho
        rw [hu₂, List.map_append, hkeys]
        exact List.mem_append_left _ (hrel o (mem_keys_debit.mp ho).1)
      have ht' : ∀ t ∈ rest, t.txid ∈ s₂.transactions.map TransactionRow.txid := by
        intro t hmem
        rw [ht₂, ht₁]
        exact ht t (List.mem_cons_of_mem tx hmem)
      obtain ⟨s', hs'⟩ := ih (i + 1) hrel₂ ht' (by rw [hu₂]; exact hnew₁)
        (fun t hmem => howner t (List.mem_cons_of_mem tx hmem))
      refine ⟨s', ?_⟩
      rw [txsOps, apply_append, h₁]
      change apply (_ ++ _) s₁ = _
      rw [apply_append, h₂]
      change apply (_ ++ _) s₂ = _
      rw [apply_append, sendOps_apply]
      exact hs'

/-- The first pass of a block on the transaction table. -/
def indexTransactions (blockHash : BlockHash) :
    Nat → List Transaction → List TransactionRow → List TransactionRow
  | _, [], rows => rows
  | idx, tx :: rest, rows =>
      indexTransactions blockHash (idx + 1) rest
        (if tx.txid ∈ rows.map TransactionRow.txid
          then rows.map (Store.repoint tx.txid blockHash)
          else rows ++ [transactionRow blockHash idx tx])

def transactionRows (blockHash : BlockHash) (idx : Nat) (txs : List Transaction) :
    List TransactionRow :=
  (txs.zipIdx idx).map (fun t => transactionRow blockHash t.2 t.1)

theorem transactionRows_cons (blockHash : BlockHash) (idx : Nat) (tx : Transaction)
    (txs : List Transaction) : transactionRows blockHash idx (tx :: txs) =
      transactionRow blockHash idx tx :: transactionRows blockHash (idx + 1) txs := by
  simp only [transactionRows, List.zipIdx_cons, List.map_cons]

theorem map_txid_transactionRows (blockHash : BlockHash) (idx : Nat) (txs : List Transaction) :
    (transactionRows blockHash idx txs).map TransactionRow.txid = txs.map Transaction.txid := by
  induction txs generalizing idx with
  | nil => rfl
  | cons tx rest ih =>
      rw [transactionRows_cons, List.map_cons, List.map_cons, ih]
      rfl

theorem mem_transactionRows {blockHash : BlockHash} {idx : Nat} {txs : List Transaction}
    {t : TransactionRow} (h : t ∈ transactionRows blockHash idx txs) :
    t.blockHash = blockHash := by
  obtain ⟨⟨tx, i⟩, _, rfl⟩ := List.mem_map.mp h
  rfl

theorem indexTransactions_of_fresh {blockHash : BlockHash} {idx : Nat} {txs : List Transaction}
    {rows : List TransactionRow}
    (h : (rows.map TransactionRow.txid ++ txs.map Transaction.txid).Nodup) :
    indexTransactions blockHash idx txs rows = rows ++ transactionRows blockHash idx txs := by
  induction txs generalizing idx rows with
  | nil => simp [indexTransactions, transactionRows]
  | cons tx rest ih =>
      have hnew : tx.txid ∉ rows.map TransactionRow.txid := fun hmem =>
        List.disjoint_of_nodup_append h hmem (by simp)
      rw [indexTransactions, if_neg hnew, ih (by simpa [transactionRow] using h),
        transactionRows_cons, List.append_assoc, List.singleton_append]

theorem indexTransactions_of_stored {blockHash : BlockHash} {idx : Nat} {txs : List Transaction}
    {rows : List TransactionRow} (hstored : ∀ tx ∈ txs, tx.txid ∈ rows.map TransactionRow.txid)
    (hhash : ∀ t ∈ rows, t.txid ∈ txs.map Transaction.txid → t.blockHash = blockHash) :
    indexTransactions blockHash idx txs rows = rows := by
  induction txs generalizing idx with
  | nil => rfl
  | cons tx rest ih =>
      have hsame : rows.map (Store.repoint tx.txid blockHash) = rows := by
        conv_rhs => rw [← List.map_id rows]
        apply List.map_congr_left
        intro t ht
        unfold Store.repoint
        split
        · next hid => rw [← hhash t ht (by simp [hid])]; rfl
        · rfl
      rw [indexTransactions, if_pos (hstored tx List.mem_cons_self), hsame]
      exact ih (fun t ht => hstored t (List.mem_cons_of_mem tx ht)) fun t ht hid =>
        hhash t ht (List.mem_cons_of_mem _ hid)

theorem mem_indexTransactions {blockHash : BlockHash} {idx : Nat} {txs : List Transaction}
    {rows : List TransactionRow} {txid : Txid} :
    txid ∈ (indexTransactions blockHash idx txs rows).map TransactionRow.txid ↔
      txid ∈ rows.map TransactionRow.txid ∨ txid ∈ txs.map Transaction.txid := by
  induction txs generalizing idx rows with
  | nil => simp [indexTransactions]
  | cons tx rest ih =>
      rw [indexTransactions, ih, List.map_cons, List.mem_cons]
      split
      · next hin =>
          rw [Store.map_repoint_txid]
          constructor
          · rintro (h | h)
            exacts [.inl h, .inr (.inr h)]
          · rintro (h | rfl | h)
            exacts [.inl h, .inl hin, .inr h]
      · rw [List.map_append, List.mem_append, List.map_singleton, List.mem_singleton, or_assoc]
        rfl

theorem upsertOps_ok {blockHash : BlockHash} {idx : Nat} {txs : List Transaction} {s s' : Store}
    (h : apply (upsertOps blockHash idx txs) s = .ok s') :
    s'.blocks = s.blocks ∧ s'.utxos = s.utxos ∧
      s'.transactions = indexTransactions blockHash idx txs s.transactions := by
  induction txs generalizing idx s with
  | nil => cases h; exact ⟨rfl, rfl, rfl⟩
  | cons tx rest ih =>
      obtain ⟨mid, hop, hrest⟩ := apply_cons_ok.mp h
      obtain ⟨hb₁, hu₁, ht₁⟩ := Store.upsertTransaction_ok (refused_eq_ok.mp hop)
      obtain ⟨hb, hu, ht⟩ := ih hrest
      refine ⟨hb.trans hb₁, hu.trans hu₁, ?_⟩
      rw [ht, ht₁]
      rfl

theorem upsertOps_total {blockHash : BlockHash} (idx : Nat) (txs : List Transaction) {s : Store}
    (h : blockHash ∈ s.blocks.map BlockRow.hash) :
    ∃ s', apply (upsertOps blockHash idx txs) s = .ok s' := by
  induction txs generalizing idx s with
  | nil => exact ⟨s, rfl⟩
  | cons tx rest ih =>
      obtain ⟨mid, hmid⟩ := Store.upsertTransaction_of_ref (transactionRow blockHash idx tx) h
      obtain ⟨s', hs'⟩ := ih (idx + 1) ((Store.upsertTransaction_ok hmid).1 ▸ h)
      exact ⟨s', apply_cons_ok.mpr ⟨mid, refused_eq_ok.mpr hmid, hs'⟩⟩

end Processor

/-- What a block does to a utxo row from before it. -/
def BlockInfo.spendRow (block : BlockInfo) (u : UtxoRow) : UtxoRow :=
  if u.spentBlock = none ∧ u.outPoint ∈ block.outpoints then
    { u with spentBlock := some block.header.height }
  else u

@[simp] theorem BlockInfo.spendRow_outPoint (block : BlockInfo) (u : UtxoRow) :
    (block.spendRow u).outPoint = u.outPoint := by
  unfold spendRow
  split <;> rfl

namespace Processor

/-- The tables after a block, given the tables before it. -/
structure Indexed (P : Processor) (block : BlockInfo) (s s' : Store) : Prop where
  blocks : ∃ timestamp, P.timestampOpt block.header.time = some timestamp ∧
    s'.blocks = (s.upsertBlock (blockRow block.header timestamp)).blocks
  transactions : s'.transactions =
    indexTransactions block.header.hash 0 block.txdata s.transactions
  utxos : s'.utxos = s.utxos.map block.spendRow ++ P.created block
  owners : ∀ tx ∈ block.txdata, ∀ out ∈ tx.output, P.isP2tr out.scriptPubkey = true →
    (P.owner out).isSome

/-- The candidates of a block are the rows unspent before it that its inputs name. -/
theorem settle_relevant {s : Store} {block : BlockInfo} {u : UtxoRow} (hu : u ∈ s.utxos) :
    settle block.header.height (s.getRelevantUtxos block.outpoints)
      (block.txdata.flatMap (fun tx => tx.input.map TxIn.previousOutput)) u =
      block.spendRow u := by
  have hkey : u.outPoint ∈ (s.getRelevantUtxos block.outpoints).map BtcUtxoInfo.getOutPoint ↔
      u.spentBlock = none ∧ u.outPoint ∈ block.outpoints := by
    simp only [Store.getRelevantUtxos, Store.relevantRows, List.map_map, List.mem_map,
      List.mem_filter, Function.comp_apply, UtxoRow.getOutPoint_toInfo, Bool.and_eq_true,
      Option.isNone_iff_eq_none, decide_eq_true_eq]
    constructor
    · rintro ⟨v, ⟨hv, hnone, hout⟩, hsame⟩
      cases s.outPointKey.eq_of_key hv hu hsame
      exact ⟨hnone, hout⟩
    · rintro ⟨hnone, hout⟩
      exact ⟨u, ⟨hu, hnone, hout⟩, rfl⟩
  unfold settle BlockInfo.spendRow
  simp only [hkey]
  change (if (_ ∧ u.outPoint ∈ block.outpoints) ∧ u.outPoint ∈ block.outpoints then _ else _) = _
  simp only [and_assoc, and_self]

theorem getRelevantUtxos_keys {s : Store} {utxos : List OutPoint} {o : OutPoint}
    (h : o ∈ (s.getRelevantUtxos utxos).map BtcUtxoInfo.getOutPoint) :
    o ∈ s.utxos.map UtxoRow.outPoint := by
  simp only [Store.getRelevantUtxos, Store.relevantRows, List.map_map, List.mem_map,
    List.mem_filter, Function.comp_apply, UtxoRow.getOutPoint_toInfo] at h
  obtain ⟨u, ⟨hu, _⟩, rfl⟩ := h
  exact List.mem_map_of_mem hu

/-- What `process_block` does to the tables when it returns. -/
theorem blockOps_ok {P : Processor} {order : Nat → ScanOrder (Address × Int)}
    {block : BlockInfo} {s s' : Store} (h : apply (blockOps P order block s) s = .ok s') :
    P.Indexed block s s' := by
  unfold blockOps at h
  cases hts : P.timestampOpt block.header.time with
  | none => rw [hts] at h; cases h
  | some timestamp =>
      rw [hts] at h
      obtain ⟨s₀, hop, h⟩ := apply_cons_ok.mp h
      cases hop
      obtain ⟨s₁, h₁, h⟩ := apply_append_ok h
      obtain ⟨s₁', hop, h⟩ := apply_cons_ok.mp h
      cases hop
      obtain ⟨hb₁, hu₁, ht₁⟩ := upsertOps_ok h₁
      rw [Store.upsertBlock_utxos] at hu₁
      rw [Store.upsertBlock_transactions] at ht₁
      obtain ⟨hb, ht, hu, howner⟩ := txsOps_ok
        (fun o ho => hu₁ ▸ getRelevantUtxos_keys ho) h
      refine ⟨⟨timestamp, hts, hb.trans hb₁⟩, ht.trans ht₁, ?_, howner⟩
      rw [hu, hu₁]
      congr 1
      exact List.map_congr_left fun u hmem => settle_relevant hmem

theorem blockOps_total_of_ref {P : Processor} (order : Nat → ScanOrder (Address × Int))
    {block : BlockInfo} {s : Store} {timestamp : Nat}
    (hts : P.timestampOpt block.header.time = some timestamp)
    (href : block.header.hash ∈
      (s.upsertBlock (blockRow block.header timestamp)).blocks.map BlockRow.hash)
    (hnew : Keyed UtxoRow.outPoint (s.utxos ++ P.created block))
    (howner : ∀ tx ∈ block.txdata, ∀ out ∈ tx.output, P.isP2tr out.scriptPubkey = true →
      (P.owner out).isSome) :
    ∃ s', apply (blockOps P order block s) s = .ok s' := by
  obtain ⟨s₁, h₁⟩ := upsertOps_total 0 block.txdata href
  obtain ⟨_, hu₁, ht₁⟩ := upsertOps_ok h₁
  rw [Store.upsertBlock_utxos] at hu₁
  have hrel : ∀ o ∈ (s.getRelevantUtxos block.outpoints).map BtcUtxoInfo.getOutPoint,
      o ∈ s₁.utxos.map UtxoRow.outPoint := fun o ho => hu₁ ▸ getRelevantUtxos_keys ho
  have ht : ∀ tx ∈ block.txdata, tx.txid ∈ s₁.transactions.map TransactionRow.txid := by
    intro tx htx
    rw [ht₁]
    exact mem_indexTransactions.mpr (.inr (List.mem_map_of_mem htx))
  obtain ⟨s', hs'⟩ := txsOps_total order 0 hrel ht (by rw [hu₁]; exact hnew) howner
  refine ⟨s', ?_⟩
  unfold blockOps
  simp only [hts]
  refine apply_cons_ok.mpr ⟨_, rfl, ?_⟩
  rw [apply_append, h₁]
  exact hs'

theorem blockOps_total {P : Processor} {order : Nat → ScanOrder (Address × Int)}
    {block : BlockInfo} {s : Store} (hts : (P.timestampOpt block.header.time).isSome)
    (hhash : block.header.hash ∉ s.blocks.map BlockRow.hash)
    (hnum : block.header.height ∉ s.blocks.map BlockRow.number)
    (hnew : Keyed UtxoRow.outPoint (s.utxos ++ P.created block))
    (howner : ∀ tx ∈ block.txdata, ∀ out ∈ tx.output, P.isP2tr out.scriptPubkey = true →
      (P.owner out).isSome) :
    ∃ s', apply (blockOps P order block s) s = .ok s' := by
  obtain ⟨timestamp, hts⟩ := Option.isSome_iff_exists.mp hts
  have hrow := Store.upsertBlock_of_fresh (blockRow block.header timestamp) hhash hnum
  refine blockOps_total_of_ref order hts ?_ hnew howner
  rw [hrow, List.map_append]
  exact List.mem_append_right _ (by simp [blockRow])

end Processor

end BtcIndexer
