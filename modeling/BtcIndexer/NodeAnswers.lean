import BtcIndexer.LiveRules
import BtcIndexer.Provenance
import BtcIndexer.RpcClient

/-! The harvester and a node of which nothing is asked: it may answer as it likes, contradict
itself and change its mind, and so may the network between. What is stored and announced is
still copied from blocks that the node has sent, each in answers to requests for one hash. -/
namespace BtcIndexer
open Stateful Outbox Rows

/-- The node has sent the block before the tick: its header and its transactions in answers of
one moment to requests for one hash. -/
def Node.SentBefore (node : Node) (now : Nat) (block : BlockInfo) : Prop :=
  ∃ t hash, t < now ∧ node.getBlockHeader t hash = .ok block.header ∧
    node.getBlock t hash = .ok block.txdata

theorem Node.SentBefore.mono {node : Node} {now later : Nat} {block : BlockInfo}
    (h : node.SentBefore now block) (hle : now ≤ later) : node.SentBefore later block := by
  obtain ⟨t, hash, ht, hheader, htxdata⟩ := h
  exact ⟨t, hash, Nat.lt_of_lt_of_le ht hle, hheader, htxdata⟩

/-- Before the call everything was a copy, and what it was given had been sent. -/
def Entry.Sent (P : Processor) (node : Node) : Entry → Prop
  | .call job before _ _ => Genuine P (node.SentBefore before.clock) before ∧
      ∀ b ∈ job.blocks, node.SentBefore before.clock b
  | .scanFrom _ _ => True

namespace Harvester

/-- Tables and channel are copies of what the node has sent so far, and so they were before each
of the calls. -/
structure Genuine (P : Processor) (node : Node) (h : Harvester) : Prop where
  world : BtcIndexer.Genuine P (node.SentBefore h.world.clock) h.world
  history : ∀ entry ∈ h.history, entry.Sent P node

def Holds (P : Processor) (node : Node) (blocks : List BlockInfo) (h : Harvester) : Prop :=
  h.Genuine P node ∧ ∀ b ∈ blocks, node.SentBefore h.world.clock b

end Harvester

section Loop

variable {P : Processor} {node : Node} {env : DbEnv}

theorem sent_steady (node : Node) (blocks : List BlockInfo) :
    Steady (fun h => ∀ b ∈ blocks, node.SentBefore h.world.clock b) :=
  fun _ _ _ _ hclock h b hb => (h b hb).mono hclock

theorem genuine_steady (P : Processor) (node : Node) : Steady (Harvester.Genuine P node) := by
  intro h w hstore hchannel hclock hgenuine
  have hlater := hgenuine.world.mono fun b hb => Node.SentBefore.mono hb hclock
  refine ⟨⟨?_, ?_⟩, hgenuine.history⟩
  · change Copied P _ w.store
    rw [hstore]
    exact hlater.stored
  · change ∀ msg ∈ w.channel, _
    rw [hchannel]
    exact hlater.announced

theorem holds_steady (P : Processor) (node : Node) (blocks : List BlockInfo) :
    Steady (Harvester.Holds P node blocks) :=
  (genuine_steady P node).and (sent_steady node blocks)

theorem scanBlockByHash_sent {hash : BlockHash} {w w' : World Store AggregatorMsg}
    {block : BlockInfo} (h : node.scanBlockByHash env hash w = .ok block w') :
    node.SentBefore w'.clock block := by
  obtain ⟨hcall, rfl⟩ := rpc_ok h
  cases hheader : node.getBlockHeader w.clock hash with
  | error e => rw [hheader] at hcall; cases hcall
  | ok header =>
      cases htxdata : node.getBlock w.clock hash with
      | error e => rw [hheader, htxdata] at hcall; cases hcall
      | ok txdata =>
          rw [hheader, htxdata] at hcall
          cases hcall
          exact ⟨w.clock, hash, Nat.lt_succ_self _, hheader, htxdata⟩

theorem fetch_triple {x : ProcessorM BlockInfo} (hreads : Reads x) (hticks : Ticks x)
    (hsent : ∀ w block w', x w = .ok block w' → node.SentBefore w'.clock block)
    (blocks : List BlockInfo) :
    Triple (Harvester.Holds P node blocks) (lift .client x)
      (fun block => Harvester.Holds P node (block :: blocks)) (Harvester.Holds P node blocks) := by
  have hlift := lift_triple (holds_steady P node blocks) hreads hticks .client
    (Q := fun block w => node.SentBefore w.clock block)
    fun h block w _ hrun => hsent h.world block w hrun
  refine hlift.weaken (fun _ h => h) (fun block k hpost => ?_) fun _ h => h
  exact ⟨hpost.1.1, List.forall_mem_cons.mpr ⟨hpost.2, hpost.1.2⟩⟩

theorem read_triple {α : Type} {x : ProcessorM α} (hreads : Reads x) (hticks : Ticks x)
    (variant : ProcessorError → HarvesterError) (blocks : List BlockInfo) :
    Triple (Harvester.Holds P node blocks) (lift variant x)
      (fun _ => Harvester.Holds P node blocks) (Harvester.Holds P node blocks) := by
  have hlift := lift_triple (holds_steady P node blocks) hreads hticks variant
    (Q := fun _ _ => True) fun _ _ _ _ _ => trivial
  exact hlift.weaken (fun _ h => h) (fun _ _ hpost => hpost.1) fun _ h => h

theorem holds_fewer {blocks fewer : List BlockInfo} (hsub : fewer ⊆ blocks)
    {h : Harvester} (hholds : h.Holds P node blocks) : h.Holds P node fewer :=
  ⟨hholds.1, fun b hb => hholds.2 b (hsub hb)⟩

theorem walk_triple (fuel : Nat) (block : BlockInfo) (blocks : List BlockInfo) :
    Triple (Harvester.Holds P node (block :: blocks)) (getForkBlocks node env fuel block)
      (fun walked => Harvester.Holds P node (walked ++ blocks)) (Harvester.Holds P node []) := by
  induction fuel generalizing block blocks with
  | zero => exact Triple.throw fun _ h => holds_fewer (List.nil_subset _) h
  | succ fuel ih =>
      have hancestor : Triple (Harvester.Holds P node (block :: blocks)) (isAncestor env block)
          (fun _ => Harvester.Holds P node (block :: blocks)) (Harvester.Holds P node []) := by
        unfold isAncestor
        split
        · exact Triple.pure fun _ h => h
        · exact (read_triple (query_reads _ _) (query_world_ticks _ _) .other _).weaken
            (fun _ h => h) (fun _ _ h => h) fun _ h => holds_fewer (List.nil_subset _) h
      refine Triple.bind hancestor fun found => ?_
      cases found with
      | true => exact Triple.pure fun _ h => holds_fewer (List.subset_cons_self _ _) h
      | false =>
          cases block.header.previousBlockHash with
          | none => exact Triple.pure fun _ h => h
          | some parentHash =>
              refine Triple.bind ((fetch_triple (rpc_reads env _) (rpc_ticks env _)
                (fun _ _ _ => scanBlockByHash_sent) _).weaken (fun _ h => h) (fun _ _ h => h)
                fun _ h => holds_fewer (List.nil_subset _) h) fun parent => ?_
              refine Triple.bind (ih parent (block :: blocks)) fun rest => ?_
              refine Triple.pure fun _ h => holds_fewer (fun b hb => ?_) h
              simp only [List.cons_append, List.mem_cons, List.mem_append] at hb ⊢
              tauto

end Loop

namespace Rpc

/-- The header and the text of the block came in two answers of success, of one moment before the
tick, to requests for one hash. -/
def BitcoinRpcClient.SentBefore {V : Type} (J : Json V) (client : BitcoinRpcClient V) (now : Nat)
    (block : BlockInfo) : Prop :=
  ∃ t hash v text, t < now ∧ J.ofHash hash = .ok v ∧
    client.Answers J.toHeader "getblockheader" [v] t block.header ∧
    client.Answers J.toText "getblock" [v, J.ofNat 0] t text ∧
    J.deserializeHex text = .ok block.txdata

def emptyWorld : World Store AggregatorMsg := ⟨Store.empty, [], 0⟩

def BitcoinRpcClient.indexed {V : Type} (J : Json V) (client : BitcoinRpcClient V) (P : Processor)
    (env : DbEnv) (lives : List Life) : World Store AggregatorMsg :=
  survive P (client.node J) env lives emptyWorld

section Client

variable {V : Type} {J : Json V} {client : BitcoinRpcClient V}

end Client

end Rpc

end BtcIndexer
