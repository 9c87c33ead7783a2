import BtcIndexer.LiveRules

/-! The hand-off to the aggregator over whole runs of the harvester's loop, with rounds dropped at
any await. The channel carries the messages of the calls that took effect and no others exactly
if no other call meets its fault after its first message is out. -/
namespace BtcIndexer
open Stateful Outbox Rows

namespace Entry

/-- A call that does not take effect meets its fault after its first message is out. -/
def Spills (P : Processor) (env : DbEnv) : Entry → Prop
  | .call job before after false => (Entry.call job before after false).LateFault P env
  | .call _ _ _ true | .scanFrom _ _ => False

/-- A call that does not take effect has sent nothing. -/
def Silent : Entry → Prop
  | .call _ before after false => after.channel = before.channel
  | .call _ _ _ true | .scanFrom _ _ => True

/-- What the call left on the channel, and that it was all of its script if it took effect. -/
def Kept (P : Processor) (env : DbEnv) : Entry → Prop
  | .call job before after committed =>
      after.channel = before.channel ++ (Entry.call job before after committed).sent ∧
        (committed = true → (Entry.call job before after committed).sent =
          messages (job.ops P env before))
  | .scanFrom _ _ => True

/-- The ticks between which it happened. -/
def began : Entry → Nat
  | .call _ before _ _ => before.clock
  | .scanFrom _ world => world.clock

def ended : Entry → Nat
  | .call _ _ after _ => after.clock
  | .scanFrom _ world => world.clock

theorem kept_of_ok {P : Processor} {env : DbEnv} {job : Job} {before w : World Store AggregatorMsg}
    (hrun : job.run P env before = .ok () w) : (Entry.call job before w true).Kept P env := by
  rw [Job.run_eq] at hrun
  have hchannel := (transact_ok hrun).2
  have hsent : (Entry.call job before w true).sent = messages (job.ops P env before) := by
    rw [sent, hchannel, List.drop_left]
  exact ⟨hsent ▸ hchannel, fun _ => hsent⟩

theorem Sound.kept {P : Processor} {env : DbEnv} {e : Entry} (h : e.Sound P env) :
    e.Kept P env := by
  cases e with
  | scanFrom block w => trivial
  | call job before after committed =>
      cases committed with
      | true => exact kept_of_ok h.run_ok
      | false => exact ⟨h.sent_prefix, fun hfalse => by cases hfalse⟩

theorem Sound.silent_iff {P : Processor} {env : DbEnv} {e : Entry} (h : e.Sound P env) :
    e.Silent ↔ ¬ e.Spills P env := by
  cases e with
  | scanFrom block w => exact iff_of_true trivial id
  | call job before after committed =>
      cases committed with
      | true => exact iff_of_true trivial id
      | false => exact h.late_iff

theorem Kept.sent_eq_owed {P : Processor} {env : DbEnv} {e : Entry} (h : e.Kept P env)
    (hsilent : e.Silent) : e.sent = e.owed P env := by
  cases e with
  | scanFrom block w => rfl
  | call job before after committed =>
      obtain ⟨hchannel, hall⟩ := h
      cases committed with
      | true => exact hall rfl
      | false =>
          have hquiet : after.channel = before.channel := hsilent
          rw [hquiet] at hchannel
          exact List.append_right_eq_self.mp hchannel.symm

end Entry

/-- The history is in the order of the clock. -/
structure Harvester.Dated (h : Harvester) : Prop where
  ordered : h.history.Pairwise (fun e e' => e.ended ≤ e'.began)
  past : ∀ e ∈ h.history, e.ended ≤ h.world.clock

theorem dated_snoc {history : List Entry} {e : Entry} {k : Harvester}
    (hordered : history.Pairwise (fun e e' => e.ended ≤ e'.began))
    (hpast : ∀ old ∈ history, old.ended ≤ e.began) (hlasts : e.began ≤ e.ended)
    (hhistory : k.history = history ++ [e]) (hclock : e.ended ≤ k.world.clock) : k.Dated := by
  refine ⟨?_, fun e' he' => ?_⟩
  · rw [hhistory]
    refine List.pairwise_append.mpr
      ⟨hordered, List.pairwise_singleton _ _, fun old hold new hnew => ?_⟩
    rw [List.mem_singleton.mp hnew]
    exact hpast old hold
  · rw [hhistory] at he'
    rcases List.mem_append.mp he' with hold | hnew
    · exact Nat.le_trans (hpast e' hold) (Nat.le_trans hlasts hclock)
    · rw [List.mem_singleton.mp hnew]
      exact hclock

theorem dated_respected (P : Processor) (env : DbEnv) :
    Respected P env (fun h h' => h.Dated → h'.Dated) where
  refl := fun _ h => h
  trans := fun _ _ _ hab hbc h => hbc (hab h)
  reads := fun h w _ _ hclock hdated =>
    ⟨hdated.ordered, fun e he => Nat.le_trans (hdated.past e he) hclock⟩
  bounds := fun _ _ _ hdated => ⟨hdated.ordered, hdated.past⟩
  cursor := fun _ _ hdated => ⟨hdated.ordered, hdated.past⟩
  scanned := fun h block hdated =>
    dated_snoc (e := .scanFrom block h.world) hdated.ordered hdated.past (Nat.le_refl _) rfl
      (Nat.le_refl _)
  job := by
    intro job h hdated
    have hclock := Job.run_ticks P env job h.world
    simp only [runJob]
    cases hrun : job.run P env h.world with
    | ok a w =>
        rw [hrun] at hclock
        exact dated_snoc (e := .call job h.world w true) hdated.ordered hdated.past hclock rfl
          (Nat.le_refl _)
    | error e w =>
        rw [hrun] at hclock
        exact dated_snoc (e := .call job h.world w false) hdated.ordered hdated.past hclock rfl
          (Nat.le_refl _)

/-- The entries tell what happened between two states of the harvester. -/
structure Books (P : Processor) (env : DbEnv) (h k : Harvester) (entries : List Entry) : Prop where
  history : k.history = h.history ++ entries
  channel : k.world.channel = h.world.channel ++ entries.flatMap Entry.sent
  kept : ∀ e ∈ entries, e.Kept P env

theorem Books.trans {P : Processor} {env : DbEnv} {a b c : Harvester} {xs ys : List Entry}
    (hab : Books P env a b xs) (hbc : Books P env b c ys) : Books P env a c (xs ++ ys) where
  history := by rw [hbc.history, hab.history, List.append_assoc]
  channel := by rw [hbc.channel, hab.channel, List.flatMap_append, List.append_assoc]
  kept := by
    intro e he
    rcases List.mem_append.mp he with he | he
    · exact hab.kept e he
    · exact hbc.kept e he

theorem Books.nil {P : Processor} {env : DbEnv} {h k : Harvester} (hhistory : k.history = h.history)
    (hchannel : k.world.channel = h.world.channel) : Books P env h k [] :=
  ⟨by rw [hhistory, List.append_nil], by simp [hchannel], by simp⟩

theorem Books.drop {P : Processor} {env : DbEnv} {h k : Harvester} {entries : List Entry}
    (hbooks : Books P env h k entries) : k.history.drop h.history.length = entries := by
  rw [hbooks.history, List.drop_left]

/-- No entry that this moment makes spills, in the circumstances of its round. -/
def Moment.Prompt (P : Processor) (node : Node) (env : DbEnv) (h : Harvester) : Moment → Prop
  | .round fuel =>
      ∀ e ∈ (final (harvestRetrying P node env.attended fuel h)).history.drop h.history.length,
        ¬ e.Spills P env.attended
  | .between _ => True
  | .dropped fuel await lands _ =>
      ∀ e ∈ (final (cutRound P node env fuel await lands h)).history.drop h.history.length,
        ¬ e.Spills P (env.cutAt (h.world.clock + await))

section Runs

variable {P : Processor} {node : Node} {env : DbEnv}

/-- What a round has made, under circumstances that leave the scripts of its calls as they are. -/
theorem Accounts.books (env : DbEnv) {env' : DbEnv} {h k : Harvester}
    (haccounts : Accounts P env' h k) (hscripts : ∀ e : Entry, e.Kept P env' → e.Kept P env) :
    ∃ entries, Books P env h k entries ∧ ∀ e ∈ entries, (e.Silent ↔ ¬ e.Spills P env') := by
  obtain ⟨entries, hhistory, hchannel, hsound, _⟩ := haccounts
  exact ⟨entries, ⟨hhistory, hchannel, fun e he => hscripts e (hsound e he).kept⟩,
    fun e he => (hsound e he).silent_iff⟩

theorem landing_fresh {tick : Nat} {h k : Harvester} {entries : List Entry}
    (hdated : h.Dated) (htick : h.world.clock ≤ tick) (hgrown : k.history = h.history ++ entries)
    {job : Job} {before w : World Store AggregatorMsg}
    (hlands : landing P env tick k = some (job, before, w)) :
    ∃ earlier after, entries = earlier ++ [.call job before after false] := by
  obtain ⟨after, hlast, _⟩ := landing_eq_some hlands
  have hafter : after.clock = tick + 1 := by
    unfold landing at hlands
    rw [hlast] at hlands
    simp only at hlands
    split at hlands
    · split at hlands
      · next hclocks => exact hclocks.1
      · cases hlands
    · cases hlands
  rcases List.eq_nil_or_concat entries with rfl | ⟨earlier, e, rfl⟩
  · rw [hgrown, List.append_nil] at hlast
    have hpast : after.clock ≤ h.world.clock := hdated.past _ (List.mem_of_getLast? hlast)
    omega
  · rw [hgrown, List.concat_eq_append, ← List.append_assoc, List.getLast?_concat] at hlast
    cases hlast
    exact ⟨earlier, after, List.concat_eq_append ..⟩

theorem land_books {tick : Nat} {h k : Harvester} (hdated : h.Dated)
    (htick : h.world.clock ≤ tick) (haccounts : Accounts P (env.cutAt tick) h k) (hk : k.Dated) :
    ∃ entries, Books P env h (land P env tick k) entries ∧ (land P env tick k).Dated ∧
      ∀ e ∈ entries, (e.Silent ↔ ¬ e.Spills P (env.cutAt tick)) := by
  rcases land_cases P env tick k with
    hsame | ⟨history, job, before, _, w, hhistory, hlands, hrun, hland⟩
  · obtain ⟨entries, hbooks, hsilent⟩ := haccounts.books env fun _ hkept => hkept
    rw [hsame]
    exact ⟨entries, hbooks, hk, hsilent⟩
  · obtain ⟨entries, hgrown, _, hsound, hbegan⟩ := haccounts
    obtain ⟨earlier, after, rfl⟩ := landing_fresh hdated htick hgrown hlands
    have hlast : history = h.history ++ earlier := by
      rw [hgrown, ← List.append_assoc] at hhistory
      exact (List.append_inj' hhistory rfl).1.symm
    have hattended : (Entry.call job before w true).Kept P env.attended := Entry.kept_of_ok hrun
    have hkept : (Entry.call job before w true).Kept P env := hattended
    have hbefore := hbegan earlier job before after false rfl
    have hordered := hk.ordered
    rw [hgrown, ← List.append_assoc] at hordered
    obtain ⟨hearlier, _, hpast⟩ := List.pairwise_append.mp hordered
    rw [hland]
    refine ⟨earlier ++ [.call job before w true], ⟨?_, ?_, ?_⟩, ?_, ?_⟩
    · change history ++ _ = _
      rw [hlast, List.append_assoc]
    · change w.channel = _
      rw [hkept.1, hbefore, List.flatMap_append, List.append_assoc]
      simp
    · intro e he
      rcases List.mem_append.mp he with hold | hnew
      · exact (hsound e (List.mem_append_left _ hold)).kept
      · rw [List.mem_singleton.mp hnew]
        exact hkept
    · refine dated_snoc (e := .call job before w true) (hlast ▸ hearlier) (fun old hold => ?_)
        ?_ rfl (Nat.le_refl _)
      · exact hpast old (hlast ▸ hold) (.call job before after false) List.mem_cons_self
      · exact (Job.run_ticks P env.attended job).of_ok hrun
    · intro e he
      rcases List.mem_append.mp he with hold | hnew
      · exact (hsound e (List.mem_append_left _ hold)).silent_iff
      · rw [List.mem_singleton.mp hnew]
        exact iff_of_true trivial id

theorem round_dated (env' : DbEnv) (fuel : Nat) {h : Harvester} (hdated : h.Dated) :
    (final (harvestRetrying P node env' fuel h)).Dated := by
  have hdates : Moves (fun h h' => h.Dated → h'.Dated) (harvestRetrying P node env' fuel) :=
    (dated_respected P env').harvestRetrying fuel
  exact hdates h hdated

variable (P node env)

theorem cutRound_books (fuel await : Nat) (lands : Bool) {h : Harvester} (hdated : h.Dated) :
    ∃ entries, Books P env h (final (cutRound P node env fuel await lands h)) entries ∧
      (final (cutRound P node env fuel await lands h)).Dated ∧
      ∀ e ∈ entries, (e.Silent ↔ ¬ e.Spills P (env.cutAt (h.world.clock + await))) := by
  have hmoves : Moves (Accounts P (env.cutAt (h.world.clock + await)))
      (harvestRetrying P node (env.cutAt (h.world.clock + await)) fuel) :=
    (accounts_respected P _).harvestRetrying fuel
  have haccounts := hmoves h
  have hk : (final (harvestRetrying P node (env.cutAt (h.world.clock + await)) fuel h)).Dated :=
    round_dated _ fuel hdated
  have hstay : ∀ k, Accounts P (env.cutAt (h.world.clock + await)) h k → k.Dated →
      ∃ entries, Books P env h k entries ∧ k.Dated ∧
        ∀ e ∈ entries, (e.Silent ↔ ¬ e.Spills P (env.cutAt (h.world.clock + await))) := by
    intro k haccounts hk
    obtain ⟨entries, hbooks, hsilent⟩ := haccounts.books env fun _ hkept => hkept
    exact ⟨entries, hbooks, hk, hsilent⟩
  have hcut : cutRound P node env fuel await lands h =
      (harvestRetrying P node (env.cutAt (h.world.clock + await)) fuel >>= fun _ =>
        if lands then modify (land P env (h.world.clock + await)) else pure ()) h := rfl
  rw [hcut]
  cases hrun : harvestRetrying P node (env.cutAt (h.world.clock + await)) fuel h with
  | error e k =>
      rw [hrun] at haccounts hk
      rw [bind_of_error hrun]
      exact hstay k haccounts hk
  | ok a k =>
      rw [hrun] at haccounts hk
      rw [bind_of_ok hrun]
      cases lands with
      | false => exact hstay k haccounts hk
      | true => exact land_books hdated (Nat.le_add_right _ _) haccounts hk

theorem obey_books (command : Command) {h : Harvester} (hdated : h.Dated) :
    ∃ entries, Books P env h (final (obey node env command h)) entries ∧
      (final (obey node env command h)).Dated ∧ ∀ e ∈ entries, e.Silent := by
  have hdates : Moves (fun h h' => h.Dated → h'.Dated) (obey node env command) :=
    (dated_respected P env).obey command
  have hk := hdates h hdated
  cases command with
  | terminate => exact ⟨[], .nil rfl rfl, hk, by simp⟩
  | pause => exact ⟨[], .nil rfl rfl, hk, by simp⟩
  | autoScan => exact ⟨[], .nil rfl rfl, hk, by simp⟩
  | scanBlock first last =>
      rw [obey_scanBlock_apply] at hk ⊢
      cases hscan : node.scanBlock env.attended first h.world with
      | error e w =>
          rw [hscan] at hk
          have hchannel := ((scanBlock_reads node env.attended first).of_error hscan).2
          exact ⟨[], .nil rfl hchannel, hk, by simp⟩
      | ok block w =>
          rw [hscan] at hk
          have hchannel := ((scanBlock_reads node env.attended first).of_ok hscan).2
          refine ⟨[.scanFrom block w], ⟨rfl, ?_, ?_⟩, hk, ?_⟩
          · simpa [Entry.sent] using hchannel
          · simp [Entry.Kept]
          · simp [Entry.Silent]

theorem moment_books (moment : Moment) {h : Harvester} (hdated : h.Dated) :
    ∃ entries, Books P env h (final (moment.run P node env h)) entries ∧
      (final (moment.run P node env h)).Dated ∧
      ((∀ e ∈ entries, e.Silent) ↔ moment.Prompt P node env h) := by
  cases moment with
  | round fuel =>
      have hmoves : Moves (Accounts P env.attended) (harvestRetrying P node env.attended fuel) :=
        (accounts_respected P _).harvestRetrying fuel
      obtain ⟨entries, hbooks, hsilent⟩ := (hmoves h).books env fun _ hkept => hkept
      have hdrop := hbooks.drop
      have hspills : (Moment.round fuel).Prompt P node env h ↔
          ∀ e ∈ (final (harvestRetrying P node env.attended fuel h)).history.drop
            h.history.length, ¬ e.Spills P env.attended := Iff.rfl
      refine ⟨entries, hbooks, round_dated env.attended fuel hdated, ?_⟩
      rw [hspills, hdrop]
      exact forall₂_congr hsilent
  | between command =>
      obtain ⟨entries, hbooks, hk, hsilent⟩ := obey_books P node env command hdated
      exact ⟨entries, hbooks, hk, iff_of_true hsilent trivial⟩
  | dropped fuel await lands command =>
      obtain ⟨xs, hxs, hk, hsilent⟩ := cutRound_books P node env fuel await lands hdated
      have hrun : (Moment.dropped fuel await lands command).run P node env h =
          (cutRound P node env fuel await lands >>= fun _ => obey node env command) h := rfl
      have hprompt : (Moment.dropped fuel await lands command).Prompt P node env h ↔
          ∀ e ∈ xs, e.Silent := by
        have hdrop := hxs.drop
        have hspills : (Moment.dropped fuel await lands command).Prompt P node env h ↔
            ∀ e ∈ (final (cutRound P node env fuel await lands h)).history.drop h.history.length,
              ¬ e.Spills P (env.cutAt (h.world.clock + await)) := Iff.rfl
        rw [hspills, hdrop]
        exact (forall₂_congr hsilent).symm
      rw [hrun, hprompt]
      cases hcut : cutRound P node env fuel await lands h with
      | error e k =>
          rw [hcut] at hxs hk
          rw [bind_of_error hcut]
          exact ⟨xs, hxs, hk, Iff.rfl⟩
      | ok a k =>
          rw [hcut] at hxs hk
          rw [bind_of_ok hcut]
          obtain ⟨ys, hys, hk', hquiet⟩ := obey_books P node env command hk
          refine ⟨xs ++ ys, hxs.trans hys, hk', ?_⟩
          simp only [List.forall_mem_append]
          exact ⟨And.left, fun hall => ⟨hall, hquiet⟩⟩

theorem live_books (moments : List Moment) {h : Harvester} (hdated : h.Dated) :
    ∃ entries, Books P env h (final (live P node env moments h)) entries ∧
      ((∀ e ∈ entries, e.Silent) ↔
        Throughout (Moment.Prompt P node env) P node env moments h) := by
  induction moments generalizing h with
  | nil => exact ⟨[], .nil rfl rfl, iff_of_true (by simp) trivial⟩
  | cons moment rest ih =>
      obtain ⟨xs, hxs, hk, hprompt⟩ := moment_books P node env moment hdated
      have hlive : live P node env (moment :: rest) h =
          (moment.run P node env >>= fun _ =>
            if moment.ends then pure () else live P node env rest) h := rfl
      have hall : Throughout (Moment.Prompt P node env) P node env (moment :: rest) h ↔
          moment.Prompt P node env h ∧ ∀ k, moment.run P node env h = .ok () k →
            moment.ends = false → Throughout (Moment.Prompt P node env) P node env rest k :=
        Iff.rfl
      rw [hlive, hall, ← hprompt]
      cases hrun : moment.run P node env h with
      | error e k =>
          rw [hrun] at hxs
          rw [bind_of_error hrun]
          refine ⟨xs, hxs, fun hsilent => ⟨hsilent, fun k' hok => ?_⟩, And.left⟩
          cases hok
      | ok a k =>
          rw [hrun] at hxs hk
          rw [bind_of_ok hrun]
          cases hends : moment.ends with
          | true =>
              refine ⟨xs, hxs, fun hsilent => ⟨hsilent, fun k' _ hgoes => ?_⟩, And.left⟩
              cases hgoes
          | false =>
              obtain ⟨ys, hys, hrest⟩ := ih hk
              refine ⟨xs ++ ys, hxs.trans hys, ?_⟩
              rw [List.forall_mem_append, hrest]
              refine and_congr_right fun _ => ⟨fun hlater k' hok _ => ?_, fun hlater => ?_⟩
              · cases hok
                exact hlater
              · exact hlater k rfl rfl

end Runs

/-- The channel has the messages of the calls that took effect, each once and in order, and any
other call has sent nothing. -/
structure HandedOffOnce (P : Processor) (env : DbEnv) (h h' : Harvester) : Prop where
  channel : h'.world.channel = h.world.channel ++ h'.history.flatMap (Entry.owed P env)
  silent : ∀ job before after, Entry.call job before after false ∈ h'.history →
    after.channel = before.channel

/-- Over every run of the loop from a new harvester on, with any failures, retries, commands at
any moment and commits that take effect after their rounds were dropped, the hand-off is exact if
and only if no call that does not take effect meets its fault after its first message. -/
theorem handedOffOnce_iff (P : Processor) (node : Node) (env : DbEnv) (moments : List Moment)
    (world : World Store AggregatorMsg) (startHeight endHeight : Option Nat) :
    HandedOffOnce P env (Harvester.new world startHeight endHeight)
        (final (live P node env moments (Harvester.new world startHeight endHeight))) ↔
      Throughout (Moment.Prompt P node env) P node env moments
        (Harvester.new world startHeight endHeight) := by
  have hnew : (Harvester.new world startHeight endHeight).Dated :=
    ⟨List.Pairwise.nil, by simp [Harvester.new]⟩
  obtain ⟨entries, hbooks, hprompt⟩ := live_books P node env moments hnew
  have hhistory : (final (live P node env moments
      (Harvester.new world startHeight endHeight))).history = entries := hbooks.history
  rw [← hprompt]
  constructor
  · intro hexact e he
    cases e with
    | scanFrom block w => trivial
    | call job before after committed =>
        cases committed with
        | true => trivial
        | false => exact hexact.silent job before after (hhistory ▸ he)
  · intro hsilent
    refine ⟨?_, fun job before after he =>
      hsilent (.call job before after false) (hhistory ▸ he)⟩
    rw [hbooks.channel, hhistory]
    congr 1
    exact List.flatMap_congr fun e he => (hbooks.kept e he).sent_eq_owed (hsilent e he)

/-- The commit of block 2 fails after its event is out, and the block is tried again. -/
def retriedLife : Harvester :=
  final (live Processor.mainnet (Node.ofBlocks paidChain) (failsAt 17) [.round 5, .round 5]
    freshHarvester)

/-- Both blocks are stored once, and the event of block 2 is on the channel twice. -/
theorem retriedRun_not_once :
    retriedLife.world.store.blocks.map BlockRow.number = [1, 2] ∧
      retriedLife.world.channel.length = 2 ∧
      ¬ HandedOffOnce Processor.mainnet (failsAt 17) freshHarvester retriedLife := by
  refine ⟨by decide +kernel, by decide +kernel, ?_⟩
  intro hexact
  have hlength := congrArg List.length hexact.channel
  revert hlength
  decide +kernel

end BtcIndexer
