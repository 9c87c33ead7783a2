import BtcIndexer.Stateful

/-! Database scripts with an outgoing channel. A client opens a transaction on a committed
store, runs statements on its working copy and puts messages on a channel. The channel is
outside the transaction, so a rollback discards the working copy but recalls no message.
Which statements fail and when the receiver is gone is an input, read off the clock. -/
namespace Outbox
open Stateful

/-- `sql t`: the statement awaited at tick `t` fails. `closed t`: the receiver is gone at `t`. -/
structure Faults (ε : Type) where
  sql : Nat → Bool
  closed : Nat → Bool
  fault : Nat → ε
  gone : ε

/-- The committed store, everything ever put on the channel (oldest first), and the number
of awaited calls so far. -/
structure World (σ μ : Type) where
  store : σ
  channel : List μ
  clock : Nat

abbrev Session (σ ε μ α : Type) := EStateM ε (World σ μ) α

/-- One step of a script: a statement on the working copy, a message, or an error of the
client's own. Only a statement takes a tick. -/
inductive Op (σ ε μ : Type) where
  | sql (f : σ → Except ε σ)
  | send (m : μ)
  | raise (e : ε)

variable {σ ε μ α : Type}

namespace World

def tick (w : World σ μ) : World σ μ := { w with clock := w.clock + 1 }

def push (w : World σ μ) (m : μ) : World σ μ := { w with channel := w.channel ++ [m] }

def publish (w : World σ μ) (db : σ) : World σ μ := { w with store := db }

@[simp] theorem tick_store (w : World σ μ) : w.tick.store = w.store := rfl
@[simp] theorem tick_channel (w : World σ μ) : w.tick.channel = w.channel := rfl
@[simp] theorem tick_clock (w : World σ μ) : w.tick.clock = w.clock + 1 := rfl
@[simp] theorem push_store (w : World σ μ) (m : μ) : (w.push m).store = w.store := rfl
@[simp] theorem push_channel (w : World σ μ) (m : μ) :
    (w.push m).channel = w.channel ++ [m] := rfl
@[simp] theorem push_clock (w : World σ μ) (m : μ) : (w.push m).clock = w.clock := rfl
@[simp] theorem publish_store (w : World σ μ) (db : σ) : (w.publish db).store = db := rfl
@[simp] theorem publish_channel (w : World σ μ) (db : σ) :
    (w.publish db).channel = w.channel := rfl
@[simp] theorem publish_clock (w : World σ μ) (db : σ) : (w.publish db).clock = w.clock := rfl

end World

def query (F : Faults ε) (q : σ → Except ε α) (db : σ) : Session σ ε μ α := fun w =>
  if F.sql w.clock then .error (F.fault w.clock) w.tick
  else match q db with
    | .ok a => .ok a w.tick
    | .error e => .error e w.tick

/-- An awaited write: the working copy is replaced, nothing is committed. -/
def sql (F : Faults ε) (f : σ → Except ε σ) (db : σ) : Session σ ε μ σ := query F f db

def send (F : Faults ε) (m : μ) : Session σ ε μ Unit := fun w =>
  if F.closed w.clock then .error F.gone w else .ok () (w.push m)

/-- Opening a transaction copies the committed store. -/
def begin (F : Faults ε) : Session σ ε μ σ := fun w => sql F .ok w.store w

theorem begin_ok {F : Faults ε} {w w' : World σ μ} {db : σ} (h : begin F w = .ok db w') :
    db = w.store ∧ w' = w.tick := by
  simp only [begin, sql, query] at h
  split at h
  · cases h
  · cases h; exact ⟨rfl, rfl⟩

def commit (F : Faults ε) (db : σ) : Session σ ε μ Unit := do
  let db ← sql F .ok db
  modify (fun w => w.publish db)

namespace Op

def run (F : Faults ε) : Op σ ε μ → σ → Session σ ε μ σ
  | .sql f, db => Outbox.sql F f db
  | .send m, db => do
      Outbox.send F m
      pure db
  | .raise e, _ => throw e

/-- The effect of a step on the working copy when nothing fails from outside. -/
def apply : Op σ ε μ → σ → Except ε σ
  | .sql f, db => f db
  | .send _, db => .ok db
  | .raise e, _ => .error e

def message : Op σ ε μ → Option μ
  | .send m => some m
  | .sql _ | .raise _ => none

theorem run_ok {F : Faults ε} {op : Op σ ε μ} {db db' : σ} {w w' : World σ μ}
    (h : op.run F db w = .ok db' w') :
    op.apply db = .ok db' ∧ w'.store = w.store ∧
      w'.channel = w.channel ++ op.message.toList := by
  cases op with
  | sql f =>
      simp only [run, Outbox.sql, query] at h
      split at h
      · cases h
      · cases hf : f db with
        | ok a =>
            simp only [hf] at h
            cases h
            exact ⟨hf, rfl, by simp [message]⟩
        | error e => simp only [hf] at h; cases h
  | send m =>
      obtain ⟨_, w₁, hs, hp⟩ := bind_eq_ok.mp h
      cases hp
      simp only [Outbox.send] at hs
      split at hs
      · cases hs
      · cases hs
        exact ⟨rfl, rfl, by simp [message]⟩
  | raise e => cases h

theorem run_sql_ok {F : Faults ε} {f : σ → Except ε σ} {db db' : σ} {w w' : World σ μ}
    (h : (Op.sql f).run F db w = .ok db' w') : f db = .ok db' := (run_ok h).1

theorem run_error {F : Faults ε} {op : Op σ ε μ} {db : σ} {w w' : World σ μ} {e : ε}
    (h : op.run F db w = .error e w') : w'.store = w.store ∧ w'.channel = w.channel := by
  cases op with
  | sql f =>
      simp only [run, Outbox.sql, query] at h
      split at h
      · cases h; exact ⟨rfl, rfl⟩
      · cases hf : f db with
        | ok a => simp only [hf] at h; cases h
        | error e => simp only [hf] at h; cases h; exact ⟨rfl, rfl⟩
  | send m =>
      rcases bind_eq_error.mp h with hs | ⟨_, _, _, hp⟩
      · simp only [Outbox.send] at hs
        split at hs
        · cases hs; exact ⟨rfl, rfl⟩
        · cases hs
      · cases hp
  | raise e => cases h; exact ⟨rfl, rfl⟩

end Op

theorem commit_ok {F : Faults ε} {db : σ} {w w' : World σ μ} (h : commit F db w = .ok () w') :
    w'.store = db ∧ w'.channel = w.channel := by
  obtain ⟨_, w₁, hsql, hpublish⟩ := bind_eq_ok.mp h
  cases hpublish
  have hop : (Op.sql .ok).run F db w = .ok _ w₁ := hsql
  obtain ⟨hdb, _, hchannel⟩ := Op.run_ok hop
  cases hdb
  exact ⟨rfl, hchannel.trans (List.append_nil _)⟩

/-- Up to its commit, what a session does to its working copy is not seen. -/
theorem query_private (F : Faults ε) (q : σ → Except ε α) (db s : σ) :
    Triple (fun w : World σ μ => w.store = s) (query F q db) (fun _ w => w.store = s)
      (fun w => w.store = s) := by
  intro w hw
  simp only [query]
  cases F.sql w.clock with
  | true => exact hw
  | false => cases q db <;> exact hw

theorem commit_private (F : Faults ε) (db s : σ) :
    Triple (fun w : World σ μ => w.store = s) (commit F db) (fun _ _ => True)
      (fun w => w.store = s) :=
  Triple.bind (query_private F .ok db s) fun _ => Triple.modify fun _ _ => trivial

def run (F : Faults ε) : List (Op σ ε μ) → σ → Session σ ε μ σ
  | [], db => pure db
  | op :: ops, db => do
      let db ← op.run F db
      run F ops db

def apply : List (Op σ ε μ) → σ → Except ε σ
  | [], db => .ok db
  | op :: ops, db => match op.apply db with
      | .ok db' => apply ops db'
      | .error e => .error e

/-- Everything a script puts on the channel when it runs to its end. -/
def messages (ops : List (Op σ ε μ)) : List μ := ops.filterMap Op.message

@[simp] theorem messages_nil : messages ([] : List (Op σ ε μ)) = [] := rfl

@[simp] theorem messages_append (xs ys : List (Op σ ε μ)) :
    messages (xs ++ ys) = messages xs ++ messages ys := List.filterMap_append

@[simp] theorem messages_sql (f : σ → Except ε σ) (ops : List (Op σ ε μ)) :
    messages (.sql f :: ops) = messages ops := rfl

@[simp] theorem messages_send (m : μ) (ops : List (Op σ ε μ)) :
    messages (.send m :: ops) = m :: messages ops := rfl

theorem messages_cons (op : Op σ ε μ) (ops : List (Op σ ε μ)) :
    messages (op :: ops) = op.message.toList ++ messages ops := by
  cases op <;> rfl

theorem run_append (F : Faults ε) (xs ys : List (Op σ ε μ)) (db : σ) :
    run F (xs ++ ys) db = (run F xs db >>= fun db' => run F ys db') := by
  induction xs generalizing db with
  | nil => simp only [List.nil_append, run, pure_bind]
  | cons op xs ih => simp only [List.cons_append, run, bind_assoc, ih]

theorem apply_append (xs ys : List (Op σ ε μ)) (db : σ) :
    apply (xs ++ ys) db = (apply xs db >>= fun db' => apply ys db') := by
  induction xs generalizing db with
  | nil => rfl
  | cons op xs ih =>
      simp only [List.cons_append, apply]
      cases op.apply db with
      | ok db' => exact ih db'
      | error e => rfl

theorem apply_cons_ok {op : Op σ ε μ} {ops : List (Op σ ε μ)} {db db' : σ} :
    apply (op :: ops) db = .ok db' ↔ ∃ mid, op.apply db = .ok mid ∧ apply ops mid = .ok db' := by
  cases h : op.apply db with
  | ok mid => simp [apply, h]
  | error e => simp [apply, h]

theorem apply_append_ok {xs ys : List (Op σ ε μ)} {db db' : σ}
    (h : apply (xs ++ ys) db = .ok db') :
    ∃ mid, apply xs db = .ok mid ∧ apply ys mid = .ok db' := by
  rw [apply_append] at h
  cases hx : apply xs db with
  | ok mid => rw [hx] at h; exact ⟨mid, rfl, h⟩
  | error e => rw [hx] at h; cases h

/-- What a script can put on the channel: its messages up to the first error of its own. -/
def heard : List (Op σ ε μ) → List μ
  | [] => []
  | .sql _ :: ops => heard ops
  | .send m :: ops => m :: heard ops
  | .raise _ :: _ => []

theorem heard_subset (ops : List (Op σ ε μ)) : heard ops ⊆ messages ops := by
  induction ops with
  | nil => exact List.Subset.refl _
  | cons op rest ih =>
      cases op with
      | sql f => exact ih
      | send m => exact List.cons_subset_cons m ih
      | raise e => exact List.nil_subset _

/-- Nothing is heard from behind an error. -/
theorem mem_heard_append {m : μ} {xs ys : List (Op σ ε μ)} (h : m ∈ heard (xs ++ ys)) :
    m ∈ heard xs ∨ ((∀ e, .raise e ∉ xs) ∧ m ∈ heard ys) := by
  induction xs with
  | nil => exact .inr ⟨fun _ => List.not_mem_nil, h⟩
  | cons op rest ih =>
      cases op with
      | sql f =>
          refine (ih h).imp_right fun hrest => ⟨fun e hmem => ?_, hrest.2⟩
          rcases List.mem_cons.mp hmem with hhead | hmem
          · cases hhead
          · exact hrest.1 e hmem
      | send k =>
          rcases List.mem_cons.mp h with hhead | hmem
          · exact .inl (hhead ▸ List.mem_cons_self)
          · refine (ih hmem).imp (List.mem_cons_of_mem k) fun hrest => ⟨fun e hraise => ?_, hrest.2⟩
            rcases List.mem_cons.mp hraise with hhead | hraise
            · cases hhead
            · exact hrest.1 e hraise
      | raise e => cases h

theorem heard_append_of_apply {pre rest : List (Op σ ε μ)} {db mid : σ}
    (h : apply pre db = .ok mid) : heard (pre ++ rest) = messages pre ++ heard rest := by
  induction pre generalizing db with
  | nil => rfl
  | cons op ops ih =>
      obtain ⟨db', hop, hrest⟩ := apply_cons_ok.mp h
      cases op with
      | sql f => exact ih hrest
      | send m => exact congrArg (m :: ·) (ih hrest)
      | raise e => cases hop

/-- A script that runs to its end has had its plain effect, sent all its messages and
committed nothing. -/
theorem run_ok {F : Faults ε} {ops : List (Op σ ε μ)} {db db' : σ} {w w' : World σ μ}
    (h : run F ops db w = .ok db' w') :
    apply ops db = .ok db' ∧ w'.store = w.store ∧ w'.channel = w.channel ++ messages ops := by
  induction ops generalizing db w with
  | nil => cases h; exact ⟨rfl, rfl, by simp⟩
  | cons op ops ih =>
      obtain ⟨mid, w₁, hop, hrest⟩ := bind_eq_ok.mp h
      obtain ⟨ha, hs, hc⟩ := Op.run_ok hop
      obtain ⟨ha', hs', hc'⟩ := ih hrest
      refine ⟨by simp only [apply, ha, ha'], hs'.trans hs, ?_⟩
      rw [hc', hc, messages_cons, List.append_assoc]

/-- A step of the script fails after a message is out: the steps before it include a send and
all succeed. This speaks of the script, the store and the faults alone. -/
def LateFault (F : Faults ε) (ops : List (Op σ ε μ)) (db : σ) (w : World σ μ) : Prop :=
  ∃ pre op post mid w₁ e w₂, ops = pre ++ op :: post ∧ messages pre ≠ [] ∧
    run F pre db w = .ok mid w₁ ∧ op.run F mid w₁ = .error e w₂

/-- A script that fails stops at one step: everything before it ran, and the messages out are
exactly those of the steps before. -/
theorem run_error {F : Faults ε} {ops : List (Op σ ε μ)} {db : σ} {w w' : World σ μ} {e : ε}
    (h : run F ops db w = .error e w') :
    ∃ pre op post mid w₁, ops = pre ++ op :: post ∧ run F pre db w = .ok mid w₁ ∧
      op.run F mid w₁ = .error e w' ∧ w'.store = w.store ∧
      w'.channel = w.channel ++ messages pre := by
  induction ops generalizing db w with
  | nil => cases h
  | cons op ops ih =>
      rcases bind_eq_error.mp h with hop | ⟨mid, w₁, hop, hrest⟩
      · obtain ⟨hs, hc⟩ := Op.run_error hop
        exact ⟨[], op, ops, db, w, rfl, rfl, hop, hs, by simpa using hc⟩
      · obtain ⟨pre, bad, post, mid', w₂, rfl, hpre, hbad, hs, hc⟩ := ih hrest
        obtain ⟨_, hs₁, hc₁⟩ := Op.run_ok hop
        refine ⟨op :: pre, bad, post, mid', w₂, rfl, ?_, hbad, hs.trans hs₁, ?_⟩
        · exact (bind_of_ok hop).trans hpre
        · rw [hc, hc₁, messages_cons, List.append_assoc]

theorem run_lateFault {F : Faults ε} {ops : List (Op σ ε μ)} {db : σ} {w : World σ μ}
    (h : LateFault F ops db w) :
    ∃ e w', run F ops db w = .error e w' ∧ w'.channel ≠ w.channel := by
  obtain ⟨pre, op, post, mid, w₁, e, w₂, rfl, hsent, hpre, hop⟩ := h
  obtain ⟨_, _, hc⟩ := run_ok hpre
  refine ⟨e, w₂, ?_, ?_⟩
  · rw [run_append, bind_of_ok hpre]
    exact bind_of_error hop
  · rw [(Op.run_error hop).2, hc]
    simpa using hsent

/-- The faults that leave messages of a failed script on the channel are the late ones. -/
theorem lateFault_iff {F : Faults ε} {ops : List (Op σ ε μ)} {db : σ} {w : World σ μ} :
    LateFault F ops db w ↔ ∃ e w', run F ops db w = .error e w' ∧ w'.channel ≠ w.channel := by
  constructor
  · exact run_lateFault
  · rintro ⟨e, w', h, hc⟩
    obtain ⟨pre, op, post, mid, w₁, hops, hpre, hop, _, hsent⟩ := run_error h
    refine ⟨pre, op, post, mid, w₁, e, w', hops, ?_, hpre, hop⟩
    intro hnil
    rw [hnil, List.append_nil] at hsent
    exact hc hsent

/-- Begin, run the script on the working copy, commit. -/
def transact (F : Faults ε) (ops : List (Op σ ε μ)) : Session σ ε μ Unit := do
  let db ← begin F
  let db ← run F ops db
  commit F db

/-- A whole transaction as a script: opening it and committing it are awaited too. -/
def bracket (ops : List (Op σ ε μ)) : List (Op σ ε μ) := .sql .ok :: (ops ++ [.sql .ok])

theorem transact_eq (F : Faults ε) (ops : List (Op σ ε μ)) (w : World σ μ) :
    transact F ops w =
      (run F (bracket ops) w.store >>= fun db => modify (fun w => w.publish db)) w := by
  have h : transact F ops w = (begin F >>= fun db => run F ops db >>= fun db' =>
    sql F .ok db' >>= fun db'' => modify (fun w => w.publish db'')) w := rfl
  rw [h, bracket]
  simp only [run, run_append, Op.run, bind_assoc, pure_bind]
  rfl

theorem transact_ok {F : Faults ε} {ops : List (Op σ ε μ)} {w w' : World σ μ}
    (h : transact F ops w = .ok () w') :
    apply ops w.store = .ok w'.store ∧ w'.channel = w.channel ++ messages ops := by
  rw [transact_eq] at h
  obtain ⟨db, w₁, hrun, hpub⟩ := bind_eq_ok.mp h
  cases hpub
  obtain ⟨ha, _, hc⟩ := run_ok hrun
  have ha' : apply (ops ++ [.sql .ok]) w.store = .ok db := ha
  obtain ⟨mid, hm, hlast⟩ := apply_append_ok ha'
  cases hlast
  exact ⟨hm, by simpa [bracket] using hc⟩

theorem transact_error_store {F : Faults ε} {ops : List (Op σ ε μ)} {w w' : World σ μ} {e : ε}
    (h : transact F ops w = .error e w') : w'.store = w.store := by
  rw [transact_eq] at h
  rcases bind_eq_error.mp h with hrun | ⟨_, _, _, hpub⟩
  · obtain ⟨_, _, _, _, _, _, _, _, hs, _⟩ := run_error hrun
    exact hs
  · cases hpub

/-- A failed transaction has put a message on the channel exactly if the fault was late. -/
theorem transact_error_channel {F : Faults ε} {ops : List (Op σ ε μ)} {w w' : World σ μ} {e : ε}
    (h : transact F ops w = .error e w') :
    w'.channel = w.channel ↔ ¬ LateFault F (bracket ops) w.store w := by
  rw [transact_eq] at h
  rcases bind_eq_error.mp h with hrun | ⟨_, _, _, hpub⟩
  · rw [lateFault_iff, not_exists]
    constructor
    · rintro hc _ ⟨w₂, h₂, hne⟩
      cases hrun.symm.trans h₂
      exact hne hc
    · intro hall
      exact Classical.not_not.mp fun hne => hall e ⟨w', hrun, hne⟩
  · cases hpub

theorem transact_error_heard {F : Faults ε} {ops : List (Op σ ε μ)} {w w' : World σ μ} {e : ε}
    (h : transact F ops w = .error e w') :
    ∃ ms, w'.channel = w.channel ++ ms ∧ ∀ m ∈ ms, m ∈ heard ops := by
  rw [transact_eq] at h
  rcases bind_eq_error.mp h with hrun | ⟨_, _, _, hpub⟩
  · obtain ⟨pre, op, post, _, _, hops, hpre, _, _, hc⟩ := run_error hrun
    refine ⟨messages pre, hc, fun m hm => ?_⟩
    have hbracket : m ∈ heard (ops ++ [.sql .ok]) := by
      change m ∈ heard (bracket ops)
      rw [hops, heard_append_of_apply (run_ok hpre).1]
      exact List.mem_append_left _ hm
    rcases mem_heard_append hbracket with hmem | ⟨_, hnone⟩
    · exact hmem
    · cases hnone
  · cases hpub

theorem transact_error_prefix {F : Faults ε} {ops : List (Op σ ε μ)} {w w' : World σ μ} {e : ε}
    (h : transact F ops w = .error e w') : ∃ ms, w'.channel = w.channel ++ ms := by
  rw [transact_eq] at h
  rcases bind_eq_error.mp h with hrun | ⟨_, _, _, hpub⟩
  · obtain ⟨pre, _, _, _, _, _, _, _, _, hc⟩ := run_error hrun
    exact ⟨messages pre, hc⟩
  · cases hpub

structure Faults.Quiet (F : Faults ε) : Prop where
  sql : ∀ t, F.sql t = false
  closed : ∀ t, F.closed t = false

theorem query_quiet {F : Faults ε} (hF : F.Quiet) {q : σ → Except ε α} {db : σ} {a : α}
    (h : q db = .ok a) (w : World σ μ) : query F q db w = .ok a w.tick := by
  simp only [query, hF.sql, Bool.false_eq_true, if_false, h]

theorem commit_quiet {F : Faults ε} (hF : F.Quiet) (db : σ) (w : World σ μ) :
    commit F db w = .ok () (w.tick.publish db) := by
  have hsql : sql F .ok db w = .ok db w.tick := by
    simp only [sql, query, hF.sql, Bool.false_eq_true, if_false]
  exact bind_of_ok hsql

theorem Op.run_quiet {F : Faults ε} (hF : F.Quiet) {op : Op σ ε μ} {db db' : σ}
    (h : op.apply db = .ok db') (w : World σ μ) : ∃ w', op.run F db w = .ok db' w' := by
  cases op with
  | sql f => exact ⟨w.tick, query_quiet hF h w⟩
  | send m =>
      cases h
      refine ⟨w.push m, ?_⟩
      have hsend : Outbox.send F m w = .ok () (w.push m) := by
        simp only [Outbox.send, hF.closed, Bool.false_eq_true, if_false]
      exact bind_of_ok hsend
  | raise e => cases h

theorem run_quiet {F : Faults ε} (hF : F.Quiet) {ops : List (Op σ ε μ)} {db db' : σ}
    (h : apply ops db = .ok db') (w : World σ μ) : ∃ w', run F ops db w = .ok db' w' := by
  induction ops generalizing db w with
  | nil => cases h; exact ⟨w, rfl⟩
  | cons op ops ih =>
      obtain ⟨mid, hop, hrest⟩ := apply_cons_ok.mp h
      obtain ⟨w₁, h₁⟩ := Op.run_quiet hF hop w
      obtain ⟨w', h'⟩ := ih hrest w₁
      exact ⟨w', (bind_of_ok h₁).trans h'⟩

theorem transact_quiet {F : Faults ε} (hF : F.Quiet) {ops : List (Op σ ε μ)} {w : World σ μ}
    {db : σ} (h : apply ops w.store = .ok db) : ∃ w', transact F ops w = .ok () w' := by
  have hbracket : apply (bracket ops) w.store = .ok db := by
    refine apply_cons_ok.mpr ⟨w.store, rfl, ?_⟩
    rw [apply_append, h]
    rfl
  obtain ⟨w₁, h₁⟩ := run_quiet hF hbracket w
  exact ⟨w₁.publish db, by rw [transact_eq, bind_of_ok h₁]; rfl⟩

def plain (fs : List (σ → σ)) : List (Op σ ε μ) := fs.map (fun f => .sql (fun s => .ok (f s)))

def World.later (w : World σ μ) (n : Nat) : World σ μ := { w with clock := w.clock + n }

@[simp] theorem World.later_store (w : World σ μ) (n : Nat) : (w.later n).store = w.store := rfl
@[simp] theorem World.later_channel (w : World σ μ) (n : Nat) :
    (w.later n).channel = w.channel := rfl
@[simp] theorem World.later_clock (w : World σ μ) (n : Nat) :
    (w.later n).clock = w.clock + n := rfl

theorem run_plain_ok_iff {F : Faults ε} {fs : List (σ → σ)} {db db' : σ} {w w' : World σ μ} :
    run F (plain fs) db w = .ok db' w' ↔
      (∀ k < fs.length, F.sql (w.clock + k) = false) ∧
        db' = fs.foldl (fun s f => f s) db ∧ w' = w.later fs.length := by
  induction fs generalizing db w with
  | nil =>
      constructor
      · rintro ⟨⟩
        exact ⟨by simp, rfl, rfl⟩
      · rintro ⟨_, rfl, rfl⟩
        rfl
  | cons f fs ih =>
      have hcons : run F (plain (f :: fs)) db w =
          (query F (fun s => .ok (f s)) db >>= fun db => run F (plain fs) db) w := rfl
      rw [hcons]
      cases hnow : F.sql w.clock with
      | true =>
          have hfail : query F (fun s => .ok (f s)) db w = .error (F.fault w.clock) w.tick := by
            simp only [query, hnow, if_true]
          rw [bind_of_error hfail]
          constructor
          · rintro ⟨⟩
          · intro h
            have h0 := h.1 0 (by simp)
            simp only [Nat.add_zero, hnow] at h0
            cases h0
      | false =>
          have hstep : query F (fun s => .ok (f s)) db w = .ok (f db) w.tick := by
            simp only [query, hnow, Bool.false_eq_true, if_false]
          rw [bind_of_ok hstep, ih]
          have hlater : w.tick.later fs.length = w.later (f :: fs).length := by
            simp only [World.later, World.tick, List.length_cons]
            congr 1
            omega
          rw [hlater]
          refine and_congr_left fun _ => ⟨fun h k hk => ?_, fun h k hk => ?_⟩
          · cases k with
            | zero => exact hnow
            | succ k =>
                have hk' := h k (by simpa using hk)
                rwa [World.tick_clock, Nat.add_assoc, Nat.add_comm 1 k] at hk'
          · have hk' := h (k + 1) (by simpa using hk)
            rwa [World.tick_clock, Nat.add_assoc, Nat.add_comm 1 k]

theorem bracket_plain (fs : List (σ → σ)) :
    bracket (plain fs : List (Op σ ε μ)) = plain (id :: (fs ++ [id])) := by
  simp only [bracket, plain, List.map_cons, List.map_append, List.map_nil]
  rfl

theorem transact_plain_ok_iff {F : Faults ε} {fs : List (σ → σ)} {w w' : World σ μ} :
    transact F (plain fs) w = .ok () w' ↔
      (∀ k < fs.length + 2, F.sql (w.clock + k) = false) ∧
        w' = (w.later (fs.length + 2)).publish (fs.foldl (fun s f => f s) w.store) := by
  have hlength : (id :: (fs ++ [id]) : List (σ → σ)).length = fs.length + 2 := by simp
  rw [transact_eq, bind_eq_ok, bracket_plain]
  constructor
  · rintro ⟨db, w₁, hrun, hpub⟩
    obtain ⟨hquiet, rfl, rfl⟩ := run_plain_ok_iff.mp hrun
    cases hpub
    refine ⟨fun k hk => hquiet k (by omega), ?_⟩
    simp only [List.foldl_cons, List.foldl_append, List.foldl_nil, id_eq, hlength]
  · rintro ⟨hquiet, rfl⟩
    refine ⟨_, _, run_plain_ok_iff.mpr ⟨fun k hk => hquiet k (by omega), rfl, rfl⟩, ?_⟩
    simp only [List.foldl_cons, List.foldl_append, List.foldl_nil, id_eq, hlength]
    rfl

def Ticks (x : Session σ ε μ α) : Prop := Moves (fun w w' => w.clock ≤ w'.clock) x

theorem Ticks.bind {β : Type} {x : Session σ ε μ α} {f : α → Session σ ε μ β} (hx : Ticks x)
    (hf : ∀ a, Ticks (f a)) : Ticks (x >>= f) :=
  Moves.bind (R := fun w w' : World σ μ => w.clock ≤ w'.clock) (fun _ _ _ => Nat.le_trans) hx hf

theorem Ticks.pure (a : α) : Ticks (pure a : Session σ ε μ α) := fun _ => Nat.le_refl _

theorem query_ticks (F : Faults ε) (q : σ → Except ε α) (db : σ) :
    Ticks (query F q db : Session σ ε μ α) := by
  intro w
  simp only [query]
  split
  · exact Nat.le_succ _
  · cases q db <;> exact Nat.le_succ _

theorem begin_ticks (F : Faults ε) : Ticks (begin F : Session σ ε μ σ) := fun w =>
  query_ticks F .ok w.store w

theorem Op.run_ticks (F : Faults ε) (op : Op σ ε μ) (db : σ) : Ticks (op.run F db) := by
  cases op with
  | sql f => exact query_ticks F f db
  | raise e => exact fun _ => Nat.le_refl _
  | send m =>
      refine Ticks.bind (fun w => ?_) fun _ => Ticks.pure db
      simp only [Outbox.send]
      split <;> exact Nat.le_refl _

theorem run_ticks (F : Faults ε) (ops : List (Op σ ε μ)) (db : σ) : Ticks (run F ops db) := by
  induction ops generalizing db with
  | nil => exact Ticks.pure db
  | cons op ops ih => exact Ticks.bind (op.run_ticks F db) ih

theorem transact_ticks (F : Faults ε) (ops : List (Op σ ε μ)) : Ticks (transact F ops) :=
  Ticks.bind (begin_ticks F) fun db => Ticks.bind (run_ticks F ops db) fun db =>
    Ticks.bind (query_ticks F .ok db) fun _ _ => Nat.le_refl _

/-- A statement outside any transaction commits by itself. -/
def execute (F : Faults ε) (q : σ → α × σ) : Session σ ε μ α := fun w =>
  if F.sql w.clock then .error (F.fault w.clock) w.tick
  else .ok (q w.store).1 (w.tick.publish (q w.store).2)

theorem execute_ok_iff {F : Faults ε} {q : σ → α × σ} {w w' : World σ μ} {a : α} :
    execute F q w = .ok a w' ↔
      F.sql w.clock = false ∧ a = (q w.store).1 ∧ w' = w.tick.publish (q w.store).2 := by
  unfold execute
  cases F.sql w.clock with
  | true =>
      constructor
      · rintro ⟨⟩
      · rintro ⟨⟨⟩, _⟩
  | false =>
      constructor
      · rintro ⟨⟩
        exact ⟨rfl, rfl, rfl⟩
      · rintro ⟨_, rfl, rfl⟩
        rfl

theorem execute_error {F : Faults ε} {q : σ → α × σ} {w w' : World σ μ} {e : ε}
    (h : execute F q w = .error e w') : F.sql w.clock = true ∧ w'.store = w.store := by
  unfold execute at h
  split at h
  · next hfail => cases h; exact ⟨hfail, rfl⟩
  · cases h

section Accounts

variable {F : Faults ε} {excused : ε → Prop}

theorem one_tick_accounts {x : Session σ ε μ α}
    (hx : ∀ w, if F.sql w.clock then ∃ e, x w = .error e w.tick
      else ∃ a w', x w = .ok a w' ∧ w'.clock = w.clock + 1) :
    Accounts World.clock F.sql excused x := by
  intro w
  have hrun := hx w
  split at hrun
  · next hfail =>
      obtain ⟨e, herror⟩ := hrun
      rw [herror]
      exact ⟨Nat.le_succ _, .inr ⟨w.clock, Nat.le_refl _, Nat.lt_succ_self _, hfail⟩⟩
  · next hok =>
      obtain ⟨a, w', hreturn, hclock⟩ := hrun
      rw [hreturn, final_ok, hclock]
      refine ⟨Nat.le_succ _, fun t hle hlt => ?_⟩
      rw [hclock] at hlt
      have ht : t = w.clock := Nat.le_antisymm (Nat.le_of_lt_succ hlt) hle
      rw [ht]
      exact Bool.eq_false_iff.mpr hok

theorem query_accounts (q : σ → α) (db : σ) :
    Accounts World.clock F.sql excused
      (query F (fun s => .ok (q s)) db : Session σ ε μ α) := by
  refine one_tick_accounts fun w => ?_
  simp only [query]
  split
  · exact ⟨_, rfl⟩
  · exact ⟨_, _, rfl, rfl⟩

theorem execute_accounts (q : σ → α × σ) :
    Accounts World.clock F.sql excused (execute F q : Session σ ε μ α) := by
  refine one_tick_accounts fun w => ?_
  simp only [execute]
  split
  · exact ⟨_, rfl⟩
  · exact ⟨_, _, rfl, rfl⟩

theorem begin_accounts :
    Accounts World.clock F.sql excused (begin F : Session σ ε μ σ) :=
  fun w => query_accounts (fun s => s) w.store w

theorem commit_accounts (db : σ) :
    Accounts World.clock F.sql excused (commit F db : Session σ ε μ Unit) :=
  Accounts.bind (query_accounts (fun s => s) db) fun _ => Accounts.modify fun _ => rfl

end Accounts

def Op.Raises (op : Op σ ε μ) (e : ε) : Prop :=
  match op with
  | .sql f => ∃ db, f db = .error e
  | .send _ => False
  | .raise e' => e' = e

theorem Op.run_raises {F : Faults ε} {op : Op σ ε μ} {db : σ} {w w' : World σ μ} {e : ε}
    (h : op.run F db w = .error e w') : (∃ t, e = F.fault t) ∨ e = F.gone ∨ op.Raises e := by
  cases op with
  | sql f =>
      simp only [Op.run, Outbox.sql, query] at h
      split at h
      · cases h
        exact .inl ⟨w.clock, rfl⟩
      · cases hf : f db with
        | ok db' => rw [hf] at h; cases h
        | error e' =>
            rw [hf] at h
            cases h
            exact .inr (.inr ⟨db, hf⟩)
  | send m =>
      rcases bind_eq_error.mp h with hs | ⟨_, _, _, hp⟩
      · simp only [Outbox.send] at hs
        split at hs
        · cases hs
          exact .inr (.inl rfl)
        · cases hs
      · cases hp
  | raise e' =>
      cases h
      exact .inr (.inr rfl)

theorem transact_raises {F : Faults ε} {ops : List (Op σ ε μ)} {w w' : World σ μ} {e : ε}
    (h : transact F ops w = .error e w') :
    (∃ t, e = F.fault t) ∨ e = F.gone ∨ ∃ op ∈ ops, op.Raises e := by
  rw [transact_eq] at h
  rcases bind_eq_error.mp h with hrun | ⟨_, _, _, hpublish⟩
  · obtain ⟨pre, op, post, mid, w₁, hops, _, hop, _⟩ := run_error hrun
    have hin : op ∈ bracket ops := by rw [hops]; simp
    rcases Op.run_raises hop with hfault | hgone | hraises
    · exact .inl hfault
    · exact .inr (.inl hgone)
    · refine .inr (.inr ?_)
      have hquiet : ¬ (Op.sql .ok : Op σ ε μ).Raises e := by
        rintro ⟨db, hdb⟩
        cases hdb
      rcases List.mem_cons.mp hin with rfl | hin
      · exact absurd hraises hquiet
      · rcases List.mem_append.mp hin with hin | hin
        · exact ⟨op, hin, hraises⟩
        · rw [List.mem_singleton.mp hin] at hraises
          exact absurd hraises hquiet
  · cases hpublish

end Outbox
