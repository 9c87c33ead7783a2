import BtcIndexer.Machines
import BtcIndexer.Rows
import BtcIndexer.Types

/-! The network a database belongs to. Before it starts, a process looks up the network in the
config table, refuses a different one and writes its own. The lookup and the write are two
statements and no transaction holds them together: other processes may run theirs between. -/
namespace BtcIndexer
open Machines Rows

/-- The documents that stand for the values of a type. -/
structure Serde (δ N : Type) where
  toValue : N → δ
  fromValue : δ → Option N

inductive Network where
  | bitcoin
  | testnet
  | testnet4
  | signet
  | regtest
  deriving DecidableEq, Repr

def Network.serde : Serde String Network where
  toValue
    | .bitcoin => "bitcoin"
    | .testnet => "testnet"
    | .testnet4 => "testnet4"
    | .signet => "signet"
    | .regtest => "regtest"
  fromValue
    | "bitcoin" => some .bitcoin
    | "testnet" => some .testnet
    | "testnet4" => some .testnet4
    | "signet" => some .signet
    | "regtest" => some .regtest
    | _ => none

structure ConfigRow (δ : Type) where
  key : String
  data : δ
  deriving DecidableEq, Repr

structure ConfigTable (δ : Type) where
  rows : List (ConfigRow δ)
  keyed : Keyed ConfigRow.key rows

inductive ConfigError where
  | sqlx (e : SqlxError)
  | columnDecode
  | other (text : String)
  deriving DecidableEq, Repr

def ensureAffected (count affected : Nat) : Except SqlxError Unit :=
  if affected = count then .ok () else .error .rowNotFound

section Table

variable {δ N : Type}

def ConfigTable.empty : ConfigTable δ := ⟨[], Keyed.nil _⟩

/-- A row inserted, or the row of its key updated, is one row affected. -/
def ConfigTable.execute (row : ConfigRow δ) (config : ConfigTable δ) : Nat × ConfigTable δ :=
  (if row.key ∈ config.rows.map ConfigRow.key
    then (config.rows.filter (fun r => r.key = row.key)).length else 1,
    ⟨upsert ConfigRow.key (fun r => { r with data := row.data }) row config.rows,
      config.keyed.upsert fun _ => rfl⟩)

/-- The statement is not undone where it affects another number of rows. -/
def upsertConfig (S : Serde δ N) (key : String) (data : N) (config : ConfigTable δ) :
    Except SqlxError Unit × ConfigTable δ :=
  let done := config.execute ⟨key, S.toValue data⟩
  (ensureAffected 1 done.1, done.2)

def getConfig (S : Serde δ N) (key : String) (config : ConfigTable δ) :
    Except ConfigError (Option N) :=
  match config.rows.find? (fun r => r.key = key) with
  | none => .ok none
  | some row => match S.fromValue row.data with
    | some data => .ok (some data)
    | none => .error .columnDecode

def ConfigTable.data? (config : ConfigTable δ) (key : String) : Option δ :=
  (config.rows.find? (fun r => r.key = key)).map ConfigRow.data

theorem getConfig_none {S : Serde δ N} {key : String} {config : ConfigTable δ}
    (h : config.data? key = none) : getConfig S key config = .ok none := by
  rw [ConfigTable.data?, Option.map_eq_none_iff] at h
  rw [getConfig, h]

theorem getConfig_some {S : Serde δ N} {key : String} {config : ConfigTable δ} {n : N}
    (hS : ∀ n, S.fromValue (S.toValue n) = some n) (h : config.data? key = some (S.toValue n)) :
    getConfig S key config = .ok (some n) := by
  obtain ⟨row, hrow, hdata⟩ := Option.map_eq_some_iff.mp h
  rw [getConfig, hrow]
  simp only [hdata, hS]

/-- The statement always affects the one row of its key. -/
theorem upsertConfig_ok (S : Serde δ N) (key : String) (data : N) (config : ConfigTable δ) :
    (upsertConfig S key data config).1 = .ok () := by
  have hone : (config.execute ⟨key, S.toValue data⟩).1 = 1 := by
    unfold ConfigTable.execute
    split
    · next hin =>
        obtain ⟨r, hr, rfl⟩ := List.mem_map.mp hin
        have hrow : config.rows.filter (fun s => s.key = r.key) = [r] :=
          config.keyed.filter_eq_singleton hr fun s _ => by rw [decide_eq_true_iff]
        rw [hrow]
        rfl
    · rfl
  rw [upsertConfig, hone]
  rfl

theorem upsertConfig_data? (S : Serde δ N) (key : String) (data : N) (config : ConfigTable δ)
    (other : String) : (upsertConfig S key data config).2.data? other =
      if key = other then some (S.toValue data) else config.data? other := by
  let merge : ConfigRow δ → ConfigRow δ := fun r => { r with data := S.toValue data }
  have hstable : ∀ r, (merge r).key = r.key := fun _ => rfl
  have hfind : (upsert ConfigRow.key merge ⟨key, S.toValue data⟩ config.rows).find?
      (fun r => r.key = other) =
        if key = other then some (((config.rows.find? (fun r => r.key = other)).map merge).getD
          ⟨key, S.toValue data⟩)
        else config.rows.find? (fun r => r.key = other) := find?_upsert hstable other
  rw [ConfigTable.data?]
  change Option.map _ ((upsert _ _ _ config.rows).find? _) = _
  rw [hfind]
  split
  · cases config.rows.find? (fun r => r.key = other) <;> rfl
  · rfl

end Table

/-- How far a process has come. What its lookup found is for statements about runs. -/
inductive Startup where
  | launched
  | checked (found : Bool)
  | running (found : Bool)
  | refused (e : ConfigError)
  deriving DecidableEq, Repr

def Startup.runs : Startup → Bool
  | .running _ => true
  | .launched | .checked _ | .refused _ => false

/-- The process runs although its lookup found no network. -/
def Startup.first : Startup → Bool
  | .running false => true
  | .running true | .launched | .checked _ | .refused _ => false

/-- The network of the process is one that it found, or one that it has written. -/
def Startup.passed : Startup → Bool
  | .checked true | .running _ => true
  | .checked false | .launched | .refused _ => false

def Startup.waits : Startup → Bool
  | .checked _ => true
  | .running _ | .launched | .refused _ => false

theorem Startup.passed_of_runs {startup : Startup} (h : startup.runs = true) :
    startup.passed = true := by
  cases startup with
  | running found => rfl
  | launched | checked found | refused e => cases h

theorem Startup.first_iff {startup : Startup} :
    startup.first = true ↔ startup = .running false := by
  cases startup with
  | running found => cases found <;> simp [first]
  | launched | checked found | refused e => simp [first]

structure Process (N : Type) where
  network : N
  startup : Startup
  deriving DecidableEq, Repr

structure Launch (δ N : Type) where
  config : ConfigTable δ
  processes : List (Process N)

namespace Launch

/-- A statement of a process. One that fails or is given up leaves the table as it was. -/
inductive Act where
  | check (id : Nat)
  | write (id : Nat)
  | fail (id : Nat)
  deriving DecidableEq, Repr

def networkInfo : String := "network_info"

variable {δ N : Type}

def new (config : ConfigTable δ) (networks : List N) : Launch δ N :=
  ⟨config, networks.map fun n => ⟨n, .launched⟩⟩

def set (g : Launch δ N) (id : Nat) (p : Process N) (startup : Startup) : Launch δ N :=
  { g with processes := g.processes.set id { p with startup := startup } }

/-- The table held the network from the start, or a first process has written it. -/
def Source (base : Option N) (g : Launch δ N) (n : N) : Prop :=
  base = some n ∨ ∃ p ∈ g.processes, p.startup.first = true ∧ p.network = n

section Turns

variable {base : Option N} {g : Launch δ N} {id : Nat}

theorem mem_set {p q : Process N} {startup : Startup} (hq : q ∈ (g.set id p startup).processes) :
    q ∈ g.processes ∨ q = { p with startup := startup } := List.mem_or_eq_of_mem_set hq

theorem get_set {p q : Process N} {startup : Startup} {i : Nat}
    (hq : (g.set id p startup).processes[i]? = some q) :
    (i = id ∧ q = { p with startup := startup }) ∨ (i ≠ id ∧ g.processes[i]? = some q) := by
  change (g.processes.set id _)[i]? = some q at hq
  by_cases hid : i = id
  · subst hid
    rw [List.getElem?_set_self'] at hq
    obtain ⟨_, _, rfl⟩ := Option.map_eq_some_iff.mp hq
    exact .inl ⟨rfl, rfl⟩
  · rw [List.getElem?_set_ne (Ne.symm hid)] at hq
    exact .inr ⟨hid, hq⟩

theorem mem_set_self {p : Process N} {startup : Startup} (hp : g.processes[id]? = some p) :
    { p with startup := startup } ∈ (g.set id p startup).processes :=
  List.mem_set (List.getElem?_eq_some_iff.mp hp).1 _

theorem mem_set_of_ne {p q : Process N} {startup : Startup} (hp : g.processes[id]? = some p)
    (hq : q ∈ g.processes) (hne : q ≠ p) : q ∈ (g.set id p startup).processes := by
  obtain ⟨i, hi⟩ := List.mem_iff_getElem?.mp hq
  refine List.mem_iff_getElem?.mpr ⟨i, ?_⟩
  have hid : id ≠ i := by
    rintro rfl
    rw [hp, Option.some.injEq] at hi
    exact hne hi.symm
  change (g.processes.set id _)[i]? = some q
  rw [List.getElem?_set_ne hid, hi]

theorem Source.set {p : Process N} {startup : Startup} {n : N} (h : Source base g n)
    (hp : g.processes[id]? = some p) (hearly : p.startup.runs = false) (config : ConfigTable δ) :
    Source base ({ g with config := config }.set id p startup) n := by
  refine h.imp_right ?_
  rintro ⟨q, hq, hfirst, hn⟩
  refine ⟨q, mem_set_of_ne hp hq ?_, hfirst, hn⟩
  rintro rfl
  revert hfirst hearly
  cases q.startup with
  | running found => intro hfirst hearly; cases hearly
  | launched | checked found | refused e => intro hfirst; cases hfirst

end Turns

/-- The lookup of `assert_environment` and what follows from its answer. -/
def compared [DecidableEq N] (S : Serde δ N) (config : ConfigTable δ) (env : N) : Startup :=
  match getConfig S networkInfo config with
  | .error e => .refused e
  | .ok (some info) =>
      if env = info then .checked true
      else .refused (.other "Client: database has different network info")
  | .ok none => .checked false

def step [DecidableEq N] (S : Serde δ N) (g : Launch δ N) : Act → Option (Launch δ N)
  | .check id => match g.processes[id]? with
    | some ⟨n, .launched⟩ => some (g.set id ⟨n, .launched⟩ (compared S g.config n))
    | _ => none
  | .write id => match g.processes[id]? with
    | some ⟨n, .checked found⟩ =>
        let (done, config) := upsertConfig S networkInfo n g.config
        some ({ g with config := config }.set id ⟨n, .checked found⟩ (match done with
          | .ok () => .running found
          | .error e => .refused (.sqlx e)))
    | _ => none
  | .fail id => match g.processes[id]? with
    | some ⟨n, .launched⟩ => some (g.set id ⟨n, .launched⟩ (.refused (.sqlx .io)))
    | some ⟨n, .checked found⟩ => some (g.set id ⟨n, .checked found⟩ (.refused (.sqlx .io)))
    | _ => none

inductive Effect [DecidableEq N] (S : Serde δ N) (g : Launch δ N) : Act → Launch δ N → Prop
  | checked {id : Nat} {n : N} (before : g.processes[id]? = some ⟨n, .launched⟩) :
      Effect S g (.check id) (g.set id ⟨n, .launched⟩ (compared S g.config n))
  | written {id : Nat} {n : N} {found : Bool}
      (before : g.processes[id]? = some ⟨n, .checked found⟩) :
      Effect S g (.write id) ({ g with config := (upsertConfig S networkInfo n g.config).2 }.set id
        ⟨n, .checked found⟩ (.running found))
  | failed {act : Act} {id : Nat} {p : Process N} (before : g.processes[id]? = some p)
      (early : ∀ found, p.startup ≠ .running found) :
      Effect S g act (g.set id p (.refused (.sqlx .io)))

section Steps

variable [DecidableEq N] {S : Serde δ N} {g g' : Launch δ N} {act : Act}

theorem compared_none {config : ConfigTable δ} (h : config.data? networkInfo = none) (env : N) :
    compared S config env = .checked false := by
  rw [compared, getConfig_none h]

theorem compared_some {config : ConfigTable δ} {n : N}
    (hS : ∀ n, S.fromValue (S.toValue n) = some n)
    (h : config.data? networkInfo = some (S.toValue n)) (env : N) :
    compared S config env = if env = n then .checked true
      else .refused (.other "Client: database has different network info") := by
  rw [compared, getConfig_some hS h]

theorem step_effect (h : g.step S act = some g') : Effect S g act g' := by
  cases act with
  | check id =>
      simp only [step] at h
      split at h
      · next n hbefore =>
          cases h
          exact .checked hbefore
      · cases h
  | write id =>
      simp only [step, upsertConfig_ok] at h
      split at h
      · next n found hbefore =>
          cases h
          exact .written hbefore
      · cases h
  | fail id =>
      simp only [step] at h
      split at h
      · next n hbefore =>
          cases h
          exact .failed hbefore nofun
      · next n found hbefore =>
          cases h
          exact .failed hbefore nofun
      · cases h

end Steps

structure Traced (S : Serde δ N) (base : Option N) (g : Launch δ N) : Prop where
  row : ∀ d, g.config.data? networkInfo = some d → ∃ n, d = S.toValue n ∧ Source base g n
  missing : g.config.data? networkInfo = none ↔
    base = none ∧ ∀ p ∈ g.processes, p.startup.runs = false
  passed : ∀ p ∈ g.processes, p.startup.passed = true → Source base g p.network
  known : base.isSome = true → ∀ p ∈ g.processes, p.startup ≠ .checked false ∧
    p.startup ≠ .running false

section Traced

variable {S : Serde δ N} {base : Option N} {g g' : Launch δ N} {act : Act}

theorem traced_new (S : Serde δ N) {config : ConfigTable δ}
    (hbase : config.data? networkInfo = base.map S.toValue) (networks : List N) :
    Traced S base (new config networks) := by
  have hlaunched : ∀ p ∈ (new config networks).processes, p.startup = .launched := by
    intro p hp
    obtain ⟨n, _, rfl⟩ := List.mem_map.mp hp
    rfl
  refine ⟨fun d hd => ?_, ?_, fun p hp hpassed => ?_, fun _ p hp => ?_⟩
  · obtain ⟨n, hn, rfl⟩ := Option.map_eq_some_iff.mp (hbase.symm.trans hd)
    exact ⟨n, rfl, .inl hn⟩
  · change config.data? networkInfo = none ↔ _
    rw [hbase, Option.map_eq_none_iff]
    exact ⟨fun h => ⟨h, fun p hp => by rw [hlaunched p hp]; rfl⟩, And.left⟩
  · rw [hlaunched p hp] at hpassed
    cases hpassed
  · rw [hlaunched p hp]
    exact ⟨nofun, nofun⟩

theorem Traced.set (h : Traced S base g) {id : Nat} {p : Process N} {startup : Startup}
    (hp : g.processes[id]? = some p) (hearly : p.startup.runs = false)
    (hwaits : startup.runs = false) (hpassed : startup.passed = true → Source base g p.network)
    (hknown : base.isSome = true → startup ≠ .checked false) :
    Traced S base (g.set id p startup) := by
  have hsource : ∀ {n}, Source base g n → Source base (g.set id p startup) n :=
    fun hn => hn.set hp hearly g.config
  refine ⟨fun d hd => ?_, ?_, fun q hq hqpassed => ?_, fun hbase q hq => ?_⟩
  · obtain ⟨n, hn, hsourced⟩ := h.row d hd
    exact ⟨n, hn, hsource hsourced⟩
  · refine h.missing.trans (and_congr_right fun _ => ⟨fun hnone q hq => ?_, fun hnone q hq => ?_⟩)
    · rcases mem_set hq with hq | rfl
      · exact hnone q hq
      · exact hwaits
    · by_cases hqp : q = p
      · rw [hqp, hearly]
      · exact hnone q (mem_set_of_ne hp hq hqp)
  · rcases mem_set hq with hq | rfl
    · exact hsource (h.passed q hq hqpassed)
    · exact hsource (hpassed hqpassed)
  · rcases mem_set hq with hq | rfl
    · exact h.known hbase q hq
    · refine ⟨hknown hbase, ?_⟩
      rintro rfl
      cases hwaits

theorem Traced.written (h : Traced S base g) {id : Nat} {n : N} {found : Bool}
    (hp : g.processes[id]? = some ⟨n, .checked found⟩) :
    Traced S base ({ g with config := (upsertConfig S networkInfo n g.config).2 }.set id
      ⟨n, .checked found⟩ (.running found)) := by
  have hmem : (⟨n, .checked found⟩ : Process N) ∈ g.processes := List.mem_of_getElem? hp
  have hself : (⟨n, .running found⟩ : Process N) ∈ ({ g with
      config := (upsertConfig S networkInfo n g.config).2 }.set id ⟨n, .checked found⟩
        (.running found)).processes := mem_set_self hp
  have hsource : ∀ {m}, Source base g m → Source base ({ g with
      config := (upsertConfig S networkInfo n g.config).2 }.set id ⟨n, .checked found⟩
        (.running found)) m :=
    fun hm => hm.set hp rfl _
  have hown : Source base ({ g with
      config := (upsertConfig S networkInfo n g.config).2 }.set id ⟨n, .checked found⟩
        (.running found)) n := by
    cases found with
    | false => exact .inr ⟨_, hself, rfl, rfl⟩
    | true => exact hsource (h.passed _ hmem rfl)
  have hdata : (upsertConfig S networkInfo n g.config).2.data? networkInfo =
      some (S.toValue n) := by
    rw [upsertConfig_data?, if_pos rfl]
  refine ⟨fun d hd => ⟨n, Option.some.inj (hd.symm.trans hdata), hown⟩, ?_,
    fun q hq hpassed => ?_, fun hbase q hq => ?_⟩
  · refine ⟨fun hnone => ?_, fun hnone => ?_⟩
    · cases hdata.symm.trans hnone
    · cases hnone.2 _ hself
  · rcases mem_set hq with hq | rfl
    · exact hsource (h.passed q hq hpassed)
    · exact hown
  · rcases mem_set hq with hq | rfl
    · exact h.known hbase q hq
    · refine ⟨nofun, ?_⟩
      intro hfirst
      cases hfirst
      exact (h.known hbase _ hmem).1 rfl

theorem Traced.effect [DecidableEq N] (hS : ∀ n, S.fromValue (S.toValue n) = some n)
    (h : Traced S base g) (heffect : Effect S g act g') : Traced S base g' := by
  cases heffect with
  | @checked id n before =>
      cases hdata : g.config.data? networkInfo with
      | none =>
          rw [compared_none hdata]
          refine h.set before rfl rfl nofun fun hbase => ?_
          rw [(h.missing.mp hdata).1] at hbase
          cases hbase
      | some d =>
          obtain ⟨m, rfl, hm⟩ := h.row d hdata
          rw [compared_some hS hdata]
          split
          · next heq => exact h.set before rfl rfl (fun _ => heq ▸ hm) fun _ => nofun
          · exact h.set before rfl rfl nofun fun _ => nofun
  | written before => exact h.written before
  | @failed _ id p before early =>
      have hearly : p.startup.runs = false := by
        cases hstartup : p.startup with
        | running found => exact absurd hstartup (early found)
        | launched | checked found | refused e => rfl
      exact h.set before hearly rfl nofun fun _ => nofun

end Traced

/-- Between the lookup and the write of one process no other looks up. -/
def Apart (g : Launch δ N) : Act → Prop
  | .check _ => ∀ p ∈ g.processes, p.startup.waits = false
  | .write _ | .fail _ => True

instance (g : Launch δ N) : ∀ act, Decidable (Apart g act)
  | .check _ => inferInstanceAs (Decidable (∀ p ∈ g.processes, _))
  | .write _ | .fail _ => inferInstanceAs (Decidable True)

structure Settled (S : Serde δ N) (g : Launch δ N) : Prop where
  alone : ∀ (i j : Nat) (p q : Process N), g.processes[i]? = some p → p.startup.waits = true →
    g.processes[j]? = some q → q.startup.waits = true → i = j
  missing : ∀ p ∈ g.processes, p.startup = .checked false →
    g.config.data? networkInfo = none
  passed : ∀ p ∈ g.processes, p.startup.passed = true →
    g.config.data? networkInfo = some (S.toValue p.network)

section Settled

variable {S : Serde δ N} {base : Option N} {g g' : Launch δ N} {act : Act}

theorem settled_new (S : Serde δ N) (config : ConfigTable δ) (networks : List N) :
    Settled S (new config networks) := by
  have hlaunched : ∀ p ∈ (new config networks).processes, p.startup = .launched := by
    intro p hp
    obtain ⟨n, _, rfl⟩ := List.mem_map.mp hp
    rfl
  refine ⟨fun i j p q hp hwaits _ _ => ?_, fun p hp hfalse => ?_, fun p hp hpassed => ?_⟩
  · rw [hlaunched p (List.mem_of_getElem? hp)] at hwaits
    cases hwaits
  · rw [hlaunched p hp] at hfalse
    cases hfalse
  · rw [hlaunched p hp] at hpassed
    cases hpassed

/-- The only process that has asked and not written is the one that writes now. -/
theorem Settled.written (h : Settled S g) {id : Nat} {n : N} {found : Bool}
    (hp : g.processes[id]? = some ⟨n, .checked found⟩) :
    Settled S ({ g with config := (upsertConfig S networkInfo n g.config).2 }.set id
      ⟨n, .checked found⟩ (.running found)) := by
  have hnone : ∀ (i : Nat) (q : Process N), ({ g with
      config := (upsertConfig S networkInfo n g.config).2 }.set id ⟨n, .checked found⟩
        (.running found)).processes[i]? = some q → q.startup.waits = false := by
    intro i q hq
    rcases get_set hq with ⟨rfl, rfl⟩ | ⟨hne, hold⟩
    · rfl
    · refine Bool.eq_false_iff.mpr fun hwaits => hne (h.alone i id q _ hold hwaits hp rfl)
  have hdata : (upsertConfig S networkInfo n g.config).2.data? networkInfo =
      some (S.toValue n) := by
    rw [upsertConfig_data?, if_pos rfl]
  refine ⟨fun i j p q hi hwaits _ _ => ?_, fun q hq hfalse => ?_, fun q hq hpassed => ?_⟩
  · rw [hnone i p hi] at hwaits
    cases hwaits
  · obtain ⟨i, hi⟩ := List.mem_iff_getElem?.mp hq
    have hwaits := hnone i q hi
    rw [hfalse] at hwaits
    cases hwaits
  · rcases mem_set hq with hq | rfl
    · have hown := h.passed q hq hpassed
      cases found with
      | true => exact hdata.trans ((h.passed _ (List.mem_of_getElem? hp) rfl).symm.trans hown)
      | false => cases (h.missing _ (List.mem_of_getElem? hp) rfl).symm.trans hown
    · exact hdata

theorem Settled.effect [DecidableEq N] (hS : ∀ n, S.fromValue (S.toValue n) = some n)
    (h : Settled S g) (htraced : Traced S base g) (hapart : Apart g act)
    (heffect : Effect S g act g') : Settled S g' := by
  cases heffect with
  | @checked id n before =>
      refine ⟨fun i j p q hi hp hj hq => ?_, fun p hp hfalse => ?_, fun p hp hpassed => ?_⟩
      · rcases get_set hi with ⟨rfl, _⟩ | ⟨_, hold⟩
        · rcases get_set hj with ⟨rfl, _⟩ | ⟨_, hold⟩
          · rfl
          · rw [hapart q (List.mem_of_getElem? hold)] at hq
            cases hq
        · rw [hapart p (List.mem_of_getElem? hold)] at hp
          cases hp
      · rcases mem_set hp with hp | rfl
        · exact h.missing p hp hfalse
        · change g.config.data? networkInfo = none
          cases hdata : g.config.data? networkInfo with
          | none => rfl
          | some d =>
              obtain ⟨m, rfl, _⟩ := htraced.row d hdata
              have hfalse : compared S g.config n = .checked false := hfalse
              rw [compared_some hS hdata] at hfalse
              split at hfalse <;> cases hfalse
      · rcases mem_set hp with hp | rfl
        · exact h.passed p hp hpassed
        · change g.config.data? networkInfo = some (S.toValue n)
          have hpassed : (compared S g.config n).passed = true := hpassed
          cases hdata : g.config.data? networkInfo with
          | none =>
              rw [compared_none hdata] at hpassed
              cases hpassed
          | some d =>
              obtain ⟨m, rfl, _⟩ := htraced.row d hdata
              rw [compared_some hS hdata] at hpassed
              split at hpassed
              · next heq => rw [heq]
              · cases hpassed
  | written before => exact h.written before
  | @failed _ id p before early =>
      refine ⟨fun i j q r hi hq hj hr => ?_, fun q hq hfalse => ?_, fun q hq hpassed => ?_⟩
      · rcases get_set hi with ⟨_, rfl⟩ | ⟨_, hi⟩
        · cases hq
        · rcases get_set hj with ⟨_, rfl⟩ | ⟨_, hj⟩
          · cases hr
          · exact h.alone i j q r hi hq hj hr
      · rcases mem_set hq with hq | rfl
        · exact h.missing q hq hfalse
        · cases hfalse
      · rcases mem_set hq with hq | rfl
        · exact h.passed q hq hpassed
        · cases hpassed

end Settled

/-- What a database says of the processes that run on it. -/
structure Guarded (S : Serde δ N) (base : Option N) (g : Launch δ N) : Prop where
  /-- A process that runs has the network the table held, or that of a process which found none
  there. -/
  source : ∀ p ∈ g.processes, p.startup.runs = true → Source base g p.network
  held : ∀ n, base = some n → ∀ p ∈ g.processes, p.startup.runs = true → p.network = n
  row : (∃ p ∈ g.processes, p.startup.runs = true) →
    ∃ n, getConfig S networkInfo g.config = .ok (some n) ∧ Source base g n
  agree : base = none →
    ((∀ p ∈ g.processes, ∀ q ∈ g.processes, p.startup.runs = true → q.startup.runs = true →
        p.network = q.network) ↔
      ∀ p ∈ g.processes, ∀ q ∈ g.processes, p.startup.first = true → q.startup.first = true →
        p.network = q.network)

theorem Traced.guarded {S : Serde δ N} {base : Option N} {g : Launch δ N}
    (hS : ∀ n, S.fromValue (S.toValue n) = some n) (h : Traced S base g) : Guarded S base g := by
  have hsource : ∀ p ∈ g.processes, p.startup.runs = true → Source base g p.network :=
    fun p hp hruns => h.passed p hp (Startup.passed_of_runs hruns)
  refine ⟨hsource, fun n hn p hp hruns => ?_, ?_, fun hnone => ⟨fun hagree => ?_, fun hagree => ?_⟩⟩
  · rcases hsource p hp hruns with hbase | ⟨q, hq, hfirst, _⟩
    · exact Option.some.inj (hbase.symm.trans hn)
    · exact absurd (Startup.first_iff.mp hfirst) (h.known (by rw [hn]; rfl) q hq).2
  · rintro ⟨p, hp, hruns⟩
    cases hdata : g.config.data? networkInfo with
    | none => cases hruns.symm.trans ((h.missing.mp hdata).2 p hp)
    | some d =>
        obtain ⟨n, rfl, hn⟩ := h.row d hdata
        exact ⟨n, getConfig_some hS hdata, hn⟩
  · intro p hp q hq hpfirst hqfirst
    refine hagree p hp q hq ?_ ?_
    · rw [Startup.first_iff.mp hpfirst]
      rfl
    · rw [Startup.first_iff.mp hqfirst]
      rfl
  · intro p hp q hq hpruns hqruns
    have hfirst : ∀ r ∈ g.processes, r.startup.runs = true →
        ∃ f ∈ g.processes, f.startup.first = true ∧ f.network = r.network := by
      intro r hr hruns
      rcases hsource r hr hruns with hbase | hfirst
      · cases hnone.symm.trans hbase
      · exact hfirst
    obtain ⟨f, hf, hffirst, hfp⟩ := hfirst p hp hpruns
    obtain ⟨f', hf', hffirst', hfq⟩ := hfirst q hq hqruns
    rw [← hfp, ← hfq]
    exact hagree f hf f' hf' hffirst hffirst'

/-- In every interleaving of the starts of any processes, with any failures: on a table that
holds a network no process of another runs, and on one that holds none those that run agree
exactly if the ones among them that found none agree. Where no lookup falls between the lookup
and the write of another process, all that run have the network of the table. -/
theorem network_guarded [DecidableEq N] (S : Serde δ N) (config : ConfigTable δ) (base : Option N)
    (networks : List N) (acts : List Act) (g : Launch δ N)
    (hS : ∀ n, S.fromValue (S.toValue n) = some n)
    (hbase : config.data? networkInfo = base.map S.toValue)
    (hrun : run (step S) acts (new config networks) = some g) :
    Guarded S base g ∧ (Along (step S) Apart acts (new config networks) →
      ∀ p ∈ g.processes, p.startup.runs = true →
        getConfig S networkInfo g.config = .ok (some p.network)) := by
  have htraces : ∀ s act s', Traced S base s → step S s act = some s' → Traced S base s' :=
    fun _ _ _ h hstep => h.effect hS (step_effect hstep)
  have hsettles : ∀ s act s', Apart s act → Traced S base s ∧ Settled S s →
      step S s act = some s' → Traced S base s' ∧ Settled S s' :=
    fun s act s' hact h hstep =>
      ⟨htraces s act s' h.1 hstep, h.2.effect hS h.1 hact (step_effect hstep)⟩
  refine ⟨(run_keeps htraces (traced_new S hbase networks) hrun).guarded hS,
    fun hapart p hp hruns => ?_⟩
  have hsettled := hapart.keeps hsettles
    ⟨traced_new S hbase networks, settled_new S config networks⟩ hrun
  exact getConfig_some hS (hsettled.2.passed p hp (Startup.passed_of_runs hruns))

/-- Two first starts that overlap: both lookups find nothing, and both processes run. -/
def overlapping : List Act := [.check 0, .check 1, .write 0, .write 1]

def overlapped : Launch String Network :=
  (run (step Network.serde) overlapping (new ConfigTable.empty [.bitcoin, .testnet])).getD
    (new ConfigTable.empty [])

theorem overlapped_run : run (step Network.serde) overlapping
    (new ConfigTable.empty [.bitcoin, .testnet]) = some overlapped := rfl

def known : ConfigTable String :=
  (upsertConfig Network.serde networkInfo .bitcoin ConfigTable.empty).2

/-- Starts one after the other on it: the second is refused, and the third fails at its write. -/
def inTurn : List Act := [.check 0, .write 0, .check 1, .check 2, .fail 2, .check 3, .write 3]

def startedInTurn : Launch String Network :=
  (run (step Network.serde) inTurn
    (new known [.bitcoin, .testnet, .bitcoin, .bitcoin])).getD (new ConfigTable.empty [])

theorem startedInTurn_run : run (step Network.serde) inTurn
    (new known [.bitcoin, .testnet, .bitcoin, .bitcoin]) = some startedInTurn := rfl

theorem overlapped_guarded : (Guarded Network.serde none overlapped ∧
    (∀ p ∈ overlapped.processes, p.startup.runs = true) ∧
    overlapped.processes.map Process.network = [.bitcoin, .testnet]) ∧
    Guarded Network.serde (some .bitcoin) startedInTurn ∧
    (∀ p ∈ startedInTurn.processes, p.startup.runs = true →
      getConfig Network.serde networkInfo startedInTurn.config = .ok (some p.network)) ∧
    startedInTurn.processes.map (fun p => p.startup.runs) = [true, false, false, true] := by
  have hserde : ∀ n, Network.serde.fromValue (Network.serde.toValue n) = some n := by
    intro n
    cases n <;> rfl
  have hoverlapped := network_guarded Network.serde ConfigTable.empty none [.bitcoin, .testnet]
    overlapping overlapped hserde rfl overlapped_run
  have hinTurn := network_guarded Network.serde known (some .bitcoin)
    [.bitcoin, .testnet, .bitcoin, .bitcoin] inTurn startedInTurn hserde rfl startedInTurn_run
  exact ⟨⟨hoverlapped.1, by decide, by decide⟩, hinTurn.1, hinTurn.2 (by decide), by decide⟩

end Launch

end BtcIndexer
