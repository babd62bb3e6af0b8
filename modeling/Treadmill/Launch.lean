import Mathlib.Data.List.AList
import Mathlib.Data.List.GetD
import Treadmill.Lib.Retry
import Treadmill.Memory

/-! # The start of a test

What `TreadmillRunner` does before the first thread starts (`Treadmill.h`): its constructor
divides by `--number_of_workers`, and `run` reads the configuration, parses `--cpu_affinity` and
makes the workers, whose connections look the host up (`nsLookUp`, `Util.cpp`).  The process may
end in each of these steps (`Fatal`).

The flag is accepted exactly when it is a list of existing cores, one for each worker
(`cpuAffinityList_iff`), and the workers are made exactly when there are some and no three look-ups
in a row fail (`launch_iff`). -/

namespace Treadmill

/-- How the process ends before the test starts: `LOG(FATAL)`, an exception that nobody catches,
or a division of integers by zero. -/
inductive Fatal where
  /-- `FLAGS_max_outstanding_requests / FLAGS_number_of_workers` -/
  | division
  /-- "Open to read failed" -/
  | read (filename : String)
  /-- `folly::parseJson` throws -/
  | parseJson (s : String)
  /-- `update` of something that is no object throws -/
  | update
  /-- "Length of the CPU affinity list does not match the number of workers" -/
  | affinityLength (length numberOfWorkers : ℕ)
  /-- `folly::to<int>` throws -/
  | conversion (word : List Char)
  /-- "Core does not exist" -/
  | core (cpuAffinity : Int32)
  /-- "DNS error" -/
  | dns (error : Int32)
deriving DecidableEq, Repr

/-- `folly::dynamic` as a configuration: an object, or something else. -/
inductive Configuration (ν : Type) where
  | object (entries : AList fun _ : String => ν)
  | other (v : ν)

/-- What the start reads of the flags. -/
structure LaunchFlags where
  configInFile : String := ""
  configInJson : String := ""
  cpuAffinity : List Char := []

/-- What the start reads of the machine, and the functions it uses that are not its own; the calls
of `getaddrinfo` are numbered, and a call gives an address or an error. -/
structure Machine (ν : Type) where
  readFileToString : String → Option String
  parseJson : String → Option (Configuration ν)
  toInt : List Char → Option Int32
  hardwareConcurrency : Int32
  getaddrinfo : ℕ → Except Int32 String

section launch
variable {ν : Type} (S : Setup) (F : LaunchFlags) (M : Machine ν)

/-! ### The configuration -/

/-- `readDynamicFromFile`. -/
def readDynamicFromFile (filename : String) : Except Fatal (Configuration ν) :=
  match M.readFileToString filename with
  | none => .error (.read filename)
  | some s =>
      match M.parseJson s with
      | none => .error (.parseJson s)
      | some config => .ok config

/-- `folly::dynamic::update`: the entries of the second object replace those of the first. -/
def Configuration.update : Configuration ν → Configuration ν → Except Fatal (Configuration ν)
  | .object entries, .object entries' => .ok (.object (entries' ∪ entries))
  | _, _ => .error .update

/-- The configuration of `TreadmillRunner::run`. -/
def loadConfig : Except Fatal (Configuration ν) :=
  (if F.configInFile = "" then .ok (.object ∅) else readDynamicFromFile M F.configInFile).bind
    fun config =>
      if F.configInJson = "" then .ok config
      else
        match M.parseJson F.configInJson with
        | none => .error (.parseJson F.configInJson)
        | some config2 => config.update config2

/-! ### The affinity -/

/-- One element of the list of `--cpu_affinity`. -/
def cpuAffinity (word : List Char) : Except Fatal Int32 :=
  match M.toInt word with
  | none => .error (.conversion word)
  | some cpu => if 0 ≤ cpu ∧ cpu < M.hardwareConcurrency then .ok cpu else .error (.core cpu)

/-- `cpu_affinity_list` of `TreadmillRunner`. -/
def cpuAffinityList : Except Fatal (List Int32) :=
  if F.cpuAffinity = [] then .ok (List.replicate S.numberOfWorkers (-1))
  else
    let words := F.cpuAffinity.splitOn ','
    if words.length ≠ S.numberOfWorkers then
      .error (.affinityLength words.length S.numberOfWorkers)
    else words.mapM (cpuAffinity M)

/-! ### The workers -/

/-- `kNumberOfAttempts`. -/
def kNumberOfAttempts : ℕ := 3

/-- `nsLookUp`, whose next call of `getaddrinfo` is call `p`. -/
def nsLookUp (p : ℕ) : Except Int32 (String × ℕ) :=
  Retry.attempt M.getaddrinfo (-1) kNumberOfAttempts p

/-- The hosts that `n` new connections of a worker connect to. -/
def connect : ℕ → ℕ → Except Fatal (List String × ℕ)
  | 0, p => .ok ([], p)
  | n + 1, p =>
      ((nsLookUp M p).mapError .dns).bind fun (host, q) =>
        (connect n q).map fun (hosts, r) => (host :: hosts, r)

/-- A worker as `initializeWorkers` makes it; it has the queue of its number. -/
structure Launched (ν : Type) where
  workerId : ℕ
  hosts : List String
  maxOutstandingRequests : Int32
  config : Configuration ν
  cpuAffinity : Int32

/-- The core that `Worker::senderLoop` pins its thread to. -/
def Launched.core (l : Launched ν) : Option Int32 :=
  if l.cpuAffinity ≠ -1 then some l.cpuAffinity else none

/-- `TreadmillRunner::initializeWorkers`, with `n` workers to go, of which `i` is the next. -/
def initializeWorkers (config : Configuration ν) (cpus : List Int32) :
    ℕ → ℕ → ℕ → Except Fatal (List (Launched ν) × ℕ)
  | 0, _, p => .ok ([], p)
  | n + 1, i, p =>
      (connect M S.numberOfConnections p).bind fun (hosts, q) =>
        (initializeWorkers config cpus n (i + 1) q).map fun (workers, r) =>
          (⟨i, hosts, S.maxOutstandingRequestsPerWorker, config, cpus.getD i (-1)⟩ :: workers, r)

/-- `TreadmillRunner::TreadmillRunner`, and `TreadmillRunner::run` up to the start of the
workers. -/
def launch : Except Fatal (List (Launched ν)) :=
  if S.numberOfWorkers = 0 then .error .division
  else
    (loadConfig F M).bind fun config =>
      (cpuAffinityList S F M).bind fun cpus =>
        (initializeWorkers S M config cpus S.numberOfWorkers 0 0).map Prod.fst

variable {S F M}

/-! ### What affinities are accepted -/

/-- The words of a split have no separator: up to the first separator is one word. -/
theorem notMem_of_mem_splitOn {a : Char} {l w : List Char} (hw : w ∈ l.splitOn a) : a ∉ w := by
  induction hn : l.length using Nat.strong_induction_on generalizing l with
  | h n ih =>
      by_cases ha : a ∈ l
      · obtain ⟨word, rest, rfl, hword⟩ := List.eq_append_cons_of_mem ha
        rw [List.splitOn_append_cons_self_of_not_mem hword, List.mem_cons] at hw
        rw [List.length_append, List.length_cons] at hn
        cases hw with
        | inl he => exact he ▸ hword
        | inr hrest => exact ih rest.length (by omega) hrest rfl
      · rw [List.splitOn_eq_singleton ha, List.mem_singleton] at hw
        exact hw ▸ ha

theorem cpuAffinity_iff {word : List Char} {cpu : Int32} : cpuAffinity M word = .ok cpu ↔
    M.toInt word = some cpu ∧ 0 ≤ cpu ∧ cpu < M.hardwareConcurrency := by
  unfold cpuAffinity
  cases hto : M.toInt word with
  | none => simp
  | some cpu' =>
      constructor
      · intro h
        dsimp only at h
        split_ifs at h with hcore
        · cases h
          exact ⟨rfl, hcore⟩
      · rintro ⟨he, hcore⟩
        cases he
        exact if_pos hcore

theorem mapM_cpuAffinity_iff {words : List (List Char)} {cpus : List Int32} :
    words.mapM (cpuAffinity M) = .ok cpus ↔
      words.map M.toInt = cpus.map some ∧ ∀ cpu ∈ cpus, 0 ≤ cpu ∧ cpu < M.hardwareConcurrency := by
  induction words generalizing cpus with
  | nil =>
      constructor
      · intro h
        cases h
        exact ⟨rfl, by simp⟩
      · rintro ⟨h, -⟩
        obtain rfl := List.map_eq_nil_iff.mp h.symm
        rfl
  | cons word words ih =>
      rw [List.mapM_cons]
      constructor
      · intro h
        obtain ⟨cpu, hw, h⟩ := Except.bind_eq_ok_iff.mp h
        obtain ⟨cpus', hws, h⟩ := Except.bind_eq_ok_iff.mp h
        cases h
        obtain ⟨hto, hcore⟩ := cpuAffinity_iff.mp hw
        obtain ⟨htos, hcores⟩ := ih.mp hws
        refine ⟨by rw [List.map_cons, List.map_cons, hto, htos], ?_⟩
        exact List.forall_mem_cons.mpr ⟨hcore, hcores⟩
      · rintro ⟨htos, hcores⟩
        cases cpus with
        | nil => cases htos
        | cons cpu cpus =>
            rw [List.map_cons, List.map_cons] at htos
            obtain ⟨hto, htos⟩ := List.cons.inj htos
            obtain ⟨hcore, hcores⟩ := List.forall_mem_cons.mp hcores
            have hw : cpuAffinity M word = .ok cpu := cpuAffinity_iff.mpr ⟨hto, hcore⟩
            have hws : words.mapM (cpuAffinity M) = .ok cpus := ih.mpr ⟨htos, hcores⟩
            rw [hw, hws]
            rfl

/-- What `--cpu_affinity` may be: nothing, and no worker is pinned; or, separated by commas, one
core of the machine for each worker, and these are the cores. -/
def Pins (S : Setup) (F : LaunchFlags) (M : Machine ν) (cpus : List Int32) : Prop :=
  (F.cpuAffinity = [] ∧ cpus = List.replicate S.numberOfWorkers (-1)) ∨
  (F.cpuAffinity ≠ [] ∧ ∃ words : List (List Char), F.cpuAffinity = [','].intercalate words ∧
    (∀ w ∈ words, ',' ∉ w) ∧ words.length = S.numberOfWorkers ∧
    words.map M.toInt = cpus.map some ∧ ∀ cpu ∈ cpus, 0 ≤ cpu ∧ cpu < M.hardwareConcurrency)

theorem splitOn_cpuAffinity {words : List (List Char)} (hflag : F.cpuAffinity ≠ [])
    (hwords : F.cpuAffinity = [','].intercalate words) (hcomma : ∀ w ∈ words, ',' ∉ w) :
    F.cpuAffinity.splitOn ',' = words := by
  have hne : words ≠ [] := by
    rintro rfl
    exact hflag hwords
  rw [hwords]
  exact List.splitOn_intercalate ',' hcomma hne

theorem cpuAffinityList_iff {cpus : List Int32} :
    cpuAffinityList S F M = .ok cpus ↔ Pins S F M cpus := by
  unfold cpuAffinityList
  by_cases hflag : F.cpuAffinity = []
  · rw [if_pos hflag]
    constructor
    · intro h
      exact .inl ⟨hflag, (Except.ok.inj h).symm⟩
    · rintro (⟨-, rfl⟩ | ⟨hne, -⟩)
      · rfl
      · exact absurd hflag hne
  · rw [if_neg hflag]
    constructor
    · intro h
      dsimp only at h
      split_ifs at h with hlen
      refine .inr ⟨hflag, F.cpuAffinity.splitOn ',', ?_, ?_, ?_, ?_⟩
      · exact (List.intercalate_splitOn ',').symm
      · exact fun w hw => notMem_of_mem_splitOn hw
      · exact not_not.mp hlen
      · exact mapM_cpuAffinity_iff.mp h
    · rintro (⟨hnil, -⟩ | ⟨-, words, hwords, hcomma, hlen, hcores⟩)
      · exact absurd hnil hflag
      · dsimp only
        rw [splitOn_cpuAffinity hflag hwords hcomma, if_neg (not_not.mpr hlen)]
        exact mapM_cpuAffinity_iff.mpr hcores

/-! ### What workers are made -/

theorem connect_eq (n p : ℕ) :
    connect M n p = (Retry.collect M.getaddrinfo (-1) kNumberOfAttempts n p).mapError .dns := by
  induction n generalizing p with
  | zero => rfl
  | succ n ih =>
      rw [connect, Retry.collect, nsLookUp]
      cases Retry.attempt M.getaddrinfo (-1) kNumberOfAttempts p with
      | error e => rfl
      | ok first =>
          obtain ⟨host, q⟩ := first
          simp only [Except.mapError, Except.bind, ih]
          cases Retry.collect M.getaddrinfo (-1) kNumberOfAttempts n q <;> rfl

/-- The workers from number `i` on, when the look-ups give these hosts. -/
def launched (S : Setup) (config : Configuration ν) (cpus : List Int32) (n i : ℕ)
    (hosts : List String) : List (Launched ν) :=
  (List.range n).map fun j =>
    ⟨i + j, (hosts.drop (j * S.numberOfConnections)).take S.numberOfConnections,
      S.maxOutstandingRequestsPerWorker, config, cpus.getD (i + j) (-1)⟩

theorem launched_append {config : Configuration ν} {cpus : List Int32} {n i : ℕ}
    {hosts hosts' : List String} (hlen : hosts.length = S.numberOfConnections) :
    launched S config cpus (n + 1) i (hosts ++ hosts') =
      ⟨i, hosts, S.maxOutstandingRequestsPerWorker, config, cpus.getD i (-1)⟩ ::
        launched S config cpus n (i + 1) hosts' := by
  unfold launched
  rw [List.range_succ_eq_map, List.map_cons, List.map_map]
  congr 1
  · rw [Nat.zero_mul, List.drop_zero, List.take_append_of_le_length (Nat.le_of_eq hlen.symm),
      List.take_of_length_le (Nat.le_of_eq hlen), Nat.add_zero]
  · refine List.map_congr_left fun j _ => ?_
    have hdrop : (hosts ++ hosts').drop ((j + 1) * S.numberOfConnections) =
        hosts'.drop (j * S.numberOfConnections) := by
      rw [Nat.succ_mul, Nat.add_comm, ← hlen, List.drop_length_add_append]
    have hnext : i + (j + 1) = i + 1 + j := by omega
    rw [Function.comp_apply, Nat.succ_eq_add_one, hdrop, hnext]

/-- A worker is pinned to the core of its word, and to none without the flag. -/
theorem Pins.core {config : Configuration ν} {cpus : List Int32} {hosts : List String}
    {l : Launched ν} (hp : Pins S F M cpus)
    (hl : l ∈ launched S config cpus S.numberOfWorkers 0 hosts) :
    l.core = if F.cpuAffinity = [] then none
      else ((F.cpuAffinity.splitOn ',')[l.workerId]?).bind M.toInt := by
  obtain ⟨j, hj, rfl⟩ := List.mem_map.mp hl
  rw [List.mem_range] at hj
  simp only [Launched.core, Nat.zero_add]
  rcases hp with ⟨hnil, rfl⟩ | ⟨hflag, words, hwords, hcomma, hlen, htos, hcores⟩
  · rw [if_pos hnil, List.getD_replicate _ hj]
    exact if_neg (not_not.mpr rfl)
  · have hcpus : cpus.length = words.length := by
      rw [← List.length_map some, ← htos, List.length_map]
    have hjw : j < words.length := by omega
    have hjc : j < cpus.length := by omega
    have hto : M.toInt words[j] = some cpus[j] := by
      have hat := congrArg (fun l => l[j]?) htos
      simpa [List.getElem?_eq_getElem hjw, List.getElem?_eq_getElem hjc] using hat
    have hcore : cpus[j] ≠ -1 := by
      intro he
      have hnonneg := (hcores _ (List.getElem_mem hjc)).1
      rw [he] at hnonneg
      exact absurd hnonneg (by decide)
    rw [if_neg hflag, splitOn_cpuAffinity hflag hwords hcomma, List.getD_eq_getElem _ _ hjc,
      if_pos hcore, List.getElem?_eq_getElem hjw, Option.bind_some, hto]

theorem initializeWorkers_eq (config : Configuration ν) (cpus : List Int32) (n i p : ℕ) :
    initializeWorkers S M config cpus n i p =
      ((Retry.collect M.getaddrinfo (-1) kNumberOfAttempts (n * S.numberOfConnections) p).mapError
        .dns).map fun (hosts, q) => (launched S config cpus n i hosts, q) := by
  induction n generalizing i p with
  | zero =>
      rw [Nat.zero_mul]
      rfl
  | succ n ih =>
      rw [initializeWorkers, connect_eq, Nat.succ_mul, Nat.add_comm (n * S.numberOfConnections),
        Retry.collect_add]
      cases hc : Retry.collect M.getaddrinfo (-1) kNumberOfAttempts S.numberOfConnections p with
      | error e => rfl
      | ok first =>
          obtain ⟨hosts, q⟩ := first
          obtain ⟨-, hlen, -⟩ := (Retry.collect_iff (by decide)).mp hc
          simp only [Except.mapError, Except.bind, ih]
          cases Retry.collect M.getaddrinfo (-1) kNumberOfAttempts
            (n * S.numberOfConnections) q with
          | error e => rfl
          | ok rest =>
              obtain ⟨hosts', r⟩ := rest
              simp only [Except.map, launched_append hlen]

/-- **What a test starts with**: the workers are made exactly when there are some, the
configuration is read, the flag names one core of the machine for each worker, and among the calls
of `getaddrinfo` no three in a row fail; these calls end with the one that gives the last
connection its host, and the connections get the hosts in the order of the calls that succeed.
Each worker is then pinned to the core of its own word of the flag. -/
theorem launch_iff {ws : List (Launched ν)} : launch S F M = .ok ws ↔
    0 < S.numberOfWorkers ∧
    ∃ config cpus q, loadConfig F M = .ok config ∧ Pins S F M cpus ∧
      (Retry.values M.getaddrinfo 0 q).length = S.numberOfWorkers * S.numberOfConnections ∧
      Retry.Steady M.getaddrinfo kNumberOfAttempts 0 q ∧
      (0 < q → ∃ host, M.getaddrinfo (q - 1) = .ok host) ∧
      ws = launched S config cpus S.numberOfWorkers 0 (Retry.values M.getaddrinfo 0 q) ∧
      ∀ l ∈ ws, l.core = if F.cpuAffinity = [] then none
        else ((F.cpuAffinity.splitOn ',')[l.workerId]?).bind M.toInt := by
  unfold launch
  constructor
  · intro h
    split_ifs at h with hzero
    obtain ⟨config, hconfig, h⟩ := Except.bind_eq_ok_iff.mp h
    obtain ⟨cpus, hcpus, h⟩ := Except.bind_eq_ok_iff.mp h
    obtain ⟨made, hmade, rfl⟩ := Except.map_eq_ok_iff.mp h
    rw [initializeWorkers_eq] at hmade
    obtain ⟨⟨hosts, q⟩, hc, rfl⟩ := Except.map_eq_ok_iff.mp hmade
    rw [Except.mapError_eq_ok_iff, Retry.collect_iff (by decide)] at hc
    obtain ⟨-, hlen, rfl, hs, hlast⟩ := hc
    have hpins := cpuAffinityList_iff.mp hcpus
    exact ⟨Nat.pos_of_ne_zero hzero, config, cpus, q, hconfig, hpins, hlen, hs, hlast, rfl,
      fun l hl => hpins.core hl⟩
  · rintro ⟨hpos, config, cpus, q, hconfig, hpins, hlen, hs, hlast, rfl, -⟩
    have hc : Retry.collect M.getaddrinfo (-1) kNumberOfAttempts
        (S.numberOfWorkers * S.numberOfConnections) 0 =
          .ok (Retry.values M.getaddrinfo 0 q, q) :=
      (Retry.collect_iff (by decide)).mpr ⟨Nat.zero_le q, hlen, rfl, hs, hlast⟩
    rw [if_neg hpos.ne', hconfig, Except.bind, cpuAffinityList_iff.mpr hpins, Except.bind,
      initializeWorkers_eq, hc]
    rfl

end launch

/-- The first call of `getaddrinfo` fails, and two more do between the two that succeed. -/
def retriedLookUps : Machine Unit where
  readFileToString _ := none
  parseJson _ := none
  toInt
    | ['0'] => some 0
    | ['2'] => some 2
    | _ => none
  hardwareConcurrency := 4
  getaddrinfo
    | 1 => .ok "10.0.0.1"
    | 4 => .ok "10.0.0.2"
    | _ => .error (-3)

example : (launch { numberOfWorkers := 2, numberOfConnections := 1, tryTo := fun _ => none }
      { cpuAffinity := ['2', ',', '0'] } retriedLookUps).map
        (fun ws => ws.map fun l => (l.hosts, l.core)) =
    .ok [(["10.0.0.1"], some 2), (["10.0.0.2"], some 0)] := by
  decide

/-- A third host is not found: three calls in a row fail. -/
example : (launch { numberOfWorkers := 3, numberOfConnections := 1, tryTo := fun _ => none } {}
      retriedLookUps).map (fun ws => ws.map fun l => l.hosts) =
    .error (.dns (-3)) := by
  decide

example : (launch { numberOfWorkers := 0, tryTo := fun _ => none } {} retriedLookUps).map
    (fun ws => ws.map fun l => l.hosts) = .error .division := by
  decide

end Treadmill
