import Treadmill.Agreement

/-! # The two meanings of `max_outstanding`

`TreadmillRunner` divides the flag by the number of workers and gives each worker its share,
while the scheduler keeps and reports the flag itself and `setMaxOutstandingRequests` gives
every worker the whole value.  Reading the value and setting it again therefore changes the
limit of every worker, unless it was set before or the share is the whole
(`reported_limit_unchanged_iff`). -/

namespace Treadmill

/-! ### Shares -/

theorem tdiv_bounds (m : ℤ) (n : ℕ) : (0 ≤ m → 0 ≤ m.tdiv n ∧ m.tdiv n ≤ m) ∧
    (m ≤ 0 → m ≤ m.tdiv n ∧ m.tdiv n ≤ 0) := by
  have habs := Int.natAbs_tdiv_le_natAbs m n
  constructor
  · intro hm
    have := Int.tdiv_nonneg hm (Int.natCast_nonneg n)
    omega
  · intro hm
    have hneg := Int.tdiv_nonneg (neg_nonneg.mpr hm) (Int.natCast_nonneg n)
    rw [Int.neg_tdiv] at hneg
    omega

theorem tdiv_eq_self_iff {m : ℤ} {n : ℕ} (hn : 1 ≤ n) : m.tdiv n = m ↔ n = 1 ∨ m = 0 := by
  constructor
  · intro he
    have habs : m.natAbs / n = m.natAbs := by
      have := Int.natAbs_tdiv m n
      rw [he] at this
      exact this.symm
    by_contra hne
    push Not at hne
    have hlt : m.natAbs / n < m.natAbs := Nat.div_lt_self (by omega) (by omega)
    omega
  · rintro (rfl | rfl)
    · exact Int.tdiv_one m
    · exact Int.zero_tdiv _

/-- The share of a worker is the whole. -/
theorem maxOutstandingRequestsPerWorker_eq_iff {S : Setup} (hn : 1 ≤ S.numberOfWorkers) :
    S.maxOutstandingRequestsPerWorker = S.maxOutstandingRequests ↔
      S.numberOfWorkers = 1 ∨ S.maxOutstandingRequests = 0 := by
  have hlow := S.maxOutstandingRequests.le_toInt
  have hhigh := S.maxOutstandingRequests.toInt_lt
  obtain ⟨hpos, hneg⟩ := tdiv_bounds S.maxOutstandingRequests.toInt S.numberOfWorkers
  have hzero : S.maxOutstandingRequests = 0 ↔ S.maxOutstandingRequests.toInt = 0 :=
    Int32.toInt_inj.symm
  rw [hzero, ← tdiv_eq_self_iff hn, ← Int32.toInt_inj, Setup.maxOutstandingRequestsPerWorker,
    Int32.toInt_ofInt_of_le (by omega) (by omega)]

/-! ### Reading the limit and setting it again -/

/-- In the history, one call sets the limit, and sets it to `v`. -/
def SetsOnce (v : Int32) (h : History) : Prop :=
  ∃ h₁ k h₂, h = h₁ ++ (Tid.client k, Op.begin (.rpc (.setMaxOutstanding v))) :: h₂ ∧
    NoneBegun .setMaxOutstanding h₁ ∧ NoneBegun .setMaxOutstanding h₂

section runs
variable {ω ρ : Type} {S : Setup} {W : Workload ω ρ} {workload : ω} {clock : ℤ}
  {h h' : History} {s s' : System ω} {t : Tid} {i : ℕ} {v : Int32}

theorem Settled.shares (hs : Settled S s) (hr : Reaches S W workload clock h s)
    (hnone : NoneBegun .setMaxOutstanding h) :
    (∀ i < S.numberOfWorkers, (s.mem.workers i).running = true →
      (s.mem.workers i).maxOutstandingRequests = S.maxOutstandingRequestsPerWorker) ∧
    reportedMaxOutstanding s = S.maxOutstandingRequests := by
  obtain ⟨-, hputs, hmember⟩ := silent_run (κ := .setMaxOutstanding) (Or.inr rfl)
    (fun _ hne => absurd rfl hne) (fun _ => rfl) hr hnone
  constructor
  · intro i hi hrun
    rw [run_limit hr hrun, hs.takes hr hi hrun]
    exact foldl_eq_self fun e he => Event.limit_of_ne (hputs i e he) _
  · rw [reportedMaxOutstanding, hmember rfl]
    exact Int32.toInt32_toUInt32 _

/-- The one call that sets the limit puts it on every queue, and nobody puts another one. -/
theorem SetsOnce.puts (hset : SetsOnce v h') (hr : Reaches S W workload clock h s)
    (hs : Settled S s) (hr' : (system S W).run s h' = some s') (hs' : Settled S s')
    (hi : i < S.numberOfWorkers) :
    Event.setMaxOutstanding v.toUInt32 ∈ puts i h' ∧
      ∀ e ∈ puts i h', e = Event.setMaxOutstanding v.toUInt32 ∨
        e.eventType ≠ .setMaxOutstanding := by
  obtain ⟨h₁, k, h₂, rfl, hnone₁, hnone₂⟩ := hset
  have hall : Reaches S W workload clock
      ((h ++ h₁) ++ (Tid.client k, Op.begin (.rpc (.setMaxOutstanding v))) :: h₂) s' := by
    rw [List.append_assoc]
    exact (Lts.run_append_iff _).mpr ⟨s, hr, hr'⟩
  obtain ⟨u, u', hu, -, -⟩ := Lts.run_split _ hr'
  have hreach : Reaches S W workload clock (h ++ h₁) u :=
    (Lts.run_append_iff _).mpr ⟨s, hr, hu⟩
  have hidle : ∀ j c, (s.loc (.client j)).call = some c →
      c.announces ≠ some .setMaxOutstanding := by
    intro j c hc
    rw [hs.returned j] at hc
    cases hc
  obtain ⟨-, hlast⟩ := last_announcement hall rfl (fun j c hc => by
      rw [← Reaches.openCall hreach] at hc
      exact none_open_run hidle hu hnone₁ j c hc) hnone₂ (fun j c hc => by
      rw [hs'.returned j] at hc
      cases hc)
  obtain ⟨-, hsilent, -⟩ := silent_run (κ := .setMaxOutstanding) (Or.inr rfl)
    (fun j => Reaches.owned hr _ j)
    (fun j => core_eq_nil (Reaches.owned hr _ j) (hidle j)) hu hnone₁
  have hputs : puts i (h₁ ++ (Tid.client k, Op.begin (.rpc (.setMaxOutstanding v))) :: h₂) =
      puts i h₁ ++ puts i h₂ := puts_append i h₁ _
  rw [hputs]
  refine ⟨List.mem_append_right _ (hlast i hi).1, fun e he => ?_⟩
  by_cases hkind : e.eventType = .setMaxOutstanding
  · rcases List.mem_append.mp he with he | he
    · exact absurd hkind (hsilent i e he)
    · exact Or.inl ((hlast i hi).2 e he hkind)
  · exact Or.inr hkind

theorem limit_setMaxOutstanding_self (v m : Int32) :
    (Event.setMaxOutstanding v.toUInt32).limit m = v := by
  rw [Event.limit_setMaxOutstanding, Int32.toInt32_toUInt32]

theorem SetsOnce.limit (hset : SetsOnce v h') (hr : Reaches S W workload clock h s)
    (hs : Settled S s) (hr' : (system S W).run s h' = some s') (hs' : Settled S s')
    (hi : i < S.numberOfWorkers) (hrun : (s'.mem.workers i).running = true) :
    (s.mem.workers i).running = true ∧ (s'.mem.workers i).maxOutstandingRequests = v := by
  have hrun₀ : (s.mem.workers i).running = true := by
    by_contra hstop
    rw [(run_stopped hr' (by simpa using hstop)).1] at hrun
    cases hrun
  refine ⟨hrun₀, ?_⟩
  have hfifo := run_fifo hr' i
  rw [hs.consumed i hi hrun₀, hs'.consumed i hi hrun, List.nil_append, List.append_nil] at hfifo
  obtain ⟨hmem, hall⟩ := hset.puts hr hs hr' hs' hi
  rw [run_limit hr' hrun, ← hfifo]
  refine foldl_eq_of_mem (limit_setMaxOutstanding_self v) (fun e he => ?_) hmem
  exact (hall e he).imp_right fun hne => Event.limit_of_ne hne

theorem SetsOnce.keeps (hset : SetsOnce v h') (hr : Reaches S W workload clock h s)
    (hs : Settled S s) (hr' : (system S W).run s h' = some s') (hs' : Settled S s')
    (hi : i < S.numberOfWorkers) (hrun : (s.mem.workers i).running = true)
    (hv : (s.mem.workers i).maxOutstandingRequests = v) :
    (s'.mem.workers i).maxOutstandingRequests = (s.mem.workers i).maxOutstandingRequests := by
  have hfifo := run_fifo hr' i
  rw [hs.consumed i hi hrun, List.nil_append] at hfifo
  apply run_limit_eq hr'
  intro e he
  rcases (hset.puts hr hs hr' hs' hi).2 e (hfifo ▸ List.mem_append_left _ he) with rfl | hne
  · rw [limit_setMaxOutstanding_self, hv]
  · exact Event.limit_of_ne hne _

/-- **The two meanings of `max_outstanding`**: setting the limit to the value that is reported
leaves the limit of every worker as it is exactly when the limit had been set before, or there
is one worker, or the flag is zero. -/
theorem reported_limit_unchanged_iff (hn : 1 ≤ S.numberOfWorkers)
    (hr : Reaches S W workload clock h s) (hs : Settled S s)
    (halone : LastAlone .setMaxOutstanding h) (hr' : (system S W).run s h' = some s')
    (hset : SetsOnce (reportedMaxOutstanding s) h') (hs' : Settled S s')
    (hrun : ∃ i < S.numberOfWorkers, (s'.mem.workers i).running = true) :
    (∀ i < S.numberOfWorkers, (s'.mem.workers i).maxOutstandingRequests =
        (s.mem.workers i).maxOutstandingRequests) ↔
      ¬ NoneBegun .setMaxOutstanding h ∨ S.numberOfWorkers = 1 ∨
        S.maxOutstandingRequests = 0 := by
  constructor
  · intro hsame
    by_cases hnone : NoneBegun .setMaxOutstanding h
    · obtain ⟨hshare, hreported⟩ := hs.shares hr hnone
      obtain ⟨i, hi, hruni⟩ := hrun
      obtain ⟨hrun₀, hlimit⟩ := hset.limit hr hs hr' hs' hi hruni
      right
      rw [← maxOutstandingRequestsPerWorker_eq_iff hn, ← hshare i hi hrun₀, ← hsame i hi,
        hlimit, hreported]
    · exact Or.inl hnone
  · intro hcond i hi
    cases hruni : (s.mem.workers i).running with
    | false => exact (run_stopped hr' hruni).2
    | true =>
        apply hset.keeps hr hs hr' hs' hi hruni
        by_cases hnone : NoneBegun .setMaxOutstanding h
        · obtain ⟨hshare, hreported⟩ := hs.shares hr hnone
          rw [hshare i hi hruni, hreported]
          exact (maxOutstandingRequestsPerWorker_eq_iff hn).mpr
            (hcond.resolve_left (not_not.mpr hnone))
        · exact hs.limit hr halone hnone hi hruni

end runs

theorem start_settled {ω : Type} (S : Setup) (workload : ω) (clock : ℤ) :
    Settled S (start S workload clock) :=
  ⟨fun _ => rfl, fun _ _ _ => rfl⟩

/-- A client reads the rate of a fresh service and sets the limit that it got. -/
def readAndSet (n : ℕ) : History :=
  ([(.client 0, .begin (.rpc .getRate)), (.client 0, .loadState .running),
    (.client 0, .loadRps 1024), (.client 0, .loadMaxOutstandingRequests 1000),
    (.client 0, .ret { flag := some true, rps := some 1024, maxOutstanding := some 1000 }),
    (.client 0, .begin (.rpc (.setMaxOutstanding 1000))), (.client 0, .watchdogUpdate 1000),
    (.client 0, .storeMaxOutstandingRequests 1000),
    (.client 0, .loadMaxOutstandingRequests 1000)] : History) ++
  (List.range n).map (putMax 0 · 1000) ++ [(Tid.client 0, Op.ret {})] ++
  (List.range n).map (take · (Event.setMaxOutstanding 1000))

/-- With two workers and the flag at its default, the limit of a worker doubles. -/
theorem reported_limit_doubles :
    ∃ s', (system (defaults 2) constantWorkload).run (start (defaults 2) () 1) (readAndSet 2) =
        some s' ∧
      SetsOnce (reportedMaxOutstanding (start (defaults 2) () 1)) (readAndSet 2) ∧
      Settled (defaults 2) s' ∧
      ((start (defaults 2) () 1).mem.workers 0).maxOutstandingRequests = 500 ∧
      (s'.mem.workers 0).maxOutstandingRequests = 1000 := by
  have hrun : ((system (defaults 2) constantWorkload).run (start (defaults 2) () 1)
      (readAndSet 2)).any (fun s => decide ((s.mem.workers 0).maxOutstandingRequests = 1000) &&
        (List.range 2).all (fun i => (s.mem.scheduler.queues i).isEmpty)) = true := by
    decide +kernel
  obtain ⟨s', hr, hs⟩ := (Option.any_eq_true _ _).mp hrun
  simp only [Bool.and_eq_true, decide_eq_true_eq, List.all_eq_true, List.mem_range,
    List.isEmpty_iff] at hs
  obtain ⟨hlimit, hqueues⟩ := hs
  refine ⟨s', hr, ⟨(readAndSet 2).take 5, 0, (readAndSet 2).drop 6, rfl, by decide, by decide⟩,
    ⟨Reaches.returned hr (by decide +kernel), fun i hi _ => hqueues i hi⟩, by decide +kernel,
    hlimit⟩

theorem reported_limit_unchanged_iff_one_worker :
    ∃ s', (system (defaults 1) constantWorkload).run (start (defaults 1) () 1) (readAndSet 1) =
        some s' ∧
      (s'.mem.workers 0).maxOutstandingRequests =
        ((start (defaults 1) () 1).mem.workers 0).maxOutstandingRequests := by
  have hrun : ((system (defaults 1) constantWorkload).run (start (defaults 1) () 1)
      (readAndSet 1)).any (fun s => (s.mem.workers 0).running &&
        (List.range 1).all (fun i => (s.mem.scheduler.queues i).isEmpty)) = true := by
    decide +kernel
  obtain ⟨s', hr, hs⟩ := (Option.any_eq_true _ _).mp hrun
  simp only [Bool.and_eq_true, List.all_eq_true, List.mem_range, List.isEmpty_iff] at hs
  obtain ⟨hrunning, hqueues⟩ := hs
  have halone : LastAlone .setMaxOutstanding [] := by
    intro h₁ k c h₂ he
    simp at he
  have hset : SetsOnce (reportedMaxOutstanding (start (defaults 1) () 1)) (readAndSet 1) :=
    ⟨(readAndSet 1).take 5, 0, (readAndSet 1).drop 6, rfl, by decide, by decide⟩
  have hsettled : Settled (defaults 1) s' :=
    ⟨Reaches.returned hr (by decide +kernel), fun i hi _ => hqueues i hi⟩
  have hsame := (reported_limit_unchanged_iff (W := constantWorkload) (h := []) (le_refl 1) rfl
    (start_settled _ _ _) halone hr hset hsettled ⟨0, Nat.one_pos, hrunning⟩).mpr
    (Or.inr (Or.inl rfl))
  exact ⟨s', hr, hsame 0 Nat.one_pos⟩

end Treadmill
