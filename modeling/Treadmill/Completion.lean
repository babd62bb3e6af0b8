import Treadmill.Liveness

/-! # Completion

`TreadmillRunner::run` comes to its end, as long as the loop reads positive rates.
`Process.left` is what is left of a test: the way of the runner, its call in progress, and what
remains for the loop and the senders.  Wherever the process has got to, some step that no remote
client makes lowers it (`Process.Reaches.exists_step`), so that the test can always be completed
(`run_completes`). -/

namespace Treadmill

section process
variable {ω ρ : Type} {S : Setup} {W : Workload ω ρ} {F : Flags} {workload : ω} {clock : ℤ}
  {p p' : Process ω} {k : List ProcessOp}

/-- The way of the poll to its end. -/
def Runner.left (S : Setup) (r : Runner) : ℕ :=
  let before := r.secondsToWait.toNat * (2 * S.numberOfWorkers + 3)
  match r.pc with
  | .readRunning i => before + 2 * (S.numberOfWorkers - i) + 3
  | .readOutstanding i => before + 2 * (S.numberOfWorkers - i) + 2
  | .sleep => before + 1
  | .print => 1
  | .printed => 0

theorem Runner.left_pollFrom (r : Runner) (i : ℕ) :
    (r.pollFrom S i).left S ≤ r.secondsToWait.toNat * (2 * S.numberOfWorkers + 3) +
      if i < S.numberOfWorkers then 2 * (S.numberOfWorkers - i) + 3 else 1 := by
  unfold pollFrom left
  split_ifs <;> simp only <;> omega

theorem Runner.exists_step (r : Runner) (workers : ℕ → Worker ω) (hpc : r.pc ≠ .printed)
    (hpos : r.pc = .sleep → 0 < r.secondsToWait) :
    ∃ o r', o.reads workers = true ∧ r.step S o = some r' ∧ r'.left S < r.left S := by
  obtain ⟨pc, remaining, secondsToWait⟩ := r
  cases pc with
  | readRunning i =>
      refine ⟨.running i (workers i).running, _, by simp [RunnerOp.reads], if_pos rfl, ?_⟩
      split_ifs
      · have hle := left_pollFrom (S := S) ⟨.readRunning i, remaining + 1, secondsToWait⟩ (i + 1)
        refine hle.trans_lt ?_
        simp only [left]
        split_ifs <;> omega
      · simp only [left]
        omega
  | readOutstanding i =>
      refine ⟨.outstandingRequests i (workers i).outstandingRequests, _, by simp [RunnerOp.reads],
        if_pos rfl, ?_⟩
      refine (left_pollFrom _ _).trans_lt ?_
      have hseconds : ∀ b : Prop, ∀ [Decidable b], (if b then
          (⟨.readOutstanding i, remaining + 1, secondsToWait⟩ : Runner)
          else ⟨.readOutstanding i, remaining, secondsToWait⟩).secondsToWait = secondsToWait := by
        intro b _
        split_ifs <;> rfl
      rw [hseconds]
      simp only [left]
      split_ifs <;> omega
  | sleep =>
      have hpos := UInt64.lt_iff_toNat_lt.mp (hpos rfl)
      have hsub : (secondsToWait - 1).toNat = secondsToWait.toNat - 1 :=
        UInt64.toNat_sub_of_le _ _ (UInt64.le_iff_toNat_le.mpr hpos)
      obtain ⟨n, hn⟩ : ∃ n, secondsToWait.toNat = n + 1 := Nat.exists_eq_add_one.mpr hpos
      have hmul : (n + 1) * (2 * S.numberOfWorkers + 3) =
          n * (2 * S.numberOfWorkers + 3) + (2 * S.numberOfWorkers + 3) := Nat.succ_mul _ _
      refine ⟨.sleep, _, rfl, rfl, ?_⟩
      dsimp only
      split_ifs
      · refine (left_pollFrom _ _).trans_lt ?_
        simp only [left, hsub, hn, Nat.add_sub_cancel]
        split_ifs <;> omega
      · simp only [left, hn]
        omega
  | print => exact ⟨.print, _, rfl, rfl, by simp [left]⟩
  | printed => exact absurd rfl hpc

/-- The steps that are left of a call of at most `n` steps, its begin and its return among
them. -/
def Frame.left (n : ℕ) (f : Frame) : ℕ :=
  match f.call with
  | none => n
  | some _ => f.todo.length + 1

/-- The way of the runner to its end. -/
def Main.left (S : Setup) (F : Flags) (m : Main) (f : Frame) : ℕ :=
  let n := S.numberOfWorkers
  let poll := (Runner.start S F.workerShutdownDelay).left S
  let workers := fun i => 2 * n + poll + 16 + (n - i) * (S.numberOfConnections + 3)
  match m.pc with
  | .serve => workers 0 + S.numberOfConnections + 3
  | .checkFlags i => workers i + S.numberOfConnections + 2
  | .isReady i c => workers i + (S.numberOfConnections - c) + 1
  | .startWorker i => workers i
  | .startLoop => 2 * n + poll + 15
  | .wait => 2 * n + poll + 14
  | .stop => 2 * n + poll + 10 + f.left 3
  | .join => 2 * n + poll + 6 + f.left 3
  | .poll r => 2 * n + 5 + r.left S
  | .stopWorkers => n + 2 + f.left (n + 2)
  | .joinWorkers i => n - i + 1
  | .complete | .fatal => 0

/-- What is left of a test. -/
def Process.left (S : Setup) (F : Flags) (p : Process ω) : ℕ :=
  remaining S p.sys + p.main.left S F (p.sys.loc (.client 0))

theorem Main.left_startFrom {m : Main} {i : ℕ} (f : Frame) (hi : i < S.numberOfWorkers) :
    (m.startFrom S (i + 1)).left S F f < ({ m with pc := .startWorker i } : Main).left S F f := by
  obtain ⟨n, hn⟩ : ∃ n, S.numberOfWorkers - i = n + 1 := Nat.exists_eq_add_one.mpr (by omega)
  have hmul : (n + 1) * (S.numberOfConnections + 3) =
      n * (S.numberOfConnections + 3) + (S.numberOfConnections + 3) := Nat.succ_mul _ _
  have hn' : S.numberOfWorkers - (i + 1) = n := by omega
  unfold startFrom left
  split_ifs <;> simp only [hn, hn'] <;> omega

theorem Main.left_readyFrom {m : Main} (f : Frame) (i c : ℕ) :
    (m.readyFrom S i c).left S F f ≤
      ({ m with pc := .isReady i c } : Main).left S F f ∧
    (m.readyFrom S i (c + 1)).left S F f < ({ m with pc := .isReady i c } : Main).left S F f := by
  unfold readyFrom left
  split_ifs <;> simp only <;> omega

/-- Before the call of `stop` the runner waits for nobody but the target. -/
theorem Main.exists_step_starting {m : Main} {s : System ω} (hm : m.Placed S F)
    (hF : F.refused = false) (hpc : m.pc.call = none)
    (hpoll : ∀ r, m.pc ≠ .poll r) (hjoin : ∀ i, m.pc ≠ .joinWorkers i)
    (hcomplete : m.pc ≠ .complete) :
    ∃ o m', m.step S F s o = some m' ∧ m'.left S F .idle < m.left S F .idle := by
  obtain ⟨pc, t⟩ := m
  cases pc with
  | serve =>
      refine ⟨.serve, _, rfl, ?_⟩
      unfold startFrom left
      split_ifs <;> simp only <;> omega
  | checkFlags i =>
      refine ⟨.checkFlags i, _, if_pos rfl, ?_⟩
      rw [hF, if_neg Bool.false_ne_true]
      split_ifs
      · exact (left_readyFrom _ i 0).1.trans_lt (by simp only [left]; omega)
      · simp only [left]
        omega
  | isReady i c =>
      refine ⟨.isReady i c true, _, if_pos ⟨rfl, rfl⟩, ?_⟩
      exact (left_readyFrom _ i c).2
  | startWorker i => exact ⟨.startWorker i, _, if_pos rfl, left_startFrom _ hm.1⟩
  | startLoop => exact ⟨.startLoop, _, rfl, Nat.lt_succ_self _⟩
  | wait =>
      refine ⟨.wake false, ⟨.stop, t⟩, by simp [step], ?_⟩
      simp only [left, Frame.left, Frame.idle]
      omega
  | stop | join | stopWorkers => cases hpc
  | poll r => exact absurd rfl (hpoll r)
  | joinWorkers i => exact absurd rfl (hjoin i)
  | complete => exact absurd rfl hcomplete
  | fatal =>
      rw [hm.1] at hF
      cases hF

theorem Main.callStep_begin {m : Main} {s : System ω} {c : Call} (hc : m.pc.call = some c) :
    m.callStep S F s (.begin c) = some m :=
  if_pos hc

theorem Process.client_step {o : Op} {m : Main} {f : Frame}
    (hp : p.sys.mem.aborted = false ∧ p.main.pc ≠ .fatal)
    (hmain : p.main.callStep S F p.sys o = some m)
    (hf : (p.sys.loc (.client 0)).step S o = some f)
    (hacc : (p.sys.mem.access S W (.client 0) o).isSome) (hput : o.isPut = false)
    (hfails : Memory.fails o = false)
    (hlt : m.left S F f < p.main.left S F (p.sys.loc (.client 0))) :
    ∃ p', (process S W F).step p (.thread (.client 0) o) = some p' ∧
      p'.sys.mem.aborted = false ∧ p'.left S F < p.left S F := by
  obtain ⟨mem, hmem⟩ := Option.isSome_iff_exists.mp hacc
  have hs : (system S W).step p.sys (.client 0, o) =
      some ⟨mem, Function.update p.sys.loc (.client 0) f⟩ :=
    Threads.step_iff.mpr ⟨mem, f, hmem, hf, rfl⟩
  refine ⟨⟨⟨mem, Function.update p.sys.loc (.client 0) f⟩, m⟩,
    step_thread.mpr ⟨hp, hmain, hs⟩, (Memory.access_iff.mp hmem).2.2.2.2.2.trans hfails, ?_⟩
  have hrem := remaining_client hs
  rw [hput, if_neg Bool.false_ne_true] at hrem
  simp only [left, Function.update_self]
  omega

/-- A call of the runner goes on, with the help of the loop and the senders where it waits for
the loop. -/
theorem Process.Reaches.exists_step_call (hr : Process.Reaches S W F workload clock k p)
    (hN : 0 < S.numberOfWorkers) (hm : p.sys.mem.aborted = false) (hpc : p.main.pc.call ≠ none) :
    ∃ a p', (process S W F).step p a = some p' ∧ (∀ j o, a ≠ .thread (.client (j + 1)) o) ∧
      p'.sys.mem.aborted = false ∧ p'.left S F < p.left S F := by
  have hp := hr.orderly
  have hcalling := hp.calling
  have hplaced := hp.placed
  have hfatal : p.main.pc ≠ .fatal := fun h => hpc (by rw [h]; rfl)
  have hgo : ∀ {o : Op} {m : Main} {f : Frame}, p.main.callStep S F p.sys o = some m →
      (p.sys.loc (.client 0)).step S o = some f →
      (p.sys.mem.access S W (.client 0) o).isSome → o.isPut = false → Memory.fails o = false →
      m.left S F f < p.main.left S F (p.sys.loc (.client 0)) →
      ∃ a p', (process S W F).step p a = some p' ∧ (∀ j o, a ≠ .thread (.client (j + 1)) o) ∧
        p'.sys.mem.aborted = false ∧ p'.left S F < p.left S F := by
    intro o m f hmain hf hacc hput hfails hlt
    obtain ⟨p', hs, hm', hleft⟩ := client_step ⟨hm, hfatal⟩ hmain hf hacc hput hfails hlt
    exact ⟨_, p', hs, fun j o => by simp, hm', hleft⟩
  have hended := hp.ended
  obtain ⟨s, pc, t⟩ := p
  dsimp only at hpc hcalling hm
  generalize s.loc (.client 0) = f at hcalling hgo
  cases hcalling with
  | idle hidle =>
      cases pc with
      | stop =>
          exact hgo (o := .begin .stop) (Main.callStep_begin rfl) rfl
            (access_enabled hm rfl rfl rfl rfl) rfl rfl (Nat.lt_succ_self _)
      | join =>
          exact hgo (o := .begin .join) (Main.callStep_begin rfl) rfl
            (access_enabled hm rfl rfl rfl rfl) rfl rfl (Nat.lt_succ_self _)
      | stopWorkers =>
          refine hgo (o := .begin .stopWorkers) (Main.callStep_begin rfl) rfl
            (access_enabled hm rfl rfl rfl rfl) rfl rfl ?_
          simp [Main.left, Frame.left, Frame.idle, Call.body]
      | _ => exact absurd rfl hpc
  | stop r =>
      exact hgo (o := .storeStopping) (m := ⟨.stop, t⟩) rfl rfl
        (access_enabled hm rfl rfl rfl rfl) rfl rfl (Nat.lt_succ_self _)
  | stopped hstop r =>
      refine hgo (o := .ret r) (m := ⟨.join, t⟩) rfl (if_pos rfl)
        (access_enabled hm rfl rfl rfl rfl) rfl rfl ?_
      simp only [Main.left, Frame.left, Frame.idle, List.length_nil]
      omega
  | join r =>
      have hstop : s.mem.scheduler.state = .stopping := hended
      refine hgo (o := .checkStopping true) (m := ⟨.join, t⟩) rfl rfl
        (access_enabled hm ?_ rfl rfl rfl) rfl rfl (Nat.lt_succ_self _)
      simp [Scheduler.access, hstop]
  | joining r =>
      have hstop : s.mem.scheduler.state = .stopping := hended
      by_cases hdone : (s.loc .loop).pc = .done
      · refine hgo (o := .ret r) (m := ⟨.poll (.start S F.workerShutdownDelay), t⟩) (if_pos hdone)
          (if_pos rfl) (access_enabled hm rfl rfl rfl rfl) rfl rfl ?_
        simp only [Main.left, Frame.left, List.length_nil]
        omega
      · -- the loop's thread has not ended: it or a sender goes on
        have hrem : remaining S s ≠ 0 := fun hzero => hdone (hr.system.atRest hzero).done
        obtain ⟨tid, o, s', htid, hs, hlt, hm'⟩ :=
          exists_wearing_step hr.system hN hstop hm hrem
        obtain ⟨hrunning, hstopped⟩ : t.Running S ∧ t.stopped = 0 := hplaced
        have hmain : (⟨.join, t⟩ : Main).threadStep S F s tid o = some ⟨.join, t⟩ :=
          hp.placed.threadStep hrunning.looping hstopped htid s o
        have hclient : ∀ j, tid ≠ .client j := by
          rintro j rfl
          exact htid
        refine ⟨.thread tid o, ⟨s', ⟨.join, t⟩⟩, step_thread.mpr ⟨⟨hm, by simp⟩, hmain, hs⟩,
          fun j o' he => ?_, hm', ?_⟩
        · cases he
          exact hclient _ rfl
        · have hloc : s'.loc (.client 0) = s.loc (.client 0) :=
            Threads.step_frame hs (Ne.symm (hclient 0))
          show remaining S s' + Main.left S F ⟨.join, t⟩ (s'.loc (.client 0)) <
            remaining S s + Main.left S F ⟨.join, t⟩ (s.loc (.client 0))
          have hlt : remaining S s' < remaining S s := hlt
          rw [hloc]
          omega
  | stopWorkers r =>
      cases htodo : ((List.range S.numberOfWorkers).map Act.stopWorker).drop t.stopped with
      | nil =>
          dsimp only at hgo
          rw [htodo] at hgo
          refine hgo (o := .ret r) (m := (⟨.stopWorkers, t⟩ : Main).joinFrom S 0) rfl (if_pos rfl)
            (access_enabled hm rfl rfl rfl rfl) rfl rfl ?_
          unfold Main.joinFrom Main.left
          simp [Frame.left, hN]
      | cons a todo =>
          dsimp only at hgo
          rw [htodo] at hgo
          have ha : a ∈ ((List.range S.numberOfWorkers).map Act.stopWorker).drop t.stopped :=
            htodo ▸ List.mem_cons_self
          obtain ⟨i, -, rfl⟩ := List.mem_map.mp (List.mem_of_mem_drop ha)
          refine hgo (o := .work i .stop false)
            (m := ⟨.stopWorkers, { t with stopped := i + 1 }⟩) (f := ⟨some .stopWorkers, todo, r⟩)
            rfl ?_ (access_enabled hm rfl rfl ?_ rfl) rfl rfl (Nat.lt_succ_self _)
          · simp [Frame.step, Act.perform]
          · have hstop : (s.mem.workers i).step W .stop =
                some ({ s.mem.workers i with running := false }, []) := rfl
            exact work_enabled hstop

theorem Process.Reaches.exists_step_join {i : ℕ} (hr : Process.Reaches S W F workload clock k p)
    (hm : p.sys.mem.aborted = false) (hpc : p.main.pc = .joinWorkers i) :
    ∃ g p', (process S W F).run p g = some p' ∧ (∀ j o, .thread (.client (j + 1)) o ∉ g) ∧
      p'.sys.mem.aborted = false ∧ p'.left S F < p.left S F := by
  have hp := hr.orderly
  obtain ⟨s, pc, t⟩ := p
  obtain rfl : pc = .joinWorkers i := hpc
  obtain ⟨hi, hrunning, hstopped, -⟩ := hp.placed
  have hi : i < S.numberOfWorkers := hi
  have hstop : s.mem.scheduler.state = .stopping := hp.ended.1
  have hjoin : ∀ {t : Spawned}, ((⟨.joinWorkers i, t⟩ : Main).joinFrom S (i + 1)).left S F
      (s.loc (.client 0)) < (⟨.joinWorkers i, t⟩ : Main).left S F (s.loc (.client 0)) := by
    intro t
    unfold Main.joinFrom Main.left
    split_ifs <;> simp only <;> omega
  by_cases hexit : t.exited i = true
  · refine ⟨[.main (.joinWorker i)], ⟨s, (⟨.joinWorkers i, t⟩ : Main).joinFrom S (i + 1)⟩, ?_,
      by simp, hm, Nat.add_lt_add_left hjoin _⟩
    rw [Lts.run_singleton]
    exact step_main.mpr ⟨⟨hm, nofun⟩, if_pos ⟨rfl, hexit⟩, rfl⟩
  · have hexit : t.exited i = false := by simpa using hexit
    by_cases hloc : s.loc (.worker i) = []
    · refine ⟨[.exit i, .main (.joinWorker i)], ⟨s, (⟨.joinWorkers i,
        { t with exited := Function.update t.exited i true }⟩ : Main).joinFrom S (i + 1)⟩, ?_,
        by simp, hm, Nat.add_lt_add_left hjoin _⟩
      refine (Lts.run_cons_iff _).mpr ⟨_, step_exit.mpr ⟨⟨hm, nofun⟩,
        ⟨hstopped ▸ hi, hexit, hloc⟩, rfl⟩, ?_⟩
      rw [Lts.run_singleton]
      exact step_main.mpr ⟨⟨hm, nofun⟩, if_pos ⟨rfl, Function.update_self _ _ _⟩, rfl⟩
    · -- it calls `Scheduler::stop` first
      obtain ⟨o, s', hs⟩ := sender_enabled (W := W) hm (hr.system.sender i) (Or.inl hloc)
      have hwear := remaining_step hstop hs
      have hone : wears S (.worker i, o) = 1 := if_pos hi
      have hnone : feeds (.worker i, o) = 0 := rfl
      have hmain : (⟨.joinWorkers i, t⟩ : Main).threadStep S F s (.worker i) o =
          some ⟨.joinWorkers i, t⟩ := if_pos ⟨hrunning.started ▸ hi, hexit⟩
      refine ⟨[.thread (.worker i) o], ⟨s', ⟨.joinWorkers i, t⟩⟩, ?_, by simp, ?_, ?_⟩
      · rw [Lts.run_singleton]
        exact step_thread.mpr ⟨⟨hm, nofun⟩, hmain, hs⟩
      · exact (Memory.access_iff.mp (step_access hs)).2.2.2.2.2.trans
          (senderStep_fails (Threads.step_loc hs))
      · have hloc : s'.loc (.client 0) = s.loc (.client 0) := Threads.step_frame hs nofun
        show remaining S s' + Main.left S F ⟨.joinWorkers i, t⟩ (s'.loc (.client 0)) <
          remaining S s + Main.left S F ⟨.joinWorkers i, t⟩ (s.loc (.client 0))
        rw [hloc]
        omega

/-- The runner, the loop and the senders get on by themselves. -/
theorem Process.Reaches.exists_step (hr : Process.Reaches S W F workload clock k p)
    (hN : 0 < S.numberOfWorkers) (hF : F.refused = false) (hm : p.sys.mem.aborted = false)
    (hpc : p.main.pc ≠ .complete) :
    ∃ g p', (process S W F).run p g = some p' ∧ (∀ j o, .thread (.client (j + 1)) o ∉ g) ∧
      p'.sys.mem.aborted = false ∧ p'.left S F < p.left S F := by
  have hp := hr.orderly
  have hfatal : p.main.pc ≠ .fatal := by
    intro hpc
    have hplaced := hp.placed
    simp only [Main.Placed, hpc, hF] at hplaced
    cases hplaced.1
  have hown : ∀ {o m}, p.main.pc.call = none → p.main.step S F p.sys o = some m →
      m.left S F (p.sys.loc (.client 0)) < p.main.left S F (p.sys.loc (.client 0)) →
      ∃ g p', (process S W F).run p g = some p' ∧ (∀ j o, .thread (.client (j + 1)) o ∉ g) ∧
        p'.sys.mem.aborted = false ∧ p'.left S F < p.left S F := by
    intro o m hcall hmain hlt
    refine ⟨[.main o], ⟨p.sys, m⟩, ?_, by simp, hm, Nat.add_lt_add_left hlt _⟩
    rw [Lts.run_singleton]
    exact step_main.mpr ⟨⟨hm, hfatal⟩, hmain, rfl⟩
  by_cases hcall : p.main.pc.call = none
  · have hidle : p.sys.loc (.client 0) = .idle := hp.calling.eq_idle hcall
    rw [hidle] at hown
    cases hpc' : p.main.pc with
    | joinWorkers i => exact hr.exists_step_join hm hpc'
    | poll r =>
        obtain ⟨hprinted, hpoll⟩ := hp.polling r hpc'
        have hpos : r.pc = .sleep → 0 < r.secondsToWait := by
          intro hsleep
          split_ifs at hpoll
          · obtain ⟨k, hk⟩ := hpoll
            exact hk.isPolling (by rw [hsleep]; rfl)
          · rw [hpoll] at hsleep
            cases hsleep
        obtain ⟨o, r', hreads, hs, hlt⟩ :=
          Runner.exists_step (S := S) r p.sys.mem.workers hprinted hpos
        refine hown (o := .poll o) hcall (m := { p.main with
          pc := if r'.pc = .printed then .stopWorkers else .poll r' }) ?_ ?_
        · simp only [Main.step, hpc', hreads, if_true, hs, Option.map_some]
        · split_ifs
          · simp only [Main.left, hpc', Frame.left, Frame.idle]
            omega
          · simp only [Main.left, hpc']
            omega
    | complete => exact absurd hpc' hpc
    | _ =>
        obtain ⟨o, m, hmain, hlt⟩ := Main.exists_step_starting (s := p.sys) hp.placed hF hcall
          (by simp [hpc']) (by simp [hpc']) hpc
        exact hown hcall hmain hlt
  · obtain ⟨a, p', hs, ha, hm', hlt⟩ := hr.exists_step_call hN hm hcall
    refine ⟨[a], p', (Lts.run_singleton _ _ _).trans hs, fun j o hmem => ?_, hm', hlt⟩
    exact ha j o (List.mem_singleton.mp hmem).symm

theorem exists_completion (hN : 0 < S.numberOfWorkers) (hF : F.refused = false) :
    ∀ (n : ℕ) {k : List ProcessOp} {p : Process ω}, Process.Reaches S W F workload clock k p →
      p.sys.mem.aborted = false → p.left S F = n →
      ∃ g p', (process S W F).run p g = some p' ∧ (∀ j o, .thread (.client (j + 1)) o ∉ g) ∧
        p'.main.pc = .complete := by
  intro n
  induction n using Nat.strong_induction_on with
  | _ n ih =>
      intro k p hr hm hn
      by_cases hpc : p.main.pc = .complete
      · exact ⟨[], p, rfl, by simp, hpc⟩
      · obtain ⟨g, q, hq, hg, hm', hlt⟩ := hr.exists_step hN hF hm hpc
        obtain ⟨g', p', hp', hg', hcomplete⟩ := ih _ (hn ▸ hlt) (hr.append hq) hm' rfl
        refine ⟨g ++ g', p', (Lts.run_append_iff _).mpr ⟨q, hq, hp'⟩, fun j o hmem => ?_, hcomplete⟩
        exact (List.mem_append.mp hmem).elim (hg j o) (hg' j o)

/-- **A test can always be brought to its end.**  Wherever a run of the process has got to, if the
rates are positive and no `CHECK` has failed, the runner, the loop and the senders can complete it
without any call of a remote client, and all rates that the loop reads on the way are positive. -/
theorem run_completes (hr : Process.Reaches S W F workload clock k p) (hN : 0 < S.numberOfWorkers)
    (hF : F.refused = false) (hm : p.sys.mem.aborted = false)
    (hpace : Paced S W workload clock (k.flatMap ProcessOp.system)) :
    ∃ g p', (process S W F).run p g = some p' ∧ (∀ j o, .thread (.client (j + 1)) o ∉ g) ∧
      p'.main.pc = .complete ∧
      Paced S W workload clock ((k ++ g).flatMap ProcessOp.system) := by
  obtain ⟨g, p', hrun, hg, hcomplete⟩ := exists_completion hN hF _ hr hm rfl
  exact ⟨g, p', hrun, hg, hcomplete, hr.paced hrun hg hpace⟩

theorem run_completes_requestedTest :
    ∃ g p, Process.Reaches (defaults 1) constantWorkload {} () 1 (requestedTest ++ g) p ∧
      .thread .loop (.putMessage 0 .sendRequest) ∈ requestedTest ∧ p.main.pc = .complete := by
  have hrun : ((process (defaults 1) constantWorkload {}).run (.start (defaults 1) () 1)
      requestedTest).any (fun p => !p.sys.mem.aborted) = true := by
    decide +kernel
  obtain ⟨q, hq, hm⟩ := (Option.any_eq_true _ _).mp hrun
  have hpace : Paced (defaults 1) constantWorkload () 1
      (requestedTest.flatMap ProcessOp.system) := by
    refine Paced.of_forall (by decide) fun t v hmem => ?_
    simp [requestedTest, wholeTest, opening, round, ProcessOp.of, ProcessOp.system] at hmem
  obtain ⟨g, p, hp, -, hpc, -⟩ :=
    run_completes (F := {}) hq Nat.one_pos (by decide) (by simpa using hm) hpace
  refine ⟨g, p, Process.Reaches.append hq hp, ?_, hpc⟩
  simp [requestedTest, round, ProcessOp.of]

end process

end Treadmill
