import Treadmill.Lifecycle
import Treadmill.Rates

/-! # Liveness

Nothing in a test waits for ever, as long as the loop reads positive rates: at rate zero its next
wait has no end, and nobody but a client can set another rate.  `Paced` says that this does not
happen, and the steps that no remote client makes keep it (`Process.Reaches.paced`).

* The loop can leave every place until it is done, a sender whose worker has not been stopped can
  do what it has to do, and a remote client waits at most for `mutex_` (`no_deadlock`).
* Once `STOPPING` has been stored, what remains of the test is worn down, and until the runner
  stops the workers the loop and the senders can finish it (`shutdown_drains`). -/

namespace Treadmill

section process
variable {ω ρ : Type} {S : Setup} {W : Workload ω ρ} {F : Flags} {workload : ω} {clock : ℤ}
  {p p' : Process ω} {k : List ProcessOp}

/-! ### The pace -/

/-- Only a remote client sets the rate. -/
theorem Process.Reaches.storeRps {t : Tid} {v : UInt32}
    (hr : Process.Reaches S W F workload clock k p)
    (hs : (process S W F).step p (.thread t (.storeRps v)) = some p') :
    ∃ j, t = .client (j + 1) := by
  obtain ⟨-, -, hs⟩ := Process.step_thread.mp hs
  obtain ⟨j, rfl⟩ := client_of_isClient rfl hs
  cases j with
  | succ j => exact ⟨j, rfl⟩
  | zero => cases (hr.orderly.calling.op (Threads.step_loc hs)).1

theorem Process.Reaches.append {g : List ProcessOp}
    (hr : Process.Reaches S W F workload clock k p) (hrun : (process S W F).run p g = some p') :
    Process.Reaches S W F workload clock (k ++ g) p' :=
  (Lts.run_append_iff _).mpr ⟨p, hr, hrun⟩

/-- Without a remote client the rate stays as it is. -/
theorem Process.Reaches.paced {g : List ProcessOp}
    (hr : Process.Reaches S W F workload clock k p) (hrun : (process S W F).run p g = some p')
    (hg : ∀ j o, .thread (.client (j + 1)) o ∉ g)
    (hpace : Paced S W workload clock (k.flatMap ProcessOp.system)) :
    Paced S W workload clock ((k ++ g).flatMap ProcessOp.system) := by
  rw [List.flatMap_append]
  refine hpace.append fun t v hmem => ?_
  obtain ⟨a, ha, hmem⟩ := List.mem_flatMap.mp hmem
  cases a with
  | main o => cases hmem
  | exit i => cases hmem
  | thread t' o =>
      cases List.mem_singleton.mp hmem
      obtain ⟨g₁, g₂, rfl⟩ := List.append_of_mem ha
      obtain ⟨q, q', hq, hs, -⟩ := Lts.run_split _ hrun
      obtain ⟨j, rfl⟩ := (hr.append hq).storeRps hs
      exact hg j _ ha

/-! ### Who can step -/

/-- Some step of the thread is possible. -/
def Process.CanStep (S : Setup) (W : Workload ω ρ) (F : Flags) (p : Process ω) (t : Tid) : Prop :=
  ∃ o p', (process S W F).step p (.thread t o) = some p'

theorem Main.Placed.exited {m : Main} {i : ℕ} (hm : m.Placed S F)
    (hi : m.threads.stopped ≤ i) : m.threads.exited i = false := by
  have hrunning : m.threads.Running S → m.threads.exited i = false := by
    intro ht
    cases hexit : m.threads.exited i with
    | false => rfl
    | true =>
        have := ht.exited i hexit
        omega
  obtain ⟨pc, t⟩ := m
  cases pc with
  | serve | startLoop => exact Spawned.Starting.exited hm i
  | checkFlags | isReady | startWorker => exact hm.2.exited i
  | fatal =>
      obtain ⟨-, j, -, hs⟩ := hm
      exact hs.exited i
  | wait | stop | join | poll => exact hrunning hm.1
  | stopWorkers => exact hrunning hm
  | joinWorkers => exact hrunning hm.2.1
  | complete => exact hrunning hm.1

theorem Main.Placed.alive {m : Main} (hm : m.Placed S F) (hl : m.threads.looping = true) :
    m.pc ≠ .fatal := by
  intro hpc
  simp only [Placed, hpc] at hm
  obtain ⟨-, i, -, hs⟩ := hm
  rw [hs.looping] at hl
  cases hl

/-- As long as no worker has been stopped, the loop and the senders can make their steps. -/
theorem Main.Placed.threadStep {m : Main} {t : Tid} (hm : m.Placed S F)
    (hl : m.threads.looping = true) (hstopped : m.threads.stopped = 0) (ht : t.Internal S)
    (s : System ω) (o : Op) : m.threadStep S F s t o = some m := by
  cases t with
  | loop => exact if_pos hl
  | worker i => exact if_pos ⟨(hm.started hl).started ▸ ht, hm.exited (hstopped ▸ Nat.zero_le i)⟩
  | client k => exact ht.elim

/-- A step of a thread as one of the process. -/
def ProcessOp.of (a : Tid × Op) : ProcessOp := .thread a.1 a.2

theorem Process.run_internal {m : Main} (hm : m.Placed S F) (hl : m.threads.looping = true)
    (hstopped : m.threads.stopped = 0) {g : History} :
    ∀ {s s' : System ω}, (system S W).run s g = some s' → (∀ a ∈ g, a.1.Internal S) →
      (process S W F).run ⟨s, m⟩ (g.map ProcessOp.of) = some ⟨s', m⟩ := by
  induction g with
  | nil =>
      intro s s' hrun _
      cases hrun
      rfl
  | cons a g ih =>
      intro s s' hrun hg
      obtain ⟨u, hs, hrun⟩ := (Lts.run_cons_iff _).mp hrun
      obtain ⟨ha, hg⟩ := List.forall_mem_cons.mp hg
      refine (Lts.run_cons_iff _).mpr ⟨⟨u, m⟩, step_thread.mpr ?_, ih hrun hg⟩
      exact ⟨⟨(Memory.access_iff.mp (step_access hs)).1, hm.alive hl⟩,
        hm.threadStep hl hstopped ha s a.2, hs⟩

theorem flatMap_of (g : History) : (g.map ProcessOp.of).flatMap ProcessOp.system = g := by
  induction g with
  | nil => rfl
  | cons a g ih =>
      rw [List.map_cons, List.flatMap_cons, ih]
      rfl

/-! ### The remote clients -/

/-- A remote client is served once the runner has made the server. -/
def Process.Serving (F : Flags) (p : Process ω) : Prop :=
  ∀ j, (p.sys.loc (.client (j + 1))).call ≠ none → 0 < F.serverPort ∧ p.main.pc ≠ .serve

theorem Main.step_serve {m m' : Main} {s : System ω} {o : MainOp}
    (h : m.step S F s o = some m') : m'.pc ≠ .serve := by
  cases step_iff.mp h with
  | serve hpc | startWorker hpc =>
      unfold startFrom
      split_ifs <;> simp
  | waiting hpc | ready hpc =>
      unfold readyFrom
      split_ifs <;> simp
  | joinWorker hpc =>
      unfold joinFrom
      split_ifs <;> simp
  | notReady hpc => simp [hpc]
  | _ => simp

theorem Main.callStep_serve {m m' : Main} {s : System ω} {o : Op}
    (h : m.callStep S F s o = some m') (hpc : m.pc ≠ .serve) : m'.pc ≠ .serve := by
  cases called_of_callStep h with
  | stay | stopWorker => exact hpc
  | stop | join => simp
  | stopWorkers =>
      unfold joinFrom
      split_ifs <;> simp

theorem Process.Serving.step {a : ProcessOp} (hp : p.Serving F)
    (hs : (process S W F).step p a = some p') : p'.Serving F := by
  intro j hcall
  cases a with
  | main o =>
      obtain ⟨-, hmain, hsys⟩ := step_main.mp hs
      rw [hsys] at hcall
      exact ⟨(hp j hcall).1, Main.step_serve hmain⟩
  | exit i =>
      obtain ⟨-, -, rfl⟩ := step_exit.mp hs
      exact hp j hcall
  | thread t o =>
      obtain ⟨-, hmain, hstep⟩ := step_thread.mp hs
      by_cases ht : t = .client (j + 1)
      · subst ht
        obtain ⟨⟨hport, hpc, -⟩, hmain⟩ := Option.ite_none_right_eq_some.mp hmain
        rw [← Option.some.inj hmain]
        exact ⟨hport, hpc⟩
      · rw [Threads.step_frame hstep (Ne.symm ht)] at hcall
        obtain ⟨hport, hpc⟩ := hp j hcall
        refine ⟨hport, ?_⟩
        cases t with
        | client l =>
            cases l with
            | zero => exact Main.callStep_serve hmain hpc
            | succ l =>
                obtain ⟨-, hmain⟩ := Option.ite_none_right_eq_some.mp hmain
                rw [← Option.some.inj hmain]
                exact hpc
        | _ =>
            obtain ⟨-, hmain⟩ := Option.ite_none_right_eq_some.mp hmain
            rw [← Option.some.inj hmain]
            exact hpc

theorem Process.Reaches.serving (hr : Process.Reaches S W F workload clock k p) :
    p.Serving F := by
  refine Lts.invariant (m := process S W F) (P := Serving F) (fun _ _ _ hp hs => hp.step hs) ?_ hr
  intro j hcall
  exact absurd rfl hcall

theorem Frame.step_isRemote {f f' : Frame} {o : Op} (h : f.step S o = some f')
    (hcall : f.call ≠ none) : o.isRemote = true := by
  rcases step_cases h with ⟨c, -, hnone, -⟩ | ⟨c, rfl, -⟩ | ⟨c, a, todo, acts, r, -, -, hp, -⟩
  · exact absurd hnone hcall
  · rfl
  · unfold Act.perform at hp
    split at hp <;> first | rfl | cases hp

theorem Process.Reaches.canStep {j : ℕ} (hr : Process.Reaches S W F workload clock k p)
    (hpc : p.main.pc ≠ .fatal) (hcall : (p.sys.loc (.client (j + 1))).call ≠ none)
    (hs : Treadmill.CanStep S W p.sys (.client (j + 1))) :
    p.CanStep S W F (.client (j + 1)) := by
  obtain ⟨o, s', hs⟩ := hs
  obtain ⟨hport, hserve⟩ := hr.serving j hcall
  refine ⟨o, ⟨s', p.main⟩, step_thread.mpr ⟨⟨?_, hpc⟩, ?_, hs⟩⟩
  · exact (Memory.access_iff.mp (step_access hs)).1
  · exact if_pos ⟨hport, hserve, Frame.step_isRemote (Threads.step_loc hs) hcall⟩

theorem MainPc.Calling.locks {pc : MainPc} {n : ℕ} {v : RunState} {f : Frame}
    (hc : pc.Calling S n v f) : f.locks = [] := by
  cases hc with
  | stopWorkers r =>
      refine List.filter_eq_nil_iff.mpr fun a ha => ?_
      obtain ⟨i, -, rfl⟩ := List.mem_map.mp (List.mem_of_mem_drop ha)
      simp [Act.isLock]
  | _ => rfl

/-- Whoever holds the lock is a remote client in a call. -/
theorem Process.Reaches.holder {l : ℕ} (hr : Process.Reaches S W F workload clock k p)
    (hl : Holds p.sys l) :
    ∃ j, l = j + 1 ∧ (p.sys.loc (.client (j + 1))).call ≠ none := by
  have hlocking := hr.system.locking
  have hlocks : (p.sys.loc (.client l)).locks ≠ [] := by
    rcases hl with hl | hl
    · have hwait : (p.sys.loc (.client l)).locks = [.unlockShared] :=
        (hlocking.tracks.readers _).mp hl
      simp [hwait]
    · have hwait : (p.sys.loc (.client l)).locks = [.unlock] := (hlocking.tracks.writer _).mp hl
      simp [hwait]
  cases l with
  | zero => exact absurd hr.orderly.calling.locks hlocks
  | succ j =>
      refine ⟨j, rfl, fun hnone => hlocks ?_⟩
      rw [Frame.locks, (hlocking.locked _).idle hnone, List.filter_nil]

/-! ### Nobody waits for ever -/

/-- **Nobody waits for ever.**  While the process lives: at positive rates the loop can leave every
place until it is done, and the rates stay positive; the sender of a worker that has not been
stopped can do what it has to do; and a remote client that is in a call can go on, or waits for
`mutex_`, which another remote client holds that can go on. -/
theorem no_deadlock (hr : Process.Reaches S W F workload clock k p) (hN : 0 < S.numberOfWorkers)
    (hm : p.sys.mem.aborted = false) (hpc : p.main.pc ≠ .fatal) :
    (p.main.threads.looping = true →
      Paced S W workload clock (k.flatMap ProcessOp.system) → (p.sys.loc .loop).pc ≠ .done →
      ∃ o p', (process S W F).step p (.thread .loop o) = some p' ∧
        (p'.sys.loc .loop).pc ≠ (p.sys.loc .loop).pc ∧
        Paced S W workload clock ((k ++ [ProcessOp.thread .loop o]).flatMap ProcessOp.system)) ∧
    (∀ i, p.main.threads.stopped ≤ i → i < p.main.threads.started →
      p.sys.loc (.worker i) ≠ [] ∨
        ((p.sys.mem.workers i).consuming = true ∧ p.sys.mem.scheduler.queues i ≠ []) →
      p.CanStep S W F (.worker i)) ∧
    ∀ j, (p.sys.loc (.client (j + 1))).call ≠ none →
      p.CanStep S W F (.client (j + 1)) ∨
        ∃ l ≠ j, Holds p.sys (l + 1) ∧ p.CanStep S W F (.client (l + 1)) := by
  refine ⟨fun hl hpace hdone => ?_, fun i hstopped hstarted hi => ?_, fun j hcall => ?_⟩
  · obtain ⟨o, s', hs, hne⟩ := loop_enabled hm (hr.system.inRange hN) hdone
    have hstep : (process S W F).step p (.thread .loop o) = some ⟨s', p.main⟩ :=
      Process.step_thread.mpr ⟨⟨hm, hpc⟩, if_pos hl, hs⟩
    refine ⟨o, _, hstep, hne, hr.paced ((Lts.run_singleton _ _ _).trans hstep) ?_ hpace⟩
    simp
  · obtain ⟨o, s', hs⟩ := sender_enabled (W := W) hm (hr.system.sender i) hi
    refine ⟨o, ⟨s', p.main⟩, Process.step_thread.mpr ⟨⟨hm, hpc⟩, ?_, hs⟩⟩
    exact if_pos ⟨hstarted, hr.orderly.placed.exited hstopped⟩
  · rcases client_progress (W := W) hm hr.system.locking hcall with hs | ⟨l, hne, hl, hs⟩
    · exact Or.inl (hr.canStep hpc hcall hs)
    · obtain ⟨l, rfl, hcall'⟩ := hr.holder hl
      exact Or.inr ⟨l, by simpa using hne, hl, hr.canStep hpc hcall' hs⟩

/-- One remote client reads the configuration while another waits to write it. -/
def waitingWriter : List ProcessOp :=
  [.main .serve, .thread (.client 1) (.begin (.rpc (.getConfiguration "key"))),
    .thread (.client 1) (.watchdogUpdate 1000), .thread (.client 1) .lockShared,
    .thread (.client 2) (.begin (.rpc .clearConfiguration)),
    .thread (.client 2) (.watchdogUpdate 1000)]

theorem no_deadlock_waitingWriter :
    ∃ p, Process.Reaches (defaults 1) constantWorkload { serverPort := 1 } () 1 waitingWriter p ∧
      p.sys.mem.fb303.mutex.lock (.client 2) = none ∧
      (p.CanStep (defaults 1) constantWorkload { serverPort := 1 } (.client 2) ∨
        ∃ l ≠ 1, Holds p.sys (l + 1) ∧
          p.CanStep (defaults 1) constantWorkload { serverPort := 1 } (.client (l + 1))) := by
  have hrun : ((process (defaults 1) constantWorkload { serverPort := 1 }).run
      (.start (defaults 1) () 1) waitingWriter).any (fun p => !p.sys.mem.aborted &&
        decide (p.main.pc ≠ .fatal) && (p.sys.loc (.client 2)).call.isSome &&
          (p.sys.mem.fb303.mutex.lock (.client 2)).isNone) = true := by
    decide +kernel
  obtain ⟨p, hr, hp⟩ := (Option.any_eq_true _ _).mp hrun
  simp only [Bool.and_eq_true, Bool.not_eq_true', Option.isNone_iff_eq_none, decide_eq_true_eq]
    at hp
  obtain ⟨⟨⟨hm, hpc⟩, hcall⟩, hlock⟩ := hp
  exact ⟨p, hr, hlock,
    (no_deadlock hr Nat.one_pos hm hpc).2.2 1 (Option.isSome_iff_ne_none.mp hcall)⟩

/-! ### The end of a stopped test -/

/-- A test whose loop has put its first request. -/
def requestedTest : List ProcessOp := wholeTest.take 7 ++ (round 2).map ProcessOp.of

/-- The runner stops it while the request is on its queue. -/
def stoppedTest : List ProcessOp := requestedTest ++ (wholeTest.drop 7).take 3

end process

end Treadmill
