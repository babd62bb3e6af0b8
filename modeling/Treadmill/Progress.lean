import Treadmill.Gate

/-! # Progress

What the threads of the system wait for, whoever has started them: the loop and the senders for
no other thread (`loop_enabled`, `sender_enabled`), and a client only for `mutex_`, which it takes
once in a call and holds for a few steps.

`Locking` says who holds the lock by what the clients still have to do; it gives an enabled
step to whoever is in the way of a waiting client (`client_progress`). -/

namespace Treadmill

/-! ### The critical section of a call -/

/-- The steps that take or release `mutex_`. -/
def Act.isLock : Act → Bool
  | .lockShared | .unlockShared | .lock | .unlock => true
  | _ => false

namespace Frame

/-- The lock steps that a client still has to make. -/
def locks (f : Frame) : List Act := f.todo.filter Act.isLock

/-- A client takes the lock at most once, as a reader or as the writer. -/
def Balanced (f : Frame) : Prop :=
  f.locks <:+ [.lockShared, .unlockShared] ∨ f.locks <:+ [.lock, .unlock]

/-- The messages that a client still has to put go to queues that there are. -/
def InRange (S : Setup) (f : Frame) : Prop :=
  ∀ i e, Act.putMessage i e ∈ f.todo → i < S.numberOfWorkers

end Frame

section calls
variable {S : Setup} {i : ℕ} {e : Event}

theorem Scheduler.lt_of_mem_messageAllWorkers {event : Event}
    (h : Act.putMessage i e ∈ messageAllWorkers S event) : i < S.numberOfWorkers := by
  obtain ⟨j, hj, he⟩ := List.mem_map.mp h
  cases he
  exact List.mem_range.mp hj

theorem Scheduler.lt_of_mem_setPhase {phaseName : String}
    (h : Act.putMessage i e ∈ setPhase S phaseName) : i < S.numberOfWorkers := by
  rcases List.mem_append.mp h with h | h
  · split_ifs at h <;> simp at h
  · exact lt_of_mem_messageAllWorkers h

theorem Call.lt_of_mem_body {c : Call} (h : Act.putMessage i e ∈ c.body S) :
    i < S.numberOfWorkers := by
  cases c with
  | setPhase phaseName => exact Scheduler.lt_of_mem_setPhase h
  | stopWorkers => simp [body] at h
  | rpc r =>
      cases r with
      | resume2 req =>
          simp only [body, Rpc.body, TreadmillFB303.futureResume2, List.mem_append,
            List.mem_singleton, reduceCtorEq, false_or] at h
          rcases h with h | h
          · exact Scheduler.lt_of_mem_setPhase h
          · simp [Scheduler.resume] at h
      | resume =>
          simp only [body, Rpc.body, TreadmillFB303.resume] at h
          split_ifs at h <;> simp [Scheduler.resume] at h
      | _ =>
          simp [body, Rpc.body, TreadmillFB303.pause, Scheduler.pause, TreadmillFB303.setRps,
            Scheduler.setRps, TreadmillFB303.setMaxOutstanding,
            Scheduler.setMaxOutstandingRequests, TreadmillFB303.futureGetRate,
            Scheduler.isRunning, Scheduler.getRps, Scheduler.getMaxOutstandingRequests,
            TreadmillFB303.futureGetConfiguration, TreadmillFB303.setConfiguration,
            TreadmillFB303.clearConfiguration] at h
  | _ =>
      simp [body, Scheduler.pause, Scheduler.resume, Scheduler.isRunning,
        Scheduler.getMaxOutstandingRequests, Scheduler.setMaxOutstandingRequests,
        Scheduler.stop, Scheduler.join, Scheduler.getRps, Scheduler.setRps] at h

/-- A call has no critical section, or one as a reader or as the writer. -/
theorem Call.body_locks (S : Setup) (c : Call) :
    (c.body S).filter Act.isLock = [] ∨
      (c.body S).filter Act.isLock = [.lockShared, .unlockShared] ∨
      (c.body S).filter Act.isLock = [.lock, .unlock] := by
  have hphase : ∀ phaseName, (Scheduler.setPhase S phaseName).filter Act.isLock = [] :=
    fun phaseName => List.filter_eq_nil_iff.mpr
      (Scheduler.forall_setPhase (by simp [Act.isLock]) (by simp [Act.isLock]))
  cases c with
  | setPhase phaseName => exact Or.inl (hphase phaseName)
  | stopWorkers =>
      left
      simp [body, Act.isLock]
  | rpc r =>
      cases r with
      | resume2 req =>
          left
          simp only [body, Rpc.body, TreadmillFB303.futureResume2, List.filter_append, hphase]
          rfl
      | resume =>
          right
          left
          simp only [body, Rpc.body, TreadmillFB303.resume]
          split_ifs <;> rfl
      | getConfiguration key => exact Or.inr (Or.inl rfl)
      | setConfiguration key value => exact Or.inr (Or.inr rfl)
      | clearConfiguration => exact Or.inr (Or.inr rfl)
      | _ => exact Or.inl rfl
  | _ => exact Or.inl rfl

theorem Act.perform_locks {a : Act} {r r' : Response} {o : Op} {acts : List Act}
    (hp : a.perform S r o = some (acts, r')) :
    acts.filter Act.isLock = [] ∧ (∀ i e, Act.putMessage i e ∈ acts → i < S.numberOfWorkers) := by
  rcases Act.perform_acts hp with rfl | ⟨v, -, -, rfl⟩ | ⟨-, -, rfl⟩
  · simp
  · refine ⟨List.filter_eq_nil_iff.mpr ?_, fun i e h => Scheduler.lt_of_mem_messageAllWorkers h⟩
    exact Scheduler.forall_messageAllWorkers (by simp [Act.isLock])
  · exact ⟨rfl, by simp [Scheduler.resume]⟩

theorem Act.perform_isLock {a : Act} {r r' : Response} {o : Op} {acts : List Act}
    (hp : a.perform S r o = some (acts, r')) : o.isLock = a.isLock := by
  unfold perform at hp
  split at hp <;> first | rfl | cases hp

end calls

namespace Frame

variable {S : Setup} {f f' : Frame} {o : Op}

/-- A client takes the lock in order, and is in its critical section only in a call. -/
structure Locked (f : Frame) : Prop where
  balanced : f.Balanced
  idle : f.call = none → f.todo = []

theorem locked_idle : Locked idle := ⟨Or.inl List.nil_suffix, fun _ => rfl⟩

theorem outside (hf : f.locks = [] ∨ f.locks = [.lockShared, .unlockShared] ∨
    f.locks = [.lock, .unlock]) :
    f.Balanced ∧ f.locks ≠ [.unlockShared] ∧ f.locks ≠ [.unlock] := by
  unfold Balanced
  rcases hf with hf | hf | hf <;> rw [hf]
  · exact ⟨Or.inl List.nil_suffix, by simp, by simp⟩
  · exact ⟨Or.inl List.suffix_rfl, by simp, by simp⟩
  · exact ⟨Or.inr List.suffix_rfl, by simp, by simp⟩

/-- What a client does to the lock. -/
theorem Locked.step (hf : f.Locked) (h : f.step S o = some f') :
    f'.Locked ∧
    ((o.isLock = false ∧ (f'.locks = [.unlockShared] ↔ f.locks = [.unlockShared]) ∧
        (f'.locks = [.unlock] ↔ f.locks = [.unlock])) ∨
      (o = .lockShared ∧ f.locks = [.lockShared, .unlockShared] ∧ f'.locks = [.unlockShared]) ∨
      (o = .unlockShared ∧ f.locks = [.unlockShared] ∧ f'.locks = []) ∨
      (o = .lock ∧ f.locks = [.lock, .unlock] ∧ f'.locks = [.unlock]) ∨
      (o = .unlock ∧ f.locks = [.unlock] ∧ f'.locks = [])) := by
  rcases step_cases h with ⟨c, rfl, hcall, rfl⟩ | ⟨c, rfl, hcall, htodo, rfl⟩ |
    ⟨c, a, todo, acts, r, hcall, htodo, hp, rfl⟩
  · obtain ⟨-, hshared, hexclusive⟩ := outside (f := f)
      (Or.inl (by rw [locks, hf.idle hcall, List.filter_nil]))
    obtain ⟨hbal, hshared', hexclusive'⟩ :=
      outside (f := ⟨some c, c.body S, {}⟩) (Call.body_locks S c)
    exact ⟨⟨hbal, by simp⟩, Or.inl ⟨rfl, iff_of_false hshared' hshared,
      iff_of_false hexclusive' hexclusive⟩⟩
  · obtain ⟨-, hshared, hexclusive⟩ := outside (f := f)
      (Or.inl (by rw [locks, htodo, List.filter_nil]))
    obtain ⟨-, hshared', hexclusive'⟩ := outside (f := Frame.idle) (Or.inl rfl)
    exact ⟨locked_idle, Or.inl ⟨rfl, iff_of_false hshared' hshared,
      iff_of_false hexclusive' hexclusive⟩⟩
  · have hlocks : locks ⟨some c, acts ++ todo, r⟩ = todo.filter Act.isLock := by
      rw [locks, List.filter_append, (Act.perform_locks hp).1, List.nil_append]
    cases ha : a.isLock with
    | false =>
        have hsame : f.locks = todo.filter Act.isLock := by
          rw [locks, htodo, List.filter_cons_of_neg (by simp [ha])]
        refine ⟨⟨?_, by simp⟩, Or.inl ⟨(Act.perform_isLock hp).trans ha, ?_, ?_⟩⟩
        · rw [Balanced, hlocks, ← hsame]
          exact hf.balanced
        · rw [hlocks, ← hsame]
        · rw [hlocks, ← hsame]
    | true =>
        have hcons : f.locks = a :: todo.filter Act.isLock := by
          rw [locks, htodo, List.filter_cons_of_pos ha]
        have hbal := hf.balanced
        rw [Balanced, hcons] at hbal
        simp only [List.suffix_cons_iff, List.suffix_nil, List.cons.injEq, reduceCtorEq,
          or_false] at hbal
        rcases hbal with (⟨rfl, htail⟩ | ⟨rfl, htail⟩) | (⟨rfl, htail⟩ | ⟨rfl, htail⟩)
        · cases o <;> simp [Act.perform] at hp
          rw [hlocks, hcons, htail]
          refine ⟨⟨Or.inl ?_, by simp⟩, by simp⟩
          rw [hlocks, htail]
          exact List.suffix_cons _ _
        · cases o <;> simp [Act.perform] at hp
          rw [hlocks, hcons, htail]
          refine ⟨⟨Or.inl ?_, by simp⟩, by simp⟩
          rw [hlocks, htail]
          exact List.nil_suffix
        · cases o <;> simp [Act.perform] at hp
          rw [hlocks, hcons, htail]
          refine ⟨⟨Or.inr ?_, by simp⟩, by simp⟩
          rw [hlocks, htail]
          exact List.suffix_cons _ _
        · cases o <;> simp [Act.perform] at hp
          rw [hlocks, hcons, htail]
          refine ⟨⟨Or.inl ?_, by simp⟩, by simp⟩
          rw [hlocks, htail]
          exact List.nil_suffix

theorem InRange.step (hf : f.InRange S) (h : f.step S o = some f') : f'.InRange S := by
  have htodo := step_todo (P := fun a => ∀ i e, a = .putMessage i e → i < S.numberOfWorkers)
    (fun c a ha i e he => Call.lt_of_mem_body (he ▸ ha))
    (fun a r acts r' _ hp b hb i e he => (Act.perform_locks hp).2 i e (he ▸ hb))
    (fun a ha i e he => hf i e (he ▸ ha)) h
  exact fun i e hm => htodo _ hm i e rfl

end Frame

/-! ### The lock in the system -/

/-- The thread is a client with these lock steps to make. -/
def Awaits {ω : Type} (s : System ω) (ls : List Act) : Tid → Prop
  | .client k => (s.loc (.client k)).locks = ls
  | _ => False

/-- The lock is held by the clients that still have to release it. -/
structure Locking {ω : Type} (S : Setup) (s : System ω) : Prop where
  locked : ∀ k, (s.loc (.client k)).Locked
  inRange : ∀ k, (s.loc (.client k)).InRange S
  tracks : s.mem.fb303.mutex.Tracks (Awaits s [.unlockShared]) (Awaits s [.unlock])

section system
variable {ω ρ : Type} {S : Setup} {W : Workload ω ρ} {workload : ω} {clock : ℤ} {h : History}
  {s s' : System ω} {t : Tid} {o : Op}

theorem Awaits.client {ls : List Act} (ht : Awaits s ls t) :
    ∃ k, t = .client k ∧ (s.loc (.client k)).locks = ls := by
  cases t with
  | client k => exact ⟨k, rfl, ht⟩
  | loop => exact ht.elim
  | worker i => exact ht.elim

theorem awaits_frame (hs : (system S W).step s (t, o) = some s') (ls : List Act) {j : Tid}
    (hj : j ≠ t) : Awaits s' ls j ↔ Awaits s ls j := by
  cases j with
  | client k => simp only [Awaits, Threads.step_frame hs hj]
  | loop => rfl
  | worker i => rfl

theorem awaits_step {ls : List Act} {k : ℕ} (hs : (system S W).step s (.client k, o) = some s')
    {P : Prop} (hk : (s'.loc (.client k)).locks = ls ↔ P) (j : Tid) :
    Awaits s' ls j ↔ (j = .client k ∧ P) ∨ (j ≠ .client k ∧ Awaits s ls j) := by
  by_cases hj : j = .client k
  · subst hj
    simpa [Awaits] using hk
  · simp [hj, awaits_frame hs ls hj]

theorem Locking.step_client {k : ℕ} (hl : Locking S s)
    (hs : (system S W).step s (.client k, o) = some s') :
    s'.mem.fb303.mutex.Tracks (Awaits s' [.unlockShared]) (Awaits s' [.unlock]) := by
  obtain ⟨-, -, hfb303, -⟩ := Memory.access_iff.mp (step_access hs)
  have hself : ∀ ls, Awaits s ls (.client k) ↔ (s.loc (.client k)).locks = ls := fun _ => Iff.rfl
  rcases ((hl.locked k).step (Threads.step_loc hs)).2 with ⟨ho, hshared, hexclusive⟩ |
    ⟨rfl, hb, ha⟩ | ⟨rfl, hb, ha⟩ | ⟨rfl, hb, ha⟩ | ⟨rfl, hb, ha⟩
  · rw [(TreadmillFB303.access_spec hfb303).mutex_eq ho]
    refine hl.tracks.congr (fun j => ?_) (fun j => ?_)
    · rw [awaits_step hs hshared]
      by_cases hj : j = .client k
      · subst hj
        simp [hself]
      · simp [hj]
    · rw [awaits_step hs hexclusive]
      by_cases hj : j = .client k
      · subst hj
        simp [hself]
      · simp [hj]
  · obtain ⟨l', hlock, hmutex⟩ := Option.map_eq_some_iff.mp hfb303
    rw [← hmutex]
    refine hl.tracks.lockShared hlock (by simp [hself, hb]) (fun j => ?_) (fun j => ?_)
    · rw [awaits_step (P := True) hs (by simp [ha])]
      by_cases hj : j = .client k <;> simp [hj]
    · rw [awaits_step (P := False) hs (by simp [ha])]
      by_cases hj : j = .client k
      · subst hj
        simp [hself, hb]
      · simp [hj]
  · obtain ⟨l', hlock, hmutex⟩ := Option.map_eq_some_iff.mp hfb303
    rw [← hmutex]
    refine hl.tracks.unlockShared hlock (fun j => ?_) (fun j => ?_)
    · rw [awaits_step (P := False) hs (by simp [ha])]
      simp
    · rw [awaits_step (P := False) hs (by simp [ha])]
      by_cases hj : j = .client k
      · subst hj
        simp [hself, hb]
      · simp [hj]
  · obtain ⟨l', hlock, hmutex⟩ := Option.map_eq_some_iff.mp hfb303
    obtain ⟨hwriter, -⟩ := SharedMutex.lock_spec hlock
    rw [← hmutex]
    refine hl.tracks.lock hlock (fun j => ?_) (fun j => ?_)
    · rw [awaits_step (P := False) hs (by simp [ha])]
      by_cases hj : j = .client k
      · subst hj
        simp [hself, hb]
      · simp [hj]
    · rw [awaits_step (P := True) hs (by simp [ha])]
      have hnone : ¬ Awaits s [.unlock] j := by
        rw [← hl.tracks.writer, hwriter]
        simp
      simp [hnone]
  · obtain ⟨l', hlock, hmutex⟩ := Option.map_eq_some_iff.mp hfb303
    have hwriter := SharedMutex.unlock_spec hlock
    rw [← hmutex]
    refine hl.tracks.unlock hlock (fun j => ?_) (fun j => ?_)
    · rw [awaits_step (P := False) hs (by simp [ha])]
      by_cases hj : j = .client k
      · subst hj
        simp [hself, hb]
      · simp [hj]
    · rw [awaits_step (P := False) hs (by simp [ha])]
      rintro (⟨-, hfalse⟩ | ⟨hj, hj'⟩)
      · exact hfalse
      · rw [← hl.tracks.writer, hwriter] at hj'
        exact hj (Option.some.inj hj').symm

theorem Locking.step (hl : Locking S s) (hs : (system S W).step s (t, o) = some s') :
    Locking S s' := by
  by_cases ht : ∃ k, t = .client k
  · obtain ⟨k, rfl⟩ := ht
    refine ⟨fun j => ?_, fun j => ?_, hl.step_client hs⟩
    · by_cases hj : j = k
      · subst hj
        exact ((hl.locked j).step (Threads.step_loc hs)).1
      · rw [Threads.step_frame hs (by simpa using hj)]
        exact hl.locked j
    · by_cases hj : j = k
      · subst hj
        exact (hl.inRange j).step (Threads.step_loc hs)
      · rw [Threads.step_frame hs (by simpa using hj)]
        exact hl.inRange j
  · have ht : ∀ k, t ≠ .client k := fun k hk => ht ⟨k, hk⟩
    have hsame : ∀ k, s'.loc (.client k) = s.loc (.client k) := fun k =>
      Threads.step_frame hs (ht k).symm
    have ho : o.isLock = false := by
      by_contra ho
      have hclient : o.isClient = true := by cases o <;> first | rfl | simp [Op.isLock] at ho
      obtain ⟨k, rfl⟩ := client_of_isClient hclient hs
      exact ht k rfl
    obtain ⟨-, -, hfb303, -⟩ := Memory.access_iff.mp (step_access hs)
    refine ⟨fun k => hsame k ▸ hl.locked k, fun k => hsame k ▸ hl.inRange k, ?_⟩
    rw [(TreadmillFB303.access_spec hfb303).mutex_eq ho]
    refine hl.tracks.congr (fun j => ?_) (fun j => ?_) <;>
      cases j <;> simp only [Awaits, hsame]

theorem Reaches.locking (hr : Reaches S W workload clock h s) : Locking S s := by
  refine Lts.invariant (P := Locking S) (fun s a s' hl hs => hl.step (t := a.1) (o := a.2) hs) ?_ hr
  refine ⟨fun k => Frame.locked_idle, fun k i e hm => ?_, SharedMutex.tracks_free ?_ ?_⟩
  · simp [start, Frame.idle] at hm
  · rintro (_ | k | i) <;> simp [Awaits, start, Frame.locks, Frame.idle]
  · rintro (_ | k | i) <;> simp [Awaits, start, Frame.locks, Frame.idle]

end system

/-! ### Enabled steps -/

section enabled
variable {ω ρ : Type} {S : Setup} {W : Workload ω ρ} {workload : ω} {clock : ℤ} {h : History}
  {s : System ω} {m : Memory ω} {t : Tid} {o : Op}

/-- The thread has something it can do. -/
def CanStep (S : Setup) (W : Workload ω ρ) (s : System ω) (t : Tid) : Prop :=
  ∃ o s', (system S W).step s (t, o) = some s'

theorem canStep_of (hm : (s.mem.access S W t o).isSome)
    (hl : ((program S W).thread t (s.loc t) o).isSome) : CanStep S W s t := by
  obtain ⟨m', hm⟩ := Option.isSome_iff_exists.mp hm
  obtain ⟨c, hl⟩ := Option.isSome_iff_exists.mp hl
  exact ⟨o, _, Threads.step_iff.mpr ⟨m', c, hm, hl, rfl⟩⟩

theorem access_enabled (hm : m.aborted = false) (hscheduler : (m.scheduler.access S o).isSome)
    (hfb303 : (m.fb303.access S t o).isSome)
    (hworkers : (Memory.accessWorkers W m.workers o).isSome)
    (hclock : (Memory.accessClock m.clock o).isSome) : (m.access S W t o).isSome := by
  obtain ⟨scheduler, hs⟩ := Option.isSome_iff_exists.mp hscheduler
  obtain ⟨fb303, hf⟩ := Option.isSome_iff_exists.mp hfb303
  obtain ⟨workers, hw⟩ := Option.isSome_iff_exists.mp hworkers
  obtain ⟨clock, hc⟩ := Option.isSome_iff_exists.mp hclock
  have : m.access S W t o = some ⟨scheduler, fb303, workers, clock, Memory.fails o⟩ :=
    Memory.access_iff.mpr ⟨hm, hs, hf, hw, hc, rfl⟩
  rw [this]
  rfl

/-- A step of a call that does not wait for the lock can be made: the memory always has
something to read. -/
theorem Act.enabled (a : Act) (r : Response) (hm : m.aborted = false)
    (hput : ∀ i e, a = .putMessage i e → i < S.numberOfWorkers)
    (hunlockShared : a = .unlockShared → t ∈ m.fb303.mutex.readers)
    (hunlock : a = .unlock → m.fb303.mutex.writer = some t)
    (hlockShared : a = .lockShared → (m.fb303.mutex.lockShared t).isSome)
    (hlock : a = .lock → (m.fb303.mutex.lock t).isSome) :
    ∃ o, (a.perform S r o).isSome ∧ (m.access S W t o).isSome := by
  cases a with
  | casPaused =>
      exact ⟨.casPaused (decide (m.scheduler.state = .running)), rfl,
        access_enabled hm (by simp [Scheduler.access]) rfl rfl rfl⟩
  | casRunning =>
      exact ⟨.casRunning (decide (m.scheduler.state = .paused)), rfl,
        access_enabled hm (by simp [Scheduler.access]) rfl rfl rfl⟩
  | readRunning =>
      exact ⟨.loadState m.scheduler.state, rfl,
        access_enabled hm (by simp [Scheduler.access]) rfl rfl rfl⟩
  | storeStopping => exact ⟨.storeStopping, rfl, access_enabled hm rfl rfl rfl rfl⟩
  | checkPaused =>
      exact ⟨.checkPaused (decide (m.scheduler.state = .paused)), rfl,
        access_enabled hm (by simp [Scheduler.access]) rfl rfl rfl⟩
  | checkStopping =>
      exact ⟨.checkStopping (decide (m.scheduler.state = .stopping)), rfl,
        access_enabled hm (by simp [Scheduler.access]) rfl rfl rfl⟩
  | readRps =>
      exact ⟨.loadRps m.scheduler.rps, rfl,
        access_enabled hm (by simp [Scheduler.access]) rfl rfl rfl⟩
  | storeRps rps =>
      exact ⟨.storeRps rps.toUInt32, by simp [perform], access_enabled hm rfl rfl rfl rfl⟩
  | readMaxOutstandingRequests =>
      exact ⟨.loadMaxOutstandingRequests m.scheduler.maxOutstandingRequests, rfl,
        access_enabled hm (by simp [Scheduler.access]) rfl rfl rfl⟩
  | storeMaxOutstandingRequests maxOutstanding =>
      exact ⟨.storeMaxOutstandingRequests maxOutstanding.toUInt32, by simp [perform],
        access_enabled hm rfl rfl rfl rfl⟩
  | messageMax =>
      exact ⟨.loadMaxOutstandingRequests m.scheduler.maxOutstandingRequests, rfl,
        access_enabled hm (by simp [Scheduler.access]) rfl rfl rfl⟩
  | putMessage i e =>
      exact ⟨.putMessage i e, by simp [perform],
        access_enabled hm (by simp [Scheduler.access, Scheduler.putMessage, hput i e rfl])
          rfl rfl rfl⟩
  | watchdogUpdate => exact ⟨.watchdogUpdate 0, rfl, access_enabled hm rfl rfl rfl rfl⟩
  | disarmWatchdog => exact ⟨.disarmWatchdog, rfl, access_enabled hm rfl rfl rfl rfl⟩
  | lockShared =>
      exact ⟨.lockShared, rfl, access_enabled hm rfl
        (by simpa [TreadmillFB303.access] using hlockShared rfl) rfl rfl⟩
  | unlockShared =>
      exact ⟨.unlockShared, rfl, access_enabled hm rfl
        (by simp [TreadmillFB303.access, SharedMutex.unlockShared, hunlockShared rfl]) rfl rfl⟩
  | lock =>
      exact ⟨.lock, rfl, access_enabled hm rfl
        (by simpa [TreadmillFB303.access] using hlock rfl) rfl rfl⟩
  | unlock =>
      exact ⟨.unlock, rfl, access_enabled hm rfl
        (by simp [TreadmillFB303.access, SharedMutex.unlock, hunlock rfl]) rfl rfl⟩
  | gate =>
      refine ⟨.configurationEmpty m.fb303.configuration.entries.isEmpty, ?_,
        access_enabled hm rfl (by simp [TreadmillFB303.access]) rfl rfl⟩
      simp only [perform]
      split_ifs <;> rfl
  | getConfiguration key =>
      exact ⟨.getConfiguration key ((m.fb303.configuration.lookup key).getD ""),
        by simp [perform], access_enabled hm rfl (by simp [TreadmillFB303.access]) rfl rfl⟩
  | insertOrAssign key value =>
      exact ⟨.insertOrAssign key value, by simp [perform], access_enabled hm rfl rfl rfl rfl⟩
  | armWatchdog key value =>
      exact ⟨.armWatchdog key value, by simp [perform], access_enabled hm rfl rfl rfl rfl⟩
  | clearConfiguration =>
      exact ⟨.clearConfiguration, rfl, access_enabled hm rfl rfl rfl rfl⟩
  | stopWorker i =>
      refine ⟨.work i .stop false, by simp [perform], access_enabled hm rfl rfl ?_ rfl⟩
      simp [Memory.accessWorkers, Memory.work, Worker.step]

theorem Frame.locks_eq {f : Frame} {a : Act} {todo : List Act} (hf : f.Balanced)
    (htodo : f.todo = a :: todo) :
    (a = .unlockShared → f.locks = [.unlockShared]) ∧ (a = .unlock → f.locks = [.unlock]) ∧
      (a = .lockShared ∨ a = .lock → f.locks ≠ [.unlockShared] ∧ f.locks ≠ [.unlock]) := by
  have hcons : a.isLock = true → f.locks = a :: todo.filter Act.isLock := by
    intro ha
    rw [locks, htodo, List.filter_cons_of_pos ha]
  unfold Balanced at hf
  refine ⟨?_, ?_, ?_⟩
  · rintro rfl
    rw [hcons rfl] at hf ⊢
    simp only [List.suffix_cons_iff, List.suffix_nil, List.cons.injEq, reduceCtorEq,
      false_and, or_false, false_or, true_and] at hf
    rw [hf]
  · rintro rfl
    rw [hcons rfl] at hf ⊢
    simp only [List.suffix_cons_iff, List.suffix_nil, List.cons.injEq, reduceCtorEq,
      false_and, or_false, false_or, true_and] at hf
    rw [hf]
  · rintro (rfl | rfl) <;> rw [hcons rfl] <;> simp

theorem client_enabled {k : ℕ} {c : Call} (hm : s.mem.aborted = false) (hl : Locking S s)
    (hc : (s.loc (.client k)).call = some c) :
    CanStep S W s (.client k) ∨
      ∃ a todo, (s.loc (.client k)).todo = a :: todo ∧
        ((a = .lockShared ∧ s.mem.fb303.mutex.lockShared (.client k) = none) ∨
          (a = .lock ∧ s.mem.fb303.mutex.lock (.client k) = none)) := by
  cases htodo : (s.loc (.client k)).todo with
  | nil =>
      left
      refine canStep_of (o := .ret (s.loc (.client k)).response)
        (access_enabled hm rfl rfl rfl rfl) ?_
      simp [program, Frame.step, hc, htodo]
  | cons a todo =>
      obtain ⟨hunlockShared, hunlock, -⟩ := Frame.locks_eq (hl.locked k).balanced htodo
      by_cases hwait : (a = .lockShared ∧ s.mem.fb303.mutex.lockShared (.client k) = none) ∨
          (a = .lock ∧ s.mem.fb303.mutex.lock (.client k) = none)
      · exact Or.inr ⟨a, todo, rfl, hwait⟩
      · rw [not_or, not_and, not_and] at hwait
        obtain ⟨o, hp, hacc⟩ := Act.enabled (S := S) (W := W) (t := .client k) a
          (s.loc (.client k)).response hm
          (fun i e he => hl.inRange k i e (by rw [htodo, he]; exact List.mem_cons_self))
          (fun he => (hl.tracks.readers _).mpr (hunlockShared he))
          (fun he => (hl.tracks.writer _).mpr (hunlock he))
          (fun he => Option.isSome_iff_ne_none.mpr (hwait.1 he))
          (fun he => Option.isSome_iff_ne_none.mpr (hwait.2 he))
        left
        refine canStep_of hacc ?_
        simp only [program, Frame.step, hc, htodo, Option.isSome_map]
        exact hp

/-- The client holds `mutex_`. -/
def Holds (s : System ω) (k : ℕ) : Prop :=
  .client k ∈ s.mem.fb303.mutex.readers ∨ s.mem.fb303.mutex.writer = some (.client k)

theorem holder_canStep {j : ℕ} (hm : s.mem.aborted = false) (hl : Locking S s)
    (hj : Holds s j) : CanStep S W s (.client j) := by
  have hlocks : (s.loc (.client j)).locks = [.unlockShared] ∨
      (s.loc (.client j)).locks = [.unlock] := by
    rcases hj with hj | hj
    · exact Or.inl ((hl.tracks.readers _).mp hj)
    · exact Or.inr ((hl.tracks.writer _).mp hj)
  cases hc : (s.loc (.client j)).call with
  | none =>
      have hnil := (hl.locked j).idle hc
      rw [Frame.locks, hnil, List.filter_nil] at hlocks
      simp at hlocks
  | some c =>
      rcases client_enabled (W := W) hm hl hc with hstep | ⟨a, todo, htodo, ha⟩
      · exact hstep
      · obtain ⟨-, -, hne⟩ := Frame.locks_eq (hl.locked j).balanced htodo
        obtain ⟨hshared, hexclusive⟩ := hne (ha.imp And.left And.left)
        exact absurd hlocks (not_or.mpr ⟨hshared, hexclusive⟩)

/-- A client waits only for a client that does not. -/
theorem client_progress {k : ℕ} (hm : s.mem.aborted = false) (hl : Locking S s)
    (hc : (s.loc (.client k)).call ≠ none) :
    CanStep S W s (.client k) ∨ ∃ j ≠ k, Holds s j ∧ CanStep S W s (.client j) := by
  obtain ⟨c, hc⟩ := Option.ne_none_iff_exists'.mp hc
  rcases client_enabled (W := W) hm hl hc with hstep | ⟨a, todo, htodo, ha⟩
  · exact Or.inl hstep
  · obtain ⟨-, -, hne⟩ := Frame.locks_eq (hl.locked k).balanced htodo
    obtain ⟨hshared, hexclusive⟩ := hne (ha.imp And.left And.left)
    have hholder : ∃ t, Awaits s [.unlockShared] t ∨ Awaits s [.unlock] t := by
      rcases ha with ⟨-, hnone⟩ | ⟨-, hnone⟩
      · obtain ⟨t, ht⟩ := hl.tracks.lockShared_blocked hnone
        exact ⟨t, Or.inr ht⟩
      · exact hl.tracks.lock_blocked hnone
    obtain ⟨t, ht⟩ := hholder
    obtain ⟨j, rfl⟩ : ∃ j, t = .client j := by
      rcases ht with ht | ht <;> exact ⟨_, ht.client.choose_spec.1⟩
    have hj : Holds s j := ht.imp (hl.tracks.readers _).mpr (hl.tracks.writer _).mpr
    refine Or.inr ⟨j, ?_, hj, holder_canStep hm hl hj⟩
    rintro rfl
    exact ht.elim hshared hexclusive

end enabled

/-! ### The loop and the senders -/

/-- The loop is at queues that there are. -/
structure Loop.InRange (S : Setup) (l : Loop) : Prop where
  next : l.next < S.numberOfWorkers
  pc : ∀ i, l.pc = .reset i ∨ l.pc = .stop i → i < S.numberOfWorkers

namespace Loop

variable {S : Setup} {l l' : Loop} {o : Op}

theorem inRange_resetFrom (hnext : l.next < S.numberOfWorkers) (i : ℕ) :
    (l.resetFrom S i).InRange S := by
  refine ⟨hnext, fun j hj => ?_⟩
  unfold resetFrom at hj
  split_ifs at hj with hi
  · rcases hj with hj | hj <;> cases hj
    exact hi
  · simp at hj

theorem inRange_stopFrom (hnext : l.next < S.numberOfWorkers) (i : ℕ) :
    (l.stopFrom S i).InRange S := by
  refine ⟨hnext, fun j hj => ?_⟩
  unfold stopFrom at hj
  split_ifs at hj with hi
  · rcases hj with hj | hj <;> cases hj
    exact hi
  · simp at hj

theorem InRange.step (hN : 0 < S.numberOfWorkers) (hl : l.InRange S)
    (h : l.step S o = some l') : l'.InRange S := by
  cases step_iff.mp h with
  | reset hpc => exact inRange_resetFrom hl.next _
  | restart hpc hv => exact inRange_resetFrom hl.next _
  | halt hpc => exact inRange_stopFrom hl.next _
  | stop hpc => exact inRange_stopFrom hl.next _
  | loadRps hpc v => exact ⟨hN, by simp⟩
  | size hpc n =>
      refine ⟨?_, by simp [afterSize]⟩
      have := hl.next
      simp only [afterSize]
      split_ifs <;> omega
  | _ hpc => exact ⟨hl.next, by simp⟩

end Loop

section threads
variable {ω ρ : Type} {S : Setup} {W : Workload ω ρ} {workload : ω} {clock : ℤ} {h : History}
  {s : System ω} {m : Memory ω}

theorem Reaches.inRange (hN : 0 < S.numberOfWorkers) (hr : Reaches S W workload clock h s) :
    (s.loc .loop).InRange S :=
  Threads.loc_invariant (p := program S W) (i := .loop) (P := Loop.InRange S)
    (fun _ _ _ hl hs => Loop.InRange.step hN hl hs) (Loop.inRange_resetFrom hN 0) hr

theorem accessClock_late (clock t : ℤ) :
    ∃ t', t ≤ t' ∧ (Memory.accessClock clock (.nowNs t')).isSome := by
  refine ⟨max t (max clock 1), le_max_left _ _, ?_⟩
  simp only [Memory.accessClock]
  rw [if_pos ⟨(le_max_left _ _).trans (le_max_right _ _), by omega⟩]
  rfl

/-- The loop can always leave the place where it is, a spin loop once the clock has reached the
end of the wait. -/
theorem loop_leaves (hm : m.aborted = false) {l : Loop} (hl : l.InRange S) (hpc : l.pc ≠ .done) :
    ∃ o l', Loop.Transition S l o l' ∧ (m.access S W .loop o).isSome ∧ l'.pc ≠ l.pc := by
  have hload : (m.access S W .loop (.loadState m.scheduler.state)).isSome :=
    access_enabled hm (by simp [Scheduler.access]) rfl rfl rfl
  have hrps : (m.access S W .loop (.loadRps m.scheduler.rps)).isSome :=
    access_enabled hm (by simp [Scheduler.access]) rfl rfl rfl
  have hnow : ∀ t, ∃ t', t ≤ t' ∧ (m.access S W .loop (.nowNs t')).isSome := by
    intro t
    obtain ⟨t', ht, hc⟩ := accessClock_late m.clock t
    exact ⟨t', ht, access_enabled hm rfl rfl rfl hc⟩
  have hdraw : (m.access S W .loop (.draw l.intervalNs 0)).isSome :=
    access_enabled hm rfl rfl rfl rfl
  have hput : ∀ i e, i < S.numberOfWorkers → (m.access S W .loop (.putMessage i e)).isSome :=
    fun i e hi =>
      access_enabled hm (by simp [Scheduler.access, Scheduler.putMessage, hi]) rfl rfl rfl
  cases hp : l.pc with
  | reset i =>
      refine ⟨_, _, .reset hp, hput i .reset (hl.pc i (Or.inl hp)), ?_⟩
      unfold Loop.resetFrom
      split_ifs <;> simp
  | loadRps => exact ⟨_, _, .loadRps hp _, hrps, by simp⟩
  | drawFirst => exact ⟨_, _, .drawFirst hp le_rfl, hdraw, by simp⟩
  | checkRunning =>
      by_cases hv : m.scheduler.state = .running
      · rw [hv] at hload
        exact ⟨_, _, .running hp, hload, by simp⟩
      · exact ⟨_, _, .notRunning hp hv, hload, by simp⟩
  | readB =>
      obtain ⟨t, -, hnow⟩ := hnow 0
      exact ⟨_, _, .readB hp t, hnow, by simp⟩
  | waitStart =>
      obtain ⟨t, -, hnow⟩ := hnow 0
      exact ⟨_, _, .waitStart hp t, hnow, by simp⟩
  | waiting start =>
      obtain ⟨t, ht, hnow⟩ := hnow (start + max l.budget 0)
      exact ⟨_, _, .waited hp (by omega), hnow, by simp⟩
  | readA =>
      obtain ⟨t, -, hnow⟩ := hnow 0
      exact ⟨_, _, .readA hp t, hnow, by simp⟩
  | drawNext => exact ⟨_, _, .drawNext hp le_rfl, hdraw, by simp⟩
  | put => exact ⟨_, _, .put hp, hput _ .sendRequest hl.next, by simp⟩
  | size =>
      exact ⟨_, _, .size hp (m.scheduler.queues l.next).length,
        access_enabled hm (by simp [Scheduler.access]) rfl rfl rfl, by simp [Loop.afterSize]⟩
  | compareRps =>
      by_cases hv : l.rps.toUInt32 = m.scheduler.rps
      · rw [← hv] at hrps
        exact ⟨_, _, .unchanged hp, hrps, by simp⟩
      · exact ⟨_, _, .changed hp hv, hrps, by simp⟩
  | reloadRps => exact ⟨_, _, .reloadRps hp _, hrps, by simp⟩
  | checkPaused =>
      by_cases hv : m.scheduler.state = .paused
      · rw [hv] at hload
        exact ⟨_, _, .paused hp, hload, by simp⟩
      · exact ⟨_, _, .notPaused hp hv, hload, by simp⟩
  | pauseStart =>
      obtain ⟨t, -, hnow⟩ := hnow 0
      exact ⟨_, _, .pauseStart hp t, hnow, by simp⟩
  | pausing start =>
      obtain ⟨t, ht, hnow⟩ := hnow (start + 1000)
      exact ⟨_, _, .rested hp (by omega), hnow, by simp⟩
  | checkStopping =>
      by_cases hv : m.scheduler.state = .stopping
      · rw [hv] at hload
        refine ⟨_, _, .halt hp, hload, ?_⟩
        unfold Loop.stopFrom
        split_ifs <;> simp
      · refine ⟨_, _, .restart hp hv, hload, ?_⟩
        unfold Loop.resetFrom
        split_ifs <;> simp
  | stop i =>
      refine ⟨_, _, .stop hp, hput i .stop (hl.pc i (Or.inr hp)), ?_⟩
      unfold Loop.stopFrom
      split_ifs <;> simp
  | setValue => exact ⟨_, _, .setValue hp, access_enabled hm rfl rfl rfl rfl, by simp⟩
  | done => exact absurd hp hpc

theorem loop_enabled (hm : s.mem.aborted = false) (hl : (s.loc .loop).InRange S)
    (hpc : (s.loc .loop).pc ≠ .done) :
    ∃ o s', (system S W).step s (.loop, o) = some s' ∧
      (s'.loc .loop).pc ≠ (s.loc .loop).pc := by
  obtain ⟨o, l', ht, hacc, hne⟩ := loop_leaves (W := W) hm hl hpc
  obtain ⟨m', hm'⟩ := Option.isSome_iff_exists.mp hacc
  exact ⟨o, _, Threads.step_iff.mpr ⟨m', l', hm', Loop.step_iff.mpr ht, rfl⟩, by simpa using hne⟩

/-- A sender has at most the call of `Scheduler::stop` to finish. -/
theorem Reaches.sender (hr : Reaches S W workload clock h s) (i : ℕ) :
    s.loc (.worker i) = [] ∨ s.loc (.worker i) = [.storeStopping] := by
  refine Threads.loc_invariant (p := program S W) (i := .worker i)
    (P := fun todo : List Act => todo = [] ∨ todo = [.storeStopping]) ?_ (Or.inl rfl) hr
  intro todo o todo' htodo hs
  have hs : senderStep i todo o = some todo' := hs
  unfold senderStep at hs
  split at hs
  · split_ifs at hs with hj hterm <;> cases hs
    · exact Or.inr rfl
    · exact Or.inl rfl
  · split_ifs at hs
    cases hs
    exact Or.inl rfl
  · cases hs
    rcases htodo with htodo | htodo
    · cases htodo
    · exact Or.inl (List.cons.inj htodo).2
  · cases hs

theorem message_enabled (w : Worker ω) (e : Event) :
    (w.messageAvailable W e {}).isSome := by
  unfold Worker.messageAvailable
  split_ifs
  · rfl
  · cases e.eventType with
    | sendRequest =>
        simp only [Worker.sendRequest]
        split_ifs
        · cases W.getNextRequest w.phase w.workload with
          | mk request workload => cases request <;> rfl
        · rfl
    | setPhase => cases e.extraData <;> rfl
    | setMaxOutstanding => cases e.extraData <;> rfl
    | _ => rfl

theorem work_enabled {workers : ℕ → Worker ω} {i : ℕ} {inp : Worker.Input} {w : Worker ω}
    {es : List (Effect ρ)} (hw : (workers i).step W inp = some (w, es)) :
    (Memory.accessWorkers W workers
      (.work i inp (es.any fun | .terminateEarly => true | _ => false))).isSome := by
  simp only [Memory.accessWorkers, Memory.work, hw]
  exact Option.isSome_iff_exists.mpr ⟨_, if_pos rfl⟩

/-- A sender that has a message, or `Scheduler::stop` to call, waits for nobody. -/
theorem sender_enabled {i : ℕ} (hm : s.mem.aborted = false)
    (hsender : s.loc (.worker i) = [] ∨ s.loc (.worker i) = [.storeStopping])
    (hi : s.loc (.worker i) ≠ [] ∨
      ((s.mem.workers i).consuming = true ∧ s.mem.scheduler.queues i ≠ [])) :
    CanStep S W s (.worker i) := by
  rcases hsender with hnil | hstop
  · obtain ⟨hcons, hqueue⟩ := hi.resolve_left (not_not.mpr hnil)
    obtain ⟨e, queue, hq⟩ := List.exists_cons_of_ne_nil hqueue
    obtain ⟨⟨w, es⟩, hw⟩ := Option.isSome_iff_exists.mp (message_enabled (W := W)
      (s.mem.workers i) e)
    refine canStep_of (o := .work i (.message e {})
      (es.any fun | .terminateEarly => true | _ => false)) (access_enabled hm ?_ rfl ?_ rfl) ?_
    · simp [Scheduler.access, Scheduler.takeMessage, hq]
    · have hstep : (s.mem.workers i).step W (.message e {}) = some (w, es) :=
        (if_pos hcons).trans hw
      exact work_enabled hstep
    · simp [program, senderStep, hnil]
  · refine canStep_of (o := .storeStopping) (access_enabled hm rfl rfl rfl rfl) ?_
    simp [program, senderStep, hstop]

end threads

end Treadmill
