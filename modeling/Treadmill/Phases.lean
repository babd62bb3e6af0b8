import Treadmill.Agreement
import Treadmill.Resync

/-! # The phase of a request

`resume2` puts its phase on every queue and then resumes the scheduler.  A request that the
loop puts after that lies behind the phase on its queue, and so, as long as no other phase is
announced, it carries the phase of the run it belongs to (`requests_carry_phase`).

The change of phase is less orderly.  `pause` does not wait for the loop, which may be between
its check of `state_` and the `SEND_REQUEST`; if the next `resume2` comes before the request is
put, the request of the old run lies behind the new phase (`straggler_after_setPhase`). -/

namespace Treadmill

/-! ### Announcements come before the resume -/

/-- The step resumes the scheduler, or leads to one that does. -/
def Act.resumes : Act → Bool
  | .casRunning | .gate => true
  | _ => false

/-- No announcing step follows a resume. -/
def AnnouncesFirst (κ : EventType) (todo : List Act) : Prop :=
  todo.Pairwise fun a b => a.resumes = true → b.announces κ = false

section first
variable {S : Setup} {κ : EventType} {todo : List Act} {f f' : Frame} {o : Op}

theorem first_of_announces (h : ∀ b ∈ todo, b.announces κ = false) : AnnouncesFirst κ todo :=
  List.pairwise_of_forall_mem_list fun _ _ b hb _ => h b hb

theorem first_of_resumes (h : ∀ a ∈ todo, a.resumes = false) : AnnouncesFirst κ todo := by
  apply List.pairwise_of_forall_mem_list
  intro a ha b _ hr
  rw [h a ha] at hr
  cases hr

theorem resumes_messageAllWorkers (S : Setup) (e : Event) :
    ∀ a ∈ Scheduler.messageAllWorkers S e, a.resumes = false :=
  Scheduler.forall_messageAllWorkers fun _ => rfl

theorem resumes_setPhase (S : Setup) (phaseName : String) :
    ∀ a ∈ Scheduler.setPhase S phaseName, a.resumes = false :=
  Scheduler.forall_setPhase rfl fun _ => rfl

theorem Call.body_first (S : Setup) (κ : EventType) (c : Call) :
    AnnouncesFirst κ (c.body S) := by
  by_cases hc : c.announces = some κ
  · cases c with
    | setPhase phaseName => exact first_of_resumes (resumes_setPhase S phaseName)
    | setMaxOutstandingRequests maxOutstanding =>
        exact first_of_resumes (by simp [body, Scheduler.setMaxOutstandingRequests, Act.resumes])
    | rpc r =>
        cases r with
        | resume2 req =>
            have hresume : ∀ b ∈ Scheduler.resume, b.announces κ = false := by
              simp [Scheduler.resume, Act.announces]
            refine List.pairwise_append.mpr ⟨first_of_resumes ?_, first_of_announces hresume,
              fun a _ b hb _ => hresume b hb⟩
            intro a ha
            rcases List.mem_append.mp ha with ha | ha
            · obtain rfl := List.mem_singleton.mp ha
              rfl
            · exact resumes_setPhase S _ a ha
        | setMaxOutstanding maxOutstanding =>
            exact first_of_resumes (by simp [body, Rpc.body, TreadmillFB303.setMaxOutstanding,
              Scheduler.setMaxOutstandingRequests, Act.resumes])
        | _ => cases hc
    | _ => cases hc
  · have hnil := Call.filter_body S κ c
    rw [if_neg hc] at hnil
    apply first_of_announces
    intro b hb
    simpa using List.filter_eq_nil_iff.mp hnil b hb

theorem Frame.step_first (hf : AnnouncesFirst κ f.todo) (h : f.step S o = some f') :
    AnnouncesFirst κ f'.todo := by
  rcases Frame.step_cases h with ⟨c, -, -, rfl⟩ | ⟨c, -, -, -, rfl⟩ |
    ⟨c, a, todo, acts, r, -, htodo, hp, rfl⟩
  · exact Call.body_first S κ c
  · exact List.Pairwise.nil
  · rw [htodo] at hf
    obtain ⟨ha, htail⟩ := List.pairwise_cons.mp hf
    rcases Act.perform_acts hp with rfl | ⟨v, rfl, -, rfl⟩ | ⟨rfl, -, rfl⟩
    · exact htail
    · refine List.pairwise_append.mpr
        ⟨first_of_resumes (resumes_messageAllWorkers S _), htail, ?_⟩
      intro b hb c hc hr
      rw [resumes_messageAllWorkers S _ b hb] at hr
      cases hr
    · refine List.pairwise_append.mpr ⟨first_of_announces ?_, htail, ?_⟩
      · simp [Scheduler.resume, Act.announces]
      · exact fun b _ c hc _ => ha c hc rfl

theorem Frame.core_of_casRunning {took : Bool} (hf : AnnouncesFirst κ f.todo)
    (h : f.step S (.casRunning took) = some f') : f.core κ = [] := by
  rcases Frame.step_cases h with ⟨c, ho, -⟩ | ⟨c, ho, -⟩ | ⟨c, a, todo, acts, r, -, htodo, hp, -⟩
  · cases ho
  · cases ho
  · have ha : a = .casRunning := by cases a <;> first | rfl | simp [Act.perform] at hp
    subst ha
    rw [htodo] at hf
    rw [core, htodo]
    apply List.filter_eq_nil_iff.mpr
    intro b hb
    rcases List.mem_cons.mp hb with rfl | hb
    · simp [Act.announces]
    · simp [(List.pairwise_cons.mp hf).1 b hb rfl]

end first

/-! ### The requests of a run -/

section runs
variable {ω ρ : Type} {S : Setup} {W : Workload ω ρ} {workload : ω} {clock : ℤ}
  {h h₁ h₂ h₃ h₄ : History} {s s' : System ω} {k i : ℕ}

theorem Reaches.first (hr : Reaches S W workload clock h s) (κ : EventType) (k : ℕ) :
    AnnouncesFirst κ (s.loc (.client k)).todo := by
  refine Threads.loc_invariant (i := .client k)
    (P := fun c : Frame => AnnouncesFirst κ c.todo) ?_ List.Pairwise.nil hr
  exact fun c o c' hc hs => Frame.step_first hc hs

/-- When a `resume2` resumes the scheduler its phase is on every queue, and it is the last
one there until another phase is announced. -/
theorem phase_on_queue {req : Option String} {took : Bool}
    (hr : Reaches S W workload clock
      (h₁ ++ (Tid.client k, Op.begin (.rpc (.resume2 req))) ::
        (h₂ ++ (Tid.client k, Op.casRunning took) :: h₃)) s)
    (halone : ∀ j c, openCall j h₁ = some c → c.announces ≠ some .setPhase)
    (hnone : NoneBegun .setPhase (h₂ ++ (Tid.client k, Op.casRunning took) :: h₃))
    (hi : i < S.numberOfWorkers) :
    Event.setPhase (req.getD "UNKNOWN_PHASE") ∈
        puts i (h₂ ++ (Tid.client k, Op.casRunning took) :: h₃) ∧
      ∀ e ∈ puts i (h₂ ++ (Tid.client k, Op.casRunning took) :: h₃), e.eventType = .setPhase →
        e = Event.setPhase (req.getD "UNKNOWN_PHASE") := by
  have hend := lastCall_run (e := Event.setPhase (req.getD "UNKNOWN_PHASE")) hr rfl halone hnone
  refine ⟨?_, hend.puts i⟩
  -- the phase is there by the time of the compare-exchange
  rw [← List.cons_append, ← List.append_assoc] at hr
  obtain ⟨u, u', hu, hcas, -⟩ := Lts.run_split _ hr
  have hnone₂ : NoneBegun .setPhase h₂ := fun t c hm => hnone t c (List.mem_append_left _ hm)
  have hthen := lastCall_run (e := Event.setPhase (req.getD "UNKNOWN_PHASE")) hu rfl halone hnone₂
  have hcore := Frame.core_of_casRunning (Reaches.first hu .setPhase k) (Threads.step_loc hcas)
  have hdone := hthen.own
  rw [show (Event.setPhase (req.getD "UNKNOWN_PHASE")).eventType = .setPhase from rfl,
    hcore] at hdone
  rw [puts_append]
  exact List.mem_append_left _ (hdone.done.1 i hi)

/-- The messages that are taken before one are the messages put before it. -/
theorem takes_of_count {h' : History} (hr : Reaches S W workload clock (h ++ h') s)
    (hcount : (takes i (h ++ h')).length = (puts i h).length) :
    takes i (h ++ h') = puts i h ∧ s.mem.scheduler.queues i = puts i h' := by
  have hfifo : puts i (h ++ h') = takes i (h ++ h') ++ s.mem.scheduler.queues i := run_fifo hr i
  rw [puts_append] at hfifo
  obtain ⟨htakes, hqueue⟩ := List.append_inj hfifo hcount.symm
  exact ⟨htakes.symm, hqueue.symm⟩

/-- **Every request of a resumed run carries its phase**: a `SEND_REQUEST` that the loop puts
after the compare-exchange of a `resume2` that was begun when no other announcement of a phase
was open, and before another one is begun, finds its worker in the phase of that `resume2`. -/
theorem requests_carry_phase {h : History} {req : Option String} {took terminates : Bool}
    {e : Event} {env : SendEnv}
    (hh : h = h₁ ++ (Tid.client k, Op.begin (.rpc (.resume2 req))) ::
      (h₂ ++ (Tid.client k, Op.casRunning took) :: h₃))
    (halone : ∀ j c, openCall j h₁ = some c → c.announces ≠ some .setPhase)
    (hnone : NoneBegun .setPhase (h₂ ++ (Tid.client k, Op.casRunning took) :: h₃))
    (hr : Reaches S W workload clock (h ++ (Tid.loop, Op.putMessage i .sendRequest) :: h₄) s)
    (hcount : (takes i (h ++ (Tid.loop, Op.putMessage i .sendRequest) :: h₄)).length =
      (puts i h).length)
    (hs : (system S W).step s (.worker i, .work i (.message e env) terminates) = some s') :
    e = .sendRequest ∧ (s.mem.workers i).phase = req.getD "UNKNOWN_PHASE" := by
  obtain ⟨u, u', hu, hput, -⟩ := Lts.run_split _ hr
  have hi : i < S.numberOfWorkers := (Scheduler.putMessage_iff.mp (step_scheduler hput)).1
  obtain ⟨htakes, hqueue⟩ := takes_of_count hr hcount
  constructor
  · have hhead := (Scheduler.takeMessage_iff.mp (step_scheduler hs)).1
    rw [hqueue] at hhead
    simpa [puts, Op.puts] using hhead.symm
  · have hcons : (s.mem.workers i).consuming = true := by
      have hw := (Memory.access_iff.mp (step_access hs)).2.2.2.1
      obtain ⟨⟨w, es⟩, hstep, -⟩ := Option.bind_eq_some_iff.mp hw
      exact (Option.ite_none_right_eq_some.mp hstep).1
    rw [run_consuming hr hcons, htakes]
    subst hh
    obtain ⟨hmem, hlast⟩ := phase_on_queue hu halone hnone hi
    rw [List.append_cons h₁, puts_append, List.foldl_append]
    refine foldl_eq_of_mem (fun _ => rfl) (fun e' he' => ?_) hmem
    by_cases hkind : e'.eventType = .setPhase
    · exact Or.inl (hlast e' he' hkind)
    · exact Or.inr (Event.phase_of_ne hkind)

end runs

/-- A client pauses the scheduler before the loop's first check. -/
def pausedBefore : History :=
  opening ++ [(.client 0, .begin (.rpc .pause)), (.client 0, .casPaused true),
    (.client 0, .disarmWatchdog), (.client 0, .ret { flag := some true })]

/-- Client `k` resumes worker `0` in the phase `p`, up to the compare-exchange. -/
def announcePhase (k : ℕ) (p : String) : History :=
  [(.client k, .watchdogUpdate 1000), putPhase k 0 p]

theorem requests_carry_phase_one_worker :
    ∃ s s', Reaches (defaults 1) constantWorkload () 1
      ((pausedBefore ++ (Tid.client 0, Op.begin (.rpc (.resume2 (some "a")))) ::
        (announcePhase 0 "a" ++ (Tid.client 0, Op.casRunning true) :: (round 3).take 6)) ++
        (Tid.loop, Op.putMessage 0 .sendRequest) ::
          [take 0 .reset, take 0 (Event.setPhase "a")]) s ∧
      (system (defaults 1) constantWorkload).step s (take 0 .sendRequest) = some s' ∧
      (s.mem.workers 0).phase = "a" := by
  have hrun : ((system (defaults 1) constantWorkload).run (start (defaults 1) () 1)
      ((pausedBefore ++ (Tid.client 0, Op.begin (.rpc (.resume2 (some "a")))) ::
        (announcePhase 0 "a" ++ (Tid.client 0, Op.casRunning true) :: (round 3).take 6)) ++
        (Tid.loop, Op.putMessage 0 .sendRequest) ::
          [take 0 .reset, take 0 (Event.setPhase "a")])).any (fun s =>
      ((system (defaults 1) constantWorkload).step s (take 0 .sendRequest)).isSome) = true := by
    decide +kernel
  obtain ⟨s, hr, hs⟩ := (Option.any_eq_true _ _).mp hrun
  obtain ⟨s', hs'⟩ := Option.isSome_iff_exists.mp hs
  have halone : ∀ j c, openCall j pausedBefore = some c → c.announces ≠ some .setPhase := by
    intro j c hc
    have hbegin := begin_of_openCall hc
    simp [pausedBefore, opening] at hbegin
    obtain ⟨rfl, rfl⟩ := hbegin
    decide
  exact ⟨s, s', hr, hs',
    (requests_carry_phase rfl halone (by decide) hr (by decide) hs').2⟩

/-! ### Stragglers -/

/-- The loop reads `state_`. -/
def isLook (a : Tid × Op) : Bool :=
  match a with
  | (.loop, .loadState _) => true
  | _ => false

/-- The label puts a phase on queue `i`. -/
def isPutPhase (i : ℕ) (a : Tid × Op) : Bool :=
  match a.2 with
  | .putMessage j e => j = i ∧ e.eventType = .setPhase
  | _ => false

/-- The message number `n` on queue `i` is a request that the loop decided on, by its last look
at `state_`, before a pause took effect, and a phase was put on the queue between that pause
and the request. -/
def Straggler (i n : ℕ) (h : History) : Prop :=
  ∃ h₁ h₂, h = h₁ ++ (Tid.loop, Op.putMessage i .sendRequest) :: h₂ ∧ (puts i h₁).length = n ∧
    inOrder [isPause, isPutPhase i] (sinceLast isLook h₁) = true

/-- No worker handles a straggler. -/
def NoneHandledLate (h : History) : Prop :=
  ∀ h₁ i env terminates h₂,
    h = h₁ ++ (Tid.worker i, Op.work i (.message .sendRequest env) terminates) :: h₂ →
    ¬ Straggler i (takes i h₁).length h₁

/-- The loop has decided, before a pause took effect, on a request for queue `i` that it has not
put yet. -/
def overtaken {ω : Type} (i : ℕ) (h : History) (s : System ω) : Bool :=
  decide ((s.loc .loop).pc.stage = .round) && decide ((s.loc .loop).next = i) &&
    (sinceLast isLook h).any isPause

/-- Whenever a phase is put on a queue, no request for it is overtaken. -/
def PhasesWait {ω ρ : Type} (S : Setup) (W : Workload ω ρ) (workload : ω) (clock : ℤ)
    (h : History) : Prop :=
  Always (fun h₁ a => ∀ i < S.numberOfWorkers, isPutPhase i a = true →
    ((system S W).run (start S workload clock) h₁).all (fun s => !overtaken i h₁ s) = true) h

instance {ω ρ : Type} (S : Setup) (W : Workload ω ρ) (workload : ω) (clock : ℤ) :
    DecidablePred (PhasesWait S W workload clock) := fun h => by
  unfold PhasesWait
  infer_instance

section stragglers
variable {ω ρ : Type} {S : Setup} {W : Workload ω ρ} {workload : ω} {clock : ℤ}
  {h : History} {s s' : System ω} {t : Tid} {o : Op} {i : ℕ}

theorem eq_putMessage_of_isPutPhase {a : Tid × Op} (ha : isPutPhase i a = true) :
    ∃ e, a.2 = .putMessage i e := by
  obtain ⟨t, o⟩ := a
  cases o with
  | putMessage j e =>
      have hj : j = i ∧ e.eventType = .setPhase := by simpa [isPutPhase] using ha
      exact ⟨e, by rw [hj.1]⟩
  | _ => cases ha

theorem inOrder_snoc_phase {a : Tid × Op} (k : History)
    (ha : isPutPhase i a = true → k.any isPause = false)
    (hk : inOrder [isPause, isPutPhase i] k = false) :
    inOrder [isPause, isPutPhase i] (k ++ [a]) = false := by
  have hsnoc := inOrder_snoc (isPutPhase i) a [isPause] k
  rw [List.singleton_append, hk, Bool.false_or] at hsnoc
  rw [hsnoc, Bool.and_eq_false_iff]
  cases hput : isPutPhase i a with
  | false => exact Or.inr rfl
  | true =>
      refine Or.inl (inOrder_of_forall fun b hb => ?_)
      simpa using List.any_eq_false.mp (ha hput) b hb

/-- A request that is still to be put is not behind a phase put after its pause. -/
def Timely (h : History) (s : System ω) : Prop :=
  (s.loc .loop).pc.stage = .round →
    inOrder [isPause, isPutPhase (s.loc .loop).next] (sinceLast isLook h) = false

theorem Timely.step (hr : Reaches S W workload clock h s) (ht : Timely h s)
    (hwait : PhasesWait S W workload clock (h ++ [(t, o)]))
    (hs : (system S W).step s (t, o) = some s') : Timely (h ++ [(t, o)]) s' := by
  intro hg
  rcases Reaches.step_cases hr hs with ⟨rfl, hm⟩ | ⟨ht', hl, -⟩
  · rw [hg] at hm
    rcases hm.to_round with rfl | ⟨hround, ho⟩
    · rw [sinceLast_snoc_of_pos h rfl]
      rfl
    · have hnext : (s'.loc .loop).next = (s.loc .loop).next := by
        have hl : (s.loc .loop).step S o = some (s'.loc .loop) := Threads.step_loc hs
        rcases Loop.step_next hl with hnext | ⟨v, rfl⟩ | ⟨j, n, rfl⟩
        · exact hnext
        · simp at ho
        · simp at ho
      rw [hnext]
      have hquiet : isLook (Tid.loop, o) = false ∧
          isPutPhase (s.loc .loop).next (Tid.loop, o) = false := by
        rcases ho with ⟨t, rfl⟩ | ⟨mean, x, rfl⟩ <;> exact ⟨rfl, rfl⟩
      rw [sinceLast_snoc_of_neg h hquiet.1]
      refine inOrder_snoc_phase _ (fun hput => ?_) (ht hround)
      rw [hquiet.2] at hput
      cases hput
  · rw [hl] at hg ⊢
    have hlook : isLook (t, o) = false := by
      unfold isLook
      split
      · rename_i v he
        cases he
        exact absurd rfl ht'
      · rfl
    rw [sinceLast_snoc_of_neg h hlook]
    refine inOrder_snoc_phase _ (fun hput => ?_) (ht hg)
    -- the phase is put on the queue that the loop is about to send on
    have hi : (s.loc .loop).next < S.numberOfWorkers := by
      obtain ⟨e, rfl⟩ := eq_putMessage_of_isPutPhase hput
      exact (Scheduler.putMessage_iff.mp (step_scheduler hs)).1
    have hall := hwait.last _ hi hput
    have hrun : (system S W).run (start S workload clock) h = some s := hr
    rw [hrun, Option.all_some] at hall
    simpa [overtaken, hg] using hall

theorem Reaches.timely (hr : Reaches S W workload clock h s)
    (hwait : PhasesWait S W workload clock h) : Timely h s := by
  refine Lts.history_induction (P := fun h s => PhasesWait S W workload clock h → Timely h s)
    (fun _ _ => rfl) ?_ hr hwait
  rintro h s ⟨t, o⟩ s' hr ih hs hwait
  exact Timely.step hr (ih hwait.prefix) hwait hs

/-- **No request of the old phase runs under the new one**, in a run in which no phase is put
on a queue that the loop, having decided before the pause, is still about to send on. -/
theorem none_handled_late_of_phasesWait (hr : Reaches S W workload clock h s)
    (hwait : PhasesWait S W workload clock h) : NoneHandledLate h := by
  rintro h₁ i env terminates h₂ rfl ⟨g, g', rfl, -, hlate⟩
  rw [List.append_assoc, List.cons_append] at hr hwait
  obtain ⟨u, u', hu, hput, -⟩ := Lts.run_split _ hr
  have hl : (u.loc .loop).step S (.putMessage i .sendRequest) = some (u'.loc .loop) :=
    Threads.step_loc hput
  have htimely := Reaches.timely hu hwait.prefix (Loop.moves hl).stage_of_send
  rw [← Loop.step_send hl, hlate] at htimely
  cases htimely

end stragglers

/-- A client pauses the scheduler and resumes it in phase `a`; the loop starts a round. -/
def phaseA : History :=
  [(.client 0, .begin (.rpc .pause)), (.client 0, .casPaused false),
    (.client 0, .disarmWatchdog), (.client 0, .ret { flag := some true }),
    (.client 0, .begin (.rpc (.resume2 (some "a")))), (.client 0, .watchdogUpdate 1000),
    (.client 0, .checkPaused true), putPhase 0 0 "a", (.client 0, .casRunning true),
    (.client 0, .loadState .running), (.client 0, .ret { flag := some true })] ++
  opening ++ (round 3).take 5

/-- It pauses the scheduler again. -/
def pauseA : History :=
  [(.client 0, .begin (.rpc .pause)), (.client 0, .casPaused true),
    (.client 0, .disarmWatchdog), (.client 0, .ret { flag := some true })]

/-- It puts phase `b`. -/
def phaseB : History :=
  [(.client 0, .begin (.rpc (.resume2 (some "b")))), (.client 0, .watchdogUpdate 1001),
    (.client 0, .checkPaused true), putPhase 0 0 "b"]

/-- The request of the round that the pause fell into comes after phase `b`. -/
def lateRequest : History :=
  phaseA ++ pauseA ++ phaseB ++ (round 4).drop 5 ++
    [take 0 (Event.setPhase "a"), take 0 .reset, take 0 (Event.setPhase "b")]

/-- It comes before phase `b`. -/
def timelyRequest : History :=
  phaseA ++ pauseA ++ (round 3).drop 5 ++ phaseB ++
    [take 0 (Event.setPhase "a"), take 0 .reset, take 0 .sendRequest, take 0 (Event.setPhase "b")]

/-- The calls that are begun. -/
def callsBegun (h : History) : List (Tid × Call) :=
  h.filterMap fun
    | (t, .begin c) => some (t, c)
    | _ => none

/-- The request that the loop decided on in phase `a` is handled in phase `b`, although the
check that the scheduler is paused held both times. -/
theorem straggler_after_setPhase :
    ∃ s s', Reaches { defaults 1 with waitForRunnerReady := true } constantWorkload () 1
        lateRequest s ∧
      callsBegun lateRequest = [(.client 0, .rpc .pause), (.client 0, .rpc (.resume2 (some "a"))),
        (.client 0, .rpc .pause), (.client 0, .rpc (.resume2 (some "b")))] ∧
      (system { defaults 1 with waitForRunnerReady := true } constantWorkload).step s
        (take 0 .sendRequest) = some s' ∧
      (s.mem.workers 0).running = true ∧ (s.mem.workers 0).phase = "b" ∧
      ¬ NoneHandledLate (lateRequest ++ [take 0 .sendRequest]) := by
  have hrun : ((system { defaults 1 with waitForRunnerReady := true } constantWorkload).run
      (start { defaults 1 with waitForRunnerReady := true } () 1) lateRequest).any (fun s =>
        (s.mem.workers 0).running && decide ((s.mem.workers 0).phase = "b") &&
        ((system { defaults 1 with waitForRunnerReady := true } constantWorkload).step s
          (take 0 .sendRequest)).isSome) = true := by
    decide +kernel
  obtain ⟨s, hr, hs⟩ := (Option.any_eq_true _ _).mp hrun
  simp only [Bool.and_eq_true, decide_eq_true_eq] at hs
  obtain ⟨⟨hrunning, hphase⟩, hstep⟩ := hs
  obtain ⟨s', hs'⟩ := Option.isSome_iff_exists.mp hstep
  refine ⟨s, s', hr, by decide +kernel, hs', hrunning, hphase, fun hnone => ?_⟩
  refine hnone lateRequest 0 {} false [] rfl
    ⟨phaseA ++ pauseA ++ phaseB ++ ((round 4).drop 5).take 1, lateRequest.drop 29,
      by decide +kernel, by decide +kernel, ?_⟩
  decide +kernel

theorem none_handled_late_timelyRequest :
    ∃ s, Reaches { defaults 1 with waitForRunnerReady := true } constantWorkload () 1
        timelyRequest s ∧ NoneHandledLate timelyRequest := by
  have hrun : ((system { defaults 1 with waitForRunnerReady := true } constantWorkload).run
      (start { defaults 1 with waitForRunnerReady := true } () 1) timelyRequest).isSome = true := by
    decide +kernel
  obtain ⟨s, hr⟩ := Option.isSome_iff_exists.mp hrun
  exact ⟨s, hr, none_handled_late_of_phasesWait hr (by decide +kernel)⟩

end Treadmill
