import Mathlib.Data.List.Infix
import Treadmill.Agreement
import Treadmill.Gate
import Treadmill.Watchdog

/-! # The watchdog and its configuration

`watchdogDurationSec_` is a copy of what the configuration holds under `watchdog_sec`, taken
when the entry is set.  Two calls change one side only: `pause` disarms the watchdog and no
`resume` arms it again (`resumed_without_watchdog`), and `clearConfiguration` leaves it
armed.

The setting of the entry and of its copy is one critical section (`Section`), so that when
no call is in progress the configuration holds the value that was last set, or nothing if it
was cleared since (`Reaches.entry`). -/

namespace Treadmill

/-! ### The history of the entry -/

/-- `setConfiguration` takes the copy of the entry. -/
def isArm (a : Tid × Op) : Bool :=
  match a.2 with
  | .armWatchdog key _ => key = "watchdog_sec"
  | _ => false

/-- The value that the watchdog was last armed from. -/
def Op.armed (v : Option String) : Op → Option String
  | .armWatchdog key value => if key = "watchdog_sec" then some value else v
  | _ => v

/-- The value of the entry that was last set. -/
def lastArmed (h : History) : Option String := h.foldl (fun v a => a.2.armed v) none

/-- Since the entry was last set, the scheduler was paused over RPC. -/
def pausedSince (h : History) : Bool :=
  (sinceLast isArm h).any fun a => decide (a.2 = .disarmWatchdog)

/-- Since the entry was last set, the configuration was cleared. -/
def clearedSince (h : History) : Bool :=
  (sinceLast isArm h).any fun a => decide (a.2 = .clearConfiguration)

/-- What the configuration holds under `watchdog_sec`. -/
def storedValue (h : History) : Option String := if clearedSince h then none else lastArmed h

section history
variable {S : Setup} {h : History} {t : Tid} {o : Op}

theorem lastArmed_snoc (h : History) (t : Tid) (o : Op) :
    lastArmed (h ++ [(t, o)]) = o.armed (lastArmed h) := by
  simp [lastArmed]

theorem snoc_arm (h : History) (t : Tid) (value : String) :
    lastArmed (h ++ [(t, .armWatchdog "watchdog_sec" value)]) = some value ∧
      pausedSince (h ++ [(t, .armWatchdog "watchdog_sec" value)]) = false ∧
      clearedSince (h ++ [(t, .armWatchdog "watchdog_sec" value)]) = false := by
  have hsince : sinceLast isArm (h ++ [(t, Op.armWatchdog "watchdog_sec" value)]) = [] :=
    sinceLast_snoc_of_pos h (by simp [isArm])
  refine ⟨by rw [lastArmed_snoc]; simp [Op.armed], ?_, ?_⟩
  · rw [pausedSince, hsince]
    rfl
  · rw [clearedSince, hsince]
    rfl

theorem snoc_of_not_arm (ho : isArm (t, o) = false) :
    lastArmed (h ++ [(t, o)]) = lastArmed h ∧
      pausedSince (h ++ [(t, o)]) = (pausedSince h || decide (o = .disarmWatchdog)) ∧
      clearedSince (h ++ [(t, o)]) = (clearedSince h || decide (o = .clearConfiguration)) := by
  refine ⟨?_, ?_, ?_⟩
  · rw [lastArmed_snoc]
    cases o with
    | armWatchdog key value =>
        have hkey : key ≠ "watchdog_sec" := by simpa [isArm] using ho
        simp [Op.armed, hkey]
    | _ => rfl
  · rw [pausedSince, sinceLast_snoc_of_neg h ho]
    simp [pausedSince]
  · rw [clearedSince, sinceLast_snoc_of_neg h ho]
    simp [clearedSince]

theorem eq_of_isArm (ho : isArm (t, o) = true) :
    ∃ value, o = .armWatchdog "watchdog_sec" value := by
  cases o with
  | armWatchdog key value =>
      have hkey : key = "watchdog_sec" := by simpa [isArm] using ho
      exact ⟨value, by rw [hkey]⟩
  | _ => cases ho

theorem duration_of_not_arm {d : UInt32} (ho : isArm (t, o) = false) (hd : o ≠ .disarmWatchdog) :
    o.duration S d = d := by
  cases o with
  | armWatchdog key value =>
      have hkey : key ≠ "watchdog_sec" := by simpa [isArm] using ho
      simp [Op.duration, hkey]
  | disarmWatchdog => exact absurd rfl hd
  | _ => rfl

/-- The duration is the value last set, unless the scheduler was paused since. -/
theorem watchdogDuration_eq (hflag : S.enableWatchdogTimer = true) (h : History) :
    watchdogDuration S h =
      if pausedSince h then 0 else ((lastArmed h).bind S.tryTo).getD 0 := by
  induction h using List.reverseRecOn with
  | nil => rfl
  | append_singleton h a ih =>
      obtain ⟨t, o⟩ := a
      have hsnoc : watchdogDuration S (h ++ [(t, o)]) = o.duration S (watchdogDuration S h) := by
        simp [watchdogDuration]
      rw [hsnoc]
      cases harm : isArm (t, o) with
      | true =>
          obtain ⟨value, rfl⟩ := eq_of_isArm harm
          obtain ⟨hlast, hpaused, -⟩ := snoc_arm h t value
          rw [hlast, hpaused]
          simp [Op.duration, hflag]
      | false =>
          obtain ⟨hlast, hpaused, -⟩ := snoc_of_not_arm (h := h) harm
          rw [hlast, hpaused]
          by_cases ho : o = .disarmWatchdog
          · subst ho
            simp [Op.duration]
          · rw [duration_of_not_arm harm ho, ih]
            simp [ho]

end history

/-! ### The critical sections -/

/-- The steps that hold or take the write lock. -/
def Act.isWrite : Act → Bool
  | .lock | .unlock | .insertOrAssign _ _ | .armWatchdog _ _ | .clearConfiguration => true
  | _ => false

/-- The operation of such a step. -/
def Act.writeOp : Act → Op
  | .unlock => .unlock
  | .insertOrAssign key value => .insertOrAssign key value
  | .armWatchdog key value => .armWatchdog key value
  | .clearConfiguration => .clearConfiguration
  | _ => .lock

theorem Act.perform_isWrite {S : Setup} {r r' : Response} {a : Act} {o : Op} {acts : List Act}
    (ha : a.isWrite = true) (h : a.perform S r o = some (acts, r')) :
    o = a.writeOp ∧ acts = [] := by
  unfold isWrite at ha
  split at ha
  case h_3 key value =>
    cases o <;> simp [perform] at h
    obtain ⟨⟨rfl, rfl⟩, rfl, -⟩ := h
    exact ⟨rfl, rfl⟩
  case h_4 key value =>
    cases o <;> simp [perform] at h
    obtain ⟨⟨rfl, rfl⟩, rfl, -⟩ := h
    exact ⟨rfl, rfl⟩
  case h_6 => cases ha
  all_goals
    cases o <;> simp [perform] at h
    exact ⟨rfl, h.1⟩

/-- A client that writes the configuration does it in one critical section. -/
def Section (todo : List Act) : Prop :=
  (∀ a ∈ todo, a.isWrite = false) ∨
    (∃ key value, todo <:+ TreadmillFB303.setConfiguration key value) ∨
    todo <:+ TreadmillFB303.clearConfiguration

theorem section_messageAllWorkers (S : Setup) (e : Event) :
    ∀ a ∈ Scheduler.messageAllWorkers S e, a.isWrite = false :=
  Scheduler.forall_messageAllWorkers fun _ => rfl

theorem section_setPhase (S : Setup) (phaseName : String) :
    ∀ a ∈ Scheduler.setPhase S phaseName, a.isWrite = false :=
  Scheduler.forall_setPhase rfl fun _ => rfl

theorem body_cases (S : Setup) (c : Call) : (∀ a ∈ c.body S, a.isWrite = false) ∨
    (∃ key value, c.body S = TreadmillFB303.setConfiguration key value) ∨
    c.body S = TreadmillFB303.clearConfiguration := by
  cases c with
  | setPhase phaseName => exact Or.inl (section_setPhase S phaseName)
  | stopWorkers =>
      apply Or.inl
      intro a ha
      obtain ⟨i, -, rfl⟩ := List.mem_map.mp ha
      rfl
  | rpc r =>
      cases r with
      | setConfiguration key value => exact Or.inr (Or.inl ⟨key, value, rfl⟩)
      | clearConfiguration => exact Or.inr (Or.inr rfl)
      | resume2 req =>
          apply Or.inl
          intro a ha
          rcases List.mem_append.mp ha with ha | ha
          · rcases List.mem_append.mp ha with ha | ha
            · obtain rfl := List.mem_singleton.mp ha
              rfl
            · exact section_setPhase S _ a ha
          · simp only [Scheduler.resume, List.mem_cons, List.not_mem_nil, or_false] at ha
            rcases ha with rfl | rfl <;> rfl
      | resume =>
          left
          simp only [Call.body, Rpc.body, TreadmillFB303.resume]
          split_ifs <;> decide
      | _ =>
          left
          simp [Call.body, Rpc.body, TreadmillFB303.pause, Scheduler.pause, TreadmillFB303.setRps,
            Scheduler.setRps, TreadmillFB303.setMaxOutstanding,
            Scheduler.setMaxOutstandingRequests, TreadmillFB303.futureGetRate,
            Scheduler.isRunning, Scheduler.getRps, Scheduler.getMaxOutstandingRequests,
            TreadmillFB303.futureGetConfiguration, Act.isWrite]
  | _ =>
      left
      simp [Call.body, Scheduler.pause, Scheduler.resume, Scheduler.isRunning,
        Scheduler.getMaxOutstandingRequests, Scheduler.setMaxOutstandingRequests,
        Scheduler.stop, Scheduler.join, Scheduler.getRps, Scheduler.setRps, Act.isWrite]

namespace Section

variable {S : Setup} {todo : List Act} {a : Act}

/-- Where in its critical section a client is. -/
theorem cons_cases (h : Section (a :: todo)) :
    (∀ b ∈ a :: todo, b.isWrite = false) ∨
    (∃ key value,
      (a = .watchdogUpdate ∧
        todo = [.lock, .insertOrAssign key value, .armWatchdog key value, .unlock]) ∨
      (a = .lock ∧ todo = [.insertOrAssign key value, .armWatchdog key value, .unlock]) ∨
      (a = .insertOrAssign key value ∧ todo = [.armWatchdog key value, .unlock]) ∨
      (a = .armWatchdog key value ∧ todo = [.unlock])) ∨
    (a = .watchdogUpdate ∧ todo = [.lock, .clearConfiguration, .unlock]) ∨
    (a = .lock ∧ todo = [.clearConfiguration, .unlock]) ∨
    (a = .clearConfiguration ∧ todo = [.unlock]) ∨
    (a = .unlock ∧ todo = []) := by
  rcases h with h | ⟨key, value, h⟩ | h
  · exact Or.inl h
  · simp only [TreadmillFB303.setConfiguration, List.suffix_cons_iff, List.suffix_nil,
      List.cons.injEq, reduceCtorEq, or_false] at h
    rcases h with h | h | h | h | h
    · exact Or.inr (Or.inl ⟨key, value, Or.inl h⟩)
    · exact Or.inr (Or.inl ⟨key, value, Or.inr (Or.inl h)⟩)
    · exact Or.inr (Or.inl ⟨key, value, Or.inr (Or.inr (Or.inl h))⟩)
    · exact Or.inr (Or.inl ⟨key, value, Or.inr (Or.inr (Or.inr h))⟩)
    · exact Or.inr (Or.inr (Or.inr (Or.inr (Or.inr h))))
  · simp only [TreadmillFB303.clearConfiguration, List.suffix_cons_iff, List.suffix_nil,
      List.cons.injEq, reduceCtorEq, or_false] at h
    exact Or.inr (Or.inr h)

theorem head_cases (h : Section (a :: todo)) :
    (∀ b ∈ a :: todo, b.isWrite = false) ∨ (a = .watchdogUpdate ∧ Act.lock ∈ todo) ∨
      a.isWrite = true := by
  rcases h.cons_cases with hall | ⟨key, value, h⟩ | h
  · exact Or.inl hall
  · rcases h with ⟨rfl, rfl⟩ | ⟨rfl, -⟩ | ⟨rfl, -⟩ | ⟨rfl, -⟩
    · exact Or.inr (Or.inl ⟨rfl, by simp⟩)
    all_goals exact Or.inr (Or.inr rfl)
  · rcases h with ⟨rfl, rfl⟩ | ⟨rfl, -⟩ | ⟨rfl, -⟩ | ⟨rfl, -⟩
    · exact Or.inr (Or.inl ⟨rfl, by simp⟩)
    all_goals exact Or.inr (Or.inr rfl)

theorem tail (h : Section (a :: todo)) : Section todo := by
  rcases h with h | ⟨key, value, h⟩ | h
  · exact Or.inl fun b hb => h b (List.mem_cons_of_mem _ hb)
  · exact Or.inr (Or.inl ⟨key, value, (List.suffix_cons a todo).trans h⟩)
  · exact Or.inr (Or.inr ((List.suffix_cons a todo).trans h))

theorem body (S : Setup) (c : Call) : Section (c.body S) := by
  rcases body_cases S c with h | ⟨key, value, h⟩ | h
  · exact Or.inl h
  · exact Or.inr (Or.inl ⟨key, value, h ▸ List.suffix_refl _⟩)
  · exact Or.inr (Or.inr (h ▸ List.suffix_refl _))

theorem perform_acts {r r' : Response} {o : Op} {acts : List Act}
    (hp : a.perform S r o = some (acts, r')) : ∀ b ∈ acts, b.isWrite = false := by
  rcases Act.perform_acts hp with rfl | ⟨v, -, -, rfl⟩ | ⟨-, -, rfl⟩
  · simp
  · exact section_messageAllWorkers S _
  · decide

/-- What a step of a client does to its critical section: nothing is written before and after
it, or the step is the next one of the section, or it is the contact before the section. -/
theorem perform {r r' : Response} {o : Op} {acts : List Act} (h : Section (a :: todo))
    (hp : a.perform S r o = some (acts, r')) :
    (∀ b ∈ acts ++ todo, b.isWrite = false) ∨
      (acts = [] ∧ a = .watchdogUpdate ∧ Act.lock ∈ todo) ∨
      (acts = [] ∧ a.isWrite = true ∧ o = a.writeOp) := by
  rcases h.head_cases with hall | ⟨rfl, hlock⟩ | ha
  · apply Or.inl
    intro b hb
    rcases List.mem_append.mp hb with hb | hb
    · exact perform_acts hp b hb
    · exact hall b (List.mem_cons_of_mem _ hb)
  · cases o <;> simp [Act.perform] at hp
    exact Or.inr (Or.inl ⟨hp.1, rfl, hlock⟩)
  · obtain ⟨ho, hacts⟩ := Act.perform_isWrite ha hp
    exact Or.inr (Or.inr ⟨hacts, ha, ho⟩)

end Section

/-- A client is in its critical section between taking and releasing the write lock. -/
def Inside (todo : List Act) : Prop := Act.unlock ∈ todo ∧ Act.lock ∉ todo

/-- The client has set the entry and is about to take the copy. -/
def Storing (value : String) (todo : List Act) : Prop :=
  todo = [.armWatchdog "watchdog_sec" value, .unlock]

theorem Storing.inside {value : String} {todo : List Act} (h : Storing value todo) :
    Inside todo := by
  rw [Storing] at h
  rw [h]
  simp [Inside]

theorem not_inside_of_forall {todo : List Act} (h : ∀ a ∈ todo, a.isWrite = false) :
    ¬ Inside todo := by
  intro hin
  have := h _ hin.1
  cases this

theorem not_inside_body (S : Setup) (c : Call) : ¬ Inside (c.body S) := by
  rcases body_cases S c with h | ⟨key, value, h⟩ | h
  · exact not_inside_of_forall h
  · rw [h]
    simp [Inside, TreadmillFB303.setConfiguration]
  · rw [h]
    simp [Inside, TreadmillFB303.clearConfiguration]

section frame
variable {S : Setup} {f f' : Frame} {o : Op}

/-- What a step of a client does to its critical section: afterwards it is not in one, or the
step is the next one of the section. -/
theorem Frame.step_section (hf : Section f.todo) (h : f.step S o = some f') :
    Section f'.todo ∧ (¬ Inside f'.todo ∨ ∃ a, a.isWrite = true ∧ o = a.writeOp ∧
      f.todo = a :: f'.todo) := by
  rcases Frame.step_cases h with ⟨c, -, -, rfl⟩ | ⟨c, -, -, -, rfl⟩ |
    ⟨c, a, todo, acts, r, -, htodo, hp, rfl⟩
  · exact ⟨Section.body S c, Or.inl (not_inside_body S c)⟩
  · exact ⟨Or.inl (by simp [Frame.idle]), Or.inl (by simp [Inside, Frame.idle])⟩
  · rw [htodo] at hf ⊢
    rcases hf.perform hp with hall | ⟨rfl, -, hlock⟩ | ⟨rfl, ha, ho⟩
    · exact ⟨Or.inl hall, Or.inl (not_inside_of_forall hall)⟩
    · exact ⟨hf.tail, Or.inl fun hin => hin.2 hlock⟩
    · exact ⟨hf.tail, Or.inr ⟨a, ha, ho, rfl⟩⟩

theorem Act.perform_writeOp {r r' : Response} {a b : Act} {acts : List Act}
    (hb : b.isWrite = true) (h : a.perform S r b.writeOp = some (acts, r')) :
    a = b ∧ acts = [] := by
  cases b <;> simp [isWrite] at hb <;> cases a <;> simp [writeOp, perform] at h
  all_goals grind

theorem Frame.step_writeOp {b : Act} (hb : b.isWrite = true)
    (h : f.step S b.writeOp = some f') : f.todo = b :: f'.todo := by
  rcases Frame.step_cases h with ⟨c, ho, -⟩ | ⟨c, ho, -⟩ |
    ⟨c, a, todo, acts, r, -, htodo, hp, rfl⟩
  · cases b <;> simp [Act.isWrite, Act.writeOp] at hb ho
  · cases b <;> simp [Act.isWrite, Act.writeOp] at hb ho
  · obtain ⟨rfl, rfl⟩ := Act.perform_writeOp hb hp
    exact htodo

/-- An entry is set in a critical section that goes on to take its copy. -/
theorem Frame.step_insertOrAssign {key value : String} (hf : Section f.todo)
    (h : f.step S (.insertOrAssign key value) = some f') :
    f.todo = [.insertOrAssign key value, .armWatchdog key value, .unlock] ∧
      f'.todo = [.armWatchdog key value, .unlock] := by
  have htodo := step_writeOp (b := .insertOrAssign key value) rfl h
  rw [htodo] at hf ⊢
  have hcases := hf.cons_cases
  simp [Act.isWrite] at hcases
  simp [hcases]

theorem Frame.step_armWatchdog {key value : String} (hf : Section f.todo)
    (h : f.step S (.armWatchdog key value) = some f') :
    f.todo = [.armWatchdog key value, .unlock] := by
  have htodo := step_writeOp (b := .armWatchdog key value) rfl h
  rw [htodo] at hf ⊢
  have hcases := hf.cons_cases
  simp [Act.isWrite] at hcases
  simp [hcases]

theorem Frame.step_clearConfiguration (hf : Section f.todo)
    (h : f.step S .clearConfiguration = some f') :
    f.todo = [.clearConfiguration, .unlock] := by
  have htodo := step_writeOp (b := .clearConfiguration) rfl h
  rw [htodo] at hf ⊢
  have hcases := hf.cons_cases
  simp [Act.isWrite] at hcases
  simp [hcases]

theorem Frame.step_cons {a : Act} {todo : List Act} (hidle : f.call = none → f.todo = [])
    (hf : f.todo = a :: todo) (ha : a.isWrite = true) (h : f.step S o = some f') :
    o = a.writeOp := by
  rcases Frame.step_cases h with ⟨c, -, hcall, -⟩ | ⟨c, -, -, hnil, -⟩ |
    ⟨c, a', todo', acts, r, -, htodo, hp, -⟩
  · rw [hidle hcall] at hf
    cases hf
  · rw [hnil] at hf
    cases hf
  · obtain ⟨rfl, rfl⟩ := List.cons.inj (hf.symm.trans htodo)
    exact (Act.perform_isWrite ha hp).1

theorem Frame.step_idle (h : f.step S o = some f') : f'.call = none → f'.todo = [] := by
  rcases Frame.step_cases h with ⟨c, -, -, rfl⟩ | ⟨c, -, -, -, rfl⟩ |
    ⟨c, a, todo, acts, r, -, -, -, rfl⟩
  · intro hcall
    cases hcall
  · intro _
    rfl
  · intro hcall
    cases hcall

end frame

/-! ### The entry and its copy -/

theorem lookup_configuration {o : Op} (c : AList fun _ : String => String)
    (hinsert : ∀ value, o ≠ .insertOrAssign "watchdog_sec" value)
    (hclear : o ≠ .clearConfiguration) :
    (o.configuration c).lookup "watchdog_sec" = c.lookup "watchdog_sec" := by
  cases o with
  | insertOrAssign key value =>
      have hkey : key ≠ "watchdog_sec" := fun he => hinsert value (by rw [he])
      exact AList.lookup_insert_ne (Ne.symm hkey)
  | clearConfiguration => exact absurd rfl hclear
  | _ => rfl

section system
variable {ω ρ : Type} {S : Setup} {W : Workload ω ρ} {workload : ω} {clock : ℤ}
  {h : History} {s s' : System ω} {t : Tid} {o : Op} {k : ℕ}

/-- The entry under `watchdog_sec`. -/
def entry (s : System ω) : Option String := s.mem.fb303.configuration.lookup "watchdog_sec"

/-- The critical sections exclude each other, and between them the configuration holds the
value that was last set. -/
structure Stored (h : History) (s : System ω) : Prop where
  idle : ∀ k, (s.loc (.client k)).call = none → (s.loc (.client k)).todo = []
  sections : ∀ k, Section (s.loc (.client k)).todo
  writer : ∀ k, Inside (s.loc (.client k)).todo →
    s.mem.fb303.mutex.writer = some (.client k)
  storing : ∀ k value, Storing value (s.loc (.client k)).todo → entry s = some value
  stored : (∃ k value, Storing value (s.loc (.client k)).todo) ∨ entry s = storedValue h

theorem step_entry (hs : (system S W).step s (t, o) = some s')
    (hinsert : ∀ value, o ≠ .insertOrAssign "watchdog_sec" value)
    (hclear : o ≠ .clearConfiguration) : entry s' = entry s := by
  rw [entry, (TreadmillFB303.access_spec (step_fb303 hs)).configuration]
  exact lookup_configuration _ hinsert hclear

theorem step_client {f' : Frame} (hs : (system S W).step s (.client k, o) = some s')
    (hf' : s'.loc (.client k) = f') : (s.loc (.client k)).step S o = some f' :=
  hf' ▸ Threads.step_loc hs

/-- The write lock goes with the critical section. -/
theorem Stored.step_writer (hst : Stored h s) (hs : (system S W).step s (t, o) = some s')
    (hin : Inside (s'.loc (.client k)).todo) :
    s'.mem.fb303.mutex.writer = some (.client k) := by
  have hacc := step_fb303 hs
  by_cases ht : t = .client k
  · subst ht
    have hsec := hst.sections k
    rcases (Frame.step_section hsec (step_client hs rfl)).2 with hnot | ⟨a, ha, ho, htodo⟩
    · exact absurd hin hnot
    · rw [htodo] at hsec
      -- a step of the section other than taking the lock was made with the lock
      have hbefore : a ≠ .lock → s.mem.fb303.mutex.writer = some (.client k) := by
        intro hne
        refine hst.writer k ?_
        rw [htodo]
        refine ⟨List.mem_cons_of_mem _ hin.1, fun hm => ?_⟩
        rcases List.mem_cons.mp hm with he | hm
        · exact hne he.symm
        · exact hin.2 hm
      subst ho
      cases a with
      | lock =>
          obtain ⟨l, hl, he⟩ := Option.map_eq_some_iff.mp hacc
          rw [← he]
          exact (SharedMutex.lock_spec hl).2.2
      | unlock =>
          have hnil : (s'.loc (.client k)).todo = [] := by
            simpa [Act.isWrite] using hsec.cons_cases
          rw [hnil] at hin
          cases hin.1
      | insertOrAssign key value =>
          rw [← Option.some.inj hacc]
          exact hbefore (by simp)
      | armWatchdog key value =>
          rw [← Option.some.inj hacc]
          have hw := hbefore (by simp)
          unfold TreadmillFB303.armWatchdog
          split_ifs
          · exact hw
          · exact hw
      | clearConfiguration =>
          rw [← Option.some.inj hacc]
          exact hbefore (by simp)
      | _ => cases ha
  · have hframe := Threads.step_frame hs (Ne.symm ht)
    rw [hframe] at hin
    exact (TreadmillFB303.access_spec hacc).mutex.writer (Ne.symm ht) (hst.writer k hin)

theorem Stored.exclusive (hst : Stored h s) {j : ℕ} (hk : Inside (s.loc (.client k)).todo)
    (hj : Inside (s.loc (.client j)).todo) : j = k := by
  have hw := (hst.writer k hk).symm.trans (hst.writer j hj)
  cases hw
  rfl

theorem Stored.inside_of_write (hst : Stored h s) (hs : (system S W).step s (t, o) = some s')
    (ho : (∃ value, o = .insertOrAssign "watchdog_sec" value) ∨ o = .clearConfiguration) :
    ∃ j, t = .client j ∧ Inside (s.loc (.client j)).todo := by
  rcases ho with ⟨value, rfl⟩ | rfl
  · obtain ⟨j, rfl⟩ := client_of_isClient rfl hs
    have htodo := (Frame.step_insertOrAssign (hst.sections j) (step_client hs rfl)).1
    exact ⟨j, rfl, by rw [htodo]; simp [Inside]⟩
  · obtain ⟨j, rfl⟩ := client_of_isClient rfl hs
    have htodo := Frame.step_clearConfiguration (hst.sections j) (step_client hs rfl)
    exact ⟨j, rfl, by rw [htodo]; simp [Inside]⟩

/-- A client about to take the copy finds the value that it has set. -/
theorem Stored.step_storing (hst : Stored h s) (hs : (system S W).step s (t, o) = some s')
    {value : String} (hv : Storing value (s'.loc (.client k)).todo) :
    entry s' = some value := by
  by_cases ht : t = .client k
  · subst ht
    have hsec := hst.sections k
    rcases (Frame.step_section hsec (step_client hs rfl)).2 with hnot | ⟨a, ha, rfl, htodo⟩
    · exact absurd hv.inside hnot
    · rw [htodo, hv] at hsec
      have hins : a = .insertOrAssign "watchdog_sec" value := by
        simpa [Act.isWrite] using hsec.cons_cases
      rw [entry, (TreadmillFB303.access_spec (step_fb303 hs)).configuration, hins]
      exact AList.lookup_insert _
  · rw [Threads.step_frame hs (Ne.symm ht)] at hv
    have hother : ¬ ((∃ value, o = .insertOrAssign "watchdog_sec" value) ∨
        o = .clearConfiguration) := by
      intro ho
      obtain ⟨j, rfl, hj⟩ := hst.inside_of_write hs ho
      exact ht (by rw [hst.exclusive hv.inside hj])
    rw [step_entry hs (fun v he => hother (Or.inl ⟨v, he⟩)) fun he => hother (Or.inr he)]
    exact hst.storing k value hv

theorem Stored.step_keeps (hst : Stored h s) (hs : (system S W).step s (t, o) = some s')
    (ho : isArm (t, o) = false) {value : String} (hv : Storing value (s.loc (.client k)).todo) :
    Storing value (s'.loc (.client k)).todo := by
  by_cases ht : t = .client k
  · subst ht
    have harm := Frame.step_cons (hst.idle k) hv rfl (step_client hs rfl)
    subst harm
    cases ho
  · rw [Threads.step_frame hs (Ne.symm ht)]
    exact hv

theorem Stored.step_stored (hst : Stored h s) (hs : (system S W).step s (t, o) = some s') :
    (∃ k value, Storing value (s'.loc (.client k)).todo) ∨
      entry s' = storedValue (h ++ [(t, o)]) := by
  cases harm : isArm (t, o) with
  | true =>
      obtain ⟨value, rfl⟩ := eq_of_isArm harm
      obtain ⟨k, rfl⟩ := client_of_isClient rfl hs
      have hv := hst.storing k value (Frame.step_armWatchdog (hst.sections k) (step_client hs rfl))
      obtain ⟨hlast, -, hcleared⟩ := snoc_arm h (.client k) value
      right
      rw [step_entry hs (by simp) (by simp), hv, storedValue, hlast, hcleared]
      rfl
  | false =>
      obtain ⟨hlast, -, hcleared⟩ := snoc_of_not_arm (h := h) harm
      by_cases hins : ∃ value, o = .insertOrAssign "watchdog_sec" value
      · obtain ⟨value, rfl⟩ := hins
        obtain ⟨k, rfl⟩ := client_of_isClient rfl hs
        exact Or.inl ⟨k, value,
          (Frame.step_insertOrAssign (hst.sections k) (step_client hs rfl)).2⟩
      by_cases hclear : o = .clearConfiguration
      · subst hclear
        right
        have haccess := TreadmillFB303.access_spec (step_fb303 hs)
        rw [entry, haccess.configuration, storedValue, hcleared]
        simp [Op.configuration]
      · rcases hst.stored with ⟨k, value, hv⟩ | hv
        · exact Or.inl ⟨k, value, hst.step_keeps hs harm hv⟩
        · right
          rw [step_entry hs (fun v he => hins ⟨v, he⟩) hclear, hv, storedValue, storedValue, hlast,
            hcleared]
          simp [hclear]

theorem Reaches.stored (hr : Reaches S W workload clock h s) : Stored h s := by
  refine Lts.history_induction (P := Stored) ?_ ?_ hr
  · exact
      { idle := fun k _ => rfl
        sections := fun k => Or.inl (by simp [start, Frame.idle])
        writer := fun k hin => by cases hin.1
        storing := fun k value hv => by cases hv
        stored := Or.inr rfl }
  · rintro h s ⟨t, o⟩ s' - hst hs
    refine ⟨fun k => ?_, fun k => ?_, fun k => hst.step_writer hs, fun k value =>
      hst.step_storing hs, hst.step_stored hs⟩
    · by_cases ht : t = .client k
      · subst ht
        exact Frame.step_idle (step_client hs rfl)
      · rw [Threads.step_frame hs (Ne.symm ht)]
        exact hst.idle k
    · by_cases ht : t = .client k
      · subst ht
        exact (Frame.step_section (hst.sections k) (step_client hs rfl)).1
      · rw [Threads.step_frame hs (Ne.symm ht)]
        exact hst.sections k

theorem Reaches.entry (hr : Reaches S W workload clock h s) (hret : allReturned h = true) :
    Treadmill.entry s = storedValue h := by
  rcases hr.stored.stored with ⟨k, value, hv⟩ | hv
  · have hnil := hr.stored.idle k (hr.returned hret k)
    rw [hnil] at hv
    cases hv
  · exact hv

/-! ### Runs that were resumed -/

/-- `pause`, `resume` or `resume2`, and whether it is one of the last two. -/
def Rpc.control : Rpc → Option Bool
  | .pause => some false
  | .resume | .resume2 _ => some true
  | .setRps _ | .setMaxOutstanding _ | .getRate | .getConfiguration _ | .setConfiguration _ _
  | .clearConfiguration => none

/-- The most recent of the RPCs `pause`, `resume` and `resume2` was a `resume` or `resume2`,
and it reported success. -/
def Resumed (h : History) : Prop :=
  ∃ h₁ k r res h₂, h = h₁ ++ (Tid.client k, Op.ret res) :: h₂ ∧
    openCall k h₁ = some (.rpc r) ∧ r.control = some true ∧ res.flag = some true ∧
    ∀ t r', (t, Op.begin (.rpc r')) ∈ h₂ → r'.control = none

/-- `watchdogDurationSec_` is the entry under `watchdog_sec` as a `uint32_t`, and zero if
there is none or it does not parse. -/
def ArmedAsConfigured (S : Setup) (f : TreadmillFB303) : Prop :=
  f.watchdogDurationSec = ((f.configuration.lookup "watchdog_sec").bind S.tryTo).getD 0

/-- The value last set under `watchdog_sec` means no watchdog, or since it was set `pause` was
called if and only if `clearConfiguration` was. -/
def PausedIffCleared (S : Setup) (h : History) : Prop :=
  ((lastArmed h).bind S.tryTo).getD 0 = 0 ∨ pausedSince h = clearedSince h

instance (S : Setup) (h : History) : Decidable (PausedIffCleared S h) :=
  inferInstanceAs (Decidable (_ ∨ _))

theorem Reaches.armedAsConfigured_iff (hflag : S.enableWatchdogTimer = true)
    (hr : Reaches S W workload clock h s) (hret : allReturned h = true) :
    ArmedAsConfigured S s.mem.fb303 ↔ PausedIffCleared S h := by
  have hentry : s.mem.fb303.configuration.lookup "watchdog_sec" = storedValue h := hr.entry hret
  rw [ArmedAsConfigured, PausedIffCleared, hentry, Reaches.watchdogDuration hr,
    watchdogDuration_eq hflag, storedValue]
  cases pausedSince h <;> cases clearedSince h <;> simp [eq_comm]

/-- **The armed watchdog matches the configuration exactly while the entry was paused and
cleared alike.** -/
theorem armedAsConfigured_iff_pausedIffCleared (hflag : S.enableWatchdogTimer = true)
    (hr : Reaches S W workload clock h s) :
    (∀ h₁ h₂ u, h = h₁ ++ h₂ → Reaches S W workload clock h₁ u → allReturned h₁ = true →
      Resumed h₁ → ArmedAsConfigured S u.mem.fb303) ↔
    (∀ h₁ h₂, h = h₁ ++ h₂ → allReturned h₁ = true → Resumed h₁ → PausedIffCleared S h₁) := by
  constructor
  · rintro harmed h₁ h₂ rfl hret hres
    obtain ⟨u, hu, -⟩ := (system S W).run_append_iff.mp hr
    exact (Reaches.armedAsConfigured_iff hflag hu hret).mp (harmed h₁ h₂ u rfl hu hret hres)
  · intro hcond h₁ h₂ u he hu hret hres
    exact (Reaches.armedAsConfigured_iff hflag hu hret).mpr (hcond h₁ h₂ he hret hres)

end system

/-- A call of `pause` and then one of `resume`, which succeeds. -/
def pausedAndResumed : History :=
  [(Tid.client 0, Op.begin (.rpc .pause)), (Tid.client 0, Op.casPaused true),
    (Tid.client 0, Op.disarmWatchdog), (Tid.client 0, Op.ret { flag := some true }),
    (Tid.client 0, Op.begin (.rpc .resume)), (Tid.client 0, Op.watchdogUpdate 1001),
    (Tid.client 0, Op.lockShared), (Tid.client 0, Op.casRunning true),
    (Tid.client 0, Op.loadState .running), (Tid.client 0, Op.unlockShared),
    (Tid.client 0, Op.ret { flag := some true })]

/-- The configuration still asks for a watchdog of ten seconds, and none is armed. -/
theorem resumed_without_watchdog :
    ∃ s, Reaches watched constantWorkload () 1 (armingCall ++ pausedAndResumed) s ∧
      allReturned (armingCall ++ pausedAndResumed) = true ∧
      Resumed (armingCall ++ pausedAndResumed) ∧
      ¬ ArmedAsConfigured watched s.mem.fb303 := by
  have hrun : ((system watched constantWorkload).run (start watched () 1)
      (armingCall ++ pausedAndResumed)).any (fun s =>
        decide (s.mem.fb303.watchdogDurationSec = 0) &&
          decide (s.mem.fb303.configuration.lookup "watchdog_sec" = some "10")) = true := by
    decide +kernel
  obtain ⟨s, hr, hs⟩ := (Option.any_eq_true _ _).mp hrun
  rw [Bool.and_eq_true, decide_eq_true_eq, decide_eq_true_eq] at hs
  have hres : Resumed (armingCall ++ pausedAndResumed) :=
    ⟨armingCall ++ pausedAndResumed.take 10, 0, .resume, { flag := some true }, [], rfl,
      by decide +kernel, rfl, rfl, by simp⟩
  refine ⟨s, hr, by decide +kernel, hres, fun harmed => ?_⟩
  rw [ArmedAsConfigured, hs.1, hs.2] at harmed
  revert harmed
  decide +kernel

/-- The watchdog is armed while the scheduler is paused, before it is resumed. -/
def armedThenResumed : History :=
  pausedAndResumed.take 4 ++ armingCall ++ pausedAndResumed.drop 4

theorem armedAsConfigured_iff_pausedIffCleared_armed :
    ∃ s, Reaches watched constantWorkload () 1 armedThenResumed s ∧
      s.mem.fb303.watchdogDurationSec = 10 ∧ ArmedAsConfigured watched s.mem.fb303 := by
  have hrun : ((system watched constantWorkload).run (start watched () 1)
      armedThenResumed).any (fun s => decide (s.mem.fb303.watchdogDurationSec = 10)) = true := by
    decide +kernel
  obtain ⟨s, hr, hs⟩ := (Option.any_eq_true _ _).mp hrun
  have hcond : ∀ h₁ ∈ armedThenResumed.inits, PausedIffCleared watched h₁ := by
    decide +kernel
  have hres : Resumed armedThenResumed :=
    ⟨armedThenResumed.dropLast, 0, .resume, { flag := some true }, [], rfl,
      by decide +kernel, rfl, rfl, by simp⟩
  refine ⟨s, hr, of_decide_eq_true hs, ?_⟩
  refine (armedAsConfigured_iff_pausedIffCleared rfl hr).mpr (fun h₁ h₂ he _ _ => ?_)
    armedThenResumed [] s (by simp) hr (by decide +kernel) hres
  exact hcond h₁ ((List.mem_inits h₁ _).mpr ⟨h₂, he.symm⟩)

end Treadmill
