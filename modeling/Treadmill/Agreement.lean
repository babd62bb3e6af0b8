import Treadmill.Announce
import Treadmill.Delivery

/-! # Agreement of the workers

Two announcements of a kind that overlap may cross between the queues, and the workers then
stay apart for good (`crossed_announcements`).  If the last announcement of a kind is alone,
its event is the last of its kind on every queue, so the workers that have emptied their
queues agree on it. -/

namespace Treadmill

/-! ### Folds in which one value matters -/

section folds
variable {α β : Type*} {f : β → α → β} {l : List α} {a : α} {b x : β}

theorem foldl_eq_self (hl : ∀ c ∈ l, f x c = x) : l.foldl f x = x := by
  induction l with
  | nil => rfl
  | cons c l ih =>
      rw [List.foldl_cons, hl c List.mem_cons_self]
      exact ih fun d hd => hl d (List.mem_cons_of_mem _ hd)

theorem foldl_eq_of_mem (hset : ∀ y, f y a = b) (hl : ∀ c ∈ l, c = a ∨ ∀ y, f y c = y)
    (ha : a ∈ l) : l.foldl f x = b := by
  induction l generalizing x with
  | nil => cases ha
  | cons c l ih =>
      rw [List.foldl_cons]
      by_cases hmem : a ∈ l
      · exact ih (fun d hd => hl d (List.mem_cons_of_mem _ hd)) hmem
      · obtain rfl : a = c := by simpa [hmem] using ha
        rw [hset]
        apply foldl_eq_self
        intro d hd
        rcases hl d (List.mem_cons_of_mem _ hd) with rfl | hkeep
        · exact hset b
        · exact hkeep b

end folds

/-! ### Agreement -/

section runs
variable {ω ρ : Type} {S : Setup} {W : Workload ω ρ} {workload : ω} {clock : ℤ}
  {h : History} {s : System ω} {κ : EventType} {i : ℕ}

theorem exists_last (hr : Reaches S W workload clock h s) (hb : ¬ NoneBegun κ h) :
    ∃ h₁ k c h₂, h = h₁ ++ (Tid.client k, Op.begin c) :: h₂ ∧ c.announces = some κ ∧
      NoneBegun κ h₂ := by
  induction h using List.reverseRecOn generalizing s with
  | nil => exact absurd (fun t c hm => by cases hm) hb
  | append_singleton h a ih =>
      obtain ⟨t, o⟩ := a
      obtain ⟨u, hu, hs⟩ := (Lts.run_snoc_iff _).mp hr
      by_cases ho : ∃ c, o = .begin c ∧ c.announces = some κ
      · obtain ⟨c, rfl, hc⟩ := ho
        obtain ⟨k, rfl⟩ := client_of_isClient rfl hs
        exact ⟨h, k, c, [], rfl, hc, fun t c hm => by cases hm⟩
      · have hnone : ∀ c, o = .begin c → c.announces ≠ some κ := fun c hc hκ => ho ⟨c, hc, hκ⟩
        have hprev : ¬ NoneBegun κ h := by
          intro hprev
          apply hb
          intro t' c hm
          rcases List.mem_append.mp hm with hm | hm
          · exact hprev t' c hm
          · cases List.mem_singleton.mp hm
            exact hnone c rfl
        obtain ⟨h₁, k, c, h₂, rfl, hc, hlast⟩ := ih hu hprev
        refine ⟨h₁, k, c, h₂ ++ [(t, o)], by simp, hc, fun t' c' hm => ?_⟩
        rcases List.mem_append.mp hm with hm | hm
        · exact hlast t' c' hm
        · cases List.mem_singleton.mp hm
          exact hnone c' rfl

theorem lastAlone_of_split {h₁ h₂ : History} {k : ℕ} {c : Call}
    (he : h = h₁ ++ (Tid.client k, Op.begin c) :: h₂) (hc : c.announces = some κ)
    (hnone : NoneBegun κ h₂)
    (hopen : ∀ j c', openCall j h₁ = some c' → c'.announces ≠ some κ) : LastAlone κ h := by
  rintro g₁ k' c' g₂ rfl hc' hnone'
  rcases append_eq_append_cons he.symm with ⟨m, -, rfl⟩ | ⟨m, hm, rfl⟩
  · exact absurd hc (hnone' (.client k) c (by simp))
  · cases m with
    | nil =>
        rw [List.append_nil]
        exact hopen
    | cons a m =>
        rw [List.cons_append, List.cons.injEq] at hm
        exact absurd hc' (hnone (.client k') c' (by simp [hm.2]))

/-- Every call has returned, and every running worker has consumed its queue. -/
structure Settled (S : Setup) (s : System ω) : Prop where
  returned : ∀ k, (s.loc (.client k)).call = none
  consumed : ∀ i < S.numberOfWorkers, (s.mem.workers i).running = true →
    s.mem.scheduler.queues i = []

/-- No client is in a call after a history. -/
def allReturned (h : History) : Bool :=
  h.all fun a => match a.1 with
    | .client k => (openCall k h).isNone
    | _ => true

theorem Reaches.returned (hr : Reaches S W workload clock h s) (hall : allReturned h = true)
    (k : ℕ) : (s.loc (.client k)).call = none := by
  rw [Reaches.openCall hr]
  by_contra hopen
  obtain ⟨c, hc⟩ := Option.ne_none_iff_exists'.mp hopen
  have hk := List.all_eq_true.mp hall _ (begin_of_openCall hc)
  exact hopen (Option.isNone_iff_eq_none.mp hk)

theorem Settled.takes (hs : Settled S s) (hr : Reaches S W workload clock h s)
    (hi : i < S.numberOfWorkers) (hrun : (s.mem.workers i).running = true) :
    takes i h = puts i h := by
  have hfifo := run_fifo hr i
  rw [hs.consumed i hi hrun, List.append_nil] at hfifo
  exact hfifo.symm

/-- When all calls of a kind have returned, either none was made and no queue had a message of
the kind, or the event of one of them was the last of the kind on every queue. -/
theorem Settled.last (hs : Settled S s) (hκ : κ.Announced) (hr : Reaches S W workload clock h s)
    (halone : LastAlone κ h) :
    (NoneBegun κ h ∧ ∀ i, ∀ e ∈ puts i h, e.eventType ≠ κ) ∨
    ∃ (c : Call) (e : Event), c.event = some e ∧ e.eventType = κ ∧
      (κ = .setMaxOutstanding →
        e = Event.setMaxOutstanding s.mem.scheduler.maxOutstandingRequests) ∧
      ∀ i < S.numberOfWorkers, ∃ l l', puts i h = l ++ l' ∧ e ∈ l' ∧
        ∀ e' ∈ l', e' = e ∨ e'.eventType ≠ κ := by
  by_cases hb : NoneBegun κ h
  · refine Or.inl ⟨hb, ?_⟩
    exact (silent_run hκ (fun _ hne => absurd rfl hne) (fun _ => rfl) hr hb).2.1
  · obtain ⟨h₁, k, c, h₂, rfl, hc, hnone⟩ := exists_last hr hb
    have hopen := halone h₁ k c h₂ rfl hc hnone
    obtain ⟨e, he, rfl⟩ := Option.map_eq_some_iff.mp hc
    obtain ⟨hmember, hlast⟩ := last_announcement hr he hopen hnone fun j c' hc' => by
      rw [hs.returned j] at hc'
      cases hc'
    refine Or.inr ⟨c, e, he, rfl, hmember, fun i hi => ?_⟩
    refine ⟨puts i (h₁ ++ [(Tid.client k, Op.begin c)]), puts i h₂, ?_, (hlast i hi).1, ?_⟩
    · rw [← puts_append, List.append_assoc, List.singleton_append]
    · intro e' he'
      by_cases hkind : e'.eventType = e.eventType
      · exact Or.inl ((hlast i hi).2 e' he' hkind)
      · exact Or.inr hkind

theorem Settled.phase (hs : Settled S s) (hr : Reaches S W workload clock h s)
    (halone : LastAlone .setPhase h) :
    ∃ p, ∀ i < S.numberOfWorkers, (s.mem.workers i).running = true →
      (s.mem.workers i).phase = p := by
  rcases hs.last (Or.inl rfl) hr halone with ⟨-, hnone⟩ | ⟨c, e, hc, hkind, -, hlast⟩
  · refine ⟨"", fun i hi hrun => ?_⟩
    rw [run_phase hr hrun, hs.takes hr hi hrun]
    exact foldl_eq_self fun e he => Event.phase_of_ne (hnone i e he) _
  · obtain ⟨p, rfl⟩ : ∃ p, e = Event.setPhase p := by
      rcases Call.event_cases hc with hp | ⟨v, rfl⟩
      · exact hp
      · cases hkind
    refine ⟨p, fun i hi hrun => ?_⟩
    obtain ⟨l, l', hputs, hmem, hl'⟩ := hlast i hi
    rw [run_phase hr hrun, hs.takes hr hi hrun, hputs, List.foldl_append]
    refine foldl_eq_of_mem (fun _ => rfl) (fun e' he' => ?_) hmem
    exact (hl' e' he').imp_right fun hne => Event.phase_of_ne hne

/-- What `getMaxOutstandingRequests` returns. -/
def reportedMaxOutstanding (s : System ω) : Int32 :=
  s.mem.scheduler.maxOutstandingRequests.toInt32

theorem Settled.limit (hs : Settled S s) (hr : Reaches S W workload clock h s)
    (halone : LastAlone .setMaxOutstanding h) (hbegun : ¬ NoneBegun .setMaxOutstanding h)
    (hi : i < S.numberOfWorkers) (hrun : (s.mem.workers i).running = true) :
    (s.mem.workers i).maxOutstandingRequests = reportedMaxOutstanding s := by
  rcases hs.last (Or.inr rfl) hr halone with ⟨hnone, -⟩ | ⟨c, e, -, -, hmember, hlast⟩
  · exact absurd hnone hbegun
  · obtain rfl := hmember rfl
    obtain ⟨l, l', hputs, hmem, hl'⟩ := hlast i hi
    rw [run_limit hr hrun, hs.takes hr hi hrun, hputs, List.foldl_append]
    refine foldl_eq_of_mem (Event.limit_setMaxOutstanding _) (fun e' he' => ?_) hmem
    exact (hl' e' he').imp_right fun hne => Event.limit_of_ne hne

/-- **Agreement of the workers**: when all calls have returned and every running worker has
consumed its queue, the running workers hold the same phase if the last `setPhase` call was
begun after every earlier one had returned, and they hold the limit that is reported if the
last `setMaxOutstandingRequests` call was. -/
theorem workers_agree (hr : Reaches S W workload clock h s) (hs : Settled S s) :
    (LastAlone .setPhase h →
      ∀ i < S.numberOfWorkers, ∀ j < S.numberOfWorkers,
        (s.mem.workers i).running = true → (s.mem.workers j).running = true →
        (s.mem.workers i).phase = (s.mem.workers j).phase) ∧
    (LastAlone .setMaxOutstanding h → ¬ NoneBegun .setMaxOutstanding h →
      ∀ i < S.numberOfWorkers, (s.mem.workers i).running = true →
        (s.mem.workers i).maxOutstandingRequests = reportedMaxOutstanding s) := by
  constructor
  · intro halone i hi j hj hruni hrunj
    obtain ⟨p, hp⟩ := hs.phase hr halone
    rw [hp i hi hruni, hp j hj hrunj]
  · intro halone hbegun i hi hrun
    exact hs.limit hr halone hbegun hi hrun

end runs

/-- Client `k` puts the phase `p` on queue `i`. -/
def putPhase (k i : ℕ) (p : String) : Tid × Op := (.client k, .putMessage i (Event.setPhase p))

/-- Client `k` puts the limit `v` on queue `i`. -/
def putMax (k i : ℕ) (v : UInt32) : Tid × Op :=
  (.client k, .putMessage i (Event.setMaxOutstanding v))

/-- Worker `i` takes a message. -/
def take (i : ℕ) (e : Event) : Tid × Op := (.worker i, .work i (.message e {}) false)

/-- Two clients call `resume2`, then both call `setMaxOutstanding`; each time the second call
overtakes the first one between the queues. -/
def crossed : History :=
  [(.client 0, .begin (.rpc (.resume2 (some "a")))), (.client 0, .watchdogUpdate 1000),
    (.client 1, .begin (.rpc (.resume2 (some "b")))), (.client 1, .watchdogUpdate 1000),
    putPhase 0 0 "a", putPhase 1 0 "b", putPhase 1 1 "b", putPhase 0 1 "a",
    (.client 0, .casRunning false), (.client 0, .loadState .running),
    (.client 0, .ret { flag := some true }), (.client 1, .casRunning false),
    (.client 1, .loadState .running), (.client 1, .ret { flag := some true }),
    (.client 0, .begin (.rpc (.setMaxOutstanding 1))), (.client 0, .watchdogUpdate 1001),
    (.client 1, .begin (.rpc (.setMaxOutstanding 2))), (.client 1, .watchdogUpdate 1001),
    (.client 0, .storeMaxOutstandingRequests 1), (.client 0, .loadMaxOutstandingRequests 1),
    putMax 0 0 1, (.client 1, .storeMaxOutstandingRequests 2),
    (.client 1, .loadMaxOutstandingRequests 2), putMax 1 0 2, putMax 1 1 2, putMax 0 1 1,
    (.client 0, .ret {}), (.client 1, .ret {}),
    take 0 (Event.setPhase "a"), take 0 (Event.setPhase "b"), take 0 (Event.setMaxOutstanding 1),
    take 0 (Event.setMaxOutstanding 2), take 1 (Event.setPhase "b"),
    take 1 (Event.setPhase "a"), take 1 (Event.setMaxOutstanding 2),
    take 1 (Event.setMaxOutstanding 1)]

/-- Overlapping announcements leave the workers with different phases and limits. -/
theorem crossed_announcements :
    ∃ s, Reaches (defaults 2) constantWorkload () 1 crossed s ∧ Settled (defaults 2) s ∧
      ¬ NoneBegun .setMaxOutstanding crossed ∧
      (∀ i < 2, (s.mem.workers i).running = true) ∧
      (s.mem.workers 0).phase ≠ (s.mem.workers 1).phase ∧
      (s.mem.workers 0).maxOutstandingRequests ≠ (s.mem.workers 1).maxOutstandingRequests ∧
      (s.mem.workers 1).maxOutstandingRequests ≠ reportedMaxOutstanding s := by
  have hrun : ((system (defaults 2) constantWorkload).run (start (defaults 2) () 1) crossed).any
      (fun s => (List.range 2).all (fun i => (s.mem.workers i).running) &&
        (List.range 2).all (fun i => (s.mem.scheduler.queues i).isEmpty) &&
        decide ((s.mem.workers 0).phase ≠ (s.mem.workers 1).phase) &&
        decide ((s.mem.workers 0).maxOutstandingRequests ≠
          (s.mem.workers 1).maxOutstandingRequests) &&
        decide ((s.mem.workers 1).maxOutstandingRequests ≠ reportedMaxOutstanding s)) =
      true := by
    decide +kernel
  obtain ⟨s, hr, hs⟩ := (Option.any_eq_true _ _).mp hrun
  simp only [Bool.and_eq_true, decide_eq_true_eq, List.all_eq_true, List.mem_range,
    List.isEmpty_iff] at hs
  obtain ⟨⟨⟨⟨hrunning, hqueues⟩, hphase⟩, hlimit⟩, hreported⟩ := hs
  refine ⟨s, hr, ⟨Reaches.returned hr (by decide +kernel), fun i hi _ => hqueues i hi⟩, ?_,
    hrunning, hphase, hlimit, hreported⟩
  decide

/-- A call of `resume2` and then one of `setMaxOutstanding`, with two workers. -/
def oneByOne : History :=
  [(.client 0, .begin (.rpc (.resume2 (some "a")))), (.client 0, .watchdogUpdate 1000),
    putPhase 0 0 "a", putPhase 0 1 "a", (.client 0, .casRunning false),
    (.client 0, .loadState .running), (.client 0, .ret { flag := some true }),
    (.client 0, .begin (.rpc (.setMaxOutstanding 7))), (.client 0, .watchdogUpdate 1001),
    (.client 0, .storeMaxOutstandingRequests 7), (.client 0, .loadMaxOutstandingRequests 7),
    putMax 0 0 7, putMax 0 1 7, (.client 0, .ret {}),
    take 0 (Event.setPhase "a"), take 0 (Event.setMaxOutstanding 7), take 1 (Event.setPhase "a"),
    take 1 (Event.setMaxOutstanding 7)]

theorem workers_agree_one_by_one :
    ∃ s, Reaches (defaults 2) constantWorkload () 1 oneByOne s ∧
      (s.mem.workers 0).phase = (s.mem.workers 1).phase ∧
      (s.mem.workers 1).maxOutstandingRequests = reportedMaxOutstanding s := by
  have hrun : ((system (defaults 2) constantWorkload).run (start (defaults 2) () 1)
      oneByOne).any (fun s => (List.range 2).all (fun i => (s.mem.workers i).running) &&
        (List.range 2).all (fun i => (s.mem.scheduler.queues i).isEmpty)) = true := by
    decide +kernel
  obtain ⟨s, hr, hs⟩ := (Option.any_eq_true _ _).mp hrun
  simp only [Bool.and_eq_true, List.all_eq_true, List.mem_range, List.isEmpty_iff] at hs
  obtain ⟨hrunning, hqueues⟩ := hs
  have hsettled : Settled (defaults 2) s :=
    ⟨Reaches.returned hr (by decide +kernel), fun i hi _ => hqueues i hi⟩
  have hphase : LastAlone .setPhase oneByOne := by
    refine lastAlone_of_split (show oneByOne = [] ++
      (Tid.client 0, Op.begin (.rpc (.resume2 (some "a")))) :: oneByOne.tail from rfl) rfl
      (by decide) fun j c hc => ?_
    cases hc
  have hlimit : LastAlone .setMaxOutstanding oneByOne := by
    refine lastAlone_of_split (show oneByOne = oneByOne.take 7 ++
      (Tid.client 0, Op.begin (.rpc (.setMaxOutstanding 7))) :: oneByOne.drop 8 from rfl) rfl
      (by decide) fun j c hc => ?_
    have hbegin := begin_of_openCall hc
    simp [oneByOne, putPhase] at hbegin
    obtain ⟨rfl, rfl⟩ := hbegin
    decide
  obtain ⟨h1, h2⟩ := workers_agree hr hsettled
  refine ⟨s, hr, h1 hphase 0 (by decide) 1 (by decide) (hrunning 0 (by decide))
    (hrunning 1 (by decide)), h2 hlimit (by decide) 1 (by decide) (hrunning 1 (by decide))⟩

end Treadmill
