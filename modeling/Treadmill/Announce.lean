import Treadmill.Steps

/-! # Announcements

A call of `setPhase` or `setMaxOutstandingRequests` announces a value to all workers: it puts
one message on each queue, one queue after the other and without a lock.  `Frame.core` are the
steps of an announcement that a client still has to make.

`LastCall` follows the call of a kind that began last, provided that no other call of the
kind was open when it began: while it goes through the queues every other client keeps quiet,
so that its event is the last of its kind on every queue (`last_announcement`). -/

namespace Treadmill

/-! ### The core of a call -/

/-- The message that a remote call is to put on every queue. -/
def Rpc.event : Rpc → Option Event
  | .resume2 req => some (Event.setPhase (req.getD "UNKNOWN_PHASE"))
  | .setMaxOutstanding maxOutstanding => some (Event.setMaxOutstanding maxOutstanding.toUInt32)
  | .pause | .resume | .setRps _ | .getRate | .getConfiguration _ | .setConfiguration _ _
  | .clearConfiguration => none

/-- The message that a call is to put on every queue. -/
def Call.event : Call → Option Event
  | .setPhase phaseName => some (Event.setPhase phaseName)
  | .setMaxOutstandingRequests maxOutstanding =>
      some (Event.setMaxOutstanding maxOutstanding.toUInt32)
  | .rpc r => r.event
  | .pause | .resume | .isRunning | .getMaxOutstandingRequests | .stop | .join | .getRps
  | .setRps _ | .stopWorkers => none

/-- The kind of message that a call puts on every queue. -/
def Call.announces (c : Call) : Option EventType := c.event.map Event.eventType

/-- The step belongs to an announcement of kind `κ`. -/
def Act.announces (κ : EventType) : Act → Bool
  | .putMessage _ e => e.eventType = κ
  | .storeMaxOutstandingRequests _ | .messageMax => κ = .setMaxOutstanding
  | _ => false

/-- The steps of a remote call that announce. -/
def Rpc.core (S : Setup) : Rpc → List Act
  | .resume2 req =>
      Scheduler.messageAllWorkers S (Event.setPhase (req.getD "UNKNOWN_PHASE"))
  | .setMaxOutstanding maxOutstanding =>
      [.storeMaxOutstandingRequests maxOutstanding, .messageMax]
  | .pause | .resume | .setRps _ | .getRate | .getConfiguration _ | .setConfiguration _ _
  | .clearConfiguration => []

/-- The steps of a call that announce. -/
def Call.core (S : Setup) : Call → List Act
  | .setPhase phaseName => Scheduler.messageAllWorkers S (Event.setPhase phaseName)
  | .setMaxOutstandingRequests maxOutstanding =>
      [.storeMaxOutstandingRequests maxOutstanding, .messageMax]
  | .rpc r => r.core S
  | .pause | .resume | .isRunning | .getMaxOutstandingRequests | .stop | .join | .getRps
  | .setRps _ | .stopWorkers => []

/-- The announcing steps that a client still has to make. -/
def Frame.core (κ : EventType) (f : Frame) : List Act := f.todo.filter (Act.announces κ)

/-- The operation neither puts a message of kind `κ` nor, when the limit is announced, writes
the member. -/
def Op.Neutral (κ : EventType) (o : Op) : Prop :=
  (∀ i e, o = .putMessage i e → e.eventType ≠ κ) ∧
    (κ = .setMaxOutstanding → ∀ v, o ≠ .storeMaxOutstandingRequests v)

section core
variable {S : Setup} {κ : EventType} {e : Event} {a : Act} {o : Op} {r r' : Response}
  {acts : List Act} {f f' : Frame}

theorem filter_messageAllWorkers (S : Setup) (e : Event) (κ : EventType) :
    (Scheduler.messageAllWorkers S e).filter (Act.announces κ) =
      if e.eventType = κ then Scheduler.messageAllWorkers S e else [] := by
  split_ifs with he
  · apply List.filter_eq_self.mpr
    intro a ha
    obtain ⟨i, -, rfl⟩ := List.mem_map.mp ha
    simp [Act.announces, he]
  · apply List.filter_eq_nil_iff.mpr
    intro a ha
    obtain ⟨i, -, rfl⟩ := List.mem_map.mp ha
    simp [Act.announces, he]

theorem filter_setPhase (S : Setup) (phaseName : String) (κ : EventType) :
    (Scheduler.setPhase S phaseName).filter (Act.announces κ) =
      if EventType.setPhase = κ then
        Scheduler.messageAllWorkers S (Event.setPhase phaseName)
      else [] := by
  unfold Scheduler.setPhase
  rw [List.filter_append, filter_messageAllWorkers]
  split_ifs <;> simp_all [Act.announces, Event.setPhase]

theorem filter_setMaxOutstandingRequests (maxOutstanding : Int32) (κ : EventType) :
    (Scheduler.setMaxOutstandingRequests maxOutstanding).filter (Act.announces κ) =
      if EventType.setMaxOutstanding = κ then
        [.storeMaxOutstandingRequests maxOutstanding, .messageMax]
      else [] := by
  unfold Scheduler.setMaxOutstandingRequests
  split_ifs with hκ
  · subst hκ
    rfl
  · simp [Act.announces, Ne.symm hκ]

theorem Call.filter_body (S : Setup) (κ : EventType) (c : Call) :
    (c.body S).filter (Act.announces κ) = if c.announces = some κ then c.core S else [] := by
  cases c with
  | setPhase phaseName =>
      simp only [body, announces, event, core, Option.map_some, Option.some.injEq]
      exact filter_setPhase S phaseName κ
  | setMaxOutstandingRequests maxOutstanding =>
      simp only [body, announces, event, core, Option.map_some, Option.some.injEq]
      exact filter_setMaxOutstandingRequests maxOutstanding κ
  | rpc r =>
      cases r with
      | resume2 req =>
          have hresume : Scheduler.resume.filter (Act.announces κ) = [] := rfl
          simp only [body, Rpc.body, TreadmillFB303.futureResume2, announces, event, Rpc.event,
            core, Rpc.core, Option.map_some, Option.some.injEq, List.filter_append,
            filter_setPhase, hresume, List.append_nil]
          exact List.nil_append _
      | setMaxOutstanding maxOutstanding =>
          simp only [body, Rpc.body, TreadmillFB303.setMaxOutstanding, announces, event,
            Rpc.event, core, Rpc.core, Option.map_some, Option.some.injEq]
          rw [List.filter_cons_of_neg (by simp [Act.announces])]
          exact filter_setMaxOutstandingRequests maxOutstanding κ
      | resume =>
          simp only [body, Rpc.body, TreadmillFB303.resume]
          split_ifs <;> rfl
      | _ => rfl
  | stopWorkers =>
      apply List.filter_eq_nil_iff.mpr
      intro a ha
      obtain ⟨i, -, rfl⟩ := List.mem_map.mp ha
      simp [Act.announces]
  | _ => rfl

theorem Act.perform_neutral (hp : a.perform S r o = some (acts, r'))
    (ha : a.announces κ = false) :
    o.Neutral κ ∧ acts.filter (Act.announces κ) = [] := by
  refine ⟨⟨?_, ?_⟩, ?_⟩
  · rintro i e rfl
    obtain rfl := perform_putMessage hp
    simpa [announces] using ha
  · rintro rfl v rfl
    cases a <;> simp [perform] at hp
    cases ha
  · rcases perform_acts hp with rfl | ⟨v, rfl, -, rfl⟩ | ⟨-, -, rfl⟩
    · rfl
    · rw [filter_messageAllWorkers, if_neg]
      rintro rfl
      cases ha
    · rfl

/-! ### Clients -/

/-- Announcing steps are left only in a call of their kind. -/
def Frame.Owned (κ : EventType) (f : Frame) : Prop :=
  f.core κ ≠ [] → ∃ c, f.call = some c ∧ c.announces = some κ

/-- What a step of a client can do to the announcing steps, unless it begins an announcement:
leave them, or make the next of them. -/
theorem Frame.step_core (hown : f.Owned κ) (h : f.step S o = some f')
    (hb : ∀ c, o = .begin c → c.announces ≠ some κ) :
    (f'.core κ = f.core κ ∧ o.Neutral κ) ∨
    ∃ a core acts r, f.core κ = a :: core ∧ a.perform S f.response o = some (acts, r) ∧
      f'.core κ = acts.filter (Act.announces κ) ++ core := by
  rcases Frame.step_cases h with ⟨c, rfl, hcall, rfl⟩ | ⟨c, rfl, -, htodo, rfl⟩ |
    ⟨c, a, todo, acts, r, -, htodo, hp, rfl⟩
  · refine Or.inl ⟨?_, by simp [Op.Neutral]⟩
    have hnone : f.core κ = [] := by
      by_contra hne
      obtain ⟨c', hc', -⟩ := hown hne
      rw [hcall] at hc'
      cases hc'
    rw [hnone, core, Call.filter_body, if_neg (hb c rfl)]
  · refine Or.inl ⟨?_, by simp [Op.Neutral]⟩
    simp [core, idle, htodo]
  · cases ha : a.announces κ with
    | false =>
        obtain ⟨hneutral, hacts⟩ := Act.perform_neutral hp ha
        refine Or.inl ⟨?_, hneutral⟩
        rw [core, core, htodo, List.filter_append, hacts,
          List.filter_cons_of_neg (by simp [ha]), List.nil_append]
    | true =>
        refine Or.inr ⟨a, todo.filter (Act.announces κ), acts, r, ?_, hp, ?_⟩
        · rw [core, htodo, List.filter_cons_of_pos ha]
        · rw [core, List.filter_append]

theorem Frame.Owned.step (hown : f.Owned κ) (h : f.step S o = some f') : f'.Owned κ := by
  by_cases hb : ∀ c, o = .begin c → c.announces ≠ some κ
  · intro hne
    rcases Frame.step_cases h with ⟨c, rfl, -, rfl⟩ | ⟨c, -, -, -, rfl⟩ |
      ⟨c, a, todo, acts, r, hcall, htodo, hp, rfl⟩
    · rw [core, Call.filter_body, if_neg (hb c rfl)] at hne
      exact absurd rfl hne
    · exact absurd rfl hne
    · have hcore : f.core κ ≠ [] := by
        intro hnil
        rcases Frame.step_core hown h hb with ⟨he, -⟩ | ⟨a', core, acts', r', he, -⟩
        · rw [hnil] at he
          exact hne he
        · rw [hnil] at he
          cases he
      rw [← hcall]
      exact hown hcore
  · push Not at hb
    obtain ⟨c, rfl, hc⟩ := hb
    obtain ⟨-, rfl⟩ := Frame.step_begin h
    exact fun _ => ⟨c, rfl, hc⟩

end core

/-! ### Threads that keep quiet -/

section quiet
variable {S : Setup} {κ : EventType} {e : Event} {o : Op} {i : ℕ}

/-- The kinds of messages that are announced. -/
def EventType.Announced (κ : EventType) : Prop := κ = .setPhase ∨ κ = .setMaxOutstanding

theorem Moves.neutral {n : ℕ} {g g' : Stage} (hκ : κ.Announced) (hm : Moves n g o g') :
    o.Neutral κ := by
  constructor
  · rintro i e rfl rfl
    cases hm <;> rcases hκ with h | h <;> cases h
  · rintro - v rfl
    cases hm

theorem senderStep_neutral {todo todo' : List Act} (h : senderStep i todo o = some todo') :
    o.Neutral κ := by
  unfold senderStep at h
  split at h <;> first | cases h; done | exact ⟨by simp, by simp⟩

theorem Op.Neutral.puts (ho : o.Neutral κ) : ∀ e ∈ o.puts i, e.eventType ≠ κ := by
  intro e he
  cases o with
  | putMessage j e' =>
      simp only [Op.puts] at he
      split_ifs at he
      · obtain rfl := List.mem_singleton.mp he
        exact ho.1 j e rfl
      · cases he
  | _ => cases he

theorem Op.Neutral.member {s s' : Scheduler} (ho : o.Neutral .setMaxOutstanding)
    (h : s.access S o = some s') : s'.maxOutstandingRequests = s.maxOutstandingRequests := by
  unfold Scheduler.access at h
  split at h
  case h_10 v => exact absurd rfl (ho.2 rfl v)
  case h_11 j e =>
    obtain ⟨-, rfl⟩ := Scheduler.putMessage_iff.mp h
    rfl
  case h_14 j e env terminates =>
    obtain ⟨-, rfl⟩ := Scheduler.takeMessage_iff.mp h
    rfl
  all_goals
    first
      | cases h; rfl
      | split_ifs at h <;> cases h <;> rfl

variable {ω ρ : Type} {W : Workload ω ρ} {s s' : System ω} {t : Tid}

theorem step_announcing (hκ : κ.Announced) (hown : ∀ k, (s.loc (.client k)).Owned κ)
    (hs : (system S W).step s (t, o) = some s')
    (hb : ∀ c, o = .begin c → c.announces ≠ some κ) :
    (o.Neutral κ ∧ ∀ k, (s'.loc (.client k)).core κ = (s.loc (.client k)).core κ) ∨
    ∃ k a core acts r r', t = .client k ∧ (s.loc (.client k)).core κ = a :: core ∧
      a.perform S r o = some (acts, r') ∧
      (s'.loc (.client k)).core κ = acts.filter (Act.announces κ) ++ core := by
  have hl := Threads.step_loc hs
  cases t with
  | loop =>
      refine Or.inl ⟨(Loop.moves hl).neutral hκ, fun k => ?_⟩
      rw [Threads.step_frame hs (by simp)]
  | worker i =>
      have hsender : senderStep i (s.loc (.worker i)) o = some (s'.loc (.worker i)) := hl
      refine Or.inl ⟨senderStep_neutral hsender, fun k => ?_⟩
      rw [Threads.step_frame hs (by simp)]
  | client j =>
      rcases Frame.step_core (hown j) hl hb with ⟨hcore, ho⟩ | ⟨a, core, acts, r, hcore, hp, hcore'⟩
      · refine Or.inl ⟨ho, fun k => ?_⟩
        by_cases hk : k = j
        · rw [hk]
          exact hcore
        · rw [Threads.step_frame hs (by simp [hk])]
      · exact Or.inr ⟨j, a, core, acts, _, r, rfl, hcore, hp, hcore'⟩

theorem Reaches.owned {workload : ω} {clock : ℤ} {h : History}
    (hr : Reaches S W workload clock h s) (κ : EventType) (k : ℕ) :
    (s.loc (.client k)).Owned κ := by
  refine Threads.loc_invariant (i := .client k) (P := fun c : Frame => c.Owned κ) ?_ ?_ hr
  · exact fun c o c' hc hs => Frame.Owned.step hc hs
  · exact fun hne => absurd rfl hne

end quiet

/-! ### The last announcement of a kind -/

/-- How far the announcement of `e` is, by the steps that are left of it: `member` is what
`max_outstanding_requests_` holds and `put` tells which queues have the event. -/
inductive Announcing (S : Setup) (e : Event) (member : UInt32) (put : ℕ → Prop) :
    List Act → Prop
  | store {m : Int32} (he : e = Event.setMaxOutstanding m.toUInt32) :
      Announcing S e member put [.storeMaxOutstandingRequests m, .messageMax]
  | load (he : e = Event.setMaxOutstanding member) : Announcing S e member put [.messageMax]
  | put (j : ℕ) (hj : j ≤ S.numberOfWorkers) (hput : ∀ i < j, put i)
      (he : e.eventType = .setMaxOutstanding → e = Event.setMaxOutstanding member) :
      Announcing S e member put
        ((List.range' j (S.numberOfWorkers - j)).map fun i => .putMessage i e)

namespace Announcing

variable {S : Setup} {e : Event} {member member' : UInt32} {put put' : ℕ → Prop}
  {core : List Act}

/-- Other threads may put messages. -/
theorem mono (ha : Announcing S e member put core) (hput : ∀ i, put i → put' i)
    (hm : e.eventType = .setMaxOutstanding → member' = member) :
    Announcing S e member' put' core := by
  cases ha with
  | store he => exact .store he
  | load he =>
      refine .load ?_
      rw [hm (by rw [he]; rfl)]
      exact he
  | put j hj hall he =>
      refine .put j hj (fun i hi => hput i (hall i hi)) fun hmax => ?_
      rw [hm hmax]
      exact he hmax

theorem done (ha : Announcing S e member put []) :
    (∀ i < S.numberOfWorkers, put i) ∧
      (e.eventType = .setMaxOutstanding → e = Event.setMaxOutstanding member) := by
  generalize hc : ([] : List Act) = core at ha
  cases ha with
  | store => cases hc
  | load => cases hc
  | put j hj hall he =>
      have hlen := congrArg List.length hc
      rw [List.length_map, List.length_range', List.length_nil] at hlen
      exact ⟨fun i hi => hall i (by omega), he⟩

theorem step {s s' : Scheduler} {a : Act} {acts : List Act} {r r' : Response} {o : Op}
    (ha : Announcing S e s.maxOutstandingRequests put (a :: core))
    (hp : a.perform S r o = some (acts, r')) (h : s.access S o = some s')
    (hput : ∀ i, put i ∨ e ∈ o.puts i → put' i) :
    Announcing S e s'.maxOutstandingRequests put'
        (acts.filter (Act.announces e.eventType) ++ core) ∧
      ∀ i, ∀ e' ∈ o.puts i, e' = e := by
  generalize hc : a :: core = steps at ha
  cases ha with
  | store he =>
      cases hc
      cases o <;> simp [Act.perform] at hp
      obtain ⟨rfl, rfl, -⟩ := hp
      cases h
      exact ⟨.load he, fun i e' he' => by cases he'⟩
  | load he =>
      cases hc
      cases o <;> simp [Act.perform] at hp
      obtain ⟨rfl, -⟩ := hp
      simp only [Scheduler.access] at h
      split_ifs at h with hv
      cases h
      rw [← hv, ← he, filter_messageAllWorkers, if_pos rfl, List.append_nil,
        Scheduler.messageAllWorkers, List.range_eq_range']
      refine ⟨?_, fun i e' he' => by cases he'⟩
      exact .put 0 (Nat.zero_le _) (fun i hi => absurd hi (Nat.not_lt_zero i)) fun _ => he
  | put j hj hall he =>
      obtain ⟨n, hn⟩ : ∃ n, S.numberOfWorkers - j = n + 1 := by
        refine ⟨S.numberOfWorkers - j - 1, ?_⟩
        have hlen := congrArg List.length hc
        rw [List.length_map, List.length_range', List.length_cons] at hlen
        omega
      rw [hn, List.range'_succ, List.map_cons, List.cons.injEq] at hc
      obtain ⟨rfl, rfl⟩ := hc
      cases o <;> simp [Act.perform] at hp
      obtain ⟨⟨hi, rfl⟩, rfl, -⟩ := hp
      subst j
      rename_i j _
      obtain ⟨-, rfl⟩ := Scheduler.putMessage_iff.mp h
      constructor
      · have hrest : n = S.numberOfWorkers - (j + 1) := by omega
        rw [hrest]
        refine .put (j + 1) (by omega) (fun i hi => hput i ?_) he
        by_cases hij : i = j
        · subst hij
          exact Or.inr (by simp [Op.puts])
        · exact Or.inl (hall i (by omega))
      · intro i e' he'
        simp only [Op.puts] at he'
        split_ifs at he'
        · exact List.mem_singleton.mp he'
        · cases he'

end Announcing

/-- After `h`, which follows the begin of the last announcement of a kind: its event is `e`, it
is made by client `k`, and all messages of the kind are `e`. -/
structure LastCall (S : Setup) (e : Event) (k : ℕ) (h : History) {ω : Type} (s : System ω) :
    Prop where
  owned : ∀ j, (s.loc (.client j)).Owned e.eventType
  others : ∀ j, j ≠ k → (s.loc (.client j)).core e.eventType = []
  own : Announcing S e s.mem.scheduler.maxOutstandingRequests (fun i => e ∈ puts i h)
    ((s.loc (.client k)).core e.eventType)
  puts : ∀ i, ∀ e' ∈ puts i h, e'.eventType = e.eventType → e' = e

section last
variable {ω ρ : Type} {S : Setup} {W : Workload ω ρ} {workload : ω} {clock : ℤ}
  {h h₁ h₂ : History} {s s' u : System ω} {t : Tid} {o : Op} {e : Event} {k : ℕ} {κ : EventType}

theorem owned_step (hown : ∀ j, (s.loc (.client j)).Owned κ)
    (hs : (system S W).step s (t, o) = some s') (j : ℕ) : (s'.loc (.client j)).Owned κ := by
  by_cases hj : Tid.client j = t
  · subst hj
    exact Frame.Owned.step (hown j) (Threads.step_loc hs)
  · rw [Threads.step_frame hs hj]
    exact hown j

theorem LastCall.step (hκ : e.eventType.Announced) (ha : LastCall S e k h s)
    (hs : (system S W).step s (t, o) = some s')
    (hb : ∀ c, o = .begin c → c.announces ≠ some e.eventType) :
    LastCall S e k (h ++ [(t, o)]) s' := by
  have hown := owned_step ha.owned hs
  have hacc := step_scheduler hs
  have hput : ∀ i, e ∈ Treadmill.puts i h ∨ e ∈ o.puts i →
      e ∈ Treadmill.puts i (h ++ [(t, o)]) := by
    intro i hi
    rw [puts_snoc]
    exact List.mem_append.mpr hi
  rcases step_announcing hκ ha.owned hs hb with ⟨ho, hcore⟩ |
    ⟨j, a, core, acts, r, r', rfl, hcore, hp, hcore'⟩
  · refine ⟨hown, fun j hj => ?_, ?_, fun i e' he' hkind => ?_⟩
    · rw [hcore, ha.others j hj]
    · rw [hcore]
      exact ha.own.mono (fun i hi => hput i (Or.inl hi))
        fun hmax => Op.Neutral.member (hmax ▸ ho) hacc
    · rw [puts_snoc] at he'
      rcases List.mem_append.mp he' with he' | he'
      · exact ha.puts i e' he' hkind
      · exact absurd hkind (ho.puts e' he')
  · have hj : j = k := by
      by_contra hj
      rw [ha.others j hj] at hcore
      cases hcore
    rw [hj] at hcore hcore'
    have hannouncing := ha.own
    rw [hcore] at hannouncing
    obtain ⟨hnext, hmine⟩ := hannouncing.step hp hacc hput
    refine ⟨hown, fun i hi => ?_, ?_, fun i e' he' hkind => ?_⟩
    · rw [Threads.step_frame hs (by simp [hj, hi])]
      exact ha.others i hi
    · rw [hcore']
      exact hnext
    · rw [puts_snoc] at he'
      rcases List.mem_append.mp he' with he' | he'
      · exact ha.puts i e' he' hkind
      · exact hmine i e' he'

/-- No announcement of kind `κ` is begun. -/
def NoneBegun (κ : EventType) (h : History) : Prop :=
  ∀ t c, (t, .begin c) ∈ h → c.announces ≠ some κ

/-- The operation begins an announcement of kind `κ`. -/
def Op.begins (κ : EventType) : Op → Bool
  | .begin c => c.announces = some κ
  | _ => false

theorem noneBegun_iff : NoneBegun κ h ↔ ∀ a ∈ h, a.2.begins κ = false := by
  constructor
  · rintro hnone ⟨t, o⟩ hm
    cases o with
    | «begin» c => exact decide_eq_false (hnone t c hm)
    | _ => rfl
  · intro hall t c hm
    exact of_decide_eq_false (hall _ hm)

instance (κ : EventType) : DecidablePred (NoneBegun κ) := fun _ =>
  decidable_of_iff _ noneBegun_iff.symm

/-- The last announcement of kind `κ` is begun when every earlier one has returned. -/
def LastAlone (κ : EventType) (h : History) : Prop :=
  ∀ h₁ k c h₂, h = h₁ ++ (Tid.client k, Op.begin c) :: h₂ → c.announces = some κ → NoneBegun κ h₂ →
    ∀ j c', openCall j h₁ = some c' → c'.announces ≠ some κ

theorem Call.announcing (S : Setup) {c : Call} (hc : c.event = some e) (member : UInt32)
    (put : ℕ → Prop) : Announcing S e member put (c.core S) := by
  have hphase : ∀ p, Announcing S (Event.setPhase p) member put
      (Scheduler.messageAllWorkers S (Event.setPhase p)) := by
    intro p
    rw [Scheduler.messageAllWorkers, List.range_eq_range']
    exact .put 0 (Nat.zero_le _) (fun i hi => absurd hi (Nat.not_lt_zero i)) fun he => by cases he
  cases c with
  | setPhase phaseName =>
      cases hc
      exact hphase phaseName
  | setMaxOutstandingRequests maxOutstanding =>
      cases hc
      exact .store rfl
  | rpc r =>
      cases r with
      | resume2 req =>
          cases hc
          exact hphase _
      | setMaxOutstanding maxOutstanding =>
          cases hc
          exact .store rfl
      | _ => cases hc
  | _ => cases hc

theorem Call.event_cases {c : Call} (hc : c.event = some e) :
    (∃ p, e = Event.setPhase p) ∨ ∃ v, e = Event.setMaxOutstanding v := by
  cases c with
  | setPhase phaseName =>
      cases hc
      exact Or.inl ⟨phaseName, rfl⟩
  | setMaxOutstandingRequests maxOutstanding =>
      cases hc
      exact Or.inr ⟨_, rfl⟩
  | rpc r =>
      cases r with
      | resume2 req =>
          cases hc
          exact Or.inl ⟨_, rfl⟩
      | setMaxOutstanding maxOutstanding =>
          cases hc
          exact Or.inr ⟨_, rfl⟩
      | _ => cases hc
  | _ => cases hc

/-- While no announcement of a kind is open or begun, none of its messages is put and the
member is not written. -/
theorem silent_run (hκ : κ.Announced) (hown : ∀ j, (s.loc (.client j)).Owned κ)
    (hcore : ∀ j, (s.loc (.client j)).core κ = []) (hr : (system S W).run s h = some s')
    (hnone : NoneBegun κ h) :
    (∀ j, (s'.loc (.client j)).core κ = []) ∧ (∀ i, ∀ e ∈ puts i h, e.eventType ≠ κ) ∧
      (κ = .setMaxOutstanding → s'.mem.scheduler.maxOutstandingRequests =
        s.mem.scheduler.maxOutstandingRequests) := by
  have hinv := Lts.history_induction (P := fun h (s' : System ω) => NoneBegun κ h →
    (∀ j, (s'.loc (.client j)).Owned κ) ∧ (∀ j, (s'.loc (.client j)).core κ = []) ∧
      (∀ i, ∀ e ∈ puts i h, e.eventType ≠ κ) ∧
      (κ = .setMaxOutstanding → s'.mem.scheduler.maxOutstandingRequests =
        s.mem.scheduler.maxOutstandingRequests)) ?_ ?_ hr hnone
  · exact hinv.2
  · exact fun _ => ⟨hown, hcore, by simp [puts], fun _ => rfl⟩
  · rintro h u ⟨t, o⟩ u' - ih hs hnone
    obtain ⟨hown, hcore, hputs, hmember⟩ := ih fun t c hm =>
      hnone t c (List.mem_append_left _ hm)
    rcases step_announcing hκ hown hs fun c ho => hnone t c (by simp [ho]) with
      ⟨ho, hcore'⟩ | ⟨j, a, core, acts, r, r', -, he, -⟩
    · refine ⟨owned_step hown hs, fun j => ?_, fun i e he => ?_, fun hmax => ?_⟩
      · rw [hcore', hcore]
      · rw [puts_snoc] at he
        rcases List.mem_append.mp he with he | he
        · exact hputs i e he
        · exact ho.puts e he
      · rw [Op.Neutral.member (hmax ▸ ho) (step_scheduler hs)]
        exact hmember hmax
    · rw [hcore j] at he
      cases he

theorem core_eq_nil (hown : (s.loc (.client k)).Owned κ)
    (hopen : ∀ c, (s.loc (.client k)).call = some c → c.announces ≠ some κ) :
    (s.loc (.client k)).core κ = [] := by
  by_contra hne
  obtain ⟨c, hc, hκ⟩ := hown hne
  exact hopen c hc hκ

theorem none_open_run (hopen : ∀ j c, (s.loc (.client j)).call = some c → c.announces ≠ some κ)
    (hr : (system S W).run s h = some s') (hnone : NoneBegun κ h) :
    ∀ j c, (s'.loc (.client j)).call = some c → c.announces ≠ some κ := by
  refine Lts.invariant_on (P := fun s : System ω =>
    ∀ j c, (s.loc (.client j)).call = some c → c.announces ≠ some κ)
    (Q := fun a => ∀ c, a.2 = .begin c → c.announces ≠ some κ) ?_ hopen
    (fun a ha c hc => hnone a.1 c (hc ▸ ha)) hr
  rintro u ⟨t, o⟩ u' hQ hu hs j c hc
  by_cases hj : Tid.client j = t
  · subst hj
    rw [Frame.step_call (Threads.step_loc hs)] at hc
    cases o with
    | «begin» c' =>
        cases hc
        exact hQ c rfl
    | ret r => cases hc
    | _ => exact hu j c hc
  · rw [Threads.step_frame hs hj] at hc
    exact hu j c hc

/-- After the last announcement of a kind was begun, alone, it is followed by `LastCall`. -/
theorem lastCall_run {c : Call}
    (hr : Reaches S W workload clock (h₁ ++ (Tid.client k, Op.begin c) :: h₂) s)
    (hc : c.event = some e)
    (hopen : ∀ j c', openCall j h₁ = some c' → c'.announces ≠ some e.eventType)
    (hnone : NoneBegun e.eventType h₂) : LastCall S e k h₂ s := by
  have hκ : e.eventType.Announced := by
    rcases Call.event_cases hc with ⟨p, rfl⟩ | ⟨v, rfl⟩
    · exact Or.inl rfl
    · exact Or.inr rfl
  have hkind : c.announces = some e.eventType := by
    rw [Call.announces, hc]
    rfl
  obtain ⟨u, u', hu, hbegin, hr₂⟩ := Lts.run_split _ hr
  have hown := owned_step (κ := e.eventType) (fun j => Reaches.owned hu _ j) hbegin
  have hloc : (u'.loc (.client k)).todo = c.body S := by
    rw [(Frame.step_begin (Threads.step_loc hbegin)).2]
  have hstart : LastCall S e k [] u' := by
    refine ⟨hown, fun j hj => ?_, ?_, fun i e' he' => by cases he'⟩
    · rw [Threads.step_frame hbegin (by simp [hj])]
      apply core_eq_nil (Reaches.owned hu _ j)
      intro c' hc'
      rw [Reaches.openCall hu] at hc'
      exact hopen j c' hc'
    · have hcore : (u'.loc (.client k)).core e.eventType = c.core S := by
        rw [Frame.core, hloc, Call.filter_body, if_pos hkind]
      rw [hcore]
      exact Call.announcing S hc _ _
  refine Lts.history_induction (P := fun h s => NoneBegun e.eventType h → LastCall S e k h s)
    (fun _ => hstart) ?_ hr₂ hnone
  rintro h v ⟨t, o⟩ v' - ih hs hb
  apply (ih fun t c hm => hb t c (List.mem_append_left _ hm)).step hκ hs
  intro c ho
  exact hb t c (by simp [ho])

/-- **The last announcement reaches every queue last**: if no announcement of a kind was open
when the last one was begun, then when all have returned its event is on every queue, no
other event of the kind came after it, and the member has the limit it announced. -/
theorem last_announcement {c : Call}
    (hr : Reaches S W workload clock (h₁ ++ (Tid.client k, Op.begin c) :: h₂) s)
    (hc : c.event = some e)
    (hopen : ∀ j c', openCall j h₁ = some c' → c'.announces ≠ some e.eventType)
    (hnone : NoneBegun e.eventType h₂)
    (hret : ∀ j c', (s.loc (.client j)).call = some c' → c'.announces ≠ some e.eventType) :
    (e.eventType = .setMaxOutstanding →
      e = Event.setMaxOutstanding s.mem.scheduler.maxOutstandingRequests) ∧
    ∀ i < S.numberOfWorkers,
      e ∈ puts i h₂ ∧ ∀ e' ∈ puts i h₂, e'.eventType = e.eventType → e' = e := by
  have hend := lastCall_run hr hc hopen hnone
  have hcore := core_eq_nil (hend.owned k) (hret k)
  have hdone := hend.own
  rw [hcore] at hdone
  obtain ⟨hput, hmember⟩ := hdone.done
  exact ⟨hmember, fun i hi => ⟨hput i hi, hend.puts i⟩⟩

end last

end Treadmill
