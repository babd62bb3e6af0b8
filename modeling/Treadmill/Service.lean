import Mathlib.Data.List.AList
import Treadmill.Lib.Monitor

/-! # The service

The parts of `TreadmillFB303.cpp` that are guarded by a lock of their own.

* `status_` and `configuration_` under `mutex_`: every member function that takes the lock, those
  for the remote calls and those for the rest of the process (`service`).  Each is atomic, and the
  checked `at` of a key never throws (`service_linearizable`).
* The one instance of the process under `instance_mutex` (`globalInstance`): however many threads
  call `make_fb303` and `getGlobalTreadmillFB303`, one of them makes the instance and all that get
  one get that one (`instance_unique`). -/

namespace Treadmill

/-! ### The members under `mutex_` -/

/-- `status_`, of the type `fb_status`, and `configuration_`. -/
structure ServiceData (τ : Type) where
  status : τ
  configuration : AList fun _ : String => String

/-- The member functions of `TreadmillFB303` that take `mutex_` for what they read or write. -/
inductive ServiceCall (τ : Type) where
  | setStatus (status : τ)
  /-- also `getStatusDetails`, which gives its name -/
  | getStatus
  | futureGetConfiguration (key : String)
  | setConfiguration (key value : String)
  /-- `getConfigurationValue` with a default of type `uint32_t` -/
  | getConfigurationValue (key : String) (defaultValue : UInt32)
  /-- `getConfigurationValue` with a default of type `std::string` -/
  | getConfigurationString (key defaultValue : String)
  | clearConfiguration
  | configurationEmpty
deriving DecidableEq, Repr

/-- What a member function returns; `outOfRange` is the exception of `configuration_->at`. -/
inductive ServiceReply (τ : Type) where
  | void
  | status (status : τ)
  | string (value : String)
  | number (value : UInt32)
  | bool (b : Bool)
  | outOfRange
deriving DecidableEq, Repr

/-- Where a member function is under the lock. -/
inductive ServicePlace where
  | entry
  /-- `configuration_->count(key)` was not zero -/
  | at
deriving DecidableEq, Repr

/-- `TreadmillFB303` as far as `mutex_` guards it; `tryTo` is `folly::tryTo<uint32_t>`. -/
def service {τ : Type} (tryTo : String → Option UInt32) :
    Monitor (ServiceData τ) (ServiceCall τ) (ServiceReply τ) ServicePlace where
  shared
    | .setStatus _ | .setConfiguration _ _ | .clearConfiguration => false
    | .getStatus | .futureGetConfiguration _ | .getConfigurationValue _ _
    | .getConfigurationString _ _ | .configurationEmpty => true
  enter _ := .entry
  step
    | .setStatus status, _, d => ({ d with status := status }, .inr .void)
    | .getStatus, _, d => (d, .inr (.status d.status))
    | .futureGetConfiguration key, .entry, d =>
        (d, if key ∈ d.configuration then .inl .at else .inr (.string ""))
    | .futureGetConfiguration key, .at, d =>
        (d, .inr (match d.configuration.lookup key with
          | some value => .string value
          | none => .outOfRange))
    | .setConfiguration key value, _, d =>
        ({ d with configuration := d.configuration.insert key value }, .inr .void)
    | .getConfigurationValue key defaultValue, .entry, d =>
        (d, if key ∈ d.configuration then .inl .at else .inr (.number defaultValue))
    | .getConfigurationValue key defaultValue, .at, d =>
        (d, .inr (match d.configuration.lookup key with
          | some value => .number ((tryTo value).getD defaultValue)
          | none => .outOfRange))
    | .getConfigurationString key defaultValue, .entry, d =>
        (d, if key ∈ d.configuration then .inl .at else .inr (.string defaultValue))
    | .getConfigurationString key _, .at, d =>
        (d, .inr (match d.configuration.lookup key with
          | some value => .string value
          | none => .outOfRange))
    | .clearConfiguration, _, d => ({ d with configuration := ∅ }, .inr .void)
    | .configurationEmpty, _, d => (d, .inr (.bool d.configuration.entries.isEmpty))
  readOnly i p d h := by
    cases i <;> cases p <;> first | rfl | cases h

/-- The same functions at once, on a store of strings. -/
def serviceObject {τ : Type} (tryTo : String → Option UInt32) :
    Object (ServiceData τ) (ServiceCall τ) (ServiceReply τ) where
  apply d
    | .setStatus status => ({ d with status := status }, .void)
    | .getStatus => (d, .status d.status)
    | .futureGetConfiguration key => (d, .string ((d.configuration.lookup key).getD ""))
    | .setConfiguration key value =>
        ({ d with configuration := d.configuration.insert key value }, .void)
    | .getConfigurationValue key defaultValue =>
        (d, .number (((d.configuration.lookup key).bind tryTo).getD defaultValue))
    | .getConfigurationString key defaultValue =>
        (d, .string ((d.configuration.lookup key).getD defaultValue))
    | .clearConfiguration => ({ d with configuration := ∅ }, .void)
    | .configurationEmpty => (d, .bool d.configuration.entries.isEmpty)

section service
variable {τ : Type} {tryTo : String → Option UInt32} {d : ServiceData τ}

theorem service_lookup {i : ServiceCall τ} {r fallback : ServiceReply τ} (key : String)
    (found : String → ServiceReply τ)
    (hentry : (service tryTo).step i .entry d =
      (d, if key ∈ d.configuration then .inl .at else .inr fallback))
    (hat : (service tryTo).step i .at d =
      (d, .inr (match d.configuration.lookup key with
        | some value => found value
        | none => .outOfRange)))
    (hnone : d.configuration.lookup key = none → r = fallback)
    (hsome : ∀ value, d.configuration.lookup key = some value → r = found value) :
    (service tryTo).Runs i .entry d (d, r) := by
  cases hkey : d.configuration.lookup key with
  | none =>
      rw [if_neg (AList.lookup_eq_none.mp hkey)] at hentry
      rw [hnone hkey]
      exact .last hentry
  | some value =>
      have hmem : key ∈ d.configuration := by
        rw [← AList.lookup_isSome, hkey]
        rfl
      rw [if_pos hmem] at hentry
      rw [hkey] at hat
      rw [hsome value hkey]
      exact .next hentry (.last hat)

theorem service_implements : (service (τ := τ) tryTo).Implements (serviceObject tryTo) := by
  intro i d
  cases i with
  | futureGetConfiguration key =>
      refine service_lookup key .string rfl rfl (fun h => ?_) fun value h => ?_
      · rw [h]
        rfl
      · rw [h]
        rfl
  | getConfigurationValue key defaultValue =>
      refine service_lookup key (fun value => .number ((tryTo value).getD defaultValue)) rfl rfl
        (fun h => ?_) fun value h => ?_
      · rw [h]
        rfl
      · rw [h]
        rfl
  | getConfigurationString key defaultValue =>
      refine service_lookup key .string rfl rfl (fun h => ?_) fun value h => ?_
      · rw [h]
        rfl
      · rw [h]
        rfl
  | _ => exact .last rfl

/-- **The service is atomic.**  However the threads interleave, the member functions that take
`mutex_` answer as they would one after another, in an order that respects which calls were over
before others began; and no lookup throws. -/
theorem service_linearizable {κ : Type} [DecidableEq κ] [DecidableEq τ]
    {h : List (κ × Monitor.Op (ServiceCall τ) (ServiceReply τ))}
    {s : Monitor.State (ServiceData τ) κ (ServiceCall τ) (ServiceReply τ) ServicePlace}
    (hr : (service tryTo).lts.run (Monitor.start d) h = some s) :
    (serviceObject tryTo).Linearizable d (Monitor.marks h) ∧
      ∀ n m, ¬ Returns (Monitor.marks h) n m .outOfRange := by
  have hlin := Monitor.linearizable service_implements hr
  refine ⟨hlin, fun n m hret => ?_⟩
  obtain ⟨l, hl⟩ := hlin
  obtain ⟨e, he, -, hresponse⟩ := hl.returned n m _ hret
  obtain ⟨t, ht⟩ := hl.legal.response _ e he
  rw [hresponse] at ht
  cases hi : e.input <;> rw [hi] at ht <;> cases ht

/-- A reader finds a key and waits to read it, and `clearConfiguration` waits for the reader. -/
def readThenClear : List (ℕ × Monitor.Op (ServiceCall Bool) (ServiceReply Bool)) :=
  [(0, .call (.setConfiguration "key" "17")), (0, .acquire), (0, .work), (0, .release),
    (0, .ret .void), (1, .call (.getConfigurationValue "key" 5)),
    (2, .call .clearConfiguration), (1, .acquire), (1, .work), (1, .work), (1, .release),
    (2, .acquire), (2, .work), (1, .ret (.number 17)), (2, .release), (2, .ret .void)]

theorem service_linearizable_readThenClear :
    (serviceObject fun _ => some 17).Linearizable ⟨true, ∅⟩ (Monitor.marks readThenClear) := by
  have hrun : ((service fun _ => some 17).lts.run (Monitor.start ⟨true, ∅⟩)
      readThenClear).isSome = true := by
    decide +kernel
  obtain ⟨s, hr⟩ := Option.isSome_iff_exists.mp hrun
  exact (service_linearizable hr).1

end service

/-! ### The one instance -/

/-- `instance`, and how many instances have been made; pointers are numbered from `0`. -/
structure GlobalData where
  instance? : Option ℕ
  made : ℕ
deriving DecidableEq, Repr

/-- The functions that take `instance_mutex`. -/
inductive GlobalCall where
  | makeFb303
  | getGlobalTreadmillFB303
deriving DecidableEq, Repr

/-- Where `make_fb303` is under the lock. -/
inductive GlobalPlace where
  | check
  | makeShared
deriving DecidableEq, Repr

/-- `make_fb303` as far as it holds `instance_mutex`, and `getGlobalTreadmillFB303`.  They return
the instance that was made or found, or `none` if they end in `LOG(FATAL)`. -/
def globalInstance : Monitor GlobalData GlobalCall (Option ℕ) GlobalPlace where
  shared
    | .makeFb303 => false
    | .getGlobalTreadmillFB303 => true
  enter _ := .check
  step
    | .makeFb303, .check, d => (d, if d.instance?.isSome then .inr none else .inl .makeShared)
    | .makeFb303, .makeShared, d => (⟨some d.made, d.made + 1⟩, .inr (some d.made))
    | .getGlobalTreadmillFB303, _, d => (d, .inr d.instance?)
  readOnly i p d h := by
    cases i <;> first | rfl | cases h

/-- The same functions at once. -/
def globalObject : Object GlobalData GlobalCall (Option ℕ) where
  apply d
    | .makeFb303 =>
        if d.instance?.isSome then (d, none) else (⟨some d.made, d.made + 1⟩, some d.made)
    | .getGlobalTreadmillFB303 => (d, d.instance?)

theorem globalInstance_implements : globalInstance.Implements globalObject := by
  intro i d
  cases i with
  | makeFb303 =>
      change globalInstance.Runs .makeFb303 .check d (ite _ _ _)
      split_ifs with hset
      · exact .last (by simp [globalInstance, hset])
      · have hcheck : globalInstance.step .makeFb303 .check d = (d, .inl .makeShared) := by
          simp [globalInstance, hset]
        exact .next hcheck (.last rfl)
  | getGlobalTreadmillFB303 => exact .last rfl

/-- The instance is there: nobody makes another one, and all find it. -/
def FindsInstance (e : Slot GlobalCall (Option ℕ)) : Prop :=
  match e.input with
  | .makeFb303 => e.response = none
  | .getGlobalTreadmillFB303 => e.response = some 0

theorem found_of_legal {l : List (Slot GlobalCall (Option ℕ))} :
    ∀ {d : GlobalData}, d.instance? = some 0 → globalObject.Legal d l →
      ∀ e ∈ l, FindsInstance e := by
  induction l with
  | nil => simp
  | cons b l ih =>
      rintro d hd ⟨hb, hl⟩ e he
      have hstay : (globalObject.apply d b.input).1 = d ∧ FindsInstance b := by
        unfold FindsInstance
        cases hi : b.input with
        | makeFb303 =>
            have happly : globalObject.apply d .makeFb303 = (d, none) := by simp [globalObject, hd]
            rw [hi, happly] at hb
            rw [happly]
            exact ⟨rfl, hb.symm⟩
        | getGlobalTreadmillFB303 =>
            rw [hi] at hb
            exact ⟨rfl, hb.symm.trans hd⟩
      rcases List.mem_cons.mp he with rfl | he
      · exact hstay.2
      · rw [hstay.1] at hl
        exact ih hd hl e he

/-- Once `make_fb303` was called, by whatever thread, the instance is there; it is the only one. -/
theorem global_legal {l : List (Slot GlobalCall (Option ℕ))} :
    ∀ {d : GlobalData}, (d = ⟨none, 0⟩ ∨ d.instance? = some 0) → globalObject.Legal d l →
      (∀ e ∈ l, ∀ p, e.response = some p → p = 0) ∧
        l.Pairwise fun e e' => e.input = .makeFb303 → FindsInstance e' := by
  induction l with
  | nil => simp
  | cons b l ih =>
      rintro d hd ⟨hb, hl⟩
      have hstate : ((globalObject.apply d b.input).1 = ⟨none, 0⟩ ∧ b.input ≠ .makeFb303 ∨
          (globalObject.apply d b.input).1.instance? = some 0) ∧
          ∀ p, b.response = some p → p = 0 := by
        rw [← hb]
        cases b.input with
        | makeFb303 =>
            rcases hd with rfl | hd
            · exact ⟨Or.inr rfl, fun p hp => (Option.some.inj hp).symm⟩
            · simp [globalObject, hd]
        | getGlobalTreadmillFB303 =>
            rcases hd with rfl | hd
            · exact ⟨Or.inl ⟨rfl, by simp⟩, fun p hp => by cases hp⟩
            · refine ⟨Or.inr hd, fun p hp => ?_⟩
              rw [show (globalObject.apply d .getGlobalTreadmillFB303).2 = d.instance? from rfl, hd]
                at hp
              exact (Option.some.inj hp).symm
      obtain ⟨hstate, hresponse⟩ := hstate
      obtain ⟨hresponses, hpairs⟩ := ih (hstate.imp_left And.left) hl
      refine ⟨?_, List.pairwise_cons.mpr ⟨fun e he hmake => ?_, hpairs⟩⟩
      · intro e he
        rcases List.mem_cons.mp he with rfl | he
        · exact hresponse
        · exact hresponses e he
      · rcases hstate with ⟨-, hne⟩ | hset
        · exact absurd hmake hne
        · exact found_of_legal hset hl e he

/-- **There is one service.**  However the threads that call `make_fb303` and
`getGlobalTreadmillFB303` interleave: all that get an instance get the same one, at most one
`make_fb303` does not end in `LOG(FATAL)`, and a `getGlobalTreadmillFB303` that begins when some
`make_fb303` is past its lock gets the instance. -/
theorem instance_unique {κ : Type} [DecidableEq κ]
    {h : List (κ × Monitor.Op GlobalCall (Option ℕ))}
    {s : Monitor.State GlobalData κ GlobalCall (Option ℕ) GlobalPlace}
    (hr : globalInstance.lts.run (Monitor.start ⟨none, 0⟩) h = some s) :
    (∀ n m p n' m' p', Returns (Monitor.marks h) n m (some p) →
      Returns (Monitor.marks h) n' m' (some p') → p = p') ∧
    (∀ n m p n' m' p' k k', (Monitor.marks h)[n]? = some (.call k .makeFb303) →
      Returns (Monitor.marks h) n m (some p) →
      (Monitor.marks h)[n']? = some (.call k' .makeFb303) →
      Returns (Monitor.marks h) n' m' (some p') → n = n') ∧
    (∀ n m r n' m' r' k k', (Monitor.marks h)[n]? = some (.call k .makeFb303) →
      Returns (Monitor.marks h) n m r → m < n' →
      (Monitor.marks h)[n']? = some (.call k' .getGlobalTreadmillFB303) →
      Returns (Monitor.marks h) n' m' r' → r' = some 0) := by
  obtain ⟨l, hl⟩ := Monitor.linearizable globalInstance_implements hr
  obtain ⟨hresponses, hpairs⟩ := global_legal (Or.inl rfl) hl.legal
  have hzero : ∀ n m p, Returns (Monitor.marks h) n m (some p) → p = 0 := by
    intro n m p hret
    obtain ⟨e, he, -, hresponse⟩ := hl.returned n m _ hret
    exact hresponses e he p hresponse
  refine ⟨?_, ?_, ?_⟩
  · intro n m p n' m' p' hret hret'
    rw [hzero n m p hret, hzero n' m' p' hret']
  · intro n m p n' m' p' k k' hcall hret hcall' hret'
    by_contra hne
    rcases hl.order hpairs (hl.slot hcall hret) (hl.slot hcall' hret')
      (fun he => hne (congrArg Slot.operation he)) with ⟨hfound, -⟩ | ⟨hfound, -⟩ <;>
      cases hfound rfl
  · intro n m r n' m' r' k k' hcall hret hlt hcall' hret'
    rcases hl.order hpairs (hl.slot hcall hret) (hl.slot hcall' hret')
      (fun he => by cases he) with ⟨hfound, -⟩ | ⟨-, htime⟩
    · exact hfound rfl
    · exact absurd (htime m r hret) (by simp; omega)

/-- Two threads make the instance at once; the one that loses does not get to the `make_shared`. -/
def twoServers : List (ℕ × Monitor.Op GlobalCall (Option ℕ)) :=
  [(0, .call .makeFb303), (1, .call .makeFb303), (0, .acquire), (0, .work), (0, .work),
    (0, .release), (1, .acquire), (0, .ret (some 0)), (1, .work), (1, .release), (1, .ret none),
    (0, .call .getGlobalTreadmillFB303), (0, .acquire), (0, .work), (0, .release),
    (0, .ret (some 0))]

theorem instance_unique_twoServers : Returns (Monitor.marks twoServers) 4 5 (some 0) ∧
    ∀ n m p, Returns (Monitor.marks twoServers) n m (some p) → 0 = p := by
  have hrun : (globalInstance.lts.run (Monitor.start ⟨none, 0⟩) twoServers).isSome = true := by
    decide +kernel
  obtain ⟨s, hr⟩ := Option.isSome_iff_exists.mp hrun
  have hlast : Returns (Monitor.marks twoServers) 4 5 (some 0) := by
    refine ⟨0, .getGlobalTreadmillFB303, ⟨rfl, fun m b hm hb => ?_⟩, rfl⟩
    have hlt : m < 5 := (List.getElem?_eq_some_iff.mp hb).1
    omega
  exact ⟨hlast, fun n m p hret => (instance_unique hr).1 4 5 0 n m p hlast hret⟩

end Treadmill
