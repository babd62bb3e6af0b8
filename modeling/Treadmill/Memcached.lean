import Mathlib.Data.List.Count
import Treadmill.Lib.Lts
import Treadmill.Worker

/-! # The memcached workload

`Workload<MemcachedService>` (`services/memcached/Workload.h`) and its requests
(`services/memcached/Request.h`): the keys `0, 1, ..., number_of_keys - 1` are first written
one after another (`warmup`), then read in the same order.

The state of the workload is a function of the calls made on it.  `streak` and `Warmed` say
what of that history matters: how many requests were issued since the last `reset`, and
whether `number_of_keys` requests were ever issued in a row (`after_index`,
`after_state`).

The keys are counted in an `int` while `number_of_keys` is an `int64` flag; the counter wraps
in time exactly when the flag fits an `int` (`counterSound_iff`). -/

namespace Treadmill

/-- `MemcachedRequest::Operation`. -/
inductive MemcachedOperation where
  | get
  | set
  | delete
deriving DecidableEq, Repr

/-- `MemcachedRequest`. -/
structure MemcachedRequest where
  type : MemcachedOperation
  key : String
  value : String := ""
deriving DecidableEq, Repr

/-- `MemcachedRequest::setValue`. -/
def MemcachedRequest.setValue (request : MemcachedRequest) (value : String) :
    MemcachedRequest :=
  { request with value := value }

/-- `Workload<MemcachedService>::State`. -/
inductive MemcachedState where
  | warmup
  | get
deriving DecidableEq, Repr

/-- `Workload<MemcachedService>`. -/
structure MemcachedWorkload where
  state : MemcachedState
  index : Int32
deriving DecidableEq

namespace MemcachedWorkload

/-- The constructor of `Workload<MemcachedService>`. -/
def new : MemcachedWorkload := ⟨.warmup, 0⟩

/-- `Workload<MemcachedService>::reset`. -/
def reset (w : MemcachedWorkload) : MemcachedWorkload := { w with index := 0 }

/-- The index of the next key: the wrap was left to this call. -/
def wrapped (numberOfKeys : Int64) (w : MemcachedWorkload) : Int32 :=
  if w.index.toInt64 = numberOfKeys then 0 else w.index

/-- `Workload<MemcachedService>::getNextRequest`, where `numberOfKeys` is the flag. -/
def getNextRequest (numberOfKeys : Int64) (w : MemcachedWorkload) :
    MemcachedRequest × MemcachedWorkload :=
  let index := w.wrapped numberOfKeys
  let key := toString index.toInt
  match w.state with
  | .warmup =>
      let state := if index.toInt64 = numberOfKeys - 1 then MemcachedState.get else .warmup
      ((MemcachedRequest.mk .set key "").setValue (toString index.toInt), ⟨state, index + 1⟩)
  | .get => (⟨.get, key, ""⟩, ⟨.get, index + 1⟩)

/-- The calls a worker makes on its workload. -/
inductive Use where
  | reset
  | getNextRequest
deriving DecidableEq, Repr

/-- What a call does to the workload. -/
def use (numberOfKeys : Int64) (w : MemcachedWorkload) : Use → MemcachedWorkload
  | .reset => w.reset
  | .getNextRequest => (w.getNextRequest numberOfKeys).2

/-- A new workload after these calls. -/
def after (numberOfKeys : Int64) (us : List Use) : MemcachedWorkload :=
  us.foldl (use numberOfKeys) new

/-- The request that follows these calls on a new workload. -/
def request (numberOfKeys : Int64) (us : List Use) : MemcachedRequest :=
  ((after numberOfKeys us).getNextRequest numberOfKeys).1

/-- The next `n` requests of a workload. -/
def requests (numberOfKeys : Int64) : ℕ → MemcachedWorkload → List MemcachedRequest
  | 0, _ => []
  | n + 1, w =>
      let (request, w') := w.getNextRequest numberOfKeys
      request :: requests numberOfKeys n w'

end MemcachedWorkload

/-- The workload as the workers use it: there is always a request. -/
def memcachedWorkload (numberOfKeys : Int64) : Workload MemcachedWorkload MemcachedRequest where
  reset := .reset
  getNextRequest _ w :=
    let (request, w') := w.getNextRequest numberOfKeys
    (some request, w')

namespace MemcachedWorkload

/-! ### What the calls say -/

/-- The number of requests since the last `reset`. -/
def streak (us : List Use) : ℕ := (sinceLast (fun u => decide (u = .reset)) us).length

/-- At some time, `n` requests were issued in a row without a `reset` in between. -/
def Warmed (n : ℕ) (us : List Use) : Prop := List.replicate n Use.getNextRequest <:+: us

instance (n : ℕ) (us : List Use) : Decidable (Warmed n us) :=
  inferInstanceAs (Decidable (_ <:+: _))

section history
variable {n : ℕ} {us : List Use}

@[simp] theorem streak_nil : streak [] = 0 := rfl

@[simp] theorem streak_reset (us : List Use) : streak (us ++ [.reset]) = 0 := by
  rw [streak, sinceLast_snoc_of_pos _ (by decide)]
  rfl

@[simp] theorem streak_getNextRequest (us : List Use) :
    streak (us ++ [.getNextRequest]) = streak us + 1 := by
  rw [streak, sinceLast_snoc_of_neg _ (by decide), List.length_append]
  rfl

theorem streak_append_replicate (us : List Use) (n : ℕ) :
    streak (us ++ List.replicate n .getNextRequest) = streak us + n := by
  induction n with
  | zero => simp
  | succ n ih =>
      rw [List.replicate_succ', ← List.append_assoc, streak_getNextRequest, ih]
      omega

theorem replicate_suffix_iff : ∀ {n : ℕ} {us : List Use},
    List.replicate n .getNextRequest <:+ us ↔ n ≤ streak us := by
  intro n us
  induction us using List.reverseRecOn generalizing n with
  | nil => simp
  | append_singleton us u ih =>
      cases n with
      | zero => simp
      | succ n =>
          rw [List.replicate_succ', List.suffix_concat_iff]
          cases u with
          | reset => simp
          | getNextRequest => simp [ih]

theorem Warmed.append (hw : Warmed n us) (vs : List Use) : Warmed n (us ++ vs) :=
  hw.trans (List.prefix_append us vs).isInfix

theorem warmed_nil (hn : 0 < n) : ¬ Warmed n [] := by
  intro hw
  have := hw.length_le
  simp at this
  omega

theorem warmed_reset (hn : 0 < n) : Warmed n (us ++ [.reset]) ↔ Warmed n us := by
  rw [Warmed, List.infix_concat_iff, replicate_suffix_iff, streak_reset]
  constructor
  · rintro (hs | hw)
    · omega
    · exact hw
  · exact Or.inr

theorem warmed_getNextRequest :
    Warmed n (us ++ [.getNextRequest]) ↔ Warmed n us ∨ n ≤ streak us + 1 := by
  rw [Warmed, List.infix_concat_iff, replicate_suffix_iff, streak_getNextRequest, or_comm]
  rfl

theorem streak_lt (hw : ¬ Warmed n us) : streak us < n := by
  by_contra hs
  exact hw (replicate_suffix_iff.mpr (by omega)).isInfix

end history

/-! ### The state after the calls -/

section machine
variable {n : ℕ} {us : List Use}

theorem after_reset (numberOfKeys : Int64) (us : List Use) :
    after numberOfKeys (us ++ [.reset]) = (after numberOfKeys us).reset := by
  rw [after, List.foldl_append]
  rfl

theorem after_getNextRequest (numberOfKeys : Int64) (us : List Use) :
    after numberOfKeys (us ++ [.getNextRequest]) =
      ((after numberOfKeys us).getNextRequest numberOfKeys).2 := by
  rw [after, List.foldl_append]
  rfl

theorem toInt_keys (h2 : n ≤ 2 ^ 31 - 1) : (Int64.ofNat n).toInt = n :=
  Int64.toInt_ofNat_of_lt (by omega)

theorem succ_mod (hn : 0 < n) (k : ℕ) :
    (k + 1) % n = if k % n + 1 = n then 0 else k % n + 1 := by
  have hlt := Nat.mod_lt k hn
  rw [← Nat.mod_add_mod]
  split_ifs with hk
  · rw [hk, Nat.mod_self]
  · exact Nat.mod_eq_of_lt (by omega)

/-- Past the last key comes the first one, at the next call. -/
theorem wrapped_succ {state : MemcachedState} {i : Int32} {k : ℕ} (h2 : n ≤ 2 ^ 31 - 1)
    (hi : i.toInt = k) (hk : k < n) :
    (wrapped (.ofNat n) ⟨state, i + 1⟩).toInt = if k + 1 = n then 0 else (k + 1 : ℤ) := by
  have hsucc : (i + 1).toInt = k + 1 := by
    rw [Int32.toInt_add, hi, show (1 : Int32).toInt = 1 from rfl,
      Int.bmod_eq_of_le (by omega) (by omega)]
  have hwrap : (i + 1).toInt64 = .ofNat n ↔ k + 1 = n := by
    rw [← Int64.toInt_inj, Int32.toInt_toInt64, hsucc, toInt_keys h2]
    omega
  simp only [wrapped, hwrap]
  split_ifs
  · rfl
  · exact hsucc

theorem after_index (h1 : 1 ≤ n) (h2 : n ≤ 2 ^ 31 - 1) (us : List Use) :
    ((after (.ofNat n) us).wrapped (.ofNat n)).toInt = (streak us % n : ℕ) := by
  induction us using List.reverseRecOn with
  | nil => simp [after, new, wrapped]
  | append_singleton us u ih =>
      cases u with
      | reset => simp [after_reset, reset, wrapped]
      | getNextRequest =>
          have hsucc : ∀ state, (wrapped (.ofNat n)
              ⟨state, (after (.ofNat n) us).wrapped (.ofNat n) + 1⟩).toInt =
              (streak (us ++ [.getNextRequest]) % n : ℕ) := by
            intro state
            rw [wrapped_succ h2 ih (Nat.mod_lt _ h1), streak_getNextRequest, succ_mod h1]
            split_ifs <;> simp
          rw [after_getNextRequest]
          unfold getNextRequest
          split
          · exact hsucc _
          · exact hsucc _

theorem after_state (h1 : 1 ≤ n) (h2 : n ≤ 2 ^ 31 - 1) (us : List Use) :
    (after (.ofNat n) us).state = .get ↔ Warmed n us := by
  induction us using List.reverseRecOn with
  | nil => simp [after, new, warmed_nil h1]
  | append_singleton us u ih =>
      cases u with
      | reset => rw [after_reset, warmed_reset h1, reset, ih]
      | getNextRequest =>
          rw [after_getNextRequest, warmed_getNextRequest]
          have hindex := after_index h1 h2 us
          unfold getNextRequest
          split
          next hstate =>
            -- the streak is shorter than the warm-up, so it has not wrapped
            have hus : ¬ Warmed n us := mt ih.mpr (by simp [hstate])
            rw [Nat.mod_eq_of_lt (streak_lt hus)] at hindex
            have hlast : ((after (.ofNat n) us).wrapped (.ofNat n)).toInt64 = .ofNat n - 1 ↔
                n ≤ streak us + 1 := by
              have hlt := streak_lt hus
              rw [← Int64.toInt_inj, Int32.toInt_toInt64, hindex, Int64.toInt_sub, toInt_keys h2,
                show (1 : Int64).toInt = 1 from rfl, Int.bmod_eq_of_le (by omega) (by omega)]
              omega
            simp [hus, hlast]
          next hstate => simp [ih.mp hstate]

/-- **The workload as a function of the calls.**  It writes the key that the streak is at
until it is warm, and reads it from then on. -/
theorem request_eq (h1 : 1 ≤ n) (h2 : n ≤ 2 ^ 31 - 1) (us : List Use) :
    (¬ Warmed n us → request (.ofNat n) us =
      ⟨.set, toString (streak us % n), toString (streak us % n)⟩) ∧
    (Warmed n us → request (.ofNat n) us = ⟨.get, toString (streak us % n), ""⟩) := by
  have hkey : toString ((after (.ofNat n) us).wrapped (.ofNat n)).toInt =
      toString (streak us % n) := by
    rw [after_index h1 h2]
    rfl
  rw [← after_state h1 h2]
  unfold request getNextRequest
  split
  next hstate => simp [hstate, hkey, MemcachedRequest.setValue]
  next hstate => simp [hstate, hkey]

/-- The first calls that make the workload warm end with a streak that starts at its
beginning or a `reset`. -/
theorem warming (h1 : 1 ≤ n) {u : Use} (hus : ¬ Warmed n us) (hw : Warmed n (us ++ [u])) :
    u = .getNextRequest ∧
      ∃ vs, streak vs = 0 ∧ us = vs ++ List.replicate (n - 1) .getNextRequest := by
  have hlt := streak_lt hus
  cases u with
  | reset => exact absurd ((warmed_reset h1).mp hw) hus
  | getNextRequest =>
      have hn : n - 1 = streak us := by
        rcases warmed_getNextRequest.mp hw with hw | hn
        · exact absurd hw hus
        · omega
      obtain ⟨vs, hvs⟩ := replicate_suffix_iff.mpr (le_of_eq hn)
      have hstreak := streak_append_replicate vs (n - 1)
      rw [hvs] at hstreak
      exact ⟨rfl, vs, by omega, hvs.symm⟩

theorem written (h1 : 1 ≤ n) (h2 : n ≤ 2 ^ 31 - 1) {k : ℕ} (hk : k < n) (hw : Warmed n us) :
    ∃ vs ws, us = vs ++ .getNextRequest :: ws ∧
      request (.ofNat n) vs = ⟨.set, toString k, toString k⟩ := by
  induction us using List.reverseRecOn with
  | nil => exact absurd hw (warmed_nil h1)
  | append_singleton us u ih =>
      by_cases hus : Warmed n us
      · obtain ⟨vs, ws, rfl, hset⟩ := ih hus
        exact ⟨vs, ws ++ [u], by simp, hset⟩
      · obtain ⟨rfl, vs, hvs, rfl⟩ := warming h1 hus hw
        have hsplit : List.replicate (n - 1) Use.getNextRequest ++ [.getNextRequest] =
            List.replicate k .getNextRequest ++
              .getNextRequest :: List.replicate (n - 1 - k) .getNextRequest := by
          rw [← List.replicate_succ', ← List.replicate_succ, List.replicate_append_replicate]
          congr 1
          omega
        have hk' : streak (vs ++ List.replicate k .getNextRequest) = k := by
          rw [streak_append_replicate, hvs, Nat.zero_add]
        have hcold : ¬ Warmed n (vs ++ List.replicate k .getNextRequest) := by
          intro hw'
          have hwarm := hw'.append (List.replicate (n - 1 - k) .getNextRequest)
          rw [List.append_assoc, List.replicate_append_replicate,
            Nat.add_sub_cancel' (by omega)] at hwarm
          exact hus hwarm
        have hset := (request_eq h1 h2 _).1 hcold
        rw [hk', Nat.mod_eq_of_lt hk] at hset
        refine ⟨_, List.replicate (n - 1 - k) .getNextRequest, ?_, hset⟩
        rw [List.append_assoc, hsplit, List.append_assoc]

/-- **Every key is written before it is read.**  The `j`-th request since the last `reset`
has the key `j` modulo the number of keys; the requests are writes until `n` of them were
issued in a row, and reads from then on, each of a key that was written. -/
theorem writes_then_reads (h1 : 1 ≤ n) (h2 : n ≤ 2 ^ 31 - 1) (us : List Use) :
    (request (.ofNat n) us).key = toString (streak us % n) ∧
    (¬ Warmed n us → (request (.ofNat n) us).type = .set ∧
      (request (.ofNat n) us).value = (request (.ofNat n) us).key) ∧
    (Warmed n us → (request (.ofNat n) us).type = .get) ∧
    ((request (.ofNat n) us).type = .get → ∃ vs ws, us = vs ++ .getNextRequest :: ws ∧
      (request (.ofNat n) vs).type = .set ∧
      (request (.ofNat n) vs).key = (request (.ofNat n) us).key) := by
  obtain ⟨hcold, hwarm⟩ := request_eq h1 h2 us
  by_cases hw : Warmed n us
  · have hr := hwarm hw
    obtain ⟨vs, ws, hus, hset⟩ := written h1 h2 (Nat.mod_lt (streak us) h1) hw
    rw [hr]
    exact ⟨rfl, fun h => absurd hw h, fun _ => rfl, fun _ => ⟨vs, ws, hus, by simp [hset]⟩⟩
  · have hr := hcold hw
    rw [hr]
    exact ⟨rfl, fun _ => ⟨rfl, rfl⟩, fun h => absurd h hw, fun h => by cases h⟩

theorem writes_then_reads_two_keys :
    (request (.ofNat 2) [.getNextRequest, .reset, .getNextRequest]).type = .set ∧
    (request (.ofNat 2) [.getNextRequest, .getNextRequest, .getNextRequest, .reset]).type =
      .get := by
  have hcold := (writes_then_reads (n := 2) (by decide) (by decide)
    [.getNextRequest, .reset, .getNextRequest]).2.1 (by decide)
  have hwarm := (writes_then_reads (n := 2) (by decide) (by decide)
    [.getNextRequest, .getNextRequest, .getNextRequest, .reset]).2.2.1 (by decide)
  exact ⟨hcold.1, hwarm⟩

/-! ### Two sides -/

/-- **A `reset` brings two workloads in step exactly when both are warm or neither is.** -/
theorem in_step_iff_equally_warm (h1 : 1 ≤ n) (h2 : n ≤ 2 ^ 31 - 1) (us vs : List Use) :
    (∀ k, requests (.ofNat n) k (after (.ofNat n) us).reset =
      requests (.ofNat n) k (after (.ofNat n) vs).reset) ↔ (Warmed n us ↔ Warmed n vs) := by
  rw [← after_state h1 h2 us, ← after_state h1 h2 vs]
  unfold reset
  constructor
  · intro hk
    have h := hk 1
    cases hu : (after (.ofNat n) us).state <;> cases hv : (after (.ofNat n) vs).state <;>
      simp_all [requests, getNextRequest, MemcachedRequest.setValue]
  · intro hw k
    have hstate : (after (.ofNat n) us).state = (after (.ofNat n) vs).state := by
      cases hu : (after (.ofNat n) us).state <;> cases hv : (after (.ofNat n) vs).state <;>
        simp_all
    rw [hstate]

theorem in_step_iff_equally_warm_two_keys :
    requests (.ofNat 2) 3 (after (.ofNat 2) [.getNextRequest]).reset =
      requests (.ofNat 2) 3 (after (.ofNat 2) [.reset]).reset :=
  (in_step_iff_equally_warm (n := 2) (by decide) (by decide) [.getNextRequest] [.reset]).mpr
    (by decide) 3

/-- A side that finished its warm-up and one that did not stay different. -/
theorem sides_differ_after_reset :
    ¬ ∀ us vs : List Use, ∀ k, requests (.ofNat 2) k (after (.ofNat 2) us).reset =
      requests (.ofNat 2) k (after (.ofNat 2) vs).reset := by
  intro h
  have := h [.getNextRequest, .getNextRequest] [.getNextRequest] 1
  revert this
  decide +kernel

end machine

/-! ### The counter of the keys -/

/-- The keys of the next `n` requests of a workload. -/
def keys (numberOfKeys : Int64) (n : ℕ) (w : MemcachedWorkload) : List String :=
  (requests numberOfKeys n w).map MemcachedRequest.key

/-- `index_` has room for every `++index_`, every key is below `number_of_keys`, and in
`number_of_keys` requests that follow a `reset` every key occurs once. -/
structure CounterSound (numberOfKeys : Int64) : Prop where
  noOverflow : ∀ us, ((after numberOfKeys us).wrapped numberOfKeys).toInt + 1 ≤ 2 ^ 31 - 1
  inRange : ∀ us, ∃ k : ℕ, k < numberOfKeys.toInt ∧ (request numberOfKeys us).key = toString k
  once : ∀ us, ∀ k : ℕ, k < numberOfKeys.toInt →
    (keys numberOfKeys numberOfKeys.toInt.toNat (after numberOfKeys us).reset).count
      (toString k) = 1

section counter
variable {numberOfKeys : Int64} {n : ℕ}

theorem toString_injective : Function.Injective (toString : ℕ → String) := by
  have hinv : Function.LeftInverse (fun s : String => Nat.ofDigitChars 10 s.toList 0)
      (toString : ℕ → String) := by
    intro k
    show Nat.ofDigitChars 10 (String.ofList (Nat.toDigits 10 k)).toList 0 = k
    rw [String.toList_ofList, Nat.ofDigitChars_ten_toDigits]
  exact hinv.injective

theorem request_key (h1 : 1 ≤ n) (h2 : n ≤ 2 ^ 31 - 1) (us : List Use) :
    (request (.ofNat n) us).key = toString (streak us % n) := by
  obtain ⟨hcold, hwarm⟩ := request_eq h1 h2 us
  by_cases hw : Warmed n us
  · rw [hwarm hw]
  · rw [hcold hw]

theorem keys_after (numberOfKeys : Int64) (m : ℕ) (us : List Use) :
    keys numberOfKeys m (after numberOfKeys us) = (List.range m).map fun j =>
      (request numberOfKeys (us ++ List.replicate j .getNextRequest)).key := by
  induction m generalizing us with
  | zero => rfl
  | succ m ih =>
      have hkeys : keys numberOfKeys (m + 1) (after numberOfKeys us) =
          (request numberOfKeys us).key ::
            keys numberOfKeys m (after numberOfKeys (us ++ [.getNextRequest])) := by
        rw [after_getNextRequest]
        rfl
      rw [hkeys, ih, List.range_succ_eq_map, List.map_cons, List.map_map]
      simp [Function.comp_def, List.replicate_succ]

/-- A round of keys that fits the counter has every key once, in order. -/
theorem keys_reset (h1 : 1 ≤ n) (h2 : n ≤ 2 ^ 31 - 1) (us : List Use) :
    keys (.ofNat n) n (after (.ofNat n) us).reset = (List.range n).map toString := by
  rw [← after_reset, keys_after]
  apply List.map_congr_left
  intro j hj
  have hstreak : streak (us ++ [.reset] ++ List.replicate j .getNextRequest) = j := by
    rw [streak_append_replicate, streak_reset, Nat.zero_add]
  rw [request_key h1 h2, hstreak, Nat.mod_eq_of_lt (List.mem_range.mp hj)]

theorem index_getNextRequest (numberOfKeys : Int64) (w : MemcachedWorkload) :
    (w.getNextRequest numberOfKeys).2.index = w.wrapped numberOfKeys + 1 := by
  unfold getNextRequest
  split <;> rfl

theorem wrapped_of_le (hK : 2 ^ 31 ≤ numberOfKeys.toInt) (w : MemcachedWorkload) :
    w.wrapped numberOfKeys = w.index := by
  have hne : w.index.toInt64 ≠ numberOfKeys := by
    intro he
    have hlt := w.index.toInt_lt
    rw [← he, Int32.toInt_toInt64] at hK
    omega
  exact if_neg hne

theorem after_replicate (hK : 2 ^ 31 ≤ numberOfKeys.toInt) {j : ℕ} (hj : j ≤ 2 ^ 31 - 1) :
    ((after numberOfKeys (List.replicate j .getNextRequest)).wrapped numberOfKeys).toInt = j := by
  induction j with
  | zero =>
      rw [wrapped_of_le hK]
      rfl
  | succ j ih =>
      have ih := ih (by omega)
      rw [wrapped_of_le hK, List.replicate_succ', after_getNextRequest, index_getNextRequest,
        Int32.toInt_add, ih, show (1 : Int32).toInt = 1 from rfl,
        Int.bmod_eq_of_le (by omega) (by omega)]
      rfl

theorem counterSound_of_le (h1 : 1 ≤ n) (h2 : n ≤ 2 ^ 31 - 1) : CounterSound (.ofNat n) where
  noOverflow us := by
    rw [after_index h1 h2]
    have := Nat.mod_lt (streak us) h1
    omega
  inRange us := by
    refine ⟨streak us % n, ?_, request_key h1 h2 us⟩
    rw [toInt_keys h2]
    exact_mod_cast Nat.mod_lt _ h1
  once us k hk := by
    rw [toInt_keys h2] at hk ⊢
    rw [Int.toNat_natCast, keys_reset h1 h2, List.count_map_of_injective _ _ toString_injective,
      List.count_range, if_pos (by exact_mod_cast hk)]

/-- **The counter is sound exactly for the bounds that an `int` can hold.** -/
theorem counterSound_iff (hK : 1 ≤ numberOfKeys.toInt) :
    CounterSound numberOfKeys ↔ numberOfKeys.toInt ≤ 2 ^ 31 - 1 := by
  constructor
  · intro hs
    by_contra hlt
    have hfit := hs.noOverflow (List.replicate (2 ^ 31 - 1) .getNextRequest)
    rw [after_replicate (by omega) le_rfl] at hfit
    omega
  · intro hle
    obtain ⟨n, hn⟩ := Int.eq_ofNat_of_zero_le (show 0 ≤ numberOfKeys.toInt by omega)
    have he : numberOfKeys = .ofNat n := by
      rw [← Int64.toInt_inj, hn, toInt_keys (by omega)]
    rw [he]
    exact counterSound_of_le (by omega) (by omega)

theorem counterSound_iff_two_keys : CounterSound 2 :=
  (counterSound_iff (by decide)).mpr (by decide)

/-- With `2 ^ 31` keys the increment of the `2 ^ 31`-th request overflows. -/
theorem counter_overflows :
    ((after 2147483648 (List.replicate (2 ^ 31 - 1) .getNextRequest)).wrapped 2147483648).toInt =
      2 ^ 31 - 1 ∧
    ¬ CounterSound 2147483648 := by
  have hindex : ((after 2147483648 (List.replicate (2 ^ 31 - 1) .getNextRequest)).wrapped
      2147483648).toInt = 2 ^ 31 - 1 := after_replicate (by decide) le_rfl
  refine ⟨hindex, fun hs => ?_⟩
  have hfit := hs.noOverflow (List.replicate (2 ^ 31 - 1) .getNextRequest)
  rw [hindex] at hfit
  omega

end counter

end MemcachedWorkload

end Treadmill
