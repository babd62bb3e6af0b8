import Treadmill.Memcached
import Treadmill.Requests

/-! # The requests of a memcached test

`MemcachedWorkload` inside the running system.  A worker's workload is in the state that its own
calls left it in, and what goes to the connections is what the workload gave for these calls
(`Worker.Replays`); so in every interleaving each worker writes every key before it reads one, and
the workload never ends the test (`memcached_requests`). -/

namespace Treadmill

open MemcachedWorkload (Use)

namespace Effect

variable {ρ : Type}

/-- The call on the workload that an effect is. -/
def use : Effect ρ → Option Use
  | .reset => some .reset
  | .getNextRequest => some .getNextRequest
  | _ => none

/-- The request that an effect hands to a connection. -/
def request : Effect ρ → Option ρ
  | .sendRequest _ request => some request
  | _ => none

end Effect

namespace Worker

/-! ### The calls on a workload -/

section calls
variable {ω ρ : Type} {W : Workload ω ρ} {w w' : Worker ω} {es : List (Effect ρ)}

/-- No call on the workload, nothing for a connection, and no end of the run. -/
structure Leaves (w w' : Worker ω) (es : List (Effect ρ)) : Prop where
  workload : w'.workload = w.workload
  uses : es.filterMap Effect.use = []
  requests : es.filterMap Effect.request = []
  terminates : es.countP Effect.isTerminate = 0

/-- One request is asked for, and handed to a connection. -/
structure Hands (W : Workload ω ρ) (w w' : Worker ω) (es : List (Effect ρ)) (request : ρ) :
    Prop where
  workload : W.getNextRequest w.phase w.workload = (some request, w'.workload)
  uses : es.filterMap Effect.use = [.getNextRequest]
  requests : es.filterMap Effect.request = [request]
  terminates : es.countP Effect.isTerminate = 0

theorem complete_leaves (h : Confined Effect.isContinued w w' es) : Leaves w w' es where
  workload := h.workload
  uses := h.filterMap_eq_nil fun e he => by cases e <;> first | rfl | cases he
  requests := h.filterMap_eq_nil fun e he => by cases e <;> first | rfl | cases he
  terminates := h.countP_eq_zero fun e he => by cases e <;> first | rfl | cases he

theorem estimate_leaves {t : ℤ} (h : w.estimate t = (w', es)) : Leaves w w' es := by
  obtain ⟨hc, -⟩ := estimate_confined h
  constructor
  · exact hc.workload
  · exact hc.filterMap_eq_nil fun e he => by cases e <;> first | rfl | cases he
  · exact hc.filterMap_eq_nil fun e he => by cases e <;> first | rfl | cases he
  · exact hc.countP_eq_zero fun e he => by cases e <;> first | rfl | cases he

/-- `sendRequest` asks for a request and hands it to a connection, or ends the run, or does
neither. -/
theorem sendRequest_workload {env : SendEnv} (h : w.sendRequest W env = some (w', es)) :
    Leaves w w' es ∨ (∃ request, Hands W w w' es request) ∨
      W.getNextRequest w.phase w.workload = (none, w'.workload) := by
  unfold sendRequest at h
  split_ifs at h with hm
  · split at h
    · rename_i workload hnext
      cases h
      exact Or.inr (Or.inr hnext)
    · rename_i request workload hnext
      obtain ⟨⟨w₁, es₁⟩, hc, he⟩ := Option.map_eq_some_iff.mp h
      obtain ⟨⟨w₂, es₂⟩, hest⟩ : ∃ p, w₁.estimate (ρ := ρ) env.now = p := ⟨_, rfl⟩
      have hfirst := complete_leaves (completeAll_confined hc)
      have hlast := estimate_leaves hest
      dsimp only at he
      rw [hest] at he
      cases he
      refine Or.inr (Or.inl ⟨request, ?_, ?_, ?_, ?_⟩)
      · rw [hlast.workload, hfirst.workload]
        exact hnext
      · change Use.getNextRequest :: (es₁ ++ es₂).filterMap Effect.use = _
        rw [List.filterMap_append, hfirst.uses, hlast.uses, List.append_nil]
      · change request :: (es₁ ++ es₂).filterMap Effect.request = _
        rw [List.filterMap_append, hfirst.requests, hlast.requests, List.append_nil]
      · change (es₁ ++ es₂).countP Effect.isTerminate = 0
        rw [List.countP_append, hfirst.terminates, hlast.terminates]
  · exact Or.inl (estimate_leaves (Option.some.inj h))

theorem step_workload {inp : Input} (h : w.step W inp = some (w', es)) :
    Leaves w w' es ∨ (w'.workload = W.reset w.workload ∧ es = [.reset]) ∨
      (∃ request, Hands W w w' es request) ∨
      W.getNextRequest w.phase w.workload = (none, w'.workload) := by
  cases inp with
  | completion c => exact Or.inl (complete_leaves (complete_confined h))
  | stop =>
      cases h
      exact Or.inl ⟨rfl, rfl, rfl, rfl⟩
  | message event env =>
      obtain ⟨-, h⟩ := Option.ite_none_right_eq_some.mp h
      unfold messageAvailable at h
      split_ifs at h with hstop
      · cases h
        exact Or.inl ⟨rfl, rfl, rfl, rfl⟩
      · obtain ⟨eventType, extraData⟩ := event
        cases eventType with
        | sendRequest => exact (sendRequest_workload h).imp_right Or.inr
        | setMaxOutstanding =>
            cases extraData <;> cases h <;> exact Or.inl ⟨rfl, rfl, rfl, rfl⟩
        | setPhase =>
            cases extraData <;> cases h <;> exact Or.inl ⟨rfl, rfl, rfl, rfl⟩
        | stop => exact absurd (Or.inl rfl) hstop
        | reset =>
            cases h
            exact Or.inr (Or.inl ⟨rfl, rfl⟩)

end calls

end Worker

/-! ### The requests that the calls give -/

namespace MemcachedWorkload

variable {numberOfKeys : Int64} {us vs : List Use} {n : ℕ}

/-- The requests that a workload gives for these calls. -/
def issuedFrom (numberOfKeys : Int64) : MemcachedWorkload → List Use → List MemcachedRequest
  | _, [] => []
  | w, .reset :: us => issuedFrom numberOfKeys w.reset us
  | w, .getNextRequest :: us =>
      let (request, w') := w.getNextRequest numberOfKeys
      request :: issuedFrom numberOfKeys w' us

/-- The requests that a new workload gives for these calls. -/
def issued (numberOfKeys : Int64) (us : List Use) : List MemcachedRequest :=
  issuedFrom numberOfKeys new us

theorem issuedFrom_append (w : MemcachedWorkload) (us vs : List Use) :
    issuedFrom numberOfKeys w (us ++ vs) = issuedFrom numberOfKeys w us ++
      issuedFrom numberOfKeys (us.foldl (use numberOfKeys) w) vs := by
  induction us generalizing w with
  | nil => rfl
  | cons u us ih =>
      cases u with
      | reset => exact ih _
      | getNextRequest =>
          simp only [List.cons_append, issuedFrom, List.foldl_cons]
          rw [ih]
          rfl

theorem issued_reset (us : List Use) :
    issued numberOfKeys (us ++ [.reset]) = issued numberOfKeys us := by
  rw [issued, issuedFrom_append]
  exact List.append_nil _

theorem issued_getNextRequest (us : List Use) :
    issued numberOfKeys (us ++ [.getNextRequest]) =
      issued numberOfKeys us ++ [request numberOfKeys us] := by
  rw [issued, issuedFrom_append]
  rfl

theorem request_mem_issued (us vs : List Use) :
    request numberOfKeys us ∈ issued numberOfKeys (us ++ .getNextRequest :: vs) := by
  rw [issued, issuedFrom_append]
  exact List.mem_append_right _ List.mem_cons_self

/-- Each request issued is the one that follows the calls before it. -/
theorem issued_eq_append {l k : List MemcachedRequest} {r : MemcachedRequest}
    (h : issued numberOfKeys us = l ++ r :: k) :
    ∃ vs ws, us = vs ++ .getNextRequest :: ws ∧ l = issued numberOfKeys vs ∧
      r = request numberOfKeys vs := by
  induction us using List.reverseRecOn generalizing k with
  | nil => simp [issued, issuedFrom] at h
  | append_singleton us u ih =>
      cases u with
      | reset =>
          rw [issued_reset] at h
          obtain ⟨vs, ws, rfl, hl, hr⟩ := ih h
          exact ⟨vs, ws ++ [.reset], by simp, hl, hr⟩
      | getNextRequest =>
          rw [issued_getNextRequest] at h
          cases k using List.reverseRecOn with
          | nil =>
              obtain ⟨hl, hr⟩ := List.append_inj' h rfl
              exact ⟨us, [], rfl, hl.symm, (List.singleton_inj.mp hr).symm⟩
          | append_singleton k r' =>
              rw [← List.cons_append, ← List.append_assoc] at h
              obtain ⟨vs, ws, rfl, hl, hr⟩ := ih (List.append_inj' h rfl).1
              exact ⟨vs, ws ++ [.getNextRequest], by simp, hl, hr⟩

/-- A request issued writes its own key, or reads a key that was written before. -/
theorem issued_ordered (h1 : 1 ≤ n) (h2 : n ≤ 2 ^ 31 - 1) {l k : List MemcachedRequest}
    {r : MemcachedRequest} (h : issued (.ofNat n) us = l ++ r :: k) :
    ∃ key < n, r = ⟨.set, toString key, toString key⟩ ∨
      (r = ⟨.get, toString key, ""⟩ ∧ ⟨.set, toString key, toString key⟩ ∈ l) := by
  obtain ⟨vs, ws, rfl, rfl, rfl⟩ := issued_eq_append h
  obtain ⟨hcold, hwarm⟩ := request_eq h1 h2 vs
  have hlt := Nat.mod_lt (streak vs) h1
  refine ⟨streak vs % n, hlt, ?_⟩
  by_cases hw : Warmed n vs
  · obtain ⟨as, bs, rfl, hset⟩ := written h1 h2 hlt hw
    refine Or.inr ⟨hwarm hw, ?_⟩
    rw [← hset]
    exact request_mem_issued as bs
  · exact Or.inl (hcold hw)

end MemcachedWorkload

/-! ### The workers of the system -/

namespace Worker

/-- The workload and the requests handed to the connections are what the calls give. -/
structure Replays (numberOfKeys : Int64) (w : Worker MemcachedWorkload)
    (es : List (Effect MemcachedRequest)) : Prop where
  workload : w.workload = MemcachedWorkload.after numberOfKeys (es.filterMap Effect.use)
  requests : es.filterMap Effect.request =
    MemcachedWorkload.issued numberOfKeys (es.filterMap Effect.use)
  terminates : es.countP Effect.isTerminate = 0

theorem step_replays {numberOfKeys : Int64} {w w' : Worker MemcachedWorkload}
    {es es' : List (Effect MemcachedRequest)} {inp : Input} (hw : Replays numberOfKeys w es)
    (h : w.step (memcachedWorkload numberOfKeys) inp = some (w', es')) :
    Replays numberOfKeys w' (es ++ es') := by
  rcases step_workload h with hl | ⟨hwl, rfl⟩ | ⟨request, hh⟩ | hnone
  · constructor
    · rw [List.filterMap_append, hl.uses, List.append_nil, hl.workload]
      exact hw.workload
    · rw [List.filterMap_append, List.filterMap_append, hl.uses, hl.requests, List.append_nil,
        List.append_nil]
      exact hw.requests
    · rw [List.countP_append, hw.terminates, hl.terminates]
  · constructor
    · rw [List.filterMap_append]
      change _ = MemcachedWorkload.after numberOfKeys (_ ++ [.reset])
      rw [MemcachedWorkload.after_reset, ← hw.workload]
      exact hwl
    · rw [List.filterMap_append, List.filterMap_append]
      change _ ++ [] = MemcachedWorkload.issued numberOfKeys (_ ++ [.reset])
      rw [MemcachedWorkload.issued_reset, List.append_nil]
      exact hw.requests
    · rw [List.countP_append, hw.terminates]
      rfl
  · obtain ⟨hrequest, hwl⟩ := Prod.mk.inj hh.workload
    rw [hw.workload] at hrequest hwl
    constructor
    · rw [List.filterMap_append, hh.uses, MemcachedWorkload.after_getNextRequest]
      exact hwl.symm
    · rw [List.filterMap_append, List.filterMap_append, hh.uses, hh.requests,
        MemcachedWorkload.issued_getNextRequest, hw.requests, ← Option.some.inj hrequest]
      rfl
    · rw [List.countP_append, hw.terminates, hh.terminates]
  · cases (Prod.mk.inj hnone).1

theorem run_replays {numberOfKeys : Int64} {w w' : Worker MemcachedWorkload}
    {es es' : List (Effect MemcachedRequest)} {ins : List Input} (hw : Replays numberOfKeys w es)
    (hr : (lts (memcachedWorkload numberOfKeys)).run (w, es) ins = some (w', es')) :
    Replays numberOfKeys w' es' := by
  refine Lts.invariant (m := lts (memcachedWorkload numberOfKeys))
    (P := fun s : Worker MemcachedWorkload × List (Effect MemcachedRequest) =>
      Replays numberOfKeys s.1 s.2) ?_ hw hr
  rintro ⟨u, us⟩ inp ⟨u', _⟩ hu hs
  obtain ⟨⟨u'', es'⟩, hstep, he⟩ := Option.map_eq_some_iff.mp hs
  cases he
  exact step_replays hu hstep

end Worker

section runs
variable {S : Setup} {clock : ℤ} {h : History} {s : System MemcachedWorkload} {n : ℕ}

/-- **Every worker writes its keys before it reads them.**  In every run of a memcached test a
worker hands its connections what its workload gives for the calls made on it, which are in turn
the keys below `n`; a request that reads a key comes after one of the same worker that wrote it;
and no workload ends the test. -/
theorem memcached_requests (h1 : 1 ≤ n) (h2 : n ≤ 2 ^ 31 - 1)
    (hr : Reaches S (memcachedWorkload (.ofNat n)) .new clock h s) (i : ℕ) :
    ∃ es,
      (Worker.lts (memcachedWorkload (.ofNat n))).run
        (((start S MemcachedWorkload.new clock).mem).workers i, []) (inputs i h) =
          some (s.mem.workers i, es) ∧
      es.filterMap Effect.request =
        MemcachedWorkload.issued (.ofNat n) (es.filterMap Effect.use) ∧
      (∀ l r k, es.filterMap Effect.request = l ++ r :: k → ∃ key < n,
        r = ⟨.set, toString key, toString key⟩ ∨
          (r = ⟨.get, toString key, ""⟩ ∧ ⟨.set, toString key, toString key⟩ ∈ l)) ∧
      es.countP Effect.isTerminate = 0 := by
  obtain ⟨es, hw⟩ := run_worker hr i
  have hreplays : Worker.Replays (.ofNat n) (s.mem.workers i) es :=
    Worker.run_replays ⟨rfl, rfl, rfl⟩ hw
  refine ⟨es, hw, hreplays.requests, ?_, hreplays.terminates⟩
  intro l r k hl
  rw [hreplays.requests] at hl
  exact MemcachedWorkload.issued_ordered h1 h2 hl

/-- One worker with one key: the key is written, then read. -/
def writeAndRead : History :=
  opening ++ round 2 ++ round 3 ++
    ([(.worker 0, .work 0 (.message .reset {}) false),
      (.worker 0, .work 0 (.message .sendRequest {}) false),
      (.worker 0, .work 0 (.message .sendRequest {}) false)] : History)

theorem memcached_requests_writeAndRead :
    ∃ s, Reaches (defaults 1) (memcachedWorkload (.ofNat 1)) .new 1 writeAndRead s ∧
      ∃ es : List (Effect MemcachedRequest),
        (Worker.lts (memcachedWorkload (.ofNat 1))).run
          (((start (defaults 1) MemcachedWorkload.new 1).mem).workers 0, [])
          (inputs 0 writeAndRead) = some (s.mem.workers 0, es) ∧
        es.filterMap Effect.request =
          MemcachedWorkload.issued (.ofNat 1) (es.filterMap Effect.use) ∧
        (∀ l r k, es.filterMap Effect.request = l ++ r :: k → ∃ key < 1,
          r = ⟨.set, toString key, toString key⟩ ∨
            (r = ⟨.get, toString key, ""⟩ ∧ ⟨.set, toString key, toString key⟩ ∈ l)) ∧
        es.countP Effect.isTerminate = 0 := by
  have hrun : ((system (defaults 1) (memcachedWorkload (.ofNat 1))).run
      (start (defaults 1) .new 1) writeAndRead).isSome = true := by
    decide +kernel
  obtain ⟨s, hr⟩ := Option.isSome_iff_exists.mp hrun
  exact ⟨s, hr, memcached_requests (by decide) (by decide) hr 0⟩

end runs

end Treadmill
