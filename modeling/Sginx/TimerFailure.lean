import Sginx.TimerHistory
import Sginx.PriorityQueueFailure

namespace Sginx.Timer

open Sginx.PriorityQueue Sginx.Library.ImplicitHeap

def sizeofTimerNode : ℕ := 32

/-- `sgx_timer_add` from its `malloc` on. That the node is `NULL` is logged, and then the node is
written to all the same. -/
def sgxTimerAddMalloc (s : Timers) (node : Option Unit) (request timeout : ℕ)
    (handler : Option ℕ) (now : ℕ) (mem : Option (ℕ → ℕ)) : Option (ℤ × Timers) :=
  match malloc sizeofTimerNode node with
  | none => none
  | some _ => sgxTimerAdd s request timeout handler now mem

def addedNode (request timeout : ℕ) (handler : Option ℕ) (now : ℕ) : SgxTimerNode :=
  { key := sizeAdd now timeout, del := 0, handler := handler, request := request }

def addedNodes (s : Timers) (node : SgxTimerNode) : ℕ → SgxTimerNode :=
  Function.update s.nodes s.next node

def addedTimers (s : Timers) (request timeout : ℕ) (handler : Option ℕ) (now : ℕ)
    (q : SgxPriorityQueue ℕ) : Timers :=
  { s with
    nodes := addedNodes s (addedNode request timeout handler now)
    next := s.next + 1
    sgxTimerQ := q
    sgxCurrentMsec := now
    timer := Function.update s.timer request (some s.next) }

theorem sgxTimerAdd_eq (s : Timers) (request timeout : ℕ) (handler : Option ℕ) (now : ℕ)
    (mem : Option (ℕ → ℕ)) : sgxTimerAdd s request timeout handler now mem =
      (sgxPriorityQueuePush (timerCmp (addedNodes s (addedNode request timeout handler now)))
        s.sgxTimerQ s.next mem).map fun r =>
          (r.1, addedTimers s request timeout handler now r.2) := by
  rw [Option.map_eq_bind]
  rfl

theorem add_of_growFails {s : Timers} {mem : Option (ℕ → ℕ)} (h : GrowFails s.sgxTimerQ mem)
    (request timeout : ℕ) (handler : Option ℕ) (now : ℕ) :
    sgxTimerAdd s request timeout handler now mem =
      some (-1, addedTimers s request timeout handler now s.sgxTimerQ) := by
  rw [sgxTimerAdd_eq, push_of_growFails _ h]
  rfl

theorem add_of_grows {s : Timers} (hw : QueueWf s.sgxTimerQ) {mem : Option (ℕ → ℕ)}
    (h : ¬ GrowFails s.sgxTimerQ mem) (request timeout : ℕ) (handler : Option ℕ) (now : ℕ) :
    ∃ q, (q.size = s.sgxTimerQ.size ∧ ∀ i ≤ s.sgxTimerQ.size, q.node i = s.sgxTimerQ.node i) ∧
      sgxTimerAdd s request timeout handler now mem = some (sgxOk,
        addedTimers s request timeout handler now (inserted
          (timerCmp (addedNodes s (addedNode request timeout handler now))) q s.next)) := by
  rw [sgxTimerAdd_eq]
  rcases push_cases (timerCmp (addedNodes s (addedNode request timeout handler now))) hw s.next mem
    with hpush | ⟨q, hpush, -, hsize, hnode⟩
  · exact absurd ((push_fails_iff _ hpush).mp rfl) h
  · refine ⟨q, ⟨hsize, hnode⟩, ?_⟩
    rw [hpush]
    rfl

def WholeAdd (s s' : Timers) (request : ℕ) : Prop :=
  s.next ∈ stored s'.sgxTimerQ ∧ s'.timer request = some s.next ∨
    stored s'.sgxTimerQ = stored s.sgxTimerQ ∧ s'.timer request = s.timer request

theorem failed_push_is_half_add {t : TimerTrace} (h : Recorded t) (request timeout : ℕ)
    (handler : Option ℕ) (now : ℕ) : ¬ WholeAdd t.timers
      (addedTimers t.timers request timeout handler now t.timers.sgxTimerQ) request := by
  rintro (⟨hqueued, -⟩ | ⟨-, htimer⟩)
  · exact absurd (h.below _ hqueued) (Nat.lt_irrefl _)
  · -- the link that the request had names an older node
    have hnew : t.timers.timer request = some t.timers.next := by
      rw [← htimer]
      exact Function.update_self _ _ _
    exact absurd (h.timer _ _ hnew) (Nat.lt_irrefl _)

theorem failed_add_leaves_nothing_iff {t : TimerTrace} (h : TimerMoment t) (node : Option Unit)
    (request timeout : ℕ) (handler : Option ℕ) (now : ℕ) (mem : Option (ℕ → ℕ)) :
    (∃ result s, sgxTimerAddMalloc t.timers node request timeout handler now mem =
        some (result, s) ∧ WholeAdd t.timers s request) ↔
      node.isSome ∧ ¬ GrowFails t.timers.sgxTimerQ mem := by
  obtain ⟨hw, hrecorded⟩ := h.sound recorded_closed fun _ _ _ _ hinit => recorded_init hinit
  cases node with
  | none =>
    constructor
    · rintro ⟨result, s, hadd, -⟩
      cases hadd
    · rintro ⟨hsome, -⟩
      cases hsome
  | some _ =>
    have hmalloc : sgxTimerAddMalloc t.timers (some ()) request timeout handler now mem =
        sgxTimerAdd t.timers request timeout handler now mem := rfl
    simp only [hmalloc, Option.isSome_some, true_and]
    constructor
    · rintro ⟨result, s, hadd, hwhole⟩ hfails
      rw [add_of_growFails hfails, Option.some.injEq, Prod.mk.injEq] at hadd
      obtain ⟨-, rfl⟩ := hadd
      exact failed_push_is_half_add hrecorded request timeout handler now hwhole
    · intro hgrows
      obtain ⟨q, ⟨hsize, hnode⟩, hadd⟩ := add_of_grows hw hgrows request timeout handler now
      refine ⟨sgxOk, _, hadd, .inl ⟨?_, ?_⟩⟩
      · have hstored := inserted_stored
          (timerCmp (addedNodes t.timers (addedNode request timeout handler now))) hsize hnode
          t.timers.next
        simp only [addedTimers, hstored]
        exact Multiset.mem_cons_self _ _
      · exact Function.update_self _ _ _

theorem failed_add_leaves_nothing_iff_first_timer : ∃ t, TimerMoment t ∧
    ∃ result s, sgxTimerAddMalloc t.timers (some ()) 0 5 (some 0) 0 none = some (result, s) ∧
      WholeAdd t.timers s 0 := by
  have hrun := TimerMoment.between (TraceRun.init (Eq.refl
    (sgxTimerInit (fun _ => ⟨0, 0, none, 0⟩) 0 (some fun _ => 0))))
  refine ⟨_, hrun, (failed_add_leaves_nothing_iff hrun (some ()) 0 5 (some 0) 0 none).mpr
    ⟨rfl, ?_⟩⟩
  rintro ⟨hfull, -⟩
  exact absurd hfull (by decide)

theorem failed_add_leaves_a_link : ∃ t, TimerMoment t ∧ t.timers.timer 9 = none ∧
    ∃ s, sgxTimerAddMalloc t.timers (some ()) 9 5 (some 0) 0 none = some (-1, s) ∧
      s.timer 9 = some 9 ∧ s.sgxTimerQ.size = 9 ∧ ¬ WholeAdd t.timers s 9 := by
  have hrun := TimerMoment.between ((TraceRun.init (Eq.refl
    (sgxTimerInit (fun _ => ⟨0, 0, none, 0⟩) 0 (some fun _ => 0)))).script
      ((List.range 9).map fun r => .add r 5 (some 0) 0 none) rfl)
  have hrecorded := (hrun.sound recorded_closed fun _ _ _ _ hinit => recorded_init hinit).2
  exact ⟨_, hrun, rfl, _, rfl, rfl, rfl, failed_push_is_half_add hrecorded 9 5 (some 0) 0⟩

end Sginx.Timer
