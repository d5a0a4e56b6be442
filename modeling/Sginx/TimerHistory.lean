import Sginx.TimerTrace

namespace Sginx.Timer

open Sginx.PriorityQueue Sginx.Library.History

def TimerEvent.firedNode : TimerEvent → Option ℕ
  | .fired node _ _ => some node
  | _ => none

def OnTime : TimerEvent → List TimerEvent → Prop
  | .fired node clock request, before =>
    (∃ a timeout, .added node a timeout request ∈ before ∧
      (a + timeout < sizeMod → a + timeout ≤ clock)) ∧ ∀ r, .cancelled node r ∉ before
  | _, _ => True

structure Recorded (t : TimerTrace) : Prop where
  below : ∀ a ∈ stored t.timers.sgxTimerQ, a < t.timers.next
  timer : ∀ r a, t.timers.timer r = some a → a < t.timers.next
  added : ∀ a < t.timers.next, ∃ clock timeout,
    .added a clock timeout (t.timers.nodes a).request ∈ t.events ∧
      (t.timers.nodes a).key = sizeAdd clock timeout
  cancelled : ∀ a r, .cancelled a r ∈ t.events → a < t.timers.next ∧ (t.timers.nodes a).del ≠ 0
  onTime : Each OnTime t.events
  calls : t.timers.calls = t.events.filterMap TimerEvent.firedNode

theorem recorded_add {t : TimerTrace} {s : Timers} {request timeout now : ℕ} {handler : Option ℕ}
    {mem : Option (ℕ → ℕ)} {result : ℤ} (hw : QueueWf t.timers.sgxTimerQ) (h : Recorded t)
    (hadd : sgxTimerAdd t.timers request timeout handler now mem = some (result, s)) :
    Recorded (t.added request timeout now s) := by
  obtain ⟨q, rfl, -, hq⟩ := sgxTimerAdd_cases hw hadd
  have hcases (a : ℕ) (ha : a < t.timers.next + 1) : a = t.timers.next ∨ a < t.timers.next := by
    omega
  constructor
  · exact added_below hq h.below
  · exact added_timer_below h.timer request
  · intro a ha
    simp only [TimerTrace.added] at ha ⊢
    rcases hcases a ha with rfl | ha
    · rw [Function.update_self]
      exact ⟨now, timeout, List.mem_cons_self, rfl⟩
    · rw [added_nodes ha]
      obtain ⟨clock, timeout', hmem, hkey⟩ := h.added a ha
      exact ⟨clock, timeout', List.mem_cons_of_mem _ hmem, hkey⟩
  · intro a r hmem
    simp only [TimerTrace.added] at hmem ⊢
    rcases List.mem_cons.mp hmem with heq | hmem
    · cases heq
    · obtain ⟨hlt, hdel⟩ := h.cancelled a r hmem
      rw [added_nodes hlt]
      exact ⟨Nat.lt_succ_of_lt hlt, hdel⟩
  · exact ⟨trivial, h.onTime⟩
  · exact h.calls

theorem recorded_del {t : TimerTrace} {s : Timers} {request now node : ℕ} (h : Recorded t)
    (hdel : sgxTimerDel t.timers request now = some s)
    (hnode : t.timers.timer request = some node) :
    Recorded { t with timers := s, events := .cancelled node request :: t.events } := by
  obtain ⟨node', hnode', rfl⟩ := sgxTimerDel_cases hdel
  obtain rfl := Option.some.inj (hnode.symm.trans hnode')
  have hkeys (a : ℕ) := del_field (f := SgxTimerNode.key) (fun _ => rfl) t.timers node a
  have hrequests (a : ℕ) := del_field (f := SgxTimerNode.request) (fun _ => rfl) t.timers node a
  constructor
  · exact h.below
  · exact h.timer
  · intro a ha
    obtain ⟨clock, timeout, hmem, hkey⟩ := h.added a ha
    simp only [hkeys a, hrequests a]
    exact ⟨clock, timeout, List.mem_cons_of_mem _ hmem, hkey⟩
  · intro a r hmem
    simp only
    by_cases hne : a = node
    · subst hne
      rw [Function.update_self]
      exact ⟨h.timer request a hnode, one_ne_zero⟩
    · rw [Function.update_of_ne hne]
      rcases List.mem_cons.mp hmem with heq | hmem
      · simp only [TimerEvent.cancelled.injEq] at heq
        exact absurd heq.1 hne
      · exact h.cancelled a r hmem
  · exact ⟨trivial, h.onTime⟩
  · exact h.calls

theorem recorded_fire {t : TimerTrace} (h0 : 0 < t.timers.sgxTimerQ.size) (h : Recorded t)
    (hhandler : (t.timers.nodes (t.timers.sgxTimerQ.node 1)).handler.isSome)
    (hdel : (t.timers.nodes (t.timers.sgxTimerQ.node 1)).del = 0)
    (hkey : (t.timers.nodes (t.timers.sgxTimerQ.node 1)).key ≤ t.timers.sgxCurrentMsec) :
    Recorded (t.fire (t.timers.sgxTimerQ.node 1)) := by
  rw [fire_eq hhandler]
  have hlt := h.below _ (node_one_mem h0)
  constructor
  · exact h.below
  · exact h.timer
  · intro a ha
    obtain ⟨clock, timeout, hmem, hkey⟩ := h.added a ha
    exact ⟨clock, timeout, List.mem_cons_of_mem _ hmem, hkey⟩
  · intro a r hmem
    rcases List.mem_cons.mp hmem with heq | hmem
    · cases heq
    · exact h.cancelled a r hmem
  · refine ⟨⟨?_, fun r hr => (h.cancelled _ r hr).2 hdel⟩, h.onTime⟩
    obtain ⟨a, timeout, hmem, hadded⟩ := h.added _ hlt
    refine ⟨a, timeout, hmem, fun hsum => ?_⟩
    rwa [hadded, sizeAdd_of_lt hsum] at hkey
  · simp only [List.filterMap_cons, TimerEvent.firedNode, h.calls]

theorem recorded_closed : TraceClosed Recorded where
  tick _ _ h := ⟨h.below, h.timer, h.added, h.cancelled, h.onTime, h.calls⟩
  pop t s mem hw h hpop := by
    obtain ⟨q, rfl, -, hq⟩ := timerPop_cases hw hpop
    exact ⟨fun a ha => h.below a (hq a ha), h.timer, h.added, h.cancelled, h.onTime, h.calls⟩
  add _ _ _ _ _ _ _ _ hw h hadd := recorded_add hw h hadd
  del _ _ _ _ _ h hdel hnode := recorded_del h hdel hnode
  fire _ h0 h hhandler hdel hkey := recorded_fire h0 h hhandler hdel hkey

theorem recorded_init {s : Timers} {nodes : ℕ → SgxTimerNode} {now : ℕ} {mem : Option (ℕ → ℕ)}
    (h : sgxTimerInit nodes now mem = some s) : Recorded ⟨s, [], []⟩ := by
  have hbelow := (init_step h).1.below
  obtain ⟨q, -, rfl⟩ := Option.map_eq_some_iff.mp h
  exact ⟨hbelow, (fun _ _ ht => nomatch ht), fun a ha => absurd ha (Nat.not_lt_zero a),
    fun _ _ hc => absurd hc List.not_mem_nil, trivial, rfl⟩

theorem findLoop_calls (fuel : ℕ) {s s' : Timers} (now : ℕ → ℕ) (mem : ℕ → Option (ℕ → ℕ))
    {time : ℤ} (h : findLoop fuel s now mem = some (time, s')) : s'.calls = s.calls := by
  apply findLoop_preserves (P := fun found => found.calls = s.calls) _ _ fuel rfl now mem h
  · exact fun found now hcalls => hcalls
  · intro found found₁ node mem hcalls _ _ hpop
    obtain ⟨⟨result, q⟩, -, hpop⟩ := Option.bind_eq_some_iff.mp hpop
    rw [← Option.some.inj hpop]
    exact hcalls

theorem fires_due_and_alive {t : TimerTrace} (h : TraceRun t) :
    (∀ after before node clock request, t.events = after ++ .fired node clock request :: before →
      (∃ a timeout, .added node a timeout request ∈ before ∧
        (a + timeout < sizeMod → a + timeout ≤ clock)) ∧ ∀ r, .cancelled node r ∉ before) ∧
    t.timers.calls = t.events.filterMap TimerEvent.firedNode ∧
    ∀ now mem time s, sgxTimerFind t.timers now mem = some (time, s) →
      s.calls = t.timers.calls := by
  have hrecorded := (h.sound recorded_closed fun _ _ _ _ hinit => recorded_init hinit).2
  refine ⟨?_, hrecorded.calls, fun now mem time s hfind => findLoop_calls _ now mem hfind⟩
  intro after before node clock request hevents
  have hon := hrecorded.onTime
  rw [hevents] at hon
  exact hon.at

theorem fires_due_and_alive_one_timer : ∃ t after before, TraceRun t ∧
    t.events = after ++ .fired 0 7 0 :: before ∧
      (∃ a timeout, .added 0 a timeout 0 ∈ before ∧ (a + timeout < sizeMod → a + timeout ≤ 7)) ∧
      ∀ r, .cancelled 0 r ∉ before := by
  have hrun := TraceRun.expire (TraceRun.call (TraceRun.init (Eq.refl
    (sgxTimerInit (fun _ => ⟨0, 0, none, 0⟩) 0 (some fun _ => 0)))) (Eq.refl
    (TimerCall.run _ (.add 0 5 (some 0) 0 none)))) (Eq.refl
    (expireRounds 2 _ (fun _ => 7) (fun _ => none) fun _ => [.add 1 9 (some 0) 7 none]))
  exact ⟨_, [.added 1 7 9 1], [.added 0 0 5 0], hrun, rfl,
    (fires_due_and_alive hrun).1 [.added 1 7 9 1] [.added 0 0 5 0] 0 7 0 rfl⟩

end Sginx.Timer
