import Sginx.TimerHistory

namespace Sginx.Timer

open Sginx.PriorityQueue Sginx.Library.History Sginx.Library.ImplicitHeap

def NoLiveTimer (s : Timers) (request : ℕ) : Prop :=
  ∀ a, s.timer request = some a → (s.nodes a).del ≠ 0 ∨ a ∉ stored s.sgxTimerQ

def AddedFor (request : ℕ) : TimerEvent → Prop
  | .added _ _ _ r => r = request
  | _ => False

def CancelledFor (request : ℕ) : TimerEvent → Prop
  | .cancelled _ r => r = request
  | _ => False

def Cancelled (request : ℕ) : List TimerEvent → Prop :=
  TurnedOff (AddedFor request) (CancelledFor request)

def NotCancelled : TimerEvent → List TimerEvent → Prop
  | .fired _ _ request, before => ¬ Cancelled request before
  | _, _ => True

structure Linked (t : TimerTrace) : Prop where
  below : ∀ a ∈ stored t.timers.sgxTimerQ, a < t.timers.next
  timerBelow : ∀ r a, t.timers.timer r = some a → a < t.timers.next
  linked : ∀ a ∈ stored t.timers.sgxTimerQ, (t.timers.nodes a).del = 0 →
    t.timers.timer (t.timers.nodes a).request = some a
  silent : ∀ r, Cancelled r t.events → ∀ a ∈ stored t.timers.sgxTimerQ,
    (t.timers.nodes a).del = 0 → (t.timers.nodes a).request ≠ r
  final : Each NotCancelled t.events

def LinkedIf (t : TimerTrace) : Prop := (∀ p ∈ t.adds, NoLiveTimer p.1 p.2) → Linked t

theorem linked_add {t : TimerTrace} {s : Timers} {request timeout now : ℕ} {handler : Option ℕ}
    {mem : Option (ℕ → ℕ)} {result : ℤ} (hw : QueueWf t.timers.sgxTimerQ) (h : Linked t)
    (hnone : NoLiveTimer t.timers request)
    (hadd : sgxTimerAdd t.timers request timeout handler now mem = some (result, s)) :
    Linked (t.added request timeout now s) := by
  obtain ⟨q, rfl, -, hq⟩ := sgxTimerAdd_cases hw hadd
  constructor
  · exact added_below hq h.below
  · exact added_timer_below h.timerBelow request
  · intro a ha hdel
    simp only [TimerTrace.added] at ha hdel ⊢
    rcases mem_added hq ha with rfl | ha
    · simp only [Function.update_self]
    · rw [added_nodes (h.below a ha)] at hdel ⊢
      have hlink := h.linked a ha hdel
      have hne : (t.timers.nodes a).request ≠ request := by
        rintro hr
        rw [hr] at hlink
        rcases hnone a hlink with hdel' | hgone
        · exact hdel' hdel
        · exact hgone ha
      rwa [Function.update_of_ne hne]
  · intro r hr a ha hdel
    simp only [TimerTrace.added] at hr ha hdel ⊢
    obtain ⟨hne, hr⟩ := hr.resolve_left id
    rcases mem_added hq ha with rfl | ha
    · rw [Function.update_self]
      exact hne
    · rw [added_nodes (h.below a ha)] at hdel ⊢
      exact h.silent r hr a ha hdel
  · exact ⟨trivial, h.final⟩

theorem linked_del {t : TimerTrace} {s : Timers} {request now node : ℕ} (h : Linked t)
    (hdel : sgxTimerDel t.timers request now = some s)
    (hnode : t.timers.timer request = some node) :
    Linked { t with timers := s, events := .cancelled node request :: t.events } := by
  obtain ⟨node', hnode', rfl⟩ := sgxTimerDel_cases hdel
  obtain rfl := Option.some.inj (hnode.symm.trans hnode')
  constructor
  · exact h.below
  · exact h.timerBelow
  · intro a ha hdel
    simp only at ha hdel ⊢
    have hne := ne_of_live hdel
    rw [Function.update_of_ne hne] at hdel ⊢
    exact h.linked a ha hdel
  · intro r hr a ha hdel
    simp only at ha hdel ⊢
    have hne := ne_of_live hdel
    rw [Function.update_of_ne hne] at hdel ⊢
    rcases hr with hr | hr
    · rintro hreq
      have hlink := h.linked a ha hdel
      rw [hreq, ← hr, hnode] at hlink
      exact hne (Option.some.inj hlink).symm
    · exact h.silent r hr.2 a ha hdel
  · exact ⟨trivial, h.final⟩

theorem linked_fire {t : TimerTrace} (h0 : 0 < t.timers.sgxTimerQ.size) (h : Linked t)
    (hhandler : (t.timers.nodes (t.timers.sgxTimerQ.node 1)).handler.isSome)
    (hdel : (t.timers.nodes (t.timers.sgxTimerQ.node 1)).del = 0) :
    Linked (t.fire (t.timers.sgxTimerQ.node 1)) := by
  rw [fire_eq hhandler]
  have hroot := node_one_mem h0
  constructor
  · exact h.below
  · exact h.timerBelow
  · exact h.linked
  · intro r hr
    exact h.silent r (hr.resolve_left id).2
  · exact ⟨fun hr => h.silent _ hr _ hroot hdel rfl, h.final⟩

theorem linked_closed : TraceClosed LinkedIf where
  tick _ _ h hadds :=
    ⟨(h hadds).below, (h hadds).timerBelow, (h hadds).linked, (h hadds).silent, (h hadds).final⟩
  pop t s mem hw h hpop hadds := by
    obtain ⟨q, rfl, -, hq⟩ := timerPop_cases hw hpop
    have h := h hadds
    exact ⟨fun a ha => h.below a (hq a ha), h.timerBelow, fun a ha => h.linked a (hq a ha),
      fun r hr a ha => h.silent r hr a (hq a ha), h.final⟩
  add t s request timeout handler now mem result hw h hadd hadds := by
    rw [TimerTrace.added, List.forall_mem_cons] at hadds
    exact linked_add hw (h hadds.2) hadds.1 hadd
  del _ _ _ _ _ h hdel hnode hadds := linked_del (h hadds) hdel hnode
  fire _ h0 h hhandler hdel _ hadds := linked_fire h0 (h hadds) hhandler hdel

theorem linked_init {s : Timers} {nodes : ℕ → SgxTimerNode} {now : ℕ} {mem : Option (ℕ → ℕ)}
    (h : sgxTimerInit nodes now mem = some s) : Linked ⟨s, [], []⟩ := by
  obtain ⟨q, hq, rfl⟩ := Option.map_eq_some_iff.mp h
  have hnone : stored q = 0 := stored_eq_zero (init_wf (by decide) (by decide) hq).2
  have hmem (a : ℕ) : a ∉ stored q := by
    rw [hnone]
    exact Multiset.notMem_zero a
  exact ⟨fun a ha => absurd ha (hmem a), (fun _ _ ht => nomatch ht),
    fun a ha => absurd ha (hmem a), (fun _ hr => nomatch hr), trivial⟩

theorem cancelling_is_final {t : TimerTrace} (h : TraceRun t)
    (hadds : ∀ p ∈ t.adds, NoLiveTimer p.1 p.2) :
    (∀ a ∈ stored t.timers.sgxTimerQ, (t.timers.nodes a).del = 0 →
      t.timers.timer (t.timers.nodes a).request = some a) ∧
    ∀ after between before node clock node' request, t.events = after ++
      .fired node clock request :: (between ++ .cancelled node' request :: before) →
      ∃ a clock' timeout, .added a clock' timeout request ∈ between := by
  have hlinked := (h.sound linked_closed fun _ _ _ _ hinit _ => linked_init hinit).2 hadds
  refine ⟨hlinked.linked, ?_⟩
  intro after between before node clock node' request hevents
  have hfinal := hlinked.final
  rw [hevents] at hfinal
  have hnot : ¬ Cancelled request (between ++ .cancelled node' request :: before) := hfinal.at
  by_contra hnone
  apply hnot
  apply turnedOff_of_off (show CancelledFor request (.cancelled node' request) from rfl)
  intro e he hadded
  cases e with
  | added a clock' timeout r =>
    obtain rfl : r = request := hadded
    exact hnone ⟨a, clock', timeout, he⟩
  | cancelled _ _ => exact hadded
  | fired _ _ _ => exact hadded

theorem cancelling_is_final_add_again : ∃ t, TraceRun t ∧
    t.events = [.added 1 2 5 0, .cancelled 0 0, .added 0 0 5 0] ∧
      ∀ a ∈ stored t.timers.sgxTimerQ, (t.timers.nodes a).del = 0 →
        t.timers.timer (t.timers.nodes a).request = some a := by
  have hrun := TraceRun.call (TraceRun.call (TraceRun.call (TraceRun.init (Eq.refl
    (sgxTimerInit (fun _ => ⟨0, 0, none, 0⟩) 0 (some fun _ => 0)))) (Eq.refl
    (TimerCall.run _ (.add 0 5 (some 0) 0 none)))) (Eq.refl (TimerCall.run _ (.del 0 1)))) (Eq.refl
    (TimerCall.run _ (.add 0 5 (some 0) 2 none)))
  refine ⟨_, hrun, rfl, (cancelling_is_final hrun ?_).1⟩
  intro p hp
  rcases List.mem_cons.mp hp with rfl | hp
  · intro a ha
    obtain rfl : 0 = a := Option.some.inj ha
    exact .inl one_ne_zero
  · obtain rfl := List.mem_singleton.mp hp
    exact fun a ha => nomatch ha

theorem cancelled_request_fires : ∃ t t', TraceRun t ∧
    (0 ∈ stored t.timers.sgxTimerQ ∧ (t.timers.nodes 0).del = 0 ∧ (t.timers.nodes 0).request = 0 ∧
      t.timers.timer 0 = some 1) ∧
    expireRounds 3 t (fun _ => 7) (fun _ => none) (fun _ => []) = some t' ∧
      t'.events = [.fired 0 7 0, .cancelled 1 0, .added 1 0 5 0, .added 0 0 5 0] := by
  refine ⟨_, _, TraceRun.call (TraceRun.call (TraceRun.call (TraceRun.init (Eq.refl
    (sgxTimerInit (fun _ => ⟨0, 0, none, 0⟩) 0 (some fun _ => 0)))) (Eq.refl
    (TimerCall.run _ (.add 0 5 (some 0) 0 none)))) (Eq.refl
    (TimerCall.run _ (.add 0 5 (some 0) 0 none)))) (Eq.refl (TimerCall.run _ (.del 0 1))),
    ⟨?_, rfl, rfl, rfl⟩, rfl, rfl⟩
  exact mem_contents.mpr ⟨1, by decide, by decide, rfl⟩

end Sginx.Timer
