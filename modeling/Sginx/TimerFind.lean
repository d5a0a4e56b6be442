import Sginx.TimerFailure
import Mathlib.Order.Bounds.Basic
import Mathlib.Tactic.IntervalCases

namespace Sginx.Timer

open Sginx.PriorityQueue Sginx.Library.ImplicitHeap

def live (s : Timers) : Multiset ℕ := (stored s.sgxTimerQ).filter fun a => (s.nodes a).del = 0

theorem mem_live {s : Timers} {a : ℕ} :
    a ∈ live s ↔ a ∈ stored s.sgxTimerQ ∧ (s.nodes a).del = 0 :=
  Multiset.mem_filter

inductive Stopped (s : Timers) (now : ℕ → ℕ) : ℤ → Prop where
  | empty : stored s.sgxTimerQ = 0 → Stopped s now sgxTimerInfinite
  | root (i) : 0 < s.sgxTimerQ.size → (s.nodes (s.sgxTimerQ.node 1)).del = 0 →
      Stopped s now (max (cInt (sizeSub (s.nodes (s.sgxTimerQ.node 1)).key (now i))) 0)

structure Found (s s' : Timers) : Prop where
  wf : QueueWf s'.sgxTimerQ
  nodes : s'.nodes = s.nodes
  live : live s' = live s
  ordered : TimersOrdered s → TimersOrdered s'

theorem Found.trans {s₁ s₂ s₃ : Timers} (h : Found s₁ s₂) (h' : Found s₂ s₃) : Found s₁ s₃ :=
  ⟨h'.wf, h'.nodes.trans h.nodes, h'.live.trans h.live, fun ho => h'.ordered (h.ordered ho)⟩

theorem found_tick {s : Timers} (hw : QueueWf s.sgxTimerQ) (now : ℕ) :
    Found s (timerUpdate s now) :=
  ⟨hw, rfl, rfl, id⟩

theorem timerPop_ordered {s s' : Timers} (hw : QueueWf s.sgxTimerQ) {mem : Option (ℕ → ℕ)}
    (h : timerPop s mem = some s') (ho : TimersOrdered s) : TimersOrdered s' := by
  obtain ⟨⟨result, q⟩, hpop, h⟩ := Option.bind_eq_some_iff.mp h
  obtain rfl := Option.some.inj h
  intro hpops
  have hkeep := hpops (s.nodes, s.sgxTimerQ) List.mem_cons_self
  have hrest : AllPopsKeepLeft s := fun p hp => hpops p (List.mem_cons_of_mem _ hp)
  by_cases h0 : 0 < s.sgxTimerQ.size
  · obtain ⟨result', q', hpop', -, hsize, hnode⟩ := pop_cases (timerCmp s.nodes) hw h0 mem
    obtain rfl : q = q' := congrArg Prod.snd (Option.some.inj (hpop.symm.trans hpop'))
    exact (pop_ordered_iff (timerCmp s.nodes) (ho hrest) h0 hsize hnode).mpr hkeep
  · rw [pop_empty _ h0, Option.some.injEq, Prod.mk.injEq] at hpop
    obtain ⟨-, rfl⟩ := hpop
    exact ho hrest

theorem found_pop {s : Timers} (hw : QueueWf s.sgxTimerQ) (h0 : 0 < s.sgxTimerQ.size)
    (hdel : (s.nodes (s.sgxTimerQ.node 1)).del ≠ 0) (mem : Option (ℕ → ℕ)) :
    ∃ s', timerPop s mem = some s' ∧ s'.sgxTimerQ.size = s.sgxTimerQ.size - 1 ∧ Found s s' := by
  obtain ⟨result, q, hpop, hwf, hsize, hnode⟩ := pop_cases (timerCmp s.nodes) hw h0 mem
  have hstored := pop_stored (timerCmp s.nodes) h0 hsize hnode
  have hs : timerPop s mem =
      some { s with sgxTimerQ := q, pops := (s.nodes, s.sgxTimerQ) :: s.pops } := by
    rw [timerPop, hpop]
    rfl
  refine ⟨_, hs, hsize, hwf, rfl, ?_, timerPop_ordered hw hs⟩
  simp only [live]
  rw [← hstored]
  exact (Multiset.filter_cons_of_neg (p := fun a => (s.nodes a).del = 0) _ hdel).symm

theorem findLoop_returns (fuel : ℕ) {s : Timers} (hw : QueueWf s.sgxTimerQ)
    (hfuel : s.sgxTimerQ.size < fuel) (now : ℕ → ℕ) (mem : ℕ → Option (ℕ → ℕ)) :
    ∃ time s', findLoop fuel s now mem = some (time, s') ∧ Found s s' ∧ Stopped s' now time := by
  induction fuel generalizing s now mem with
  | zero => omega
  | succ fuel ih =>
    by_cases h0 : 0 < s.sgxTimerQ.size
    swap
    · refine ⟨sgxTimerInfinite, s, ?_, ⟨hw, rfl, rfl, id⟩, .empty (stored_eq_zero (by omega))⟩
      rw [findLoop, empty_iff.mpr h0, if_pos rfl]
    rw [findLoop_round fuel hw h0]
    by_cases hdel : (s.nodes (s.sgxTimerQ.node 1)).del = 0
    · rw [if_neg (not_not.mpr hdel)]
      exact ⟨_, _, rfl, found_tick hw (now 0), .root 0 h0 hdel⟩
    · rw [if_pos hdel]
      obtain ⟨s₁, hpop, hsize, hfound⟩ :=
        @found_pop (timerUpdate s (now 0)) hw h0 hdel (mem 0)
      have hsize : s₁.sgxTimerQ.size = s.sgxTimerQ.size - 1 := hsize
      obtain ⟨time, s', hloop, hfound', hstopped⟩ :=
        ih hfound.wf (by omega) (fun i => now (i + 1)) fun i => mem (i + 1)
      rw [hpop, Option.bind_some]
      refine ⟨time, s', hloop, ((found_tick hw (now 0)).trans hfound).trans hfound', ?_⟩
      cases hstopped with
      | empty h => exact .empty h
      | root i h0 hdel => exact .root (i + 1) h0 hdel

theorem find_of_live_root {s : Timers} (hw : QueueWf s.sgxTimerQ) (h0 : 0 < s.sgxTimerQ.size)
    (hdel : (s.nodes (s.sgxTimerQ.node 1)).del = 0) (now : ℕ → ℕ) (mem : ℕ → Option (ℕ → ℕ)) :
    sgxTimerFind s now mem =
      some (max (cInt (sizeSub (s.nodes (s.sgxTimerQ.node 1)).key (now 0))) 0,
        timerUpdate s (now 0)) := by
  rw [sgxTimerFind, findLoop_round _ hw h0, if_neg (not_not.mpr hdel)]

theorem root_live {s : Timers} (h0 : 0 < s.sgxTimerQ.size)
    (hdel : (s.nodes (s.sgxTimerQ.node 1)).del = 0) : s.sgxTimerQ.node 1 ∈ live s :=
  mem_live.mpr ⟨node_one_mem h0, hdel⟩

theorem find_discards_cancelled_only {t : TimerTrace} (h : TimerMoment t) (now : ℕ → ℕ)
    (mem : ℕ → Option (ℕ → ℕ)) :
    ∃ time s, sgxTimerFind t.timers now mem = some (time, s) ∧
      (time = sgxTimerInfinite ↔ ∀ a ∈ stored t.timers.sgxTimerQ, (t.timers.nodes a).del ≠ 0) ∧
      live s = live t.timers ∧ s.nodes = t.timers.nodes := by
  have hw := (h.sound recorded_closed fun _ _ _ _ hinit => recorded_init hinit).1
  obtain ⟨time, s, hloop, hfound, hstopped⟩ :=
    findLoop_returns _ hw (Nat.lt_succ_self _) now mem
  refine ⟨time, s, hloop, ?_, hfound.live, hfound.nodes⟩
  cases hstopped with
  | empty hnone =>
    have hlive : live t.timers = 0 := by
      rw [← hfound.live, live, hnone, Multiset.filter_zero]
    refine ⟨fun _ a ha hdel => ?_, fun _ => rfl⟩
    have hmem : a ∈ live t.timers := mem_live.mpr ⟨ha, hdel⟩
    rw [hlive] at hmem
    exact absurd hmem (Multiset.notMem_zero a)
  | root i h0 hdel =>
    have hmem := root_live h0 hdel
    rw [hfound.live] at hmem
    obtain ⟨hstored, hdel'⟩ := mem_live.mp hmem
    constructor
    · -- the wait is clamped at 0
      intro htime
      have := le_max_right (cInt (sizeSub (s.nodes (s.sgxTimerQ.node 1)).key (now i))) 0
      rw [htime] at this
      exact absurd this (by decide)
    · intro hall
      exact absurd hdel' (hall _ hstored)

theorem find_discards_cancelled_only_one_cancelled : ∃ t, TimerMoment t ∧
    ∃ time s, sgxTimerFind t.timers (fun _ => 3) (fun _ => none) = some (time, s) ∧
      (time = sgxTimerInfinite ↔ ∀ a ∈ stored t.timers.sgxTimerQ, (t.timers.nodes a).del ≠ 0) ∧
      live s = live t.timers ∧ s.nodes = t.timers.nodes := by
  have hrun := TimerMoment.between ((TraceRun.init (Eq.refl
    (sgxTimerInit (fun _ => ⟨0, 0, none, 0⟩) 0 (some fun _ => 0)))).script
      [.add 0 5 (some 0) 0 none, .add 1 9 (some 0) 0 none, .del 0 1] rfl)
  exact ⟨_, hrun, find_discards_cancelled_only hrun (fun _ => 3) fun _ => none⟩

structure Ranked (t : TimerTrace) : Prop where
  below : ∀ a ∈ stored t.timers.sgxTimerQ, a < t.timers.next
  ordered : TimersOrdered t.timers

theorem ranked_add {t : TimerTrace} {s : Timers} {request timeout now : ℕ} {handler : Option ℕ}
    {mem : Option (ℕ → ℕ)} {result : ℤ} (hw : QueueWf t.timers.sgxTimerQ) (h : Ranked t)
    (hadd : sgxTimerAdd t.timers request timeout handler now mem = some (result, s)) :
    Ranked (t.added request timeout now s) := by
  have hkeys (a : ℕ) (ha : a ∈ stored t.timers.sgxTimerQ) :
      (addedNodes t.timers (addedNode request timeout handler now) a).key =
        (t.timers.nodes a).key := by
    rw [addedNodes, added_nodes (h.below a ha)]
  by_cases hfails : GrowFails t.timers.sgxTimerQ mem
  · rw [add_of_growFails hfails, Option.some.injEq, Prod.mk.injEq] at hadd
    obtain ⟨-, rfl⟩ := hadd
    exact ⟨added_below (.inl rfl) h.below, fun hpops =>
      @ordered_of_same_keys t.timers _ hkeys (h.ordered hpops)⟩
  · obtain ⟨q, ⟨hsize, hnode⟩, hadd'⟩ := add_of_grows hw hfails request timeout handler now
    rw [hadd', Option.some.injEq, Prod.mk.injEq] at hadd
    obtain ⟨-, rfl⟩ := hadd
    refine ⟨added_below (.inr (inserted_stored _ hsize hnode _)) h.below, fun hpops => ?_⟩
    exact inserted_ordered _ (@ordered_of_same_keys t.timers _ hkeys (h.ordered hpops)) hsize hnode _

theorem ranked_closed : TraceClosed Ranked where
  tick _ _ h := ⟨h.below, h.ordered⟩
  pop t s mem hw h hpop := by
    have ho := timerPop_ordered hw hpop h.ordered
    obtain ⟨q, rfl, -, hq⟩ := timerPop_cases hw hpop
    exact ⟨fun a ha => h.below a (hq a ha), ho⟩
  add _ _ _ _ _ _ _ _ hw h hadd := ranked_add hw h hadd
  del t s request now node h hdel _ := by
    obtain ⟨node', -, rfl⟩ := sgxTimerDel_cases hdel
    refine ⟨h.below, fun hpops => ?_⟩
    have hkey (a : ℕ) := del_field (f := SgxTimerNode.key) (fun _ => rfl) t.timers node' a
    exact @ordered_of_same_keys t.timers _ (fun a _ => hkey a) (h.ordered hpops)
  fire t _ h hhandler _ _ := by
    rw [fire_eq hhandler]
    exact ⟨h.below, h.ordered⟩

theorem ranked_init {s : Timers} {nodes : ℕ → SgxTimerNode} {now : ℕ} {mem : Option (ℕ → ℕ)}
    (h : sgxTimerInit nodes now mem = some s) : Ranked ⟨s, [], []⟩ :=
  ⟨(init_step h).1.below, (init_step h).2⟩

/-- The difference of the key and the clock is an `unsigned` of 64 bits, cut down to 32. -/
def WaitFits (key now : ℕ) : Prop :=
  if key ≤ now then (now - key) % 2 ^ 32 ≤ 2 ^ 31
  else 0 < (key - now) % 2 ^ 32 ∧ (key - now) % 2 ^ 32 < 2 ^ 31

theorem wait_eq (x : ℕ) :
    max (cInt x) 0 = if x % 2 ^ 32 < 2 ^ 31 then ((x % 2 ^ 32 : ℕ) : ℤ) else 0 := by
  have hlt := Nat.mod_lt x (show 0 < 2 ^ 32 by decide)
  have hmod : (x : ℤ) % (2 ^ 32 : ℕ) = (x % 2 ^ 32 : ℕ) := (Int.natCast_mod x (2 ^ 32)).symm
  unfold cInt
  rw [Int.bmod_def]
  show max (if (x : ℤ) % (2 ^ 32 : ℕ) < _ then (x : ℤ) % (2 ^ 32 : ℕ) else _) 0 = _
  rw [hmod]
  generalize x % 2 ^ 32 = r at hlt ⊢
  norm_num
  split_ifs <;> omega

theorem wait_fits_iff {key now : ℕ} (hnow : now < sizeMod) :
    ((key ≤ now → max (cInt (sizeSub key now)) 0 = 0) ∧
      (now < key → 0 < max (cInt (sizeSub key now)) 0 ∧
        max (cInt (sizeSub key now)) 0 ≤ (key : ℤ) - now)) ↔ WaitFits key now := by
  simp only [wait_eq]
  unfold WaitFits
  by_cases hdue : key ≤ now
  · have hsub : sizeSub key now % 2 ^ 32 = (2 ^ 32 - (now - key) % 2 ^ 32) % 2 ^ 32 := by
      unfold sizeSub sizeMod at *
      split_ifs <;> omega
    have hlt := Nat.mod_lt (now - key) (show 0 < 2 ^ 32 by decide)
    rw [if_pos hdue, hsub]
    generalize (now - key) % 2 ^ 32 = late at hlt ⊢
    simp only [hdue, true_implies, Nat.not_lt.mpr hdue, false_implies, and_true]
    split_ifs <;> omega
  · have hsub : sizeSub key now = key - now := sizeSub_of_le (by omega)
    have hle := Nat.mod_le (key - now) (2 ^ 32)
    rw [if_neg hdue, hsub]
    generalize (key - now) % 2 ^ 32 = left at hle ⊢
    simp only [hdue, false_implies, true_and, Nat.not_le.mp hdue, true_implies]
    split_ifs <;> omega

theorem find_never_oversleeps {t : TimerTrace} (h : TimerMoment t) {now : ℕ} (hnow : now < sizeMod)
    (mem : ℕ → Option (ℕ → ℕ)) :
    ∃ time s, sgxTimerFind t.timers (fun _ => now) mem = some (time, s) ∧
      (AllPopsKeepLeft s → ∀ D, IsLeast {key | ∃ a ∈ stored t.timers.sgxTimerQ,
          (t.timers.nodes a).del = 0 ∧ (t.timers.nodes a).key = key} D →
        ((D ≤ now → time = 0) ∧ (now < D → 0 < time ∧ time ≤ (D : ℤ) - now) ↔
          WaitFits D now)) := by
  obtain ⟨hw, hranked⟩ := h.sound ranked_closed fun _ _ _ _ hinit => ranked_init hinit
  obtain ⟨time, s, hloop, hfound, hstopped⟩ :=
    findLoop_returns _ hw (Nat.lt_succ_self _) (fun _ => now) mem
  refine ⟨time, s, hloop, fun hpops D hD => ?_⟩
  obtain ⟨⟨a, ha, hdel, rfl⟩, hleast⟩ := hD
  have hlive : a ∈ live s := by
    rw [hfound.live]
    exact mem_live.mpr ⟨ha, hdel⟩
  have ha' := (mem_live.mp hlive).1
  cases hstopped with
  | empty hnone =>
    rw [hnone] at ha'
    exact absurd ha' (Multiset.notMem_zero a)
  | root i h0 hdel' =>
    have hroot := root_live h0 hdel'
    rw [hfound.live] at hroot
    obtain ⟨hin, hdel''⟩ := mem_live.mp hroot
    have hle := hleast ⟨_, hin, hdel'', rfl⟩
    have hfirst := top_first (timerCmp s.nodes) (hfound.ordered hranked.ordered hpops) ha'
    simp only [timerCmp, decide_eq_false_iff_not, Nat.not_lt, hfound.nodes] at hfirst
    rw [hfound.nodes, Nat.le_antisymm hfirst hle]
    exact wait_fits_iff hnow

theorem find_never_oversleeps_two_timers : ∃ t, TimerMoment t ∧
    ∃ time s, sgxTimerFind t.timers (fun _ => 3) (fun _ => none) = some (time, s) ∧
      0 < time ∧ time ≤ (5 : ℤ) - 3 := by
  have hrun := TimerMoment.between ((TraceRun.init (Eq.refl
    (sgxTimerInit (fun _ => ⟨0, 0, none, 0⟩) 0 (some fun _ => 0)))).script
      [.add 0 5 (some 0) 0 none, .add 1 9 (some 0) 0 none] rfl)
  obtain ⟨time, s, hfind, hwait⟩ := find_never_oversleeps hrun (show 3 < sizeMod by decide)
    fun _ => none
  refine ⟨_, hrun, time, s, hfind, ((hwait ?_ 5 ⟨⟨0, ?_, rfl, rfl⟩, ?_⟩).mpr ?_).2 (by decide)⟩
  · have hpops : some [] = some s.pops :=
      congrArg (Option.map fun p : ℤ × Timers => p.2.pops) hfind
    rw [AllPopsKeepLeft, ← Option.some.inj hpops]
    exact List.forall_mem_nil _
  · exact mem_contents.mpr ⟨1, by decide, by decide, rfl⟩
  · rintro _ ⟨a, ha, -, rfl⟩
    obtain ⟨i, h1, hi, rfl⟩ := mem_contents.mp ha
    have hi : i ≤ 2 := hi
    interval_cases i
    · decide
    · decide
  · exact ⟨by decide, by decide⟩

theorem right_child_first : ∃ t, TimerMoment t ∧ t.timers.sgxTimerQ.size = 3 ∧
    t.timers.nodes (t.timers.sgxTimerQ.node 1) = ⟨5, 0, some 0, 1⟩ ∧
    t.timers.nodes (t.timers.sgxTimerQ.node 2) = ⟨6, 0, some 0, 3⟩ ∧
    t.timers.nodes (t.timers.sgxTimerQ.node 3) = ⟨2, 0, some 0, 2⟩ :=
  ⟨_, .between (((TraceRun.init (Eq.refl
    (sgxTimerInit (fun _ => ⟨0, 0, none, 0⟩) 0 (some fun _ => 0)))).script
      [.add 0 1 (some 0) 0 none, .add 1 5 (some 0) 0 none, .add 2 2 (some 0) 0 none,
        .add 3 6 (some 0) 0 none] rfl).expire
      (Eq.refl (expireRounds 1 _ (fun _ => 1) (fun _ => none) fun _ => []))), rfl, rfl, rfl, rfl⟩

theorem find_oversleeps : ∃ t, TimerMoment t ∧
    IsLeast {key | ∃ a ∈ stored t.timers.sgxTimerQ,
      (t.timers.nodes a).del = 0 ∧ (t.timers.nodes a).key = key} 2 ∧
    ∃ s, sgxTimerFind t.timers (fun _ => 1) (fun _ => none) = some (4, s) ∧
      ¬ (4 : ℤ) ≤ 2 - 1 := by
  obtain ⟨t, hrun, hsize, h1, h2, h3⟩ := right_child_first
  have hw := (hrun.sound ranked_closed fun _ _ _ _ hinit => ranked_init hinit).1
  refine ⟨t, hrun, ⟨⟨_, mem_contents.mpr ⟨3, by decide, hsize.ge, rfl⟩, ?_⟩, ?_⟩,
    timerUpdate t.timers 1, ?_, by decide⟩
  · rw [h3]
    exact ⟨rfl, rfl⟩
  · rintro _ ⟨a, ha, -, rfl⟩
    obtain ⟨i, hpos, hi, rfl⟩ := mem_contents.mp ha
    rw [hsize] at hi
    interval_cases i
    · rw [h1]
      exact (by decide : 2 ≤ 5)
    · rw [h2]
      exact (by decide : 2 ≤ 6)
    · rw [h3]
  · rw [find_of_live_root hw (by omega) (by rw [h1]), h1]
    rfl

end Sginx.Timer
