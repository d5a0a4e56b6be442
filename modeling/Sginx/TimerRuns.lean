import Sginx.Timer
import Sginx.PriorityQueueRuns

namespace Sginx.Timer

open Sginx.PriorityQueue Sginx.Library.ImplicitHeap

instance (nodes : ℕ → SgxTimerNode) :
    IsStrictWeakOrder ℕ (fun x y => timerCmp nodes x y = true) where
  irrefl x := by simp [timerCmp]
  trans x y z := by simp only [timerCmp, decide_eq_true_eq]; omega
  incomp_trans x y z := by simp only [timerCmp, decide_eq_true_eq]; omega

def SgxTimerNode.dueCalls (node : SgxTimerNode) : ℕ := if node.handler.isSome then 1 else 0

structure TimersInv (s : Timers) : Prop where
  wf : QueueWf s.sgxTimerQ
  nodup : (stored s.sgxTimerQ).Nodup
  below : ∀ a ∈ stored s.sgxTimerQ, a < s.next
  waiting : ∀ a ∈ stored s.sgxTimerQ, s.calls.count a = 0
  unborn : ∀ a, s.next ≤ a → s.calls.count a = 0
  gone : ∀ a < s.next, a ∉ stored s.sgxTimerQ → (s.nodes a).del = 0 →
    s.calls.count a = (s.nodes a).dueCalls

def AllPopsKeepLeft (s : Timers) : Prop := ∀ p ∈ s.pops, PopKeepsLeft (timerCmp p.1) p.2

def TimersOrdered (s : Timers) : Prop :=
  AllPopsKeepLeft s → HeapOrdered (timerCmp s.nodes) s.sgxTimerQ

structure SameTimers (s s' : Timers) : Prop where
  nodes : s'.nodes = s.nodes
  next : s'.next = s.next
  pops : ∃ recent, s'.pops = recent ++ s.pops
  stored : ∀ a ∈ stored s'.sgxTimerQ, a ∈ stored s.sgxTimerQ

theorem SameTimers.trans {s₁ s₂ s₃ : Timers} (h : SameTimers s₁ s₂) (h' : SameTimers s₂ s₃) :
    SameTimers s₁ s₃ := by
  obtain ⟨recent, hrecent⟩ := h.pops
  obtain ⟨recent', hrecent'⟩ := h'.pops
  refine ⟨h'.nodes.trans h.nodes, h'.next.trans h.next, ⟨recent' ++ recent, ?_⟩,
    fun a ha => h.stored a (h'.stored a ha)⟩
  rw [hrecent', hrecent, List.append_assoc]

theorem pop_step {s : Timers} (h : TimersInv s) (ho : TimersOrdered s) (h0 : 0 < s.sgxTimerQ.size)
    {calls : List ℕ} (hother : ∀ b, b ≠ s.sgxTimerQ.node 1 → calls.count b = s.calls.count b)
    (hroot : (s.nodes (s.sgxTimerQ.node 1)).del = 0 →
      calls.count (s.sgxTimerQ.node 1) = (s.nodes (s.sgxTimerQ.node 1)).dueCalls)
    (now : ℕ) (mem : Option (ℕ → ℕ)) :
    ∃ s', timerPop { s with calls := calls, sgxCurrentMsec := now } mem = some s' ∧ TimersInv s' ∧
      TimersOrdered s' ∧ SameTimers s s' ∧ s'.sgxTimerQ.size = s.sgxTimerQ.size - 1 ∧
      s.sgxTimerQ.node 1 ::ₘ stored s'.sgxTimerQ = stored s.sgxTimerQ := by
  obtain ⟨result, q, hpop, hwf, hsize, hnode⟩ := pop_cases (timerCmp s.nodes) h.wf h0 mem
  have hstored := pop_stored (timerCmp s.nodes) h0 hsize hnode
  have hmem (a : ℕ) : a ∈ stored s.sgxTimerQ ↔ a = s.sgxTimerQ.node 1 ∨ a ∈ stored q := by
    rw [← hstored, Multiset.mem_cons]
  have hnodup := h.nodup
  rw [← hstored, Multiset.nodup_cons] at hnodup
  refine ⟨_, by rw [timerPop, hpop]; rfl, ?_, ?_, ?_, hsize, hstored⟩
  · refine ⟨hwf, hnodup.2, fun a ha => h.below a ((hmem a).mpr (.inr ha)), fun a ha => ?_,
      fun a ha => ?_, fun a ha hgone hdel => ?_⟩
    · have hne : a ≠ s.sgxTimerQ.node 1 := by
        rintro rfl
        exact hnodup.1 ha
      exact (hother a hne).trans (h.waiting a ((hmem a).mpr (.inr ha)))
    · have hne : a ≠ s.sgxTimerQ.node 1 := by
        rintro rfl
        exact absurd (h.below _ ((hmem _).mpr (.inl rfl))) (Nat.not_lt.mpr ha)
      exact (hother a hne).trans (h.unborn a ha)
    · by_cases hne : a = s.sgxTimerQ.node 1
      · subst hne
        exact hroot hdel
      · have hgone' : a ∉ stored s.sgxTimerQ := by
          rw [hmem]
          exact not_or.mpr ⟨hne, hgone⟩
        exact (hother a hne).trans (h.gone a ha hgone' hdel)
  · intro hpops
    have hkeep := hpops (s.nodes, s.sgxTimerQ) (List.mem_cons_self)
    have hrest : AllPopsKeepLeft s := fun p hp => hpops p (List.mem_cons_of_mem _ hp)
    exact (pop_ordered_iff (timerCmp s.nodes) (ho hrest) h0 hsize hnode).mpr hkeep
  · exact ⟨rfl, rfl, ⟨[(s.nodes, s.sgxTimerQ)], rfl⟩, fun a ha => (hmem a).mpr (.inr ha)⟩

theorem pop_deleted {s : Timers} (h : TimersInv s) (ho : TimersOrdered s)
    (h0 : 0 < s.sgxTimerQ.size) (hdel : (s.nodes (s.sgxTimerQ.node 1)).del ≠ 0) (now : ℕ)
    (mem : Option (ℕ → ℕ)) :
    ∃ s', timerPop (timerUpdate s now) mem = some s' ∧ TimersInv s' ∧ TimersOrdered s' ∧
      SameTimers s s' ∧ s'.sgxTimerQ.size = s.sgxTimerQ.size - 1 ∧
      s.sgxTimerQ.node 1 ::ₘ stored s'.sgxTimerQ = stored s.sgxTimerQ :=
  pop_step h ho h0 (fun _ _ => rfl) (fun h => absurd h hdel) now mem

theorem pop_called {s : Timers} (h : TimersInv s) (ho : TimersOrdered s)
    (h0 : 0 < s.sgxTimerQ.size) (now : ℕ) (mem : Option (ℕ → ℕ)) :
    ∃ s', timerPop (callHandler (timerUpdate s now) (s.sgxTimerQ.node 1)) mem = some s' ∧
      TimersInv s' ∧ TimersOrdered s' ∧ SameTimers s s' ∧
      s'.sgxTimerQ.size = s.sgxTimerQ.size - 1 ∧
      s.sgxTimerQ.node 1 ::ₘ stored s'.sgxTimerQ = stored s.sgxTimerQ := by
  have hwaiting := h.waiting _ (node_one_mem h0)
  by_cases hhandler : (s.nodes (s.sgxTimerQ.node 1)).handler.isSome
  · have hcall : callHandler (timerUpdate s now) (s.sgxTimerQ.node 1) =
        { s with calls := s.sgxTimerQ.node 1 :: s.calls, sgxCurrentMsec := now } := if_pos hhandler
    rw [hcall]
    apply pop_step h ho h0
    · intro b hb
      exact List.count_cons_of_ne hb.symm
    · intro _
      rw [List.count_cons_self, hwaiting, SgxTimerNode.dueCalls, if_pos hhandler]
  · have hcall : callHandler (timerUpdate s now) (s.sgxTimerQ.node 1) =
        { s with sgxCurrentMsec := now } := if_neg hhandler
    rw [hcall]
    apply pop_step h ho h0 (fun _ _ => rfl)
    intro _
    rw [hwaiting, SgxTimerNode.dueCalls, if_neg hhandler]

theorem update_inv {s : Timers} (h : TimersInv s) (ho : TimersOrdered s) (now : ℕ) :
    TimersInv (timerUpdate s now) ∧ TimersOrdered (timerUpdate s now) ∧
      SameTimers s (timerUpdate s now) :=
  ⟨⟨h.wf, h.nodup, h.below, h.waiting, h.unborn, h.gone⟩, ho, rfl, rfl, ⟨[], rfl⟩, fun _ ha => ha⟩

def Expired (time : ℕ) (s s' : Timers) : Prop :=
  (∀ a ∈ stored s.sgxTimerQ, (s.nodes a).del = 0 → time < (s.nodes a).key →
      a ∈ stored s'.sgxTimerQ) ∧
    (AllPopsKeepLeft s' → ∀ a ∈ stored s'.sgxTimerQ, time < (s.nodes a).key)

theorem Expired.cons {time : ℕ} {s s₁ s' : Timers} (h : Expired time s₁ s')
    (hsame : SameTimers s s₁)
    (hstored : s.sgxTimerQ.node 1 ::ₘ stored s₁.sgxTimerQ = stored s.sgxTimerQ)
    (hroot : (s.nodes (s.sgxTimerQ.node 1)).del ≠ 0 ∨ (s.nodes (s.sgxTimerQ.node 1)).key ≤ time) :
    Expired time s s' := by
  rw [Expired, hsame.nodes] at h
  refine ⟨fun a ha hdel hkey => h.1 a ?_ hdel hkey, h.2⟩
  rw [← hstored] at ha
  rcases Multiset.mem_cons.mp ha with rfl | ha
  · rcases hroot with hroot | hroot
    · exact absurd hdel hroot
    · exact absurd hkey (Nat.not_lt.mpr hroot)
  · exact ha

theorem expired_of_root {time : ℕ} {s : Timers} (ho : TimersOrdered s)
    (hroot : time < (s.nodes (s.sgxTimerQ.node 1)).key) : Expired time s s := by
  refine ⟨fun a ha _ _ => ha, fun hpops a ha => ?_⟩
  have hfirst := top_first (timerCmp s.nodes) (ho hpops) ha
  simp only [timerCmp, decide_eq_false_iff_not] at hfirst
  omega

theorem expired_of_empty (time : ℕ) {s : Timers} (h0 : ¬ 0 < s.sgxTimerQ.size) :
    Expired time s s := by
  have hnone : stored s.sgxTimerQ = 0 := stored_eq_zero (by omega)
  refine ⟨fun a ha _ _ => ha, fun _ a ha => ?_⟩
  rw [hnone] at ha
  exact absurd ha (Multiset.notMem_zero a)

theorem SameTimers.refl (s : Timers) : SameTimers s s :=
  ⟨rfl, rfl, ⟨[], rfl⟩, fun _ ha => ha⟩

theorem expireLoop_round (fuel : ℕ) {s : Timers} (hw : QueueWf s.sgxTimerQ) (h0 : 0 < s.sgxTimerQ.size)
    (now : ℕ → ℕ) (mem : ℕ → Option (ℕ → ℕ)) :
    expireLoop (fuel + 1) s now mem =
      if (s.nodes (s.sgxTimerQ.node 1)).del ≠ 0 then
        (timerPop (timerUpdate s (now 0)) (mem 0)).bind fun s₁ =>
          expireLoop fuel s₁ (fun i => now (i + 1)) (fun i => mem (i + 1))
      else if (s.nodes (s.sgxTimerQ.node 1)).key > now 0 then some (timerUpdate s (now 0))
      else
        (timerPop (callHandler (timerUpdate s (now 0)) (s.sgxTimerQ.node 1)) (mem 0)).bind fun s₁ =>
          expireLoop fuel s₁ (fun i => now (i + 1)) (fun i => mem (i + 1)) := by
  have htop : sgxPriorityQueueTop (timerUpdate s (now 0)).sgxTimerQ =
      some (s.sgxTimerQ.node 1) := top_eq hw h0
  simp only [expireLoop, nonempty_iff.mpr h0, Bool.false_eq_true, if_false, htop, Option.bind_eq_bind,
    Option.bind_some]
  rfl

theorem expireLoop_spec (fuel : ℕ) {s : Timers} (h : TimersInv s) (ho : TimersOrdered s)
    (hfuel : s.sgxTimerQ.size < fuel) (now : ℕ → ℕ) (mem : ℕ → Option (ℕ → ℕ)) :
    ∃ s', expireLoop fuel s now mem = some s' ∧ TimersInv s' ∧ TimersOrdered s' ∧
      SameTimers s s' ∧ ∀ time, (∀ i, now i = time) → Expired time s s' := by
  induction fuel generalizing s now mem with
  | zero => omega
  | succ fuel ih =>
    by_cases h0 : 0 < s.sgxTimerQ.size
    swap
    · refine ⟨s, by rw [expireLoop, empty_iff.mpr h0, if_pos rfl], h, ho, SameTimers.refl s, ?_⟩
      intro time _
      exact expired_of_empty time h0
    rw [expireLoop_round fuel h.wf h0]
    split_ifs with hdel hkey
    · obtain ⟨s₁, hpop, h₁, ho₁, hsame₁, hsize, hstored⟩ := pop_deleted h ho h0 hdel (now 0) (mem 0)
      obtain ⟨s', hloop, h', ho', hsame, hexpired⟩ := ih h₁ ho₁ (by omega) (fun i => now (i + 1))
        (fun i => mem (i + 1))
      refine ⟨s', by rw [hpop, Option.bind_some, hloop], h', ho', hsame₁.trans hsame, ?_⟩
      intro time hnow
      exact (hexpired time fun i => hnow (i + 1)).cons hsame₁ hstored (.inl hdel)
    · obtain ⟨h', ho', hsame⟩ := update_inv h ho (now 0)
      refine ⟨_, rfl, h', ho', hsame, ?_⟩
      intro time hnow
      exact expired_of_root ho (by rw [← hnow 0]; exact hkey)
    · obtain ⟨s₁, hpop, h₁, ho₁, hsame₁, hsize, hstored⟩ := pop_called h ho h0 (now 0) (mem 0)
      obtain ⟨s', hloop, h', ho', hsame, hexpired⟩ := ih h₁ ho₁ (by omega) (fun i => now (i + 1))
        (fun i => mem (i + 1))
      refine ⟨s', by rw [hpop, Option.bind_some, hloop], h', ho', hsame₁.trans hsame, ?_⟩
      intro time hnow
      apply (hexpired time fun i => hnow (i + 1)).cons hsame₁ hstored
      right
      rw [← hnow 0]
      exact Nat.not_lt.mp hkey

theorem findLoop_round (fuel : ℕ) {s : Timers} (hw : QueueWf s.sgxTimerQ) (h0 : 0 < s.sgxTimerQ.size)
    (now : ℕ → ℕ) (mem : ℕ → Option (ℕ → ℕ)) :
    findLoop (fuel + 1) s now mem =
      if (s.nodes (s.sgxTimerQ.node 1)).del ≠ 0 then
        (timerPop (timerUpdate s (now 0)) (mem 0)).bind fun s₁ =>
          findLoop fuel s₁ (fun i => now (i + 1)) (fun i => mem (i + 1))
      else some (max (cInt (sizeSub (s.nodes (s.sgxTimerQ.node 1)).key (now 0))) 0,
        timerUpdate s (now 0)) := by
  have htop : sgxPriorityQueueTop (timerUpdate s (now 0)).sgxTimerQ =
      some (s.sgxTimerQ.node 1) := top_eq hw h0
  have hmax (time : ℤ) : (if time > 0 then time else 0) = max time 0 := by
    split_ifs <;> omega
  simp only [findLoop, nonempty_iff.mpr h0, Bool.false_eq_true, if_false, htop, Option.bind_eq_bind,
    Option.bind_some, hmax]
  rfl

theorem findLoop_preserves {P : Timers → Prop} (htick : ∀ s now, P s → P (timerUpdate s now))
    (hpop : ∀ s s₁ node mem, P s → sgxPriorityQueueTop s.sgxTimerQ = some node →
      (s.nodes node).del ≠ 0 → timerPop s mem = some s₁ → P s₁)
    (fuel : ℕ) {s s' : Timers} (h : P s) (now : ℕ → ℕ) (mem : ℕ → Option (ℕ → ℕ)) {time : ℤ}
    (hfind : findLoop fuel s now mem = some (time, s')) : P s' := by
  induction fuel generalizing s now mem with
  | zero => cases hfind
  | succ fuel ih =>
    have h₁ := htick s (now 0) h
    rw [findLoop] at hfind
    split_ifs at hfind with hempty
    · simp only [Option.some.injEq, Prod.mk.injEq] at hfind
      rwa [← hfind.2]
    obtain ⟨node, htop, hfind⟩ := Option.bind_eq_some_iff.mp hfind
    split_ifs at hfind with hdel
    · obtain ⟨s₁, hstep, hfind⟩ := Option.bind_eq_some_iff.mp hfind
      exact ih (hpop _ s₁ node _ h₁ htop hdel hstep) _ _ hfind
    · simp only [Option.some.injEq, Prod.mk.injEq] at hfind
      rwa [← hfind.2]

theorem findLoop_spec (fuel : ℕ) {s : Timers} (h : TimersInv s) (ho : TimersOrdered s)
    (hfuel : s.sgxTimerQ.size < fuel) (now : ℕ → ℕ) (mem : ℕ → Option (ℕ → ℕ)) :
    ∃ time s', findLoop fuel s now mem = some (time, s') ∧ TimersInv s' ∧ TimersOrdered s' := by
  induction fuel generalizing s now mem with
  | zero => omega
  | succ fuel ih =>
    by_cases h0 : 0 < s.sgxTimerQ.size
    swap
    · exact ⟨sgxTimerInfinite, s, by rw [findLoop, empty_iff.mpr h0, if_pos rfl], h, ho⟩
    rw [findLoop_round fuel h.wf h0]
    split_ifs with hdel
    · obtain ⟨s₁, hpop, h₁, ho₁, hsame₁, hsize, hstored⟩ := pop_deleted h ho h0 hdel (now 0) (mem 0)
      rw [hpop, Option.bind_some]
      exact ih h₁ ho₁ (by omega) _ _
    · obtain ⟨h', ho', -⟩ := update_inv h ho (now 0)
      exact ⟨_, _, rfl, h', ho'⟩

theorem added_inv {s : Timers} (h : TimersInv s) {nodes : ℕ → SgxTimerNode}
    (hold : ∀ a < s.next, nodes a = s.nodes a) {q : SgxPriorityQueue ℕ} (hwf : QueueWf q)
    (hstored : stored q = s.next ::ₘ stored s.sgxTimerQ) (now : ℕ) (timer : ℕ → Option ℕ) :
    TimersInv { s with
      nodes := nodes, next := s.next + 1, sgxTimerQ := q, sgxCurrentMsec := now, timer := timer } := by
  have hmem (a : ℕ) : a ∈ stored q ↔ a = s.next ∨ a ∈ stored s.sgxTimerQ := by
    rw [hstored, Multiset.mem_cons]
  refine ⟨hwf, ?_, fun a ha => ?_, fun a ha => ?_, fun a ha => ?_, fun a ha hgone hdel => ?_⟩
  · rw [hstored, Multiset.nodup_cons]
    exact ⟨fun hin => Nat.lt_irrefl _ (h.below _ hin), h.nodup⟩
  · rcases (hmem a).mp ha with rfl | ha
    · exact Nat.lt_succ_self _
    · exact Nat.lt_succ_of_lt (h.below a ha)
  · rcases (hmem a).mp ha with rfl | ha
    · exact h.unborn _ (le_refl _)
    · exact h.waiting a ha
  · exact h.unborn a (Nat.le_of_succ_le ha)
  · obtain ⟨hne, hgone⟩ := not_or.mp ((hmem a).not.mp hgone)
    have hlt : a < s.next := Nat.lt_of_le_of_ne (Nat.le_of_lt_succ ha) hne
    simp only [hold a hlt] at hdel ⊢
    exact h.gone a hlt hgone hdel

theorem ordered_of_same_keys {s : Timers} {nodes : ℕ → SgxTimerNode}
    (hkey : ∀ a ∈ stored s.sgxTimerQ, (nodes a).key = (s.nodes a).key)
    (ho : HeapOrdered (timerCmp s.nodes) s.sgxTimerQ) :
    HeapOrdered (timerCmp nodes) s.sgxTimerQ := by
  apply heapOrdered_congr _ ho
  intro x hx y hy
  simp only [timerCmp, hkey x hx, hkey y hy]

theorem del_field {γ : Type} {f : SgxTimerNode → γ} (hf : ∀ n, f { n with del := 1 } = f n)
    (s : Timers) (node a : ℕ) :
    f (Function.update s.nodes node { s.nodes node with del := 1 } a) = f (s.nodes a) := by
  by_cases hne : a = node
  · rw [hne, Function.update_self]
    exact hf (s.nodes node)
  · rw [Function.update_of_ne hne]

theorem ne_of_live {s : Timers} {node a : ℕ}
    (h : (Function.update s.nodes node { s.nodes node with del := 1 } a).del = 0) : a ≠ node := by
  rintro rfl
  rw [Function.update_self] at h
  exact one_ne_zero h

theorem add_step {s : Timers} (h : TimersInv s) (ho : TimersOrdered s) (request timeout : ℕ)
    (handler : Option ℕ) (now : ℕ) (mem : Option (ℕ → ℕ)) :
    ∃ result s', sgxTimerAdd s request timeout handler now mem = some (result, s') ∧
      (result = sgxOk → TimersInv s' ∧ TimersOrdered s') := by
  obtain ⟨nodes, hnodes⟩ : ∃ nodes, nodes = Function.update s.nodes s.next
    { key := sizeAdd now timeout, del := 0, handler := handler, request := request } := ⟨_, rfl⟩
  have hold (a : ℕ) (ha : a < s.next) : nodes a = s.nodes a := by
    rw [hnodes, Function.update_of_ne (Nat.ne_of_lt ha)]
  rcases push_cases (timerCmp nodes) h.wf s.next mem with hpush | ⟨q, hpush, hwf, hsize, hnode⟩
  · rw [hnodes] at hpush
    refine ⟨-1, _, by simp only [sgxTimerAdd, timerUpdate, hpush]; rfl, ?_⟩
    intro hok
    exact absurd hok (by decide)
  · have hstored := inserted_stored (timerCmp nodes) hsize hnode s.next
    have hpush' := hpush
    rw [hnodes] at hpush'
    refine ⟨sgxOk, _, by simp only [sgxTimerAdd, timerUpdate, hpush']; rfl, fun _ => ⟨?_, ?_⟩⟩
    · rw [← hnodes]
      exact added_inv h hold hwf hstored now _
    · intro hpops
      rw [← hnodes]
      apply inserted_ordered (timerCmp nodes) _ hsize hnode
      apply ordered_of_same_keys _ (ho hpops)
      intro a ha
      rw [hold a (h.below a ha)]

theorem del_step {s s' : Timers} (h : TimersInv s) (ho : TimersOrdered s) {request now : ℕ}
    (hdel : sgxTimerDel s request now = some s') : TimersInv s' ∧ TimersOrdered s' := by
  simp only [sgxTimerDel, timerUpdate, Option.bind_eq_bind, Option.bind_eq_some_iff,
    Option.some.injEq] at hdel
  obtain ⟨node, -, rfl⟩ := hdel
  constructor
  · refine ⟨h.wf, h.nodup, h.below, h.waiting, h.unborn, fun a ha hgone hdel => ?_⟩
    simp only at hdel ⊢
    have hne := ne_of_live hdel
    rw [Function.update_of_ne hne] at hdel ⊢
    exact h.gone a ha hgone hdel
  · intro hpops
    have hkey (a : ℕ) := del_field (f := SgxTimerNode.key) (fun _ => rfl) s node a
    exact @ordered_of_same_keys s _ (fun a _ => hkey a) (ho hpops)

theorem init_step {s : Timers} {nodes : ℕ → SgxTimerNode} {now : ℕ} {mem : Option (ℕ → ℕ)}
    (hinit : sgxTimerInit nodes now mem = some s) : TimersInv s ∧ TimersOrdered s := by
  obtain ⟨q, hq, rfl⟩ := Option.map_eq_some_iff.mp hinit
  obtain ⟨hwf, hsize⟩ := init_wf (by decide) (by decide) hq
  have hnone : stored q = 0 := stored_eq_zero hsize
  have hmem (a : ℕ) : a ∉ stored q := by
    rw [hnone]
    exact Multiset.notMem_zero a
  constructor
  · refine ⟨hwf, ?_, fun a ha => absurd ha (hmem a), fun a ha => absurd ha (hmem a), fun _ _ => rfl,
      fun a ha => absurd ha (Nat.not_lt_zero a)⟩
    simp only [hnone]
    exact Multiset.nodup_zero
  · intro _ i h2 hi
    simp only [hsize] at hi
    omega

/-- The timers after any calls in which no allocation of `sgx_timer_add` failed. -/
inductive TimerRun : Timers → Prop where
  | init {s nodes now mem} : sgxTimerInit nodes now mem = some s → TimerRun s
  | add {s s' request timeout handler now mem} : TimerRun s →
      sgxTimerAdd s request timeout handler now mem = some (sgxOk, s') → TimerRun s'
  | del {s s' request now} : TimerRun s → sgxTimerDel s request now = some s' → TimerRun s'
  | find {s s' time now mem} : TimerRun s → sgxTimerFind s now mem = some (time, s') → TimerRun s'
  | expire {s s' now mem} : TimerRun s → sgxHandleExpireTimers s now mem = some s' → TimerRun s'

theorem run_inv {s : Timers} (h : TimerRun s) : TimersInv s ∧ TimersOrdered s := by
  induction h with
  | init hinit => exact init_step hinit
  | @add s s' request timeout handler now mem _ hadd ih =>
    obtain ⟨result, s'', hstep, hinv⟩ := add_step ih.1 ih.2 request timeout handler now mem
    rw [hadd, Option.some.injEq, Prod.mk.injEq] at hstep
    obtain ⟨rfl, rfl⟩ := hstep
    exact hinv rfl
  | del _ hdel ih => exact del_step ih.1 ih.2 hdel
  | @find s s' time now mem _ hfind ih =>
    obtain ⟨time', s'', hstep, hinv, hordered⟩ :=
      findLoop_spec _ ih.1 ih.2 (Nat.lt_succ_self _) now mem
    rw [sgxTimerFind, hstep, Option.some.injEq, Prod.mk.injEq] at hfind
    obtain ⟨rfl, rfl⟩ := hfind
    exact ⟨hinv, hordered⟩
  | @expire s s' now mem _ hexpire ih =>
    obtain ⟨s'', hstep, hinv, hordered, -⟩ :=
      expireLoop_spec _ ih.1 ih.2 (Nat.lt_succ_self _) now mem
    rw [sgxHandleExpireTimers, hstep, Option.some.injEq] at hexpire
    obtain rfl := hexpire
    exact ⟨hinv, hordered⟩

theorem expiry_is_complete {s : Timers} (h : TimerRun s) (time : ℕ) (mem : ℕ → Option (ℕ → ℕ)) :
    ∃ s', sgxHandleExpireTimers s (fun _ => time) mem = some s' ∧ s'.nodes = s.nodes ∧
      s'.next = s.next ∧ (AllPopsKeepLeft s' → ∀ a < s.next, (s.nodes a).del = 0 →
        ((s.nodes a).key ≤ time →
          a ∉ stored s'.sgxTimerQ ∧ s'.calls.count a = (s.nodes a).dueCalls) ∧
        (time < (s.nodes a).key → a ∈ stored s.sgxTimerQ →
          a ∈ stored s'.sgxTimerQ ∧ s'.calls.count a = 0)) := by
  obtain ⟨hinv, hordered⟩ := run_inv h
  obtain ⟨s', hstep, hinv', -, hsame, hexpired⟩ :=
    expireLoop_spec _ hinv hordered (Nat.lt_succ_self _) (fun _ => time) mem
  obtain ⟨hlate, hdue⟩ := hexpired time fun _ => rfl
  refine ⟨s', hstep, hsame.nodes, hsame.next, fun hpops a ha hdel => ⟨fun hkey => ?_, ?_⟩⟩
  · have hgone : a ∉ stored s'.sgxTimerQ := by
      intro hin
      exact absurd (hdue hpops a hin) (Nat.not_lt.mpr hkey)
    have hcalled := hinv'.gone a (by rwa [hsame.next]) hgone (by rwa [hsame.nodes])
    rw [hsame.nodes] at hcalled
    exact ⟨hgone, hcalled⟩
  · intro hkey hin
    have hin' := hlate a hin hdel hkey
    exact ⟨hin', hinv'.waiting a hin'⟩

theorem expiry_is_complete_two_timers : ∃ s s' : Timers, TimerRun s ∧
    sgxHandleExpireTimers s (fun _ => 7) (fun _ => none) = some s' ∧
      (0 ∉ stored s'.sgxTimerQ ∧ s'.calls.count 0 = 1) ∧
      1 ∈ stored s'.sgxTimerQ ∧ s'.calls.count 1 = 0 := by
  have hrun := TimerRun.add (TimerRun.add (TimerRun.init (Eq.refl
    (sgxTimerInit (fun _ => ⟨0, 0, none, 0⟩) 0 (some fun _ => 0)))) (Eq.refl
    (sgxTimerAdd _ 0 5 (some 0) 0 none))) (Eq.refl (sgxTimerAdd _ 1 9 (some 0) 0 none))
  obtain ⟨s', hstep, -, -, hexpiry⟩ := expiry_is_complete hrun 7 (fun _ => none)
  refine ⟨_, s', hrun, hstep, ?_⟩
  have hkeep : AllPopsKeepLeft s' := by
    cases hstep
    rintro p hp
    obtain rfl := List.mem_singleton.mp hp
    exact popKeepsLeft_of_small _ (by decide)
  exact ⟨(hexpiry hkeep 0 (by decide) rfl).1 (by decide),
    (hexpiry hkeep 1 (by decide) rfl).2 (by decide) (mem_contents.mpr ⟨2, by decide, by decide, rfl⟩)⟩

theorem expiry_skips_a_due_timer : ∃ s s' : Timers, TimerRun s ∧
    sgxHandleExpireTimers s (fun _ => 2) (fun _ => none) = some s' ∧
      (s.nodes 2).del = 0 ∧ (s.nodes 2).key ≤ 2 ∧ (s.nodes 2).handler = some 0 ∧
      2 ∈ stored s'.sgxTimerQ ∧ s'.calls.count 2 = 0 := by
  refine ⟨_, _, TimerRun.add (TimerRun.add (TimerRun.add (TimerRun.add (TimerRun.init (Eq.refl
      (sgxTimerInit (fun _ => ⟨0, 0, none, 0⟩) 0 (some fun _ => 0)))) (Eq.refl
      (sgxTimerAdd _ 0 1 (some 0) 0 none))) (Eq.refl (sgxTimerAdd _ 1 5 (some 0) 0 none))) (Eq.refl
      (sgxTimerAdd _ 2 2 (some 0) 0 none))) (Eq.refl (sgxTimerAdd _ 3 6 (some 0) 0 none)), Eq.refl _,
      rfl, le_refl 2, rfl, ?_, rfl⟩
  exact mem_contents.mpr ⟨3, by decide, by decide, by decide⟩

end Sginx.Timer
