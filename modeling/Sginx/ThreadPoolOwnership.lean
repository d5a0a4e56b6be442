import Sginx.ThreadPoolOrder

namespace Sginx.ThreadPool

open Sginx.Library.Transition Sginx.Library.Census

variable {n : ℕ} {P R A : Type}

def copies (id : ℕ) (items : List (SgxWorkList R A)) : ℕ := items.countP fun work => work.id == id

def WorkerPc.carried : WorkerPc R A → Option (SgxWorkList R A)
  | .leave work => some work
  | .holding work => some work
  | .executing work => some work
  | .freeing work => some work
  | _ => none

def WorkerPc.carries (id : ℕ) (pc : WorkerPc R A) : Bool := pc.carried.any fun work => work.id == id

theorem carries_of_some {pc : WorkerPc R A} {work : SgxWorkList R A} {id : ℕ}
    (h : pc.carried = some work) : pc.carries id = (work.id == id) := by
  rw [WorkerPc.carries, h, Option.any_some]

theorem carries_of_none {pc : WorkerPc R A} {id : ℕ} (h : pc.carried = none) :
    pc.carries id = false := by
  rw [WorkerPc.carries, h, Option.any_none]

def WorkerPc.hasCalled (id : ℕ) : WorkerPc R A → Bool
  | .executing work => work.id == id
  | .freeing work => work.id == id
  | _ => false

theorem copies_append (id : ℕ) (items more : List (SgxWorkList R A)) :
    copies id (items ++ more) = copies id items + copies id more := by
  apply List.countP_append

theorem copies_cons (id : ℕ) (work : SgxWorkList R A) (items : List (SgxWorkList R A)) :
    copies id (work :: items) = copies id items + (work.id == id).toNat := by
  rw [copies, List.countP_cons]
  cases work.id == id <;> rfl

theorem copies_single (id : ℕ) (work : SgxWorkList R A) :
    copies id [work] = (work.id == id).toNat := by
  rw [copies_cons]
  exact Nat.zero_add _

theorem copies_eq_one {items : List (SgxWorkList R A)}
    (hnodup : (items.map SgxWorkList.id).Nodup) {work : SgxWorkList R A} (hmem : work ∈ items) :
    copies work.id items = 1 := by
  have hcount : copies work.id items = (items.map SgxWorkList.id).count work.id := by
    rw [copies, List.count, List.countP_map]
    rfl
  rw [hcount]
  exact List.count_eq_one_of_mem hnodup (List.mem_map_of_mem hmem)

structure Carried (pc : Fin n → WorkerPc R A)
    (dequeued started finished : List (SgxWorkList R A)) : Prop where
  held : ∀ id, copies id dequeued = census (WorkerPc.carries id) pc + copies id finished
  called : ∀ id, copies id started = census (WorkerPc.hasCalled id) pc + copies id finished
  carried : ∀ i work, (pc i).carried = some work → work ∈ dequeued
  started : ∀ work ∈ started, work ∈ dequeued
  finished : ∀ work ∈ finished, work ∈ dequeued

section carried

variable {pc : Fin n → WorkerPc R A} {dequeued started finished : List (SgxWorkList R A)}

theorem carried_update {i j : Fin n} {pc' : WorkerPc R A} {work : SgxWorkList R A}
    (h : (Function.update pc i pc' j).carried = some work) :
    pc'.carried = some work ∨ (pc j).carried = some work := by
  by_cases hj : j = i
  · rw [hj, Function.update_self] at h
    exact .inl h
  · rw [Function.update_of_ne hj] at h
    exact .inr h

theorem Carried.keep (h : Carried pc dequeued started finished) {pc' : Fin n → WorkerPc R A}
    (hcarried : ∀ i, (pc' i).carried = (pc i).carried)
    (hcalled : ∀ id i, (pc' i).hasCalled id = (pc i).hasCalled id) :
    Carried pc' dequeued started finished where
  held id := by
    rw [h.held id]
    congr 1
    apply census_congr
    intro i
    rw [WorkerPc.carries, WorkerPc.carries, hcarried i]
  called id := by
    rw [h.called id]
    congr 1
    apply census_congr
    exact fun i => (hcalled id i).symm
  carried i work hi := h.carried i work (by rwa [hcarried i] at hi)
  started := h.started
  finished := h.finished

theorem Carried.move (h : Carried pc dequeued started finished) {i : Fin n} {pc' : WorkerPc R A}
    (hcarried : pc'.carried = (pc i).carried) (hcalled : ∀ id, pc'.hasCalled id = (pc i).hasCalled id) :
    Carried (Function.update pc i pc') dequeued started finished := by
  apply h.keep
  · exact update_keeps hcarried
  · exact fun id => update_keeps (hcalled id)

theorem Carried.take (h : Carried pc dequeued started finished) {i : Fin n} (hpc : pc i = .take)
    (work : SgxWorkList R A) :
    Carried (Function.update pc i (.leave work)) (dequeued ++ [work]) started finished where
  held id := by
    have hcount := census_update (WorkerPc.carries id) pc i (.leave work)
    rw [hpc, carries_of_none rfl, @carries_of_some _ _ _ work id rfl, Bool.toNat_false] at hcount
    rw [copies_append, copies_single, h.held id]
    omega
  called id := by
    rw [h.called id, census_update_same]
    rw [hpc]
    rfl
  carried j other hj := by
    rcases carried_update hj with hj | hj
    · obtain rfl := Option.some.inj hj
      exact List.mem_append_right _ (List.mem_singleton_self _)
    · exact List.mem_append_left _ (h.carried j other hj)
  started other hmem := List.mem_append_left _ (h.started other hmem)
  finished other hmem := List.mem_append_left _ (h.finished other hmem)

theorem Carried.start (h : Carried pc dequeued started finished) {i : Fin n}
    {work : SgxWorkList R A} (hpc : pc i = .holding work) :
    Carried (Function.update pc i (.executing work)) dequeued (work :: started) finished where
  held id := by
    rw [h.held id, census_update_same]
    rw [hpc]
    rfl
  called id := by
    have hcount := census_update (WorkerPc.hasCalled id) pc i (.executing work)
    rw [hpc] at hcount
    simp only [WorkerPc.hasCalled, Bool.toNat_false] at hcount
    rw [copies_cons, h.called id]
    omega
  carried j other hj := by
    rcases carried_update hj with hj | hj
    · exact h.carried i other (by rw [hpc]; exact hj)
    · exact h.carried j other hj
  started := by
    rw [List.forall_mem_cons]
    exact ⟨h.carried i work (by rw [hpc]; rfl), h.started⟩
  finished := h.finished

theorem Carried.free (h : Carried pc dequeued started finished) {i : Fin n}
    {work : SgxWorkList R A} (hpc : pc i = .freeing work) :
    Carried (Function.update pc i .lock) dequeued started (work :: finished) where
  held id := by
    have hcount := census_update (WorkerPc.carries id) pc i .lock
    rw [hpc, carries_of_some rfl, carries_of_none rfl, Bool.toNat_false] at hcount
    rw [copies_cons, h.held id]
    omega
  called id := by
    have hcount := census_update (WorkerPc.hasCalled id) pc i .lock
    rw [hpc] at hcount
    simp only [WorkerPc.hasCalled, Bool.toNat_false] at hcount
    rw [copies_cons, h.called id]
    omega
  carried j other hj := by
    rcases carried_update hj with hj | hj
    · cases hj
    · exact h.carried j other hj
  started := h.started
  finished := by
    rw [List.forall_mem_cons]
    exact ⟨h.carried i work (by rw [hpc]; rfl), h.finished⟩

end carried

theorem carried_worker {s s' : Pool n P R A} {i : Fin n}
    (h : Carried s.pc s.dequeued s.started s.finished) (hmove : WorkerMove s i s') :
    Carried s'.pc s'.dequeued s'.started s'.finished := by
  cases hmove with
  | acquire hpc hfree =>
    rcases hpc with hpc | hpc
    · exact h.move (by rw [hpc]; rfl) (fun _ => by rw [hpc]; rfl)
    · exact h.move (by rw [hpc]; rfl) (fun _ => by rw [hpc]; rfl)
  | empty hpc | work hpc | leaveLoop hpc | enterLoop hpc | sleep hpc | stop hpc | goOn hpc
  | exit hpc | unlock _ hpc | finish _ hpc =>
    exact h.move (by rw [hpc]; rfl) (fun _ => by rw [hpc]; rfl)
  | take work next hpc hnow => exact h.take hpc work
  | start work hpc => exact h.start hpc
  | free work hpc => exact h.free hpc

theorem carried_ne {s : Pool n P R A} {i : Fin n} {work : SgxWorkList R A}
    (hi : (s.pc i).carried = some work) {pc : WorkerPc R A} (hpc : pc.carried = none) :
    s.pc i ≠ pc := by
  intro h
  rw [h, hpc] at hi
  cases hi

theorem carried_isBlocked {s : Pool n P R A} {i : Fin n} {work : SgxWorkList R A}
    (hi : (s.pc i).carried = some work) : (s.pc i).isBlocked = false := by
  rw [Bool.eq_false_iff]
  exact fun h => carried_ne hi rfl (eq_blocked h)

theorem carried_own {s s' : Pool n P R A} {i : Fin n} {work : SgxWorkList R A}
    (hi : (s.pc i).carried = some work) (hmove : WorkerMove s i s') :
    s.pc i = .leave work ∧ s'.pc i = .holding work ∨
      s.pc i = .holding work ∧ s'.pc i = .executing work ∧ s'.started = work :: s.started ∨
      s.pc i = .executing work ∧ s'.pc i = .freeing work ∨
      s.pc i = .freeing work ∧ s'.pc i = .lock ∧ s'.finished = work :: s.finished := by
  have hother {pc : WorkerPc R A} {other : SgxWorkList R A} (hpc : s.pc i = pc)
      (hcarried : pc.carried = some other) : other = work := by
    rw [hpc, hcarried] at hi
    exact Option.some.inj hi
  cases hmove with
  | unlock other hpc =>
    obtain rfl := hother hpc rfl
    exact .inl ⟨hpc, s.goto_self i _⟩
  | start other hpc =>
    obtain rfl := hother hpc rfl
    exact .inr (.inl ⟨hpc, s.goto_self i _, rfl⟩)
  | finish other hpc =>
    obtain rfl := hother hpc rfl
    exact .inr (.inr (.inl ⟨hpc, s.goto_self i _⟩))
  | free other hpc =>
    obtain rfl := hother hpc rfl
    exact .inr (.inr (.inr ⟨hpc, s.goto_self i _, rfl⟩))
  | acquire hpc =>
    rcases hpc with hpc | hpc
    · exact absurd hpc (carried_ne hi rfl)
    · exact absurd hpc (carried_ne hi rfl)
  | empty hpc | work hpc | leaveLoop hpc | enterLoop hpc | sleep hpc | stop hpc | goOn hpc
  | exit hpc | take _ _ hpc => exact absurd hpc (carried_ne hi rfl)

variable [DecidableEq P]

theorem run_carried {s : Pool n P R A} (hrun : Run s) :
    Carried s.pc s.dequeued s.started s.finished := by
  apply Reachable.invariant (I := fun s => Carried s.pc s.dequeued s.started s.finished) ?_ ?_ hrun
  · rintro s rfl
    have hnone (p : WorkerPc R A → Bool) (hp : p .lock = false) :
        census p (created n P R A).pc = 0 := by
      apply census_eq_zero
      exact fun _ => hp
    exact
      { held := by
          intro id
          rw [hnone _ rfl]
          rfl
        called := by
          intro id
          rw [hnone _ rfl]
          rfl
        carried := fun _ _ h => nomatch h
        started := fun _ h => nomatch h
        finished := fun _ h => nomatch h }
  · intro s a s' hstep h
    cases step_move hstep with
    | worker i _ hmove => exact carried_worker h hmove
    | spurious i hpc => exact h.keep (spurious_keeps rfl hpc) (fun _ => spurious_keeps rfl hpc)
    | enqueue p wakes work pc hp hfree hd hpc =>
      exact h.keep (signal_keeps rfl hpc) (fun _ => signal_keeps rfl hpc)
    | broadcast =>
      exact h.keep (broadcast_keeps rfl s.pc) (fun _ => broadcast_keeps rfl s.pc)
    | _ => exact h

def Seen (s : Pool n P R A) (work : SgxWorkList R A) : Prop :=
  work ∈ s.now ∨ (∃ i, (s.pc i).carried = some work) ∨ work ∈ s.started ∨ work ∈ s.finished ∨
    work ∈ s.drained

theorem accepted_of_seen {s : Pool n P R A} (hrun : Run s) {work : SgxWorkList R A}
    (h : Seen s work) : work ∈ s.accepted := by
  have hcarried := run_carried hrun
  rw [run_order hrun, List.mem_append, List.mem_append]
  rcases h with h | ⟨i, h⟩ | h | h | h
  · exact .inr h
  · exact .inl (.inl (hcarried.carried i work h))
  · exact .inl (.inl (hcarried.started work h))
  · exact .inl (.inl (hcarried.finished work h))
  · exact .inl (.inr h)

structure Tally (s : Pool n P R A) (id queued held started finished drained : ℕ) : Prop where
  queued : copies id s.now = queued
  held : census (WorkerPc.carries id) s.pc = held
  started : copies id s.started = started
  finished : copies id s.finished = finished
  drained : copies id s.drained = drained

structure Serves (s : Pool n P R A) (i : Fin n) (work : SgxWorkList R A) : Prop where
  enabled : ∃ s', step s (.worker i) = some s'
  others : ∀ a s', a ≠ .worker i → step s a = some s' → s'.pc i = s.pc i
  own : ∀ s', step s (.worker i) = some s' →
    s.pc i = .leave work ∧ s'.pc i = .holding work ∨
      s.pc i = .holding work ∧ s'.pc i = .executing work ∧ s'.started = work :: s.started ∨
      s.pc i = .executing work ∧ s'.pc i = .freeing work ∨
      s.pc i = .freeing work ∧ s'.pc i = .lock ∧ s'.finished = work :: s.finished
  ends : ∀ s', Reaches step s s' → (s'.pc i).carried = some work ∨ work ∈ s'.finished

theorem carried_enabled {s : Pool n P R A} {i : Fin n} {work : SgxWorkList R A}
    (hi : (s.pc i).carried = some work) : ∃ s', step s (.worker i) = some s' := by
  apply worker_enabled (carried_isBlocked hi)
  · rw [Bool.eq_false_iff]
    exact fun h => carried_ne hi rfl (eq_exited h)
  · rintro (h | h)
    · exact absurd h (carried_ne hi rfl)
    · exact absurd h (carried_ne hi rfl)
  · exact fun h => absurd h (carried_ne hi rfl)

theorem finished_step {s s' : Pool n P R A} {a : Action n P R A} (hstep : step s a = some s')
    {work : SgxWorkList R A} (h : work ∈ s.finished) : work ∈ s'.finished := by
  cases step_move hstep with
  | worker i _ hmove =>
    cases hmove with
    | free other hpc => exact List.mem_cons_of_mem other h
    | _ => exact h
  | _ => exact h

theorem carried_step {s s' : Pool n P R A} {i : Fin n} {work : SgxWorkList R A}
    (hi : (s.pc i).carried = some work) {a : Action n P R A} (hstep : step s a = some s') :
    (s'.pc i).carried = some work ∨ work ∈ s'.finished := by
  by_cases ha : a = .worker i
  · subst ha
    rcases carried_own hi (workerStep_move hstep) with
      ⟨-, h⟩ | ⟨-, h, -⟩ | ⟨-, h⟩ | ⟨-, -, h⟩
    · rw [h]
      exact .inl rfl
    · rw [h]
      exact .inl rfl
    · rw [h]
      exact .inl rfl
    · rw [h]
      exact .inr List.mem_cons_self
  · rw [pc_of_others (carried_isBlocked hi) ha hstep]
    exact .inl hi

theorem carried_ends {s s' : Pool n P R A} {i : Fin n} {work : SgxWorkList R A}
    (hi : (s.pc i).carried = some work) (h : Reaches step s s') :
    (s'.pc i).carried = some work ∨ work ∈ s'.finished := by
  apply h.invariant (I := fun t => (t.pc i).carried = some work ∨ work ∈ t.finished) ?_ (.inl hi)
  intro t a t' hstep ht
  rcases ht with ht | ht
  · exact carried_step ht hstep
  · exact .inr (finished_step hstep ht)

theorem serves_of_carried {s : Pool n P R A} {i : Fin n} {work : SgxWorkList R A}
    (hi : (s.pc i).carried = some work) : Serves s i work where
  enabled := carried_enabled hi
  others _ _ ha hstep := pc_of_others (carried_isBlocked hi) ha hstep
  own _ hstep := carried_own hi (workerStep_move hstep)
  ends _ h := carried_ends hi h

inductive Owned (s : Pool n P R A) (work : SgxWorkList R A) : Prop where
  | queued (h : Tally s work.id 1 0 0 0 0)
  | held (i) (hi : (s.pc i).carried = some work) (hserves : Serves s i work)
      (h : Tally s work.id 0 1 ((s.pc i).hasCalled work.id).toNat 0 0)
  | ran (h : Tally s work.id 0 0 1 1 0)
  | dropped (hd : s.destroyer = .drain ∨ s.destroyer = .released) (h : Tally s work.id 0 0 0 0 1)

theorem hasCalled_of_carries {id : ℕ} {pc : WorkerPc R A} (h : pc.carries id = false) :
    pc.hasCalled id = false := by
  cases pc with
  | executing work => exact h
  | freeing work => exact h
  | _ => rfl

theorem exists_of_carries {id : ℕ} {pc : WorkerPc R A} (h : pc.carries id = true) :
    ∃ work, pc.carried = some work ∧ work.id = id := by
  obtain ⟨work, hwork, hid⟩ := (Option.any_eq_true _ _).mp h
  exact ⟨work, hwork, beq_iff_eq.mp hid⟩

theorem copies_sum {s : Pool n P R A} (hrun : Run s) {work : SgxWorkList R A}
    (hmem : work ∈ s.accepted) :
    copies work.id s.now + census (WorkerPc.carries work.id) s.pc + copies work.id s.finished +
      copies work.id s.drained = 1 := by
  have hone := copies_eq_one (run_numbered hrun).nodup hmem
  rw [run_order hrun, copies_append, copies_append, (run_carried hrun).held] at hone
  omega

theorem eq_of_seen {s : Pool n P R A} (hrun : Run s) {work other : SgxWorkList R A}
    (hmem : work ∈ s.accepted) (h : Seen s other) (hid : other.id = work.id) : other = work :=
  List.inj_on_of_nodup_map (run_numbered hrun).nodup (accepted_of_seen hrun h) hmem hid

theorem owned_of_accepted {s : Pool n P R A} (hrun : Run s) {work : SgxWorkList R A}
    (hmem : work ∈ s.accepted) : Owned s work := by
  have hsum := copies_sum hrun hmem
  have hcalled := (run_carried hrun).called work.id
  by_cases hheld : census (WorkerPc.carries work.id) s.pc = 1
  · obtain ⟨i, hi, huniq⟩ := census_eq_one_iff.mp hheld
    obtain ⟨other, hother, hid⟩ := exists_of_carries hi
    obtain rfl := eq_of_seen hrun hmem (.inr (.inl ⟨i, hother⟩)) hid
    have hstarted : census (WorkerPc.hasCalled other.id) s.pc =
        ((s.pc i).hasCalled other.id).toNat := by
      apply census_of_unique
      intro j hj
      apply hasCalled_of_carries
      rw [Bool.eq_false_iff]
      exact fun h => hj (huniq j h)
    exact .held i hother (serves_of_carried hother)
      { queued := by omega
        held := hheld
        started := by omega
        finished := by omega
        drained := by omega }
  · have hnone : census (WorkerPc.carries work.id) s.pc = 0 := by omega
    have hstarted : census (WorkerPc.hasCalled work.id) s.pc = 0 := by
      apply census_eq_zero
      intro i
      apply hasCalled_of_carries
      rw [Bool.eq_false_iff]
      intro hi
      have := census_pos hi
      omega
    by_cases hqueued : copies work.id s.now = 1
    · exact .queued
        { queued := hqueued
          held := hnone
          started := by omega
          finished := by omega
          drained := by omega }
    · by_cases hran : copies work.id s.finished = 1
      · exact .ran
          { queued := by omega
            held := hnone
            started := by omega
            finished := hran
            drained := by omega }
      · have hdrained : copies work.id s.drained = 1 := by omega
        have hne : s.drained ≠ [] := by
          intro hnil
          rw [hnil] at hdrained
          cases hdrained
        exact .dropped ((run_joined hrun).drained hne)
          { queued := by omega
            held := hnone
            started := by omega
            finished := by omega
            drained := hdrained }

theorem work_is_owned_once {s : Pool n P R A} (hrun : Run s) :
    s.accepted = s.dequeued ++ s.drained ++ s.now ∧
      ∀ work ∈ s.accepted, Owned s work ∧
        ∀ other, Seen s other → other.id = work.id → other = work :=
  ⟨run_order hrun, fun _ hmem => ⟨owned_of_accepted hrun hmem, fun _ => eq_of_seen hrun hmem⟩⟩

theorem work_is_owned_once_one_item : ∃ s : Pool 1 Unit Unit Unit,
    s.accepted = [⟨0, (), ()⟩] ∧ s.pc 0 = .executing ⟨0, (), ()⟩ ∧
      s.accepted = s.dequeued ++ s.drained ++ s.now ∧
      ∀ work ∈ s.accepted, Owned s work ∧
        ∀ other, Seen s other → other.id = work.id → other = work := by
  have hrun : Run _ := ⟨created 1 Unit Unit Unit, rfl, (Reaches.refl _).execute (Eq.refl
    (execute step (created 1 Unit Unit Unit) [.call () (some ()) () true, .enqueue () none,
      .worker 0, .worker 0, .worker 0, .worker 0, .worker 0, .worker 0]))⟩
  exact ⟨_, rfl, rfl, work_is_owned_once hrun⟩

end Sginx.ThreadPool
