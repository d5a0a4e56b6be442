import Sginx.ThreadPool

namespace Sginx.ThreadPool

open Sginx.Library.Transition

variable {n : ℕ} {P R A : Type}

def DestroyPc.isJoining : DestroyPc → Bool
  | .join _ => true
  | .drain => true
  | .released => true
  | _ => false

def WorkerPc.isStopping : WorkerPc R A → Bool
  | .wait => false
  | .blocked => false
  | .take => false
  | .leave _ => false
  | _ => true

def WorkerPc.inRoutine : WorkerPc R A → Bool
  | .holding _ => true
  | .executing _ => true
  | _ => false

def exitRank : WorkerPc R A → ℕ
  | .freeing _ => 6
  | .lock => 5
  | .woken => 5
  | .testNow => 4
  | .testShutdown => 3
  | .check => 2
  | .exiting => 1
  | .exited => 0
  | _ => 7

theorem stopping_worker {s s' : Pool n P R A} {i : Fin n} (hs : s.shutdown = true)
    (h : ∀ j, (s.pc j).isStopping = true) (hmove : WorkerMove s i s') (j : Fin n) :
    (s'.pc j).isStopping = true := by
  have hupdate {pc' : WorkerPc R A} (hpc : pc'.isStopping = true) :
      (Function.update s.pc i pc' j).isStopping = true := update_eq hpc (h j)
  have hi := h i
  cases hmove with
  | enterLoop hpc hshut => exact absurd hs (by simp [hshut])
  | sleep hpc => exact absurd hi (by rw [hpc]; exact Bool.noConfusion)
  | goOn hpc hshut => exact absurd hs (by simp [hshut])
  | take work next hpc hnow => exact absurd hi (by rw [hpc]; exact Bool.noConfusion)
  | _ => exact hupdate rfl

theorem leaves_own {s s' : Pool n P R A} {i : Fin n} (hs : s.shutdown = true)
    (hi : (s.pc i).isStopping = true) (hout : (s.pc i).inRoutine = false)
    (hmove : WorkerMove s i s') :
    (s'.pc i).inRoutine = false ∧ exitRank (s'.pc i) < exitRank (s.pc i) := by
  have hgoto {pc' : WorkerPc R A} (hpc' : pc'.inRoutine = false)
      (hrank : exitRank pc' < exitRank (s.pc i)) :
      ((s.goto i pc').pc i).inRoutine = false ∧
        exitRank ((s.goto i pc').pc i) < exitRank (s.pc i) := by
    rw [Pool.goto_self]
    exact ⟨hpc', hrank⟩
  cases hmove with
  | acquire hpc hfree =>
    apply hgoto rfl
    rcases hpc with hpc | hpc
    · rw [hpc]; exact Nat.lt_succ_self 4
    · rw [hpc]; exact Nat.lt_succ_self 4
  | empty hpc hnow => exact hgoto rfl (by rw [hpc]; exact Nat.lt_succ_self 3)
  | work hpc hnow => exact hgoto rfl (by rw [hpc]; simp [exitRank])
  | leaveLoop hpc _ => exact hgoto rfl (by rw [hpc]; exact Nat.lt_succ_self 2)
  | enterLoop hpc hshut => exact absurd hs (by simp [hshut])
  | sleep hpc => exact absurd hi (by rw [hpc]; exact Bool.noConfusion)
  | stop hpc _ => exact hgoto rfl (by rw [hpc]; exact Nat.lt_succ_self 1)
  | goOn hpc hshut => exact absurd hs (by simp [hshut])
  | exit hpc => exact hgoto rfl (by rw [hpc]; exact Nat.lt_succ_self 0)
  | take work next hpc hnow => exact absurd hi (by rw [hpc]; exact Bool.noConfusion)
  | unlock work hpc => exact absurd hi (by rw [hpc]; exact Bool.noConfusion)
  | start work hpc => exact absurd hout (by rw [hpc]; exact Bool.noConfusion)
  | finish work hpc => exact absurd hout (by rw [hpc]; exact Bool.noConfusion)
  | free work hpc => exact hgoto rfl (by rw [hpc]; exact Nat.lt_succ_self 5)

theorem isBlocked_of_isStopping {pc : WorkerPc R A} (h : pc.isStopping = true) :
    pc.isBlocked = false := by
  cases pc with
  | blocked => cases h
  | _ => rfl

theorem isJoining_ne_idle {d : DestroyPc} (h : d.isJoining = true) : d ≠ .idle := by
  rintro rfl
  cases h

theorem stopping_broadcast {pc : Fin n → WorkerPc R A} {lock : Option (Fin n)}
    (h : LockOk pc lock) (hfree : lock = none) (i : Fin n) :
    (broadcast pc i).isStopping = true := by
  -- the broadcast needs the lock, so no worker is between a test and its sleep or its item
  have hi := h.hasLock_eq_false hfree i
  rw [broadcast]
  cases hpc : pc i with
  | blocked => rfl
  | wait =>
    rw [hpc] at hi
    cases hi
  | take =>
    rw [hpc] at hi
    cases hi
  | leave work =>
    rw [hpc] at hi
    cases hi
  | _ => rfl

theorem stopping_signal {pc pc' : Fin n → WorkerPc R A} (h : ∀ i, (pc i).isStopping = true)
    {wakes : Option (Fin n)} (hsignal : signal pc wakes = some pc') (i : Fin n) :
    (pc' i).isStopping = true := by
  rcases signal_cases hsignal with ⟨rfl, -⟩ | ⟨j, hj, rfl⟩
  · exact h i
  · have := h j
    rw [eq_blocked hj] at this
    cases this

variable [DecidableEq P]

theorem run_stopping {s : Pool n P R A} (hrun : Run s) :
    s.destroyer.isJoining = true → ∀ i, (s.pc i).isStopping = true := by
  apply Reachable.invariant_with
    (I := fun s => LockOk s.pc s.lock ∧ (s.destroyer ≠ .idle → s.shutdown = true))
    (J := fun s => s.destroyer.isJoining = true → ∀ i, (s.pc i).isStopping = true)
    (fun _ h => ⟨run_lockOk h, run_shutdown h⟩) ?_ ?_ hrun
  · rintro s rfl hd
    cases hd
  · intro s a s' hstep ⟨hlock, hdestroy⟩ h
    cases step_move hstep with
    | worker i _ hmove =>
      intro hd'
      have hd : s.destroyer.isJoining = true := by cases hmove <;> exact hd'
      exact stopping_worker (hdestroy (isJoining_ne_idle hd)) (h hd) hmove
    | spurious i hpc =>
      intro hd
      have := h hd i
      rw [eq_blocked hpc] at this
      cases this
    | enqueue p wakes work pc hp hfree _ hpc => exact fun hd => stopping_signal (h hd) hpc
    | shutdown => exact fun hd => nomatch hd
    | broadcast hd hfree => exact fun _ => stopping_broadcast hlock hfree
    | join k hd => exact fun _ => h (by rw [hd]; rfl)
    | joined k hd => exact fun _ => h (by rw [hd]; rfl)
    | released hd => exact fun _ => h (by rw [hd]; rfl)
    | _ => exact h

theorem joining_step {s s' : Pool n P R A} {a : Action n P R A} (hrun : Run s)
    (hd : s.destroyer.isJoining = true) (hstep : step s a = some s') :
    s'.destroyer.isJoining = true ∧ s'.dequeued = s.dequeued := by
  cases step_move hstep with
  | worker i _ hmove =>
    have hi := run_stopping hrun hd i
    cases hmove with
    | take work next hpc hnow => exact absurd hi (by rw [hpc]; exact Bool.noConfusion)
    | _ => exact ⟨hd, rfl⟩
  | shutdown hidle => exact absurd hidle (isJoining_ne_idle hd)
  | broadcast hd' => exact absurd hd (by rw [hd']; exact Bool.noConfusion)
  | join => exact ⟨rfl, rfl⟩
  | joined => exact ⟨rfl, rfl⟩
  | released => exact ⟨rfl, rfl⟩
  | _ => exact ⟨hd, rfl⟩

theorem joining_run {s s' : Pool n P R A} (hrun : Run s) (hd : s.destroyer.isJoining = true)
    (h : Reaches step s s') :
    Run s' ∧ s'.destroyer.isJoining = true ∧ s'.dequeued = s.dequeued := by
  apply h.invariant
    (I := fun t => Run t ∧ t.destroyer.isJoining = true ∧ t.dequeued = s.dequeued) ?_
    ⟨hrun, hd, rfl⟩
  intro t a t' hstep ⟨ht, hdt, heq⟩
  have hnext := joining_step ht hdt hstep
  exact ⟨ht.trans ((Reaches.refl t).step hstep), hnext.1, hnext.2.trans heq⟩

structure Leaves (s : Pool n P R A) (i : Fin n) : Prop where
  enabled : (s.pc i).isExited = true ∨
    (s.lock = none ∨ s.lock = some i → ∃ s', step s (.worker i) = some s')
  others : ∀ a s', a ≠ .worker i → step s a = some s' → s'.pc i = s.pc i
  own : ∀ s', step s (.worker i) = some s' →
    (s'.pc i).inRoutine = false ∧ exitRank (s'.pc i) < exitRank (s.pc i)

theorem leaves_enabled {s : Pool n P R A} {i : Fin n} (hlock : LockOk s.pc s.lock)
    (hi : (s.pc i).isStopping = true) :
    (s.pc i).isExited = true ∨
      (s.lock = none ∨ s.lock = some i → ∃ s', step s (.worker i) = some s') := by
  by_cases hexited : (s.pc i).isExited = true
  · exact .inl hexited
  · refine .inr fun hfree => worker_enabled (isBlocked_of_isStopping hi)
      (Bool.eq_false_of_not_eq_true hexited) ?_ ?_
    · intro hpc
      rcases hfree with hnone | hown
      · exact hnone
      · have hsection := (hlock i).mpr hown
        rcases hpc with hpc | hpc
        · rw [hpc] at hsection
          cases hsection
        · rw [hpc] at hsection
          cases hsection
    · intro hpc
      rw [hpc] at hi
      cases hi

theorem leaves_of_joining {s : Pool n P R A} (hrun : Run s) (hd : s.destroyer.isJoining = true)
    {i : Fin n} (hout : (s.pc i).inRoutine = false) : Leaves s i where
  enabled := leaves_enabled (run_lockOk hrun) (run_stopping hrun hd i)
  others _ _ ha hstep := pc_of_others (isBlocked_of_isStopping (run_stopping hrun hd i)) ha hstep
  own _ hstep := leaves_own (run_shutdown hrun (isJoining_ne_idle hd)) (run_stopping hrun hd i) hout
    (workerStep_move hstep)

theorem shutdown_strands_no_worker {s s' : Pool n P R A} (hrun : Run s)
    (hd : s.destroyer.isJoining = true) (h : Reaches step s s') :
    (∀ i, s'.pc i ≠ .blocked ∧ s'.pc i ≠ .wait) ∧ s'.dequeued = s.dequeued ∧
      (∀ i, s'.lock = some i → (s'.pc i).hasLock = true ∧ s'.pc i ≠ .exited) ∧
      ∀ i, (s'.pc i).inRoutine = false → Leaves s' i := by
  obtain ⟨hrun', hd', hdequeued⟩ := joining_run hrun hd h
  refine ⟨?_, hdequeued, ?_, fun i => leaves_of_joining hrun' hd'⟩
  · intro i
    have hi := run_stopping hrun' hd' i
    constructor
    · intro hpc
      rw [hpc] at hi
      cases hi
    · intro hpc
      rw [hpc] at hi
      cases hi
  · intro i hi
    have hlock := (run_lockOk hrun' i).mpr hi
    refine ⟨hlock, ?_⟩
    intro hpc
    rw [hpc] at hlock
    cases hlock

theorem shutdown_strands_no_worker_one : ∃ s : Pool 1 Unit Unit Unit,
    s.pc 0 = .woken ∧ s.shutdown = true ∧ s.destroyer = .join 0 ∧ Leaves s 0 := by
  have hrun : Run _ := ⟨created 1 Unit Unit Unit, rfl, (Reaches.refl _).execute (Eq.refl
    (execute step (created 1 Unit Unit Unit) [.worker 0, .worker 0, .worker 0, .destroy,
      .worker 0, .destroy]))⟩
  exact ⟨_, rfl, rfl, rfl, (shutdown_strands_no_worker hrun rfl (Reaches.refl _)).2.2.2 0 rfl⟩

end Sginx.ThreadPool
