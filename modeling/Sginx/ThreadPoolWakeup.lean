import Sginx.ThreadPool

namespace Sginx.ThreadPool

open Sginx.Library.Transition Sginx.Library.Census

variable {n : ℕ} {P R A : Type}

def WorkerPc.isReady : WorkerPc R A → Bool
  | .lock => true
  | .woken => true
  | _ => false

def WorkerPc.isAwake : WorkerPc R A → Bool
  | .lock => true
  | .testNow => true
  | .woken => true
  | .check => true
  | .take => true
  | _ => false

def WorkerPc.isBusy : WorkerPc R A → Bool
  | .leave _ => true
  | .holding _ => true
  | .executing _ => true
  | .freeing _ => true
  | _ => false

def WorkerPc.isTired : WorkerPc R A → Bool
  | .testShutdown => true
  | .wait => true
  | _ => false

def WorkerPc.isLeaving : WorkerPc R A → Bool
  | .exiting => true
  | .exited => true
  | _ => false

structure Served (now : List (SgxWorkList R A)) (pc : Fin n → WorkerPc R A) : Prop where
  alive : ∀ i, (pc i).isLeaving = false
  empty : ∀ i, (pc i).isTired = true → now = []
  awake : ∀ i, (pc i).isBlocked = true → now.length ≤ census WorkerPc.isAwake pc

section served

variable {now : List (SgxWorkList R A)} {pc : Fin n → WorkerPc R A}

theorem Served.update_alive (h : Served now pc) (i : Fin n) {pc' : WorkerPc R A}
    (hpc : pc'.isLeaving = false) (j : Fin n) : (Function.update pc i pc' j).isLeaving = false :=
  update_eq hpc (h.alive j)

theorem Served.sleep (h : Served now pc) (i : Fin n) {pc' : WorkerPc R A}
    (hpc : pc'.isLeaving = false) (hnow : now = []) : Served now (Function.update pc i pc') where
  alive := h.update_alive i hpc
  empty _ _ := hnow
  awake _ _ := by
    rw [hnow]
    exact Nat.zero_le _

theorem of_update {p : WorkerPc R A → Bool} {i j : Fin n} {pc' : WorkerPc R A}
    (hpc : p pc' = false) (h : p (Function.update pc i pc' j) = true) : p (pc j) = true := by
  by_contra hj
  rw [update_eq hpc (Bool.eq_false_of_not_eq_true hj)] at h
  cases h

theorem Served.move (h : Served now pc) {i : Fin n} {pc' : WorkerPc R A}
    (hleaving : pc'.isLeaving = false) (htired : pc'.isTired = false)
    (hblocked : pc'.isBlocked = false) (hawake : (pc i).isAwake.toNat ≤ pc'.isAwake.toNat) :
    Served now (Function.update pc i pc') where
  alive := h.update_alive i hleaving
  empty _ hj := h.empty _ (of_update htired hj)
  awake _ hj := by
    have hcount := census_update WorkerPc.isAwake pc i pc'
    have := h.awake _ (of_update hblocked hj)
    omega

theorem Served.take {work : SgxWorkList R A} {next : List (SgxWorkList R A)}
    (h : Served (work :: next) pc) {i : Fin n} (hi : pc i = .take) :
    Served next (Function.update pc i (.leave work)) where
  alive := h.update_alive i rfl
  empty _ hj := absurd (h.empty _ (of_update rfl hj)) (List.cons_ne_nil work next)
  awake _ hj := by
    -- one item less, and one worker less that is awake for it
    have hcount := census_update WorkerPc.isAwake pc i (.leave work)
    have hlen := h.awake _ (of_update rfl hj)
    rw [hi] at hcount
    rw [List.length_cons] at hlen
    simp only [WorkerPc.isAwake, Bool.toNat_true, Bool.toNat_false] at hcount
    omega

theorem Served.enqueue (h : Served now pc) (work : SgxWorkList R A)
    (htired : ∀ i, (pc i).isTired = false) {wakes : Option (Fin n)} {pc' : Fin n → WorkerPc R A}
    (hsignal : signal pc wakes = some pc') : Served (now ++ [work]) pc' := by
  -- without a worker that is woken for the item none is blocked
  rcases signal_cases hsignal with ⟨rfl, hnone⟩ | ⟨i, hi, rfl⟩
  · exact
      { alive := h.alive
        empty := fun j hj => absurd hj (by simp [htired j])
        awake := fun j hj => absurd hj (by simp [hnone j]) }
  · exact
      { alive := h.update_alive i rfl
        empty := fun j hj => absurd (of_update rfl hj) (by simp [htired j])
        awake := by
          intro j hj
          have hcount := census_update WorkerPc.isAwake pc i .woken
          have hlen := h.awake j (of_update rfl hj)
          rw [eq_blocked hi] at hcount
          rw [List.length_append, List.length_singleton]
          simp only [WorkerPc.isAwake, Bool.toNat_true, Bool.toNat_false] at hcount
          omega }

end served

theorem served_worker {s s' : Pool n P R A} {i : Fin n} (hs : s.shutdown = false)
    (h : Served s.now s.pc) (hmove : WorkerMove s i s') : Served s'.now s'.pc := by
  cases hmove with
  | acquire hpc hfree =>
    apply h.move rfl rfl rfl
    rcases hpc with hpc | hpc
    · rw [hpc]; exact Nat.le_refl _
    · rw [hpc]; exact Nat.le_refl _
  | empty hpc hnow => exact h.sleep i rfl hnow
  | work hpc hnow => exact h.move rfl rfl rfl (by rw [hpc]; exact Nat.le_refl _)
  | leaveLoop hpc hshut => exact absurd hshut (by simp [hs])
  | enterLoop hpc _ => exact h.sleep i rfl (h.empty i (by rw [hpc]; rfl))
  | sleep hpc => exact h.sleep i rfl (h.empty i (by rw [hpc]; rfl))
  | stop hpc hshut => exact absurd hshut (by simp [hs])
  | goOn hpc _ => exact h.move rfl rfl rfl (by rw [hpc]; exact Nat.le_refl _)
  | exit hpc => exact absurd (h.alive i) (by rw [hpc]; exact Bool.noConfusion)
  | take work next hpc hnow =>
    rw [hnow] at h
    exact h.take hpc
  | unlock work hpc => exact h.move rfl rfl rfl (by rw [hpc]; exact Nat.le_refl _)
  | start work hpc => exact h.move rfl rfl rfl (by rw [hpc]; exact Nat.le_refl _)
  | finish work hpc => exact h.move rfl rfl rfl (by rw [hpc]; exact Nat.le_refl _)
  | free work hpc => exact h.move rfl rfl rfl (by rw [hpc]; exact Nat.zero_le _)

theorem WorkerPc.hasLock_of_isTired {pc : WorkerPc R A} (h : pc.isTired = true) :
    pc.hasLock = true := by
  cases pc with
  | testShutdown => rfl
  | wait => rfl
  | _ => cases h

variable [DecidableEq P]

theorem run_served {s : Pool n P R A} (hrun : Run s) : s.shutdown = false → Served s.now s.pc := by
  apply Reachable.invariant_with
    (I := fun s => LockOk s.pc s.lock ∧ (s.destroyer ≠ .idle → s.shutdown = true))
    (J := fun s => s.shutdown = false → Served s.now s.pc)
    (fun _ h => ⟨run_lockOk h, run_shutdown h⟩) ?_ ?_ hrun
  · rintro s rfl _
    exact
      { alive := fun _ => rfl
        empty := fun _ _ => rfl
        awake := fun _ h => nomatch h }
  · intro s a s' hstep ⟨hlock, hdestroy⟩ h
    cases step_move hstep with
    | worker i _ hmove =>
      intro hs'
      have hs : s.shutdown = false := by cases hmove <;> exact hs'
      exact served_worker hs (h hs) hmove
    | spurious i hpc =>
      intro hs
      exact (h hs).move rfl rfl rfl (by rw [eq_blocked hpc]; exact Nat.zero_le _)
    | enqueue p wakes work pc hp hfree hd hpc =>
      intro hs
      apply (h hs).enqueue work ?_ hpc
      intro i
      rw [Bool.eq_false_iff]
      intro htired
      have := hlock.hasLock_eq_false hfree i
      rw [WorkerPc.hasLock_of_isTired htired] at this
      cases this
    | shutdown hd hs => exact fun hs' => nomatch hs'
    | broadcast hd hfree =>
      intro hs
      rw [hdestroy (by rw [hd]; exact DestroyPc.noConfusion)] at hs
      cases hs
    | drain work next hd hnow =>
      intro hs
      rw [hdestroy (by rw [hd]; exact DestroyPc.noConfusion)] at hs
      cases hs
    | _ => exact h

theorem isAwake_of_unlocked {pc : WorkerPc R A} (h : pc.hasLock = false) :
    pc.isAwake = pc.isReady := by
  cases pc with
  | testNow => cases h
  | check => cases h
  | take => cases h
  | _ => rfl

theorem isBlocked_of_unlocked {pc : WorkerPc R A} (h : pc.hasLock = false)
    (hleaving : pc.isLeaving = false) (hbusy : pc.isBusy = false) (hready : pc.isReady = false) :
    pc.isBlocked = true := by
  cases pc with
  | blocked => rfl
  | _ => simp_all [WorkerPc.hasLock, WorkerPc.isLeaving, WorkerPc.isBusy, WorkerPc.isReady]

theorem no_wakeup_is_lost {s : Pool n P R A} (hrun : Run s) (hs : s.shutdown = false)
    (hfree : s.lock = none) :
    ((∀ i, (s.pc i).isBlocked = false) ∨ s.now.length ≤ census WorkerPc.isReady s.pc) ∧
      (s.now ≠ [] → (∃ i, (s.pc i).isBusy = false) → ∃ i, (s.pc i).isReady = true) := by
  have hunlocked := (run_lockOk hrun).hasLock_eq_false hfree
  have hserved := run_served hrun hs
  have hcount : census WorkerPc.isAwake s.pc = census WorkerPc.isReady s.pc := by
    simp only [census, isAwake_of_unlocked (hunlocked _)]
  have hblocked : ∀ i, (s.pc i).isBlocked = true →
      s.now.length ≤ census WorkerPc.isReady s.pc := by
    intro i hi
    rw [← hcount]
    exact hserved.awake i hi
  constructor
  · by_cases hnone : ∀ i, (s.pc i).isBlocked = false
    · exact .inl hnone
    · obtain ⟨i, hi⟩ := not_forall.mp hnone
      exact .inr (hblocked i (Bool.eq_true_of_not_eq_false hi))
  · rintro hnow ⟨i, hbusy⟩
    by_cases hready : (s.pc i).isReady = true
    · exact ⟨i, hready⟩
    · have hi := isBlocked_of_unlocked (hunlocked i) (hserved.alive i) hbusy
        (Bool.eq_false_of_not_eq_true hready)
      have hlen := List.length_pos_of_ne_nil hnow
      exact exists_of_census_pos (Nat.lt_of_lt_of_le hlen (hblocked i hi))

theorem no_wakeup_is_lost_one_item : ∃ s : Pool 1 Unit Unit Unit,
    s.now.length = 1 ∧ s.pc 0 = .woken ∧
      ((∀ i, (s.pc i).isBlocked = false) ∨ s.now.length ≤ census WorkerPc.isReady s.pc) ∧
        (s.now ≠ [] → (∃ i, (s.pc i).isBusy = false) → ∃ i, (s.pc i).isReady = true) := by
  have hrun : Run _ := ⟨created 1 Unit Unit Unit, rfl, (Reaches.refl _).execute (Eq.refl
    (execute step (created 1 Unit Unit Unit) [.worker 0, .worker 0, .worker 0, .worker 0,
      .call () (some ()) () true, .enqueue () (some 0)]))⟩
  exact ⟨_, rfl, rfl, no_wakeup_is_lost hrun rfl rfl⟩

end Sginx.ThreadPool
