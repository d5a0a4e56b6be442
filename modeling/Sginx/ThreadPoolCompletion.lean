import Sginx.ThreadPoolOwnership
import Sginx.ThreadPoolShutdown
import Sginx.ThreadPoolWakeup

namespace Sginx.ThreadPool

open Sginx.Library.Transition Sginx.Library.Census

variable {n : ℕ} {P R A : Type} {asleep : ℕ}

def WorkerPc.left (asleep : ℕ) : WorkerPc R A → ℕ
  | .leave _ => 11
  | .holding _ => 10
  | .executing _ => 9
  | .freeing _ => 8
  | .lock => 7
  | .woken => 7
  | .testNow => 6
  | .testShutdown => 5
  | .check => 4
  | .take => 3
  | .wait => asleep + 1
  | .blocked => asleep
  | .exiting => 1
  | .exited => 0

theorem WorkerPc.left_le (h : asleep ≤ 10) (pc : WorkerPc R A) : pc.left asleep ≤ 11 := by
  cases pc with
  | wait => exact Nat.succ_le_succ h
  | blocked => exact Nat.le_succ_of_le h
  | _ => simp [WorkerPc.left]

def Pool.left (asleep : ℕ) (s : Pool n P R A) : ℕ :=
  9 * s.now.length + total (WorkerPc.left asleep) s.pc

theorem Pool.left_le (h : asleep ≤ 10) (s : Pool n P R A) :
    s.left asleep ≤ 9 * s.now.length + 11 * n :=
  Nat.add_le_add_left (total_fin_le (WorkerPc.left_le h) s.pc) _

theorem left_lt_of_goto {s s' : Pool n P R A} {i : Fin n} {pc : WorkerPc R A}
    (hnow : s'.now = s.now) (hpc : s'.pc = Function.update s.pc i pc)
    (hlt : pc.left asleep < (s.pc i).left asleep) : s'.left asleep < s.left asleep := by
  have htotal := total_update (WorkerPc.left asleep) s.pc i pc
  rw [Pool.left, Pool.left, hnow, hpc]
  omega

theorem worker_lowers {s s' : Pool n P R A} {i : Fin n}
    (hasleep : s.shutdown = false → asleep < 4) (hmove : WorkerMove s i s') :
    s'.left asleep < s.left asleep := by
  cases hmove with
  | acquire hpc hfree =>
    rcases hpc with hpc | hpc
    · exact left_lt_of_goto rfl rfl (by simp [hpc, WorkerPc.left])
    · exact left_lt_of_goto rfl rfl (by simp [hpc, WorkerPc.left])
  | enterLoop hpc hs =>
    have hlt : asleep + 1 < 5 := Nat.succ_lt_succ (hasleep hs)
    exact left_lt_of_goto rfl rfl (by simpa only [hpc, WorkerPc.left] using hlt)
  | take work next hpc hnow =>
    -- the item pays for the steps until its worker is back at the lock
    have htotal := total_update (WorkerPc.left asleep) s.pc i (.leave work)
    simp only [hpc, WorkerPc.left] at htotal
    simp only [Pool.left, Pool.goto, hnow, List.length_cons]
    omega
  | empty hpc | work hpc | leaveLoop hpc | sleep hpc | stop hpc | goOn hpc | exit hpc
  | unlock work hpc | start work hpc | finish work hpc | free work hpc =>
    exact left_lt_of_goto rfl rfl (by simp [hpc, WorkerPc.left])

theorem worker_keeps {s s' : Pool n P R A} {i : Fin n} (hstep : workerStep s i = some s') :
    s'.shutdown = s.shutdown ∧ s'.accepted = s.accepted := by
  cases workerStep_move hstep <;> exact ⟨rfl, rfl⟩

theorem workers_ranked : Ranked (workerStep (n := n) (P := P) (R := R) (A := A))
    (fun s => s.shutdown = false) (Pool.left 0) where
  keeps s i s' hs hstep := (worker_keeps hstep).1.trans hs
  lowers s i s' _ hstep := worker_lowers (fun _ => by decide) (workerStep_move hstep)

section completed

variable [DecidableEq P]

theorem copies_eq_count (id : ℕ) (items : List (SgxWorkList R A)) :
    copies id items = (items.map SgxWorkList.id).count id := by
  rw [copies, List.count, List.countP_map]
  rfl

theorem perm_of_copies {s : Pool n P R A} (hrun : Run s) {items : List (SgxWorkList R A)}
    (hseen : ∀ work ∈ items, Seen s work)
    (hcopies : ∀ work ∈ s.accepted, copies work.id items = 1) : items.Perm s.accepted := by
  have haccepted := (run_numbered hrun).nodup
  have hmem {work : SgxWorkList R A} (hwork : work ∈ items) : work ∈ s.accepted :=
    accepted_of_seen hrun (hseen work hwork)
  have hnodup : (items.map SgxWorkList.id).Nodup := by
    apply List.nodup_iff_count_le_one.mpr
    intro id
    by_cases hid : id ∈ items.map SgxWorkList.id
    · obtain ⟨work, hwork, rfl⟩ := List.mem_map.mp hid
      rw [← copies_eq_count, hcopies work (hmem hwork)]
    · rw [List.count_eq_zero_of_not_mem hid]
      exact Nat.zero_le 1
  apply (List.perm_ext_iff_of_nodup hnodup.of_map haccepted.of_map).mpr
  intro work
  refine ⟨hmem, fun hwork => ?_⟩
  have hone := hcopies work hwork
  rw [copies_eq_count] at hone
  obtain ⟨other, hother, hid⟩ :=
    List.mem_map.mp (List.count_pos_iff.mp (by rw [hone]; exact Nat.one_pos))
  rwa [eq_of_seen hrun hwork (hseen other hother) hid] at hother

theorem finished_and_drained {s : Pool n P R A} (hrun : Run s) (hnow : s.now = [])
    (hpc : ∀ i, (s.pc i).carried = none) : (s.finished ++ s.drained).Perm s.accepted := by
  apply perm_of_copies hrun
  · intro work hwork
    rcases List.mem_append.mp hwork with hwork | hwork
    · exact .inr (.inr (.inr (.inl hwork)))
    · exact .inr (.inr (.inr (.inr hwork)))
  · intro work hwork
    have hsum := copies_sum hrun hwork
    have hnone : census (WorkerPc.carries work.id) s.pc = 0 :=
      census_eq_zero fun i => carries_of_none (hpc i)
    rw [hnow, hnone] at hsum
    rw [copies_append, ← hsum]
    simp [copies]

theorem started_eq_finished {s : Pool n P R A} (hrun : Run s)
    (hpc : ∀ i, (s.pc i).carried = none) (id : ℕ) :
    copies id s.started = copies id s.finished := by
  have hnone : census (WorkerPc.hasCalled id) s.pc = 0 :=
    census_eq_zero fun i => hasCalled_of_carries (carries_of_none (hpc i))
  rw [(run_carried hrun).called, hnone, Nat.zero_add]

theorem run_worker {s s' : Pool n P R A} {i : Fin n} (hrun : Run s)
    (hstep : workerStep s i = some s') : Run s' :=
  hrun.trans ((Reaches.refl s).step (a := .worker i) hstep)

theorem workers_run {s s' : Pool n P R A} (hrun : Run s) (h : Reaches workerStep s s') :
    Run s' ∧ s'.shutdown = s.shutdown ∧ s'.accepted = s.accepted := by
  apply h.invariant (I := fun t => Run t ∧ t.shutdown = s.shutdown ∧ t.accepted = s.accepted) ?_
    ⟨hrun, rfl, rfl⟩
  intro t i t' hstep ⟨ht, hshutdown, haccepted⟩
  obtain ⟨hkeep, hkeep'⟩ := worker_keeps hstep
  exact ⟨run_worker ht hstep, hkeep.trans hshutdown, hkeep'.trans haccepted⟩

theorem asleep_of_stuck {s : Pool n P R A} (hrun : Run s) (hstuck : Stuck workerStep s)
    (i : Fin n) : (s.pc i).isBlocked = true ∨ (s.pc i).isExited = true := by
  have hfree : s.lock = none := by
    cases hlock : s.lock with
    | none => rfl
    | some j =>
      obtain ⟨s', hstep⟩ := holder_enabled hrun hlock
      rw [hstuck j] at hstep
      cases hstep
  by_contra hi
  obtain ⟨hblocked, hexited⟩ := not_or.mp hi
  obtain ⟨s', hstep⟩ := worker_enabled (i := i) (Bool.eq_false_of_not_eq_true hblocked)
    (Bool.eq_false_of_not_eq_true hexited) (fun _ => hfree)
    (fun hpc => run_expectsWork hrun i (by rw [hpc]; rfl))
  rw [hstuck i] at hstep
  cases hstep

theorem workers_finish_the_list {s : Pool n P R A} (hrun : Run s) (hs : s.shutdown = false)
    (hn : 0 < n) :
    (∀ workers s', execute workerStep s workers = some s' →
      workers.length ≤ 9 * s.now.length + 11 * n) ∧
    ∀ s', Reaches workerStep s s' → Stuck workerStep s' →
      s'.now = [] ∧ (∀ i, s'.pc i = .blocked) ∧ s'.finished.Perm s.accepted ∧
        s'.started.Perm s.accepted := by
  constructor
  · intro workers s' hexecute
    obtain ⟨-, hle⟩ := workers_ranked.execute_length hs hexecute
    have hweight : s.left 0 ≤ 9 * s.now.length + 11 * n := s.left_le (by decide)
    omega
  · intro s' h hstuck
    obtain ⟨hrun', hshutdown, haccepted⟩ := workers_run hrun h
    rw [hs] at hshutdown
    have hserved := run_served hrun' hshutdown
    have hblocked (i : Fin n) : s'.pc i = .blocked := by
      rcases asleep_of_stuck hrun' hstuck i with hi | hi
      · exact eq_blocked hi
      · have := hserved.alive i
        rw [eq_exited hi] at this
        cases this
    have hnone (i : Fin n) : (s'.pc i).carried = none := by rw [hblocked i]; rfl
    have hnow : s'.now = [] := by
      apply List.eq_nil_of_length_eq_zero
      have hawake : census WorkerPc.isAwake s'.pc = 0 :=
        census_eq_zero fun i => by rw [hblocked i]; rfl
      have := hserved.awake ⟨0, hn⟩ (by rw [hblocked]; rfl)
      omega
    have hdrained : s'.drained = [] :=
      (run_joined hrun').drained_eq_nil (i := ⟨0, hn⟩) (by rw [hblocked]; rfl)
    have hfinished := finished_and_drained hrun' hnow hnone
    rw [hdrained, List.append_nil, haccepted] at hfinished
    refine ⟨hnow, hblocked, hfinished, ?_⟩
    rw [← haccepted]
    apply perm_of_copies hrun'
    · exact fun work hwork => .inr (.inr (.inl hwork))
    · intro work hwork
      have hsum := copies_sum hrun' hwork
      have hheld : census (WorkerPc.carries work.id) s'.pc = 0 :=
        census_eq_zero fun i => carries_of_none (hnone i)
      rw [hnow, hheld, hdrained] at hsum
      rw [started_eq_finished hrun' hnone, ← hsum]
      simp [copies]

def oneItem : Pool 1 Unit Unit Unit :=
  { created 1 Unit Unit Unit with
    now := [⟨0, (), ()⟩]
    allocated := 1
    accepted := [⟨0, (), ()⟩] }

theorem run_oneItem : Run oneItem :=
  ⟨created 1 Unit Unit Unit, rfl,
    ((Reaches.refl _).step (a := .call () (some ()) () true) rfl).step (a := .enqueue () none) rfl⟩

theorem workers_finish_the_list_one_item : ∃ s' : Pool 1 Unit Unit Unit,
    Reaches workerStep oneItem s' ∧ s'.pc 0 = .blocked ∧ s'.started.Perm oneItem.accepted := by
  have hends := (Reaches.refl _).execute (Eq.refl (execute workerStep oneItem
    [0, 0, 0, 0, 0, 0, 0, 0, 0, 0, 0, 0]))
  refine ⟨_, hends, rfl, ?_⟩
  apply ((workers_finish_the_list run_oneItem rfl (by decide)).2 _ hends ?_).2.2.2
  intro i
  rw [Subsingleton.elim i 0]
  rfl

def Action.adds : Action n P R A → Bool
  | .call .. => true
  | .enqueue .. => true
  | _ => false

def DestroyPc.left (n : ℕ) : DestroyPc → ℕ
  | .idle => n + 4
  | .broadcast => n + 3
  | .join k => n - k + 2
  | .drain => 1
  | .released => 0

def closingStep (s : Pool n P R A) (a : Action n P R A) : Option (Pool n P R A) :=
  restrict (fun a => !a.adds) step s a

theorem closing_ranked : Ranked (closingStep (n := n) (P := P) (R := R) (A := A))
    (fun s => s.shutdown = true ∧ s.destroyer ≠ .idle)
    (fun s => s.left 8 + s.destroyer.left n) where
  keeps s a s' hs hclosing := by
    obtain ⟨ha, hstep⟩ := of_restrict hclosing
    cases step_move hstep with
    | worker i _ hmove => cases hmove <;> exact hs
    | shutdown hd => exact absurd hd hs.2
    | broadcast | join | joined | released => exact ⟨hs.1, DestroyPc.noConfusion⟩
    | _ => exact hs
  lowers s a s' hs hclosing := by
    obtain ⟨ha, hstep⟩ := of_restrict hclosing
    cases step_move hstep with
    | worker i _ hmove =>
      have hlt : _ < s.left 8 := worker_lowers (by simp [hs.1]) hmove
      rw [(worker_destroyer hmove).1]
      omega
    | spurious i hpc =>
      apply Nat.add_lt_add_right
      exact left_lt_of_goto rfl rfl (by simp [eq_blocked hpc, WorkerPc.left])
    | refused => cases ha
    | call => cases ha
    | enqueue => cases ha
    | again hd => exact absurd hd hs.2
    | shutdown hd => exact absurd hd hs.2
    | broadcast hd hfree =>
      have hle : total (WorkerPc.left 8) (broadcast s.pc) ≤ total (WorkerPc.left 8) s.pc := by
        apply total_le
        intro i
        rw [broadcast]
        split_ifs with hi
        · simp [eq_blocked hi, WorkerPc.left]
        · exact Nat.le_refl _
      simp only [Pool.left, hd, DestroyPc.left]
      omega
    | join k hd hk =>
      simp only [Pool.left, hd, DestroyPc.left]
      omega
    | joined k hd =>
      simp only [Pool.left, hd, DestroyPc.left]
      omega
    | released hd =>
      simp only [Pool.left, hd, DestroyPc.left]
      omega
    | drain work next hd hnow =>
      simp only [Pool.left, hd, hnow, List.length_cons]
      omega

theorem closing_accepts_nothing {s s' : Pool n P R A} {a : Action n P R A}
    (hclosing : closingStep s a = some s') : s'.accepted = s.accepted := by
  obtain ⟨ha, hstep⟩ := of_restrict hclosing
  cases step_move hstep with
  | worker i _ hmove => cases hmove <;> rfl
  | enqueue => cases ha
  | _ => rfl

theorem closing_run {s s' : Pool n P R A} (hrun : Run s) (hd : s.destroyer ≠ .idle)
    (h : Reaches closingStep s s') :
    Run s' ∧ s'.destroyer ≠ .idle ∧ s'.accepted = s.accepted := by
  refine ⟨hrun.trans h.of_restrict, ?_, ?_⟩
  · apply (h.invariant (I := fun t => t.shutdown = true ∧ t.destroyer ≠ .idle) ?_
      ⟨run_shutdown hrun hd, hd⟩).2
    exact fun t a t' hclosing ht => closing_ranked.keeps t a t' ht hclosing
  · apply h.invariant (I := fun t => t.accepted = s.accepted) ?_ rfl
    exact fun t a t' hclosing ht => (closing_accepts_nothing hclosing).trans ht

theorem worker_stuck {s : Pool n P R A} (hstuck : Stuck closingStep s) : Stuck workerStep s :=
  fun i => hstuck (.worker i)

theorem run_released {s : Pool n P R A} (hrun : Run s) : s.destroyer = .released → s.now = [] := by
  apply Reachable.invariant_with (I := Joined)
    (J := fun s => s.destroyer = .released → s.now = []) (fun _ => run_joined) ?_ ?_ hrun
  · rintro s rfl hd
    cases hd
  · intro s a s' hstep hjoined h
    cases step_move hstep with
    | worker i _ hmove =>
      intro hd'
      have hd : s.destroyer = .released := by cases hmove <;> exact hd'
      have hexited := hjoined.all (.inr hd) i
      cases hmove with
      | take work next hpc =>
        rw [hpc] at hexited
        cases hexited
      | _ => exact h hd
    | enqueue p wakes work pc hp hfree hd => exact fun hd' => absurd hd' hd
    | released hd hnow => exact fun _ => hnow
    | drain work next hd =>
      intro hd'
      rw [hd] at hd'
      cases hd'
    | shutdown | broadcast | join | joined => exact nofun
    | _ => exact h

theorem released_of_stuck {s : Pool n P R A} (hrun : Run s) (hd : s.destroyer ≠ .idle)
    (hstuck : Stuck closingStep s) : s.destroyer = .released := by
  have hworkers := asleep_of_stuck hrun (worker_stuck hstuck)
  have hdestroy : destroyStep s = none := hstuck .destroy
  cases hcase : s.destroyer with
  | idle => exact absurd hcase hd
  | broadcast =>
    have hfree : s.lock = none := by
      cases hlock : s.lock with
      | none => rfl
      | some j =>
        obtain ⟨s', hstep⟩ := holder_enabled hrun hlock
        have hnone : workerStep s j = none := hstuck (.worker j)
        rw [hnone] at hstep
        cases hstep
    simp [destroyStep, hcase, hfree] at hdestroy
  | join k =>
    simp only [destroyStep, hcase] at hdestroy
    split_ifs at hdestroy with hk hexited
    rcases hworkers ⟨k, hk⟩ with hi | hi
    · have := isBlocked_of_isStopping (run_stopping hrun (by rw [hcase]; rfl) ⟨k, hk⟩)
      rw [this] at hi
      cases hi
    · exact absurd hi hexited
  | drain =>
    simp only [destroyStep, hcase] at hdestroy
    split at hdestroy
    · cases hdestroy
    · cases hdestroy
  | released => rfl

theorem destroy_returns {s : Pool n P R A} (hrun : Run s) (hd : s.destroyer ≠ .idle) :
    (∀ actions s', execute closingStep s actions = some s' →
      actions.length ≤ 9 * s.now.length + 12 * n + 4) ∧
    ∀ s', Reaches closingStep s s' → Stuck closingStep s' →
      s'.destroyer = .released ∧ (∀ i, s'.pc i = .exited) ∧ s'.now = [] ∧
        (s'.finished ++ s'.drained).Perm s.accepted := by
  constructor
  · intro actions s' hexecute
    obtain ⟨-, hle⟩ := closing_ranked.execute_length ⟨run_shutdown hrun hd, hd⟩ hexecute
    have hweight : s.left 8 ≤ 9 * s.now.length + 11 * n := s.left_le (by decide)
    have hdestroyer : s.destroyer.left n ≤ n + 4 := by
      cases s.destroyer with
      | join k => exact Nat.add_le_add (Nat.sub_le n k) (by decide)
      | _ => simp [DestroyPc.left]
    omega
  · intro s' h hstuck
    obtain ⟨hrun', hd', haccepted⟩ := closing_run hrun hd h
    have hreleased := released_of_stuck hrun' hd' hstuck
    have hexited (i : Fin n) : s'.pc i = .exited :=
      eq_exited ((run_joined hrun').all (.inr hreleased) i)
    have hnow := run_released hrun' hreleased
    refine ⟨hreleased, hexited, hnow, ?_⟩
    rw [← haccepted]
    exact finished_and_drained hrun' hnow fun i => by rw [hexited i]; rfl

theorem run_oneItem_destroy : Run { oneItem with shutdown := true, destroyer := .broadcast } :=
  run_oneItem.trans ((Reaches.refl _).step (a := .destroy) rfl)

theorem destroy_returns_one_item : ∃ s' : Pool 1 Unit Unit Unit,
    Reaches closingStep { oneItem with shutdown := true, destroyer := .broadcast } s' ∧
      s'.drained = [⟨0, (), ()⟩] ∧ s'.pc 0 = .exited := by
  have hends := (Reaches.refl _).execute (Eq.refl (execute closingStep
    { oneItem with shutdown := true, destroyer := .broadcast }
    [.destroy, .worker 0, .worker 0, .worker 0, .worker 0, .destroy, .destroy, .destroy, .destroy]))
  refine ⟨_, hends, rfl, ?_⟩
  apply ((destroy_returns run_oneItem_destroy (by decide)).2 _ hends ?_).2.1 0
  intro a
  cases a with
  | worker i =>
    rw [Subsingleton.elim i 0]
    rfl
  | spurious i =>
    rw [Subsingleton.elim i 0]
    rfl
  | _ => rfl

end completed

end Sginx.ThreadPool
