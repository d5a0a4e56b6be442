import Mathlib.Data.List.Nodup
import Sginx.ThreadPool

namespace Sginx.ThreadPool

open Sginx.Library.Transition

variable {n : ℕ} {P R A : Type}

structure Joined (s : Pool n P R A) : Prop where
  below : ∀ k, s.destroyer = .join k → ∀ i : Fin n, i < k → (s.pc i).isExited = true
  all : s.destroyer = .drain ∨ s.destroyer = .released → ∀ i, (s.pc i).isExited = true
  drained : s.drained ≠ [] → s.destroyer = .drain ∨ s.destroyer = .released

theorem isExited_worker {s s' : Pool n P R A} {i j : Fin n} (hj : (s.pc j).isExited = true)
    (hmove : WorkerMove s i s') : (s'.pc j).isExited = true := by
  have hupdate (hi : (s.pc i).isExited = false) (pc' : WorkerPc R A) :
      (Function.update s.pc i pc' j).isExited = true := by
    have hij : j ≠ i := by
      rintro rfl
      rw [hi] at hj
      cases hj
    rwa [Function.update_of_ne hij]
  cases hmove with
  | acquire hpc _ =>
    apply hupdate
    rcases hpc with hpc | hpc
    · rw [hpc]; rfl
    · rw [hpc]; rfl
  | empty hpc | work hpc | leaveLoop hpc | enterLoop hpc | sleep hpc | stop hpc | goOn hpc
  | exit hpc | take _ _ hpc | unlock _ hpc | start _ hpc | finish _ hpc | free _ hpc =>
    exact hupdate (by rw [hpc]; rfl) _

theorem worker_destroyer {s s' : Pool n P R A} {i : Fin n} (hmove : WorkerMove s i s') :
    s'.destroyer = s.destroyer ∧ s'.drained = s.drained := by
  cases hmove <;> exact ⟨rfl, rfl⟩

theorem Joined.keep {s s' : Pool n P R A} (h : Joined s) (hd : s'.destroyer = s.destroyer)
    (hdrained : s'.drained = s.drained)
    (hpc : ∀ i, (s.pc i).isExited = true → (s'.pc i).isExited = true) : Joined s' where
  below k hk i hi := hpc i (h.below k (by rw [← hd, hk]) i hi)
  all hk i := hpc i (h.all (by rwa [hd] at hk) i)
  drained hne := by
    rw [hd]
    rw [hdrained] at hne
    exact h.drained hne

theorem Joined.drained_eq_nil {s : Pool n P R A} (h : Joined s) {i : Fin n}
    (hi : (s.pc i).isExited = false) : s.drained = [] := by
  by_contra hne
  rw [h.all (h.drained hne) i] at hi
  cases hi

def WorkerPc.expectsWork (shutdown : Bool) : WorkerPc R A → Bool
  | .take => true
  | .check => !shutdown
  | _ => false

theorem hasLock_of_expectsWork {shutdown : Bool} {pc : WorkerPc R A}
    (h : pc.expectsWork shutdown = true) : pc.hasLock = true := by
  cases pc with
  | take => rfl
  | check => rfl
  | _ => cases h

theorem expectsWork_worker {s s' : Pool n P R A} {i : Fin n} (hlock : LockOk s.pc s.lock)
    (h : ∀ j, (s.pc j).expectsWork s.shutdown = true → s.now ≠ []) (hmove : WorkerMove s i s')
    (j : Fin n) (hj : (s'.pc j).expectsWork s'.shutdown = true) : s'.now ≠ [] := by
  have hupdate {pc' : WorkerPc R A}
      (hj : (Function.update s.pc i pc' j).expectsWork s.shutdown = true)
      (hpc' : pc'.expectsWork s.shutdown = true → s.now ≠ []) : s.now ≠ [] := by
    by_cases hij : j = i
    · rw [hij, Function.update_self] at hj
      exact hpc' hj
    · rw [Function.update_of_ne hij] at hj
      exact h j hj
  cases hmove with
  | work hpc hnow => exact hnow
  | leaveLoop hpc hs => exact hupdate hj (fun h => absurd h (by simp [WorkerPc.expectsWork, hs]))
  | goOn hpc hs => exact hupdate hj (fun _ => h i (by simp [WorkerPc.expectsWork, hpc, hs]))
  | take work next hpc hnow =>
    -- both would have the lock
    by_cases hij : j = i
    · rw [hij] at hj
      simp [WorkerPc.expectsWork] at hj
    · have hold : (Function.update s.pc i (.leave work) j).expectsWork s.shutdown = true := hj
      rw [Function.update_of_ne hij] at hold
      have hlocked := (hlock i).mp (by rw [hpc]; rfl)
      have := (hlock j).mp (hasLock_of_expectsWork hold)
      rw [hlocked] at this
      exact absurd (Option.some.inj this).symm hij
  | _ => exact hupdate hj (fun h => nomatch h)

theorem Joined.drained_early {s : Pool n P R A} (h : Joined s) (hd : s.destroyer ≠ .drain)
    (hr : s.destroyer ≠ .released) : s.drained = [] := by
  by_contra hne
  rcases h.drained hne with h | h
  · exact hd h
  · exact hr h

theorem joined_early {s : Pool n P R A} (hd : s.destroyer ≠ .drain) (hr : s.destroyer ≠ .released)
    (hbelow : ∀ k, s.destroyer = .join k → ∀ i : Fin n, i < k → (s.pc i).isExited = true)
    (hdrained : s.drained = []) : Joined s where
  below := hbelow
  all := by
    rintro (h | h)
    · exact absurd h hd
    · exact absurd h hr
  drained hne := absurd hdrained hne

variable [DecidableEq P]

theorem run_joined {s : Pool n P R A} (hrun : Run s) : Joined s := by
  apply Reachable.invariant (I := Joined) ?_ ?_ hrun
  · rintro s rfl
    exact joined_early DestroyPc.noConfusion DestroyPc.noConfusion (fun _ h => nomatch h) rfl
  · intro s a s' hstep h
    cases step_move hstep with
    | worker i _ hmove =>
      obtain ⟨hd, hdrained⟩ := worker_destroyer hmove
      exact h.keep hd hdrained fun j hj => isExited_worker hj hmove
    | spurious i hpc =>
      exact h.keep rfl rfl fun j hj => (spurious_keeps rfl hpc j).trans hj
    | refused => exact h
    | call => exact h.keep rfl rfl fun _ hj => hj
    | enqueue p wakes work pc hp hfree hd hpc =>
      exact h.keep rfl rfl fun j hj => (signal_keeps rfl hpc j).trans hj
    | again => exact h
    | shutdown hd hs =>
      exact joined_early DestroyPc.noConfusion DestroyPc.noConfusion (fun _ h => nomatch h)
        (h.drained_early (by rw [hd]; exact DestroyPc.noConfusion)
          (by rw [hd]; exact DestroyPc.noConfusion))
    | broadcast hd hfree =>
      apply joined_early DestroyPc.noConfusion DestroyPc.noConfusion
      · rintro k hk i hi
        obtain rfl := DestroyPc.join.inj hk
        exact absurd hi (Nat.not_lt_zero _)
      · exact h.drained_early (by rw [hd]; exact DestroyPc.noConfusion)
          (by rw [hd]; exact DestroyPc.noConfusion)
    | join k hd hk hpc =>
      apply joined_early DestroyPc.noConfusion DestroyPc.noConfusion
      · rintro k' hk' i hi
        obtain rfl := DestroyPc.join.inj hk'
        rcases Nat.lt_succ_iff_lt_or_eq.mp hi with hlt | rfl
        · exact h.below k hd i hlt
        · exact hpc
      · exact h.drained_early (by rw [hd]; exact DestroyPc.noConfusion)
          (by rw [hd]; exact DestroyPc.noConfusion)
    | joined k hd hk =>
      exact
        { below := fun _ h => nomatch h
          all := fun _ i => h.below k hd i (Nat.lt_of_lt_of_le i.isLt hk)
          drained := fun _ => .inl rfl }
    | released hd hnow =>
      exact
        { below := fun _ h => nomatch h
          all := fun _ => h.all (.inl hd)
          drained := fun _ => .inr rfl }
    | drain work next hd hnow =>
      exact
        { below := fun k hk => h.below k hk
          all := h.all
          drained := fun _ => .inl hd }

theorem run_order {s : Pool n P R A} (hrun : Run s) :
    s.accepted = s.dequeued ++ s.drained ++ s.now := by
  apply Reachable.invariant_with (I := Joined)
    (J := fun s => s.accepted = s.dequeued ++ s.drained ++ s.now) (fun _ => run_joined) ?_ ?_ hrun
  · rintro s rfl
    rfl
  · intro s a s' hstep hjoined h
    cases step_move hstep with
    | worker i _ hmove =>
      cases hmove with
      | take work next hpc hnow =>
        have hnil : s.drained = [] := hjoined.drained_eq_nil (i := i) (by rw [hpc]; rfl)
        calc s.accepted = s.dequeued ++ s.drained ++ s.now := h
          _ = s.dequeued ++ [work] ++ s.drained ++ next := by rw [hnil, hnow]; simp
      | _ => exact h
    | enqueue p wakes work pc hp hfree hd hpc =>
      dsimp only
      rw [h, List.append_assoc]
    | drain work next hd hnow =>
      dsimp only
      rw [h, hnow]
      simp
    | _ => exact h

structure Numbered (s : Pool n P R A) : Prop where
  nodup : (s.accepted.map SgxWorkList.id).Nodup
  below : ∀ work ∈ s.accepted, work.id < s.allocated
  pending : ∀ p work, s.producer p = .adding work → work.id < s.allocated ∧
    ∀ other ∈ s.accepted, other.id ≠ work.id
  apart : ∀ p q work other, s.producer p = .adding work → s.producer q = .adding other →
    work.id = other.id → p = q

theorem Numbered.call {s : Pool n P R A} (h : Numbered s) (p : P) (routine : R) (arg : A) :
    Numbered { s with
      producer := Function.update s.producer p (.adding ⟨s.allocated, routine, arg⟩)
      allocated := s.allocated + 1 } := by
  have hcases (q : P) (work : SgxWorkList R A)
      (hq : Function.update s.producer p (.adding ⟨s.allocated, routine, arg⟩) q = .adding work) :
      q = p ∧ work.id = s.allocated ∨ s.producer q = .adding work := by
    by_cases hqp : q = p
    · rw [hqp, Function.update_self] at hq
      obtain rfl := ProducerPc.adding.inj hq
      exact .inl ⟨hqp, rfl⟩
    · rw [Function.update_of_ne hqp] at hq
      exact .inr hq
  refine { nodup := h.nodup, below := ?_, pending := ?_, apart := ?_ }
  · exact fun work hmem => Nat.lt_succ_of_lt (h.below work hmem)
  · intro q work hq
    rcases hcases q work hq with ⟨-, hid⟩ | hold
    · rw [hid]
      exact ⟨Nat.lt_succ_self _, fun other hmem => (h.below other hmem).ne⟩
    · exact ⟨Nat.lt_succ_of_lt (h.pending q work hold).1, (h.pending q work hold).2⟩
  · intro q r work other hq hr heq
    rcases hcases q work hq with ⟨hqp, hid⟩ | hq
    · rcases hcases r other hr with ⟨hrp, -⟩ | hr
      · rw [hqp, hrp]
      · have := (h.pending r other hr).1
        omega
    · rcases hcases r other hr with ⟨hrp, hid⟩ | hr
      · have := (h.pending q work hq).1
        omega
      · exact h.apart q r work other hq hr heq

theorem Numbered.enqueue {s : Pool n P R A} (h : Numbered s) {p : P} {work : SgxWorkList R A}
    (hp : s.producer p = .adding work) (now : List (SgxWorkList R A))
    (pc : Fin n → WorkerPc R A) :
    Numbered { s with
      now := now
      pc := pc
      producer := Function.update s.producer p .idle
      accepted := s.accepted ++ [work] } := by
  have hold {q : P} {other : SgxWorkList R A}
      (hq : Function.update s.producer p .idle q = .adding other) :
      q ≠ p ∧ s.producer q = .adding other := by
    by_cases hqp : q = p
    · rw [hqp, Function.update_self] at hq
      cases hq
    · rw [Function.update_of_ne hqp] at hq
      exact ⟨hqp, hq⟩
  have hpending := h.pending p work hp
  refine { nodup := ?_, below := ?_, pending := ?_, apart := ?_ }
  · rw [List.map_append, List.map_singleton, ← List.concat_eq_append]
    apply h.nodup.concat
    intro hmem
    obtain ⟨other, hother, hid⟩ := List.mem_map.mp hmem
    exact hpending.2 other hother hid
  · intro other hmem
    rcases List.mem_append.mp hmem with hmem | hmem
    · exact h.below other hmem
    · rw [List.mem_singleton.mp hmem]
      exact hpending.1
  · intro q other hq
    obtain ⟨hqp, hq⟩ := hold hq
    refine ⟨(h.pending q other hq).1, fun item hmem => ?_⟩
    rcases List.mem_append.mp hmem with hmem | hmem
    · exact (h.pending q other hq).2 item hmem
    · rw [List.mem_singleton.mp hmem]
      exact fun heq => hqp (h.apart p q work other hp hq heq).symm
  · intro q r other item hq hr heq
    exact h.apart q r other item (hold hq).2 (hold hr).2 heq

theorem run_numbered {s : Pool n P R A} (hrun : Run s) : Numbered s := by
  apply Reachable.invariant (I := Numbered) ?_ ?_ hrun
  · rintro s rfl
    exact
      { nodup := List.nodup_nil
        below := fun _ h => nomatch h
        pending := fun _ _ h => nomatch h
        apart := fun _ _ _ _ h => nomatch h }
  · intro s a s' hstep h
    cases step_move hstep with
    | worker i _ hmove =>
      cases hmove <;>
        exact { nodup := h.nodup, below := h.below, pending := h.pending, apart := h.apart }
    | call p routine arg hp => exact h.call p routine arg
    | enqueue p wakes work pc hp hfree hd hpc => exact h.enqueue hp (s.now ++ [work]) pc
    | _ => exact { nodup := h.nodup, below := h.below, pending := h.pending, apart := h.apart }

theorem run_expectsWork {s : Pool n P R A} (hrun : Run s) :
    ∀ i, (s.pc i).expectsWork s.shutdown = true → s.now ≠ [] := by
  apply Reachable.invariant_with (I := fun s => LockOk s.pc s.lock ∧ Joined s)
    (J := fun s => ∀ i, (s.pc i).expectsWork s.shutdown = true → s.now ≠ [])
    (fun _ h => ⟨run_lockOk h, run_joined h⟩) ?_ ?_ hrun
  · rintro s rfl i h
    cases h
  · intro s a s' hstep ⟨hlock, hjoined⟩ h
    cases step_move hstep with
    | worker i _ hmove => exact expectsWork_worker hlock h hmove
    | spurious j hpc =>
      intro i hi
      exact h i ((spurious_keeps (f := WorkerPc.expectsWork s.shutdown) rfl hpc i).symm.trans hi)
    | enqueue => exact fun _ _ => List.append_ne_nil_of_right_ne_nil _ (List.cons_ne_nil _ _)
    | shutdown hd hs =>
      intro i hi
      apply h i
      cases hpc : s.pc i with
      | take => rfl
      | check => rw [hs]; rfl
      | _ => simp [hpc, WorkerPc.expectsWork] at hi
    | broadcast =>
      intro i hi
      exact h i ((broadcast_keeps (f := WorkerPc.expectsWork s.shutdown) rfl s.pc i).symm.trans hi)
    | drain work next hd hnow =>
      intro i hi
      rw [eq_exited (hjoined.all (.inl hd) i)] at hi
      cases hi
    | _ => exact h

theorem holder_enabled {s : Pool n P R A} (hrun : Run s) {i : Fin n} (hi : s.lock = some i) :
    ∃ s', workerStep s i = some s' := by
  have hsection := (run_lockOk hrun i).mpr hi
  have hne {pc : WorkerPc R A} (hpc : pc.hasLock = false) : s.pc i ≠ pc := by
    intro h
    rw [h, hpc] at hsection
    cases hsection
  apply worker_enabled
  · rw [Bool.eq_false_iff]
    exact fun h => hne rfl (eq_blocked h)
  · rw [Bool.eq_false_iff]
    exact fun h => hne rfl (eq_exited h)
  · rintro (h | h)
    · exact absurd h (hne rfl)
    · exact absurd h (hne rfl)
  · intro hpc
    apply run_expectsWork hrun i
    rw [hpc]
    rfl

end Sginx.ThreadPool
