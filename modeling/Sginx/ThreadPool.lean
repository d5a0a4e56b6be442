import Mathlib.Logic.Function.Basic
import Sginx.Library.Census
import Sginx.Library.Transition

/-!
`test/sgx_thread_pool.c` with any number of workers and of threads that add work. A section of
`sgx_thread_pool_add_work` or `sgx_thread_pool_destroy` between lock and unlock is one step; the
workers take one step for each test and each call.
-/

namespace Sginx.ThreadPool

open Sginx.Library.Transition

/-- `id` numbers the allocations. -/
structure SgxWorkList (R A : Type) where
  id : ℕ
  routine : R
  arg : A

inductive WorkerPc (R A : Type) where
  -- before `pthread_mutex_lock`
  | lock
  -- before the test of `now`, with the lock
  | testNow
  -- before the test of `shutdown` in the same condition
  | testShutdown
  -- before `pthread_cond_wait`
  | wait
  -- in `pthread_cond_wait`, without the lock
  | blocked
  -- signalled, or woken for no reason, and without the lock yet
  | woken
  -- before the test of `shutdown` behind the loop
  | check
  -- before `pthread_mutex_unlock` and `pthread_exit`
  | exiting
  | exited
  -- before the two assignments that take the first item
  | take
  -- before `pthread_mutex_unlock`, with an item
  | leave (work : SgxWorkList R A)
  -- before the call of the routine
  | holding (work : SgxWorkList R A)
  -- inside the routine
  | executing (work : SgxWorkList R A)
  -- before `free`
  | freeing (work : SgxWorkList R A)

inductive ProducerPc (R A : Type) where
  | idle
  -- before `pthread_mutex_lock`, with the new item
  | adding (work : SgxWorkList R A)

/-- Where `sgx_thread_pool_destroy` is; `join k` has joined the workers below `k`. -/
inductive DestroyPc where
  | idle
  | broadcast
  | join (k : ℕ)
  | drain
  | released
deriving DecidableEq, Repr

/-- `now` is the list from the first item on, and `lock` the worker that has the lock. The last five
fields record what happened: `accepted` and `dequeued` oldest first, `started` the calls of routines,
`finished` and `drained` the items freed by workers and by `sgx_thread_pool_destroy`. -/
structure Pool (n : ℕ) (P R A : Type) where
  shutdown : Bool
  now : List (SgxWorkList R A)
  lock : Option (Fin n)
  pc : Fin n → WorkerPc R A
  producer : P → ProducerPc R A
  destroyer : DestroyPc
  allocated : ℕ
  accepted : List (SgxWorkList R A)
  dequeued : List (SgxWorkList R A)
  started : List (SgxWorkList R A)
  finished : List (SgxWorkList R A)
  drained : List (SgxWorkList R A)

variable {n : ℕ} {P R A : Type}

def WorkerPc.isBlocked : WorkerPc R A → Bool
  | .blocked => true
  | _ => false

def WorkerPc.isExited : WorkerPc R A → Bool
  | .exited => true
  | _ => false

def created (n : ℕ) (P R A : Type) : Pool n P R A where
  shutdown := false
  now := []
  lock := none
  pc _ := .lock
  producer _ := .idle
  destroyer := .idle
  allocated := 0
  accepted := []
  dequeued := []
  started := []
  finished := []
  drained := []

def Pool.goto (s : Pool n P R A) (i : Fin n) (pc : WorkerPc R A) : Pool n P R A :=
  { s with pc := Function.update s.pc i pc }

@[simp] theorem Pool.goto_self (s : Pool n P R A) (i : Fin n) (pc : WorkerPc R A) :
    (s.goto i pc).pc i = pc := by
  apply Function.update_self

def workerStep (s : Pool n P R A) (i : Fin n) : Option (Pool n P R A) :=
  match s.pc i with
  | .lock => if s.lock.isNone then some { s.goto i .testNow with lock := some i } else none
  | .testNow => some (s.goto i (if s.now.isEmpty then .testShutdown else .check))
  | .testShutdown => some (s.goto i (if s.shutdown then .check else .wait))
  | .wait => some { s.goto i .blocked with lock := none }
  | .blocked => none
  | .woken => if s.lock.isNone then some { s.goto i .testNow with lock := some i } else none
  | .check => some (s.goto i (if s.shutdown then .exiting else .take))
  | .exiting => some { s.goto i .exited with lock := none }
  | .exited => none
  | .take =>
    match s.now with
    | [] => none
    | work :: next => some { s.goto i (.leave work) with
        now := next
        dequeued := s.dequeued ++ [work] }
  | .leave work => some { s.goto i (.holding work) with lock := none }
  | .holding work => some { s.goto i (.executing work) with started := work :: s.started }
  | .executing work => some (s.goto i (.freeing work))
  | .freeing work => some { s.goto i .lock with finished := work :: s.finished }

def append (work : SgxWorkList R A) : List (SgxWorkList R A) → List (SgxWorkList R A)
  | [] => [work]
  | now :: next => now :: append work next

def signal (pc : Fin n → WorkerPc R A) : Option (Fin n) → Option (Fin n → WorkerPc R A)
  | none => if ∀ i, (pc i).isBlocked = false then some pc else none
  | some i => if (pc i).isBlocked then some (Function.update pc i .woken) else none

def broadcast (pc : Fin n → WorkerPc R A) : Fin n → WorkerPc R A :=
  fun i => if (pc i).isBlocked then .woken else pc i

inductive Action (n : ℕ) (P R A : Type) where
  | worker (i : Fin n)
  | spurious (i : Fin n)
  -- `sgx_thread_pool_add_work` up to the lock; `mem` tells whether `malloc` succeeds
  | call (p : P) (routine : Option R) (arg : A) (mem : Bool)
  -- the section of `sgx_thread_pool_add_work`
  | enqueue (p : P) (wakes : Option (Fin n))
  | destroy

section producer

variable [DecidableEq P]

def callStep (s : Pool n P R A) (p : P) (routine : Option R) (arg : A) (mem : Bool) :
    Option (Pool n P R A) :=
  match s.producer p, routine with
  | .adding _, _ => none
  | .idle, none => some s
  | .idle, some routine =>
    if mem then some { s with
      producer := Function.update s.producer p (.adding ⟨s.allocated, routine, arg⟩)
      allocated := s.allocated + 1 }
    else some s

def enqueueStep (s : Pool n P R A) (p : P) (wakes : Option (Fin n)) : Option (Pool n P R A) :=
  match s.producer p with
  | .idle => none
  | .adding work =>
    if s.lock.isNone ∧ s.destroyer ≠ .released then do
      let pc ← signal s.pc wakes
      some { s with
        now := append work s.now
        pc := pc
        producer := Function.update s.producer p .idle
        accepted := s.accepted ++ [work] }
    else none

def destroyStep (s : Pool n P R A) : Option (Pool n P R A) :=
  match s.destroyer with
  | .idle => if s.shutdown then some s else some { s with shutdown := true, destroyer := .broadcast }
  | .broadcast =>
    if s.lock.isNone then some { s with pc := broadcast s.pc, destroyer := .join 0 } else none
  | .join k =>
    if h : k < n then
      if (s.pc ⟨k, h⟩).isExited then some { s with destroyer := .join (k + 1) } else none
    else some { s with destroyer := .drain }
  | .drain =>
    match s.now with
    | [] => some { s with destroyer := .released }
    | work :: next => some { s with now := next, drained := s.drained ++ [work] }
  | .released => none

def step (s : Pool n P R A) : Action n P R A → Option (Pool n P R A)
  | .worker i => workerStep s i
  | .spurious i => if (s.pc i).isBlocked then some (s.goto i .woken) else none
  | .call p routine arg mem => callStep s p routine arg mem
  | .enqueue p wakes => enqueueStep s p wakes
  | .destroy => destroyStep s

def Run (s : Pool n P R A) : Prop := Reachable (fun s₀ => s₀ = created n P R A) step s

end producer

theorem append_eq (work : SgxWorkList R A) (now : List (SgxWorkList R A)) :
    append work now = now ++ [work] := by
  induction now with
  | nil => rfl
  | cons first next ih => rw [append, ih, List.cons_append]

inductive WorkerMove (s : Pool n P R A) (i : Fin n) : Pool n P R A → Prop where
  | acquire (hpc : s.pc i = .lock ∨ s.pc i = .woken) (hfree : s.lock = none) :
      WorkerMove s i { s.goto i .testNow with lock := some i }
  | empty (hpc : s.pc i = .testNow) (hnow : s.now = []) : WorkerMove s i (s.goto i .testShutdown)
  | work (hpc : s.pc i = .testNow) (hnow : s.now ≠ []) : WorkerMove s i (s.goto i .check)
  | leaveLoop (hpc : s.pc i = .testShutdown) (hs : s.shutdown = true) :
      WorkerMove s i (s.goto i .check)
  | enterLoop (hpc : s.pc i = .testShutdown) (hs : s.shutdown = false) :
      WorkerMove s i (s.goto i .wait)
  | sleep (hpc : s.pc i = .wait) : WorkerMove s i { s.goto i .blocked with lock := none }
  | stop (hpc : s.pc i = .check) (hs : s.shutdown = true) : WorkerMove s i (s.goto i .exiting)
  | goOn (hpc : s.pc i = .check) (hs : s.shutdown = false) : WorkerMove s i (s.goto i .take)
  | exit (hpc : s.pc i = .exiting) : WorkerMove s i { s.goto i .exited with lock := none }
  | take (work next) (hpc : s.pc i = .take) (hnow : s.now = work :: next) :
      WorkerMove s i { s.goto i (.leave work) with
        now := next
        dequeued := s.dequeued ++ [work] }
  | unlock (work) (hpc : s.pc i = .leave work) :
      WorkerMove s i { s.goto i (.holding work) with lock := none }
  | start (work) (hpc : s.pc i = .holding work) :
      WorkerMove s i { s.goto i (.executing work) with started := work :: s.started }
  | finish (work) (hpc : s.pc i = .executing work) : WorkerMove s i (s.goto i (.freeing work))
  | free (work) (hpc : s.pc i = .freeing work) :
      WorkerMove s i { s.goto i .lock with finished := work :: s.finished }

theorem workerStep_move {s s' : Pool n P R A} {i : Fin n} (hstep : workerStep s i = some s') :
    WorkerMove s i s' := by
  cases hpc : s.pc i with
  | lock =>
    simp only [workerStep, hpc] at hstep
    split_ifs at hstep with hfree
    obtain rfl := Option.some.inj hstep
    exact .acquire (.inl hpc) (Option.isNone_iff_eq_none.mp hfree)
  | testNow =>
    simp only [workerStep, hpc] at hstep
    obtain rfl := Option.some.inj hstep
    split_ifs with hnow
    · exact .empty hpc (List.isEmpty_iff.mp hnow)
    · exact .work hpc (fun h => hnow (List.isEmpty_iff.mpr h))
  | testShutdown =>
    simp only [workerStep, hpc] at hstep
    obtain rfl := Option.some.inj hstep
    split_ifs with hs
    · exact .leaveLoop hpc hs
    · exact .enterLoop hpc (Bool.eq_false_of_not_eq_true hs)
  | wait =>
    simp only [workerStep, hpc] at hstep
    obtain rfl := Option.some.inj hstep
    exact .sleep hpc
  | blocked => simp only [workerStep, hpc, reduceCtorEq] at hstep
  | woken =>
    simp only [workerStep, hpc] at hstep
    split_ifs at hstep with hfree
    obtain rfl := Option.some.inj hstep
    exact .acquire (.inr hpc) (Option.isNone_iff_eq_none.mp hfree)
  | check =>
    simp only [workerStep, hpc] at hstep
    obtain rfl := Option.some.inj hstep
    split_ifs with hs
    · exact .stop hpc hs
    · exact .goOn hpc (Bool.eq_false_of_not_eq_true hs)
  | exiting =>
    simp only [workerStep, hpc] at hstep
    obtain rfl := Option.some.inj hstep
    exact .exit hpc
  | exited => simp only [workerStep, hpc, reduceCtorEq] at hstep
  | take =>
    simp only [workerStep, hpc] at hstep
    cases hnow : s.now with
    | nil => simp only [hnow, reduceCtorEq] at hstep
    | cons work next =>
      simp only [hnow] at hstep
      obtain rfl := Option.some.inj hstep
      exact .take work next hpc hnow
  | leave work =>
    simp only [workerStep, hpc] at hstep
    obtain rfl := Option.some.inj hstep
    exact .unlock work hpc
  | holding work =>
    simp only [workerStep, hpc] at hstep
    obtain rfl := Option.some.inj hstep
    exact .start work hpc
  | executing work =>
    simp only [workerStep, hpc] at hstep
    obtain rfl := Option.some.inj hstep
    exact .finish work hpc
  | freeing work =>
    simp only [workerStep, hpc] at hstep
    obtain rfl := Option.some.inj hstep
    exact .free work hpc

section moves

variable [DecidableEq P]

inductive Move (s : Pool n P R A) : Action n P R A → Pool n P R A → Prop where
  | worker (i s') (h : WorkerMove s i s') : Move s (.worker i) s'
  | spurious (i) (hpc : (s.pc i).isBlocked = true) : Move s (.spurious i) (s.goto i .woken)
  | refused (p routine arg mem) : Move s (.call p routine arg mem) s
  | call (p routine arg) (hp : s.producer p = .idle) :
      Move s (.call p (some routine) arg true) { s with
        producer := Function.update s.producer p (.adding ⟨s.allocated, routine, arg⟩)
        allocated := s.allocated + 1 }
  | enqueue (p wakes work pc) (hp : s.producer p = .adding work) (hfree : s.lock = none)
      (hd : s.destroyer ≠ .released) (hpc : signal s.pc wakes = some pc) :
      Move s (.enqueue p wakes) { s with
        now := s.now ++ [work]
        pc := pc
        producer := Function.update s.producer p .idle
        accepted := s.accepted ++ [work] }
  | again (hd : s.destroyer = .idle) (hs : s.shutdown = true) : Move s .destroy s
  | shutdown (hd : s.destroyer = .idle) (hs : s.shutdown = false) :
      Move s .destroy { s with shutdown := true, destroyer := .broadcast }
  | broadcast (hd : s.destroyer = .broadcast) (hfree : s.lock = none) :
      Move s .destroy { s with pc := broadcast s.pc, destroyer := .join 0 }
  | join (k) (hd : s.destroyer = .join k) (hk : k < n) (hpc : (s.pc ⟨k, hk⟩).isExited = true) :
      Move s .destroy { s with destroyer := .join (k + 1) }
  | joined (k) (hd : s.destroyer = .join k) (hk : n ≤ k) :
      Move s .destroy { s with destroyer := .drain }
  | released (hd : s.destroyer = .drain) (hnow : s.now = []) :
      Move s .destroy { s with destroyer := .released }
  | drain (work next) (hd : s.destroyer = .drain) (hnow : s.now = work :: next) :
      Move s .destroy { s with now := next, drained := s.drained ++ [work] }

theorem callStep_move {s s' : Pool n P R A} {p : P} {routine : Option R} {arg : A} {mem : Bool}
    (hstep : callStep s p routine arg mem = some s') : Move s (.call p routine arg mem) s' := by
  cases hp : s.producer p with
  | adding work => simp only [callStep, hp, reduceCtorEq] at hstep
  | idle =>
    cases routine with
    | none =>
      simp only [callStep, hp] at hstep
      obtain rfl := Option.some.inj hstep
      exact .refused p none arg mem
    | some routine =>
      simp only [callStep, hp] at hstep
      cases mem with
      | true =>
        obtain rfl := Option.some.inj hstep
        exact .call p routine arg hp
      | false =>
        obtain rfl := Option.some.inj hstep
        exact .refused p (some routine) arg false

theorem enqueueStep_move {s s' : Pool n P R A} {p : P} {wakes : Option (Fin n)}
    (hstep : enqueueStep s p wakes = some s') : Move s (.enqueue p wakes) s' := by
  cases hp : s.producer p with
  | idle => simp only [enqueueStep, hp, reduceCtorEq] at hstep
  | adding work =>
    simp only [enqueueStep, hp] at hstep
    split_ifs at hstep with hfree
    obtain ⟨pc, hpc, heq⟩ := Option.bind_eq_some_iff.mp hstep
    obtain rfl := Option.some.inj heq
    rw [append_eq]
    exact .enqueue p wakes work pc hp (Option.isNone_iff_eq_none.mp hfree.1) hfree.2 hpc

theorem destroyStep_move {s s' : Pool n P R A} (hstep : destroyStep s = some s') :
    Move s .destroy s' := by
  rw [destroyStep] at hstep
  split at hstep
  · next hd =>
    split_ifs at hstep with hs
    · obtain rfl := Option.some.inj hstep
      exact .again hd hs
    · obtain rfl := Option.some.inj hstep
      exact .shutdown hd (Bool.eq_false_of_not_eq_true hs)
  · next hd =>
    split_ifs at hstep with hfree
    obtain rfl := Option.some.inj hstep
    exact .broadcast hd (Option.isNone_iff_eq_none.mp hfree)
  · next k hd =>
    split_ifs at hstep with hk hpc
    · obtain rfl := Option.some.inj hstep
      exact .join k hd hk hpc
    · obtain rfl := Option.some.inj hstep
      exact .joined k hd (Nat.le_of_not_lt hk)
  · next hd =>
    split at hstep
    · next hnow =>
      obtain rfl := Option.some.inj hstep
      exact .released hd hnow
    · next work next hnow =>
      obtain rfl := Option.some.inj hstep
      exact .drain work next hd hnow
  · cases hstep

theorem step_move {s s' : Pool n P R A} {a : Action n P R A} (hstep : step s a = some s') :
    Move s a s' := by
  cases a with
  | worker i => exact .worker i s' (workerStep_move hstep)
  | spurious i =>
    simp only [step] at hstep
    split_ifs at hstep with hpc
    obtain rfl := Option.some.inj hstep
    exact .spurious i hpc
  | call p routine arg mem => exact callStep_move hstep
  | enqueue p wakes => exact enqueueStep_move hstep
  | destroy => exact destroyStep_move hstep

end moves

theorem signal_cases {pc pc' : Fin n → WorkerPc R A} {wakes : Option (Fin n)}
    (h : signal pc wakes = some pc') :
    (pc' = pc ∧ ∀ i, (pc i).isBlocked = false) ∨
      ∃ i, (pc i).isBlocked = true ∧ pc' = Function.update pc i .woken := by
  cases wakes with
  | none =>
    simp only [signal] at h
    split_ifs at h with hall
    exact .inl ⟨(Option.some.inj h).symm, hall⟩
  | some i =>
    simp only [signal] at h
    split_ifs at h with hi
    exact .inr ⟨i, hi, (Option.some.inj h).symm⟩

theorem eq_blocked {pc : WorkerPc R A} (h : pc.isBlocked = true) : pc = .blocked := by
  cases pc with
  | blocked => rfl
  | _ => cases h

theorem eq_exited {pc : WorkerPc R A} (h : pc.isExited = true) : pc = .exited := by
  cases pc with
  | exited => rfl
  | _ => cases h

theorem update_eq {B : Type} {f : WorkerPc R A → B} {v : B} {pc : Fin n → WorkerPc R A}
    {i j : Fin n} {pc' : WorkerPc R A} (hpc : f pc' = v) (hj : f (pc j) = v) :
    f (Function.update pc i pc' j) = v := by
  by_cases hij : j = i
  · rw [hij, Function.update_self, hpc]
  · rw [Function.update_of_ne hij, hj]

theorem update_keeps {B : Type} {f : WorkerPc R A → B} {pc : Fin n → WorkerPc R A} {i : Fin n}
    {pc' : WorkerPc R A} (hpc : f pc' = f (pc i)) (j : Fin n) :
    f (Function.update pc i pc' j) = f (pc j) := by
  by_cases hij : j = i
  · rw [hij, Function.update_self, hpc]
  · rw [Function.update_of_ne hij]

theorem spurious_keeps {B : Type} {f : WorkerPc R A → B} (hf : f .blocked = f .woken)
    {pc : Fin n → WorkerPc R A} {j : Fin n} (hj : (pc j).isBlocked = true) (i : Fin n) :
    f (Function.update pc j .woken i) = f (pc i) := by
  apply update_keeps
  rw [eq_blocked hj, hf]

theorem signal_keeps {B : Type} {f : WorkerPc R A → B} (hf : f .blocked = f .woken)
    {pc pc' : Fin n → WorkerPc R A} {wakes : Option (Fin n)} (h : signal pc wakes = some pc')
    (i : Fin n) : f (pc' i) = f (pc i) := by
  rcases signal_cases h with ⟨rfl, -⟩ | ⟨j, hj, rfl⟩
  · rfl
  · exact spurious_keeps hf hj i

theorem broadcast_keeps {B : Type} {f : WorkerPc R A → B} (hf : f .blocked = f .woken)
    (pc : Fin n → WorkerPc R A) (i : Fin n) : f (broadcast pc i) = f (pc i) := by
  rw [broadcast]
  split_ifs with hi
  · rw [eq_blocked hi, hf]
  · rfl

theorem pc_of_others [DecidableEq P] {s s' : Pool n P R A} {i : Fin n} {a : Action n P R A}
    (hi : (s.pc i).isBlocked = false) (ha : a ≠ .worker i) (hstep : step s a = some s') :
    s'.pc i = s.pc i := by
  have hne {j : Fin n} (hj : (s.pc j).isBlocked = true) : i ≠ j := by
    rintro rfl
    rw [hi] at hj
    cases hj
  cases step_move hstep with
  | worker j _ hmove =>
    have hij : i ≠ j := by
      rintro rfl
      exact ha rfl
    cases hmove <;> exact Function.update_of_ne hij _ _
  | spurious j hpc => exact Function.update_of_ne (hne hpc) _ _
  | enqueue p wakes work pc hp hfree _ hpc =>
    rcases signal_cases hpc with ⟨rfl, -⟩ | ⟨j, hj, rfl⟩
    · rfl
    · exact Function.update_of_ne (hne hj) _ _
  | broadcast =>
    apply if_neg
    rw [hi]
    exact Bool.noConfusion
  | _ => rfl

def WorkerPc.hasLock : WorkerPc R A → Bool
  | .testNow => true
  | .testShutdown => true
  | .wait => true
  | .check => true
  | .exiting => true
  | .take => true
  | .leave _ => true
  | _ => false

theorem worker_enabled {s : Pool n P R A} {i : Fin n} (hblocked : (s.pc i).isBlocked = false)
    (hexited : (s.pc i).isExited = false)
    (hlock : s.pc i = .lock ∨ s.pc i = .woken → s.lock = none)
    (htake : s.pc i = .take → s.now ≠ []) : ∃ s', workerStep s i = some s' := by
  cases hpc : s.pc i with
  | lock =>
    simp only [workerStep, hpc, hlock (.inl hpc), Option.isNone_none, if_true]
    exact ⟨_, rfl⟩
  | woken =>
    simp only [workerStep, hpc, hlock (.inr hpc), Option.isNone_none, if_true]
    exact ⟨_, rfl⟩
  | take =>
    obtain ⟨work, next, hnow⟩ := List.exists_cons_of_ne_nil (htake hpc)
    simp only [workerStep, hpc, hnow]
    exact ⟨_, rfl⟩
  | blocked =>
    rw [hpc] at hblocked
    cases hblocked
  | exited =>
    rw [hpc] at hexited
    cases hexited
  | _ =>
    simp only [workerStep, hpc]
    exact ⟨_, rfl⟩

def LockOk (pc : Fin n → WorkerPc R A) (lock : Option (Fin n)) : Prop :=
  ∀ i, (pc i).hasLock = true ↔ lock = some i

theorem LockOk.same {pc : Fin n → WorkerPc R A} {lock : Option (Fin n)} (h : LockOk pc lock)
    {i : Fin n} {pc' : WorkerPc R A} (hpc : pc'.hasLock = (pc i).hasLock) :
    LockOk (Function.update pc i pc') lock := by
  intro j
  rw [← h j, update_keeps hpc j]

theorem LockOk.acquire {pc : Fin n → WorkerPc R A} {lock : Option (Fin n)} (h : LockOk pc lock)
    (hfree : lock = none) (i : Fin n) {pc' : WorkerPc R A} (hpc : pc'.hasLock = true) :
    LockOk (Function.update pc i pc') (some i) := by
  intro j
  by_cases hj : j = i
  · rw [hj, Function.update_self]
    exact iff_of_true hpc rfl
  · rw [Function.update_of_ne hj, h j, hfree]
    simp [Ne.symm hj]

theorem LockOk.release {pc : Fin n → WorkerPc R A} {lock : Option (Fin n)} (h : LockOk pc lock)
    {i : Fin n} {pc' : WorkerPc R A} (hi : (pc i).hasLock = true) (hpc : pc'.hasLock = false) :
    LockOk (Function.update pc i pc') none := by
  intro j
  have hlock := (h i).mp hi
  by_cases hj : j = i
  · rw [hj, Function.update_self, hpc]
    simp
  · rw [Function.update_of_ne hj, h j, hlock]
    simp [Ne.symm hj]

theorem LockOk.keep {pc pc' : Fin n → WorkerPc R A} {lock : Option (Fin n)} (h : LockOk pc lock)
    (hpc : ∀ i, (pc' i).hasLock = (pc i).hasLock) : LockOk pc' lock := by
  intro i
  rw [hpc i]
  exact h i

theorem LockOk.hasLock_eq_false {pc : Fin n → WorkerPc R A} {lock : Option (Fin n)}
    (h : LockOk pc lock) (hfree : lock = none) (i : Fin n) : (pc i).hasLock = false := by
  rw [Bool.eq_false_iff]
  intro hi
  have := (h i).mp hi
  rw [hfree] at this
  cases this

theorem lockOk_worker {s s' : Pool n P R A} {i : Fin n} (h : LockOk s.pc s.lock)
    (hmove : WorkerMove s i s') : LockOk s'.pc s'.lock := by
  cases hmove with
  | acquire hpc hfree => exact h.acquire hfree i rfl
  | empty hpc => exact h.same (by rw [hpc]; rfl)
  | work hpc => exact h.same (by rw [hpc]; rfl)
  | leaveLoop hpc => exact h.same (by rw [hpc]; rfl)
  | enterLoop hpc => exact h.same (by rw [hpc]; rfl)
  | sleep hpc => exact h.release (by rw [hpc]; rfl) rfl
  | stop hpc => exact h.same (by rw [hpc]; rfl)
  | goOn hpc => exact h.same (by rw [hpc]; rfl)
  | exit hpc => exact h.release (by rw [hpc]; rfl) rfl
  | take work next hpc => exact h.same (by rw [hpc]; rfl)
  | unlock work hpc => exact h.release (by rw [hpc]; rfl) rfl
  | start work hpc => exact h.same (by rw [hpc]; rfl)
  | finish work hpc => exact h.same (by rw [hpc]; rfl)
  | free work hpc => exact h.same (by rw [hpc]; rfl)

theorem run_lockOk [DecidableEq P] {s : Pool n P R A} (hrun : Run s) : LockOk s.pc s.lock := by
  apply Reachable.invariant (I := fun s => LockOk s.pc s.lock) ?_ ?_ hrun
  · rintro s rfl i
    exact iff_of_false (fun h => nomatch h) (fun h => nomatch h)
  · intro s a s' hstep h
    cases step_move hstep with
    | worker i _ hmove => exact lockOk_worker h hmove
    | spurious i hpc => exact h.keep (spurious_keeps rfl hpc)
    | enqueue p wakes work pc hp hfree hd hpc => exact h.keep (signal_keeps rfl hpc)
    | broadcast => exact h.keep (broadcast_keeps rfl s.pc)
    | _ => exact h

theorem run_shutdown [DecidableEq P] {s : Pool n P R A} (hrun : Run s) :
    s.destroyer ≠ .idle → s.shutdown = true := by
  apply Reachable.invariant (I := fun s => s.destroyer ≠ .idle → s.shutdown = true) ?_ ?_ hrun
  · rintro s rfl hd
    exact absurd rfl hd
  · intro s a s' hstep h
    cases step_move hstep with
    | worker i _ hmove => cases hmove <;> exact h
    | shutdown => exact fun _ => rfl
    | broadcast hd => exact fun _ => h (by rw [hd]; exact DestroyPc.noConfusion)
    | join k hd => exact fun _ => h (by rw [hd]; exact DestroyPc.noConfusion)
    | joined k hd => exact fun _ => h (by rw [hd]; exact DestroyPc.noConfusion)
    | released hd => exact fun _ => h (by rw [hd]; exact DestroyPc.noConfusion)
    | _ => exact h

end Sginx.ThreadPool
