import Mathlib.Data.List.Nodup
import Sginx.PoolLedger

/-!
`sgx_destroy_pool`, as the sequence of its accesses to nodes of the pool and its calls. In a build
with `SGX_DEBUG`, `cleanp` is read as `cleanup`.
-/

namespace Sginx.Pool

structure SgxPoolCleanup where
  addr : ℕ
  handler : Option ℕ
  data : Option ℕ
deriving DecidableEq, Repr

inductive PoolEvent where
  | readCleanup (addr : ℕ)
  | handler (handler : ℕ) (data : Option ℕ)
  | readLarge (addr : ℕ)
  | readBlock (addr : ℕ)
  | free (addr : ℕ)
deriving DecidableEq, Repr

def SgxPool.addr (pool : SgxPool) (now : ℕ) : ℕ := (pool.block now).addr

theorem setBlock_addr {pool : SgxPool} {now : ℕ} {data : SgxPoolData}
    (h : data.addr = pool.addr now) (other : ℕ) :
    (pool.setBlock now data).addr other = pool.addr other := by
  by_cases hother : other = now
  · subst hother
    simp only [SgxPool.addr, SgxPool.setBlock, Function.update_self, h]
  · simp only [SgxPool.addr, SgxPool.setBlock, Function.update_of_ne hother]

theorem SameBlocks.addr {pool pool' : SgxPool} (h : SameBlocks pool pool') (now : ℕ) :
    pool'.addr now = pool.addr now := by
  obtain ⟨failed, hblock⟩ := h.block now
  rw [SgxPool.addr, SgxPool.addr, hblock]

def runCleanup (cleanup : List SgxPoolCleanup) : List PoolEvent :=
  cleanup.flatMap fun clean =>
    .readCleanup clean.addr :: clean.handler.toList.map fun handler => .handler handler clean.data

def logLarge (large : List SgxPoolLarge) : List PoolEvent :=
  large.map fun entry => .readLarge entry.addr

def logLoop (pool : SgxPool) : ℕ → ℕ → List PoolEvent
  | 0, _ => []
  | fuel + 1, now =>
    if now + 1 < pool.count then
      .readBlock (pool.addr now) :: .readBlock (pool.addr (now + 1)) :: logLoop pool fuel (now + 1)
    else []

def freeLarge (large : List SgxPoolLarge) : List PoolEvent :=
  large.flatMap fun entry => .readLarge entry.addr :: entry.alloc.toList.map .free

def destroyLoop (pool : SgxPool) : ℕ → ℕ → List PoolEvent
  | 0, _ => []
  | fuel + 1, now =>
    if now + 1 < pool.count then
      .free (pool.addr now) :: .readBlock (pool.addr (now + 1)) :: destroyLoop pool fuel (now + 1)
    else []

def debugEvents (pool : SgxPool) (cleanup : List SgxPoolCleanup) : List PoolEvent :=
  runCleanup cleanup ++ logLarge pool.large ++
    .readBlock (pool.addr 0) :: logLoop pool pool.count 0

def sgxDestroyPool (debug : Bool) (pool : SgxPool) (cleanup : List SgxPoolCleanup) :
    List PoolEvent :=
  (if debug then debugEvents pool cleanup else []) ++
    (freeLarge pool.large ++ .readBlock (pool.addr 0) :: destroyLoop pool pool.count 0)

def PoolEvent.freed : PoolEvent → Option ℕ
  | .free addr => some addr
  | _ => none

def freedBy (events : List PoolEvent) : List ℕ := events.filterMap PoolEvent.freed

structure Separate (pool : SgxPool) : Prop where
  nonempty : 0 < pool.count
  blocks : ∀ i < pool.count, ∀ j < pool.count, pool.addr i = pool.addr j → i = j
  large : (allocs pool.large).Nodup
  apart : ∀ i < pool.count, pool.addr i ∉ allocs pool.large

def NoReadAfterFree (events : List PoolEvent) : Prop :=
  events.Pairwise fun e f => ∀ addr, e = .free addr → f ≠ .readBlock addr

def BlocksAfterLarge (pool : SgxPool) (events : List PoolEvent) : Prop :=
  events.Pairwise fun e f =>
    ∀ i < pool.count, e = .free (pool.addr i) → ∀ addr, f ≠ .readLarge addr

structure DestroysAll (pool : SgxPool) (events : List PoolEvent) : Prop where
  blocks : ∀ i < pool.count, (freedBy events).count (pool.addr i) = 1
  large : ∀ addr ∈ allocs pool.large, (freedBy events).count addr = 1
  reads : NoReadAfterFree events
  order : BlocksAfterLarge pool events

theorem freedBy_eq_nil {events : List PoolEvent} (h : ∀ e ∈ events, e.freed = none) :
    freedBy events = [] := List.filterMap_eq_nil_iff.mpr h

theorem freedBy_append (events events' : List PoolEvent) :
    freedBy (events ++ events') = freedBy events ++ freedBy events' := List.filterMap_append

theorem mem_logLoop {pool : SgxPool} {fuel now : ℕ} {e : PoolEvent} (h : e ∈ logLoop pool fuel now) :
    ∃ addr, e = .readBlock addr := by
  induction fuel generalizing now with
  | zero => cases h
  | succ fuel ih =>
    rw [logLoop] at h
    split_ifs at h
    · rcases List.mem_cons.mp h with rfl | h
      · exact ⟨_, rfl⟩
      rcases List.mem_cons.mp h with rfl | h
      · exact ⟨_, rfl⟩
      · exact ih h
    · cases h

theorem mem_freeLarge {large : List SgxPoolLarge} {e : PoolEvent} (h : e ∈ freeLarge large) :
    (∃ addr, e = .readLarge addr) ∨ ∃ addr ∈ allocs large, e = .free addr := by
  obtain ⟨entry, hentry, he⟩ := List.mem_flatMap.mp h
  rcases List.mem_cons.mp he with rfl | he
  · exact .inl ⟨_, rfl⟩
  · obtain ⟨addr, haddr, rfl⟩ := List.mem_map.mp he
    exact .inr ⟨addr, List.mem_filterMap.mpr ⟨entry, hentry, Option.mem_toList.mp haddr⟩, rfl⟩

theorem mem_destroyLoop {pool : SgxPool} {fuel now : ℕ} {e : PoolEvent}
    (h : e ∈ destroyLoop pool fuel now) :
    (∃ i, now ≤ i ∧ i < pool.count ∧ e = .free (pool.addr i)) ∨
      ∃ i, now < i ∧ i < pool.count ∧ e = .readBlock (pool.addr i) := by
  induction fuel generalizing now with
  | zero => cases h
  | succ fuel ih =>
    rw [destroyLoop] at h
    split_ifs at h with hnext
    · rcases List.mem_cons.mp h with rfl | h
      · exact .inl ⟨now, le_refl now, by omega, rfl⟩
      rcases List.mem_cons.mp h with rfl | h
      · exact .inr ⟨now + 1, by omega, hnext, rfl⟩
      rcases ih h with ⟨i, hi, hlt, he⟩ | ⟨i, hi, hlt, he⟩
      · exact .inl ⟨i, by omega, hlt, he⟩
      · exact .inr ⟨i, by omega, hlt, he⟩
    · cases h

theorem mem_blocks {pool : SgxPool} (hcount : 0 < pool.count) {e : PoolEvent}
    (h : e ∈ .readBlock (pool.addr 0) :: destroyLoop pool pool.count 0) :
    (∃ i < pool.count, e = .free (pool.addr i)) ∨ ∃ i < pool.count, e = .readBlock (pool.addr i) := by
  rcases List.mem_cons.mp h with rfl | h
  · exact .inr ⟨0, hcount, rfl⟩
  rcases mem_destroyLoop h with ⟨i, -, hlt, he⟩ | ⟨i, -, hlt, he⟩
  · exact .inl ⟨i, hlt, he⟩
  · exact .inr ⟨i, hlt, he⟩

theorem debugEvents_freed {pool : SgxPool} {cleanup : List SgxPoolCleanup} {e : PoolEvent}
    (h : e ∈ debugEvents pool cleanup) : e.freed = none := by
  rcases List.mem_append.mp h with h | h
  · rcases List.mem_append.mp h with h | h
    · obtain ⟨clean, -, h⟩ := List.mem_flatMap.mp h
      rcases List.mem_cons.mp h with rfl | h
      · rfl
      · obtain ⟨handler, -, rfl⟩ := List.mem_map.mp h
        rfl
    · obtain ⟨entry, -, rfl⟩ := List.mem_map.mp h
      rfl
  · rcases List.mem_cons.mp h with rfl | h
    · rfl
    · obtain ⟨addr, rfl⟩ := mem_logLoop h
      rfl

theorem before_freed {debug : Bool} {pool : SgxPool} {cleanup : List SgxPoolCleanup} {e : PoolEvent}
    (h : e ∈ if debug then debugEvents pool cleanup else []) : e.freed = none := by
  split_ifs at h
  · exact debugEvents_freed h
  · cases h

theorem freedBy_freeLarge (large : List SgxPoolLarge) : freedBy (freeLarge large) = allocs large := by
  induction large with
  | nil => rfl
  | cons entry rest ih =>
    have hcons : freeLarge (entry :: rest) =
        (.readLarge entry.addr :: entry.alloc.toList.map .free) ++ freeLarge rest := rfl
    rw [hcons, freedBy_append, ih]
    rcases halloc : entry.alloc with _ | addr
    · rw [allocs_cons_none halloc]
      rfl
    · rw [allocs_cons_some halloc]
      rfl

theorem freedBy_destroyLoop (pool : SgxPool) (fuel now : ℕ) (hfuel : pool.count ≤ now + fuel) :
    freedBy (destroyLoop pool fuel now) =
      (List.range' now (pool.count - 1 - now)).map pool.addr := by
  induction fuel generalizing now with
  | zero =>
    rw [show pool.count - 1 - now = 0 by omega]
    rfl
  | succ fuel ih =>
    rw [destroyLoop]
    split_ifs with hnext
    · obtain ⟨n, hn⟩ : ∃ n, pool.count - 1 - now = n + 1 := ⟨pool.count - 2 - now, by omega⟩
      have hrest := ih (now + 1) (by omega)
      rw [show pool.count - 1 - (now + 1) = n by omega] at hrest
      rw [hn, List.range'_succ, List.map_cons, ← hrest]
      rfl
    · rw [show pool.count - 1 - now = 0 by omega]
      rfl

theorem freedBy_destroy (debug : Bool) (pool : SgxPool) (cleanup : List SgxPoolCleanup) :
    freedBy (sgxDestroyPool debug pool cleanup) =
      allocs pool.large ++ (List.range (pool.count - 1)).map pool.addr := by
  have hbefore : freedBy (if debug then debugEvents pool cleanup else []) = [] :=
    freedBy_eq_nil fun _ => before_freed
  have hblocks : freedBy (.readBlock (pool.addr 0) :: destroyLoop pool pool.count 0) =
      (List.range (pool.count - 1)).map pool.addr := by
    rw [List.range_eq_range']
    exact freedBy_destroyLoop pool pool.count 0 (Nat.le_add_left _ _)
  rw [sgxDestroyPool, freedBy_append, hbefore, List.nil_append, freedBy_append, freedBy_freeLarge,
    hblocks]

theorem destroy_pairwise {pool : SgxPool} {R : PoolEvent → PoolEvent → Prop}
    (hkeeps : ∀ e f, e.freed = none → R e f) (hlarge : (freeLarge pool.large).Pairwise R)
    (hblocks : (.readBlock (pool.addr 0) :: destroyLoop pool pool.count 0).Pairwise R)
    (hcross : ∀ e ∈ freeLarge pool.large,
      ∀ f ∈ .readBlock (pool.addr 0) :: destroyLoop pool pool.count 0, R e f)
    (debug : Bool) (cleanup : List SgxPoolCleanup) :
    (sgxDestroyPool debug pool cleanup).Pairwise R := by
  apply List.pairwise_append.mpr
  refine ⟨?_, List.pairwise_append.mpr ⟨hlarge, hblocks, hcross⟩, ?_⟩
  · apply List.pairwise_of_forall_mem_list
    exact fun e he f _ => hkeeps e f (before_freed he)
  · exact fun e he f _ => hkeeps e f (before_freed he)

section Separate

variable {pool : SgxPool} (h : Separate pool)

include h

theorem Separate.freed_nodup :
    (allocs pool.large ++ (List.range (pool.count - 1)).map pool.addr).Nodup := by
  apply List.nodup_append.mpr
  refine ⟨h.large, ?_, ?_⟩
  · apply List.Nodup.map_on _ List.nodup_range
    intro i hi j hj heq
    rw [List.mem_range] at hi hj
    exact h.blocks i (by omega) j (by omega) heq
  · rintro addr hlarge _ hblock rfl
    obtain ⟨i, hi, rfl⟩ := List.mem_map.mp hblock
    rw [List.mem_range] at hi
    exact h.apart i (by omega) hlarge

theorem Separate.last_notMem :
    pool.addr (pool.count - 1) ∉ allocs pool.large ++ (List.range (pool.count - 1)).map pool.addr := by
  have hpos := h.nonempty
  rw [List.mem_append, not_or]
  refine ⟨h.apart _ (by omega), fun hmem => ?_⟩
  obtain ⟨i, hi, heq⟩ := List.mem_map.mp hmem
  rw [List.mem_range] at hi
  have hsame := h.blocks i (by omega) _ (by omega) heq
  omega

theorem Separate.destroyLoop_reads (fuel now : ℕ) :
    NoReadAfterFree (.readBlock (pool.addr now) :: destroyLoop pool fuel now) := by
  induction fuel generalizing now with
  | zero => exact List.pairwise_singleton _ _
  | succ fuel ih =>
    apply List.pairwise_cons.mpr
    constructor
    · rintro e - addr ⟨⟩
    rw [destroyLoop]
    split_ifs with hnext
    · apply List.pairwise_cons.mpr
      refine ⟨?_, ih (now + 1)⟩
      rintro e he addr ⟨⟩ rfl
      rcases List.mem_cons.mp he with heq | he
      · have hsame := h.blocks now (by omega) (now + 1) hnext (PoolEvent.readBlock.inj heq)
        omega
      · rcases mem_destroyLoop he with ⟨i, -, -, heq⟩ | ⟨i, hi, hlt, heq⟩
        · cases heq
        · have hsame := h.blocks now (by omega) i hlt (PoolEvent.readBlock.inj heq)
          omega
    · exact List.Pairwise.nil

theorem Separate.destroy_reads (debug : Bool) (cleanup : List SgxPoolCleanup) :
    NoReadAfterFree (sgxDestroyPool debug pool cleanup) := by
  apply destroy_pairwise
  · rintro e f hfreed addr rfl
    cases hfreed
  · apply List.pairwise_of_forall_mem_list
    rintro e he f hf addr rfl rfl
    rcases mem_freeLarge hf with ⟨_, heq⟩ | ⟨_, -, heq⟩ <;> cases heq
  · exact h.destroyLoop_reads pool.count 0
  · rintro e he f hf addr rfl rfl
    rcases mem_freeLarge he with ⟨_, heq⟩ | ⟨_, hin, heq⟩
    · cases heq
    · obtain rfl := PoolEvent.free.inj heq
      rcases mem_blocks h.nonempty hf with ⟨i, -, heq⟩ | ⟨i, hlt, heq⟩
      · cases heq
      · rw [PoolEvent.readBlock.inj heq] at hin
        exact h.apart i hlt hin

theorem Separate.destroy_order (debug : Bool) (cleanup : List SgxPoolCleanup) :
    BlocksAfterLarge pool (sgxDestroyPool debug pool cleanup) := by
  have hlater {f : PoolEvent} (hf : f ∈ .readBlock (pool.addr 0) :: destroyLoop pool pool.count 0)
      (addr : ℕ) : f ≠ .readLarge addr := by
    rintro rfl
    rcases mem_blocks h.nonempty hf with ⟨_, -, heq⟩ | ⟨_, -, heq⟩ <;> cases heq
  apply destroy_pairwise
  · rintro e f hfreed i - rfl
    cases hfreed
  · apply List.pairwise_of_forall_mem_list
    rintro e he f - i hi rfl
    rcases mem_freeLarge he with ⟨_, heq⟩ | ⟨_, hin, heq⟩
    · cases heq
    · rw [← PoolEvent.free.inj heq] at hin
      exact absurd hin (h.apart i hi)
  · apply List.pairwise_of_forall_mem_list
    exact fun e _ f hf i _ _ => hlater hf
  · exact fun e _ f hf i _ _ => hlater hf

end Separate

theorem destroy_leaks_the_tail (debug : Bool) (pool : SgxPool) (cleanup : List SgxPoolCleanup)
    (h : Separate pool) :
    let events := sgxDestroyPool debug pool cleanup
    ¬ DestroysAll pool events ∧ (freedBy events).count (pool.addr (pool.count - 1)) = 0 ∧
      (∀ i, i + 1 < pool.count → (freedBy events).count (pool.addr i) = 1) ∧
      (∀ addr ∈ allocs pool.large, (freedBy events).count addr = 1) ∧
      NoReadAfterFree events ∧ BlocksAfterLarge pool events := by
  intro events
  have hfreed : freedBy events = _ := freedBy_destroy debug pool cleanup
  have hpos := h.nonempty
  have htail : (freedBy events).count (pool.addr (pool.count - 1)) = 0 := by
    rw [hfreed]
    exact List.count_eq_zero.mpr h.last_notMem
  refine ⟨fun hall => ?_, htail, fun i hi => ?_, fun addr haddr => ?_, h.destroy_reads debug cleanup,
    h.destroy_order debug cleanup⟩
  · have hone := hall.blocks (pool.count - 1) (by omega)
    omega
  · rw [hfreed]
    apply List.count_eq_one_of_mem h.freed_nodup
    apply List.mem_append_right
    exact List.mem_map.mpr ⟨i, List.mem_range.mpr (by omega), rfl⟩
  · rw [hfreed]
    exact List.count_eq_one_of_mem h.freed_nodup (List.mem_append_left _ haddr)

theorem separate_of_one {pool : SgxPool} (hcount : pool.count = 1) (hlarge : pool.large = []) :
    Separate pool := by
  constructor
  · rw [hcount]
    exact Nat.one_pos
  · intro i hi j hj _
    omega
  · rw [hlarge]
    exact List.nodup_nil
  · intro i _
    rw [hlarge]
    exact List.not_mem_nil

theorem destroy_leaks_the_tail_one_block : ∃ pool, sgxCreatePool 128 4096 (some 4096) = some pool ∧
    ¬ DestroysAll pool (sgxDestroyPool false pool []) := by
  refine ⟨_, rfl, ?_⟩
  exact (destroy_leaks_the_tail false _ [] (separate_of_one rfl rfl)).1

theorem destroy_frees_nothing : ∃ pool, sgxCreatePool 128 4096 (some 4096) = some pool ∧
    Separate pool ∧ sgxDestroyPool false pool [] = [.readBlock 4096] ∧
    ¬ DestroysAll pool (sgxDestroyPool false pool []) := by
  refine ⟨_, rfl, separate_of_one rfl rfl, rfl, fun h => ?_⟩
  exact absurd (h.blocks 0 (by decide)) (by decide)

end Sginx.Pool
