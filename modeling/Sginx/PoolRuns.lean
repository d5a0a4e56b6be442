import Mathlib.Tactic.Common
import Sginx.Library.Regions
import Sginx.Pool

namespace Sginx.Pool

open Sginx.Library.Regions

def SgxPool.span (pool : SgxPool) (now : ℕ) : Span ℕ :=
  ⟨(pool.block now).addr, (pool.block now).addr + (pool.block now).bytes⟩

def SgxPool.arena (pool : SgxPool) (live : List (Span ℕ)) : Arena ℕ :=
  ⟨{b | ∃ now < pool.count, pool.span now = b}, live⟩

structure PoolInv (pool : SgxPool) (live : List (Span ℕ)) : Prop where
  sound : (pool.arena live).Sound
  below : (pool.arena live).Below (pool.span 0) (pool.block 0).dataBegin
  current_lt : pool.current < pool.count
  end_eq : (pool.block 0).dataEnd = (pool.block 0).addr + (pool.block 0).bytes
  begin_ge : (pool.block 0).addr ≤ (pool.block 0).dataBegin
  room : pool.maxSize + sizeofPool ≤ (pool.block 0).bytes

/-- The loop stops at the pool itself, within its end, or at no block. -/
def StaysInBlock (pool : SgxPool) (size : ℕ) (align : Bool) : Prop :=
  (pool.current = 0 ∧ smallBegin pool align + size ≤ (pool.block 0).dataEnd) ∨
    ∀ now, pool.current ≤ now → now < pool.count → smallFits pool size align now = false

def Fresh (pool : SgxPool) (mem : Option ℕ) : Prop :=
  ∀ new, mem = some new → ∀ now < pool.count,
    Span.Apart ⟨new, new + (pool.block 0).bytes⟩ (pool.span now)

def handOut (live : List (Span ℕ)) (size : ℕ) (r : Option ℕ) : List (Span ℕ) :=
  r.elim live fun start => ⟨start, start + size⟩ :: live

theorem le_align (p : ℕ) : p ≤ sgxAlignPtr p sgxAlignment := le_sgxAlignPtr p (by decide)

theorem align_lt (p : ℕ) : sgxAlignPtr p sgxAlignment < p + sgxAlignment :=
  sgxAlignPtr_lt p (by decide)

theorem le_smallBegin (pool : SgxPool) (align : Bool) :
    (pool.block 0).dataBegin ≤ smallBegin pool align := by
  cases align
  · exact le_refl _
  · exact le_align _

structure SameBlocks (pool pool' : SgxPool) : Prop where
  count : pool'.count = pool.count
  maxSize : pool'.maxSize = pool.maxSize
  block : ∀ now, ∃ failed, pool'.block now = { pool.block now with failed := failed }
  current : pool.current < pool.count → pool'.current < pool.count

theorem SameBlocks.refl (pool : SgxPool) : SameBlocks pool pool :=
  ⟨rfl, rfl, fun _ => ⟨_, rfl⟩, id⟩

theorem SameBlocks.trans {pool₁ pool₂ pool₃ : SgxPool} (h : SameBlocks pool₁ pool₂)
    (h' : SameBlocks pool₂ pool₃) : SameBlocks pool₁ pool₃ := by
  refine ⟨h'.count.trans h.count, h'.maxSize.trans h.maxSize, fun now => ?_, fun hlt => ?_⟩
  · obtain ⟨failed, hblock⟩ := h.block now
    obtain ⟨failed', hblock'⟩ := h'.block now
    exact ⟨failed', by rw [hblock', hblock]⟩
  · rw [← h.count]
    apply h'.current
    rw [h.count]
    exact h.current hlt

theorem SameBlocks.span {pool pool' : SgxPool} (h : SameBlocks pool pool') (now : ℕ) :
    pool'.span now = pool.span now := by
  obtain ⟨failed, hblock⟩ := h.block now
  simp only [SgxPool.span, hblock]

theorem failRound_same (pool : SgxPool) {now : ℕ} (hnext : now + 1 < pool.count) :
    SameBlocks pool (failRound pool now) := by
  have hblock (other : ℕ) : ∃ failed, Function.update pool.block now
      { pool.block now with failed := sizeAdd (pool.block now).failed 1 } other =
        { pool.block other with failed := failed } := by
    by_cases hother : other = now
    · subst hother
      exact ⟨_, Function.update_self _ _ _⟩
    · exact ⟨_, Function.update_of_ne hother _ _⟩
  dsimp only [failRound]
  split_ifs
  · exact ⟨rfl, rfl, hblock, fun _ => hnext⟩
  · exact ⟨rfl, rfl, hblock, id⟩

theorem failLoop_same (fuel : ℕ) (pool : SgxPool) (now : ℕ) :
    SameBlocks pool (failLoop fuel pool now) := by
  induction fuel generalizing pool now with
  | zero => exact SameBlocks.refl pool
  | succ fuel ih =>
    rw [failLoop]
    split_ifs with hnext
    · exact (failRound_same pool hnext).trans (ih _ _)
    · exact SameBlocks.refl pool

theorem smallLoop_none {pool : SgxPool} {size : ℕ} {align : Bool} (fuel now : ℕ)
    (hnow : now < pool.count)
    (hfits : ∀ next, now ≤ next → next < pool.count → smallFits pool size align next = false) :
    smallLoop pool size align fuel now = none := by
  induction fuel generalizing now with
  | zero => rfl
  | succ fuel ih =>
    rw [smallLoop, hfits now (le_refl now) hnow, if_neg Bool.false_ne_true]
    split_ifs with hnext
    · apply ih _ hnext
      intro next hle hlt
      exact hfits next (Nat.le_of_succ_le hle) hlt
    · rfl

theorem small_own {pool : SgxPool} (hcount : 0 < pool.count) {size : ℕ} {align : Bool}
    (hcurrent : pool.current = 0) (hend : smallBegin pool align + size ≤ (pool.block 0).dataEnd)
    (mem : Option ℕ) : sgxPallocSmall pool size align mem = (some (smallBegin pool align),
      pool.setBlock 0 { pool.block 0 with dataBegin := smallBegin pool align + size }) := by
  obtain ⟨fuel, hfuel⟩ : ∃ fuel, pool.count = fuel + 1 := Nat.exists_eq_add_one.mpr hcount
  have hfirst : smallFits pool size align 0 = true := by
    rw [smallFits, sizeSub_of_le (Nat.le_of_add_right_le hend), decide_eq_true_eq]
    omega
  have hloop : smallLoop pool size align pool.count pool.current = some 0 := by
    rw [hfuel, hcurrent, smallLoop, if_pos hfirst]
  rw [sgxPallocSmall, hloop]

theorem small_cases {pool : SgxPool} {live : List (Span ℕ)} (h : PoolInv pool live) {size : ℕ}
    {align : Bool} (hstay : StaysInBlock pool size align) (mem : Option ℕ) :
    (sgxPallocSmall pool size align mem = (some (smallBegin pool align),
        pool.setBlock 0 { pool.block 0 with dataBegin := smallBegin pool align + size }) ∧
      smallBegin pool align + size ≤ (pool.block 0).dataEnd) ∨
    sgxPallocSmall pool size align mem = sgxPallocBlock pool size mem := by
  rcases hstay with ⟨hcurrent, hend⟩ | hfits
  · left
    exact ⟨small_own (Nat.zero_lt_of_lt h.current_lt) hcurrent hend mem, hend⟩
  · right
    rw [sgxPallocSmall, smallLoop_none pool.count pool.current h.current_lt hfits]

theorem arena_congr {pool pool' : SgxPool} (hcount : pool'.count = pool.count)
    (hspan : ∀ now, pool'.span now = pool.span now) (live : List (Span ℕ)) :
    pool'.arena live = pool.arena live := by
  simp only [SgxPool.arena, hcount, hspan]

theorem span_setBegin (pool : SgxPool) (begin now : ℕ) :
    (pool.setBlock 0 { pool.block 0 with dataBegin := begin }).span now = pool.span now := by
  by_cases hnow : now = 0
  · subst hnow
    simp only [SgxPool.span, SgxPool.setBlock, Function.update_self]
  · simp only [SgxPool.span, SgxPool.setBlock, Function.update_of_ne hnow]

theorem arena_setBegin (pool : SgxPool) (begin : ℕ) (live : List (Span ℕ)) :
    (pool.setBlock 0 { pool.block 0 with dataBegin := begin }).arena live = pool.arena live := by
  apply arena_congr
  · rfl
  · intro now
    exact span_setBegin pool begin now

theorem own_block_inv {pool : SgxPool} {live : List (Span ℕ)} (h : PoolInv pool live) {size : ℕ}
    {align : Bool} (hend : smallBegin pool align + size ≤ (pool.block 0).dataEnd) :
    PoolInv (pool.setBlock 0 { pool.block 0 with dataBegin := smallBegin pool align + size })
      (⟨smallBegin pool align, smallBegin pool align + size⟩ :: live) := by
  have hbegin := le_smallBegin pool align
  have hge := h.begin_ge
  have hcount : 0 < pool.count := Nat.zero_lt_of_lt h.current_lt
  have hwithin : Span.Within ⟨smallBegin pool align, smallBegin pool align + size⟩
      (pool.span 0) := by
    rw [h.end_eq] at hend
    exact ⟨hge.trans hbegin, hend⟩
  constructor
  · rw [arena_setBegin]
    exact h.sound.carve_above ⟨0, hcount, rfl⟩ h.below hwithin hbegin
  · rw [arena_setBegin, span_setBegin]
    simp only [SgxPool.setBlock, Function.update_self]
    exact h.below.carve (hbegin.trans (Nat.le_add_right _ _))
  · exact h.current_lt
  · simp only [SgxPool.setBlock, Function.update_self]
    exact h.end_eq
  · simp only [SgxPool.setBlock, Function.update_self]
    omega
  · simp only [SgxPool.setBlock, Function.update_self]
    exact h.room

theorem arena_grow {pool pool' : SgxPool} (hcount : pool'.count = pool.count + 1)
    (hspan : ∀ now < pool.count, pool'.span now = pool.span now) (live : List (Span ℕ)) :
    pool'.arena live = (pool.arena live).grow (pool'.span pool.count) := by
  have howned : {b | ∃ now < pool'.count, pool'.span now = b} =
      insert (pool'.span pool.count) {b | ∃ now < pool.count, pool.span now = b} := by
    ext b
    constructor
    · rintro ⟨now, hnow, rfl⟩
      rw [hcount] at hnow
      rcases Nat.lt_succ_iff_lt_or_eq.mp hnow with hlt | rfl
      · exact Set.mem_insert_of_mem _ ⟨now, hlt, (hspan now hlt).symm⟩
      · exact Set.mem_insert _ _
    · rintro (rfl | ⟨now, hnow, rfl⟩)
      · exact ⟨pool.count, by omega, rfl⟩
      · exact ⟨now, by omega, hspan now hnow⟩
  rw [SgxPool.arena, howned]
  rfl

theorem grown_inv {pool pool' : SgxPool} {live : List (Span ℕ)} (h : PoolInv pool live)
    {r : Span ℕ} (hout : ¬ r.Within (pool.span 0)) (hcount : pool'.count = pool.count + 1)
    (hcurrent : pool'.current < pool.count) (hmax : pool'.maxSize = pool.maxSize)
    (hblock : ∀ now < pool.count, ∃ failed,
      pool'.block now = { pool.block now with failed := failed })
    (hfresh : ∀ now < pool.count, (pool'.span pool.count).Apart (pool.span now))
    (hr : r.Within (pool'.span pool.count)) : PoolInv pool' (r :: live) := by
  have h0 : 0 < pool.count := Nat.zero_lt_of_lt h.current_lt
  obtain ⟨failed, hown⟩ := hblock 0 h0
  have hspan : ∀ now < pool.count, pool'.span now = pool.span now := by
    intro now hnow
    obtain ⟨failed, hsame⟩ := hblock now hnow
    simp only [SgxPool.span, hsame]
  constructor
  · rw [arena_grow hcount hspan]
    apply h.sound.grow_carve _ hr
    rintro b ⟨now, hnow, rfl⟩
    exact hfresh now hnow
  · rw [arena_grow hcount hspan, hspan 0 h0, hown]
    exact h.below.carve_outside hout
  · omega
  · rw [hown]
    exact h.end_eq
  · rw [hown]
    exact h.begin_ge
  · rw [hown, hmax]
    exact h.room

theorem block_inv {pool : SgxPool} {live : List (Span ℕ)} (h : PoolInv pool live) {size : ℕ}
    (hsize : size ≤ pool.maxSize) {new : ℕ} (hfresh : Fresh pool (some new)) :
    ∃ m pool', sgxPallocBlock pool size (some new) = (some m, pool') ∧
      PoolInv pool' (⟨m, m + size⟩ :: live) := by
  have hsame := failLoop_same pool.count pool pool.current
  have hbytes : sizeSub (pool.block 0).dataEnd (pool.block 0).addr = (pool.block 0).bytes := by
    rw [h.end_eq, sizeSub_of_le (Nat.le_add_right _ _), Nat.add_sub_cancel_left]
  have hroom := h.room
  have hle := le_align (new + sizeofPoolData)
  have hlt := align_lt (new + sizeofPoolData)
  have hown := hfresh new rfl 0 (Nat.zero_lt_of_lt h.current_lt)
  simp only [sizeofPool, sizeofPoolData, sgxAlignment] at hroom hle hlt
  simp only [Span.Apart, SgxPool.span] at hown
  refine ⟨_, _, rfl, grown_inv h ?_ ?_ ?_ hsame.maxSize ?_ ?_ ?_⟩
  · rintro ⟨hstart, hstop⟩
    simp only [SgxPool.span, sizeofPoolData, sgxAlignment] at hstart hstop
    omega
  · exact congrArg (· + 1) hsame.count
  · exact hsame.current h.current_lt
  · intro now hnow
    obtain ⟨failed, hblock⟩ := hsame.block now
    refine ⟨failed, ?_⟩
    rw [← hblock]
    apply Function.update_of_ne
    rw [hsame.count]
    exact Nat.ne_of_lt hnow
  · intro now hnow
    simp only [SgxPool.span, SgxPool.setBlock, hsame.count, Function.update_self, hbytes]
    exact hfresh new rfl now hnow
  · simp only [SgxPool.span, SgxPool.setBlock, hsame.count, Function.update_self, hbytes]
    constructor
    · exact Nat.le_of_add_right_le hle
    · simp only [sizeofPoolData, sgxAlignment]
      omega

theorem small_inv {pool pool' : SgxPool} {live : List (Span ℕ)} (h : PoolInv pool live) {size : ℕ}
    {align : Bool} (hstay : StaysInBlock pool size align) (hsize : size ≤ pool.maxSize)
    {mem r : Option ℕ} (hfresh : Fresh pool mem)
    (hcall : sgxPallocSmall pool size align mem = (r, pool')) :
    PoolInv pool' (handOut live size r) := by
  rcases small_cases h hstay mem with ⟨hsmall, hend⟩ | hsmall
  · rw [hsmall] at hcall
    cases hcall
    exact own_block_inv h hend
  · rw [hsmall] at hcall
    cases mem with
    | none =>
      cases hcall
      exact h
    | some new =>
      obtain ⟨m, grown, hblock, hinv⟩ := block_inv h hsize hfresh
      rw [hblock] at hcall
      cases hcall
      exact hinv

theorem create_inv {size sgxPagesize : ℕ} {mem : Option ℕ} {pool : SgxPool}
    (hsize : sizeofPool < size) (hpool : sgxCreatePool size sgxPagesize mem = some pool) :
    PoolInv pool [] := by
  obtain ⟨addr, -, rfl⟩ := Option.map_eq_some_iff.mp hpool
  rw [sizeSub_of_le (Nat.le_of_lt hsize)]
  constructor
  · refine ⟨?_, fun _ hr => absurd hr List.not_mem_nil, List.Pairwise.nil⟩
    rintro b ⟨now, -, rfl⟩ c ⟨other, -, rfl⟩ hne
    exact absurd rfl hne
  · exact fun _ hr => absurd hr List.not_mem_nil
  · exact Nat.one_pos
  · rfl
  · exact Nat.le_add_right _ _
  · dsimp only
    split_ifs <;>
    · omega

theorem reset_inv {pool : SgxPool} {live : List (Span ℕ)} (h : PoolInv pool live) :
    PoolInv (sgxResetPool pool) [] := by
  have harena : (sgxResetPool pool).arena [] = (pool.arena live).clear := by
    rw [arena_congr _ _ []]
    · rfl
    · rfl
    · intro now
      rfl
  constructor
  · rw [harena]
    exact h.sound.clear
  · rw [harena]
    exact Arena.below_clear _ _ _
  · exact Nat.zero_lt_of_lt h.current_lt
  · exact h.end_eq
  · exact Nat.le_add_right _ _
  · exact h.room

/-- A run from `sgx_create_pool` on, with the regions handed out since the last reset and the state
before each allocation, with its size and `align`. -/
inductive PoolRun (sgxPagesize : ℕ) :
    SgxPool → List (Span ℕ) → List (SgxPool × ℕ × Bool) → Prop where
  | create {size mem pool} : sizeofPool < size → sgxCreatePool size sgxPagesize mem = some pool →
      PoolRun sgxPagesize pool [] []
  | palloc {pool live calls size alloc mem r pool'} : PoolRun sgxPagesize pool live calls →
      0 < size → size ≤ pool.maxSize → Fresh pool mem → sgxPalloc pool size alloc mem = (r, pool') →
      PoolRun sgxPagesize pool' (handOut live size r) ((pool, size, true) :: calls)
  | pnalloc {pool live calls size alloc mem r pool'} : PoolRun sgxPagesize pool live calls →
      0 < size → size ≤ pool.maxSize → Fresh pool mem → sgxPnalloc pool size alloc mem = (r, pool') →
      PoolRun sgxPagesize pool' (handOut live size r) ((pool, size, false) :: calls)
  | reset {pool live calls} : PoolRun sgxPagesize pool live calls →
      PoolRun sgxPagesize (sgxResetPool pool) [] calls

theorem run_inv {sgxPagesize : ℕ} {pool : SgxPool} {live : List (Span ℕ)}
    {calls : List (SgxPool × ℕ × Bool)} (h : PoolRun sgxPagesize pool live calls)
    (hstay : ∀ call ∈ calls, StaysInBlock call.1 call.2.1 call.2.2) : PoolInv pool live := by
  induction h with
  | create hsize hpool => exact create_inv hsize hpool
  | palloc _ _ hsize hfresh hcall ih =>
    have hinv := ih fun call hin => hstay call (List.mem_cons_of_mem _ hin)
    rw [sgxPalloc, if_pos hsize] at hcall
    exact small_inv hinv (hstay _ List.mem_cons_self) hsize hfresh hcall
  | pnalloc _ _ hsize hfresh hcall ih =>
    have hinv := ih fun call hin => hstay call (List.mem_cons_of_mem _ hin)
    rw [sgxPnalloc, if_pos hsize] at hcall
    exact small_inv hinv (hstay _ List.mem_cons_self) hsize hfresh hcall
  | reset _ ih => exact reset_inv (ih hstay)

theorem regions_stay_apart {sgxPagesize : ℕ} {pool : SgxPool} {live : List (Span ℕ)}
    {calls : List (SgxPool × ℕ × Bool)} (h : PoolRun sgxPagesize pool live calls)
    (hstay : ∀ call ∈ calls, StaysInBlock call.1 call.2.1 call.2.2) :
    (∀ r ∈ live, ∃ now < pool.count, r.Within (pool.span now)) ∧ live.Pairwise Span.Apart := by
  have hinv := run_inv h hstay
  refine ⟨fun r hr => ?_, hinv.sound.apart⟩
  obtain ⟨b, ⟨now, hnow, rfl⟩, hwithin⟩ := hinv.sound.inside r hr
  exact ⟨now, hnow, hwithin⟩

theorem fresh_none (pool : SgxPool) : Fresh pool none := fun _ h => nomatch h

theorem fresh_of_one {pool : SgxPool} (hcount : pool.count = 1) {new : ℕ}
    (h : Span.Apart ⟨new, new + (pool.block 0).bytes⟩ (pool.span 0)) : Fresh pool (some new) := by
  rintro _ ⟨⟩ now hnow
  rw [hcount, Nat.lt_one_iff] at hnow
  rw [hnow]
  exact h

theorem regions_stay_apart_in_two_blocks : ∃ pool calls,
    PoolRun 4096 pool [⟨8224, 8232⟩, ⟨4176, 4224⟩] calls ∧
      (∀ r ∈ [Span.mk 8224 8232, ⟨4176, 4224⟩], ∃ now < pool.count, r.Within (pool.span now)) ∧
      List.Pairwise Span.Apart [Span.mk 8224 8232, ⟨4176, 4224⟩] := by
  have hfull := (PoolRun.create (by decide) (Eq.refl (sgxCreatePool 128 4096 (some 4096)))).palloc
    (by decide) (by decide) (fresh_none _) (Eq.refl (sgxPalloc _ 48 none none))
  have hrun := hfull.palloc (by decide) (by decide) (fresh_of_one rfl (.inr (by decide)))
    (Eq.refl (sgxPalloc _ 8 none (some 8192)))
  refine ⟨_, _, hrun, regions_stay_apart hrun ?_⟩
  intro call hcall
  rcases List.mem_cons.mp hcall with rfl | hcall
  · right
    intro now _ hnow
    obtain rfl := Nat.lt_one_iff.mp hnow
    decide
  · obtain rfl := List.mem_singleton.mp hcall
    exact .inl ⟨rfl, by decide⟩

theorem region_leaves_the_blocks : ∃ pool calls, ∃ live : List (Span ℕ),
    PoolRun 4096 pool live calls ∧ ⟨4224, 4232⟩ ∈ live ∧
      ¬ ∃ now < pool.count, Span.Within ⟨4224, 4232⟩ (pool.span now) := by
  have htwo (now : ℕ) (hnow : now < 2) : now = 0 ∨ now = 1 := by omega
  have hfull := (PoolRun.create (by decide) (Eq.refl (sgxCreatePool 128 4096 (some 4096)))).palloc
    (by decide) (by decide) (fresh_none _) (Eq.refl (sgxPalloc _ 48 none none))
  have hrun := (hfull.palloc (by decide) (by decide) (fresh_of_one rfl (.inr (by decide)))
    (Eq.refl (sgxPalloc _ 8 none (some 8192)))).palloc (by decide) (by decide) (fresh_none _)
    (Eq.refl (sgxPalloc _ 8 none none))
  refine ⟨_, _, _, hrun, by decide, ?_⟩
  rintro ⟨now, hnow, hwithin⟩
  rcases htwo now hnow with rfl | rfl
  · exact absurd hwithin.2 (by decide)
  · exact absurd hwithin.1 (by decide)

end Sginx.Pool
