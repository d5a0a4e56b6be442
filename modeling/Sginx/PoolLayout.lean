import Sginx.PoolBlocks
import Sginx.PoolPlaced

namespace Sginx.Pool

open Sginx.Library.Regions

def entrySpan (entry : SgxPoolLarge) : Span ℕ := ⟨entry.addr, entry.addr + sizeofPoolLarge⟩

def linkSpan (pool : SgxPool) (now : ℕ) : Span ℕ :=
  ⟨pool.addr now, pool.addr now + if now = 0 then sizeofPool else sizeofPoolData⟩

structure Laid (pool : SgxPool) (live : List (Span ℕ)) : Prop where
  inv : PoolInv pool live
  entries : (pool.large.map entrySpan).Sublist live
  blocks : ∀ i < pool.count, ∀ j < pool.count, i ≠ j → (pool.span i).Apart (pool.span j)
  bytes : ∀ now < pool.count, sizeofPool ≤ (pool.block now).bytes
  begin_ge : pool.addr 0 + sizeofPool ≤ (pool.block 0).dataBegin
  behind : ∀ now < pool.count, ∀ r ∈ live, r.Apart (linkSpan pool now)

section Laid

variable {pool pool' : SgxPool} {live : List (Span ℕ)} {size : ℕ} {align : Bool}

theorem linkSpan_within {now : ℕ} (hbytes : sizeofPool ≤ (pool.block now).bytes) :
    (linkSpan pool now).Within (pool.span now) := by
  refine ⟨le_refl _, ?_⟩
  simp only [linkSpan, SgxPool.span, SgxPool.addr, sizeofPool, sizeofPoolData] at hbytes ⊢
  split_ifs <;> omega

theorem Laid.behind_of_within (h : Laid pool live) {i now : ℕ} {r : Span ℕ} (hi : i < pool.count)
    (hnow : now < pool.count) (hne : i ≠ now) (hr : r.Within (pool.span i)) :
    r.Apart (linkSpan pool now) :=
  (h.blocks i hi now hnow hne).within hr (linkSpan_within (h.bytes now hnow))

theorem Laid.relink (h : Laid pool live) {large : List SgxPoolLarge}
    (hlarge : (large.map entrySpan).Sublist live) (freed : List ℕ) :
    Laid { pool with large := large, freed := freed } live :=
  ⟨⟨h.inv.sound, h.inv.below, h.inv.current_lt, h.inv.end_eq, h.inv.begin_ge, h.inv.room⟩,
    hlarge, h.blocks, h.bytes, h.begin_ge, h.behind⟩

theorem Laid.own (h : Laid pool live)
    (hend : smallBegin pool align + size ≤ (pool.block 0).dataEnd) :
    Laid (pool.setBlock 0 { pool.block 0 with dataBegin := smallBegin pool align + size })
      (⟨smallBegin pool align, smallBegin pool align + size⟩ :: live) := by
  have hbegin := le_smallBegin pool align
  have hge := h.begin_ge
  have hpos : 0 < pool.count := Nat.zero_lt_of_lt h.inv.current_lt
  have hspan := span_setBegin pool (smallBegin pool align + size)
  have haddrs := @setBlock_addr pool 0
    { pool.block 0 with dataBegin := smallBegin pool align + size } rfl
  have hlink (now : ℕ) : linkSpan
      (pool.setBlock 0 { pool.block 0 with dataBegin := smallBegin pool align + size }) now =
        linkSpan pool now := by
    rw [linkSpan, linkSpan, haddrs]
  refine ⟨own_block_inv h.inv hend, h.entries.cons _, ?_, ?_, ?_, ?_⟩
  · intro i hi j hj hne
    rw [hspan, hspan]
    exact h.blocks i hi j hj hne
  · intro now hnow
    by_cases hzero : now = 0
    · subst hzero
      simp only [SgxPool.setBlock, Function.update_self]
      exact h.bytes 0 hpos
    · simp only [SgxPool.setBlock, Function.update_of_ne hzero]
      exact h.bytes now hnow
  · rw [haddrs]
    simp only [SgxPool.setBlock, Function.update_self]
    omega
  · intro now hnow r hr
    rw [hlink]
    rcases List.mem_cons.mp hr with rfl | hr
    · by_cases hzero : now = 0
      · subst hzero
        right
        simp only [linkSpan, if_pos]
        omega
      · apply h.behind_of_within hpos hnow (Ne.symm hzero)
        rw [h.inv.end_eq] at hend
        simp only [SgxPool.addr] at hge
        refine ⟨?_, hend⟩
        simp only [SgxPool.span]
        omega
    · exact h.behind now hnow r hr

theorem Laid.block (h : Laid pool live) (hsize : size ≤ pool.maxSize) {new : ℕ}
    (hfresh : Fresh pool (some new)) :
    ∃ m pool', sgxPallocBlock pool size (some new) = (some m, pool') ∧
      Laid pool' (⟨m, m + size⟩ :: live) := by
  obtain ⟨m, pool₁, hcall, hinv⟩ := block_inv h.inv hsize hfresh
  obtain ⟨pool₂, hcall', hcount, -, hold, hnew⟩ := block_eq pool size new
  obtain ⟨hm, rfl⟩ := Prod.mk.inj (hcall.symm.trans hcall')
  obtain rfl := Option.some.inj hm
  have hsame := failLoop_same pool.count pool pool.current
  have hpos : 0 < pool.count := Nat.zero_lt_of_lt h.inv.current_lt
  have hbytes : pool.poolSize = (pool.block 0).bytes := by
    rw [SgxPool.poolSize, h.inv.end_eq, sizeSub_of_le (Nat.le_add_right _ _),
      Nat.add_sub_cancel_left]
  have hlarge : pool₁.large = pool.large := by
    have hsame := (block_large pool size (some new)).large
    rwa [hcall] at hsame
  have hspan : ∀ now < pool.count, pool₁.span now = pool.span now := by
    intro now hnow
    rw [SgxPool.span, hold now hnow]
    exact hsame.span now
  have hspan' : pool₁.span pool.count = ⟨new, new + (pool.block 0).bytes⟩ := by
    rw [SgxPool.span, hnew, hbytes]
  have hlink : ∀ now < pool.count, linkSpan pool₁ now = linkSpan pool now := by
    intro now hnow
    rw [linkSpan, linkSpan, SgxPool.addr, hold now hnow]
    exact congrArg (fun a => Span.mk a (a + _)) (hsame.addr now)
  have happart := hfresh new rfl
  have hbelow := le_align (new + sizeofPoolData)
  have hwithin : Span.Within ⟨sgxAlignPtr (new + sizeofPoolData) sgxAlignment,
      sgxAlignPtr (new + sizeofPoolData) sgxAlignment + size⟩ ⟨new, new + (pool.block 0).bytes⟩ := by
    have habove := align_lt (new + sizeofPoolData)
    have hroom := h.inv.room
    simp only [sizeofPool, sizeofPoolData, sgxAlignment] at habove hroom hbelow ⊢
    constructor <;> dsimp only <;> omega
  refine ⟨_, pool₁, hcall, hinv, ?_, ?_, ?_, ?_, ?_⟩
  · rw [hlarge]
    exact h.entries.cons _
  · rw [hcount]
    apply apart_succ
    · intro i hi j hj hne
      rw [hspan i hi, hspan j hj]
      exact h.blocks i hi j hj hne
    · intro i hi
      rw [hspan', hspan i hi]
      exact happart i hi
  · intro now hnow
    rw [hcount] at hnow
    rcases Nat.lt_succ_iff_lt_or_eq.mp hnow with hnow | rfl
    · obtain ⟨failed, hblock⟩ := hsame.block now
      rw [hold now hnow, hblock]
      exact h.bytes now hnow
    · rw [hnew, hbytes]
      exact h.bytes 0 hpos
  · rw [SgxPool.addr, hold 0 hpos]
    obtain ⟨failed, hblock⟩ := hsame.block 0
    rw [hblock]
    exact h.begin_ge
  · intro now hnow r hr
    rw [hcount] at hnow
    rcases Nat.lt_succ_iff_lt_or_eq.mp hnow with hnow | rfl
    · rw [hlink now hnow]
      rcases List.mem_cons.mp hr with rfl | hr
      · exact (happart now hnow).within hwithin (linkSpan_within (h.bytes now hnow))
      · exact h.behind now hnow r hr
    · rw [linkSpan, SgxPool.addr, hnew, if_neg (Nat.ne_of_gt hpos)]
      rcases List.mem_cons.mp hr with rfl | hr
      · exact .inr hbelow
      · obtain ⟨b, ⟨now, hnow, rfl⟩, hin⟩ := h.inv.sound.inside r hr
        apply (happart now hnow).symm.within hin
        refine ⟨le_refl _, ?_⟩
        have hroom := h.inv.room
        simp only [sizeofPool, sizeofPoolData] at hroom ⊢
        omega

theorem Laid.small (h : Laid pool live) (hstay : StaysInBlock pool size align)
    (hsize : size ≤ pool.maxSize) {mem : Option ℕ} (hfresh : Fresh pool mem) :
    Laid (sgxPallocSmall pool size align mem).2
      (handOut live size (sgxPallocSmall pool size align mem).1) := by
  rcases small_cases h.inv hstay mem with ⟨hsmall, hend⟩ | hsmall
  · rw [hsmall]
    exact h.own hend
  · rw [hsmall]
    cases mem with
    | none => exact h
    | some new =>
      obtain ⟨m, grown, hblock, hlaid⟩ := h.block hsize hfresh
      rw [hblock]
      exact hlaid

theorem Laid.entry (h : Laid pool live) {mem : Option ℕ}
    (hroom : OwnRoom pool sizeofPoolLarge ∨ NoRoom pool sizeofPoolLarge mem) :
    Laid (sgxPallocSmall pool sizeofPoolLarge true mem).2
      (handOut live sizeofPoolLarge (sgxPallocSmall pool sizeofPoolLarge true mem).1) := by
  rcases hroom with ⟨hcurrent, hend⟩ | ⟨rfl, hfits⟩
  · rw [small_own (Nat.zero_lt_of_lt h.inv.current_lt) hcurrent hend mem]
    exact h.own hend
  · rw [sgxPallocSmall, smallLoop_none pool.count pool.current h.inv.current_lt hfits]
    exact h

theorem Laid.counters (h : Laid pool live) (failed : ℕ → ℕ) :
    Laid { pool with block := fun now => { pool.block now with failed := failed now } } live := by
  refine ⟨⟨?_, ?_, h.inv.current_lt, h.inv.end_eq, h.inv.begin_ge, h.inv.room⟩, h.entries, h.blocks,
    h.bytes, h.begin_ge, h.behind⟩
  · exact h.inv.sound
  · exact h.inv.below

theorem Laid.reset (h : Laid pool live) : Laid (sgxResetPool pool) [] :=
  ⟨reset_inv h.inv, List.Sublist.refl [], h.blocks, h.bytes, le_refl _, fun _ _ _ hr =>
    absurd hr List.not_mem_nil⟩

theorem create_laid {bytes sgxPagesize new : ℕ} (hbytes : sizeofPool < bytes)
    (hpool : sgxCreatePool bytes sgxPagesize (some new) = some pool) : Laid pool [] := by
  have hinv := create_inv hbytes hpool
  obtain rfl := Option.some.inj hpool
  refine ⟨hinv, List.Sublist.refl [], ?_, fun _ _ => Nat.le_of_lt hbytes, le_refl _,
    fun _ _ _ hr => absurd hr List.not_mem_nil⟩
  intro i hi j hj hne
  rw [Nat.lt_one_iff.mp hi, Nat.lt_one_iff.mp hj] at hne
  exact absurd rfl hne

end Laid

end Sginx.Pool
