import Sginx.Library.Regions
import Sginx.SlabSlots

namespace Sginx.Slab

open Sginx.Library.Regions Sginx.Pool

section Layout

variable {build : SlabBuild} {pool : SgxSlabPool}

def arraysEnd (build : SlabBuild) (pool : SgxSlabPool) : ℕ :=
  sgxSlabSlots build pool + slotCount build pool * sizeofSlabPage +
    slotCount build pool * sizeofSlabStatus

def roomFor (build : SlabBuild) (pool : SgxSlabPool) : ℕ :=
  pageNum build (pool.stop - arraysEnd build pool)

def firstPage (build : SlabBuild) (pool : SgxSlabPool) : ℕ :=
  sgxAlignPtr (arraysEnd build pool + roomFor build pool * sizeofSlabPage) build.pagesize

def alignedRoom (build : SlabBuild) (pool : SgxSlabPool) : ℕ :=
  (pool.stop - firstPage build pool) / build.pagesize

structure LargeEnough (build : SlabBuild) (pool : SgxSlabPool) : Prop where
  stop_lt : pool.stop < sizeMod
  arrays_le : arraysEnd build pool ≤ pool.stop
  pages_pos : 1 ≤ roomFor build pool

theorem roomFor_mul_le (h : LargeEnough build pool) :
    arraysEnd build pool + roomFor build pool * (build.pagesize + sizeofSlabPage) ≤ pool.stop := by
  have hle := h.arrays_le
  have hmul := Nat.div_mul_le_self (pool.stop - arraysEnd build pool)
    (build.pagesize + sizeofSlabPage)
  rw [roomFor, pageNum]
  omega

theorem two_le_pagesize (h : pool.minShift < build.pagesizeShift) : 2 ≤ build.pagesize := by
  have hpow := Nat.pow_le_pow_right (show 0 < 2 by decide) (Nat.one_le_of_lt h)
  rwa [pow_one] at hpow

theorem le_firstPage (build : SlabBuild) (pool : SgxSlabPool) :
    arraysEnd build pool + roomFor build pool * sizeofSlabPage ≤ firstPage build pool :=
  le_sgxAlignPtr _ (Nat.two_pow_pos _)

theorem firstPage_lt (build : SlabBuild) (pool : SgxSlabPool) : firstPage build pool <
    arraysEnd build pool + roomFor build pool * sizeofSlabPage + build.pagesize :=
  sgxAlignPtr_lt _ (Nat.two_pow_pos _)

theorem pred_roomFor_mul_le (h : LargeEnough build pool) :
    firstPage build pool + (roomFor build pool - 1) * build.pagesize ≤ pool.stop := by
  have hroom := roomFor_mul_le h
  have hlt := firstPage_lt build pool
  obtain ⟨n, hn⟩ := Nat.exists_eq_add_of_le' h.pages_pos
  rw [hn, Nat.mul_add] at hroom
  rw [hn] at hlt
  rw [hn, Nat.add_sub_cancel]
  rw [Nat.succ_mul] at hroom
  omega

theorem alignedRoom_mul_le (h : LargeEnough build pool) :
    firstPage build pool + alignedRoom build pool * build.pagesize ≤ pool.stop := by
  have hle := pred_roomFor_mul_le h
  have hmul := Nat.div_mul_le_self (pool.stop - firstPage build pool) build.pagesize
  rw [alignedRoom]
  omega

theorem roomFor_le (h : LargeEnough build pool) :
    roomFor build pool ≤ alignedRoom build pool + 1 := by
  have hle := pred_roomFor_mul_le h
  have hdiv : roomFor build pool - 1 ≤ alignedRoom build pool := by
    apply (Nat.le_div_iff_mul_le (Nat.two_pow_pos _)).mpr
    change _ * build.pagesize ≤ _
    omega
  omega

theorem init_m (h : LargeEnough build pool) (hshift : pool.minShift < build.pagesizeShift) :
    sizeSigned (sizeSub (roomFor build pool) (alignedRoom build pool)) =
      (roomFor build pool : ℤ) - alignedRoom build pool := by
  have htwo := two_le_pagesize hshift
  have hstop := h.stop_lt
  have hroom := roomFor_mul_le h
  have haligned := alignedRoom_mul_le h
  have hroom' := Nat.mul_le_mul_left (roomFor build pool)
    (htwo.trans (Nat.le_add_right build.pagesize sizeofSlabPage))
  have haligned' := Nat.mul_le_mul_left (alignedRoom build pool) htwo
  apply sizeSigned_sizeSub
  · omega
  · omega

theorem init_pageNum (h : LargeEnough build pool) :
    pageNum build (sizeSub (sizeSub pool.stop (sgxSlabSlots build pool))
        (sizeMul (slotCount build pool) (sizeofSlabPage + sizeofSlabStatus))) =
      roomFor build pool := by
  have hstop := h.stop_lt
  have hle := h.arrays_le
  have hend : arraysEnd build pool = sgxSlabSlots build pool +
      slotCount build pool * (sizeofSlabPage + sizeofSlabStatus) := by
    rw [arraysEnd, Nat.mul_add, Nat.add_assoc]
  rw [hend] at hle
  have hslots : sizeSub pool.stop (sgxSlabSlots build pool) =
      pool.stop - sgxSlabSlots build pool := sizeSub_of_le (by omega)
  rw [roomFor, hslots, sizeMul_of_lt (by omega), sizeSub_of_le (by omega), hend, Nat.sub_sub]

def freeAddr (build : SlabBuild) (pool : SgxSlabPool) : ℕ := pool.addr + build.offsetofFree

theorem init_eq (h : LargeEnough build pool) (hshift : pool.minShift < build.pagesizeShift)
    (mem : SlabMemory) :
    let pfree := min (roomFor build pool) (alignedRoom build pool)
    (sgxSlabInit build pool mem).1 =
        { pool with
          minSize := (1 <<< pool.minShift) % sizeMod
          status := sgxSlabSlots build pool + slotCount build pool * sizeofSlabPage
          pages := arraysEnd build pool
          free := { slab := 0, next := arraysEnd build pool, prev := 0 }
          start := firstPage build pool
          last := arraysEnd build pool + pfree * sizeofSlabPage
          pfree := pfree } ∧
      (sgxSlabInit build pool mem).2.page (arraysEnd build pool) =
        { slab := if alignedRoom build pool < roomFor build pool then arraysEnd build pool
            else roomFor build pool
          next := freeAddr build pool
          prev := freeAddr build pool } := by
  have hend : sgxSlabSlots build pool + slotCount build pool * sizeofSlabPage +
    slotCount build pool * sizeofSlabStatus = arraysEnd build pool := rfl
  have hfirst : sgxAlignPtr (arraysEnd build pool + roomFor build pool * sizeofSlabPage)
    build.pagesize = firstPage build pool := rfl
  have haligned : sizeSub pool.stop (firstPage build pool) / build.pagesize =
      alignedRoom build pool := by
    have hle := pred_roomFor_mul_le h
    rw [sizeSub_of_le (by omega), alignedRoom]
  simp only [sgxSlabInit, init_pageNum h, hend, hfirst, haligned, init_m h hshift]
  by_cases hshort : alignedRoom build pool < roomFor build pool
  · have hm : (0 : ℤ) < roomFor build pool - alignedRoom build pool := by omega
    have hpfree : sizeSub (roomFor build pool)
        ((roomFor build pool : ℤ) - alignedRoom build pool).toNat = alignedRoom build pool := by
      rw [sizeSub_of_le (by omega)]
      omega
    simp only [if_pos hm, if_pos hshort, hpfree, Nat.min_eq_right (Nat.le_of_lt hshort),
      Function.update_self, freeAddr, true_and]
  · have hm : ¬ (0 : ℤ) < roomFor build pool - alignedRoom build pool := by omega
    simp only [if_neg hm, if_neg hshort, Nat.min_eq_left (Nat.le_of_not_lt hshort),
      Function.update_self, freeAddr, true_and]

structure Placed (build : SlabBuild) (pool : SgxSlabPool) (mem : SlabMemory) : Prop where
  start_aligned : build.pagesize ∣ pool.start
  descriptors_le : pool.last ≤ pool.start
  pages_le : pool.start + pool.pfree * build.pagesize ≤ pool.stop
  apart : [⟨sgxSlabSlots build pool, sgxSlabSlots build pool + slotCount build pool * sizeofSlabPage⟩,
    ⟨pool.status, pool.status + slotCount build pool * sizeofSlabStatus⟩,
    ⟨pool.pages, pool.last⟩].Pairwise Span.Apart
  last_eq : pool.last = pool.pages + pool.pfree * sizeofSlabPage
  free_run : pool.free.next = pool.pages ∧ (mem.page pool.pages).next = freeAddr build pool ∧
    (mem.page pool.pages).prev = freeAddr build pool

structure Layout (build : SlabBuild) (pool : SgxSlabPool) (mem : SlabMemory) : Prop
    extends Placed build pool mem where
  slab_eq : (mem.page pool.pages).slab = pool.pfree

theorem init_placed (h : LargeEnough build pool) (hshift : pool.minShift < build.pagesizeShift)
    (mem : SlabMemory) :
    Placed build (sgxSlabInit build pool mem).1 (sgxSlabInit build pool mem).2 := by
  obtain ⟨hpool, hpage⟩ := init_eq h hshift mem
  have hpages : (sgxSlabInit build pool mem).1.pages = arraysEnd build pool := by rw [hpool]
  have hdescriptors := le_firstPage build pool
  have haligned := alignedRoom_mul_le h
  constructor
  · rw [hpool]
    exact dvd_sgxAlignPtr _ _
  · have hmin := Nat.mul_le_mul_right sizeofSlabPage
      (Nat.min_le_left (roomFor build pool) (alignedRoom build pool))
    rw [hpool]
    dsimp only
    omega
  · have hmin := Nat.mul_le_mul_right build.pagesize
      (Nat.min_le_right (roomFor build pool) (alignedRoom build pool))
    rw [hpool]
    dsimp only
    omega
  · rw [hpool]
    apply List.pairwise_cons.mpr
    constructor
    · intro s hs
      left
      rcases List.mem_cons.mp hs with rfl | hs
      · exact le_refl _
      · obtain rfl := List.mem_singleton.mp hs
        exact Nat.le_add_right _ _
    · exact List.pairwise_pair.mpr (.inl (le_refl _))
  · rw [hpool]
  · rw [hpages, hpage, hpool]
    exact ⟨rfl, rfl, rfl⟩

theorem fits_iff (h : LargeEnough build pool) :
    firstPage build pool + roomFor build pool * build.pagesize ≤ pool.stop ↔
      roomFor build pool ≤ alignedRoom build pool := by
  have hle := pred_roomFor_mul_le h
  have hpos : 0 < build.pagesize := Nat.two_pow_pos _
  rw [alignedRoom, Nat.le_div_iff_mul_le hpos]
  omega

theorem slab_layout_iff (h : LargeEnough build pool) (hshift : pool.minShift < build.pagesizeShift)
    (mem : SlabMemory) :
    Layout build (sgxSlabInit build pool mem).1 (sgxSlabInit build pool mem).2 ↔
      firstPage build pool + roomFor build pool * build.pagesize ≤ pool.stop ∨
        arraysEnd build pool + 1 = roomFor build pool := by
  obtain ⟨hpool, hpage⟩ := init_eq h hshift mem
  have hroom := roomFor_le h
  have hpages : (sgxSlabInit build pool mem).1.pages = arraysEnd build pool := by rw [hpool]
  have hpfree : (sgxSlabInit build pool mem).1.pfree =
    min (roomFor build pool) (alignedRoom build pool) := by rw [hpool]
  have hslab : ((sgxSlabInit build pool mem).2.page (sgxSlabInit build pool mem).1.pages).slab =
      if alignedRoom build pool < roomFor build pool then arraysEnd build pool
      else roomFor build pool := by
    rw [hpages, hpage]
  have hall : Layout build (sgxSlabInit build pool mem).1 (sgxSlabInit build pool mem).2 ↔
      ((sgxSlabInit build pool mem).2.page (sgxSlabInit build pool mem).1.pages).slab =
        (sgxSlabInit build pool mem).1.pfree :=
    ⟨fun hlayout => hlayout.slab_eq, fun heq => ⟨init_placed h hshift mem, heq⟩⟩
  rw [hall, hslab, hpfree, fits_iff h]
  by_cases hshort : alignedRoom build pool < roomFor build pool
  · rw [if_pos hshort, Nat.min_eq_right (Nat.le_of_lt hshort)]
    omega
  · rw [if_neg hshort, Nat.min_eq_left (Nat.le_of_not_lt hshort)]
    exact iff_of_true rfl (.inl (Nat.le_of_not_lt hshort))

end Layout

theorem slab_layout_iff_fourteen_pages : Layout plainBuild
      (sgxSlabInit plainBuild plainSlab plainMemory).1
      (sgxSlabInit plainBuild plainSlab plainMemory).2 := by
  have hlarge : LargeEnough plainBuild plainSlab := ⟨by decide, by decide, by decide⟩
  exact (slab_layout_iff hlarge (by decide) plainMemory).mpr (.inl (by decide))

def shortSlab : SgxSlabPool := { plainSlab with stop := 62408 }

theorem corrected_run_holds_an_address : LargeEnough plainBuild shortSlab ∧
    (sgxSlabInit plainBuild shortSlab plainMemory).1.pfree = 13 ∧
    ((sgxSlabInit plainBuild shortSlab plainMemory).2.page 4728).slab = 4728 ∧
    ¬ Layout plainBuild (sgxSlabInit plainBuild shortSlab plainMemory).1
      (sgxSlabInit plainBuild shortSlab plainMemory).2 := by
  refine ⟨⟨by decide, by decide, by decide⟩, by decide, by decide, fun h => ?_⟩
  exact absurd h.slab_eq (by decide)

end Sginx.Slab
