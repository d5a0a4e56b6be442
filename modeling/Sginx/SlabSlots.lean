import Mathlib.Data.Nat.Size
import Sginx.Slab

namespace Sginx.Slab

theorem size_half {s : ℕ} (h : s ≠ 0) : s.size = (s >>> 1).size + 1 := by
  have hbit : Nat.bit s.bodd (s >>> 1) = s := Nat.bit_bodd_div2 s
  have hsize := Nat.size_bit (b := s.bodd) (n := s >>> 1) (by rw [hbit]; exact h)
  rwa [hbit] at hsize

theorem shiftLoop_eq {fuel s : ℕ} (h : s < 2 ^ fuel) (shift : ℕ) :
    shiftLoop fuel s shift = shift + s.size := by
  induction fuel generalizing s shift with
  | zero =>
    obtain rfl : s = 0 := Nat.lt_one_iff.mp h
    rw [shiftLoop, Nat.size_zero, Nat.add_zero]
  | succ fuel ih =>
    rw [shiftLoop]
    split_ifs with hs
    · rw [hs, Nat.size_zero, Nat.add_zero]
    · have hhalf : s >>> 1 < 2 ^ fuel := by
        rw [Nat.shiftRight_one]
        rw [pow_succ] at h
        omega
      rw [ih hhalf, size_half hs]
      omega

variable {build : SlabBuild} {pool : SgxSlabPool} {size : ℕ}

theorem selectSlot_of_le (h : size ≤ pool.minSize) :
    selectSlot pool size = (pool.minShift, 0) := if_neg (Nat.not_lt.mpr h)

theorem selectSlot_of_lt (h : pool.minSize < size) (hsize : size < sizeMod) :
    selectSlot pool size =
      (1 + (size - 1).size, sizeSub (1 + (size - 1).size) pool.minShift) := by
  have hloop : shiftLoop wordBits (sizeSub size 1) 1 = 1 + (size - 1).size := by
    rw [sizeSub_of_le (Nat.one_le_of_lt h)]
    apply shiftLoop_eq
    exact lt_of_le_of_lt (Nat.sub_le size 1) hsize
  rw [selectSlot, if_pos h, hloop]

theorem le_two_pow_iff {t : ℕ} (hpos : 0 < size) : size ≤ 2 ^ t ↔ (size - 1).size ≤ t := by
  rw [Nat.size_le]
  omega

theorem slotCount_eq (h : pool.minShift ≤ build.pagesizeShift) :
    slotCount build pool = build.pagesizeShift - pool.minShift := sizeSub_of_le h

structure SlotFits (n minShift size shift slotId : ℕ) : Prop where
  fits : size ≤ 2 ^ shift
  ge : minShift ≤ shift
  least : ∀ t, minShift ≤ t → size ≤ 2 ^ t → shift ≤ t
  slot : slotId = shift - minShift
  inRange : slotId < n

theorem init_minSize (mem : SlabMemory) (hpage : build.pagesize < sizeMod)
    (hlt : pool.minShift < build.pagesizeShift) :
    (sgxSlabInit build pool mem).1.minSize = 2 ^ pool.minShift := by
  have hpow : 2 ^ pool.minShift < sizeMod := by
    apply lt_trans _ hpage
    exact Nat.pow_lt_pow_right (by decide) hlt
  change (1 <<< pool.minShift) % sizeMod = _
  rw [Nat.one_shiftLeft, Nat.mod_eq_of_lt hpow]

theorem half_page_lt (hpage : build.pagesize < sizeMod) (hsize : size ≤ build.pagesize / 2) :
    size < sizeMod := by
  apply lt_of_le_of_lt _ hpage
  exact hsize.trans (Nat.div_le_self _ _)

theorem slot_in_range_iff (mem : SlabMemory) (hpage : build.pagesize < sizeMod)
    (hlt : pool.minShift < build.pagesizeShift) (hsize : size ≤ build.pagesize / 2) :
    let pool' := (sgxSlabInit build pool mem).1
    (selectSlot pool' size).2 < slotCount build pool' ↔
      size ≤ 2 ^ pool.minShift ∨ 4 * size ≤ build.pagesize := by
  intro pool'
  have hmin : pool'.minSize = 2 ^ pool.minShift := init_minSize mem hpage hlt
  have hcount : slotCount build pool' = build.pagesizeShift - pool.minShift :=
    slotCount_eq (Nat.le_of_lt hlt)
  by_cases hle : size ≤ 2 ^ pool.minShift
  · rw [selectSlot_of_le (by rw [hmin]; exact hle), hcount]
    exact iff_of_true (Nat.sub_pos_of_lt hlt) (.inl hle)
  · have hgt : pool'.minSize < size := by
      rw [hmin]
      exact Nat.lt_of_not_le hle
    have hpos : 0 < size := Nat.zero_lt_of_lt hgt
    have hbits : pool.minShift < (size - 1).size := by
      rw [le_two_pow_iff hpos] at hle
      exact Nat.lt_of_not_le hle
    have hslot : (selectSlot pool' size).2 = 1 + (size - 1).size - pool.minShift := by
      rw [selectSlot_of_lt hgt (half_page_lt hpage hsize)]
      apply sizeSub_of_le
      change pool.minShift ≤ _
      omega
    have hfour : 4 * size ≤ build.pagesize ↔ 2 + (size - 1).size ≤ build.pagesizeShift := by
      by_cases htwo : 2 ≤ build.pagesizeShift
      · obtain ⟨t, ht⟩ := Nat.exists_eq_add_of_le htwo
        rw [SlabBuild.pagesize, ht, pow_add, Nat.add_le_add_iff_left, ← le_two_pow_iff hpos]
        omega
      · have hone : build.pagesizeShift ≤ 1 := by omega
        have hsmall : build.pagesize ≤ 2 ^ 1 := Nat.pow_le_pow_right (by decide) hone
        omega
    rw [hslot, hcount, hfour]
    constructor
    · intro h
      right
      omega
    · rintro (h | h)
      · exact absurd h hle
      · omega

theorem slot_fits_iff (build : SlabBuild) (pool : SgxSlabPool) (mem : SlabMemory) {size : ℕ}
    (hpage : build.pagesize < sizeMod) (hlt : pool.minShift < build.pagesizeShift)
    (hsize : size ≤ build.pagesize / 2) :
    let pool' := (sgxSlabInit build pool mem).1
    slotCount build pool' = build.pagesizeShift - pool.minShift ∧
      (SlotFits (slotCount build pool') pool.minShift size (selectSlot pool' size).1
        (selectSlot pool' size).2 ↔ size ≤ 2 ^ pool.minShift) := by
  intro pool'
  have hmin : pool'.minSize = 2 ^ pool.minShift := init_minSize mem hpage hlt
  have hcount : slotCount build pool' = build.pagesizeShift - pool.minShift :=
    slotCount_eq (Nat.le_of_lt hlt)
  refine ⟨hcount, ?_⟩
  constructor
  · intro hfits
    by_contra hle
    have hgt : pool'.minSize < size := by
      rw [hmin]
      exact Nat.lt_of_not_le hle
    have hpos : 0 < size := Nat.zero_lt_of_lt hgt
    have hleast := hfits.least (size - 1).size
    rw [selectSlot_of_lt hgt (half_page_lt hpage hsize)] at hleast
    rw [le_two_pow_iff hpos] at hle
    have hover := hleast (Nat.le_of_not_le hle) ((le_two_pow_iff hpos).mpr (le_refl _))
    omega
  · intro hle
    rw [selectSlot_of_le (by rw [hmin]; exact hle), hcount]
    exact ⟨hle, le_refl _, fun t ht _ => ht, (Nat.sub_self _).symm, Nat.sub_pos_of_lt hlt⟩

def plainBuild : SlabBuild := ⟨12, 200, 56⟩

def plainMemory : SlabMemory := ⟨fun _ => ⟨0, 0, 0⟩, fun _ => ⟨0, 0, 0⟩, fun _ => 0⟩

def plainSlab : SgxSlabPool := ⟨4096, 0, 3, 0, 0, ⟨0, 0, 0⟩, 0, 0, 0, 65536⟩

theorem slot_fits_iff_eight_bytes :
    let pool := (sgxSlabInit plainBuild plainSlab plainMemory).1
    slotCount plainBuild pool = 9 ∧
      (SlotFits (slotCount plainBuild pool) 3 8 (selectSlot pool 8).1 (selectSlot pool 8).2 ↔
        8 ≤ 2 ^ 3) :=
  slot_fits_iff plainBuild plainSlab plainMemory (by decide) (by decide) (by decide)

theorem largest_size_overruns :
    let pool := (sgxSlabInit plainBuild plainSlab plainMemory).1
    selectSlot pool 2048 = (12, 9) ∧ slotCount plainBuild pool = 9 ∧
      ¬ SlotFits (slotCount plainBuild pool) 3 2048 (selectSlot pool 2048).1
        (selectSlot pool 2048).2 := by
  refine ⟨by decide, by decide, fun h => ?_⟩
  exact absurd h.inRange (by decide)

end Sginx.Slab
