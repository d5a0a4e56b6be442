import Sginx.Library.Bitmap
import Sginx.SlabSlots

namespace Sginx.Slab

open Sginx.Library.Bitmap Sginx.Library.Regions

theorem bitLoop_eq {word : BitVec 64} {k : ℕ} (hk : k < 64) (hclear : word.getLsbD k = false)
    (hbefore : ∀ k' < k, word.getLsbD k' = true) (fuel k' : ℕ) (hle : k' ≤ k)
    (hfuel : k < k' + fuel) :
    bitLoop word fuel (BitVec.twoPow 64 k') k' = some (BitVec.twoPow 64 k, k) := by
  induction fuel generalizing k' with
  | zero => omega
  | succ fuel ih =>
    have hlt : k' < 64 := lt_of_le_of_lt hle hk
    rw [bitLoop, if_neg (twoPow_ne_zero hlt)]
    rcases Nat.lt_or_eq_of_le hle with hless | rfl
    · have hset : ¬ word &&& BitVec.twoPow 64 k' = 0 := by
        rw [and_twoPow_eq_zero_iff hlt, hbefore k' hless]
        decide
      rw [if_neg hset, twoPow_shiftLeft_one]
      exact ih (k' + 1) hless (by omega)
    · rw [if_pos ((and_twoPow_eq_zero_iff hk).mpr hclear)]

theorem laterLoop_busy {word : ℕ → BitVec 64} {bitmap map i : ℕ} (hi : i < map)
    (hbusy : word (bitmap + 8 * i) = sgxSlabBusy) (fuel : ℕ) :
    laterLoop word bitmap map i fuel = none := by
  induction fuel with
  | zero => rfl
  | succ fuel ih => rw [laterLoop, if_pos hi, if_neg (fun h => h hbusy), ih]

section Page

variable {build : SlabBuild} {pool : SgxSlabPool} {mem : SlabMemory} {page slotId shift : ℕ}

def SlabMemory.bitmap (mem : SlabMemory) (bitmap : ℕ) (i : ℕ) : BitVec 64 :=
  mem.word (bitmap + 8 * i)

theorem wordLoop_eq {fuel bitmap map i k : ℕ} (h : FirstClear (mem.bitmap bitmap) map i k)
    (left i' : ℕ) (hle : i' ≤ i) (hleft : i < i' + left) :
    wordLoop fuel mem page slotId bitmap map shift left i' =
      (takeChunk fuel mem page slotId bitmap map shift i (BitVec.twoPow 64 k) k).map some := by
  induction left generalizing i' with
  | zero => omega
  | succ left ih =>
    rw [wordLoop]
    rcases Nat.lt_or_eq_of_le hle with hless | rfl
    · rw [if_neg (fun hne => hne (h.words_before i' hless))]
      exact ih (i' + 1) hless (by omega)
    · have hne : mem.word (bitmap + 8 * i') ≠ sgxSlabBusy := h.ne_allOnes
      have hbit : bitLoop (mem.word (bitmap + 8 * i')) (wordBits + 1) 1 0 =
          some (BitVec.twoPow 64 k, k) := by
        apply bitLoop_eq h.bit_lt h.clear h.bits_before _ 0 (Nat.zero_le k)
        rw [Nat.zero_add]
        exact Nat.lt_succ_of_lt h.bit_lt
      rw [if_pos hne, hbit]

def SlabMemory.taken (mem : SlabMemory) (slotId address k : ℕ) : SlabMemory :=
  { mem with word := take mem.word address k }.countUsed slotId

variable {fuel bitmap map i k : ℕ}

theorem takeChunk_open
    (h : take mem.word (bitmap + 8 * i) k (bitmap + 8 * i) ≠ sgxSlabBusy) :
    takeChunk fuel mem page slotId bitmap map shift i (BitVec.twoPow 64 k) k =
      some ⟨sizeAdd bitmap i, ((i * wordBits + k) <<< shift) % sizeMod,
        mem.taken slotId (bitmap + 8 * i) k⟩ := by
  rw [take, Function.update_self] at h
  rw [takeChunk, if_neg h]
  rfl

theorem takeChunk_full
    (h : take mem.word (bitmap + 8 * i) k (bitmap + 8 * i) = sgxSlabBusy) :
    takeChunk fuel mem page slotId bitmap map shift i (BitVec.twoPow 64 k) k =
      (laterLoop (take mem.word (bitmap + 8 * i) k) bitmap map (i + 1) fuel).map fun full =>
        ⟨sizeAdd bitmap i, ((i * wordBits + k) <<< shift) % sizeMod,
          { mem.taken slotId (bitmap + 8 * i) k with
            page := if full then unlinkPage mem.page page else mem.page }⟩ := by
  rw [take, Function.update_self] at h
  rw [takeChunk, if_pos h]
  congr 1
  funext full
  cases full <;> rfl

structure ChunkTaken (build : SlabBuild) (bitmap : ℕ) (mem : SlabMemory) (page slotId shift : ℕ)
    (chunk : SmallChunk) (i k : ℕ) : Prop where
  word_lt : i < mapWords build shift
  bit_lt : k < wordBits
  clear : (mem.bitmap bitmap i).getLsbD k = false
  word : chunk.mem.word = take mem.word (bitmap + 8 * i) k
  p : chunk.p = bitmap + (i * 8 * sizeofPtr + k) <<< shift
  status : chunk.mem.status = (mem.countUsed slotId).status
  unlinked : (∀ i < mapWords build shift, chunk.mem.bitmap bitmap i = sgxSlabBusy) →
    chunk.mem.page = unlinkPage mem.page page
  kept : (∃ i < mapWords build shift, chunk.mem.bitmap bitmap i ≠ sgxSlabBusy) →
    chunk.mem.page = mem.page

def FirstBitFree (mem : SlabMemory) (bitmap : ℕ) : Prop :=
  (mem.bitmap bitmap 0).getLsbD 0 = false ∧
    (mem.bitmap bitmap 0 ||| 1 = sgxSlabBusy → mem.bitmap bitmap 1 ≠ sgxSlabBusy)

theorem allocSmall_eq
    (h : FirstClear (mem.bitmap (sgxSlabPageAddr build pool page)) (mapWords build shift) i k)
    (slotId fuel : ℕ) : allocSmall fuel build pool mem page slotId shift =
      (takeChunk fuel mem page slotId (sgxSlabPageAddr build pool page) (mapWords build shift) shift
        i (BitVec.twoPow 64 k) k).map some := by
  apply wordLoop_eq h
  · exact Nat.zero_le i
  · rw [Nat.zero_add]
    exact h.word_lt

theorem bitmap_taken {address : ℕ} (hne : bitmap + 8 * i ≠ address) :
    (mem.taken slotId address k).bitmap bitmap i = mem.bitmap bitmap i :=
  Function.update_of_ne hne _ _

theorem take_first (mem : SlabMemory) (bitmap : ℕ) :
    take mem.word (bitmap + 8 * 0) 0 (bitmap + 8 * 0) = mem.bitmap bitmap 0 ||| 1 := by
  rw [take, Function.update_self, BitVec.twoPow_zero]
  rfl

theorem laterLoop_first (hmap : 1 < map) (hbit : FirstBitFree mem bitmap)
    (hfull : take mem.word (bitmap + 8 * 0) 0 (bitmap + 8 * 0) = sgxSlabBusy) (fuel : ℕ) :
    laterLoop (take mem.word (bitmap + 8 * 0) 0) bitmap map (0 + 1) (fuel + 1) = some false := by
  have hnext := hbit.2 (by rw [← take_first]; exact hfull)
  have hlater : take mem.word (bitmap + 8 * 0) 0 (bitmap + 8 * 1) = mem.bitmap bitmap 1 :=
    Function.update_of_ne (by omega) _ _
  rw [laterLoop, if_pos hmap, Nat.zero_add, hlater, if_pos hnext]

theorem chunk_of_firstBitFree (hmap : 1 < mapWords build shift) (hbitmap : bitmap < sizeMod)
    (hbit : FirstBitFree mem bitmap) {chunk : SmallChunk}
    (hcall : takeChunk fuel mem page slotId bitmap (mapWords build shift) shift 0
      (BitVec.twoPow 64 0) 0 = some chunk) :
    ChunkTaken build bitmap mem page slotId shift chunk 0 0 := by
  have hp : sizeAdd bitmap 0 = bitmap + (0 * 8 * sizeofPtr + 0) <<< shift := by
    rw [sizeAdd_of_lt hbitmap, Nat.zero_mul, Nat.zero_shiftLeft]
  by_cases hfull : take mem.word (bitmap + 8 * 0) 0 (bitmap + 8 * 0) = sgxSlabBusy
  · rw [takeChunk_full hfull] at hcall
    obtain ⟨full, hlater, rfl⟩ := Option.map_eq_some_iff.mp hcall
    obtain rfl : full = false := by
      cases fuel with
      | zero => cases hlater
      | succ fuel =>
        rw [laterLoop_first hmap hbit hfull] at hlater
        exact (Option.some.inj hlater).symm
    refine ⟨Nat.zero_lt_of_lt hmap, by decide, hbit.1, rfl, hp, rfl, fun hall => ?_, fun _ => rfl⟩
    have hnext := hbit.2 (by rw [← take_first]; exact hfull)
    exact absurd ((bitmap_taken (by omega)).symm.trans (hall 1 hmap)) hnext
  · rw [takeChunk_open hfull] at hcall
    obtain rfl := Option.some.inj hcall
    refine ⟨Nat.zero_lt_of_lt hmap, by decide, hbit.1, rfl, hp, rfl, fun hall => ?_, fun _ => rfl⟩
    exact absurd (hall 0 (Nat.zero_lt_of_lt hmap)) hfull

theorem takeChunk_ends (page slotId shift : ℕ) (hmap : 1 < map) (hbit : FirstBitFree mem bitmap) :
    ∃ chunk, takeChunk 1 mem page slotId bitmap map shift 0 (BitVec.twoPow 64 0) 0 = some chunk := by
  by_cases hfull : take mem.word (bitmap + 8 * 0) 0 (bitmap + 8 * 0) = sgxSlabBusy
  · rw [takeChunk_full hfull, laterLoop_first hmap hbit hfull]
    exact ⟨_, rfl⟩
  · rw [takeChunk_open hfull]
    exact ⟨_, rfl⟩

theorem firstBitFree_of_chunk (hmap : 1 < mapWords build shift)
    (hbitmap : bitmap + mapWords build shift ≤ sizeMod)
    (hfirst : FirstClear (mem.bitmap bitmap) (mapWords build shift) i k) {chunk : SmallChunk}
    (hcall : takeChunk fuel mem page slotId bitmap (mapWords build shift) shift i
      (BitVec.twoPow 64 k) k = some chunk) {i' k' : ℕ}
    (h : ChunkTaken build bitmap mem page slotId shift chunk i' k') :
    FirstBitFree mem bitmap := by
  have hword : chunk.mem.word = take mem.word (bitmap + 8 * i) k ∧ chunk.p = sizeAdd bitmap i := by
    by_cases hopen : take mem.word (bitmap + 8 * i) k (bitmap + 8 * i) = sgxSlabBusy
    · rw [takeChunk_full hopen] at hcall
      obtain ⟨full, -, rfl⟩ := Option.map_eq_some_iff.mp hcall
      exact ⟨rfl, rfl⟩
    · rw [takeChunk_open hopen] at hcall
      obtain rfl := Option.some.inj hcall
      exact ⟨rfl, rfl⟩
  have hset : (take mem.word (bitmap + 8 * i') k' (bitmap + 8 * i)).getLsbD k = true := by
    rw [← h.word, hword.1]
    exact (getLsbD_take _ _ hfirst.bit_lt _ _).mpr (.inl ⟨rfl, rfl⟩)
  obtain ⟨haddress, rfl⟩ : bitmap + 8 * i = bitmap + 8 * i' ∧ k = k' := by
    rcases (getLsbD_take (w := 64) _ _ h.bit_lt _ _).mp hset with hsame | hold
    · exact hsame
    · have hclear : (mem.word (bitmap + 8 * i)).getLsbD k = false := hfirst.clear
      rw [hclear] at hold
      cases hold
  obtain rfl : i = i' := by omega
  have hzero : i = 0 ∧ k = 0 := by
    have hlt := hfirst.word_lt
    have hp := hword.2
    rw [h.p, sizeAdd_of_lt (by omega), Nat.shiftLeft_eq] at hp
    have hge := Nat.le_mul_of_pos_right (i * 8 * sizeofPtr + k) (Nat.two_pow_pos shift)
    simp only [sizeofPtr] at hp hge
    omega
  refine ⟨hfirst.at_zero_iff.mp hzero, fun hbusy hnext => ?_⟩
  obtain ⟨rfl, rfl⟩ := hzero
  have hlater : take mem.word (bitmap + 8 * 0) 0 (bitmap + 8 * 1) = sgxSlabBusy := by
    rw [← hnext]
    exact Function.update_of_ne (by omega) _ _
  rw [takeChunk_full (by rw [take_first]; exact hbusy), laterLoop_busy hmap hlater] at hcall
  cases hcall

theorem map_area (build : SlabBuild) (shift : ℕ) :
    mapWords build shift * wordBits * 2 ^ shift ≤ build.pagesize := by
  have hwords := Nat.div_mul_le_self (build.pagesize >>> shift) wordBits
  calc mapWords build shift * wordBits * 2 ^ shift
      ≤ (build.pagesize >>> shift) * 2 ^ shift := Nat.mul_le_mul_right _ hwords
    _ ≤ build.pagesize := by
      rw [Nat.shiftRight_eq_div_pow]
      exact Nat.div_mul_le_self _ _

theorem one_lt_map {sizes : SlabSizes} (hsizes : sizes.exactShift = 0)
    (hpage : build.pagesize ≤ sizeMod)
    (hshift : shift < (sgxSlabSizesInit build sizes).exactShift) : 1 < mapWords build shift := by
  have hexact : (build.pagesize / wordBits) >>> 1 < 2 ^ wordBits := by
    rw [Nat.shiftRight_one]
    simp only [sizeMod] at hpage
    simp only [wordBits]
    omega
  change shift < shiftLoop wordBits ((build.pagesize / wordBits) >>> 1) sizes.exactShift at hshift
  rw [shiftLoop_eq hexact, hsizes, Nat.zero_add, Nat.lt_size, Nat.shiftRight_one, Nat.div_div_eq_div_mul,
    Nat.le_div_iff_mul_le (by decide)] at hshift
  rw [mapWords, Nat.shiftRight_eq_div_pow, Nat.div_div_eq_div_mul]
  apply (Nat.le_div_iff_mul_le (Nat.mul_pos (Nat.two_pow_pos shift) (by decide))).mpr
  simp only [wordBits] at hshift ⊢
  omega

theorem map_le_page (build : SlabBuild) (shift : ℕ) : mapWords build shift ≤ build.pagesize := by
  apply le_trans _ (map_area build shift)
  rw [Nat.mul_assoc]
  exact Nat.le_mul_of_pos_right _ (Nat.mul_pos (by decide) (Nat.two_pow_pos shift))

def descriptor (pool : SgxSlabPool) (index : ℕ) : ℕ := pool.pages + index * sizeofSlabPage

def pageArea (build : SlabBuild) (pool : SgxSlabPool) (index : ℕ) : Span ℕ :=
  chunk pool.start build.pagesize index

variable {index : ℕ}

theorem area_le (hmem : pool.start + pool.pfree * build.pagesize ≤ sizeMod)
    (hindex : index < pool.pfree) :
    pool.start + index * build.pagesize + build.pagesize ≤ sizeMod :=
  (chunk_within hindex).2.trans hmem

theorem pageAddr_eq (hmem : pool.start + pool.pfree * build.pagesize ≤ sizeMod)
    (hindex : index < pool.pfree) : sgxSlabPageAddr build pool (descriptor pool index) =
      pool.start + index * build.pagesize := by
  have hend := area_le hmem hindex
  have hpos : 0 < build.pagesize := Nat.two_pow_pos _
  have hsub : sizeSub (descriptor pool index) pool.pages = index * sizeofSlabPage := by
    rw [descriptor, sizeSub_of_le (Nat.le_add_right _ _), Nat.add_sub_cancel_left]
  rw [sgxSlabPageAddr, hsub, Nat.mul_div_cancel _ (by decide), sizeMul_of_lt (by omega),
    sizeAdd_of_lt (by omega), Nat.add_comm]

def Serves (build : SlabBuild) (pool : SgxSlabPool) (mem : SlabMemory) (page slotId shift : ℕ) :
    Prop :=
  ∃ fuel chunk i k, allocSmall fuel build pool mem page slotId shift = some (some chunk) ∧
    ChunkTaken build (sgxSlabPageAddr build pool page) mem page slotId shift chunk i k

theorem serves_iff {sizes : SlabSizes} (hsizes : sizes.exactShift = 0)
    (hmem : pool.start + pool.pfree * build.pagesize ≤ sizeMod) (hindex : index < pool.pfree)
    (hshift : shift < (sgxSlabSizesInit build sizes).exactShift)
    (hfree : ∃ i < mapWords build shift,
      mem.bitmap (sgxSlabPageAddr build pool (descriptor pool index)) i ≠ sgxSlabBusy) :
    Serves build pool mem (descriptor pool index) slotId shift ↔
      FirstBitFree mem (sgxSlabPageAddr build pool (descriptor pool index)) := by
  have hend := area_le hmem hindex
  have hpos : 0 < build.pagesize := Nat.two_pow_pos _
  have hmap : 1 < mapWords build shift := one_lt_map hsizes (by omega) hshift
  have hle := map_le_page build shift
  obtain ⟨i, k, hfirst⟩ := exists_firstClear hfree
  have heq := allocSmall_eq hfirst slotId
  have haddr := pageAddr_eq hmem hindex
  constructor
  · rintro ⟨fuel, chunk, i', k', hcall, htaken⟩
    rw [heq] at hcall
    obtain ⟨chunk', htake, hsame⟩ := Option.map_eq_some_iff.mp hcall
    obtain rfl := Option.some.inj hsame
    apply firstBitFree_of_chunk hmap _ hfirst htake htaken
    rw [haddr]
    omega
  · intro hbit
    obtain ⟨rfl, rfl⟩ := hfirst.at_zero_iff.mpr hbit.1
    obtain ⟨chunk, htake⟩ := takeChunk_ends (descriptor pool index) slotId shift hmap hbit
    refine ⟨1, chunk, 0, 0, ?_, ?_⟩
    · rw [heq, htake]
      rfl
    · apply chunk_of_firstBitFree hmap _ hbit htake
      rw [haddr]
      omega

def SlabMemory.countRequest (mem : SlabMemory) (slotId : ℕ) : SlabMemory :=
  let status := mem.status slotId
  { mem with
    status := Function.update mem.status slotId { status with reqs := sizeAdd status.reqs 1 } }

structure SmallRequest (build : SlabBuild) (sizes : SlabSizes) (pool : SgxSlabPool)
    (mem : SlabMemory) (size page slotId shift : ℕ) : Prop where
  size_le : size ≤ sizes.maxSize
  slot : selectSlot pool size = (shift, slotId)
  first : (mem.page (sgxSlabSlots build pool + slotId * sizeofSlabPage)).next = page
  linked : (mem.page page).next ≠ page
  small : shift < sizes.exactShift

theorem SmallRequest.alloc_eq {sizes : SlabSizes} {size : ℕ}
    (h : SmallRequest build sizes pool mem size page slotId shift)
    (allocPages : SlabMemory → ℕ → Option ℕ × SlabMemory) (fuel : ℕ) :
    sgxSlabAllocLocked fuel build sizes allocPages pool mem size =
      (allocSmall fuel build pool (mem.countRequest slotId) page slotId shift).map fun chunk =>
        chunk.elim (.breaksOff (mem.countRequest slotId)) fun chunk => .done chunk.p chunk.mem := by
  have hpage := h.first
  subst hpage
  rw [sgxSlabAllocLocked, if_neg (Nat.not_lt.mpr h.size_le), h.slot]
  exact if_pos ⟨h.linked, h.small⟩

theorem SmallRequest.serves_iff {sizes : SlabSizes} {size : ℕ} (hsizes : sizes.exactShift = 0)
    (h : SmallRequest build (sgxSlabSizesInit build sizes) pool mem size (descriptor pool index)
      slotId shift)
    (hmem : pool.start + pool.pfree * build.pagesize ≤ sizeMod) (hindex : index < pool.pfree)
    (hfree : ∃ i < mapWords build shift,
      mem.bitmap (sgxSlabPageAddr build pool (descriptor pool index)) i ≠ sgxSlabBusy)
    (allocPages : SlabMemory → ℕ → Option ℕ × SlabMemory) :
    (∃ fuel chunk i k, sgxSlabAllocLocked fuel build (sgxSlabSizesInit build sizes) allocPages pool
        mem size = some (.done chunk.p chunk.mem) ∧
      ChunkTaken build (sgxSlabPageAddr build pool (descriptor pool index))
        (mem.countRequest slotId) (descriptor pool index) slotId shift chunk i k) ↔
      FirstBitFree mem (sgxSlabPageAddr build pool (descriptor pool index)) := by
  have hserves : Serves build pool (mem.countRequest slotId) (descriptor pool index) slotId shift ↔
      FirstBitFree mem (sgxSlabPageAddr build pool (descriptor pool index)) :=
    Slab.serves_iff hsizes hmem hindex h.small hfree
  rw [← hserves]
  constructor
  · rintro ⟨fuel, chunk, i, k, hcall, htaken⟩
    rw [h.alloc_eq, Option.map_eq_some_iff] at hcall
    obtain ⟨answer, hsmall, heq⟩ := hcall
    cases answer with
    | none => cases heq
    | some chunk' =>
      obtain ⟨hp, hmem'⟩ := SlabAnswer.done.inj heq
      refine ⟨fuel, chunk', i, k, hsmall, htaken.word_lt, htaken.bit_lt, htaken.clear, ?_, ?_, ?_,
        ?_, ?_⟩
      · rw [hmem']
        exact htaken.word
      · rw [hp]
        exact htaken.p
      · rw [hmem']
        exact htaken.status
      · rw [hmem']
        exact htaken.unlinked
      · rw [hmem']
        exact htaken.kept
  · rintro ⟨fuel, chunk, i, k, hcall, htaken⟩
    refine ⟨fuel, chunk, i, k, ?_, htaken⟩
    rw [h.alloc_eq, hcall]
    rfl

end Page

section Run

variable {build : SlabBuild} {pool : SgxSlabPool} {shiftOf slotOf : ℕ → ℕ}

/-- Calls on pages of the pool, where page `index` is in the slot `slotOf index` with chunks of
`2 ^ shiftOf index` bytes: the page and the address of each chunk, and the state and the page of each
call, newest first. -/
inductive SmallRun (build : SlabBuild) (pool : SgxSlabPool) (shiftOf slotOf : ℕ → ℕ) :
    SlabMemory → List (ℕ × ℕ) → List (SlabMemory × ℕ) → SlabMemory → Prop where
  | start (mem) : SmallRun build pool shiftOf slotOf mem [] [] mem
  | alloc {mem₀ log calls mem index fuel chunk} :
      SmallRun build pool shiftOf slotOf mem₀ log calls mem → index < pool.pfree →
      allocSmall fuel build pool mem (descriptor pool index) (slotOf index) (shiftOf index) =
        some (some chunk) →
      SmallRun build pool shiftOf slotOf mem₀ ((index, chunk.p) :: log) ((mem, index) :: calls)
        chunk.mem

structure ChunkBit where
  index : ℕ
  i : ℕ
  k : ℕ

def ChunkBit.number (b : ChunkBit) : ℕ := b.i * wordBits + b.k

def ChunkBit.address (build : SlabBuild) (pool : SgxSlabPool) (b : ChunkBit) : ℕ × ℕ :=
  (pool.start + b.index * build.pagesize + 8 * b.i, b.k)

def ChunkBit.entry (build : SlabBuild) (pool : SgxSlabPool) (shiftOf : ℕ → ℕ) (b : ChunkBit) :
    ℕ × ℕ :=
  (b.index, pool.start + b.index * build.pagesize + b.number * 2 ^ shiftOf b.index)

def ChunkBit.InPage (build : SlabBuild) (pool : SgxSlabPool) (shiftOf : ℕ → ℕ) (b : ChunkBit) :
    Prop :=
  b.index < pool.pfree ∧ b.i < mapWords build (shiftOf b.index) ∧ b.k < wordBits

def chunkSpan (shiftOf : ℕ → ℕ) (entry : ℕ × ℕ) : Span ℕ :=
  ⟨entry.2, entry.2 + 2 ^ shiftOf entry.1⟩

theorem ChunkBit.span_eq (b : ChunkBit) : chunkSpan shiftOf (b.entry build pool shiftOf) =
    chunk (pool.start + b.index * build.pagesize) (2 ^ shiftOf b.index) b.number := rfl

theorem ChunkBit.InPage.within {b : ChunkBit} (h : b.InPage build pool shiftOf) :
    (chunkSpan shiftOf (b.entry build pool shiftOf)).Within (pageArea build pool b.index) := by
  obtain ⟨-, hi, hk⟩ := h
  have hnumber : b.number < mapWords build (shiftOf b.index) * wordBits := by
    have hmul := Nat.mul_le_mul_right wordBits hi
    rw [Nat.succ_mul] at hmul
    rw [ChunkBit.number]
    omega
  rw [ChunkBit.span_eq]
  apply (chunk_within hnumber).trans
  exact ⟨le_refl _, Nat.add_le_add_left (map_area build _) _⟩

theorem ChunkBit.InPage.apart {b c : ChunkBit} (hb : b.InPage build pool shiftOf)
    (hc : c.InPage build pool shiftOf) (hne : b.address build pool ≠ c.address build pool) :
    (chunkSpan shiftOf (b.entry build pool shiftOf)).Apart
      (chunkSpan shiftOf (c.entry build pool shiftOf)) := by
  by_cases hindex : b.index = c.index
  · rw [ChunkBit.span_eq, ChunkBit.span_eq, hindex]
    apply chunk_apart
    intro hnumber
    obtain ⟨hi, hk⟩ := number_inj hb.2.2 hc.2.2 hnumber
    apply hne
    rw [ChunkBit.address, ChunkBit.address, hindex, hi, hk]
  · exact (chunk_apart hindex).within hb.within hc.within

theorem SmallRun.takes {mem₀ mem : SlabMemory} {log : List (ℕ × ℕ)} {calls : List (SlabMemory × ℕ)}
    {sizes : SlabSizes} (h : SmallRun build pool shiftOf slotOf mem₀ log calls mem)
    (hsizes : sizes.exactShift = 0) (hmem : pool.start + pool.pfree * build.pagesize ≤ sizeMod)
    (hshift : ∀ index < pool.pfree, shiftOf index < (sgxSlabSizesInit build sizes).exactShift)
    (hcalls : ∀ call ∈ calls,
      FirstBitFree call.1 (sgxSlabPageAddr build pool (descriptor pool call.2))) :
    ∃ bits : List ChunkBit, log = bits.map (ChunkBit.entry build pool shiftOf) ∧
      (∀ b ∈ bits, b.InPage build pool shiftOf) ∧
      Takes mem₀.word (bits.map (ChunkBit.address build pool)) mem.word := by
  induction h with
  | start => exact ⟨[], rfl, fun _ hb => absurd hb List.not_mem_nil, .start _⟩
  | @alloc log calls mem index fuel chunk hrun hindex hcall ih =>
    obtain ⟨bits, rfl, hin, htakes⟩ := ih fun call hc => hcalls call (List.mem_cons_of_mem _ hc)
    have hbit := hcalls _ List.mem_cons_self
    have hend := area_le hmem hindex
    have hpos : 0 < build.pagesize := Nat.two_pow_pos _
    have hmap := one_lt_map hsizes (by omega) (hshift index hindex)
    have haddr := pageAddr_eq hmem hindex
    have hfree : ∃ i < mapWords build (shiftOf index),
        mem.bitmap (sgxSlabPageAddr build pool (descriptor pool index)) i ≠ sgxSlabBusy :=
      ⟨0, Nat.zero_lt_of_lt hmap, ne_allOnes_iff.mpr ⟨0, by decide, hbit.1⟩⟩
    obtain ⟨i, k, hfirst⟩ := exists_firstClear hfree
    obtain ⟨rfl, rfl⟩ := hfirst.at_zero_iff.mpr hbit.1
    rw [allocSmall_eq hfirst] at hcall
    obtain ⟨_, htake, hsame⟩ := Option.map_eq_some_iff.mp hcall
    obtain rfl := Option.some.inj hsame
    have htaken := chunk_of_firstBitFree hmap (by rw [haddr]; omega) hbit htake
    have hp := htaken.p
    rw [haddr, Nat.shiftLeft_eq] at hp
    refine ⟨⟨index, 0, 0⟩ :: bits, ?_, ?_, ?_⟩
    · rw [List.map_cons, hp]
      rfl
    · rintro b hb
      rcases List.mem_cons.mp hb with rfl | hb
      · exact ⟨hindex, htaken.word_lt, htaken.bit_lt⟩
      · exact hin b hb
    · rw [htaken.word, haddr, List.map_cons]
      apply htakes.take (Nat.succ_pos 63)
      rw [← haddr]
      exact htaken.clear

theorem small_chunk_iff (build : SlabBuild) (pool : SgxSlabPool) (sizes : SlabSizes)
    (hsizes : sizes.exactShift = 0) (hmem : pool.start + pool.pfree * build.pagesize ≤ sizeMod) :
    (∀ mem index slotId shift, index < pool.pfree →
      shift < (sgxSlabSizesInit build sizes).exactShift →
      (∃ i < mapWords build shift,
        mem.bitmap (sgxSlabPageAddr build pool (descriptor pool index)) i ≠ sgxSlabBusy) →
      (Serves build pool mem (descriptor pool index) slotId shift ↔
        FirstBitFree mem (sgxSlabPageAddr build pool (descriptor pool index)))) ∧
    ∀ shiftOf slotOf mem₀ log calls mem, SmallRun build pool shiftOf slotOf mem₀ log calls mem →
      (∀ index < pool.pfree, shiftOf index < (sgxSlabSizesInit build sizes).exactShift) →
      (∀ call ∈ calls,
        FirstBitFree call.1 (sgxSlabPageAddr build pool (descriptor pool call.2))) →
      (log.map Prod.snd).Nodup ∧
        log.Pairwise fun e f => (chunkSpan shiftOf e).Apart (chunkSpan shiftOf f) := by
  constructor
  · intro mem index slotId shift hindex hshift hfree
    exact serves_iff hsizes hmem hindex hshift hfree
  · intro shiftOf slotOf mem₀ log calls mem hrun hshift hcalls
    obtain ⟨bits, rfl, hin, htakes⟩ := hrun.takes hsizes hmem hshift hcalls
    have hnodup := List.pairwise_map.mp htakes.nodup
    have hapart : (bits.map (ChunkBit.entry build pool shiftOf)).Pairwise fun e f =>
        (chunkSpan shiftOf e).Apart (chunkSpan shiftOf f) := by
      apply List.pairwise_map.mpr
      exact hnodup.imp_of_mem fun hb hc hne => (hin _ hb).apart (hin _ hc) hne
    refine ⟨List.pairwise_map.mpr (hapart.imp ?_), hapart⟩
    intro e f h heq
    have hsize := Nat.two_pow_pos (shiftOf e.1)
    have hsize' := Nat.two_pow_pos (shiftOf f.1)
    rcases h with h | h <;>
    · simp only [chunkSpan] at h
      omega

end Run

def onePage : SgxSlabPool := ⟨4096, 8, 3, 4800, 4824, ⟨0, 4800, 0⟩, 4584, 1, 8192, 12288⟩

theorem small_chunk_iff_empty_page :
    Serves plainBuild onePage plainMemory (descriptor onePage 0) 0 3 := by
  have hiff := small_chunk_iff plainBuild onePage ⟨0, 0, 0⟩ rfl (by decide)
  exact (hiff.1 plainMemory 0 0 3 (by decide) (by decide) ⟨0, by decide, by decide⟩).mpr
    ⟨rfl, by decide⟩

theorem allocSmall_endless {build : SlabBuild} {pool : SgxSlabPool} {mem : SlabMemory}
    {page slotId shift : ℕ} (bitmap : ℕ) (hpage : sgxSlabPageAddr build pool page = bitmap)
    (hmap : 1 < mapWords build shift) (hclear : (mem.bitmap bitmap 0).getLsbD 0 = false)
    (hfull : mem.bitmap bitmap 0 ||| 1 = sgxSlabBusy) (hnext : mem.bitmap bitmap 1 = sgxSlabBusy)
    (fuel : ℕ) : allocSmall fuel build pool mem page slotId shift = none := by
  subst hpage
  have hfirst : FirstClear (mem.bitmap (sgxSlabPageAddr build pool page)) (mapWords build shift)
      0 0 :=
    ⟨Nat.zero_lt_of_lt hmap, by decide, hclear, fun _ h => absurd h (Nat.not_lt_zero _),
      fun _ h => absurd h (Nat.not_lt_zero _)⟩
  rw [allocSmall_eq hfirst, takeChunk_full (by rw [take_first]; exact hfull), laterLoop_busy hmap]
  · rfl
  · rw [← hnext]
    exact Function.update_of_ne (by omega) _ _

theorem second_chunk_is_the_first :
    let taken : SlabMemory := { plainMemory with word := fun _ => 1 }
    let word (x : ℕ) : BitVec 64 :=
      if x = 8192 then BitVec.allOnes 64 <<< 1 else if x = 8200 then BitVec.allOnes 64 else 0
    ((allocSmall 1 plainBuild onePage taken (descriptor onePage 0) 0 3).map fun answer =>
        answer.map fun chunk => (chunk.p, chunk.k)) = some (some (8192, 8)) ∧
      ¬ Serves plainBuild onePage taken (descriptor onePage 0) 0 3 ∧
      ∀ fuel, allocSmall fuel plainBuild onePage { plainMemory with word := word }
        (descriptor onePage 0) 0 3 = none := by
  intro taken word
  refine ⟨by decide, fun h => ?_, allocSmall_endless 8192 ?_ ?_ ?_ ?_ ?_⟩
  · have hsizes : (SlabSizes.mk 0 0 0).exactShift = 0 := rfl
    have hindex : 0 < onePage.pfree := by decide
    have hbit := (serves_iff hsizes (by decide) hindex (by decide) ⟨0, by decide, by decide⟩).mp h
    exact absurd hbit.1 (by decide)
  all_goals decide

end Sginx.Slab
