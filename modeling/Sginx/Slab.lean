import Mathlib.Logic.Function.Basic
import Sginx.Pool

/-!
`core/sgx_slab.c` on a machine with 64-bit pointers, with `page_num` and `pagenum` read as one
variable, `stats` as `status`, `pages` and `page` as one pointer and `slot` as `slot_id`. A page
descriptor is named by its address. The text of `sgx_slab_alloc_locked` breaks off behind the branch
of the small chunks.
-/

namespace Sginx.Slab

open Sginx.Pool (sgxAlignPtr)

def sizeofSlabPage : ℕ := 24

def sizeofSlabStatus : ℕ := 24

def wordBits : ℕ := 64

def sgxSlabSmall : ℕ := 3

def sgxSlabBusy : BitVec 64 := BitVec.allOnes 64

structure SgxSlabPage where
  slab : ℕ
  next : ℕ
  prev : ℕ
deriving DecidableEq, Repr

structure SgxSlabStatus where
  toal : ℕ
  used : ℕ
  reqs : ℕ
deriving DecidableEq, Repr

/-- What `sgx_pagesize_shift` is and how `sgx_slab_pool_t` is laid out: two of its members have types
that the source does not define. -/
structure SlabBuild where
  pagesizeShift : ℕ
  sizeofSlabPool : ℕ
  offsetofFree : ℕ

def SlabBuild.pagesize (build : SlabBuild) : ℕ := 2 ^ build.pagesizeShift

structure SgxSlabPool where
  addr : ℕ
  minSize : ℕ
  minShift : ℕ
  pages : ℕ
  last : ℕ
  free : SgxSlabPage
  status : ℕ
  pfree : ℕ
  start : ℕ
  stop : ℕ
deriving DecidableEq, Repr

/-- The descriptors by their address, the array `status` by its index and the words of the pages by
their address. -/
structure SlabMemory where
  page : ℕ → SgxSlabPage
  status : ℕ → SgxSlabStatus
  word : ℕ → BitVec 64

structure SlabSizes where
  maxSize : ℕ
  exactSize : ℕ
  exactShift : ℕ
deriving DecidableEq, Repr

/-- `while(s) { shift ++; s >>= 1; }`, which ends within the 64 bits of `s`. -/
def shiftLoop : ℕ → ℕ → ℕ → ℕ
  | 0, _, shift => shift
  | fuel + 1, s, shift => if s = 0 then shift else shiftLoop fuel (s >>> 1) (shift + 1)

def sgxSlabSizesInit (build : SlabBuild) (sizes : SlabSizes) : SlabSizes :=
  let exactSize := build.pagesize / wordBits
  { maxSize := build.pagesize / 2
    exactSize := exactSize
    exactShift := shiftLoop wordBits (exactSize >>> 1) sizes.exactShift }

def sgxSlabSlots (build : SlabBuild) (pool : SgxSlabPool) : ℕ := pool.addr + build.sizeofSlabPool

def sgxSlabPagePrev (page : SgxSlabPage) : ℕ := page.prev / 4 * 4

def sgxSlabPageAddr (build : SlabBuild) (pool : SgxSlabPool) (page : ℕ) : ℕ :=
  sizeAdd (sizeMul (sizeSub page pool.pages / sizeofSlabPage) build.pagesize) pool.start

def slotCount (build : SlabBuild) (pool : SgxSlabPool) : ℕ :=
  sizeSub build.pagesizeShift pool.minShift

def initSlot (slots : ℕ) (page : ℕ → SgxSlabPage) (i : ℕ) : ℕ → SgxSlabPage :=
  let slot := slots + i * sizeofSlabPage
  Function.update page slot { slab := 0, next := slot, prev := 0 }

def zeroStatus (n : ℕ) (status : ℕ → SgxSlabStatus) : ℕ → SgxSlabStatus :=
  fun i => if i < n then ⟨0, 0, 0⟩ else status i

def pageNum (build : SlabBuild) (size : ℕ) : ℕ := size / (build.pagesize + sizeofSlabPage)

/-- The second `memzero` clears `status` again. -/
def sgxSlabInit (build : SlabBuild) (pool : SgxSlabPool) (mem : SlabMemory) :
    SgxSlabPool × SlabMemory :=
  let slots := sgxSlabSlots build pool
  let size := sizeSub pool.stop slots
  let n := slotCount build pool
  let page := (List.range n).foldl (initSlot slots) mem.page
  let stats := slots + n * sizeofSlabPage
  let status := zeroStatus n (zeroStatus n mem.status)
  let pages := stats + n * sizeofSlabStatus
  let size := sizeSub size (sizeMul n (sizeofSlabPage + sizeofSlabStatus))
  let pagenum := pageNum build size
  let free := pool.addr + build.offsetofFree
  let page := Function.update page pages { slab := pagenum, next := free, prev := free }
  let start := sgxAlignPtr (pages + pagenum * sizeofSlabPage) build.pagesize
  let m := sizeSigned (sizeSub pagenum (sizeSub pool.stop start / build.pagesize))
  let short := 0 < m
  let pagenum := if short then sizeSub pagenum m.toNat else pagenum
  -- the correction stores the pointer `pages`
  let page := if short then Function.update page pages { page pages with slab := pages } else page
  ({ pool with
      minSize := (1 <<< pool.minShift) % sizeMod
      status := stats
      pages := pages
      free := { slab := 0, next := pages, prev := 0 }
      start := start
      last := pages + pagenum * sizeofSlabPage
      pfree := pagenum },
    { mem with page := page, status := status })

def selectSlot (pool : SgxSlabPool) (size : ℕ) : ℕ × ℕ :=
  if pool.minSize < size then
    let shift := shiftLoop wordBits (sizeSub size 1) 1
    (shift, sizeSub shift pool.minShift)
  else (pool.minShift, 0)

/-- The loop over the bits of one word, which ends when `j` has been shifted out. -/
def bitLoop (word : BitVec 64) : ℕ → BitVec 64 → ℕ → Option (BitVec 64 × ℕ)
  | 0, _, _ => none
  | fuel + 1, j, k =>
    if j = 0 then none
    else if word &&& j = 0 then some (j, k)
    else bitLoop word fuel (j <<< 1) (k + 1)

/-- `while(i < map)`: it finds all words from `i` on busy, or one that is not. -/
def laterLoop (word : ℕ → BitVec 64) (bitmap map i : ℕ) : ℕ → Option Bool
  | 0 => none
  | fuel + 1 =>
    if i < map then
      if word (bitmap + 8 * i) ≠ sgxSlabBusy then some false
      else laterLoop word bitmap map i fuel
    else some true

def unlinkPage (page : ℕ → SgxSlabPage) (p : ℕ) : ℕ → SgxSlabPage :=
  let prev := sgxSlabPagePrev (page p)
  let page := Function.update page prev { page prev with next := (page p).next }
  let next := (page p).next
  let page := Function.update page next { page next with prev := (page p).prev }
  Function.update page p { page p with next := 0, prev := sgxSlabSmall }

structure SmallChunk where
  p : ℕ
  k : ℕ
  mem : SlabMemory

def SlabMemory.countUsed (mem : SlabMemory) (slot : ℕ) : SlabMemory :=
  let status := mem.status slot
  { mem with
    status := Function.update mem.status slot { status with used := sizeAdd status.used 1 } }

def takeChunk (fuel : ℕ) (mem : SlabMemory) (page slotId bitmap map shift i : ℕ) (j : BitVec 64)
    (k : ℕ) : Option SmallChunk :=
  let word := mem.word (bitmap + 8 * i) ||| j
  let mem := { mem with word := Function.update mem.word (bitmap + 8 * i) word }
  let k := ((i * wordBits + k) <<< shift) % sizeMod
  let p := sizeAdd bitmap i
  let mem := mem.countUsed slotId
  if word = sgxSlabBusy then
    (laterLoop mem.word bitmap map (i + 1) fuel).map fun full =>
      if full then ⟨p, k, { mem with page := unlinkPage mem.page page }⟩ else ⟨p, k, mem⟩
  else some ⟨p, k, mem⟩

/-- The loop over the words: `some none` when it has found no clear bit. -/
def wordLoop (fuel : ℕ) (mem : SlabMemory) (page slotId bitmap map shift : ℕ) :
    ℕ → ℕ → Option (Option SmallChunk)
  | 0, _ => some none
  | left + 1, i =>
    let word := mem.word (bitmap + 8 * i)
    if word ≠ sgxSlabBusy then
      match bitLoop word (wordBits + 1) 1 0 with
      | some (j, k) => (takeChunk fuel mem page slotId bitmap map shift i j k).map some
      | none => wordLoop fuel mem page slotId bitmap map shift left (i + 1)
    else wordLoop fuel mem page slotId bitmap map shift left (i + 1)

def mapWords (build : SlabBuild) (shift : ℕ) : ℕ := (build.pagesize >>> shift) / wordBits

/-- The branch of the small chunks on the page of a slot, which takes at most `fuel` rounds of the
inner `while`. -/
def allocSmall (fuel : ℕ) (build : SlabBuild) (pool : SgxSlabPool) (mem : SlabMemory)
    (page slotId shift : ℕ) : Option (Option SmallChunk) :=
  let map := mapWords build shift
  wordLoop fuel mem page slotId (sgxSlabPageAddr build pool page) map shift map 0

/-- `breaksOff` is where the text of the function ends. -/
inductive SlabAnswer where
  | done (p : ℕ) (mem : SlabMemory)
  | breaksOff (mem : SlabMemory)

/-- `allocPages` is `sgx_slab_alloc_pages`, which the source declares and does not define. -/
def sgxSlabAllocLocked (fuel : ℕ) (build : SlabBuild) (sizes : SlabSizes)
    (allocPages : SlabMemory → ℕ → Option ℕ × SlabMemory) (pool : SgxSlabPool) (mem : SlabMemory)
    (size : ℕ) : Option SlabAnswer :=
  if sizes.maxSize < size then
    let count := (size >>> build.pagesizeShift) + if size % build.pagesize ≠ 0 then 1 else 0
    match allocPages mem count with
    | (some pages, mem) => some (.done (sgxSlabPageAddr build pool pages) mem)
    | (none, mem) => some (.done 0 mem)
  else
    let (shift, slotId) := selectSlot pool size
    let status := mem.status slotId
    let mem :=
      { mem with
        status := Function.update mem.status slotId { status with reqs := sizeAdd status.reqs 1 } }
    let page := (mem.page (sgxSlabSlots build pool + slotId * sizeofSlabPage)).next
    if (mem.page page).next ≠ page ∧ shift < sizes.exactShift then
      (allocSmall fuel build pool mem page slotId shift).map fun chunk =>
        chunk.elim (.breaksOff mem) fun chunk => .done chunk.p chunk.mem
    else some (.breaksOff mem)

end Sginx.Slab
