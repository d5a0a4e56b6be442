import Sginx.Library.LinkedChain
import Sginx.PoolBlocks

/-!
The pool of `core/sgx_palloc.c` as words of memory, with the members of `sgx_pool_s` and of
`sgx_pool_large_s` at their offsets. A memory gives the word at an address, and 0 is `NULL`. A loop
that follows links gets the number of tests it may make.
-/

namespace Sginx.PoolMemory

open Sginx.Library.LinkedChain
open Sginx.Pool (sgxAlignPtr sgxAlignment sizeofPool sizeofPoolData sizeofPoolLarge sgxOk sgxDeclined)

abbrev Memory := ℕ → ℕ

def dataBegin (now : ℕ) : ℕ := now + 8

def dataEnd (now : ℕ) : ℕ := now + 16

def dataNext (now : ℕ) : ℕ := now + 24

def dataFailed (now : ℕ) : ℕ := now + 32

def maxSize (pool : ℕ) : ℕ := pool + 40

def current (pool : ℕ) : ℕ := pool + 48

def chain (pool : ℕ) : ℕ := pool + 56

def large (pool : ℕ) : ℕ := pool + 64

def cleanup (pool : ℕ) : ℕ := pool + 72

def largeNext (entry : ℕ) : ℕ := entry

def largeAlloc (entry : ℕ) : ℕ := entry + 8

def store (a word : ℕ) (memory : Memory) : Memory := Function.update memory a word

def sgxCreatePool (size sgxPagesize : ℕ) (mem : Option ℕ) (memory : Memory) :
    Option (ℕ × Memory) :=
  mem.map fun pool =>
    let room := sizeSub size sizeofPool
    let most := sizeSub sgxPagesize 1
    let memory := store (dataBegin pool) (pool + sizeofPool) memory
    let memory := store (dataEnd pool) (pool + size) memory
    let memory := store (dataNext pool) 0 memory
    let memory := store (dataFailed pool) 0 memory
    let memory := store (maxSize pool) (if room < most then room else most) memory
    let memory := store (current pool) pool memory
    let memory := store (chain pool) 0 memory
    let memory := store (large pool) 0 memory
    let memory := store (cleanup pool) 0 memory
    (pool, memory)

def failRound (pool now : ℕ) (memory : Memory) : Memory :=
  let memory := store (dataFailed now) (sizeAdd (memory (dataFailed now)) 1) memory
  if memory (dataFailed now) > 4 then store (current pool) (memory (dataNext now)) memory
  else memory

/-- The last block comes out with the memory. -/
def failLoop (pool : ℕ) : ℕ → Memory → ℕ → Option (ℕ × Memory)
  | 0, _, _ => none
  | fuel + 1, memory, now =>
    if memory (dataNext now) = 0 then some (now, memory)
    else
      let memory := failRound pool now memory
      failLoop pool fuel memory (memory (dataNext now))

def sgxPallocBlock (fuel pool size : ℕ) (mem : Option ℕ) (memory : Memory) :
    Option (Option ℕ × Memory) :=
  match mem with
  | none => some (none, memory)
  | some new =>
    let m := sgxAlignPtr (new + sizeofPoolData) sgxAlignment
    let memory := store (dataEnd new) (new + size) memory
    let memory := store (dataNext new) 0 memory
    let memory := store (dataFailed new) 0 memory
    let memory := store (dataBegin new) (m + size) memory
    (failLoop pool fuel memory (memory (current pool))).map fun (now, memory) =>
      (some m, store (dataNext now) new memory)

def smallBegin (memory : Memory) (pool : ℕ) (align : Bool) : ℕ :=
  let begin := memory (dataBegin pool)
  if align then sgxAlignPtr begin sgxAlignment else begin

def smallFits (memory : Memory) (pool size : ℕ) (align : Bool) (now : ℕ) : Bool :=
  size ≤ sizeSub (memory (dataEnd now)) (smallBegin memory pool align)

/-- The outer option is for a loop that has not ended. -/
def smallLoop (memory : Memory) (pool size : ℕ) (align : Bool) : ℕ → ℕ → Option (Option ℕ)
  | 0, _ => none
  | fuel + 1, now =>
    if smallFits memory pool size align now then some (some now)
    else if memory (dataNext now) = 0 then some none
    else smallLoop memory pool size align fuel (memory (dataNext now))

def sgxPallocSmall (fuel pool size : ℕ) (align : Bool) (mem : Option ℕ) (memory : Memory) :
    Option (Option ℕ × Memory) :=
  (smallLoop memory pool size align fuel (memory (current pool))).bind fun
    | some now =>
      let begin := smallBegin memory pool align
      some (some begin, store (dataBegin now) (begin + size) memory)
    | none => sgxPallocBlock fuel pool size mem memory

def reuseLoop (memory : Memory) : ℕ → ℕ → Option ℕ
  | 0, _ => none
  | left + 1, entry =>
    if entry = 0 then none
    else if memory (largeAlloc entry) = 0 then some entry
    else reuseLoop memory left (memory (largeNext entry))

def linkLarge (pool now entry : ℕ) (memory : Memory) : Memory :=
  let memory := store (largeAlloc entry) now memory
  let memory := store (largeNext entry) (memory (large pool)) memory
  store (large pool) entry memory

def newLarge (fuel pool now : ℕ) (mem : Option ℕ) (memory : Memory) :
    Option (Option ℕ × Memory) :=
  (sgxPallocSmall fuel pool sizeofPoolLarge true mem memory).map fun
    | (none, memory) => (none, memory)
    | (some entry, memory) => (some now, linkLarge pool now entry memory)

def sgxPallocLarge (fuel pool : ℕ) (alloc mem : Option ℕ) (memory : Memory) :
    Option (Option ℕ × Memory) :=
  match alloc with
  | none => some (none, memory)
  | some now =>
    match reuseLoop memory 4 (memory (large pool)) with
    | some entry => some (some now, store (largeAlloc entry) now memory)
    | none => newLarge fuel pool now mem memory

def sgxPmemalign (fuel pool : ℕ) (alloc mem : Option ℕ) (memory : Memory) :
    Option (Option ℕ × Memory) :=
  match alloc with
  | none => some (none, memory)
  | some now => newLarge fuel pool now mem memory

def sgxPalloc (fuel pool size : ℕ) (alloc mem : Option ℕ) (memory : Memory) :
    Option (Option ℕ × Memory) :=
  if size ≤ memory (maxSize pool) then sgxPallocSmall fuel pool size true mem memory
  else sgxPallocLarge fuel pool alloc mem memory

def sgxPnalloc (fuel pool size : ℕ) (alloc mem : Option ℕ) (memory : Memory) :
    Option (Option ℕ × Memory) :=
  if size ≤ memory (maxSize pool) then sgxPallocSmall fuel pool size false mem memory
  else sgxPallocLarge fuel pool alloc mem memory

def sgxPfree (fuel pool p : ℕ) (memory : Memory) : Option (ℤ × Memory) :=
  (seek 0 (fun entry => memory (largeNext entry)) (fun entry => p = memory (largeAlloc entry)) fuel
    (memory (large pool))).map fun
    | none => (sgxDeclined, memory)
    | some entry => (sgxOk, store (largeAlloc entry) 0 memory)

end Sginx.PoolMemory
