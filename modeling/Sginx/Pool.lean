import Mathlib.Logic.Function.Basic
import Mathlib.Order.Basic
import Sginx.SizeT

/-!
`core/sgx_palloc.c`, with `page` and `poll` read as `pool`, `begin` and `data_begin` as one variable
and `data.last` as `data.begin`. An address is a natural number. A block of the chain is named by
its position in it, so `next` is the position after it, and the pool itself is block 0.
-/

namespace Sginx.Pool

def sgxOk : ℤ := 0

def sgxDeclined : ℤ := -5

def sgxAlignment : ℕ := 8

def sizeofPool : ℕ := 80

def sizeofPoolData : ℕ := 32

def sizeofPoolLarge : ℕ := 16

/-- The mask of the source, for an `a` that is a power of two. -/
def sgxAlignPtr (p a : ℕ) : ℕ := (p + (a - 1)) / a * a

theorem le_sgxAlignPtr (p : ℕ) {a : ℕ} (h : 0 < a) : p ≤ sgxAlignPtr p a := by
  have hmod := Nat.mod_lt (p + (a - 1)) h
  have hsplit := Nat.div_add_mod' (p + (a - 1)) a
  rw [sgxAlignPtr]
  omega

theorem sgxAlignPtr_lt (p : ℕ) {a : ℕ} (h : 0 < a) : sgxAlignPtr p a < p + a := by
  have hle := Nat.div_mul_le_self (p + (a - 1)) a
  rw [sgxAlignPtr]
  omega

theorem dvd_sgxAlignPtr (p a : ℕ) : a ∣ sgxAlignPtr p a := Nat.dvd_mul_left a _

/-- `bytes` is the size `sgx_memalign` was asked for. -/
structure SgxPoolData where
  addr : ℕ
  bytes : ℕ
  dataBegin : ℕ
  dataEnd : ℕ
  failed : ℕ
deriving DecidableEq, Repr

structure SgxPoolLarge where
  addr : ℕ
  alloc : Option ℕ
deriving DecidableEq, Repr

/-- `freed` lists what `sgx_free` received, newest first. -/
structure SgxPool where
  block : ℕ → SgxPoolData
  count : ℕ
  maxSize : ℕ
  current : ℕ
  large : List SgxPoolLarge
  freed : List ℕ

/-- `mem` is the answer of `sgx_memalign`. -/
def sgxCreatePool (size sgxPagesize : ℕ) (mem : Option ℕ) : Option SgxPool :=
  mem.map fun pool =>
    let room := sizeSub size sizeofPool
    let most := sizeSub sgxPagesize 1
    { block := fun _ =>
        { addr := pool
          bytes := size
          dataBegin := pool + sizeofPool
          dataEnd := pool + size
          failed := 0 }
      count := 1
      maxSize := if room < most then room else most
      current := 0
      large := []
      freed := [] }

def SgxPool.setBlock (pool : SgxPool) (now : ℕ) (data : SgxPoolData) : SgxPool :=
  { pool with block := Function.update pool.block now data }

def failRound (pool : SgxPool) (now : ℕ) : SgxPool :=
  let failed := sizeAdd (pool.block now).failed 1
  let pool := pool.setBlock now { pool.block now with failed := failed }
  if failed > 4 then { pool with current := now + 1 } else pool

def failLoop : ℕ → SgxPool → ℕ → SgxPool
  | 0, pool, _ => pool
  | fuel + 1, pool, now =>
    if now + 1 < pool.count then failLoop fuel (failRound pool now) (now + 1) else pool

def sgxPallocBlock (pool : SgxPool) (size : ℕ) (mem : Option ℕ) : Option ℕ × SgxPool :=
  let poolSize := sizeSub (pool.block 0).dataEnd (pool.block 0).addr
  match mem with
  | none => (none, pool)
  | some new =>
    let m := sgxAlignPtr (new + sizeofPoolData) sgxAlignment
    let data :=
      { addr := new
        bytes := poolSize
        dataBegin := m + size
        dataEnd := new + size
        failed := 0 }
    let pool := failLoop pool.count pool pool.current
    (some m, { pool.setBlock pool.count data with count := pool.count + 1 })

def smallBegin (pool : SgxPool) (align : Bool) : ℕ :=
  let begin := (pool.block 0).dataBegin
  if align then sgxAlignPtr begin sgxAlignment else begin

def smallFits (pool : SgxPool) (size : ℕ) (align : Bool) (now : ℕ) : Bool :=
  size ≤ sizeSub (pool.block now).dataEnd (smallBegin pool align)

def smallLoop (pool : SgxPool) (size : ℕ) (align : Bool) : ℕ → ℕ → Option ℕ
  | 0, _ => none
  | fuel + 1, now =>
    if smallFits pool size align now then some now
    else if now + 1 < pool.count then smallLoop pool size align fuel (now + 1)
    else none

def sgxPallocSmall (pool : SgxPool) (size : ℕ) (align : Bool) (mem : Option ℕ) :
    Option ℕ × SgxPool :=
  match smallLoop pool size align pool.count pool.current with
  | some now =>
    let begin := smallBegin pool align
    (some begin, pool.setBlock now { pool.block now with dataBegin := begin + size })
  | none => sgxPallocBlock pool size mem

def reuseLoop (now : ℕ) : ℕ → List SgxPoolLarge → Option (List SgxPoolLarge)
  | _, [] => none
  | cnt, entry :: rest =>
    if entry.alloc = none then some ({ entry with alloc := some now } :: rest)
    else if cnt + 1 > 3 then none
    else (reuseLoop now (cnt + 1) rest).map (entry :: ·)

/-- `alloc` is the answer of `sgx_alloc`. -/
def sgxPallocLarge (pool : SgxPool) (alloc mem : Option ℕ) : Option ℕ × SgxPool :=
  match alloc with
  | none => (none, pool)
  | some now =>
    match reuseLoop now 0 pool.large with
    | some large => (some now, { pool with large := large })
    | none =>
      match sgxPallocSmall pool sizeofPoolLarge true mem with
      | (none, pool) => (none, { pool with freed := now :: pool.freed })
      | (some large, pool) =>
        (some now, { pool with large := { addr := large, alloc := some now } :: pool.large })

/-- `large` is read as the pointer it is used as. `alloc` is the answer of `sgx_memalign`. -/
def sgxPmemalign (pool : SgxPool) (alloc mem : Option ℕ) : Option ℕ × SgxPool :=
  match alloc with
  | none => (none, pool)
  | some now =>
    match sgxPallocSmall pool sizeofPoolLarge true mem with
    | (none, pool) => (none, { pool with freed := now :: pool.freed })
    | (some large, pool) =>
      (some now, { pool with large := { addr := large, alloc := some now } :: pool.large })

def freeLoop (p : Option ℕ) : List SgxPoolLarge → Option (List SgxPoolLarge)
  | [] => none
  | entry :: rest =>
    if p = entry.alloc then some ({ entry with alloc := none } :: rest)
    else (freeLoop p rest).map (entry :: ·)

def sgxPfree (pool : SgxPool) (p : Option ℕ) : ℤ × SgxPool :=
  match freeLoop p pool.large with
  | some large => (sgxOk, { pool with large := large, freed := p.toList ++ pool.freed })
  | none => (sgxDeclined, pool)

def sgxPalloc (pool : SgxPool) (size : ℕ) (alloc mem : Option ℕ) : Option ℕ × SgxPool :=
  if size ≤ pool.maxSize then sgxPallocSmall pool size true mem
  else sgxPallocLarge pool alloc mem

def sgxPnalloc (pool : SgxPool) (size : ℕ) (alloc mem : Option ℕ) : Option ℕ × SgxPool :=
  if size ≤ pool.maxSize then sgxPallocSmall pool size false mem
  else sgxPallocLarge pool alloc mem

def sgxResetPool (pool : SgxPool) : SgxPool :=
  { pool with
    block := fun now =>
      { pool.block now with dataBegin := (pool.block now).addr + sizeofPool, failed := 0 }
    current := 0
    large := []
    freed := (pool.large.filterMap fun entry => entry.alloc).reverse ++ pool.freed }

end Sginx.Pool
