import Sginx.Library.LinkedChain
import Sginx.PoolDestroy

/-!
The cleanup list of a pool, with `p` read as `pool` and `clean -> fd` as `clean_file -> fd`. The
entries lie in memory that `sgx_palloc` has handed out: a memory gives the word at an address, and 0
is `NULL`. The fields of the pool and of its blocks are kept beside it.
-/

namespace Sginx.Pool

open Sginx.Library.LinkedChain

def sizeofPoolCleanup : ℕ := 24

structure LinkedPool where
  pool : SgxPool
  chain : ℕ
  cleanup : ℕ
  memory : ℕ → ℕ

def dataAt (clean : ℕ) : ℕ := clean + 8

def nextAt (clean : ℕ) : ℕ := clean + 16

def pointer (word : ℕ) : Option ℕ := if word = 0 then none else some word

def LinkedPool.store (s : LinkedPool) (a word : ℕ) : LinkedPool :=
  { s with memory := Function.update s.memory a word }

structure PallocAnswer where
  alloc : Option ℕ
  mem : Option ℕ

def LinkedPool.palloc (s : LinkedPool) (size : ℕ) (answer : PallocAnswer) :
    Option ℕ × LinkedPool :=
  let (r, pool) := sgxPalloc s.pool size answer.alloc answer.mem
  (r, { s with pool := pool })

def linkCleanup (s : LinkedPool) (clean : ℕ) : LinkedPool :=
  { (s.store clean 0).store (nextAt clean) s.cleanup with cleanup := clean }

def sgxPoolCleanupAdd (s : LinkedPool) (size : ℕ) (first second : PallocAnswer) :
    Option ℕ × LinkedPool :=
  match s.palloc sizeofPoolCleanup first with
  | (none, s) => (none, s)
  | (some clean, s) =>
    if size = 0 then (some clean, linkCleanup (s.store (dataAt clean) 0) clean)
    else
      match s.palloc size second with
      | (none, s) => (none, s.store (dataAt clean) 0)
      | (some data, s) => (some clean, linkCleanup (s.store (dataAt clean) data) clean)

/-- `file` is the address of the function `sgx_pool_cleanup_file`, and a descriptor is the word that
it is stored as. -/
def isCleanupFile (file fd : ℕ) (memory : ℕ → ℕ) (clean : ℕ) : Bool :=
  memory clean = file ∧ memory (memory (dataAt clean)) = fd

def sgxPoolRunCleanupFile (file : ℕ) (s : LinkedPool) (fd fuel : ℕ) :
    Option (LinkedPool × List PoolEvent) :=
  (seek 0 (fun clean => s.memory (nextAt clean)) (isCleanupFile file fd s.memory) fuel
    s.cleanup).map fun
    | none => (s, [])
    | some clean => (s.store clean 0, [.handler file (pointer (s.memory (dataAt clean)))])

def cleanupEntry (memory : ℕ → ℕ) (clean : ℕ) : SgxPoolCleanup :=
  ⟨clean, pointer (memory clean), pointer (memory (dataAt clean))⟩

/-- Without `SGX_DEBUG` the list is not walked. -/
def LinkedPool.destroy (debug : Bool) (s : LinkedPool) (fuel : ℕ) : Option (List PoolEvent) :=
  if debug then
    (walk 0 (fun clean => s.memory (nextAt clean)) fuel s.cleanup).map fun nodes =>
      sgxDestroyPool true s.pool (nodes.map (cleanupEntry s.memory))
  else some (sgxDestroyPool false s.pool [])

def LinkedPool.reset (s : LinkedPool) : LinkedPool :=
  { s with pool := sgxResetPool s.pool, chain := 0 }

end Sginx.Pool
