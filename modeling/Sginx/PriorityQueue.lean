import Sginx.SizeT
import Sginx.Library.ImplicitHeap

/-!
`core/sgx_priority_queue.c`. Every access to the array `node` is checked against the number of
slots it was allocated with, so `none` stands for an access outside of it.
-/

namespace Sginx.PriorityQueue

open Sginx.Library.ImplicitHeap

def sgxOk : ℤ := 0

/-- A pointer that `free` receives: a stored value, or a slot of one of the arrays `node` named. -/
inductive Address (α : Type) where
  | value (v : α)
  | slot (array index : ℕ)
deriving DecidableEq, Repr

/-- `slots` and `array` describe the memory behind `node`, and `freed` the calls of `free`. The
comparator is an argument of the functions, since what it answers depends on other memory. -/
structure SgxPriorityQueue (α : Type) where
  node : ℕ → α
  size : ℕ
  maxSize : ℕ
  slots : ℕ
  array : ℕ
  freed : List (Address α)

variable {α : Type}

def SgxPriorityQueue.load (q : SgxPriorityQueue α) (i : ℕ) : Option α :=
  if i < q.slots then some (q.node i) else none

def SgxPriorityQueue.store (q : SgxPriorityQueue α) (i : ℕ) (v : α) :
    Option (SgxPriorityQueue α) :=
  if i < q.slots then some { q with node := Function.update q.node i v } else none

def priorityQueueResize (q : SgxPriorityQueue α) (newSize : ℕ) (mem : Option (ℕ → α)) :
    Option (ℤ × SgxPriorityQueue α) :=
  if newSize ≤ q.size then some (-1, q)
  else
    match malloc (sizeMul sizeofPtr newSize) mem with
    | none => some (-1, q)
    | some fresh =>
      let slots := sizeMul sizeofPtr newSize / sizeofPtr
      -- memcpy of `size + 1` slots
      if q.size + 1 ≤ q.slots ∧ q.size + 1 ≤ slots then
        some (sgxOk, { q with
          node := fun i => if i < q.size + 1 then q.node i else fresh i
          maxSize := newSize
          slots := slots
          array := q.array + 1
          freed := .slot q.array 0 :: q.freed })
      else none

def priorityQueueSwap (q : SgxPriorityQueue α) (indexX indexY : ℕ) :
    Option (SgxPriorityQueue α) := do
  let temp ← q.load indexX
  let y ← q.load indexY
  let q ← q.store indexX y
  q.store indexY temp

section comparator

variable (cmp : α → α → Bool)

/-- `index` halves in every round, so it bounds the number of rounds. -/
def upLoop : ℕ → SgxPriorityQueue α → ℕ → Option (SgxPriorityQueue α)
  | 0, q, _ => some q
  | fuel + 1, q, index =>
    if 1 < index then do
      let x ← q.load index
      let y ← q.load (index >>> 1)
      if cmp x y then
        let q ← priorityQueueSwap q index (index >>> 1)
        upLoop fuel q (index >>> 1)
      else some q
    else some q

def priorityQueueUp (q : SgxPriorityQueue α) (index : ℕ) : Option (SgxPriorityQueue α) :=
  upLoop cmp index q index

def priorityQueueCmp (q : SgxPriorityQueue α) (indexX indexY : ℕ) : Option Bool :=
  if q.size < indexX ∨ q.size < indexY then some false
  else do
    let x ← q.load indexX
    let y ← q.load indexY
    some (cmp x y)

def downLoop : ℕ → SgxPriorityQueue α → ℕ → Option (ℕ × SgxPriorityQueue α)
  | 0, q, index => some (index, q)
  | fuel + 1, q, index =>
    if sizeShl index 1 ≤ q.size then do
      let indexT := sizeShl index 1
      -- the statement this test guards, `index_t | 1;`, assigns nothing
      let _ ← priorityQueueCmp cmp q (indexT ||| 1) indexT
      if ← priorityQueueCmp cmp q indexT index then
        let q ← priorityQueueSwap q indexT index
        downLoop fuel q indexT
      else some (index, q)
    else some (index, q)

/-- `index` grows in every round and does not pass `size`. -/
def priorityQueueDown (q : SgxPriorityQueue α) (index : ℕ) : Option (ℕ × SgxPriorityQueue α) :=
  downLoop cmp q.size q index

end comparator

def sgxPriorityQueueInit (maxSize : ℕ) (mem : Option (ℕ → α)) : Option (SgxPriorityQueue α) :=
  (malloc (sizeMul sizeofPtr (sizeAdd maxSize 1)) mem).map fun fresh =>
    { node := fresh
      size := 0
      maxSize := maxSize
      slots := sizeMul sizeofPtr (sizeAdd maxSize 1) / sizeofPtr
      array := 0
      freed := [] }

def sgxPriorityQueueEmpty (q : SgxPriorityQueue α) : Bool := q.size = 0

def sgxPriorityQueueTop (q : SgxPriorityQueue α) : Option α :=
  if sgxPriorityQueueEmpty q then none else q.load 1

def sgxPriorityQueuePush (cmp : α → α → Bool) (q : SgxPriorityQueue α) (value : α)
    (mem : Option (ℕ → α)) : Option (ℤ × SgxPriorityQueue α) := do
  let (result, q) ←
    if sizeAdd q.size 1 = q.maxSize then priorityQueueResize q (sizeShl q.maxSize 1) mem
    else some (sgxOk, q)
  if result < 0 then some (-1, q)
  else
    let q := { q with size := sizeAdd q.size 1 }
    let q ← q.store q.size value
    let q ← priorityQueueUp cmp q q.size
    some (sgxOk, q)

def sgxPriorityQueuePop (cmp : α → α → Bool) (q : SgxPriorityQueue α) (mem : Option (ℕ → α)) :
    Option (ℤ × SgxPriorityQueue α) :=
  if sgxPriorityQueueEmpty q then some (sgxOk, q)
  else do
    let q ← priorityQueueSwap q 1 q.size
    -- `free(pqueue -> node + pqueue -> size)`
    let q := { q with freed := .slot q.array q.size :: q.freed, size := sizeSub q.size 1 }
    let (_, q) ← priorityQueueDown cmp q 1
    if 0 < q.size ∧ q.size ≤ sizeSub q.maxSize 1 >>> 2 then
      let (result, q) ← priorityQueueResize q (q.maxSize >>> 1) mem
      if result < 0 then some (-1, q) else some (sgxOk, q)
    else some (sgxOk, q)

end Sginx.PriorityQueue
