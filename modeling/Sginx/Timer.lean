import Sginx.PriorityQueue

/-!
`event/event_timer.c`. A node is named by its address, and no node is freed. `none` stands for an
access outside of an object, or for a loop that has not ended.
-/

namespace Sginx.Timer

open Sginx.PriorityQueue

def sgxPriorityQueueDefaultSize : ℕ := 10

def sgxTimerInfinite : ℤ := -1

/-- `handler` is the number of a function, and `none` is `NULL`. -/
structure SgxTimerNode where
  key : ℕ
  del : ℤ
  handler : Option ℕ
  request : ℕ
deriving DecidableEq, Repr

/-- `nodes` holds the nodes at the addresses below `next`, and `timer` the field of each request.
`calls` and `pops` record, newest first, the nodes whose handlers were called and the memory and the
queue before each `sgx_priority_queue_pop`. -/
structure Timers where
  nodes : ℕ → SgxTimerNode
  next : ℕ
  sgxTimerQ : SgxPriorityQueue ℕ
  sgxCurrentMsec : ℕ
  timer : ℕ → Option ℕ
  calls : List ℕ
  pops : List ((ℕ → SgxTimerNode) × SgxPriorityQueue ℕ)

def timerCmp (nodes : ℕ → SgxTimerNode) (timerX timerY : ℕ) : Bool :=
  (nodes timerX).key < (nodes timerY).key

/-- `now` is what `gettimeofday` answers, in milliseconds. -/
def timerUpdate (s : Timers) (now : ℕ) : Timers := { s with sgxCurrentMsec := now }

def sgxTimerInit (nodes : ℕ → SgxTimerNode) (now : ℕ) (mem : Option (ℕ → ℕ)) : Option Timers :=
  (sgxPriorityQueueInit sgxPriorityQueueDefaultSize mem).map fun q =>
    { nodes := nodes
      next := 0
      sgxTimerQ := q
      sgxCurrentMsec := now
      timer := fun _ => none
      calls := []
      pops := [] }

/-- `sgx_priority_queue_pop(&sgx_timer_Q)`, whose result the callers only log. -/
def timerPop (s : Timers) (mem : Option (ℕ → ℕ)) : Option Timers := do
  let (_, q) ← sgxPriorityQueuePop (timerCmp s.nodes) s.sgxTimerQ mem
  some { s with sgxTimerQ := q, pops := (s.nodes, s.sgxTimerQ) :: s.pops }

def findLoop : ℕ → Timers → (ℕ → ℕ) → (ℕ → Option (ℕ → ℕ)) → Option (ℤ × Timers)
  | 0, _, _, _ => none
  | fuel + 1, s, now, mem =>
    if sgxPriorityQueueEmpty s.sgxTimerQ then some (sgxTimerInfinite, s)
    else do
      let s := timerUpdate s (now 0)
      let node ← sgxPriorityQueueTop s.sgxTimerQ
      if (s.nodes node).del ≠ 0 then
        let s ← timerPop s (mem 0)
        findLoop fuel s (fun i => now (i + 1)) (fun i => mem (i + 1))
      else
        let time := cInt (sizeSub (s.nodes node).key s.sgxCurrentMsec)
        some (if time > 0 then time else 0, s)

/-- `now` and `mem` list the readings of the clock and what the allocator does, one for each round;
a round that goes on takes one element from the queue. -/
def sgxTimerFind (s : Timers) (now : ℕ → ℕ) (mem : ℕ → Option (ℕ → ℕ)) : Option (ℤ × Timers) :=
  findLoop (s.sgxTimerQ.size + 1) s now mem

/-- The node is allocated; the result is that of `sgx_priority_queue_push`, which is only logged. -/
def sgxTimerAdd (s : Timers) (request timeout : ℕ) (handler : Option ℕ) (now : ℕ)
    (mem : Option (ℕ → ℕ)) : Option (ℤ × Timers) := do
  let node := s.next
  let s := timerUpdate s now
  let s := { s with
    nodes := Function.update s.nodes node
      { key := sizeAdd s.sgxCurrentMsec timeout, del := 0, handler := handler, request := request }
    next := node + 1
    timer := Function.update s.timer request (some node) }
  let (result, q) ← sgxPriorityQueuePush (timerCmp s.nodes) s.sgxTimerQ node mem
  some (result, { s with sgxTimerQ := q })

def sgxTimerDel (s : Timers) (request now : ℕ) : Option Timers := do
  let s := timerUpdate s now
  let node ← s.timer request
  some { s with nodes := Function.update s.nodes node { s.nodes node with del := 1 } }

def callHandler (s : Timers) (node : ℕ) : Timers :=
  if (s.nodes node).handler.isSome then { s with calls := node :: s.calls } else s

def expireLoop : ℕ → Timers → (ℕ → ℕ) → (ℕ → Option (ℕ → ℕ)) → Option Timers
  | 0, _, _, _ => none
  | fuel + 1, s, now, mem =>
    if sgxPriorityQueueEmpty s.sgxTimerQ then some s
    else do
      let s := timerUpdate s (now 0)
      let node ← sgxPriorityQueueTop s.sgxTimerQ
      if (s.nodes node).del ≠ 0 then
        let s ← timerPop s (mem 0)
        expireLoop fuel s (fun i => now (i + 1)) (fun i => mem (i + 1))
      else if (s.nodes node).key > s.sgxCurrentMsec then some s
      else
        let s ← timerPop (callHandler s node) (mem 0)
        expireLoop fuel s (fun i => now (i + 1)) (fun i => mem (i + 1))

def sgxHandleExpireTimers (s : Timers) (now : ℕ → ℕ) (mem : ℕ → Option (ℕ → ℕ)) : Option Timers :=
  expireLoop (s.sgxTimerQ.size + 1) s now mem

end Sginx.Timer
