import Sginx.PriorityQueueRuns

namespace Sginx.PriorityQueue

variable {α : Type}

section comparator

variable (cmp : α → α → Bool)

/-- Every round removes an element, so `size` bounds the number of rounds. `mem` gives what the
allocator does in each of them. -/
def clearLoop : ℕ → SgxPriorityQueue α → (ℕ → Option (ℕ → α)) → Option (SgxPriorityQueue α)
  | 0, q, _ => some q
  | fuel + 1, q, mem =>
    if sgxPriorityQueueEmpty q then some q
    else do
      let (_, q) ← sgxPriorityQueuePop cmp q (mem 0)
      clearLoop fuel q fun i => mem (i + 1)

def sgxPriorityQueueClear (q : SgxPriorityQueue α) (mem : ℕ → Option (ℕ → α)) :
    Option (SgxPriorityQueue α) :=
  clearLoop cmp q.size q mem

/-- `sgx_priority_queue_pop` up to the test that shrinks the array. -/
def popDown (q : SgxPriorityQueue α) : Option (SgxPriorityQueue α) := do
  let q ← priorityQueueSwap q 1 q.size
  let q := { q with freed := .slot q.array q.size :: q.freed, size := sizeSub q.size 1 }
  let (_, q) ← priorityQueueDown cmp q 1
  some q

def pushResizes (q : SgxPriorityQueue α) : List (ℕ × ℕ) :=
  if sizeAdd q.size 1 = q.maxSize then [(q.size, sizeShl q.maxSize 1)] else []

def popResizes (q : SgxPriorityQueue α) : List (ℕ × ℕ) :=
  if sgxPriorityQueueEmpty q then []
  else
    match popDown cmp q with
    | none => []
    | some q =>
      if 0 < q.size ∧ q.size ≤ sizeSub q.maxSize 1 >>> 2 then [(q.size, q.maxSize >>> 1)] else []

def clearResizes : ℕ → SgxPriorityQueue α → (ℕ → Option (ℕ → α)) → List (ℕ × ℕ)
  | 0, _, _ => []
  | fuel + 1, q, mem =>
    if sgxPriorityQueueEmpty q then []
    else
      popResizes cmp q ++
        match sgxPriorityQueuePop cmp q (mem 0) with
        | none => []
        | some (_, q) => clearResizes fuel q fun i => mem (i + 1)

end comparator

inductive QueueCall (α : Type) where
  | push (value : α) (mem : Option (ℕ → α))
  | pop (mem : Option (ℕ → α))
  | clear (mem : ℕ → Option (ℕ → α))

def QueueCall.apply (cmp : α → α → Bool) (q : SgxPriorityQueue α) :
    QueueCall α → Option (SgxPriorityQueue α)
  | .push value mem => (sgxPriorityQueuePush cmp q value mem).map Prod.snd
  | .pop mem => (sgxPriorityQueuePop cmp q mem).map Prod.snd
  | .clear mem => sgxPriorityQueueClear cmp q mem

def QueueCall.resizes (cmp : α → α → Bool) (q : SgxPriorityQueue α) : QueueCall α → List (ℕ × ℕ)
  | .push _ _ => pushResizes q
  | .pop _ => popResizes cmp q
  | .clear mem => clearResizes cmp q.size q mem

/-- What the comparator answers may change from one call to the next. -/
def runCalls : SgxPriorityQueue α → List ((α → α → Bool) × QueueCall α) →
    Option (SgxPriorityQueue α)
  | q, [] => some q
  | q, (cmp, call) :: calls => do
    let q ← call.apply cmp q
    runCalls q calls

theorem pop_eq_popDown (cmp : α → α → Bool) (q : SgxPriorityQueue α) (mem : Option (ℕ → α)) :
    sgxPriorityQueuePop cmp q mem =
      if sgxPriorityQueueEmpty q then some (sgxOk, q)
      else (popDown cmp q).bind fun q =>
        if 0 < q.size ∧ q.size ≤ sizeSub q.maxSize 1 >>> 2 then do
          let (result, q) ← priorityQueueResize q (q.maxSize >>> 1) mem
          if result < 0 then some (-1, q) else some (sgxOk, q)
        else some (sgxOk, q) := by
  unfold sgxPriorityQueuePop popDown
  simp only [Option.bind_eq_bind, Option.bind_assoc, Option.bind_some]

theorem popDown_eq (cmp : α → α → Bool) {q : SgxPriorityQueue α} (h0 : 0 < q.size)
    (hs : q.size < q.slots) (hb : q.slots < 2 ^ 60) : popDown cmp q = some (popped cmp q) := by
  obtain ⟨index, hdown⟩ := @down_eq α cmp { q with
    node := q.node ∘ Equiv.swap 1 q.size
    size := q.size - 1
    freed := .slot q.array q.size :: q.freed } (by simp only; omega) hb
  rw [popDown, swap_eq (by omega) hs]
  simp only [Option.bind_eq_bind, Option.bind_some, sizeSub_of_le h0, hdown, popped]

theorem pushResizes_lt {q : SgxPriorityQueue α} (hw : QueueWf q) :
    ∀ r ∈ pushResizes q, r.1 < r.2 := by
  have hlt := hw.slots_lt
  have hmax := hw.max_le
  have hsize := hw.size_lt
  unfold pushResizes
  split_ifs
  · simp only [List.forall_mem_singleton]
    rw [sizeShl_of_lt (by simp only [sizeMod]; omega)]
    omega
  · exact List.forall_mem_nil _

theorem popResizes_lt (cmp : α → α → Bool) {q : SgxPriorityQueue α} (hw : QueueWf q) :
    ∀ r ∈ popResizes cmp q, r.1 < r.2 := by
  have hlt := hw.slots_lt
  have hmax := hw.max_le
  have hsize := hw.size_lt
  unfold popResizes
  split_ifs with he
  · exact List.forall_mem_nil _
  have h0 : 0 < q.size := nonempty_iff.mp (Bool.eq_false_of_not_eq_true he)
  rw [popDown_eq cmp h0 (by omega) hlt]
  dsimp only
  split_ifs with hshrink
  · simp only [List.forall_mem_singleton]
    obtain ⟨hpos, hquarter⟩ := hshrink
    have hm : (popped cmp q).maxSize = q.maxSize := rfl
    rw [hm, sizeSub_of_le (by omega), Nat.shiftRight_eq_div_pow] at hquarter
    rw [hm, Nat.shiftRight_eq_div_pow]
    omega
  · exact List.forall_mem_nil _

theorem pop_wf (cmp : α → α → Bool) {q : SgxPriorityQueue α} (hw : QueueWf q)
    (mem : Option (ℕ → α)) : ∃ result q', sgxPriorityQueuePop cmp q mem = some (result, q') ∧
      QueueWf q' ∧ q'.size = q.size - 1 := by
  by_cases h0 : 0 < q.size
  · obtain ⟨result, q', h, hw', hs, -⟩ := pop_cases cmp hw h0 mem
    exact ⟨result, q', h, hw', hs⟩
  · exact ⟨sgxOk, q, pop_empty cmp h0 mem, hw, by omega⟩

theorem clearLoop_wf (cmp : α → α → Bool) (fuel : ℕ) {q : SgxPriorityQueue α} (hw : QueueWf q)
    (mem : ℕ → Option (ℕ → α)) : ∃ q', clearLoop cmp fuel q mem = some q' ∧ QueueWf q' ∧
      q'.size = q.size - fuel := by
  induction fuel generalizing q mem with
  | zero => exact ⟨q, rfl, hw, rfl⟩
  | succ fuel ih =>
    rw [clearLoop]
    split_ifs with he
    · have h0 := empty_iff.mp he
      exact ⟨q, rfl, hw, by omega⟩
    · obtain ⟨result, q₁, hpop, hw₁, hs₁⟩ := pop_wf cmp hw (mem 0)
      obtain ⟨q', hrun, hw', hs'⟩ := ih hw₁ fun i => mem (i + 1)
      exact ⟨q', by simpa [hpop] using hrun, hw', by omega⟩

theorem clear_wf (cmp : α → α → Bool) {q : SgxPriorityQueue α} (hw : QueueWf q)
    (mem : ℕ → Option (ℕ → α)) :
    ∃ q', sgxPriorityQueueClear cmp q mem = some q' ∧ QueueWf q' ∧ q'.size = 0 := by
  obtain ⟨q', h, hw', hs⟩ := clearLoop_wf cmp q.size hw mem
  exact ⟨q', h, hw', by omega⟩

theorem clearLoop_eq_pops (cmp : α → α → Bool) (fuel : ℕ) (q : SgxPriorityQueue α)
    (mem : ℕ → Option (ℕ → α)) : clearLoop cmp fuel q mem =
      runCalls q ((List.range fuel).map fun i => (cmp, .pop (mem i))) := by
  induction fuel generalizing q mem with
  | zero => rfl
  | succ fuel ih =>
    rw [clearLoop, List.range_succ_eq_map, List.map_cons, List.map_map, runCalls]
    split_ifs with he
    · have h0 := empty_iff.mp he
      have hrest := ih q fun i => mem (i + 1)
      have hstop : clearLoop cmp fuel q (fun i => mem (i + 1)) = some q := by
        cases fuel with
        | zero => rfl
        | succ fuel => rw [clearLoop, if_pos he]
      simp only [QueueCall.apply, pop_empty cmp h0, Option.map_some, Option.bind_eq_bind,
        Option.bind_some]
      exact hstop.symm.trans hrest
    · simp only [QueueCall.apply, Option.bind_eq_bind, Option.bind_map]
      congr 1
      funext r
      exact ih r.2 fun i => mem (i + 1)

theorem clearResizes_lt (cmp : α → α → Bool) (fuel : ℕ) {q : SgxPriorityQueue α} (hw : QueueWf q)
    (mem : ℕ → Option (ℕ → α)) : ∀ r ∈ clearResizes cmp fuel q mem, r.1 < r.2 := by
  induction fuel generalizing q mem with
  | zero => exact List.forall_mem_nil _
  | succ fuel ih =>
    rw [clearResizes]
    split_ifs with he
    · exact List.forall_mem_nil _
    · obtain ⟨result, q₁, hpop, hw₁, -⟩ := pop_wf cmp hw (mem 0)
      simp only [hpop, List.forall_mem_append]
      exact ⟨popResizes_lt cmp hw, ih hw₁ _⟩

theorem call_wf (cmp : α → α → Bool) {q : SgxPriorityQueue α} (hw : QueueWf q)
    (call : QueueCall α) : ∃ q', call.apply cmp q = some q' ∧ QueueWf q' := by
  cases call with
  | push v mem =>
    obtain ⟨result, q', h, hw'⟩ := apply_wf cmp hw (.push v mem)
    simp only [QueueOp.apply] at h
    exact ⟨q', by simp [QueueCall.apply, h], hw'⟩
  | pop mem =>
    obtain ⟨result, q', h, hw', -⟩ := pop_wf cmp hw mem
    exact ⟨q', by simp [QueueCall.apply, h], hw'⟩
  | clear mem =>
    obtain ⟨q', h, hw', -⟩ := clear_wf cmp hw mem
    exact ⟨q', h, hw'⟩

theorem calls_wf {q : SgxPriorityQueue α} (hw : QueueWf q)
    (calls : List ((α → α → Bool) × QueueCall α)) : ∃ q', runCalls q calls = some q' ∧ QueueWf q' := by
  induction calls generalizing q with
  | nil => exact ⟨q, rfl, hw⟩
  | cons call calls ih =>
    obtain ⟨q', h, hw'⟩ := call_wf call.1 hw call.2
    simpa [runCalls, h] using ih hw'

theorem resizes_lt (cmp : α → α → Bool) {q : SgxPriorityQueue α} (hw : QueueWf q)
    (call : QueueCall α) : ∀ r ∈ call.resizes cmp q, r.1 < r.2 := by
  cases call with
  | push v mem => exact pushResizes_lt hw
  | pop mem => exact popResizes_lt cmp hw
  | clear mem => exact clearResizes_lt cmp q.size hw mem

theorem capacity_is_safe {maxSize : ℕ} (h1 : 1 ≤ maxSize)
    (hb : sizeofPtr * (maxSize + 1) < sizeMod) {mem : Option (ℕ → α)} {q₀ : SgxPriorityQueue α}
    (hi : sgxPriorityQueueInit maxSize mem = some q₀)
    (calls : List ((α → α → Bool) × QueueCall α)) :
    ∃ q, runCalls q₀ calls = some q ∧ q.size + 1 ≤ q.maxSize ∧ q.maxSize ≤ q.slots ∧
      ∀ cmp (call : QueueCall α), ∀ r ∈ call.resizes cmp q, r.1 < r.2 := by
  obtain ⟨q, hrun, hw⟩ := calls_wf (init_wf h1 hb hi).1 calls
  exact ⟨q, hrun, hw.size_lt, hw.max_le, fun cmp call => resizes_lt cmp hw call⟩

theorem capacity_is_safe_odd_size : ∃ q₀ q : SgxPriorityQueue ℤ,
    sgxPriorityQueueInit 3 (some fun _ => 0) = some q₀ ∧
      runCalls q₀ [(sgxPriorityQueueGreater, .push 1 none), (sgxPriorityQueueGreater, .push 2 none),
        (sgxPriorityQueueGreater, .push 3 (some fun _ => 0)),
        (sgxPriorityQueueGreater, .clear fun _ => none)] = some q ∧
      q.size + 1 ≤ q.maxSize ∧ q.maxSize ≤ q.slots ∧
      ∀ cmp (call : QueueCall ℤ), ∀ r ∈ call.resizes cmp q, r.1 < r.2 := by
  obtain ⟨q, h⟩ := capacity_is_safe (by decide) (by decide)
    (rfl : sgxPriorityQueueInit 3 (some fun _ => (0 : ℤ)) = some _)
    [(sgxPriorityQueueGreater, .push 1 none), (sgxPriorityQueueGreater, .push 2 none),
      (sgxPriorityQueueGreater, .push 3 (some fun _ => 0)),
      (sgxPriorityQueueGreater, .clear fun _ => none)]
  exact ⟨_, q, rfl, h⟩

end Sginx.PriorityQueue
