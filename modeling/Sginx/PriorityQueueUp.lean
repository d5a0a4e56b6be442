import Sginx.PriorityQueueRuns

namespace Sginx.PriorityQueue

open Sginx.Library.ImplicitHeap

variable {α : Type}

inductive UpRuns (cmp : α → α → Bool) : SgxPriorityQueue α → ℕ → SgxPriorityQueue α → Prop
  | root {q : SgxPriorityQueue α} {index : ℕ} (h : ¬ 1 < index) : UpRuns cmp q index q
  | stop {q : SgxPriorityQueue α} {index : ℕ} {x y : α} (h : 1 < index)
    (hx : q.load index = some x) (hy : q.load (index >>> 1) = some y) (hc : ¬ cmp x y) :
    UpRuns cmp q index q
  | swap {q q₁ q' : SgxPriorityQueue α} {index : ℕ} {x y : α} (h : 1 < index)
    (hx : q.load index = some x) (hy : q.load (index >>> 1) = some y) (hc : cmp x y)
    (hswap : priorityQueueSwap q index (index >>> 1) = some q₁)
    (hrest : UpRuns cmp q₁ (index >>> 1) q') : UpRuns cmp q index q'

theorem upRuns_of_upLoop {cmp : α → α → Bool} {fuel : ℕ} {q q' : SgxPriorityQueue α} {index : ℕ}
    (hfuel : index ≤ fuel) (h : upLoop cmp fuel q index = some q') : UpRuns cmp q index q' := by
  induction fuel generalizing q index with
  | zero =>
    obtain rfl := Option.some.inj h
    exact .root (by omega)
  | succ fuel ih =>
    rw [upLoop] at h
    split_ifs at h with h1
    · obtain ⟨x, hx, h⟩ := Option.bind_eq_some_iff.mp h
      obtain ⟨y, hy, h⟩ := Option.bind_eq_some_iff.mp h
      split_ifs at h with hc
      · obtain ⟨q₁, hswap, h⟩ := Option.bind_eq_some_iff.mp h
        have hhalf : index >>> 1 ≤ fuel := by
          rw [Nat.shiftRight_one]
          omega
        exact .swap h1 hx hy hc hswap (ih hhalf h)
      · obtain rfl := Option.some.inj h
        exact .stop h1 hx hy hc
    · obtain rfl := Option.some.inj h
      exact .root h1

theorem up_restores_heap (cmp : α → α → Bool) [IsStrictWeakOrder α (fun x y => cmp x y = true)]
    {q : SgxPriorityQueue α} (hslots : q.size < q.slots) (ho : Ordered cmp q.node (q.size - 1)) :
    ∃ σ : Equiv.Perm ℕ, (∀ k, ¬ OnPath q.size k → σ k = k) ∧
      ∃ q', q' = { q with node := q.node ∘ σ } ∧ priorityQueueUp cmp q q.size = some q' ∧
        UpRuns cmp q q.size q' ∧ HeapOrdered cmp q' ∧ stored q' = stored q := by
  obtain ⟨σ, hpath, hsift⟩ := siftUp_perm cmp q.size q.node q.size
  have hup := up_eq cmp hslots
  rw [hsift] at hup
  refine ⟨σ, hpath, _, rfl, hup, upRuns_of_upLoop (le_refl _) hup, ?_, ?_⟩
  · rcases Nat.eq_zero_or_pos q.size with h0 | h1
    · intro i h2 hi
      have hi : i ≤ q.size := hi
      omega
    · have hordered := siftUp_ordered cmp q.size q.node q.size q.size ho.upReady h1 (le_refl _)
        (le_refl _)
      rwa [hsift] at hordered
  · rcases Nat.eq_zero_or_pos q.size with h0 | h1
    · have hnone : stored q = 0 := stored_eq_zero h0
      rw [hnone]
      exact stored_eq_zero h0
    · have hcontents := siftUp_contents cmp q.size q.node q.size q.size h1 (le_refl _)
      rwa [hsift] at hcontents

def lastIsFirst : SgxPriorityQueue ℤ :=
  ⟨fun i => if i = 3 then 9 else if i = 2 then 3 else 5, 3, 4, 4, 0, []⟩

theorem up_restores_heap_three_values : ∃ q', priorityQueueUp sgxPriorityQueueGreater lastIsFirst 3 =
    some q' ∧ HeapOrdered sgxPriorityQueueGreater q' ∧ q'.node 1 = 9 := by
  have ho : Ordered sgxPriorityQueueGreater lastIsFirst.node (lastIsFirst.size - 1) := by
    intro i h2 hi
    have hi : i ≤ 2 := hi
    obtain rfl : i = 2 := by omega
    decide
  obtain ⟨σ, -, q', -, hup, -, hheap, -⟩ :=
    up_restores_heap sgxPriorityQueueGreater (show lastIsFirst.size < lastIsFirst.slots by decide) ho
  refine ⟨q', hup, hheap, ?_⟩
  obtain rfl := Option.some.inj hup
  rfl

end Sginx.PriorityQueue
