import Sginx.PriorityQueueContents

namespace Sginx.PriorityQueue

variable {α : Type}

structure SameQueue (q q' : SgxPriorityQueue α) : Prop where
  size : q'.size = q.size
  maxSize : q'.maxSize = q.maxSize
  node : ∀ i, 1 ≤ i → i ≤ q.size → q'.node i = q.node i

def ResizeFails (q : SgxPriorityQueue α) (newSize : ℕ) (mem : Option (ℕ → α)) : Prop :=
  newSize ≤ q.size ∨ malloc (sizeMul sizeofPtr newSize) mem = none

def GrowFails (q : SgxPriorityQueue α) (mem : Option (ℕ → α)) : Prop :=
  sizeAdd q.size 1 = q.maxSize ∧ ResizeFails q (sizeShl q.maxSize 1) mem

def ShrinkFails (q : SgxPriorityQueue α) (mem : Option (ℕ → α)) : Prop :=
  0 < q.size - 1 ∧ q.size - 1 ≤ sizeSub q.maxSize 1 >>> 2 ∧
    (q.maxSize >>> 1 ≤ q.size - 1 ∨ malloc (sizeMul sizeofPtr (q.maxSize >>> 1)) mem = none)

theorem ok_is_not_failed {q q' : SgxPriorityQueue α} : some (sgxOk, q) ≠ some ((-1 : ℤ), q') := by
  intro h
  have hresult : sgxOk = -1 := congrArg Prod.fst (Option.some.inj h)
  exact absurd hresult (by decide)

theorem resize_of_fails {q : SgxPriorityQueue α} {newSize : ℕ} {mem : Option (ℕ → α)}
    (h : ResizeFails q newSize mem) : priorityQueueResize q newSize mem = some (-1, q) := by
  unfold priorityQueueResize
  by_cases hsmall : newSize ≤ q.size
  · rw [if_pos hsmall]
  · rw [if_neg hsmall, h.resolve_left hsmall]

theorem resize_fails_iff {q q' : SgxPriorityQueue α} {newSize : ℕ} {mem : Option (ℕ → α)}
    {result : ℤ} (h : priorityQueueResize q newSize mem = some (result, q')) :
    result = -1 ↔ ResizeFails q newSize mem := by
  constructor
  · rintro rfl
    by_contra hfails
    obtain ⟨hlarge, hmalloc⟩ := not_or.mp hfails
    obtain ⟨fresh, hfresh⟩ := Option.ne_none_iff_exists'.mp hmalloc
    unfold priorityQueueResize at h
    rw [if_neg hlarge, hfresh] at h
    dsimp only at h
    split_ifs at h
    exact absurd h ok_is_not_failed
  · intro hfails
    rw [resize_of_fails hfails] at h
    exact (congrArg Prod.fst (Option.some.inj h)).symm

theorem push_of_growFails (cmp : α → α → Bool) {q : SgxPriorityQueue α} {mem : Option (ℕ → α)}
    (h : GrowFails q mem) (v : α) : sgxPriorityQueuePush cmp q v mem = some (-1, q) := by
  unfold sgxPriorityQueuePush
  rw [if_pos h.1, resize_of_fails h.2]
  rfl

theorem push_fails_iff (cmp : α → α → Bool) {q q' : SgxPriorityQueue α} {v : α}
    {mem : Option (ℕ → α)} {result : ℤ}
    (h : sgxPriorityQueuePush cmp q v mem = some (result, q')) : result = -1 ↔ GrowFails q mem := by
  constructor
  · rintro rfl
    unfold sgxPriorityQueuePush at h
    by_cases hfull : sizeAdd q.size 1 = q.maxSize
    · refine ⟨hfull, ?_⟩
      simp only [hfull, ↓reduceIte] at h
      obtain ⟨⟨result, q₁⟩, hgrow, h⟩ := Option.bind_eq_some_iff.mp h
      rcases resize_returns hgrow with ⟨hfailed, -⟩ | ⟨rfl, -⟩
      · exact (resize_fails_iff hgrow).mp hfailed
      · obtain ⟨q₂, -, h⟩ := Option.bind_eq_some_iff.mp h
        obtain ⟨q₃, -, h⟩ := Option.bind_eq_some_iff.mp h
        exact absurd h ok_is_not_failed
    · simp only [hfull, ↓reduceIte] at h
      obtain ⟨_, ⟨⟩, h⟩ := Option.bind_eq_some_iff.mp h
      obtain ⟨q₂, -, h⟩ := Option.bind_eq_some_iff.mp h
      obtain ⟨q₃, -, h⟩ := Option.bind_eq_some_iff.mp h
      exact absurd h ok_is_not_failed
  · intro hfails
    rw [push_of_growFails cmp hfails] at h
    exact (congrArg Prod.fst (Option.some.inj h)).symm

theorem pop_eq_of_holds (cmp : α → α → Bool) {q : SgxPriorityQueue α} (hs : SlotsHold q)
    (h0 : 0 < q.size) (mem : Option (ℕ → α)) : sgxPriorityQueuePop cmp q mem =
      if 0 < q.size - 1 ∧ q.size - 1 ≤ sizeSub q.maxSize 1 >>> 2 then do
        let (result, q') ← priorityQueueResize (popped cmp q) (q.maxSize >>> 1) mem
        if result < 0 then some (-1, q') else some (sgxOk, q')
      else some (sgxOk, popped cmp q) := by
  have hlt : q.size < q.slots := hs.size_lt.resolve_left (Nat.ne_of_gt h0)
  have hempty := nonempty_iff.mpr h0
  rw [pop_eq_popDown, hempty, popDown_eq cmp h0 hlt hs.slots_lt]
  rfl

theorem pop_of_shrinkFails (cmp : α → α → Bool) {q : SgxPriorityQueue α} (hs : SlotsHold q)
    {mem : Option (ℕ → α)} (h : ShrinkFails q mem) :
    sgxPriorityQueuePop cmp q mem = some (-1, popped cmp q) := by
  obtain ⟨hpos, hquarter, hfails⟩ := h
  have hresize : priorityQueueResize (popped cmp q) (q.maxSize >>> 1) mem =
      some (-1, popped cmp q) := resize_of_fails hfails
  rw [pop_eq_of_holds cmp hs (by omega), if_pos ⟨hpos, hquarter⟩, hresize]
  rfl

theorem pop_fails_iff (cmp : α → α → Bool) {q q' : SgxPriorityQueue α} (hs : SlotsHold q)
    {mem : Option (ℕ → α)} {result : ℤ}
    (h : sgxPriorityQueuePop cmp q mem = some (result, q')) : result = -1 ↔ ShrinkFails q mem := by
  constructor
  · rintro rfl
    by_cases h0 : 0 < q.size
    swap
    · rw [pop_empty cmp h0] at h
      exact absurd h ok_is_not_failed
    rw [pop_eq_of_holds cmp hs h0] at h
    by_cases hshrink : 0 < q.size - 1 ∧ q.size - 1 ≤ sizeSub q.maxSize 1 >>> 2
    swap
    · rw [if_neg hshrink] at h
      exact absurd h ok_is_not_failed
    rw [if_pos hshrink] at h
    obtain ⟨⟨result, q₁⟩, hresize, h⟩ := Option.bind_eq_some_iff.mp h
    refine ⟨hshrink.1, hshrink.2, (resize_fails_iff hresize).mp ?_⟩
    dsimp only at h
    rcases resize_returns hresize with ⟨hfailed, -⟩ | ⟨rfl, -⟩
    · exact hfailed
    · exact absurd h ok_is_not_failed
  · intro hfails
    rw [pop_of_shrinkFails cmp hs hfails] at h
    exact (congrArg Prod.fst (Option.some.inj h)).symm

theorem failed_calls_change_nothing_iff {maxSize : ℕ} {mem : Option (ℕ → α)}
    {q₀ q : SgxPriorityQueue α} (hi : sgxPriorityQueueInit maxSize mem = some q₀)
    (calls : List ((α → α → Bool) × QueueCall α)) (hr : runCalls q₀ calls = some q)
    (cmp : α → α → Bool) (mem' : Option (ℕ → α)) :
    (∀ v q', sgxPriorityQueuePush cmp q v mem' = some (-1, q') → SameQueue q q') ∧
      ((∀ q', sgxPriorityQueuePop cmp q mem' = some (-1, q') → SameQueue q q') ↔
        ¬ ShrinkFails q mem') := by
  have hs := calls_hold (init_holds hi) calls hr
  refine ⟨?_, ?_, ?_⟩
  · intro v q' hpush
    rcases push_returns cmp hs hpush with ⟨-, rfl⟩ | ⟨hok, -⟩
    · exact ⟨rfl, rfl, fun _ _ _ => rfl⟩
    · exact absurd hok (by decide)
  · intro hsame hfails
    have hsize := (hsame _ (pop_of_shrinkFails cmp hs hfails)).size
    have hpos := hfails.1
    simp only [popped] at hsize
    omega
  · intro hfails q' hpop
    exact absurd ((pop_fails_iff cmp hs hpop).mp rfl) hfails

theorem failed_calls_change_nothing_iff_two_pushes : ∃ q₀ q : SgxPriorityQueue ℤ,
    sgxPriorityQueueInit 10 (some fun _ => 0) = some q₀ ∧
      runCalls q₀ [(sgxPriorityQueueGreater, .push 4 none),
        (sgxPriorityQueueGreater, .push 7 none)] = some q ∧
      ∀ q', sgxPriorityQueuePop sgxPriorityQueueGreater q (some fun _ => 0) = some (-1, q') →
        SameQueue q q' := by
  refine ⟨_, _, rfl, rfl, ?_⟩
  apply (@failed_calls_change_nothing_iff ℤ 10 (some fun _ => 0) _ _ rfl
    [(sgxPriorityQueueGreater, .push 4 none), (sgxPriorityQueueGreater, .push 7 none)] rfl
    sgxPriorityQueueGreater (some fun _ => 0)).2.mpr
  rintro ⟨-, -, hsmall | hmalloc⟩
  · exact absurd hsmall (by decide)
  · exact nomatch hmalloc

theorem failed_pop_has_removed : ∃ q₀ q q' : SgxPriorityQueue ℤ,
    sgxPriorityQueueInit 10 (some fun _ => 0) = some q₀ ∧
      runCalls q₀ [(sgxPriorityQueueGreater, .push 4 none),
        (sgxPriorityQueueGreater, .push 7 none)] = some q ∧
      sgxPriorityQueuePop sgxPriorityQueueGreater q none = some (-1, q') ∧
      q.size = 2 ∧ q.node 1 = 7 ∧ q'.size = 1 ∧ q'.node 1 = 4 ∧ ¬ SameQueue q q' := by
  refine ⟨_, _, _, rfl, rfl, rfl, rfl, rfl, rfl, rfl, ?_⟩
  intro hsame
  exact absurd hsame.size (by decide)

end Sginx.PriorityQueue
