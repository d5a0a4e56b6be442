import Sginx.PriorityQueueCapacity

namespace Sginx.PriorityQueue

open Sginx.Library.ImplicitHeap

variable {α : Type}

/-- Weaker than `QueueWf`: it holds also when the byte count of the first array wraps. -/
structure SlotsHold (q : SgxPriorityQueue α) : Prop where
  size_lt : q.size = 0 ∨ q.size < q.slots
  bytes_le : sizeofPtr * q.slots ≤ ptrdiffMax

theorem SlotsHold.slots_lt {q : SgxPriorityQueue α} (h : SlotsHold q) : q.slots < 2 ^ 60 := by
  have := h.bytes_le
  simp only [sizeofPtr, ptrdiffMax] at this
  omega

theorem malloc_bytes {bytes : ℕ} {mem : Option (ℕ → α)} {fresh : ℕ → α}
    (h : malloc bytes mem = some fresh) : sizeofPtr * (bytes / sizeofPtr) ≤ ptrdiffMax := by
  rw [malloc] at h
  split_ifs at h with hp
  exact (Nat.mul_div_le bytes sizeofPtr).trans hp

theorem init_holds {maxSize : ℕ} {mem : Option (ℕ → α)} {q : SgxPriorityQueue α}
    (h : sgxPriorityQueueInit maxSize mem = some q) : SlotsHold q := by
  obtain ⟨fresh, hm, rfl⟩ := Option.map_eq_some_iff.mp h
  exact ⟨.inl rfl, malloc_bytes hm⟩

theorem resize_returns {q q' : SgxPriorityQueue α} {newSize : ℕ} {mem : Option (ℕ → α)} {result : ℤ}
    (h : priorityQueueResize q newSize mem = some (result, q')) :
    result = -1 ∧ q' = q ∨
      result = sgxOk ∧ q'.size = q.size ∧ (∀ i ≤ q.size, q'.node i = q.node i) ∧
        q'.size < q'.slots ∧ sizeofPtr * q'.slots ≤ ptrdiffMax := by
  rw [priorityQueueResize] at h
  split_ifs at h with hsmall
  · simp only [Option.some.injEq, Prod.mk.injEq] at h
    exact .inl ⟨h.1.symm, h.2.symm⟩
  cases hm : malloc (sizeMul sizeofPtr newSize) mem with
  | none =>
    simp only [hm, Option.some.injEq, Prod.mk.injEq] at h
    exact .inl ⟨h.1.symm, h.2.symm⟩
  | some fresh =>
    simp only [hm] at h
    split_ifs at h with hcopy
    simp only [Option.some.injEq, Prod.mk.injEq] at h
    obtain ⟨rfl, rfl⟩ := h
    refine .inr ⟨rfl, rfl, ?_, hcopy.2, malloc_bytes hm⟩
    intro i hi
    exact if_pos (by omega)

theorem push_returns (cmp : α → α → Bool) {q q' : SgxPriorityQueue α} (hs : SlotsHold q) {v : α}
    {mem : Option (ℕ → α)} {result : ℤ}
    (h : sgxPriorityQueuePush cmp q v mem = some (result, q')) :
    result = -1 ∧ q' = q ∨
      result = sgxOk ∧ ∃ q₁, q' = inserted cmp q₁ v ∧ SlotsHold q' ∧ q₁.size = q.size ∧
        ∀ i ≤ q.size, q₁.node i = q.node i := by
  have hadd : sizeAdd q.size 1 = q.size + 1 := by
    have := hs.slots_lt
    have := hs.size_lt
    exact sizeAdd_of_lt (by simp only [sizeMod]; omega)
  have hplace (q₁ : SgxPriorityQueue α) (hs₁ : q₁.size = q.size)
      (hb₁ : sizeofPtr * q₁.slots ≤ ptrdiffMax)
      (hins : (({ q₁ with size := q.size + 1 } : SgxPriorityQueue α).store (q.size + 1) v).bind
        (fun q' => (priorityQueueUp cmp q' q'.size).bind fun q'' => some (sgxOk, q'')) =
          some (result, q')) :
      result = sgxOk ∧ q' = inserted cmp q₁ v ∧ SlotsHold q' := by
    by_cases hroom : q₁.size + 1 < q₁.slots
    · have := insert_eq cmp hroom v
      rw [hs₁, hins] at this
      simp only [Option.some.injEq, Prod.mk.injEq] at this
      obtain ⟨rfl, rfl⟩ := this
      exact ⟨rfl, rfl, .inr hroom, hb₁⟩
    · rw [hs₁] at hroom
      simp [SgxPriorityQueue.store, hroom] at hins
  rw [sgxPriorityQueuePush, hadd] at h
  by_cases hfull : q.size + 1 = q.maxSize
  · rw [if_pos hfull] at h
    cases hr : priorityQueueResize q (sizeShl q.maxSize 1) mem with
    | none => simp [hr] at h
    | some p =>
      obtain ⟨result₁, q₁⟩ := p
      rcases resize_returns hr with ⟨rfl, rfl⟩ | ⟨rfl, hs₁, hn₁, -, hb₁⟩
      · left
        simpa [hr, eq_comm] using h
      · right
        simp only [hr, Option.bind_eq_bind, Option.bind_some, sgxOk, lt_self_iff_false, ↓reduceIte,
          hs₁, hadd] at h
        obtain ⟨h1, h2, h3⟩ := hplace q₁ hs₁ hb₁ h
        exact ⟨h1, q₁, h2, h3, hs₁, hn₁⟩
  · right
    simp only [hfull, ↓reduceIte, Option.bind_eq_bind, Option.bind_some, sgxOk, lt_self_iff_false,
      hadd] at h
    obtain ⟨h1, h2, h3⟩ := hplace q rfl hs.bytes_le h
    exact ⟨h1, q, h2, h3, rfl, fun _ _ => rfl⟩

theorem pop_returns (cmp : α → α → Bool) {q q' : SgxPriorityQueue α} (hs : SlotsHold q)
    (h0 : 0 < q.size) {mem : Option (ℕ → α)} {result : ℤ}
    (h : sgxPriorityQueuePop cmp q mem = some (result, q')) :
    SlotsHold q' ∧ q'.size = q.size - 1 ∧ ∀ i ≤ q.size - 1, q'.node i = (popped cmp q).node i := by
  have hlt : q.size < q.slots := by
    have := hs.size_lt
    omega
  have hpopped : SlotsHold (popped cmp q) := ⟨.inr (by simp only [popped]; omega), hs.bytes_le⟩
  have hempty := nonempty_iff.mpr h0
  rw [pop_eq_popDown, hempty, popDown_eq cmp h0 hlt hs.slots_lt] at h
  simp only [Bool.false_eq_true, ↓reduceIte, Option.bind_some] at h
  split_ifs at h with hshrink
  · cases hr : priorityQueueResize (popped cmp q) ((popped cmp q).maxSize >>> 1) mem with
    | none => simp [hr] at h
    | some p =>
      obtain ⟨result₁, q₁⟩ := p
      have hq : q' = q₁ := by
        by_cases hneg : result₁ < 0
        · simp only [hr, Option.bind_eq_bind, Option.bind_some, hneg, ↓reduceIte,
            Option.some.injEq, Prod.mk.injEq] at h
          exact h.2.symm
        · simp only [hr, Option.bind_eq_bind, Option.bind_some, hneg, ↓reduceIte,
            Option.some.injEq, Prod.mk.injEq] at h
          exact h.2.symm
      subst hq
      rcases resize_returns hr with ⟨-, rfl⟩ | ⟨-, hs₁, hn₁, hlt₁, hb₁⟩
      · exact ⟨hpopped, rfl, fun _ _ => rfl⟩
      · exact ⟨⟨.inr hlt₁, hb₁⟩, hs₁, hn₁⟩
  · simp only [Option.some.injEq, Prod.mk.injEq] at h
    obtain ⟨-, rfl⟩ := h
    exact ⟨hpopped, rfl, fun _ _ => rfl⟩

theorem top_eq_of_holds {q : SgxPriorityQueue α} (hs : SlotsHold q) (h0 : 0 < q.size) :
    sgxPriorityQueueTop q = some (q.node 1) := by
  have hslot : 1 < q.slots := by
    have := hs.size_lt
    omega
  simp [sgxPriorityQueueTop, sgxPriorityQueueEmpty, SgxPriorityQueue.load, hslot,
    show q.size ≠ 0 by omega]

theorem pop_holds (cmp : α → α → Bool) {q q' : SgxPriorityQueue α} (hs : SlotsHold q)
    {mem : Option (ℕ → α)} {result : ℤ}
    (h : sgxPriorityQueuePop cmp q mem = some (result, q')) : SlotsHold q' := by
  by_cases h0 : 0 < q.size
  · exact (pop_returns cmp hs h0 h).1
  · simp only [pop_empty cmp h0, Option.some.injEq, Prod.mk.injEq] at h
    rwa [← h.2]

theorem call_holds (cmp : α → α → Bool) {q q' : SgxPriorityQueue α} (hs : SlotsHold q)
    (call : QueueCall α) (h : call.apply cmp q = some q') : SlotsHold q' := by
  cases call with
  | push v mem =>
    obtain ⟨⟨result, q₁⟩, hpush, rfl⟩ := Option.map_eq_some_iff.mp h
    rcases push_returns cmp hs hpush with ⟨-, rfl⟩ | ⟨-, _, -, hs', -⟩
    · exact hs
    · exact hs'
  | pop mem =>
    obtain ⟨⟨result, q₁⟩, hpop, rfl⟩ := Option.map_eq_some_iff.mp h
    exact pop_holds cmp hs hpop
  | clear mem =>
    revert h
    simp only [QueueCall.apply, sgxPriorityQueueClear]
    generalize q.size = fuel
    intro h
    induction fuel generalizing q mem with
    | zero =>
      rw [clearLoop, Option.some.injEq] at h
      rwa [← h]
    | succ fuel ih =>
      rw [clearLoop] at h
      split_ifs at h
      · rw [Option.some.injEq] at h
        rwa [← h]
      · obtain ⟨⟨result, q₁⟩, hpop, hrest⟩ := Option.bind_eq_some_iff.mp h
        exact ih (pop_holds cmp hs hpop) _ hrest

theorem calls_hold {q q' : SgxPriorityQueue α} (hs : SlotsHold q)
    (calls : List ((α → α → Bool) × QueueCall α)) (h : runCalls q calls = some q') :
    SlotsHold q' := by
  induction calls generalizing q with
  | nil =>
    rw [runCalls, Option.some.injEq] at h
    rwa [← h]
  | cons call calls ih =>
    obtain ⟨q₁, hcall, hrest⟩ := Option.bind_eq_some_iff.mp h
    exact ih (call_holds call.1 hs call.2 hcall) hrest

theorem contents_are_kept {maxSize : ℕ} {mem : Option (ℕ → α)} {q₀ q : SgxPriorityQueue α}
    (hi : sgxPriorityQueueInit maxSize mem = some q₀)
    (calls : List ((α → α → Bool) × QueueCall α)) (hr : runCalls q₀ calls = some q)
    (cmp : α → α → Bool) (mem' : Option (ℕ → α)) :
    (∀ v result q', sgxPriorityQueuePush cmp q v mem' = some (result, q') →
      result = sgxOk ∧ stored q' = v ::ₘ stored q ∨ result = -1 ∧ stored q' = stored q) ∧
    (∀ result q', 0 < q.size → sgxPriorityQueuePop cmp q mem' = some (result, q') →
      ∃ x, sgxPriorityQueueTop q = some x ∧ x ::ₘ stored q' = stored q) ∧
    (1 ≤ maxSize → sizeofPtr * (maxSize + 1) < sizeMod →
      (∀ v, (sgxPriorityQueuePush cmp q v mem').isSome) ∧
        (sgxPriorityQueuePop cmp q mem').isSome) := by
  have hs := calls_hold (init_holds hi) calls hr
  refine ⟨?_, ?_, ?_⟩
  · intro v result q' hpush
    rcases push_returns cmp hs hpush with ⟨rfl, rfl⟩ | ⟨rfl, q₁, rfl, -, hs₁, hn₁⟩
    · exact .inr ⟨rfl, rfl⟩
    · exact .inl ⟨rfl, inserted_stored cmp hs₁ hn₁ v⟩
  · intro result q' h0 hpop
    obtain ⟨-, hs', hn'⟩ := pop_returns cmp hs h0 hpop
    exact ⟨q.node 1, top_eq_of_holds hs h0, pop_stored cmp h0 hs' hn'⟩
  · intro h1 hb
    obtain ⟨q₁, hr₁, hw⟩ := calls_wf (init_wf h1 hb hi).1 calls
    rw [hr, Option.some.injEq] at hr₁
    subst hr₁
    constructor
    · intro v
      obtain ⟨result, q', h, -⟩ := apply_wf cmp hw (.push v mem')
      simp only [QueueOp.apply] at h
      simp [h]
    · obtain ⟨result, q', h, -⟩ := pop_wf cmp hw mem'
      simp [h]

theorem contents_are_kept_size_one : ∃ q₀ q q' : SgxPriorityQueue ℤ,
    sgxPriorityQueueInit 1 (some fun _ => 0) = some q₀ ∧
      runCalls q₀ [(fun _ _ => true, .push 4 none), (fun _ _ => true, .push 7 (some fun _ => 0))] =
        some q ∧
      sgxPriorityQueuePop (fun _ _ => false) q none = some (sgxOk, q') ∧
      ∃ x, sgxPriorityQueueTop q = some x ∧ x ::ₘ stored q' = stored q := by
  refine ⟨_, _, _, rfl, rfl, rfl, ?_⟩
  apply (@contents_are_kept ℤ 1 (some fun _ => 0) _ _ rfl [(fun _ _ => true, .push 4 none),
    (fun _ _ => true, .push 7 (some fun _ => 0))] rfl (fun _ _ => false) none).2.1 sgxOk
  · decide
  · rfl

end Sginx.PriorityQueue
