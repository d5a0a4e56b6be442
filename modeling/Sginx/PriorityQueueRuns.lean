import Sginx.PriorityQueueOrder

namespace Sginx.PriorityQueue

open Sginx.Library.ImplicitHeap

variable {α : Type}

inductive QueueOp (α : Type) where
  | push (value : α) (mem : Option (ℕ → α))
  | pop (mem : Option (ℕ → α))

def sgxPriorityQueueGreater (x y : ℤ) : Bool := x > y

instance : IsStrictWeakOrder ℤ (fun x y => sgxPriorityQueueGreater x y = true) where
  irrefl x := by simp [sgxPriorityQueueGreater]
  trans x y z := by simp only [sgxPriorityQueueGreater, decide_eq_true_eq]; omega
  incomp_trans x y z := by simp only [sgxPriorityQueueGreater, decide_eq_true_eq]; omega

section comparator

variable (cmp : α → α → Bool)

def QueueOp.apply (q : SgxPriorityQueue α) : QueueOp α → Option (ℤ × SgxPriorityQueue α)
  | .push value mem => sgxPriorityQueuePush cmp q value mem
  | .pop mem => sgxPriorityQueuePop cmp q mem

def runOps : SgxPriorityQueue α → List (QueueOp α) → Option (SgxPriorityQueue α)
  | q, [] => some q
  | q, op :: ops => do
    let (_, q) ← op.apply cmp q
    runOps q ops

def PopsKeepLeft : SgxPriorityQueue α → List (QueueOp α) → Prop
  | _, [] => True
  | q, op :: ops => (∀ mem, op = .pop mem → PopKeepsLeft cmp q) ∧
      ∀ result q', op.apply cmp q = some (result, q') → PopsKeepLeft q' ops

def drain : SgxPriorityQueue α → List (Option (ℕ → α)) → Option (List α)
  | _, [] => some []
  | q, mem :: mems => do
    let x ← sgxPriorityQueueTop q
    let (_, q) ← sgxPriorityQueuePop cmp q mem
    let xs ← drain q mems
    some (x :: xs)

theorem top_eq {q : SgxPriorityQueue α} (hw : QueueWf q) (h0 : 0 < q.size) :
    sgxPriorityQueueTop q = some (q.node 1) := by
  have hslot : 1 < q.slots := by
    have := hw.size_lt
    have := hw.max_le
    omega
  simp [sgxPriorityQueueTop, sgxPriorityQueueEmpty, SgxPriorityQueue.load, hslot,
    show q.size ≠ 0 by omega]

theorem node_one_mem {q : SgxPriorityQueue α} (h0 : 0 < q.size) : q.node 1 ∈ stored q :=
  mem_contents.mpr ⟨1, le_refl 1, h0, rfl⟩

theorem pop_stored {q q' : SgxPriorityQueue α} (h0 : 0 < q.size) (hs : q'.size = q.size - 1)
    (hn : ∀ i ≤ q.size - 1, q'.node i = (popped cmp q).node i) :
    q.node 1 ::ₘ stored q' = stored q := by
  rw [← popped_stored cmp h0]
  congr 1
  simp only [stored, hs]
  exact contents_congr fun i _ hi => hn i hi

theorem pop_empty {q : SgxPriorityQueue α} (h0 : ¬ 0 < q.size) (mem : Option (ℕ → α)) :
    sgxPriorityQueuePop cmp q mem = some (sgxOk, q) := by
  rw [sgxPriorityQueuePop, empty_iff.mpr h0, if_pos rfl]

theorem apply_wf {q : SgxPriorityQueue α} (hw : QueueWf q) (op : QueueOp α) :
    ∃ result q', op.apply cmp q = some (result, q') ∧ QueueWf q' := by
  cases op with
  | push v mem =>
    rcases push_cases cmp hw v mem with h | ⟨q₁, h, hw', -⟩
    · exact ⟨-1, q, h, hw⟩
    · exact ⟨sgxOk, _, h, hw'⟩
  | pop mem =>
    by_cases h0 : 0 < q.size
    · obtain ⟨result, q', h, hw', -⟩ := pop_cases cmp hw h0 mem
      exact ⟨result, q', h, hw'⟩
    · exact ⟨sgxOk, q, pop_empty cmp h0 mem, hw⟩

variable [IsStrictWeakOrder α (fun x y => cmp x y = true)]

theorem pop_ordered_iff {q q' : SgxPriorityQueue α} (ho : HeapOrdered cmp q) (h0 : 0 < q.size)
    (hs : q'.size = q.size - 1) (hn : ∀ i ≤ q.size - 1, q'.node i = (popped cmp q).node i) :
    HeapOrdered cmp q' ↔ PopKeepsLeft cmp q := by
  rw [← popped_ordered_iff cmp ho h0]
  simp only [HeapOrdered, hs]
  exact ordered_congr fun i _ hi => hn i hi

omit [IsStrictWeakOrder α (fun x y => cmp x y = true)] in
theorem popKeepsLeft_of_small {q : SgxPriorityQueue α} (h : q.size ≤ 3) : PopKeepsLeft cmp q := by
  intro k hk hlt
  have := Nat.pow_le_pow_right (show 0 < 2 by decide) hk
  omega

omit [IsStrictWeakOrder α (fun x y => cmp x y = true)] in
theorem run_wf {q : SgxPriorityQueue α} (hw : QueueWf q) (ops : List (QueueOp α)) :
    ∃ q', runOps cmp q ops = some q' ∧ QueueWf q' := by
  induction ops generalizing q with
  | nil => exact ⟨q, rfl, hw⟩
  | cons op ops ih =>
    obtain ⟨result, q', h, hw'⟩ := apply_wf cmp hw op
    simpa [runOps, h] using ih hw'

theorem apply_ordered {q : SgxPriorityQueue α} (hw : QueueWf q) (ho : HeapOrdered cmp q)
    (op : QueueOp α) : ∃ result q', op.apply cmp q = some (result, q') ∧ QueueWf q' ∧
      (HeapOrdered cmp q' ↔ ∀ mem, op = .pop mem → PopKeepsLeft cmp q) := by
  cases op with
  | push v mem =>
    rcases push_cases cmp hw v mem with h | ⟨q₁, h, hw', hs, hn⟩
    · exact ⟨-1, q, h, hw, by simp [ho]⟩
    · exact ⟨sgxOk, _, h, hw', by simp [inserted_ordered cmp ho hs hn v]⟩
  | pop mem =>
    by_cases h0 : 0 < q.size
    · obtain ⟨result, q', h, hw', hs, hn⟩ := pop_cases cmp hw h0 mem
      exact ⟨result, q', h, hw', by simp [pop_ordered_iff cmp ho h0 hs hn]⟩
    · exact ⟨sgxOk, q, pop_empty cmp h0 mem, hw, by simp [ho, popKeepsLeft_of_small cmp (show q.size ≤ 3 by omega)]⟩

theorem run_ordered_iff {q : SgxPriorityQueue α} (hw : QueueWf q) (ho : HeapOrdered cmp q)
    (ops : List (QueueOp α)) :
    (∀ pre, pre <+: ops → ∃ q', runOps cmp q pre = some q' ∧ HeapOrdered cmp q') ↔
      PopsKeepLeft cmp q ops := by
  induction ops generalizing q with
  | nil => simp [PopsKeepLeft, runOps, ho]
  | cons op ops ih =>
    obtain ⟨result, q', h, hw', hiff⟩ := apply_ordered cmp hw ho op
    have hrun (pre : List (QueueOp α)) : runOps cmp q (op :: pre) = runOps cmp q' pre := by
      simp [runOps, h]
    simp only [PopsKeepLeft, h, Option.some.injEq, Prod.mk.injEq, and_imp]
    constructor
    · intro hall
      have hop : HeapOrdered cmp q' := by
        obtain ⟨q'', hr, ho''⟩ := hall [op] (by simp)
        rw [hrun, runOps, Option.some.injEq] at hr
        rwa [hr]
      refine ⟨hiff.mp hop, ?_⟩
      rintro _ _ rfl rfl
      apply (ih hw' hop).mp
      intro pre hpre
      rw [← hrun]
      exact hall (op :: pre) (by simpa using hpre)
    · rintro ⟨hop, hrest⟩ pre hpre
      cases pre with
      | nil => exact ⟨q, rfl, ho⟩
      | cons op' pre =>
        obtain ⟨rfl, hpre'⟩ := List.cons_prefix_cons.mp hpre
        rw [hrun]
        exact (ih hw' (hiff.mpr hop)).mpr (hrest result q' rfl rfl) pre hpre'

theorem top_first {q : SgxPriorityQueue α} (ho : HeapOrdered cmp q) {y : α} (hy : y ∈ stored q) :
    cmp y (q.node 1) = false := by
  obtain ⟨i, h1, hi, rfl⟩ := mem_contents.mp hy
  exact root_first cmp ho i h1 hi

theorem drain_sorted {q : SgxPriorityQueue α} (hw : QueueWf q) (ho : HeapOrdered cmp q)
    (mems : List (Option (ℕ → α))) (hlen : mems.length = q.size)
    (hpops : PopsKeepLeft cmp q (mems.map .pop)) :
    ∃ out, drain cmp q mems = some out ∧ (out : Multiset α) = stored q ∧
      out.Pairwise fun x y => cmp y x = false := by
  induction mems generalizing q with
  | nil => exact ⟨[], rfl, by rw [stored_eq_zero hlen.symm]; rfl, List.Pairwise.nil⟩
  | cons mem mems ih =>
    have h0 : 0 < q.size := by rw [← hlen]; simp
    obtain ⟨result, q', h, hw', hs, hn⟩ := pop_cases cmp hw h0 mem
    have hst := pop_stored cmp h0 hs hn
    have ho' : HeapOrdered cmp q' := (pop_ordered_iff cmp ho h0 hs hn).mpr (hpops.1 mem rfl)
    obtain ⟨out, hout, hmem, hsorted⟩ := ih hw' ho' (by rw [hs, ← hlen]; simp) (hpops.2 _ _ h)
    refine ⟨q.node 1 :: out, by simp [drain, top_eq hw h0, h, hout], ?_, ?_⟩
    · rw [← hst, ← hmem]
      rfl
    · refine List.pairwise_cons.mpr ⟨?_, hsorted⟩
      intro y hy
      apply top_first cmp ho
      rw [← hst, ← hmem]
      exact Multiset.mem_cons_of_mem (Multiset.mem_coe.mpr hy)

theorem heap_order_of_runs {maxSize : ℕ} {mem : Option (ℕ → α)} {q₀ : SgxPriorityQueue α}
    (h1 : 1 ≤ maxSize) (hb : sizeofPtr * (maxSize + 1) < sizeMod)
    (hq : sgxPriorityQueueInit maxSize mem = some q₀) (ops : List (QueueOp α)) :
    ((∀ pre, pre <+: ops → ∃ q, runOps cmp q₀ pre = some q ∧ HeapOrdered cmp q) ↔
        PopsKeepLeft cmp q₀ ops) ∧
      (PopsKeepLeft cmp q₀ ops → ∀ pre, pre <+: ops → ∃ q, runOps cmp q₀ pre = some q ∧
        HeapOrdered cmp q ∧
        (0 < q.size → ∃ x, sgxPriorityQueueTop q = some x ∧ x ∈ stored q ∧
          ∀ y ∈ stored q, cmp y x = false) ∧
        ∀ mems : List (Option (ℕ → α)), mems.length = q.size →
          PopsKeepLeft cmp q (mems.map .pop) → ∃ out, drain cmp q mems = some out ∧
            (out : Multiset α) = stored q ∧ out.Pairwise fun x y => cmp y x = false) := by
  obtain ⟨hw₀, hs₀⟩ := init_wf h1 hb hq
  have ho₀ : HeapOrdered cmp q₀ := by
    intro i h2 hi
    omega
  have hiff := run_ordered_iff cmp hw₀ ho₀ ops
  refine ⟨hiff, fun hpops pre hpre => ?_⟩
  obtain ⟨q, hr, ho⟩ := hiff.mpr hpops pre hpre
  obtain ⟨q', hr', hw⟩ := run_wf cmp hw₀ pre
  rw [hr, Option.some.injEq] at hr'
  subst hr'
  refine ⟨q, hr, ho, ?_, fun mems hlen hk => drain_sorted cmp hw ho mems hlen hk⟩
  intro h0
  exact ⟨q.node 1, top_eq hw h0, node_one_mem h0, fun y hy => top_first cmp ho hy⟩

end comparator

theorem heap_order_of_greater_run : ∃ q₀ q : SgxPriorityQueue ℤ,
    sgxPriorityQueueInit 10 (some fun _ => 0) = some q₀ ∧
      runOps sgxPriorityQueueGreater q₀
        [.push 2 (some fun _ => 0), .push 7 (some fun _ => 0), .pop (some fun _ => 0)] = some q ∧
      HeapOrdered sgxPriorityQueueGreater q ∧ sgxPriorityQueueTop q = some 2 := by
  obtain ⟨-, hruns⟩ := heap_order_of_runs sgxPriorityQueueGreater
    (show 1 ≤ 10 by decide) (by decide) (Eq.refl (sgxPriorityQueueInit 10 (some fun _ => (0 : ℤ))))
    [.push 2 (some fun _ => 0), .push 7 (some fun _ => 0), .pop (some fun _ => 0)]
  obtain ⟨q, hr, ho, -⟩ := hruns ⟨by simp, by
    rintro _ _ ⟨⟩
    refine ⟨by simp, ?_⟩
    rintro _ _ ⟨⟩
    exact ⟨fun _ _ => popKeepsLeft_of_small _ (by decide), fun _ _ _ => trivial⟩⟩ _ (List.prefix_refl _)
  refine ⟨_, q, rfl, hr, ho, ?_⟩
  cases hr
  rfl

theorem pop_skips_the_right_child : ∃ q₀ q : SgxPriorityQueue ℤ, ∃ mem : Option (ℕ → ℤ),
    mem.isSome ∧ sgxPriorityQueueInit 10 mem = some q₀ ∧
      runOps sgxPriorityQueueGreater q₀
        [.push 6 mem, .push 4 mem, .push 5 mem, .push 3 mem, .pop mem] = some q ∧
      ¬ HeapOrdered sgxPriorityQueueGreater q ∧ sgxPriorityQueueTop q = some 4 ∧
      5 ∈ stored q := by
  refine ⟨_, _, some fun _ => 0, rfl, rfl, rfl, ?_, rfl, ?_⟩
  · intro ho
    exact absurd (ho 3 (by decide) (by decide)) (by decide)
  · exact mem_contents.mpr ⟨3, by decide, by decide, by decide⟩

end Sginx.PriorityQueue
