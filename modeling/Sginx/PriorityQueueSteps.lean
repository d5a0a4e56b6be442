import Sginx.PriorityQueue

namespace Sginx.PriorityQueue

open Sginx.Library.ImplicitHeap

variable {α : Type}

structure QueueWf (q : SgxPriorityQueue α) : Prop where
  size_lt : q.size < q.maxSize
  max_le : q.maxSize ≤ q.slots
  bytes_le : sizeofPtr * q.slots ≤ ptrdiffMax

theorem QueueWf.slots_lt {q : SgxPriorityQueue α} (h : QueueWf q) : q.slots < 2 ^ 60 := by
  have := h.bytes_le
  simp only [sizeofPtr, ptrdiffMax] at this
  omega

theorem empty_iff {q : SgxPriorityQueue α} : sgxPriorityQueueEmpty q = true ↔ ¬ 0 < q.size := by
  simp only [sgxPriorityQueueEmpty, decide_eq_true_eq]
  omega

theorem nonempty_iff {q : SgxPriorityQueue α} : sgxPriorityQueueEmpty q = false ↔ 0 < q.size := by
  rw [← Bool.not_eq_true, empty_iff, not_not]

theorem init_wf {maxSize : ℕ} {mem : Option (ℕ → α)} {q : SgxPriorityQueue α} (h1 : 1 ≤ maxSize)
    (hb : sizeofPtr * (maxSize + 1) < sizeMod) (h : sgxPriorityQueueInit maxSize mem = some q) :
    QueueWf q ∧ q.size = 0 := by
  have hm : maxSize + 1 < sizeMod := by simp only [sizeofPtr] at hb; omega
  rw [sgxPriorityQueueInit, sizeAdd_of_lt hm, sizeMul_of_lt hb, malloc] at h
  split_ifs at h with hp
  swap
  · cases h
  obtain ⟨fresh, -, rfl⟩ := Option.map_eq_some_iff.mp h
  refine ⟨⟨h1, ?_, ?_⟩, rfl⟩
  · simp [sizeofPtr]
  · simpa [sizeofPtr] using hp

theorem swap_eq {q : SgxPriorityQueue α} {i j : ℕ} (hi : i < q.slots) (hj : j < q.slots) :
    priorityQueueSwap q i j = some { q with node := q.node ∘ Equiv.swap i j } := by
  simp [priorityQueueSwap, SgxPriorityQueue.load, SgxPriorityQueue.store, hi, hj,
    Equiv.swap_comm i j, Equiv.comp_swap_eq_update]

theorem upLoop_eq (cmp : α → α → Bool) (fuel : ℕ) (q : SgxPriorityQueue α) (i : ℕ)
    (hi : i < q.slots) : upLoop cmp fuel q i = some { q with node := siftUp cmp fuel q.node i } := by
  induction fuel generalizing q i with
  | zero => rfl
  | succ fuel ih =>
    have hp : i >>> 1 = i / 2 := by rw [Nat.shiftRight_eq_div_pow, pow_one]
    have hi2 : i / 2 < q.slots := by omega
    rw [upLoop, siftUp, hp]
    by_cases h1 : 1 < i
    · by_cases hc : cmp (q.node i) (q.node (i / 2)) = true
      · simp only [h1, ↓reduceIte, SgxPriorityQueue.load, hi, hi2, Option.bind_eq_bind,
          Option.bind_some, hc, swap_eq hi hi2, and_self]
        exact ih _ _ hi2
      · simp [h1, SgxPriorityQueue.load, hi, hi2, hc]
    · simp [h1]

theorem up_eq (cmp : α → α → Bool) {q : SgxPriorityQueue α} {i : ℕ} (hi : i < q.slots) :
    priorityQueueUp cmp q i = some { q with node := siftUp cmp i q.node i } :=
  upLoop_eq cmp i q i hi

def leftChild (_ : ℕ → α) (i : ℕ) : ℕ := 2 * i

theorem leftChild_chooses (n : ℕ) : Chooses (leftChild (α := α)) n := by
  intro a i hi
  simp only [leftChild]
  omega

theorem downLoop_eq (cmp : α → α → Bool) (fuel : ℕ) (q : SgxPriorityQueue α) (i : ℕ)
    (hs : q.size < q.slots) (hb : q.slots < 2 ^ 60) (h1 : 1 ≤ i) (hi : i ≤ q.size + 1) :
    ∃ index, downLoop cmp fuel q i =
      some (index, { q with node := siftDown cmp leftChild q.size fuel q.node i }) := by
  induction fuel generalizing q i with
  | zero => exact ⟨i, rfl⟩
  | succ fuel ih =>
    have hshl : sizeShl i 1 = 2 * i := sizeShl_of_lt (by simp only [sizeMod]; omega)
    rw [downLoop, siftDown, hshl]
    by_cases h2 : 2 * i ≤ q.size
    swap
    · exact ⟨i, by simp [h2]⟩
    have hleft : 2 * i < q.slots := by omega
    have hi' : i < q.slots := by omega
    obtain ⟨b, hb'⟩ : ∃ b, priorityQueueCmp cmp q (2 * i ||| 1) (2 * i) = some b := by
      unfold priorityQueueCmp SgxPriorityQueue.load
      split_ifs with hout hright
      · exact ⟨_, rfl⟩
      · exact ⟨_, rfl⟩
      · omega
    have hcmp : priorityQueueCmp cmp q (2 * i) i = some (cmp (q.node (2 * i)) (q.node i)) := by
      simp [priorityQueueCmp, SgxPriorityQueue.load, hleft, hi', show ¬ q.size < 2 * i by omega,
        show ¬ q.size < i by omega]
    simp only [h2, ↓reduceIte, hb', hcmp, Option.bind_eq_bind, Option.bind_some, leftChild, true_and]
    by_cases hc : cmp (q.node (2 * i)) (q.node i) = true
    · simp only [hc, ↓reduceIte, swap_eq hleft hi', Option.bind_some]
      exact ih _ (2 * i) hs hb (by omega) (by simp only; omega)
    · exact ⟨i, by simp [hc]⟩

theorem down_eq (cmp : α → α → Bool) {q : SgxPriorityQueue α} (hs : q.size < q.slots)
    (hb : q.slots < 2 ^ 60) : ∃ index, priorityQueueDown cmp q 1 =
      some (index, { q with node := siftDown cmp leftChild q.size q.size q.node 1 }) :=
  downLoop_eq cmp q.size q 1 hs hb (le_refl 1) (by omega)

theorem resize_cases {q : SgxPriorityQueue α} (hs : q.size < q.slots) {newSize : ℕ}
    (hn : sizeofPtr * newSize < sizeMod) (hsize : q.size < newSize) (mem : Option (ℕ → α)) :
    priorityQueueResize q newSize mem = some (-1, q) ∨
      ∃ q', priorityQueueResize q newSize mem = some (sgxOk, q') ∧ QueueWf q' ∧
        q'.size = q.size ∧ (∀ i ≤ q.size, q'.node i = q.node i) ∧ q'.maxSize = newSize ∧
        q'.freed = .slot q.array 0 :: q.freed := by
  rw [priorityQueueResize, ite_cond_eq_false _ _ (by simp; omega), sizeMul_of_lt hn]
  cases hm : malloc (sizeofPtr * newSize) mem with
  | none => exact .inl rfl
  | some fresh =>
    right
    have hp : sizeofPtr * newSize ≤ ptrdiffMax := by
      by_contra hp
      simp [malloc, hp] at hm
    have hd : sizeofPtr * newSize / sizeofPtr = newSize := by simp [sizeofPtr]
    simp only [hd]
    rw [ite_cond_eq_true _ _ (by simp; omega)]
    refine ⟨_, rfl, ⟨hsize, le_refl _, hp⟩, rfl, ?_, rfl, rfl⟩
    intro i hi
    simp [show i < q.size + 1 by omega]

def inserted (cmp : α → α → Bool) (q : SgxPriorityQueue α) (v : α) : SgxPriorityQueue α :=
  { q with
    node := siftUp cmp (q.size + 1) (Function.update q.node (q.size + 1) v) (q.size + 1)
    size := q.size + 1 }

theorem inserted_wf (cmp : α → α → Bool) {q : SgxPriorityQueue α} (hw : QueueWf q)
    (h : q.size + 1 < q.maxSize) (v : α) : QueueWf (inserted cmp q v) :=
  ⟨h, hw.max_le, hw.bytes_le⟩

theorem insert_eq (cmp : α → α → Bool) {q : SgxPriorityQueue α} (h : q.size + 1 < q.slots) (v : α) :
    (({ q with size := q.size + 1 } : SgxPriorityQueue α).store (q.size + 1) v).bind
      (fun q' => (priorityQueueUp cmp q' q'.size).bind fun q'' => some (sgxOk, q'')) =
        some (sgxOk, inserted cmp q v) := by
  rw [SgxPriorityQueue.store, ite_cond_eq_true _ _ (by simpa using h), Option.bind_some,
    up_eq cmp (by exact h)]
  rfl

theorem push_cases (cmp : α → α → Bool) {q : SgxPriorityQueue α} (hw : QueueWf q) (v : α)
    (mem : Option (ℕ → α)) :
    sgxPriorityQueuePush cmp q v mem = some (-1, q) ∨
      ∃ q₁, sgxPriorityQueuePush cmp q v mem = some (sgxOk, inserted cmp q₁ v) ∧
        QueueWf (inserted cmp q₁ v) ∧ q₁.size = q.size ∧ ∀ i ≤ q.size, q₁.node i = q.node i := by
  have hlt := hw.slots_lt
  have hmax := hw.max_le
  have hsize := hw.size_lt
  have hadd : sizeAdd q.size 1 = q.size + 1 := sizeAdd_of_lt (by simp only [sizeMod]; omega)
  rw [sgxPriorityQueuePush, hadd]
  by_cases hfull : q.size + 1 = q.maxSize
  · have hshl : sizeShl q.maxSize 1 = 2 * q.maxSize :=
      sizeShl_of_lt (by simp only [sizeMod]; omega)
    rw [ite_cond_eq_true _ _ (by simpa using hfull), hshl]
    have hbytes : sizeofPtr * (2 * q.maxSize) < sizeMod := by
      simp only [sizeofPtr, sizeMod]
      omega
    rcases resize_cases (by omega : q.size < q.slots) hbytes (by omega) mem with
      hr | ⟨q₁, hr, hw₁, hs₁, hn₁, hm₁, -⟩
    · left
      simp [hr]
    · right
      have hroom : q₁.size + 1 < q₁.maxSize := by omega
      have hins := insert_eq cmp (hroom.trans_le hw₁.max_le) v
      rw [hs₁] at hins
      exact ⟨q₁, by simpa [hr, sgxOk, hs₁, hadd] using hins, inserted_wf cmp hw₁ hroom v, hs₁, hn₁⟩
  · right
    rw [ite_cond_eq_false _ _ (by simpa using hfull)]
    have hroom : q.size + 1 < q.maxSize := by omega
    have hins := insert_eq cmp (hroom.trans_le hmax) v
    exact ⟨q, by simpa [sgxOk, hadd] using hins, inserted_wf cmp hw hroom v, rfl, fun _ _ => rfl⟩

def popped (cmp : α → α → Bool) (q : SgxPriorityQueue α) : SgxPriorityQueue α :=
  { q with
    node := siftDown cmp leftChild (q.size - 1) (q.size - 1) (q.node ∘ Equiv.swap 1 q.size) 1
    size := q.size - 1
    freed := .slot q.array q.size :: q.freed }

theorem popped_wf (cmp : α → α → Bool) {q : SgxPriorityQueue α} (hw : QueueWf q) :
    QueueWf (popped cmp q) :=
  ⟨lt_of_le_of_lt (Nat.sub_le _ _) hw.size_lt, hw.max_le, hw.bytes_le⟩

theorem pop_eq (cmp : α → α → Bool) {q : SgxPriorityQueue α} (hw : QueueWf q) (h0 : 0 < q.size)
    (mem : Option (ℕ → α)) :
    sgxPriorityQueuePop cmp q mem =
      if 0 < q.size - 1 ∧ q.size - 1 ≤ (q.maxSize - 1) / 4 then do
        let (result, q') ← priorityQueueResize (popped cmp q) (q.maxSize / 2) mem
        if result < 0 then some (-1, q') else some (sgxOk, q')
      else some (sgxOk, popped cmp q) := by
  have hlt := hw.slots_lt
  have hmax := hw.max_le
  have hsize := hw.size_lt
  have hsub : sizeSub q.size 1 = q.size - 1 := sizeSub_of_le h0
  have hsubm : sizeSub q.maxSize 1 >>> 2 = (q.maxSize - 1) / 4 := by
    rw [sizeSub_of_le (by omega), Nat.shiftRight_eq_div_pow]
  have hhalf : q.maxSize >>> 1 = q.maxSize / 2 := by rw [Nat.shiftRight_eq_div_pow, pow_one]
  have hempty := nonempty_iff.mpr h0
  obtain ⟨index, hdown⟩ := @down_eq α cmp { q with
    node := q.node ∘ Equiv.swap 1 q.size
    size := q.size - 1
    freed := .slot q.array q.size :: q.freed } (by simp only; omega) hlt
  rw [sgxPriorityQueuePop, hempty, swap_eq (by omega) (by omega)]
  simp only [Bool.false_eq_true, ↓reduceIte, Option.bind_eq_bind, Option.bind_some, hsub, hdown,
    hsubm, hhalf, popped]

theorem pop_cases (cmp : α → α → Bool) {q : SgxPriorityQueue α} (hw : QueueWf q) (h0 : 0 < q.size)
    (mem : Option (ℕ → α)) :
    ∃ result q', sgxPriorityQueuePop cmp q mem = some (result, q') ∧ QueueWf q' ∧
      q'.size = q.size - 1 ∧ ∀ i ≤ q.size - 1, q'.node i = (popped cmp q).node i := by
  have hlt := hw.slots_lt
  have hmax := hw.max_le
  have hsize := hw.size_lt
  rw [pop_eq cmp hw h0]
  split_ifs with hshrink
  · have hbytes : sizeofPtr * (q.maxSize / 2) < sizeMod := by
      simp only [sizeofPtr, sizeMod]
      omega
    have hslots : (popped cmp q).size < (popped cmp q).slots := by simp only [popped]; omega
    have hnew : (popped cmp q).size < q.maxSize / 2 := by simp only [popped]; omega
    rcases resize_cases hslots hbytes hnew mem with hr | ⟨q₁, hr, hw₁, hs₁, hn₁, -⟩
    · exact ⟨-1, popped cmp q, by simp [hr], popped_wf cmp hw, rfl, fun _ _ => rfl⟩
    · exact ⟨sgxOk, q₁, by simp [hr, sgxOk], hw₁, hs₁, hn₁⟩
  · exact ⟨sgxOk, popped cmp q, rfl, popped_wf cmp hw, rfl, fun _ _ => rfl⟩

end Sginx.PriorityQueue
