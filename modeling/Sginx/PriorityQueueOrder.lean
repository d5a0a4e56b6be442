import Sginx.PriorityQueueSteps

namespace Sginx.PriorityQueue

open Sginx.Library.ImplicitHeap

variable {α : Type}

def stored (q : SgxPriorityQueue α) : Multiset α := contents q.node q.size

theorem stored_eq_zero {q : SgxPriorityQueue α} (h : q.size = 0) : stored q = 0 := by
  rw [stored, h, contents_zero]

def HeapOrdered (cmp : α → α → Bool) (q : SgxPriorityQueue α) : Prop := Ordered cmp q.node q.size

theorem ordered_congr {cmp : α → α → Bool} {a b : ℕ → α} {n : ℕ}
    (h : ∀ i, 1 ≤ i → i ≤ n → a i = b i) : Ordered cmp a n ↔ Ordered cmp b n := by
  unfold Ordered
  constructor <;>
  · intro ho i h2 hn
    have := ho i h2 hn
    rwa [h i (by omega) hn, h (i / 2) (by omega) (by omega)] at *

theorem heapOrdered_congr {cmp cmp' : α → α → Bool} {q : SgxPriorityQueue α}
    (h : ∀ x ∈ stored q, ∀ y ∈ stored q, cmp x y = cmp' x y) (ho : HeapOrdered cmp q) :
    HeapOrdered cmp' q := by
  intro i h2 hi
  rw [← h _ (mem_contents.mpr ⟨i, by omega, hi, rfl⟩) _
    (mem_contents.mpr ⟨i / 2, by omega, by omega, rfl⟩)]
  exact ho i h2 hi

theorem inserted_stored (cmp : α → α → Bool) {q q₁ : SgxPriorityQueue α} (hs : q₁.size = q.size)
    (hn : ∀ i ≤ q.size, q₁.node i = q.node i) (v : α) :
    stored (inserted cmp q₁ v) = v ::ₘ stored q := by
  simp only [stored, inserted, hs]
  rw [siftUp_contents cmp _ _ _ _ (by omega) (le_refl _), contents_succ, Function.update_self]
  congr 1
  apply contents_congr
  intro i _ hi
  rw [Function.update_of_ne (by omega), hn i hi]

theorem inserted_ordered (cmp : α → α → Bool) [IsStrictWeakOrder α (fun x y => cmp x y = true)]
    {q q₁ : SgxPriorityQueue α} (ho : HeapOrdered cmp q) (hs : q₁.size = q.size)
    (hn : ∀ i ≤ q.size, q₁.node i = q.node i) (v : α) : HeapOrdered cmp (inserted cmp q₁ v) := by
  simp only [HeapOrdered, inserted, hs]
  apply siftUp_ordered cmp _ _ _ _ _ (by omega) (le_refl _) (le_refl _)
  apply Ordered.upReady
  rw [Nat.add_sub_cancel]
  apply (ordered_congr _).mp ho
  intro i _ hi
  rw [Function.update_of_ne (by omega), hn i hi]

theorem popped_stored (cmp : α → α → Bool) {q : SgxPriorityQueue α} (h0 : 0 < q.size) :
    q.node 1 ::ₘ stored (popped cmp q) = stored q := by
  obtain ⟨n, hn⟩ : ∃ n, q.size = n + 1 := ⟨q.size - 1, by omega⟩
  simp only [stored, popped, hn, Nat.add_sub_cancel]
  rw [siftDown_contents cmp (leftChild_chooses n) _ _ _ (le_refl 1),
    ← contents_swap q.node (show 1 ≤ 1 ∧ 1 ≤ n + 1 by omega) (show 1 ≤ n + 1 ∧ n + 1 ≤ n + 1 by omega),
    contents_succ]
  simp

/-- On the path that `priority_queue_down` takes, which goes to the left child only, no right
child precedes both its left sibling and the value moved down. -/
def PopKeepsLeft (cmp : α → α → Bool) (q : SgxPriorityQueue α) : Prop :=
  ∀ k, 1 ≤ k → 2 ^ k + 1 < q.size →
    ¬ (cmp (q.node (2 ^ k + 1)) (q.node (2 ^ k)) = true ∧
      cmp (q.node (2 ^ k + 1)) (q.node q.size) = true)

def SpineSafe (cmp : α → α → Bool) (m : ℕ) (b : ℕ → α) (i t : ℕ) : Prop :=
  2 * (i * 2 ^ t) + 1 ≤ m → ¬ (cmp (b (2 * (i * 2 ^ t) + 1)) (b (2 * (i * 2 ^ t))) = true ∧
    cmp (b (2 * (i * 2 ^ t) + 1)) (b i) = true)

section order

variable (cmp : α → α → Bool) [IsStrictWeakOrder α (fun x y => cmp x y = true)]

theorem descendant_not_before {b : ℕ → α} {m i c : ℕ} (h : DownReady cmp b m i) (hc : i < c)
    (t j : ℕ) (hj : j ≤ m) (hd : j / 2 ^ t = c) : cmp (b j) (b c) = false := by
  induction t generalizing j with
  | zero =>
    rw [pow_zero, Nat.div_one] at hd
    rw [hd]
    exact cmp_irrefl cmp _
  | succ t ih =>
    rw [Nat.pow_succ', ← Nat.div_div_eq_div_mul] at hd
    have hle : c ≤ j / 2 := hd ▸ Nat.div_le_self _ _
    exact not_cmp_trans cmp (h.others j (by omega) hj (by omega)) (ih (j / 2) (by omega) hd)

omit [IsStrictWeakOrder α (fun x y => cmp x y = true)] in
theorem spineSafe_move (m : ℕ) (b : ℕ → α) {i : ℕ} (h1 : 1 ≤ i) (t : ℕ) :
    SpineSafe cmp m (b ∘ Equiv.swap (2 * i) i) (2 * i) t ↔ SpineSafe cmp m b i (t + 1) := by
  have hgrow : 2 * i ≤ 2 * i * 2 ^ t := Nat.le_mul_of_pos_right _ (Nat.two_pow_pos t)
  have hother (j : ℕ) (hj : 2 * i < j) : (b ∘ Equiv.swap (2 * i) i) j = b j := by
    simp [Equiv.swap_apply_of_ne_of_ne (show j ≠ 2 * i by omega) (show j ≠ i by omega)]
  have hat : (b ∘ Equiv.swap (2 * i) i) (2 * i) = b i := by simp
  unfold SpineSafe
  rw [show 2 * (i * 2 ^ (t + 1)) = 2 * (2 * i * 2 ^ t) by ring, hother _ (by omega),
    hother _ (by omega), hat]

theorem safeChoice_left_iff {m : ℕ} {b : ℕ → α} {i : ℕ} :
    SafeChoice cmp b m i (2 * i) ↔ SpineSafe cmp m b i 0 := by
  unfold SpineSafe
  rw [pow_zero, Nat.mul_one]
  constructor
  · intro hs hr
    exact hs (2 * i + 1) hr (by omega)
  · intro hs j hj hp
    rcases show j = 2 * i ∨ j = 2 * i + 1 by omega with rfl | rfl
    · simp [cmp_irrefl cmp]
    · exact hs hj

theorem spineSafe_of_stop {m : ℕ} {b : ℕ → α} {i : ℕ} (h : DownReady cmp b m i) (h1 : 1 ≤ i)
    (hc : cmp (b (2 * i)) (b i) = false) (t : ℕ) : SpineSafe cmp m b i (t + 1) := by
  intro ht
  have hd : (2 * (i * 2 ^ (t + 1)) + 1) / 2 ^ (t + 1) = 2 * i := by
    rw [show 2 * (i * 2 ^ (t + 1)) + 1 = 1 + 2 ^ (t + 1) * (2 * i) by ring,
      Nat.add_mul_div_left _ _ (Nat.two_pow_pos _),
      Nat.div_eq_of_lt (Nat.one_lt_two_pow (by omega)), Nat.zero_add]
  have := not_cmp_trans cmp (descendant_not_before cmp h (by omega) _ _ ht hd) hc
  simp [this]

omit [IsStrictWeakOrder α (fun x y => cmp x y = true)] in
theorem spineSafe_of_leaf {m : ℕ} (b : ℕ → α) {i : ℕ} (hi : ¬ 2 * i ≤ m) (t : ℕ) :
    SpineSafe cmp m b i t := by
  intro ht
  have : i ≤ i * 2 ^ t := Nat.le_mul_of_pos_right i (Nat.two_pow_pos t)
  omega

theorem safeRun_left_iff (m fuel : ℕ) (b : ℕ → α) (i : ℕ) (h : DownReady cmp b m i) (h1 : 1 ≤ i)
    (hf : m < i + fuel) :
    SafeRun cmp leftChild m fuel b i ↔ ∀ t, SpineSafe cmp m b i t := by
  induction fuel generalizing b i with
  | zero =>
    simp only [SafeRun, true_iff]
    exact spineSafe_of_leaf cmp b (by omega)
  | succ fuel ih =>
    simp only [SafeRun, leftChild]
    by_cases h2 : 2 * i ≤ m
    swap
    · simp only [h2, false_implies, true_iff]
      exact spineSafe_of_leaf cmp b h2
    simp only [h2, true_implies, safeChoice_left_iff cmp]
    by_cases hc : cmp (b (2 * i)) (b i) = true
    · simp only [hc, true_implies]
      have hrec (hs : SpineSafe cmp m b i 0) :
          SafeRun cmp leftChild m fuel (b ∘ Equiv.swap (2 * i) i) (2 * i) ↔
            ∀ t, SpineSafe cmp m b i (t + 1) := by
        have hmove := h.move h1 (by omega) h2 ((safeChoice_left_iff cmp).mpr hs) hc
        simpa only [spineSafe_move cmp m b h1] using
          ih (b ∘ Equiv.swap (2 * i) i) (2 * i) hmove (by omega) (by omega)
      constructor
      · rintro ⟨hs, hr⟩ t
        cases t with
        | zero => exact hs
        | succ t => exact (hrec hs).mp hr t
      · intro hall
        exact ⟨hall 0, (hrec (hall 0)).mpr fun t => hall (t + 1)⟩
    · simp only [hc, false_implies, and_true, Bool.false_eq_true]
      constructor
      · intro hs t
        cases t with
        | zero => exact hs
        | succ t => exact spineSafe_of_stop cmp h h1 (by simpa using hc) t
      · intro hall
        exact hall 0

theorem popped_ordered_iff {q : SgxPriorityQueue α} (ho : HeapOrdered cmp q) (h0 : 0 < q.size) :
    HeapOrdered cmp (popped cmp q) ↔ PopKeepsLeft cmp q := by
  have hlast : (q.node ∘ Equiv.swap 1 q.size) 1 = q.node q.size := by simp
  have hother (j : ℕ) (h2 : 2 ≤ j) (hj : j ≤ q.size - 1) :
      (q.node ∘ Equiv.swap 1 q.size) j = q.node j := by
    simp [Equiv.swap_apply_of_ne_of_ne (show j ≠ 1 by omega) (show j ≠ q.size by omega)]
  have hready : DownReady cmp (q.node ∘ Equiv.swap 1 q.size) (q.size - 1) 1 := by
    constructor
    · intro j h2 hj hp
      rw [hother j h2 hj, hother (j / 2) (by omega) (by omega)]
      exact ho j h2 (by omega)
    · intro h
      omega
  simp only [HeapOrdered, popped]
  rw [siftDown_ordered_iff cmp (leftChild_chooses _) _ _ _ hready (le_refl 1) (by omega),
    safeRun_left_iff cmp _ _ _ _ hready (le_refl 1) (by omega)]
  have hspine (t : ℕ) : SpineSafe cmp (q.size - 1) (q.node ∘ Equiv.swap 1 q.size) 1 t ↔
      (2 ^ (t + 1) + 1 < q.size → ¬ (cmp (q.node (2 ^ (t + 1) + 1)) (q.node (2 ^ (t + 1))) = true ∧
        cmp (q.node (2 ^ (t + 1) + 1)) (q.node q.size) = true)) := by
    have h2pow : 2 ≤ 2 ^ (t + 1) := by
      have := Nat.two_pow_pos t
      omega
    unfold SpineSafe
    rw [show 2 * (1 * 2 ^ t) = 2 ^ (t + 1) by ring, hlast,
      show 2 ^ (t + 1) + 1 ≤ q.size - 1 ↔ 2 ^ (t + 1) + 1 < q.size by omega]
    apply imp_congr_right
    intro hlt
    rw [hother _ (by omega) (by omega), hother _ (by omega) (by omega)]
  simp only [hspine]
  constructor
  · intro hall k hk
    obtain ⟨t, rfl⟩ : ∃ t, k = t + 1 := ⟨k - 1, by omega⟩
    exact hall t
  · intro hall t
    exact hall (t + 1) (by omega)

end order

end Sginx.PriorityQueue
