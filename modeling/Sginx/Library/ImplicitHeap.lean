import Mathlib.Data.Finset.Preimage
import Mathlib.Data.Fintype.Perm
import Mathlib.Order.Interval.Finset.Nat
import Mathlib.Order.Defs.Unbundled

/-!
Implicit binary heaps over an array `a : ℕ → α` whose live slots are `1 .. n`: slot `i` has the
parent `i / 2` and the children `2 * i` and `2 * i + 1`.
-/

namespace Sginx.Library.ImplicitHeap

variable {α : Type*}

def Ordered (cmp : α → α → Bool) (a : ℕ → α) (n : ℕ) : Prop :=
  ∀ i, 2 ≤ i → i ≤ n → cmp (a i) (a (i / 2)) = false

def contents (a : ℕ → α) (n : ℕ) : Multiset α := (Finset.Icc 1 n).val.map a

theorem contents_zero (a : ℕ → α) : contents a 0 = 0 := rfl

theorem contents_succ (a : ℕ → α) (n : ℕ) : contents a (n + 1) = a (n + 1) ::ₘ contents a n := by
  have hi : Finset.Icc 1 (n + 1) = Finset.cons (n + 1) (Finset.Icc 1 n) (by simp) := by
    ext i
    simp only [Finset.mem_Icc, Finset.mem_cons]
    omega
  rw [contents, hi, Finset.cons_val, Multiset.map_cons, contents]

theorem contents_congr {a b : ℕ → α} {n : ℕ} (h : ∀ i, 1 ≤ i → i ≤ n → a i = b i) :
    contents a n = contents b n :=
  Multiset.map_congr rfl fun i hi => by
    have := Finset.mem_Icc.mp (Finset.mem_val.mp hi)
    exact h i this.1 this.2

theorem mem_contents {a : ℕ → α} {n : ℕ} {x : α} :
    x ∈ contents a n ↔ ∃ i, 1 ≤ i ∧ i ≤ n ∧ a i = x := by
  simp [contents, and_assoc]

theorem contents_swap (a : ℕ → α) {n i j : ℕ} (hi : 1 ≤ i ∧ i ≤ n) (hj : 1 ≤ j ∧ j ≤ n) :
    contents (a ∘ Equiv.swap i j) n = contents a n := by
  have hs : (Finset.Icc 1 n).map (Equiv.swap i j).toEmbedding = Finset.Icc 1 n := by
    apply Finset.map_perm
    intro k hk
    have hk' : k = i ∨ k = j := by
      by_contra hne
      push Not at hne
      exact hk (Equiv.swap_apply_of_ne_of_ne hne.1 hne.2)
    rw [Finset.coe_Icc, Set.mem_Icc]
    omega
  have hv := congrArg (fun s : Finset ℕ => s.val.map a) hs
  rw [Finset.map_val, Multiset.map_map] at hv
  exact hv

section order

variable (cmp : α → α → Bool) [IsStrictWeakOrder α (fun x y => cmp x y = true)]

theorem cmp_asymm {x y : α} (h : cmp x y = true) : cmp y x = false := by
  have hn : ¬ cmp y x = true := asymm_of (fun x y => cmp x y = true) h
  simpa using hn

theorem cmp_trans {x y z : α} (h : cmp x y = true) (h' : cmp y z = true) : cmp x z = true :=
  trans_of (fun x y => cmp x y = true) h h'

theorem cmp_irrefl (x : α) : cmp x x = false := by
  have hn : ¬ cmp x x = true := irrefl_of (fun x y => cmp x y = true) x
  simpa using hn

theorem not_cmp_trans {x y z : α} (h : cmp x y = false) (h' : cmp y z = false) :
    cmp x z = false := by
  by_contra hc
  have hxz : cmp x z = true := by simpa using hc
  have hyx : cmp y x = false := by
    by_contra hyx
    have := cmp_trans cmp (by simpa using hyx) hxz
    simp [this] at h'
  have hzy : cmp z y = false := by
    by_contra hzy
    have := cmp_trans cmp hxz (by simpa using hzy)
    simp [this] at h
  have hi := @IsStrictWeakOrder.incomp_trans α (fun x y => cmp x y = true) _ x y z
    ⟨by simp [h], by simp [hyx]⟩ ⟨by simp [h'], by simp [hzy]⟩
  exact hi.1 hxz

theorem root_first {a : ℕ → α} {n : ℕ} (ho : Ordered cmp a n) (i : ℕ) (h1 : 1 ≤ i) (hn : i ≤ n) :
    cmp (a i) (a 1) = false := by
  induction i using Nat.strong_induction_on with
  | _ i ih =>
    by_cases hi : i = 1
    · rw [hi]; exact cmp_irrefl cmp _
    · exact not_cmp_trans cmp (ho i (by omega) hn) (ih (i / 2) (by omega) (by omega) (by omega))

end order

def siftUp (cmp : α → α → Bool) : ℕ → (ℕ → α) → ℕ → (ℕ → α)
  | 0, a, _ => a
  | fuel + 1, a, i =>
    if 1 < i ∧ cmp (a i) (a (i / 2)) = true then
      siftUp cmp fuel (a ∘ Equiv.swap i (i / 2)) (i / 2)
    else a

structure UpReady (cmp : α → α → Bool) (a : ℕ → α) (n i : ℕ) : Prop where
  others : ∀ j, 2 ≤ j → j ≤ n → j ≠ i → cmp (a j) (a (j / 2)) = false
  grand : 2 ≤ i → ∀ j, j ≤ n → j / 2 = i → cmp (a j) (a (i / 2)) = false

theorem UpReady.move {cmp : α → α → Bool} [IsStrictWeakOrder α (fun x y => cmp x y = true)]
    {a : ℕ → α} {n i : ℕ} (h : UpReady cmp a n i) (hi : 2 ≤ i) (hn : i ≤ n)
    (hc : cmp (a i) (a (i / 2)) = true) : UpReady cmp (a ∘ Equiv.swap i (i / 2)) n (i / 2) := by
  have hother (j : ℕ) (hji : j ≠ i) (hjp : j ≠ i / 2) : (a ∘ Equiv.swap i (i / 2)) j = a j := by
    simp [Equiv.swap_apply_of_ne_of_ne hji hjp]
  have hat : (a ∘ Equiv.swap i (i / 2)) i = a (i / 2) := by simp
  have hpar : (a ∘ Equiv.swap i (i / 2)) (i / 2) = a i := by simp
  constructor
  · intro j h2 hjn hjp
    by_cases hji : j = i
    · rw [hji, hat, hpar]
      exact cmp_asymm cmp hc
    · rw [hother j hji hjp]
      by_cases hji2 : j / 2 = i
      · rw [hji2, hat]
        exact h.grand hi j hjn hji2
      · by_cases hjp2 : j / 2 = i / 2
        · -- `j` is the sibling of `i`
          rw [hjp2, hpar]
          by_contra hlt
          have := cmp_trans cmp (by simpa using hlt) hc
          have hj := h.others j h2 hjn hji
          rw [hjp2, this] at hj
          cases hj
        · rw [hother _ hji2 hjp2]
          exact h.others j h2 hjn hji
  · intro hp2 j hjn hj
    have hp := h.others (i / 2) hp2 (by omega) (by omega)
    rw [hother (i / 2 / 2) (by omega) (by omega)]
    by_cases hji : j = i
    · rw [hji, hat]; exact hp
    · rw [hother j hji (by omega)]
      have hjo := h.others j (by omega) hjn hji
      rw [hj] at hjo
      exact not_cmp_trans cmp hjo hp

theorem siftUp_ordered (cmp : α → α → Bool) [IsStrictWeakOrder α (fun x y => cmp x y = true)]
    (fuel : ℕ) (a : ℕ → α) (n i : ℕ) (h : UpReady cmp a n i) (h1 : 1 ≤ i) (hn : i ≤ n)
    (hf : i ≤ fuel) : Ordered cmp (siftUp cmp fuel a i) n := by
  induction fuel generalizing a i with
  | zero => omega
  | succ fuel ih =>
    rw [siftUp]
    split_ifs with hc
    · exact ih _ _ (h.move (by omega) hn hc.2) (by omega) (by omega) (by omega)
    · intro j h2 hjn
      by_cases hji : j = i
      · subst hji
        simpa [show 1 < j by omega] using hc
      · exact h.others j h2 hjn hji

theorem siftUp_contents (cmp : α → α → Bool) (fuel : ℕ) (a : ℕ → α) (n i : ℕ)
    (h1 : 1 ≤ i) (hn : i ≤ n) : contents (siftUp cmp fuel a i) n = contents a n := by
  induction fuel generalizing a i with
  | zero => rfl
  | succ fuel ih =>
    rw [siftUp]
    split_ifs with hc
    · rw [ih _ _ (by omega) (by omega), contents_swap a ⟨h1, hn⟩ ⟨by omega, by omega⟩]
    · rfl

def OnPath (i k : ℕ) : Prop := 1 ≤ k ∧ ∃ t, i >>> t = k

theorem OnPath.self {i : ℕ} (hi : 1 ≤ i) : OnPath i i := ⟨hi, 0, rfl⟩

theorem OnPath.half {i k : ℕ} (h : OnPath (i / 2) k) : OnPath i k := by
  obtain ⟨hk, t, ht⟩ := h
  refine ⟨hk, t + 1, ?_⟩
  rw [Nat.add_comm, Nat.shiftRight_add, Nat.shiftRight_one]
  exact ht

theorem siftUp_perm (cmp : α → α → Bool) (fuel : ℕ) (a : ℕ → α) (i : ℕ) :
    ∃ σ : Equiv.Perm ℕ, (∀ k, ¬ OnPath i k → σ k = k) ∧ siftUp cmp fuel a i = a ∘ σ := by
  induction fuel generalizing a i with
  | zero => exact ⟨Equiv.refl ℕ, fun _ _ => rfl, rfl⟩
  | succ fuel ih =>
    rw [siftUp]
    split_ifs with hc
    · obtain ⟨σ, hσ, hsift⟩ := ih (a ∘ Equiv.swap i (i / 2)) (i / 2)
      refine ⟨Equiv.swap i (i / 2) * σ, fun k hk => ?_, ?_⟩
      · have hi : k ≠ i := by
          rintro rfl
          exact hk (OnPath.self (by omega))
        have hhalf : k ≠ i / 2 := by
          rintro rfl
          exact hk (OnPath.half (OnPath.self (by omega)))
        rw [Equiv.Perm.mul_apply, hσ k (fun h => hk h.half), Equiv.swap_apply_of_ne_of_ne hi hhalf]
      · rw [hsift]
        rfl
    · exact ⟨Equiv.refl ℕ, fun _ _ => rfl, rfl⟩

theorem Ordered.upReady {cmp : α → α → Bool} {a : ℕ → α} {n : ℕ} (h : Ordered cmp a (n - 1)) :
    UpReady cmp a n n := by
  constructor
  · intro j h2 hj hne
    exact h j h2 (by omega)
  · intro _ j hj hp
    omega

def RisesToRoot (cmp : α → α → Bool) (a : ℕ → α) (i : ℕ) : Prop :=
  ∀ k, 1 ≤ k → 1 ≤ i / 2 ^ k → cmp (a i) (a (i / 2 ^ k)) = true

theorem risesToRoot_move {cmp : α → α → Bool} {a : ℕ → α} {i : ℕ} (hi : 1 < i)
    (hc : cmp (a i) (a (i / 2)) = true) :
    RisesToRoot cmp (a ∘ Equiv.swap i (i / 2)) (i / 2) ↔ RisesToRoot cmp a i := by
  have hat : (a ∘ Equiv.swap i (i / 2)) (i / 2) = a i := by simp
  have hdiv (k : ℕ) : i / 2 / 2 ^ k = i / 2 ^ (k + 1) := by
    rw [Nat.div_div_eq_div_mul, Nat.pow_succ']
  have habove (k : ℕ) (hk : 1 ≤ k) (hroot : 1 ≤ i / 2 / 2 ^ k) :
      (a ∘ Equiv.swap i (i / 2)) (i / 2 / 2 ^ k) = a (i / 2 ^ (k + 1)) := by
    have hlt : i / 2 / 2 ^ k < i / 2 :=
      Nat.div_lt_self (by omega) (Nat.one_lt_two_pow (by omega))
    rw [Function.comp_apply, Equiv.swap_apply_of_ne_of_ne (by omega) (by omega), hdiv]
  unfold RisesToRoot
  rw [hat]
  constructor
  · intro h k hk hroot
    by_cases h1 : k = 1
    · subst h1
      rwa [pow_one]
    · obtain ⟨m, rfl⟩ : ∃ m, k = m + 1 := ⟨k - 1, by omega⟩
      rw [← hdiv] at hroot
      rw [← habove m (by omega) hroot]
      exact h m (by omega) hroot
  · intro h k hk hroot
    rw [habove k hk hroot]
    exact h (k + 1) (by omega) (by rwa [← hdiv])

theorem siftUp_root (cmp : α → α → Bool) (fuel : ℕ) (a : ℕ → α) (i : ℕ) (h1 : 1 ≤ i)
    (hf : i ≤ fuel) : (RisesToRoot cmp a i → siftUp cmp fuel a i 1 = a i) ∧
      (¬ RisesToRoot cmp a i → siftUp cmp fuel a i 1 = a 1) := by
  induction fuel generalizing a i with
  | zero => omega
  | succ fuel ih =>
    rw [siftUp]
    by_cases hc : 1 < i ∧ cmp (a i) (a (i / 2)) = true
    · rw [if_pos hc, ← risesToRoot_move hc.1 hc.2]
      obtain ⟨hrise, hstay⟩ := ih (a ∘ Equiv.swap i (i / 2)) (i / 2) (by omega) (by omega)
      refine ⟨fun h => (hrise h).trans (by simp), fun h => (hstay h).trans ?_⟩
      have hhalf : i / 2 ≠ 1 := by
        intro hhalf
        apply h
        intro k hk hroot
        have := Nat.div_lt_self (show 0 < i / 2 by omega) (Nat.one_lt_two_pow (show k ≠ 0 by omega))
        omega
      rw [Function.comp_apply, Equiv.swap_apply_of_ne_of_ne (by omega) hhalf.symm]
    · rw [if_neg hc]
      refine ⟨fun h => ?_, fun _ => rfl⟩
      by_cases hi : i = 1
      · rw [hi]
      · have := h 1 (le_refl 1) (by omega)
        rw [pow_one] at this
        exact absurd ⟨by omega, this⟩ hc

def siftDown (cmp : α → α → Bool) (choose : (ℕ → α) → ℕ → ℕ) (n : ℕ) : ℕ → (ℕ → α) → ℕ → (ℕ → α)
  | 0, a, _ => a
  | fuel + 1, a, i =>
    if 2 * i ≤ n ∧ cmp (a (choose a i)) (a i) = true then
      siftDown cmp choose n fuel (a ∘ Equiv.swap (choose a i) i) (choose a i)
    else a

def Chooses (choose : (ℕ → α) → ℕ → ℕ) (n : ℕ) : Prop :=
  ∀ a i, 2 * i ≤ n → choose a i / 2 = i ∧ choose a i ≤ n

structure DownReady (cmp : α → α → Bool) (a : ℕ → α) (n i : ℕ) : Prop where
  others : ∀ j, 2 ≤ j → j ≤ n → j / 2 ≠ i → cmp (a j) (a (j / 2)) = false
  grand : 2 ≤ i → ∀ j, j ≤ n → j / 2 = i → cmp (a j) (a (i / 2)) = false

def SafeChoice (cmp : α → α → Bool) (a : ℕ → α) (n i c : ℕ) : Prop :=
  ∀ j, j ≤ n → j / 2 = i → ¬ (cmp (a j) (a c) = true ∧ cmp (a j) (a i) = true)

def SafeRun (cmp : α → α → Bool) (choose : (ℕ → α) → ℕ → ℕ) (n : ℕ) : ℕ → (ℕ → α) → ℕ → Prop
  | 0, _, _ => True
  | fuel + 1, a, i =>
    2 * i ≤ n → SafeChoice cmp a n i (choose a i) ∧
      (cmp (a (choose a i)) (a i) = true →
        SafeRun cmp choose n fuel (a ∘ Equiv.swap (choose a i) i) (choose a i))

theorem siftDown_contents (cmp : α → α → Bool) {choose : (ℕ → α) → ℕ → ℕ} {n : ℕ}
    (hch : Chooses choose n) (fuel : ℕ) (a : ℕ → α) (i : ℕ) (h1 : 1 ≤ i) :
    contents (siftDown cmp choose n fuel a i) n = contents a n := by
  induction fuel generalizing a i with
  | zero => rfl
  | succ fuel ih =>
    rw [siftDown]
    split_ifs with hc
    · obtain ⟨hp, hn⟩ := hch a i hc.1
      rw [ih _ _ (by omega), contents_swap a ⟨by omega, hn⟩ ⟨h1, by omega⟩]
    · rfl

theorem siftDown_frame (cmp : α → α → Bool) {choose : (ℕ → α) → ℕ → ℕ} {n : ℕ}
    (hch : Chooses choose n) (fuel : ℕ) (a : ℕ → α) (i k : ℕ) (hk : ∀ t, k / 2 ^ t ≠ i) :
    siftDown cmp choose n fuel a i k = a k := by
  induction fuel generalizing a i with
  | zero => rfl
  | succ fuel ih =>
    rw [siftDown]
    split_ifs with hc
    · obtain ⟨hp, hn⟩ := hch a i hc.1
      have hki : k ≠ i := by simpa using hk 0
      have hsub : ∀ t, k / 2 ^ t ≠ choose a i := by
        intro t ht
        apply hk (t + 1)
        rw [Nat.pow_succ, ← Nat.div_div_eq_div_mul, ht, hp]
      have hkc : k ≠ choose a i := by simpa using hsub 0
      rw [ih _ _ hsub]
      simp [Equiv.swap_apply_of_ne_of_ne hkc hki]
    · rfl

theorem DownReady.move {cmp : α → α → Bool} [IsStrictWeakOrder α (fun x y => cmp x y = true)]
    {a : ℕ → α} {n i c : ℕ} (h : DownReady cmp a n i) (h1 : 1 ≤ i) (hp : c / 2 = i) (hn : c ≤ n)
    (hs : SafeChoice cmp a n i c) (hc : cmp (a c) (a i) = true) :
    DownReady cmp (a ∘ Equiv.swap c i) n c := by
  have hother (j : ℕ) (hjc : j ≠ c) (hji : j ≠ i) : (a ∘ Equiv.swap c i) j = a j := by
    simp [Equiv.swap_apply_of_ne_of_ne hjc hji]
  have hat : (a ∘ Equiv.swap c i) i = a c := by simp
  have hchild : (a ∘ Equiv.swap c i) c = a i := by simp
  constructor
  · intro j h2 hjn hjc2
    by_cases hjc : j = c
    · rw [hjc, hchild, hp, hat]
      exact cmp_asymm cmp hc
    · by_cases hji2 : j / 2 = i
      · -- `j` is the sibling that stays
        rw [hother j hjc (by omega), hji2, hat]
        by_contra hlt
        have hlt' : cmp (a j) (a c) = true := by simpa using hlt
        exact hs j hjn hji2 ⟨hlt', cmp_trans cmp hlt' hc⟩
      · rw [hother (j / 2) hjc2 hji2]
        by_cases hji : j = i
        · subst hji
          rw [hat]
          exact h.grand h2 c hn hp
        · rw [hother j hjc hji]
          exact h.others j h2 hjn hji2
  · intro _ j hjn hj
    rw [hother j (by omega) (by omega), hp, hat, ← hj]
    exact h.others j (by omega) hjn (by omega)

theorem DownReady.stop {cmp : α → α → Bool} [IsStrictWeakOrder α (fun x y => cmp x y = true)]
    {a : ℕ → α} {n i c : ℕ} (h : DownReady cmp a n i) (hs : SafeChoice cmp a n i c)
    (hc : cmp (a c) (a i) = false) : Ordered cmp a n := by
  intro j h2 hjn
  by_cases hji : j / 2 = i
  · rw [hji]
    by_contra hlt
    have hlt' : cmp (a j) (a i) = true := by simpa using hlt
    have hjc : cmp (a j) (a c) = false := by
      by_contra hjc
      exact hs j hjn hji ⟨by simpa using hjc, hlt'⟩
    exact hlt (not_cmp_trans cmp hjc hc)
  · exact h.others j h2 hjn hji

theorem div_pow_lt {i j c : ℕ} (hj : j / 2 = i) (hc : c / 2 = i) (hne : j ≠ c) (h1 : 1 ≤ i) (t : ℕ) :
    j / 2 ^ t ≠ c := by
  cases t with
  | zero => simpa using hne
  | succ t =>
    rw [Nat.pow_succ', ← Nat.div_div_eq_div_mul, hj]
    have := Nat.div_le_self i (2 ^ t)
    omega

theorem siftDown_ordered_iff (cmp : α → α → Bool)
    [IsStrictWeakOrder α (fun x y => cmp x y = true)] {choose : (ℕ → α) → ℕ → ℕ} {n : ℕ}
    (hch : Chooses choose n) (fuel : ℕ) (a : ℕ → α) (i : ℕ) (h : DownReady cmp a n i) (h1 : 1 ≤ i)
    (hf : n < i + fuel) :
    Ordered cmp (siftDown cmp choose n fuel a i) n ↔ SafeRun cmp choose n fuel a i := by
  induction fuel generalizing a i with
  | zero =>
    simp only [siftDown, SafeRun, iff_true]
    intro j h2 hjn
    exact h.others j h2 hjn (by omega)
  | succ fuel ih =>
    rw [siftDown, SafeRun]
    by_cases h2i : 2 * i ≤ n
    swap
    · simp only [h2i, false_and, ↓reduceIte, false_implies, iff_true]
      intro j h2 hjn
      exact h.others j h2 hjn (by omega)
    obtain ⟨hp, hn⟩ := hch a i h2i
    generalize hcdef : choose a i = c at hp hn
    simp only [h2i, true_and, true_implies]
    by_cases hc : cmp (a c) (a i) = true
    · simp only [hc, ↓reduceIte, true_implies]
      by_cases hs : SafeChoice cmp a n i c
      · simp only [hs, true_and]
        exact ih _ _ (h.move h1 hp hn hs hc) (by omega) (by omega)
      · simp only [hs, false_and, iff_false]
        intro ho
        apply hs
        intro j hjn hj ⟨hjc, hji⟩
        have hne : j ≠ c := by
          rintro rfl
          rw [cmp_irrefl cmp] at hjc
          cases hjc
        have hoj := ho j (by omega) hjn
        have hfi : ∀ t, i / 2 ^ t ≠ c := fun t => by
          have := Nat.div_le_self i (2 ^ t)
          omega
        rw [siftDown_frame cmp hch _ _ _ _ (div_pow_lt hj hp hne h1), hj,
          siftDown_frame cmp hch _ _ _ _ hfi] at hoj
        simp [Equiv.swap_apply_of_ne_of_ne hne (show j ≠ i by omega), hjc] at hoj
    · have hc' : cmp (a c) (a i) = false := by simpa using hc
      simp only [hc', Bool.false_eq_true, ↓reduceIte, false_implies, and_true]
      constructor
      · intro ho j hjn hj ⟨_, hji⟩
        have := ho j (by omega) hjn
        rw [hj, hji] at this
        cases this
      · intro hs
        exact h.stop hs hc'

end Sginx.Library.ImplicitHeap
