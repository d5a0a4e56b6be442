import Mathlib.Data.Nat.Find
import Mathlib.Logic.Function.Basic
import Mathlib.Tactic.Linarith
import Sginx.Library.Regions

namespace Sginx.Library.Bitmap

open Sginx.Library.Regions

variable {ι : Type*} {w : ℕ}

theorem eq_allOnes_iff {x : BitVec w} : x = BitVec.allOnes w ↔ ∀ k < w, x.getLsbD k = true := by
  constructor
  · rintro rfl k hk
    rw [BitVec.getLsbD_allOnes, decide_eq_true hk]
  · intro h
    apply BitVec.eq_of_getLsbD_eq
    intro k hk
    rw [h k hk, BitVec.getLsbD_allOnes, decide_eq_true hk]

theorem ne_allOnes_iff {x : BitVec w} :
    x ≠ BitVec.allOnes w ↔ ∃ k < w, x.getLsbD k = false := by
  rw [Ne, eq_allOnes_iff]
  push Not
  simp only [ne_eq, Bool.not_eq_true]

theorem twoPow_ne_zero {k : ℕ} (hk : k < w) : BitVec.twoPow w k ≠ 0 := by
  intro h
  have hbit := congrArg (fun y => y.getLsbD k) h
  simp [hk] at hbit

theorem and_twoPow_eq_zero_iff {x : BitVec w} {k : ℕ} (hk : k < w) :
    x &&& BitVec.twoPow w k = 0 ↔ x.getLsbD k = false := by
  rw [BitVec.and_twoPow]
  cases x.getLsbD k
  · exact iff_of_true rfl rfl
  · exact iff_of_false (twoPow_ne_zero hk) (by decide)

theorem twoPow_shiftLeft_one (k : ℕ) : BitVec.twoPow w k <<< 1 = BitVec.twoPow w (k + 1) := by
  rw [BitVec.twoPow_eq, BitVec.twoPow_eq, BitVec.shiftLeft_add]

structure FirstClear (words : ℕ → BitVec w) (n i k : ℕ) : Prop where
  word_lt : i < n
  bit_lt : k < w
  clear : (words i).getLsbD k = false
  words_before : ∀ i' < i, words i' = BitVec.allOnes w
  bits_before : ∀ k' < k, (words i).getLsbD k' = true

theorem exists_firstClear {words : ℕ → BitVec w} {n : ℕ}
    (h : ∃ i < n, words i ≠ BitVec.allOnes w) : ∃ i k, FirstClear words n i k := by
  classical
  obtain ⟨hlt, hword⟩ := Nat.find_spec h
  have hbit := ne_allOnes_iff.mp hword
  obtain ⟨hk, hclear⟩ := Nat.find_spec hbit
  refine ⟨Nat.find h, Nat.find hbit, hlt, hk, hclear, fun i' hi' => ?_, fun k' hk' => ?_⟩
  · by_contra hne
    exact Nat.find_min h hi' ⟨lt_trans hi' hlt, hne⟩
  · rw [← Bool.not_eq_false]
    intro hfalse
    exact Nat.find_min hbit hk' ⟨lt_trans hk' hk, hfalse⟩

theorem FirstClear.ne_allOnes {words : ℕ → BitVec w} {n i k : ℕ} (h : FirstClear words n i k) :
    words i ≠ BitVec.allOnes w := ne_allOnes_iff.mpr ⟨k, h.bit_lt, h.clear⟩

theorem FirstClear.at_zero_iff {words : ℕ → BitVec w} {n i k : ℕ} (h : FirstClear words n i k) :
    (i = 0 ∧ k = 0) ↔ (words 0).getLsbD 0 = false := by
  constructor
  · rintro ⟨rfl, rfl⟩
    exact h.clear
  · intro hclear
    have hw : 0 < w := Nat.zero_lt_of_lt h.bit_lt
    have hi : i = 0 := by
      by_contra hne
      have hones := eq_allOnes_iff.mp (h.words_before 0 (Nat.pos_of_ne_zero hne)) 0 hw
      rw [hclear] at hones
      cases hones
    refine ⟨hi, ?_⟩
    by_contra hne
    have hset := h.bits_before 0 (Nat.pos_of_ne_zero hne)
    rw [hi, hclear] at hset
    cases hset

variable [DecidableEq ι]

def take (words : ι → BitVec w) (i : ι) (k : ℕ) : ι → BitVec w :=
  Function.update words i (words i ||| BitVec.twoPow w k)

theorem getLsbD_take (words : ι → BitVec w) (i : ι) {k : ℕ} (hk : k < w) (i' : ι) (k' : ℕ) :
    (take words i k i').getLsbD k' = true ↔
      (i' = i ∧ k' = k) ∨ (words i').getLsbD k' = true := by
  by_cases hi : i' = i
  · subst hi
    rw [take, Function.update_self, BitVec.getLsbD_or, BitVec.getLsbD_twoPow]
    simp only [Bool.or_eq_true, Bool.and_eq_true, decide_eq_true_eq, true_and]
    constructor
    · rintro (h | ⟨-, rfl⟩)
      · exact .inr h
      · exact .inl rfl
    · rintro (rfl | h)
      · exact .inr ⟨hk, rfl⟩
      · exact .inl h
  · rw [take, Function.update_of_ne hi]
    simp only [hi, false_and, false_or]

inductive Takes : (ι → BitVec w) → List (ι × ℕ) → (ι → BitVec w) → Prop where
  | start (words) : Takes words [] words
  | take {words words' taken i k} : Takes words taken words' → k < w →
      (words' i).getLsbD k = false → Takes words ((i, k) :: taken) (take words' i k)

theorem Takes.set {words words' : ι → BitVec w} {taken : List (ι × ℕ)}
    (h : Takes words taken words') : ∀ b ∈ taken, (words' b.1).getLsbD b.2 = true := by
  induction h with
  | start => exact fun _ hb => absurd hb List.not_mem_nil
  | take _ hk _ ih =>
    intro b hb
    apply (getLsbD_take _ _ hk b.1 b.2).mpr
    rcases List.mem_cons.mp hb with rfl | hb
    · exact .inl ⟨rfl, rfl⟩
    · exact .inr (ih b hb)

theorem Takes.nodup {words words' : ι → BitVec w} {taken : List (ι × ℕ)}
    (h : Takes words taken words') : taken.Nodup := by
  induction h with
  | start => exact List.nodup_nil
  | take hrun _ hclear ih =>
    apply List.nodup_cons.mpr
    refine ⟨fun hmem => ?_, ih⟩
    have hset := hrun.set _ hmem
    rw [hclear] at hset
    cases hset

def chunk (base size n : ℕ) : Span ℕ := ⟨base + n * size, base + n * size + size⟩

theorem chunk_apart {base size n m : ℕ} (h : n ≠ m) :
    (chunk base size n).Apart (chunk base size m) := by
  rcases Nat.lt_or_gt_of_ne h with hlt | hlt
  · left
    have hmul := Nat.mul_le_mul_right size hlt
    rw [Nat.succ_mul] at hmul
    simp only [chunk]
    omega
  · right
    have hmul := Nat.mul_le_mul_right size hlt
    rw [Nat.succ_mul] at hmul
    simp only [chunk]
    omega

theorem chunk_within {base size n count : ℕ} (h : n < count) :
    (chunk base size n).Within ⟨base, base + count * size⟩ := by
  have hmul := Nat.mul_le_mul_right size h
  rw [Nat.succ_mul] at hmul
  constructor
  · exact Nat.le_add_right _ _
  · simp only [chunk]
    omega

theorem number_inj {i i' k k' : ℕ} (hk : k < w) (hk' : k' < w)
    (h : i * w + k = i' * w + k') : i = i' ∧ k = k' := by
  have hi : i = i' := by
    have hdiv := congrArg (· / w) h
    have hw : 0 < w := Nat.zero_lt_of_lt hk
    simpa only [Nat.mul_comm _ w, Nat.mul_add_div hw, Nat.div_eq_of_lt hk, Nat.div_eq_of_lt hk',
      Nat.add_zero] using hdiv
  subst hi
  exact ⟨rfl, Nat.add_left_cancel h⟩

end Sginx.Library.Bitmap
