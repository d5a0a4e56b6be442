import Mathlib.Algebra.BigOperators.Fin
import Mathlib.Algebra.Order.BigOperators.Group.Finset
import Mathlib.Data.Fintype.Basic
import Mathlib.Data.Fintype.Card

namespace Sginx.Library.Census

variable {ι α : Type*} [Fintype ι]

def census (p : α → Bool) (f : ι → α) : ℕ := (Finset.univ.filter fun i => p (f i)).card

theorem census_congr {p : α → Bool} {f g : ι → α} (h : ∀ i, p (f i) = p (g i)) :
    census p f = census p g := by
  simp only [census, h]

theorem census_eq_zero {p : α → Bool} {f : ι → α} (h : ∀ i, p (f i) = false) : census p f = 0 := by
  simp [census, h]

theorem census_pos {p : α → Bool} {f : ι → α} {i : ι} (h : p (f i) = true) : 0 < census p f :=
  Finset.card_pos.mpr ⟨i, Finset.mem_filter.mpr ⟨Finset.mem_univ i, h⟩⟩

theorem exists_of_census_pos {p : α → Bool} {f : ι → α} (h : 0 < census p f) :
    ∃ i, p (f i) = true := by
  obtain ⟨i, hi⟩ := Finset.card_pos.mp h
  exact ⟨i, (Finset.mem_filter.mp hi).2⟩

theorem census_eq_one_iff {p : α → Bool} {f : ι → α} : census p f = 1 ↔ ∃! i, p (f i) = true := by
  rw [census, Finset.card_eq_one]
  constructor
  · rintro ⟨i, hi⟩
    have hmem (j : ι) : p (f j) = true ↔ j = i := by
      have := Finset.ext_iff.mp hi j
      simpa using this
    exact ⟨i, (hmem i).mpr rfl, fun j hj => (hmem j).mp hj⟩
  · rintro ⟨i, hi, huniq⟩
    refine ⟨i, ?_⟩
    ext j
    simp only [Finset.mem_filter, Finset.mem_univ, true_and, Finset.mem_singleton]
    constructor
    · exact huniq j
    · rintro rfl
      exact hi

variable [DecidableEq ι]

theorem census_split (p : α → Bool) (f : ι → α) (i : ι) :
    census p f = ((Finset.univ.erase i).filter fun j => p (f j)).card + (p (f i)).toNat := by
  rw [census, ← Finset.insert_erase (Finset.mem_univ i), Finset.filter_insert,
    Finset.erase_insert_eq_erase, Finset.erase_idem]
  cases hp : p (f i) with
  | true =>
    rw [if_pos rfl, Finset.card_insert_of_notMem (by simp)]
    rfl
  | false => rfl

theorem census_of_unique {p : α → Bool} {f : ι → α} {i : ι} (h : ∀ j, j ≠ i → p (f j) = false) :
    census p f = (p (f i)).toNat := by
  have hothers : ((Finset.univ.erase i).filter fun j => p (f j)) = ∅ := by
    apply Finset.filter_eq_empty_iff.mpr
    intro j hj
    rw [h j (Finset.ne_of_mem_erase hj)]
    exact Bool.noConfusion
  rw [census_split p f i, hothers, Finset.card_empty, Nat.zero_add]

theorem census_update (p : α → Bool) (f : ι → α) (i : ι) (a : α) :
    census p (Function.update f i a) + (p (f i)).toNat = census p f + (p a).toNat := by
  have hothers : ((Finset.univ.erase i).filter fun j => p (Function.update f i a j)) =
      (Finset.univ.erase i).filter fun j => p (f j) := by
    apply Finset.filter_congr
    intro j hj
    rw [Function.update_of_ne (Finset.ne_of_mem_erase hj)]
  rw [census_split p f i, census_split p _ i, hothers, Function.update_self]
  omega

theorem census_update_same {p : α → Bool} {f : ι → α} {i : ι} {a : α} (h : p a = p (f i)) :
    census p (Function.update f i a) = census p f := by
  have := census_update p f i a
  rw [h] at this
  omega

omit [DecidableEq ι] in
def total (w : α → ℕ) (f : ι → α) : ℕ := ∑ i, w (f i)

omit [DecidableEq ι] in
theorem total_le {w : α → ℕ} {f g : ι → α} (h : ∀ i, w (f i) ≤ w (g i)) : total w f ≤ total w g :=
  Finset.sum_le_sum fun i _ => h i

theorem total_update (w : α → ℕ) (f : ι → α) (i : ι) (a : α) :
    total w (Function.update f i a) + w (f i) = total w f + w a := by
  have hf := Finset.add_sum_erase Finset.univ (fun j => w (f j)) (Finset.mem_univ i)
  have hg := Finset.add_sum_erase Finset.univ (fun j => w (Function.update f i a j))
    (Finset.mem_univ i)
  have hothers : ∑ j ∈ Finset.univ.erase i, w (Function.update f i a j) =
      ∑ j ∈ Finset.univ.erase i, w (f j) := by
    apply Finset.sum_congr rfl
    intro j hj
    rw [Function.update_of_ne (Finset.ne_of_mem_erase hj)]
  simp only [Function.update_self] at hg
  simp only [total]
  omega

theorem total_fin_le {n k : ℕ} {w : α → ℕ} (h : ∀ a, w a ≤ k) (f : Fin n → α) :
    total w f ≤ k * n := by
  have := Finset.sum_le_card_nsmul Finset.univ (fun i => w (f i)) k fun i _ => h (f i)
  simp only [Finset.card_univ, Fintype.card_fin, smul_eq_mul] at this
  rw [Nat.mul_comm k n]
  exact this

end Sginx.Library.Census
