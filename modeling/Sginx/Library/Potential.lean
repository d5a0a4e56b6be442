import Mathlib.Algebra.BigOperators.Fin
import Sginx.Library.Transition

namespace Sginx.Library.Potential

open Sginx.Library.Transition

variable {S A : Type*} (step : S → A → Option S) (cost : S → A → ℕ)

def runCost : S → List A → ℕ
  | _, [] => 0
  | s, a :: as => cost s a + (step s a).elim 0 fun s' => runCost s' as

structure Amortized (I : S → Prop) (potential : S → ℕ) (price : A → ℕ) : Prop where
  keeps : ∀ s a s', I s → step s a = some s' → I s'
  pays : ∀ s a s', I s → step s a = some s' → cost s a + potential s' ≤ potential s + price a

variable {step cost}

theorem Amortized.run {I : S → Prop} {potential : S → ℕ} {price : A → ℕ}
    (h : Amortized step cost I potential price) {s s' : S} (hI : I s) {as : List A}
    (heq : execute step s as = some s') :
    runCost step cost s as + potential s' ≤ potential s + (as.map price).sum := by
  induction as generalizing s with
  | nil =>
    obtain rfl := Option.some.inj heq
    simp [runCost]
  | cons a as ih =>
    obtain ⟨t, ha, hrest⟩ := Option.bind_eq_some_iff.mp heq
    have hstep := h.pays _ _ _ hI ha
    have hrun := ih (h.keeps _ _ _ hI ha) hrest
    rw [runCost, ha, Option.elim_some, List.map_cons, List.sum_cons]
    omega

theorem sum_price (p : A → Bool) (k : ℕ) (as : List A) :
    (as.map fun a => if p a then k else 0).sum = k * as.countP p := by
  induction as with
  | nil => rfl
  | cons a as ih =>
    rw [List.map_cons, List.sum_cons, ih, List.countP_cons, Nat.mul_add, Nat.add_comm]
    congr 1
    split_ifs with ha
    · exact (Nat.mul_one k).symm
    · rfl

end Sginx.Library.Potential
