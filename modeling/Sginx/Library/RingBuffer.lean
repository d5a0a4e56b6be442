import Mathlib.Data.Fin.Basic
import Mathlib.Data.Int.ModEq
import Mathlib.Data.List.Basic
import Mathlib.Logic.Function.Basic

/-!
Ring buffers: a byte with the absolute index `i` of an unbounded stream lives in slot `i % M`.
-/

namespace Sginx.Library.RingBuffer

variable {M : ℕ} [NeZero M] {β : Type*}

def slot (M : ℕ) [NeZero M] (i : ℕ) : Fin M := ⟨i % M, Nat.mod_lt i (Nat.pos_of_ne_zero (NeZero.ne M))⟩

@[simp] theorem slot_val (i : ℕ) : (slot M i : ℕ) = i % M := rfl

theorem slot_lap (i q : ℕ) : slot M (i + q * M) = slot M i :=
  Fin.ext (Nat.add_mul_mod_self_right i q M)

theorem slot_ne {i j : ℕ} (hij : i < j) (hj : j < i + M) : slot M i ≠ slot M j := by
  intro h
  have hm : i % M = j % M := congrArg Fin.val h
  have hd : M ∣ j - i := (Nat.modEq_iff_dvd' (by omega)).mp hm
  have := Nat.le_of_dvd (by omega) hd
  omega

theorem slot_injOn {base i j : ℕ} (hi : base ≤ i ∧ i < base + M) (hj : base ≤ j ∧ j < base + M)
    (h : slot M i = slot M j) : i = j := by
  rcases Nat.lt_trichotomy i j with hlt | heq | hgt
  · exact absurd h (slot_ne hlt (by omega))
  · exact heq
  · exact absurd h.symm (slot_ne hgt (by omega))

def Straddles (M i j : ℕ) : Prop := j % M < i % M

instance (i j : ℕ) : Decidable (Straddles M i j) := inferInstanceAs (Decidable (_ < _))

theorem slot_sub {i j : ℕ} (hij : i ≤ j) (hj : j < i + M) :
    ((j % M : ℕ) : ℤ) - ((i % M : ℕ) : ℤ) = (j : ℤ) - i - if Straddles M i j then (M : ℤ) else 0 := by
  have hM := Nat.pos_of_ne_zero (NeZero.ne M)
  have hi := Nat.mod_lt i hM
  have hjM := Nat.mod_lt j hM
  have hdi := Nat.div_add_mod i M
  have hdj := Nat.div_add_mod j M
  have hle : i / M ≤ j / M := Nat.div_le_div_right hij
  have hlt : j / M ≤ i / M + 1 := by
    rw [← Nat.add_div_right i hM]
    exact Nat.div_le_div_right (by omega)
  rcases (by omega : j / M = i / M ∨ j / M = i / M + 1) with h | h
  · rw [h] at hdj
    have hs : ¬ Straddles M i j := by unfold Straddles; omega
    rw [if_neg hs]
    omega
  · rw [h, Nat.mul_add, Nat.mul_one] at hdj
    have hs : Straddles M i j := by unfold Straddles; omega
    rw [if_pos hs]
    omega

def put (buf : Fin M → β) (i : ℕ) (b : β) : Fin M → β := Function.update buf (slot M i) b

def putAll (buf : Fin M → β) : ℕ → List β → Fin M → β
  | _, [] => buf
  | i, b :: bs => putAll (put buf i b) (i + 1) bs

theorem putAll_append (buf : Fin M → β) (i : ℕ) (xs ys : List β) :
    putAll buf i (xs ++ ys) = putAll (putAll buf i xs) (i + xs.length) ys := by
  induction xs generalizing buf i with
  | nil => rfl
  | cons x xs ih =>
    rw [List.cons_append, putAll, putAll, ih, List.length_cons, Nat.add_right_comm, Nat.add_assoc]

def Holds (buf : Fin M → β) (base : ℕ) (xs : List β) : Prop :=
  ∀ i < xs.length, xs[i]? = some (buf (slot M (base + i)))

theorem holds_nil (buf : Fin M → β) (base : ℕ) : Holds buf base [] := fun i h => by simp at h

theorem Holds.append_left {buf : Fin M → β} {base : ℕ} {xs ys : List β}
    (h : Holds buf base (xs ++ ys)) : Holds buf base xs := by
  intro i hi
  rw [← h i (by simp; omega), List.getElem?_append_left hi]

theorem Holds.drop {buf : Fin M → β} {base : ℕ} {xs : List β} (h : Holds buf base xs) (k : ℕ) :
    Holds buf (base + k) (xs.drop k) := by
  intro i hi
  rw [List.length_drop] at hi
  rw [List.getElem?_drop, h (k + i) (by omega), Nat.add_assoc]

theorem Holds.concat {buf : Fin M → β} {base : ℕ} {xs : List β} (h : Holds buf base xs) {b : β}
    (hb : buf (slot M (base + xs.length)) = b) : Holds buf base (xs ++ [b]) := by
  intro i hi
  rw [List.length_append, List.length_singleton] at hi
  by_cases hx : i < xs.length
  · rw [List.getElem?_append_left hx]
    exact h i hx
  · obtain rfl : i = xs.length := by omega
    simp [hb]

theorem Holds.put {buf : Fin M → β} {base : ℕ} {xs : List β} (h : Holds buf base xs)
    (hlen : xs.length < M) (b : β) : Holds (put buf (base + xs.length) b) base (xs ++ [b]) := by
  refine Holds.concat ?_ (by simp [RingBuffer.put])
  intro i hi
  rw [RingBuffer.put, Function.update_of_ne (slot_ne (by omega) (by omega))]
  exact h i hi

theorem Holds.putAll {buf : Fin M → β} {base : ℕ} {xs : List β} (h : Holds buf base xs)
    (ys : List β) (hlen : xs.length + ys.length ≤ M) :
    Holds (putAll buf (base + xs.length) ys) base (xs ++ ys) := by
  induction ys generalizing buf xs with
  | nil => simpa [RingBuffer.putAll] using h
  | cons y ys ih =>
    rw [List.length_cons] at hlen
    have := ih (h.put (by omega) y) (by simp; omega)
    simpa [RingBuffer.putAll, Nat.add_assoc] using this

def window (buf : Fin M → β) : ℕ → ℕ → List β
  | _, 0 => []
  | base, n + 1 => buf (slot M base) :: window buf (base + 1) n

@[simp] theorem window_length (buf : Fin M → β) (base n : ℕ) : (window buf base n).length = n := by
  induction n generalizing base with
  | zero => rfl
  | succ n ih => simp [window, ih]

theorem holds_window (buf : Fin M → β) (base n : ℕ) : Holds buf base (window buf base n) := by
  induction n generalizing base with
  | zero => exact holds_nil buf base
  | succ n ih =>
    intro i hi
    cases i with
    | zero => rfl
    | succ i =>
      have := ih (base + 1) i (by simpa [window] using hi)
      simpa [window, Nat.add_assoc, Nat.add_comm 1 i] using this

theorem putAll_window (buf : Fin M → β) (base n : ℕ) :
    putAll buf base (window buf base n) = buf := by
  induction n generalizing base with
  | zero => rfl
  | succ n ih =>
    rw [window, putAll, put, Function.update_eq_self]
    exact ih (base + 1)

theorem Holds.window_eq {buf : Fin M → β} {base : ℕ} {xs : List β} (h : Holds buf base xs) :
    window buf base xs.length = xs := by
  apply List.ext_getElem?
  intro i
  by_cases hi : i < xs.length
  · rw [h i hi, holds_window buf base xs.length i (by simpa using hi)]
  · rw [List.getElem?_eq_none (by simpa using hi), List.getElem?_eq_none (by simpa using hi)]

end Sginx.Library.RingBuffer
