import Mathlib.Data.List.Basic

namespace Sginx.Library.FirstMatch

variable {α β : Type*}

def putFirst (p : α → Bool) (x : α) : List α → List α
  | [] => [x]
  | y :: ys => if p y then x :: ys else y :: putFirst p x ys

theorem map_putFirst {f : α → β} {p : α → Bool} {q : β → Bool} (x : α) {xs : List α}
    (h : ∀ y ∈ xs, p y = q (f y)) : (putFirst p x xs).map f = putFirst q (f x) (xs.map f) := by
  induction xs with
  | nil => rfl
  | cons y ys ih =>
    rw [List.forall_mem_cons] at h
    rw [putFirst, List.map_cons, putFirst, h.1]
    split_ifs
    · rfl
    · rw [List.map_cons, ih h.2]

theorem find?_putFirst_self {p : α → Bool} {x : α} (hx : p x = true) (xs : List α) :
    (putFirst p x xs).find? p = some x := by
  induction xs with
  | nil => simp [putFirst, hx]
  | cons y ys ih =>
    rw [putFirst]
    split_ifs with hy
    · simp [hx]
    · simp [hy, ih]

theorem find?_putFirst_erase {p : α → Bool} {x : α} (hx : p x = false) (xs : List α) :
    (putFirst p x xs).find? p = (xs.eraseP p).find? p := by
  induction xs with
  | nil => simp [putFirst, hx]
  | cons y ys ih =>
    rw [putFirst]
    split_ifs with hy
    · simp [hx, hy]
    · simp [hy, ih]

theorem find?_putFirst_other {p q : α → Bool} {x : α} (hx : q x = false)
    (hpq : ∀ y, p y = true → q y = false) (xs : List α) :
    (putFirst p x xs).find? q = xs.find? q := by
  induction xs with
  | nil => simp [putFirst, hx]
  | cons y ys ih =>
    rw [putFirst]
    split_ifs with hy
    · simp [hx, hpq y hy]
    · simp [ih, List.find?_cons]

end Sginx.Library.FirstMatch
