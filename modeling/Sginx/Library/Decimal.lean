import Mathlib.Data.Nat.Basic
import Mathlib.Tactic.Ring
import Sginx.Library.CString

namespace Sginx.Library.Decimal

def isspace (c : UInt8) : Bool := c = 32 ∨ 9 ≤ c ∧ c ≤ 13

def isdigit (c : UInt8) : Bool := 48 ≤ c ∧ c ≤ 57

def digit (c : UInt8) : ℕ := c.toNat - 48

def decimal (cs : List UInt8) : ℕ := cs.foldl (fun v c => 10 * v + digit c) 0

def longClamp (x : ℤ) : ℤ := max (-2 ^ 63) (min x (2 ^ 63 - 1))

/-- Spaces, a sign, and the digits that follow, in base ten. -/
def strtol (s : List UInt8) : ℤ :=
  match s.dropWhile isspace with
  | [] => 0
  | c :: rest =>
    if c = 45 then longClamp (-(decimal (rest.takeWhile isdigit) : ℤ))
    else if c = 43 then longClamp (decimal (rest.takeWhile isdigit))
    else longClamp (decimal ((c :: rest).takeWhile isdigit))

/-- The value of `strtol` for the bytes before the `NUL`, as an `int`. -/
def atoi (s : List UInt8) : ℤ := (strtol (s.takeWhile (· ≠ 0))).bmod (2 ^ 32)

theorem atoi_nul (xs ys : List UInt8) : atoi (xs ++ 0 :: ys) = atoi xs := by
  rw [atoi, atoi, CString.takeWhile_nul]

theorem decimal_foldl (cs : List UInt8) (v : ℕ) :
    cs.foldl (fun v c => 10 * v + digit c) v = v * 10 ^ cs.length + decimal cs := by
  induction cs generalizing v with
  | nil => simp [decimal]
  | cons c cs ih =>
    rw [decimal, List.foldl_cons, List.foldl_cons, ih, ih (10 * 0 + digit c), List.length_cons]
    ring

theorem decimal_append (xs ys : List UInt8) :
    decimal (xs ++ ys) = decimal xs * 10 ^ ys.length + decimal ys := by
  rw [decimal, List.foldl_append, decimal_foldl ys]
  rfl

theorem decimal_cons (c : UInt8) (cs : List UInt8) :
    decimal (c :: cs) = digit c * 10 ^ cs.length + decimal cs := by
  rw [← List.singleton_append, decimal_append]
  simp [decimal]

theorem decimal_take_drop (cs : List UInt8) (k : ℕ) :
    decimal cs = decimal (cs.take k) * 10 ^ (cs.length - k) + decimal (cs.drop k) := by
  rw [← List.length_drop, ← decimal_append, List.take_append_drop]

theorem decimal_take_le (cs : List UInt8) (k : ℕ) : decimal (cs.take k) ≤ decimal cs := by
  rw [decimal_take_drop cs k]
  exact le_add_right (Nat.le_mul_of_pos_right _ (Nat.pow_pos (by decide)))

theorem decimal_take_eq_iff (cs : List UInt8) (k : ℕ) :
    decimal (cs.take k) = decimal cs ↔ decimal cs = 0 ∨ cs.length ≤ k := by
  have hsplit := decimal_take_drop cs k
  have hle := decimal_take_le cs k
  constructor
  · intro h
    by_contra hnot
    rw [not_or, not_le] at hnot
    obtain ⟨hpos, hlen⟩ := hnot
    have hten : 10 ≤ 10 ^ (cs.length - k) := Nat.le_self_pow (by omega) 10
    have hmul : decimal cs * 10 ≤ decimal cs * 10 ^ (cs.length - k) := Nat.mul_le_mul_left _ hten
    rw [h] at hsplit
    omega
  · rintro (hzero | hlen)
    · omega
    · rw [List.take_of_length_le hlen]

theorem decimal_tail_take_eq_iff (c : UInt8) (cs : List UInt8) (k : ℕ) :
    decimal (cs.take k) = decimal (c :: cs) ↔
      decimal (c :: cs) = 0 ∨ cs.length ≤ k ∧ digit c = 0 := by
  have hcons := decimal_cons c cs
  have hle := decimal_take_le cs k
  by_cases hdigit : digit c = 0
  · rw [hdigit, Nat.zero_mul, Nat.zero_add] at hcons
    rw [hcons, decimal_take_eq_iff, and_iff_left hdigit]
  · have hpos : 0 < digit c * 10 ^ cs.length :=
      Nat.mul_pos (Nat.pos_of_ne_zero hdigit) (Nat.pow_pos (by decide))
    refine iff_of_false (by omega) ?_
    rintro (hzero | ⟨-, hzero⟩)
    · omega
    · exact hdigit hzero

theorem digit_eq_zero_iff {c : UInt8} (h : isdigit c) : digit c = 0 ↔ c = 48 := by
  simp only [isdigit, decide_eq_true_eq, UInt8.le_iff_toNat_le] at h
  have hlo : 48 ≤ c.toNat := h.1
  rw [digit, ← UInt8.toNat_inj]
  change c.toNat - 48 = 0 ↔ c.toNat = 48
  omega

theorem not_isspace {c : UInt8} (h : isdigit c) : isspace c = false := by
  simp only [isdigit, decide_eq_true_eq, UInt8.le_iff_toNat_le] at h
  obtain ⟨hlo, hhi⟩ := h
  change 48 ≤ c.toNat at hlo
  simp only [isspace, decide_eq_false_iff_not, UInt8.le_iff_toNat_le, ← UInt8.toNat_inj]
  change ¬ (c.toNat = 32 ∨ 9 ≤ c.toNat ∧ c.toNat ≤ 13)
  omega

theorem lt_of_isspace {c : UInt8} (h : isspace c) : c < 65 := by
  simp only [isspace, decide_eq_true_eq, UInt8.le_iff_toNat_le] at h
  rw [UInt8.lt_iff_toNat_lt]
  change c.toNat < 65
  rcases h with rfl | ⟨-, hhi⟩
  · decide
  · change c.toNat ≤ 13 at hhi
    omega

theorem lt_of_isdigit {c : UInt8} (h : isdigit c) : c < 65 := by
  simp only [isdigit, decide_eq_true_eq, UInt8.le_iff_toNat_le] at h
  have hhi : c.toNat ≤ 57 := h.2
  rw [UInt8.lt_iff_toNat_lt]
  change c.toNat < 65
  omega

theorem ne_of_isdigit {c : UInt8} (h : isdigit c) {d : UInt8} (hd : isdigit d = false) : c ≠ d := by
  rintro rfl
  rw [h] at hd
  cases hd

theorem ne_zero_of_isspace {c : UInt8} (h : isspace c) : c ≠ 0 := by
  rintro rfl
  exact absurd h (by decide)

theorem atoi_digits {spaces digits : List UInt8} (hspaces : ∀ c ∈ spaces, isspace c)
    (hdigits : ∀ c ∈ digits, isdigit c) (hmax : decimal digits < 2 ^ 31) :
    atoi (spaces ++ digits) = decimal digits := by
  have htext : (spaces ++ digits).takeWhile (· ≠ 0) = spaces ++ digits := by
    apply List.takeWhile_eq_self_iff.mpr
    intro c hc
    rw [decide_eq_true_eq]
    rcases List.mem_append.mp hc with hc | hc
    · exact ne_zero_of_isspace (hspaces c hc)
    · exact ne_of_isdigit (hdigits c hc) (by decide)
  have hdrop : (spaces ++ digits).dropWhile isspace = digits := by
    rw [List.dropWhile_append_of_pos hspaces]
    cases digits with
    | nil => rfl
    | cons c digits =>
      apply List.dropWhile_cons_of_neg
      rw [not_isspace (hdigits c List.mem_cons_self)]
      exact Bool.false_ne_true
  have hall : digits.takeWhile isdigit = digits := List.takeWhile_eq_self_iff.mpr hdigits
  have hclamp : longClamp (decimal digits) = decimal digits := by
    rw [longClamp]
    omega
  have hlong : strtol (spaces ++ digits) = decimal digits := by
    rw [strtol, hdrop]
    cases digits with
    | nil => rfl
    | cons c rest =>
      have hc := hdigits c List.mem_cons_self
      dsimp only
      rw [if_neg (ne_of_isdigit hc (by decide)), if_neg (ne_of_isdigit hc (by decide)), hall,
        hclamp]
  rw [atoi, htext, hlong]
  apply Int.bmod_eq_of_le
  · omega
  · omega

end Sginx.Library.Decimal
