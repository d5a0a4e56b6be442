import Mathlib.Data.Nat.Basic
import Mathlib.Tactic.Ring

namespace Sginx

def sizeMod : ℕ := 2 ^ 64

def ptrdiffMax : ℕ := 2 ^ 63 - 1

def sizeofPtr : ℕ := 8

def sizeAdd (x y : ℕ) : ℕ := (x + y) % sizeMod

def sizeSub (x y : ℕ) : ℕ := if y ≤ x then x - y else x + sizeMod - y

def sizeMul (x y : ℕ) : ℕ := (x * y) % sizeMod

def sizeShl (x k : ℕ) : ℕ := (x <<< k) % sizeMod

/-- The value of an `int` expression, in two's complement. -/
def cInt (x : ℤ) : ℤ := x.bmod (2 ^ 32)

/-- The value of a signed 64-bit variable that gets an unsigned one. -/
def sizeSigned (x : ℕ) : ℤ := (x : ℤ).bmod (2 ^ 64)

theorem sizeAdd_of_lt {x y : ℕ} (h : x + y < sizeMod) : sizeAdd x y = x + y :=
  Nat.mod_eq_of_lt h

theorem sizeMul_of_lt {x y : ℕ} (h : x * y < sizeMod) : sizeMul x y = x * y :=
  Nat.mod_eq_of_lt h

theorem sizeShl_of_lt {x : ℕ} (h : 2 * x < sizeMod) : sizeShl x 1 = 2 * x := by
  rw [sizeShl, Nat.shiftLeft_eq, pow_one, Nat.mul_comm]
  exact Nat.mod_eq_of_lt h

theorem sizeSub_of_le {x y : ℕ} (h : y ≤ x) : sizeSub x y = x - y := if_pos h

theorem sizeSub_sizeAdd {last pos k : ℕ} (hlast : last < sizeMod) (hpos : pos < sizeMod)
    (hk : sizeSub last pos + k < sizeMod) :
    sizeSub (sizeAdd last k) pos = sizeSub last pos + k := by
  by_cases hle : pos ≤ last
  · rw [sizeSub_of_le hle] at hk ⊢
    by_cases hwrap : last + k < sizeMod
    · rw [sizeAdd_of_lt hwrap, sizeSub_of_le (by omega)]
      omega
    · have hmod : sizeAdd last k = last + k - sizeMod := by
        rw [sizeAdd, Nat.mod_eq_sub_mod (by omega), Nat.mod_eq_of_lt (by omega)]
      rw [hmod, sizeSub, if_neg (by omega)]
      omega
  · have hbehind : sizeSub last pos = last + sizeMod - pos := if_neg hle
    rw [hbehind] at hk ⊢
    rw [sizeAdd_of_lt (by omega), sizeSub, if_neg (by omega)]
    omega

theorem bmod_sub {x y : ℕ} (hx : 2 * x < sizeMod) (hy : 2 * y < sizeMod) :
    ((x : ℤ) - y).bmod (2 ^ 64) = (x : ℤ) - y := by
  simp only [sizeMod] at hx hy
  apply Int.bmod_eq_of_le
  · omega
  · omega

theorem sizeSigned_of_lt {x : ℕ} (h : 2 * x < sizeMod) : sizeSigned x = x := by
  have hzero := bmod_sub h (show 2 * 0 < sizeMod by decide)
  rwa [Nat.cast_zero, sub_zero] at hzero

theorem sizeSigned_sizeSub {x y : ℕ} (hx : 2 * x < sizeMod) (hy : 2 * y < sizeMod) :
    sizeSigned (sizeSub x y) = (x : ℤ) - y := by
  rcases Nat.lt_or_ge x y with hlt | hge
  · have hwrap : sizeSub x y = x + sizeMod - y := if_neg (Nat.not_le.mpr hlt)
    have hcast : ((x + sizeMod - y : ℕ) : ℤ) = (x : ℤ) - y + (2 ^ 64 : ℕ) := by
      simp only [sizeMod] at hy ⊢
      omega
    calc sizeSigned (sizeSub x y) = sizeSigned (x + sizeMod - y) := congrArg sizeSigned hwrap
      _ = ((x : ℤ) - y + (2 ^ 64 : ℕ)).bmod (2 ^ 64) := congrArg (Int.bmod · _) hcast
      _ = ((x : ℤ) - y).bmod (2 ^ 64) := Int.add_bmod_right _ _
      _ = (x : ℤ) - y := bmod_sub hx hy
  · rw [sizeSub_of_le hge, sizeSigned_of_lt (by omega), Nat.cast_sub hge]

/-- `malloc`: the caller supplies what the allocator does, and no object exceeds `PTRDIFF_MAX`. -/
def malloc {β : Type*} (bytes : ℕ) (outcome : Option β) : Option β :=
  if bytes ≤ ptrdiffMax then outcome else none

end Sginx
