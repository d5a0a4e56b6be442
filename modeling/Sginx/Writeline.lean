import Mathlib.Algebra.BigOperators.Group.List.Basic
import Sginx.Rush

namespace Sginx.Rush

open Sginx.Http (Byte lf)
open Sginx.Mini (CharBuf cells cells_append)

variable {buf : CharBuf} {n sgxMaxLen : ℕ} {s s' : WritelineState} {result : WriteResult}
  {results : List WriteResult}

/-- Each positive result is at most the count that the call asked for, up to the call that takes the
last byte. -/
def Offered : ℕ → List WriteResult → Prop
  | _, [] => True
  | left, result :: rest =>
    0 < left → result.num ≤ left ∧ Offered (left - result.num.toNat) rest

def taken (results : List WriteResult) : ℕ := (results.map fun result => result.num.toNat).sum

structure Sent (buf : CharBuf) (n : ℕ) (s : WritelineState) : Prop where
  left : s.buffer + s.left = n
  accepted : s.accepted = cells buf 0 s.buffer

theorem round_eq_none_iff :
    writelineRound buf s result = none ↔ result.num ≤ 0 ∧ result.errno ≠ eintr := by
  rw [writelineRound]
  split_ifs with hnum herrno
  · exact iff_of_false nofun (fun h => h.2 herrno)
  · exact iff_of_true rfl ⟨hnum, herrno⟩
  · exact iff_of_false nofun (fun h => hnum h.1)

theorem round_left (h : writelineRound buf s result = some s') (hle : result.num ≤ s.left) :
    s'.left = s.left - result.num.toNat := by
  rw [writelineRound] at h
  split_ifs at h with hnum herrno
  · obtain rfl := Option.some.inj h
    omega
  · obtain rfl := Option.some.inj h
    exact sizeSub_of_le (by omega)

theorem Sent.round (hsent : Sent buf n s) (h : writelineRound buf s result = some s')
    (hle : result.num ≤ s.left) : Sent buf n s' := by
  have hleft := round_left h hle
  have hsum := hsent.left
  rw [writelineRound] at h
  split_ifs at h with hnum herrno
  · obtain rfl := Option.some.inj h
    exact hsent
  · obtain rfl := Option.some.inj h
    constructor
    · dsimp only at hleft ⊢
      omega
    · have happend := cells_append buf 0 s.buffer result.num.toNat
      rw [Nat.zero_add] at happend
      rw [hsent.accepted]
      exact happend

theorem Sent.loop (hsent : Sent buf n s) (h : Offered s.left results) :
    Sent buf n (writelineLoop sgxMaxLen buf results s).state := by
  induction results generalizing s with
  | nil => exact hsent
  | cons result rest ih =>
    rw [writelineLoop]
    split_ifs with hpos
    · obtain ⟨hle, hrest⟩ := h hpos
      cases hround : writelineRound buf s result with
      | none => exact hsent
      | some s' =>
        apply ih (hsent.round hround hle)
        rw [round_left hround hle]
        exact hrest
    · exact hsent

theorem loop_returns_all
    (h : (writelineLoop sgxMaxLen buf results s).result = some (sgxMaxLen : ℤ)) :
    (writelineLoop sgxMaxLen buf results s).state.left = 0 := by
  induction results generalizing s with
  | nil =>
    rw [writelineLoop] at h ⊢
    split_ifs at h with hpos
    exact Nat.eq_zero_of_not_pos hpos
  | cons result rest ih =>
    rw [writelineLoop] at h ⊢
    split_ifs at h ⊢ with hpos
    · cases hround : writelineRound buf s result with
      | none =>
        rw [hround] at h
        have hminus : (-1 : ℤ) = sgxMaxLen := Option.some.inj h
        omega
      | some s' =>
        rw [hround] at h
        exact ih h
    · exact Nat.eq_zero_of_not_pos hpos

def FailsBefore (left : ℕ) (results : List WriteResult) : Prop :=
  ∃ before result after, results = before ++ result :: after ∧ result.num ≤ 0 ∧
    result.errno ≠ eintr ∧ taken before < left

theorem failsBefore_nil (left : ℕ) : ¬ FailsBefore left [] := by
  rintro ⟨before, result, after, h, -⟩
  exact List.append_ne_nil_of_right_ne_nil before (List.cons_ne_nil result after) h.symm

theorem failsBefore_cons (left : ℕ) (result : WriteResult) (rest : List WriteResult) :
    FailsBefore left (result :: rest) ↔ (result.num ≤ 0 ∧ result.errno ≠ eintr ∧ 0 < left) ∨
      FailsBefore (left - result.num.toNat) rest := by
  constructor
  · rintro ⟨before, bad, after, h, hnum, herrno, hlt⟩
    cases before with
    | nil =>
      obtain ⟨rfl, rfl⟩ := List.cons.inj h
      exact .inl ⟨hnum, herrno, hlt⟩
    | cons first before =>
      obtain ⟨rfl, rfl⟩ := List.cons.inj h
      right
      refine ⟨before, bad, after, rfl, hnum, herrno, ?_⟩
      rw [taken, List.map_cons, List.sum_cons] at hlt
      rw [taken]
      omega
  · rintro (⟨hnum, herrno, hlt⟩ | ⟨before, bad, after, rfl, hnum, herrno, hlt⟩)
    · exact ⟨[], result, rest, rfl, hnum, herrno, hlt⟩
    · refine ⟨result :: before, bad, after, rfl, hnum, herrno, ?_⟩
      rw [taken] at hlt
      rw [taken, List.map_cons, List.sum_cons]
      omega

theorem failsBefore_zero (results : List WriteResult) : ¬ FailsBefore 0 results := by
  rintro ⟨_, _, _, -, -, -, hlt⟩
  exact absurd hlt (Nat.not_lt_zero _)

theorem loop_fails_iff (hmax : 2 * sgxMaxLen < sizeMod) (h : Offered s.left results) :
    (writelineLoop sgxMaxLen buf results s).result = some (-1) ↔ FailsBefore s.left results := by
  have hsigned : sizeSigned sgxMaxLen = sgxMaxLen := sizeSigned_of_lt hmax
  have hminus : some (sizeSigned sgxMaxLen) ≠ some (-1) := by
    rw [hsigned]
    intro heq
    have hval := Option.some.inj heq
    omega
  induction results generalizing s with
  | nil =>
    rw [writelineLoop]
    apply iff_of_false _ (failsBefore_nil s.left)
    split_ifs
    · exact nofun
    · exact hminus
  | cons result rest ih =>
    rw [writelineLoop]
    split_ifs with hpos
    · obtain ⟨hle, hrest⟩ := h hpos
      rw [failsBefore_cons]
      cases hround : writelineRound buf s result with
      | none =>
        obtain ⟨hnum, herrno⟩ := round_eq_none_iff.mp hround
        exact iff_of_true rfl (.inl ⟨hnum, herrno, hpos⟩)
      | some s' =>
        have hleft := round_left hround hle
        rw [← hleft] at hrest ⊢
        have hgood : ¬ (result.num ≤ 0 ∧ result.errno ≠ eintr ∧ 0 < s.left) := by
          rintro ⟨hnum, herrno, -⟩
          rw [round_eq_none_iff.mpr ⟨hnum, herrno⟩] at hround
          cases hround
        rw [or_iff_right hgood]
        exact ih hrest
    · rw [Nat.eq_zero_of_not_pos hpos]
      exact iff_of_false hminus (failsBefore_zero _)

theorem writeline_writes_all (buf : CharBuf) {n : ℕ} (hn : n ≤ ptrdiffMax)
    {results : List WriteResult} (h : Offered n results) :
    let answer := writeline n buf results
    (∃ k ≤ n, answer.state.accepted = cells buf 0 k) ∧
      (answer.result = some (n : ℤ) → answer.state.accepted = cells buf 0 n) ∧
      (answer.result = some (-1) ↔ FailsBefore n results) := by
  intro answer
  have hmax : 2 * n < sizeMod := by
    have hbound : 2 * ptrdiffMax < sizeMod := by decide
    omega
  have hstart : Sent buf n ⟨n, 0, []⟩ := ⟨Nat.zero_add n, rfl⟩
  have hsent : Sent buf n answer.state := hstart.loop h
  have hsum := hsent.left
  refine ⟨⟨answer.state.buffer, by omega, hsent.accepted⟩, ?_, loop_fails_iff hmax h⟩
  intro hall
  have hnone : answer.state.left = 0 := loop_returns_all hall
  have hbuffer : answer.state.buffer = n := by omega
  rw [hsent.accepted, hbuffer]

theorem writeline_writes_all_interrupted :
    let buf : CharBuf := fun i => if i = 1 then lf else 0
    let results : List WriteResult := [⟨2, 0⟩, ⟨-1, eintr⟩, ⟨1, 0⟩]
    3 ≤ ptrdiffMax ∧ Offered 3 results ∧
      (writeline 3 buf results).result = some 3 ∧
      (writeline 3 buf results).state.accepted = cells buf 0 3 := by
  intro buf results
  have hoffered : Offered 3 results :=
    fun _ => ⟨by decide, fun _ => ⟨by decide, fun _ => ⟨by decide, trivial⟩⟩⟩
  have hreturns : (writeline 3 buf results).result = some 3 := by decide
  have hall := writeline_writes_all buf (by decide) hoffered
  exact ⟨by decide, hoffered, hreturns, hall.2.1 hreturns⟩

end Sginx.Rush
