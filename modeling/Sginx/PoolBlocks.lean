import Sginx.PoolRuns

namespace Sginx.Pool

def offsetofData : ℕ := 8

def sgxPoolAlignment : ℕ := 16

def SgxPool.poolSize (pool : SgxPool) : ℕ := sizeSub (pool.block 0).dataEnd (pool.block 0).addr

structure BlockGeometry (data : SgxPoolData) (m size poolSize : ℕ) : Prop where
  behind_data : data.addr + offsetofData + sizeofPoolData ≤ m
  begin_eq : data.dataBegin = m + size
  begin_le : data.dataBegin ≤ data.dataEnd
  end_eq : data.dataEnd = data.addr + poolSize

theorem block_eq (pool : SgxPool) (size new : ℕ) :
    ∃ pool', sgxPallocBlock pool size (some new) =
        (some (sgxAlignPtr (new + sizeofPoolData) sgxAlignment), pool') ∧
      pool'.count = pool.count + 1 ∧
      pool'.current = (failLoop pool.count pool pool.current).current ∧
      (∀ now < pool.count, pool'.block now = (failLoop pool.count pool pool.current).block now) ∧
      pool'.block pool.count =
        { addr := new
          bytes := pool.poolSize
          dataBegin := sgxAlignPtr (new + sizeofPoolData) sgxAlignment + size
          dataEnd := new + size
          failed := 0 } := by
  have hcount := (failLoop_same pool.count pool pool.current).count
  refine ⟨_, rfl, congrArg (· + 1) hcount, rfl, fun now hnow => ?_, ?_⟩
  · apply Function.update_of_ne
    rw [hcount]
    exact Nat.ne_of_lt hnow
  · simp only [SgxPool.setBlock, hcount, Function.update_self, SgxPool.poolSize]

theorem align_aligned {new : ℕ} (h : sgxPoolAlignment ∣ new) :
    sgxAlignPtr (new + sizeofPoolData) sgxAlignment = new + sizeofPoolData := by
  obtain ⟨k, rfl⟩ := h
  simp only [sgxAlignPtr, sgxPoolAlignment, sizeofPoolData, sgxAlignment]
  omega

theorem block_geometry_never (pool : SgxPool) (size new : ℕ) :
    ∃ m pool', sgxPallocBlock pool size (some new) = (some m, pool') ∧
      ¬ BlockGeometry (pool'.block pool.count) m size pool.poolSize ∧
      (pool'.block pool.count).dataEnd < (pool'.block pool.count).dataBegin ∧
      ((pool'.block pool.count).dataEnd = new + pool.poolSize ↔ size = pool.poolSize) ∧
      (sgxPoolAlignment ∣ new → m < new + offsetofData + sizeofPoolData) := by
  obtain ⟨pool', hcall, -, -, -, hblock⟩ := block_eq pool size new
  have hle := le_align (new + sizeofPoolData)
  have hlt : new + size < sgxAlignPtr (new + sizeofPoolData) sgxAlignment + size := by
    apply Nat.add_lt_add_right
    apply lt_of_lt_of_le _ hle
    exact Nat.lt_add_of_pos_right (by decide)
  refine ⟨_, pool', hcall, ?_, ?_, ?_, ?_⟩
  · intro h
    have hbegin := h.begin_le
    rw [hblock] at hbegin
    exact absurd hbegin (not_le_of_gt hlt)
  · rw [hblock]
    exact hlt
  · rw [hblock]
    exact Nat.add_left_cancel_iff
  · intro haligned
    rw [align_aligned haligned]
    simp only [offsetofData]
    omega

theorem failed_counter_overlaps : ∃ pool pool', sgxCreatePool 128 4096 (some 4096) = some pool ∧
    sgxPallocBlock pool 16 (some 8192) = (some 8224, pool') ∧ 16 ≤ pool.maxSize ∧
    ¬ BlockGeometry (pool'.block pool.count) 8224 16 pool.poolSize := by
  refine ⟨_, _, rfl, rfl, by decide, fun h => ?_⟩
  have hbehind := h.behind_data
  exact absurd hbehind (by decide)

structure Searched (k : ℕ) (pool : SgxPool) : Prop where
  count : pool.count = k + 1
  current : pool.current = k - 5
  failed : ∀ i ≤ k, (pool.block i).failed = min 5 (k - 1 - i)

structure HalfSearched (k now : ℕ) (pool : SgxPool) : Prop where
  count : pool.count = k + 1
  current : pool.current = if now ≤ k - 5 then k - 5 else k + 1 - 5
  passed : ∀ i < now, (pool.block i).failed = min 5 (k - i)
  ahead : ∀ i, now ≤ i → i ≤ k → (pool.block i).failed = min 5 (k - 1 - i)

theorem failRound_block (pool : SgxPool) (now i : ℕ) :
    ((failRound pool now).block i).failed =
      if i = now then sizeAdd (pool.block now).failed 1 else (pool.block i).failed := by
  have hblock : (failRound pool now).block = Function.update pool.block now
      { pool.block now with failed := sizeAdd (pool.block now).failed 1 } := by
    simp only [failRound]
    split_ifs <;> rfl
  rw [hblock]
  by_cases hi : i = now
  · rw [if_pos hi, hi, Function.update_self]
  · rw [if_neg hi, Function.update_of_ne hi]

theorem failRound_current (pool : SgxPool) (now : ℕ) :
    (failRound pool now).current =
      if 4 < sizeAdd (pool.block now).failed 1 then now + 1 else pool.current := by
  simp only [failRound]
  split_ifs <;> rfl

theorem HalfSearched.round {k now : ℕ} {pool : SgxPool} (h : HalfSearched k now pool)
    (hnow : now < k) (hge : k - 5 ≤ now) : HalfSearched k (now + 1) (failRound pool now) := by
  have hown := h.ahead now (le_refl now) (Nat.le_of_lt hnow)
  have hadd : sizeAdd (pool.block now).failed 1 = (pool.block now).failed + 1 := by
    apply sizeAdd_of_lt
    simp only [hown, sizeMod]
    omega
  constructor
  · rw [(failRound_same pool (by rw [h.count]; omega)).count]
    exact h.count
  · rw [failRound_current, hadd, hown, h.current]
    split_ifs <;> omega
  · intro i hi
    rw [failRound_block]
    split_ifs with heq
    · rw [hadd, hown, heq]
      omega
    · exact h.passed i (by omega)
  · intro i hi hk
    rw [failRound_block, if_neg (by omega)]
    exact h.ahead i (by omega) hk

theorem HalfSearched.loop {k : ℕ} (fuel now : ℕ) {pool : SgxPool} (h : HalfSearched k now pool)
    (hnow : now ≤ k) (hge : k - 5 ≤ now) (hfuel : k ≤ now + fuel) :
    HalfSearched k k (failLoop fuel pool now) := by
  induction fuel generalizing now pool with
  | zero =>
    obtain rfl : now = k := by omega
    exact h
  | succ fuel ih =>
    rw [failLoop, h.count]
    split_ifs with hlt
    · exact ih (now + 1) (h.round (by omega) hge) (by omega) (by omega) (by omega)
    · obtain rfl : now = k := by omega
      exact h

theorem Searched.block {k : ℕ} {pool : SgxPool} (h : Searched k pool) (size new : ℕ) :
    Searched (k + 1) (sgxPallocBlock pool size (some new)).2 := by
  have hstart : HalfSearched k pool.current pool := by
    refine ⟨h.count, ?_, fun i hi => ?_, fun i _ hi => h.failed i hi⟩
    · rw [h.current, if_pos (le_refl _)]
    · have hcurrent := h.current
      rw [h.failed i (by omega)]
      omega
  have hend := hstart.loop pool.count pool.current (by rw [h.current]; omega)
    (by rw [h.current]) (by rw [h.count]; omega)
  obtain ⟨pool', hcall, hcount, hcurrent, hold, hnew⟩ := block_eq pool size new
  rw [hcall]
  constructor
  · rw [hcount, h.count]
  · rw [hcurrent, hend.current]
    split_ifs <;> omega
  · intro i hi
    rcases Nat.lt_or_eq_of_le hi with hlt | rfl
    · rw [hold i (by rw [h.count]; exact hlt)]
      rcases Nat.lt_or_eq_of_le (Nat.le_of_lt_succ hlt) with hlt | rfl
      · rw [hend.passed i hlt]
        omega
      · rw [hend.ahead i (le_refl i) (le_refl i)]
        omega
    · rw [← h.count, hnew, h.count]
      dsimp only
      omega

theorem Searched.setBlock {k now : ℕ} {pool : SgxPool} (h : Searched k pool) {data : SgxPoolData}
    (hdata : data.failed = (pool.block now).failed) : Searched k (pool.setBlock now data) := by
  refine ⟨h.count, h.current, fun i hi => ?_⟩
  rw [← h.failed i hi]
  by_cases heq : i = now
  · subst heq
    simp only [SgxPool.setBlock, Function.update_self, hdata]
  · simp only [SgxPool.setBlock, Function.update_of_ne heq]

theorem Searched.small {k : ℕ} {pool : SgxPool} (h : Searched k pool) (size : ℕ) (align : Bool)
    (new : ℕ) : ∃ k', Searched k' (sgxPallocSmall pool size align (some new)).2 := by
  rw [sgxPallocSmall]
  cases smallLoop pool size align pool.count pool.current with
  | none => exact ⟨k + 1, h.block size new⟩
  | some now => exact ⟨k, h.setBlock rfl⟩

/-- Rounds beyond the tail change nothing, so the loop of the model is never cut short. -/
theorem smallLoop_fuel (pool : SgxPool) (size : ℕ) (align : Bool) (fuel now : ℕ)
    (hnow : now < pool.count) (hfuel : pool.count ≤ now + fuel) (more : ℕ) :
    smallLoop pool size align (fuel + more) now = smallLoop pool size align fuel now := by
  induction fuel generalizing now with
  | zero => omega
  | succ fuel ih =>
    rw [Nat.succ_add, smallLoop, smallLoop]
    split_ifs with hfits hnext
    · rfl
    · exact ih (now + 1) hnext (by omega)
    · rfl

end Sginx.Pool
