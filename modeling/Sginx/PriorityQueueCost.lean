import Sginx.Library.Potential
import Sginx.PriorityQueueFailure

namespace Sginx.PriorityQueue

open Sginx.Library.Potential Sginx.Library.Transition

variable {α : Type}

def resizeCopies (q : SgxPriorityQueue α) (newSize : ℕ) (mem : Option (ℕ → α)) : ℕ :=
  if newSize ≤ q.size then 0
  else
    match malloc (sizeMul sizeofPtr newSize) mem with
    | none => 0
    | some _ => q.size + 1

def pushCopies (q : SgxPriorityQueue α) (mem : Option (ℕ → α)) : ℕ :=
  if sizeAdd q.size 1 = q.maxSize then resizeCopies q (sizeShl q.maxSize 1) mem else 0

section comparator

variable (cmp : α → α → Bool)

def popCopies (q : SgxPriorityQueue α) (mem : Option (ℕ → α)) : ℕ :=
  if sgxPriorityQueueEmpty q then 0
  else
    match popDown cmp q with
    | none => 0
    | some q =>
      if 0 < q.size ∧ q.size ≤ sizeSub q.maxSize 1 >>> 2 then resizeCopies q (q.maxSize >>> 1) mem
      else 0

def clearCopies : ℕ → SgxPriorityQueue α → (ℕ → Option (ℕ → α)) → ℕ
  | 0, _, _ => 0
  | fuel + 1, q, mem =>
    if sgxPriorityQueueEmpty q then 0
    else
      popCopies cmp q (mem 0) +
        match sgxPriorityQueuePop cmp q (mem 0) with
        | none => 0
        | some (_, q) => clearCopies fuel q fun i => mem (i + 1)

end comparator

def QueueCall.copies (cmp : α → α → Bool) (q : SgxPriorityQueue α) : QueueCall α → ℕ
  | .push _ mem => pushCopies q mem
  | .pop mem => popCopies cmp q mem
  | .clear mem => clearCopies cmp q.size q mem

def QueueCall.isPush : QueueCall α → Bool
  | .push _ _ => true
  | _ => false

def copiedSlots (q : SgxPriorityQueue α) (calls : List ((α → α → Bool) × QueueCall α)) : ℕ :=
  runCost (fun q call => call.2.apply call.1 q) (fun q call => call.2.copies call.1 q) q calls

theorem runCalls_eq_execute (q : SgxPriorityQueue α)
    (calls : List ((α → α → Bool) × QueueCall α)) :
    runCalls q calls = execute (fun q call => call.2.apply call.1 q) q calls := by
  induction calls generalizing q with
  | nil => rfl
  | cons call calls ih =>
    rw [runCalls, execute]
    congr 1
    funext q'
    exact ih q'

theorem resizeCopies_of_returns {q q' : SgxPriorityQueue α} {newSize : ℕ}
    {mem : Option (ℕ → α)} {result : ℤ}
    (h : priorityQueueResize q newSize mem = some (result, q')) :
    resizeCopies q newSize mem = if result = -1 then 0 else q.size + 1 := by
  rw [resizeCopies]
  split_ifs with hsmall hresult hresult
  · rfl
  · exact absurd ((resize_fails_iff h).mpr (.inl hsmall)) hresult
  · rcases (resize_fails_iff h).mp hresult with hfails | hfails
    · exact absurd hfails hsmall
    · rw [hfails]
  · cases hmalloc : malloc (sizeMul sizeofPtr newSize) mem with
    | none => exact absurd ((resize_fails_iff h).mpr (.inr hmalloc)) hresult
    | some fresh => rfl

def copyPotential (q : SgxPriorityQueue α) : ℕ := max q.maxSize (4 * q.size - q.maxSize)

theorem insert_keeps (cmp : α → α → Bool) {q q' : SgxPriorityQueue α} {v : α} {result : ℤ}
    (h : (q.store q.size v).bind
      (fun q => (priorityQueueUp cmp q q.size).bind fun q => some (sgxOk, q)) =
        some (result, q')) : q'.size = q.size ∧ q'.maxSize = q.maxSize := by
  obtain ⟨q₁, hstore, h⟩ := Option.bind_eq_some_iff.mp h
  obtain ⟨q₂, hup, h⟩ := Option.bind_eq_some_iff.mp h
  rw [SgxPriorityQueue.store] at hstore
  split_ifs at hstore with hslot
  obtain rfl := Option.some.inj hstore
  rw [up_eq cmp (by exact hslot)] at hup
  obtain rfl := Option.some.inj hup
  rw [← (Prod.mk.inj (Option.some.inj h)).2]
  exact ⟨rfl, rfl⟩

theorem push_pays (cmp : α → α → Bool) {q q' : SgxPriorityQueue α} (hw : QueueWf q) {v : α}
    {mem : Option (ℕ → α)} {result : ℤ}
    (h : sgxPriorityQueuePush cmp q v mem = some (result, q')) :
    pushCopies q mem + copyPotential q' ≤ copyPotential q + 4 := by
  have hlt := hw.slots_lt
  have hmax := hw.max_le
  have hsize := hw.size_lt
  have hadd : sizeAdd q.size 1 = q.size + 1 := sizeAdd_of_lt (by simp only [sizeMod]; omega)
  rw [sgxPriorityQueuePush, hadd] at h
  rw [pushCopies, hadd]
  by_cases hfull : q.size + 1 = q.maxSize
  · have hshl : sizeShl q.maxSize 1 = 2 * q.maxSize :=
      sizeShl_of_lt (by simp only [sizeMod]; omega)
    have hbytes : sizeofPtr * (2 * q.maxSize) < sizeMod := by
      simp only [sizeofPtr, sizeMod]
      omega
    rw [if_pos hfull, hshl] at h
    obtain ⟨⟨result₁, q₁⟩, hgrow, h⟩ := Option.bind_eq_some_iff.mp h
    dsimp only at h
    rw [if_pos hfull, hshl, resizeCopies_of_returns hgrow]
    rcases resize_cases (by omega : q.size < q.slots) hbytes (by omega) mem with
      hr | ⟨q₂, hr, hw₂, hs₂, hn₂, hm₂, -⟩
    · rw [hr] at hgrow
      obtain ⟨rfl, rfl⟩ := Prod.mk.inj (Option.some.inj hgrow)
      rw [if_pos (by decide)] at h
      rw [if_pos rfl, ← (Prod.mk.inj (Option.some.inj h)).2]
      omega
    · rw [hr] at hgrow
      obtain ⟨rfl, rfl⟩ := Prod.mk.inj (Option.some.inj hgrow)
      rw [if_neg (by decide)] at h
      obtain ⟨hs', hm'⟩ := insert_keeps cmp h
      simp only [hs₂, hm₂, hadd] at hs' hm'
      rw [if_neg (by decide), copyPotential, copyPotential, hs', hm']
      omega
  · rw [if_neg hfull] at h
    obtain ⟨_, ⟨⟩, h⟩ := Option.bind_eq_some_iff.mp h
    dsimp only at h
    rw [if_neg (by decide)] at h
    obtain ⟨hs', hm'⟩ := insert_keeps cmp h
    simp only [hadd] at hs' hm'
    rw [if_neg hfull, copyPotential, copyPotential, hs', hm']
    omega

theorem pop_pays (cmp : α → α → Bool) {q q' : SgxPriorityQueue α} (hw : QueueWf q)
    {mem : Option (ℕ → α)} {result : ℤ}
    (h : sgxPriorityQueuePop cmp q mem = some (result, q')) :
    popCopies cmp q mem + copyPotential q' ≤ copyPotential q := by
  have hlt := hw.slots_lt
  have hmax := hw.max_le
  have hsize := hw.size_lt
  by_cases h0 : 0 < q.size
  swap
  · rw [pop_empty cmp h0] at h
    rw [popCopies, if_pos (empty_iff.mpr h0), ← (Prod.mk.inj (Option.some.inj h)).2]
    omega
  have hsubm : sizeSub q.maxSize 1 >>> 2 = (q.maxSize - 1) / 4 := by
    rw [sizeSub_of_le (by omega), Nat.shiftRight_eq_div_pow]
  have hhalf : q.maxSize >>> 1 = q.maxSize / 2 := by rw [Nat.shiftRight_eq_div_pow, pow_one]
  rw [pop_eq cmp hw h0] at h
  rw [popCopies, nonempty_iff.mpr h0, if_neg Bool.false_ne_true, popDown_eq cmp h0 (by omega) hlt]
  simp only [show (popped cmp q).size = q.size - 1 from rfl,
    show (popped cmp q).maxSize = q.maxSize from rfl, hsubm, hhalf]
  by_cases hshrink : 0 < q.size - 1 ∧ q.size - 1 ≤ (q.maxSize - 1) / 4
  · rw [if_pos hshrink] at h ⊢
    obtain ⟨⟨result₁, q₁⟩, hresize, h⟩ := Option.bind_eq_some_iff.mp h
    have hreturned : q' = q₁ := by
      dsimp only at h
      split_ifs at h
      · exact (Prod.mk.inj (Option.some.inj h)).2.symm
      · exact (Prod.mk.inj (Option.some.inj h)).2.symm
    have hbytes : sizeofPtr * (q.maxSize / 2) < sizeMod := by
      simp only [sizeofPtr, sizeMod]
      omega
    rw [resizeCopies_of_returns hresize, hreturned]
    rcases resize_cases (q := popped cmp q) (by simp only [popped]; omega) hbytes
      (by simp only [popped]; omega) mem with hr | ⟨q₂, hr, hw₂, hs₂, hn₂, hm₂, -⟩
    · rw [hr] at hresize
      obtain ⟨rfl, rfl⟩ := Prod.mk.inj (Option.some.inj hresize)
      rw [if_pos rfl]
      simp only [copyPotential, popped]
      omega
    · rw [hr] at hresize
      obtain ⟨rfl, rfl⟩ := Prod.mk.inj (Option.some.inj hresize)
      rw [if_neg (by decide), copyPotential, copyPotential, hs₂, hm₂]
      simp only [popped]
      omega
  · rw [if_neg hshrink] at h ⊢
    rw [← (Prod.mk.inj (Option.some.inj h)).2]
    simp only [copyPotential, popped]
    omega

theorem clearLoop_pays (cmp : α → α → Bool) (fuel : ℕ) {q q' : SgxPriorityQueue α}
    (hw : QueueWf q) {mem : ℕ → Option (ℕ → α)} (h : clearLoop cmp fuel q mem = some q') :
    clearCopies cmp fuel q mem + copyPotential q' ≤ copyPotential q := by
  induction fuel generalizing q mem with
  | zero =>
    obtain rfl := Option.some.inj h
    simp [clearCopies]
  | succ fuel ih =>
    rw [clearLoop] at h
    rw [clearCopies]
    split_ifs at h ⊢ with hempty
    · obtain rfl := Option.some.inj h
      exact Nat.le_of_eq (Nat.zero_add _)
    · obtain ⟨result, q₁, hpop, hw₁, -⟩ := pop_wf cmp hw (mem 0)
      rw [hpop] at h ⊢
      have hfirst := pop_pays cmp hw hpop
      have hrest := ih hw₁ h
      dsimp only
      omega

theorem calls_amortized : Amortized (fun (q : SgxPriorityQueue α) call => call.2.apply call.1 q)
    (fun q call => call.2.copies call.1 q) QueueWf copyPotential
    (fun (call : (α → α → Bool) × QueueCall α) => if call.2.isPush then 4 else 0) where
  keeps q call q' hw hstep := by
    obtain ⟨q₁, hcall, hw₁⟩ := call_wf call.1 hw call.2
    rw [hcall] at hstep
    exact Option.some.inj hstep ▸ hw₁
  pays q call q' hw hstep := by
    obtain ⟨cmp, call⟩ := call
    cases call with
    | push v mem =>
      obtain ⟨⟨result, q₁⟩, hpush, rfl⟩ := Option.map_eq_some_iff.mp hstep
      exact push_pays cmp hw hpush
    | pop mem =>
      obtain ⟨⟨result, q₁⟩, hpop, rfl⟩ := Option.map_eq_some_iff.mp hstep
      exact pop_pays cmp hw hpop
    | clear mem => exact clearLoop_pays cmp q.size hw hstep

theorem copying_is_amortized {maxSize : ℕ} (h1 : 1 ≤ maxSize)
    (hb : sizeofPtr * (maxSize + 1) < sizeMod) {mem : Option (ℕ → α)} {q₀ q : SgxPriorityQueue α}
    (hi : sgxPriorityQueueInit maxSize mem = some q₀)
    {calls : List ((α → α → Bool) × QueueCall α)} (hrun : runCalls q₀ calls = some q) :
    copiedSlots q₀ calls + q.maxSize ≤ maxSize + 4 * calls.countP fun call => call.2.isPush := by
  obtain ⟨hw, hsize⟩ := init_wf h1 hb hi
  have hmaxSize : q₀.maxSize = maxSize := by
    obtain ⟨fresh, -, rfl⟩ := Option.map_eq_some_iff.mp hi
    rfl
  rw [runCalls_eq_execute] at hrun
  have hpaid := calls_amortized.run hw hrun
  rw [sum_price, copyPotential, copyPotential, hsize, hmaxSize] at hpaid
  rw [copiedSlots]
  omega

theorem copying_is_amortized_three_pushes : ∃ q₀ q : SgxPriorityQueue ℤ,
    sgxPriorityQueueInit 2 (some fun _ => 0) = some q₀ ∧
      runCalls q₀ ([1, 2, 3].map fun v =>
        (sgxPriorityQueueGreater, .push v (some fun _ => 0))) = some q ∧
      copiedSlots q₀ ([1, 2, 3].map fun v =>
        (sgxPriorityQueueGreater, .push v (some fun _ => 0))) + q.maxSize ≤ 14 :=
  ⟨_, _, rfl, rfl, copying_is_amortized (by decide) (by decide)
    (Eq.refl (sgxPriorityQueueInit 2 (some fun _ => (0 : ℤ)))) rfl⟩

end Sginx.PriorityQueue
