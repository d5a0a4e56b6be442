import Sginx.PoolDestroy
import Sginx.PoolMemory

namespace Sginx.PoolMemory

open Sginx.Library.Regions
open Sginx.Pool (SgxPool SgxPoolData sizeofPool sizeofPoolData sgxAlignPtr sgxAlignment)

def header (p : SgxPool) (now : ℕ) : Span ℕ :=
  ⟨p.addr now, p.addr now + if now = 0 then sizeofPool else Pool.offsetofData + sizeofPoolData⟩

structure HoldsBlock (memory : Memory) (data : SgxPoolData) : Prop where
  dataBegin : memory (dataBegin data.addr) = data.dataBegin
  dataEnd : memory (dataEnd data.addr) = data.dataEnd
  failed : memory (dataFailed data.addr) = data.failed

structure Holds (memory : Memory) (p : SgxPool) : Prop where
  current_lt : p.current < p.count
  current : memory (current (p.addr 0)) = p.addr p.current
  next : ∀ now < p.count,
    memory (dataNext (p.addr now)) = if now + 1 < p.count then p.addr (now + 1) else 0
  block : ∀ now < p.count, HoldsBlock memory (p.block now)
  nonnull : ∀ now < p.count, p.addr now ≠ 0
  apart : ∀ i < p.count, ∀ j < p.count, i ≠ j → (header p i).Apart (header p j)

theorem store_self (a word : ℕ) (memory : Memory) : store a word memory a = word :=
  Function.update_self _ _ _

theorem store_of_ne {a b : ℕ} (h : b ≠ a) (word : ℕ) (memory : Memory) :
    store a word memory b = memory b := Function.update_of_ne h _ _

section words

variable {memory memory' : Memory} {p : SgxPool} {now : ℕ}

def HeaderWord (p : SgxPool) (now w : ℕ) : Prop := p.addr now + 8 ≤ w ∧ w < p.addr now + 40

theorem headerWord_begin (p : SgxPool) (now : ℕ) : HeaderWord p now (dataBegin (p.addr now)) :=
  ⟨le_refl _, by simp only [dataBegin]; omega⟩

theorem headerWord_next (p : SgxPool) (now : ℕ) : HeaderWord p now (dataNext (p.addr now)) := by
  simp only [HeaderWord, dataNext]
  omega

theorem headerWord_failed (p : SgxPool) (now : ℕ) : HeaderWord p now (dataFailed (p.addr now)) := by
  simp only [HeaderWord, dataFailed]
  omega

theorem Holds.ne_of_ne (h : Holds memory p) {i j v w : ℕ} (hi : i < p.count) (hj : j < p.count)
    (hne : i ≠ j) (hv : HeaderWord p i v) (hw : HeaderWord p j w) : v ≠ w := by
  have happart := h.apart i hi j hj hne
  have hle (k : ℕ) : p.addr k + 40 ≤ (header p k).stop := by
    simp only [header, sizeofPool, sizeofPoolData, Pool.offsetofData]
    split_ifs <;> omega
  have hlei := hle i
  have hlej := hle j
  obtain ⟨hv, hv'⟩ := hv
  obtain ⟨hw, hw'⟩ := hw
  rcases happart with happart | happart <;> simp only [header] at happart hlei hlej <;> omega

theorem Holds.ne_own (h : Holds memory p) {i w offset : ℕ} (hi : i < p.count)
    (hw : HeaderWord p i w) (hlo : 40 ≤ offset) (hhi : offset < sizeofPool) :
    w ≠ p.addr 0 + offset := by
  obtain ⟨hw, hw'⟩ := hw
  simp only [sizeofPool] at hhi
  by_cases hzero : i = 0
  · subst hzero
    omega
  · have happart := h.apart i hi 0 (Nat.zero_lt_of_lt h.current_lt) hzero
    simp only [Span.Apart, header, if_neg hzero, if_pos, sizeofPool, sizeofPoolData,
      Pool.offsetofData] at happart
    omega

theorem Holds.ne_current (h : Holds memory p) {i w : ℕ} (hi : i < p.count)
    (hw : HeaderWord p i w) : w ≠ PoolMemory.current (p.addr 0) :=
  h.ne_own hi hw (by decide) (by decide)

theorem HoldsBlock.congr {data : SgxPoolData} (h : HoldsBlock memory data)
    (hsame : ∀ w, data.addr + 8 ≤ w → w < data.addr + 40 → memory' w = memory w) :
    HoldsBlock memory' data := by
  constructor
  · rw [hsame _ (by simp [PoolMemory.dataBegin]) (by simp [PoolMemory.dataBegin])]
    exact h.dataBegin
  · rw [hsame _ (by simp [PoolMemory.dataEnd]) (by simp [PoolMemory.dataEnd])]
    exact h.dataEnd
  · rw [hsame _ (by simp [dataFailed]) (by simp [dataFailed])]
    exact h.failed

theorem Holds.congr (h : Holds memory p)
    (hsame : ∀ now < p.count, ∀ w, HeaderWord p now w → memory' w = memory w)
    (hcurrent : memory' (PoolMemory.current (p.addr 0)) = memory (PoolMemory.current (p.addr 0))) :
    Holds memory' p := by
  refine ⟨h.current_lt, hcurrent.trans h.current, ?_, ?_, h.nonnull, h.apart⟩
  · intro now hnow
    rw [hsame now hnow _ (headerWord_next p now)]
    exact h.next now hnow
  · intro now hnow
    apply (h.block now hnow).congr
    intro w hlo hhi
    exact hsame now hnow w ⟨hlo, hhi⟩

theorem Holds.store_own (h : Holds memory p) (hnow : now < p.count) {a word : ℕ}
    (ha : HeaderWord p now a) (hnext : dataNext (p.addr now) ≠ a) {data : SgxPoolData}
    (haddr : data.addr = p.addr now) (hdata : HoldsBlock (store a word memory) data) :
    Holds (store a word memory) (p.setBlock now data) := by
  have haddrs := @Pool.setBlock_addr p now data haddr
  have hheader (i : ℕ) : header (p.setBlock now data) i = header p i := by
    rw [header, header, haddrs]
  constructor
  · exact h.current_lt
  · rw [haddrs, haddrs, store_of_ne (h.ne_current hnow ha).symm]
    exact h.current
  · intro i hi
    rw [haddrs, haddrs, store_of_ne]
    · exact h.next i hi
    · by_cases heq : i = now
      · rw [heq]
        exact hnext
      · exact h.ne_of_ne hi hnow heq (headerWord_next p i) ha
  · intro i hi
    by_cases heq : i = now
    · subst heq
      simp only [SgxPool.setBlock, Function.update_self]
      exact hdata
    · simp only [SgxPool.setBlock, Function.update_of_ne heq]
      apply (h.block i hi).congr
      intro w hlo hhi
      exact store_of_ne (h.ne_of_ne hi hnow heq ⟨hlo, hhi⟩ ha) _ _
  · intro i hi
    rw [haddrs]
    exact h.nonnull i hi
  · intro i hi j hj hne
    rw [hheader, hheader]
    exact h.apart i hi j hj hne

theorem Holds.store_failed (h : Holds memory p) (hnow : now < p.count) (failed : ℕ) :
    Holds (store (dataFailed (p.addr now)) failed memory)
      (p.setBlock now { p.block now with failed := failed }) := by
  have hblock := h.block now hnow
  apply h.store_own hnow (headerWord_failed p now)
  · simp [dataNext, dataFailed]
  · rfl
  · constructor
    · rw [store_of_ne (by simp [dataBegin, dataFailed, SgxPool.addr])]
      exact hblock.dataBegin
    · rw [store_of_ne (by simp [dataEnd, dataFailed, SgxPool.addr])]
      exact hblock.dataEnd
    · exact store_self _ _ _

theorem Holds.store_begin (h : Holds memory p) (hnow : now < p.count) (begin : ℕ) :
    Holds (store (dataBegin (p.addr now)) begin memory)
      (p.setBlock now { p.block now with dataBegin := begin }) := by
  have hblock := h.block now hnow
  apply h.store_own hnow (headerWord_begin p now)
  · simp [dataNext, dataBegin]
  · rfl
  · constructor
    · exact store_self _ _ _
    · rw [store_of_ne (by simp [dataBegin, dataEnd, SgxPool.addr])]
      exact hblock.dataEnd
    · rw [store_of_ne (by simp [dataBegin, dataFailed, SgxPool.addr])]
      exact hblock.failed

theorem Holds.store_current (h : Holds memory p) (hnow : now < p.count) :
    Holds (store (PoolMemory.current (p.addr 0)) (p.addr now) memory)
      { p with current := now } := by
  refine ⟨hnow, store_self _ _ _, ?_, ?_, h.nonnull, h.apart⟩
  · intro i hi
    have hword := h.next i hi
    rwa [← store_of_ne (h.ne_current hi (headerWord_next p i)) (p.addr now) memory] at hword
  · intro i hi
    apply (h.block i hi).congr
    intro w hlo hhi
    exact store_of_ne (h.ne_current hi ⟨hlo, hhi⟩) _ _

theorem create_holds {size sgxPagesize pool pool' : ℕ} (hpool : pool ≠ 0)
    (h : sgxCreatePool size sgxPagesize (some pool) memory = some (pool', memory')) :
    pool' = pool ∧ ∃ p, Pool.sgxCreatePool size sgxPagesize (some pool) = some p ∧
      p.addr 0 = pool ∧ Holds memory' p := by
  obtain ⟨rfl, rfl⟩ := Prod.mk.inj (Option.some.inj h)
  refine ⟨rfl, _, rfl, rfl, ?_⟩
  constructor
  · exact Nat.one_pos
  · simp [store, SgxPool.addr, PoolMemory.current, PoolMemory.chain, large, cleanup]
  · intro now hnow
    rw [Nat.lt_one_iff.mp hnow]
    simp [store, SgxPool.addr, PoolMemory.current, PoolMemory.chain, large, cleanup, dataNext,
      dataFailed, maxSize]
  · intro now _
    constructor <;>
      simp [store, PoolMemory.current, PoolMemory.chain, large, cleanup, dataNext, dataFailed,
        PoolMemory.dataBegin, PoolMemory.dataEnd, maxSize]
  · intro now _
    exact hpool
  · intro i hi j hj hne
    rw [Nat.lt_one_iff.mp hi, Nat.lt_one_iff.mp hj] at hne
    exact absurd rfl hne

theorem Holds.failRound (h : Holds memory p) (hnext : now + 1 < p.count) :
    Holds (failRound (p.addr 0) (p.addr now) memory) (Pool.failRound p now) := by
  have hnow : now < p.count := Nat.lt_of_succ_lt hnext
  have hword : memory (dataFailed (p.addr now)) = (p.block now).failed := (h.block now hnow).failed
  have hstored := h.store_failed hnow (sizeAdd (p.block now).failed 1)
  have hlink := hstored.next now hnow
  have haddrs := @Pool.setBlock_addr p now
    { p.block now with failed := sizeAdd (p.block now).failed 1 } rfl
  rw [haddrs, haddrs] at hlink
  have hlink := hlink.trans (if_pos hnext)
  simp only [PoolMemory.failRound, Pool.failRound, hword, store_self]
  split_ifs
  · have hmoved := hstored.store_current hnext
    rw [haddrs, haddrs] at hmoved
    rw [hlink]
    exact hmoved
  · exact hstored

def Outside (p : SgxPool) (w : ℕ) : Prop :=
  w ≠ PoolMemory.current (p.addr 0) ∧ ∀ now < p.count, ¬ HeaderWord p now w

theorem failRound_outside (hnow : now < p.count) {w : ℕ} (hw : Outside p w) :
    PoolMemory.failRound (p.addr 0) (p.addr now) memory w = memory w := by
  have hne : w ≠ dataFailed (p.addr now) := by
    rintro rfl
    exact hw.2 now hnow (headerWord_failed p now)
  simp only [PoolMemory.failRound]
  split_ifs
  · rw [store_of_ne hw.1, store_of_ne hne]
  · exact store_of_ne hne _ _

theorem Holds.failLoop (fuel steps : ℕ) (h : Holds memory p) (hnow : now < p.count)
    (hfuel : p.count ≤ now + fuel) (hsteps : p.count ≤ now + 1 + steps) :
    ∃ memory', failLoop (p.addr 0) fuel memory (p.addr now) =
        some (p.addr (p.count - 1), memory') ∧
      Holds memory' (Pool.failLoop steps p now) ∧ ∀ w, Outside p w → memory' w = memory w := by
  induction fuel generalizing steps now memory p with
  | zero => omega
  | succ fuel ih =>
    rw [PoolMemory.failLoop, h.next now hnow]
    by_cases hnext : now + 1 < p.count
    · obtain ⟨steps, rfl⟩ : ∃ k, steps = k + 1 := Nat.exists_eq_add_one.mpr (by omega)
      have hsame := Pool.failRound_same p hnext
      have hround := h.failRound hnext
      have hlink := hround.next now (by rw [hsame.count]; exact hnow)
      rw [hsame.count, if_pos hnext, hsame.addr, hsame.addr] at hlink
      obtain ⟨memory', hloop, hholds, hframe⟩ := ih steps hround (by rw [hsame.count]; exact hnext)
        (by rw [hsame.count]; omega) (by rw [hsame.count]; omega)
      rw [hsame.addr, hsame.addr, hsame.count, hsame.addr] at hloop
      refine ⟨memory', ?_, ?_, ?_⟩
      · rw [if_pos hnext, if_neg (h.nonnull _ hnext)]
        dsimp only
        rw [hlink]
        exact hloop
      · rw [Pool.failLoop, if_pos hnext]
        exact hholds
      · intro w hw
        rw [hframe w, failRound_outside hnow hw]
        refine ⟨by rw [hsame.addr]; exact hw.1, fun i hi => ?_⟩
        rw [hsame.count] at hi
        rw [HeaderWord, hsame.addr]
        exact hw.2 i hi
    · obtain rfl : now = p.count - 1 := by omega
      refine ⟨memory, ?_, ?_, fun _ _ => rfl⟩
      · rw [if_neg hnext, if_pos rfl]
      · cases steps with
        | zero => exact h
        | succ steps =>
          rw [Pool.failLoop, if_neg hnext]
          exact h

def newHeader (new : ℕ) : Span ℕ := ⟨new, new + (Pool.offsetofData + sizeofPoolData)⟩

def withBlock (p : SgxPool) (data : SgxPoolData) : SgxPool :=
  { p.setBlock p.count data with count := p.count + 1 }

theorem withBlock_count (p : SgxPool) (data : SgxPoolData) :
    (withBlock p data).count = p.count + 1 := rfl

theorem withBlock_block {data : SgxPoolData} (hnow : now < p.count) :
    (withBlock p data).block now = p.block now := by
  simp only [withBlock, SgxPool.setBlock, Function.update_of_ne (Nat.ne_of_lt hnow)]

theorem withBlock_new (p : SgxPool) (data : SgxPoolData) : (withBlock p data).block p.count = data := by
  simp only [withBlock, SgxPool.setBlock, Function.update_self]

theorem withBlock_addr {data : SgxPoolData} (hnow : now < p.count) :
    (withBlock p data).addr now = p.addr now := by
  rw [SgxPool.addr, withBlock_block hnow, SgxPool.addr]

theorem withBlock_header {data : SgxPoolData} (hnow : now < p.count) :
    header (withBlock p data) now = header p now := by
  rw [header, header, withBlock_addr hnow]

theorem header_new (hpos : 0 < p.count) (data : SgxPoolData) :
    header (withBlock p data) p.count = newHeader data.addr := by
  rw [header, SgxPool.addr, withBlock_new, if_neg (Nat.ne_of_gt hpos)]
  rfl

theorem HoldsBlock.store_next {data : SgxPoolData} (h : HoldsBlock memory data) (word : ℕ) :
    HoldsBlock (store (dataNext data.addr) word memory) data := by
  constructor
  · rw [store_of_ne (by simp [PoolMemory.dataBegin, dataNext])]
    exact h.dataBegin
  · rw [store_of_ne (by simp [PoolMemory.dataEnd, dataNext])]
    exact h.dataEnd
  · rw [store_of_ne (by simp [dataFailed, dataNext])]
    exact h.failed

theorem outside_of_apart {new w : ℕ}
    (hfresh : ∀ now < p.count, (newHeader new).Apart (header p now)) (hlo : new ≤ w)
    (hhi : w < new + 40) (hpos : 0 < p.count) : Outside p w := by
  have hnot {v : ℕ} (now : ℕ) (hnow : now < p.count) (hle : p.addr now ≤ v)
      (hlt : v < (header p now).stop) : w ≠ v := by
    have happart := hfresh now hnow
    simp only [Span.Apart, newHeader, Pool.offsetofData, sizeofPoolData] at happart
    simp only [header] at happart hlt
    omega
  constructor
  · apply hnot 0 hpos
    · simp [PoolMemory.current]
    · simp [PoolMemory.current, header, sizeofPool]
  · rintro now hnow ⟨hle, hlt⟩
    apply hnot now hnow (by omega) _ rfl
    simp only [header, sizeofPool, Pool.offsetofData, sizeofPoolData]
    split_ifs <;> omega

theorem Holds.grow (h : Holds memory p) {data : SgxPoolData} (hdata : HoldsBlock memory data)
    (hnull : data.addr ≠ 0) (hlast : memory (dataNext data.addr) = 0)
    (hfresh : ∀ now < p.count, (newHeader data.addr).Apart (header p now)) :
    Holds (store (dataNext (p.addr (p.count - 1))) data.addr memory) (withBlock p data) := by
  have hpos : 0 < p.count := Nat.zero_lt_of_lt h.current_lt
  have hlt : p.count - 1 < p.count := Nat.sub_lt hpos Nat.one_pos
  have hnew : (withBlock p data).addr p.count = data.addr := by rw [SgxPool.addr, withBlock_new]
  have houtside {w : ℕ} (hlo : data.addr ≤ w) (hhi : w < data.addr + 40) :
      w ≠ dataNext (p.addr (p.count - 1)) := by
    rintro rfl
    exact (outside_of_apart hfresh hlo hhi hpos).2 _ hlt (headerWord_next p _)
  constructor
  · exact Nat.lt_succ_of_lt h.current_lt
  · rw [withBlock_addr hpos, store_of_ne (h.ne_current hlt (headerWord_next p _)).symm]
    exact h.current.trans (withBlock_addr h.current_lt).symm
  · intro i hi
    rcases Nat.lt_succ_iff_lt_or_eq.mp hi with hi | rfl
    · rw [withBlock_addr hi, withBlock_count, if_pos (by omega)]
      by_cases heq : i = p.count - 1
      · obtain rfl := heq
        rw [store_self, Nat.sub_add_cancel hpos, hnew]
      · rw [store_of_ne (h.ne_of_ne hi hlt heq (headerWord_next p i) (headerWord_next p _)),
          withBlock_addr (by omega), h.next i hi, if_pos (by omega)]
    · rw [hnew, withBlock_count, if_neg (lt_irrefl _), store_of_ne (houtside (by simp [dataNext])
        (by simp [dataNext]))]
      exact hlast
  · intro i hi
    rcases Nat.lt_succ_iff_lt_or_eq.mp hi with hi | rfl
    · rw [withBlock_block hi]
      by_cases heq : i = p.count - 1
      · obtain rfl := heq
        exact (h.block _ hi).store_next _
      · apply (h.block i hi).congr
        intro w hlo hhi
        exact store_of_ne (h.ne_of_ne hi hlt heq ⟨hlo, hhi⟩ (headerWord_next p _)) _ _
    · rw [withBlock_new]
      apply hdata.congr
      intro w hlo hhi
      exact store_of_ne (houtside (by omega) hhi) _ _
  · intro i hi
    rcases Nat.lt_succ_iff_lt_or_eq.mp hi with hi | rfl
    · rw [withBlock_addr hi]
      exact h.nonnull i hi
    · rw [hnew]
      exact hnull
  · apply apart_succ
    · intro i hi j hj hne
      rw [withBlock_header hi, withBlock_header hj]
      exact h.apart i hi j hj hne
    · intro i hi
      rw [header_new hpos, withBlock_header hi]
      exact hfresh i hi

theorem Holds.failLoop_current (h : Holds memory p) (fuel : ℕ) (hfuel : p.count ≤ fuel) :
    ∃ memory', PoolMemory.failLoop (p.addr 0) fuel memory (memory (PoolMemory.current (p.addr 0))) =
        some (p.addr (p.count - 1), memory') ∧
      Holds memory' (Pool.failLoop p.count p p.current) ∧
      ∀ w, Outside p w → memory' w = memory w := by
  rw [h.current]
  exact h.failLoop fuel p.count h.current_lt (by omega) (by omega)

def FreshHeader (p : SgxPool) (mem : Option ℕ) : Prop :=
  ∀ new, mem = some new → new ≠ 0 ∧ ∀ now < p.count, (newHeader new).Apart (header p now)

def initBlock (new m size : ℕ) (memory : Memory) : Memory :=
  store (dataBegin new) (m + size)
    (store (dataFailed new) 0 (store (dataNext new) 0 (store (dataEnd new) (new + size) memory)))

theorem initBlock_of_ne {new w : ℕ} (hw : w < new ∨ new + 40 ≤ w) (m size : ℕ) :
    initBlock new m size memory w = memory w := by
  simp only [initBlock, PoolMemory.dataBegin, PoolMemory.dataEnd, dataNext, dataFailed]
  rw [store_of_ne (by omega), store_of_ne (by omega), store_of_ne (by omega), store_of_ne (by omega)]

theorem initBlock_holds (new m size bytes : ℕ) : HoldsBlock (initBlock new m size memory)
    ⟨new, bytes, m + size, new + size, 0⟩ := by
  constructor <;>
    simp [initBlock, store, PoolMemory.dataBegin, PoolMemory.dataEnd, dataNext, dataFailed]

theorem initBlock_next (new m size : ℕ) : initBlock new m size memory (dataNext new) = 0 := by
  simp [initBlock, store, PoolMemory.dataBegin, dataNext, dataFailed]

theorem Holds.pallocBlock (h : Holds memory p) {fuel size : ℕ} {mem : Option ℕ}
    (hfuel : p.count ≤ fuel) (hfresh : FreshHeader p mem) :
    ∃ memory', sgxPallocBlock fuel (p.addr 0) size mem memory =
        some ((Pool.sgxPallocBlock p size mem).1, memory') ∧
      Holds memory' (Pool.sgxPallocBlock p size mem).2 := by
  cases mem with
  | none => exact ⟨memory, rfl, h⟩
  | some new =>
    obtain ⟨hnull, happart⟩ := hfresh new rfl
    have hpos : 0 < p.count := Nat.zero_lt_of_lt h.current_lt
    have hsame := Pool.failLoop_same p.count p p.current
    have hout {w : ℕ} (hlo : new ≤ w) (hhi : w < new + 40) : Outside p w :=
      outside_of_apart happart hlo hhi hpos
    have hinit (w : ℕ) (hw : ¬ Outside p w) :
        initBlock new (sgxAlignPtr (new + sizeofPoolData) sgxAlignment) size memory w = memory w := by
      apply initBlock_of_ne
      by_contra hin
      exact hw (hout (by omega) (by omega))
    have hstart := @Holds.congr _ (initBlock new _ size memory) _ h
      (fun now hnow w hw => hinit w fun hne => hne.2 now hnow hw) (hinit _ fun hne => hne.1 rfl)
    obtain ⟨memory', hloop, hholds, hframe⟩ := hstart.failLoop_current fuel hfuel
    refine ⟨_, ?_, @Holds.grow _ _ hholds ⟨new, sizeSub (p.block 0).dataEnd (p.block 0).addr, _,
      new + size, 0⟩ ?_ hnull ?_ ?_⟩
    · rw [hsame.count, hsame.addr]
      exact congrArg (Option.map _) hloop
    · apply (initBlock_holds new _ size _).congr
      intro w hlo hhi
      exact hframe w (hout (Nat.le_of_add_right_le hlo) hhi)
    · dsimp only
      rw [hframe _ (hout (by simp [dataNext]) (by simp [dataNext]))]
      exact initBlock_next new _ size
    · intro now hnow
      rw [hsame.count] at hnow
      rw [header, hsame.addr]
      exact happart now hnow

theorem Holds.smallBegin_eq (h : Holds memory p) (align : Bool) :
    smallBegin memory (p.addr 0) align = Pool.smallBegin p align := by
  have hbegin := (h.block 0 (Nat.zero_lt_of_lt h.current_lt)).dataBegin
  rw [smallBegin, Pool.smallBegin]
  exact congrArg (fun begin => if align then sgxAlignPtr begin sgxAlignment else begin) hbegin

theorem Holds.smallFits_eq (h : Holds memory p) (size : ℕ) (align : Bool) (hnow : now < p.count) :
    smallFits memory (p.addr 0) size align (p.addr now) = Pool.smallFits p size align now := by
  have hend := (h.block now hnow).dataEnd
  rw [smallFits, Pool.smallFits, h.smallBegin_eq]
  exact congrArg (fun stop => decide (size ≤ sizeSub stop _)) hend

theorem Holds.smallLoop_eq (h : Holds memory p) (size : ℕ) (align : Bool) {fuel : ℕ}
    (hnow : now < p.count) (hfuel : p.count ≤ now + fuel) :
    smallLoop memory (p.addr 0) size align fuel (p.addr now) =
      some ((Pool.smallLoop p size align fuel now).map p.addr) := by
  induction fuel generalizing now with
  | zero => omega
  | succ fuel ih =>
    rw [smallLoop, Pool.smallLoop, h.smallFits_eq size align hnow, h.next now hnow]
    by_cases hfits : Pool.smallFits p size align now = true
    · rw [if_pos hfits, if_pos hfits, Option.map_some]
    · rw [if_neg hfits, if_neg hfits]
      by_cases hnext : now + 1 < p.count
      · rw [if_pos hnext, if_neg (h.nonnull _ hnext), if_pos hnext]
        exact ih hnext (by omega)
      · rw [if_neg hnext, if_pos rfl, if_neg hnext, Option.map_none]

theorem Holds.smallLoop_current (h : Holds memory p) (size : ℕ) (align : Bool) {fuel : ℕ}
    (hfuel : p.count ≤ fuel) :
    smallLoop memory (p.addr 0) size align fuel (memory (PoolMemory.current (p.addr 0))) =
      some ((Pool.smallLoop p size align p.count p.current).map p.addr) := by
  obtain ⟨more, rfl⟩ := Nat.exists_eq_add_of_le hfuel
  rw [h.current, h.smallLoop_eq size align h.current_lt (by omega),
    Pool.smallLoop_fuel p size align p.count p.current h.current_lt (by omega) more]

theorem smallLoop_lt {size : ℕ} {align : Bool} {fuel now found : ℕ} (hnow : now < p.count)
    (h : Pool.smallLoop p size align fuel now = some found) : found < p.count := by
  induction fuel generalizing now with
  | zero => cases h
  | succ fuel ih =>
    rw [Pool.smallLoop] at h
    split_ifs at h with hfits hnext
    · obtain rfl := Option.some.inj h
      exact hnow
    · exact ih hnext h

theorem Holds.pallocSmall (h : Holds memory p) {fuel size : ℕ} {align : Bool} {mem : Option ℕ}
    (hfuel : p.count ≤ fuel) (hfresh : FreshHeader p mem) :
    ∃ memory', sgxPallocSmall fuel (p.addr 0) size align mem memory =
        some ((Pool.sgxPallocSmall p size align mem).1, memory') ∧
      Holds memory' (Pool.sgxPallocSmall p size align mem).2 := by
  rw [sgxPallocSmall, h.smallLoop_current size align hfuel, Option.bind_some, Pool.sgxPallocSmall]
  cases hloop : Pool.smallLoop p size align p.count p.current with
  | none => exact h.pallocBlock hfuel hfresh
  | some now =>
    rw [Option.map_some, h.smallBegin_eq]
    exact ⟨_, rfl, h.store_begin (smallLoop_lt h.current_lt hloop) _⟩

theorem pallocSmall_base (hpos : 0 < p.count) (size : ℕ) (align : Bool) (mem : Option ℕ) :
    (Pool.sgxPallocSmall p size align mem).2.addr 0 = p.addr 0 := by
  rw [Pool.sgxPallocSmall]
  cases Pool.smallLoop p size align p.count p.current with
  | some now =>
    apply Pool.setBlock_addr
    rfl
  | none =>
    cases mem with
    | none => rfl
    | some new =>
      have hsame := Pool.failLoop_same p.count p p.current
      rw [← hsame.count] at hpos
      exact (withBlock_addr hpos).trans (hsame.addr 0)

end words

end Sginx.PoolMemory
