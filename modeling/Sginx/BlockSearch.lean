import Sginx.PoolRepresents

namespace Sginx.PoolMemory

open Sginx.Library.LinkedChain
open Sginx.Library.Regions
open Sginx.Pool (SgxPool Searched sizeofPool sizeofPoolLarge sgxPoolAlignment)

def OnChain (memory : Memory) (pool : ℕ) : ℕ → Prop :=
  Reaches 0 (fun now => memory (dataNext now)) pool

def SearchWord (memory : Memory) (pool w : ℕ) : Prop :=
  w = current pool ∨ ∃ now, OnChain memory pool now ∧ (w = dataNext now ∨ w = dataFailed now)

def Misses (memory : Memory) (pool start stop : ℕ) : Prop :=
  ∀ w, SearchWord memory pool w → stop ≤ w ∨ w + sizeofPtr ≤ start

structure FreshBlock (memory : Memory) (pool new : ℕ) : Prop where
  nonnull : new ≠ 0
  aligned : sgxPoolAlignment ∣ new
  own : (newHeader new).Apart ⟨pool, pool + sizeofPool⟩
  others : ∀ now, OnChain memory pool now → (newHeader new).Apart (newHeader now)

def Returns {β : Type} (call : ℕ → Option β) (answer : β) : Prop :=
  ∃ enough, ∀ fuel, enough ≤ fuel → call fuel = some answer

/-- The new entry lies in a block that there was, on none of these words. -/
def CarvesOff (memory : Memory) (pool : ℕ) : Prop :=
  (∃ now, Returns (fun fuel => smallLoop memory pool sizeofPoolLarge true fuel
    (memory (current pool))) (some now)) ∧
  Misses memory pool (smallBegin memory pool true) (smallBegin memory pool true + sizeofPoolLarge)

def LargeOff (memory : Memory) (pool : ℕ) : Prop :=
  match reuseLoop memory 4 (memory (large pool)) with
  | some entry => Misses memory pool (largeAlloc entry) (largeAlloc entry + sizeofPtr)
  | none => CarvesOff memory pool

inductive Step where
  | block (size : ℕ)
  | palloc (size : ℕ)
  | pnalloc (size : ℕ)
  | pmemalign
  | pfree (p : ℕ)
  -- what the users of the pool write
  | write (start stop : ℕ)

def Step.Off (memory : Memory) (pool : ℕ) : Step → Prop
  | .block _ => True
  | .palloc size => memory (maxSize pool) < size → LargeOff memory pool
  | .pnalloc size => memory (maxSize pool) < size → LargeOff memory pool
  | .pmemalign => CarvesOff memory pool
  | .pfree p => ∀ fuel entry, seek 0 (fun entry => memory (largeNext entry))
      (fun entry => p = memory (largeAlloc entry)) fuel (memory (large pool)) = some (some entry) →
        Misses memory pool (largeAlloc entry) (largeAlloc entry + sizeofPtr)
  | .write start stop => Misses memory pool start stop

/-- Runs in which no allocation fails, with the state before each step. `sgx_palloc_block` may also
be called by itself. -/
inductive SearchRun (sgxPagesize pool : ℕ) : Memory → List (Memory × Step) → Prop where
  | create {size memory memory'} : pool ≠ 0 → sgxPoolAlignment ∣ pool →
      sgxCreatePool size sgxPagesize (some pool) memory = some (pool, memory') →
      SearchRun sgxPagesize pool memory' []
  | block {memory steps size new r memory'} : SearchRun sgxPagesize pool memory steps →
      FreshBlock memory pool new →
      Returns (fun fuel => sgxPallocBlock fuel pool size (some new) memory) (r, memory') →
      SearchRun sgxPagesize pool memory' ((memory, .block size) :: steps)
  | palloc {memory steps size alloc new r memory'} : SearchRun sgxPagesize pool memory steps →
      FreshBlock memory pool new →
      Returns (fun fuel => sgxPalloc fuel pool size (some alloc) (some new) memory) (r, memory') →
      SearchRun sgxPagesize pool memory' ((memory, .palloc size) :: steps)
  | pnalloc {memory steps size alloc new r memory'} : SearchRun sgxPagesize pool memory steps →
      FreshBlock memory pool new →
      Returns (fun fuel => sgxPnalloc fuel pool size (some alloc) (some new) memory) (r, memory') →
      SearchRun sgxPagesize pool memory' ((memory, .pnalloc size) :: steps)
  | pmemalign {memory steps alloc new r memory'} : SearchRun sgxPagesize pool memory steps →
      FreshBlock memory pool new →
      Returns (fun fuel => sgxPmemalign fuel pool (some alloc) (some new) memory) (r, memory') →
      SearchRun sgxPagesize pool memory' ((memory, .pmemalign) :: steps)
  | pfree {memory steps p code memory'} : SearchRun sgxPagesize pool memory steps →
      Returns (fun fuel => sgxPfree fuel pool p memory) (code, memory') →
      SearchRun sgxPagesize pool memory' ((memory, .pfree p) :: steps)
  | write {memory steps start stop memory'} : SearchRun sgxPagesize pool memory steps →
      (∀ w, stop ≤ w ∨ w + sizeofPtr ≤ start → memory' w = memory w) →
      SearchRun sgxPagesize pool memory' ((memory, .write start stop) :: steps)

def Falls (counters : List ℕ) : Prop :=
  counters.Pairwise (· > ·) ∨
    ∃ front, counters = front ++ [0, 0] ∧ (front ++ [0]).Pairwise (· > ·)

def SearchBounded (memory : Memory) (pool : ℕ) : Prop :=
  ∃ passed rest, Chain 0 (fun now => memory (dataNext now)) pool (passed ++ rest) ∧
    rest.head? = some (memory (current pool)) ∧
    (∀ now ∈ passed, memory (dataFailed now) = 5) ∧
    Falls (rest.map fun now => memory (dataFailed now)) ∧
    ∀ size align, (smallLoop memory pool size align 6 (memory (current pool))).isSome

section records

variable {memory memory' : Memory} {p : SgxPool}

theorem Holds.chain_drop (h : Holds memory p) (n : ℕ) (hn : n ≤ p.count) :
    Chain 0 (fun now => memory (dataNext now)) (if n < p.count then p.addr n else 0)
      ((List.range' n (p.count - n)).map p.addr) := by
  obtain ⟨left, hleft⟩ := Nat.exists_eq_add_of_le hn
  induction left generalizing n with
  | zero =>
    obtain rfl : n = p.count := by omega
    rw [if_neg (lt_irrefl _), Nat.sub_self]
    rfl
  | succ left ih =>
    have hlt : n < p.count := by omega
    obtain hrange : p.count - n = (p.count - (n + 1)) + 1 := by omega
    rw [if_pos hlt, hrange, List.range'_succ, List.map_cons]
    refine ⟨rfl, h.nonnull n hlt, ?_⟩
    dsimp only
    rw [h.next n hlt]
    exact ih (n + 1) hlt (by omega)

theorem Holds.chain (h : Holds memory p) : Chain 0 (fun now => memory (dataNext now)) (p.addr 0)
    ((List.range p.count).map p.addr) := by
  have hall := h.chain_drop 0 (Nat.zero_le _)
  rw [if_pos (Nat.zero_lt_of_lt h.current_lt), Nat.sub_zero, ← List.range_eq_range'] at hall
  exact hall

theorem Holds.onChain_iff (h : Holds memory p) {a : ℕ} :
    OnChain memory (p.addr 0) a ↔ ∃ now < p.count, p.addr now = a := by
  rw [OnChain, h.chain.reaches_iff]
  simp

theorem Holds.searchWord_iff (h : Holds memory p) {w : ℕ} :
    SearchWord memory (p.addr 0) w ↔ w = PoolMemory.current (p.addr 0) ∨
      ∃ now < p.count, w = dataNext (p.addr now) ∨ w = dataFailed (p.addr now) := by
  simp only [SearchWord, h.onChain_iff]
  constructor
  · rintro (rfl | ⟨_, ⟨now, hnow, rfl⟩, hw⟩)
    · exact .inl rfl
    · exact .inr ⟨now, hnow, hw⟩
  · rintro (rfl | ⟨now, hnow, hw⟩)
    · exact .inl rfl
    · exact .inr ⟨_, ⟨now, hnow, rfl⟩, hw⟩

theorem Holds.ne_large (h : Holds memory p) {w : ℕ} (hw : SearchWord memory (p.addr 0) w) :
    w ≠ large (p.addr 0) := by
  rcases h.searchWord_iff.mp hw with rfl | ⟨now, hnow, rfl | rfl⟩
  · simp [PoolMemory.current, large]
  · exact h.ne_own hnow (headerWord_next p now) (by decide) (by decide)
  · exact h.ne_own hnow (headerWord_failed p now) (by decide) (by decide)

/-- The bounds of the blocks may have been overwritten. -/
def reread (memory : Memory) (p : SgxPool) : SgxPool :=
  { p with block := fun now =>
      { p.block now with
        dataBegin := memory (dataBegin (p.addr now))
        dataEnd := memory (dataEnd (p.addr now)) } }

theorem Holds.reread (h : Holds memory p)
    (hsame : ∀ w, SearchWord memory (p.addr 0) w → memory' w = memory w) :
    Holds memory' (reread memory' p) := by
  refine ⟨h.current_lt, ?_, ?_, ?_, h.nonnull, h.apart⟩
  · exact (hsame _ (.inl rfl)).trans h.current
  · intro now hnow
    exact (hsame _ (h.searchWord_iff.mpr (.inr ⟨now, hnow, .inl rfl⟩))).trans (h.next now hnow)
  · intro now hnow
    refine ⟨rfl, rfl, ?_⟩
    exact (hsame _ (h.searchWord_iff.mpr (.inr ⟨now, hnow, .inr rfl⟩))).trans
      (h.block now hnow).failed

end records

def Kept (memory : Memory) (pool : ℕ) : Prop :=
  ∃ p k, p.addr 0 = pool ∧ Holds memory p ∧ Searched k p

section Kept

variable {memory memory' : Memory} {pool new : ℕ}

theorem Kept.rewrite (h : Kept memory pool)
    (hsame : ∀ w, SearchWord memory pool w → memory' w = memory w) : Kept memory' pool := by
  obtain ⟨p, k, rfl, hholds, hsearched⟩ := h
  exact ⟨reread memory' p, k, rfl, hholds.reread hsame,
    hsearched.count, hsearched.current, hsearched.failed⟩

theorem FreshBlock.header (h : FreshBlock memory pool new) {p : SgxPool} (hpool : p.addr 0 = pool)
    (hholds : Holds memory p) : FreshHeader p (some new) := by
  subst hpool
  rintro _ ⟨⟩
  refine ⟨h.nonnull, fun now hnow => ?_⟩
  rw [PoolMemory.header]
  split_ifs with hzero
  · subst hzero
    exact h.own
  · exact h.others _ (hholds.onChain_iff.mpr ⟨now, hnow, rfl⟩)

theorem Returns.at {β : Type} {call : ℕ → Option β} {answer : β} (h : Returns call answer) (n : ℕ) :
    ∃ fuel, n ≤ fuel ∧ call fuel = some answer := by
  obtain ⟨enough, hcall⟩ := h
  exact ⟨max n enough, le_max_left _ _, hcall _ (le_max_right _ _)⟩

theorem Kept.small (h : Kept memory pool) (hfresh : FreshBlock memory pool new) (size : ℕ)
    (align : Bool) : ∃ n, ∀ fuel, n ≤ fuel → ∃ r memory',
      sgxPallocSmall fuel pool size align (some new) memory = some (r, memory') ∧
      Kept memory' pool := by
  obtain ⟨p, k, rfl, hholds, hsearched⟩ := h
  refine ⟨p.count, fun fuel hfuel => ?_⟩
  obtain ⟨memory', hcall, hholds'⟩ :=
    @Holds.pallocSmall _ _ hholds fuel size align (some new) hfuel (hfresh.header rfl hholds)
  obtain ⟨k', hsearched'⟩ := hsearched.small size align new
  exact ⟨_, memory', hcall, _, k',
    pallocSmall_base (Nat.zero_lt_of_lt hholds.current_lt) size align _, hholds', hsearched'⟩

theorem Kept.block (h : Kept memory pool) (hfresh : FreshBlock memory pool new) {size : ℕ}
    {r : Option ℕ}
    (hcall : Returns (fun fuel => sgxPallocBlock fuel pool size (some new) memory)
      (r, memory')) : Kept memory' pool := by
  obtain ⟨p, k, rfl, hholds, hsearched⟩ := h
  obtain ⟨fuel, hfuel, hcall⟩ := hcall.at p.count
  obtain ⟨memory₁, hblock, hholds'⟩ :=
    @Holds.pallocBlock _ _ hholds fuel size (some new) hfuel (hfresh.header rfl hholds)
  obtain ⟨-, rfl⟩ := Prod.mk.inj (Option.some.inj (hblock.symm.trans hcall))
  have hpos : 0 < p.count := Nat.zero_lt_of_lt hholds.current_lt
  have hsame := Pool.failLoop_same p.count p p.current
  refine ⟨_, k + 1, ?_, hholds', hsearched.block size new⟩
  rw [← hsame.count] at hpos
  exact (withBlock_addr hpos).trans (hsame.addr 0)

theorem Kept.carve (h : Kept memory pool) (hoff : CarvesOff memory pool) {now : ℕ} {r : Option ℕ}
    (hcall : Returns (fun fuel => newLarge fuel pool now (some new) memory) (r, memory')) :
    Kept memory' pool := by
  obtain ⟨p, k, rfl, hholds, hsearched⟩ := h
  obtain ⟨⟨found, henough, hloop⟩, hmisses⟩ := hoff
  obtain ⟨fuel, hfuel, hcall⟩ := hcall.at (max henough p.count)
  have hfound := hloop fuel ((le_max_left _ _).trans hfuel)
  dsimp only at hfound
  have hscan := hholds.smallLoop_current sizeofPoolLarge true ((le_max_right _ _).trans hfuel)
  rw [hfound] at hscan
  obtain ⟨i, hi, rfl⟩ := Option.map_eq_some_iff.mp (Option.some.inj hscan).symm
  have hlt := smallLoop_lt hholds.current_lt hi
  have hbegin := hholds.smallBegin_eq true
  have hstored := hholds.store_begin hlt (smallBegin memory (p.addr 0) true + sizeofPoolLarge)
  have haddrs := @Pool.setBlock_addr p i { p.block i with
    dataBegin := smallBegin memory (p.addr 0) true + sizeofPoolLarge } rfl
  have hword {w : ℕ} (hw : SearchWord (store (dataBegin (p.addr i))
      (smallBegin memory (p.addr 0) true + sizeofPoolLarge) memory) (p.addr 0) w) :
      SearchWord memory (p.addr 0) w := by
    have hiff := @Holds.searchWord_iff _ _ hstored w
    simp only [haddrs] at hiff
    exact hholds.searchWord_iff.mpr (hiff.mp hw)
  rw [newLarge, sgxPallocSmall, hfound, Option.bind_some] at hcall
  obtain ⟨-, rfl⟩ := Prod.mk.inj (Option.some.inj hcall)
  have hkept : Kept _ (p.addr 0) := ⟨_, k, haddrs 0, hstored, hsearched.setBlock rfl⟩
  apply hkept.rewrite
  intro w hw
  have hmiss := hmisses w (hword hw)
  simp only [sizeofPoolLarge, sizeofPtr] at hmiss
  simp only [linkLarge]
  rw [store_of_ne (hholds.ne_large (hword hw)), store_of_ne, store_of_ne]
  · simp only [largeAlloc]
    omega
  · simp only [largeNext]
    omega

theorem Kept.misses (h : Kept memory pool) {a word : ℕ}
    (hmisses : Misses memory pool a (a + sizeofPtr)) : Kept (store a word memory) pool := by
  apply h.rewrite
  intro w hw
  have hmiss := hmisses w hw
  simp only [sizeofPtr] at hmiss
  exact store_of_ne (by omega) _ _

theorem Kept.large (h : Kept memory pool) (hoff : LargeOff memory pool) {now : ℕ} {r : Option ℕ}
    (hcall : Returns (fun fuel => sgxPallocLarge fuel pool (some now) (some new) memory)
      (r, memory')) : Kept memory' pool := by
  simp only [LargeOff] at hoff
  simp only [sgxPallocLarge] at hcall
  cases hreuse : reuseLoop memory 4 (memory (PoolMemory.large pool)) with
  | some entry =>
    rw [hreuse] at hoff hcall
    obtain ⟨fuel, -, hcall⟩ := hcall.at 0
    obtain ⟨-, rfl⟩ := Prod.mk.inj (Option.some.inj hcall)
    exact h.misses hoff
  | none =>
    rw [hreuse] at hoff hcall
    exact h.carve hoff hcall

theorem Kept.pallocSmall (h : Kept memory pool) (hfresh : FreshBlock memory pool new) {size : ℕ}
    {align : Bool} {r : Option ℕ}
    (hcall : Returns (fun fuel => sgxPallocSmall fuel pool size align (some new) memory)
      (r, memory')) : Kept memory' pool := by
  obtain ⟨n, hsmall⟩ := h.small hfresh size align
  obtain ⟨fuel, hfuel, hcall⟩ := hcall.at n
  obtain ⟨r', memory₁, hsmall, hkept⟩ := hsmall fuel hfuel
  obtain ⟨-, rfl⟩ := Prod.mk.inj (Option.some.inj (hsmall.symm.trans hcall))
  exact hkept

theorem Kept.request (h : Kept memory pool) (hfresh : FreshBlock memory pool new) {size now : ℕ}
    {align : Bool} {r : Option ℕ} (hoff : memory (maxSize pool) < size → LargeOff memory pool)
    (hcall : Returns (fun fuel =>
      if size ≤ memory (maxSize pool) then sgxPallocSmall fuel pool size align (some new) memory
      else sgxPallocLarge fuel pool (some now) (some new) memory) (r, memory')) :
    Kept memory' pool := by
  by_cases hsize : size ≤ memory (maxSize pool)
  · simp only [if_pos hsize] at hcall
    exact h.pallocSmall hfresh hcall
  · simp only [if_neg hsize] at hcall
    exact h.large (hoff (Nat.lt_of_not_le hsize)) hcall

end Kept

theorem SearchRun.kept {sgxPagesize pool : ℕ} {memory : Memory} {steps : List (Memory × Step)}
    (h : SearchRun sgxPagesize pool memory steps)
    (hoff : ∀ step ∈ steps, step.2.Off step.1 pool) : Kept memory pool := by
  induction h with
  | create hpool _ hcreate =>
    obtain ⟨-, p, hp, hbase, hholds⟩ := create_holds hpool hcreate
    obtain ⟨addr, -, rfl⟩ := Option.map_eq_some_iff.mp hp
    refine ⟨_, 0, hbase, hholds, rfl, rfl, fun i hi => ?_⟩
    obtain rfl := Nat.le_zero.mp hi
    rfl
  | block _ hfresh hcall ih =>
    exact (ih fun step hstep => hoff step (List.mem_cons_of_mem _ hstep)).block hfresh hcall
  | palloc _ hfresh hcall ih =>
    have hkept := ih fun step hstep => hoff step (List.mem_cons_of_mem _ hstep)
    exact hkept.request hfresh (hoff _ List.mem_cons_self) hcall
  | pnalloc _ hfresh hcall ih =>
    have hkept := ih fun step hstep => hoff step (List.mem_cons_of_mem _ hstep)
    exact hkept.request hfresh (hoff _ List.mem_cons_self) hcall
  | pmemalign _ _ hcall ih =>
    have hkept := ih fun step hstep => hoff step (List.mem_cons_of_mem _ hstep)
    exact hkept.carve (hoff _ List.mem_cons_self) hcall
  | @pfree memory _ p _ _ _ hcall ih =>
    have hkept := ih fun step hstep => hoff step (List.mem_cons_of_mem _ hstep)
    have hstep := hoff _ List.mem_cons_self
    obtain ⟨fuel, -, hcall⟩ := hcall.at 0
    obtain ⟨found, hseek, heq⟩ := Option.map_eq_some_iff.mp hcall
    cases found with
    | none =>
      obtain ⟨-, rfl⟩ := Prod.mk.inj heq
      exact hkept
    | some entry =>
      obtain ⟨-, rfl⟩ := Prod.mk.inj heq
      exact hkept.misses (hstep fuel entry hseek)
  | write _ hframe ih =>
    have hkept := ih fun step hstep => hoff step (List.mem_cons_of_mem _ hstep)
    have hstep := hoff _ List.mem_cons_self
    apply hkept.rewrite
    intro w hw
    exact hframe w (hstep w hw)

theorem falls_down (k : ℕ) :
    Falls ((List.range' (k - 5) (k + 1 - (k - 5))).map fun i => k - 1 - i) := by
  rcases Nat.eq_zero_or_pos k with rfl | hpos
  · exact .inl (List.pairwise_singleton _ _)
  · right
    have hlen : k + 1 - (k - 5) = k - 1 - (k - 5) + 1 + 1 := by omega
    have hfirst : k - 1 - (k - 5 + 1 * (k - 1 - (k - 5))) = 0 := by omega
    have hlast : k - 1 - (k - 5 + 1 * (k - 1 - (k - 5) + 1)) = 0 := by omega
    refine ⟨(List.range' (k - 5) (k - 1 - (k - 5))).map fun i => k - 1 - i, ?_, ?_⟩
    · rw [hlen, List.range'_concat, List.range'_concat, List.map_append, List.map_append,
        List.map_singleton, List.map_singleton, hfirst, hlast, List.append_assoc]
      rfl
    · have happend : ((List.range' (k - 5) (k - 1 - (k - 5))).map fun i => k - 1 - i) ++ [0] =
          (List.range' (k - 5) (k - 1 - (k - 5) + 1)).map fun i => k - 1 - i := by
        rw [List.range'_concat, List.map_append, List.map_singleton, hfirst]
      rw [happend, List.pairwise_map]
      apply List.Pairwise.imp_of_mem _ (@List.pairwise_lt_range' _ _ 1 Nat.one_pos)
      intro i j _ hj hlt
      rw [List.mem_range'_1] at hj
      omega

theorem Kept.bounded {memory : Memory} {pool : ℕ} (h : Kept memory pool) :
    SearchBounded memory pool := by
  obtain ⟨p, k, rfl, hholds, hsearched⟩ := h
  have hcount := hsearched.count
  have hcurrent := hsearched.current
  have hcounter {i : ℕ} (hi : i ≤ k) : memory (dataFailed (p.addr i)) = min 5 (k - 1 - i) :=
    (hholds.block i (by omega)).failed.trans (hsearched.failed i hi)
  refine ⟨(List.range (k - 5)).map p.addr, (List.range' (k - 5) (k + 1 - (k - 5))).map p.addr,
    ?_, ?_, ?_, ?_, ?_⟩
  · have hchain := hholds.chain
    have hsplit : List.range (k - 5) ++ List.range' (k - 5) (k + 1 - (k - 5)) = List.range (k + 1) := by
      have happend := @List.range'_append_1 0 (k - 5) (k + 1 - (k - 5))
      rw [Nat.zero_add, Nat.add_sub_cancel' (by omega)] at happend
      rw [List.range_eq_range', List.range_eq_range', happend]
    rw [← List.map_append, hsplit, ← hcount]
    exact hchain
  · rw [hholds.current, hcurrent, show k + 1 - (k - 5) = k - (k - 5) + 1 by omega,
      List.range'_succ]
    rfl
  · intro now hnow
    obtain ⟨i, hi, rfl⟩ := List.mem_map.mp hnow
    rw [List.mem_range] at hi
    rw [hcounter (by omega)]
    omega
  · rw [List.map_map]
    have hfalls := falls_down k
    rwa [List.map_congr_left] at hfalls
    intro i hi
    rw [List.mem_range'_1] at hi
    rw [Function.comp_apply, hcounter (by omega)]
    omega
  · intro size align
    rw [hholds.current, hholds.smallLoop_eq size align hholds.current_lt (by omega)]
    rfl

theorem freshBlock_of_chain {memory : Memory} {pool new : ℕ} {nodes : List ℕ}
    (hchain : Chain 0 (fun now => memory (dataNext now)) pool nodes) (hnull : new ≠ 0)
    (haligned : sgxPoolAlignment ∣ new) (hown : (newHeader new).Apart ⟨pool, pool + sizeofPool⟩)
    (hothers : ∀ now ∈ nodes, (newHeader new).Apart (newHeader now)) :
    FreshBlock memory pool new := by
  refine ⟨hnull, haligned, hown, fun now hnow => hothers now ?_⟩
  exact hchain.reaches_iff.mp hnow

theorem freshBlock_second {memory : Memory} (hpool : memory (dataNext 4096) = 0) :
    FreshBlock memory 4096 8192 := by
  apply @freshBlock_of_chain memory 4096 8192 [4096] ⟨rfl, by decide, hpool⟩ (by decide) (by decide)
  · exact .inr (by decide)
  · intro now hnow
    rw [List.mem_singleton.mp hnow]
    exact .inr (by decide)

theorem returns_of_four {β : Type} {call : ℕ → Option β} {answer : β}
    (h : ∀ more, call (more + 4) = some answer) : Returns call answer := by
  refine ⟨4, fun fuel hfuel => ?_⟩
  obtain ⟨more, rfl⟩ := Nat.exists_eq_add_of_le' hfuel
  exact h more

theorem block_search_bounded {sgxPagesize pool : ℕ} {memory : Memory} {steps : List (Memory × Step)}
    (h : SearchRun sgxPagesize pool memory steps)
    (hoff : ∀ step ∈ steps, step.2.Off step.1 pool) : SearchBounded memory pool :=
  (h.kept hoff).bounded

theorem block_search_bounded_two_blocks : ∃ memory steps, SearchRun 4096 4096 memory steps ∧
    steps.length = 2 ∧ SearchBounded memory 4096 := by
  have hcreate := SearchRun.create (by decide) (by decide)
    (Eq.refl (sgxCreatePool 128 4096 (some 4096) fun _ => 0))
  have hsmall := hcreate.palloc (freshBlock_second rfl) (returns_of_four fun more =>
    Eq.refl (sgxPalloc (more + 4) 4096 48 (some 9000) (some 8192) _))
  have hrun := hsmall.block (freshBlock_second rfl) (returns_of_four fun more =>
    Eq.refl (sgxPallocBlock (more + 4) 4096 48 (some 8192) _))
  refine ⟨_, _, hrun, rfl, block_search_bounded hrun ?_⟩
  intro step hstep
  rcases List.mem_cons.mp hstep with rfl | hstep
  · trivial
  · rw [List.mem_singleton.mp hstep]
    intro hlarge
    exact absurd hlarge (by decide)

theorem entry_covers_counter : ∃ memory steps, SearchRun 4096 4096 memory steps ∧
    ¬ SearchBounded memory 4096 := by
  have hcreate := SearchRun.create (by decide) (by decide)
    (Eq.refl (sgxCreatePool 128 4096 (some 4096) fun _ => 0))
  have hlarge := hcreate.palloc (freshBlock_second rfl) (returns_of_four fun more =>
    Eq.refl (sgxPalloc (more + 4) 4096 100 (some 9000) (some 8192) _))
  have hfull := hlarge.palloc (freshBlock_second rfl) (returns_of_four fun more =>
    Eq.refl (sgxPalloc (more + 4) 4096 32 (some 9500) (some 8192) _))
  have hrun := hfull.palloc (freshBlock_second rfl) (returns_of_four fun more =>
    Eq.refl (sgxPalloc (more + 4) 4096 100 (some 9500) (some 8192) _))
  refine ⟨_, _, hrun, ?_⟩
  rintro ⟨passed, rest, hchain, hhead, -, hfalls, -⟩
  have hblocks : passed ++ rest = [4096, 8192] :=
    hchain.unique ⟨rfl, by decide, rfl, by decide, rfl⟩
  cases passed with
  | nil =>
    obtain rfl : rest = [4096, 8192] := hblocks
    have hcounters : Falls [0, 4176] := hfalls
    rcases hcounters with hpairs | ⟨front, hfront, -⟩
    · exact absurd hpairs (by decide)
    · cases front with
      | nil => exact absurd hfront (by decide)
      | cons b front =>
        have hlen := congrArg List.length hfront
        rw [List.length_append, List.length_cons] at hlen
        exact absurd hlen (by simp)
  | cons a passed =>
    obtain ⟨rfl, hrest⟩ := List.cons.inj hblocks
    cases passed with
    | nil =>
      obtain rfl : rest = [8192] := hrest
      exact absurd (Option.some.inj hhead) (by decide)
    | cons b passed =>
      obtain ⟨-, hrest⟩ := List.cons.inj hrest
      rw [(List.append_eq_nil_iff.mp hrest).2] at hhead
      cases hhead

end Sginx.PoolMemory
