import Sginx.CleanupRuns

namespace Sginx.Pool

open Sginx.Library.LinkedChain

def Recycled (pool : SgxPool) (w : ℕ) : Prop :=
  ∃ now < pool.count, (pool.block now).dataBegin ≤ w ∧ w < (pool.block now).dataEnd

/-- No byte of a node that the lists of the pool lead to is handed out again. The links of
`sgx_chain_t` and its size are parameters. -/
structure NoNodeRecycled (chainNext : (ℕ → ℕ) → ℕ → ℕ) (sizeofChain : ℕ) (s : LinkedPool) :
    Prop where
  large : ∀ entry ∈ s.pool.large, ∀ w, entry.addr ≤ w → w < entry.addr + sizeofPoolLarge →
    ¬ Recycled s.pool w
  chain : ∀ a, Reaches 0 (chainNext s.memory) s.chain a → ∀ w, a ≤ w → w < a + sizeofChain →
    ¬ Recycled s.pool w
  cleanup : ∀ a, Reaches 0 (fun clean => s.memory (nextAt clean)) s.cleanup a → ∀ w, a ≤ w →
    w < a + sizeofPoolCleanup → ¬ Recycled s.pool w

def EntriesOutside (s : LinkedPool) : Prop :=
  ∀ a, Reaches 0 (fun clean => s.memory (nextAt clean)) s.cleanup a → ∀ w, a ≤ w →
    w < a + sizeofPoolCleanup → ¬ ∃ now < s.pool.count,
      (s.pool.block now).addr + sizeofPool ≤ w ∧ w < (s.pool.block now).dataEnd

theorem reset_noNodeRecycled_iff (chainNext : (ℕ → ℕ) → ℕ → ℕ) (sizeofChain : ℕ)
    (s : LinkedPool) : NoNodeRecycled chainNext sizeofChain s.reset ↔ EntriesOutside s := by
  constructor
  · exact fun h => h.cleanup
  · intro h
    refine ⟨?_, ?_, h⟩
    · exact fun entry hentry => absurd hentry List.not_mem_nil
    · exact fun a hreach => absurd hreach not_reaches_null

theorem entriesOutside_of_null {s : LinkedPool} (h : s.cleanup = 0) : EntriesOutside s := by
  intro a hreach
  rw [h] at hreach
  exact absurd hreach not_reaches_null

structure OwnKept (pool pool' : SgxPool) : Prop where
  count : pool.count ≤ pool'.count
  addr : (pool'.block 0).addr = (pool.block 0).addr
  dataEnd : (pool'.block 0).dataEnd = (pool.block 0).dataEnd
  dataBegin : (pool.block 0).addr + sizeofPool ≤ (pool.block 0).dataBegin →
    (pool.block 0).addr + sizeofPool ≤ (pool'.block 0).dataBegin

theorem OwnKept.refl (pool : SgxPool) : OwnKept pool pool := ⟨le_refl _, rfl, rfl, id⟩

theorem OwnKept.trans {pool₁ pool₂ pool₃ : SgxPool} (h : OwnKept pool₁ pool₂)
    (h' : OwnKept pool₂ pool₃) : OwnKept pool₁ pool₃ := by
  refine ⟨h.count.trans h'.count, h'.addr.trans h.addr, h'.dataEnd.trans h.dataEnd, fun hle => ?_⟩
  have hmiddle := h'.dataBegin (by rw [h.addr]; exact h.dataBegin hle)
  rwa [h.addr] at hmiddle

theorem OwnKept.relink {pool pool' : SgxPool} (h : OwnKept pool pool') (large : List SgxPoolLarge)
    (freed : List ℕ) : OwnKept pool { pool' with large := large, freed := freed } :=
  ⟨h.count, h.addr, h.dataEnd, h.dataBegin⟩

theorem SameBlocks.ownKept {pool pool' : SgxPool} (h : SameBlocks pool pool') :
    OwnKept pool pool' := by
  obtain ⟨failed, hblock⟩ := h.block 0
  refine ⟨h.count.ge, ?_, ?_, fun hle => ?_⟩
  · rw [hblock]
  · rw [hblock]
  · rw [hblock]
    exact hle

theorem block_kept {pool : SgxPool} (hpos : 0 < pool.count) (size : ℕ) (mem : Option ℕ) :
    OwnKept pool (sgxPallocBlock pool size mem).2 := by
  cases mem with
  | none => exact OwnKept.refl pool
  | some new =>
    have hsame := failLoop_same pool.count pool pool.current
    have hne : 0 ≠ (failLoop pool.count pool pool.current).count := by
      rw [hsame.count]
      omega
    refine hsame.ownKept.trans ⟨Nat.le_succ _, ?_, ?_, fun hle => ?_⟩
    · simp only [sgxPallocBlock, SgxPool.setBlock, Function.update_of_ne hne]
    · simp only [sgxPallocBlock, SgxPool.setBlock, Function.update_of_ne hne]
    · simp only [sgxPallocBlock, SgxPool.setBlock, Function.update_of_ne hne]
      exact hle

theorem small_kept {pool : SgxPool} (hpos : 0 < pool.count) (size : ℕ) (align : Bool)
    (mem : Option ℕ) : OwnKept pool (sgxPallocSmall pool size align mem).2 := by
  rw [sgxPallocSmall]
  split
  · rename_i now _
    by_cases hown : now = 0
    · subst hown
      have hbegin := le_smallBegin pool align
      refine ⟨le_refl _, ?_, ?_, fun hle => ?_⟩
      · simp only [SgxPool.setBlock, Function.update_self]
      · simp only [SgxPool.setBlock, Function.update_self]
      · simp only [SgxPool.setBlock, Function.update_self]
        omega
    · refine ⟨le_refl _, ?_, ?_, fun hle => ?_⟩
      · simp only [SgxPool.setBlock, Function.update_of_ne (Ne.symm hown)]
      · simp only [SgxPool.setBlock, Function.update_of_ne (Ne.symm hown)]
      · simp only [SgxPool.setBlock, Function.update_of_ne (Ne.symm hown)]
        exact hle
  · exact block_kept hpos size mem

theorem pmemalign_kept {pool : SgxPool} (hpos : 0 < pool.count) (alloc mem : Option ℕ) :
    OwnKept pool (sgxPmemalign pool alloc mem).2 := by
  have hsmall := small_kept hpos sizeofPoolLarge true mem
  cases alloc with
  | none => exact OwnKept.refl pool
  | some now =>
    rw [sgxPmemalign]
    rcases hnode : sgxPallocSmall pool sizeofPoolLarge true mem with ⟨_ | node, pool'⟩
    · rw [hnode] at hsmall
      exact hsmall.relink _ _
    · rw [hnode] at hsmall
      exact hsmall.relink _ _

theorem large_kept {pool : SgxPool} (hpos : 0 < pool.count) (alloc mem : Option ℕ) :
    OwnKept pool (sgxPallocLarge pool alloc mem).2 := by
  have hsmall := small_kept hpos sizeofPoolLarge true mem
  cases alloc with
  | none => exact OwnKept.refl pool
  | some now =>
    rw [sgxPallocLarge]
    cases reuseLoop now 0 pool.large with
    | some large => exact (OwnKept.refl pool).relink large pool.freed
    | none =>
      dsimp only
      rcases hnode : sgxPallocSmall pool sizeofPoolLarge true mem with ⟨_ | node, pool'⟩
      · rw [hnode] at hsmall
        exact hsmall.relink _ _
      · rw [hnode] at hsmall
        exact hsmall.relink _ _

theorem palloc_kept {pool : SgxPool} (hpos : 0 < pool.count) (size : ℕ) (alloc mem : Option ℕ) :
    OwnKept pool (sgxPalloc pool size alloc mem).2 := by
  rw [sgxPalloc]
  split_ifs
  · exact small_kept hpos size true mem
  · exact large_kept hpos alloc mem

theorem pnalloc_kept {pool : SgxPool} (hpos : 0 < pool.count) (size : ℕ) (alloc mem : Option ℕ) :
    OwnKept pool (sgxPnalloc pool size alloc mem).2 := by
  rw [sgxPnalloc]
  split_ifs
  · exact small_kept hpos size false mem
  · exact large_kept hpos alloc mem

theorem pfree_kept (pool : SgxPool) (p : Option ℕ) : OwnKept pool (sgxPfree pool p).2 := by
  rw [sgxPfree]
  split
  · exact (OwnKept.refl pool).relink _ _
  · exact OwnKept.refl pool

theorem reset_kept (pool : SgxPool) : OwnKept pool (sgxResetPool pool) :=
  ⟨le_refl _, rfl, rfl, fun _ => le_refl _⟩

theorem cleanupAdd_kept {s : LinkedPool} (hpos : 0 < s.pool.count) (size : ℕ)
    (first second : PallocAnswer) :
    OwnKept s.pool (sgxPoolCleanupAdd s size first second).2.pool := by
  have hfirst := palloc_kept hpos sizeofPoolCleanup first.alloc first.mem
  rcases hcall : sgxPoolCleanupAdd s size first second with ⟨_ | clean, s'⟩
  · obtain ⟨-, ⟨hnode, -⟩ | ⟨node, pool, hnode, -, hdata, -⟩⟩ := cleanupAdd_none hcall
    · rw [hnode] at hfirst
      exact hfirst
    · rw [hnode] at hfirst
      have hsecond := palloc_kept (hpos.trans_le hfirst.count) size second.alloc second.mem
      rw [hdata] at hsecond
      exact hfirst.trans hsecond
  · obtain ⟨pool, hnode, -, ⟨-, hpool⟩ | ⟨-, hdata⟩⟩ := cleanupAdd_some hcall
    · rw [hnode] at hfirst
      dsimp only
      rw [hpool]
      exact hfirst
    · rw [hnode] at hfirst
      have hsecond := palloc_kept (hpos.trans_le hfirst.count) size second.alloc second.mem
      rw [hdata] at hsecond
      exact hfirst.trans hsecond

/-- A run of all operations, with the calls of `sgx_pool_cleanup_add` that returned an entry, the
last one first. The users of the pool write what they like. -/
inductive PoolHistory (file sgxPagesize : ℕ) : LinkedPool → List CleanupCall → Prop where
  | create {size mem pool} (memory : ℕ → ℕ) : sizeofPool < size →
      sgxCreatePool size sgxPagesize mem = some pool →
      PoolHistory file sgxPagesize ⟨pool, 0, 0, memory⟩ []
  | palloc {s calls} (size : ℕ) (answer : PallocAnswer) : PoolHistory file sgxPagesize s calls →
      PoolHistory file sgxPagesize
        { s with pool := (sgxPalloc s.pool size answer.alloc answer.mem).2 } calls
  | pnalloc {s calls} (size : ℕ) (answer : PallocAnswer) : PoolHistory file sgxPagesize s calls →
      PoolHistory file sgxPagesize
        { s with pool := (sgxPnalloc s.pool size answer.alloc answer.mem).2 } calls
  | pmemalign {s calls} (answer : PallocAnswer) : PoolHistory file sgxPagesize s calls →
      PoolHistory file sgxPagesize
        { s with pool := (sgxPmemalign s.pool answer.alloc answer.mem).2 } calls
  | pfree {s calls} (p : Option ℕ) : PoolHistory file sgxPagesize s calls →
      PoolHistory file sgxPagesize { s with pool := (sgxPfree s.pool p).2 } calls
  | add {s calls size first second clean s'} : PoolHistory file sgxPagesize s calls →
      sgxPoolCleanupAdd s size first second = (some clean, s') →
      PoolHistory file sgxPagesize s' (⟨s, size, first, second⟩ :: calls)
  | addFails {s calls size first second s'} : PoolHistory file sgxPagesize s calls →
      sgxPoolCleanupAdd s size first second = (none, s') → PoolHistory file sgxPagesize s' calls
  | runFile {s calls fd fuel s' called} : PoolHistory file sgxPagesize s calls →
      sgxPoolRunCleanupFile file s fd fuel = some (s', called) →
      PoolHistory file sgxPagesize s' calls
  | reset {s calls} : PoolHistory file sgxPagesize s calls →
      PoolHistory file sgxPagesize s.reset calls
  | write {s calls} (memory : ℕ → ℕ) (chain : ℕ) : PoolHistory file sgxPagesize s calls →
      PoolHistory file sgxPagesize { s with memory := memory, chain := chain } calls

def CleanupCall.TakesOwn (call : CleanupCall) : Prop :=
  sizeofPoolCleanup ≤ call.state.pool.maxSize ∧ OwnRoom call.state.pool sizeofPoolCleanup

def CleanupCall.entry (call : CleanupCall) : ℕ :=
  (sgxPalloc call.state.pool sizeofPoolCleanup call.first.alloc call.first.mem).1.getD 0

def CleanupCall.Outside (pool : SgxPool) (call : CleanupCall) : Prop :=
  ∀ w, call.entry ≤ w → w < call.entry + sizeofPoolCleanup → ¬ ∃ now < pool.count,
    (pool.block now).addr + sizeofPool ≤ w ∧ w < (pool.block now).dataEnd

structure HistoryInv (s : LinkedPool) (calls : List CleanupCall) : Prop where
  pos : 0 < s.pool.count
  begin_ge : (s.pool.block 0).addr + sizeofPool ≤ (s.pool.block 0).dataBegin
  null : calls = [] → s.cleanup = 0
  head : ∀ call rest, calls = call :: rest → s.cleanup = call.entry
  own : ∀ call ∈ calls, call.TakesOwn → (s.pool.block 0).addr + sizeofPool ≤ call.entry ∧
    call.entry + sizeofPoolCleanup ≤ (s.pool.block 0).dataEnd

theorem HistoryInv.keep {s s' : LinkedPool} {calls : List CleanupCall} (h : HistoryInv s calls)
    (hkept : OwnKept s.pool s'.pool) (hcleanup : s'.cleanup = s.cleanup) : HistoryInv s' calls := by
  constructor
  · exact h.pos.trans_le hkept.count
  · rw [hkept.addr]
    exact hkept.dataBegin h.begin_ge
  · rw [hcleanup]
    exact h.null
  · rw [hcleanup]
    exact h.head
  · rw [hkept.addr, hkept.dataEnd]
    exact h.own

theorem HistoryInv.add {s s' : LinkedPool} {calls : List CleanupCall} (h : HistoryInv s calls)
    {size clean : ℕ} {first second : PallocAnswer}
    (hcall : sgxPoolCleanupAdd s size first second = (some clean, s')) :
    HistoryInv s' (⟨s, size, first, second⟩ :: calls) := by
  have hkept := cleanupAdd_kept h.pos size first second
  obtain ⟨pool, hnode, hlinked, -⟩ := cleanupAdd_some hcall
  rw [hcall] at hkept
  constructor
  · exact h.pos.trans_le hkept.count
  · rw [hkept.addr]
    exact hkept.dataBegin h.begin_ge
  · exact fun hnil => absurd hnil (List.cons_ne_nil _ _)
  · rintro call rest ⟨⟩
    rw [hlinked.cleanup, CleanupCall.entry, hnode]
    rfl
  · rw [hkept.addr, hkept.dataEnd]
    intro call hin hown
    rcases List.mem_cons.mp hin with rfl | hin
    · obtain ⟨hsize, hcurrent, hend⟩ := hown
      have hbegin := le_smallBegin s.pool true
      have hge := h.begin_ge
      rw [CleanupCall.entry, sgxPalloc, if_pos hsize, small_own h.pos hcurrent hend first.mem]
      exact ⟨hge.trans hbegin, hend⟩
    · exact h.own call hin hown

theorem PoolHistory.inv {file sgxPagesize : ℕ} {s : LinkedPool} {calls : List CleanupCall}
    (h : PoolHistory file sgxPagesize s calls) : HistoryInv s calls := by
  induction h with
  | create memory hsize hpool =>
    obtain ⟨addr, -, rfl⟩ := Option.map_eq_some_iff.mp hpool
    exact ⟨Nat.one_pos, le_refl _, fun _ => rfl, nofun, nofun⟩
  | palloc size answer _ ih => exact ih.keep (palloc_kept ih.pos size _ _) rfl
  | pnalloc size answer _ ih => exact ih.keep (pnalloc_kept ih.pos size _ _) rfl
  | pmemalign answer _ ih => exact ih.keep (pmemalign_kept ih.pos _ _) rfl
  | pfree p _ ih => exact ih.keep (pfree_kept _ p) rfl
  | add _ hcall ih => exact ih.add hcall
  | @addFails s calls size first second s' _ hcall ih =>
    have hkept := cleanupAdd_kept ih.pos size first second
    rw [hcall] at hkept
    exact ih.keep hkept (cleanupAdd_none hcall).1
  | @runFile s calls fd fuel s' called _ hcall ih =>
    obtain ⟨found, -, heq⟩ := Option.map_eq_some_iff.mp hcall
    cases found with
    | none =>
      cases heq
      exact ih
    | some clean =>
      cases heq
      exact ih.keep (OwnKept.refl _) rfl
  | reset _ ih => exact ih.keep (reset_kept _) rfl
  | write memory chain _ ih => exact ih.keep (OwnKept.refl _) rfl

theorem HistoryInv.not_outside {s : LinkedPool} {calls : List CleanupCall} {call : CleanupCall}
    (h : HistoryInv s calls) (hin : call ∈ calls) (hown : call.TakesOwn) :
    ¬ call.Outside s.pool := by
  intro houtside
  obtain ⟨hge, hend⟩ := h.own call hin hown
  simp only [sizeofPoolCleanup] at hend
  apply houtside call.entry (le_refl _) (Nat.lt_add_of_pos_right (by decide))
  exact ⟨0, h.pos, hge, by omega⟩

theorem HistoryInv.not_entriesOutside {s : LinkedPool} {call : CleanupCall}
    {rest : List CleanupCall} (h : HistoryInv s (call :: rest)) (hown : call.TakesOwn) :
    ¬ EntriesOutside s := by
  intro houtside
  have hge := (h.own call List.mem_cons_self hown).1
  have hhead := h.head call rest rfl
  have hne : s.cleanup ≠ 0 := by
    simp only [sizeofPool] at hge
    omega
  apply h.not_outside List.mem_cons_self hown
  rw [CleanupCall.Outside, ← hhead]
  exact houtside s.cleanup (.head hne)

theorem entriesOutside_iff {s : LinkedPool} {calls : List CleanupCall}
    (hchain : Chain 0 (fun clean => s.memory (nextAt clean)) s.cleanup
      (calls.map CleanupCall.entry)) :
    EntriesOutside s ↔ ∀ call ∈ calls, call.Outside s.pool := by
  constructor
  · intro h call hcall
    exact h call.entry (hchain.reaches_iff.mpr (List.mem_map_of_mem hcall))
  · intro h a hreach
    obtain ⟨call, hcall, rfl⟩ := List.mem_map.mp (hchain.reaches_iff.mp hreach)
    exact h call hcall

theorem reset_recycles_iff {file sgxPagesize : ℕ} {s : LinkedPool} {calls : List CleanupCall}
    (h : PoolHistory file sgxPagesize s calls) (chainNext : (ℕ → ℕ) → ℕ → ℕ) (sizeofChain : ℕ) :
    (calls = [] → NoNodeRecycled chainNext sizeofChain s.reset) ∧
      (∀ call rest, calls = call :: rest → call.TakesOwn →
        ¬ NoNodeRecycled chainNext sizeofChain s.reset) ∧
      (NoNodeRecycled chainNext sizeofChain s.reset ↔ EntriesOutside s) ∧
      (Chain 0 (fun clean => s.memory (nextAt clean)) s.cleanup (calls.map CleanupCall.entry) →
        (∀ call ∈ calls, call.TakesOwn ∨ call.Outside s.pool) →
        (NoNodeRecycled chainNext sizeofChain s.reset ↔ ∀ call ∈ calls, ¬ call.TakesOwn)) := by
  have hinv := h.inv
  have hiff := reset_noNodeRecycled_iff chainNext sizeofChain s
  refine ⟨fun hnil => ?_, ?_, hiff, fun hchain hplaces => ?_⟩
  · exact hiff.mpr (entriesOutside_of_null (hinv.null hnil))
  · rintro call rest rfl hown hclean
    exact hinv.not_entriesOutside hown (hiff.mp hclean)
  · rw [hiff, entriesOutside_iff hchain]
    constructor
    · intro houtside call hcall hown
      exact hinv.not_outside hcall hown (houtside call hcall)
    · intro hnone call hcall
      exact (hplaces call hcall).resolve_left (hnone call hcall)

theorem reset_recycles_iff_no_entry : ∃ s, PoolHistory 1 4096 s [] ∧
    NoNodeRecycled (fun memory a => memory (a + 8)) 16 s.reset := by
  have hcreate : PoolHistory 1 4096 _ [] := .create (fun _ => 0) (by decide)
    (Eq.refl (sgxCreatePool 1024 4096 (some 4096)))
  have hrun := hcreate.palloc 24 ⟨none, none⟩
  exact ⟨_, hrun, (reset_recycles_iff hrun _ 16).1 rfl⟩

theorem entry_is_handed_out_again : ∃ s calls, PoolHistory 1 4096 s calls ∧
    s.reset.cleanup = 4176 ∧ (sgxPalloc s.reset.pool 24 none none).1 = some 4176 ∧
      ¬ NoNodeRecycled (fun memory a => memory (a + 8)) 16 s.reset := by
  have hcreate : PoolHistory 1 4096 _ [] := .create (fun _ => 0) (by decide)
    (Eq.refl (sgxCreatePool 1024 4096 (some 4096)))
  have hrun := hcreate.add (Eq.refl (sgxPoolCleanupAdd _ 0 ⟨none, none⟩ ⟨none, none⟩))
  refine ⟨_, _, hrun, rfl, rfl, fun hclean => ?_⟩
  have houtside := (reset_noNodeRecycled_iff _ _ _).mp hclean
  exact hrun.inv.not_entriesOutside ⟨by decide, rfl, by decide⟩ houtside

end Sginx.Pool
