import Mathlib.Data.List.Perm.Basic
import Sginx.PoolRuns

/-!
The large blocks of a pool. What `sgx_palloc_small` returns for an entry of the list is taken to be
memory of its own, so the list is a list of records.
-/

namespace Sginx.Pool

def allocs (large : List SgxPoolLarge) : List ℕ := large.filterMap fun entry => entry.alloc

def NewBlock (live : List ℕ) (alloc : Option ℕ) : Prop := ∀ now, alloc = some now → now ∉ live

/-- Runs with the blocks that were obtained, newest first, and those handed out and not yet freed. -/
inductive LargeRun (sgxPagesize : ℕ) : SgxPool → List ℕ → List ℕ → Prop where
  | create {size mem pool} : sgxCreatePool size sgxPagesize mem = some pool →
      LargeRun sgxPagesize pool [] []
  | pallocLarge {pool obtained live alloc mem r pool'} : LargeRun sgxPagesize pool obtained live →
      NewBlock live alloc → sgxPallocLarge pool alloc mem = (r, pool') →
      LargeRun sgxPagesize pool' (alloc.toList ++ obtained) (r.toList ++ live)
  | pmemalign {pool obtained live alloc mem r pool'} : LargeRun sgxPagesize pool obtained live →
      NewBlock live alloc → sgxPmemalign pool alloc mem = (r, pool') →
      LargeRun sgxPagesize pool' (alloc.toList ++ obtained) (r.toList ++ live)
  | pfree {pool obtained live p code pool'} : LargeRun sgxPagesize pool obtained live →
      sgxPfree pool (some p) = (code, pool') →
      LargeRun sgxPagesize pool' obtained (if code = sgxOk then live.erase p else live)
  | reset {pool obtained live} : LargeRun sgxPagesize pool obtained live →
      LargeRun sgxPagesize (sgxResetPool pool) obtained []

structure Ledger (pool : SgxPool) (obtained live : List ℕ) : Prop where
  entries : (allocs pool.large).Perm live
  nodup : live.Nodup
  balance : ∀ p, obtained.count p = pool.freed.count p + live.count p

structure SameLarge (pool pool' : SgxPool) : Prop where
  large : pool'.large = pool.large
  freed : pool'.freed = pool.freed

theorem SameLarge.refl (pool : SgxPool) : SameLarge pool pool := ⟨rfl, rfl⟩

theorem SameLarge.trans {pool₁ pool₂ pool₃ : SgxPool} (h : SameLarge pool₁ pool₂)
    (h' : SameLarge pool₂ pool₃) : SameLarge pool₁ pool₃ :=
  ⟨h'.large.trans h.large, h'.freed.trans h.freed⟩

theorem failRound_large (pool : SgxPool) (now : ℕ) : SameLarge pool (failRound pool now) := by
  simp only [failRound]
  split_ifs <;> exact ⟨rfl, rfl⟩

theorem failLoop_large (fuel : ℕ) (pool : SgxPool) (now : ℕ) :
    SameLarge pool (failLoop fuel pool now) := by
  induction fuel generalizing pool now with
  | zero => exact SameLarge.refl pool
  | succ fuel ih =>
    rw [failLoop]
    split_ifs
    · exact (failRound_large pool now).trans (ih _ _)
    · exact SameLarge.refl pool

theorem block_large (pool : SgxPool) (size : ℕ) (mem : Option ℕ) :
    SameLarge pool (sgxPallocBlock pool size mem).2 := by
  cases mem with
  | none => exact SameLarge.refl pool
  | some new =>
    have h := failLoop_large pool.count pool pool.current
    exact ⟨h.large, h.freed⟩

theorem small_large (pool : SgxPool) (size : ℕ) (align : Bool) (mem : Option ℕ) :
    SameLarge pool (sgxPallocSmall pool size align mem).2 := by
  rw [sgxPallocSmall]
  split
  · exact ⟨rfl, rfl⟩
  · exact block_large pool size mem

theorem allocs_cons_some {entry : SgxPoolLarge} {a : ℕ} (h : entry.alloc = some a)
    (rest : List SgxPoolLarge) : allocs (entry :: rest) = a :: allocs rest :=
  List.filterMap_cons_some h

theorem allocs_cons_none {entry : SgxPoolLarge} (h : entry.alloc = none)
    (rest : List SgxPoolLarge) : allocs (entry :: rest) = allocs rest :=
  List.filterMap_cons_none h

theorem allocs_cons_perm (entry : SgxPoolLarge) {rest rest' : List SgxPoolLarge} {now : ℕ}
    (h : (allocs rest').Perm (now :: allocs rest)) :
    (allocs (entry :: rest')).Perm (now :: allocs (entry :: rest)) := by
  rcases halloc : entry.alloc with _ | a
  · rwa [allocs_cons_none halloc, allocs_cons_none halloc]
  · rw [allocs_cons_some halloc, allocs_cons_some halloc]
    exact (h.cons a).trans (List.Perm.swap now a _)

theorem reuseLoop_allocs {now cnt : ℕ} {large large' : List SgxPoolLarge}
    (h : reuseLoop now cnt large = some large') : (allocs large').Perm (now :: allocs large) := by
  induction large generalizing cnt large' with
  | nil => cases h
  | cons entry rest ih =>
    rw [reuseLoop] at h
    split_ifs at h with hnone hmany
    · obtain rfl := Option.some.inj h
      rw [allocs_cons_none hnone]
      exact List.Perm.refl _
    · obtain ⟨rest', hrest, rfl⟩ := Option.map_eq_some_iff.mp h
      exact allocs_cons_perm entry (ih hrest)

theorem freeLoop_some {p : ℕ} {large large' : List SgxPoolLarge}
    (h : freeLoop (some p) large = some large') : (allocs large).Perm (p :: allocs large') := by
  induction large generalizing large' with
  | nil => cases h
  | cons entry rest ih =>
    rw [freeLoop] at h
    split_ifs at h with heq
    · obtain rfl := Option.some.inj h
      rw [allocs_cons_some heq.symm, allocs_cons_none rfl]
    · obtain ⟨rest', hrest, rfl⟩ := Option.map_eq_some_iff.mp h
      exact allocs_cons_perm entry (ih hrest)

theorem freeLoop_none {p : ℕ} {large : List SgxPoolLarge} (h : freeLoop (some p) large = none) :
    p ∉ allocs large := by
  induction large with
  | nil => exact List.not_mem_nil
  | cons entry rest ih =>
    rw [freeLoop] at h
    split_ifs at h with heq
    have hrest := ih (Option.map_eq_none_iff.mp h)
    rcases halloc : entry.alloc with _ | a
    · rwa [allocs_cons_none halloc]
    · rw [allocs_cons_some halloc, List.mem_cons, not_or]
      refine ⟨fun hpa => heq ?_, hrest⟩
      rw [halloc, hpa]

def Obtains (pool : SgxPool) (alloc : Option ℕ) : Option ℕ × SgxPool → Prop
  | (none, pool') => pool'.large = pool.large ∧ pool'.freed = alloc.toList ++ pool.freed
  | (some p, pool') => alloc = some p ∧ (allocs pool'.large).Perm (p :: allocs pool.large) ∧
      pool'.freed = pool.freed

theorem newEntry_obtains (pool : SgxPool) (now : ℕ) (mem : Option ℕ) :
    Obtains pool (some now) (match sgxPallocSmall pool sizeofPoolLarge true mem with
      | (none, pool) => (none, { pool with freed := now :: pool.freed })
      | (some large, pool) =>
        (some now, { pool with large := { addr := large, alloc := some now } :: pool.large })) := by
  have hsame := small_large pool sizeofPoolLarge true mem
  rcases hsmall : sgxPallocSmall pool sizeofPoolLarge true mem with ⟨_ | large, pool'⟩
  · rw [hsmall] at hsame
    exact ⟨hsame.large, congrArg (now :: ·) hsame.freed⟩
  · rw [hsmall] at hsame
    refine ⟨rfl, ?_, hsame.freed⟩
    dsimp only
    rw [allocs_cons_some rfl, hsame.large]

theorem pallocLarge_obtains (pool : SgxPool) (alloc mem : Option ℕ) :
    Obtains pool alloc (sgxPallocLarge pool alloc mem) := by
  cases alloc with
  | none => exact ⟨rfl, rfl⟩
  | some now =>
    rw [sgxPallocLarge]
    rcases hreuse : reuseLoop now 0 pool.large with _ | large
    · exact newEntry_obtains pool now mem
    · exact ⟨rfl, reuseLoop_allocs hreuse, rfl⟩

theorem pmemalign_obtains (pool : SgxPool) (alloc mem : Option ℕ) :
    Obtains pool alloc (sgxPmemalign pool alloc mem) := by
  cases alloc with
  | none => exact ⟨rfl, rfl⟩
  | some now => exact newEntry_obtains pool now mem

theorem Ledger.obtain {pool pool' : SgxPool} {obtained live : List ℕ} (h : Ledger pool obtained live)
    {alloc r : Option ℕ} (hnew : NewBlock live alloc) (hcall : Obtains pool alloc (r, pool')) :
    Ledger pool' (alloc.toList ++ obtained) (r.toList ++ live) := by
  cases r with
  | none =>
    obtain ⟨hlarge, hfreed⟩ := hcall
    refine ⟨?_, h.nodup, fun p => ?_⟩
    · rw [hlarge]
      exact h.entries
    · have hbalance := h.balance p
      rw [hfreed, List.count_append, List.count_append]
      simp only [Option.toList_none, List.nil_append]
      omega
  | some now =>
    obtain ⟨rfl, hperm, hfreed⟩ := hcall
    refine ⟨?_, ?_, fun p => ?_⟩
    · exact hperm.trans (h.entries.cons now)
    · exact List.nodup_cons.mpr ⟨hnew now rfl, h.nodup⟩
    · have hbalance := h.balance p
      rw [hfreed]
      simp only [Option.toList_some, List.singleton_append, List.count_cons]
      omega

theorem pfree_of_mem {pool : SgxPool} {p : ℕ} (h : p ∈ allocs pool.large) :
    ∃ large, sgxPfree pool (some p) =
        (sgxOk, { pool with large := large, freed := p :: pool.freed }) ∧
      (allocs pool.large).Perm (p :: allocs large) := by
  rcases hfree : freeLoop (some p) pool.large with _ | large
  · exact absurd h (freeLoop_none hfree)
  · refine ⟨large, ?_, freeLoop_some hfree⟩
    rw [sgxPfree, hfree]
    rfl

theorem pfree_of_notMem {pool : SgxPool} {p : ℕ} (h : p ∉ allocs pool.large) :
    sgxPfree pool (some p) = (sgxDeclined, pool) := by
  rcases hfree : freeLoop (some p) pool.large with _ | large
  · rw [sgxPfree, hfree]
  · have hmem : p ∈ allocs pool.large := (freeLoop_some hfree).mem_iff.mpr List.mem_cons_self
    exact absurd hmem h

theorem Ledger.free {pool : SgxPool} {obtained live : List ℕ} (h : Ledger pool obtained live) {p : ℕ}
    {code : ℤ} {pool' : SgxPool} (hcall : sgxPfree pool (some p) = (code, pool')) :
    Ledger pool' obtained (if code = sgxOk then live.erase p else live) := by
  by_cases hmem : p ∈ allocs pool.large
  · obtain ⟨large, hpfree, hperm⟩ := pfree_of_mem hmem
    obtain ⟨rfl, rfl⟩ := Prod.mk.inj (hcall.symm.trans hpfree)
    have hlive := h.entries.mem_iff.mp hmem
    rw [if_pos rfl]
    refine ⟨?_, h.nodup.erase p, fun q => ?_⟩
    · apply List.Perm.cons_inv (a := p)
      exact hperm.symm.trans (h.entries.trans (List.perm_cons_erase hlive))
    · have hbalance := h.balance q
      have hcount := (List.perm_cons_erase hlive).count_eq q
      rw [List.count_cons] at hcount
      dsimp only
      rw [List.count_cons]
      omega
  · obtain ⟨rfl, rfl⟩ := Prod.mk.inj (hcall.symm.trans (pfree_of_notMem hmem))
    rw [if_neg (by decide)]
    exact h

theorem Ledger.reset {pool : SgxPool} {obtained live : List ℕ} (h : Ledger pool obtained live) :
    Ledger (sgxResetPool pool) obtained [] := by
  refine ⟨List.Perm.refl _, List.nodup_nil, fun p => ?_⟩
  have hbalance := h.balance p
  have hcount := h.entries.count_eq p
  have hfreed : (sgxResetPool pool).freed = (allocs pool.large).reverse ++ pool.freed := rfl
  rw [hfreed, List.count_append, List.count_reverse, List.count_nil]
  omega

theorem LargeRun.ledger {sgxPagesize : ℕ} {pool : SgxPool} {obtained live : List ℕ}
    (h : LargeRun sgxPagesize pool obtained live) : Ledger pool obtained live := by
  induction h with
  | create hpool =>
    obtain ⟨addr, -, rfl⟩ := Option.map_eq_some_iff.mp hpool
    exact ⟨List.Perm.refl _, List.nodup_nil, fun _ => rfl⟩
  | @pallocLarge pool _ _ alloc mem _ _ _ hnew hcall ih =>
    have hobtains := pallocLarge_obtains pool alloc mem
    rw [hcall] at hobtains
    exact ih.obtain hnew hobtains
  | @pmemalign pool _ _ alloc mem _ _ _ hnew hcall ih =>
    have hobtains := pmemalign_obtains pool alloc mem
    rw [hcall] at hobtains
    exact ih.obtain hnew hobtains
  | pfree _ hcall ih => exact ih.free hcall
  | reset _ ih => exact ih.reset

def ReturnsBlock (pool : SgxPool) (alloc : Option ℕ) (answer : Option ℕ × SgxPool) : Prop :=
  answer.1 = none →
    answer.2.large = pool.large ∧ answer.2.freed = alloc.toList ++ pool.freed

theorem Obtains.returnsBlock {pool : SgxPool} {alloc : Option ℕ} {answer : Option ℕ × SgxPool}
    (h : Obtains pool alloc answer) : ReturnsBlock pool alloc answer := by
  obtain ⟨r, pool'⟩ := answer
  rintro rfl
  exact h

theorem large_ledger {sgxPagesize : ℕ} {pool : SgxPool} {obtained live : List ℕ}
    (h : LargeRun sgxPagesize pool obtained live) :
    (allocs pool.large).Nodup ∧ (∀ p, p ∈ allocs pool.large ↔ p ∈ live) ∧
      (∀ p, obtained.count p = pool.freed.count p + live.count p) ∧
      (∀ p, (sgxPfree pool (some p)).1 = sgxOk ↔ p ∈ live) ∧
      (∀ p, p ∉ live → sgxPfree pool (some p) = (sgxDeclined, pool)) ∧
      ∀ alloc mem, ReturnsBlock pool alloc (sgxPallocLarge pool alloc mem) ∧
        ReturnsBlock pool alloc (sgxPmemalign pool alloc mem) := by
  have hledger := h.ledger
  have hmem (p : ℕ) : p ∈ allocs pool.large ↔ p ∈ live := hledger.entries.mem_iff
  refine ⟨hledger.entries.nodup_iff.mpr hledger.nodup, hmem, hledger.balance, fun p => ?_,
    fun p hp => ?_, fun alloc mem => ⟨?_, ?_⟩⟩
  · rw [← hmem p]
    constructor
    · intro hok
      by_contra hnot
      rw [pfree_of_notMem hnot] at hok
      exact absurd hok (show sgxDeclined ≠ sgxOk by decide)
    · intro hin
      obtain ⟨large, hpfree, -⟩ := pfree_of_mem hin
      rw [hpfree]
  · exact pfree_of_notMem (fun hin => hp ((hmem p).mp hin))
  · exact (pallocLarge_obtains pool alloc mem).returnsBlock
  · exact (pmemalign_obtains pool alloc mem).returnsBlock

theorem large_ledger_two_blocks : ∃ pool obtained, LargeRun 4096 pool obtained [9000] ∧
    (∀ p, (sgxPfree pool (some p)).1 = sgxOk ↔ p ∈ [9000]) := by
  have hcreate := LargeRun.create (Eq.refl (sgxCreatePool 256 4096 (some 4096)))
  have hnew : NewBlock [] (some 8000) := fun _ _ => List.not_mem_nil
  have hfirst := hcreate.pallocLarge hnew (Eq.refl (sgxPallocLarge _ (some 8000) none))
  have hnew' : NewBlock [8000] (some 9000) := by
    rintro _ ⟨⟩
    decide
  have hsecond := hfirst.pmemalign hnew' (Eq.refl (sgxPmemalign _ (some 9000) none))
  have hrun := hsecond.pfree (p := 8000) rfl
  exact ⟨_, _, hrun, (large_ledger hrun).2.2.2.1⟩

end Sginx.Pool
