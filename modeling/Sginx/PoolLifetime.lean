import Sginx.PoolLayout

namespace Sginx.Pool

open Sginx.Library.Regions

inductive PoolOp where
  | palloc (size : ℕ)
  | pnalloc (size : ℕ)
  | pmemalign
  | pfree (p : ℕ)
  | reset

/-- The pool behind the call. For `sgx_pmemalign` both answers are those of `sgx_memalign`. -/
def PoolOp.apply (pool : SgxPool) (answer : PallocAnswer) : PoolOp → SgxPool
  | .palloc size => (sgxPalloc pool size answer.alloc answer.mem).2
  | .pnalloc size => (sgxPnalloc pool size answer.alloc answer.mem).2
  | .pmemalign => (sgxPmemalign pool answer.alloc answer.mem).2
  | .pfree p => (sgxPfree pool (some p)).2
  | .reset => sgxResetPool pool

def PoolOp.asks (pool : SgxPool) : PoolOp → Bool
  | .palloc size => pool.maxSize < size
  | .pnalloc size => pool.maxSize < size
  | .pmemalign => true
  | .pfree _ => false
  | .reset => false

def chain (pool : SgxPool) : List ℕ := (List.range pool.count).map pool.addr

def held (pool : SgxPool) : List ℕ := chain pool ++ allocs pool.large

def grown (pool pool' : SgxPool) (mem : Option ℕ) : List ℕ :=
  if pool.count < pool'.count then mem.toList else []

def PoolOp.obtains (pool : SgxPool) (answer : PallocAnswer) (op : PoolOp) : List ℕ :=
  (if op.asks pool then answer.alloc.toList else []) ++
    grown pool (op.apply pool answer) answer.mem

def EntryFits (pool : SgxPool) (answer : PallocAnswer) : Prop :=
  OwnRoom pool sizeofPoolLarge ∨ NoRoom pool sizeofPoolLarge answer.mem

def PoolOp.Fits (pool : SgxPool) (answer : PallocAnswer) : PoolOp → Prop
  | .palloc size =>
    if size ≤ pool.maxSize then StaysInBlock pool size true else EntryFits pool answer
  | .pnalloc size =>
    if size ≤ pool.maxSize then StaysInBlock pool size false else EntryFits pool answer
  | .pmemalign => EntryFits pool answer
  | .pfree _ => True
  | .reset => True

def entryLive (pool : SgxPool) (answer : PallocAnswer) (live : List (Span ℕ)) : List (Span ℕ) :=
  if answer.alloc.isSome then
    handOut live sizeofPoolLarge (sgxPallocSmall pool sizeofPoolLarge true answer.mem).1
  else live

def largeLive (pool : SgxPool) (answer : PallocAnswer) (live : List (Span ℕ)) : List (Span ℕ) :=
  if (answer.alloc.bind fun now => reuseLoop now 0 pool.large).isSome then live
  else entryLive pool answer live

def PoolOp.live (pool : SgxPool) (answer : PallocAnswer) (live : List (Span ℕ)) :
    PoolOp → List (Span ℕ)
  | .palloc size =>
    if size ≤ pool.maxSize then handOut live size (sgxPallocSmall pool size true answer.mem).1
    else largeLive pool answer live
  | .pnalloc size =>
    if size ≤ pool.maxSize then handOut live size (sgxPallocSmall pool size false answer.mem).1
    else largeLive pool answer live
  | .pmemalign => entryLive pool answer live
  | .pfree _ => live
  | .reset => []

/-- What `sgx_alloc` and `sgx_memalign` give is not held, but may have been held before. A region in
a new block begins at its counter, so that a user may write to it. -/
inductive Lifetime (sgxPagesize : ℕ) : SgxPool → List ℕ → List (Span ℕ) → Prop where
  | create {size new pool} : sizeofPool < size →
      sgxCreatePool size sgxPagesize (some new) = some pool → Lifetime sgxPagesize pool [new] []
  | call {pool obtained live} (op : PoolOp) (answer : PallocAnswer) :
      Lifetime sgxPagesize pool obtained live → op.Fits pool answer → Fresh pool answer.mem →
      (op.obtains pool answer ++ held pool).Nodup →
      Lifetime sgxPagesize (op.apply pool answer) (op.obtains pool answer ++ obtained)
        (op.live pool answer live)
  | counters {pool obtained live} (failed : ℕ → ℕ) : Lifetime sgxPagesize pool obtained live →
      Lifetime sgxPagesize
        { pool with block := fun now => { pool.block now with failed := failed now } } obtained live

structure Books (pool : SgxPool) (obtained : List ℕ) : Prop where
  nonempty : 0 < pool.count
  nodup : (held pool).Nodup
  balance : obtained.Perm (pool.freed ++ held pool)

structure Moves (pool pool' : SgxPool) (new : List ℕ) : Prop where
  count : pool.count ≤ pool'.count
  moved : ∃ out, pool'.freed = out ++ pool.freed ∧ (new ++ held pool).Perm (out ++ held pool')

theorem Books.move {pool pool' : SgxPool} {obtained new : List ℕ} (h : Books pool obtained)
    (hnew : (new ++ held pool).Nodup) (hmoves : Moves pool pool' new) :
    Books pool' (new ++ obtained) := by
  obtain ⟨out, hfreed, hperm⟩ := hmoves.moved
  refine ⟨h.nonempty.trans_le hmoves.count, ?_, ?_⟩
  · exact (List.nodup_append.mp (hperm.nodup_iff.mp hnew)).2.1
  · rw [hfreed, List.append_assoc]
    calc
      List.Perm (new ++ obtained) (new ++ (pool.freed ++ held pool)) := h.balance.append_left new
      List.Perm _ (pool.freed ++ (new ++ held pool)) := List.perm_append_comm_assoc _ _ _
      List.Perm _ (pool.freed ++ (out ++ held pool')) := hperm.append_left pool.freed
      List.Perm _ (out ++ (pool.freed ++ held pool')) := List.perm_append_comm_assoc _ _ _

theorem chain_congr {pool pool' : SgxPool} (hcount : pool'.count = pool.count)
    (haddr : ∀ now, pool'.addr now = pool.addr now) : chain pool' = chain pool := by
  rw [chain, chain, hcount]
  exact List.map_congr_left fun now _ => haddr now

theorem grown_of_count {pool pool' : SgxPool} (h : pool'.count = pool.count) (mem : Option ℕ) :
    grown pool pool' mem = [] := by
  rw [grown, h, if_neg (lt_irrefl _)]

structure Extends (pool pool' : SgxPool) (mem : Option ℕ) : Prop where
  count : pool.count ≤ pool'.count
  chain : chain pool' = chain pool ++ grown pool pool' mem

theorem extends_of_same {pool pool' : SgxPool} (hcount : pool'.count = pool.count)
    (haddr : ∀ now, pool'.addr now = pool.addr now) (mem : Option ℕ) : Extends pool pool' mem := by
  refine ⟨hcount.ge, ?_⟩
  rw [grown_of_count hcount, List.append_nil, chain_congr hcount haddr]

theorem block_extends (pool : SgxPool) (size : ℕ) (mem : Option ℕ) :
    Extends pool (sgxPallocBlock pool size mem).2 mem := by
  cases mem with
  | none => exact extends_of_same rfl (fun _ => rfl) none
  | some new =>
    have hsame := failLoop_same pool.count pool pool.current
    have hcount : (sgxPallocBlock pool size (some new)).2.count = pool.count + 1 :=
      congrArg (· + 1) hsame.count
    refine ⟨by omega, ?_⟩
    rw [grown, hcount, if_pos (Nat.lt_succ_self _), chain, hcount, List.range_succ, List.map_append,
      chain]
    congr 1
    · apply List.map_congr_left
      intro now hnow
      rw [List.mem_range] at hnow
      have hne : now ≠ (failLoop pool.count pool pool.current).count := by
        rw [hsame.count]
        omega
      rw [← hsame.addr now]
      simp only [SgxPool.addr, sgxPallocBlock, SgxPool.setBlock, Function.update_of_ne hne]
    · rw [← hsame.count]
      simp only [List.map_cons, List.map_nil, SgxPool.addr, sgxPallocBlock, SgxPool.setBlock,
        Function.update_self, Option.toList_some]

theorem small_extends (pool : SgxPool) (size : ℕ) (align : Bool) (mem : Option ℕ) :
    Extends pool (sgxPallocSmall pool size align mem).2 mem := by
  rw [sgxPallocSmall]
  split
  · apply extends_of_same
    · rfl
    · exact setBlock_addr rfl
  · exact block_extends pool size mem

theorem Extends.relink {pool pool' : SgxPool} {mem : Option ℕ} (h : Extends pool pool' mem)
    (large : List SgxPoolLarge) (freed : List ℕ) :
    Extends pool { pool' with large := large, freed := freed } mem := ⟨h.count, h.chain⟩

theorem newEntry_extends (pool : SgxPool) (now : ℕ) (mem : Option ℕ) :
    Extends pool (match sgxPallocSmall pool sizeofPoolLarge true mem with
      | (none, pool) => ((none : Option ℕ), { pool with freed := now :: pool.freed })
      | (some large, pool) =>
        (some now, { pool with large := { addr := large, alloc := some now } :: pool.large })).2
      mem := by
  have hsmall := small_extends pool sizeofPoolLarge true mem
  rcases hnode : sgxPallocSmall pool sizeofPoolLarge true mem with ⟨_ | node, pool'⟩
  · rw [hnode] at hsmall
    exact hsmall.relink _ _
  · rw [hnode] at hsmall
    exact hsmall.relink _ _

theorem pmemalign_extends (pool : SgxPool) (alloc mem : Option ℕ) :
    Extends pool (sgxPmemalign pool alloc mem).2 mem := by
  cases alloc with
  | none => exact extends_of_same rfl (fun _ => rfl) mem
  | some now => exact newEntry_extends pool now mem

theorem large_extends (pool : SgxPool) (alloc mem : Option ℕ) :
    Extends pool (sgxPallocLarge pool alloc mem).2 mem := by
  cases alloc with
  | none => exact extends_of_same rfl (fun _ => rfl) mem
  | some now =>
    rw [sgxPallocLarge]
    cases reuseLoop now 0 pool.large with
    | some large => exact (extends_of_same rfl (fun _ => rfl) mem).relink large pool.freed
    | none => exact newEntry_extends pool now mem

theorem SameLarge.moves {pool pool' : SgxPool} {mem : Option ℕ} (h : SameLarge pool pool')
    (hextends : Extends pool pool' mem) : Moves pool pool' ([] ++ grown pool pool' mem) := by
  refine ⟨hextends.count, [], h.freed, ?_⟩
  rw [held, held, h.large, hextends.chain, List.nil_append, List.nil_append, List.append_assoc]
  exact List.perm_append_comm_assoc _ _ _

theorem Obtains.moves {pool pool' : SgxPool} {alloc mem r : Option ℕ}
    (h : Obtains pool alloc (r, pool')) (hextends : Extends pool pool' mem) :
    Moves pool pool' (alloc.toList ++ grown pool pool' mem) := by
  have hchain :
      List.Perm (grown pool pool' mem ++ held pool) (chain pool' ++ allocs pool.large) := by
    rw [held, hextends.chain, List.append_assoc]
    exact List.perm_append_comm_assoc _ _ _
  refine ⟨hextends.count, ?_⟩
  rw [List.append_assoc]
  cases r with
  | none =>
    obtain ⟨hlarge, hfreed⟩ := h
    refine ⟨alloc.toList, hfreed, ?_⟩
    rw [held, held, hlarge] at *
    exact hchain.append_left _
  | some now =>
    obtain ⟨rfl, hlarge, hfreed⟩ := h
    refine ⟨[], hfreed, ?_⟩
    calc
      List.Perm ([now] ++ (grown pool pool' mem ++ held pool))
        ([now] ++ (chain pool' ++ allocs pool.large)) := hchain.append_left [now]
      List.Perm _ (chain pool' ++ ([now] ++ allocs pool.large)) :=
        List.perm_append_comm_assoc _ _ _
      List.Perm _ (chain pool' ++ allocs pool'.large) := hlarge.symm.append_left _

theorem op_moves (pool : SgxPool) (answer : PallocAnswer) (op : PoolOp) :
    Moves pool (op.apply pool answer) (op.obtains pool answer) := by
  cases op with
  | palloc size =>
    simp only [PoolOp.obtains, PoolOp.asks, PoolOp.apply, sgxPalloc, decide_eq_true_eq]
    by_cases hsmall : size ≤ pool.maxSize
    · rw [if_pos hsmall, if_neg (Nat.not_lt.mpr hsmall)]
      exact (small_large _ _ _ _).moves (small_extends _ _ _ _)
    · rw [if_neg hsmall, if_pos (Nat.lt_of_not_le hsmall)]
      exact (pallocLarge_obtains pool answer.alloc answer.mem).moves (large_extends _ _ _)
  | pnalloc size =>
    simp only [PoolOp.obtains, PoolOp.asks, PoolOp.apply, sgxPnalloc, decide_eq_true_eq]
    by_cases hsmall : size ≤ pool.maxSize
    · rw [if_pos hsmall, if_neg (Nat.not_lt.mpr hsmall)]
      exact (small_large _ _ _ _).moves (small_extends _ _ _ _)
    · rw [if_neg hsmall, if_pos (Nat.lt_of_not_le hsmall)]
      exact (pallocLarge_obtains pool answer.alloc answer.mem).moves (large_extends _ _ _)
  | pmemalign =>
    exact (pmemalign_obtains pool answer.alloc answer.mem).moves (pmemalign_extends _ _ _)
  | pfree p =>
    by_cases hmem : p ∈ allocs pool.large
    · obtain ⟨large, hpfree, hperm⟩ := pfree_of_mem hmem
      have hpool : PoolOp.apply pool answer (.pfree p) =
          { pool with large := large, freed := p :: pool.freed } := congrArg Prod.snd hpfree
      have hcount : (PoolOp.apply pool answer (.pfree p)).count = pool.count := by rw [hpool]
      rw [PoolOp.obtains, grown_of_count hcount, hpool]
      refine ⟨le_refl _, [p], rfl, ?_⟩
      calc
        List.Perm (held pool) (chain pool ++ ([p] ++ allocs large)) := hperm.append_left _
        List.Perm _ ([p] ++ (chain pool ++ allocs large)) := List.perm_append_comm_assoc _ _ _
    · have hpool : PoolOp.apply pool answer (.pfree p) = pool :=
        congrArg Prod.snd (pfree_of_notMem hmem)
      rw [PoolOp.obtains, hpool, grown_of_count rfl]
      exact ⟨le_refl _, [], rfl, List.Perm.refl _⟩
  | reset =>
    have hsame : grown pool (sgxResetPool pool) answer.mem = [] := grown_of_count rfl answer.mem
    refine ⟨le_refl _, (allocs pool.large).reverse, rfl, ?_⟩
    rw [PoolOp.obtains, PoolOp.apply, hsame]
    have hheld : held (sgxResetPool pool) = chain pool := List.append_nil _
    rw [hheld]
    calc
      List.Perm (chain pool ++ allocs pool.large) (allocs pool.large ++ chain pool) :=
        List.perm_append_comm
      List.Perm _ ((allocs pool.large).reverse ++ chain pool) :=
        (List.reverse_perm _).symm.append_right _

section layout

variable {pool : SgxPool} {live : List (Span ℕ)} {answer : PallocAnswer}

theorem reuseLoop_addrs {now cnt : ℕ} {large large' : List SgxPoolLarge}
    (h : reuseLoop now cnt large = some large') : large'.map entrySpan = large.map entrySpan := by
  induction large generalizing cnt large' with
  | nil => cases h
  | cons entry rest ih =>
    rw [reuseLoop] at h
    split_ifs at h
    · obtain rfl := Option.some.inj h
      rfl
    · obtain ⟨rest', hrest, rfl⟩ := Option.map_eq_some_iff.mp h
      rw [List.map_cons, List.map_cons, ih hrest]

theorem freeLoop_addrs {p : Option ℕ} {large large' : List SgxPoolLarge}
    (h : freeLoop p large = some large') : large'.map entrySpan = large.map entrySpan := by
  induction large generalizing large' with
  | nil => cases h
  | cons entry rest ih =>
    rw [freeLoop] at h
    split_ifs at h
    · obtain rfl := Option.some.inj h
      rfl
    · obtain ⟨rest', hrest, rfl⟩ := Option.map_eq_some_iff.mp h
      rw [List.map_cons, List.map_cons, ih hrest]

theorem Laid.newEntry (h : Laid pool live) (hfits : EntryFits pool answer) :
    Laid (sgxPmemalign pool answer.alloc answer.mem).2 (entryLive pool answer live) := by
  rw [entryLive]
  cases answer.alloc with
  | none => exact h
  | some now =>
    rw [sgxPmemalign, Option.isSome_some, if_pos rfl]
    have hentry := h.entry hfits
    have hsame := (small_large pool sizeofPoolLarge true answer.mem).large
    rcases hnode : sgxPallocSmall pool sizeofPoolLarge true answer.mem with ⟨_ | node, pool'⟩
    · rw [hnode] at hentry
      exact hentry.relink hentry.entries _
    · rw [hnode] at hentry hsame
      refine hentry.relink ?_ pool'.freed
      rw [hsame]
      exact h.entries.cons_cons _

theorem Laid.large (h : Laid pool live) (hfits : EntryFits pool answer) :
    Laid (sgxPallocLarge pool answer.alloc answer.mem).2 (largeLive pool answer live) := by
  have hnew := h.newEntry hfits
  rw [largeLive]
  cases halloc : answer.alloc with
  | none =>
    rw [halloc] at hnew
    exact hnew
  | some now =>
    rw [Option.bind_some, sgxPallocLarge]
    cases hreuse : reuseLoop now 0 pool.large with
    | some large =>
      refine h.relink ?_ pool.freed
      rw [reuseLoop_addrs hreuse]
      exact h.entries
    | none =>
      rw [halloc] at hnew
      exact hnew

theorem Laid.op (h : Laid pool live) {op : PoolOp} (hfits : op.Fits pool answer)
    (hfresh : Fresh pool answer.mem) : Laid (op.apply pool answer) (op.live pool answer live) := by
  cases op with
  | palloc size =>
    simp only [PoolOp.Fits, PoolOp.apply, PoolOp.live, sgxPalloc] at hfits ⊢
    split_ifs at hfits ⊢ with hsize
    · exact h.small hfits hsize hfresh
    · exact h.large hfits
  | pnalloc size =>
    simp only [PoolOp.Fits, PoolOp.apply, PoolOp.live, sgxPnalloc] at hfits ⊢
    split_ifs at hfits ⊢ with hsize
    · exact h.small hfits hsize hfresh
    · exact h.large hfits
  | pmemalign => exact h.newEntry hfits
  | pfree p =>
    rw [PoolOp.apply, sgxPfree, PoolOp.live]
    cases hfree : freeLoop (some p) pool.large with
    | none => exact h
    | some large =>
      refine h.relink ?_ _
      rw [freeLoop_addrs hfree]
      exact h.entries
  | reset => exact h.reset

end layout

theorem Lifetime.laid {sgxPagesize : ℕ} {pool : SgxPool} {obtained : List ℕ}
    {live : List (Span ℕ)} (h : Lifetime sgxPagesize pool obtained live) : Laid pool live := by
  induction h with
  | create hsize hpool => exact create_laid hsize hpool
  | call op answer _ hfits hfresh _ ih => exact ih.op hfits hfresh
  | counters failed _ ih => exact ih.counters failed

theorem Lifetime.books {sgxPagesize : ℕ} {pool : SgxPool} {obtained : List ℕ}
    {live : List (Span ℕ)} (h : Lifetime sgxPagesize pool obtained live) : Books pool obtained := by
  induction h with
  | create _ hpool =>
    obtain rfl := Option.some.inj hpool
    exact ⟨Nat.one_pos, List.nodup_singleton _, List.Perm.refl _⟩
  | call op answer _ _ _ hnew ih => exact ih.move hnew (op_moves _ answer op)
  | counters failed _ ih => exact ⟨ih.nonempty, ih.nodup, ih.balance⟩

theorem lifetime_leaks_one_block {sgxPagesize : ℕ} {pool : SgxPool} {obtained : List ℕ}
    {live : List (Span ℕ)} (h : Lifetime sgxPagesize pool obtained live) (debug : Bool)
    (cleanup : List SgxPoolCleanup) :
    ((pool.large.map entrySpan).Sublist live ∧ live.Pairwise Span.Apart ∧
      ∀ r ∈ live, (∃ now < pool.count, r.Within (pool.span now)) ∧
        ∀ now < pool.count, r.Apart (linkSpan pool now)) ∧
    obtained.Perm (pool.addr (pool.count - 1) ::
      (freedBy (sgxDestroyPool debug pool cleanup) ++ pool.freed)) := by
  have hlaid := h.laid
  have hbooks := h.books
  obtain ⟨n, hn⟩ := Nat.exists_eq_add_one.mpr hbooks.nonempty
  have hchain : chain pool = (List.range n).map pool.addr ++ [pool.addr n] := by
    rw [chain, hn, List.range_succ, List.map_append, List.map_singleton]
  refine ⟨⟨hlaid.entries, hlaid.inv.sound.apart, fun r hr => ⟨?_, ?_⟩⟩, ?_⟩
  · obtain ⟨b, ⟨now, hnow, rfl⟩, hwithin⟩ := hlaid.inv.sound.inside r hr
    exact ⟨now, hnow, hwithin⟩
  · intro now hnow
    exact hlaid.behind now hnow r hr
  · rw [freedBy_destroy, hn, Nat.add_sub_cancel]
    apply hbooks.balance.trans
    rw [held, hchain]
    calc
      List.Perm _ ((List.range n).map pool.addr ++ [pool.addr n] ++ allocs pool.large ++
        pool.freed) := List.perm_append_comm
      List.Perm _ ([pool.addr n] ++ (List.range n).map pool.addr ++ allocs pool.large ++
        pool.freed) := (List.perm_append_comm.append_right _).append_right _
      List.Perm _ _ := by
        rw [List.append_assoc [_]]
        exact (List.perm_append_comm.append_left [pool.addr n]).append_right pool.freed

theorem lifetime_leaks_one_block_of_two : ∃ pool, ∃ live : List (Span ℕ),
    Lifetime 4096 pool [12288, 8000, 4096] live ∧ pool.addr (pool.count - 1) = 12288 ∧
    live = [⟨12320, 12420⟩, ⟨4192, 4292⟩, ⟨4176, 4192⟩] ∧ live.Pairwise Span.Apart ∧
    [12288, 8000, 4096].Perm (12288 :: (freedBy (sgxDestroyPool true pool []) ++ pool.freed)) := by
  have hcreate := Lifetime.create (by decide) (Eq.refl (sgxCreatePool 256 4096 (some 4096)))
  have hlarge := hcreate.call (.palloc 5000) ⟨some 8000, none⟩ (.inl ⟨rfl, by decide⟩)
    (fresh_none _) (by decide)
  have hsmall := hlarge.call (.pnalloc 100) ⟨none, none⟩ (.inl ⟨rfl, by decide⟩) (fresh_none _)
    (by decide)
  have hblock := hsmall.call (.palloc 100) ⟨none, some 12288⟩ (.inr ?_)
    (fresh_of_one rfl (.inr (by decide))) (by decide)
  swap
  · intro now _ hnow
    rw [Nat.lt_one_iff.mp hnow]
    decide
  have hfreed := hblock.call (.pfree 8000) ⟨none, none⟩ trivial (fresh_none _) (by decide)
  obtain ⟨⟨-, happart, -⟩, hperm⟩ := lifetime_leaks_one_block hfreed true []
  exact ⟨_, _, hfreed, rfl, rfl, happart, hperm⟩

end Sginx.Pool
