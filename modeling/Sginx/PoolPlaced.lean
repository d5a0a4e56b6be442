import Sginx.PoolCleanup

namespace Sginx.Pool

open Sginx.Library.Regions

structure FreshAnswer (pool : SgxPool) (regions : List (Span ℕ)) (size : ℕ)
    (answer : PallocAnswer) : Prop where
  pos : ∀ now, answer.alloc = some now → 0 < now
  blocks : ∀ now, answer.alloc = some now → ∀ i < pool.count,
    Span.Apart ⟨now, now + size⟩ (pool.span i)
  apart : ∀ now, answer.alloc = some now → ∀ r ∈ regions, Span.Apart ⟨now, now + size⟩ r
  mem : Fresh pool answer.mem
  memApart : ∀ new, answer.mem = some new → ∀ r ∈ regions,
    Span.Apart ⟨new, new + (pool.block 0).bytes⟩ r

structure PallocCall where
  pool : SgxPool
  size : ℕ
  answer : PallocAnswer

def OwnRoom (pool : SgxPool) (size : ℕ) : Prop :=
  pool.current = 0 ∧ smallBegin pool true + size ≤ (pool.block 0).dataEnd

def NoRoom (pool : SgxPool) (size : ℕ) (mem : Option ℕ) : Prop :=
  mem = none ∧ ∀ now, pool.current ≤ now → now < pool.count → smallFits pool size true now = false

def PallocCall.InOwnBlock (call : PallocCall) : Prop :=
  if call.size ≤ call.pool.maxSize then
    OwnRoom call.pool call.size ∨ NoRoom call.pool call.size call.answer.mem
  else call.answer.alloc = none ∨ OwnRoom call.pool sizeofPoolLarge ∨
    NoRoom call.pool sizeofPoolLarge call.answer.mem

structure Placed (pool : SgxPool) (live regions : List (Span ℕ)) : Prop where
  inv : PoolInv pool live
  one : pool.count = 1
  pos : 0 < (pool.block 0).dataBegin
  regions : ∀ r ∈ regions, r ∈ live ∨ r.Apart (pool.span 0)

section Palloc

variable {pool pool' : SgxPool} {live regions : List (Span ℕ)} {size : ℕ} {r : Option ℕ}

theorem Placed.relink (h : Placed pool live regions) (large : List SgxPoolLarge) (freed : List ℕ) :
    Placed { pool with large := large, freed := freed } live regions :=
  ⟨⟨h.inv.sound, h.inv.below, h.inv.current_lt, h.inv.end_eq, h.inv.begin_ge, h.inv.room⟩, h.one,
    h.pos, h.regions⟩

theorem Placed.apart_of_within (h : Placed pool live regions) {q : Span ℕ}
    (hwithin : q.Within (pool.span 0)) (hlive : ∀ r ∈ live, q.Apart r) :
    ∀ r ∈ regions, q.Apart r := by
  intro r hr
  rcases h.regions r hr with hin | happart
  · exact hlive r hin
  · exact happart.symm.within hwithin ⟨le_refl _, le_refl _⟩

theorem Placed.small (h : Placed pool live regions) {mem : Option ℕ}
    (hin : OwnRoom pool size ∨ NoRoom pool size mem)
    (hcall : sgxPallocSmall pool size true mem = (r, pool')) :
    (∃ live', Placed pool' live' (handOut regions size r)) ∧
      pool'.span 0 = pool.span 0 ∧
      ∀ start, r = some start → 0 < start ∧ ∀ q ∈ regions, Span.Apart ⟨start, start + size⟩ q := by
  rcases hin with ⟨hcurrent, hend⟩ | ⟨rfl, hfits⟩
  · rw [small_own (Nat.zero_lt_of_lt h.inv.current_lt) hcurrent hend mem] at hcall
    cases hcall
    have hbegin := le_smallBegin pool true
    have hwithin : Span.Within ⟨smallBegin pool true, smallBegin pool true + size⟩
        (pool.span 0) := by
      have hge := h.inv.begin_ge
      rw [h.inv.end_eq] at hend
      exact ⟨hge.trans hbegin, hend⟩
    have hinv := own_block_inv h.inv hend
    have hlive := (List.pairwise_cons.mp hinv.sound.apart).1
    have hspan := span_setBegin pool (smallBegin pool true + size) 0
    refine ⟨⟨_, hinv, h.one, ?_, ?_⟩, hspan, ?_⟩
    · simp only [SgxPool.setBlock, Function.update_self]
      exact Nat.lt_add_right size (h.pos.trans_le hbegin)
    · rw [hspan]
      intro q hq
      rcases List.mem_cons.mp hq with rfl | hq
      · exact .inl List.mem_cons_self
      rcases h.regions q hq with hin | happart
      · exact .inl (List.mem_cons_of_mem _ hin)
      · exact .inr happart
    · rintro start ⟨⟩
      exact ⟨h.pos.trans_le hbegin, h.apart_of_within hwithin hlive⟩
  · have hnone : sgxPallocSmall pool size true none = (none, pool) := by
      rw [sgxPallocSmall, smallLoop_none pool.count pool.current h.inv.current_lt hfits]
      rfl
    rw [hnone] at hcall
    cases hcall
    refine ⟨⟨live, h⟩, rfl, ?_⟩
    intro start hstart
    cases hstart

theorem Placed.outside (h : Placed pool live regions) {q : Span ℕ} (hq : q.Apart (pool.span 0)) :
    Placed pool live (q :: regions) := by
  refine ⟨h.inv, h.one, h.pos, fun r hr => ?_⟩
  rcases List.mem_cons.mp hr with rfl | hr
  · exact .inr hq
  · exact h.regions r hr

theorem Placed.subset (h : Placed pool live regions) {regions' : List (Span ℕ)}
    (hsub : regions' ⊆ regions) : Placed pool live regions' :=
  ⟨h.inv, h.one, h.pos, fun r hr => h.regions r (hsub hr)⟩

theorem Placed.large (h : Placed pool live regions) {answer : PallocAnswer}
    (hfresh : FreshAnswer pool regions size answer)
    (hin : answer.alloc = none ∨ OwnRoom pool sizeofPoolLarge ∨
      NoRoom pool sizeofPoolLarge answer.mem)
    (hcall : sgxPallocLarge pool answer.alloc answer.mem = (r, pool')) :
    (∃ live', Placed pool' live' (handOut regions size r)) ∧
      ∀ start, r = some start → 0 < start ∧ ∀ q ∈ regions, Span.Apart ⟨start, start + size⟩ q := by
  cases halloc : answer.alloc with
  | none =>
    rw [halloc] at hcall
    cases hcall
    exact ⟨⟨live, h⟩, nofun⟩
  | some now =>
    have hregion : ∀ start, some now = some start → 0 < start ∧
        ∀ q ∈ regions, Span.Apart ⟨start, start + size⟩ q := by
      rintro start ⟨⟩
      exact ⟨hfresh.pos now halloc, hfresh.apart now halloc⟩
    have houtside : Span.Apart ⟨now, now + size⟩ (pool.span 0) :=
      hfresh.blocks now halloc 0 (by rw [h.one]; exact Nat.one_pos)
    have hsmall := hin.resolve_left (fun heq => Option.some_ne_none now (halloc.symm.trans heq))
    rw [halloc, sgxPallocLarge] at hcall
    cases hreuse : reuseLoop now 0 pool.large with
    | some large =>
      rw [hreuse] at hcall
      cases hcall
      exact ⟨⟨live, (h.relink large pool.freed).outside houtside⟩, hregion⟩
    | none =>
      rw [hreuse] at hcall
      dsimp only at hcall
      rcases hnode : sgxPallocSmall pool sizeofPoolLarge true answer.mem with ⟨node, pool₁⟩
      obtain ⟨⟨live', hplaced⟩, hspan, -⟩ := h.small hsmall hnode
      rw [hnode] at hcall
      cases node with
      | none =>
        cases hcall
        exact ⟨⟨live', hplaced.relink pool₁.large _⟩, nofun⟩
      | some node =>
        cases hcall
        have hkept := hplaced.subset (List.subset_cons_self _ regions)
        rw [← hspan] at houtside
        exact ⟨⟨live', (hkept.relink _ pool₁.freed).outside houtside⟩, hregion⟩

theorem Placed.palloc (h : Placed pool live regions) {answer : PallocAnswer}
    (hfresh : FreshAnswer pool regions size answer)
    (hin : PallocCall.InOwnBlock ⟨pool, size, answer⟩)
    (hcall : sgxPalloc pool size answer.alloc answer.mem = (r, pool')) :
    (∃ live', Placed pool' live' (handOut regions size r)) ∧
      ∀ start, r = some start → 0 < start ∧ ∀ q ∈ regions, Span.Apart ⟨start, start + size⟩ q := by
  rw [sgxPalloc] at hcall
  rw [PallocCall.InOwnBlock] at hin
  dsimp only at hin
  split_ifs at hcall hin with hsize
  · obtain ⟨hplaced, -, hregion⟩ := h.small hin hcall
    exact ⟨hplaced, hregion⟩
  · exact h.large hfresh hin hcall

end Palloc

end Sginx.Pool
