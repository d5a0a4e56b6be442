import Mathlib.Data.Set.Pairwise.Basic
import Mathlib.Data.List.Pairwise
import Mathlib.Order.Basic

namespace Sginx.Library.Regions

structure Span (α : Type*) where
  start : α
  stop : α
deriving DecidableEq, Repr

variable {α : Type*} [Preorder α]

def Span.Within (r b : Span α) : Prop := b.start ≤ r.start ∧ r.stop ≤ b.stop

def Span.Apart (r s : Span α) : Prop := r.stop ≤ s.start ∨ s.stop ≤ r.start

theorem Span.Within.trans {r b c : Span α} (h : r.Within b) (h' : b.Within c) : r.Within c :=
  ⟨h'.1.trans h.1, h.2.trans h'.2⟩

theorem Span.Apart.symm {r s : Span α} (h : r.Apart s) : s.Apart r := Or.symm h

theorem Span.Apart.within {r s b c : Span α} (h : b.Apart c) (hr : r.Within b) (hs : s.Within c) :
    r.Apart s := by
  rcases h with h | h
  · exact .inl (hr.2.trans (h.trans hs.1))
  · exact .inr (hs.2.trans (h.trans hr.1))

theorem apart_succ {n : ℕ} {span : ℕ → Span α}
    (hold : ∀ i < n, ∀ j < n, i ≠ j → (span i).Apart (span j))
    (hnew : ∀ i < n, (span n).Apart (span i)) :
    ∀ i < n + 1, ∀ j < n + 1, i ≠ j → (span i).Apart (span j) := by
  intro i hi j hj hne
  rcases Nat.lt_succ_iff_lt_or_eq.mp hi with hi | rfl <;>
    rcases Nat.lt_succ_iff_lt_or_eq.mp hj with hj | rfl
  · exact hold i hi j hj hne
  · exact (hnew i hi).symm
  · exact hnew j hj
  · exact absurd rfl hne

structure Arena (α : Type*) where
  owned : Set (Span α)
  live : List (Span α)

namespace Arena

structure Sound (a : Arena α) : Prop where
  blocks : a.owned.Pairwise Span.Apart
  inside : ∀ r ∈ a.live, ∃ b ∈ a.owned, r.Within b
  apart : a.live.Pairwise Span.Apart

def carve (a : Arena α) (r : Span α) : Arena α := { a with live := r :: a.live }

def grow (a : Arena α) (b : Span α) : Arena α := { a with owned := insert b a.owned }

def clear (a : Arena α) : Arena α := { a with live := [] }

def Below (a : Arena α) (b : Span α) (cursor : α) : Prop :=
  ∀ r ∈ a.live, r.Within b → r.stop ≤ cursor

theorem Sound.clear {a : Arena α} (h : a.Sound) : a.clear.Sound :=
  ⟨h.blocks, fun _ hr => absurd hr List.not_mem_nil, List.Pairwise.nil⟩

theorem below_clear (a : Arena α) (b : Span α) (cursor : α) : a.clear.Below b cursor :=
  fun _ hr => absurd hr List.not_mem_nil

theorem Sound.carve {a : Arena α} (h : a.Sound) {b r : Span α} (hb : b ∈ a.owned)
    (hr : r.Within b) (happ : ∀ s ∈ a.live, r.Apart s) : (a.carve r).Sound := by
  refine ⟨h.blocks, ?_, List.pairwise_cons.mpr ⟨happ, h.apart⟩⟩
  intro s hs
  rcases List.mem_cons.mp hs with rfl | hs
  · exact ⟨b, hb, hr⟩
  · exact h.inside s hs

theorem Sound.carve_above {a : Arena α} (h : a.Sound) {b r : Span α} {cursor : α} (hb : b ∈ a.owned)
    (hbelow : a.Below b cursor) (hr : r.Within b) (hcursor : cursor ≤ r.start) :
    (a.carve r).Sound := by
  apply h.carve hb hr
  intro s hs
  obtain ⟨c, hc, hsc⟩ := h.inside s hs
  by_cases hbc : b = c
  · subst hbc
    exact .inr ((hbelow s hs hsc).trans hcursor)
  · exact (h.blocks hb hc hbc).within hr hsc

theorem Sound.grow {a : Arena α} (h : a.Sound) {b : Span α} (hfresh : ∀ c ∈ a.owned, b.Apart c) :
    (a.grow b).Sound := by
  refine ⟨?_, ?_, h.apart⟩
  · apply h.blocks.insert
    intro c hc _
    exact ⟨hfresh c hc, (hfresh c hc).symm⟩
  · intro r hr
    obtain ⟨c, hc, hrc⟩ := h.inside r hr
    exact ⟨c, Set.mem_insert_of_mem b hc, hrc⟩

theorem Sound.grow_carve {a : Arena α} (h : a.Sound) {b r : Span α}
    (hfresh : ∀ c ∈ a.owned, b.Apart c) (hr : r.Within b) : ((a.grow b).carve r).Sound := by
  apply (h.grow hfresh).carve (Set.mem_insert b a.owned) hr
  intro s hs
  obtain ⟨c, hc, hsc⟩ := h.inside s hs
  exact (hfresh c hc).within hr hsc

theorem Below.carve {a : Arena α} {b r : Span α} {cursor : α} (h : a.Below b cursor)
    (hle : cursor ≤ r.stop) : (a.carve r).Below b r.stop := by
  intro s hs hsb
  rcases List.mem_cons.mp hs with rfl | hs
  · exact le_refl _
  · exact (h s hs hsb).trans hle

theorem Below.carve_outside {a : Arena α} {b r : Span α} {cursor : α} (h : a.Below b cursor)
    (hr : ¬ r.Within b) : (a.carve r).Below b cursor := by
  intro s hs hsb
  rcases List.mem_cons.mp hs with rfl | hs
  · exact absurd hsb hr
  · exact h s hs hsb

end Arena

end Sginx.Library.Regions
