import Mathlib.Data.List.Basic

namespace Sginx.Library.LinkedChain

variable {α : Type*}

def Chain (null : α) (next : α → α) : α → List α → Prop
  | p, [] => p = null
  | p, a :: nodes => p = a ∧ a ≠ null ∧ Chain null next (next a) nodes

section Chain

variable {null p : α} {next next' : α → α} {nodes : List α}

theorem Chain.congr (h : Chain null next p nodes) (hnext : ∀ a ∈ nodes, next' a = next a) :
    Chain null next' p nodes := by
  induction nodes generalizing p with
  | nil => exact h
  | cons a nodes ih =>
    rw [List.forall_mem_cons] at hnext
    obtain ⟨hp, hnull, hrest⟩ := h
    refine ⟨hp, hnull, ?_⟩
    rw [hnext.1]
    exact ih hrest hnext.2

theorem Chain.unique {nodes' : List α} (h : Chain null next p nodes)
    (h' : Chain null next p nodes') : nodes = nodes' := by
  induction nodes generalizing p nodes' with
  | nil =>
    cases nodes' with
    | nil => rfl
    | cons a nodes' => exact absurd (h'.1.symm.trans h) h'.2.1
  | cons a nodes ih =>
    cases nodes' with
    | nil => exact absurd (h.1.symm.trans h') h.2.1
    | cons b nodes' =>
      obtain ⟨rfl, -, hrest⟩ := h
      obtain ⟨rfl, -, hrest'⟩ := h'
      rw [ih hrest hrest']

theorem Chain.push (h : Chain null next p nodes) {a : α} (ha : a ≠ null) (hlink : next' a = p)
    (hnext : ∀ b ∈ nodes, next' b = next b) : Chain null next' a (a :: nodes) := by
  refine ⟨rfl, ha, ?_⟩
  rw [hlink]
  exact h.congr hnext

end Chain

inductive Reaches (null : α) (next : α → α) : α → α → Prop
  | head {p : α} (hp : p ≠ null) : Reaches null next p p
  | link {p a : α} (hp : p ≠ null) (h : Reaches null next (next p) a) : Reaches null next p a

theorem not_reaches_null {null a : α} {next : α → α} : ¬ Reaches null next null a := by
  intro h
  cases h with
  | head hp => exact hp rfl
  | link hp _ => exact hp rfl

theorem Chain.reaches_iff {null p a : α} {next : α → α} {nodes : List α}
    (h : Chain null next p nodes) : Reaches null next p a ↔ a ∈ nodes := by
  induction nodes generalizing p with
  | nil =>
    obtain rfl : p = null := h
    simp [not_reaches_null]
  | cons b nodes ih =>
    obtain ⟨rfl, hnull, hrest⟩ := h
    rw [List.mem_cons]
    constructor
    · intro hreaches
      cases hreaches with
      | head => exact .inl rfl
      | link _ hlink => exact .inr ((ih hrest).mp hlink)
    · rintro (rfl | hmem)
      · exact .head hnull
      · exact .link hnull ((ih hrest).mpr hmem)

section Loops

variable [DecidableEq α] (null : α) (next : α → α)

def walk : ℕ → α → Option (List α)
  | 0, _ => none
  | fuel + 1, a => if a = null then some [] else (walk fuel (next a)).map (a :: ·)

def seek (stop : α → Bool) : ℕ → α → Option (Option α)
  | 0, _ => none
  | fuel + 1, a =>
    if a = null then some none else if stop a then some (some a) else seek stop fuel (next a)

variable {null next} {p : α} {nodes : List α} {stop : α → Bool} {fuel : ℕ}

theorem Chain.walk_eq (h : Chain null next p nodes) (hfuel : nodes.length < fuel) :
    walk null next fuel p = some nodes := by
  induction nodes generalizing p fuel with
  | nil =>
    obtain rfl : p = null := h
    obtain ⟨fuel, rfl⟩ := Nat.exists_eq_add_one.mpr hfuel
    rw [walk, if_pos rfl]
  | cons a nodes ih =>
    obtain ⟨rfl, hnull, hrest⟩ := h
    obtain ⟨fuel, rfl⟩ := Nat.exists_eq_add_one.mpr (Nat.zero_lt_of_lt hfuel)
    rw [walk, if_neg hnull, ih hrest (Nat.lt_of_succ_lt_succ hfuel), Option.map_some]

theorem Chain.seek_eq (h : Chain null next p nodes) (hfuel : nodes.length < fuel) :
    seek null next stop fuel p = some (nodes.find? stop) := by
  induction nodes generalizing p fuel with
  | nil =>
    obtain rfl : p = null := h
    obtain ⟨fuel, rfl⟩ := Nat.exists_eq_add_one.mpr hfuel
    rw [seek, if_pos rfl, List.find?_nil]
  | cons a nodes ih =>
    obtain ⟨rfl, hnull, hrest⟩ := h
    obtain ⟨fuel, rfl⟩ := Nat.exists_eq_add_one.mpr (Nat.zero_lt_of_lt hfuel)
    rw [seek, if_neg hnull, List.find?_cons]
    cases stop p with
    | true => rfl
    | false => exact ih hrest (Nat.lt_of_succ_lt_succ hfuel)

theorem Chain.eq_of_seek (h : Chain null next p nodes) {found : Option α}
    (hseek : seek null next stop fuel p = some found) : found = nodes.find? stop := by
  induction nodes generalizing p fuel with
  | nil =>
    obtain rfl : p = null := h
    cases fuel with
    | zero => cases hseek
    | succ fuel =>
      rw [seek, if_pos rfl] at hseek
      exact (Option.some.inj hseek).symm
  | cons a nodes ih =>
    obtain ⟨rfl, hnull, hrest⟩ := h
    cases fuel with
    | zero => cases hseek
    | succ fuel =>
      rw [seek, if_neg hnull] at hseek
      rw [List.find?_cons]
      cases hstop : stop p with
      | true =>
        rw [hstop] at hseek
        exact (Option.some.inj hseek).symm
      | false =>
        rw [hstop] at hseek
        exact ih hrest hseek

end Loops

end Sginx.Library.LinkedChain
