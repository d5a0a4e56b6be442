import Mathlib.Data.List.Chain
import Mathlib.Data.List.Nodup
import Mathlib.Logic.Function.Basic

namespace Sginx.Library.LinkedRing

structure Links (α : Type*) where
  prev : α → α
  next : α → α

variable {α : Type*}

def Links.Joined (l : Links α) (x y : α) : Prop := l.next x = y ∧ l.prev y = x

structure Ring (l : Links α) (head : α) (xs : List α) : Prop where
  walk : (head :: (xs ++ [head])).IsChain l.Joined
  nodup : (head :: xs).Nodup

theorem chain_congr {l l' : Links α} {c : List α} (h : c.IsChain l.Joined)
    (hnext : ∀ x ∈ c.dropLast, l'.next x = l.next x) (hprev : ∀ x ∈ c.tail, l'.prev x = l.prev x) :
    c.IsChain l'.Joined := by
  induction h with
  | nil => exact .nil
  | singleton a => exact .singleton a
  | @cons_cons a b c hab hrest ih =>
    have hout := hnext a List.mem_cons_self
    have hin := hprev b List.mem_cons_self
    refine .cons_cons ⟨hout.trans hab.1, hin.trans hab.2⟩ (ih (fun x hx => ?_) (fun x hx => ?_))
    · exact hnext x (List.mem_cons_of_mem a hx)
    · exact hprev x (List.mem_cons_of_mem b hx)

section Join

variable [DecidableEq α]

def Links.join (l : Links α) (x y : α) : Links α :=
  { prev := Function.update l.prev y x
    next := Function.update l.next x y }

theorem join_joined (l : Links α) (x y : α) : (l.join x y).Joined x y :=
  ⟨Function.update_self _ _ _, Function.update_self _ _ _⟩

theorem join_next (l : Links α) {x y z : α} (h : z ≠ x) : (l.join x y).next z = l.next z :=
  Function.update_of_ne h _ _

theorem join_prev (l : Links α) {x y z : α} (h : z ≠ y) : (l.join x y).prev z = l.prev z :=
  Function.update_of_ne h _ _

theorem join_chain {l : Links α} {c : List α} {x y : α} (h : c.IsChain l.Joined)
    (hx : x ∉ c.dropLast) (hy : y ∉ c.tail) : c.IsChain (l.join x y).Joined := by
  apply chain_congr h
  · intro z hz
    exact join_next l (fun heq => hx (heq ▸ hz))
  · intro z hz
    exact join_prev l (fun heq => hy (heq ▸ hz))

end Join

theorem exists_seam (head : α) (pre post : List α) : ∃ c₁ a b c₂,
    head :: pre = c₁ ++ [a] ∧ post ++ [head] = b :: c₂ := by
  obtain ⟨c₁, a, hfront⟩ := (List.eq_nil_or_concat (head :: pre)).resolve_left (List.cons_ne_nil _ _)
  rw [List.concat_eq_append] at hfront
  cases post with
  | nil => exact ⟨c₁, a, head, [], hfront, rfl⟩
  | cons b post => exact ⟨c₁, a, b, post ++ [head], hfront, rfl⟩

section Seam

variable {l : Links α} {head a b : α} {pre post c₁ c₂ : List α}

theorem seam_walk (hfront : head :: pre = c₁ ++ [a]) (hback : post ++ [head] = b :: c₂) :
    head :: ((pre ++ post) ++ [head]) = c₁ ++ a :: b :: c₂ := by
  rw [List.append_assoc, hback, ← List.cons_append, hfront, List.append_assoc]
  rfl

theorem walk_iff (hfront : head :: pre = c₁ ++ [a]) (hback : post ++ [head] = b :: c₂) :
    (head :: ((pre ++ post) ++ [head])).IsChain l.Joined ↔ (head :: pre).IsChain l.Joined ∧
      l.Joined a b ∧ (post ++ [head]).IsChain l.Joined := by
  rw [seam_walk hfront hback, List.isChain_append_cons_cons, hfront, hback]

theorem Ring.seam (h : Ring l head (pre ++ post)) (hfront : head :: pre = c₁ ++ [a])
    (hback : post ++ [head] = b :: c₂) : l.next a = b ∧ l.prev b = a :=
  ((walk_iff hfront hback).mp h.walk).2.1

theorem last_notMem (hnodup : (head :: (pre ++ post)).Nodup) (hfront : head :: pre = c₁ ++ [a]) :
    a ∉ c₁ ∧ a ∉ post := by
  rw [← List.cons_append, hfront, List.nodup_append, List.nodup_append] at hnodup
  obtain ⟨⟨-, -, hc⟩, -, hpost⟩ := hnodup
  constructor
  · intro ha
    exact hc a ha a (List.mem_singleton_self a) rfl
  · intro ha
    exact hpost a (List.mem_append_right _ (List.mem_singleton_self a)) a ha rfl

theorem first_notMem (hnodup : (head :: (pre ++ post)).Nodup) (hback : post ++ [head] = b :: c₂) :
    b ∉ c₂ ∧ b ∉ pre := by
  obtain ⟨hhead, hrest⟩ := List.nodup_cons.mp hnodup
  rw [List.mem_append, not_or] at hhead
  obtain ⟨-, hpost, hapart⟩ := List.nodup_append.mp hrest
  have hturn : (post ++ [head]).Nodup := by
    rw [List.nodup_append_comm]
    exact List.nodup_cons.mpr ⟨hhead.2, hpost⟩
  have hb : b ∈ post ++ [head] := by
    rw [hback]
    exact List.mem_cons_self
  rw [hback] at hturn
  refine ⟨(List.nodup_cons.mp hturn).1, fun hpre => ?_⟩
  rcases List.mem_append.mp hb with hb | hb
  · exact hapart b hpre b hb rfl
  · rw [List.mem_singleton.mp hb] at hpre
    exact hhead.1 hpre

variable [DecidableEq α]

theorem ring_of_join (hpre : (head :: pre).IsChain l.Joined)
    (hpost : (post ++ [head]).IsChain l.Joined) (hnodup : (head :: (pre ++ post)).Nodup)
    (hfront : head :: pre = c₁ ++ [a]) (hback : post ++ [head] = b :: c₂) :
    Ring (l.join a b) head (pre ++ post) := by
  obtain ⟨ha₁, ha₂⟩ := last_notMem hnodup hfront
  obtain ⟨hb₁, hb₂⟩ := first_notMem hnodup hback
  refine ⟨(walk_iff hfront hback).mpr ⟨?_, join_joined l a b, ?_⟩, hnodup⟩
  · apply join_chain hpre
    · rw [hfront, List.dropLast_concat]
      exact ha₁
    · exact hb₂
  · apply join_chain hpost
    · rw [List.dropLast_concat]
      exact ha₂
    · rw [hback]
      exact hb₁

theorem Ring.remove {x : α} (h : Ring l head (pre ++ x :: post)) :
    Ring (l.join (l.prev x) (l.next x)) head (pre ++ post) := by
  obtain ⟨c₁, a, b, c₂, hfront, hback⟩ := exists_seam head pre post
  have hback' : (x :: post) ++ [head] = x :: (b :: c₂) := by rw [List.cons_append, hback]
  obtain ⟨hpre, hax, hrest⟩ := (walk_iff hfront hback').mp h.walk
  rw [hback', List.isChain_cons_cons] at hrest
  obtain ⟨hxb, hpost⟩ := hrest
  rw [hax.2, hxb.1]
  apply ring_of_join hpre _ _ hfront hback
  · rw [hback]
    exact hpost
  · exact h.nodup.sublist ((List.sublist_append_right [x] post).append_left pre |>.cons_cons head)

theorem Ring.insert {new : α} (h : Ring l head (pre ++ post)) (hnew : new ∉ head :: (pre ++ post))
    (hfront : head :: pre = c₁ ++ [a]) (hback : post ++ [head] = b :: c₂) :
    Ring ((l.join new b).join a new) head (pre ++ new :: post) := by
  obtain ⟨hpre, -, hpost⟩ := (walk_iff hfront hback).mp h.walk
  obtain ⟨hb₁, hb₂⟩ := first_notMem h.nodup hback
  have hnodup : (head :: (pre ++ new :: post)).Nodup := by
    have hperm : (head :: (pre ++ new :: post)).Perm (new :: head :: (pre ++ post)) :=
      (List.perm_middle.cons head).trans (List.Perm.swap new head _)
    exact hperm.nodup_iff.mpr (List.nodup_cons.mpr ⟨hnew, h.nodup⟩)
  have hback' : (new :: post) ++ [head] = new :: (b :: c₂) := by rw [List.cons_append, hback]
  apply ring_of_join _ _ hnodup hfront hback'
  · apply join_chain hpre
    · intro hmem
      apply hnew
      rw [← List.cons_append]
      exact List.mem_append_left _ (List.dropLast_subset _ hmem)
    · exact hb₂
  · rw [hback', List.isChain_cons_cons]
    refine ⟨join_joined l new b, ?_⟩
    rw [hback] at hpost
    apply join_chain hpost
    · intro hmem
      rw [← hback, List.dropLast_concat] at hmem
      exact hnew (List.mem_cons_of_mem head (List.mem_append_right _ hmem))
    · exact hb₁

end Seam

theorem chain_out {R : α → α → Prop} {c : List α} {x : α} (h : c.IsChain R) (hx : x ∈ c.dropLast) :
    ∃ y ∈ c.tail, R x y := by
  induction h with
  | nil => cases hx
  | singleton a => cases hx
  | @cons_cons a b c hab _ ih =>
    rw [List.dropLast_cons_cons] at hx
    rcases List.mem_cons.mp hx with rfl | hx
    · exact ⟨b, List.mem_cons_self, hab⟩
    · obtain ⟨y, hmem, hy⟩ := ih hx
      exact ⟨y, List.mem_cons_of_mem b hmem, hy⟩

theorem Ring.joined_next {l : Links α} {head x : α} {xs : List α} (h : Ring l head xs)
    (hx : x ∈ head :: xs) : l.next x ∈ head :: xs ∧ l.prev (l.next x) = x := by
  have hleft : x ∈ (head :: (xs ++ [head])).dropLast := by
    rwa [← List.cons_append, List.dropLast_concat]
  obtain ⟨y, hmem, hy⟩ := chain_out h.walk hleft
  rw [List.tail_cons, List.mem_append, List.mem_singleton] at hmem
  rw [hy.1]
  exact ⟨List.mem_cons.mpr hmem.symm, hy.2⟩

def Links.flip (l : Links α) : Links α := ⟨l.next, l.prev⟩

theorem Ring.flip {l : Links α} {head : α} {xs : List α} (h : Ring l head xs) :
    Ring l.flip head xs.reverse := by
  constructor
  · have hwalk := h.walk
    have hturn : head :: (xs.reverse ++ [head]) = (head :: (xs ++ [head])).reverse := by simp
    rw [hturn, List.isChain_reverse]
    exact hwalk.imp (fun x y hxy => ⟨hxy.2, hxy.1⟩)
  · exact ((List.reverse_perm xs).cons head).nodup_iff.mpr h.nodup

theorem Ring.joined_prev {l : Links α} {head x : α} {xs : List α} (h : Ring l head xs)
    (hx : x ∈ head :: xs) : l.prev x ∈ head :: xs ∧ l.next (l.prev x) = x := by
  have hflip := h.flip.joined_next (List.mem_cons.mpr ((List.mem_cons.mp hx).imp_right
    List.mem_reverse.mpr))
  exact ⟨List.mem_cons.mpr ((List.mem_cons.mp hflip.1).imp_right List.mem_reverse.mp), hflip.2⟩

theorem ring_empty (head : α) (l : Links α) (hnext : l.next head = head)
    (hprev : l.prev head = head) : Ring l head [] :=
  ⟨List.isChain_pair.mpr ⟨hnext, hprev⟩, List.nodup_singleton head⟩

theorem Ring.empty_iff {l : Links α} {head : α} {xs : List α} (h : Ring l head xs) :
    (l.next head = head ∧ l.prev head = head) ↔ xs = [] := by
  constructor
  · rintro ⟨hnext, -⟩
    cases xs with
    | nil => rfl
    | cons x xs =>
      have hwalk := h.walk
      rw [List.cons_append, List.isChain_cons_cons] at hwalk
      have hhead : head = x := hnext.symm.trans hwalk.1.1
      exact absurd List.mem_cons_self (hhead ▸ (List.nodup_cons.mp h.nodup).1)
  · rintro rfl
    exact (List.isChain_pair (R := l.Joined)).mp h.walk

theorem chain_next {l : Links α} {a : α} {c : List α} (h : (a :: c).IsChain l.Joined)
    (hc : c ≠ []) : c.head? = some (l.next a) := by
  cases c with
  | nil => exact absurd rfl hc
  | cons b c => rw [List.head?_cons, (List.isChain_cons_cons.mp h).1.1]

section Visit

variable [DecidableEq α]

def visit (step : α → α) (head : α) : ℕ → α → Option (List α)
  | 0, _ => none
  | fuel + 1, pos =>
    if pos = head then some [] else (visit step head fuel (step pos)).map (pos :: ·)

theorem visit_chain {l : Links α} {head : α} {xs : List α} {fuel : ℕ}
    (hwalk : (xs ++ [head]).IsChain l.Joined) (hhead : head ∉ xs) (hfuel : xs.length < fuel)
    {pos : α} (hpos : (xs ++ [head]).head? = some pos) : visit l.next head fuel pos = some xs := by
  induction xs generalizing fuel pos with
  | nil =>
    obtain ⟨fuel, rfl⟩ := Nat.exists_eq_add_of_lt hfuel
    rw [← Option.some.inj hpos, visit, if_pos rfl]
  | cons x xs ih =>
    cases fuel with
    | zero => exact absurd hfuel (Nat.not_lt_zero _)
    | succ fuel =>
      obtain rfl : x = pos := Option.some.inj hpos
      rw [List.mem_cons, not_or] at hhead
      have hnext := chain_next hwalk (List.append_ne_nil_of_right_ne_nil xs (List.cons_ne_nil _ _))
      have hrest := ih (List.IsChain.tail hwalk) hhead.2 (Nat.lt_of_succ_lt_succ hfuel) hnext
      rw [visit, if_neg (Ne.symm hhead.1), hrest, Option.map_some]

theorem Ring.visit_next {l : Links α} {head : α} {xs : List α} {fuel : ℕ} (h : Ring l head xs)
    (hfuel : xs.length < fuel) : visit l.next head fuel (l.next head) = some xs := by
  apply visit_chain (List.IsChain.tail h.walk) (List.nodup_cons.mp h.nodup).1 hfuel
  exact chain_next h.walk (List.append_ne_nil_of_right_ne_nil xs (List.cons_ne_nil _ _))

theorem Ring.visit_prev {l : Links α} {head : α} {xs : List α} {fuel : ℕ} (h : Ring l head xs)
    (hfuel : xs.length < fuel) : visit l.prev head fuel (l.prev head) = some xs.reverse := by
  apply h.flip.visit_next
  rwa [List.length_reverse]

end Visit

end Sginx.Library.LinkedRing
