import Sginx.Library.LinkedRing

/-!
`core/sgx_list.h`. A node is the address of its `sgx_list_head`. A function first reads the links it
needs and then stores, so that it comes down to the list of its stores.
-/

namespace Sginx.IntrusiveList

open Sginx.Library.LinkedRing

variable {α : Type*}

inductive Store (α : Type*) where
  | next (node link : α)
  | prev (node link : α)

def Store.node : Store α → α
  | .next node _ => node
  | .prev node _ => node

/-- `__list_add`. -/
def rawListAdd (new prev next : α) : List (Store α) :=
  [.next new next, .prev next new, .next prev new, .prev new prev]

/-- `__list_del`. -/
def rawListDel (prev next : α) : List (Store α) := [.next prev next, .prev next prev]

def initListHead (ptr : α) : List (Store α) := [.next ptr ptr, .prev ptr ptr]

def listAdd (l : Links α) (new head : α) : List (Store α) := rawListAdd new head (l.next head)

def listAddTail (l : Links α) (new head : α) : List (Store α) := rawListAdd new (l.prev head) head

def listDel (l : Links α) (entry : α) : List (Store α) := rawListDel (l.prev entry) (l.next entry)

inductive ListOp (α : Type*) where
  | add (new : α)
  | addTail (new : α)
  | del (entry : α)

def ListOp.stores (head : α) (l : Links α) : ListOp α → List (Store α)
  | .add new => listAdd l new head
  | .addTail new => listAddTail l new head
  | .del entry => listDel l entry

def ListOp.added : ListOp α → Option α
  | .add new => some new
  | .addTail new => some new
  | .del _ => none

def ListOp.Allowed (head : α) (xs : List α) : ListOp α → Prop
  | .add new => new ∉ head :: xs
  | .addTail new => new ∉ head :: xs
  | .del entry => entry ∈ xs

variable {head : α} {l : Links α} {xs : List α}

theorem rawListAdd_node {new prev next : α} {store : Store α}
    (h : store ∈ rawListAdd new prev next) :
    store.node = new ∨ store.node = prev ∨ store.node = next := by
  simp only [rawListAdd, List.mem_cons, List.not_mem_nil, or_false] at h
  rcases h with rfl | rfl | rfl | rfl <;> simp [Store.node]

theorem rawListDel_node {prev next : α} {store : Store α} (h : store ∈ rawListDel prev next) :
    store.node = prev ∨ store.node = next := by
  simp only [rawListDel, List.mem_cons, List.not_mem_nil, or_false] at h
  rcases h with rfl | rfl <;> simp [Store.node]

theorem ListOp.stores_node {op : ListOp α} (h : Ring l head xs) (hop : op.Allowed head xs)
    {store : Store α} (hstore : store ∈ op.stores head l) :
    store.node ∈ head :: xs ∨ op.added = some store.node := by
  cases op with
  | add new =>
    obtain hnode | hnode | hnode := rawListAdd_node hstore
    · exact .inr (congrArg some hnode.symm)
    · exact .inl (hnode ▸ List.mem_cons_self)
    · exact .inl (hnode ▸ (h.joined_next List.mem_cons_self).1)
  | addTail new =>
    obtain hnode | hnode | hnode := rawListAdd_node hstore
    · exact .inr (congrArg some hnode.symm)
    · exact .inl (hnode ▸ (h.joined_prev List.mem_cons_self).1)
    · exact .inl (hnode ▸ List.mem_cons_self)
  | del entry =>
    have hmem := List.mem_cons_of_mem head hop
    obtain hnode | hnode := rawListDel_node hstore
    · exact .inl (hnode ▸ (h.joined_prev hmem).1)
    · exact .inl (hnode ▸ (h.joined_next hmem).1)

variable [DecidableEq α]

def Store.run (l : Links α) : Store α → Links α
  | .next node link => { l with next := Function.update l.next node link }
  | .prev node link => { l with prev := Function.update l.prev node link }

def runStores (l : Links α) (stores : List (Store α)) : Links α := stores.foldl Store.run l

def listEmpty (l : Links α) (head : α) : Bool :=
  decide (l.next head = head) && decide (l.prev head = head)

def listForEach (fuel : ℕ) (l : Links α) (head : α) : Option (List α) :=
  visit l.next head fuel (l.next head)

def listForEachPrev (fuel : ℕ) (l : Links α) (head : α) : Option (List α) :=
  visit l.prev head fuel (l.prev head)

def ListOp.seq (xs : List α) : ListOp α → List α
  | .add new => new :: xs
  | .addTail new => xs ++ [new]
  | .del entry => xs.erase entry

inductive ListRun (head : α) : Links α → List α → Prop where
  | init (l : Links α) : ListRun head (runStores l (initListHead head)) []
  | step {l : Links α} {xs : List α} (op : ListOp α) : ListRun head l xs → op.Allowed head xs →
      ListRun head (runStores l (op.stores head l)) (op.seq xs)

theorem runStores_rawListAdd (l : Links α) (new prev next : α) :
    runStores l (rawListAdd new prev next) = (l.join new next).join prev new := rfl

theorem runStores_rawListDel (l : Links α) (prev next : α) :
    runStores l (rawListDel prev next) = l.join prev next := rfl

theorem ring_initListHead (head : α) (l : Links α) :
    Ring (runStores l (initListHead head)) head [] := by
  apply ring_empty
  · exact Function.update_self head head l.next
  · exact Function.update_self head head l.prev

theorem ring_listAdd {new : α} (h : Ring l head xs) (hnew : new ∉ head :: xs) :
    Ring (runStores l (listAdd l new head)) head (new :: xs) := by
  obtain ⟨b, c₂, hback⟩ := List.exists_cons_of_ne_nil (List.append_ne_nil_of_right_ne_nil xs
    (List.cons_ne_nil head []))
  have hfront : head :: ([] : List α) = [] ++ [head] := rfl
  have hwhole : Ring l head ([] ++ xs) := h
  have hnext := (hwhole.seam hfront hback).1
  rw [listAdd, runStores_rawListAdd, hnext]
  exact hwhole.insert hnew hfront hback

theorem ring_listAddTail {new : α} (h : Ring l head xs) (hnew : new ∉ head :: xs) :
    Ring (runStores l (listAddTail l new head)) head (xs ++ [new]) := by
  obtain ⟨c₁, a, hfront⟩ := (List.eq_nil_or_concat (head :: xs)).resolve_left (List.cons_ne_nil _ _)
  rw [List.concat_eq_append] at hfront
  have hback : [] ++ [head] = head :: ([] : List α) := rfl
  rw [← List.append_nil xs] at h hnew
  have hprev := (h.seam hfront hback).2
  rw [listAddTail, runStores_rawListAdd, hprev]
  exact h.insert hnew hfront hback

theorem ring_listDel {entry : α} (h : Ring l head xs) (hentry : entry ∈ xs) :
    Ring (runStores l (listDel l entry)) head (xs.erase entry) := by
  obtain ⟨pre, post, hpre, hxs, herase⟩ := List.exists_erase_eq hentry
  rw [herase, listDel, runStores_rawListDel]
  apply Ring.remove
  rwa [hxs] at h

theorem ListOp.ring {op : ListOp α} (h : Ring l head xs) (hop : op.Allowed head xs) :
    Ring (runStores l (op.stores head l)) head (op.seq xs) := by
  cases op with
  | add new => exact ring_listAdd h hop
  | addTail new => exact ring_listAddTail h hop
  | del entry => exact ring_listDel h hop

theorem ListRun.ring (h : ListRun head l xs) : Ring l head xs := by
  induction h with
  | init l => exact ring_initListHead head l
  | step op _ hop ih => exact op.ring ih hop

theorem listEmpty_iff (h : Ring l head xs) : listEmpty l head = true ↔ xs = [] := by
  rw [listEmpty, Bool.and_eq_true, decide_eq_true_iff, decide_eq_true_iff]
  exact h.empty_iff

theorem intrusive_list_is_a_sequence (h : ListRun head l xs) :
    (head :: xs).Nodup ∧ (head :: (xs ++ [head])).IsChain (fun x y => l.next x = y ∧ l.prev y = x) ∧
      (∀ x ∈ head :: xs, l.prev (l.next x) = x ∧ l.next (l.prev x) = x) ∧
      (∀ fuel, xs.length < fuel → listForEach fuel l head = some xs ∧
        listForEachPrev fuel l head = some xs.reverse) ∧
      (listEmpty l head = true ↔ xs = []) ∧
      ∀ op : ListOp α, op.Allowed head xs → ∀ store ∈ op.stores head l,
        store.node ∈ head :: xs ∨ op.added = some store.node := by
  have hring := h.ring
  refine ⟨hring.nodup, hring.walk, fun x hx => ⟨(hring.joined_next hx).2, (hring.joined_prev hx).2⟩, ?_, listEmpty_iff hring, ?_⟩
  · intro fuel hfuel
    exact ⟨hring.visit_next hfuel, hring.visit_prev hfuel⟩
  · intro op hop store hstore
    exact op.stores_node hring hop hstore

theorem intrusive_list_is_a_sequence_three_nodes :
    let l : Links ℕ := ⟨fun _ => 7, fun _ => 7⟩
    let l₁ := runStores l (initListHead 0)
    let l₂ := runStores l₁ (listAddTail l₁ 5 0)
    let l₃ := runStores l₂ (listAdd l₂ 3 0)
    let l₄ := runStores l₃ (listAddTail l₃ 9 0)
    let l₅ := runStores l₄ (listDel l₄ 5)
    ListRun 0 l₅ [3, 9] ∧ listForEach 3 l₅ 0 = some [3, 9] ∧ listForEachPrev 3 l₅ 0 = some [9, 3] := by
  intro l l₁ l₂ l₃ l₄ l₅
  have h₁ : ListRun 0 l₁ [] := .init l
  have h₂ : ListRun 0 l₂ [5] := .step (.addTail 5) h₁ (by decide : 5 ∉ [0])
  have h₃ : ListRun 0 l₃ [3, 5] := .step (.add 3) h₂ (by decide : 3 ∉ [0, 5])
  have h₄ : ListRun 0 l₄ [3, 5, 9] := .step (.addTail 9) h₃ (by decide : 9 ∉ [0, 3, 5])
  have h₅ : ListRun 0 l₅ [3, 9] := .step (.del 5) h₄ (by decide : 5 ∈ [3, 5, 9])
  exact ⟨h₅, (intrusive_list_is_a_sequence h₅).2.2.2.1 3 (by decide)⟩

end Sginx.IntrusiveList
