import Sginx.HandleHeader
import Sginx.Library.LinkedRing

namespace Sginx.Http

open Sginx.Library.LinkedRing

variable {α : Type}

def Stored (mem : NodeMemory α) (l : Links α) (headers : α → SgxHttpHeader) (x : α) : Prop :=
  mem x = some ⟨l.prev x, l.next x, headers x⟩

structure HeaderList (mem : NodeMemory α) (head : α) (xs : List α) (headers : α → SgxHttpHeader)
    (l : Links α) : Prop where
  ring : Ring l head xs
  stored : ∀ x ∈ head :: xs, Stored mem l headers x

section Lookups

variable {mem : NodeMemory α} {l : Links α} {headers : α → SgxHttpHeader} {x : α}

theorem load_stored (h : Stored mem l headers x) :
    load mem x = .ok ⟨l.prev x, l.next x, headers x⟩ := by
  rw [load, h]

theorem load_freed (h : mem x = none) : load mem x = .error .freed := by
  rw [load, h]

variable [DecidableEq α]

theorem storeNext_stored {a b : α} (ha : Stored mem l headers a) :
    ∃ mem', storeNext mem a b = .ok mem' ∧ ∀ x, Stored mem l headers x →
      Stored mem' { l with next := Function.update l.next a b } headers x := by
  refine ⟨_, by rw [storeNext, load_stored ha]; rfl, fun x hx => ?_⟩
  by_cases hxa : x = a
  · subst hxa
    simp [Stored]
  · simpa [Stored, Function.update_of_ne hxa] using hx

theorem storePrev_stored {a b : α} (ha : Stored mem l headers a) :
    ∃ mem', storePrev mem a b = .ok mem' ∧ ∀ x, Stored mem l headers x →
      Stored mem' { l with prev := Function.update l.prev a b } headers x := by
  refine ⟨_, by rw [storePrev, load_stored ha]; rfl, fun x hx => ?_⟩
  by_cases hxa : x = a
  · subst hxa
    simp [Stored]
  · simpa [Stored, Function.update_of_ne hxa] using hx

theorem listDelNode_stored {entry : α} (hentry : Stored mem l headers entry)
    (hprev : Stored mem l headers (l.prev entry)) (hnext : Stored mem l headers (l.next entry)) :
    ∃ mem', listDelNode mem entry = .ok mem' ∧ ∀ x, Stored mem l headers x →
      Stored mem' (l.join (l.prev entry) (l.next entry)) headers x := by
  obtain ⟨mem₁, hmem₁, hstored₁⟩ := storeNext_stored (b := l.next entry) hprev
  obtain ⟨mem₂, hmem₂, hstored₂⟩ := storePrev_stored (b := l.prev entry) (hstored₁ _ hnext)
  refine ⟨mem₂, ?_, fun x hx => hstored₂ x (hstored₁ x hx)⟩
  rw [listDelNode, load_stored hentry]
  change (storeNext mem (l.prev entry) (l.next entry) >>= fun mem =>
    storePrev mem (l.next entry) (l.prev entry)) = .ok mem₂
  rw [hmem₁]
  exact hmem₂

end Lookups

def HandleState.handled (s : HandleState α) (env : HandleEnv) (mem : NodeMemory α) (x : α)
    (header : SgxHttpHeader) : HandleState α :=
  ⟨mem, (handleEntry env (env.stale s.visited.length) header s.out).1,
    s.runs ++ [(handleEntry env (env.stale s.visited.length) header s.out).2],
    s.visited ++ [x], s.freed ++ [x]⟩

variable [DecidableEq α] {env : HandleEnv} {free : NodeMemory α → α → NodeMemory α} {head x : α}
  {xs rest : List α} {headers : α → SgxHttpHeader} {l : Links α}

theorem handleRound_first (env : HandleEnv) (free : NodeMemory α → α → NodeMemory α) {s : HandleState α}
    (h : HeaderList s.mem head (x :: rest) headers l) :
    ∃ mem, handleRound env free x s = .ok (s.handled env (free mem x) x (headers x)) ∧
      ∀ y ∈ head :: x :: rest, Stored mem (l.join (l.prev x) (l.next x)) headers y := by
  have hx : x ∈ head :: x :: rest := List.mem_cons_of_mem head List.mem_cons_self
  obtain ⟨mem, hmem, hstored⟩ := listDelNode_stored (h.stored x hx)
    (h.stored _ (h.ring.joined_prev hx).1) (h.stored _ (h.ring.joined_next hx).1)
  refine ⟨mem, ?_, fun y hy => hstored y (h.stored y hy)⟩
  rw [handleRound, load_stored (h.stored x hx)]
  change (listDelNode s.mem x >>= _) = _
  rw [hmem]
  rfl

/-- A `free` after which the link of the freed node can still be read. -/
def LeavesLink (free : NodeMemory α → α → NodeMemory α) : Prop :=
  ∀ mem x, (∀ y, y ≠ x → free mem x y = mem y) ∧
    ∀ node, mem x = some node → ∃ node', free mem x x = some node' ∧ node'.next = node.next

def freeErases (mem : NodeMemory α) (x : α) : NodeMemory α := Function.update mem x none

omit [DecidableEq α] in
theorem first_links (h : Ring l head (x :: rest)) :
    l.next head = x ∧ l.prev x = head ∧ x ≠ head := by
  have hwhole : Ring l head ([] ++ x :: rest) := h
  have hfront : head :: ([] : List α) = [] ++ [head] := rfl
  have hseam := hwhole.seam hfront rfl
  refine ⟨hseam.1, hseam.2, ?_⟩
  rintro rfl
  exact (List.nodup_cons.mp h.nodup).1 List.mem_cons_self

theorem handleLoop_first (env : HandleEnv) (free : NodeMemory α → α → NodeMemory α) {s : HandleState α}
    (h : HeaderList s.mem head (x :: rest) headers l) (fuel : ℕ) :
    ∃ mem, (∀ y ∈ head :: x :: rest, Stored mem (l.join head (l.next x)) headers y) ∧
      handleLoop env free head (fuel + 1) x s = (do
        let node ← load (free mem x) x
        handleLoop env free head fuel node.next (s.handled env (free mem x) x (headers x))) := by
  obtain ⟨-, hprev, hne⟩ := first_links h.ring
  obtain ⟨mem, hround, hstored⟩ := handleRound_first env free h
  rw [hprev] at hstored
  refine ⟨mem, hstored, ?_⟩
  rw [handleLoop, if_neg hne, hround]
  rfl

theorem HeaderList.free_first {mem mem' : NodeMemory α} (hfree : LeavesLink free)
    (h : HeaderList mem' head (x :: rest) headers l)
    (hstored : ∀ y ∈ head :: x :: rest, Stored mem (l.join head (l.next x)) headers y) :
    HeaderList (free mem x) head rest headers (l.join head (l.next x)) := by
  obtain ⟨-, hprev, hne⟩ := first_links h.ring
  constructor
  · have hwhole : Ring l head ([] ++ x :: rest) := h.ring
    have hremove := hwhole.remove
    rwa [hprev] at hremove
  · intro y hy
    have hyx : y ≠ x := by
      rintro rfl
      rcases List.mem_cons.mp hy with rfl | hy
      · exact hne rfl
      · exact (List.nodup_cons.mp (List.nodup_cons.mp h.ring.nodup).2).1 hy
    rw [Stored, (hfree mem x).1 y hyx]
    apply hstored
    rcases List.mem_cons.mp hy with rfl | hy
    · exact List.mem_cons_self
    · exact List.mem_cons_of_mem _ (List.mem_cons_of_mem _ hy)

theorem handleLoop_leavesLink (env : HandleEnv) (hfree : LeavesLink free) {s : HandleState α}
    {fuel : ℕ} (h : HeaderList s.mem head xs headers l) (hfuel : xs.length < fuel) :
    ∃ mem l', HeaderList mem head [] headers l' ∧
      handleLoop env free head fuel (l.next head) s = .ok ⟨mem,
        (handleEntries env s.visited.length (xs.map headers) s.out).1,
        s.runs ++ (handleEntries env s.visited.length (xs.map headers) s.out).2,
        s.visited ++ xs, s.freed ++ xs⟩ := by
  induction xs generalizing s fuel l with
  | nil =>
    obtain ⟨fuel, rfl⟩ := Nat.exists_eq_add_of_lt hfuel
    refine ⟨s.mem, l, h, ?_⟩
    rw [handleLoop, if_pos (h.ring.empty_iff.mpr rfl).1]
    simp [handleEntries]
  | cons x rest ih =>
    cases fuel with
    | zero => exact absurd hfuel (Nat.not_lt_zero _)
    | succ fuel =>
      obtain ⟨hnext, -, hne⟩ := first_links h.ring
      obtain ⟨mem, hstored, hloop⟩ := handleLoop_first env free h fuel
      have hx := hstored x (List.mem_cons_of_mem head List.mem_cons_self)
      obtain ⟨node, hnode, hlink⟩ := (hfree mem x).2 _ hx
      have hpos : node.next = (l.join head (l.next x)).next head := by
        rw [hlink, join_next l hne, (join_joined l head (l.next x)).1]
      have hrest := h.free_first hfree hstored
      obtain ⟨mem', l', hend, hothers⟩ := ih (s := s.handled env (free mem x) x (headers x)) hrest
        (Nat.lt_of_succ_lt_succ hfuel)
      refine ⟨mem', l', hend, ?_⟩
      rw [hnext, hloop]
      rw [load, hnode]
      refine (congrArg (handleLoop env free head fuel · _) hpos).trans ?_
      rw [hothers]
      simp [HandleState.handled, handleEntries]

theorem handleHeader_leavesLink (hfree : LeavesLink free) {mem : NodeMemory α} {fuel : ℕ}
    (out : SgxHttpOut) (h : HeaderList mem head xs headers l) (hfuel : xs.length < fuel) :
    ∃ mem' l', HeaderList mem' head [] headers l' ∧
      sgxHttpHandleHeader env free fuel head mem out = .ok ⟨mem',
        (handleEntries env 0 (xs.map headers) out).1, (handleEntries env 0 (xs.map headers) out).2,
        xs, xs⟩ := by
  obtain ⟨mem', l', hend, hloop⟩ := handleLoop_leavesLink env
    (s := ⟨mem, out, [], [], []⟩) hfree h hfuel
  refine ⟨mem', l', hend, ?_⟩
  rw [sgxHttpHandleHeader, load_stored (h.stored head List.mem_cons_self)]
  exact hloop

def TraversalSafe (env : HandleEnv) (free : NodeMemory α → α → NodeMemory α) (head : α)
    (mem : NodeMemory α) (out : SgxHttpOut) (xs : List α) : Prop :=
  ∃ fuel s, sgxHttpHandleHeader env free fuel head mem out = .ok s ∧ s.visited = xs ∧ s.freed = xs ∧
    ∃ node, s.mem head = some node ∧ node.next = head ∧ node.prev = head

theorem not_traversalSafe {mem : NodeMemory α} (h : HeaderList mem head (x :: rest) headers l)
    (out : SgxHttpOut) : ¬ TraversalSafe env freeErases head mem out (x :: rest) := by
  rintro ⟨fuel, s, hrun, -⟩
  rw [sgxHttpHandleHeader, load_stored (h.stored head List.mem_cons_self)] at hrun
  change handleLoop env freeErases head fuel (l.next head) ⟨mem, out, [], [], []⟩ = _ at hrun
  rw [(first_links h.ring).1] at hrun
  cases fuel with
  | zero => exact absurd hrun (by simp [handleLoop])
  | succ fuel =>
    obtain ⟨mem', -, hloop⟩ := handleLoop_first env freeErases
      (s := ⟨mem, out, [], [], []⟩) h fuel
    have hfreed : freeErases mem' x x = none := by rw [freeErases, Function.update_self]
    rw [hloop, load_freed hfreed] at hrun
    cases hrun

theorem traversalSafe_nil {mem : NodeMemory α} (h : HeaderList mem head [] headers l)
    (out : SgxHttpOut) : TraversalSafe env free head mem out [] := by
  have hhead := h.stored head List.mem_cons_self
  obtain ⟨hnext, hprev⟩ := h.ring.empty_iff.mpr rfl
  refine ⟨1, ⟨mem, out, [], [], []⟩, ?_, rfl, rfl, _, hhead, hnext, hprev⟩
  rw [sgxHttpHandleHeader, load_stored hhead]
  exact if_pos hnext

theorem traversal_safe_iff_empty {mem : NodeMemory α} (h : HeaderList mem head xs headers l)
    (out : SgxHttpOut) : TraversalSafe env freeErases head mem out xs ↔ xs = [] := by
  constructor
  · intro hsafe
    cases xs with
    | nil => rfl
    | cons x rest => exact absurd hsafe (not_traversalSafe h out)
  · rintro rfl
    exact traversalSafe_nil h out

def oneHeaderAt : SgxHttpHeader := ⟨ptrAt 0, ptrAt 1, ptrAt 3, ptrAt 4⟩

def oneEntry : NodeMemory ℕ := fun x => if x ≤ 1 then some ⟨1 - x, 1 - x, oneHeaderAt⟩ else none

theorem oneEntry_list :
    HeaderList oneEntry 0 [1] (fun _ => oneHeaderAt) ⟨fun x => 1 - x, fun x => 1 - x⟩ := by
  constructor
  · exact ⟨.cons_cons ⟨rfl, rfl⟩ (.cons_cons ⟨rfl, rfl⟩ (.singleton 0)), by decide⟩
  · intro x hx
    have hle : x ≤ 1 := by
      simp only [List.mem_cons, List.not_mem_nil, or_false] at hx
      omega
    exact if_pos hle

theorem traversal_safe_iff_empty_one_entry :
    HeaderList oneEntry 0 [1] (fun _ => oneHeaderAt) ⟨fun x => 1 - x, fun x => 1 - x⟩ ∧
      (TraversalSafe (plainEnv zeroRequest) freeErases 0 oneEntry ⟨5, 0, 0, 1, 0⟩ [1] ↔ [1] = []) :=
  ⟨oneEntry_list, traversal_safe_iff_empty oneEntry_list ⟨5, 0, 0, 1, 0⟩⟩

theorem first_entry_is_read_after_free :
    HeaderList oneEntry 0 [1] (fun _ => oneHeaderAt) ⟨fun x => 1 - x, fun x => 1 - x⟩ ∧
      ¬ TraversalSafe (plainEnv zeroRequest) freeErases 0 oneEntry ⟨5, 0, 0, 1, 0⟩ [1] :=
  ⟨oneEntry_list, not_traversalSafe oneEntry_list ⟨5, 0, 0, 1, 0⟩⟩

end Sginx.Http
