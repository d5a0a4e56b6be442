import Sginx.PoolPlaced

namespace Sginx.Pool

open Sginx.Library.LinkedChain Sginx.Library.Regions

def nodeSpan (clean : ℕ) : Span ℕ := ⟨clean, clean + sizeofPoolCleanup⟩

structure Linked (s s' : LinkedPool) (clean : ℕ) : Prop where
  cleanup : s'.cleanup = clean
  next : s'.memory (nextAt clean) = s.cleanup
  frame : ∀ w, w < clean ∨ clean + sizeofPoolCleanup ≤ w → s'.memory w = s.memory w

theorem linkCleanup_linked (s : LinkedPool) (pool : SgxPool) (clean data : ℕ) :
    Linked s (linkCleanup (({ s with pool := pool } : LinkedPool).store (dataAt clean) data) clean)
      clean := by
  refine ⟨rfl, Function.update_self _ _ _, fun w hw => ?_⟩
  simp only [sizeofPoolCleanup] at hw
  simp only [linkCleanup, LinkedPool.store, nextAt, dataAt]
  rw [Function.update_of_ne (by omega), Function.update_of_ne (by omega),
    Function.update_of_ne (by omega)]

theorem linkCleanup_data (s : LinkedPool) (clean data : ℕ) :
    (linkCleanup (s.store (dataAt clean) data) clean).memory (dataAt clean) = data := by
  simp only [linkCleanup, LinkedPool.store, nextAt, dataAt]
  rw [Function.update_of_ne (by omega), Function.update_of_ne (by omega), Function.update_self]

section Add

variable {s s' : LinkedPool} {size : ℕ} {first second : PallocAnswer}

theorem cleanupAdd_some {clean : ℕ}
    (h : sgxPoolCleanupAdd s size first second = (some clean, s')) :
    ∃ pool, sgxPalloc s.pool sizeofPoolCleanup first.alloc first.mem = (some clean, pool) ∧
      Linked s s' clean ∧
      (size = 0 ∧ s'.pool = pool ∨ size ≠ 0 ∧
        sgxPalloc pool size second.alloc second.mem =
          (some (s'.memory (dataAt clean)), s'.pool)) := by
  rw [sgxPoolCleanupAdd, LinkedPool.palloc] at h
  rcases hfirst : sgxPalloc s.pool sizeofPoolCleanup first.alloc first.mem with ⟨_ | node, pool⟩
  · rw [hfirst] at h
    cases h
  · rw [hfirst] at h
    dsimp only at h
    split_ifs at h with hsize
    · cases h
      exact ⟨pool, rfl, linkCleanup_linked s pool _ 0, .inl ⟨hsize, rfl⟩⟩
    · rw [LinkedPool.palloc] at h
      dsimp only at h
      rcases hsecond : sgxPalloc pool size second.alloc second.mem with ⟨_ | data, pool'⟩
      · rw [hsecond] at h
        cases h
      · rw [hsecond] at h
        cases h
        refine ⟨pool, rfl, linkCleanup_linked s pool' _ data, .inr ⟨hsize, ?_⟩⟩
        rw [linkCleanup_data]
        exact hsecond

theorem cleanupAdd_none (h : sgxPoolCleanupAdd s size first second = (none, s')) :
    s'.cleanup = s.cleanup ∧
      (sgxPalloc s.pool sizeofPoolCleanup first.alloc first.mem = (none, s'.pool) ∧
          s'.memory = s.memory ∨
        ∃ clean pool, sgxPalloc s.pool sizeofPoolCleanup first.alloc first.mem =
            (some clean, pool) ∧ size ≠ 0 ∧
          sgxPalloc pool size second.alloc second.mem = (none, s'.pool) ∧
          ∀ w, w < clean ∨ clean + sizeofPoolCleanup ≤ w → s'.memory w = s.memory w) := by
  rw [sgxPoolCleanupAdd, LinkedPool.palloc] at h
  rcases hfirst : sgxPalloc s.pool sizeofPoolCleanup first.alloc first.mem with ⟨_ | node, pool⟩
  · rw [hfirst] at h
    cases h
    exact ⟨rfl, .inl ⟨rfl, rfl⟩⟩
  · rw [hfirst] at h
    dsimp only at h
    split_ifs at h with hsize
    · cases h
    · rw [LinkedPool.palloc] at h
      dsimp only at h
      rcases hsecond : sgxPalloc pool size second.alloc second.mem with ⟨_ | data, pool'⟩
      · rw [hsecond] at h
        cases h
        refine ⟨rfl, .inr ⟨node, pool, rfl, hsize, hsecond, fun w hw => ?_⟩⟩
        simp only [sizeofPoolCleanup] at hw
        simp only [LinkedPool.store, dataAt]
        rw [Function.update_of_ne (by omega)]
      · rw [hsecond] at h
        cases h

end Add

def registration (handler data : ℕ) : List (ℕ × Option ℕ) :=
  (pointer handler).toList.map fun handler => (handler, pointer data)

theorem pointer_of_ne {word : ℕ} (h : word ≠ 0) : pointer word = some word := if_neg h

theorem registration_eq_nil_iff (handler data : ℕ) : registration handler data = [] ↔ handler = 0 := by
  constructor
  · intro h
    by_contra hne
    rw [registration, pointer_of_ne hne] at h
    cases h
  · rintro rfl
    rfl

def pending (memory : ℕ → ℕ) (nodes : List ℕ) : List (ℕ × Option ℕ) :=
  nodes.flatMap fun clean => registration (memory clean) (memory (dataAt clean))

def PoolEvent.called : PoolEvent → Option (ℕ × Option ℕ)
  | .handler h data => some (h, data)
  | _ => none

def handlersCalled (events : List PoolEvent) : List (ℕ × Option ℕ) :=
  events.filterMap PoolEvent.called

structure CleanupCall where
  state : LinkedPool
  size : ℕ
  first : PallocAnswer
  second : PallocAnswer

def CleanupCall.Fresh (call : CleanupCall) (regions : List (Span ℕ)) : Prop :=
  FreshAnswer call.state.pool regions sizeofPoolCleanup call.first ∧
    ∀ clean pool, sgxPalloc call.state.pool sizeofPoolCleanup call.first.alloc call.first.mem =
      (some clean, pool) → call.size ≠ 0 →
      FreshAnswer pool (nodeSpan clean :: regions) call.size call.second

def CleanupCall.InOwnBlock (call : CleanupCall) : Prop :=
  PallocCall.InOwnBlock ⟨call.state.pool, sizeofPoolCleanup, call.first⟩ ∧
    ∀ clean pool, sgxPalloc call.state.pool sizeofPoolCleanup call.first.alloc call.first.mem =
      (some clean, pool) → call.size ≠ 0 →
      PallocCall.InOwnBlock ⟨pool, call.size, call.second⟩

def dataSpan (s : LinkedPool) (clean size : ℕ) : List (Span ℕ) :=
  if size = 0 then []
  else [⟨s.memory (dataAt clean), s.memory (dataAt clean) + size⟩]

/-- A run on one pool, with the entries that are linked, the data regions, what was registered, the
events and the calls of `sgx_pool_cleanup_add`. -/
inductive CleanupRun (file sgxPagesize : ℕ) : LinkedPool → List ℕ → List (Span ℕ) →
    List (ℕ × Option ℕ) → List PoolEvent → List CleanupCall → Prop where
  | create {size mem pool} (memory : ℕ → ℕ) : sizeofPool < size →
      sgxCreatePool size sgxPagesize mem = some pool →
      CleanupRun file sgxPagesize ⟨pool, 0, 0, memory⟩ [] [] [] [] []
  | add {s nodes datas registered events calls size first second clean s'} (handler data : ℕ) :
      CleanupRun file sgxPagesize s nodes datas registered events calls →
      CleanupCall.Fresh ⟨s, size, first, second⟩ (nodes.map nodeSpan ++ datas) →
      sgxPoolCleanupAdd s size first second = (some clean, s') →
      CleanupRun file sgxPagesize ((s'.store clean handler).store (dataAt clean) data)
        (clean :: nodes) (dataSpan s' clean size ++ datas) (registration handler data ++ registered)
        events (⟨s, size, first, second⟩ :: calls)
  | addFails {s nodes datas registered events calls size first second s'} :
      CleanupRun file sgxPagesize s nodes datas registered events calls →
      CleanupCall.Fresh ⟨s, size, first, second⟩ (nodes.map nodeSpan ++ datas) →
      sgxPoolCleanupAdd s size first second = (none, s') →
      CleanupRun file sgxPagesize s' nodes datas registered events
        (⟨s, size, first, second⟩ :: calls)
  | write {s nodes datas registered events calls} (memory : ℕ → ℕ) :
      CleanupRun file sgxPagesize s nodes datas registered events calls →
      (∀ w, (∀ d ∈ datas, w < d.start ∨ d.stop ≤ w) → memory w = s.memory w) →
      CleanupRun file sgxPagesize { s with memory := memory } nodes datas registered events calls
  | runFile {s nodes datas registered events calls fd fuel s' called} :
      CleanupRun file sgxPagesize s nodes datas registered events calls →
      sgxPoolRunCleanupFile file s fd fuel = some (s', called) →
      CleanupRun file sgxPagesize s' nodes datas registered (events ++ called) calls

structure CleanupInv (s : LinkedPool) (nodes : List ℕ) (datas : List (Span ℕ))
    (registered : List (ℕ × Option ℕ)) (events : List PoolEvent) : Prop where
  placed : ∃ live, Placed s.pool live (nodes.map nodeSpan ++ datas)
  chain : Chain 0 (fun clean => s.memory (nextAt clean)) s.cleanup nodes
  nodesApart : nodes.Pairwise fun a b => (nodeSpan a).Apart (nodeSpan b)
  datasApart : ∀ d ∈ datas, ∀ clean ∈ nodes, d.Apart (nodeSpan clean)
  once : (handlersCalled events ++ pending s.memory nodes).Perm registered
  unfreed : ∀ e ∈ events, e.freed = none

def SameNode (memory memory' : ℕ → ℕ) (clean : ℕ) : Prop :=
  ∀ w, clean ≤ w → w < clean + sizeofPoolCleanup → memory' w = memory w

theorem pending_congr {memory memory' : ℕ → ℕ} {nodes : List ℕ}
    (h : ∀ clean ∈ nodes, SameNode memory memory' clean) :
    pending memory' nodes = pending memory nodes := by
  apply List.flatMap_congr
  intro clean hclean
  rw [h clean hclean clean (le_refl _) (by simp [sizeofPoolCleanup]),
    h clean hclean (dataAt clean) (by simp [dataAt]) (by simp [dataAt, sizeofPoolCleanup])]

theorem next_congr {memory memory' : ℕ → ℕ} {nodes : List ℕ}
    (h : ∀ clean ∈ nodes, SameNode memory memory' clean) :
    ∀ clean ∈ nodes, memory' (nextAt clean) = memory (nextAt clean) := by
  intro clean hclean
  exact h clean hclean (nextAt clean) (by simp [nextAt]) (by simp [nextAt, sizeofPoolCleanup])

theorem sameNode_of_apart {memory memory' : ℕ → ℕ} {r : Span ℕ} {clean : ℕ}
    (happart : r.Apart (nodeSpan clean))
    (hframe : ∀ w, w < r.start ∨ r.stop ≤ w → memory' w = memory w) :
    SameNode memory memory' clean := by
  intro w hlo hhi
  apply hframe
  rcases happart with hle | hle
  · exact .inr (hle.trans hlo)
  · exact .inl (hhi.trans_le hle)

section Inv

variable {s s' : LinkedPool} {nodes : List ℕ} {datas : List (Span ℕ)}
  {registered : List (ℕ × Option ℕ)} {events : List PoolEvent}

theorem CleanupInv.frame (h : CleanupInv s nodes datas registered events)
    (hplaced : ∃ live, Placed s'.pool live (nodes.map nodeSpan ++ datas))
    (hcleanup : s'.cleanup = s.cleanup)
    (hsame : ∀ clean ∈ nodes, SameNode s.memory s'.memory clean) :
    CleanupInv s' nodes datas registered events := by
  refine ⟨hplaced, ?_, h.nodesApart, h.datasApart, ?_, h.unfreed⟩
  · rw [hcleanup]
    exact h.chain.congr (next_congr hsame)
  · rw [pending_congr hsame]
    exact h.once

theorem CleanupInv.write (h : CleanupInv s nodes datas registered events) {memory : ℕ → ℕ}
    (hframe : ∀ w, (∀ d ∈ datas, w < d.start ∨ d.stop ≤ w) → memory w = s.memory w) :
    CleanupInv { s with memory := memory } nodes datas registered events := by
  refine h.frame h.placed rfl ?_
  intro clean hclean w hlo hhi
  apply hframe
  intro d hd
  rcases h.datasApart d hd clean hclean with hle | hle
  · exact .inr (hle.trans hlo)
  · exact .inl (hhi.trans_le hle)

theorem CleanupInv.addFails (h : CleanupInv s nodes datas registered events) {size : ℕ}
    {first second : PallocAnswer}
    (hfresh : CleanupCall.Fresh ⟨s, size, first, second⟩ (nodes.map nodeSpan ++ datas))
    (hown : CleanupCall.InOwnBlock ⟨s, size, first, second⟩)
    (hcall : sgxPoolCleanupAdd s size first second = (none, s')) :
    CleanupInv s' nodes datas registered events := by
  obtain ⟨live, hplaced⟩ := h.placed
  obtain ⟨hcleanup, ⟨hfirst, hmemory⟩ | ⟨clean, pool, hfirst, hsize, hsecond, hframe⟩⟩ :=
    cleanupAdd_none hcall
  · obtain ⟨hplaced', -⟩ := hplaced.palloc hfresh.1 hown.1 hfirst
    apply h.frame hplaced' hcleanup
    intro node _ w _ _
    rw [hmemory]
  · obtain ⟨⟨live₁, hplaced₁⟩, hregion⟩ := hplaced.palloc hfresh.1 hown.1 hfirst
    obtain ⟨⟨live₂, hplaced₂⟩, -⟩ := hplaced₁.palloc (hfresh.2 clean pool hfirst hsize)
      (hown.2 clean pool hfirst hsize) hsecond
    apply h.frame ⟨live₂, hplaced₂.subset (List.subset_cons_self _ _)⟩ hcleanup
    intro node hnode
    apply sameNode_of_apart _ hframe (r := nodeSpan clean)
    exact (hregion clean rfl).2 _ (List.mem_append_left _ (List.mem_map_of_mem hnode))

theorem pending_cons (memory : ℕ → ℕ) (clean : ℕ) (nodes : List ℕ) :
    pending memory (clean :: nodes) =
      registration (memory clean) (memory (dataAt clean)) ++ pending memory nodes := rfl

theorem CleanupInv.regions (h : CleanupInv s nodes datas registered events) {size : ℕ}
    {first second : PallocAnswer} {clean : ℕ}
    (hfresh : CleanupCall.Fresh ⟨s, size, first, second⟩ (nodes.map nodeSpan ++ datas))
    (hown : CleanupCall.InOwnBlock ⟨s, size, first, second⟩)
    (hcall : sgxPoolCleanupAdd s size first second = (some clean, s')) :
    0 < clean ∧ (∀ r ∈ nodes.map nodeSpan ++ datas, (nodeSpan clean).Apart r) ∧
      (∀ d ∈ dataSpan s' clean size, ∀ r ∈ nodeSpan clean :: (nodes.map nodeSpan ++ datas),
        d.Apart r) ∧
      ∃ live, Placed s'.pool live
        (dataSpan s' clean size ++ nodeSpan clean :: (nodes.map nodeSpan ++ datas)) := by
  obtain ⟨live, hplaced⟩ := h.placed
  obtain ⟨pool, hfirst, -, hdata⟩ := cleanupAdd_some hcall
  obtain ⟨⟨live₁, hplaced₁⟩, hregion⟩ := hplaced.palloc hfresh.1 hown.1 hfirst
  obtain ⟨hpos, hnode⟩ := hregion clean rfl
  refine ⟨hpos, hnode, ?_⟩
  rcases hdata with ⟨hsize, hpool⟩ | ⟨hsize, hsecond⟩
  · rw [dataSpan, if_pos hsize, hpool]
    exact ⟨List.forall_mem_nil _, live₁, hplaced₁⟩
  · obtain ⟨⟨live₂, hplaced₂⟩, hdata⟩ := hplaced₁.palloc (hfresh.2 clean pool hfirst hsize)
      (hown.2 clean pool hfirst hsize) hsecond
    rw [dataSpan, if_neg hsize]
    exact ⟨List.forall_mem_singleton.mpr (hdata _ rfl).2, live₂, hplaced₂⟩

theorem CleanupInv.add (h : CleanupInv s nodes datas registered events) {size : ℕ}
    {first second : PallocAnswer} {clean : ℕ}
    (hfresh : CleanupCall.Fresh ⟨s, size, first, second⟩ (nodes.map nodeSpan ++ datas))
    (hown : CleanupCall.InOwnBlock ⟨s, size, first, second⟩)
    (hcall : sgxPoolCleanupAdd s size first second = (some clean, s')) (handler data : ℕ) :
    CleanupInv ((s'.store clean handler).store (dataAt clean) data) (clean :: nodes)
      (dataSpan s' clean size ++ datas) (registration handler data ++ registered) events := by
  obtain ⟨hpos, hnode, hdata, live, hplaced⟩ := h.regions hfresh hown hcall
  obtain ⟨-, -, hlinked, -⟩ := cleanupAdd_some hcall
  have hframe : ∀ w, w < clean ∨ clean + sizeofPoolCleanup ≤ w →
      ((s'.store clean handler).store (dataAt clean) data).memory w = s.memory w := by
    intro w hw
    have hold := hlinked.frame w hw
    simp only [sizeofPoolCleanup] at hw
    simp only [LinkedPool.store, dataAt]
    rw [Function.update_of_ne (by omega), Function.update_of_ne (by omega)]
    exact hold
  have hsame : ∀ node ∈ nodes, SameNode s.memory
      ((s'.store clean handler).store (dataAt clean) data).memory node := by
    intro node hin
    apply sameNode_of_apart _ hframe (r := nodeSpan clean)
    exact hnode _ (List.mem_append_left _ (List.mem_map_of_mem hin))
  have hnext : ((s'.store clean handler).store (dataAt clean) data).memory (nextAt clean) =
      s.cleanup := by
    rw [← hlinked.next]
    simp only [LinkedPool.store, dataAt, nextAt]
    rw [Function.update_of_ne (by omega), Function.update_of_ne (by omega)]
  have hwords : ((s'.store clean handler).store (dataAt clean) data).memory clean = handler ∧
      ((s'.store clean handler).store (dataAt clean) data).memory (dataAt clean) = data := by
    simp only [LinkedPool.store, dataAt]
    constructor
    · rw [Function.update_of_ne (by omega), Function.update_self]
    · rw [Function.update_self]
  constructor
  · refine ⟨live, hplaced.subset ?_⟩
    intro r hr
    simp only [List.map_cons, List.cons_append, List.mem_cons, List.mem_append] at hr ⊢
    tauto
  · have hcleanup : ((s'.store clean handler).store (dataAt clean) data).cleanup = clean :=
      hlinked.cleanup
    rw [hcleanup]
    exact h.chain.push (Nat.ne_of_gt hpos) hnext (next_congr hsame)
  · apply List.pairwise_cons.mpr
    refine ⟨fun node hin => ?_, h.nodesApart⟩
    exact hnode _ (List.mem_append_left _ (List.mem_map_of_mem hin))
  · intro d hd node hin
    rcases List.mem_append.mp hd with hnew | hold
    · apply hdata d hnew
      rcases List.mem_cons.mp hin with rfl | hin
      · exact List.mem_cons_self
      · exact List.mem_cons_of_mem _ (List.mem_append_left _ (List.mem_map_of_mem hin))
    · rcases List.mem_cons.mp hin with rfl | hin
      · exact (hnode d (List.mem_append_right _ hold)).symm
      · exact h.datasApart d hold node hin
  · rw [pending_cons, hwords.1, hwords.2, pending_congr hsame]
    have hmiddle := List.perm_append_comm_assoc (handlersCalled events)
      (registration handler data) (pending s.memory nodes)
    exact hmiddle.trans (h.once.append_left _)
  · exact h.unfreed

theorem pending_append (memory : ℕ → ℕ) (xs ys : List ℕ) :
    pending memory (xs ++ ys) = pending memory xs ++ pending memory ys := List.flatMap_append

theorem handlersCalled_append (xs ys : List PoolEvent) :
    handlersCalled (xs ++ ys) = handlersCalled xs ++ handlersCalled ys := List.filterMap_append

theorem CleanupInv.runFile (h : CleanupInv s nodes datas registered events) {file fd fuel : ℕ}
    (hfile : file ≠ 0) {called : List PoolEvent}
    (hcall : sgxPoolRunCleanupFile file s fd fuel = some (s', called)) :
    CleanupInv s' nodes datas registered (events ++ called) := by
  obtain ⟨found, hseek, heq⟩ := Option.map_eq_some_iff.mp hcall
  have hfound := h.chain.eq_of_seek hseek
  cases found with
  | none =>
    cases heq
    rw [List.append_nil]
    exact h
  | some clean =>
    cases heq
    have hstop := List.find?_some hfound.symm
    obtain ⟨xs, ys, rfl⟩ := List.append_of_mem (List.mem_of_find?_eq_some hfound.symm)
    rw [isCleanupFile, decide_eq_true_eq] at hstop
    obtain ⟨hxs, hys, hcross⟩ := List.pairwise_append.mp h.nodesApart
    have hframe : ∀ w, w < clean ∨ clean + sizeofPoolCleanup ≤ w →
        (s.store clean 0).memory w = s.memory w := by
      intro w hw
      simp only [sizeofPoolCleanup] at hw
      exact Function.update_of_ne (by omega) _ _
    have hbefore : ∀ node ∈ xs, SameNode s.memory (s.store clean 0).memory node := by
      intro node hnode
      exact sameNode_of_apart (hcross node hnode clean List.mem_cons_self).symm hframe
    have hbehind : ∀ node ∈ ys, SameNode s.memory (s.store clean 0).memory node := by
      intro node hnode
      exact sameNode_of_apart ((List.pairwise_cons.mp hys).1 node hnode) hframe
    have hself : (s.store clean 0).memory clean = 0 := Function.update_self _ _ _
    refine ⟨h.placed, h.chain.congr ?_, h.nodesApart, h.datasApart, ?_, ?_⟩
    · intro node hnode
      rcases List.mem_append.mp hnode with hin | hin
      · exact next_congr hbefore node hin
      rcases List.mem_cons.mp hin with rfl | hin
      · exact Function.update_of_ne (by simp [nextAt]) _ _
      · exact next_congr hbehind node hin
    · have honce := h.once
      have hentry : registration (s.memory clean) (s.memory (dataAt clean)) =
          [(file, pointer (s.memory (dataAt clean)))] := by
        rw [hstop.1, registration, pointer_of_ne hfile]
        rfl
      have hgone : registration ((s.store clean 0).memory clean)
          ((s.store clean 0).memory (dataAt clean)) = [] := by
        rw [hself]
        rfl
      rw [pending_append, pending_cons, hentry] at honce
      rw [pending_append, pending_cons, hgone, pending_congr hbefore, pending_congr hbehind,
        handlersCalled_append, List.append_assoc]
      have hcalled : handlersCalled [.handler file (pointer (s.memory (dataAt clean)))] =
          [(file, pointer (s.memory (dataAt clean)))] := rfl
      refine List.Perm.trans ?_ honce
      apply List.Perm.append_left
      rw [hcalled, List.singleton_append, List.singleton_append, List.nil_append]
      exact List.perm_middle.symm
    · intro e he
      rcases List.mem_append.mp he with hin | hin
      · exact h.unfreed e hin
      · rw [List.mem_singleton.mp hin]
        rfl

theorem CleanupInv.runFile_returns (h : CleanupInv s nodes datas registered events)
    (file fd : ℕ) {fuel : ℕ} (hfuel : nodes.length < fuel) :
    ∃ s' called, sgxPoolRunCleanupFile file s fd fuel = some (s', called) := by
  have hseek : seek 0 (fun clean => s.memory (nextAt clean)) (isCleanupFile file fd s.memory) fuel
      s.cleanup = some (nodes.find? (isCleanupFile file fd s.memory)) := h.chain.seek_eq hfuel
  rw [sgxPoolRunCleanupFile, hseek, Option.map_some]
  exact ⟨_, _, rfl⟩

end Inv

theorem create_placed {size sgxPagesize : ℕ} {mem : Option ℕ} {pool : SgxPool}
    (hsize : sizeofPool < size) (hpool : sgxCreatePool size sgxPagesize mem = some pool) :
    Placed pool [] [] := by
  have hinv := create_inv hsize hpool
  obtain ⟨addr, -, rfl⟩ := Option.map_eq_some_iff.mp hpool
  exact ⟨hinv, rfl, Nat.lt_add_left addr (by decide), List.forall_mem_nil _⟩

theorem CleanupRun.inv {file sgxPagesize : ℕ} (hfile : file ≠ 0) {s : LinkedPool} {nodes : List ℕ}
    {datas : List (Span ℕ)} {registered : List (ℕ × Option ℕ)} {events : List PoolEvent}
    {calls : List CleanupCall}
    (h : CleanupRun file sgxPagesize s nodes datas registered events calls)
    (hown : ∀ call ∈ calls, call.InOwnBlock) : CleanupInv s nodes datas registered events := by
  induction h with
  | create memory hsize hpool =>
    exact ⟨⟨[], create_placed hsize hpool⟩, rfl, List.Pairwise.nil, List.forall_mem_nil _,
      List.Perm.nil, List.forall_mem_nil _⟩
  | add handler data _ hfresh hcall ih =>
    have hinv := ih fun call hin => hown call (List.mem_cons_of_mem _ hin)
    exact hinv.add hfresh (hown _ List.mem_cons_self) hcall handler data
  | addFails _ hfresh hcall ih =>
    have hinv := ih fun call hin => hown call (List.mem_cons_of_mem _ hin)
    exact hinv.addFails hfresh (hown _ List.mem_cons_self) hcall
  | write memory _ hframe ih => exact (ih hown).write hframe
  | runFile _ hcall ih => exact (ih hown).runFile hfile hcall

end Sginx.Pool
