import Sginx.CleanupRuns

namespace Sginx.Pool

open Sginx.Library.LinkedChain Sginx.Library.Regions

structure RunsOnce (registered : List (ℕ × Option ℕ)) (events : List PoolEvent) : Prop where
  once : (handlersCalled events).Perm registered
  before : events.Pairwise fun e f => e.freed ≠ none → f.called = none

theorem handlersCalled_eq_nil {events : List PoolEvent} (h : ∀ e ∈ events, e.called = none) :
    handlersCalled events = [] := List.filterMap_eq_nil_iff.mpr h

theorem freeLarge_called {large : List SgxPoolLarge} {e : PoolEvent} (h : e ∈ freeLarge large) :
    e.called = none := by
  rcases mem_freeLarge h with ⟨_, rfl⟩ | ⟨_, -, rfl⟩ <;> rfl

theorem blocks_called {pool : SgxPool} (hcount : 0 < pool.count) {e : PoolEvent}
    (h : e ∈ .readBlock (pool.addr 0) :: destroyLoop pool pool.count 0) : e.called = none := by
  rcases mem_blocks hcount h with ⟨_, -, rfl⟩ | ⟨_, -, rfl⟩ <;> rfl

theorem destroy_before {pool : SgxPool} (hcount : 0 < pool.count) (debug : Bool)
    (cleanup : List SgxPoolCleanup) :
    (sgxDestroyPool debug pool cleanup).Pairwise fun e f => e.freed ≠ none → f.called = none := by
  apply destroy_pairwise
  · exact fun e f hfreed hne => absurd hfreed hne
  · apply List.pairwise_of_forall_mem_list
    exact fun e _ f hf _ => freeLarge_called hf
  · apply List.pairwise_of_forall_mem_list
    exact fun e _ f hf _ => blocks_called hcount hf
  · exact fun e _ f hf _ => blocks_called hcount hf

theorem handlersCalled_release {pool : SgxPool} (hcount : 0 < pool.count) :
    handlersCalled (freeLarge pool.large ++
      .readBlock (pool.addr 0) :: destroyLoop pool pool.count 0) = [] := by
  apply handlersCalled_eq_nil
  intro e he
  rcases List.mem_append.mp he with hin | hin
  · exact freeLarge_called hin
  · exact blocks_called hcount hin

theorem handlersCalled_runCleanup (memory : ℕ → ℕ) (nodes : List ℕ) :
    handlersCalled (runCleanup (nodes.map (cleanupEntry memory))) = pending memory nodes := by
  induction nodes with
  | nil => rfl
  | cons clean nodes ih =>
    have hcons : runCleanup ((clean :: nodes).map (cleanupEntry memory)) =
        runCleanup [cleanupEntry memory clean] ++ runCleanup (nodes.map (cleanupEntry memory)) := by
      simp [runCleanup]
    rw [hcons, handlersCalled_append, ih, pending_cons]
    congr 1
    simp only [runCleanup, List.flatMap_singleton, cleanupEntry, registration]
    cases pointer (memory clean) with
    | none => rfl
    | some _ => rfl

theorem handlersCalled_debug {pool : SgxPool} (cleanup : List SgxPoolCleanup) :
    handlersCalled (debugEvents pool cleanup) = handlersCalled (runCleanup cleanup) := by
  have hlarge : handlersCalled (logLarge pool.large) = [] := by
    apply handlersCalled_eq_nil
    intro e he
    obtain ⟨entry, -, rfl⟩ := List.mem_map.mp he
    rfl
  have hblocks : handlersCalled (.readBlock (pool.addr 0) :: logLoop pool pool.count 0) = [] := by
    apply handlersCalled_eq_nil
    intro e he
    rcases List.mem_cons.mp he with rfl | hin
    · rfl
    · obtain ⟨_, rfl⟩ := mem_logLoop hin
      rfl
  rw [debugEvents, handlersCalled_append, handlersCalled_append, hlarge, hblocks, List.append_nil,
    List.append_nil]

theorem CleanupInv.destroy {s : LinkedPool} {nodes : List ℕ} {datas : List (Span ℕ)}
    {registered : List (ℕ × Option ℕ)} {events : List PoolEvent}
    (h : CleanupInv s nodes datas registered events) (debug : Bool) :
    ∃ destroyed, (∀ fuel, nodes.length < fuel → s.destroy debug fuel = some destroyed) ∧
      handlersCalled destroyed = (if debug then pending s.memory nodes else []) ∧
      destroyed.Pairwise fun e f => e.freed ≠ none → f.called = none := by
  obtain ⟨live, hplaced⟩ := h.placed
  have hcount : 0 < s.pool.count := by
    rw [hplaced.one]
    exact Nat.one_pos
  have hrelease := handlersCalled_release hcount
  cases debug with
  | false =>
    refine ⟨_, fun fuel _ => rfl, ?_, destroy_before hcount false []⟩
    exact hrelease
  | true =>
    refine ⟨sgxDestroyPool true s.pool (nodes.map (cleanupEntry s.memory)), fun fuel hfuel => ?_,
      ?_, destroy_before hcount true _⟩
    · rw [LinkedPool.destroy, if_pos rfl, h.chain.walk_eq hfuel, Option.map_some]
    · rw [sgxDestroyPool, if_pos rfl, if_pos rfl, handlersCalled_append, hrelease,
        handlersCalled_debug, handlersCalled_runCleanup, List.append_nil]

theorem pending_eq_nil_iff (memory : ℕ → ℕ) (nodes : List ℕ) :
    pending memory nodes = [] ↔ ∀ clean ∈ nodes, memory clean = 0 := by
  rw [pending, List.flatMap_eq_nil_iff]
  exact forall₂_congr fun clean _ => registration_eq_nil_iff _ _

theorem cleanup_runs_once_iff {file sgxPagesize : ℕ} (hfile : file ≠ 0) {s : LinkedPool}
    {nodes : List ℕ} {datas : List (Span ℕ)} {registered : List (ℕ × Option ℕ)}
    {events : List PoolEvent} {calls : List CleanupCall}
    (h : CleanupRun file sgxPagesize s nodes datas registered events calls)
    (hown : ∀ call ∈ calls, call.InOwnBlock) (debug : Bool) :
    ∃ destroyed, (∀ fuel, nodes.length < fuel → s.destroy debug fuel = some destroyed) ∧
      (RunsOnce registered (events ++ destroyed) ↔
        debug = true ∨ ∀ clean ∈ nodes, s.memory clean = 0) := by
  have hinv := h.inv hfile hown
  obtain ⟨destroyed, hdestroy, hcalled, hbefore⟩ := hinv.destroy debug
  refine ⟨destroyed, hdestroy, ?_⟩
  have hpairwise : (events ++ destroyed).Pairwise fun e f => e.freed ≠ none → f.called = none := by
    apply List.pairwise_append.mpr
    refine ⟨?_, hbefore, ?_⟩
    · apply List.pairwise_of_forall_mem_list
      exact fun e he f _ hne => absurd (hinv.unfreed e he) hne
    · exact fun e he f _ hne => absurd (hinv.unfreed e he) hne
  have honce : (handlersCalled (events ++ destroyed)).Perm registered ↔
      debug = true ∨ pending s.memory nodes = [] := by
    rw [handlersCalled_append, hcalled]
    cases debug with
    | true => exact iff_of_true hinv.once (.inl rfl)
    | false =>
      rw [if_neg Bool.false_ne_true, List.append_nil]
      constructor
      · intro hperm
        have hlen := hinv.once.length_eq
        rw [List.length_append, hperm.length_eq] at hlen
        exact .inr (List.length_eq_zero_iff.mp (by omega))
      · rintro (hdebug | hnil)
        · cases hdebug
        · have hperm := hinv.once
          rwa [hnil, List.append_nil] at hperm
  rw [← pending_eq_nil_iff, ← honce]
  exact ⟨fun hruns => hruns.once, fun hperm => ⟨hperm, hpairwise⟩⟩

theorem fresh_of_none (pool : SgxPool) (regions : List (Span ℕ)) (size : ℕ) :
    FreshAnswer pool regions size ⟨none, none⟩ := ⟨nofun, nofun, nofun, nofun, nofun⟩

theorem one_entry_run : ∃ s calls, CleanupRun 1 4096 s [4176] [] [(7, none)] [] calls ∧
    ∀ call ∈ calls, call.InOwnBlock := by
  have hcreate : CleanupRun 1 4096 _ [] [] [] [] [] := .create (fun _ => 0) (by decide)
    (Eq.refl (sgxCreatePool 1024 4096 (some 4096)))
  have hadd := hcreate.add 7 0 ⟨fresh_of_none _ _ _, fun _ _ _ hne => absurd rfl hne⟩
    (Eq.refl (sgxPoolCleanupAdd _ 0 ⟨none, none⟩ ⟨none, none⟩))
  refine ⟨_, _, hadd, ?_⟩
  intro call hcall
  rw [List.mem_singleton.mp hcall]
  refine ⟨.inl ⟨rfl, by decide⟩, fun _ _ _ hne => absurd rfl hne⟩

theorem cleanup_runs_once_iff_one_entry : ∃ s calls,
    CleanupRun 1 4096 s [4176] [] [(7, none)] [] calls ∧ (∀ call ∈ calls, call.InOwnBlock) ∧
      ∃ destroyed, (∀ fuel, 1 < fuel → s.destroy true fuel = some destroyed) ∧
        (RunsOnce [(7, none)] ([] ++ destroyed) ↔
          true = true ∨ ∀ clean ∈ [4176], s.memory clean = 0) := by
  obtain ⟨s, calls, hrun, hown⟩ := one_entry_run
  exact ⟨s, calls, hrun, hown, cleanup_runs_once_iff (by decide) hrun hown true⟩

theorem handler_is_skipped : ∃ s calls,
    CleanupRun 1 4096 s [4176] [] [(7, none)] [] calls ∧ (∀ call ∈ calls, call.InOwnBlock) ∧
      ∃ destroyed, (∀ fuel, s.destroy false fuel = some destroyed) ∧
        ¬ RunsOnce [(7, none)] ([] ++ destroyed) := by
  obtain ⟨s, calls, hrun, hown⟩ := one_entry_run
  refine ⟨s, calls, hrun, hown, _, fun fuel => rfl, fun hruns => ?_⟩
  obtain ⟨live, hplaced⟩ := (hrun.inv (by decide) hown).placed
  have hnone : handlersCalled (sgxDestroyPool false s.pool []) = [] := by
    apply handlersCalled_release
    rw [hplaced.one]
    exact Nat.one_pos
  have hlen := hruns.once.length_eq
  rw [List.nil_append, hnone] at hlen
  exact absurd hlen (by decide)

end Sginx.Pool
