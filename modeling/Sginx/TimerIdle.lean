import Sginx.EventLoop
import Sginx.TimerFind
import Sginx.Library.Transition

namespace Sginx.Timer

open Sginx.PriorityQueue Sginx.Library.ImplicitHeap Sginx.Library Sginx.Library.Transition

/-- `late` is how long after the timeout the process goes on, and `find` and `expire` are what the
allocator does in the two calls. -/
structure IdleRound where
  late : ℕ
  find : ℕ → Option (ℕ → ℕ)
  expire : ℕ → Option (ℕ → ℕ)

structure IdleLoop where
  timers : Timers
  now : ℕ

/-- With a timeout of -1 `epoll_wait` does not come back. -/
def idleRound (w : IdleLoop) (r : IdleRound) : Option IdleLoop := do
  let (time, s) ← sgxTimerFind w.timers (fun _ => w.now) r.find
  if time < 0 then none
  else
    let now := w.now + time.toNat + r.late
    let s ← sgxHandleExpireTimers s (fun _ => now) r.expire
    some ⟨s, now⟩

theorem idleRound_main {w w' : IdleLoop} {r : IdleRound} (h : idleRound w r = some w')
    {server : EventLoop.Server} (hserver : server.timers = w.timers) :
    ∃ (r' : EventLoop.Round) (server' : EventLoop.Server), r'.events = [] ∧
      EventLoop.round server r' = some server' ∧ server'.timers = w'.timers := by
  obtain ⟨⟨time, s⟩, hfind, h⟩ := Option.bind_eq_some_iff.mp h
  dsimp only at h
  split_ifs at h
  obtain ⟨s', hexpire, h⟩ := Option.bind_eq_some_iff.mp h
  obtain rfl := Option.some.inj h
  obtain ⟨closes, freed, hclose⟩ := EventLoop.closeConns_eq { server with timers := s' }
    ((EventLoop.calledSince s s').map fun node => (s'.nodes node).request) fun _ => 0
  refine ⟨⟨fun _ => w.now, r.find, fun _ => w.now + time.toNat + r.late, r.expire, fun _ => 0, []⟩,
    { server with timers := s', closes := closes, freed := freed }, rfl, ?_, rfl⟩
  simp only [EventLoop.round, hserver, hfind, Option.bind_eq_bind, Option.bind_some,
    EventLoop.handleExpireTimers, hexpire, EventLoop.handleEvents]
  exact congrArg some hclose

theorem idle_main {rounds : List IdleRound} {w w' : IdleLoop}
    (hrun : execute idleRound w rounds = some w') {server : EventLoop.Server}
    (hserver : server.timers = w.timers) : ∃ rs server', rs.length = rounds.length ∧
      (∀ r ∈ rs, r.events = []) ∧ execute EventLoop.round server rs = some server' ∧
      server'.timers = w'.timers := by
  induction rounds generalizing w server with
  | nil =>
    obtain rfl := Option.some.inj hrun
    exact ⟨[], server, rfl, List.forall_mem_nil _, rfl, hserver⟩
  | cons r rounds ih =>
    obtain ⟨w₁, hround, hrun⟩ := Option.bind_eq_some_iff.mp hrun
    obtain ⟨r', server₁, hevents, hround', hserver₁⟩ := idleRound_main hround hserver
    obtain ⟨rs, server', hlength, hall, hrun', htimers⟩ := ih hrun hserver₁
    refine ⟨r' :: rs, server', congrArg (· + 1) hlength, List.forall_mem_cons.mpr ⟨hevents, hall⟩,
      ?_, htimers⟩
    rw [execute, hround', Option.bind_some, hrun']

theorem wait_of_near {first key now : ℕ} (hkey : first ≤ key) (hnow : first ≤ now)
    (hkey' : key < first + 2 ^ 31) (hnow' : now < first + 2 ^ 31) (hmod : now < sizeMod) :
    max (cInt (sizeSub key now)) 0 = (key - now : ℕ) := by
  by_cases hdue : key ≤ now
  · have hfits : WaitFits key now := by
      rw [WaitFits, if_pos hdue, Nat.mod_eq_of_lt (by omega)]
      omega
    rw [((wait_fits_iff hmod).mpr hfits).1 hdue, Nat.sub_eq_zero_of_le hdue]
    rfl
  · have hle : now ≤ key := by omega
    rw [wait_eq, sizeSub_of_le hle, Nat.mod_eq_of_lt (by omega), if_pos (by omega)]

def Quiet (time : ℕ) (s : Timers) : Prop :=
  stored s.sgxTimerQ = 0 ∨ s.sgxTimerQ.node 1 ∈ live s ∧ time < (s.nodes (s.sgxTimerQ.node 1)).key

theorem expireLoop_quiet (fuel : ℕ) {s s' : Timers} (h : TimersInv s) (ho : TimersOrdered s)
    (time : ℕ) (mem : ℕ → Option (ℕ → ℕ))
    (hloop : expireLoop fuel s (fun _ => time) mem = some s') : Quiet time s' := by
  induction fuel generalizing s mem with
  | zero => cases hloop
  | succ fuel ih =>
    by_cases h0 : 0 < s.sgxTimerQ.size
    swap
    · rw [expireLoop, empty_iff.mpr h0, if_pos rfl] at hloop
      obtain rfl := Option.some.inj hloop
      exact .inl (stored_eq_zero (Nat.eq_zero_of_not_pos h0))
    rw [expireLoop_round fuel h.wf h0] at hloop
    split_ifs at hloop with hdel hkey
    · obtain ⟨s₁, hpop, h₁, ho₁, -⟩ := pop_deleted h ho h0 hdel time (mem 0)
      rw [hpop, Option.bind_some] at hloop
      exact ih h₁ ho₁ _ hloop
    · obtain rfl := Option.some.inj hloop
      exact .inr ⟨root_live h0 (not_not.mp hdel), hkey⟩
    · obtain ⟨s₁, hpop, h₁, ho₁, -⟩ := pop_called h ho h0 time (mem 0)
      rw [hpop, Option.bind_some] at hloop
      exact ih h₁ ho₁ _ hloop

theorem expire_root {s s' : Timers} (h : TimersInv s) (ho : TimersOrdered s)
    (h0 : 0 < s.sgxTimerQ.size) {time : ℕ} (hkey : (s.nodes (s.sgxTimerQ.node 1)).key ≤ time)
    {mem : ℕ → Option (ℕ → ℕ)} (hexpire : sgxHandleExpireTimers s (fun _ => time) mem = some s') :
    s.sgxTimerQ.node 1 ∉ live s' := by
  have hleaves {s₁ : Timers} (hinv : TimersInv s₁) (hordered : TimersOrdered s₁)
      (hsize : s₁.sgxTimerQ.size = s.sgxTimerQ.size - 1)
      (hstored : s.sgxTimerQ.node 1 ::ₘ stored s₁.sgxTimerQ = stored s.sgxTimerQ)
      (hloop : expireLoop s.sgxTimerQ.size s₁ (fun _ => time) (fun i => mem (i + 1)) = some s') :
      s.sgxTimerQ.node 1 ∉ live s' := by
    obtain ⟨s₂, hloop', -, -, hsame, -⟩ :=
      expireLoop_spec s.sgxTimerQ.size hinv hordered (by omega) (fun _ => time)
        fun i => mem (i + 1)
    obtain rfl := Option.some.inj (hloop.symm.trans hloop')
    have hnodup := h.nodup
    rw [← hstored, Multiset.nodup_cons] at hnodup
    exact fun hin => hnodup.1 (hsame.stored _ (mem_live.mp hin).1)
  rw [sgxHandleExpireTimers, expireLoop_round _ h.wf h0] at hexpire
  split_ifs at hexpire with hdel hlate
  · obtain ⟨s₁, hpop, h₁, ho₁, -, hsize, hstored⟩ := pop_deleted h ho h0 hdel time (mem 0)
    rw [hpop, Option.bind_some] at hexpire
    exact hleaves h₁ ho₁ hsize hstored hexpire
  · exact absurd hkey (Nat.not_le.mpr hlate)
  · obtain ⟨s₁, hpop, h₁, ho₁, -, hsize, hstored⟩ := pop_called h ho h0 time (mem 0)
    rw [hpop, Option.bind_some] at hexpire
    exact hleaves h₁ ho₁ hsize hstored hexpire

theorem findLoop_next (fuel : ℕ) {s s' : Timers} (now : ℕ → ℕ) (mem : ℕ → Option (ℕ → ℕ))
    {time : ℤ} (h : findLoop fuel s now mem = some (time, s')) : s'.next = s.next := by
  apply findLoop_preserves (P := fun found => found.next = s.next) _ _ fuel rfl now mem h
  · exact fun found now hnext => hnext
  · intro found found₁ node mem hnext _ _ hpop
    obtain ⟨⟨result, q⟩, -, hpop⟩ := Option.bind_eq_some_iff.mp hpop
    rw [← Option.some.inj hpop]
    exact hnext

theorem sgxTimerFind_spec {s : Timers} (h : TimersInv s) (ho : TimersOrdered s) (now : ℕ → ℕ)
    (mem : ℕ → Option (ℕ → ℕ)) : ∃ time s', sgxTimerFind s now mem = some (time, s') ∧
      TimersInv s' ∧ TimersOrdered s' ∧ s'.next = s.next ∧ Found s s' ∧ Stopped s' now time := by
  obtain ⟨time, s', hfind, hinv, hordered⟩ := findLoop_spec _ h ho (Nat.lt_succ_self _) now mem
  obtain ⟨time', s'', hfind', hfound, hstopped⟩ :=
    findLoop_returns _ h.wf (Nat.lt_succ_self _) now mem
  obtain ⟨rfl, rfl⟩ := Prod.mk.inj (Option.some.inj (hfind.symm.trans hfind'))
  exact ⟨time, s', hfind, hinv, hordered, findLoop_next _ now mem hfind, hfound, hstopped⟩

structure Idle (s : Timers) (start last : ℕ) (w : IdleLoop) : Prop where
  inv : TimersInv w.timers
  ordered : TimersOrdered w.timers
  nodes : w.timers.nodes = s.nodes
  next : w.timers.next = s.next
  still : ∀ a ∈ live w.timers, a ∈ live s
  kept : ∀ a ∈ live s, w.now < (s.nodes a).key → a ∈ live w.timers
  passed : start ≤ w.now
  clock : live w.timers ≠ 0 → w.now ≤ max start last

theorem Idle.refl {s : Timers} (h : TimerRun s) (start last : ℕ) :
    Idle s start last ⟨s, start⟩ := by
  obtain ⟨hinv, hordered⟩ := run_inv h
  exact ⟨hinv, hordered, rfl, rfl, fun _ ha => ha, fun _ ha _ => ha, le_refl start,
    fun _ => le_max_left start last⟩

theorem nodup_live {s : Timers} (h : TimersInv s) : (live s).Nodup := h.nodup.filter _

theorem card_live_lt {s s' : Timers} (h' : TimersInv s') {a : ℕ}
    (hsub : ∀ b ∈ live s', b ∈ live s) (ha : a ∈ live s) (hgone : a ∉ live s') :
    (live s').card < (live s).card := by
  apply Multiset.card_lt_card
  apply lt_of_le_of_ne
  · exact (Multiset.le_iff_subset (nodup_live h')).mpr fun b hb => hsub b hb
  · rintro heq
    rw [heq] at hgone
    exact hgone ha

theorem idle_expire {s : Timers} {start last : ℕ} {w : IdleLoop} (h : Idle s start last w)
    (hkeys : ∀ a ∈ live s, (s.nodes a).key ≤ last) (hclock : w.now ≤ max start last)
    (h0 : 0 < w.timers.sgxTimerQ.size)
    (hdel : (w.timers.nodes (w.timers.sgxTimerQ.node 1)).del = 0) (late : ℕ)
    (mem : ℕ → Option (ℕ → ℕ)) :
    let now := max w.now (w.timers.nodes (w.timers.sgxTimerQ.node 1)).key + late
    ∃ s', sgxHandleExpireTimers w.timers (fun _ => now) mem = some s' ∧
      Idle s start last ⟨s', now⟩ ∧ (live s').card < (live w.timers).card ∧
      now ≤ max start last + late := by
  intro now
  have hroot := root_live h0 hdel
  have hlast := hkeys _ (h.still _ hroot)
  rw [← h.nodes] at hlast
  obtain ⟨s', hexpire, hinv, hordered, hsame, hexpired⟩ :=
    expireLoop_spec _ h.inv h.ordered (Nat.lt_succ_self _) (fun _ => now) mem
  have hsub (a : ℕ) (ha : a ∈ live s') : a ∈ live w.timers := by
    obtain ⟨hstored, hdel'⟩ := mem_live.mp ha
    rw [hsame.nodes] at hdel'
    exact mem_live.mpr ⟨hsame.stored a hstored, hdel'⟩
  have hkeys' (a : ℕ) (ha : a ∈ live s') : (s'.nodes a).key ≤ last := by
    rw [hsame.nodes, h.nodes]
    exact hkeys a (h.still a (hsub a ha))
  have hdue : (w.timers.nodes (w.timers.sgxTimerQ.node 1)).key ≤ now :=
    (le_max_right _ _).trans (Nat.le_add_right _ late)
  have hpast : w.now ≤ now := (le_max_left _ _).trans (Nat.le_add_right _ late)
  have hgone := expire_root h.inv h.ordered h0 hdue hexpire
  refine ⟨s', hexpire, ⟨hinv, hordered, hsame.nodes.trans h.nodes, hsame.next.trans h.next,
    fun a ha => h.still a (hsub a ha), ?_, h.passed.trans hpast, ?_⟩,
    card_live_lt hinv hsub hroot hgone, by omega⟩
  · intro a ha hkey
    obtain ⟨hstored, hdel'⟩ := mem_live.mp (h.kept a ha (hpast.trans_lt hkey))
    rw [← h.nodes] at hkey
    rw [← hsame.nodes] at hdel'
    refine mem_live.mpr ⟨(hexpired now fun _ => rfl).1 a hstored ?_ hkey, hdel'⟩
    rwa [← hsame.nodes]
  · intro hlive
    rcases expireLoop_quiet _ h.inv h.ordered now mem hexpire with hnone | ⟨hroot', hlater⟩
    · rw [live, hnone] at hlive
      exact absurd rfl hlive
    · exact (hlater.le.trans (hkeys' _ hroot')).trans (le_max_right start last)

section span

variable {s : Timers} {start first last : ℕ}

theorem idleRound_waits {w : IdleLoop} (h : Idle s start last w) (hnone : live w.timers = 0)
    (r : IdleRound) : idleRound w r = none := by
  obtain ⟨time, s₁, hfind, -, -, -, hfound, hstopped⟩ :=
    sgxTimerFind_spec h.inv h.ordered (fun _ => w.now) r.find
  cases hstopped with
  | empty =>
    simp only [idleRound, hfind, Option.bind_eq_bind, Option.bind_some]
    exact if_pos (by decide)
  | root i h0 hdel =>
    have hroot := root_live h0 hdel
    rw [hfound.live, hnone] at hroot
    exact absurd hroot (Multiset.notMem_zero _)

theorem Idle.called {w : IdleLoop} (h : Idle s start last w) {a : ℕ} (hs : TimersInv s)
    (ha : a ∈ live s) : w.timers.calls.count a =
      if a ∈ stored w.timers.sgxTimerQ then 0 else (s.nodes a).dueCalls := by
  obtain ⟨hstored, hdel⟩ := mem_live.mp ha
  split_ifs with hin
  · exact h.inv.waiting a hin
  · rw [← h.nodes] at hdel ⊢
    apply h.inv.gone a _ hin hdel
    rw [h.next]
    exact hs.below a hstored

theorem Idle.gone_iff {w : IdleLoop} (h : Idle s start last w) :
    live w.timers = 0 ↔ ∀ a ∈ live s, a ∉ stored w.timers.sgxTimerQ := by
  constructor
  · intro hnone a ha hin
    have hlive : a ∈ live w.timers := by
      refine mem_live.mpr ⟨hin, ?_⟩
      rw [h.nodes]
      exact (mem_live.mp ha).2
    rw [hnone] at hlive
    exact absurd hlive (Multiset.notMem_zero a)
  · intro hall
    apply Multiset.eq_zero_of_forall_notMem
    intro a ha
    exact hall a (h.still a ha) (mem_live.mp ha).1

variable (hkeys : ∀ a ∈ live s, first ≤ (s.nodes a).key ∧ (s.nodes a).key ≤ last)
  (hstart : first ≤ start) (hspan : max start last < first + 2 ^ 31)
  (hmod : max start last < sizeMod)

include hkeys hstart hspan hmod

theorem idleRound_next {w : IdleLoop} (h : Idle s start last w) (hlive : live w.timers ≠ 0)
    (r : IdleRound) : ∃ w', idleRound w r = some w' ∧ Idle s start last w' ∧
      (live w'.timers).card < (live w.timers).card ∧ w'.now ≤ max start last + r.late := by
  have hnow := h.clock hlive
  have hpassed := h.passed
  obtain ⟨time, s₁, hfind, hinv, hordered, hnext, hfound, hstopped⟩ :=
    sgxTimerFind_spec h.inv h.ordered (fun _ => w.now) r.find
  rw [← hfound.live] at hlive
  have h₁ : Idle s start last ⟨s₁, w.now⟩ := by
    refine ⟨hinv, hordered, hfound.nodes.trans h.nodes, hnext.trans h.next, ?_, ?_, hpassed,
      fun _ => hnow⟩
    · rw [hfound.live]
      exact h.still
    · rw [hfound.live]
      exact h.kept
  cases hstopped with
  | empty hnone =>
    rw [live, hnone] at hlive
    exact absurd rfl hlive
  | root i h0 hdel =>
    obtain ⟨hfirst, hlast⟩ := hkeys _ (h₁.still _ (root_live h0 hdel))
    rw [← h₁.nodes] at hfirst hlast
    have hwait := wait_of_near hfirst (hstart.trans hpassed) (by omega) (by omega)
      (hnow.trans_lt hmod)
    obtain ⟨s', hexpire, hidle, hcard, hlate⟩ :=
      idle_expire h₁ (fun a ha => (hkeys a ha).2) hnow h0 hdel r.late r.expire
    rw [hfound.live] at hcard
    refine ⟨_, ?_, hidle, hcard, hlate⟩
    have hclock : w.now + ((s₁.nodes (s₁.sgxTimerQ.node 1)).key - w.now) + r.late =
        max w.now (s₁.nodes (s₁.sgxTimerQ.node 1)).key + r.late := by omega
    simp only [idleRound, hfind, hwait, Option.bind_eq_bind, Option.bind_some, Int.toNat_natCast,
      hclock, hexpire]
    exact if_neg (by omega)

theorem idleRound_some {w w' : IdleLoop} {r : IdleRound} (h : Idle s start last w)
    (hround : idleRound w r = some w') : Idle s start last w' ∧
      (live w'.timers).card < (live w.timers).card ∧ w'.now ≤ max start last + r.late := by
  have hlive : live w.timers ≠ 0 := by
    intro hnone
    rw [idleRound_waits h hnone] at hround
    cases hround
  obtain ⟨w'', hround', hnext⟩ := idleRound_next hkeys hstart hspan hmod h hlive r
  obtain rfl := Option.some.inj (hround.symm.trans hround')
  exact hnext

theorem idle_ranked :
    Transition.Ranked idleRound (Idle s start last) fun w => (live w.timers).card where
  keeps _ _ _ h hround := (idleRound_some hkeys hstart hspan hmod h hround).1
  lowers _ _ _ h hround := (idleRound_some hkeys hstart hspan hmod h hround).2.1

theorem idle_clock {late : ℕ} {rounds : List IdleRound} (hlate : ∀ r ∈ rounds, r.late ≤ late)
    {w w' : IdleLoop} (h : Idle s start last w) (hclock : w.now ≤ max start last + late)
    (hrun : execute idleRound w rounds = some w') : w'.now ≤ max start last + late := by
  induction rounds generalizing w with
  | nil =>
    obtain rfl := Option.some.inj hrun
    exact hclock
  | cons r rounds ih =>
    rw [List.forall_mem_cons] at hlate
    obtain ⟨w₁, hround, hrun⟩ := Option.bind_eq_some_iff.mp hrun
    obtain ⟨h₁, -, hclock₁⟩ := idleRound_some hkeys hstart hspan hmod h hround
    exact ih hlate.2 h₁ (hclock₁.trans (Nat.add_le_add_left hlate.1 _)) hrun

theorem idle_loop_calls_all (h : TimerRun s) {rounds : List IdleRound} {w : IdleLoop}
    (hrun : execute idleRound ⟨s, start⟩ rounds = some w) :
    rounds.length ≤ (live s).card ∧
      (∀ a ∈ live s, w.timers.calls.count a =
        if a ∈ stored w.timers.sgxTimerQ then 0 else (s.nodes a).dueCalls) ∧
      (∀ a ∈ live s, a ∉ stored w.timers.sgxTimerQ → (s.nodes a).key ≤ w.now) ∧
      (∀ late, (∀ r ∈ rounds, r.late ≤ late) → w.now ≤ max start last + late) ∧
      (Stuck idleRound w ↔ ∀ a ∈ live s, a ∉ stored w.timers.sgxTimerQ) ∧
      ∀ server : EventLoop.Server, server.timers = s → ∃ rs server', rs.length = rounds.length ∧
        (∀ r ∈ rs, r.events = []) ∧ execute EventLoop.round server rs = some server' ∧
        server'.timers = w.timers := by
  have hidle := Idle.refl h start last
  obtain ⟨hidle', hlength⟩ :=
    (idle_ranked hkeys hstart hspan hmod).execute_length hidle hrun
  have hs := (run_inv h).1
  refine ⟨(Nat.le_add_right _ _).trans hlength, fun a ha => hidle'.called hs ha, ?_, ?_, ?_,
    fun server hserver => idle_main hrun hserver⟩
  · intro a ha hgone
    by_contra hearly
    exact hgone (mem_live.mp (hidle'.kept a ha (Nat.lt_of_not_le hearly))).1
  · intro late hlate
    apply idle_clock hkeys hstart hspan hmod hlate hidle _ hrun
    exact (le_max_left start last).trans (Nat.le_add_right _ late)
  · rw [← hidle'.gone_iff]
    constructor
    · intro hstuck
      by_contra hlive
      obtain ⟨w', hround, -⟩ := idleRound_next hkeys hstart hspan hmod hidle' hlive
        ⟨0, fun _ => none, fun _ => none⟩
      rw [hstuck] at hround
      cases hround
    · exact fun hnone r => idleRound_waits hidle' hnone r

end span

def promptRound : IdleRound := ⟨0, fun _ => none, fun _ => none⟩

theorem third_timer_waits : ∃ s w, TimerRun s ∧
    (∀ a ∈ live s, 0 ≤ (s.nodes a).key ∧ (s.nodes a).key ≤ 6) ∧ (s.nodes 2).key = 2 ∧
    execute idleRound ⟨s, 0⟩ [promptRound, promptRound] = some w ∧
    w.timers.calls = [2, 1, 0] ∧ w.now = 5 := by
  have hrun := TimerRun.add (TimerRun.add (TimerRun.add (TimerRun.add (TimerRun.init (Eq.refl
    (sgxTimerInit (fun _ => ⟨0, 0, none, 0⟩) 0 (some fun _ => 0)))) (Eq.refl
    (sgxTimerAdd _ 0 1 (some 0) 0 none))) (Eq.refl (sgxTimerAdd _ 1 5 (some 0) 0 none))) (Eq.refl
    (sgxTimerAdd _ 2 2 (some 0) 0 none))) (Eq.refl (sgxTimerAdd _ 3 6 (some 0) 0 none))
  refine ⟨_, _, hrun, ?_, rfl, Eq.refl _, rfl, rfl⟩
  intro a ha
  refine ⟨Nat.zero_le _, ?_⟩
  have hlt : a < 4 := (run_inv hrun).1.below a (mem_live.mp ha).1
  clear ha
  interval_cases a
  · decide
  · decide
  · decide
  · decide

theorem idle_loop_calls_all_late : ∃ s w, TimerRun s ∧ (s.nodes 2).key = 2 ∧
    execute idleRound ⟨s, 0⟩ [promptRound, promptRound] = some w ∧
    w.timers.calls = [2, 1, 0] ∧ w.now = 5 ∧ w.now ≤ max 0 6 + 0 := by
  obtain ⟨s, w, hrun, hkeys, hkey, hexecute, hcalls, hnow⟩ := third_timer_waits
  obtain ⟨-, -, -, hclock, -⟩ :=
    idle_loop_calls_all hkeys (le_refl 0) (by decide) (by decide) hrun hexecute
  refine ⟨s, w, hrun, hkey, hexecute, hcalls, hnow, hclock 0 ?_⟩
  intro r hr
  rw [List.mem_cons, List.mem_singleton, or_self] at hr
  rw [hr, promptRound]

end Sginx.Timer
