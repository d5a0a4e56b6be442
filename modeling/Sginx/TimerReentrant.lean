import Sginx.TimerFind

namespace Sginx.Timer

open Sginx.PriorityQueue Sginx.Library.ImplicitHeap

def root (s : Timers) : ℕ := s.sgxTimerQ.node 1

def AddRises (s : Timers) (timeout now : ℕ) : Prop :=
  ∀ k, 1 ≤ k → 1 ≤ (s.sgxTimerQ.size + 1) / 2 ^ k →
    sizeAdd now timeout < (s.nodes (s.sgxTimerQ.node ((s.sgxTimerQ.size + 1) / 2 ^ k))).key

def TimerCall.Reentrant : TimerCall → Prop
  | .find _ _ => False
  | _ => True

def CallKeepsRoot (s : Timers) : TimerCall → Prop
  | .add _ timeout _ now mem => GrowFails s.sgxTimerQ mem ∨ ¬ AddRises s timeout now
  | _ => True

def ScriptKeepsRoot : TimerTrace → List TimerCall → Prop
  | _, [] => True
  | t, call :: calls => CallKeepsRoot t.timers call ∧
      ∀ t', call.run t = some t' → ScriptKeepsRoot t' calls

def RoundsKeepRoot : ℕ → TimerTrace → (ℕ → ℕ) → (ℕ → Option (ℕ → ℕ)) → (ℕ → List TimerCall) → Prop
  | 0, _, _, _, _ => True
  | fuel + 1, t, now, mem, script =>
    ∀ node, sgxPriorityQueueTop t.timers.sgxTimerQ = some node →
      if (t.timers.nodes node).del ≠ 0 then
        ∀ s, timerPop (timerUpdate t.timers (now 0)) (mem 0) = some s →
          RoundsKeepRoot fuel { t with timers := s } (fun i => now (i + 1)) (fun i => mem (i + 1))
            fun i => script (i + 1)
      else if (t.timers.nodes node).key > now 0 then True
      else
        ((t.timers.nodes node).handler.isSome →
          ScriptKeepsRoot (TimerTrace.fire { t with timers := timerUpdate t.timers (now 0) } node)
            (script 0)) ∧
        ∀ t' s, TimerTrace.handle { t with timers := timerUpdate t.timers (now 0) } node (script 0) =
            some t' → timerPop t'.timers (mem 0) = some s →
          RoundsKeepRoot fuel { t' with timers := s } (fun i => now (i + 1)) (fun i => mem (i + 1))
            fun i => script (i + 1)

inductive SteadyRun : TimerTrace → Prop where
  | init {s nodes now mem} : sgxTimerInit nodes now mem = some s → SteadyRun ⟨s, [], []⟩
  | call {t t' call} : SteadyRun t → TimerCall.run t call = some t' → SteadyRun t'
  | expire {t t' fuel now mem script} : SteadyRun t →
      (∀ i, ∀ call ∈ script i, TimerCall.Reentrant call) → RoundsKeepRoot fuel t now mem script →
      expireRounds fuel t now mem script = some t' → SteadyRun t'

theorem added_root {s : Timers} {q : SgxPriorityQueue ℕ}
    (hbelow : ∀ a ∈ stored s.sgxTimerQ, a < s.next)
    (hq : q.size = s.sgxTimerQ.size ∧ ∀ i ≤ s.sgxTimerQ.size, q.node i = s.sgxTimerQ.node i)
    (h0 : 0 < s.sgxTimerQ.size) (request timeout : ℕ) (handler : Option ℕ) (now : ℕ) :
    (AddRises s timeout now → (inserted (timerCmp (addedNodes s
        (addedNode request timeout handler now))) q s.next).node 1 = s.next) ∧
      (¬ AddRises s timeout now → (inserted (timerCmp (addedNodes s
        (addedNode request timeout handler now))) q s.next).node 1 = root s) := by
  obtain ⟨hsize, hnode⟩ := hq
  generalize hcmp : timerCmp (addedNodes s (addedNode request timeout handler now)) = cmp
  have hat : Function.update q.node (q.size + 1) s.next (q.size + 1) = s.next :=
    Function.update_self _ _ _
  have hkept (i : ℕ) (hi : i ≤ s.sgxTimerQ.size) :
      Function.update q.node (q.size + 1) s.next i = s.sgxTimerQ.node i := by
    rw [Function.update_of_ne (by omega), hnode i hi]
  have hrises : RisesToRoot cmp (Function.update q.node (q.size + 1) s.next) (q.size + 1) ↔
      AddRises s timeout now := by
    unfold RisesToRoot AddRises
    apply forall_congr'
    intro k
    apply imp_congr_right
    intro hk
    rw [hsize]
    apply imp_congr_right
    intro hroot
    have hi : (s.sgxTimerQ.size + 1) / 2 ^ k ≤ s.sgxTimerQ.size :=
      Nat.le_of_lt_succ (Nat.div_lt_self (Nat.succ_pos _) (Nat.one_lt_two_pow (by omega)))
    generalize (s.sgxTimerQ.size + 1) / 2 ^ k = i at hroot hi ⊢
    have hold := hbelow _ (mem_contents.mpr ⟨i, hroot, hi, rfl⟩)
    rw [← hsize, hat, hkept i hi, ← hcmp, timerCmp, addedNodes, Function.update_self,
      added_nodes hold, decide_eq_true_eq]
    rfl
  have hup := siftUp_root cmp (q.size + 1) (Function.update q.node (q.size + 1) s.next)
    (q.size + 1) (Nat.succ_pos _) (le_refl _)
  rw [hrises, hat, hkept 1 h0] at hup
  exact hup

theorem add_root {t t' : TimerTrace} (h : Sound Ranked t) (h0 : 0 < t.timers.sgxTimerQ.size)
    {request timeout now : ℕ} {handler : Option ℕ} {mem : Option (ℕ → ℕ)}
    (hcall : TimerCall.run t (.add request timeout handler now mem) = some t') :
    0 < t'.timers.sgxTimerQ.size ∧ t'.timers.next = t.timers.next + 1 ∧
      (CallKeepsRoot t.timers (.add request timeout handler now mem) →
        root t'.timers = root t.timers) ∧
      (¬ CallKeepsRoot t.timers (.add request timeout handler now mem) →
        root t'.timers = t.timers.next) := by
  obtain ⟨⟨result, s⟩, hadd, hcall⟩ := Option.bind_eq_some_iff.mp hcall
  obtain rfl := Option.some.inj hcall
  by_cases hfails : GrowFails t.timers.sgxTimerQ mem
  · rw [add_of_growFails hfails, Option.some.injEq, Prod.mk.injEq] at hadd
    obtain ⟨-, rfl⟩ := hadd
    exact ⟨h0, rfl, fun _ => rfl, fun hrises => absurd (.inl hfails) hrises⟩
  · obtain ⟨q, hq, hadd'⟩ := add_of_grows h.1 hfails request timeout handler now
    rw [hadd', Option.some.injEq, Prod.mk.injEq] at hadd
    obtain ⟨-, rfl⟩ := hadd
    obtain ⟨hrises, hstays⟩ := added_root h.2.below hq h0 request timeout handler now
    refine ⟨Nat.succ_pos _, rfl, fun hkeeps => hstays (hkeeps.resolve_left hfails), fun hkeeps => ?_⟩
    exact hrises (not_not.mp (not_or.mp hkeeps).2)

theorem call_root {t t' : TimerTrace} (h : Sound Ranked t) (h0 : 0 < t.timers.sgxTimerQ.size)
    {call : TimerCall} (hre : call.Reentrant) (hcall : call.run t = some t') :
    0 < t'.timers.sgxTimerQ.size ∧ t.timers.next ≤ t'.timers.next ∧
      (CallKeepsRoot t.timers call → root t'.timers = root t.timers) ∧
      (¬ CallKeepsRoot t.timers call → root t'.timers = t.timers.next) := by
  cases call with
  | add request timeout handler now mem =>
    obtain ⟨h0', hnext, hroot⟩ := add_root h h0 hcall
    exact ⟨h0', by omega, hroot⟩
  | del request now =>
    obtain ⟨s, hdel, hcall⟩ := Option.bind_eq_some_iff.mp hcall
    obtain ⟨node, -, hcall⟩ := Option.bind_eq_some_iff.mp hcall
    obtain rfl := Option.some.inj hcall
    obtain ⟨node', -, rfl⟩ := sgxTimerDel_cases hdel
    exact ⟨h0, le_refl _, fun _ => rfl, fun hkeeps => absurd trivial hkeeps⟩
  | find now mem => exact hre.elim

theorem script_root_newer {t t' : TimerTrace} (h : Sound Ranked t)
    (h0 : 0 < t.timers.sgxTimerQ.size) {bound : ℕ} (hbound : bound ≤ root t.timers)
    (hnext : bound ≤ t.timers.next) (calls : List TimerCall)
    (hre : ∀ call ∈ calls, TimerCall.Reentrant call) (hrun : runScript t calls = some t') :
    bound ≤ root t'.timers := by
  induction calls generalizing t with
  | nil =>
    obtain rfl := Option.some.inj hrun
    exact hbound
  | cons call calls ih =>
    obtain ⟨t₁, hcall, hrun⟩ := Option.bind_eq_some_iff.mp hrun
    rw [List.forall_mem_cons] at hre
    obtain ⟨h0₁, hnext₁, hkeep, hrise⟩ := call_root h h0 hre.1 hcall
    apply ih (sound_call ranked_closed h hcall) h0₁ _ (hnext.trans hnext₁) hre.2 hrun
    by_cases hkeeps : CallKeepsRoot t.timers call
    · rwa [hkeep hkeeps]
    · rwa [hrise hkeeps]

theorem script_root_iff {t t' : TimerTrace} (h : Sound Ranked t) (h0 : 0 < t.timers.sgxTimerQ.size)
    (calls : List TimerCall) (hre : ∀ call ∈ calls, TimerCall.Reentrant call)
    (hrun : runScript t calls = some t') :
    0 < t'.timers.sgxTimerQ.size ∧
      (root t'.timers = root t.timers ↔ ScriptKeepsRoot t calls) := by
  induction calls generalizing t with
  | nil =>
    obtain rfl := Option.some.inj hrun
    exact ⟨h0, iff_of_true rfl trivial⟩
  | cons call calls ih =>
    obtain ⟨t₁, hcall, hrun⟩ := Option.bind_eq_some_iff.mp hrun
    rw [List.forall_mem_cons] at hre
    obtain ⟨h0₁, hnext, hkeep, hrise⟩ := call_root h h0 hre.1 hcall
    have h₁ := sound_call ranked_closed h hcall
    obtain ⟨h0', hiff⟩ := ih h₁ h0₁ hre.2 hrun
    refine ⟨h0', ?_⟩
    have hscript : ScriptKeepsRoot t (call :: calls) ↔
        CallKeepsRoot t.timers call ∧ ScriptKeepsRoot t₁ calls := by
      simp only [ScriptKeepsRoot, hcall, Option.some.injEq, forall_eq']
    rw [hscript]
    by_cases hkeeps : CallKeepsRoot t.timers call
    · rw [← hkeep hkeeps, hiff]
      exact (and_iff_right hkeeps).symm
    · have hlt : root t.timers < t.timers.next := h.2.below _ (node_one_mem h0)
      have hnewer := script_root_newer h₁ h0₁ (hrise hkeeps).ge hnext calls hre.2 hrun
      apply iff_of_false
      · omega
      · exact fun hscript => hkeeps hscript.1

def Done (nodes : ℕ → SgxTimerNode) (calls : List ℕ) (a : ℕ) : Prop :=
  (nodes a).del ≠ 0 ∨ a ∈ calls ∨ (nodes a).handler = none

structure Steady (firing : Option ℕ) (s : Timers) : Prop where
  wf : QueueWf s.sgxTimerQ
  nodup : (stored s.sgxTimerQ).Nodup
  below : ∀ a ∈ stored s.sgxTimerQ, a < s.next
  waiting : ∀ a ∈ stored s.sgxTimerQ, a ∈ s.calls → firing = some a
  firing : ∀ a, firing = some a → a ∈ s.calls
  called : ∀ a ∈ s.calls, a < s.next
  once : s.calls.Nodup
  removed : ∀ p ∈ s.pops, 0 < p.2.size → Done p.1 s.calls (p.2.node 1)

theorem timerPop_root {s s' : Timers} (hw : QueueWf s.sgxTimerQ) (h0 : 0 < s.sgxTimerQ.size)
    {mem : Option (ℕ → ℕ)} (h : timerPop s mem = some s') : ∃ q,
      s' = { s with sgxTimerQ := q, pops := (s.nodes, s.sgxTimerQ) :: s.pops } ∧ QueueWf q ∧
        root s ::ₘ stored q = stored s.sgxTimerQ := by
  obtain ⟨⟨result, q⟩, hpop, h⟩ := Option.bind_eq_some_iff.mp h
  obtain ⟨result', q', hpop', hw', hsize, hnode⟩ := pop_cases (timerCmp s.nodes) hw h0 mem
  obtain rfl : q = q' := congrArg Prod.snd (Option.some.inj (hpop.symm.trans hpop'))
  exact ⟨q, (Option.some.inj h).symm, hw', pop_stored (timerCmp s.nodes) h0 hsize hnode⟩

theorem steady_pop {firing : Option ℕ} {s s' : Timers} (h : Steady firing s)
    (h0 : 0 < s.sgxTimerQ.size) (hfiring : ∀ a, firing = some a → a = root s)
    (hdone : Done s.nodes s.calls (root s)) {mem : Option (ℕ → ℕ)}
    (hpop : timerPop s mem = some s') : Steady none s' := by
  obtain ⟨q, rfl, hw, hstored⟩ := timerPop_root h.wf h0 hpop
  have hnodup := h.nodup
  rw [← hstored, Multiset.nodup_cons] at hnodup
  have hold (a : ℕ) (ha : a ∈ stored q) : a ∈ stored s.sgxTimerQ := by
    rw [← hstored]
    exact Multiset.mem_cons_of_mem ha
  refine ⟨hw, hnodup.2, fun a ha => h.below a (hold a ha), fun a ha hcalled => ?_,
    (fun _ ha => absurd ha.symm (Option.some_ne_none _)), h.called, h.once, ?_⟩
  · have hroot := hfiring a (h.waiting a (hold a ha) hcalled)
    exact absurd (hroot ▸ ha) hnodup.1
  · rw [List.forall_mem_cons]
    exact ⟨fun _ => hdone, h.removed⟩

theorem steady_add {firing : Option ℕ} {s s' : Timers} (h : Steady firing s)
    {request timeout now : ℕ} {handler : Option ℕ} {mem : Option (ℕ → ℕ)} {result : ℤ}
    (hadd : sgxTimerAdd s request timeout handler now mem = some (result, s')) :
    Steady firing s' := by
  obtain ⟨q, rfl, hw, hq⟩ := sgxTimerAdd_cases h.wf hadd
  have hnew : s.next ∉ stored s.sgxTimerQ := fun hin => absurd (h.below _ hin) (Nat.lt_irrefl _)
  refine ⟨hw, ?_, added_below hq h.below, fun a ha hcalled => ?_, h.firing,
    fun a ha => Nat.lt_succ_of_lt (h.called a ha), h.once, h.removed⟩
  · rcases hq with rfl | hq
    · exact h.nodup
    · rw [hq, Multiset.nodup_cons]
      exact ⟨hnew, h.nodup⟩
  · rcases mem_added hq ha with rfl | ha
    · exact absurd (h.called _ hcalled) (Nat.lt_irrefl _)
    · exact h.waiting a ha hcalled

theorem steady_tick {firing : Option ℕ} {s : Timers} (h : Steady firing s) (now : ℕ) :
    Steady firing (timerUpdate s now) :=
  ⟨h.wf, h.nodup, h.below, h.waiting, h.firing, h.called, h.once, h.removed⟩

theorem steady_find (fuel : ℕ) {s s' : Timers} (h : Steady none s) (now : ℕ → ℕ)
    (mem : ℕ → Option (ℕ → ℕ)) {time : ℤ} (hfind : findLoop fuel s now mem = some (time, s')) :
    Steady none s' := by
  apply findLoop_preserves (P := Steady none) _ _ fuel h now mem hfind
  · exact fun s now h => steady_tick h now
  · intro s s₁ node mem h htop hdel hpop
    obtain ⟨h0, rfl⟩ := top_eq_root htop
    have hdone : Done s.nodes s.calls (root s) := .inl hdel
    exact steady_pop h h0 (fun a ha => absurd ha.symm (Option.some_ne_none a)) hdone hpop

theorem steady_del {firing : Option ℕ} {s s' : Timers} (h : Steady firing s) {request now : ℕ}
    (hdel : sgxTimerDel s request now = some s') : Steady firing s' := by
  obtain ⟨node, -, rfl⟩ := sgxTimerDel_cases hdel
  exact ⟨h.wf, h.nodup, h.below, h.waiting, h.firing, h.called, h.once, h.removed⟩

theorem steady_call {firing : Option ℕ} {t t' : TimerTrace} (h : Steady firing t.timers)
    {call : TimerCall} (hre : call.Reentrant ∨ firing = none) (hcall : call.run t = some t') :
    Steady firing t'.timers := by
  cases call with
  | add request timeout handler now mem =>
    obtain ⟨⟨result, s⟩, hadd, hcall⟩ := Option.bind_eq_some_iff.mp hcall
    obtain rfl := Option.some.inj hcall
    exact steady_add h hadd
  | del request now =>
    obtain ⟨s, hdel, hcall⟩ := Option.bind_eq_some_iff.mp hcall
    obtain ⟨node, -, hcall⟩ := Option.bind_eq_some_iff.mp hcall
    obtain rfl := Option.some.inj hcall
    exact steady_del h hdel
  | find now mem =>
    obtain rfl : firing = none := hre.resolve_left id
    obtain ⟨⟨time, s⟩, hfind, hcall⟩ := Option.bind_eq_some_iff.mp hcall
    obtain rfl := Option.some.inj hcall
    exact steady_find _ h now mem hfind

theorem steady_script {firing : Option ℕ} {t t' : TimerTrace} (h : Steady firing t.timers)
    (calls : List TimerCall) (hre : ∀ call ∈ calls, TimerCall.Reentrant call)
    (hrun : runScript t calls = some t') : Steady firing t'.timers := by
  apply runScript_preserves (P := fun t => Steady firing t.timers) _ h hrun
  intro call hin t t₁ h hcall
  exact steady_call h (.inl (hre call hin)) hcall

theorem steady_fire {t : TimerTrace} (h : Steady none t.timers)
    (h0 : 0 < t.timers.sgxTimerQ.size)
    (hhandler : (t.timers.nodes (root t.timers)).handler.isSome) :
    Steady (some (root t.timers)) (t.fire (root t.timers)).timers := by
  have hroot : root t.timers ∈ stored t.timers.sgxTimerQ := node_one_mem h0
  rw [fire_eq hhandler]
  refine ⟨h.wf, h.nodup, h.below, fun a ha hcalled => ?_, fun a ha => ?_, ?_, ?_,
    fun p hp hpos => ?_⟩
  · rcases List.mem_cons.mp hcalled with rfl | hcalled
    · rfl
    · exact absurd (h.waiting a ha hcalled).symm (Option.some_ne_none a)
  · obtain rfl := Option.some.inj ha
    exact List.mem_cons_self
  · rw [List.forall_mem_cons]
    exact ⟨h.below _ hroot, h.called⟩
  · refine List.nodup_cons.mpr ⟨fun hcalled => ?_, h.once⟩
    exact absurd (h.waiting _ hroot hcalled).symm (Option.some_ne_none _)
  · rcases h.removed p hp hpos with hdel | hcalled | hnone
    · exact .inl hdel
    · exact .inr (.inl (List.mem_cons_of_mem _ hcalled))
    · exact .inr (.inr hnone)

theorem fired_root {t : TimerTrace} (h : Sound Ranked t) (h0 : 0 < t.timers.sgxTimerQ.size)
    (hhandler : (t.timers.nodes (root t.timers)).handler.isSome)
    (hdel : (t.timers.nodes (root t.timers)).del = 0)
    (hkey : (t.timers.nodes (root t.timers)).key ≤ t.timers.sgxCurrentMsec) :
    Sound Ranked (t.fire (root t.timers)) ∧
      0 < (t.fire (root t.timers)).timers.sgxTimerQ.size ∧
      root (t.fire (root t.timers)).timers = root t.timers := by
  have hqueue := fire_queue hhandler
  refine ⟨sound_fire ranked_closed h h0 hhandler hdel hkey, ?_, ?_⟩
  · rw [hqueue]
    exact h0
  · rw [root, hqueue]
    rfl

theorem steady_handle {t t' : TimerTrace} (h : Sound Ranked t) (hs : Steady none t.timers)
    (h0 : 0 < t.timers.sgxTimerQ.size) {script : List TimerCall}
    (hre : ∀ call ∈ script, TimerCall.Reentrant call)
    (hkeeps : (t.timers.nodes (root t.timers)).handler.isSome →
      ScriptKeepsRoot (t.fire (root t.timers)) script)
    (hdel : (t.timers.nodes (root t.timers)).del = 0)
    (hkey : (t.timers.nodes (root t.timers)).key ≤ t.timers.sgxCurrentMsec)
    (hhandle : t.handle (root t.timers) script = some t') {mem : Option (ℕ → ℕ)} {s : Timers}
    (hpop : timerPop t'.timers mem = some s) : Steady none s := by
  rw [TimerTrace.handle] at hhandle
  split_ifs at hhandle with hhandler
  · obtain ⟨hsound, h0', hroot⟩ := fired_root h h0 hhandler hdel hkey
    obtain ⟨hpos, hiff⟩ := script_root_iff hsound h0' script hre hhandle
    rw [hroot] at hiff
    have hsame := hiff.mpr (hkeeps hhandler)
    have hscript := steady_script (steady_fire hs h0 hhandler) script hre hhandle
    refine steady_pop hscript hpos (fun a ha => ?_) (.inr (.inl ?_)) hpop
    · rw [hsame, Option.some.inj ha]
    · rw [hsame]
      exact hscript.firing _ rfl
  · obtain rfl := Option.some.inj hhandle
    refine steady_pop hs h0 (fun a ha => absurd ha.symm (Option.some_ne_none a))
      (.inr (.inr ?_)) hpop
    exact Option.not_isSome_iff_eq_none.mp hhandler

theorem steady_rounds (fuel : ℕ) {t t' : TimerTrace} (h : Sound Ranked t)
    (hs : Steady none t.timers) (now : ℕ → ℕ) (mem : ℕ → Option (ℕ → ℕ))
    (script : ℕ → List TimerCall) (hre : ∀ i, ∀ call ∈ script i, TimerCall.Reentrant call)
    (hkeeps : RoundsKeepRoot fuel t now mem script)
    (hrun : expireRounds fuel t now mem script = some t') : Steady none t'.timers := by
  induction fuel generalizing t now mem script with
  | zero =>
    obtain rfl := Option.some.inj hrun
    exact hs
  | succ fuel ih =>
    rw [expireRounds] at hrun
    split_ifs at hrun with hempty
    · obtain rfl := Option.some.inj hrun
      exact hs
    obtain ⟨node, htop, hrun⟩ := Option.bind_eq_some_iff.mp hrun
    have hround := hkeeps node htop
    obtain ⟨h0, hnode⟩ := top_eq_root htop
    have htick : Sound Ranked { t with timers := timerUpdate t.timers (now 0) } :=
      ⟨h.1, ranked_closed.tick t (now 0) h.2⟩
    have hsteady := steady_tick hs (now 0)
    have hrest := fun i => hre (i + 1)
    split_ifs at hrun with hdel hkey
    · rw [if_pos (show (t.timers.nodes node).del ≠ 0 from hdel)] at hround
      subst hnode
      obtain ⟨s₁, hpop, hrun⟩ := Option.bind_eq_some_iff.mp hrun
      have hs₁ := steady_pop hsteady h0 (fun a ha => absurd ha.symm (Option.some_ne_none a))
        (.inl hdel) hpop
      exact ih (sound_pop ranked_closed htick hpop) hs₁ _ _ _ hrest (hround s₁ hpop) hrun
    · obtain rfl := Option.some.inj hrun
      exact hsteady
    · rw [if_neg (show ¬ (t.timers.nodes node).del ≠ 0 from hdel),
        if_neg (show ¬ (t.timers.nodes node).key > now 0 from hkey)] at hround
      subst hnode
      obtain ⟨t₁, hhandle, hrun⟩ := Option.bind_eq_some_iff.mp hrun
      obtain ⟨s₁, hpop, hrun⟩ := Option.bind_eq_some_iff.mp hrun
      have hlive := not_not.mp hdel
      have hdue := Nat.not_lt.mp hkey
      have hs₁ := steady_handle htick hsteady h0 (hre 0) hround.1 hlive hdue hhandle hpop
      have h₁ := sound_pop ranked_closed
        (sound_handle ranked_closed htick h0 hlive hdue hhandle) hpop
      exact ih h₁ hs₁ _ _ _ hrest (hround.2 t₁ s₁ hhandle hpop) hrun

theorem steady_init {s : Timers} {nodes : ℕ → SgxTimerNode} {now : ℕ} {mem : Option (ℕ → ℕ)}
    (h : sgxTimerInit nodes now mem = some s) : Steady none s := by
  have hinv := (init_step h).1
  obtain ⟨q, -, rfl⟩ := Option.map_eq_some_iff.mp h
  exact ⟨hinv.wf, hinv.nodup, hinv.below, fun _ _ hc => absurd hc List.not_mem_nil,
    (fun _ ha => absurd ha.symm (Option.some_ne_none _)), fun _ hc => absurd hc List.not_mem_nil,
    List.nodup_nil, fun _ hp => absurd hp List.not_mem_nil⟩

theorem SteadyRun.steady {t : TimerTrace} (h : SteadyRun t) :
    Sound Ranked t ∧ Steady none t.timers := by
  induction h with
  | init hinit => exact ⟨⟨(init_step hinit).1.wf, ranked_init hinit⟩, steady_init hinit⟩
  | call _ hcall ih =>
    exact ⟨sound_call ranked_closed ih.1 hcall, steady_call ih.2 (.inr rfl) hcall⟩
  | expire _ hre hkeeps hrun ih =>
    exact ⟨sound_rounds ranked_closed _ ih.1 _ _ _ hrun,
      steady_rounds _ ih.1 ih.2 _ _ _ hre hkeeps hrun⟩

theorem SteadyRun.traceRun {t : TimerTrace} (h : SteadyRun t) : TraceRun t := by
  induction h with
  | init hinit => exact .init hinit
  | call _ hcall ih => exact .call ih hcall
  | expire _ _ _ hrun ih => exact .expire ih hrun

theorem pops_fired_iff {t t' : TimerTrace} (h : Sound Ranked t) {node : ℕ}
    (htop : sgxPriorityQueueTop t.timers.sgxTimerQ = some node)
    (hdel : (t.timers.nodes node).del = 0)
    (hkey : (t.timers.nodes node).key ≤ t.timers.sgxCurrentMsec)
    (hhandler : (t.timers.nodes node).handler.isSome) {script : List TimerCall}
    (hre : ∀ call ∈ script, TimerCall.Reentrant call) (hhandle : t.handle node script = some t') :
    (∀ mem s, timerPop t'.timers mem = some s →
      node ::ₘ stored s.sgxTimerQ = stored t'.timers.sgxTimerQ) ↔
        ScriptKeepsRoot (t.fire node) script := by
  obtain ⟨h0, hnode⟩ := top_eq_root htop
  obtain rfl : node = root t.timers := hnode
  rw [TimerTrace.handle, if_pos hhandler] at hhandle
  obtain ⟨hsound, h0', hroot⟩ := fired_root h h0 hhandler hdel hkey
  obtain ⟨hpos, hiff⟩ := script_root_iff hsound h0' script hre hhandle
  have hwf := (sound_script ranked_closed hsound script hhandle).1
  rw [hroot] at hiff
  rw [← hiff]
  constructor
  · intro hpops
    obtain ⟨result, q, hpop, -⟩ := pop_cases (timerCmp t'.timers.nodes) hwf hpos none
    have hs : timerPop t'.timers none = some { t'.timers with
        sgxTimerQ := q, pops := (t'.timers.nodes, t'.timers.sgxTimerQ) :: t'.timers.pops } := by
      rw [timerPop, hpop]
      rfl
    obtain ⟨q', hq, -, hstored⟩ := timerPop_root hwf hpos hs
    have hsame := hpops none _ hs
    rw [hq, ← hstored] at hsame
    exact ((Multiset.cons_inj_left _).mp hsame).symm
  · intro hsame mem s hpop
    obtain ⟨q, rfl, -, hstored⟩ := timerPop_root hwf hpos hpop
    rw [← hstored, hsame]

theorem handlers_may_reenter {t : TimerTrace} (h : SteadyRun t) :
    t.timers.calls.Nodup ∧
    (∀ p ∈ t.timers.pops, 0 < p.2.size → Done p.1 t.timers.calls (p.2.node 1)) ∧
    ∀ node now script t', sgxPriorityQueueTop t.timers.sgxTimerQ = some node →
      (t.timers.nodes node).del = 0 → (t.timers.nodes node).key ≤ now →
      (t.timers.nodes node).handler.isSome → (∀ call ∈ script, TimerCall.Reentrant call) →
      TimerTrace.handle { t with timers := timerUpdate t.timers now } node script = some t' →
        ((∀ mem s, timerPop t'.timers mem = some s →
            node ::ₘ stored s.sgxTimerQ = stored t'.timers.sgxTimerQ) ↔
          ScriptKeepsRoot (TimerTrace.fire { t with timers := timerUpdate t.timers now } node)
            script) := by
  obtain ⟨hsound, hsteady⟩ := h.steady
  refine ⟨hsteady.once, hsteady.removed, ?_⟩
  intro node now script t' htop hdel hkey hhandler hre hhandle
  have htick : Sound Ranked { t with timers := timerUpdate t.timers now } :=
    ⟨hsound.1, ranked_closed.tick t now hsound.2⟩
  exact pops_fired_iff htick htop hdel hkey hhandler hre hhandle

theorem handlers_may_reenter_later_timer : ∃ t, SteadyRun t ∧
    t.events = [.added 1 7 2 1, .fired 0 7 0, .added 0 0 5 0] ∧ t.timers.calls.Nodup := by
  have hrun := SteadyRun.call (SteadyRun.init (Eq.refl
    (sgxTimerInit (fun _ => ⟨0, 0, none, 0⟩) 0 (some fun _ => 0)))) (Eq.refl
    (TimerCall.run _ (.add 0 5 (some 0) 0 none)))
  have hre : ∀ call ∈ [TimerCall.add 1 2 (some 0) 7 none], call.Reentrant :=
    List.forall_mem_singleton.mpr trivial
  have hexpire := hrun.expire (fun _ => hre) ?_ (Eq.refl
    (expireRounds 1 _ (fun _ => 7) (fun _ => none) fun _ => [.add 1 2 (some 0) 7 none]))
  · exact ⟨_, hexpire, rfl, (handlers_may_reenter hexpire).1⟩
  · rintro _ ⟨⟩
    refine ⟨fun _ => ⟨.inr fun hrises => ?_, fun _ _ => trivial⟩, fun _ _ _ _ => trivial⟩
    exact absurd (hrises 1 (le_refl 1) (by decide)) (by decide)

theorem older_key_is_popped : ∃ t t', TraceRun t ∧
    t.events = [.added 0 0 5 0] ∧
    expireRounds 2 t (fun _ => 7) (fun _ => none)
        (fun i => [[.add 1 1 (some 0) 2 none]].getD i []) = some t' ∧
      t'.events = [.fired 0 7 0, .added 1 2 1 1, .fired 0 7 0, .added 0 0 5 0] ∧
      ¬ t'.timers.calls.Nodup ∧ t'.timers.sgxTimerQ.size = 0 ∧ (t'.timers.nodes 1).del = 0 ∧
      1 ∉ t'.timers.calls :=
  ⟨_, _, TraceRun.call (TraceRun.init (Eq.refl
    (sgxTimerInit (fun _ => ⟨0, 0, none, 0⟩) 0 (some fun _ => 0)))) (Eq.refl
    (TimerCall.run _ (.add 0 5 (some 0) 0 none))), rfl, rfl, rfl, by decide, rfl, rfl, by decide⟩

end Sginx.Timer
