import Sginx.TimerRuns
import Sginx.Library.History

namespace Sginx.Timer

open Sginx.PriorityQueue

/-- The clock is `sgx_current_msec` at the event. -/
inductive TimerEvent where
  | added (node clock timeout request : ℕ)
  | cancelled (node request : ℕ)
  | fired (node clock request : ℕ)
deriving DecidableEq, Repr

/-- `events` is newest first, and `adds` holds the timers before each `sgx_timer_add` and its
request. -/
structure TimerTrace where
  timers : Timers
  events : List TimerEvent
  adds : List (Timers × ℕ)

inductive TimerCall where
  | add (request timeout : ℕ) (handler : Option ℕ) (now : ℕ) (mem : Option (ℕ → ℕ))
  | del (request now : ℕ)
  | find (now : ℕ → ℕ) (mem : ℕ → Option (ℕ → ℕ))

def TimerTrace.added (t : TimerTrace) (request timeout now : ℕ) (s : Timers) : TimerTrace :=
  { timers := s
    events := .added t.timers.next now timeout request :: t.events
    adds := (t.timers, request) :: t.adds }

def TimerCall.run (t : TimerTrace) : TimerCall → Option TimerTrace
  | .add request timeout handler now mem => do
    let (_, s) ← sgxTimerAdd t.timers request timeout handler now mem
    some (t.added request timeout now s)
  | .del request now => do
    let s ← sgxTimerDel t.timers request now
    let node ← t.timers.timer request
    some { t with timers := s, events := .cancelled node request :: t.events }
  | .find now mem => do
    let (_, s) ← sgxTimerFind t.timers now mem
    some { t with timers := s }

def runScript : TimerTrace → List TimerCall → Option TimerTrace
  | t, [] => some t
  | t, call :: calls => do
    let t ← call.run t
    runScript t calls

def TimerTrace.fire (t : TimerTrace) (node : ℕ) : TimerTrace :=
  { t with
    timers := callHandler t.timers node
    events := .fired node t.timers.sgxCurrentMsec (t.timers.nodes node).request :: t.events }

def TimerTrace.handle (t : TimerTrace) (node : ℕ) (script : List TimerCall) : Option TimerTrace :=
  if (t.timers.nodes node).handler.isSome then runScript (t.fire node) script else some t

/-- At most `fuel` rounds of the loop of `sgx_handle_expire_timers`: a handler that adds timers may
keep it going for ever. `script` gives what the handler called in a round does. -/
def expireRounds : ℕ → TimerTrace → (ℕ → ℕ) → (ℕ → Option (ℕ → ℕ)) → (ℕ → List TimerCall) →
    Option TimerTrace
  | 0, t, _, _, _ => some t
  | fuel + 1, t, now, mem, script =>
    if sgxPriorityQueueEmpty t.timers.sgxTimerQ then some t
    else do
      let t := { t with timers := timerUpdate t.timers (now 0) }
      let node ← sgxPriorityQueueTop t.timers.sgxTimerQ
      if (t.timers.nodes node).del ≠ 0 then
        let s ← timerPop t.timers (mem 0)
        expireRounds fuel { t with timers := s } (fun i => now (i + 1)) (fun i => mem (i + 1))
          (fun i => script (i + 1))
      else if (t.timers.nodes node).key > t.timers.sgxCurrentMsec then some t
      else
        let t ← t.handle node (script 0)
        let s ← timerPop t.timers (mem 0)
        expireRounds fuel { t with timers := s } (fun i => now (i + 1)) (fun i => mem (i + 1))
          (fun i => script (i + 1))

inductive TraceRun : TimerTrace → Prop where
  | init {s nodes now mem} : sgxTimerInit nodes now mem = some s → TraceRun ⟨s, [], []⟩
  | call {t t' call} : TraceRun t → TimerCall.run t call = some t' → TraceRun t'
  | expire {t t' fuel now mem script} : TraceRun t →
      expireRounds fuel t now mem script = some t' → TraceRun t'

/-- When a function of the timers can be called: between the calls of a run, or in a handler. -/
inductive TimerMoment : TimerTrace → Prop where
  | between {t} : TraceRun t → TimerMoment t
  | handler {t t' now node script} : TraceRun t →
      sgxPriorityQueueTop t.timers.sgxTimerQ = some node → (t.timers.nodes node).del = 0 →
      (t.timers.nodes node).key ≤ now →
      TimerTrace.handle { t with timers := timerUpdate t.timers now } node script = some t' →
      TimerMoment t'

theorem runScript_preserves {P : TimerTrace → Prop} {calls : List TimerCall}
    (hcall : ∀ call ∈ calls, ∀ t t', P t → call.run t = some t' → P t') {t t' : TimerTrace}
    (h : P t) (hrun : runScript t calls = some t') : P t' := by
  induction calls generalizing t with
  | nil =>
    obtain rfl := Option.some.inj hrun
    exact h
  | cons call calls ih =>
    obtain ⟨t₁, hfirst, hrun⟩ := Option.bind_eq_some_iff.mp hrun
    rw [List.forall_mem_cons] at hcall
    exact ih hcall.2 (hcall.1 t t₁ h hfirst) hrun

theorem TraceRun.script {t t' : TimerTrace} (h : TraceRun t) (calls : List TimerCall)
    (hrun : runScript t calls = some t') : TraceRun t' := by
  apply runScript_preserves _ h hrun
  intro call _ t t₁ h hcall
  exact h.call hcall

theorem handle_nil (t : TimerTrace) (node : ℕ) :
    ∃ t', t.handle node [] = some t' ∧ t'.timers = callHandler t.timers node := by
  unfold TimerTrace.handle
  split_ifs with hhandler
  · exact ⟨t.fire node, rfl, rfl⟩
  · exact ⟨t, rfl, (if_neg hhandler).symm⟩

theorem expireRounds_eq_expireLoop (fuel : ℕ) (t : TimerTrace) (now : ℕ → ℕ)
    (mem : ℕ → Option (ℕ → ℕ)) {s : Timers} (h : expireLoop fuel t.timers now mem = some s) :
    ∃ t', expireRounds fuel t now mem (fun _ => []) = some t' ∧ t'.timers = s := by
  induction fuel generalizing t now mem with
  | zero => cases h
  | succ fuel ih =>
    rw [expireLoop] at h
    rw [expireRounds]
    split_ifs at h ⊢ with hempty
    · exact ⟨t, rfl, Option.some.inj h⟩
    obtain ⟨node, htop, h⟩ := Option.bind_eq_some_iff.mp h
    simp only [htop, Option.bind_eq_bind, Option.bind_some]
    split_ifs at h ⊢ with hdel hkey
    · obtain ⟨s₁, hpop, h⟩ := Option.bind_eq_some_iff.mp h
      simp only [hpop, Option.bind_some]
      exact ih _ _ _ h
    · exact ⟨_, rfl, Option.some.inj h⟩
    · obtain ⟨s₁, hpop, h⟩ := Option.bind_eq_some_iff.mp h
      obtain ⟨t', hhandle, htimers⟩ := handle_nil { t with timers := timerUpdate t.timers (now 0) } node
      simp only [hhandle, htimers, hpop, Option.bind_some]
      exact ih _ _ _ h

theorem timerPop_cases {s s' : Timers} (hw : QueueWf s.sgxTimerQ) {mem : Option (ℕ → ℕ)}
    (h : timerPop s mem = some s') : ∃ q,
      s' = { s with sgxTimerQ := q, pops := (s.nodes, s.sgxTimerQ) :: s.pops } ∧ QueueWf q ∧
        ∀ a ∈ stored q, a ∈ stored s.sgxTimerQ := by
  obtain ⟨⟨result, q⟩, hpop, h⟩ := Option.bind_eq_some_iff.mp h
  refine ⟨q, (Option.some.inj h).symm, ?_⟩
  by_cases h0 : 0 < s.sgxTimerQ.size
  · obtain ⟨result', q', hpop', hw', hsize, hnode⟩ := pop_cases (timerCmp s.nodes) hw h0 mem
    rw [hpop, Option.some.injEq, Prod.mk.injEq] at hpop'
    obtain ⟨rfl, rfl⟩ := hpop'
    refine ⟨hw', fun a ha => ?_⟩
    rw [← pop_stored (timerCmp s.nodes) h0 hsize hnode]
    exact Multiset.mem_cons_of_mem ha
  · rw [pop_empty _ h0, Option.some.injEq, Prod.mk.injEq] at hpop
    obtain ⟨-, rfl⟩ := hpop
    exact ⟨hw, fun a ha => ha⟩

theorem sgxTimerAdd_cases {s s' : Timers} (hw : QueueWf s.sgxTimerQ) {request timeout now : ℕ}
    {handler : Option ℕ} {mem : Option (ℕ → ℕ)} {result : ℤ}
    (h : sgxTimerAdd s request timeout handler now mem = some (result, s')) : ∃ q,
      s' = { s with
        nodes := Function.update s.nodes s.next
          { key := sizeAdd now timeout, del := 0, handler := handler, request := request }
        next := s.next + 1
        sgxTimerQ := q
        sgxCurrentMsec := now
        timer := Function.update s.timer request (some s.next) } ∧
      QueueWf q ∧ (q = s.sgxTimerQ ∨ stored q = s.next ::ₘ stored s.sgxTimerQ) := by
  obtain ⟨⟨result', q⟩, hpush, h⟩ := Option.bind_eq_some_iff.mp h
  simp only [Option.some.injEq, Prod.mk.injEq] at h
  obtain ⟨-, rfl⟩ := h
  refine ⟨q, rfl, ?_⟩
  let nodes := Function.update s.nodes s.next
    { key := sizeAdd now timeout, del := 0, handler := handler, request := request }
  rcases push_cases (timerCmp nodes) hw s.next mem with hpush' | ⟨q₁, hpush', hw', hsize, hnode⟩
  · obtain rfl : q = s.sgxTimerQ := congrArg Prod.snd (Option.some.inj (hpush.symm.trans hpush'))
    exact ⟨hw, .inl rfl⟩
  · obtain rfl : q = inserted (timerCmp nodes) q₁ s.next :=
      congrArg Prod.snd (Option.some.inj (hpush.symm.trans hpush'))
    exact ⟨hw', .inr (inserted_stored _ hsize hnode s.next)⟩

theorem mem_added {s : Timers} {q : SgxPriorityQueue ℕ}
    (hq : q = s.sgxTimerQ ∨ stored q = s.next ::ₘ stored s.sgxTimerQ) {a : ℕ} (ha : a ∈ stored q) :
    a = s.next ∨ a ∈ stored s.sgxTimerQ := by
  rcases hq with rfl | hq
  · exact .inr ha
  · rwa [hq, Multiset.mem_cons] at ha

theorem added_below {s : Timers} {q : SgxPriorityQueue ℕ}
    (hq : q = s.sgxTimerQ ∨ stored q = s.next ::ₘ stored s.sgxTimerQ)
    (h : ∀ a ∈ stored s.sgxTimerQ, a < s.next) : ∀ a ∈ stored q, a < s.next + 1 := by
  intro a ha
  rcases mem_added hq ha with rfl | ha
  · exact Nat.lt_succ_self _
  · exact Nat.lt_succ_of_lt (h a ha)

theorem added_timer_below {s : Timers} (h : ∀ r a, s.timer r = some a → a < s.next)
    (request r a : ℕ) (hr : Function.update s.timer request (some s.next) r = some a) :
    a < s.next + 1 := by
  rw [Function.update_apply] at hr
  split_ifs at hr
  · obtain rfl := Option.some.inj hr
    exact Nat.lt_succ_self _
  · exact Nat.lt_succ_of_lt (h r a hr)

theorem added_nodes {s : Timers} {a : ℕ} (ha : a < s.next) (node : SgxTimerNode) :
    Function.update s.nodes s.next node a = s.nodes a := by
  apply Function.update_of_ne
  exact Nat.ne_of_lt ha

theorem fire_eq {t : TimerTrace} {node : ℕ} (hhandler : (t.timers.nodes node).handler.isSome) :
    t.fire node = { t with
      timers := { t.timers with calls := node :: t.timers.calls }
      events := .fired node t.timers.sgxCurrentMsec (t.timers.nodes node).request :: t.events } := by
  rw [TimerTrace.fire, callHandler, if_pos hhandler]

theorem fire_queue {t : TimerTrace} {node : ℕ} (hhandler : (t.timers.nodes node).handler.isSome) :
    (t.fire node).timers.sgxTimerQ = t.timers.sgxTimerQ := by
  rw [fire_eq hhandler]

theorem sgxTimerDel_cases {s s' : Timers} {request now : ℕ}
    (h : sgxTimerDel s request now = some s') : ∃ node, s.timer request = some node ∧
      s' = { s with
        sgxCurrentMsec := now
        nodes := Function.update s.nodes node { s.nodes node with del := 1 } } := by
  obtain ⟨node, hnode, h⟩ := Option.bind_eq_some_iff.mp h
  exact ⟨node, hnode, (Option.some.inj h).symm⟩

structure TraceClosed (P : TimerTrace → Prop) : Prop where
  tick : ∀ t now, P t → P { t with timers := timerUpdate t.timers now }
  pop : ∀ t s mem, QueueWf t.timers.sgxTimerQ → P t → timerPop t.timers mem = some s →
    P { t with timers := s }
  add : ∀ t s request timeout handler now mem result, QueueWf t.timers.sgxTimerQ → P t →
    sgxTimerAdd t.timers request timeout handler now mem = some (result, s) →
    P (t.added request timeout now s)
  del : ∀ t s request now node, P t → sgxTimerDel t.timers request now = some s →
    t.timers.timer request = some node →
    P { t with timers := s, events := .cancelled node request :: t.events }
  fire : ∀ t, 0 < t.timers.sgxTimerQ.size → P t →
    (t.timers.nodes (t.timers.sgxTimerQ.node 1)).handler.isSome →
    (t.timers.nodes (t.timers.sgxTimerQ.node 1)).del = 0 →
    (t.timers.nodes (t.timers.sgxTimerQ.node 1)).key ≤ t.timers.sgxCurrentMsec →
    P (t.fire (t.timers.sgxTimerQ.node 1))

theorem top_eq_root {q : SgxPriorityQueue ℕ} {node : ℕ} (h : sgxPriorityQueueTop q = some node) :
    0 < q.size ∧ node = q.node 1 := by
  rw [sgxPriorityQueueTop] at h
  split_ifs at h with hempty
  rw [SgxPriorityQueue.load] at h
  split_ifs at h
  exact ⟨nonempty_iff.mp (Bool.eq_false_of_not_eq_true hempty), (Option.some.inj h).symm⟩

def Sound (P : TimerTrace → Prop) (t : TimerTrace) : Prop := QueueWf t.timers.sgxTimerQ ∧ P t

section closed

variable {P : TimerTrace → Prop} (hP : TraceClosed P)

include hP

theorem sound_pop {t : TimerTrace} (h : Sound P t) {s : Timers} {mem : Option (ℕ → ℕ)}
    (hpop : timerPop t.timers mem = some s) : Sound P { t with timers := s } := by
  refine ⟨?_, hP.pop t s mem h.1 h.2 hpop⟩
  obtain ⟨q, rfl, hw, -⟩ := timerPop_cases h.1 hpop
  exact hw

theorem sound_find (fuel : ℕ) {t : TimerTrace} (h : Sound P t) (now : ℕ → ℕ)
    (mem : ℕ → Option (ℕ → ℕ)) {time : ℤ} {s : Timers}
    (hfind : findLoop fuel t.timers now mem = some (time, s)) : Sound P { t with timers := s } := by
  apply findLoop_preserves (P := fun s => Sound P { t with timers := s }) _ _ fuel h now mem hfind
  · exact fun s now h => ⟨h.1, hP.tick { t with timers := s } now h.2⟩
  · intro s s₁ node mem h _ _ hpop
    exact sound_pop hP h hpop

theorem sound_call {t t' : TimerTrace} (h : Sound P t) {call : TimerCall}
    (hcall : call.run t = some t') : Sound P t' := by
  cases call with
  | add request timeout handler now mem =>
    obtain ⟨⟨result, s⟩, hadd, hcall⟩ := Option.bind_eq_some_iff.mp hcall
    obtain rfl := Option.some.inj hcall
    refine ⟨?_, hP.add t s request timeout handler now mem result h.1 h.2 hadd⟩
    obtain ⟨q, rfl, hw, -⟩ := sgxTimerAdd_cases h.1 hadd
    exact hw
  | del request now =>
    obtain ⟨s, hdel, hcall⟩ := Option.bind_eq_some_iff.mp hcall
    obtain ⟨node, hnode, hcall⟩ := Option.bind_eq_some_iff.mp hcall
    obtain rfl := Option.some.inj hcall
    refine ⟨?_, hP.del t s request now node h.2 hdel hnode⟩
    obtain ⟨node, -, rfl⟩ := sgxTimerDel_cases hdel
    exact h.1
  | find now mem =>
    obtain ⟨⟨time, s⟩, hfind, hcall⟩ := Option.bind_eq_some_iff.mp hcall
    obtain rfl := Option.some.inj hcall
    exact sound_find hP _ h now mem hfind

theorem sound_script {t t' : TimerTrace} (h : Sound P t) (calls : List TimerCall)
    (hrun : runScript t calls = some t') : Sound P t' := by
  apply runScript_preserves _ h hrun
  intro call _ t t₁ h hcall
  exact sound_call hP h hcall

theorem sound_fire {t : TimerTrace} (h : Sound P t) (h0 : 0 < t.timers.sgxTimerQ.size)
    (hhandler : (t.timers.nodes (t.timers.sgxTimerQ.node 1)).handler.isSome)
    (hdel : (t.timers.nodes (t.timers.sgxTimerQ.node 1)).del = 0)
    (hkey : (t.timers.nodes (t.timers.sgxTimerQ.node 1)).key ≤ t.timers.sgxCurrentMsec) :
    Sound P (t.fire (t.timers.sgxTimerQ.node 1)) := by
  refine ⟨?_, hP.fire t h0 h.2 hhandler hdel hkey⟩
  rw [fire_queue hhandler]
  exact h.1

theorem sound_handle {t t' : TimerTrace} (h : Sound P t) (h0 : 0 < t.timers.sgxTimerQ.size)
    (hdel : (t.timers.nodes (t.timers.sgxTimerQ.node 1)).del = 0)
    (hkey : (t.timers.nodes (t.timers.sgxTimerQ.node 1)).key ≤ t.timers.sgxCurrentMsec)
    {script : List TimerCall} (hhandle : t.handle (t.timers.sgxTimerQ.node 1) script = some t') :
    Sound P t' := by
  rw [TimerTrace.handle] at hhandle
  split_ifs at hhandle with hhandler
  · exact sound_script hP (sound_fire hP h h0 hhandler hdel hkey) script hhandle
  · obtain rfl := Option.some.inj hhandle
    exact h

theorem sound_rounds (fuel : ℕ) {t t' : TimerTrace} (h : Sound P t) (now : ℕ → ℕ)
    (mem : ℕ → Option (ℕ → ℕ)) (script : ℕ → List TimerCall)
    (hrun : expireRounds fuel t now mem script = some t') : Sound P t' := by
  induction fuel generalizing t now mem script with
  | zero =>
    obtain rfl := Option.some.inj hrun
    exact h
  | succ fuel ih =>
    rw [expireRounds] at hrun
    split_ifs at hrun with hempty
    · obtain rfl := Option.some.inj hrun
      exact h
    obtain ⟨node, htop, hrun⟩ := Option.bind_eq_some_iff.mp hrun
    obtain ⟨h0, rfl⟩ := top_eq_root htop
    have htick : Sound P { t with timers := timerUpdate t.timers (now 0) } :=
      ⟨h.1, hP.tick t (now 0) h.2⟩
    split_ifs at hrun with hdel hkey
    · obtain ⟨s₁, hpop, hrun⟩ := Option.bind_eq_some_iff.mp hrun
      exact ih (sound_pop hP htick hpop) _ _ _ hrun
    · obtain rfl := Option.some.inj hrun
      exact htick
    · obtain ⟨t₁, hhandle, hrun⟩ := Option.bind_eq_some_iff.mp hrun
      obtain ⟨s₁, hpop, hrun⟩ := Option.bind_eq_some_iff.mp hrun
      have hlive := not_not.mp hdel
      have hdue := Nat.not_lt.mp hkey
      exact ih (sound_pop hP (sound_handle hP htick h0 hlive hdue hhandle) hpop) _ _ _ hrun

theorem TraceRun.sound (hinit : ∀ s nodes now mem, sgxTimerInit nodes now mem = some s → P ⟨s, [], []⟩)
    {t : TimerTrace} (h : TraceRun t) : Sound P t := by
  induction h with
  | @init s nodes now mem hs => exact ⟨(init_step hs).1.wf, hinit s nodes now mem hs⟩
  | call _ hcall ih => exact sound_call hP ih hcall
  | expire _ hrun ih => exact sound_rounds hP _ ih _ _ _ hrun

theorem TimerMoment.sound
    (hinit : ∀ s nodes now mem, sgxTimerInit nodes now mem = some s → P ⟨s, [], []⟩)
    {t : TimerTrace} (h : TimerMoment t) : Sound P t := by
  cases h with
  | between hrun => exact hrun.sound hP hinit
  | @handler t t' now node script hrun htop hdel hkey hhandle =>
    have hsound := hrun.sound hP hinit
    obtain ⟨h0, rfl⟩ := top_eq_root htop
    have htick : Sound P { t with timers := timerUpdate t.timers now } :=
      ⟨hsound.1, hP.tick t now hsound.2⟩
    exact sound_handle hP htick h0 hdel hkey hhandle

end closed

end Sginx.Timer
