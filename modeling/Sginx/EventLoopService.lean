import Sginx.EventLoop
import Sginx.TimerTrace

namespace Sginx.EventLoop

open Sginx.Timer Sginx.PriorityQueue

/-- No memory that is read without having been written holds the number of the listening socket. -/
structure Round.Distinct (r : Round) (listenSocket : ℤ) : Prop where
  stale : ∀ i, r.stale i ≠ listenSocket
  events : ∀ e ∈ r.events, e.stale ≠ listenSocket ∧
    ∀ c ∈ e.connections, c.fresh ≠ some listenSocket

inductive Continues (w : Server) : Server → Prop where
  | refl : Continues w w
  | round {w' w'' r} : Continues w w' → r.Distinct w'.listenSocket → round w' r = some w'' →
      Continues w w''

structure ListenTimer (node : SgxTimerNode) : Prop where
  del : node.del = 0
  handler : node.handler = some closeConnHandler
  request : node.request = eventRequest

structure ListenTimers (s : Timers) : Prop where
  wf : QueueWf s.sgxTimerQ
  queued : ∀ a ∈ stored s.sgxTimerQ, a < s.next ∧ ListenTimer (s.nodes a)

structure Sockets (w : Server) : Prop where
  known : eventRequest < w.next
  listen : w.fd eventRequest = w.listenSocket
  others : ∀ r < w.next, r ≠ eventRequest → w.fd r ≠ w.listenSocket
  pushes : ∀ p ∈ w.pushes, p.1 = eventRequest
  freed : ∀ r ∈ w.freed, r = eventRequest
  closed : (w.closes.map Prod.snd).count w.listenSocket = if w.freed = [] then 0 else 1
  closer : ∀ p ∈ w.closes, p.2 = w.listenSocket → p.1 = .timeout
  timeouts : w.closes.countP (·.1 = .timeout) = w.freed.length

structure Serving (w : Server) : Prop where
  sockets : Sockets w
  timers : ListenTimers w.timers
  balance : w.freed.length + (stored w.timers.sgxTimerQ).card ≤ w.accepts.length

theorem timerPop_root {s s' : Timers} (hw : QueueWf s.sgxTimerQ) (h0 : 0 < s.sgxTimerQ.size)
    {calls : List ℕ} {now : ℕ} {mem : Option (ℕ → ℕ)}
    (h : timerPop { s with calls := calls, sgxCurrentMsec := now } mem = some s') : ∃ q pops,
      s' = { s with sgxTimerQ := q, sgxCurrentMsec := now, calls := calls, pops := pops } ∧
        QueueWf q ∧ s.sgxTimerQ.node 1 ::ₘ stored q = stored s.sgxTimerQ := by
  obtain ⟨result, q, hpop, hw', hsize, hnode⟩ := pop_cases (timerCmp s.nodes) hw h0 mem
  rw [timerPop, hpop] at h
  exact ⟨q, _, (Option.some.inj h).symm, hw', pop_stored (timerCmp s.nodes) h0 hsize hnode⟩

theorem expireLoop_live (fuel : ℕ) {s s' : Timers} (h : ListenTimers s) (now : ℕ → ℕ)
    (mem : ℕ → Option (ℕ → ℕ)) (hloop : expireLoop fuel s now mem = some s') :
    ∃ called q msec pops, s' = { s with
        sgxTimerQ := q, sgxCurrentMsec := msec, calls := called ++ s.calls, pops := pops } ∧
      QueueWf q ∧ (called : Multiset ℕ) + stored q = stored s.sgxTimerQ := by
  induction fuel generalizing s now mem with
  | zero => cases hloop
  | succ fuel ih =>
    by_cases h0 : 0 < s.sgxTimerQ.size
    swap
    · rw [expireLoop, empty_iff.mpr h0, if_pos rfl] at hloop
      obtain rfl := Option.some.inj hloop
      exact ⟨[], _, _, _, rfl, h.wf, by simp⟩
    have hroot := (h.queued _ (node_one_mem h0)).2
    rw [expireLoop_round fuel h.wf h0, if_neg (not_not.mpr hroot.del)] at hloop
    split_ifs at hloop
    · obtain rfl := Option.some.inj hloop
      exact ⟨[], _, _, _, rfl, h.wf, by simp⟩
    · obtain ⟨s₁, hpop, hloop⟩ := Option.bind_eq_some_iff.mp hloop
      have hcall : callHandler (timerUpdate s (now 0)) (s.sgxTimerQ.node 1) =
          { s with calls := s.sgxTimerQ.node 1 :: s.calls, sgxCurrentMsec := now 0 } :=
        if_pos (by rw [timerUpdate, hroot.handler]; rfl)
      rw [hcall] at hpop
      obtain ⟨q₁, pops₁, rfl, hw₁, hstored₁⟩ := timerPop_root h.wf h0 hpop
      have h₁ : ListenTimers
          { s with
            sgxTimerQ := q₁
            sgxCurrentMsec := now 0
            calls := s.sgxTimerQ.node 1 :: s.calls
            pops := pops₁ } := by
        refine ⟨hw₁, fun a ha => h.queued a ?_⟩
        rw [← hstored₁]
        exact Multiset.mem_cons_of_mem ha
      obtain ⟨called, q, msec, pops, rfl, hw, hstored⟩ := ih h₁ _ _ hloop
      refine ⟨called ++ [s.sgxTimerQ.node 1], q, msec, pops, ?_, hw, ?_⟩
      · simp
      · rw [← hstored₁, ← hstored, ← Multiset.coe_add, add_assoc, Multiset.coe_singleton,
          Multiset.singleton_add, Multiset.add_cons]

theorem sgxTimerFind_live {s s' : Timers} (h : ListenTimers s) {now : ℕ → ℕ}
    {mem : ℕ → Option (ℕ → ℕ)} {time : ℤ} (hfind : sgxTimerFind s now mem = some (time, s')) :
    ∃ msec, s' = { s with sgxCurrentMsec := msec } := by
  by_cases h0 : 0 < s.sgxTimerQ.size
  · have hroot := (h.queued _ (node_one_mem h0)).2
    rw [sgxTimerFind, findLoop_round _ h.wf h0, if_neg (not_not.mpr hroot.del), Option.some.injEq,
      Prod.mk.injEq] at hfind
    exact ⟨now 0, hfind.2.symm⟩
  · rw [sgxTimerFind_empty (Nat.eq_zero_of_not_pos h0), Option.some.injEq, Prod.mk.injEq] at hfind
    exact ⟨s.sgxCurrentMsec, hfind.2.symm⟩

theorem Sockets.update {w : Server} (h : Sockets w) {timers : Timers} {accepts : List ℤ}
    {pushes : List (ℕ × Option ℕ)} (hpushes : ∀ p ∈ pushes, p.1 = eventRequest) :
    Sockets { w with timers := timers, accepts := accepts, pushes := pushes } :=
  ⟨h.known, h.listen, h.others, hpushes, h.freed, h.closed, h.closer, h.timeouts⟩

theorem Sockets.event_freed {w : Server} (h : Sockets w) (hfreed : w.freed ≠ []) :
    eventRequest ∈ w.freed := by
  obtain ⟨r, hr⟩ := List.exists_mem_of_ne_nil _ hfreed
  rwa [← h.freed r hr]

theorem Sockets.readFd_event {w : Server} (h : Sockets w) (stale : ℤ) :
    w.readFd eventRequest stale = if w.freed = [] then w.listenSocket else stale := by
  by_cases hfreed : w.freed = []
  · rw [if_pos hfreed, Server.readFd, hfreed, if_neg List.not_mem_nil, h.listen]
  · rw [if_neg hfreed, Server.readFd, if_pos (h.event_freed hfreed)]

theorem sockets_close {w : Server} (h : Sockets w) {stale : ℤ} (hstale : stale ≠ w.listenSocket) :
    Sockets (sgxHttpCloseConn w eventRequest stale) := by
  refine ⟨h.known, h.listen, h.others, h.pushes, ?_, ?_, ?_, ?_⟩
  · intro r hr
    rcases List.mem_cons.mp hr with rfl | hr
    · rfl
    · exact h.freed r hr
  · have hcons : (sgxHttpCloseConn w eventRequest stale).freed ≠ [] := List.cons_ne_nil _ _
    rw [if_neg hcons]
    change ((w.readFd eventRequest stale) :: w.closes.map Prod.snd).count w.listenSocket = 1
    rw [List.count_cons, h.closed, h.readFd_event]
    by_cases hfreed : w.freed = []
    · rw [if_pos hfreed, if_pos hfreed, if_pos (beq_self_eq_true _)]
    · rw [if_neg hfreed, if_neg hfreed, if_neg (by simpa using hstale)]
  · exact List.forall_mem_cons.mpr ⟨fun _ => rfl, h.closer⟩
  · simp [sgxHttpCloseConn, h.timeouts]

theorem sockets_closeConns {w : Server} (h : Sockets w) {requests : List ℕ}
    (hrequests : ∀ r ∈ requests, r = eventRequest) {stale : ℕ → ℤ}
    (hstale : ∀ i, stale i ≠ w.listenSocket) :
    Sockets (closeConns w requests stale) ∧
      (closeConns w requests stale).freed.length = w.freed.length + requests.length := by
  induction requests generalizing w stale with
  | nil => exact ⟨h, rfl⟩
  | cons request requests ih =>
    rw [List.forall_mem_cons] at hrequests
    obtain ⟨rfl, hrequests⟩ := hrequests
    obtain ⟨hsockets, hlength⟩ := ih (sockets_close h (hstale 0)) hrequests fun i => hstale (i + 1)
    refine ⟨hsockets, hlength.trans ?_⟩
    rw [sgxHttpCloseConn, List.length_cons, List.length_cons]
    omega

structure Kept (w w' : Server) : Prop where
  serving : Serving w'
  listenSocket : w'.listenSocket = w.listenSocket
  freed : w.freed ≠ [] → w'.freed ≠ [] ∧ w'.accepts = w.accepts

theorem Kept.trans {w w' w'' : Server} (h : Kept w w') (h' : Kept w' w'') : Kept w w'' := by
  refine ⟨h'.serving, h'.listenSocket.trans h.listenSocket, fun hfreed => ?_⟩
  obtain ⟨hfreed', haccepts⟩ := h.freed hfreed
  obtain ⟨hfreed'', haccepts'⟩ := h'.freed hfreed'
  exact ⟨hfreed'', haccepts'.trans haccepts⟩

theorem kept_find {w : Server} (h : Serving w) {now : ℕ → ℕ} {mem : ℕ → Option (ℕ → ℕ)} {time : ℤ}
    {s : Timers} (hfind : sgxTimerFind w.timers now mem = some (time, s)) :
    Kept w { w with timers := s } := by
  obtain ⟨msec, rfl⟩ := sgxTimerFind_live h.timers hfind
  exact ⟨⟨h.sockets.update h.sockets.pushes, ⟨h.timers.wf, h.timers.queued⟩, h.balance⟩, rfl,
    fun hfreed => ⟨hfreed, rfl⟩⟩

theorem kept_expire {w w' : Server} (h : Serving w) {now : ℕ → ℕ} {mem : ℕ → Option (ℕ → ℕ)}
    {stale : ℕ → ℤ} (hstale : ∀ i, stale i ≠ w.listenSocket)
    (hexpire : handleExpireTimers w now mem stale = some w') : Kept w w' := by
  obtain ⟨s, hs, hexpire⟩ := Option.bind_eq_some_iff.mp hexpire
  obtain rfl := Option.some.inj hexpire
  obtain ⟨called, q, msec, pops, rfl, hw, hstored⟩ := expireLoop_live _ h.timers now mem hs
  have hcalled : calledSince w.timers { w.timers with
      sgxTimerQ := q, sgxCurrentMsec := msec, calls := called ++ w.timers.calls, pops := pops } =
        called.reverse := by
    simp [calledSince]
  have hmem (a : ℕ) (ha : a ∈ called ∨ a ∈ stored q) : a ∈ stored w.timers.sgxTimerQ := by
    rw [← hstored, Multiset.mem_add]
    exact ha
  rw [hcalled]
  have hsockets : Sockets { w with timers := { w.timers with
      sgxTimerQ := q, sgxCurrentMsec := msec, calls := called ++ w.timers.calls, pops := pops } } :=
    h.sockets.update h.sockets.pushes
  have hrequests : ∀ r ∈ called.reverse.map fun node => (w.timers.nodes node).request,
      r = eventRequest := by
    intro r hr
    obtain ⟨a, ha, rfl⟩ := List.mem_map.mp hr
    exact (h.timers.queued a (hmem a (.inl (List.mem_reverse.mp ha)))).2.request
  obtain ⟨hclosed, hlength⟩ := sockets_closeConns hsockets hrequests hstale
  obtain ⟨closes, freed, heq⟩ := closeConns_eq { w with timers := { w.timers with
      sgxTimerQ := q, sgxCurrentMsec := msec, calls := called ++ w.timers.calls, pops := pops } }
    (called.reverse.map fun node => (w.timers.nodes node).request) stale
  have hcard := congrArg Multiset.card hstored
  have hbalance := h.balance
  rw [Multiset.card_add, Multiset.coe_card] at hcard
  rw [List.length_map, List.length_reverse] at hlength
  rw [heq] at hclosed hlength ⊢
  dsimp only at hlength
  refine ⟨⟨hclosed, ⟨hw, fun a ha => h.timers.queued a (hmem a (.inr ha))⟩, ?_⟩, rfl,
    fun hfreed => ⟨?_, rfl⟩⟩
  · dsimp only
    omega
  · rw [← List.length_pos_iff] at hfreed ⊢
    dsimp only
    omega

theorem kept_accept {w w' : Server} (h : Serving w) (hfreed : w.freed = []) {c : Connection}
    (hfresh : c.fresh ≠ some w.listenSocket)
    (haccept : acceptConnection w eventRequest c = some w') : Kept w w' ∧ w'.freed = [] := by
  obtain ⟨⟨result, s⟩, hadd, haccept⟩ := Option.bind_eq_some_iff.mp haccept
  obtain rfl := Option.some.inj haccept
  obtain ⟨q, rfl, hw, hq⟩ := sgxTimerAdd_cases h.timers.wf hadd
  refine ⟨⟨⟨?_, ⟨hw, ?_⟩, ?_⟩, rfl, fun hne => absurd hfreed hne⟩, hfreed⟩
  · have hpushes : ∀ p ∈ (eventRequest, c.fresh.map fun _ => w.next) :: w.pushes,
        p.1 = eventRequest :=
      List.forall_mem_cons.mpr ⟨rfl, h.sockets.pushes⟩
    cases hc : c.fresh with
    | none =>
      rw [hc] at hpushes
      exact h.sockets.update hpushes
    | some fd =>
      rw [hc] at hpushes hfresh
      have hknown := h.sockets.known
      refine ⟨Nat.lt_succ_of_lt hknown, ?_, ?_, hpushes, h.sockets.freed, h.sockets.closed,
        h.sockets.closer, h.sockets.timeouts⟩
      · exact (Function.update_of_ne (Nat.ne_of_lt hknown) _ _).trans h.sockets.listen
      · intro r hr hne
        dsimp only
        rcases Nat.lt_or_eq_of_le (Nat.le_of_lt_succ hr) with hlt | rfl
        · rw [Function.update_of_ne (Nat.ne_of_lt hlt)]
          exact h.sockets.others r hlt hne
        · rw [Function.update_self]
          exact fun heq => hfresh (congrArg some heq)
  · intro a ha
    rcases mem_added hq ha with rfl | ha
    · refine ⟨Nat.lt_succ_self _, ?_⟩
      dsimp only
      rw [Function.update_self]
      exact ⟨rfl, rfl, rfl⟩
    · obtain ⟨hlt, htimer⟩ := h.timers.queued a ha
      refine ⟨Nat.lt_succ_of_lt hlt, ?_⟩
      dsimp only
      rwa [added_nodes hlt]
  · have hbalance := h.balance
    have hcard : (stored q).card ≤ (stored w.timers.sgxTimerQ).card + 1 := by
      rcases hq with rfl | hq
      · exact Nat.le_succ _
      · rw [hq, Multiset.card_cons]
    dsimp only
    rw [List.length_cons]
    omega

theorem kept_acceptLoop {w w' : Server} (h : Serving w) (hfreed : w.freed = [])
    {cs : List Connection} (hfresh : ∀ c ∈ cs, c.fresh ≠ some w.listenSocket)
    (hloop : acceptLoop w eventRequest cs = some w') : Kept w w' := by
  induction cs generalizing w with
  | nil =>
    obtain rfl := Option.some.inj hloop
    exact ⟨h, rfl, fun hne => absurd hfreed hne⟩
  | cons c cs ih =>
    rw [List.forall_mem_cons] at hfresh
    obtain ⟨w₁, haccept, hloop⟩ := Option.bind_eq_some_iff.mp hloop
    obtain ⟨hkept, hfreed₁⟩ := kept_accept h hfreed hfresh.1 haccept
    apply hkept.trans
    apply ih hkept.serving hfreed₁ _ hloop
    rw [hkept.listenSocket]
    exact hfresh.2

theorem kept_event {w w' : Server} (h : Serving w) {e : Event} (hstale : e.stale ≠ w.listenSocket)
    (hfresh : ∀ c ∈ e.connections, c.fresh ≠ some w.listenSocket)
    (hevent : handleEvent w e = some w') : Kept w w' := by
  rw [handleEvent] at hevent
  by_cases hknown : w.next ≤ e.request
  · rw [if_pos hknown] at hevent
    cases hevent
  rw [if_neg hknown] at hevent
  dsimp only at hevent
  by_cases hlisten : w.listenSocket = w.readFd e.request e.stale
  · rw [if_pos hlisten] at hevent
    have hrequest : e.request ∉ w.freed := by
      intro hmem
      rw [Server.readFd, if_pos hmem] at hlisten
      exact hstale hlisten.symm
    have hevent_request : e.request = eventRequest := by
      by_contra hne
      rw [Server.readFd, if_neg hrequest] at hlisten
      exact h.sockets.others _ (Nat.not_le.mp hknown) hne hlisten.symm
    rw [hevent_request] at hevent hrequest
    have hfreed : w.freed = [] := by
      by_contra hne
      exact hrequest (h.sockets.event_freed hne)
    exact kept_acceptLoop h hfreed hfresh hevent
  rw [if_neg hlisten] at hevent
  split_ifs at hevent
  · obtain rfl := Option.some.inj hevent
    refine ⟨⟨⟨h.sockets.known, h.sockets.listen, h.sockets.others, h.sockets.pushes,
      h.sockets.freed, ?_, ?_, ?_⟩, h.timers, h.balance⟩, rfl, fun hfreed => ⟨hfreed, rfl⟩⟩
    · dsimp only
      rw [List.map_cons, List.count_cons_of_ne (Ne.symm hlisten), h.sockets.closed]
    · exact List.forall_mem_cons.mpr ⟨fun heq => absurd heq.symm hlisten, h.sockets.closer⟩
    · dsimp only
      rw [List.countP_cons_of_neg (by simp), h.sockets.timeouts]
  · obtain rfl := Option.some.inj hevent
    exact ⟨h, rfl, fun hfreed => ⟨hfreed, rfl⟩⟩

theorem kept_events {w w' : Server} (h : Serving w) {es : List Event}
    (hes : ∀ e ∈ es, e.stale ≠ w.listenSocket ∧ ∀ c ∈ e.connections, c.fresh ≠ some w.listenSocket)
    (hevents : handleEvents w es = some w') : Kept w w' := by
  induction es generalizing w with
  | nil =>
    obtain rfl := Option.some.inj hevents
    exact ⟨h, rfl, fun hfreed => ⟨hfreed, rfl⟩⟩
  | cons e es ih =>
    rw [List.forall_mem_cons] at hes
    obtain ⟨w₁, hevent, hevents⟩ := Option.bind_eq_some_iff.mp hevents
    have hkept := kept_event h hes.1.1 hes.1.2 hevent
    apply hkept.trans
    apply ih hkept.serving _ hevents
    rw [hkept.listenSocket]
    exact hes.2

theorem kept_round {w w' : Server} (h : Serving w) {r : Round} (hr : r.Distinct w.listenSocket)
    (hround : round w r = some w') : Kept w w' := by
  obtain ⟨⟨time, s⟩, hfind, hround⟩ := Option.bind_eq_some_iff.mp hround
  obtain ⟨w₁, hexpire, hevents⟩ := Option.bind_eq_some_iff.mp hround
  have hfound := kept_find h hfind
  have hexpired := kept_expire hfound.serving hr.stale hexpire
  apply (hfound.trans hexpired).trans
  apply kept_events hexpired.serving _ hevents
  rw [hexpired.listenSocket]
  exact hr.events

theorem kept_run {w w' : Server} (h : Serving w) (hrun : Continues w w') : Kept w w' := by
  induction hrun with
  | refl => exact ⟨h, rfl, fun hfreed => ⟨hfreed, rfl⟩⟩
  | round _ hr hround ih => exact ih.trans (kept_round ih.serving hr hround)

theorem serving_start {listenSocket : ℤ} {fd : ℕ → ℤ} {s : Timers} {nodes : ℕ → SgxTimerNode}
    {now : ℕ} {mem : Option (ℕ → ℕ)} (hinit : sgxTimerInit nodes now mem = some s) :
    Serving (start listenSocket fd s) := by
  obtain ⟨q, hq, rfl⟩ := Option.map_eq_some_iff.mp hinit
  obtain ⟨hwf, hsize⟩ := init_wf (by decide) (by decide) hq
  have hnone : stored q = 0 := stored_eq_zero hsize
  refine ⟨⟨Nat.lt_succ_self _, ?_, ?_, ?_, ?_, rfl, ?_, rfl⟩, ⟨hwf, ?_⟩, ?_⟩
  · exact Function.update_self eventRequest listenSocket fd
  · intro r hr hne
    exact absurd (Nat.lt_one_iff.mp hr) hne
  · exact List.forall_mem_nil _
  · exact List.forall_mem_nil _
  · exact List.forall_mem_nil _
  · intro a ha
    simp only [start, hnone] at ha
    exact absurd ha (Multiset.notMem_zero a)
  · simp [start, hnone]

theorem first_timeout_ends_service {listenSocket : ℤ} {fd : ℕ → ℤ} {s : Timers}
    {nodes : ℕ → SgxTimerNode} {now : ℕ} {mem : Option (ℕ → ℕ)}
    (hinit : sgxTimerInit nodes now mem = some s) {w : Server}
    (hrun : Continues (start listenSocket fd s) w) :
    (∀ p ∈ w.pushes, p.1 = eventRequest) ∧ (∀ r ∈ w.freed, r = eventRequest) ∧
      (w.closes.map Prod.snd).count listenSocket = (if w.freed = [] then 0 else 1) ∧
      (∀ p ∈ w.closes, p.2 = listenSocket → p.1 = .timeout) ∧
      w.freed.length = w.closes.countP (·.1 = .timeout) ∧
      w.freed.length + (stored w.timers.sgxTimerQ).card ≤ w.accepts.length ∧
      (w.freed ≠ [] → ∀ w', Continues w w' → w'.accepts = w.accepts) := by
  have hkept := kept_run (serving_start hinit) hrun
  obtain ⟨hsockets, -, hbalance⟩ := hkept.serving
  refine ⟨hsockets.pushes, hsockets.freed, ?_, ?_, hsockets.timeouts.symm, hbalance,
    fun hfreed w' hrun' => ?_⟩
  · have hclosed := hsockets.closed
    rwa [hkept.listenSocket] at hclosed
  · have hcloser := hsockets.closer
    rwa [hkept.listenSocket] at hcloser
  · exact ((kept_run hkept.serving hrun').freed hfreed).2

def initialTimers : Timers :=
  (sgxTimerInit (fun _ => ⟨0, 0, none, 0⟩) 0 (some fun _ => 0)).get rfl

theorem first_timeout_ends_service_two_connections : ∃ w,
    Continues (start 4 (fun _ => 0) initialTimers) w ∧ w.freed = [eventRequest, eventRequest] ∧
      w.closes = [(.timeout, 0), (.timeout, 4)] ∧ w.accepts = [6, 5] ∧
      ∀ w', Continues w w' → w'.accepts = [6, 5] := by
  have haccepted := (@Continues.refl (start 4 (fun _ => 0) initialTimers)).round
    (r := roundAt 0 [⟨eventRequest, false, false, true, 0,
      [⟨5, some 0, 0, none⟩, ⟨6, none, 0, none⟩]⟩])
    ⟨fun _ => by simp [roundAt, start], by decide⟩ (Eq.refl (round _ _))
  have hrun := haccepted.round (r := roundAt 600 []) ⟨fun _ => by simp [roundAt]; decide, by decide⟩
    (Eq.refl (round _ _))
  have hinit :
      sgxTimerInit (fun _ => ⟨0, 0, none, 0⟩) 0 (some fun _ => 0) = some initialTimers := rfl
  refine ⟨_, hrun, rfl, rfl, rfl, ?_⟩
  exact (first_timeout_ends_service hinit hrun).2.2.2.2.2.2 (by decide)

end Sginx.EventLoop
