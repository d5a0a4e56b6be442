import Sginx.TimerRuns

/-!
The loop of `main` in `core/sgx_rush.c`, with `sgx_http_close_conn` (`http/http_request.c`). A request
is named by its allocation. What the kernel, the allocator and the clock answer is in the arguments.
-/

namespace Sginx.EventLoop

open Sginx.Timer Sginx.PriorityQueue

def sgxTimeoutDefault : ℕ := 500

/-- The number that stands for `sgx_http_close_conn` in a timer. -/
def closeConnHandler : ℕ := 0

inductive Closer where
  | errorEvent
  | timeout
deriving DecidableEq, Repr

/-- `fd` holds the field of the requests below `next`. The lists are newest first: `accepts` the
descriptors that `accept` returned, `closes` the calls of `close`, and `pushes` for each connection
the request of its timer and the one allocated for it. -/
structure Server where
  timers : Timers
  listenSocket : ℤ
  fd : ℕ → ℤ
  next : ℕ
  freed : List ℕ
  accepts : List ℤ
  closes : List (Closer × ℤ)
  pushes : List (ℕ × Option ℕ)

def eventRequest : ℕ := 0

/-- `request -> fd`, where `stale` is what the memory of a freed request holds. -/
def Server.readFd (w : Server) (request : ℕ) (stale : ℤ) : ℤ :=
  if request ∈ w.freed then stale else w.fd request

def sgxHttpCloseConn (w : Server) (request : ℕ) (stale : ℤ) : Server :=
  { w with
    closes := (.timeout, w.readFd request stale) :: w.closes
    freed := request :: w.freed }

def closeConns : Server → List ℕ → (ℕ → ℤ) → Server
  | w, [], _ => w
  | w, request :: requests, stale =>
    closeConns (sgxHttpCloseConn w request (stale 0)) requests fun i => stale (i + 1)

def calledSince (s s' : Timers) : List ℕ :=
  (s'.calls.take (s'.calls.length - s.calls.length)).reverse

/-- The handler of every timer is `sgx_http_close_conn`, which has no part in the queue, so that it
does not matter to the queue when it runs. -/
def handleExpireTimers (w : Server) (now : ℕ → ℕ) (mem : ℕ → Option (ℕ → ℕ)) (stale : ℕ → ℤ) :
    Option Server := do
  let s ← sgxHandleExpireTimers w.timers now mem
  some (closeConns { w with timers := s }
    ((calledSince w.timers s).map fun node => (s.nodes node).request) stale)

/-- A connection that `accept` returned, what `malloc` found in the field `fd` of its request, and
what the calls inside `sgx_timer_add` answered. -/
structure Connection where
  fd : ℕ
  fresh : Option ℤ
  now : ℕ
  mem : Option (ℕ → ℕ)

/-- `sgx_timer_add` is given `request`, the one of the event. -/
def acceptConnection (w : Server) (request : ℕ) (c : Connection) : Option Server := do
  let newRequest := c.fresh.map fun _ => w.next
  let (_, s) ← sgxTimerAdd w.timers request sgxTimeoutDefault (some closeConnHandler) c.now c.mem
  some { w with
    timers := s
    fd := match c.fresh with
      | none => w.fd
      | some fd => Function.update w.fd w.next fd
    next := match c.fresh with
      | none => w.next
      | some _ => w.next + 1
    accepts := c.fd :: w.accepts
    pushes := (request, newRequest) :: w.pushes }

def acceptLoop : Server → ℕ → List Connection → Option Server
  | w, _, [] => some w
  | w, request, c :: cs => do
    let w ← acceptConnection w request c
    acceptLoop w request cs

/-- `connections` is what `accept` returns before it fails. -/
structure Event where
  request : ℕ
  err : Bool
  hup : Bool
  input : Bool
  stale : ℤ
  connections : List Connection

/-- The events carry pointers that were given to `sgx_epoll_add`. -/
def handleEvent (w : Server) (e : Event) : Option Server :=
  if w.next ≤ e.request then none
  else
    let fd := w.readFd e.request e.stale
    if w.listenSocket = fd then acceptLoop w e.request e.connections
    else if e.err ∨ e.hup ∨ ¬ e.input then some { w with closes := (.errorEvent, fd) :: w.closes }
    else
      -- `sgx_init_request` is named but not called
      some w

def handleEvents : Server → List Event → Option Server
  | w, [] => some w
  | w, e :: es => do
    let w ← handleEvent w e
    handleEvents w es

structure Round where
  findNow : ℕ → ℕ
  findMem : ℕ → Option (ℕ → ℕ)
  expireNow : ℕ → ℕ
  expireMem : ℕ → Option (ℕ → ℕ)
  stale : ℕ → ℤ
  events : List Event

def round (w : Server) (r : Round) : Option Server := do
  let (_, s) ← sgxTimerFind w.timers r.findNow r.findMem
  let w ← handleExpireTimers { w with timers := s } r.expireNow r.expireMem r.stale
  handleEvents w r.events

def start (listenSocket : ℤ) (fd : ℕ → ℤ) (s : Timers) : Server where
  timers := s
  listenSocket := listenSocket
  fd := Function.update fd eventRequest listenSocket
  next := eventRequest + 1
  freed := []
  accepts := []
  closes := []
  pushes := []

inductive ServerRun : Server → Prop where
  | start {listenSocket fd s nodes now mem} : sgxTimerInit nodes now mem = some s →
      ServerRun (start listenSocket fd s)
  | round {w w' r} : ServerRun w → round w r = some w' → ServerRun w'

structure Owned (w : Server) : Prop where
  pushes : ∀ p ∈ w.pushes, p.2 = some p.1
  listen : (.timeout, w.listenSocket) ∉ w.closes
  once : ∀ fd, (w.closes.map Prod.snd).count fd ≤ w.accepts.count fd

structure Misplaced (w : Server) : Prop where
  pushed : w.pushes.length = w.accepts.length
  pushes : ∀ p ∈ w.pushes, p.1 < w.next ∧ p.2 ≠ some p.1

structure Idle (w : Server) : Prop where
  queue : w.timers.sgxTimerQ.size = 0
  next : w.next = eventRequest + 1
  fd : w.fd eventRequest = w.listenSocket
  freed : w.freed = []
  closes : w.closes = []
  pushes : w.pushes = []

def Sound (w : Server) : Prop := Misplaced w ∧ (w.accepts = [] → Idle w)

theorem closeConns_eq (w : Server) (requests : List ℕ) (stale : ℕ → ℤ) :
    ∃ closes freed, closeConns w requests stale = { w with closes := closes, freed := freed } := by
  induction requests generalizing w stale with
  | nil => exact ⟨w.closes, w.freed, rfl⟩
  | cons request requests ih => exact ih (sgxHttpCloseConn w request (stale 0)) _

theorem sgxTimerFind_empty {s : Timers} (h : s.sgxTimerQ.size = 0) (now : ℕ → ℕ)
    (mem : ℕ → Option (ℕ → ℕ)) : sgxTimerFind s now mem = some (sgxTimerInfinite, s) := by
  rw [sgxTimerFind, findLoop, empty_iff.mpr (by omega), if_pos rfl]

theorem sgxHandleExpireTimers_empty {s : Timers} (h : s.sgxTimerQ.size = 0) (now : ℕ → ℕ)
    (mem : ℕ → Option (ℕ → ℕ)) : sgxHandleExpireTimers s now mem = some s := by
  rw [sgxHandleExpireTimers, expireLoop, empty_iff.mpr (by omega), if_pos rfl]

theorem sound_find {w : Server} (h : Sound w) {now : ℕ → ℕ} {mem : ℕ → Option (ℕ → ℕ)} {time : ℤ}
    {s : Timers} (hfind : sgxTimerFind w.timers now mem = some (time, s)) :
    Sound { w with timers := s } := by
  refine ⟨⟨h.1.pushed, h.1.pushes⟩, fun hnone => ?_⟩
  have hidle := h.2 hnone
  rw [sgxTimerFind_empty hidle.queue, Option.some.injEq, Prod.mk.injEq] at hfind
  obtain ⟨-, rfl⟩ := hfind
  exact hidle

theorem sound_expire {w w' : Server} (h : Sound w) {now : ℕ → ℕ} {mem : ℕ → Option (ℕ → ℕ)}
    {stale : ℕ → ℤ} (hexpire : handleExpireTimers w now mem stale = some w') : Sound w' := by
  obtain ⟨s, hs, hexpire⟩ := Option.bind_eq_some_iff.mp hexpire
  have hw' := Option.some.inj hexpire
  constructor
  · obtain ⟨closes, freed, heq⟩ := closeConns_eq { w with timers := s }
      ((calledSince w.timers s).map fun node => (s.nodes node).request) stale
    rw [← hw', heq]
    exact ⟨h.1.pushed, h.1.pushes⟩
  · intro hnone
    have hidle : Idle w := by
      apply h.2
      obtain ⟨closes, freed, heq⟩ := closeConns_eq { w with timers := s }
        ((calledSince w.timers s).map fun node => (s.nodes node).request) stale
      rwa [← hw', heq] at hnone
    -- no timer is queued, so that no handler is called
    rw [sgxHandleExpireTimers_empty hidle.queue] at hs
    obtain rfl := Option.some.inj hs
    have hcalled : calledSince w.timers w.timers = [] := by simp [calledSince]
    rw [hcalled] at hw'
    rwa [← hw']

theorem misplaced_accept {w w' : Server} (h : Misplaced w) {request : ℕ} (hreq : request < w.next)
    {c : Connection} (haccept : acceptConnection w request c = some w') :
    Misplaced w' ∧ w'.accepts ≠ [] ∧ request < w'.next := by
  obtain ⟨⟨result, s⟩, hadd, haccept⟩ := Option.bind_eq_some_iff.mp haccept
  obtain rfl := Option.some.inj haccept
  have hnext : w.next ≤ (match c.fresh with
      | none => w.next
      | some _ => w.next + 1) := by
    cases c.fresh with
    | none => exact le_refl _
    | some _ => exact Nat.le_succ _
  refine ⟨⟨?_, ?_⟩, List.cons_ne_nil _ _, hreq.trans_le hnext⟩
  · simp only [List.length_cons, h.pushed]
  · dsimp only
    rw [List.forall_mem_cons]
    refine ⟨⟨hreq.trans_le hnext, ?_⟩, fun p hp => ⟨(h.pushes p hp).1.trans_le hnext, (h.pushes p hp).2⟩⟩
    intro heq
    obtain ⟨-, -, hw⟩ := Option.map_eq_some_iff.mp heq
    omega

theorem sound_acceptLoop {w w' : Server} (h : Sound w) {request : ℕ} (hreq : request < w.next)
    (cs : List Connection) (hloop : acceptLoop w request cs = some w') : Sound w' := by
  induction cs generalizing w with
  | nil =>
    obtain rfl := Option.some.inj hloop
    exact h
  | cons c cs ih =>
    obtain ⟨w₁, haccept, hloop⟩ := Option.bind_eq_some_iff.mp hloop
    obtain ⟨hmisplaced, hsome, hreq₁⟩ := misplaced_accept h.1 hreq haccept
    exact ih ⟨hmisplaced, fun hnone => absurd hnone hsome⟩ hreq₁ hloop

theorem sound_event {w w' : Server} (h : Sound w) {e : Event} (hevent : handleEvent w e = some w') :
    Sound w' := by
  rw [handleEvent] at hevent
  by_cases hknown : w.next ≤ e.request
  · rw [if_pos hknown] at hevent
    cases hevent
  rw [if_neg hknown] at hevent
  rw [Nat.not_le] at hknown
  dsimp only at hevent
  by_cases hlisten : w.listenSocket = w.readFd e.request e.stale
  · rw [if_pos hlisten] at hevent
    exact sound_acceptLoop h hknown _ hevent
  rw [if_neg hlisten] at hevent
  split_ifs at hevent
  · obtain rfl := Option.some.inj hevent
    refine ⟨⟨h.1.pushed, h.1.pushes⟩, fun hnone => ?_⟩
    -- the one request there is, is that of the listening socket
    have hidle := h.2 hnone
    have hroot : e.request = eventRequest := by
      have := hidle.next
      simp only [eventRequest] at this ⊢
      omega
    rw [Server.readFd, hidle.freed, if_neg List.not_mem_nil, hroot, hidle.fd] at hlisten
    exact absurd rfl hlisten
  · obtain rfl := Option.some.inj hevent
    exact h

theorem sound_events {w w' : Server} (h : Sound w) (es : List Event)
    (hevents : handleEvents w es = some w') : Sound w' := by
  induction es generalizing w with
  | nil =>
    obtain rfl := Option.some.inj hevents
    exact h
  | cons e es ih =>
    obtain ⟨w₁, hevent, hevents⟩ := Option.bind_eq_some_iff.mp hevents
    exact ih (sound_event h hevent) hevents

theorem ServerRun.sound {w : Server} (h : ServerRun w) : Sound w := by
  induction h with
  | @start listenSocket fd s nodes now mem hinit =>
    refine ⟨⟨rfl, fun p hp => absurd hp List.not_mem_nil⟩, fun _ => ⟨?_, rfl, ?_, rfl, rfl, rfl⟩⟩
    · obtain ⟨q, hq, rfl⟩ := Option.map_eq_some_iff.mp hinit
      exact (init_wf (by decide) (by decide) hq).2
    · exact Function.update_self eventRequest listenSocket fd
  | round _ hround ih =>
    obtain ⟨⟨time, s⟩, hfind, hround⟩ := Option.bind_eq_some_iff.mp hround
    obtain ⟨w₁, hexpire, hevents⟩ := Option.bind_eq_some_iff.mp hround
    exact sound_events (sound_expire (sound_find ih hfind) hexpire) _ hevents

theorem descriptors_owned_iff {w : Server} (h : ServerRun w) : Owned w ↔ w.accepts = [] := by
  obtain ⟨hmisplaced, hidle⟩ := h.sound
  constructor
  · intro howned
    have hnone : w.pushes = [] := by
      apply List.eq_nil_iff_forall_not_mem.mpr
      intro p hp
      exact (hmisplaced.pushes p hp).2 (howned.pushes p hp)
    apply List.eq_nil_of_length_eq_zero
    rw [← hmisplaced.pushed, hnone, List.length_nil]
  · intro hnone
    have hidle := hidle hnone
    constructor
    · rw [hidle.pushes]
      exact List.forall_mem_nil _
    · rw [hidle.closes]
      exact List.not_mem_nil
    · intro fd
      rw [hidle.closes]
      exact Nat.zero_le _

def roundAt (now : ℕ) (events : List Event) : Round where
  findNow _ := now
  findMem _ := none
  expireNow _ := now
  expireMem _ := none
  stale _ := 0
  events := events

theorem descriptors_owned_without_connections : ∃ w, ServerRun w ∧ Owned w := by
  have hrun := ServerRun.round (@ServerRun.start 4 (fun _ => 0) _ _ _ _ (Eq.refl
    (sgxTimerInit (fun _ => ⟨0, 0, none, 0⟩) 0 (some fun _ => 0)))) (Eq.refl
    (round _ (roundAt 600 [⟨eventRequest, false, false, true, 0, []⟩])))
  exact ⟨_, hrun, (descriptors_owned_iff hrun).mpr rfl⟩

theorem timeout_closes_the_listening_socket : ∃ w, ServerRun w ∧ w.listenSocket = 4 ∧
    w.accepts = [5] ∧ w.pushes = [(eventRequest, some 1)] ∧ w.closes = [(.timeout, 4)] ∧
      ¬ Owned w := by
  refine ⟨_, ServerRun.round (ServerRun.round (@ServerRun.start 4 (fun _ => 0) _ _ _ _ (Eq.refl
    (sgxTimerInit (fun _ => ⟨0, 0, none, 0⟩) 0 (some fun _ => 0)))) (Eq.refl
    (round _ (roundAt 0 [⟨eventRequest, false, false, true, 0, [⟨5, some 0, 0, none⟩]⟩])))) (Eq.refl
    (round _ (roundAt 600 []))), rfl, rfl, rfl, rfl, fun h => ?_⟩
  exact absurd (h.pushes _ List.mem_cons_self) (by decide)

end Sginx.EventLoop
