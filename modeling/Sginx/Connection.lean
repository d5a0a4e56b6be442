import Sginx.CgiReturn
import Sginx.RequestDispatch
import Sginx.SendFile

namespace Sginx.Mini

open Sginx.Http (Byte cr lf chr)
open Sginx.Library.CString (literal strcasecmp)
open Sginx.Library.DotPath

inductive ConnectionEvent where
  | rsp501
  | rsp404
  | stat (path : List Byte)
  | send (event : SendEvent)
  | cgi (event : CgiEvent)
  | close
deriving DecidableEq, Repr

/-- What the system answers: the mode of a file, its content where `fopen` succeeds, how
`sgx_request_cgi` fares up to `fork`, and what its child runs. -/
structure Site (σ : Type) where
  stat : List Byte → Option ℕ
  fopen : List Byte → Option (List Byte)
  cgi : List Byte → CgiSystem
  program : σ → ChildOp σ
  -- where the program begins, for a path, a type and a query
  start : List Byte → List Byte → Option (List Byte) → σ
  outRoom : ℕ
  inRoom : ℕ
  outRoom_pos : 0 < outRoom
  inRoom_pos : 0 < inRoom

variable {σ : Type}

inductive ConnectionPart (σ : Type) where
  | event (event : ConnectionEvent)
  -- so many bytes go to the program that begins there
  | exchange (total : ℕ) (fd : Stream) (x : σ)

def CgiStart.parts (fd : Stream) (x : σ) : CgiStart → List (ConnectionPart σ)
  | .returned events => events.map fun event => .event (.cgi event)
  | .forked total => [.exchange total fd x]

/-- `inner` is what the buffer of the called function holds at first. Nothing is returned when
`fclose` is given a null pointer. -/
def carryOut (site : Site σ) (fd : Stream) (inner : CharBuf) :
    AcceptEvent → Option (List (ConnectionPart σ))
  | .rsp501 => some [.event .rsp501]
  | .rsp404 => some [.event .rsp404]
  | .stat path => some [.event (.stat path)]
  | .sendFile path => do
    let (events, _) ← sgxSendFile (site.fopen path) fd inner
    if .fclose false ∈ events then none else some (events.map fun event => .event (.send event))
  | .requestCgi path type query =>
    (sgxRequestCgi (site.cgi path) (literal type) fd inner).map fun (start, rest) =>
      start.parts rest (site.start path type query)
  | .close => some [.event .close]

def carryOutAll (site : Site σ) (fd : Stream) (inner : CharBuf) :
    List AcceptEvent → Option (List (ConnectionPart σ))
  | [] => some []
  | event :: events => do
    let first ← carryOut site fd inner event
    let rest ← carryOutAll site fd inner events
    some (first ++ rest)

def serveConnection (site : Site σ) (fd : Stream) (buf type path inner : CharBuf) :
    Option (List (ConnectionPart σ)) := do
  let events ← sgxRequestAccept site.stat fd buf type path
  carryOutAll site (sgxGetFdLine fd buf intBuf).2.2 inner events

/-- What has happened when all parts are over, in some order of the steps of each exchange. `c` is
what `sgx_c` holds before anything is assigned to it. -/
inductive Follows (site : Site σ) (c : Byte) :
    List (ConnectionPart σ) → List ConnectionEvent → Prop where
  | nil : Follows site c [] []
  | event {event parts events} : Follows site c parts events →
      Follows site c (.event event :: parts) (event :: events)
  | exchange {total fd x s parts events} :
      ExchangeRun site.program x total site.outRoom site.inRoom fd c s → s.parent = .returned →
      Follows site c parts events →
      Follows site c (.exchange total fd x :: parts) (s.events.map .cgi ++ events)

def Finishes (site : Site σ) (c : Byte) (parts : List (ConnectionPart σ)) : Prop :=
  ∀ total fd x, .exchange total fd x ∈ parts →
    Returns site.program x total site.outRoom site.inRoom fd c

/-- An answer to the client, not counting what follows a status line. -/
def CgiEvent.isStatus : CgiEvent → Bool
  | .rsp400 => true
  | .rsp500 => true
  | .toClient bytes => bytes = okLine
  | _ => false

def SendEvent.isStatus : SendEvent → Bool
  | .rsp400 => true
  | .rsp200 => true
  | _ => false

def ConnectionEvent.isStatus : ConnectionEvent → Bool
  | .rsp501 => true
  | .rsp404 => true
  | .send event => event.isStatus
  | .cgi event => event.isStatus
  | _ => false

def programEvents (events : List ConnectionEvent) : List CgiEvent :=
  events.filterMap fun
    | .cgi event => some event
    | _ => none

def openedPipes (system : CgiSystem) : List PipeEnd :=
  if system.pocgi then
    [.pocgi readEnd, .pocgi writeEnd] ++
      if system.picgi then [.picgi readEnd, .picgi writeEnd] else []
  else []

structure CgiCounted (system : CgiSystem) (events : List CgiEvent) : Prop where
  status : events.countP CgiEvent.isStatus = 1
  closed : ∀ pipe, events.countP (· = .close pipe) = (openedPipes system).count pipe
  waited : events.countP (· = .waitpid) = if system.Starts then 1 else 0

structure Disposed (site : Site σ) (events : List ConnectionEvent) : Prop where
  answered : events.countP ConnectionEvent.isStatus = 1
  closed : ∃ before, events = before ++ [.close] ∧ .close ∉ before
  program : programEvents events ⊆ [.rsp400] ∨
    ∃ path, .stat path ∈ events ∧ CgiCounted (site.cgi path) (programEvents events)

section follows

variable {site : Site σ} {c : Byte}

theorem follows_append_iff {xs ys : List (ConnectionPart σ)} {events : List ConnectionEvent} :
    Follows site c (xs ++ ys) events ↔
      ∃ first rest, Follows site c xs first ∧ Follows site c ys rest ∧ events = first ++ rest := by
  constructor
  · intro h
    induction xs generalizing events with
    | nil => exact ⟨[], events, .nil, h, rfl⟩
    | cons part xs ih =>
      cases h with
      | event h =>
        obtain ⟨first, rest, hfirst, hrest, rfl⟩ := ih h
        exact ⟨_, rest, .event hfirst, hrest, rfl⟩
      | exchange hrun hreturned h =>
        obtain ⟨first, rest, hfirst, hrest, rfl⟩ := ih h
        exact ⟨_, rest, .exchange hrun hreturned hfirst, hrest, (List.append_assoc _ _ _).symm⟩
  · rintro ⟨first, rest, hfirst, hrest, rfl⟩
    induction hfirst with
    | nil => exact hrest
    | event _ ih => exact .event ih
    | exchange hrun hreturned _ ih =>
      rw [List.append_assoc]
      exact .exchange hrun hreturned ih

theorem follows_events_iff {events events' : List ConnectionEvent} :
    Follows site c (events.map .event) events' ↔ events' = events := by
  constructor
  · intro h
    induction events generalizing events' with
    | nil =>
      cases h
      rfl
    | cons event events ih =>
      cases h with
      | event h => rw [ih h]
  · rintro rfl
    induction events' with
    | nil => exact .nil
    | cons event events ih => exact .event ih

theorem Finishes.exists_follows {parts : List (ConnectionPart σ)} (h : Finishes site c parts) :
    ∃ events, Follows site c parts events := by
  induction parts with
  | nil => exact ⟨[], .nil⟩
  | cons part parts ih =>
    obtain ⟨events, hevents⟩ := ih fun total fd x hmem => h total fd x (List.mem_cons_of_mem _ hmem)
    cases part with
    | event event => exact ⟨_, .event hevents⟩
    | exchange total fd x =>
      obtain ⟨s, hrun, hreturned⟩ := (h total fd x List.mem_cons_self).exists_returned
      exact ⟨_, .exchange hrun hreturned hevents⟩

end follows

theorem mem_relayBody {n : ℕ} {fd : Stream} {c : Byte} {event : CgiEvent}
    (h : event ∈ (relayBody n fd c).1) : ∃ b, event = .toChild b := by
  induction n generalizing fd c with
  | zero => cases h
  | succ n ih =>
    rcases List.mem_cons.mp h with rfl | h
    · exact ⟨_, rfl⟩
    · exact ih h

theorem singleton_ne_okLine (b : Byte) : [b] ≠ okLine := by
  intro h
  have hlen : 1 = okLine.length := congrArg List.length h
  exact absurd hlen (by decide)

theorem countP_relayEvents {p : CgiEvent → Bool} (hchild : ∀ b, p (.toChild b) = false)
    (hclient : ∀ b, p (.toClient [b]) = false) (total : ℕ) (fd : Stream) (c : Byte)
    (output : List Byte) :
    (relayEvents total fd c output).countP p =
      [CgiEvent.toClient okLine, .close (.pocgi writeEnd), .close (.picgi readEnd),
        .close (.pocgi readEnd), .close (.picgi writeEnd), .waitpid].countP p := by
  have hbody : (relayBody total fd c).1.countP p = 0 := by
    apply List.countP_eq_zero.mpr
    intro event hevent
    obtain ⟨b, rfl⟩ := mem_relayBody hevent
    simp [hchild]
  have hout : (relayOutput output).countP p = 0 := by
    apply List.countP_eq_zero.mpr
    intro event hevent
    obtain ⟨b, -, rfl⟩ := List.mem_map.mp hevent
    simp [hclient]
  rw [relayEvents, relayEnd]
  simp only [List.countP_cons, List.countP_append, hbody, hout, Nat.zero_add, List.countP_nil]

theorem relayEvents_counted {system : CgiSystem} (h : system.Starts) (total : ℕ) (fd : Stream)
    (c : Byte) (output : List Byte) : CgiCounted system (relayEvents total fd c output) := by
  constructor
  · rw [countP_relayEvents (fun _ => rfl)
      (fun b => by simp [CgiEvent.isStatus, singleton_ne_okLine b])]
    simp [CgiEvent.isStatus]
  · intro pipe
    rw [countP_relayEvents (by simp) (by simp), openedPipes, if_pos h.1, if_pos h.2.1]
    have hends : ∀ i : Fin 2, i = readEnd ∨ i = writeEnd := by decide
    cases pipe with
    | pocgi i => obtain rfl | rfl := hends i <;> decide
    | picgi i => obtain rfl | rfl := hends i <;> decide
  · rw [countP_relayEvents (by simp) (by simp), if_pos h]
    simp

theorem forkCgi_stopped {system : CgiSystem} (h : ¬ system.Starts) (isPost : Bool) (contlen : ℤ) :
    forkCgi system isPost contlen =
      .returned ((openedPipes system).map .close ++ [.rsp500]) := by
  cases hpo : system.pocgi with
  | false => simp [forkCgi, openedPipes, hpo]
  | true =>
    cases hpi : system.picgi with
    | false => simp [forkCgi, openedPipes, hpo, hpi, readEnd, writeEnd]
    | true =>
      have hfork : system.fork = false := by
        rw [← Bool.not_eq_true]
        exact fun hfork => h ⟨hpo, hpi, hfork⟩
      simp [forkCgi, openedPipes, hpo, hpi, hfork, readEnd, writeEnd]

theorem stopped_counted {system : CgiSystem} (h : ¬ system.Starts) :
    CgiCounted system ((openedPipes system).map .close ++ [.rsp500]) := by
  constructor
  · rw [List.countP_append, List.countP_map]
    simp [CgiEvent.isStatus, Function.comp_def]
  · intro pipe
    rw [List.countP_append, List.countP_map, List.count]
    simp [Function.comp_def, beq_eq_decide]
  · rw [List.countP_append, List.countP_map, if_neg h]
    simp [Function.comp_def]

def CgiStart.Counted (system : CgiSystem) : CgiStart → Prop
  | .returned events =>
    events.countP CgiEvent.isStatus = 1 ∧ (events ⊆ [.rsp400] ∨ CgiCounted system events)
  | .forked _ => system.Starts

theorem forkCgi_counted (system : CgiSystem) (isPost : Bool) (contlen : ℤ) :
    (forkCgi system isPost contlen).Counted system := by
  by_cases hstarts : system.Starts
  · rw [forkCgi_starts hstarts]
    exact hstarts
  · rw [forkCgi_stopped hstarts]
    exact ⟨(stopped_counted hstarts).status, .inr (stopped_counted hstarts)⟩

theorem sgxRequestCgi_counted (system : CgiSystem) (type : CharBuf) (fd : Stream) (buf : CharBuf) :
    ∃ start rest, sgxRequestCgi system type fd buf = some (start, rest) ∧
      start.Counted system := by
  by_cases hpost : strcasecmp type post = 0
  · obtain ⟨⟨fd', buf', contlen⟩, hdrain⟩ :=
      Option.isSome_iff_exists.mp (drain_returns postHeader fd buf (-1))
    rw [sgxRequestCgi, if_pos hpost, postHeaders, hdrain, Option.map_some]
    dsimp only
    split_ifs
    · exact ⟨_, _, rfl, rfl, .inl (List.Subset.refl _)⟩
    · exact ⟨_, _, rfl, forkCgi_counted system true contlen⟩
  · obtain ⟨⟨fd', buf', u⟩, hdrain⟩ :=
      Option.isSome_iff_exists.mp (drain_returns (fun buf s => (buf, s)) fd buf ())
    rw [sgxRequestCgi, if_neg hpost, skipHeaders, hdrain, Option.map_some]
    exact ⟨_, _, rfl, forkCgi_counted system false (-1)⟩

theorem mem_sendLoop {fuel : ℕ} {txt : Library.Stdio.File} {buf : CharBuf} {events : List SendEvent}
    (h : sendLoop fuel txt buf = some events) {event : SendEvent} (hmem : event ∈ events) :
    ∃ bytes, event = .write bytes := by
  induction fuel generalizing txt buf events with
  | zero => cases h
  | succ fuel ih =>
    rw [sendLoop] at h
    split_ifs at h
    · obtain rfl := Option.some.inj h
      cases hmem
    · split at h
      · obtain rfl := Option.some.inj h
        cases hmem
      · obtain ⟨rest, hrest, rfl⟩ := Option.map_eq_some_iff.mp h
        rcases List.mem_cons.mp hmem with rfl | hmem
        · exact ⟨_, rfl⟩
        · exact ih hrest hmem

theorem sgxSendFile_none (fd : Stream) (buf : CharBuf) :
    ∃ rest, sgxSendFile none fd buf = some ([.rsp400, .fclose false], rest) := by
  obtain ⟨⟨rest, buf', u⟩, hskip⟩ :=
    Option.isSome_iff_exists.mp (drain_returns (fun buf s => (buf, s)) fd buf ())
  refine ⟨rest, ?_⟩
  rw [sgxSendFile, skipHeaders, hskip]
  rfl

theorem sgxSendFile_some (content : List Byte) (fd : Stream) (buf : CharBuf) :
    ∃ writes rest, sgxSendFile (some content) fd buf =
        some (.rsp200 :: (writes ++ [.fclose true]), rest) ∧
      (∀ event ∈ writes, ∃ bytes, event = .write bytes) ∧
      (written writes = content ↔ 0 ∉ content) := by
  obtain ⟨⟨rest, buf', u⟩, hskip⟩ :=
    Option.isSome_iff_exists.mp (drain_returns (fun buf s => (buf, s)) fd buf ())
  obtain ⟨writes, hloop, -, hiff⟩ :=
    @sendLoop_written (content.length + 1) (Library.Stdio.fopen content) (Nat.lt_succ_self _)
      (fun h => absurd h Bool.false_ne_true) buf'
  refine ⟨writes, rest, ?_, fun event => mem_sendLoop hloop, hiff⟩
  rw [sgxSendFile, skipHeaders, hskip]
  simp [hloop]

section carried

variable (site : Site σ) (fd : Stream) (inner : CharBuf) {c : Byte}

theorem carryOutAll_answer {event : AcceptEvent} {first : List (ConnectionPart σ)}
    (hfirst : carryOut site fd inner event = some first) (path : List Byte) :
    carryOutAll site fd inner [.stat path, event, .close] =
      some ([.event (.stat path)] ++ (first ++ [.event .close])) := by
  have hstat : carryOut site fd inner (.stat path) = some [.event (.stat path)] := rfl
  have hclose : carryOut site fd inner .close = some [.event .close] := rfl
  simp [carryOutAll, hstat, hfirst, hclose]

theorem follows_answer_iff {path : List Byte} {first : List (ConnectionPart σ)}
    {events : List ConnectionEvent} :
    Follows site c ([.event (.stat path)] ++ (first ++ [.event .close])) events ↔
      ∃ between, Follows site c first between ∧ events = [.stat path] ++ (between ++ [.close]) := by
  have hstat (events : List ConnectionEvent) := @follows_events_iff σ site c [.stat path] events
  have hclose (events : List ConnectionEvent) := @follows_events_iff σ site c [.close] events
  simp only [List.map_cons, List.map_nil] at hstat hclose
  simp only [follows_append_iff, hstat, hclose]
  constructor
  · rintro ⟨_, _, rfl, ⟨between, _, hbetween, rfl, rfl⟩, rfl⟩
    exact ⟨between, hbetween, rfl⟩
  · rintro ⟨between, hbetween, rfl⟩
    exact ⟨_, _, rfl, ⟨between, _, hbetween, rfl, rfl⟩, rfl⟩

theorem finishes_answer_iff {path : List Byte} {first : List (ConnectionPart σ)} :
    Finishes site c ([.event (.stat path)] ++ (first ++ [.event .close])) ↔
      Finishes site c first := by
  simp [Finishes]

theorem disposed_answer {path : List Byte} {first : List ConnectionEvent}
    (hstatus : first.countP ConnectionEvent.isStatus = 1) (hopen : .close ∉ first)
    (hprogram : programEvents first ⊆ [.rsp400] ∨
      CgiCounted (site.cgi path) (programEvents first)) :
    Disposed site ([.stat path] ++ (first ++ [.close])) := by
  have hevents : programEvents ([.stat path] ++ (first ++ [.close])) = programEvents first := by
    simp [programEvents, List.filterMap_append]
  constructor
  · rw [List.countP_append, List.countP_append, hstatus]
    rfl
  · refine ⟨[.stat path] ++ first, (List.append_assoc _ _ _).symm, ?_⟩
    simp [hopen]
  · rw [hevents]
    apply hprogram.imp_right
    intro hcounted
    exact ⟨path, by simp, hcounted⟩

theorem programEvents_map (events : List CgiEvent) :
    programEvents (events.map .cgi) = events := by
  simp [programEvents, List.filterMap_map]

theorem disposed_cgi {path : List Byte} {events : List CgiEvent}
    (hstatus : events.countP CgiEvent.isStatus = 1)
    (hcounted : events ⊆ [.rsp400] ∨ CgiCounted (site.cgi path) events) :
    Disposed site ([.stat path] ++ (events.map .cgi ++ [.close])) := by
  apply disposed_answer
  · rw [List.countP_map, ← hstatus]
    rfl
  · simp
  · rwa [programEvents_map]

theorem disposed_program {path : List Byte} {start : CgiStart} {rest : Stream} {x : σ}
    (hcounted : start.Counted (site.cgi path)) {between : List ConnectionEvent}
    (h : Follows site c (start.parts rest x) between) :
    Disposed site ([.stat path] ++ (between ++ [.close])) := by
  cases start with
  | returned events =>
    have hmap : (CgiStart.returned events).parts rest x = (events.map .cgi).map .event := by
      rw [List.map_map]
      rfl
    rw [hmap, follows_events_iff] at h
    rw [h]
    exact disposed_cgi site hcounted.1 hcounted.2
  | forked total =>
    cases h with
    | exchange hrun hreturned h =>
      cases h
      rw [List.append_nil, hrun.sound.events_returned hreturned]
      have hall (output : List Byte) := relayEvents_counted hcounted total rest c output
      exact disposed_cgi site (hall _).status (.inr (hall _))

theorem carryOut_sendFile {path content : List Byte} (hopen : site.fopen path = some content) :
    ∃ writes, carryOut site fd inner (.sendFile path) =
        some (((SendEvent.rsp200 :: (writes ++ [SendEvent.fclose true])).map .send).map .event) ∧
      (∀ event ∈ writes, ∃ bytes, event = .write bytes) ∧
      (written writes = content ↔ 0 ∉ content) := by
  obtain ⟨writes, rest, hrun, hwrites, hiff⟩ := sgxSendFile_some content fd inner
  refine ⟨writes, ?_, hwrites, hiff⟩
  have hclosed : SendEvent.fclose false ∉ SendEvent.rsp200 :: (writes ++ [.fclose true]) := by
    intro hmem
    simp only [List.mem_cons, List.mem_append, reduceCtorEq, false_or,
      SendEvent.fclose.injEq, Bool.false_eq_true, List.not_mem_nil, or_false] at hmem
    obtain ⟨bytes, heq⟩ := hwrites _ hmem
    cases heq
  rw [carryOut, hopen, hrun, List.map_map]
  exact if_neg hclosed

theorem disposed_file {path : List Byte} {writes : List SendEvent}
    (hwrites : ∀ event ∈ writes, ∃ bytes, event = .write bytes) :
    Disposed site ([.stat path] ++
      ((SendEvent.rsp200 :: (writes ++ [SendEvent.fclose true])).map .send ++ [.close])) := by
  apply disposed_answer
  · have hnone : writes.countP SendEvent.isStatus = 0 := by
      apply List.countP_eq_zero.mpr
      intro event hevent
      obtain ⟨bytes, rfl⟩ := hwrites event hevent
      exact Bool.false_ne_true
    have hsend : ConnectionEvent.isStatus ∘ ConnectionEvent.send = SendEvent.isStatus := rfl
    rw [List.countP_map, hsend, List.countP_cons, List.countP_append, hnone]
    rfl
  · simp
  · left
    simp [programEvents, List.filterMap_map]

end carried

def Served (site : Site σ) (line : List Byte) : Prop :=
  ∀ path, .sendFile path ∈ dispatch site.stat line → (site.fopen path).isSome

def ChildSuits (site : Site σ) (fd : Stream) (inner : CharBuf) (c : Byte)
    (line : List Byte) : Prop :=
  ∀ path type query total rest, .requestCgi path type query ∈ dispatch site.stat line →
    sgxRequestCgi (site.cgi path) (literal type) fd inner = some (.forked total, rest) →
      ∃ ops, Calls site.program (site.start path type query) (relayed total rest c) ops ∧
        Completes ops total site.outRoom site.inRoom

theorem finishes_parts_iff (site : Site σ) {c : Byte} {start : CgiStart} {rest : Stream} {x : σ} :
    Finishes site c (start.parts rest x) ↔ ∀ total, start = .forked total →
      ∃ ops, Calls site.program x (relayed total rest c) ops ∧
        Completes ops total site.outRoom site.inRoom := by
  cases start with
  | returned events => simp [Finishes, CgiStart.parts]
  | forked total =>
    simp only [Finishes, CgiStart.parts, List.mem_singleton, ConnectionPart.exchange.injEq,
      CgiStart.forked.injEq]
    constructor
    · rintro h total rfl
      exact (returns_iff site.outRoom_pos site.inRoom_pos).mp (h _ _ _ ⟨rfl, rfl, rfl⟩)
    · rintro h total rest x ⟨rfl, rfl, rfl⟩
      exact (returns_iff site.outRoom_pos site.inRoom_pos).mpr (h _ rfl)

theorem dispatch_carried (site : Site σ) (fd : Stream) (inner : CharBuf) (c : Byte)
    {line : List Byte} (h : Served site line) :
    ∃ parts, carryOutAll site fd inner (dispatch site.stat line) = some parts ∧
      (∀ events, Follows site c parts events → Disposed site events) ∧
      (Finishes site c parts ↔ ChildSuits site fd inner c line) := by
  rw [Served] at h
  rw [ChildSuits]
  rw [dispatch] at h ⊢
  by_cases haccepted : Accepted line
  swap
  · rw [if_pos haccepted]
    refine ⟨[.rsp501, .close].map .event, rfl, ?_, by simp [Finishes]⟩
    intro events hevents
    rw [follows_events_iff.mp hevents]
    exact ⟨rfl, ⟨[.rsp501], rfl, by simp⟩, .inl (List.nil_subset _)⟩
  rw [if_neg (not_not.mpr haccepted)] at h ⊢
  dsimp only at h ⊢
  cases hstat : site.stat (dot :: target line) with
  | none =>
    refine ⟨_, carryOutAll_answer site fd inner rfl _, ?_, by simp [Finishes]⟩
    intro events hevents
    obtain ⟨between, hbetween, rfl⟩ := (follows_answer_iff site).mp hevents
    obtain rfl := (@follows_events_iff σ site c [.rsp404] _).mp hbetween
    exact disposed_answer site rfl (by simp) (.inl (List.nil_subset _))
  | some mode =>
    rw [hstat] at h
    dsimp only at h ⊢
    split_ifs at h ⊢
    · obtain ⟨start, rest, hstart, hcounted⟩ := sgxRequestCgi_counted
        (site.cgi (dot :: target line)) (literal (typeWord line)) fd inner
      refine ⟨_, carryOutAll_answer site fd inner (by rw [carryOut, hstart]; rfl) _, ?_, ?_⟩
      · intro events hevents
        obtain ⟨between, hbetween, rfl⟩ := (follows_answer_iff site).mp hevents
        exact disposed_program site hcounted hbetween
      · rw [finishes_answer_iff, finishes_parts_iff]
        constructor
        · intro hfinishes path type query total rest' hmem hforked
          simp only [List.mem_cons, AcceptEvent.requestCgi.injEq, reduceCtorEq, List.not_mem_nil,
            or_false, false_or] at hmem
          obtain ⟨rfl, rfl, rfl⟩ := hmem
          have heq := Option.some.inj (hstart.symm.trans hforked)
          obtain rfl := congrArg Prod.snd heq
          exact hfinishes total (congrArg Prod.fst heq)
        · rintro hsuits total rfl
          exact hsuits _ _ _ total rest (by simp) hstart
    · obtain ⟨content, hopen⟩ := Option.isSome_iff_exists.mp
        (h (dot :: target line) (List.mem_cons_of_mem _ List.mem_cons_self))
      obtain ⟨writes, hrun, hwrites, -⟩ := carryOut_sendFile site fd inner hopen
      refine ⟨_, carryOutAll_answer site fd inner hrun _, ?_, by simp [Finishes]⟩
      intro events hevents
      obtain ⟨between, hbetween, rfl⟩ := (follows_answer_iff site).mp hevents
      rw [follows_events_iff.mp hbetween]
      exact disposed_file site hwrites

theorem unopened_not_carried (site : Site σ) (fd : Stream) (inner : CharBuf)
    {path : List Byte} (hopen : site.fopen path = none) {events : List AcceptEvent}
    (hmem : .sendFile path ∈ events) : carryOutAll site fd inner events = none := by
  induction events with
  | nil => cases hmem
  | cons event events ih =>
    rw [carryOutAll]
    rcases List.mem_cons.mp hmem with rfl | hmem
    · obtain ⟨rest, hrun⟩ := sgxSendFile_none fd inner
      rw [carryOut, hopen, hrun]
      rfl
    · rw [ih hmem]
      cases carryOut site fd inner event with
      | none => rfl
      | some first => rfl

theorem serveConnection_eq (site : Site σ) (fd : Stream) (buf type path inner : CharBuf)
    (h : Accepted (received fd) →
      31 ≤ (received fd).length ∨ ∃ c ∈ received fd, shIsspace c = true) :
    serveConnection site fd buf type path inner =
      carryOutAll site (sgxGetFdLine fd buf intBuf).2.2 inner
        (dispatch site.stat (received fd)) := by
  obtain ⟨hlen, after, hline⟩ := getFdLine_received fd
  rw [serveConnection, accept_line site.stat hlen (hline buf) type path h, Option.bind_eq_bind,
    Option.bind_some]

theorem connection_answers_once_iff (site : Site σ) (fd : Stream)
    (buf type path inner : CharBuf) (c : Byte)
    (h : Accepted (received fd) →
      31 ≤ (received fd).length ∨ ∃ c ∈ received fd, shIsspace c = true) :
    (∃ parts, serveConnection site fd buf type path inner = some parts ∧
      Finishes site c parts ∧ ∀ events, Follows site c parts events → Disposed site events) ↔
      Served site (received fd) ∧
        ChildSuits site (sgxGetFdLine fd buf intBuf).2.2 inner c (received fd) := by
  rw [serveConnection_eq site fd buf type path inner h]
  constructor
  · rintro ⟨parts, hparts, hfinishes, -⟩
    have hserved : Served site (received fd) := by
      intro path hpath
      rw [Option.isSome_iff_ne_none]
      intro hopen
      rw [unopened_not_carried site _ inner hopen hpath] at hparts
      cases hparts
    obtain ⟨parts', hparts', -, hiff⟩ := dispatch_carried site _ inner c hserved
    obtain rfl := Option.some.inj (hparts.symm.trans hparts')
    exact ⟨hserved, hiff.mp hfinishes⟩
  · rintro ⟨hserved, hsuits⟩
    obtain ⟨parts, hparts, hdisposed, hiff⟩ := dispatch_carried site _ inner c hserved
    exact ⟨parts, hparts, hiff.mpr hsuits, hdisposed⟩

def echoSite : Site (List ScriptOp) where
  stat _ := some 420
  fopen _ := some [chr 'h', chr 'i']
  cgi _ := ⟨true, true, true⟩
  program := script
  start _ _ query := (query.getD []).map .write
  outRoom := 4
  inRoom := 4
  outRoom_pos := Nat.succ_pos 3
  inRoom_pos := Nat.succ_pos 3

def getQuery : Stream := sent ("GET /a?b HTTP/1.1".toList.map chr ++ [cr, lf, cr, lf])

theorem connection_answers_once_query :
    ∃ parts, serveConnection echoSite getQuery (fun _ => 0) (fun _ => 0) (fun _ => 0)
        (fun _ => 0) = some parts ∧
      Finishes echoSite 0 parts ∧ ∀ events, Follows echoSite 0 parts events →
        Disposed echoSite events := by
  have hdispatch : dispatch echoSite.stat (received getQuery) =
      [.stat ("./a".toList.map chr),
        .requestCgi ("./a".toList.map chr) ("GET".toList.map chr) (some [chr 'b']), .close] := by
    decide +kernel
  apply (connection_answers_once_iff echoSite getQuery _ _ _ _ _ ?_).mpr
  · refine ⟨fun _ _ => rfl, ?_⟩
    intro path type query total rest hmem hforked
    rw [hdispatch] at hmem
    simp only [List.mem_cons, AcceptEvent.requestCgi.injEq, reduceCtorEq, List.not_mem_nil,
      or_false, false_or] at hmem
    obtain ⟨rfl, rfl, rfl⟩ := hmem
    have hnone : sgxRequestCgi (echoSite.cgi ("./a".toList.map chr))
        (literal ("GET".toList.map chr)) (sgxGetFdLine getQuery (fun _ => 0) intBuf).2.2
        (fun _ => 0) = some (.forked 0, []) := rfl
    obtain rfl := CgiStart.forked.inj
      (congrArg Prod.fst (Option.some.inj (hnone.symm.trans hforked)))
    exact ⟨[.write (chr 'b')], calls_script (Nat.zero_le _), by decide⟩
  · exact fun _ => .inr ⟨chr ' ', by decide +kernel, by decide⟩

def delivered (events : List ConnectionEvent) : List Byte :=
  writtenAfterHeader (events.filterMap fun
    | .send event => some event
    | _ => none)

theorem get_delivers_iff (site : Site σ) (fd : Stream) (buf type path inner : CharBuf)
    (haccepted : Accepted (received fd))
    (hends : 31 ≤ (received fd).length ∨ ∃ c ∈ received fd, shIsspace c = true)
    (hplain : ¬ AsksProgram (received fd)) {mode : ℕ} {content : List Byte}
    (hstat : site.stat (dot :: target (received fd)) = some mode) (hmode : ¬ executable mode)
    (hopen : site.fopen (dot :: target (received fd)) = some content) :
    (∃ events, serveConnection site fd buf type path inner = some (events.map .event) ∧
      delivered events = content) ↔ 0 ∉ content := by
  have hdispatch : dispatch site.stat (received fd) =
      [.stat (dot :: target (received fd)), .sendFile (dot :: target (received fd)), .close] := by
    rw [dispatch, if_neg (not_not.mpr haccepted)]
    simp [hstat, hplain, hmode]
  obtain ⟨writes, hrun, -, hiff⟩ :=
    carryOut_sendFile site (sgxGetFdLine fd buf intBuf).2.2 inner hopen
  obtain ⟨events, hevents⟩ : ∃ events : List ConnectionEvent,
      events = [.stat (dot :: target (received fd))] ++
        ((SendEvent.rsp200 :: (writes ++ [SendEvent.fclose true])).map .send ++ [.close]) :=
    ⟨_, rfl⟩
  have hserved : serveConnection site fd buf type path inner = some (events.map .event) := by
    rw [serveConnection_eq site fd buf type path inner fun _ => hends, hdispatch,
      carryOutAll_answer site _ inner hrun, hevents, List.map_append, List.map_append]
    rfl
  have hwritten : delivered events = written writes := by
    simp [hevents, delivered, List.filterMap_append, List.filterMap_map, writtenAfterHeader,
      written]
  rw [hserved, ← hiff, ← hwritten]
  constructor
  · rintro ⟨events', heq, hdelivered⟩
    have hinjective : Function.Injective (ConnectionPart.event (σ := σ)) :=
      fun _ _ h => ConnectionPart.event.inj h
    rw [List.map_injective_iff.mpr hinjective (Option.some.inj heq), hdelivered]
  · intro hdelivered
    exact ⟨events, rfl, hdelivered⟩

def getPage : Stream := sent ("GET /a HTTP/1.1".toList.map chr ++ [cr, lf, cr, lf])

theorem get_delivers_page :
    ∃ events, serveConnection echoSite getPage (fun _ => 0) (fun _ => 0) (fun _ => 0)
      (fun _ => 0) = some (events.map .event) ∧ delivered events = [chr 'h', chr 'i'] := by
  apply (get_delivers_iff echoSite getPage _ _ _ _ ?_ ?_ ?_ rfl ?_ rfl).mpr
  · decide
  · exact .inr (by decide +kernel)
  · exact .inr ⟨chr ' ', by decide +kernel, by decide⟩
  · decide +kernel
  · decide

end Sginx.Mini
