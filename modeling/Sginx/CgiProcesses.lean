import Sginx.CgiRelay
import Sginx.Library.BoundedPipe
import Sginx.Library.Transition

/-!
`sgx_request_cgi` of `test/sgx_mini.c` from `fork` on: the parent, the child and the two pipes, in
every order of their steps. What the child executes is a parameter. The source does not touch
`SIGPIPE`, so that a `write` to a pipe without a reader ends the process.
-/

namespace Sginx.Mini

open Sginx.Http (Byte)
open Sginx.Library.BoundedPipe
open Sginx.Library.Transition

inductive Process where
  | parent
  | child
deriving DecidableEq, Repr

/-- The next system call of the program that the child executes, for one byte. -/
inductive ChildOp (σ : Type) where
  | read (next : Option Byte → σ)
  | write (c : Byte) (next : σ)
  | exit

inductive ScriptOp where
  | read
  | write (c : Byte)
deriving DecidableEq, Repr

def script : List ScriptOp → ChildOp (List ScriptOp)
  | [] => .exit
  | .read :: ops => .read fun _ => ops
  | .write c :: ops => .write c ops

inductive ParentPc where
  -- before the status line is sent
  | okLine
  -- before `close(sgx_pocgi[1])`
  | closeOutput
  -- before `close(sgx_picgi[0])`
  | closeInput
  -- before the test of `i`, with `n` rounds to go
  | readBody (n : ℕ)
  -- before `write` to the child
  | writeBody (n : ℕ)
  | readOutput
  | writeOutput
  -- before `close(sgx_pocgi[0])`
  | closePocgi
  -- before `close(sgx_picgi[1])`
  | closePicgi
  | waitpid
  | returned
  | killed
deriving DecidableEq, Repr

inductive ChildPc (σ : Type) where
  -- before the two calls of `dup2`
  | dupOutput
  | dupInput
  -- before `close(sgx_pocgi[0])`
  | closeOutput
  -- before `close(sgx_picgi[1])`
  | closeInput
  | running (x : σ)
  | exited

def ChildPc.hasExited {σ : Type} : ChildPc σ → Bool
  | .exited => true
  | _ => false

/-- `fd` and `c` are the socket of the client and `sgx_c` of the parent, and `events` what the parent
has done, oldest first. -/
structure Exchange (σ : Type) where
  parent : ParentPc
  child : ChildPc σ
  pocgi : Pipe Process Byte
  picgi : Pipe Process Byte
  fd : Stream
  c : Byte
  events : List CgiEvent

variable {σ : Type}

/-- Both processes have all the ends open. -/
def forked (outRoom inRoom : ℕ) (fd : Stream) (c : Byte) : Exchange σ where
  parent := .okLine
  child := .dupOutput
  pocgi := .empty outRoom [.parent, .child]
  picgi := .empty inRoom [.parent, .child]
  fd := fd
  c := c
  events := []

def parentStep (total : ℕ) (s : Exchange σ) : Option (Exchange σ) :=
  match s.parent with
  | .okLine => some { s with
      parent := .closeOutput
      events := s.events ++ [.toClient okLine] }
  | .closeOutput => some { s with
      parent := .closeInput
      pocgi := s.pocgi.closeWriter .parent
      events := s.events ++ [.close (.pocgi writeEnd)] }
  | .closeInput => some { s with
      parent := .readBody total
      picgi := s.picgi.closeReader .parent
      events := s.events ++ [.close (.picgi readEnd)] }
  | .readBody 0 => some { s with parent := .readOutput }
  | .readBody (n + 1) =>
    let (answer, fd) := read s.fd
    some { s with parent := .writeBody n, fd := fd, c := answer.getD s.c }
  | .writeBody n =>
    match s.picgi.write s.c with
    | .stored picgi => some { s with
        parent := .readBody n
        picgi := picgi
        events := s.events ++ [.toChild s.c] }
    | .blocked => none
    | .broken => some { s with
        parent := .killed
        pocgi := s.pocgi.leave .parent
        picgi := s.picgi.leave .parent }
  | .readOutput =>
    match s.pocgi.read with
    | .item c pocgi => some { s with parent := .writeOutput, pocgi := pocgi, c := c }
    | .endOfFile => some { s with parent := .closePocgi }
    | .blocked => none
  | .writeOutput => some { s with
      parent := .readOutput
      events := s.events ++ [.toClient [s.c]] }
  | .closePocgi => some { s with
      parent := .closePicgi
      pocgi := s.pocgi.closeReader .parent
      events := s.events ++ [.close (.pocgi readEnd)] }
  | .closePicgi => some { s with
      parent := .waitpid
      picgi := s.picgi.closeWriter .parent
      events := s.events ++ [.close (.picgi writeEnd)] }
  | .waitpid =>
    if s.child.hasExited then some { s with
      parent := .returned
      events := s.events ++ [.waitpid] }
    else none
  | .returned => none
  | .killed => none

def Exchange.exit (s : Exchange σ) : Exchange σ :=
  { s with
    child := .exited
    pocgi := s.pocgi.leave .child
    picgi := s.picgi.leave .child }

/-- `x` is where the program begins. It keeps the two ends that `dup2` has copied until it exits,
whatever it does to its standard streams. -/
def childStep (program : σ → ChildOp σ) (x : σ) (s : Exchange σ) : Option (Exchange σ) :=
  match s.child with
  | .dupOutput => some { s with child := .dupInput, pocgi := s.pocgi.openWriter .child }
  | .dupInput => some { s with child := .closeOutput, picgi := s.picgi.openReader .child }
  | .closeOutput => some { s with child := .closeInput, pocgi := s.pocgi.closeReader .child }
  | .closeInput => some { s with child := .running x, picgi := s.picgi.closeWriter .child }
  | .running y =>
    match program y with
    | .read next =>
      match s.picgi.read with
      | .item c picgi => some { s with child := .running (next (some c)), picgi := picgi }
      | .endOfFile => some { s with child := .running (next none) }
      | .blocked => none
    | .write c next =>
      match s.pocgi.write c with
      | .stored pocgi => some { s with child := .running next, pocgi := pocgi }
      | .blocked => none
      | .broken => some s.exit
    | .exit => some s.exit
  | .exited => none

def exchangeStep (program : σ → ChildOp σ) (x : σ) (total : ℕ) (s : Exchange σ) :
    Process → Option (Exchange σ)
  | .parent => parentStep total s
  | .child => childStep program x s

def ExchangeRun (program : σ → ChildOp σ) (x : σ) (total outRoom inRoom : ℕ) (fd : Stream)
    (c : Byte) (s : Exchange σ) : Prop :=
  Reachable (fun s₀ => s₀ = forked outRoom inRoom fd c) (exchangeStep program x total) s

inductive ParentMove (total : ℕ) (s : Exchange σ) : Exchange σ → Prop where
  | okLine (hpc : s.parent = .okLine) : ParentMove total s { s with
      parent := .closeOutput
      events := s.events ++ [.toClient okLine] }
  | closeOutput (hpc : s.parent = .closeOutput) : ParentMove total s { s with
      parent := .closeInput
      pocgi := s.pocgi.closeWriter .parent
      events := s.events ++ [.close (.pocgi writeEnd)] }
  | closeInput (hpc : s.parent = .closeInput) : ParentMove total s { s with
      parent := .readBody total
      picgi := s.picgi.closeReader .parent
      events := s.events ++ [.close (.picgi readEnd)] }
  | leaveLoop (hpc : s.parent = .readBody 0) : ParentMove total s { s with parent := .readOutput }
  | readBody (n) (hpc : s.parent = .readBody (n + 1)) : ParentMove total s { s with
      parent := .writeBody n
      fd := (read s.fd).2
      c := (read s.fd).1.getD s.c }
  | writeBody (n picgi) (hpc : s.parent = .writeBody n) (hwrite : s.picgi.write s.c = .stored picgi) :
      ParentMove total s { s with
        parent := .readBody n
        picgi := picgi
        events := s.events ++ [.toChild s.c] }
  | killed (n) (hpc : s.parent = .writeBody n) (hwrite : s.picgi.write s.c = .broken) :
      ParentMove total s { s with
        parent := .killed
        pocgi := s.pocgi.leave .parent
        picgi := s.picgi.leave .parent }
  | readOutput (c pocgi) (hpc : s.parent = .readOutput) (hread : s.pocgi.read = .item c pocgi) :
      ParentMove total s { s with parent := .writeOutput, pocgi := pocgi, c := c }
  | endOfFile (hpc : s.parent = .readOutput) (hread : s.pocgi.read = .endOfFile) :
      ParentMove total s { s with parent := .closePocgi }
  | writeOutput (hpc : s.parent = .writeOutput) : ParentMove total s { s with
      parent := .readOutput
      events := s.events ++ [.toClient [s.c]] }
  | closePocgi (hpc : s.parent = .closePocgi) : ParentMove total s { s with
      parent := .closePicgi
      pocgi := s.pocgi.closeReader .parent
      events := s.events ++ [.close (.pocgi readEnd)] }
  | closePicgi (hpc : s.parent = .closePicgi) : ParentMove total s { s with
      parent := .waitpid
      picgi := s.picgi.closeWriter .parent
      events := s.events ++ [.close (.picgi writeEnd)] }
  | waitpid (hpc : s.parent = .waitpid) (hexited : s.child.hasExited = true) :
      ParentMove total s { s with
        parent := .returned
        events := s.events ++ [.waitpid] }

theorem parentStep_move {total : ℕ} {s s' : Exchange σ} (hstep : parentStep total s = some s') :
    ParentMove total s s' := by
  cases hpc : s.parent with
  | okLine =>
    simp only [parentStep, hpc] at hstep
    obtain rfl := Option.some.inj hstep
    exact .okLine hpc
  | closeOutput =>
    simp only [parentStep, hpc] at hstep
    obtain rfl := Option.some.inj hstep
    exact .closeOutput hpc
  | closeInput =>
    simp only [parentStep, hpc] at hstep
    obtain rfl := Option.some.inj hstep
    exact .closeInput hpc
  | readBody n =>
    cases n with
    | zero =>
      simp only [parentStep, hpc] at hstep
      obtain rfl := Option.some.inj hstep
      exact .leaveLoop hpc
    | succ n =>
      simp only [parentStep, hpc] at hstep
      obtain rfl := Option.some.inj hstep
      exact .readBody n hpc
  | writeBody n =>
    simp only [parentStep, hpc] at hstep
    cases hwrite : s.picgi.write s.c with
    | stored picgi =>
      simp only [hwrite] at hstep
      obtain rfl := Option.some.inj hstep
      exact .writeBody n picgi hpc hwrite
    | blocked => simp only [hwrite, reduceCtorEq] at hstep
    | broken =>
      simp only [hwrite] at hstep
      obtain rfl := Option.some.inj hstep
      exact .killed n hpc hwrite
  | readOutput =>
    simp only [parentStep, hpc] at hstep
    cases hread : s.pocgi.read with
    | item c pocgi =>
      simp only [hread] at hstep
      obtain rfl := Option.some.inj hstep
      exact .readOutput c pocgi hpc hread
    | endOfFile =>
      simp only [hread] at hstep
      obtain rfl := Option.some.inj hstep
      exact .endOfFile hpc hread
    | blocked => simp only [hread, reduceCtorEq] at hstep
  | writeOutput =>
    simp only [parentStep, hpc] at hstep
    obtain rfl := Option.some.inj hstep
    exact .writeOutput hpc
  | closePocgi =>
    simp only [parentStep, hpc] at hstep
    obtain rfl := Option.some.inj hstep
    exact .closePocgi hpc
  | closePicgi =>
    simp only [parentStep, hpc] at hstep
    obtain rfl := Option.some.inj hstep
    exact .closePicgi hpc
  | waitpid =>
    simp only [parentStep, hpc] at hstep
    split_ifs at hstep with hexited
    obtain rfl := Option.some.inj hstep
    exact .waitpid hpc hexited
  | returned => simp only [parentStep, hpc, reduceCtorEq] at hstep
  | killed => simp only [parentStep, hpc, reduceCtorEq] at hstep

inductive ChildMove (program : σ → ChildOp σ) (x : σ) (s : Exchange σ) : Exchange σ → Prop where
  | dupOutput (hpc : s.child = .dupOutput) :
      ChildMove program x s { s with child := .dupInput, pocgi := s.pocgi.openWriter .child }
  | dupInput (hpc : s.child = .dupInput) :
      ChildMove program x s { s with child := .closeOutput, picgi := s.picgi.openReader .child }
  | closeOutput (hpc : s.child = .closeOutput) :
      ChildMove program x s { s with child := .closeInput, pocgi := s.pocgi.closeReader .child }
  | closeInput (hpc : s.child = .closeInput) :
      ChildMove program x s { s with child := .running x, picgi := s.picgi.closeWriter .child }
  | read (y next c picgi) (hpc : s.child = .running y) (hop : program y = .read next)
      (hread : s.picgi.read = .item c picgi) :
      ChildMove program x s { s with child := .running (next (some c)), picgi := picgi }
  | endOfFile (y next) (hpc : s.child = .running y) (hop : program y = .read next)
      (hread : s.picgi.read = .endOfFile) :
      ChildMove program x s { s with child := .running (next none) }
  | write (y c next pocgi) (hpc : s.child = .running y) (hop : program y = .write c next)
      (hwrite : s.pocgi.write c = .stored pocgi) :
      ChildMove program x s { s with child := .running next, pocgi := pocgi }
  | killed (y c next) (hpc : s.child = .running y) (hop : program y = .write c next)
      (hwrite : s.pocgi.write c = .broken) : ChildMove program x s s.exit
  | exit (y) (hpc : s.child = .running y) (hop : program y = .exit) : ChildMove program x s s.exit

theorem childStep_move {program : σ → ChildOp σ} {x : σ} {s s' : Exchange σ}
    (hstep : childStep program x s = some s') : ChildMove program x s s' := by
  cases hpc : s.child with
  | dupOutput =>
    simp only [childStep, hpc] at hstep
    obtain rfl := Option.some.inj hstep
    exact .dupOutput hpc
  | dupInput =>
    simp only [childStep, hpc] at hstep
    obtain rfl := Option.some.inj hstep
    exact .dupInput hpc
  | closeOutput =>
    simp only [childStep, hpc] at hstep
    obtain rfl := Option.some.inj hstep
    exact .closeOutput hpc
  | closeInput =>
    simp only [childStep, hpc] at hstep
    obtain rfl := Option.some.inj hstep
    exact .closeInput hpc
  | running y =>
    cases hop : program y with
    | read next =>
      simp only [childStep, hpc, hop] at hstep
      cases hread : s.picgi.read with
      | item c picgi =>
        simp only [hread] at hstep
        obtain rfl := Option.some.inj hstep
        exact .read y next c picgi hpc hop hread
      | endOfFile =>
        simp only [hread] at hstep
        obtain rfl := Option.some.inj hstep
        exact .endOfFile y next hpc hop hread
      | blocked => simp only [hread, reduceCtorEq] at hstep
    | write c next =>
      simp only [childStep, hpc, hop] at hstep
      cases hwrite : s.pocgi.write c with
      | stored pocgi =>
        simp only [hwrite] at hstep
        obtain rfl := Option.some.inj hstep
        exact .write y c next pocgi hpc hop hwrite
      | blocked => simp only [hwrite, reduceCtorEq] at hstep
      | broken =>
        simp only [hwrite] at hstep
        obtain rfl := Option.some.inj hstep
        exact .killed y c next hpc hop hwrite
    | exit =>
      simp only [childStep, hpc, hop] at hstep
      obtain rfl := Option.some.inj hstep
      exact .exit y hpc hop
  | exited => simp only [childStep, hpc, reduceCtorEq] at hstep

end Sginx.Mini
