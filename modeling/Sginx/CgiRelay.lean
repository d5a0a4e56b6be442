import Sginx.HeaderDrain
import Sginx.RequestCgi

namespace Sginx.Mini

open Sginx.Http (Byte)

def childInput (events : List CgiEvent) : List Byte :=
  events.filterMap fun
    | .toChild c => some c
    | _ => none

theorem childInput_append (xs ys : List CgiEvent) :
    childInput (xs ++ ys) = childInput xs ++ childInput ys :=
  List.filterMap_append

/-- The character keeps its value where `read` gives none. -/
def relayBody : ℕ → Stream → Byte → List CgiEvent × Stream × Byte
  | 0, fd, c => ([], fd, c)
  | n + 1, fd, c =>
    let (answer, fd) := read fd
    let c := answer.getD c
    let (events, rest) := relayBody n fd c
    (.toChild c :: events, rest)

def relayOutput (output : List Byte) : List CgiEvent := output.map fun b => .toClient [b]

def relayEnd (output : List Byte) : List CgiEvent :=
  relayOutput output ++ [.close (.pocgi readEnd), .close (.picgi writeEnd), .waitpid]

def relayEvents (total : ℕ) (fd : Stream) (c : Byte) (output : List Byte) : List CgiEvent :=
  .toClient okLine :: .close (.pocgi writeEnd) :: .close (.picgi readEnd) ::
    ((relayBody total fd c).1 ++ relayEnd output)

theorem relayEnd_cons (b : Byte) (output : List Byte) :
    relayEnd (b :: output) = .toClient [b] :: relayEnd output := rfl

theorem childInput_relayEnd (output : List Byte) : childInput (relayEnd output) = [] := by
  induction output with
  | nil => rfl
  | cons b output ih => exact ih

def relayed (total : ℕ) (fd : Stream) (c : Byte) : List Byte := childInput (relayBody total fd c).1

theorem relayed_succ (n : ℕ) (fd : Stream) (c : Byte) :
    relayed (n + 1) fd c =
      (read fd).1.getD c :: relayed n (read fd).2 ((read fd).1.getD c) := rfl

theorem length_relayed (total : ℕ) (fd : Stream) (c : Byte) :
    (relayed total fd c).length = total := by
  induction total generalizing fd c with
  | zero => rfl
  | succ n ih => rw [relayed_succ, List.length_cons, ih]

theorem childInput_relayEvents (total : ℕ) (fd : Stream) (c : Byte) (output : List Byte) :
    childInput (relayEvents total fd c output) = relayed total fd c := by
  have hbody : childInput ((relayBody total fd c).1 ++ relayEnd output) = relayed total fd c := by
    rw [childInput_append, childInput_relayEnd, List.append_nil, relayed]
  exact hbody

theorem take_relayed (total : ℕ) (body : List Byte) (tail : Stream) (c : Byte) :
    (relayed total (sent body ++ tail) c).take (min total body.length) = body.take total := by
  induction total generalizing body c with
  | zero => rw [Nat.zero_min, List.take_zero, List.take_zero]
  | succ n ih =>
    cases body with
    | nil => rfl
    | cons b body =>
      rw [List.length_cons, Nat.succ_min_succ, relayed_succ, List.take_succ_cons,
        List.take_succ_cons]
      exact congrArg (b :: ·) (ih body b)

theorem relayed_sent {n : ℕ} {body : List Byte} (h : n ≤ body.length) (tail : Stream) (c : Byte) :
    relayed n (sent body ++ tail) c = body.take n := by
  have htake := take_relayed n body tail c
  rwa [Nat.min_eq_left h, List.take_of_length_le (length_relayed _ _ _).le] at htake

end Sginx.Mini
