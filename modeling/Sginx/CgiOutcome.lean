import Sginx.CgiDeadlock

namespace Sginx.Mini

open Sginx.Http (Byte)
open Sginx.Library.BoundedPipe
open Sginx.Library.Transition

def ScriptOp.isRead : ScriptOp → Bool
  | .read => true
  | .write _ => false

def reads (ops : List ScriptOp) : ℕ := ops.countP ScriptOp.isRead

def writes (ops : List ScriptOp) : ℕ := ops.countP fun op => ¬ op.isRead

@[simp] theorem reads_nil : reads [] = 0 := rfl

@[simp] theorem writes_nil : writes [] = 0 := rfl

@[simp] theorem reads_read (ops : List ScriptOp) : reads (.read :: ops) = reads ops + 1 :=
  List.countP_cons_of_pos rfl

@[simp] theorem reads_write (b : Byte) (ops : List ScriptOp) :
    reads (.write b :: ops) = reads ops :=
  List.countP_cons_of_neg Bool.false_ne_true

@[simp] theorem writes_read (ops : List ScriptOp) : writes (.read :: ops) = writes ops :=
  List.countP_cons_of_neg Bool.false_ne_true

@[simp] theorem writes_write (b : Byte) (ops : List ScriptOp) :
    writes (.write b :: ops) = writes ops + 1 :=
  List.countP_cons_of_pos rfl

@[simp] theorem reads_append (xs ys : List ScriptOp) : reads (xs ++ ys) = reads xs + reads ys :=
  List.countP_append

@[simp] theorem writes_append (xs ys : List ScriptOp) :
    writes (xs ++ ys) = writes xs + writes ys :=
  List.countP_append

theorem writes_add_reads (ops : List ScriptOp) : writes ops + reads ops = ops.length := by
  rw [List.length_eq_countP_add_countP ScriptOp.isRead, Nat.add_comm]
  rfl

def readsBefore : List ScriptOp → ℕ → ℕ
  | [], _ => 0
  | .read :: ops, k => readsBefore ops k + 1
  | .write _ :: _, 0 => 0
  | .write _ :: ops, k + 1 => readsBefore ops k

theorem reads_le_readsBefore {done : List ScriptOp} (rest : List ScriptOp) {k : ℕ}
    (h : writes done ≤ k) : reads done ≤ readsBefore (done ++ rest) k := by
  induction done generalizing k with
  | nil => exact Nat.zero_le _
  | cons op done ih =>
    cases op with
    | read =>
      rw [writes_read] at h
      rw [reads_read, List.cons_append, readsBefore]
      exact Nat.succ_le_succ (ih h)
    | write b =>
      rw [writes_write] at h
      obtain ⟨k, rfl⟩ : ∃ j, k = j + 1 := ⟨k - 1, by omega⟩
      rw [reads_write, List.cons_append, readsBefore]
      exact ih (Nat.le_of_succ_le_succ h)

theorem readsBefore_write (done : List ScriptOp) (b : Byte) (rest : List ScriptOp) :
    readsBefore (done ++ .write b :: rest) (writes done) = reads done := by
  induction done with
  | nil => rfl
  | cons op done ih =>
    cases op with
    | read => rw [List.cons_append, writes_read, readsBefore, ih, reads_read]
    | write b' => rw [List.cons_append, writes_write, readsBefore, ih, reads_write]

variable {σ : Type} {program : σ → ChildOp σ} {x : σ} {total : ℕ} {s s' : Exchange σ}
variable {outRoom inRoom : ℕ} {fd : Stream} {c : Byte} {ops : List ScriptOp}

/-- What the program calls when it is given that input, and no end of file behind it. -/
inductive Calls (program : σ → ChildOp σ) : σ → List Byte → List ScriptOp → Prop where
  | exit {y input} (hop : program y = .exit) : Calls program y input []
  | write {y input b next ops} (hop : program y = .write b next) :
      Calls program next input ops → Calls program y input (.write b :: ops)
  | read {y b input next ops} (hop : program y = .read next) :
      Calls program (next (some b)) input ops → Calls program y (b :: input) (.read :: ops)
  | starved {y next} (hop : program y = .read next) : Calls program y [] [.read]

theorem Calls.of_exit {y : σ} {input : List Byte} (h : Calls program y input ops)
    (hop : program y = .exit) : ops = [] := by
  cases h with
  | exit => rfl
  | write hop' => rw [hop] at hop'; cases hop'
  | read hop' => rw [hop] at hop'; cases hop'
  | starved hop' => rw [hop] at hop'; cases hop'

theorem Calls.of_write {y next : σ} {b : Byte} {input : List Byte} (h : Calls program y input ops)
    (hop : program y = .write b next) :
    ∃ rest, ops = .write b :: rest ∧ Calls program next input rest := by
  cases h with
  | exit hop' => rw [hop] at hop'; cases hop'
  | write hop' hrest =>
    obtain ⟨rfl, rfl⟩ := ChildOp.write.inj (hop.symm.trans hop')
    exact ⟨_, rfl, hrest⟩
  | read hop' => rw [hop] at hop'; cases hop'
  | starved hop' => rw [hop] at hop'; cases hop'

theorem Calls.of_read {y : σ} {next : Option Byte → σ} {input : List Byte}
    (h : Calls program y input ops) (hop : program y = .read next) :
    ∃ rest, ops = .read :: rest ∧ ∀ b input', input = b :: input' →
      Calls program (next (some b)) input' rest := by
  cases h with
  | exit hop' => rw [hop] at hop'; cases hop'
  | write hop' => rw [hop] at hop'; cases hop'
  | read hop' hrest =>
    obtain rfl := ChildOp.read.inj (hop.symm.trans hop')
    refine ⟨_, rfl, ?_⟩
    rintro b input' ⟨⟩
    exact hrest
  | starved hop' => exact ⟨[], rfl, nofun⟩

theorem calls_script {ops : List ScriptOp} {input : List Byte} (h : reads ops ≤ input.length) :
    Calls script ops input ops := by
  induction ops generalizing input with
  | nil => exact .exit rfl
  | cons op ops ih =>
    cases op with
    | read =>
      rw [reads_read] at h
      cases input with
      | nil => exact absurd h (Nat.not_succ_le_zero _)
      | cons b input => exact .read rfl (ih (Nat.le_of_succ_le_succ h))
    | write b =>
      rw [reads_write] at h
      exact .write rfl (ih h)

def ParentPc.left (total : ℕ) : ParentPc → ℕ
  | .okLine => total
  | .closeOutput => total
  | .closeInput => total
  | .readBody n => n
  | .writeBody n => n + 1
  | _ => 0

theorem Sound.relayed (h : Sound total fd c s) (halive : s.parent ≠ .killed) :
    s.picgi.written ++ childInput (remaining total s []) = Mini.relayed total fd c := by
  have hinput := congrArg childInput (h.events halive [] (fun _ => rfl))
  rw [childInput_append, h.input, childInput_relayEvents] at hinput
  exact hinput

theorem length_remaining (total : ℕ) (s : Exchange σ) :
    (childInput (remaining total s [])).length = s.parent.left total := by
  have hall : (childInput (relayEvents total s.fd s.c [])).length = total := by
    rw [childInput_relayEvents, length_relayed]
  have hbody (n : ℕ) : (childInput ((relayBody n s.fd s.c).1 ++ relayEnd [])).length = n := by
    rw [childInput_append, childInput_relayEnd, List.append_nil]
    exact length_relayed n s.fd s.c
  cases hpc : s.parent with
  | okLine =>
    simp only [remaining, hpc]
    exact hall
  | closeOutput =>
    simp only [remaining, hpc]
    exact hall
  | closeInput =>
    simp only [remaining, hpc]
    exact hall
  | readBody n =>
    simp only [remaining, hpc]
    exact hbody n
  | writeBody n =>
    simp only [remaining, hpc]
    exact congrArg (· + 1) (hbody n)
  | _ =>
    simp only [remaining, hpc]
    rfl

theorem Sound.length_written (h : Sound total fd c s) (halive : s.parent ≠ .killed) :
    s.picgi.written.length + s.parent.left total = total := by
  have hlength := congrArg List.length (h.relayed halive)
  rwa [List.length_append, length_remaining, length_relayed] at hlength

def ParentPc.beforeOutput : ParentPc → Bool
  | .okLine => true
  | .closeOutput => true
  | .closeInput => true
  | .readBody _ => true
  | .writeBody _ => true
  | _ => false

def Placed (program : σ → ChildOp σ) (input : List Byte) (ops : List ScriptOp)
    (child : ChildPc σ) (wrote took : ℕ) : Prop :=
  match child with
  | .running y => ∃ done rest, ops = done ++ rest ∧ Calls program y (input.drop took) rest ∧
      wrote = writes done ∧ took = reads done
  | .exited => wrote = writes ops ∧ took = reads ops
  | _ => wrote = 0 ∧ took = 0

structure Tracked (program : σ → ChildOp σ) (total outRoom : ℕ) (input : List Byte)
    (ops : List ScriptOp) (s : Exchange σ) : Prop where
  placed : s.parent ≠ .killed →
    Placed program input ops s.child s.pocgi.written.length s.picgi.taken.length
  untouched : s.parent.beforeOutput = true → s.pocgi.taken = []
  killed : s.parent = .killed → reads ops < total ∧ writes ops ≤ outRoom

theorem tracked_parent (h : Tracked program total outRoom (relayed total fd c) ops s)
    (hsound : Sound total fd c s) (hcap : s.pocgi.capacity = outRoom) (halive : s.parent ≠ .killed)
    (hmove : ParentMove total s s') :
    Tracked program total outRoom (relayed total fd c) ops s' := by
  have hplaced := h.placed halive
  have huntouched := h.untouched
  cases hmove with
  | killed n hpc hwrite =>
    refine ⟨fun hne => absurd rfl hne, by rintro ⟨⟩, fun _ => ?_⟩
    rw [hsound.holders.inReaders_nil (Pipe.of_write_broken hwrite)] at hplaced
    obtain ⟨hwrote, htook⟩ :
      s.pocgi.written.length = writes ops ∧ s.picgi.taken.length = reads ops := hplaced
    have hlength := hsound.length_written halive
    simp only [hpc, ParentPc.left, Pipe.written, List.length_append] at hlength
    have hfits := s.pocgi.content_le
    rw [Pipe.written, huntouched (by rw [hpc]; rfl), List.nil_append] at hwrote
    omega
  | okLine hpc => exact ⟨fun _ => hplaced, fun _ => huntouched (by rw [hpc]; rfl), by rintro ⟨⟩⟩
  | closeOutput hpc =>
    exact ⟨fun _ => hplaced, fun _ => huntouched (by rw [hpc]; rfl), by rintro ⟨⟩⟩
  | closeInput hpc => exact ⟨fun _ => hplaced, fun _ => huntouched (by rw [hpc]; rfl), by rintro ⟨⟩⟩
  | readBody n hpc => exact ⟨fun _ => hplaced, fun _ => huntouched (by rw [hpc]; rfl), by rintro ⟨⟩⟩
  | writeBody n picgi hpc hwrite =>
    refine ⟨fun _ => ?_, fun _ => huntouched (by rw [hpc]; rfl), by rintro ⟨⟩⟩
    rw [(Pipe.of_write_stored hwrite).2.1]
    exact hplaced
  | readOutput b pocgi hpc hread =>
    refine ⟨fun _ => ?_, by rintro ⟨⟩, by rintro ⟨⟩⟩
    rw [Pipe.read_written hread]
    exact hplaced
  | _ => exact ⟨fun _ => hplaced, by rintro ⟨⟩, by rintro ⟨⟩⟩

theorem Sound.no_endOfFile (h : Sound total fd c s) (halive : s.parent ≠ .killed) {y : σ}
    (hpc : s.child = .running y) : s.picgi.read ≠ .endOfFile := by
  intro hread
  rcases h.holders.inWriters_nil (Pipe.of_read_endOfFile hread).2 with hparent | hparent | hparent
  · have hexited := h.exited_of_done (.inl hparent)
    rw [hpc] at hexited
    cases hexited
  · have hexited := h.exited_of_done (.inr hparent)
    rw [hpc] at hexited
    cases hexited
  · exact halive hparent

theorem Sound.drop_relayed (h : Sound total fd c s) (halive : s.parent ≠ .killed) {b : Byte}
    {picgi : Pipe Process Byte} (hread : s.picgi.read = .item b picgi) :
    (Mini.relayed total fd c).drop s.picgi.taken.length =
      b :: (Mini.relayed total fd c).drop picgi.taken.length := by
  obtain ⟨hcontent, htaken, -⟩ := Pipe.of_read_item hread
  have hdrop : (Mini.relayed total fd c).drop s.picgi.taken.length =
      b :: (picgi.content ++ childInput (remaining total s [])) := by
    rw [← h.relayed halive, Pipe.written, hcontent, List.append_assoc, List.drop_left]
    rfl
  rw [htaken, List.length_append, List.length_singleton, ← List.drop_drop, hdrop]
  rfl

theorem parent_child (hmove : ChildMove program x s s') : s'.parent = s.parent := by
  cases hmove <;> rfl

theorem taken_child (hmove : ChildMove program x s s') : s'.pocgi.taken = s.pocgi.taken := by
  cases hmove with
  | write y b next pocgi hpc hop hwrite => exact (Pipe.of_write_stored hwrite).2.1
  | _ => rfl

theorem tracked_child (hcalls : Calls program x (relayed total fd c) ops)
    (h : Tracked program total outRoom (relayed total fd c) ops s) (hsound : Sound total fd c s)
    (hmove : ChildMove program x s s') :
    Tracked program total outRoom (relayed total fd c) ops s' := by
  have hparent := parent_child hmove
  have htaken := taken_child hmove
  refine ⟨?_, by rw [hparent, htaken]; exact h.untouched, by rw [hparent]; exact h.killed⟩
  rw [hparent]
  intro halive
  have hplaced := h.placed halive
  cases hmove with
  | dupOutput hpc => rw [hpc] at hplaced; exact hplaced
  | dupInput hpc => rw [hpc] at hplaced; exact hplaced
  | closeOutput hpc => rw [hpc] at hplaced; exact hplaced
  | closeInput hpc =>
    rw [hpc] at hplaced
    obtain ⟨hwrote, htook⟩ : s.pocgi.written.length = 0 ∧ s.picgi.taken.length = 0 := hplaced
    refine ⟨[], ops, rfl, ?_, hwrote, htook⟩
    change Calls program x ((relayed total fd c).drop s.picgi.taken.length) ops
    rw [htook, List.drop_zero]
    exact hcalls
  | read y next b picgi hpc hop hread =>
    obtain ⟨hcontent, htaken', -⟩ := Pipe.of_read_item hread
    rw [hpc] at hplaced
    obtain ⟨done, rest, rfl, hrest, hwrote, htook⟩ := hplaced
    obtain ⟨after, rfl, hafter⟩ := hrest.of_read hop
    have hafter := hafter b _ (hsound.drop_relayed halive hread)
    refine ⟨done ++ [.read], after, by simp, ?_, by simpa using hwrote, ?_⟩
    · exact hafter
    · rw [htaken', List.length_append, htook]
      simp
  | endOfFile y next hpc hop hread =>
    exact absurd hread (hsound.no_endOfFile halive hpc)
  | write y b next pocgi hpc hop hwrite =>
    rw [hpc] at hplaced
    obtain ⟨done, rest, rfl, hrest, hwrote, htook⟩ := hplaced
    obtain ⟨after, rfl, hafter⟩ := hrest.of_write hop
    refine ⟨done ++ [.write b], after, by simp, hafter, ?_, by simpa using htook⟩
    rw [Pipe.write_written hwrite, List.length_append, hwrote]
    simp
  | killed y b next hpc hop hwrite =>
    rcases hsound.holders.outReaders_nil (Pipe.of_write_broken hwrite) with hpast | hkilled
    · have hexited := (hsound.ended hpast).1
      rw [hpc] at hexited
      cases hexited
    · exact absurd hkilled halive
  | exit y hpc hop =>
    rw [hpc] at hplaced
    obtain ⟨done, rest, rfl, hrest, hwrote, htook⟩ := hplaced
    obtain rfl := hrest.of_exit hop
    rw [List.append_nil]
    exact ⟨hwrote, htook⟩

theorem ExchangeRun.tracked (hcalls : Calls program x (relayed total fd c) ops)
    (h : ExchangeRun program x total outRoom inRoom fd c s) :
    Tracked program total outRoom (relayed total fd c) ops s := by
  apply Reachable.invariant_with (I := ExchangeRun program x total outRoom inRoom fd c)
    (J := Tracked program total outRoom (relayed total fd c) ops) (fun _ h => h) ?_ ?_ h
  · rintro s rfl
    exact ⟨fun _ => ⟨rfl, rfl⟩, fun _ => rfl, nofun⟩
  · intro s p s' hstep hrun hs
    cases p with
    | parent =>
      have halive : s.parent ≠ .killed := by
        intro hkilled
        simp only [exchangeStep, parentStep, hkilled, reduceCtorEq] at hstep
      exact tracked_parent hs hrun.sound hrun.capacity.1 halive (parentStep_move hstep)
    | child => exact tracked_child hcalls hs hrun.sound (childStep_move hstep)

def ParentPc.rank (total : ℕ) : ParentPc → ℕ
  | .okLine => 2 * total + 10
  | .closeOutput => 2 * total + 9
  | .closeInput => 2 * total + 8
  | .readBody n => 2 * n + 7
  | .writeBody n => 2 * n + 8
  | .readOutput => 5
  | .writeOutput => 6
  | .closePocgi => 4
  | .closePicgi => 3
  | .waitpid => 2
  | .returned => 0
  | .killed => 0

def ChildPc.rank (rest : ℕ) : ChildPc σ → ℕ
  | .dupOutput => rest + 5
  | .dupInput => rest + 4
  | .closeOutput => rest + 3
  | .closeInput => rest + 2
  | .running _ => rest + 1
  | .exited => 0

def Exchange.rank (total : ℕ) (ops : List ScriptOp) (s : Exchange σ) : ℕ :=
  s.parent.rank total +
    3 * s.child.rank (ops.length - (s.pocgi.written.length + s.picgi.taken.length)) +
    2 * s.pocgi.content.length

theorem ParentMove.lowers (hmove : ParentMove total s s') :
    (∃ b, s.parent = .readOutput ∧ s.pocgi.read = .item b s'.pocgi ∧ s'.parent = .writeOutput ∧
      s'.child = s.child ∧ s'.picgi = s.picgi) ∨
    (s'.parent.rank total < s.parent.rank total ∧ s'.child = s.child ∧
      s'.pocgi.content = s.pocgi.content ∧ s'.pocgi.taken = s.pocgi.taken ∧
      s'.picgi.taken = s.picgi.taken) := by
  cases hmove with
  | okLine hpc => exact .inr ⟨by simp [hpc, ParentPc.rank], rfl, rfl, rfl, rfl⟩
  | closeOutput hpc => exact .inr ⟨by simp [hpc, ParentPc.rank], rfl, rfl, rfl, rfl⟩
  | closeInput hpc => exact .inr ⟨by simp [hpc, ParentPc.rank], rfl, rfl, rfl, rfl⟩
  | leaveLoop hpc => exact .inr ⟨by simp [hpc, ParentPc.rank], rfl, rfl, rfl, rfl⟩
  | readBody n hpc =>
    exact .inr ⟨by simp only [hpc, ParentPc.rank]; omega, rfl, rfl, rfl, rfl⟩
  | writeBody n picgi hpc hwrite =>
    exact .inr ⟨by simp [hpc, ParentPc.rank], rfl, rfl, rfl, (Pipe.of_write_stored hwrite).2.1⟩
  | killed n hpc => exact .inr ⟨by simp [hpc, ParentPc.rank], rfl, rfl, rfl, rfl⟩
  | readOutput b pocgi hpc hread => exact .inl ⟨b, hpc, hread, rfl, rfl, rfl⟩
  | endOfFile hpc => exact .inr ⟨by simp [hpc, ParentPc.rank], rfl, rfl, rfl, rfl⟩
  | writeOutput hpc => exact .inr ⟨by simp [hpc, ParentPc.rank], rfl, rfl, rfl, rfl⟩
  | closePocgi hpc => exact .inr ⟨by simp [hpc, ParentPc.rank], rfl, rfl, rfl, rfl⟩
  | closePicgi hpc => exact .inr ⟨by simp [hpc, ParentPc.rank], rfl, rfl, rfl, rfl⟩
  | waitpid hpc => exact .inr ⟨by simp [hpc, ParentPc.rank], rfl, rfl, rfl, rfl⟩

theorem ChildMove.lowers (hsound : Sound total fd c s) (halive : s.parent ≠ .killed)
    (hmove : ChildMove program x s s') :
    (∃ y next b, s.child = .running y ∧ program y = .read next ∧
      s.picgi.read = .item b s'.picgi ∧ s'.child = .running (next (some b)) ∧
      s'.pocgi = s.pocgi) ∨
    (∃ y next b, s.child = .running y ∧ program y = .write b next ∧
      s.pocgi.write b = .stored s'.pocgi ∧ s'.child = .running next ∧ s'.picgi = s.picgi) ∨
    ((∀ rest, s'.child.rank rest < s.child.rank rest) ∧ s'.pocgi.content = s.pocgi.content ∧
      s'.pocgi.taken = s.pocgi.taken ∧ s'.picgi.taken = s.picgi.taken) := by
  cases hmove with
  | dupOutput hpc => exact .inr (.inr ⟨by simp [hpc, ChildPc.rank], rfl, rfl, rfl⟩)
  | dupInput hpc => exact .inr (.inr ⟨by simp [hpc, ChildPc.rank], rfl, rfl, rfl⟩)
  | closeOutput hpc => exact .inr (.inr ⟨by simp [hpc, ChildPc.rank], rfl, rfl, rfl⟩)
  | closeInput hpc => exact .inr (.inr ⟨by simp [hpc, ChildPc.rank], rfl, rfl, rfl⟩)
  | read y next b picgi hpc hop hread => exact .inl ⟨y, next, b, hpc, hop, hread, rfl, rfl⟩
  | endOfFile y next hpc hop hread => exact absurd hread (hsound.no_endOfFile halive hpc)
  | write y b next pocgi hpc hop hwrite =>
    exact .inr (.inl ⟨y, next, b, hpc, hop, hwrite, rfl, rfl⟩)
  | killed y b next hpc =>
    exact .inr (.inr ⟨by simp [hpc, Exchange.exit, ChildPc.rank], rfl, rfl, rfl⟩)
  | exit y hpc => exact .inr (.inr ⟨by simp [hpc, Exchange.exit, ChildPc.rank], rfl, rfl, rfl⟩)

theorem rank_parent (hmove : ParentMove total s s') : s'.rank total ops < s.rank total ops := by
  rcases hmove.lowers with ⟨b, hpc, hread, hpc', hchild, hpicgi⟩ |
    ⟨hlower, hchild, hcontent, htaken, htook⟩
  · have hcontent := congrArg List.length (Pipe.of_read_item hread).1
    rw [List.length_cons] at hcontent
    simp only [Exchange.rank, hchild, hpicgi, Pipe.read_written hread, hpc, hpc', ParentPc.rank]
    omega
  · simp only [Exchange.rank, Pipe.written, hchild, hcontent, htaken, htook]
    omega

theorem rank_child (hsound : Sound total fd c s) (halive : s.parent ≠ .killed) {input : List Byte}
    (hplaced : Placed program input ops s.child s.pocgi.written.length s.picgi.taken.length)
    (hmove : ChildMove program x s s') : s'.rank total ops < s.rank total ops := by
  have hparent := parent_child hmove
  rcases hmove.lowers hsound halive with ⟨y, next, b, hpc, hop, hread, hpc', hpocgi⟩ |
    ⟨y, next, b, hpc, hop, hwrite, hpc', hpicgi⟩ | ⟨hlower, hcontent, htaken, htook⟩
  · rw [hpc] at hplaced
    obtain ⟨done, rest, rfl, hrest, hwrote, htook⟩ := hplaced
    obtain ⟨after, rfl, -⟩ := hrest.of_read hop
    have hdone := writes_add_reads done
    simp only [Exchange.rank, hparent, hpc, hpc', hpocgi, ChildPc.rank,
      (Pipe.of_read_item hread).2.1, List.length_append, List.length_cons, List.length_nil]
    omega
  · rw [hpc] at hplaced
    obtain ⟨done, rest, rfl, hrest, hwrote, htook⟩ := hplaced
    obtain ⟨after, rfl, -⟩ := hrest.of_write hop
    have hdone := writes_add_reads done
    have hcontent := congrArg List.length (Pipe.of_write_stored hwrite).1
    rw [List.length_append, List.length_singleton] at hcontent
    simp only [Exchange.rank, hparent, hpc, hpc', hpicgi, ChildPc.rank, Pipe.write_written hwrite,
      hcontent, List.length_append, List.length_cons, List.length_nil]
    omega
  · have hrank := hlower (ops.length - (s.pocgi.written.length + s.picgi.taken.length))
    simp only [Exchange.rank, Pipe.written, hparent, hcontent, htaken, htook] at hrank ⊢
    omega

theorem ExchangeRun.step (h : ExchangeRun program x total outRoom inRoom fd c s) {p : Process}
    (hstep : exchangeStep program x total s p = some s') :
    ExchangeRun program x total outRoom inRoom fd c s' :=
  h.trans ((Reaches.refl s).step hstep)

theorem ExchangeRun.rank_lowers (hcalls : Calls program x (relayed total fd c) ops)
    (h : ExchangeRun program x total outRoom inRoom fd c s)
    (halive : s.parent ≠ .killed) {p : Process}
    (hstep : exchangeStep program x total s p = some s') :
    s'.rank total ops < s.rank total ops := by
  cases p with
  | parent => exact rank_parent (parentStep_move hstep)
  | child =>
    exact rank_child h.sound halive ((h.tracked hcalls).placed halive) (childStep_move hstep)

structure Cautious (program : σ → ChildOp σ) (x : σ) (total outRoom inRoom : ℕ) (fd : Stream)
    (c : Byte) (ops : List ScriptOp) (s : Exchange σ) : Prop where
  run : ExchangeRun program x total outRoom inRoom fd c s
  alive : s.parent ≠ .killed
  sent : s.picgi.written.length ≤ reads ops

theorem left_pos_before {pc : ParentPc} (h : 0 < pc.left total) : pc.beforeOutput = true := by
  cases pc with
  | okLine => rfl
  | closeOutput => rfl
  | closeInput => rfl
  | readBody n => rfl
  | writeBody n => rfl
  | _ => exact absurd h (Nat.lt_irrefl 0)

theorem Cautious.left_pos (hreads : reads ops < total)
    (h : Cautious program x total outRoom inRoom fd c ops s) : 0 < s.parent.left total := by
  have hlength := h.run.sound.length_written h.alive
  have hsent := h.sent
  omega

theorem Cautious.child_waits (hcalls : Calls program x (relayed total fd c) ops)
    (hreads : reads ops < total) (hwrites : writes ops ≤ outRoom)
    (h : Cautious program x total outRoom inRoom fd c ops s)
    (hchild : childStep program x s = none) :
    s.child = .exited ∨ s.picgi.content = [] ∧ s.picgi.written.length < reads ops := by
  have htracked := h.run.tracked hcalls
  have hplaced := htracked.placed h.alive
  rcases childStep_blocked hchild with
    ⟨y, next, hpc, hop, hread⟩ | ⟨y, b, next, hpc, hop, hwrite⟩ | hexited
  · right
    have hempty := (Pipe.read_blocked_iff.mp hread).1
    rw [hpc] at hplaced
    obtain ⟨done, rest, rfl, hrest, hwrote, htook⟩ := hplaced
    obtain ⟨after, rfl, -⟩ := hrest.of_read hop
    refine ⟨hempty, ?_⟩
    rw [Pipe.written, hempty, List.append_nil, htook, reads_append, reads_read]
    omega
  · exfalso
    have hfull := (Pipe.write_blocked_iff.mp hwrite).2
    have hbefore := left_pos_before (h.left_pos hreads)
    rw [hpc] at hplaced
    obtain ⟨done, rest, rfl, hrest, hwrote, htook⟩ := hplaced
    obtain ⟨after, rfl, -⟩ := hrest.of_write hop
    rw [Pipe.written, htracked.untouched hbefore, List.nil_append, hfull,
      h.run.capacity.1] at hwrote
    rw [writes_append, writes_write] at hwrites
    omega
  · exact .inl hexited

theorem written_parent (hmove : ParentMove total s s') :
    s'.picgi.written = s.picgi.written ∨
      ∃ n, s.parent = .writeBody n ∧ s.picgi.write s.c = .stored s'.picgi := by
  cases hmove with
  | writeBody n picgi hpc hwrite => exact .inr ⟨n, hpc, hwrite⟩
  | _ => exact .inl rfl

theorem written_child (hmove : ChildMove program x s s') :
    s'.picgi.written = s.picgi.written := by
  cases hmove with
  | read y next b picgi hpc hop hread => exact Pipe.read_written hread
  | _ => rfl

theorem Holders.write_broken (h : Holders s) (hexited : s.child = .exited) {n : ℕ}
    (hpc : s.parent = .writeBody n) : s.picgi.write s.c = .broken := by
  have hreaders : s.picgi.readers = [] := by
    apply (holders_eq_nil h.inReaders).mpr
    rw [hpc, hexited]
    exact ⟨rfl, rfl⟩
  rw [Pipe.write, if_pos (List.isEmpty_iff.mpr hreaders)]

theorem exists_killed (hcalls : Calls program x (relayed total fd c) ops) (hin : 0 < inRoom)
    (hreads : reads ops < total) (hwrites : writes ops ≤ outRoom) :
    ∃ s, ExchangeRun program x total outRoom inRoom fd c s ∧ s.parent = .killed ∧
      s.picgi.written.length ≤ reads ops := by
  have hlowers : ∀ s p s', Cautious program x total outRoom inRoom fd c ops s →
      exchangeStep program x total s p = some s' → s'.rank total ops < s.rank total ops :=
    fun s p s' h hstep => h.run.rank_lowers hcalls h.alive hstep
  obtain ⟨s, -, hs, hlast⟩ := exists_last hlowers (s := forked outRoom inRoom fd c)
    ⟨⟨_, rfl, .refl _⟩, nofun, Nat.zero_le _⟩
  have hwaits : s.child = .exited ∨ s.picgi.content = [] ∧ s.picgi.written.length < reads ops := by
    apply hs.child_waits hcalls hreads hwrites
    apply Option.eq_none_iff_forall_ne_some.mpr
    intro t hstep
    have hmove := childStep_move hstep
    refine hlast .child t hstep ⟨@ExchangeRun.step _ _ _ _ _ _ _ _ _ _ hs.run .child hstep, ?_, ?_⟩
    · rw [parent_child hmove]
      exact hs.alive
    · rw [written_child hmove]
      exact hs.sent
  have hleft := hs.left_pos hreads
  have hholders := hs.run.sound.holders
  cases hstep : parentStep total s with
  | some t =>
    have hrun : ExchangeRun program x total outRoom inRoom fd c t :=
      @ExchangeRun.step _ _ _ _ _ _ _ _ _ _ hs.run .parent hstep
    have hle : t.picgi.written.length ≤ reads ops := by
      rcases written_parent (parentStep_move hstep) with hwritten | ⟨n, hpc, hwrite⟩
      · rw [hwritten]
        exact hs.sent
      · rcases hwaits with hexited | ⟨-, hless⟩
        · rw [hholders.write_broken hexited hpc] at hwrite
          cases hwrite
        · rw [Pipe.write_written hwrite, List.length_append]
          exact hless
    by_cases hkilled : t.parent = .killed
    · exact ⟨t, hrun, hkilled, hle⟩
    · exact absurd ⟨hrun, hkilled, hle⟩ (hlast .parent t hstep)
  | none =>
    exfalso
    rcases parentStep_blocked hstep with
      ⟨⟨n, hpc⟩, hwrite⟩ | ⟨hpc, -⟩ | ⟨hpc, -⟩ | hpc | hpc
    · rcases hwaits with hexited | ⟨hempty, -⟩
      · rw [hholders.write_broken hexited hpc] at hwrite
        cases hwrite
      · have hfull := (Pipe.write_blocked_iff.mp hwrite).2
        rw [hempty, List.length_nil, hs.run.capacity.2] at hfull
        omega
    all_goals
      rw [hpc] at hleft
      exact absurd hleft (Nat.lt_irrefl 0)

theorem ExchangeRun.before_output (hcalls : Calls program x (relayed total fd c) ops)
    (hwrites : outRoom < writes ops) (hroom : inRoom + readsBefore ops outRoom < total)
    (h : ExchangeRun program x total outRoom inRoom fd c s) : s.parent.beforeOutput = true := by
  apply Reachable.invariant_with (I := ExchangeRun program x total outRoom inRoom fd c)
    (J := fun s => s.parent.beforeOutput = true) (fun _ h => h) ?_ ?_ h
  · rintro s rfl
    rfl
  · intro s p s' hstep hrun hs
    cases p with
    | child =>
      rw [parent_child (childStep_move hstep)]
      exact hs
    | parent =>
      have hnext := (hrun.step hstep).tracked hcalls
      have hmove := parentStep_move hstep
      cases hmove with
      | leaveLoop hpc =>
        exfalso
        have halive : s.parent ≠ .killed := by simp [hpc]
        obtain ⟨hcapOut, hcapIn⟩ := hrun.capacity
        have htracked := hrun.tracked hcalls
        have hplaced := htracked.placed halive
        have hlength := hrun.sound.length_written halive
        have hout := s.pocgi.content_le
        have hin := s.picgi.content_le
        rw [hpc] at hlength
        simp only [ParentPc.left, Pipe.written, List.length_append] at hlength
        rw [Pipe.written, htracked.untouched hs, List.nil_append] at hplaced
        cases hchild : s.child with
        | running y =>
          rw [hchild] at hplaced
          obtain ⟨done, rest, rfl, hrest, hwrote, htook⟩ := hplaced
          have hle := reads_le_readsBefore rest (show writes done ≤ outRoom by omega)
          omega
        | exited =>
          rw [hchild] at hplaced
          have hwrote := hplaced.1
          omega
        | _ =>
          rw [hchild] at hplaced
          have htook := hplaced.2
          omega
      | killed n hpc hwrite =>
        have hle := (hnext.killed rfl).2
        omega
      | okLine => rfl
      | closeOutput => rfl
      | closeInput => rfl
      | readBody => rfl
      | writeBody => rfl
      | readOutput b pocgi hpc => rw [hpc] at hs; cases hs
      | endOfFile hpc => rw [hpc] at hs; cases hs
      | writeOutput hpc => rw [hpc] at hs; cases hs
      | closePocgi hpc => rw [hpc] at hs; cases hs
      | closePicgi hpc => rw [hpc] at hs; cases hs
      | waitpid hpc => rw [hpc] at hs; cases hs

/-- When the output fits in its pipe, the child has to read exactly the body. Else it has to read no
more, and the write that finds the pipe full must come when the rest of the body fits in the other
one. -/
def Completes (ops : List ScriptOp) (total outRoom inRoom : ℕ) : Prop :=
  if writes ops ≤ outRoom then reads ops = total
  else reads ops ≤ total ∧ total ≤ inRoom + readsBefore ops outRoom

instance (ops : List ScriptOp) (total outRoom inRoom : ℕ) :
    Decidable (Completes ops total outRoom inRoom) :=
  inferInstanceAs (Decidable (ite _ _ _))

theorem Completes.reads_le (h : Completes ops total outRoom inRoom) : reads ops ≤ total := by
  rw [Completes] at h
  split_ifs at h
  · exact h.le
  · exact h.1

theorem Completes.alive (h : Completes ops total outRoom inRoom)
    (hcalls : Calls program x (relayed total fd c) ops)
    (hrun : ExchangeRun program x total outRoom inRoom fd c s) : s.parent ≠ .killed := by
  intro hkilled
  obtain ⟨hreads, hwrites⟩ := (hrun.tracked hcalls).killed hkilled
  rw [Completes, if_pos hwrites] at h
  omega

theorem Completes.returned_of_stuck (h : Completes ops total outRoom inRoom)
    (hcalls : Calls program x (relayed total fd c) ops) (hout : 0 < outRoom) (hin : 0 < inRoom)
    (hrun : ExchangeRun program x total outRoom inRoom fd c s)
    (hstuck : Stuck (exchangeStep program x total) s) : s.parent = .returned := by
  have hsound := hrun.sound
  have halive := h.alive hcalls hrun
  have htracked := hrun.tracked hcalls
  have hplaced := htracked.placed halive
  have hreads := h.reads_le
  obtain ⟨hcapOut, hcapIn⟩ := hrun.capacity
  rcases crossed_of_stuck hsound (by omega) (by omega) hstuck with
    ⟨-, hreturned | hkilled⟩ | hcross | hcross
  · exact hreturned
  · exact absurd hkilled halive
  · exfalso
    obtain ⟨⟨n, hparent⟩, ⟨y, b, next, hrunning, hop⟩, hpicgi, hpocgi⟩ := hcross
    have hlength := hsound.length_written halive
    rw [hparent] at hlength
    simp only [ParentPc.left, Pipe.written, List.length_append] at hlength
    rw [hrunning, Pipe.written, htracked.untouched (by rw [hparent]; rfl),
      List.nil_append] at hplaced
    obtain ⟨done, rest, rfl, hrest, hwrote, htook⟩ := hplaced
    obtain ⟨after, rfl, -⟩ := hrest.of_write hop
    have hbefore := readsBefore_write done b after
    rw [← hwrote, hpocgi, hcapOut] at hbefore
    rw [Completes, if_neg (by rw [writes_append, writes_write]; omega)] at h
    omega
  · exfalso
    obtain ⟨y, next, hrunning, hop⟩ := hcross.child
    have htaken := congrArg List.length (hcross.body hsound)
    rw [length_relayed] at htaken
    rw [hrunning] at hplaced
    obtain ⟨done, rest, rfl, hrest, hwrote, htook⟩ := hplaced
    obtain ⟨after, rfl, -⟩ := hrest.of_read hop
    rw [reads_append, reads_read] at hreads
    omega

theorem reaches_killed (h : Reaches (exchangeStep program x total) s s')
    (hkilled : s.parent = .killed) : s'.parent = .killed := by
  apply Reaches.invariant (I := fun s => s.parent = .killed) ?_ h hkilled
  intro s p s' hstep hs
  cases p with
  | parent => simp only [exchangeStep, parentStep, hs, reduceCtorEq] at hstep
  | child =>
    rw [parent_child (childStep_move hstep)]
    exact hs

theorem reads_le_of_returned (hcalls : Calls program x (relayed total fd c) ops)
    (h : ExchangeRun program x total outRoom inRoom fd c s) (hreturned : s.parent = .returned) :
    reads ops ≤ total := by
  have halive : s.parent ≠ .killed := by simp [hreturned]
  have hplaced := (h.tracked hcalls).placed halive
  have hlength := h.sound.length_written halive
  rw [h.sound.exited_of_done (.inr hreturned)] at hplaced
  have htook : s.picgi.taken.length = reads ops := hplaced.2
  rw [Pipe.written, List.length_append] at hlength
  omega

theorem completes_of_reaches (hin : 0 < inRoom)
    (hcalls : Calls program x (relayed total fd c) ops)
    (hreturns : ∀ s, ExchangeRun program x total outRoom inRoom fd c s →
      ∃ s', Reaches (exchangeStep program x total) s s' ∧ s'.parent = .returned) :
    Completes ops total outRoom inRoom := by
  have hstart : ExchangeRun program x total outRoom inRoom fd c (forked outRoom inRoom fd c) :=
    ⟨_, rfl, .refl _⟩
  obtain ⟨s, hreaches, hreturned⟩ := hreturns _ hstart
  have hrun : ExchangeRun program x total outRoom inRoom fd c s := hstart.trans hreaches
  have hreads := reads_le_of_returned hcalls hrun hreturned
  rw [Completes]
  split_ifs with hwrites
  · by_contra hne
    obtain ⟨s, hrun, hkilled, -⟩ := exists_killed hcalls hin (by omega) hwrites
    obtain ⟨s', hreaches, hreturned⟩ := hreturns s hrun
    rw [reaches_killed hreaches hkilled] at hreturned
    cases hreturned
  · refine ⟨hreads, ?_⟩
    by_contra hroom
    have hbefore := hrun.before_output hcalls (by omega) (by omega)
    rw [hreturned] at hbefore
    cases hbefore

theorem Completes.ranked (h : Completes ops total outRoom inRoom)
    (hcalls : Calls program x (relayed total fd c) ops) :
    Ranked (exchangeStep program x total) (ExchangeRun program x total outRoom inRoom fd c)
      (Exchange.rank total ops) :=
  ⟨fun _ _ _ hrun hstep => hrun.step hstep,
    fun _ _ _ hrun hstep => hrun.rank_lowers hcalls (h.alive hcalls hrun) hstep⟩

theorem Completes.orders_end (h : Completes ops total outRoom inRoom)
    (hcalls : Calls program x (relayed total fd c) ops) (hout : 0 < outRoom) (hin : 0 < inRoom)
    {steps : List Process}
    (hsteps : execute (exchangeStep program x total) (forked outRoom inRoom fd c) steps = some s) :
    steps.length ≤ 2 * total + 3 * ops.length + 25 ∧
      (Stuck (exchangeStep program x total) s → s.parent = .returned) := by
  obtain ⟨hrun, hle⟩ := (h.ranked hcalls).execute_length ⟨_, rfl, .refl _⟩ hsteps
  refine ⟨?_, h.returned_of_stuck hcalls hout hin hrun⟩
  have hrank : (forked outRoom inRoom fd c : Exchange σ).rank total ops =
      2 * total + 3 * ops.length + 25 := by
    simp [Exchange.rank, forked, ParentPc.rank, ChildPc.rank, Pipe.empty, Pipe.written]
    omega
  omega

theorem return_stays_reachable_iff (hout : 0 < outRoom) (hin : 0 < inRoom)
    (hcalls : Calls program x (relayed total fd c) ops) :
    ((∀ s, ExchangeRun program x total outRoom inRoom fd c s →
      ∃ s', Reaches (exchangeStep program x total) s s' ∧ s'.parent = .returned) ↔
        Completes ops total outRoom inRoom) ∧
    (Completes ops total outRoom inRoom → ∀ steps s,
      execute (exchangeStep program x total) (forked outRoom inRoom fd c) steps = some s →
        steps.length ≤ 2 * total + 3 * ops.length + 25 ∧
        (Stuck (exchangeStep program x total) s → s.parent = .returned)) := by
  refine ⟨⟨completes_of_reaches hin hcalls, ?_⟩,
    fun h steps s hsteps => h.orders_end hcalls hout hin hsteps⟩
  intro h s hrun
  obtain ⟨s', hreaches, hstuck, hrun'⟩ := (h.ranked hcalls).exists_stuck hrun
  exact ⟨s', hreaches, h.returned_of_stuck hcalls hout hin hrun' hstuck⟩

def twoEachWay : List ScriptOp := [.write 0, .write 0, .read, .read]

theorem return_stays_reachable_iff_two_bytes :
    ¬ ∀ s, ExchangeRun script twoEachWay 2 1 1 (sent [0, 0]) 0 s →
      ∃ s', Reaches (exchangeStep script twoEachWay 2) s s' ∧ s'.parent = .returned := by
  intro h
  have hcompletes := (return_stays_reachable_iff (by decide) (by decide)
    (calls_script (by decide))).1.mp h
  exact absurd hcompletes (by decide)

theorem parent_killed_iff (hin : 0 < inRoom) (hcalls : Calls program x (relayed total fd c) ops) :
    (∃ s, ExchangeRun program x total outRoom inRoom fd c s ∧ s.parent = .killed) ↔
      reads ops < total ∧ writes ops ≤ outRoom := by
  constructor
  · rintro ⟨s, hrun, hkilled⟩
    exact (hrun.tracked hcalls).killed hkilled
  · rintro ⟨hreads, hwrites⟩
    obtain ⟨s, hrun, hkilled, -⟩ := exists_killed hcalls hin hreads hwrites
    exact ⟨s, hrun, hkilled⟩

def exitAtOnce : Unit → ChildOp Unit := fun _ => .exit

theorem parent_killed_iff_exit_at_once :
    ∃ s, ExchangeRun exitAtOnce () 1 4 4 (sent [0]) 0 s ∧ s.parent = .killed := by
  apply (parent_killed_iff (by decide) (.exit rfl)).mpr
  exact ⟨Nat.one_pos, Nat.zero_le 4⟩

end Sginx.Mini
