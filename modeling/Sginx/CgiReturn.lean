import Sginx.CgiOutcome

namespace Sginx.Mini

open Sginx.Http (Byte)
open Sginx.Library.BoundedPipe
open Sginx.Library.Transition

variable {σ : Type} {program : σ → ChildOp σ} {x : σ} {total : ℕ} {s s' : Exchange σ}
variable {outRoom inRoom : ℕ} {fd : Stream} {c : Byte} {ops : List ScriptOp}

def outputs (ops : List ScriptOp) : List Byte :=
  ops.filterMap fun
    | .write b => some b
    | .read => none

@[simp] theorem outputs_read (ops : List ScriptOp) : outputs (.read :: ops) = outputs ops := rfl

@[simp] theorem outputs_write (b : Byte) (ops : List ScriptOp) :
    outputs (.write b :: ops) = b :: outputs ops := rfl

def Completed (program : σ → ChildOp σ) (x : σ) (input : List Byte) (child : ChildPc σ)
    (wrote : List Byte) (took : ℕ) : Prop :=
  match child with
  | .running y => ∀ rest, Calls program y (input.drop took) rest →
      ∃ ops, Calls program x input ops ∧ outputs ops = wrote ++ outputs rest
  | .exited => ∃ ops, Calls program x input ops ∧ outputs ops = wrote
  | _ => wrote = [] ∧ took = 0

theorem completed_child (hsound : Sound total fd c s) (halive : s.parent ≠ .killed)
    (h : Completed program x (relayed total fd c) s.child s.pocgi.written s.picgi.taken.length)
    (hmove : ChildMove program x s s') :
    Completed program x (relayed total fd c) s'.child s'.pocgi.written s'.picgi.taken.length := by
  cases hmove with
  | dupOutput hpc => rw [hpc] at h; exact h
  | dupInput hpc => rw [hpc] at h; exact h
  | closeOutput hpc => rw [hpc] at h; exact h
  | closeInput hpc =>
    rw [hpc] at h
    obtain ⟨hwrote, htook⟩ : s.pocgi.written = [] ∧ s.picgi.taken.length = 0 := h
    intro rest hrest
    replace hrest : Calls program x ((relayed total fd c).drop s.picgi.taken.length) rest := hrest
    rw [htook, List.drop_zero] at hrest
    exact ⟨rest, hrest, by rw [hwrote, List.nil_append]⟩
  | read y next b picgi hpc hop hread =>
    rw [hpc] at h
    intro rest hrest
    obtain ⟨ops, hcalls, houtputs⟩ := h (.read :: rest) (by
      rw [hsound.drop_relayed halive hread]
      exact .read hop hrest)
    exact ⟨ops, hcalls, houtputs⟩
  | endOfFile y next hpc hop hread => exact absurd hread (hsound.no_endOfFile halive hpc)
  | write y b next pocgi hpc hop hwrite =>
    rw [hpc] at h
    intro rest hrest
    obtain ⟨ops, hcalls, houtputs⟩ := h (.write b :: rest) (.write hop hrest)
    refine ⟨ops, hcalls, houtputs.trans ?_⟩
    dsimp only
    rw [Pipe.write_written hwrite, List.append_assoc]
    rfl
  | killed y b next hpc hop hwrite =>
    rcases hsound.holders.outReaders_nil (Pipe.of_write_broken hwrite) with hpast | hkilled
    · have hexited := (hsound.ended hpast).1
      rw [hpc] at hexited
      cases hexited
    · exact absurd hkilled halive
  | exit y hpc hop =>
    rw [hpc] at h
    obtain ⟨ops, hcalls, houtputs⟩ := h [] (.exit hop)
    exact ⟨ops, hcalls, houtputs.trans (List.append_nil _)⟩

theorem ExchangeRun.completed (h : ExchangeRun program x total outRoom inRoom fd c s) :
    s.parent ≠ .killed →
      Completed program x (relayed total fd c) s.child s.pocgi.written s.picgi.taken.length := by
  apply Reachable.invariant_with (I := Sound total fd c) (J := fun s => s.parent ≠ .killed →
    Completed program x (relayed total fd c) s.child s.pocgi.written s.picgi.taken.length)
    (fun _ h => ExchangeRun.sound h) ?_ ?_ h
  · rintro s rfl
    exact fun _ => ⟨rfl, rfl⟩
  · intro s p s' hstep hsound hs
    cases p with
    | parent =>
      have hmove := parentStep_move hstep
      cases hmove with
      | killed => exact fun hne => absurd rfl hne
      | writeBody n picgi hpc hwrite =>
        intro _
        rw [(Pipe.of_write_stored hwrite).2.1]
        exact hs (by simp [hpc])
      | readOutput b pocgi hpc hread =>
        intro _
        rw [Pipe.read_written hread]
        exact hs (by simp [hpc])
      | okLine hpc => exact fun _ => hs (by simp [hpc])
      | closeOutput hpc => exact fun _ => hs (by simp [hpc])
      | closeInput hpc => exact fun _ => hs (by simp [hpc])
      | leaveLoop hpc => exact fun _ => hs (by simp [hpc])
      | readBody n hpc => exact fun _ => hs (by simp [hpc])
      | endOfFile hpc => exact fun _ => hs (by simp [hpc])
      | writeOutput hpc => exact fun _ => hs (by simp [hpc])
      | closePocgi hpc => exact fun _ => hs (by simp [hpc])
      | closePicgi hpc => exact fun _ => hs (by simp [hpc])
      | waitpid hpc => exact fun _ => hs (by simp [hpc])
    | child =>
      have hmove := childStep_move hstep
      rw [parent_child hmove]
      exact fun halive => completed_child hsound halive (hs halive) hmove

theorem calls_of_returned (h : ExchangeRun program x total outRoom inRoom fd c s)
    (hreturned : s.parent = .returned) :
    ∃ ops, Calls program x (relayed total fd c) ops ∧ outputs ops = s.pocgi.written := by
  have hcompleted := h.completed (by simp [hreturned])
  rwa [h.sound.exited_of_done (.inr hreturned)] at hcompleted

theorem Calls.unique {y : σ} {input : List Byte} {ops ops' : List ScriptOp}
    (h : Calls program y input ops) (h' : Calls program y input ops') : ops = ops' := by
  induction h generalizing ops' with
  | exit hop => exact (h'.of_exit hop).symm
  | write hop _ ih =>
    obtain ⟨rest, rfl, hrest⟩ := h'.of_write hop
    rw [ih hrest]
  | read hop _ ih =>
    obtain ⟨rest, rfl, hrest⟩ := h'.of_read hop
    rw [ih (hrest _ _ rfl)]
  | starved hop =>
    cases h' with
    | exit hop' => rw [hop] at hop'; cases hop'
    | write hop' => rw [hop] at hop'; cases hop'
    | starved => rfl

def Returns (program : σ → ChildOp σ) (x : σ) (total outRoom inRoom : ℕ) (fd : Stream)
    (c : Byte) : Prop :=
  ∃ bound, ∀ steps s,
    execute (exchangeStep program x total) (forked outRoom inRoom fd c) steps = some s →
      steps.length ≤ bound ∧ (Stuck (exchangeStep program x total) s → s.parent = .returned)

theorem Returns.reaches (h : Returns program x total outRoom inRoom fd c)
    (hrun : ExchangeRun program x total outRoom inRoom fd c s) :
    ∃ s', Reaches (exchangeStep program x total) s s' ∧ s'.parent = .returned := by
  obtain ⟨bound, hbound⟩ := h
  obtain ⟨s₀, rfl, hreaches⟩ := hrun
  obtain ⟨s', steps, hreaches', hsteps, hstuck⟩ :=
    exists_stuck_of_bound hreaches fun steps t hsteps => (hbound steps t hsteps).1
  exact ⟨s', hreaches', (hbound steps s' hsteps).2 hstuck⟩

theorem Returns.exists_returned (h : Returns program x total outRoom inRoom fd c) :
    ∃ s, ExchangeRun program x total outRoom inRoom fd c s ∧ s.parent = .returned := by
  have hstart : ExchangeRun program x total outRoom inRoom fd c (forked outRoom inRoom fd c) :=
    ⟨_, rfl, .refl _⟩
  obtain ⟨s, hreaches, hreturned⟩ := h.reaches hstart
  exact ⟨s, hstart.trans hreaches, hreturned⟩

theorem returns_iff (hout : 0 < outRoom) (hin : 0 < inRoom) :
    Returns program x total outRoom inRoom fd c ↔
      ∃ ops, Calls program x (relayed total fd c) ops ∧ Completes ops total outRoom inRoom := by
  constructor
  · intro h
    obtain ⟨s, hrun, hreturned⟩ := h.exists_returned
    obtain ⟨ops, hcalls, -⟩ := calls_of_returned hrun hreturned
    exact ⟨ops, hcalls, completes_of_reaches hin hcalls fun _ hrun => h.reaches hrun⟩
  · rintro ⟨ops, hcalls, h⟩
    exact ⟨_, fun steps s hsteps => h.orders_end hcalls hout hin hsteps⟩

end Sginx.Mini
