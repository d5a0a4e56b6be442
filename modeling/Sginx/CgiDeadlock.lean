import Sginx.CgiExchange

namespace Sginx.Mini

open Sginx.Http (Byte)
open Sginx.Library.BoundedPipe
open Sginx.Library.Transition

variable {σ : Type} {program : σ → ChildOp σ} {x : σ} {total : ℕ} {s s' : Exchange σ}
variable {outRoom inRoom : ℕ} {fd : Stream} {c : Byte}

theorem capacity_parent (hmove : ParentMove total s s') :
    s'.pocgi.capacity = s.pocgi.capacity ∧ s'.picgi.capacity = s.picgi.capacity := by
  cases hmove with
  | writeBody n picgi hpc hwrite => exact ⟨rfl, (Pipe.of_write_stored hwrite).2.2.2.2⟩
  | readOutput b pocgi hpc hread => exact ⟨(Pipe.of_read_item hread).2.2.2.2, rfl⟩
  | _ => exact ⟨rfl, rfl⟩

theorem capacity_child (hmove : ChildMove program x s s') :
    s'.pocgi.capacity = s.pocgi.capacity ∧ s'.picgi.capacity = s.picgi.capacity := by
  cases hmove with
  | read y next b picgi hpc hop hread => exact ⟨rfl, (Pipe.of_read_item hread).2.2.2.2⟩
  | write y b next pocgi hpc hop hwrite => exact ⟨(Pipe.of_write_stored hwrite).2.2.2.2, rfl⟩
  | _ => exact ⟨rfl, rfl⟩

theorem ExchangeRun.capacity (h : ExchangeRun program x total outRoom inRoom fd c s) :
    s.pocgi.capacity = outRoom ∧ s.picgi.capacity = inRoom := by
  apply Reachable.invariant (I := fun s => s.pocgi.capacity = outRoom ∧ s.picgi.capacity = inRoom)
    ?_ ?_ h
  · rintro s rfl
    exact ⟨rfl, rfl⟩
  · intro s p s' hstep hs
    cases p with
    | parent =>
      obtain ⟨hout, hin⟩ := capacity_parent (parentStep_move hstep)
      rw [hout, hin]
      exact hs
    | child =>
      obtain ⟨hout, hin⟩ := capacity_child (childStep_move hstep)
      rw [hout, hin]
      exact hs

theorem Holders.outWriters_nil (h : Holders s) (hnil : s.pocgi.writers = []) :
    s.child = .exited := by
  have hzero := ((holders_eq_nil h.outWriters).mp hnil).2
  cases hchild : s.child with
  | exited => rfl
  | _ =>
    rw [hchild] at hzero
    cases hzero

theorem Holders.inReaders_nil (h : Holders s) (hnil : s.picgi.readers = []) :
    s.child = .exited := by
  have hzero := ((holders_eq_nil h.inReaders).mp hnil).2
  cases hchild : s.child with
  | exited => rfl
  | _ =>
    rw [hchild] at hzero
    cases hzero

theorem Holders.inWriters_nil (h : Holders s) (hnil : s.picgi.writers = []) :
    s.parent = .waitpid ∨ s.parent = .returned ∨ s.parent = .killed := by
  have hzero := ((holders_eq_nil h.inWriters).mp hnil).1
  cases hparent : s.parent with
  | waitpid => exact .inl rfl
  | returned => exact .inr (.inl rfl)
  | killed => exact .inr (.inr rfl)
  | _ =>
    rw [hparent] at hzero
    cases hzero

theorem Holders.outReaders_nil (h : Holders s) (hnil : s.pocgi.readers = []) :
    s.parent.pastOutput = true ∨ s.parent = .killed := by
  have hzero := ((holders_eq_nil h.outReaders).mp hnil).1
  cases hparent : s.parent with
  | closePicgi => exact .inl rfl
  | waitpid => exact .inl rfl
  | returned => exact .inl rfl
  | killed => exact .inr rfl
  | _ =>
    rw [hparent] at hzero
    cases hzero

inductive BeforeEnd (program : σ → ChildOp σ) (x : σ) : σ → Prop where
  | start : BeforeEnd program x x
  | read {y next} (c : Byte) : BeforeEnd program x y → program y = .read next →
      BeforeEnd program x (next (some c))
  | write {y c next} : BeforeEnd program x y → program y = .write c next →
      BeforeEnd program x next

structure Endless (program : σ → ChildOp σ) (x : σ) (s : Exchange σ) : Prop where
  parent : s.parent.pastOutput = false ∧ s.parent ≠ .killed
  child : s.child ≠ .exited
  before : ∀ y, s.child = .running y → BeforeEnd program x y

theorem endless_parent (h : Endless program x s) (hholders : Holders s)
    (hmove : ParentMove total s s') : Endless program x s' := by
  obtain ⟨⟨hpast, halive⟩, hchild, hbefore⟩ := h
  cases hmove with
  | killed n hpc hwrite =>
    exact absurd (hholders.inReaders_nil (Pipe.of_write_broken hwrite)) hchild
  | endOfFile hpc hread =>
    exact absurd (hholders.outWriters_nil (Pipe.of_read_endOfFile hread).2) hchild
  | closePocgi hpc => rw [hpc] at hpast; cases hpast
  | closePicgi hpc => rw [hpc] at hpast; cases hpast
  | waitpid hpc hexited => rw [hpc] at hpast; cases hpast
  | _ => exact ⟨⟨rfl, nofun⟩, hchild, hbefore⟩

theorem endless_child (hwaits : ∀ y, BeforeEnd program x y → program y ≠ .exit)
    (h : Endless program x s) (hholders : Holders s) (hmove : ChildMove program x s s') :
    Endless program x s' := by
  obtain ⟨⟨hpast, halive⟩, hchild, hbefore⟩ := h
  have hgoto {y : σ} (hy : BeforeEnd program x y) :
      ∀ z, (ChildPc.running y : ChildPc σ) = .running z → BeforeEnd program x z := by
    rintro z ⟨⟩
    exact hy
  cases hmove with
  | dupOutput hpc => exact ⟨⟨hpast, halive⟩, nofun, nofun⟩
  | dupInput hpc => exact ⟨⟨hpast, halive⟩, nofun, nofun⟩
  | closeOutput hpc => exact ⟨⟨hpast, halive⟩, nofun, nofun⟩
  | closeInput hpc => exact ⟨⟨hpast, halive⟩, nofun, hgoto .start⟩
  | read y next b picgi hpc hop hread =>
    exact ⟨⟨hpast, halive⟩, nofun, hgoto (.read b (hbefore y hpc) hop)⟩
  | endOfFile y next hpc hop hread =>
    -- the parent holds `sgx_picgi[1]` until the output has ended
    have hparent := hholders.inWriters_nil (Pipe.of_read_endOfFile hread).2
    rcases hparent with hparent | hparent | hparent
    · rw [hparent] at hpast; cases hpast
    · rw [hparent] at hpast; cases hpast
    · exact absurd hparent halive
  | write y b next pocgi hpc hop hwrite =>
    exact ⟨⟨hpast, halive⟩, nofun, hgoto (.write (hbefore y hpc) hop)⟩
  | killed y b next hpc hop hwrite =>
    rcases hholders.outReaders_nil (Pipe.of_write_broken hwrite) with hparent | hparent
    · rw [hparent] at hpast; cases hpast
    · exact absurd hparent halive
  | exit y hpc hop => exact absurd hop (hwaits y (hbefore y hpc))

theorem child_that_waits_never_ends (hwaits : ∀ y, BeforeEnd program x y → program y ≠ .exit)
    (h : ExchangeRun program x total outRoom inRoom fd c s) : Endless program x s := by
  apply Reachable.invariant_with (I := Sound total fd c) (J := Endless program x)
    (fun _ h => ExchangeRun.sound h) ?_ ?_ h
  · rintro s rfl
    exact ⟨⟨rfl, nofun⟩, nofun, nofun⟩
  · intro s p s' hstep hsound hs
    cases p with
    | parent => exact endless_parent hs hsound.holders (parentStep_move hstep)
    | child => exact endless_child hwaits hs hsound.holders (childStep_move hstep)

def readToEnd : Bool → ChildOp Bool
  | false => .read Option.isNone
  | true => .exit

theorem readToEnd_waits (y : Bool) (h : BeforeEnd readToEnd false y) : readToEnd y ≠ .exit := by
  have hy : y = false := by
    induction h with
    | start => rfl
    | read b _ hop ih =>
      subst ih
      obtain rfl := ChildOp.read.inj hop
      rfl
    | write _ hop ih =>
      subst ih
      cases hop
  subst hy
  nofun

structure CrossedWrites (program : σ → ChildOp σ) (s : Exchange σ) : Prop where
  parent : ∃ n, s.parent = .writeBody n
  child : ∃ y b next, s.child = .running y ∧ program y = .write b next
  picgi : s.picgi.content.length = s.picgi.capacity
  pocgi : s.pocgi.content.length = s.pocgi.capacity

structure CrossedReads (program : σ → ChildOp σ) (s : Exchange σ) : Prop where
  parent : s.parent = .readOutput
  child : ∃ y next, s.child = .running y ∧ program y = .read next
  picgi : s.picgi.content = []
  pocgi : s.pocgi.content = []

theorem parentStep_blocked (h : parentStep total s = none) :
    ((∃ n, s.parent = .writeBody n) ∧ s.picgi.write s.c = .blocked) ∨
      (s.parent = .readOutput ∧ s.pocgi.read = .blocked) ∨
      (s.parent = .waitpid ∧ s.child.hasExited = false) ∨
      s.parent = .returned ∨ s.parent = .killed := by
  cases hpc : s.parent with
  | readBody n => cases n <;> simp only [parentStep, hpc, reduceCtorEq] at h
  | writeBody n =>
    refine .inl ⟨⟨n, rfl⟩, ?_⟩
    simp only [parentStep, hpc] at h
    cases hwrite : s.picgi.write s.c with
    | blocked => rfl
    | stored picgi => simp only [hwrite, reduceCtorEq] at h
    | broken => simp only [hwrite, reduceCtorEq] at h
  | readOutput =>
    refine .inr (.inl ⟨rfl, ?_⟩)
    simp only [parentStep, hpc] at h
    cases hread : s.pocgi.read with
    | blocked => rfl
    | item b pocgi => simp only [hread, reduceCtorEq] at h
    | endOfFile => simp only [hread, reduceCtorEq] at h
  | waitpid =>
    refine .inr (.inr (.inl ⟨rfl, ?_⟩))
    simp only [parentStep, hpc] at h
    split_ifs at h with hexited
    exact Bool.eq_false_of_not_eq_true hexited
  | returned => exact .inr (.inr (.inr (.inl rfl)))
  | killed => exact .inr (.inr (.inr (.inr rfl)))
  | _ => simp only [parentStep, hpc, reduceCtorEq] at h

theorem childStep_blocked (h : childStep program x s = none) :
    (∃ y next, s.child = .running y ∧ program y = .read next ∧ s.picgi.read = .blocked) ∨
      (∃ y b next, s.child = .running y ∧ program y = .write b next ∧
        s.pocgi.write b = .blocked) ∨ s.child = .exited := by
  cases hpc : s.child with
  | running y =>
    cases hop : program y with
    | read next =>
      refine .inl ⟨y, next, rfl, hop, ?_⟩
      simp only [childStep, hpc, hop] at h
      cases hread : s.picgi.read with
      | blocked => rfl
      | item b picgi => simp only [hread, reduceCtorEq] at h
      | endOfFile => simp only [hread, reduceCtorEq] at h
    | write b next =>
      refine .inr (.inl ⟨y, b, next, rfl, hop, ?_⟩)
      simp only [childStep, hpc, hop] at h
      cases hwrite : s.pocgi.write b with
      | blocked => rfl
      | stored pocgi => simp only [hwrite, reduceCtorEq] at h
      | broken => simp only [hwrite, reduceCtorEq] at h
    | exit => simp only [childStep, hpc, hop, reduceCtorEq] at h
  | exited => exact .inr (.inr rfl)
  | _ => simp only [childStep, hpc, reduceCtorEq] at h

theorem Sound.exited_of_done (h : Sound total fd c s)
    (hdone : s.parent = .waitpid ∨ s.parent = .returned) : s.child = .exited := by
  rcases hdone with hpc | hpc
  · exact (h.ended (by rw [hpc]; rfl)).1
  · exact (h.ended (by rw [hpc]; rfl)).1

theorem Holders.ne_nil {holders : List Process} {p : Process} {m n : ℕ}
    (h : ∀ p : Process, holders.count p = p.share m n) (hp : 0 < p.share m n) : holders ≠ [] := by
  rintro rfl
  have hzero := h p
  rw [List.count_nil] at hzero
  omega

theorem stuck_of_crossedWrites (hholders : Holders s) (h : CrossedWrites program s) :
    Stuck (exchangeStep program x total) s := by
  obtain ⟨⟨n, hparent⟩, ⟨y, b, next, hchild, hop⟩, hpicgi, hpocgi⟩ := h
  have hreaders : s.picgi.readers ≠ [] :=
    Holders.ne_nil (p := .child) hholders.inReaders (by rw [hchild]; exact Nat.two_pos)
  have hreaders' : s.pocgi.readers ≠ [] :=
    Holders.ne_nil (p := .parent) hholders.outReaders (by rw [hparent]; exact Nat.one_pos)
  rintro (_ | _)
  · simp only [exchangeStep, parentStep, hparent, Pipe.write_blocked_iff.mpr ⟨hreaders, hpicgi⟩]
  · simp only [exchangeStep, childStep, hchild, hop,
      Pipe.write_blocked_iff.mpr ⟨hreaders', hpocgi⟩]

theorem stuck_of_crossedReads (hholders : Holders s) (h : CrossedReads program s) :
    Stuck (exchangeStep program x total) s := by
  obtain ⟨hparent, ⟨y, next, hchild, hop⟩, hpicgi, hpocgi⟩ := h
  have hwriters : s.picgi.writers ≠ [] :=
    Holders.ne_nil (p := .parent) hholders.inWriters (by rw [hparent]; exact Nat.one_pos)
  have hwriters' : s.pocgi.writers ≠ [] :=
    Holders.ne_nil (p := .child) hholders.outWriters (by rw [hchild]; exact Nat.two_pos)
  rintro (_ | _)
  · simp only [exchangeStep, parentStep, hparent, Pipe.read_blocked_iff.mpr ⟨hpocgi, hwriters'⟩]
  · simp only [exchangeStep, childStep, hchild, hop, Pipe.read_blocked_iff.mpr ⟨hpicgi, hwriters⟩]

theorem crossed_of_stuck (hsound : Sound total fd c s) (hout : 0 < s.pocgi.capacity)
    (hin : 0 < s.picgi.capacity) (hstuck : Stuck (exchangeStep program x total) s) :
    (s.child = .exited ∧ (s.parent = .returned ∨ s.parent = .killed)) ∨
      CrossedWrites program s ∨ CrossedReads program s := by
  have hholders := hsound.holders
  have hempty {pipe : Pipe Process Byte} (hpos : 0 < pipe.capacity) (hnil : pipe.content = [])
      (hfull : pipe.content.length = pipe.capacity) : False := by
    rw [hnil, List.length_nil] at hfull
    omega
  rcases parentStep_blocked (hstuck .parent) with
    ⟨hparent, hwrite⟩ | ⟨hparent, hread⟩ | ⟨hparent, hwait⟩ | hparent | hparent
  · obtain ⟨hreaders, hfull⟩ := Pipe.write_blocked_iff.mp hwrite
    rcases childStep_blocked (hstuck .child) with
      ⟨y, next, hchild, hop, hread⟩ | ⟨y, b, next, hchild, hop, hwrite'⟩ | hchild
    · exact (hempty hin (Pipe.read_blocked_iff.mp hread).1 hfull).elim
    · exact .inr (.inl ⟨hparent, ⟨y, b, next, hchild, hop⟩, hfull,
        (Pipe.write_blocked_iff.mp hwrite').2⟩)
    · obtain ⟨n, hparent⟩ := hparent
      refine absurd ((holders_eq_nil hholders.inReaders).mpr ?_) hreaders
      rw [hparent, hchild]
      exact ⟨rfl, rfl⟩
  · obtain ⟨hnil, hwriters⟩ := Pipe.read_blocked_iff.mp hread
    rcases childStep_blocked (hstuck .child) with
      ⟨y, next, hchild, hop, hread'⟩ | ⟨y, b, next, hchild, hop, hwrite⟩ | hchild
    · exact .inr (.inr ⟨hparent, ⟨y, next, hchild, hop⟩, (Pipe.read_blocked_iff.mp hread').1, hnil⟩)
    · exact (hempty hout hnil (Pipe.write_blocked_iff.mp hwrite).2).elim
    · refine absurd ((holders_eq_nil hholders.outWriters).mpr ?_) hwriters
      rw [hparent, hchild]
      exact ⟨rfl, rfl⟩
  · rw [hsound.exited_of_done (.inl hparent)] at hwait
    cases hwait
  · exact .inl ⟨hsound.exited_of_done (.inr hparent), .inl hparent⟩
  · rcases childStep_blocked (hstuck .child) with
      ⟨y, next, hchild, hop, hread⟩ | ⟨y, b, next, hchild, hop, hwrite⟩ | hchild
    · refine absurd ((holders_eq_nil hholders.inWriters).mpr ?_) (Pipe.read_blocked_iff.mp hread).2
      rw [hparent, hchild]
      exact ⟨rfl, rfl⟩
    · refine absurd ((holders_eq_nil hholders.outReaders).mpr ?_)
        (Pipe.write_blocked_iff.mp hwrite).1
      rw [hparent, hchild]
      exact ⟨rfl, rfl⟩
    · exact .inl ⟨hchild, .inr hparent⟩

theorem CrossedReads.body (h : CrossedReads program s) (hsound : Sound total fd c s) :
    s.picgi.taken = relayed total fd c := by
  have hevents := hsound.events (by simp [h.parent]) [] (fun _ => rfl)
  have hinput := congrArg childInput hevents
  rw [childInput_append, hsound.input, Pipe.written, h.picgi, childInput_relayEvents] at hinput
  simp only [remaining, h.parent, List.append_nil] at hinput
  rw [← hinput]
  exact (List.append_nil _).symm

theorem stuck_exchange_iff (hout : 0 < outRoom) (hin : 0 < inRoom)
    (h : ExchangeRun program x total outRoom inRoom fd c s) :
    (Stuck (exchangeStep program x total) s ↔
      (s.child = .exited ∧ (s.parent = .returned ∨ s.parent = .killed)) ∨
        CrossedWrites program s ∨ CrossedReads program s) ∧
      (CrossedReads program s → s.picgi.taken = relayed total fd c) := by
  have hsound := h.sound
  obtain ⟨hcapOut, hcapIn⟩ := h.capacity
  refine ⟨⟨crossed_of_stuck hsound (by omega) (by omega), ?_⟩, fun hcross => hcross.body hsound⟩
  rintro (⟨hchild, hparent⟩ | hcross | hcross)
  · rintro (_ | _)
    · rcases hparent with hparent | hparent <;> simp only [exchangeStep, parentStep, hparent]
    · simp only [exchangeStep, childStep, hchild]
  · exact stuck_of_crossedWrites hsound.holders hcross
  · exact stuck_of_crossedReads hsound.holders hcross

theorem exists_crossedReads : ∃ s,
    ExchangeRun readToEnd false 1 4 4 (sent ("a".toList.map Http.chr)) 0 s ∧
      CrossedReads readToEnd s :=
  ⟨_, ⟨_, rfl, (Reaches.refl _).execute (Eq.refl (execute (exchangeStep readToEnd false 1)
    (forked 4 4 (sent ("a".toList.map Http.chr)) 0)
    [.child, .child, .child, .child, .parent, .parent, .parent, .parent, .parent, .parent,
      .child]))⟩, rfl, ⟨false, _, rfl, rfl⟩, rfl, rfl⟩

theorem child_that_waits_never_ends_one_byte : ∃ s,
    ExchangeRun readToEnd false 1 4 4 (sent ("a".toList.map Http.chr)) 0 s ∧
      s.parent = .readOutput ∧ Endless readToEnd false s := by
  obtain ⟨s, hrun, hcross⟩ := exists_crossedReads
  exact ⟨s, hrun, hcross.parent, child_that_waits_never_ends readToEnd_waits hrun⟩

theorem stuck_exchange_iff_one_byte : ∃ s,
    Stuck (exchangeStep readToEnd false 1) s ∧ s.picgi.taken = "a".toList.map Http.chr := by
  obtain ⟨s, hrun, hcross⟩ := exists_crossedReads
  obtain ⟨hiff, hbody⟩ := stuck_exchange_iff (by decide) (by decide) hrun
  exact ⟨s, hiff.mpr (.inr (.inr hcross)), hbody hcross⟩

end Sginx.Mini
