import Sginx.CgiProcesses

namespace Sginx.Mini

open Sginx.Http (Byte)
open Sginx.Library.BoundedPipe
open Sginx.Library.Transition

variable {σ : Type} {program : σ → ChildOp σ} {x : σ} {total : ℕ} {s s' : Exchange σ}

def ParentPc.outReaders : ParentPc → ℕ
  | .closePicgi => 0
  | .waitpid => 0
  | .returned => 0
  | .killed => 0
  | _ => 1

def ParentPc.outWriters : ParentPc → ℕ
  | .okLine => 1
  | .closeOutput => 1
  | _ => 0

def ParentPc.inReaders : ParentPc → ℕ
  | .okLine => 1
  | .closeOutput => 1
  | .closeInput => 1
  | _ => 0

def ParentPc.inWriters : ParentPc → ℕ
  | .waitpid => 0
  | .returned => 0
  | .killed => 0
  | _ => 1

def ChildPc.outReaders : ChildPc σ → ℕ
  | .dupOutput => 1
  | .dupInput => 1
  | .closeOutput => 1
  | _ => 0

def ChildPc.outWriters : ChildPc σ → ℕ
  | .dupOutput => 1
  | .exited => 0
  | _ => 2

def ChildPc.inReaders : ChildPc σ → ℕ
  | .dupOutput => 1
  | .dupInput => 1
  | .exited => 0
  | _ => 2

def ChildPc.inWriters : ChildPc σ → ℕ
  | .dupOutput => 1
  | .dupInput => 1
  | .closeOutput => 1
  | .closeInput => 1
  | _ => 0

def Process.share (parent child : ℕ) : Process → ℕ
  | .parent => parent
  | .child => child

structure Holders (s : Exchange σ) : Prop where
  outReaders : ∀ p : Process,
    s.pocgi.readers.count p = p.share s.parent.outReaders s.child.outReaders
  outWriters : ∀ p : Process,
    s.pocgi.writers.count p = p.share s.parent.outWriters s.child.outWriters
  inReaders : ∀ p : Process,
    s.picgi.readers.count p = p.share s.parent.inReaders s.child.inReaders
  inWriters : ∀ p : Process,
    s.picgi.writers.count p = p.share s.parent.inWriters s.child.inWriters

theorem count_close {holders : List Process} {q : Process} {m n : ℕ}
    (h : ∀ p : Process, holders.count p = p.share m n) (p : Process) :
    (holders.erase q).count p = p.share (m - q.share 1 0) (n - q.share 0 1) := by
  rw [List.count_erase, h p]
  cases p <;> cases q <;> rfl

theorem count_open {holders : List Process} {q : Process} {m n : ℕ}
    (h : ∀ p : Process, holders.count p = p.share m n) (p : Process) :
    (q :: holders).count p = p.share (m + q.share 1 0) (n + q.share 0 1) := by
  rw [List.count_cons, h p]
  cases p <;> cases q <;> rfl

theorem count_leave {holders : List Process} {q : Process} {m n : ℕ}
    (h : ∀ p : Process, holders.count p = p.share m n) (p : Process) :
    (holders.filter (· ≠ q)).count p = p.share (q.share 0 m) (q.share n 0) := by
  by_cases hpq : p = q
  · subst hpq
    rw [List.count_eq_zero_of_not_mem (by simp)]
    cases p <;> rfl
  · rw [List.count_filter (by simpa using hpq), h p]
    cases p <;> cases q <;> first | rfl | exact absurd rfl hpq

theorem holders_eq_nil {holders : List Process} {m n : ℕ}
    (h : ∀ p : Process, holders.count p = p.share m n) : holders = [] ↔ m = 0 ∧ n = 0 := by
  constructor
  · rintro rfl
    exact ⟨(h .parent).symm, (h .child).symm⟩
  · rintro ⟨rfl, rfl⟩
    apply List.eq_nil_iff_forall_not_mem.mpr
    intro p hp
    have hpos := List.count_pos_iff.mpr hp
    rw [h p] at hpos
    cases p <;> exact absurd hpos (lt_irrefl 0)

theorem holders_parent (h : Holders s) (hmove : ParentMove total s s') : Holders s' := by
  obtain ⟨hor, how, hir, hiw⟩ := h
  cases hmove with
  | okLine hpc => rw [hpc] at hor how hir hiw; exact ⟨hor, how, hir, hiw⟩
  | closeOutput hpc => rw [hpc] at hor how hir hiw; exact ⟨hor, count_close how, hir, hiw⟩
  | closeInput hpc => rw [hpc] at hor how hir hiw; exact ⟨hor, how, count_close hir, hiw⟩
  | leaveLoop hpc => rw [hpc] at hor how hir hiw; exact ⟨hor, how, hir, hiw⟩
  | readBody n hpc => rw [hpc] at hor how hir hiw; exact ⟨hor, how, hir, hiw⟩
  | writeBody n picgi hpc hwrite =>
    obtain ⟨-, -, hreaders, hwriters, -⟩ := Pipe.of_write_stored hwrite
    rw [hpc] at hor how hir hiw
    rw [← hreaders] at hir
    rw [← hwriters] at hiw
    exact ⟨hor, how, hir, hiw⟩
  | killed n hpc hwrite =>
    rw [hpc] at hor how hir hiw
    exact ⟨count_leave hor, count_leave how, count_leave hir, count_leave hiw⟩
  | readOutput c pocgi hpc hread =>
    obtain ⟨-, -, hreaders, hwriters, -⟩ := Pipe.of_read_item hread
    rw [hpc] at hor how hir hiw
    rw [← hreaders] at hor
    rw [← hwriters] at how
    exact ⟨hor, how, hir, hiw⟩
  | endOfFile hpc hread => rw [hpc] at hor how hir hiw; exact ⟨hor, how, hir, hiw⟩
  | writeOutput hpc => rw [hpc] at hor how hir hiw; exact ⟨hor, how, hir, hiw⟩
  | closePocgi hpc => rw [hpc] at hor how hir hiw; exact ⟨count_close hor, how, hir, hiw⟩
  | closePicgi hpc => rw [hpc] at hor how hir hiw; exact ⟨hor, how, hir, count_close hiw⟩
  | waitpid hpc hexited => rw [hpc] at hor how hir hiw; exact ⟨hor, how, hir, hiw⟩

theorem holders_exit (h : Holders s) : Holders s.exit :=
  ⟨count_leave h.outReaders, count_leave h.outWriters, count_leave h.inReaders,
    count_leave h.inWriters⟩

theorem holders_child (h : Holders s) (hmove : ChildMove program x s s') : Holders s' := by
  have hexit := holders_exit h
  obtain ⟨hor, how, hir, hiw⟩ := h
  cases hmove with
  | dupOutput hpc => rw [hpc] at hor how hir hiw; exact ⟨hor, count_open how, hir, hiw⟩
  | dupInput hpc => rw [hpc] at hor how hir hiw; exact ⟨hor, how, count_open hir, hiw⟩
  | closeOutput hpc => rw [hpc] at hor how hir hiw; exact ⟨count_close hor, how, hir, hiw⟩
  | closeInput hpc => rw [hpc] at hor how hir hiw; exact ⟨hor, how, hir, count_close hiw⟩
  | read y next c picgi hpc hop hread =>
    obtain ⟨-, -, hreaders, hwriters, -⟩ := Pipe.of_read_item hread
    rw [hpc] at hor how hir hiw
    rw [← hreaders] at hir
    rw [← hwriters] at hiw
    exact ⟨hor, how, hir, hiw⟩
  | endOfFile y next hpc => rw [hpc] at hor how hir hiw; exact ⟨hor, how, hir, hiw⟩
  | write y c next pocgi hpc hop hwrite =>
    obtain ⟨-, -, hreaders, hwriters, -⟩ := Pipe.of_write_stored hwrite
    rw [hpc] at hor how hir hiw
    rw [← hreaders] at hor
    rw [← hwriters] at how
    exact ⟨hor, how, hir, hiw⟩
  | killed => exact hexit
  | exit => exact hexit

def ParentPc.pastOutput : ParentPc → Bool
  | .closePocgi => true
  | .closePicgi => true
  | .waitpid => true
  | .returned => true
  | _ => false

def remaining (total : ℕ) (s : Exchange σ) (more : List Byte) : List CgiEvent :=
  match s.parent with
  | .okLine => relayEvents total s.fd s.c more
  | .closeOutput => (relayEvents total s.fd s.c more).drop 1
  | .closeInput => (relayEvents total s.fd s.c more).drop 2
  | .readBody n => (relayBody n s.fd s.c).1 ++ relayEnd more
  | .writeBody n => .toChild s.c :: ((relayBody n s.fd s.c).1 ++ relayEnd more)
  | .readOutput => relayEnd more
  | .writeOutput => .toClient [s.c] :: relayEnd more
  | .closePocgi => [.close (.pocgi readEnd), .close (.picgi writeEnd), .waitpid]
  | .closePicgi => [.close (.picgi writeEnd), .waitpid]
  | .waitpid => [.waitpid]
  | .returned => []
  | .killed => []

def remainingFd (total : ℕ) (s : Exchange σ) : Stream :=
  match s.parent with
  | .okLine => (relayBody total s.fd s.c).2.1
  | .closeOutput => (relayBody total s.fd s.c).2.1
  | .closeInput => (relayBody total s.fd s.c).2.1
  | .readBody n => (relayBody n s.fd s.c).2.1
  | .writeBody n => (relayBody n s.fd s.c).2.1
  | _ => s.fd

structure Sound (total : ℕ) (fd : Stream) (c : Byte) (s : Exchange σ) : Prop where
  holders : Holders s
  ended : s.parent.pastOutput = true → s.child = .exited ∧ s.pocgi.content = []
  input : childInput s.events = s.picgi.written
  events : s.parent ≠ .killed → ∀ more, (s.parent.pastOutput = true → more = []) →
    s.events ++ remaining total s more = relayEvents total fd c (s.pocgi.taken ++ more)
  rest : s.parent ≠ .killed → remainingFd total s = (relayBody total fd c).2.1
  begun : s.parent = .killed → ∀ more, s.events <+: relayEvents total fd c (s.pocgi.taken ++ more)

variable {fd : Stream} {c : Byte}

theorem sound_forked (outRoom inRoom : ℕ) : Sound total fd c (forked (σ := σ) outRoom inRoom fd c) where
  holders := by
    have hboth (p : Process) : [Process.parent, Process.child].count p = p.share 1 1 := by
      cases p <;> rfl
    exact ⟨hboth, hboth, hboth, hboth⟩
  ended h := by cases h
  input := rfl
  events _ _ _ := rfl
  rest _ := rfl
  begun h := by cases h

theorem Sound.emit (h : Sound total fd c s) {event : CgiEvent} (hholders : Holders s')
    (halive : s.parent ≠ .killed) (halive' : s'.parent ≠ .killed)
    (hpast : s'.parent.pastOutput = s.parent.pastOutput) (hchild : s'.child = s.child)
    (hcontent : s'.pocgi.content = s.pocgi.content) (htaken : s'.pocgi.taken = s.pocgi.taken)
    (hdone : s'.events = s.events ++ [event])
    (hinput : s'.picgi.written = s.picgi.written ++ childInput [event])
    (hremaining : ∀ more, remaining total s more = event :: remaining total s' more)
    (hrest : remainingFd total s' = remainingFd total s) : Sound total fd c s' where
  holders := hholders
  ended := by
    rw [hpast, hchild, hcontent]
    exact h.ended
  input := by rw [hdone, childInput_append, h.input, hinput]
  events := by
    intro _ more hmore
    rw [hpast] at hmore
    rw [hdone, htaken, List.append_assoc, List.singleton_append, ← hremaining]
    exact h.events halive more hmore
  rest := by
    intro _
    rw [hrest]
    exact h.rest halive
  begun hkilled := absurd hkilled halive'

theorem sound_parent (h : Sound total fd c s) (hmove : ParentMove total s s') :
    Sound total fd c s' := by
  have hholders := holders_parent h.holders hmove
  have hemit {event : CgiEvent} (hpc : s.parent ≠ .killed) := @Sound.emit σ total s s' fd c h event hholders hpc
  have hsilent : s.picgi.written = s.picgi.written ++ [] := (List.append_nil _).symm
  cases hmove with
  | okLine hpc =>
    apply hemit (by simp [hpc]) nofun (by rw [hpc]; rfl) rfl rfl rfl rfl hsilent
    · intro more
      simp only [remaining, hpc]
      rfl
    · simp only [remainingFd, hpc]
  | closeOutput hpc =>
    apply hemit (by simp [hpc]) nofun (by rw [hpc]; rfl) rfl rfl rfl rfl hsilent
    · intro more
      simp only [remaining, hpc]
      rfl
    · simp only [remainingFd, hpc]
  | closeInput hpc =>
    apply hemit (by simp [hpc]) nofun (by rw [hpc]; rfl) rfl rfl rfl rfl hsilent
    · intro more
      simp only [remaining, hpc]
      rfl
    · simp only [remainingFd, hpc]
  | leaveLoop hpc =>
    have halive : s.parent ≠ .killed := by simp [hpc]
    refine ⟨hholders, nofun, h.input, ?_, ?_, nofun⟩
    · intro _ more _
      have := h.events halive more (by simp [hpc, ParentPc.pastOutput])
      simp only [remaining, hpc] at this
      exact this
    · intro _
      have := h.rest halive
      simp only [remainingFd, hpc] at this
      exact this
  | readBody n hpc =>
    have halive : s.parent ≠ .killed := by simp [hpc]
    refine ⟨hholders, nofun, h.input, ?_, ?_, nofun⟩
    · intro _ more _
      have := h.events halive more (by simp [hpc, ParentPc.pastOutput])
      simp only [remaining, hpc] at this
      exact this
    · intro _
      have := h.rest halive
      simp only [remainingFd, hpc] at this
      exact this
  | writeBody n picgi hpc hwrite =>
    apply hemit (by simp [hpc]) nofun (by rw [hpc]; rfl) rfl rfl rfl rfl (Pipe.write_written hwrite)
    · intro more
      simp only [remaining, hpc]
    · simp only [remainingFd, hpc]
  | killed n hpc hwrite =>
    refine ⟨hholders, nofun, h.input, fun hne => absurd rfl hne, fun hne => absurd rfl hne, ?_⟩
    intro _ more
    have := h.events (by simp [hpc]) more (by simp [hpc, ParentPc.pastOutput])
    exact ⟨_, this⟩
  | readOutput b pocgi hpc hread =>
    have halive : s.parent ≠ .killed := by simp [hpc]
    obtain ⟨-, htaken, -⟩ := Pipe.of_read_item hread
    refine ⟨hholders, nofun, h.input, ?_, ?_, nofun⟩
    · intro _ more _
      have := h.events halive (b :: more) (by simp [hpc, ParentPc.pastOutput])
      simp only [remaining, hpc, relayEnd_cons] at this
      simp only [remaining, htaken, List.append_assoc, List.singleton_append]
      exact this
    · intro _
      have := h.rest halive
      simpa only [remainingFd, hpc] using this
  | endOfFile hpc hread =>
    have halive : s.parent ≠ .killed := by simp [hpc]
    obtain ⟨hcontent, hwriters⟩ := Pipe.of_read_endOfFile hread
    have hexited := ((holders_eq_nil h.holders.outWriters).mp hwriters).2
    refine ⟨hholders, fun _ => ⟨?_, hcontent⟩, h.input, ?_, ?_, nofun⟩
    · cases hchild : s.child with
      | exited => rfl
      | _ =>
        rw [hchild] at hexited
        cases hexited
    · intro _ more hmore
      obtain rfl := hmore rfl
      have := h.events halive [] (fun _ => rfl)
      simp only [remaining, hpc] at this
      exact this
    · intro _
      have := h.rest halive
      simpa only [remainingFd, hpc] using this
  | writeOutput hpc =>
    apply hemit (by simp [hpc]) nofun (by rw [hpc]; rfl) rfl rfl rfl rfl hsilent
    · intro more
      simp only [remaining, hpc]
    · simp only [remainingFd, hpc]
  | closePocgi hpc =>
    apply hemit (by simp [hpc]) nofun (by rw [hpc]; rfl) rfl rfl rfl rfl hsilent
    · intro more
      simp only [remaining, hpc]
    · simp only [remainingFd, hpc]
  | closePicgi hpc =>
    apply hemit (by simp [hpc]) nofun (by rw [hpc]; rfl) rfl rfl rfl rfl hsilent
    · intro more
      simp only [remaining, hpc]
    · simp only [remainingFd, hpc]
  | waitpid hpc hexited =>
    apply hemit (by simp [hpc]) nofun (by rw [hpc]; rfl) rfl rfl rfl rfl hsilent
    · intro more
      simp only [remaining, hpc]
    · simp only [remainingFd, hpc]

theorem Sound.child (h : Sound total fd c s) (hholders : Holders s')
    (hended : s'.parent.pastOutput = true → s'.child = .exited ∧ s'.pocgi.content = [])
    (hparent : s'.parent = s.parent) (hfd : s'.fd = s.fd) (hc : s'.c = s.c)
    (hevents : s'.events = s.events) (hinput : s'.picgi.written = s.picgi.written)
    (htaken : s'.pocgi.taken = s.pocgi.taken) : Sound total fd c s' where
  holders := hholders
  ended := hended
  input := by rw [hevents, h.input, hinput]
  events := by
    have hremaining (more : List Byte) : remaining total s' more = remaining total s more := by
      rw [remaining, remaining, hparent, hfd, hc]
    simp only [hparent, hevents, hremaining, htaken]
    exact h.events
  rest := by
    have hremaining : remainingFd total s' = remainingFd total s := by
      rw [remainingFd, remainingFd, hparent, hfd, hc]
    rw [hparent, hremaining]
    exact h.rest
  begun := by
    rw [hparent, hevents, htaken]
    exact h.begun

theorem sound_child (h : Sound total fd c s) (hmove : ChildMove program x s s') :
    Sound total fd c s' := by
  have hholders := holders_child h.holders hmove
  -- the child has not exited, so that its output has not ended
  have hended (hchild : s.child ≠ .exited) {P : Prop} (hpast : s.parent.pastOutput = true) : P :=
    absurd (h.ended hpast).1 hchild
  cases hmove with
  | dupOutput hpc => exact h.child hholders (hended (by simp [hpc])) rfl rfl rfl rfl rfl rfl
  | dupInput hpc => exact h.child hholders (hended (by simp [hpc])) rfl rfl rfl rfl rfl rfl
  | closeOutput hpc => exact h.child hholders (hended (by simp [hpc])) rfl rfl rfl rfl rfl rfl
  | closeInput hpc => exact h.child hholders (hended (by simp [hpc])) rfl rfl rfl rfl rfl rfl
  | read y next b picgi hpc hop hread =>
    exact h.child hholders (hended (by simp [hpc])) rfl rfl rfl rfl (Pipe.read_written hread) rfl
  | endOfFile y next hpc => exact h.child hholders (hended (by simp [hpc])) rfl rfl rfl rfl rfl rfl
  | write y b next pocgi hpc hop hwrite =>
    exact h.child hholders (hended (by simp [hpc])) rfl rfl rfl rfl rfl
      (Pipe.of_write_stored hwrite).2.1
  | killed y b next hpc => exact h.child hholders (hended (by simp [hpc])) rfl rfl rfl rfl rfl rfl
  | exit y hpc => exact h.child hholders (hended (by simp [hpc])) rfl rfl rfl rfl rfl rfl

theorem Sound.events_prefix (h : Sound total fd c s) :
    s.events <+: relayEvents total fd c s.pocgi.written := by
  by_cases hkilled : s.parent = .killed
  · exact h.begun hkilled _
  · exact ⟨_, h.events hkilled _ fun hpast => (h.ended hpast).2⟩

theorem Sound.events_returned (h : Sound total fd c s) (hreturned : s.parent = .returned) :
    s.events = relayEvents total fd c s.pocgi.written := by
  have hcontent : s.pocgi.content = [] := (h.ended (by rw [hreturned]; rfl)).2
  have hall := h.events (by simp [hreturned]) _ fun _ => hcontent
  simp only [remaining, hreturned, List.append_nil] at hall
  exact hall

theorem ExchangeRun.sound {outRoom inRoom : ℕ}
    (h : ExchangeRun program x total outRoom inRoom fd c s) : Sound total fd c s := by
  apply Reachable.invariant (I := Sound total fd c) ?_ ?_ h
  · rintro s rfl
    exact sound_forked outRoom inRoom
  · intro s p s' hstep hs
    cases p with
    | parent => exact sound_parent hs (parentStep_move hstep)
    | child => exact sound_child hs (childStep_move hstep)

theorem exchange_refines {outRoom inRoom : ℕ}
    (h : ExchangeRun program x total outRoom inRoom fd c s) :
    childInput s.events = s.picgi.taken ++ s.picgi.content ∧
      s.events <+: relayEvents total fd c s.pocgi.written ∧
      (s.parent = .returned → s.child = .exited ∧
        s.events = relayEvents total fd c s.pocgi.written ∧
        s.fd = (relayBody total fd c).2.1) := by
  have hsound := h.sound
  refine ⟨hsound.input, hsound.events_prefix, ?_⟩
  intro hreturned
  refine ⟨(hsound.ended (by rw [hreturned]; rfl)).1, hsound.events_returned hreturned, ?_⟩
  have hfd := hsound.rest (by simp [hreturned])
  simpa only [remainingFd, hreturned] using hfd

def readThenWrite : List ScriptOp := [.read, .write (Http.chr 'b')]

theorem exchange_refines_one_byte : ∃ s,
    ExchangeRun script readThenWrite 1 4 4 (sent ("a".toList.map Http.chr)) 0 s ∧
      s.parent = .returned ∧
      s.events = relayEvents 1 (sent ("a".toList.map Http.chr)) 0 ("b".toList.map Http.chr) := by
  have hrun : ExchangeRun script readThenWrite 1 4 4
      (sent ("a".toList.map Http.chr)) 0 _ :=
    ⟨_, rfl, (Reaches.refl _).execute (Eq.refl (execute (exchangeStep script readThenWrite 1)
      (forked 4 4 (sent ("a".toList.map Http.chr)) 0)
      [.child, .parent, .child, .parent, .child, .parent, .child, .parent, .parent, .child,
        .child, .parent, .parent, .parent, .child, .parent, .parent, .parent, .parent]))⟩
  refine ⟨_, hrun, rfl, ?_⟩
  exact ((exchange_refines hrun).2.2 rfl).2.1

end Sginx.Mini
