import Sginx.CgiOutcome

namespace Sginx.Mini

open Sginx.Http (Byte chr)
open Sginx.Library.BoundedPipe
open Sginx.Library.CString (strcasecmp)
open Sginx.Library.Transition

inductive Intake where
  | exits (unread : ℕ)
  | waits
  | blocks (unread : ℕ)
deriving DecidableEq, Repr

def intake {σ : Type} (program : σ → ChildOp σ) (room : ℕ) (input : List Byte) (y : σ) : Intake :=
  match program y with
  | .exit => .exits input.length
  | .write _ next =>
    match room with
    | 0 => .blocks input.length
    | room + 1 => intake program room input next
  | .read next =>
    match input with
    | [] => .waits
    | b :: input => intake program room input (next (some b))
termination_by room + input.length

def Intake.Suits (inRoom : ℕ) : Intake → Prop
  | .exits unread => unread = 0
  | .waits => True
  | .blocks unread => unread ≤ inRoom

instance (inRoom : ℕ) : (result : Intake) → Decidable (result.Suits inRoom)
  | .exits unread => inferInstanceAs (Decidable (unread = 0))
  | .waits => inferInstanceAs (Decidable True)
  | .blocks unread => inferInstanceAs (Decidable (unread ≤ inRoom))

variable {σ : Type} {program : σ → ChildOp σ} {x : σ} {total : ℕ} {s s' : Exchange σ}
variable {outRoom inRoom : ℕ} {fd : Stream} {c : Byte}

section intake

variable {room : ℕ} {input : List Byte} {y : σ}

theorem intake_exit (hop : program y = .exit) :
    intake program room input y = .exits input.length := by
  rw [intake, hop]

theorem intake_write_zero {b : Byte} {next : σ} (hop : program y = .write b next) :
    intake program 0 input y = .blocks input.length := by
  rw [intake, hop]

theorem intake_write_succ {b : Byte} {next : σ} (hop : program y = .write b next) :
    intake program (room + 1) input y = intake program room input next := by
  rw [intake, hop]

theorem intake_read_nil {next : Option Byte → σ} (hop : program y = .read next) :
    intake program room [] y = .waits := by
  rw [intake, hop]

theorem intake_read_cons {b : Byte} {next : Option Byte → σ} (hop : program y = .read next) :
    intake program room (b :: input) y = intake program room input (next (some b)) := by
  rw [intake, hop]

theorem intake_blocks_le {unread : ℕ} (h : intake program room input y = .blocks unread) :
    unread ≤ input.length := by
  fun_induction intake program room input y with
  | case1 => cases h
  | case2 =>
    obtain rfl := Intake.blocks.inj h
    exact le_refl _
  | case3 input y b next hop room ih => exact ih h
  | case4 => cases h
  | case5 room y next hop b input ih => exact Nat.le_succ_of_le (ih h)

theorem intake_append_blocks_iff (more : List Byte) (unread : ℕ) :
    intake program room (input ++ more) y = .blocks (more.length + unread) ↔
      intake program room input y = .blocks unread := by
  fun_induction intake program room input y with
  | case1 room input y hop => simp [intake_exit hop]
  | case2 input y b next hop =>
    rw [intake_write_zero hop, Intake.blocks.injEq, Intake.blocks.injEq, List.length_append]
    omega
  | case3 input y b next hop room ih => rw [intake_write_succ hop, ih]
  | case4 room y next hop =>
    rw [List.nil_append]
    refine iff_of_false ?_ nofun
    cases more with
    | nil =>
      rw [intake_read_nil hop]
      nofun
    | cons b more =>
      rw [intake_read_cons hop]
      intro h
      have hle := intake_blocks_le h
      rw [List.length_cons] at hle
      omega
  | case5 room y next hop b input ih => rw [List.cons_append, intake_read_cons hop, ih]

theorem calls_of_exits {unread : ℕ} (h : intake program room input y = .exits unread) :
    ∃ ops, Calls program y input ops ∧ reads ops + unread = input.length ∧ writes ops ≤ room := by
  fun_induction intake program room input y with
  | case1 room input y hop =>
    obtain rfl := Intake.exits.inj h
    exact ⟨[], .exit hop, Nat.zero_add _, Nat.zero_le _⟩
  | case2 => cases h
  | case3 input y b next hop room ih =>
    obtain ⟨ops, hcalls, hreads, hwrites⟩ := ih h
    exact ⟨.write b :: ops, .write hop hcalls, by simpa using hreads, by simpa using hwrites⟩
  | case4 => cases h
  | case5 room y next hop b input ih =>
    obtain ⟨ops, hcalls, hreads, hwrites⟩ := ih h
    refine ⟨.read :: ops, .read hop hcalls, ?_, by simpa using hwrites⟩
    rw [reads_read, List.length_cons]
    omega

end intake

def Standing (program : σ → ChildOp σ) (x : σ) (outRoom : ℕ) (input : List Byte)
    (child : ChildPc σ) (wrote took : ℕ) : Prop :=
  match child with
  | .running y => intake program (outRoom - wrote) (input.drop took) y =
      intake program outRoom input x
  | .exited => intake program outRoom input x = .exits (input.length - took)
  | _ => wrote = 0 ∧ took = 0

structure Feeding (program : σ → ChildOp σ) (x : σ) (outRoom inRoom : ℕ) (input : List Byte)
    (s : Exchange σ) : Prop where
  untouched : s.parent.beforeOutput = true → s.pocgi.taken = []
  standing : s.parent.beforeOutput = true →
    Standing program x outRoom input s.child s.pocgi.content.length s.picgi.taken.length
  killed : s.parent = .killed → ∃ unread, 0 < unread ∧
    intake program outRoom input x = .exits unread
  fed : s.parent.beforeOutput = false → s.parent ≠ .killed →
    ∀ unread, intake program outRoom input x = .blocks unread → unread ≤ inRoom

theorem beforeOutput_alive (h : s.parent.beforeOutput = true) :
    s.parent.pastOutput = false ∧ s.parent ≠ .killed := by
  cases hpc : s.parent with
  | okLine => exact ⟨rfl, by rintro ⟨⟩⟩
  | closeOutput => exact ⟨rfl, by rintro ⟨⟩⟩
  | closeInput => exact ⟨rfl, by rintro ⟨⟩⟩
  | readBody n => exact ⟨rfl, by rintro ⟨⟩⟩
  | writeBody n => exact ⟨rfl, by rintro ⟨⟩⟩
  | _ => rw [hpc] at h; cases h

theorem ParentMove.of_before (hmove : ParentMove total s s')
    (hbefore : s.parent.beforeOutput = true) :
    (s'.parent.beforeOutput = true ∧ s'.child = s.child ∧
      s'.pocgi.content = s.pocgi.content ∧ s'.pocgi.taken = s.pocgi.taken ∧
      s'.picgi.taken = s.picgi.taken) ∨
    (s.parent = .readBody 0 ∧ s'.parent = .readOutput) ∨
    ∃ n, s.parent = .writeBody n ∧ s.picgi.write s.c = .broken ∧ s'.parent = .killed := by
  cases hmove with
  | okLine => exact .inl ⟨rfl, rfl, rfl, rfl, rfl⟩
  | closeOutput => exact .inl ⟨rfl, rfl, rfl, rfl, rfl⟩
  | closeInput => exact .inl ⟨rfl, rfl, rfl, rfl, rfl⟩
  | leaveLoop hpc => exact .inr (.inl ⟨hpc, rfl⟩)
  | readBody => exact .inl ⟨rfl, rfl, rfl, rfl, rfl⟩
  | writeBody n picgi hpc hwrite =>
    exact .inl ⟨rfl, rfl, rfl, rfl, (Pipe.of_write_stored hwrite).2.1⟩
  | killed n hpc hwrite => exact .inr (.inr ⟨n, hpc, hwrite, rfl⟩)
  | readOutput b pocgi hpc => rw [hpc] at hbefore; cases hbefore
  | endOfFile hpc => rw [hpc] at hbefore; cases hbefore
  | writeOutput hpc => rw [hpc] at hbefore; cases hbefore
  | closePocgi hpc => rw [hpc] at hbefore; cases hbefore
  | closePicgi hpc => rw [hpc] at hbefore; cases hbefore
  | waitpid hpc => rw [hpc] at hbefore; cases hbefore

theorem ParentMove.of_after (hmove : ParentMove total s s')
    (hafter : s.parent.beforeOutput = false) :
    s.parent ≠ .killed ∧ s'.parent.beforeOutput = false ∧ s'.parent ≠ .killed := by
  cases hmove with
  | okLine hpc => rw [hpc] at hafter; cases hafter
  | closeOutput hpc => rw [hpc] at hafter; cases hafter
  | closeInput hpc => rw [hpc] at hafter; cases hafter
  | leaveLoop hpc => rw [hpc] at hafter; cases hafter
  | readBody n hpc => rw [hpc] at hafter; cases hafter
  | writeBody n picgi hpc => rw [hpc] at hafter; cases hafter
  | killed n hpc => rw [hpc] at hafter; cases hafter
  | readOutput b pocgi hpc => exact ⟨by simp [hpc], rfl, by rintro ⟨⟩⟩
  | endOfFile hpc => exact ⟨by simp [hpc], rfl, by rintro ⟨⟩⟩
  | writeOutput hpc => exact ⟨by simp [hpc], rfl, by rintro ⟨⟩⟩
  | closePocgi hpc => exact ⟨by simp [hpc], rfl, by rintro ⟨⟩⟩
  | closePicgi hpc => exact ⟨by simp [hpc], rfl, by rintro ⟨⟩⟩
  | waitpid hpc => exact ⟨by simp [hpc], rfl, by rintro ⟨⟩⟩

section feeding

variable {input : List Byte}

theorem Feeding.of_before (hbefore : s.parent.beforeOutput = true) (huntouched : s.pocgi.taken = [])
    (hstanding : Standing program x outRoom input s.child s.pocgi.content.length
      s.picgi.taken.length) : Feeding program x outRoom inRoom input s where
  untouched _ := huntouched
  standing _ := hstanding
  killed hkilled := absurd hkilled (beforeOutput_alive hbefore).2
  fed hafter := absurd (hbefore.symm.trans hafter) (by decide)

theorem Feeding.of_after (hafter : s.parent.beforeOutput = false) (halive : s.parent ≠ .killed)
    (hfed : ∀ unread, intake program outRoom input x = .blocks unread → unread ≤ inRoom) :
    Feeding program x outRoom inRoom input s where
  untouched hbefore := absurd (hbefore.symm.trans hafter) (by decide)
  standing hbefore := absurd (hbefore.symm.trans hafter) (by decide)
  killed hkilled := absurd hkilled halive
  fed _ _ := hfed

theorem Feeding.of_killed (hkilled : s.parent = .killed)
    (hexits : ∃ unread, 0 < unread ∧ intake program outRoom input x = .exits unread) :
    Feeding program x outRoom inRoom input s where
  untouched hbefore := absurd hkilled (beforeOutput_alive hbefore).2
  standing hbefore := absurd hkilled (beforeOutput_alive hbefore).2
  killed _ := hexits
  fed _ halive := absurd hkilled halive

end feeding

theorem feeding_parent (h : Feeding program x outRoom inRoom (relayed total fd c) s)
    (hsound : Sound total fd c s) (hcap : s.picgi.capacity = inRoom)
    (hmove : ParentMove total s s') :
    Feeding program x outRoom inRoom (relayed total fd c) s' := by
  by_cases hbefore : s.parent.beforeOutput = true
  swap
  · obtain ⟨halive, hafter, halive'⟩ := hmove.of_after (Bool.eq_false_of_not_eq_true hbefore)
    exact .of_after hafter halive' (h.fed (Bool.eq_false_of_not_eq_true hbefore) halive)
  have hstanding := h.standing hbefore
  have hlength := hsound.length_written (beforeOutput_alive hbefore).2
  have hinput := length_relayed total fd c
  have hfits := s.picgi.content_le
  rw [Pipe.written, List.length_append] at hlength
  rcases hmove.of_before hbefore with ⟨hbefore', hchild, hcontent, htaken, htook⟩ |
    ⟨hpc, hpc'⟩ | ⟨n, hpc, hwrite, hpc'⟩
  · apply Feeding.of_before hbefore'
    · rw [htaken]
      exact h.untouched hbefore
    · rw [hchild, hcontent, htook]
      exact hstanding
  · apply Feeding.of_after (by rw [hpc']; rfl) (by simp [hpc'])
    intro unread hblocks
    rw [hpc] at hlength
    simp only [ParentPc.left] at hlength
    cases hchild : s.child with
    | running y =>
      rw [hchild] at hstanding
      have hle := intake_blocks_le (hstanding.trans hblocks)
      rw [List.length_drop, hinput] at hle
      omega
    | exited =>
      rw [hchild] at hstanding
      cases hblocks.symm.trans hstanding
    | _ =>
      rw [hchild] at hstanding
      have htook := hstanding.2
      have hle := intake_blocks_le hblocks
      omega
  · have hexited := hsound.holders.inReaders_nil (Pipe.of_write_broken hwrite)
    rw [hpc] at hlength
    simp only [ParentPc.left] at hlength
    rw [hexited] at hstanding
    apply Feeding.of_killed hpc'
    refine ⟨_, ?_, hstanding⟩
    omega

theorem standing_child (hbefore : s.parent.beforeOutput = true) (hsound : Sound total fd c s)
    (hcap : s.pocgi.capacity = outRoom)
    (h : Standing program x outRoom (relayed total fd c) s.child s.pocgi.content.length
      s.picgi.taken.length)
    (hmove : ChildMove program x s s') :
    Standing program x outRoom (relayed total fd c) s'.child s'.pocgi.content.length
      s'.picgi.taken.length := by
  obtain ⟨hpast, halive⟩ := beforeOutput_alive hbefore
  cases hmove with
  | dupOutput hpc => rw [hpc] at h; exact h
  | dupInput hpc => rw [hpc] at h; exact h
  | closeOutput hpc => rw [hpc] at h; exact h
  | closeInput hpc =>
    rw [hpc] at h
    obtain ⟨hwrote, htook⟩ : s.pocgi.content.length = 0 ∧ s.picgi.taken.length = 0 := h
    have hstart : intake program (outRoom - s.pocgi.content.length)
        ((relayed total fd c).drop s.picgi.taken.length) x =
          intake program outRoom (relayed total fd c) x := by
      rw [hwrote, htook, Nat.sub_zero, List.drop_zero]
    exact hstart
  | read y next b picgi hpc hop hread =>
    rw [hpc] at h
    have hnext := (intake_read_cons hop).symm.trans
      ((congrArg (intake program _ · y) (hsound.drop_relayed halive hread)).symm.trans h)
    exact hnext
  | endOfFile y next hpc hop hread => exact absurd hread (hsound.no_endOfFile halive hpc)
  | write y b next pocgi hpc hop hwrite =>
    rw [hpc] at h
    obtain ⟨hcontent, -, -, -, hcapacity⟩ := Pipe.of_write_stored hwrite
    have hfits := pocgi.content_le
    rw [hcontent, List.length_append, List.length_singleton, hcapacity, hcap] at hfits
    have hroom : outRoom - s.pocgi.content.length = outRoom - (s.pocgi.content.length + 1) + 1 := by
      omega
    have hnext := (intake_write_succ hop).symm.trans
      ((congrArg (intake program · _ y) hroom).symm.trans h)
    rw [hcontent, List.length_append, List.length_singleton]
    exact hnext
  | killed y b next hpc hop hwrite =>
    rcases hsound.holders.outReaders_nil (Pipe.of_write_broken hwrite) with hparent | hparent
    · rw [hparent] at hpast
      cases hpast
    · exact absurd hparent halive
  | exit y hpc hop =>
    rw [hpc] at h
    have hresult := h.symm.trans (intake_exit hop)
    rw [List.length_drop] at hresult
    exact hresult

theorem ExchangeRun.feeding (h : ExchangeRun program x total outRoom inRoom fd c s) :
    Feeding program x outRoom inRoom (relayed total fd c) s := by
  apply Reachable.invariant_with (I := ExchangeRun program x total outRoom inRoom fd c)
    (J := Feeding program x outRoom inRoom (relayed total fd c)) (fun _ h => h) ?_ ?_ h
  · rintro s rfl
    exact .of_before rfl rfl ⟨rfl, rfl⟩
  · intro s p s' hstep hrun hs
    cases p with
    | parent => exact feeding_parent hs hrun.sound hrun.capacity.2 (parentStep_move hstep)
    | child =>
      have hmove := childStep_move hstep
      have hparent := parent_child hmove
      refine ⟨?_, ?_, ?_, ?_⟩
      · rw [hparent, taken_child hmove]
        exact hs.untouched
      · rw [hparent]
        intro hbefore
        exact standing_child hbefore hrun.sound hrun.capacity.1 (hs.standing hbefore) hmove
      · rw [hparent]
        exact hs.killed
      · rw [hparent]
        exact hs.fed

def Exchange.bodyRank (total outRoom : ℕ) (s : Exchange σ) : ℕ :=
  s.parent.rank total +
    s.child.rank ((total - s.picgi.taken.length) + (outRoom - s.pocgi.content.length))

theorem ExchangeRun.taken_le (h : ExchangeRun program x total outRoom inRoom fd c s)
    (halive : s.parent ≠ .killed) : s.picgi.taken.length + s.picgi.content.length ≤ total := by
  have hlength := h.sound.length_written halive
  rw [Pipe.written, List.length_append] at hlength
  omega

theorem bodyRank_lowers (h : ExchangeRun program x total outRoom inRoom fd c s)
    (hbefore : s.parent.beforeOutput = true) {p : Process}
    (hstep : exchangeStep program x total s p = some s') :
    s'.bodyRank total outRoom < s.bodyRank total outRoom := by
  obtain ⟨hpast, halive⟩ := beforeOutput_alive hbefore
  cases p with
  | parent =>
    rcases (parentStep_move hstep).lowers with ⟨b, hpc, -⟩ | ⟨hlower, hchild, hcontent, -, htook⟩
    · rw [hpc] at hbefore
      cases hbefore
    · rw [Exchange.bodyRank, Exchange.bodyRank, hchild, hcontent, htook]
      exact Nat.add_lt_add_right hlower _
  | child =>
    have hmove := childStep_move hstep
    have hparent := parent_child hmove
    rcases hmove.lowers h.sound halive with ⟨y, next, b, hpc, hop, hread, hpc', hpocgi⟩ |
      ⟨y, next, b, hpc, hop, hwrite, hpc', hpicgi⟩ | ⟨hlower, hcontent, -, htook⟩
    · obtain ⟨hcontent, htaken, -⟩ := Pipe.of_read_item hread
      have hle := h.taken_le halive
      rw [hcontent, List.length_cons] at hle
      simp only [Exchange.bodyRank, hparent, hpc, hpc', hpocgi, ChildPc.rank, htaken,
        List.length_append, List.length_singleton]
      omega
    · obtain ⟨hcontent, -, -, -, hcapacity⟩ := Pipe.of_write_stored hwrite
      have hfits := s'.pocgi.content_le
      rw [hcontent, List.length_append, List.length_singleton, hcapacity, h.capacity.1] at hfits
      simp only [Exchange.bodyRank, hparent, hpc, hpc', hpicgi, ChildPc.rank, hcontent,
        List.length_append, List.length_singleton]
      omega
    · rw [Exchange.bodyRank, Exchange.bodyRank, hparent, hcontent, htook]
      exact Nat.add_lt_add_left (hlower _) _

def BodyOver (program : σ → ChildOp σ) (x : σ) (total : ℕ) (s : Exchange σ) : Prop :=
  s.parent.beforeOutput = false ∨ Stuck (exchangeStep program x total) s

theorem exists_bodyOver (h : ExchangeRun program x total outRoom inRoom fd c s) :
    ∃ s', ExchangeRun program x total outRoom inRoom fd c s' ∧ BodyOver program x total s' ∧
      s.picgi.written.length ≤ s'.picgi.written.length := by
  by_cases hbefore : s.parent.beforeOutput = true
  swap
  · exact ⟨s, h, .inl (Bool.eq_false_of_not_eq_true hbefore), le_refl _⟩
  obtain ⟨s', -, ⟨hrun, hbefore', hle⟩, hlast⟩ := exists_last
    (Q := fun t => ExchangeRun program x total outRoom inRoom fd c t ∧
      t.parent.beforeOutput = true ∧ s.picgi.written.length ≤ t.picgi.written.length)
    (fun t p t' ht hstep => bodyRank_lowers ht.1 ht.2.1 hstep) ⟨h, hbefore, le_refl _⟩
  by_cases hstuck : Stuck (exchangeStep program x total) s'
  · exact ⟨s', hrun, .inr hstuck, hle⟩
  simp only [Stuck, not_forall, Option.ne_none_iff_exists'] at hstuck
  obtain ⟨p, t, hstep⟩ := hstuck
  have hgrown : s'.picgi.written.length ≤ t.picgi.written.length := by
    cases p with
    | parent =>
      rcases written_parent (parentStep_move hstep) with hsame | ⟨n, hpc, hwrite⟩
      · rw [hsame]
      · rw [Pipe.write_written hwrite, List.length_append]
        exact Nat.le_add_right _ _
    | child => rw [written_child (childStep_move hstep)]
  refine ⟨t, hrun.step hstep, .inl ?_, hle.trans hgrown⟩
  by_contra hne
  exact hlast p t hstep ⟨hrun.step hstep, Bool.eq_true_of_not_eq_false hne, hle.trans hgrown⟩

theorem over_cases (hout : 0 < outRoom) (hin : 0 < inRoom)
    (h : ExchangeRun program x total outRoom inRoom fd c s) (hover : BodyOver program x total s) :
    (∃ unread, 0 < unread ∧ intake program outRoom (relayed total fd c) x = .exits unread) ∨
    (s.picgi.written.length = total ∧
      ∀ unread, intake program outRoom (relayed total fd c) x = .blocks unread →
        unread ≤ inRoom) ∨
    ∃ unread, intake program outRoom (relayed total fd c) x = .blocks unread ∧ inRoom < unread ∧
      s.picgi.written.length + unread = total + inRoom := by
  have hfeeding := h.feeding
  have hsound := h.sound
  obtain ⟨hcapOut, hcapIn⟩ := h.capacity
  by_cases hkilled : s.parent = .killed
  · exact .inl (hfeeding.killed hkilled)
  have hlength := hsound.length_written hkilled
  by_cases hbefore : s.parent.beforeOutput = true
  · rcases crossed_of_stuck hsound (by omega) (by omega)
      (hover.resolve_left (by simp [hbefore])) with ⟨-, hdone | hdone⟩ | hcross | hcross
    · rw [hdone] at hbefore
      cases hbefore
    · exact absurd hdone hkilled
    · obtain ⟨⟨n, hparent⟩, ⟨y, b, next, hchild, hop⟩, hpicgi, hpocgi⟩ := hcross
      have hstanding := hfeeding.standing hbefore
      rw [hchild] at hstanding
      replace hstanding : intake program (outRoom - s.pocgi.content.length)
        ((relayed total fd c).drop s.picgi.taken.length) y =
          intake program outRoom (relayed total fd c) x := hstanding
      rw [hpocgi, hcapOut, Nat.sub_self, intake_write_zero hop, List.length_drop,
        length_relayed] at hstanding
      rw [hparent, Pipe.written, List.length_append] at hlength
      simp only [ParentPc.left] at hlength
      refine .inr (.inr ⟨_, hstanding.symm, by omega, ?_⟩)
      rw [Pipe.written, List.length_append]
      omega
    · rw [hcross.parent] at hbefore
      cases hbefore
  · have hafter := Bool.eq_false_of_not_eq_true hbefore
    have hleft : s.parent.left total = 0 := by
      by_contra hpos
      exact hbefore (left_pos_before (Nat.pos_of_ne_zero hpos))
    exact .inr (.inl ⟨by omega, hfeeding.fed hafter hkilled⟩)

theorem exists_written_past (hin : 0 < inRoom) {unread : ℕ} (hpos : 0 < unread)
    (hexits : intake program outRoom (relayed total fd c) x = .exits unread) :
    ∃ s, ExchangeRun program x total outRoom inRoom fd c s ∧
      total < s.picgi.written.length + unread := by
  have hlowers : ∀ (t : Exchange σ) (p : Process) (t' : Exchange σ),
      (ExchangeRun program x total outRoom inRoom fd c t ∧ t.parent.beforeOutput = true ∧
        t.child ≠ .exited) → exchangeStep program x total t p = some t' →
      t'.bodyRank total outRoom < t.bodyRank total outRoom :=
    fun _ _ _ h hstep => bodyRank_lowers h.1 h.2.1 hstep
  obtain ⟨s, -, ⟨hrun, hbefore, hchild⟩, hlast⟩ := exists_last hlowers
    (s := forked outRoom inRoom fd c) ⟨⟨_, rfl, .refl _⟩, rfl, nofun⟩
  obtain ⟨hpast, halive⟩ := beforeOutput_alive hbefore
  obtain ⟨hcapOut, hcapIn⟩ := hrun.capacity
  have hstanding := hrun.feeding.standing hbefore
  cases hstep : parentStep total s with
  | some t =>
    have hrun' : ExchangeRun program x total outRoom inRoom fd c t :=
      @ExchangeRun.step _ _ _ _ _ _ _ _ _ _ hrun .parent hstep
    rcases (parentStep_move hstep).of_before hbefore with ⟨hbefore', hchild', -⟩ | ⟨hpc, -⟩ |
      ⟨n, -, hwrite, -⟩
    · exact absurd ⟨hrun', hbefore', hchild' ▸ hchild⟩ (hlast .parent t hstep)
    · have hlength := hrun.sound.length_written halive
      rw [hpc] at hlength
      simp only [ParentPc.left] at hlength
      exact ⟨s, hrun, by omega⟩
    · exact absurd (hrun.sound.holders.inReaders_nil (Pipe.of_write_broken hwrite)) hchild
  | none =>
    have hfull : s.picgi.content.length = inRoom := by
      rcases parentStep_blocked hstep with ⟨-, hwrite⟩ | ⟨hpc, -⟩ | ⟨hpc, -⟩ | hpc | hpc
      · rw [(Pipe.write_blocked_iff.mp hwrite).2, hcapIn]
      all_goals
        rw [hpc] at hbefore
        cases hbefore
    have hle := hrun.taken_le halive
    cases hstep' : childStep program x s with
    | some t =>
      have hmove := childStep_move hstep'
      have hrun' : ExchangeRun program x total outRoom inRoom fd c t :=
        @ExchangeRun.step _ _ _ _ _ _ _ _ _ _ hrun .child hstep'
      have hbefore' : t.parent.beforeOutput = true := by rwa [parent_child hmove]
      have hexited : t.child = .exited := by
        by_contra hne
        exact hlast .child t hstep' ⟨hrun', hbefore', hne⟩
      -- both ways to exit leave the bytes where they are
      have htaken : t.picgi.taken = s.picgi.taken := by
        cases hmove with
        | killed => rfl
        | exit => rfl
        | _ => cases hexited
      have hstanding' := hrun'.feeding.standing hbefore'
      rw [hexited, htaken] at hstanding'
      have hunread := Intake.exits.inj (hexits.symm.trans hstanding')
      rw [length_relayed] at hunread
      refine ⟨s, hrun, ?_⟩
      rw [Pipe.written, List.length_append]
      omega
    | none =>
      exfalso
      rcases childStep_blocked hstep' with
        ⟨y, next, hpc, hop, hread⟩ | ⟨y, b, next, hpc, hop, hwrite⟩ | hexited
      · rw [(Pipe.read_blocked_iff.mp hread).1, List.length_nil] at hfull
        omega
      · rw [hpc] at hstanding
        replace hstanding : intake program (outRoom - s.pocgi.content.length)
          ((relayed total fd c).drop s.picgi.taken.length) y =
            intake program outRoom (relayed total fd c) x := hstanding
        rw [(Pipe.write_blocked_iff.mp hwrite).2, hcapOut, Nat.sub_self, intake_write_zero hop,
          hexits] at hstanding
        cases hstanding
      · exact hchild hexited

theorem written_always_iff (hout : 0 < outRoom) (hin : 0 < inRoom) (m : ℕ) :
    (∀ s, ExchangeRun program x total outRoom inRoom fd c s → BodyOver program x total s →
      s.picgi.written.length = m) ↔
    (m = total ∧ (intake program outRoom (relayed total fd c) x).Suits inRoom) ∨
      ∃ unread, intake program outRoom (relayed total fd c) x = .blocks unread ∧
        inRoom < unread ∧ m + unread = total + inRoom := by
  constructor
  · intro hall
    have hend {s₀ : Exchange σ} (hrun : ExchangeRun program x total outRoom inRoom fd c s₀) :
        s₀.picgi.written.length ≤ m := by
      obtain ⟨s, hrun', hover, hle⟩ := exists_bodyOver hrun
      rw [← hall s hrun' hover]
      exact hle
    have hnone : ∀ unread, 0 < unread →
        intake program outRoom (relayed total fd c) x ≠ .exits unread := by
      intro unread hpos hexits
      obtain ⟨ops, hcalls, hreads, hwrites⟩ := calls_of_exits hexits
      rw [length_relayed] at hreads
      obtain ⟨s, hrun, hkilled, hle⟩ := exists_killed hcalls hin (by omega) hwrites
      have hless := hall s hrun (.inl (by rw [hkilled]; rfl))
      obtain ⟨s', hrun', hmore⟩ := exists_written_past hin hpos hexits
      have hgrown := hend hrun'
      omega
    obtain ⟨s, hrun, hover, -⟩ := exists_bodyOver
      (show ExchangeRun program x total outRoom inRoom fd c _ from ⟨_, rfl, .refl _⟩)
    have hm := hall s hrun hover
    rcases over_cases hout hin hrun hover with ⟨unread, hpos, hexits⟩ | ⟨hlen, hblocks⟩ |
      ⟨unread, hresult, hlt, hlen⟩
    · exact absurd hexits (hnone unread hpos)
    · refine .inl ⟨by omega, ?_⟩
      cases hresult : intake program outRoom (relayed total fd c) x with
      | exits unread =>
        by_contra hne
        exact hnone unread (Nat.pos_of_ne_zero hne) hresult
      | waits => trivial
      | blocks unread => exact hblocks unread hresult
    · exact .inr ⟨unread, hresult, hlt, by omega⟩
  · rintro (⟨rfl, hsuits⟩ | ⟨unread, hblocks, hlt, hm⟩) s hrun hover
    · rcases over_cases hout hin hrun hover with ⟨unread, hpos, hexits⟩ | ⟨hlen, -⟩ |
        ⟨unread, hresult, hlt, -⟩
      · rw [hexits] at hsuits
        exact absurd hsuits (Nat.ne_of_gt hpos)
      · exact hlen
      · rw [hresult] at hsuits
        exact absurd hsuits (Nat.not_le_of_gt hlt)
    · rcases over_cases hout hin hrun hover with ⟨unread', -, hexits⟩ | ⟨-, hfits⟩ |
        ⟨unread', hresult, -, hlen⟩
      · rw [hexits] at hblocks
        cases hblocks
      · exact absurd (hfits unread hblocks) (Nat.not_le_of_gt hlt)
      · obtain rfl := Intake.blocks.inj (hresult.symm.trans hblocks)
        omega

theorem ExchangeRun.childInput_eq (h : ExchangeRun program x total outRoom inRoom fd c s) :
    childInput s.events = (relayed total fd c).take s.picgi.written.length := by
  obtain ⟨rest, hrest⟩ := h.sound.events_prefix
  have hinput := congrArg childInput hrest
  rw [childInput_append, childInput_relayEvents] at hinput
  rw [← hinput, ← h.sound.input, List.take_left]

def BodyWritten (system : CgiSystem) (type : CharBuf) (fd : Stream) (buf : CharBuf) (c : Byte)
    (program : σ → ChildOp σ) (x : σ) (outRoom inRoom : ℕ) (bytes : List Byte) : Prop :=
  ∃ total rest s, sgxRequestCgi system type fd buf = some (.forked total, rest) ∧
    ExchangeRun program x total outRoom inRoom rest c s ∧ BodyOver program x total s ∧
    childInput s.events = bytes

theorem cgi_input_iff {system : CgiSystem} (hstarts : system.Starts) {type : CharBuf}
    (hpost : strcasecmp type post = 0) {fd : Stream} {buf buf' : CharBuf} {n : ℤ} (hn : 0 ≤ n)
    {segments : List (List Byte)} {tail : Stream}
    (hheaders : postHeaders fd buf = some (sent segments.flatten ++ tail, buf', n)) (c : Byte)
    (program : σ → ChildOp σ) (x : σ) {outRoom inRoom : ℕ} (hout : 0 < outRoom)
    (hin : 0 < inRoom) :
    (∀ bytes, BodyWritten system type fd buf c program x outRoom inRoom bytes →
      bytes = segments.flatten.take n.toNat) ↔
    (n ≤ segments.flatten.length ∧
        (intake program outRoom (segments.flatten.take n.toNat) x).Suits inRoom) ∨
      (segments.flatten.length < n ∧
        intake program outRoom segments.flatten x = .blocks inRoom) := by
  obtain ⟨m, rfl⟩ := Int.eq_ofNat_of_zero_le hn
  generalize segments.flatten = body at hheaders ⊢
  rw [Int.toNat_natCast, Nat.cast_le, Nat.cast_lt]
  have hstart : sgxRequestCgi system type fd buf = some (.forked m, sent body ++ tail) := by
    have hfork : forkCgi system true m = .forked m := forkCgi_starts hstarts true m
    rw [sgxRequestCgi, if_pos hpost, hheaders, Option.map_some]
    dsimp only
    rw [if_neg (by omega), hfork]
  have htake := take_relayed m body tail c
  have hsame {s : Exchange σ}
      (h : ExchangeRun program x m outRoom inRoom (sent body ++ tail) c s) :
      childInput s.events = body.take m ↔ s.picgi.written.length = min m body.length := by
    constructor
    · intro heq
      rw [← h.sound.input, heq, List.length_take]
    · intro hlen
      rw [h.childInput_eq, hlen, htake]
  trans ∀ s, ExchangeRun program x m outRoom inRoom (sent body ++ tail) c s →
    BodyOver program x m s → s.picgi.written.length = min m body.length
  · constructor
    · intro h s hrun hover
      exact (hsame hrun).mp (h _ ⟨m, _, s, hstart, hrun, hover, rfl⟩)
    · rintro h bytes ⟨total, rest, s, hstart', hrun, hover, rfl⟩
      have heq := Option.some.inj (hstart.symm.trans hstart')
      obtain rfl := CgiStart.forked.inj (congrArg Prod.fst heq)
      obtain rfl := congrArg Prod.snd heq
      exact (hsame hrun).mpr (h s hrun hover)
  rw [written_always_iff hout hin]
  by_cases hle : m ≤ body.length
  · rw [relayed_sent hle, Nat.min_eq_left hle]
    have hnone : ¬ body.length < m := Nat.not_lt.mpr hle
    simp only [hle, hnone, true_and, false_and, or_false, or_iff_left_iff_imp, forall_exists_index]
    rintro unread ⟨-, hlt, heq⟩
    omega
  · have hlt := Nat.lt_of_not_le hle
    have hsplit := List.take_append_drop body.length (relayed m (sent body ++ tail) c)
    rw [Nat.min_eq_right hlt.le, List.take_of_length_le hlt.le] at htake
    rw [htake] at hsplit
    have hpad : ((relayed m (sent body ++ tail) c).drop body.length).length + body.length = m := by
      rw [List.length_drop, length_relayed]
      omega
    generalize (relayed m (sent body ++ tail) c).drop body.length = pad at hsplit hpad
    rw [← hsplit, Nat.min_eq_right hlt.le]
    have hblocks := @intake_append_blocks_iff σ program outRoom body x pad inRoom
    simp only [hle, hlt, true_and, false_and, false_or, Nat.ne_of_lt hlt]
    rw [← hblocks]
    constructor
    · rintro ⟨unread, hresult, -, heq⟩
      rw [hresult]
      congr 1
      omega
    · intro hresult
      exact ⟨_, hresult, by omega, by omega⟩

theorem intake_readToEnd (room : ℕ) (input : List Byte) :
    intake readToEnd room input false = .waits := by
  induction input with
  | nil => exact intake_read_nil rfl
  | cons b input ih => exact (intake_read_cons rfl).trans ih

def twoBytesPosted : Stream := sent ("Content-Length: 2\r\n\r\nab".toList.map chr)

theorem cgi_input_iff_two_bytes :
    (∃ bytes, BodyWritten ⟨true, true, true⟩ (fun i => post[i]?.getD 0) twoBytesPosted
      (fun _ => 0) 0 readToEnd false 4 4 bytes) ∧
    ∀ bytes, BodyWritten ⟨true, true, true⟩ (fun i => post[i]?.getD 0) twoBytesPosted
      (fun _ => 0) 0 readToEnd false 4 4 bytes → bytes = ["ab".toList.map chr].flatten.take 2 := by
  have hheaders : ∃ buf', postHeaders twoBytesPosted (fun _ => 0) =
      some (sent ["ab".toList.map chr].flatten ++ [], buf', 2) := ⟨_, rfl⟩
  obtain ⟨buf', hheaders⟩ := hheaders
  constructor
  · obtain ⟨s, hrun, hover, -⟩ := exists_bodyOver (show ExchangeRun readToEnd false 2 4 4
      (sent ["ab".toList.map chr].flatten ++ []) 0 _ from ⟨_, rfl, .refl _⟩)
    exact ⟨_, 2, _, s, rfl, hrun, hover, rfl⟩
  · apply (cgi_input_iff ⟨rfl, rfl, rfl⟩ (by decide) (by decide) hheaders 0 readToEnd false
      (by decide) (by decide)).mpr
    left
    refine ⟨by decide, ?_⟩
    rw [intake_readToEnd]
    trivial

theorem short_body_is_padded : ¬ ∀ bytes,
    BodyWritten ⟨true, true, true⟩ (fun i => post[i]?.getD 0)
      (sent ("Content-Length: 2\r\n\r\na".toList.map chr)) (fun _ => 0) 0 script [.read, .read] 4 4
      bytes → bytes = ["a".toList.map chr].flatten.take 2 := by
  intro h
  have hrun : ExchangeRun script [.read, .read] 2 4 4 (sent ("a".toList.map chr)) 0 _ :=
    ⟨_, rfl, (Reaches.refl _).execute (Eq.refl (execute (exchangeStep script [.read, .read] 2)
      (forked 4 4 (sent ("a".toList.map chr)) 0)
      [.child, .child, .child, .child, .parent, .parent, .parent, .parent, .parent, .parent,
        .parent, .parent]))⟩
  have hbytes := h [chr 'a', chr 'a'] ⟨2, _, _, rfl, hrun, .inl rfl, rfl⟩
  exact absurd hbytes (by decide)

end Sginx.Mini
