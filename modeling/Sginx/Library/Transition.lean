import Mathlib.Logic.Basic
import Mathlib.Data.Nat.Notation

namespace Sginx.Library.Transition

variable {S A : Type*}

inductive Reaches (step : S → A → Option S) : S → S → Prop where
  | refl (s) : Reaches step s s
  | step {s s' s'' a} : Reaches step s s' → step s' a = some s'' → Reaches step s s''

def Reachable (init : S → Prop) (step : S → A → Option S) (s : S) : Prop :=
  ∃ s₀, init s₀ ∧ Reaches step s₀ s

variable {step : S → A → Option S} {init : S → Prop}

theorem Reaches.invariant {I : S → Prop}
    (hstep : ∀ s a s', step s a = some s' → I s → I s') {s s' : S} (h : Reaches step s s')
    (hI : I s) : I s' := by
  induction h with
  | refl => exact hI
  | step _ ha ih => exact hstep _ _ _ ha ih

def execute (step : S → A → Option S) : S → List A → Option S
  | s, [] => some s
  | s, a :: as => (step s a).bind fun s' => execute step s' as

theorem Reaches.execute {s s' s'' : S} {as : List A} (h : Reaches step s s')
    (heq : Transition.execute step s' as = some s'') : Reaches step s s'' := by
  induction as generalizing s' with
  | nil =>
    obtain rfl := Option.some.inj heq
    exact h
  | cons a as ih =>
    obtain ⟨t, ha, hrest⟩ := Option.bind_eq_some_iff.mp heq
    exact ih (h.step ha) hrest

theorem Reaches.head {s s' s'' : S} {a : A} (ha : step s a = some s')
    (h : Reaches step s' s'') : Reaches step s s'' := by
  induction h with
  | refl => exact (Reaches.refl s).step ha
  | step _ hb ih => exact ih.step hb

theorem Reachable.trans {s s' : S} (h : Reachable init step s) (h' : Reaches step s s') :
    Reachable init step s' := by
  obtain ⟨s₀, h₀, hrun⟩ := h
  refine ⟨s₀, h₀, ?_⟩
  induction h' with
  | refl => exact hrun
  | step _ ha ih => exact ih.step ha

theorem Reachable.invariant {I : S → Prop} (hinit : ∀ s, init s → I s)
    (hstep : ∀ s a s', step s a = some s' → I s → I s') {s : S} (h : Reachable init step s) :
    I s := by
  obtain ⟨s₀, h₀, hrun⟩ := h
  exact hrun.invariant hstep (hinit s₀ h₀)

theorem Reachable.invariant_with {I J : S → Prop} (hI : ∀ s, Reachable init step s → I s)
    (hinit : ∀ s, init s → J s) (hstep : ∀ s a s', step s a = some s' → I s → J s → J s') {s : S}
    (h : Reachable init step s) : J s := by
  obtain ⟨s₀, h₀, hrun⟩ := h
  induction hrun with
  | refl => exact hinit s₀ h₀
  | step hrun ha ih => exact hstep _ _ _ ha (hI _ ⟨s₀, h₀, hrun⟩) ih

def restrict (allowed : A → Bool) (step : S → A → Option S) (s : S) (a : A) : Option S :=
  if allowed a then step s a else none

theorem of_restrict {allowed : A → Bool} {s s' : S} {a : A}
    (h : restrict allowed step s a = some s') : allowed a = true ∧ step s a = some s' := by
  by_cases ha : allowed a = true
  · rw [restrict, if_pos ha] at h
    exact ⟨ha, h⟩
  · rw [restrict, if_neg ha] at h
    cases h

theorem Reaches.of_restrict {allowed : A → Bool} {s s' : S}
    (h : Reaches (restrict allowed step) s s') : Reaches step s s' := by
  induction h with
  | refl => exact .refl _
  | step _ ha ih => exact ih.step (Transition.of_restrict ha).2

def Stuck (step : S → A → Option S) (s : S) : Prop := ∀ a, step s a = none

structure Ranked (step : S → A → Option S) (I : S → Prop) (rank : S → ℕ) : Prop where
  keeps : ∀ s a s', I s → step s a = some s' → I s'
  lowers : ∀ s a s', I s → step s a = some s' → rank s' < rank s

theorem Ranked.execute_length {I : S → Prop} {rank : S → ℕ} (h : Ranked step I rank) {s s' : S}
    (hI : I s) {as : List A} (heq : execute step s as = some s') :
    I s' ∧ as.length + rank s' ≤ rank s := by
  induction as generalizing s with
  | nil =>
    obtain rfl := Option.some.inj heq
    exact ⟨hI, by simp⟩
  | cons a as ih =>
    obtain ⟨t, ha, hrest⟩ := Option.bind_eq_some_iff.mp heq
    have hlt := h.lowers _ _ _ hI ha
    obtain ⟨hI', hle⟩ := ih (h.keeps _ _ _ hI ha) hrest
    refine ⟨hI', ?_⟩
    rw [List.length_cons]
    omega

theorem exists_last {Q : S → Prop} {rank : S → ℕ}
    (hlowers : ∀ s a s', Q s → step s a = some s' → rank s' < rank s) {s : S} (hQ : Q s) :
    ∃ s', Reaches step s s' ∧ Q s' ∧ ∀ a t, step s' a = some t → ¬ Q t := by
  by_cases hlast : ∀ a t, step s a = some t → ¬ Q t
  · exact ⟨s, .refl s, hQ, hlast⟩
  · simp only [not_forall, not_not] at hlast
    obtain ⟨a, t, ht, hQt⟩ := hlast
    have hlt := hlowers _ _ _ hQ ht
    obtain ⟨s', hrun, hlast⟩ := exists_last hlowers hQt
    exact ⟨s', .head ht hrun, hlast⟩
termination_by rank s

theorem Ranked.exists_stuck {I : S → Prop} {rank : S → ℕ} (h : Ranked step I rank) {s : S}
    (hI : I s) : ∃ s', Reaches step s s' ∧ Stuck step s' ∧ I s' := by
  obtain ⟨s', hrun, hI', hlast⟩ := exists_last h.lowers hI
  refine ⟨s', hrun, ?_, hI'⟩
  intro a
  apply Option.eq_none_iff_forall_ne_some.mpr
  intro t ht
  exact hlast a t ht (h.keeps _ _ _ hI' ht)

theorem execute_concat {s s' s'' : S} {as : List A} {a : A} (h : execute step s as = some s')
    (ha : step s' a = some s'') : execute step s (as ++ [a]) = some s'' := by
  induction as generalizing s with
  | nil =>
    obtain rfl := Option.some.inj h
    rw [List.nil_append, execute, ha]
    rfl
  | cons b as ih =>
    obtain ⟨t, hb, hrest⟩ := Option.bind_eq_some_iff.mp h
    rw [List.cons_append, execute, hb]
    exact ih hrest

theorem exists_execute {s s' : S} (h : Reaches step s s') : ∃ as, execute step s as = some s' := by
  induction h with
  | refl => exact ⟨[], rfl⟩
  | step _ ha ih =>
    obtain ⟨as, has⟩ := ih
    exact ⟨_, execute_concat has ha⟩

theorem exists_stuck_of_bound {bound : ℕ} {s s' : S} (h : Reaches step s s')
    (hbound : ∀ as t, execute step s as = some t → as.length ≤ bound) :
    ∃ t as, Reaches step s' t ∧ execute step s as = some t ∧ Stuck step t := by
  obtain ⟨as, has⟩ := exists_execute h
  induction hn : bound - as.length generalizing as s' with
  | zero =>
    refine ⟨s', as, .refl _, has, ?_⟩
    intro a
    apply Option.eq_none_iff_forall_ne_some.mpr
    intro t ht
    have hle := hbound _ t (execute_concat has ht)
    rw [List.length_append, List.length_singleton] at hle
    omega
  | succ n ih =>
    by_cases hstuck : Stuck step s'
    · exact ⟨s', as, .refl _, has, hstuck⟩
    · simp only [Stuck, not_forall, Option.ne_none_iff_exists'] at hstuck
      obtain ⟨a, t, ht⟩ := hstuck
      obtain ⟨u, bs, hrun, hbs, hlast⟩ := ih (h.step ht) (as ++ [a]) (execute_concat has ht)
        (by rw [List.length_append, List.length_singleton]; omega)
      exact ⟨u, bs, .head ht hrun, hbs, hlast⟩

end Sginx.Library.Transition
