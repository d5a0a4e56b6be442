import Mathlib.Data.List.Basic
import Mathlib.Logic.Function.Basic

/-!
Scanners: automata that read one symbol at a time and record positions. A cursor is moved to the
position of the symbol being read, and an entry is a copy of all cursors. The answer of a run does
not depend on how its input is cut into pieces.
-/

namespace Sginx.Library.Scanning

/-- `next` is the control, `inr` leaving the loop; `marks` says which cursors a symbol moves,
`emits` whether it adds an entry, and `fold` what it does to the register. -/
structure Scanner (β σ ρ μ δ : Type*) where
  next : σ → β → σ ⊕ ρ
  marks : σ → β → μ → Bool
  emits : σ → β → Bool
  fold : σ → β → δ → δ

/-- Entries are kept newest first. -/
structure Record (μ δ : Type*) where
  cursor : μ → Option ℕ
  entries : List (μ → Option ℕ)
  register : δ

def Record.empty {μ δ : Type*} (register : δ) : Record μ δ := ⟨fun _ => none, [], register⟩

def Record.mark {μ δ : Type*} [DecidableEq μ] (r : Record μ δ) (m : μ) (pos : ℕ) : Record μ δ :=
  { r with cursor := Function.update r.cursor m (some pos) }

variable {β σ ρ μ δ : Type*} (A : Scanner β σ ρ μ δ)

def Scanner.note (s : σ) (b : β) (pos : ℕ) (r : Record μ δ) : Record μ δ :=
  let cursor := fun m => if A.marks s b m then some pos else r.cursor m
  { cursor := cursor
    entries := if A.emits s b then cursor :: r.entries else r.entries
    register := A.fold s b r.register }

theorem Scanner.note_eq_self {s : σ} {b : β} (hmarks : ∀ m, A.marks s b m = false)
    (hemits : A.emits s b = false) (hfold : ∀ d, A.fold s b d = d) (pos : ℕ) (r : Record μ δ) :
    A.note s b pos r = r := by
  simp only [note, hmarks, hemits, hfold, Bool.false_eq_true, if_false]

theorem Scanner.note_eq_mark [DecidableEq μ] {s : σ} {b : β} {m : μ}
    (hmarks : ∀ m', A.marks s b m' = decide (m' = m)) (hemits : A.emits s b = false)
    (hfold : ∀ d, A.fold s b d = d) (pos : ℕ) (r : Record μ δ) :
    A.note s b pos r = r.mark m pos := by
  simp only [note, Record.mark, hemits, hfold, Bool.false_eq_true, if_false, Record.mk.injEq,
    and_true]
  funext m'
  rw [hmarks, Function.update_apply]
  by_cases hm : m' = m <;> simp [hm]

def Scanner.run : ℕ → List β → σ → Record μ δ → (σ ⊕ ρ) × ℕ × Record μ δ
  | pos, [], s, r => (.inl s, pos, r)
  | pos, b :: bs, s, r =>
    match A.next s b with
    | .inl s' => Scanner.run (pos + 1) bs s' (A.note s b pos r)
    | .inr x => (.inr x, pos, A.note s b pos r)

def Scanner.resume (bs : List β) : (σ ⊕ ρ) × ℕ × Record μ δ → (σ ⊕ ρ) × ℕ × Record μ δ
  | (.inl s, pos, r) => A.run pos bs s r
  | (.inr x, pos, r) => (.inr x, pos, r)

theorem Scanner.run_append (pos : ℕ) (xs ys : List β) (s : σ) (r : Record μ δ) :
    A.run pos (xs ++ ys) s r = A.resume ys (A.run pos xs s r) := by
  induction xs generalizing pos s r with
  | nil => rfl
  | cons b bs ih =>
    simp only [List.cons_append, run]
    cases A.next s b with
    | inl s' => exact ih _ _ _
    | inr x => rfl

theorem Scanner.run_inl {pos : ℕ} {xs : List β} {s s' : σ} {r r' : Record μ δ} {pos' : ℕ}
    (h : A.run pos xs s r = (.inl s', pos', r')) : pos' = pos + xs.length := by
  induction xs generalizing pos s r with
  | nil => simp only [run, Prod.mk.injEq] at h; simp [h.2.1]
  | cons b bs ih =>
    rw [run] at h
    cases hn : A.next s b with
    | inl s'' => rw [hn] at h; have := ih h; simp only [List.length_cons]; omega
    | inr x => rw [hn] at h; cases h

theorem Scanner.run_inr {pos : ℕ} {xs : List β} {s : σ} {r r' : Record μ δ} {pos' : ℕ} {x : ρ}
    (h : A.run pos xs s r = (.inr x, pos', r')) : pos ≤ pos' ∧ pos' < pos + xs.length := by
  induction xs generalizing pos s r with
  | nil => cases h
  | cons b bs ih =>
    rw [run] at h
    rw [List.length_cons]
    cases hn : A.next s b with
    | inl s'' => rw [hn] at h; have := ih h; omega
    | inr y => rw [hn] at h; obtain ⟨-, rfl, -⟩ := Prod.mk.injEq .. ▸ h; omega

theorem Scanner.run_cons_inl {s s' : σ} {b : β} (h : A.next s b = .inl s') (pos : ℕ) (bs : List β)
    (r : Record μ δ) : A.run pos (b :: bs) s r = A.run (pos + 1) bs s' (A.note s b pos r) := by
  rw [run, h]

theorem Scanner.run_idle {s : σ} {xs : List β} (hnext : ∀ b ∈ xs, A.next s b = .inl s)
    (hnote : ∀ b ∈ xs, ∀ pos r, A.note s b pos r = r) (pos : ℕ) (ys : List β) (r : Record μ δ) :
    A.run pos (xs ++ ys) s r = A.run (pos + xs.length) ys s r := by
  induction xs generalizing pos with
  | nil => rfl
  | cons b bs ih =>
    rw [List.forall_mem_cons] at hnext hnote
    rw [List.cons_append, A.run_cons_inl hnext.1, hnote.1, ih hnext.2 hnote.2, List.length_cons,
      Nat.add_assoc, Nat.add_comm 1]

def Scanner.Reaches (s : σ) (xs : List β) (s' : σ) : Prop :=
  ∀ pos ys (r : Record μ δ), ∃ r', A.run pos (xs ++ ys) s r = A.run (pos + xs.length) ys s' r'

theorem Scanner.Reaches.nil (s : σ) : A.Reaches s [] s := fun _ _ r => ⟨r, rfl⟩

theorem Scanner.Reaches.append {A : Scanner β σ ρ μ δ} {s₁ s₂ s₃ : σ} {xs ys : List β}
    (h : A.Reaches s₁ xs s₂) (h' : A.Reaches s₂ ys s₃) : A.Reaches s₁ (xs ++ ys) s₃ := by
  intro pos zs r
  obtain ⟨r₂, h₂⟩ := h pos (ys ++ zs) r
  obtain ⟨r₃, h₃⟩ := h' (pos + xs.length) zs r₂
  refine ⟨r₃, ?_⟩
  rw [List.append_assoc, h₂, h₃, List.length_append, Nat.add_assoc]

theorem Scanner.Reaches.single {A : Scanner β σ ρ μ δ} {s s' : σ} {b : β}
    (h : A.next s b = .inl s') : A.Reaches s [b] s' :=
  fun pos ys r => ⟨_, A.run_cons_inl h pos ys r⟩

theorem Scanner.Reaches.cons {A : Scanner β σ ρ μ δ} {s s' s'' : σ} {b : β} {bs : List β}
    (h : A.next s b = .inl s') (h' : A.Reaches s' bs s'') : A.Reaches s (b :: bs) s'' :=
  (Reaches.single h).append h'

theorem Scanner.Reaches.stay {A : Scanner β σ ρ μ δ} {s : σ} {xs : List β}
    (h : ∀ b ∈ xs, A.next s b = .inl s) : A.Reaches s xs s := by
  induction xs with
  | nil => exact Reaches.nil A s
  | cons b bs ih =>
    rw [List.forall_mem_cons] at h
    exact (ih h.2).cons h.1

def Scanner.Carries (s : σ) (xs : List β) (s' : σ) (f : δ → δ) : Prop :=
  ∀ pos ys (r : Record μ δ), ∃ r',
    A.run pos (xs ++ ys) s r = A.run (pos + xs.length) ys s' r' ∧ r'.register = f r.register

theorem Scanner.Carries.append {A : Scanner β σ ρ μ δ} {s₁ s₂ s₃ : σ} {xs ys : List β}
    {f g : δ → δ} (h : A.Carries s₁ xs s₂ f) (h' : A.Carries s₂ ys s₃ g) :
    A.Carries s₁ (xs ++ ys) s₃ (fun d => g (f d)) := by
  intro pos zs r
  obtain ⟨r₂, hrun, hf⟩ := h pos (ys ++ zs) r
  obtain ⟨r₃, hrun', hg⟩ := h' (pos + xs.length) zs r₂
  refine ⟨r₃, ?_, by rw [hg, hf]⟩
  rw [List.append_assoc, hrun, hrun', List.length_append, Nat.add_assoc]

theorem Scanner.Carries.single {A : Scanner β σ ρ μ δ} {s s' : σ} {b : β}
    (h : A.next s b = .inl s') : A.Carries s [b] s' (A.fold s b) :=
  fun pos ys r => ⟨_, A.run_cons_inl h pos ys r, rfl⟩

theorem Scanner.Carries.stay {A : Scanner β σ ρ μ δ} {s : σ} {xs : List β}
    (h : ∀ b ∈ xs, A.next s b = .inl s) :
    A.Carries s xs s (fun d => xs.foldl (fun d b => A.fold s b d) d) := by
  induction xs with
  | nil => exact fun pos ys r => ⟨r, rfl, rfl⟩
  | cons b bs ih =>
    rw [List.forall_mem_cons] at h
    exact (Carries.single h.1).append (ih h.2)

theorem Scanner.run_invariant (I : σ → List β → Record μ δ → Prop)
    (hstep : ∀ s pre b s' r, A.next s b = .inl s' → I s pre r →
      I s' (pre ++ [b]) (A.note s b pre.length r))
    {pre xs : List β} {s s' : σ} {r r' : Record μ δ} {pos' : ℕ} (h₀ : I s pre r)
    (h : A.run pre.length xs s r = (.inl s', pos', r')) : I s' (pre ++ xs) r' := by
  induction xs generalizing pre s r with
  | nil =>
    simp only [run, Prod.mk.injEq, Sum.inl.injEq] at h
    obtain ⟨rfl, -, rfl⟩ := h
    rwa [List.append_nil]
  | cons b bs ih =>
    rw [run] at h
    cases hn : A.next s b with
    | inl s'' =>
      rw [hn] at h
      have hlen : pre.length + 1 = (pre ++ [b]).length := by simp
      have := ih (hstep s pre b s'' r hn h₀) (by rw [← hlen]; exact h)
      rwa [List.append_assoc] at this
    | inr x => rw [hn] at h; cases h

theorem Scanner.run_exit_invariant (I : σ → List β → Record μ δ → Prop) (E : ρ → ℕ → Record μ δ → Prop)
    (hstep : ∀ s pre b s' r, A.next s b = .inl s' → I s pre r →
      I s' (pre ++ [b]) (A.note s b pre.length r))
    (hexit : ∀ s pre b x r, A.next s b = .inr x → I s pre r →
      E x pre.length (A.note s b pre.length r))
    {pre xs : List β} {s : σ} {r r' : Record μ δ} {pos' : ℕ} {x : ρ} (h₀ : I s pre r)
    (h : A.run pre.length xs s r = (.inr x, pos', r')) : E x pos' r' := by
  induction xs generalizing pre s r with
  | nil => cases h
  | cons b bs ih =>
    rw [run] at h
    cases hn : A.next s b with
    | inl s'' =>
      rw [hn] at h
      have hlen : pre.length + 1 = (pre ++ [b]).length := by simp
      exact ih (hstep s pre b s'' r hn h₀) (by rw [← hlen]; exact h)
    | inr y =>
      rw [hn] at h
      obtain ⟨rfl, rfl, rfl⟩ : y = x ∧ pre.length = pos' ∧ A.note s b pre.length r = r' := by
        simpa using h
      exact hexit s pre b y r hn h₀

theorem Scanner.run_inr_split {pos pos' : ℕ} {xs : List β} {s : σ} {r r' : Record μ δ} {x : ρ}
    (h : A.run pos xs s r = (.inr x, pos', r')) :
    ∃ pre b rest s' r₀, xs = pre ++ b :: rest ∧ A.run pos pre s r = (.inl s', pos', r₀) ∧
      A.next s' b = .inr x ∧ r' = A.note s' b pos' r₀ := by
  induction xs generalizing pos s r with
  | nil => cases h
  | cons b bs ih =>
    rw [run] at h
    cases hn : A.next s b with
    | inl s'' =>
      rw [hn] at h
      obtain ⟨pre, c, rest, s', r₀, rfl, hrun, hnext, hnote⟩ := ih h
      exact ⟨b :: pre, c, rest, s', r₀, rfl, (A.run_cons_inl hn pos pre r).trans hrun, hnext, hnote⟩
    | inr y =>
      rw [hn] at h
      obtain ⟨rfl, rfl, rfl⟩ : y = x ∧ pos = pos' ∧ A.note s b pos r = r' := by simpa using h
      exact ⟨[], b, bs, s, r, rfl, rfl, hn, rfl⟩

theorem Scanner.run_related (R : σ → Record μ δ → Record μ δ → Prop)
    (E : ρ → Record μ δ → Record μ δ → Prop)
    (hstep : ∀ s b pos s' r₁ r₂, A.next s b = .inl s' → R s r₁ r₂ →
      R s' (A.note s b pos r₁) (A.note s b pos r₂))
    (hexit : ∀ s b pos x r₁ r₂, A.next s b = .inr x → R s r₁ r₂ →
      E x (A.note s b pos r₁) (A.note s b pos r₂))
    (pos : ℕ) (xs : List β) (s : σ) (r₁ r₂ : Record μ δ) (h₀ : R s r₁ r₂) :
    ∃ out pos' r₁' r₂', A.run pos xs s r₁ = (out, pos', r₁') ∧ A.run pos xs s r₂ = (out, pos', r₂') ∧
      ∀ x, out = .inr x → E x r₁' r₂' := by
  induction xs generalizing pos s r₁ r₂ with
  | nil => exact ⟨.inl s, pos, r₁, r₂, rfl, rfl, fun x h => nomatch h⟩
  | cons b bs ih =>
    simp only [run]
    cases hn : A.next s b with
    | inl s' => exact ih _ _ _ _ (hstep s b pos s' r₁ r₂ hn h₀)
    | inr x =>
      refine ⟨.inr x, pos, _, _, rfl, rfl, ?_⟩
      rintro _ ⟨⟩
      exact hexit s b pos x r₁ r₂ hn h₀

end Sginx.Library.Scanning
