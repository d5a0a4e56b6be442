import Mathlib.Computability.Language
import Mathlib.Data.Bool.AllAny
import Sginx.Library.Scanner

namespace Sginx.Library.Scanning

open scoped Computability

variable {β σ ρ μ δ : Type*}

def symbols (p : β → Prop) : Language β := {w | ∃ b, p b ∧ w = [b]}

theorem nil_notMem_symbols (p : β → Prop) : [] ∉ symbols p := by
  rintro ⟨b, -, h⟩
  cases h

theorem cons_mem_symbols_mul {p : β → Prop} {l : Language β} {b : β} {w : List β} :
    b :: w ∈ symbols p * l ↔ p b ∧ w ∈ l := by
  rw [Language.mem_mul]
  constructor
  · rintro ⟨_, ⟨c, hc, rfl⟩, v, hv, h⟩
    obtain ⟨rfl, rfl⟩ := List.cons.inj h
    exact ⟨hc, hv⟩
  · rintro ⟨hb, hw⟩
    exact ⟨[b], ⟨b, hb, rfl⟩, w, hw, rfl⟩

theorem nil_notMem_symbols_mul (p : β → Prop) (l : Language β) : [] ∉ symbols p * l := by
  rintro ⟨_, ⟨b, -, rfl⟩, v, -, h⟩
  cases h

theorem mem_kstar_symbols {p : β → Prop} {w : List β} : w ∈ (symbols p)∗ ↔ ∀ b ∈ w, p b := by
  constructor
  · rintro ⟨pieces, rfl, h⟩ b hb
    obtain ⟨piece, hpiece, hmem⟩ := List.mem_flatten.mp hb
    obtain ⟨c, hc, rfl⟩ := h piece hpiece
    rwa [List.mem_singleton.mp hmem]
  · intro h
    refine ⟨w.map (fun b => [b]), ?_, ?_⟩
    · induction w with
      | nil => rfl
      | cons b w ih => simpa using ih (fun c hc => h c (List.mem_cons_of_mem b hc))
    · intro piece hpiece
      obtain ⟨b, hb, rfl⟩ := List.mem_map.mp hpiece
      exact ⟨b, h b hb, rfl⟩

theorem mem_symbols_plus {p : β → Prop} {w : List β} :
    w ∈ symbols p * (symbols p)∗ ↔ w ≠ [] ∧ ∀ b ∈ w, p b := by
  cases w with
  | nil => simp [nil_notMem_symbols_mul]
  | cons b w => rw [cons_mem_symbols_mul, mem_kstar_symbols, List.forall_mem_cons]; simp

theorem mem_symbols_plus_of_all {p : β → Prop} [DecidablePred p] {w : List β} (hne : w ≠ [])
    (h : w.all p) : w ∈ symbols p * (symbols p)∗ :=
  mem_symbols_plus.mpr ⟨hne, List.all_iff_forall_prop.mp h⟩

theorem mem_text {text w : List β} : w ∈ ({text} : Language β) ↔ w = text := Iff.rfl

theorem cons_mem_text_mul {c b : β} {text w : List β} {l : Language β} :
    b :: w ∈ ({c :: text} : Language β) * l ↔ b = c ∧ w ∈ ({text} : Language β) * l := by
  rw [Language.mem_mul, Language.mem_mul]
  constructor
  · rintro ⟨_, rfl, v, hv, h⟩
    obtain ⟨rfl, rfl⟩ := List.cons.inj h
    exact ⟨rfl, text, rfl, v, hv, rfl⟩
  · rintro ⟨rfl, tail, htail, v, hv, rfl⟩
    exact ⟨b :: tail, congrArg (List.cons b) htail, v, hv, rfl⟩

theorem nil_notMem_text_mul (c : β) (text : List β) (l : Language β) :
    [] ∉ ({c :: text} : Language β) * l := by
  rintro ⟨_, rfl, v, -, h⟩
  cases h

theorem text_nil_mul (l : Language β) : ({[]} : Language β) * l = l := one_mul l

variable (A : Scanner β σ ρ μ δ)

def Scanner.Accepts (x : ρ) : σ → List β → Prop
  | _, [] => False
  | s, b :: w =>
    match A.next s b with
    | .inl s' => Scanner.Accepts x s' w
    | .inr y => y = x ∧ w = []

def Scanner.language (x : ρ) (s : σ) : Language β := {w | A.Accepts x s w}

theorem Scanner.nil_notMem_language (x : ρ) (s : σ) : [] ∉ A.language x s := fun h => h

theorem Scanner.cons_mem_language {x : ρ} {s : σ} {b : β} {w : List β} :
    b :: w ∈ A.language x s ↔
      (∃ s', A.next s b = .inl s' ∧ w ∈ A.language x s') ∨ A.next s b = .inr x ∧ w = [] := by
  change A.Accepts x s (b :: w) ↔ _
  rw [Accepts]
  cases A.next s b with
  | inl s' =>
    simp only [Sum.inl.injEq, exists_eq_left', reduceCtorEq, false_and, or_false]
    exact Iff.rfl
  | inr y => simp

theorem Scanner.language_loop {x : ρ} {s : σ} {p : β → Prop} {l : Language β} (hnil : [] ∉ l)
    (h : ∀ b w, b :: w ∈ A.language x s ↔ p b ∧ w ∈ A.language x s ∨ b :: w ∈ l) :
    A.language x s = (symbols p)∗ * l := by
  apply (Language.self_eq_mul_add_iff (nil_notMem_symbols p)).mp
  ext w
  rw [Language.mem_add]
  cases w with
  | nil => simp [A.nil_notMem_language x s, nil_notMem_symbols_mul, hnil]
  | cons b w => rw [h, cons_mem_symbols_mul]

theorem Scanner.language_step {x : ρ} {s : σ} {l : Language β} (hnil : [] ∉ l)
    (h : ∀ b w, b :: w ∈ A.language x s ↔ b :: w ∈ l) : A.language x s = l := by
  ext w
  cases w with
  | nil => simp [A.nil_notMem_language x s, hnil]
  | cons b w => exact h b w

theorem Scanner.accepts_of_run {x : ρ} {s : σ} {w : List β} {pos n : ℕ} {r r' : Record μ δ}
    (h : A.run pos w s r = (.inr x, n, r')) :
    ∃ u ∈ A.language x s, u <+: w ∧ n + 1 = pos + u.length := by
  induction w generalizing pos s r with
  | nil => cases h
  | cons b w ih =>
    rw [run] at h
    cases hn : A.next s b with
    | inl s' =>
      rw [hn] at h
      obtain ⟨u, hu, hprefix, hlen⟩ := ih h
      refine ⟨b :: u, A.cons_mem_language.mpr (.inl ⟨s', hn, hu⟩), ?_, ?_⟩
      · exact (List.prefix_cons_inj b).mpr hprefix
      · rw [hlen, List.length_cons]
        omega
    | inr y =>
      rw [hn] at h
      obtain ⟨rfl, rfl, -⟩ : y = x ∧ pos = n ∧ A.note s b pos r = r' := by simpa using h
      refine ⟨[b], A.cons_mem_language.mpr (.inr ⟨hn, rfl⟩), ?_, rfl⟩
      exact (List.prefix_cons_inj b).mpr List.nil_prefix

theorem Scanner.run_of_accepts {x : ρ} {s : σ} {u : List β} (h : u ∈ A.language x s) (pos : ℕ)
    (v : List β) (r : Record μ δ) :
    ∃ n r', A.run pos (u ++ v) s r = (.inr x, n, r') ∧ n + 1 = pos + u.length := by
  induction u generalizing pos s r with
  | nil => exact absurd h (A.nil_notMem_language x s)
  | cons b u ih =>
    rw [List.cons_append, run]
    rcases A.cons_mem_language.mp h with ⟨s', hn, hu⟩ | ⟨hn, rfl⟩
    · obtain ⟨n, r', hrun, hlen⟩ := ih hu (pos + 1) (A.note s b pos r)
      rw [hn]
      refine ⟨n, r', hrun, ?_⟩
      rw [hlen, List.length_cons]
      omega
    · rw [hn]
      exact ⟨pos, _, rfl, rfl⟩

theorem Scanner.append_mem_language {x : ρ} {s s' : σ} {w v : List β} {pos n : ℕ}
    {r r' : Record μ δ} (h : A.run pos w s r = (.inl s', n, r')) (hv : v ∈ A.language x s') :
    w ++ v ∈ A.language x s := by
  induction w generalizing pos s r with
  | nil =>
    obtain ⟨rfl, -⟩ : s = s' ∧ pos = n ∧ r = r' := by simpa [run] using h
    exact hv
  | cons b w ih =>
    rw [run] at h
    cases hn : A.next s b with
    | inl s'' =>
      rw [hn] at h
      exact A.cons_mem_language.mpr (.inl ⟨s'', hn, ih h⟩)
    | inr y => rw [hn] at h; cases h

theorem Scanner.run_inr_iff (x : ρ) (s : σ) (w : List β) (pos k : ℕ) (r : Record μ δ) :
    (∃ n r', A.run pos w s r = (.inr x, n, r') ∧ n + 1 = pos + k) ↔
      ∃ u ∈ A.language x s, u <+: w ∧ u.length = k := by
  constructor
  · rintro ⟨n, r', hrun, hn⟩
    obtain ⟨u, hu, hprefix, hlen⟩ := A.accepts_of_run hrun
    exact ⟨u, hu, hprefix, by omega⟩
  · rintro ⟨u, hu, ⟨v, rfl⟩, rfl⟩
    exact A.run_of_accepts hu pos v r

theorem Scanner.run_inl_iff {x : ρ} (hlive : ∀ s, ∃ w, w ∈ A.language x s) (s : σ) (w : List β)
    (pos : ℕ) (r : Record μ δ) :
    (∃ s' n r', A.run pos w s r = (.inl s', n, r')) ↔
      ∃ v ∈ A.language x s, w <+: v ∧ w ≠ v := by
  constructor
  · rintro ⟨s', n, r', hrun⟩
    obtain ⟨v, hv⟩ := hlive s'
    refine ⟨w ++ v, A.append_mem_language hrun hv, List.prefix_append w v, ?_⟩
    intro h
    obtain rfl : v = [] := List.append_right_eq_self.mp h.symm
    exact A.nil_notMem_language x s' hv
  · rintro ⟨_, hv, ⟨t, rfl⟩, hne⟩
    obtain ⟨n, r', hrun, hn⟩ := A.run_of_accepts hv pos [] r
    rw [List.append_nil, A.run_append] at hrun
    rcases hout : A.run pos w s r with ⟨s' | y, n', r''⟩
    · exact ⟨s', n', r'', rfl⟩
    · -- the run leaves the loop inside `w`, so not at the end of the longer word
      rw [hout, resume, Prod.mk.injEq, Prod.mk.injEq] at hrun
      have hlt := A.run_inr hout
      have ht : t ≠ [] := by
        rintro rfl
        exact hne (List.append_nil w).symm
      have hpos := List.length_pos_iff.mpr ht
      rw [List.length_append] at hn
      omega

end Sginx.Library.Scanning
