import Mathlib.Data.List.Infix
import Mathlib.Data.List.TakeWhile
import Mathlib.Tactic.Push

/-!
Bounded comparison of C strings, with `strncmp` and `strncasecmp` as two instances. A `char *` is
the function from an offset to the byte that is there.
-/

namespace Sginx.Library.CString

theorem takeWhile_stop {α : Type*} {p : α → Bool} {x : α} (hx : p x = false) (xs ys : List α) :
    (xs ++ x :: ys).takeWhile p = xs.takeWhile p := by
  rw [List.takeWhile_append]
  split_ifs with hall
  · rw [List.takeWhile_cons_of_neg (by simp [hx]), List.append_nil]
    exact ((List.takeWhile_prefix _).eq_of_length hall).symm
  · rfl

theorem takeWhile_nul (xs ys : List UInt8) :
    (xs ++ 0 :: ys).takeWhile (· ≠ 0) = xs.takeWhile (· ≠ 0) :=
  takeWhile_stop (by decide) xs ys

theorem takeWhile_without_nul {text : List UInt8} (h : 0 ∉ text) :
    text.takeWhile (· ≠ 0) = text := by
  apply List.takeWhile_eq_self_iff.mpr
  intro c hc
  rw [decide_eq_true_eq]
  rintro rfl
  exact h hc

theorem nul_notMem_takeWhile (text : List UInt8) : 0 ∉ text.takeWhile (· ≠ 0) := by
  intro h
  simpa using List.mem_takeWhile_imp h

theorem split_at_nul {text : List UInt8} (h : 0 ∈ text) :
    ∃ rest, text = text.takeWhile (· ≠ 0) ++ 0 :: rest := by
  induction text with
  | nil => exact absurd h List.not_mem_nil
  | cons c text ih =>
    by_cases hc : c = 0
    · subst hc
      exact ⟨text, rfl⟩
    · obtain ⟨rest, hrest⟩ := ih ((List.mem_cons.mp h).resolve_left (Ne.symm hc))
      refine ⟨rest, ?_⟩
      rw [List.takeWhile_cons_of_pos (by simpa using hc), List.cons_append, ← hrest]

theorem takeWhile_append_eq_iff {α : Type*} {p : α → Bool} {xs ys zs : List α}
    (h : zs.length ≤ ys.length) :
    xs.takeWhile p ++ zs = xs ++ ys ↔ (∀ x ∈ xs, p x = true) ∧ zs = ys := by
  constructor
  · intro heq
    have hpre : xs.takeWhile p <+: xs := List.takeWhile_prefix p
    have hlen := congrArg List.length heq
    rw [List.length_append, List.length_append] at hlen
    have hall : xs.takeWhile p = xs :=
      hpre.eq_of_length (Nat.le_antisymm hpre.length_le (by omega))
    rw [hall] at heq
    exact ⟨List.takeWhile_eq_self_iff.mp hall, List.append_cancel_left heq⟩
  · rintro ⟨hall, rfl⟩
    rw [List.takeWhile_eq_self_iff.mpr hall]

def literal (name : List UInt8) (i : ℕ) : UInt8 := name[i]?.getD 0

/-- Bytes are compared after `fold`, up to the first difference, a `NUL` or `n` bytes. -/
def compare (fold : UInt8 → UInt8) : ℕ → (ℕ → UInt8) → (ℕ → UInt8) → ℤ
  | 0, _, _ => 0
  | n + 1, s, t =>
    if fold (s 0) ≠ fold (t 0) then (fold (s 0)).toNat - (fold (t 0)).toNat
    else if s 0 = 0 then 0
    else compare fold n (fun i => s (i + 1)) (fun i => t (i + 1))

def tolower (c : UInt8) : UInt8 := if 65 ≤ c ∧ c ≤ 90 then c + 32 else c

def strncmp (s t : ℕ → UInt8) (n : ℕ) : ℤ := compare id n s t

def strncasecmp (s t : ℕ → UInt8) (n : ℕ) : ℤ := compare tolower n s t

def strcasecmp (s : ℕ → UInt8) (name : List UInt8) : ℤ :=
  compare tolower (name.length + 1) s (literal name)

def AgreeTo (fold : UInt8 → UInt8) (n : ℕ) (s : ℕ → UInt8) (name : List UInt8) : Prop :=
  ∀ i < n, i ≤ name.length → fold (s i) = fold (literal name i)

theorem literal_append (name : List UInt8) {i : ℕ} (h : i ≤ name.length) :
    (name ++ [0])[i]? = some (literal name i) := by
  rcases Nat.lt_or_eq_of_le h with hlt | rfl
  · rw [List.getElem?_append_left hlt, literal, List.getElem?_eq_getElem hlt, Option.getD_some]
  · rw [List.getElem?_concat_length, literal, List.getElem?_eq_none (le_refl _), Option.getD_none]

theorem literal_nil : literal [] = fun _ => 0 := rfl

theorem literal_cons_zero (c : UInt8) (name : List UInt8) : literal (c :: name) 0 = c := rfl

theorem literal_cons_succ (c : UInt8) (name : List UInt8) :
    (fun i => literal (c :: name) (i + 1)) = literal name := rfl

theorem byte_sub_eq_zero {a b : UInt8} : (a.toNat : ℤ) - b.toNat = 0 ↔ a = b := by
  rw [Int.sub_eq_zero, Int.ofNat_inj, UInt8.toNat_inj]

theorem agreeTo_cons {fold : UInt8 → UInt8} {n : ℕ} {s : ℕ → UInt8} {c : UInt8}
    {name : List UInt8} : AgreeTo fold (n + 1) s (c :: name) ↔
      fold (s 0) = fold c ∧ AgreeTo fold n (fun i => s (i + 1)) name := by
  constructor
  · intro h
    refine ⟨h 0 (Nat.zero_lt_succ n) (Nat.zero_le _), fun i hi hle => ?_⟩
    exact h (i + 1) (Nat.succ_lt_succ hi) (Nat.succ_le_succ hle)
  · rintro ⟨h0, hrest⟩ i hi hle
    cases i with
    | zero => exact h0
    | succ i => exact hrest i (Nat.lt_of_succ_lt_succ hi) (Nat.le_of_succ_le_succ hle)

theorem compare_eq_zero_iff {fold : UInt8 → UInt8} (hfold : ∀ c, fold c = fold 0 → c = 0) {n : ℕ}
    {s : ℕ → UInt8} {name : List UInt8} (hname : 0 ∉ name) :
    compare fold n s (literal name) = 0 ↔ AgreeTo fold n s name := by
  induction n generalizing s name with
  | zero => exact ⟨fun _ i hi => absurd hi (Nat.not_lt_zero i), fun _ => rfl⟩
  | succ n ih =>
    rw [compare]
    cases name with
    | nil =>
      by_cases h0 : fold (s 0) = fold 0
      · rw [literal_nil, if_neg (not_not.mpr h0), if_pos (hfold _ h0)]
        refine ⟨fun _ i _ hle => ?_, fun _ => rfl⟩
        rw [Nat.le_zero.mp hle]
        exact h0
      · rw [literal_nil, if_pos h0, byte_sub_eq_zero]
        exact ⟨fun h => absurd h h0, fun h => h 0 (Nat.zero_lt_succ n) (le_refl 0)⟩
    | cons c name =>
      rw [List.mem_cons, not_or] at hname
      rw [agreeTo_cons, ← ih hname.2, literal_cons_succ, literal_cons_zero]
      by_cases h0 : fold (s 0) = fold c
      · have hs : s 0 ≠ 0 := by
          intro hzero
          rw [hzero] at h0
          exact hname.1 (hfold c h0.symm).symm
        rw [if_neg (not_not.mpr h0), if_neg hs]
        exact (and_iff_right h0).symm
      · rw [if_pos h0, byte_sub_eq_zero]
        exact ⟨fun h => absurd h h0, fun h => h.1⟩

theorem tolower_eq_of_lt {c d : UInt8} (hd : d < 97) (h : tolower c = d) : c = d := by
  by_cases hc : 65 ≤ c ∧ c ≤ 90
  · rw [tolower, if_pos hc] at h
    have hnat := congrArg UInt8.toNat h
    rw [UInt8.toNat_add] at hnat
    obtain ⟨hlo, hhi⟩ := hc
    rw [UInt8.le_iff_toNat_le] at hlo hhi
    rw [UInt8.lt_iff_toNat_lt] at hd
    change (c.toNat + 32) % 256 = d.toNat at hnat
    change 65 ≤ c.toNat at hlo
    change c.toNat ≤ 90 at hhi
    change d.toNat < 97 at hd
    omega
  · rwa [tolower, if_neg hc] at h

theorem tolower_of_lt {c : UInt8} (h : c < 65) : tolower c = c :=
  if_neg (fun hc => absurd h (UInt8.not_lt.mpr hc.1))

theorem tolower_zero (c : UInt8) (h : tolower c = tolower 0) : c = 0 :=
  tolower_eq_of_lt (by decide) h

theorem strncmp_eq_zero_iff {n : ℕ} {s : ℕ → UInt8} {name : List UInt8} (hname : 0 ∉ name) :
    strncmp s (literal name) n = 0 ↔ AgreeTo id n s name :=
  compare_eq_zero_iff (fun _ h => h) hname

theorem compare_comm (fold : UInt8 → UInt8) (hfold : ∀ c, fold c = fold 0 → c = 0) (n : ℕ)
    (s t : ℕ → UInt8) : compare fold n s t = 0 ↔ compare fold n t s = 0 := by
  induction n generalizing s t with
  | zero => exact Iff.rfl
  | succ n ih =>
    rw [compare, compare]
    by_cases h0 : fold (s 0) = fold (t 0)
    · rw [if_neg (not_not.mpr h0), if_neg (not_not.mpr h0.symm)]
      have hzero : s 0 = 0 ↔ t 0 = 0 := by
        constructor
        · intro hs
          rw [hs] at h0
          exact hfold _ h0.symm
        · intro ht
          rw [ht] at h0
          exact hfold _ h0
      by_cases hs : s 0 = 0
      · rw [if_pos hs, if_pos (hzero.mp hs)]
      · rw [if_neg hs, if_neg (fun ht => hs (hzero.mpr ht))]
        exact ih _ _
    · rw [if_pos h0, if_pos (Ne.symm h0), byte_sub_eq_zero, byte_sub_eq_zero]
      exact eq_comm

theorem strncasecmp_eq_zero_iff {n : ℕ} {s : ℕ → UInt8} {name : List UInt8} (hname : 0 ∉ name) :
    strncasecmp (literal name) s n = 0 ↔ AgreeTo tolower n s name :=
  (compare_comm tolower tolower_zero n _ _).trans (compare_eq_zero_iff tolower_zero hname)

theorem strncmp_literal_eq_zero_iff {n : ℕ} {s : ℕ → UInt8} {name : List UInt8}
    (hname : 0 ∉ name) : strncmp (literal name) s n = 0 ↔ AgreeTo id n s name :=
  (compare_comm id (fun _ h => h) n _ _).trans (strncmp_eq_zero_iff hname)

theorem agreeTo_begins {c : UInt8} {s : ℕ → UInt8} {text name : List UInt8}
    (hs : ∀ i ≤ text.length, s i = (text ++ [c])[i]?.getD 0) (hname : c ∉ name) :
    AgreeTo id name.length s name ↔ name <+: text := by
  induction name generalizing s text with
  | nil => exact iff_of_true (fun i hi => absurd hi (Nat.not_lt_zero i)) (List.nil_prefix)
  | cons d name ih =>
    rw [List.mem_cons, not_or] at hname
    rw [List.length_cons, agreeTo_cons, hs 0 (Nat.zero_le _)]
    cases text with
    | nil =>
      refine iff_of_false (fun h => hname.1 h.1) ?_
      simp
    | cons e text =>
      have hrest : ∀ i ≤ text.length, s (i + 1) = (text ++ [c])[i]?.getD 0 :=
        fun i hi => hs (i + 1) (Nat.succ_le_succ hi)
      rw [ih hrest hname.2, List.cons_prefix_cons]
      exact and_congr_left fun _ => eq_comm

theorem strcasecmp_eq_zero_iff {s : ℕ → UInt8} {name : List UInt8} (hname : 0 ∉ name) :
    strcasecmp s name = 0 ↔ AgreeTo tolower (name.length + 1) s name :=
  compare_eq_zero_iff tolower_zero hname

theorem literal_takeWhile (text : List UInt8) {i : ℕ}
    (h : i ≤ (text.takeWhile (· ≠ 0)).length) :
    literal text i = literal (text.takeWhile (· ≠ 0)) i := by
  induction text generalizing i with
  | nil => rfl
  | cons c text ih =>
    by_cases hc : c = 0
    · subst hc
      rw [List.takeWhile_cons_of_neg (by decide)] at h ⊢
      rw [Nat.le_zero.mp h]
      rfl
    · rw [List.takeWhile_cons_of_pos (by simpa using hc)] at h ⊢
      cases i with
      | zero => rfl
      | succ i => exact ih (Nat.le_of_succ_le_succ h)

theorem agreeTo_text {fold : UInt8 → UInt8} (hfold : ∀ c, fold c = fold 0 → c = 0)
    {s : ℕ → UInt8} {text name : List UInt8} (hs : ∀ i ≤ text.length, s i = literal text i)
    (htext : 0 ∉ text) (hname : 0 ∉ name) :
    AgreeTo fold (name.length + 1) s name ↔ text.map fold = name.map fold := by
  induction name generalizing s text with
  | nil =>
    have hfirst : AgreeTo fold 1 s [] ↔ fold (s 0) = fold 0 :=
      ⟨fun h => h 0 Nat.one_pos (le_refl 0), fun h i hi _ => by rwa [Nat.lt_one_iff.mp hi]⟩
    rw [List.length_nil, hfirst, hs 0 (Nat.zero_le _)]
    cases text with
    | nil => exact iff_of_true rfl rfl
    | cons c text =>
      rw [List.mem_cons, not_or] at htext
      refine iff_of_false (fun h => htext.1 (hfold c h).symm) ?_
      rw [List.map_cons, List.map_nil]
      exact List.cons_ne_nil _ _
  | cons c name ih =>
    rw [List.mem_cons, not_or] at hname
    rw [List.length_cons, agreeTo_cons, hs 0 (Nat.zero_le _)]
    cases text with
    | nil =>
      refine iff_of_false (fun h => hname.1 (hfold c h.1.symm).symm) ?_
      rw [List.map_nil, List.map_cons]
      exact (List.cons_ne_nil _ _).symm
    | cons d text =>
      rw [List.mem_cons, not_or] at htext
      have hrest : ∀ i ≤ text.length, s (i + 1) = literal text i :=
        fun i hi => hs (i + 1) (Nat.succ_le_succ hi)
      rw [ih hrest htext.2 hname.2, literal_cons_zero, List.map_cons, List.map_cons,
        List.cons.injEq]

theorem strcasecmp_text {s : ℕ → UInt8} {text name : List UInt8}
    (hs : ∀ i ≤ text.length, s i = literal text i) (hname : 0 ∉ name) :
    strcasecmp s name = 0 ↔ (text.takeWhile (· ≠ 0)).map tolower = name.map tolower := by
  rw [strcasecmp_eq_zero_iff hname]
  apply agreeTo_text tolower_zero _ _ hname
  · intro i hi
    rw [← literal_takeWhile text hi]
    exact hs i (hi.trans (List.takeWhile_prefix _).length_le)
  · exact nul_notMem_takeWhile text

theorem prefix_or_prefix_iff {α : Type*} (xs ys : List α) :
    (∀ i < xs.length, i < ys.length → xs[i]? = ys[i]?) ↔ xs <+: ys ∨ ys <+: xs := by
  constructor
  · intro h
    rcases Nat.le_total xs.length ys.length with hle | hle
    · refine .inl (List.prefix_iff_getElem?.mpr (fun i hi => ?_))
      rw [← h i hi (by omega), List.getElem?_eq_getElem hi]
    · refine .inr (List.prefix_iff_getElem?.mpr (fun i hi => ?_))
      rw [h i (by omega) hi, List.getElem?_eq_getElem hi]
  · rintro (h | h) i hi hlt
    · rw [List.prefix_iff_getElem?.mp h i hi, List.getElem?_eq_getElem hi]
    · rw [List.prefix_iff_getElem?.mp h i hlt, List.getElem?_eq_getElem hlt]

theorem agreeTo_iff_prefix {fold : UInt8 → UInt8} {s : ℕ → UInt8} {text name : List UInt8}
    (hs : ∀ i < text.length, text[i]? = some (s i)) : AgreeTo fold text.length s name ↔
      text.map fold <+: (name ++ [0]).map fold ∨ (name ++ [0]).map fold <+: text.map fold := by
  rw [← prefix_or_prefix_iff]
  simp only [List.length_map, List.length_append, List.length_singleton, List.getElem?_map]
  refine forall₂_congr fun i hi => ?_
  constructor
  · intro h hlt
    have hle : i ≤ name.length := by omega
    rw [hs i hi, literal_append name hle, Option.map_some, Option.map_some, h hle]
  · intro h hle
    have hat := h (by omega)
    rw [hs i hi, literal_append name hle, Option.map_some, Option.map_some] at hat
    exact Option.some.inj hat

end Sginx.Library.CString
