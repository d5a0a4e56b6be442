import Mathlib.Data.List.Basic

namespace Sginx.Library.DotPath

def slash : UInt8 := 47

def dot : UInt8 := 46

def components (path : List UInt8) : List (List UInt8) := path.splitOn slash

def IsName (name : List UInt8) : Prop := name ≠ [] ∧ name ≠ [dot] ∧ name ≠ [dot, dot]

instance (name : List UInt8) : Decidable (IsName name) :=
  inferInstanceAs (Decidable (_ ∧ _ ∧ _))

/-- `dir` holds the names below the start, the last one first, and nothing is above the start. -/
def step (dir : List (List UInt8)) (name : List UInt8) : Option (List (List UInt8)) :=
  if name = [dot, dot] then
    match dir with
    | [] => none
    | _ :: dir => some dir
  else if IsName name then some (name :: dir)
  else some dir

def resolve (dir names : List (List UInt8)) : Option (List (List UInt8)) := names.foldlM step dir

structure Confined (path : List UInt8) : Prop where
  start : path = [dot] ∨ [dot, slash] <+: path
  stays : (resolve [] (components path)).isSome

def ups (names : List (List UInt8)) : ℕ := names.count [dot, dot]

def downs (names : List (List UInt8)) : ℕ := names.countP (fun name => IsName name)

def NeverAbove (depth : ℕ) (names : List (List UInt8)) : Prop :=
  ∀ k, ups (names.take k) ≤ depth + downs (names.take k)

theorem not_isName_up : ¬ IsName [dot, dot] := fun h => h.2.2 rfl

theorem neverAbove_nil (depth : ℕ) : NeverAbove depth [] := by
  intro k
  simp [ups]

theorem neverAbove_cons {depth : ℕ} {name : List UInt8} {names : List (List UInt8)} :
    NeverAbove depth (name :: names) ↔
      ∀ k, ups (names.take k) + (if name = [dot, dot] then 1 else 0) ≤
        depth + (downs (names.take k) + if IsName name then 1 else 0) := by
  have hcons (k : ℕ) : ups ((name :: names).take (k + 1)) ≤
      depth + downs ((name :: names).take (k + 1)) ↔
        ups (names.take k) + (if name = [dot, dot] then 1 else 0) ≤
          depth + (downs (names.take k) + if IsName name then 1 else 0) := by
    simp [ups, downs, List.take_succ_cons, List.count_cons, List.countP_cons]
  constructor
  · intro h k
    exact (hcons k).mp (h (k + 1))
  · intro h k
    cases k with
    | zero => exact Nat.zero_le _
    | succ k => exact (hcons k).mpr (h k)

theorem step_up (top : List UInt8) (dir : List (List UInt8)) :
    step (top :: dir) [dot, dot] = some dir := rfl

theorem step_above : step [] [dot, dot] = none := rfl

theorem step_name {name : List UInt8} (h : IsName name) (dir : List (List UInt8)) :
    step dir name = some (name :: dir) := by
  unfold step
  rw [if_neg h.2.2, if_pos h]

theorem step_stay {name : List UInt8} (hup : name ≠ [dot, dot]) (h : ¬ IsName name)
    (dir : List (List UInt8)) : step dir name = some dir := by
  unfold step
  rw [if_neg hup, if_neg h]

theorem resolve_cons (dir : List (List UInt8)) (name : List UInt8) (names : List (List UInt8)) :
    resolve dir (name :: names) = (step dir name).bind fun dir => resolve dir names := rfl

theorem resolve_isSome_iff (dir names : List (List UInt8)) :
    (resolve dir names).isSome ↔ NeverAbove dir.length names := by
  induction names generalizing dir with
  | nil => exact iff_of_true rfl (neverAbove_nil _)
  | cons name names ih =>
    rw [neverAbove_cons, resolve_cons]
    by_cases hup : name = [dot, dot]
    · subst hup
      rw [if_pos rfl, if_neg not_isName_up]
      cases dir with
      | nil =>
        rw [step_above, Option.bind_none]
        refine iff_of_false Bool.false_ne_true ?_
        intro h
        have := h 0
        simp [downs] at this
      | cons top dir =>
        rw [step_up, Option.bind_some, ih]
        refine forall_congr' fun k => ?_
        rw [List.length_cons]
        omega
    · rw [if_neg hup]
      by_cases hname : IsName name
      · rw [step_name hname, Option.bind_some, ih, if_pos hname]
        refine forall_congr' fun k => ?_
        rw [List.length_cons]
        omega
      · rw [step_stay hup hname, Option.bind_some, ih, if_neg hname]
        rfl

theorem neverAbove_stay {name : List UInt8} (hup : name ≠ [dot, dot]) (h : ¬ IsName name)
    {depth : ℕ} {names : List (List UInt8)} :
    NeverAbove depth (name :: names) ↔ NeverAbove depth names := by
  rw [neverAbove_cons, if_neg hup, if_neg h]
  rfl

theorem components_slash (path : List UInt8) :
    components (slash :: path) = [] :: components path := by
  rw [components, List.splitOn_eq_splitOnP, List.splitOnP_cons_eq_if_modifyHead]
  rfl

theorem components_dot_slash (path : List UInt8) :
    components (dot :: slash :: path) = [dot] :: components path := by
  rw [components, List.splitOn_eq_splitOnP, List.splitOnP_cons_eq_if_modifyHead,
    List.splitOnP_cons_eq_if_modifyHead]
  rfl

theorem confined_dot_iff (path : List UInt8) : Confined (dot :: path) ↔
    (path = [] ∨ path.head? = some slash) ∧ NeverAbove 0 (components path) := by
  have hdot : ¬ IsName [dot] := fun h => h.2.1 rfl
  have hempty : ¬ IsName [] := fun h => h.1 rfl
  have hstart : (dot :: path = [dot] ∨ [dot, slash] <+: dot :: path) ↔
      path = [] ∨ path.head? = some slash := by
    cases path with
    | nil => simp
    | cons c path => simp [eq_comm]
  have hstays (h : path = [] ∨ path.head? = some slash) :
      (resolve [] (components (dot :: path))).isSome ↔ NeverAbove 0 (components path) := by
    rw [resolve_isSome_iff]
    cases path with
    | nil =>
      refine iff_of_true ?_ ?_
      · exact (neverAbove_stay (by decide) hdot).mpr (neverAbove_nil 0)
      · exact (neverAbove_stay (by decide) hempty).mpr (neverAbove_nil 0)
    | cons c path =>
      obtain rfl : c = slash := by simpa using h
      rw [components_dot_slash, components_slash, neverAbove_stay (by decide) hdot,
        neverAbove_stay (by decide) hempty]
      rfl
  constructor
  · rintro ⟨h, hsome⟩
    exact ⟨hstart.mp h, (hstays (hstart.mp h)).mp hsome⟩
  · rintro ⟨h, hnever⟩
    exact ⟨hstart.mpr h, (hstays h).mpr hnever⟩

end Sginx.Library.DotPath
