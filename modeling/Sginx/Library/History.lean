import Mathlib.Data.List.Basic

namespace Sginx.Library.History

variable {α : Type*}

def Each (P : α → List α → Prop) : List α → Prop
  | [] => True
  | e :: before => P e before ∧ Each P before

theorem Each.at {P : α → List α → Prop} {after before : List α} {e : α}
    (h : Each P (after ++ e :: before)) : P e before := by
  induction after with
  | nil => exact h.1
  | cons _ after ih => exact ih h.2

def TurnedOff (on off : α → Prop) : List α → Prop
  | [] => False
  | e :: before => off e ∨ ¬ on e ∧ TurnedOff on off before

theorem turnedOff_of_off {on off : α → Prop} {after before : List α} {e : α} (hoff : off e)
    (hafter : ∀ x ∈ after, ¬ on x) : TurnedOff on off (after ++ e :: before) := by
  induction after with
  | nil => exact .inl hoff
  | cons x after ih =>
    rw [List.forall_mem_cons] at hafter
    exact .inr ⟨hafter.1, ih hafter.2⟩

theorem TurnedOff.cons {on off : α → Prop} {before : List α} {e : α} (h : TurnedOff on off before)
    (he : ¬ on e) : TurnedOff on off (e :: before) := .inr ⟨he, h⟩

end Sginx.Library.History
