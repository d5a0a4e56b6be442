import Mathlib.Data.List.TakeWhile

namespace Sginx.Library.Stdio

def newline : UInt8 := 10

/-- A file opened for reading: the bytes that are left, and the mark that `feof` tests. -/
structure File where
  rest : List UInt8
  eof : Bool
deriving DecidableEq, Repr

def fopen (content : List UInt8) : File := ⟨content, false⟩

def feof (file : File) : Bool := file.eof

/-- A line with its newline, as far as `room` goes. The mark is set when it takes the end of the
file to end the line. -/
def takeLine : ℕ → List UInt8 → List UInt8 × File
  | 0, cs => ([], ⟨cs, false⟩)
  | _ + 1, [] => ([], ⟨[], true⟩)
  | room + 1, c :: cs =>
    if c = newline then ([c], ⟨cs, false⟩)
    else (c :: (takeLine room cs).1, (takeLine room cs).2)

/-- The bytes stored before the `NUL`, or nothing for `NULL`. The window has `n` bytes. -/
def fgets : ℕ → File → Option (List UInt8) × File
  | 0, file => (none, file)
  | 1, file => (some [], file)
  | room + 2, file =>
    let (line, after) := takeLine (room + 1) file.rest
    (if line = [] then none else some line, ⟨after.rest, file.eof || after.eof⟩)

theorem takeLine_append (room : ℕ) (cs : List UInt8) :
    (takeLine room cs).1 ++ (takeLine room cs).2.rest = cs := by
  induction cs generalizing room with
  | nil =>
    cases room with
    | zero => rfl
    | succ room => rfl
  | cons c cs ih =>
    cases room with
    | zero => rfl
    | succ room =>
      rw [takeLine]
      split_ifs with hc
      · rfl
      · exact congrArg (c :: ·) (ih room)

theorem takeLine_length_le (room : ℕ) (cs : List UInt8) : (takeLine room cs).1.length ≤ room := by
  induction cs generalizing room with
  | nil =>
    cases room with
    | zero => exact le_refl 0
    | succ room => exact Nat.zero_le _
  | cons c cs ih =>
    cases room with
    | zero => exact le_refl 0
    | succ room =>
      rw [takeLine]
      split_ifs with hc
      · exact Nat.succ_le_succ (Nat.zero_le room)
      · exact Nat.succ_le_succ (ih room)

theorem takeLine_eq_nil_iff (room : ℕ) (cs : List UInt8) :
    (takeLine (room + 1) cs).1 = [] ↔ cs = [] := by
  cases cs with
  | nil => exact iff_of_true rfl rfl
  | cons c cs =>
    refine iff_of_false ?_ (List.cons_ne_nil c cs)
    rw [takeLine]
    split_ifs with hc
    · exact not_false
    · exact not_false

theorem takeLine_eof (room : ℕ) (cs : List UInt8) (h : (takeLine room cs).2.eof = true) :
    (takeLine room cs).2.rest = [] := by
  induction cs generalizing room with
  | nil =>
    cases room with
    | zero => cases h
    | succ room => rfl
  | cons c cs ih =>
    cases room with
    | zero => cases h
    | succ room =>
      rw [takeLine] at h ⊢
      split_ifs at h ⊢ with hc
      exact ih room h

theorem fgets_nil (room : ℕ) (eof : Bool) :
    fgets (room + 2) ⟨[], eof⟩ = (none, ⟨[], true⟩) := by
  simp [fgets, takeLine]

theorem fgets_of_ne_nil (room : ℕ) {file : File} (h : file.rest ≠ []) :
    fgets (room + 2) file = (some (takeLine (room + 1) file.rest).1,
      ⟨(takeLine (room + 1) file.rest).2.rest,
        file.eof || (takeLine (room + 1) file.rest).2.eof⟩) := by
  have hline := mt (takeLine_eq_nil_iff room file.rest).mp h
  simp [fgets, hline]

theorem takeLine_newline {text : List UInt8} (htext : newline ∉ text) {room : ℕ}
    (h : text.length < room) (rest : List UInt8) :
    takeLine room (text ++ newline :: rest) = (text ++ [newline], ⟨rest, false⟩) := by
  induction text generalizing room with
  | nil =>
    obtain ⟨room, rfl⟩ := Nat.exists_eq_succ_of_ne_zero h.ne'
    rw [List.nil_append, takeLine, if_pos rfl]
    rfl
  | cons c text ih =>
    rw [List.mem_cons, not_or] at htext
    obtain ⟨room, rfl⟩ := Nat.exists_eq_succ_of_ne_zero (Nat.ne_zero_of_lt h)
    rw [List.cons_append, takeLine, if_neg (Ne.symm htext.1),
      ih htext.2 (Nat.lt_of_succ_lt_succ h)]
    rfl

theorem takeLine_last {text : List UInt8} (htext : newline ∉ text) {room : ℕ}
    (h : text.length ≤ room) : ∃ eof, takeLine room text = (text, ⟨[], eof⟩) := by
  induction text generalizing room with
  | nil =>
    cases room with
    | zero => exact ⟨false, rfl⟩
    | succ room => exact ⟨true, rfl⟩
  | cons c text ih =>
    rw [List.mem_cons, not_or] at htext
    obtain ⟨room, rfl⟩ := Nat.exists_eq_succ_of_ne_zero (Nat.ne_zero_of_lt h)
    obtain ⟨eof, hline⟩ := ih htext.2 (Nat.le_of_succ_le_succ h)
    exact ⟨eof, by rw [takeLine, if_neg (Ne.symm htext.1), hline]⟩

end Sginx.Library.Stdio
