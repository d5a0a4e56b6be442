import Mathlib.Data.List.Basic
import Mathlib.Data.List.Count

/-!
Bounded pipes between processes. An end of a pipe is listed once for each descriptor that is open
on it, under the process that has the descriptor.
-/

namespace Sginx.Library.BoundedPipe

/-- `taken` and `content` are what was read and what is still in the pipe, oldest first. -/
structure Pipe (P α : Type*) where
  capacity : ℕ
  readers : List P
  writers : List P
  taken : List α
  content : List α
  content_le : content.length ≤ capacity

inductive ReadAnswer (P α : Type*) where
  | item (a : α) (pipe : Pipe P α)
  | endOfFile
  | blocked

inductive WriteAnswer (P α : Type*) where
  | stored (pipe : Pipe P α)
  | blocked
  -- nobody can read what would be written
  | broken

namespace Pipe

variable {P α : Type*}

def empty (capacity : ℕ) (holders : List P) : Pipe P α :=
  ⟨capacity, holders, holders, [], [], Nat.zero_le _⟩

def written (pipe : Pipe P α) : List α := pipe.taken ++ pipe.content

def read (pipe : Pipe P α) : ReadAnswer P α :=
  match h : pipe.content with
  | a :: content => .item a { pipe with
      taken := pipe.taken ++ [a]
      content := content
      content_le := by
        have hle := pipe.content_le
        rw [h, List.length_cons] at hle
        exact Nat.le_of_succ_le hle }
  | [] => if pipe.writers.isEmpty then .endOfFile else .blocked

def write (pipe : Pipe P α) (a : α) : WriteAnswer P α :=
  if pipe.readers.isEmpty then .broken
  else if h : pipe.content.length < pipe.capacity then
    .stored { pipe with
      content := pipe.content ++ [a]
      content_le := by rw [List.length_append]; exact h }
  else .blocked

section holders

variable [DecidableEq P]

def openReader (pipe : Pipe P α) (p : P) : Pipe P α := { pipe with readers := p :: pipe.readers }

def openWriter (pipe : Pipe P α) (p : P) : Pipe P α := { pipe with writers := p :: pipe.writers }

def closeReader (pipe : Pipe P α) (p : P) : Pipe P α :=
  { pipe with readers := pipe.readers.erase p }

def closeWriter (pipe : Pipe P α) (p : P) : Pipe P α :=
  { pipe with writers := pipe.writers.erase p }

def leave (pipe : Pipe P α) (p : P) : Pipe P α :=
  { pipe with
    readers := pipe.readers.filter (· ≠ p)
    writers := pipe.writers.filter (· ≠ p) }

end holders

variable {pipe pipe' : Pipe P α} {a : α}

theorem of_read_item (h : pipe.read = .item a pipe') :
    pipe.content = a :: pipe'.content ∧ pipe'.taken = pipe.taken ++ [a] ∧
      pipe'.readers = pipe.readers ∧ pipe'.writers = pipe.writers ∧
      pipe'.capacity = pipe.capacity := by
  rw [read] at h
  split at h
  · next b content hcontent =>
    obtain ⟨rfl, rfl⟩ := ReadAnswer.item.inj h
    exact ⟨hcontent, rfl, rfl, rfl, rfl⟩
  · split_ifs at h

theorem of_read_endOfFile (h : pipe.read = .endOfFile) :
    pipe.content = [] ∧ pipe.writers = [] := by
  rw [read] at h
  split at h
  · cases h
  · next hcontent =>
    split_ifs at h with hwriters
    exact ⟨hcontent, List.isEmpty_iff.mp hwriters⟩

theorem read_blocked_iff : pipe.read = .blocked ↔ pipe.content = [] ∧ pipe.writers ≠ [] := by
  rw [read]
  constructor
  · intro h
    split at h
    · cases h
    · next hcontent =>
      split_ifs at h with hwriters
      exact ⟨hcontent, fun hnil => hwriters (List.isEmpty_iff.mpr hnil)⟩
  · rintro ⟨hcontent, hwriters⟩
    split
    · next b content hcons =>
      rw [hcontent] at hcons
      cases hcons
    · exact if_neg (fun hempty => hwriters (List.isEmpty_iff.mp hempty))

theorem read_written (h : pipe.read = .item a pipe') : pipe'.written = pipe.written := by
  obtain ⟨hcontent, htaken, -⟩ := of_read_item h
  rw [written, written, htaken, hcontent, List.append_assoc]
  rfl

theorem of_write_stored (h : pipe.write a = .stored pipe') :
    pipe'.content = pipe.content ++ [a] ∧ pipe'.taken = pipe.taken ∧
      pipe'.readers = pipe.readers ∧ pipe'.writers = pipe.writers ∧
      pipe'.capacity = pipe.capacity := by
  rw [write] at h
  split_ifs at h
  obtain rfl := WriteAnswer.stored.inj h
  exact ⟨rfl, rfl, rfl, rfl, rfl⟩

theorem write_blocked_iff :
    pipe.write a = .blocked ↔ pipe.readers ≠ [] ∧ pipe.content.length = pipe.capacity := by
  rw [write]
  constructor
  · intro h
    split_ifs at h with hreaders hroom
    refine ⟨fun hnil => hreaders (List.isEmpty_iff.mpr hnil), ?_⟩
    exact Nat.le_antisymm pipe.content_le (Nat.le_of_not_lt hroom)
  · rintro ⟨hreaders, hfull⟩
    rw [if_neg (fun hempty => hreaders (List.isEmpty_iff.mp hempty)), dif_neg (by omega)]

theorem of_write_broken (h : pipe.write a = .broken) : pipe.readers = [] := by
  rw [write] at h
  split_ifs at h with hreaders
  exact List.isEmpty_iff.mp hreaders

theorem write_written (h : pipe.write a = .stored pipe') :
    pipe'.written = pipe.written ++ [a] := by
  obtain ⟨hcontent, htaken, -⟩ := of_write_stored h
  rw [written, written, hcontent, htaken, List.append_assoc]

end Pipe

end Sginx.Library.BoundedPipe
