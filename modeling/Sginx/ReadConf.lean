import Sginx.HeaderDrain
import Sginx.Library.Decimal
import Sginx.Library.Stdio

/-!
`read_conf` of `core/sgx_util.c`, with `buf` read as `buff`, `cf` as `config` and the first test as
`strncmp("root", cur_pos, 4)`. Addresses count from `buff`, and the memory goes on behind its `len`
bytes.
-/

namespace Sginx.Conf

open Sginx.Http (Byte chr lf)
open Sginx.Library.CString
open Sginx.Library.Decimal (atoi)
open Sginx.Library.Stdio
open Sginx.Mini (CharBuf cString strlen store)

def sgxConfOk : ℤ := 0

def sgxConfError : ℤ := 100

def sgxDelim : Byte := chr '='

def rootKey : List Byte := "root".toList.map chr

def portKey : List Byte := "port".toList.map chr

def threadnumKey : List Byte := "threadnum".toList.map chr

inductive Pointer where
  | buff (offset : ℕ)
  | other (address : ℕ)
deriving DecidableEq, Repr

structure SgxConf where
  root : Pointer
  port : ℤ
  threadNum : ℤ
deriving DecidableEq, Repr

/-- A call of `fgets` with its window and whether it returned a line, or a range of bytes that are
read or written. -/
inductive ConfAccess where
  | window (start size : ℕ) (returned : Bool)
  | bytes (start count : ℕ)
deriving DecidableEq, Repr

structure ConfState where
  buf : CharBuf
  curPos : ℕ
  config : SgxConf
  log : List ConfAccess

/-- `strstr(s, SGX_DELIM)` for the string at `cur_pos`, as an offset from there. -/
def strstr (text : List Byte) : Option ℕ := text.idxOf? sgxDelim

def called (s : ConfState) (size : ℕ) (returned : Bool) : ConfState :=
  { s with log := s.log ++ [.window s.curPos size returned] }

def stored (s : ConfState) (line : List Byte) : ConfState :=
  { s with
    buf := Function.update (store s.buf s.curPos line) (s.curPos + line.length) 0
    log := s.log ++ [.bytes s.curPos (line.length + 1)] }

def setConf (buf : CharBuf) (room curPos value : ℕ) (config : SgxConf) : SgxConf :=
  let at' (name : List Byte) := strncmp (literal name) (fun i => buf (curPos + i)) name.length = 0
  let number := atoi (cString buf value room)
  { root := if at' rootKey then .buff value else config.root
    port := if at' portKey then number else config.port
    threadNum := if at' threadnumKey then number else config.threadNum }

/-- The body of the loop. Of the string, `strstr`, `strncmp` and `atoi` read no other bytes than
`strlen`, which has found its `NUL` within `room` bytes. -/
def confBody (room : ℕ) (s : ConfState) : ConfState × Bool :=
  let lineLen := strlen s.buf s.curPos room
  let s := { s with log := s.log ++ [.bytes s.curPos (lineLen + 1)] }
  match strstr (cString s.buf s.curPos room) with
  | none => (s, false)
  | some delim =>
    let last := s.curPos + (lineLen - 1)
    let s := { s with buf := if s.buf last = lf then Function.update s.buf last 0 else s.buf }
    ({ s with
      config := setConf s.buf room s.curPos (s.curPos + delim + 1) s.config
      curPos := s.curPos + lineLen }, true)

/-- Every round that goes on takes something from the file. -/
def readConfLoop (len pos : ℕ) : ℕ → File → ConfState → Option (ConfState × ℤ)
  | 0, _, _ => none
  | fuel + 1, fp, s =>
    match fgets (len - pos) fp with
    | (none, _) => some (called s (len - pos) false, sgxConfOk)
    | (some line, fp) =>
      let (s, more) := confBody (len - pos) (stored (called s (len - pos) true) line)
      if more then readConfLoop len pos fuel fp s else some (s, sgxConfError)

/-- `content` is that of the file, or nothing where `fopen` fails. -/
def readConf (content : Option (List Byte)) (config : SgxConf) (buff : CharBuf) (len : ℕ) :
    Option (ConfState × ℤ) :=
  match content with
  | none => some (⟨buff, 0, config, []⟩, sgxConfError)
  | some content => readConfLoop len 0 (content.length + 1) (fopen content) ⟨buff, 0, config, []⟩

theorem confBody_more (room : ℕ) (s : ConfState) :
    (confBody room s).2 = true ↔ sgxDelim ∈ cString s.buf s.curPos room := by
  rw [← List.isSome_idxOf?]
  unfold confBody strstr
  dsimp only
  cases (cString s.buf s.curPos room).idxOf? sgxDelim with
  | none => exact iff_of_false Bool.false_ne_true Bool.false_ne_true
  | some delim => exact iff_of_true rfl rfl

theorem confBody_curPos {room : ℕ} {s : ConfState} (h : (confBody room s).2 = true) :
    (confBody room s).1.curPos = s.curPos + strlen s.buf s.curPos room := by
  rw [confBody_more, ← List.isSome_idxOf?] at h
  unfold confBody strstr
  dsimp only
  cases hd : (cString s.buf s.curPos room).idxOf? sgxDelim with
  | none =>
    rw [hd] at h
    cases h
  | some delim => rfl

theorem confBody_log (room : ℕ) (s : ConfState) :
    (confBody room s).1.log = s.log ++ [.bytes s.curPos (strlen s.buf s.curPos room + 1)] := by
  unfold confBody
  dsimp only
  split
  · rfl
  · rfl

section round

variable {len pos fuel : ℕ} {fp fp' : File} {s : ConfState} {line : List Byte}

theorem readConfLoop_none (h : fgets (len - pos) fp = (none, fp')) :
    readConfLoop len pos (fuel + 1) fp s = some (called s (len - pos) false, sgxConfOk) := by
  rw [readConfLoop, h]

theorem readConfLoop_line (h : fgets (len - pos) fp = (some line, fp')) :
    readConfLoop len pos (fuel + 1) fp s =
      let next := confBody (len - pos) (stored (called s (len - pos) true) line)
      if next.2 then readConfLoop len pos fuel fp' next.1 else some (next.1, sgxConfError) := by
  rw [readConfLoop, h]

end round

end Sginx.Conf
