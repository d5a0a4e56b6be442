import Sginx.ParserLoop

/-!
The line reader of `test/sgx_mini.c` and the loops that skip the header lines with it.
-/

namespace Sginx.Mini

open Sginx.Http (Byte cr lf)

/-- What the calls of `read` and `recv` answer that take one byte from the socket: the byte, or
nothing at an error. At the end they answer nothing. -/
abbrev Stream := List (Option Byte)

def read : Stream → Option Byte × Stream
  | [] => (none, [])
  | answer :: fd => (answer, fd)

def peek : Stream → Option Byte × Stream
  | [] => (none, [])
  | none :: fd => (none, fd)
  | some c :: fd => (some c, some c :: fd)

/-- The memory behind a `char` array. -/
abbrev CharBuf := ℕ → Byte

def cells (buf : CharBuf) (i n : ℕ) : List Byte := (List.range' i n).map buf

theorem cells_append (buf : CharBuf) (i n m : ℕ) :
    cells buf i n ++ cells buf (i + n) m = cells buf i (n + m) := by
  rw [cells, cells, cells, ← List.map_append, List.range'_append_1]

/-- The string at `buf + i`, of which `room` bytes are looked at for the `NUL`. -/
def cString (buf : CharBuf) (i room : ℕ) : List Byte := (cells buf i room).takeWhile (· ≠ 0)

def strlen (buf : CharBuf) (i room : ℕ) : ℕ := (cString buf i room).length

theorem cells_congr {buf buf' : CharBuf} {i n : ℕ}
    (h : ∀ j, i ≤ j → j < i + n → buf j = buf' j) : cells buf i n = cells buf' i n := by
  apply List.map_congr_left
  intro j hj
  rw [List.mem_range'_1] at hj
  exact h j hj.1 hj.2

theorem length_cells (buf : CharBuf) (i n : ℕ) : (cells buf i n).length = n := by
  rw [cells, List.length_map, List.length_range']

theorem cells_take (buf : CharBuf) {i n m : ℕ} (h : m ≤ n) :
    (cells buf i n).take m = cells buf i m := by
  rw [cells, ← List.map_take, List.take_range'_of_length_ge h, cells]

theorem cells_strlen (buf : CharBuf) (i room : ℕ) :
    cells buf i (strlen buf i room) = cString buf i room := by
  have hpre : cString buf i room <+: cells buf i room := List.takeWhile_prefix _
  have hlen : strlen buf i room ≤ room := hpre.length_le.trans_eq (length_cells buf i room)
  rw [← cells_take buf hlen]
  exact (List.prefix_iff_eq_take.mp hpre).symm

def intBuf : ℤ := 1024

/-- `room` is what `sgx_size` leaves for `sgx_tail`. -/
def getFdLineLoop : ℕ → Stream → CharBuf → ℕ → CharBuf × ℕ × Stream
  | 0, fd, buf, tail => (buf, tail, fd)
  | room + 1, fd, buf, tail =>
    match read fd with
    | (none, fd) => (buf, tail, fd)
    | (some c, fd) =>
      if c = cr then
        match peek fd with
        | (none, fd) => (Function.update buf tail lf, tail + 1, fd)
        | (some c', fd) =>
          if c' = lf then (buf, tail, (read fd).2)
          else (Function.update buf tail lf, tail + 1, fd)
      else getFdLineLoop room fd (Function.update buf tail c) (tail + 1)

def sgxGetFdLine (fd : Stream) (buf : CharBuf) (size : ℤ) : ℕ × CharBuf × Stream :=
  let (buf, tail, fd) := getFdLineLoop (size - 1).toNat fd buf 0
  (tail, Function.update buf tail 0, fd)

def isNewline (buf : CharBuf) : Bool := buf 0 = lf ∧ buf 1 = 0

/-- `while(sgx_get_fd_line(fd, buf, 1024) > 0 && strcmp("\n", buf))` around a body that may change
the buffer and what `σ` holds. -/
def drainLoop {σ : Type} (body : CharBuf → σ → CharBuf × σ) :
    ℕ → Stream → CharBuf → σ → Option (Stream × CharBuf × σ)
  | 0, _, _, _ => none
  | fuel + 1, fd, buf, s =>
    let (n, buf, fd) := sgxGetFdLine fd buf intBuf
    if 0 < n ∧ ¬ isNewline buf then
      let (buf, s) := body buf s
      drainLoop body fuel fd buf s
    else some (fd, buf, s)

def drain {σ : Type} (body : CharBuf → σ → CharBuf × σ) (fd : Stream) (buf : CharBuf) (s : σ) :
    Option (Stream × CharBuf × σ) :=
  drainLoop body (fd.length + 1) fd buf s

/-- The loop of `sgx_send_file`, of `sgx_request_accept` for a missing file, and of
`sgx_request_cgi` for a `GET`. -/
def skipHeaders (fd : Stream) (buf : CharBuf) : Option (Stream × CharBuf × Unit) :=
  drain (fun buf s => (buf, s)) fd buf ()

end Sginx.Mini
