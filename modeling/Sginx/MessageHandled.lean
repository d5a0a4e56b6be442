import Sginx.HeaderTraversal
import Sginx.HttpMessages
import Sginx.KeepAlive

namespace Sginx.Http

open Sginx.Library.CString Sginx.Library.LinkedRing Sginx.Library.RingBuffer

def Message.Straight (message : Message) (request : SgxHttpRequest) : Prop :=
  request.pos % sgxMaxBuf + message.bytes.length ≤ sgxMaxBuf

instance (message : Message) (request : SgxHttpRequest) : Decidable (message.Straight request) :=
  inferInstanceAs (Decidable (_ ≤ _))

def Begins (fold : Byte → Byte) (text name : List Byte) : Prop :=
  text.map fold <+: (name ++ [0]).map fold ∨ (name ++ [0]).map fold <+: text.map fold

instance (fold : Byte → Byte) (text name : List Byte) : Decidable (Begins fold text name) :=
  inferInstanceAs (Decidable (_ ∨ _))

def handlersOf (key : List Byte) : List (List Byte) :=
  if Begins id key hostName then [hostName]
  else if Begins id key connectionName then [connectionName]
  else if Begins id key ifModifiedSinceName then [ifModifiedSinceName]
  else []

def Message.AsksToStay (message : Message) : Prop :=
  ∃ header ∈ message.headers,
    handlersOf header.1 = [connectionName] ∧ Begins tolower header.2 keepAliveText

theorem ptrDiff_straight {i n : ℕ} (h : i % sgxMaxBuf + n < sgxMaxBuf) :
    ptrDiff (ptrAt (i + n)) (ptrAt i) = n := by
  have hdiff : ptrDiff (ptrAt (i + n)) (ptrAt i) =
      ((i + n) % sgxMaxBuf : ℕ) - (i % sgxMaxBuf : ℕ) := rfl
  rw [hdiff, Nat.add_mod, Nat.mod_eq_of_lt (show n < sgxMaxBuf by omega), Nat.mod_eq_of_lt h]
  omega

theorem lineStarts_within {pos : ℕ} {lines : List SectionLine} {p : ℕ × SectionLine}
    (hp : p ∈ lineStarts pos lines) : pos ≤ p.1 ∧
      p.1 + p.2.bytes.length ≤ pos + (lines.map SectionLine.bytes).flatten.length := by
  induction lines generalizing pos with
  | nil => cases hp
  | cons line lines ih =>
    rw [List.map_cons, List.flatten_cons, List.length_append]
    rcases List.mem_cons.mp hp with rfl | hp
    · exact ⟨le_refl pos, by dsimp only; omega⟩
    · have hrest := ih hp
      omega

structure StraightEntry (p : ℕ × SectionLine) : Prop where
  key : ptrDiff (lineEntry p).keyEnd (lineEntry p).keyStart = p.2.key.length
  value : ptrDiff (lineEntry p).valueEnd (lineEntry p).valueStart = p.2.value.length

theorem straight_entry {p : ℕ × SectionLine} {pos n : ℕ} (hpos : pos ≤ p.1)
    (hend : p.1 + p.2.bytes.length ≤ pos + n) (hstraight : pos % sgxMaxBuf + n ≤ sgxMaxBuf) :
    StraightEntry p := by
  have hcount := p.2.bytes_length 0
  have hstop : 0 < (lineStop p.2.crlf).length := by cases p.2.crlf <;> decide
  have hoffset : p.2.key.length < p.2.valueOffset := by
    simp only [HeaderLine.valueOffset]
    omega
  obtain ⟨k, hk⟩ := Nat.exists_eq_add_of_le hpos
  have hin {i : ℕ} (hi : p.1 + i < pos + n) : (p.1 + i) % sgxMaxBuf = pos % sgxMaxBuf + k + i := by
    rw [hk, Nat.add_assoc, Nat.add_mod, Nat.mod_eq_of_lt (show k + i < sgxMaxBuf by omega),
      Nat.mod_eq_of_lt (by omega), Nat.add_assoc]
  constructor
  · apply ptrDiff_straight
    rw [← Nat.add_zero p.1, hin (by omega)]
    omega
  · apply ptrDiff_straight
    rw [hin (by omega)]
    omega

theorem textTaken_iff {fold : Byte → Byte} {env : HandleEnv} {start stop : Ptr}
    {text name : List Byte} (h : ptrDiff stop start = text.length) :
    TextTaken fold env start stop text name ↔ Begins fold text name := by
  rw [TextTaken, h, if_neg (by omega)]
  rfl

theorem nameMatches_line {env : HandleEnv} {p : ℕ × SectionLine}
    (hparsed : Parsed env.request ⟨lineEntry p, p.2.key, p.2.value⟩) (h : StraightEntry p)
    {name : List Byte} (hname : name ∈ handlerNames) :
    nameMatches env (lineEntry p) name = true ↔ Begins id p.2.key name := by
  rw [nameMatches_iff hparsed hname]
  exact textTaken_iff h.key

theorem runsFor_line {env : HandleEnv} {p : ℕ × SectionLine}
    (hparsed : Parsed env.request ⟨lineEntry p, p.2.key, p.2.value⟩) (h : StraightEntry p) :
    runsFor env (lineEntry p) = handlersOf p.2.key := by
  rw [runsFor, handlersOf]
  simp only [nameMatches_line hparsed h (show hostName ∈ handlerNames by decide),
    nameMatches_line hparsed h (show connectionName ∈ handlerNames by decide),
    nameMatches_line hparsed h (show ifModifiedSinceName ∈ handlerNames by decide)]

theorem saysKeepAlive_line {env : HandleEnv} {p : ℕ × SectionLine}
    (hparsed : Parsed env.request ⟨lineEntry p, p.2.key, p.2.value⟩) (h : StraightEntry p) :
    saysKeepAlive env (lineEntry p) ↔ Begins tolower p.2.value keepAliveText := by
  rw [saysKeepAlive_iff hparsed]
  exact textTaken_iff h.value

theorem Message.Straight.entries {message : Message} {request : SgxHttpRequest}
    (h : message.Straight request) :
    ∀ p ∈ lineStarts (request.pos + message.line.bytes.length + message.text.ends.length)
      message.text.lines, StraightEntry p := by
  intro p hp
  obtain ⟨hpos, hend⟩ := lineStarts_within hp
  have hin : p.1 + p.2.bytes.length ≤ request.pos + message.bytes.length := by
    simp only [Message.bytes, SectionText.bytes, List.length_append]
    omega
  exact straight_entry (by omega) hin h

structure Tells (message : Message) (env : HandleEnv) (entries : List SgxHttpHeader) : Prop where
  runs : entries.map (runsFor env) =
    (message.headers.map fun header => handlersOf header.1).reverse
  keepAlive : (∃ head ∈ entries, runsFor env head = [connectionName] ∧ saysKeepAlive env head) ↔
    message.AsksToStay

theorem Parses.tells {message : Message} {before after : SgxHttpRequest}
    (h : Parses message before after) (hlist : before.list = [])
    (hlen : before.last ≤ before.pos + sgxMaxBuf) {rest : List Byte}
    (hbytes : unread before = message.bytes ++ rest) (hstraight : message.Straight before)
    {env : HandleEnv} (henv : env.request = after) : Tells message env after.list := by
  have hparsed := h.headers_parsed hlen hbytes
  rw [← henv] at hparsed
  have hlines := hstraight.entries
  have hheaders := kept_headers (before.pos + message.line.bytes.length + message.text.ends.length)
    message.text.lines
  have hkept := h.list
  rw [hlist, List.append_nil] at hkept
  -- the positions do not matter any more
  generalize lineStarts (before.pos + message.line.bytes.length + message.text.ends.length)
    message.text.lines = starts at hparsed hlines hheaders hkept
  have hread : ∀ p ∈ starts.filter saved, runsFor env (lineEntry p) = handlersOf p.2.key ∧
      (saysKeepAlive env (lineEntry p) ↔ Begins tolower p.2.value keepAliveText) := by
    intro p hp
    have hstart := List.mem_of_mem_filter hp
    exact ⟨runsFor_line (hparsed p hstart) (hlines p hstart),
      saysKeepAlive_line (hparsed p hstart) (hlines p hstart)⟩
  constructor
  · rw [hkept, Message.headers, ← hheaders, List.map_reverse, List.map_map, List.map_map]
    congr 1
    apply List.map_congr_left
    exact fun p hp => (hread p hp).1
  · rw [hkept, Message.AsksToStay, Message.headers, ← hheaders]
    simp only [List.mem_reverse, List.mem_map, exists_exists_and_eq_and]
    apply exists_congr
    intro p
    apply and_congr_right
    intro hp
    rw [(hread p hp).1, (hread p hp).2]

def HandledAs (message : Message) (request : SgxHttpRequest) : Prop :=
  ∀ (env : HandleEnv) {α : Type} [DecidableEq α] (free : NodeMemory α → α → NodeMemory α)
    (mem : NodeMemory α) (head : α) (xs : List α) (headers : α → SgxHttpHeader) (l : Links α)
    (fuel : ℕ) (out : SgxHttpOut) (fd : ℤ), env.request = request → LeavesLink free →
    HeaderList mem head xs headers l → xs.map headers = request.list → xs.length < fuel → ∃ s,
      sgxHttpHandleHeader env free fuel head mem (sgxInitOut out fd).2 = .ok s ∧ s.freed = xs ∧
      s.runs = (message.headers.map fun header => handlersOf header.1).reverse ∧
      (s.out.keepAlive = 1 ↔ message.AsksToStay)

theorem Tells.handled {message : Message} {request : SgxHttpRequest}
    (h : ∀ env : HandleEnv, env.request = request → Tells message env request.list) :
    HandledAs message request := by
  intro env α _ free mem head xs headers l fuel out fd henv hfree hlist hheaders hfuel
  obtain ⟨mem', l', -, hrun⟩ :=
    @handleHeader_leavesLink _ _ env _ _ _ _ _ hfree _ _ (sgxInitOut out fd).2 hlist hfuel
  refine ⟨_, hrun, rfl, ?_, ?_⟩
  · rw [hheaders, handleEntries_runs]
    exact (h env henv).runs
  · have hstart : (sgxInitOut out fd).2.keepAlive ≠ 1 := by
      change (0 : ℤ) ≠ 1
      decide
    rw [hheaders, handleEntries_keepAlive, or_iff_right hstart]
    exact (h env henv).keepAlive

theorem message_handled (message : Message) (rest : List Byte) (request : SgxHttpRequest)
    (hstate : request.state = 0) (hlist : request.list = [])
    (hlen : request.last ≤ request.pos + sgxMaxBuf)
    (hbytes : unread request = message.bytes ++ rest) (hstraight : message.Straight request) :
    ∃ request₁ request₂, sgxHttpParseRequestLine request = (sgxOk, request₁) ∧
      sgxHttpParseRequestBody request₁ = (sgxOk, request₂) ∧ unread request₂ = rest ∧
      HandledAs message request₂ := by
  obtain ⟨request₁, request₂, hline, hbody, h⟩ := message_parses hstate hlen hbytes
  refine ⟨request₁, request₂, hline, hbody, h.unread hbytes rfl, ?_⟩
  exact Tells.handled fun env henv => h.tells hlist hlen hbytes hstraight henv

def stayLine : SectionLine where
  key := connectionName
  spacesBeforeColon := 0
  spacesAfterColon := 1
  value := keepAliveText
  crlf := true
  key_eq := ⟨chr 'C', connectionName.tail, rfl, by decide,
    List.all_iff_forall_prop.mp (by decide)⟩
  value_eq := ⟨chr 'k', keepAliveText.tail, rfl, by decide,
    List.all_iff_forall_prop.mp (by decide)⟩

theorem message_handled_connection :
    let message : Message := ⟨getLine [chr '1'] [chr '0'] mem_major_one mem_minor_zero,
      ⟨[], [stayLine], List.forall_mem_nil _, List.cons_ne_nil _ _, by decide⟩⟩
    let request := append { zeroRequest with pos := 5, last := 5 } message.bytes
    message.AsksToStay ∧ ∃ request₁ request₂,
      sgxHttpParseRequestLine request = (sgxOk, request₁) ∧
      sgxHttpParseRequestBody request₁ = (sgxOk, request₂) ∧ unread request₂ = [] ∧
      HandledAs message request₂ := by
  intro message request
  have hbytes : unread request = message.bytes ++ [] :=
    (unread_append rfl (by decide)).trans (List.append_nil _).symm
  refine ⟨⟨(connectionName, keepAliveText), List.mem_singleton_self _, by decide, by decide⟩, ?_⟩
  exact message_handled message [] request rfl rfl (by decide) hbytes (by decide)

end Sginx.Http
