import Sginx.Connection
import Sginx.ContentLength

namespace Sginx.Mini

open Sginx.Http (Byte cr lf chr)
open Sginx.Library.CString
open Sginx.Library.Decimal
open Sginx.Library.DotPath

theorem received_line {first : List Byte} (hcr : cr ∉ first) (hlen : first.length < 1023)
    (fd : Stream) : received (sent first ++ (sent crlf ++ fd)) = first := by
  rw [received, getFdLine_short hcr hlen, cells_pieceRead _ (Nat.zero_add _).le, List.drop_zero,
    List.take_length]

theorem drain_whole {σ : Type} (body : CharBuf → σ → CharBuf × σ) {lines : List (List Byte)}
    (hcr : ∀ line ∈ lines, cr ∉ line) (hlf : ∀ line ∈ lines, lf ∉ line)
    (hwhole : ∀ line ∈ lines, line.length % 1023 ≠ 0) (rest : Stream) (buf : CharBuf) (s : σ) :
    ∃ buf' s', drain body (sent (headerText lines) ++ rest) buf s = some (rest, buf', s') := by
  induction lines generalizing buf s with
  | nil =>
    obtain ⟨buf', h⟩ := drain_empty body rest buf s
    exact ⟨buf', s, h⟩
  | cons line lines ih =>
    rw [List.forall_mem_cons] at hcr hlf hwhole
    have htext : sent (headerText (line :: lines)) ++ rest =
        sent line ++ (sent crlf ++ (sent (headerText lines) ++ rest)) := by
      simp [headerText, sent]
    obtain ⟨buf₁, s₁, h⟩ := drain_line body hcr.1 hlf.1 (sent (headerText lines) ++ rest) buf s
    rw [htext, h, if_neg hwhole.1]
    exact ih hcr.2 hlf.2 hwhole.2 buf₁ s₁

theorem literal_typeWord_iff (line : List Byte) :
    strcasecmp (literal (typeWord line)) post = 0 ↔ Named line post := by
  rw [strcasecmp_text (fun _ _ => rfl) (by decide), typeWord, List.takeWhile_takeWhile, Named]
  simp

def clientBytes (events : List CgiEvent) : List Byte :=
  events.flatMap fun
    | .toClient bytes => bytes
    | _ => []

theorem clientBytes_append (xs ys : List CgiEvent) :
    clientBytes (xs ++ ys) = clientBytes xs ++ clientBytes ys := List.flatMap_append

theorem clientBytes_relayOutput (output : List Byte) :
    clientBytes (relayOutput output) = output := by
  induction output with
  | nil => rfl
  | cons b output ih => exact congrArg (b :: ·) ih

theorem clientBytes_relayBody (n : ℕ) (fd : Stream) (c : Byte) :
    clientBytes (relayBody n fd c).1 = [] := by
  apply List.flatMap_eq_nil_iff.mpr
  intro event hevent
  obtain ⟨b, rfl⟩ := mem_relayBody hevent
  rfl

theorem clientBytes_relayEvents (total : ℕ) (fd : Stream) (c : Byte) (output : List Byte) :
    clientBytes (relayEvents total fd c output) = okLine ++ output := by
  have hrest : clientBytes ((relayBody total fd c).1 ++ relayEnd output) = output := by
    rw [clientBytes_append, clientBytes_relayBody, relayEnd, clientBytes_append,
      clientBytes_relayOutput]
    simp [clientBytes]
  exact congrArg (okLine ++ ·) hrest

/-- A request with one `Content-Length`, for a file that exists, whose program can be started. No
line of the header ends where a piece of 1023 bytes does. -/
structure Posting {σ : Type} (site : Site σ) (first : List Byte) (before : List HeaderLine) (line : HeaderLine)
    (after : List HeaderLine) : Prop where
  cr_notMem : cr ∉ first
  short : first.length < 1023
  named : Named first post
  inLine : 31 ≤ first.length ∨ ∃ c ∈ first, shIsspace c = true
  found : (site.stat (dot :: target first)).isSome
  starts : (site.cgi (dot :: target first)).Starts
  isContentLength : line.IsContentLength
  hasNumber : line.HasNumber
  before_not : ∀ other ∈ before, ¬ other.IsContentLength
  after_not : ∀ other ∈ after, ¬ other.IsContentLength
  whole : ∀ other ∈ before ++ line :: after, other.text.length % 1023 ≠ 0

def posted (first : List Byte) (lines : List HeaderLine) (rest : Stream) : Stream :=
  sent first ++ (sent crlf ++ (sent (headerText (lines.map HeaderLine.text)) ++ rest))

section posting

variable {σ : Type} {site : Site σ} {first : List Byte} {before after : List HeaderLine} {line : HeaderLine}

theorem Posting.headed_length (h : Posting site first before line after) {text : List Byte}
    (htext : text ∈ (before ++ line :: after).map HeaderLine.text) (hhead : Headed text) :
    text.length ≠ 15 := by
  obtain ⟨other, hother, rfl⟩ := List.mem_map.mp htext
  have hcontent := HeaderLine.headed_text_iff.mp hhead
  have hline : other = line := by
    rcases List.mem_append.mp hother with hmem | hmem
    · exact absurd hcontent (h.before_not other hmem)
    · rcases List.mem_cons.mp hmem with heq | hmem
      · exact heq
      · exact absurd hcontent (h.after_not other hmem)
  have hpos := List.length_pos_iff.mpr h.hasNumber.ne_nil
  rw [hline, HeaderLine.text, List.length_append, h.isContentLength.length_eq, List.length_append]
  omega

theorem Posting.headers (h : Posting site first before line after) (rest : Stream) (buf : CharBuf) :
    ∃ buf' contlen, postHeaders
        (sent (headerText ((before ++ line :: after).map HeaderLine.text)) ++ rest) buf =
          some (rest, buf', contlen) ∧
      (contlen = decimal line.value ↔ LengthTaken before line after) := by
  have hcr : ∀ text ∈ (before ++ line :: after).map HeaderLine.text, cr ∉ text :=
    List.forall_mem_map.mpr fun line _ => line.cr_notMem_text
  have hlf : ∀ text ∈ (before ++ line :: after).map HeaderLine.text, lf ∉ text :=
    List.forall_mem_map.mpr fun line _ => line.lf_notMem_text
  obtain ⟨buf', contlen, hwhole⟩ :=
    drain_whole postHeader hcr hlf (List.forall_mem_map.mpr h.whole) rest buf (-1)
  obtain ⟨fd', buf'', hlines⟩ :=
    postHeader_lines hcr hlf (fun _ => h.headed_length) rest buf (-1)
  have hcontlen := congrArg (fun answer => answer.2.2) (Option.some.inj (hwhole.symm.trans hlines))
  dsimp only at hcontlen
  refine ⟨buf', contlen, hwhole, ?_⟩
  rw [hcontlen]
  exact keepLast_lines_iff h.isContentLength h.hasNumber h.before_not h.after_not

def Site.posted (site : Site σ) (first : List Byte) : σ :=
  site.start (dot :: target first) (typeWord first) (queryText first)

theorem Posting.serves (h : Posting site first before line after) (rest : Stream)
    (buf type path inner : CharBuf) {start : CgiStart} {rest' : Stream}
    (hrun : sgxRequestCgi (site.cgi (dot :: target first)) (literal (typeWord first))
      (sent (headerText ((before ++ line :: after).map HeaderLine.text)) ++ rest) inner =
        some (start, rest')) :
    serveConnection site (posted first (before ++ line :: after) rest) buf type path inner =
      some ([.event (.stat (dot :: target first))] ++
        (start.parts rest' (site.posted first) ++ [.event .close])) := by
  obtain ⟨mode, hstat⟩ := Option.isSome_iff_exists.mp h.found
  have hreceived : received (posted first (before ++ line :: after) rest) = first :=
    received_line h.cr_notMem h.short _
  have hdispatch : dispatch site.stat first = [.stat (dot :: target first),
      .requestCgi (dot :: target first) (typeWord first) (queryText first), .close] := by
    rw [dispatch, if_neg (not_not.mpr (show Accepted first from .inl h.named))]
    dsimp only
    rw [hstat]
    exact if_pos (.inl (.inl h.named))
  have hends : Accepted (received (posted first (before ++ line :: after) rest)) →
      31 ≤ (received (posted first (before ++ line :: after) rest)).length ∨
        ∃ c ∈ received (posted first (before ++ line :: after) rest), shIsspace c = true := by
    rw [hreceived]
    exact fun _ => h.inLine
  have hcarried : carryOut site
      (sent (headerText ((before ++ line :: after).map HeaderLine.text)) ++ rest) inner
      (.requestCgi (dot :: target first) (typeWord first) (queryText first)) =
        some (start.parts rest' (site.posted first)) := by
    rw [carryOut, hrun]
    rfl
  have hrest : (sgxGetFdLine (posted first (before ++ line :: after) rest) buf intBuf).2.2 =
      sent (headerText ((before ++ line :: after).map HeaderLine.text)) ++ rest := by
    rw [posted, getFdLine_short h.cr_notMem h.short]
  rw [serveConnection_eq site _ buf type path inner hends, hreceived, hdispatch, hrest,
    carryOutAll_answer site _ inner hcarried]

theorem programEvents_answer (path : List Byte) (between : List ConnectionEvent) :
    programEvents ([.stat path] ++ (between ++ [.close])) = programEvents between := by
  simp [programEvents, List.filterMap_append]

theorem follows_forked {total : ℕ} {rest : Stream} {x : σ} {c : Byte}
    {between : List ConnectionEvent}
    (h : Follows site c ((CgiStart.forked total).parts rest x) between) :
    childInput (programEvents between) = relayed total rest c ∧
      ∃ ops, Calls site.program x (relayed total rest c) ops ∧
        clientBytes (programEvents between) = okLine ++ outputs ops := by
  cases h with
  | exchange hrun hreturned h =>
    cases h
    obtain ⟨ops, hcalls, houtputs⟩ := calls_of_returned hrun hreturned
    rw [List.append_nil, programEvents_map, hrun.sound.events_returned hreturned, ← houtputs]
    exact ⟨childInput_relayEvents .., ops, hcalls, clientBytes_relayEvents ..⟩

theorem posted_body_iff (h : Posting site first before line after)
    (hpos : 0 < decimal line.value) {body : List Byte} (hbody : decimal line.value ≤ body.length)
    (tail : Stream) (buf type path inner : CharBuf) (c : Byte) :
    (∃ parts ops,
      serveConnection site (posted first (before ++ line :: after) (sent body ++ tail)) buf type
        path inner = some parts ∧ Finishes site c parts ∧
      Calls site.program (site.posted first) (body.take (decimal line.value)) ops ∧
      ∀ events, Follows site c parts events →
        childInput (programEvents events) = body.take (decimal line.value) ∧
        clientBytes (programEvents events) = okLine ++ outputs ops) ↔
      LengthTaken before line after ∧
        ∃ ops, Calls site.program (site.posted first) (body.take (decimal line.value)) ops ∧
          Completes ops (decimal line.value) site.outRoom site.inRoom := by
  obtain ⟨buf', contlen, hheaders, hiff⟩ := h.headers (sent body ++ tail) inner
  have hrun : sgxRequestCgi (site.cgi (dot :: target first)) (literal (typeWord first))
      (sent (headerText ((before ++ line :: after).map HeaderLine.text)) ++ (sent body ++ tail))
      inner = some (if contlen = -1 then .returned [.rsp400] else .forked contlen.toNat,
        sent body ++ tail) := by
    rw [sgxRequestCgi, if_pos ((literal_typeWord_iff first).mpr h.named), hheaders]
    dsimp only [Option.map_some]
    rw [forkCgi_starts h.starts]
    split_ifs <;> rfl
  have hserves := h.serves (sent body ++ tail) buf type path inner hrun
  rw [← hiff, hserves]
  constructor
  · rintro ⟨parts, ops, hparts, hfinishes, hcalls, hfollows⟩
    obtain rfl := Option.some.inj hparts
    obtain ⟨events, hevents⟩ := hfinishes.exists_follows
    have hinput := (hfollows events hevents).1
    obtain ⟨between, hbetween, rfl⟩ := (follows_answer_iff site).mp hevents
    rw [programEvents_answer] at hinput
    rw [finishes_answer_iff, finishes_parts_iff] at hfinishes
    have hlen : (body.take (decimal line.value)).length = decimal line.value := by
      rw [List.length_take]
      omega
    by_cases hnone : contlen = -1
    · rw [if_pos hnone] at hbetween
      have hevents := (@follows_events_iff σ site c [.cgi .rsp400] _).mp hbetween
      rw [hevents] at hinput
      rw [← hinput] at hlen
      exact absurd hlen (Nat.ne_of_lt hpos)
    · rw [if_neg hnone] at hbetween hfinishes
      have hbytes := (follows_forked hbetween).1.symm.trans hinput
      have htotal := congrArg List.length hbytes
      rw [length_relayed, hlen] at htotal
      obtain ⟨ops', hcalls', hcompletes⟩ := hfinishes _ rfl
      rw [hbytes] at hcalls'
      rw [htotal] at hcompletes
      exact ⟨by omega, ops', hcalls', hcompletes⟩
  · rintro ⟨rfl, ops, hcalls, hcompletes⟩
    have hsome : (decimal line.value : ℤ) ≠ -1 := by omega
    have hbytes := relayed_sent hbody tail c
    refine ⟨_, ops, rfl, ?_, hcalls, ?_⟩
    · rw [finishes_answer_iff, finishes_parts_iff, if_neg hsome]
      rintro total heq
      obtain rfl := CgiStart.forked.inj heq
      rw [Int.toNat_natCast, hbytes]
      exact ⟨ops, hcalls, hcompletes⟩
    · intro events hevents
      obtain ⟨between, hbetween, rfl⟩ := (follows_answer_iff site).mp hevents
      rw [if_neg hsome, Int.toNat_natCast] at hbetween
      obtain ⟨hinput, ops', hcalls', hclient⟩ := follows_forked hbetween
      rw [hbytes] at hinput hcalls'
      obtain rfl := hcalls.unique hcalls'
      rw [programEvents_answer]
      exact ⟨hinput, hclient⟩

end posting

def twoBytes : HeaderLine :=
  ⟨"Content-Length".toList.map chr, " ".toList.map chr, "2".toList.map chr, by decide,
    List.all_eq_true.mp (by decide), by decide, by decide⟩

def postPage : List Byte := "POST /a HTTP/1.1".toList.map chr

def readsTwoSite : Site (List ScriptOp) :=
  { echoSite with start := fun _ _ _ => [.read, .read, .write (chr 'c')] }

theorem posted_body_two_bytes :
    ∃ parts ops, serveConnection readsTwoSite
        (posted postPage ([] ++ twoBytes :: []) (sent [chr 'a', chr 'b'] ++ []))
        (fun _ => 0) (fun _ => 0) (fun _ => 0) (fun _ => 0) = some parts ∧
      Finishes readsTwoSite 0 parts ∧
      Calls readsTwoSite.program (readsTwoSite.posted postPage)
        ([chr 'a', chr 'b'].take (decimal twoBytes.value)) ops ∧
      ∀ events, Follows readsTwoSite 0 parts events →
        childInput (programEvents events) = [chr 'a', chr 'b'].take (decimal twoBytes.value) ∧
        clientBytes (programEvents events) = okLine ++ outputs ops := by
  have hnumber : twoBytes.HasNumber :=
    ⟨List.cons_ne_nil _ _, List.all_eq_true.mp (by decide), by decide⟩
  have hposting : Posting readsTwoSite postPage [] twoBytes [] := by
    constructor
    · decide
    · decide
    · decide
    · exact .inr ⟨chr ' ', by decide, by decide⟩
    · rfl
    · exact ⟨rfl, rfl, rfl⟩
    · rw [HeaderLine.IsContentLength]
      decide
    · exact hnumber
    · exact List.forall_mem_nil _
    · exact List.forall_mem_nil _
    · exact List.forall_mem_singleton.mpr (by decide)
  apply (posted_body_iff hposting (by decide) (by decide) [] _ _ _ _ _).mpr
  refine ⟨?_, [.read, .read, .write (chr 'c')], calls_script (by decide), by decide⟩
  rw [LengthTaken, if_neg (by simp)]
  right
  refine ⟨by decide, .inr ⟨by decide, .inl ?_⟩⟩
  exact List.cons_ne_nil _ _

end Sginx.Mini
