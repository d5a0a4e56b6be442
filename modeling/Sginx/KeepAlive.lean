import Mathlib.Data.List.Forall2
import Sginx.HeaderNames

namespace Sginx.Http

open Sginx.Library.CString Sginx.Library.RingBuffer

def ValueTaken (env : HandleEnv) (p : ParsedHeader) : Prop :=
  TextTaken tolower env p.head.valueStart p.head.valueEnd p.value keepAliveText

def AsksKeepAlive (p : ParsedHeader) : Prop :=
  p.key = connectionName ∧ p.value.map tolower = keepAliveText.map tolower

structure KeepAliveDecided (env : HandleEnv) (ps : List ParsedHeader) (out : SgxHttpOut) :
    Prop where
  decision : (handleEntries env 0 (ps.map ParsedHeader.head) out).1.keepAlive = 1 ↔
    ∃ p ∈ ps, AsksKeepAlive p
  handlers : List.Forall₂ (fun p runs => List.length runs ≤ 1 ∧ ∀ name ∈ runs, name = p.key) ps
    (handleEntries env 0 (ps.map ParsedHeader.head) out).2

def saysKeepAlive (env : HandleEnv) (head : SgxHttpHeader) : Prop :=
  strncasecmp (literal keepAliveText) (env.chars head.valueStart)
    (sizeOfInt (cInt (ptrDiff head.valueEnd head.valueStart))) = 0

theorem sinceHandler_keepAlive (call : HandlerCall) (out : SgxHttpOut) :
    (sgxHttpProcessIfModifiedSince call out).keepAlive = out.keepAlive := by
  rcases sinceHandler_cases call out with h | h <;> rw [h]

theorem connectionHandler_keepAlive (env : HandleEnv) (tm : Tm) (head : SgxHttpHeader)
    (out : SgxHttpOut) : (sgxHttpProcessConnection (callFor env tm head) out).keepAlive = 1 ↔
      out.keepAlive = 1 ∨ saysKeepAlive env head := by
  rw [sgxHttpProcessConnection]
  split_ifs with hsays
  · exact ⟨fun _ => .inr hsays, fun _ => rfl⟩
  · exact ⟨fun h => .inl h, fun h => h.resolve_right hsays⟩

theorem handleEntry_keepAlive (env : HandleEnv) (tm : Tm) (head : SgxHttpHeader)
    (out : SgxHttpOut) : (handleEntry env tm head out).1.keepAlive = 1 ↔
      out.keepAlive = 1 ∨ runsFor env head = [connectionName] ∧ saysKeepAlive env head := by
  have hhost : hostName ≠ connectionName := by decide
  have hsince : ifModifiedSinceName ≠ connectionName := by decide
  rw [handleEntry_eq, runsFor]
  split_ifs
  · simp [hhost]
  · simp [connectionHandler_keepAlive]
  · simp [sinceHandler_keepAlive, hsince]
  · simp

theorem handleEntries_keepAlive (env : HandleEnv) (k : ℕ) (heads : List SgxHttpHeader)
    (out : SgxHttpOut) : (handleEntries env k heads out).1.keepAlive = 1 ↔
      out.keepAlive = 1 ∨
        ∃ head ∈ heads, runsFor env head = [connectionName] ∧ saysKeepAlive env head := by
  induction heads generalizing k out with
  | nil => simp [handleEntries]
  | cons head rest ih =>
    rw [handleEntries, ih, handleEntry_keepAlive, or_assoc, List.exists_mem_cons_iff]

theorem saysKeepAlive_iff {env : HandleEnv} {p : ParsedHeader} (h : Parsed env.request p) :
    saysKeepAlive env p.head ↔ ValueTaken env p := by
  have hint : cInt (ptrDiff p.head.valueEnd p.head.valueStart) =
      ptrDiff p.head.valueEnd p.head.valueStart := by
    have hbounds := ptrDiff_bounds h.value
    apply Int.bmod_eq_of_le <;> omega
  rw [saysKeepAlive, hint, strncasecmp_eq_zero_iff (by decide), agreeTo_slice h.value (by decide)]
  rfl

theorem keep_alive_decided_iff {env : HandleEnv} {ps : List ParsedHeader}
    (hparsed : ∀ p ∈ ps, Parsed env.request p) (out : SgxHttpOut) (fd : ℤ) :
    KeepAliveDecided env ps (sgxInitOut out fd).2 ↔
      (∀ p ∈ ps, ∀ name ∈ handlerNames, KeyTaken env p name → p.key = name) ∧
      ((∃ p ∈ ps, KeyTaken env p connectionName ∧ ValueTaken env p) ↔ ∃ p ∈ ps, AsksKeepAlive p) := by
  have hruns : (handleEntries env 0 (ps.map ParsedHeader.head) (sgxInitOut out fd).2).2 =
      ps.map (fun p => runsFor env p.head) := by
    rw [handleEntries_runs, List.map_map]
    rfl
  have hhandlers : List.Forall₂ (fun p runs => List.length runs ≤ 1 ∧ ∀ name ∈ runs, name = p.key) ps
      (handleEntries env 0 (ps.map ParsedHeader.head) (sgxInitOut out fd).2).2 ↔
      ∀ p ∈ ps, WholeName env p := by
    rw [hruns, List.forall₂_map_right_iff, List.forall₂_same]
    exact forall₂_congr fun p hp => wholeName_iff (hparsed p hp)
  have hdecision (hwhole : ∀ p ∈ ps, WholeName env p) :
      (handleEntries env 0 (ps.map ParsedHeader.head) (sgxInitOut out fd).2).1.keepAlive = 1 ↔
        ∃ p ∈ ps, KeyTaken env p connectionName ∧ ValueTaken env p := by
    have hstart : (sgxInitOut out fd).2.keepAlive ≠ 1 := by
      change (0 : ℤ) ≠ 1
      decide
    rw [handleEntries_keepAlive, or_iff_right hstart]
    simp only [List.mem_map, exists_exists_and_eq_and]
    refine exists_congr fun p => and_congr_right fun hp => ?_
    rw [runsFor_eq_iff (hparsed p hp) (hwhole p hp) (by decide), saysKeepAlive_iff (hparsed p hp)]
  constructor
  · intro h
    have hwhole := hhandlers.mp h.handlers
    exact ⟨hwhole, (hdecision hwhole).symm.trans h.decision⟩
  · rintro ⟨hwhole, hasks⟩
    exact ⟨(hdecision hwhole).trans hasks, hhandlers.mpr hwhole⟩

theorem keep_alive_decided_iff_one_header :
    let env := plainEnv (storedRequest connectionName keepAliveText)
    let p := storedHeader connectionName keepAliveText
    Parsed env.request p ∧ (KeepAliveDecided env [p] (sgxInitOut ⟨0, 0, 0, 0, 0⟩ 5).2 ↔
      (∀ q ∈ [p], ∀ name ∈ handlerNames, KeyTaken env q name → q.key = name) ∧
      ((∃ q ∈ [p], KeyTaken env q connectionName ∧ ValueTaken env q) ↔
        ∃ q ∈ [p], AsksKeepAlive q)) := by
  intro env p
  have hp : Parsed env.request p := storedHeader_parsed (by decide)
  refine ⟨hp, keep_alive_decided_iff (fun q hq => ?_) ⟨0, 0, 0, 0, 0⟩ 5⟩
  rwa [List.mem_singleton.mp hq]

theorem one_letter_key_keeps_alive :
    let env := plainEnv (storedRequest [chr 'C'] keepAliveText)
    let p := storedHeader [chr 'C'] keepAliveText
    Parsed env.request p ∧ ¬ KeepAliveDecided env [p] (sgxInitOut ⟨0, 0, 0, 0, 0⟩ 5).2 := by
  intro env p
  refine ⟨storedHeader_parsed (by decide), fun h => ?_⟩
  have hone : (handleEntries env 0 [p.head] (sgxInitOut ⟨0, 0, 0, 0, 0⟩ 5).2).1.keepAlive = 1 := by
    decide
  obtain ⟨q, hq, hkey, -⟩ := h.decision.mp hone
  rw [List.mem_singleton.mp hq] at hkey
  exact absurd hkey (by decide)

end Sginx.Http
