import Sginx.FollowedParser

namespace Sginx.Http

open Sginx.Library.RingBuffer Sginx.Library.Scanning

theorem switchMethod_method (request : SgxHttpRequest) (p : Ptr) :
    ∃ method, switchMethod request p = { request with method := method } := by
  unfold switchMethod
  dsimp only
  split
  · split_ifs
    · exact ⟨_, rfl⟩
    · exact ⟨request.method, rfl⟩
  · split_ifs
    · exact ⟨_, rfl⟩
    · exact ⟨_, rfl⟩
    · exact ⟨request.method, rfl⟩
  · exact ⟨_, rfl⟩

structure SameVersion (request : SgxHttpRequest) (d : LineRegister) : Prop where
  major : request.httpMajor = d.httpMajor
  minor : request.httpMinor = d.httpMinor

theorem lineStep_version (request : SgxHttpRequest) (s : LineState) (pos : ℕ)
    (r : Record LineCursor LineRegister) (h : SameVersion request r.register) :
    let c := request.buf (slot sgxMaxBuf pos)
    ∃ request', lineStep request s pos = stepTo request' (lineNext s c) ∧
      SameRing request' request ∧ SameVersion request' (lineFold s c r.register) := by
  obtain ⟨hmajor, hminor⟩ := h
  simp only [lineStep]
  generalize request.buf (slot sgxMaxBuf pos) = c
  cases s with
  | swMethod =>
    simp only [lineNext, lineFold]
    split_ifs with hspace hbad
    · obtain ⟨method, hmethod⟩ := switchMethod_method { request with methodEnd := ptrAt pos } (ptrAt pos)
      rw [hmethod]
      exact ⟨_, rfl, ⟨rfl, rfl, rfl⟩, hmajor, hminor⟩
    · exact ⟨_, rfl, ⟨rfl, rfl, rfl⟩, hmajor, hminor⟩
    · exact ⟨_, rfl, ⟨rfl, rfl, rfl⟩, hmajor, hminor⟩
  | swMajorDigit =>
    simp only [lineNext, lineFold]
    by_cases hdot : c = chr '.'
    · rw [if_pos hdot, if_pos hdot, if_pos (.inl hdot)]
      exact ⟨request, rfl, ⟨rfl, rfl, rfl⟩, hmajor, hminor⟩
    by_cases hbad : notDigit c
    · rw [if_neg hdot, if_neg hdot, if_pos hbad, if_pos hbad, if_pos (.inr hbad)]
      exact ⟨request, rfl, ⟨rfl, rfl, rfl⟩, hmajor, hminor⟩
    · rw [if_neg hdot, if_neg hdot, if_neg hbad, if_neg hbad, if_neg (not_or.mpr ⟨hdot, hbad⟩)]
      exact ⟨_, rfl, ⟨rfl, rfl, rfl⟩, by rw [hmajor], hminor⟩
  | swMinorDigit =>
    simp only [lineNext, lineFold]
    by_cases hother : c = cr ∨ c = lf ∨ c = chr ' ' ∨ notDigit c
    · rw [if_pos hother]
      refine ⟨request, ?_, ⟨rfl, rfl, rfl⟩, hmajor, hminor⟩
      split_ifs with hcr hlf hspace hbad <;> first
        | rfl
        | exact absurd hother (by simp [hcr, hlf, hspace, hbad])
    · rw [if_neg hother]
      obtain ⟨hcr, hlf, hspace, hbad⟩ : c ≠ cr ∧ c ≠ lf ∧ c ≠ chr ' ' ∧ ¬ notDigit c := by
        simpa using hother
      rw [if_neg hcr, if_neg hcr, if_neg hlf, if_neg hlf, if_neg hspace, if_neg hspace,
        if_neg hbad, if_neg hbad]
      exact ⟨_, rfl, ⟨rfl, rfl, rfl⟩, hmajor, by rw [hminor]⟩
  | swFirstMajorDigit =>
    simp only [lineNext, lineFold]
    split_ifs
    · exact ⟨request, rfl, ⟨rfl, rfl, rfl⟩, hmajor, hminor⟩
    · exact ⟨_, rfl, ⟨rfl, rfl, rfl⟩, rfl, hminor⟩
  | swFirstMinorDigit =>
    simp only [lineNext, lineFold]
    split_ifs
    · exact ⟨request, rfl, ⟨rfl, rfl, rfl⟩, hmajor, hminor⟩
    · exact ⟨_, rfl, ⟨rfl, rfl, rfl⟩, hmajor, rfl⟩
  | _ =>
    simp only [lineNext, lineFold]
    split_ifs <;> exact ⟨_, rfl, ⟨rfl, rfl, rfl⟩, hmajor, hminor⟩

theorem lineParser_done_pos (request : SgxHttpRequest) (pos : ℕ) :
    (lineParser.done request pos).pos = pos + 1 := rfl

def versionFollowed : FollowedBy lineParser lineScanner where
  Agrees request _ _ r := SameVersion request r.register
  Ends request _ r := SameVersion request r.register
  Fits _ _ := True
  agrees_moved _ _ _ _ _ _ h := ⟨h.major, h.minor⟩
  agrees_append _ _ _ _ h _ := ⟨h.major, h.minor⟩
  step_eq request s pos r h _ := by
    obtain ⟨request', hstep, hring, hversion⟩ := lineStep_version request s pos r h
    exact ⟨request', hstep, hring, fun _ _ => hversion, fun _ => ⟨hversion.major, hversion.minor⟩⟩
  done_pos := lineParser_done_pos

theorem feed_line_follows (chunks : List (List Byte)) {request : SgxHttpRequest}
    (hlast : request.last = request.pos) (hstate : request.state = LineState.swStart.code)
    (hchunks : ∀ chunk ∈ chunks, chunk.length ≤ sgxMaxBuf) :
    versionFollowed.Follows (feed sgxHttpParseRequestLine request chunks)
      (lineScanner.run request.pos chunks.flatten .swStart
        (Record.empty (lineScanned.register request))) :=
  versionFollowed.feed_follows chunks request .swStart _ hlast hstate ⟨rfl, rfl⟩
    (versionFollowed.fitsAll (fun _ _ => trivial) hchunks)

end Sginx.Http
