import Mathlib.Tactic.IntervalCases
import Sginx.RequestLine

namespace Sginx.Http

open Sginx.Library.RingBuffer Sginx.Library.Scanning

def decimal (digits : List Byte) : ℕ :=
  digits.foldl (fun n c => n * 10 + (c.toNat - (chr '0').toNat)) 0

theorem decimal_foldl (digits : List Byte) (n : ℕ) :
    digits.foldl (fun n c => n * 10 + (c.toNat - (chr '0').toNat)) n =
      n * 10 ^ digits.length + decimal digits := by
  induction digits generalizing n with
  | nil => simp [decimal]
  | cons c digits ih =>
    rw [decimal, List.foldl_cons, List.foldl_cons, ih, ih (0 * 10 + _), List.length_cons, pow_succ]
    ring

theorem decimal_cons (c : Byte) (digits : List Byte) : decimal (c :: digits) =
    (c.toNat - (chr '0').toNat) * 10 ^ digits.length + decimal digits := by
  rw [decimal, List.foldl_cons, decimal_foldl, Nat.zero_mul, Nat.zero_add]

theorem digit_range {c : Byte} (h : notDigit c = false) : 48 ≤ c.toNat ∧ c.toNat ≤ 57 := by
  obtain ⟨hlow, hhigh⟩ := digit_iff.mpr h
  exact ⟨UInt8.le_iff_toNat_le.mp hlow, UInt8.le_iff_toNat_le.mp hhigh⟩

theorem decimal_lt {digits : List Byte} (h : ∀ c ∈ digits, notDigit c = false) :
    decimal digits < 10 ^ digits.length := by
  induction digits with
  | nil => decide
  | cons c digits ih =>
    rw [List.forall_mem_cons] at h
    have hc := digit_range h.1
    have hrest := ih h.2
    have hzero : (chr '0').toNat = 48 := by decide
    have hd : c.toNat - (chr '0').toNat ≤ 9 := by omega
    have hmul := Nat.mul_le_mul_right (10 ^ digits.length) hd
    rw [decimal_cons, List.length_cons, pow_succ]
    omega

theorem foldl_cInt (k : Byte → ℤ) (digits : List Byte) (n : ℤ) :
    digits.foldl (fun n c => cInt (n * 10 + k c)) (cInt n) =
      cInt (digits.foldl (fun n c => n * 10 + k c) n) := by
  induction digits generalizing n with
  | nil => rfl
  | cons c digits ih =>
    have hstep : cInt (cInt n * 10 + k c) = cInt (n * 10 + k c) := by
      unfold cInt
      rw [← Int.bmod_add_bmod, Int.bmod_mul_bmod, Int.bmod_add_bmod]
    rw [List.foldl_cons, List.foldl_cons, hstep, ih]

theorem cInt_of_lt {n : ℕ} (h : n < 2 ^ 31) : cInt n = n := by
  unfold cInt
  apply Int.bmod_eq_of_le <;> omega

def majorSum (n : ℤ) (digits : List Byte) : ℤ :=
  digits.foldl (fun n _ => n * 10 + ((chr 'c').toNat - 0)) n

theorem majorSum_eq (n : ℤ) (digits : List Byte) :
    majorSum n digits = n * 10 ^ digits.length + 11 * (10 ^ digits.length - 1) := by
  have hc : ((chr 'c').toNat : ℤ) = 99 := by decide
  induction digits generalizing n with
  | nil => simp [majorSum]
  | cons c digits ih =>
    rw [majorSum, List.foldl_cons]
    refine (ih _).trans ?_
    rw [hc, List.length_cons, pow_succ]
    ring

theorem majorSum_ne {d r k : ℕ} (hd : 1 ≤ d) (hk : 1 ≤ k) (hr : r < 10 ^ k)
    (hfits : d * 10 ^ k + r < 2 ^ 31) :
    cInt ((d : ℤ) * 10 ^ k + 11 * (10 ^ k - 1)) ≠ ((d * 10 ^ k + r : ℕ) : ℤ) := by
  intro h
  have hpow : 10 ^ k < 10 ^ 10 := by
    have := Nat.mul_le_mul_right (10 ^ k) hd
    omega
  have hlt : k < 10 := (Nat.pow_lt_pow_iff_right (by decide)).mp hpow
  unfold cInt at h
  obtain ⟨-, -, hdvd⟩ := (Int.bmod_eq_iff (by decide)).mp h
  have hdiff : ((d * 10 ^ k + r : ℕ) : ℤ) - ((d : ℤ) * 10 ^ k + 11 * (10 ^ k - 1)) =
      (r : ℤ) - 11 * (10 ^ k - 1) := by
    push_cast
    ring
  rw [hdiff] at hdvd
  clear hdiff h hfits hpow
  -- the difference lies between ten and eleven times `10 ^ k - 1`
  interval_cases k <;> omega

theorem foldl_major (digits : List Byte) (h : ∀ c ∈ digits, notDigit c = false) (d : LineRegister) :
    digits.foldl (fun d c => lineFold .swMajorDigit c d) d =
      { d with httpMajor := digits.foldl (fun n _ => cInt (n * 10 + ((chr 'c').toNat - 0))) d.httpMajor } := by
  induction digits generalizing d with
  | nil => rfl
  | cons c digits ih =>
    rw [List.forall_mem_cons] at h
    have hdot : c ≠ chr '.' := by
      rintro rfl
      exact absurd h.1 (by decide)
    have hfold : lineFold .swMajorDigit c d =
        { d with httpMajor := cInt (d.httpMajor * 10 + ((chr 'c').toNat - 0)) } := by
      simp [lineFold, hdot, h.1]
    rw [List.foldl_cons, List.foldl_cons, hfold, ih h.2]

theorem foldl_minor (digits : List Byte) (h : ∀ c ∈ digits, notDigit c = false) (d : LineRegister) :
    digits.foldl (fun d c => lineFold .swMinorDigit c d) d =
      { d with httpMinor :=
          digits.foldl (fun n c => cInt (n * 10 + (c.toNat - (chr '0').toNat))) d.httpMinor } := by
  induction digits generalizing d with
  | nil => rfl
  | cons c digits ih =>
    rw [List.forall_mem_cons] at h
    obtain ⟨hcr, hlf⟩ := digit_ne h.1
    have hspace : c ≠ chr ' ' := by
      rintro rfl
      exact absurd h.1 (by decide)
    have hfold : lineFold .swMinorDigit c d =
        { d with httpMinor := cInt (d.httpMinor * 10 + (c.toNat - (chr '0').toNat)) } := by
      simp [lineFold, hcr, hlf, hspace, h.1, add_sub_assoc]
    rw [List.foldl_cons, List.foldl_cons, hfold, ih h.2]

theorem decimal_cast (digits : List Byte) (h : ∀ c ∈ digits, notDigit c = false) (n : ℕ) :
    digits.foldl (fun n c => n * 10 + ((c.toNat : ℤ) - (chr '0').toNat)) (n : ℤ) =
      ((digits.foldl (fun n c => n * 10 + (c.toNat - (chr '0').toNat)) n : ℕ) : ℤ) := by
  induction digits generalizing n with
  | nil => rfl
  | cons c digits ih =>
    rw [List.forall_mem_cons] at h
    have hc : (chr '0').toNat ≤ c.toNat := (digit_range h.1).1
    have hstep : (n : ℤ) * 10 + ((c.toNat : ℤ) - (chr '0').toNat) =
        ((n * 10 + (c.toNat - (chr '0').toNat) : ℕ) : ℤ) := by
      push_cast [hc]
      ring
    rw [List.foldl_cons, List.foldl_cons, hstep, ih h.2]

theorem carries_major {d : Byte} {tail : List Byte} (hd : chr '1' ≤ d ∧ d ≤ chr '9')
    (htail : ∀ c ∈ tail, notDigit c = false) :
    ∃ f, lineScanner.Carries .swFirstMajorDigit (d :: tail) .swMajorDigit f ∧
      ∀ reg, (f reg).httpMajor = cInt (majorSum ((d.toNat : ℤ) - (chr '0').toNat) tail) := by
  have hin : ¬ (d < chr '1' ∨ chr '9' < d) := by
    simpa [not_or, UInt8.not_lt] using hd
  have hfirst : lineScanner.Carries .swFirstMajorDigit [d] .swMajorDigit _ :=
    Scanner.Carries.single (by simp [lineScanner, lineNext, hin])
  have hnext : ∀ c ∈ tail, lineScanner.next .swMajorDigit c = .inl .swMajorDigit := by
    intro c hc
    have hdot : c ≠ chr '.' := by
      rintro rfl
      exact absurd (htail _ hc) (by decide)
    simp [lineScanner, lineNext, hdot, htail c hc]
  refine ⟨_, hfirst.append (Scanner.Carries.stay hnext), fun reg => ?_⟩
  refine (congrArg LineRegister.httpMajor (foldl_major tail htail _)).trans ?_
  have hset : (lineScanner.fold .swFirstMajorDigit d reg).httpMajor =
      cInt ((d.toNat : ℤ) - (chr '0').toNat) := by
    simp [lineScanner, lineFold, hin]
  rw [hset]
  exact foldl_cInt (fun _ => (chr 'c').toNat - 0) tail _

theorem carries_minor {d : Byte} {tail : List Byte} (hd : notDigit d = false)
    (htail : ∀ c ∈ tail, notDigit c = false) :
    ∃ f, lineScanner.Carries .swFirstMinorDigit (d :: tail) .swMinorDigit f ∧
      ∀ reg, (f reg).httpMajor = reg.httpMajor ∧ (f reg).httpMinor = cInt (decimal (d :: tail)) := by
  have hfirst : lineScanner.Carries .swFirstMinorDigit [d] .swMinorDigit _ :=
    Scanner.Carries.single (by simp [lineScanner, lineNext, hd])
  have hnext : ∀ c ∈ tail, lineScanner.next .swMinorDigit c = .inl .swMinorDigit := by
    intro c hc
    obtain ⟨hcr, hlf⟩ := digit_ne (htail c hc)
    have hspace : c ≠ chr ' ' := by
      rintro rfl
      exact absurd (htail _ hc) (by decide)
    simp [lineScanner, lineNext, hcr, hlf, hspace, htail c hc]
  refine ⟨_, hfirst.append (Scanner.Carries.stay hnext), fun reg => ?_⟩
  have hset : lineScanner.fold .swFirstMinorDigit d reg =
      { reg with httpMinor := cInt ((d.toNat : ℤ) - (chr '0').toNat) } := by
    simp [lineScanner, lineFold, hd]
  have hfold := foldl_minor tail htail (lineScanner.fold .swFirstMinorDigit d reg)
  rw [hset] at hfold ⊢
  constructor
  · exact (congrArg LineRegister.httpMajor hfold).trans rfl
  · refine (congrArg LineRegister.httpMinor hfold).trans ?_
    refine (foldl_cInt (fun c => (c.toNat : ℤ) - (chr '0').toNat) tail _).trans ?_
    have hcast := decimal_cast (d :: tail) (List.forall_mem_cons.mpr ⟨hd, htail⟩) 0
    rw [decimal, ← hcast, List.foldl_cons, Nat.cast_zero, zero_mul, zero_add]

theorem run_brk {s : LineState} (hs : s = .swMinorDigit ∨ s = .swSpacesAfterDigit)
    {brk : List Byte} (hbrk : brk = [lf] ∨ brk = [cr, lf]) (pos : ℕ) (rest : List Byte)
    (r : Record LineCursor LineRegister) :
    ∃ n r', lineScanner.run pos (brk ++ rest) s r = (.inr .done, n, r') ∧
      r'.register = r.register := by
  rcases hs with rfl | rfl <;> rcases hbrk with rfl | rfl <;> exact ⟨_, _, rfl, rfl⟩

theorem run_terminator {stop : List Byte} (h : stop ∈ terminator) (pos : ℕ) (rest : List Byte)
    (r : Record LineCursor LineRegister) :
    ∃ n r', lineScanner.run pos (stop ++ rest) .swMinorDigit r = (.inr .done, n, r') ∧
      r'.register = r.register := by
  obtain ⟨spaces, brk, rfl, hspaces, hbrk⟩ := mem_terminator h
  cases spaces with
  | nil => exact run_brk (.inl rfl) hbrk pos rest r
  | cons c spaces =>
    rw [List.forall_mem_cons] at hspaces
    obtain ⟨rfl, hspaces⟩ := hspaces
    have hfirst : lineScanner.Carries .swMinorDigit [chr ' '] .swSpacesAfterDigit id :=
      Scanner.Carries.single rfl
    have hnext : ∀ c ∈ spaces, lineScanner.next .swSpacesAfterDigit c = .inl .swSpacesAfterDigit := by
      intro c hc
      rw [hspaces c hc]
      rfl
    obtain ⟨r', hrun, hregister⟩ :=
      (hfirst.append (Scanner.Carries.stay hnext)) pos (brk ++ rest) r
    obtain ⟨n, r'', hrun', hregister'⟩ := run_brk (.inr rfl) hbrk
      (pos + ([chr ' '] ++ spaces).length) rest r'
    rw [List.append_assoc]
    refine ⟨n, r'', hrun.trans hrun', ?_⟩
    rw [hregister', hregister]
    exact List.foldl_fixed _

theorem reaches_word {m : Byte → Prop} (hm : ∀ c, m c → acceptedByte c) {word : List Byte}
    (hne : word ≠ []) (hword : ∀ c ∈ word, m c) : lineScanner.Reaches .swStart word .swMethod := by
  obtain ⟨c, tail, rfl⟩ := List.exists_cons_of_ne_nil hne
  rw [List.forall_mem_cons] at hword
  have hfirst : lineScanner.next .swStart c = .inl .swMethod := by
    have hc := hm c hword.1
    obtain ⟨hcr, hlf, -⟩ := wordBytes_accepted.ne hc
    simp [lineScanner, lineNext, hcr, hlf, show invalidMethodByte c = false from hc]
  have htail : lineScanner.Reaches .swMethod tail .swMethod := by
    apply Scanner.Reaches.stay
    intro b hb
    have hc := hm b (hword.2 b hb)
    obtain ⟨-, -, hspace⟩ := wordBytes_accepted.ne hc
    simp [lineScanner, lineNext, hspace, show invalidMethodByte b = false from hc]
  exact htail.cons hfirst

theorem reaches_spaces {s s' : LineState} (hfirst : lineScanner.next s (chr ' ') = .inl s')
    (hnext : lineScanner.next s' (chr ' ') = .inl s') {spaces : List Byte} (hne : spaces ≠ [])
    (hspaces : ∀ c ∈ spaces, c = chr ' ') : lineScanner.Reaches s spaces s' := by
  obtain ⟨c, tail, rfl⟩ := List.exists_cons_of_ne_nil hne
  rw [List.forall_mem_cons] at hspaces
  obtain ⟨rfl, htail⟩ := hspaces
  have hrest : lineScanner.Reaches s' tail s' := by
    apply Scanner.Reaches.stay
    intro b hb
    rw [htail b hb]
    exact hnext
  exact hrest.cons hfirst

theorem reaches_uri {uri : List Byte} (h : ∃ tail, uri = chr '/' :: tail ∧ ∀ c ∈ tail, c ≠ chr ' ') :
    lineScanner.Reaches .swSpacesBeforeUri uri .swAfterSlashInUri := by
  obtain ⟨tail, rfl, htail⟩ := h
  have hrest : lineScanner.Reaches .swAfterSlashInUri tail .swAfterSlashInUri := by
    apply Scanner.Reaches.stay
    intro b hb
    simp [lineScanner, lineNext, htail b hb]
  exact hrest.cons rfl

theorem reaches_httpSlash : lineScanner.Reaches .swHttp
    [chr 'H', chr 'T', chr 'T', chr 'P', chr '/'] .swFirstMajorDigit :=
  Scanner.Reaches.cons rfl (Scanner.Reaches.cons rfl (Scanner.Reaches.cons rfl
    (Scanner.Reaches.cons rfl (Scanner.Reaches.single rfl))))

theorem RequestLine.reaches_major {m : Byte → Prop} (hm : ∀ c, m c → acceptedByte c)
    (line : RequestLine m) : lineScanner.Reaches .swStart (line.ends ++ line.word ++
      line.spacesBeforeUri ++ line.uri ++ line.spacesAfterUri ++
      [chr 'H', chr 'T', chr 'T', chr 'P', chr '/']) .swFirstMajorDigit := by
  have hends : lineScanner.Reaches .swStart line.ends .swStart := by
    apply Scanner.Reaches.stay
    intro c hc
    have hend : c = cr ∨ c = lf := by simpa [isLineEnd] using line.ends_byte c hc
    simp [lineScanner, lineNext, hend]
  have hbefore : lineScanner.Reaches .swMethod line.spacesBeforeUri .swSpacesBeforeUri :=
    reaches_spaces rfl rfl (mem_symbols_plus.mp line.spacesBeforeUri_mem).1
      line.spacesBeforeUri_byte
  have hafter : lineScanner.Reaches .swAfterSlashInUri line.spacesAfterUri .swHttp :=
    reaches_spaces rfl rfl (mem_symbols_plus.mp line.spacesAfterUri_mem).1
      line.spacesAfterUri_byte
  have huri := ((hends.append (reaches_word hm line.word_ne line.word_byte)).append
    hbefore).append (reaches_uri line.uri_eq)
  exact (huri.append hafter).append reaches_httpSlash

theorem RequestLine.run_version {m : Byte → Prop} (hm : ∀ c, m c → acceptedByte c)
    (line : RequestLine m) {d : Byte} {tail : List Byte} (hmajor : line.major = d :: tail)
    (pos : ℕ) (rest : List Byte) (r : Record LineCursor LineRegister) :
    ∃ n r', lineScanner.run pos (line.bytes ++ rest) .swStart r = (.inr .done, n, r') ∧
      r'.register.httpMajor = cInt (majorSum ((d.toNat : ℤ) - (chr '0').toNat) tail) ∧
      r'.register.httpMinor = cInt (decimal line.minor) := by
  obtain ⟨d', tail', hmajor', hd, htail⟩ := line.major_eq
  obtain ⟨rfl, rfl⟩ := List.cons.inj (hmajor.symm.trans hmajor')
  obtain ⟨e, minor, hminor, hdigits⟩ := line.minor_eq
  rw [hminor, List.forall_mem_cons] at hdigits
  obtain ⟨f, hf, hmajorSum⟩ := carries_major hd htail
  have hdot : lineScanner.Carries .swMajorDigit [chr '.'] .swFirstMinorDigit id :=
    Scanner.Carries.single rfl
  obtain ⟨g, hg, hsame⟩ := carries_minor hdigits.1 hdigits.2
  have hversion := (hf.append hdot).append hg
  rw [← hmajor, ← hminor] at hversion
  obtain ⟨r₁, hrun₁⟩ := line.reaches_major hm pos
    ((line.major ++ [chr '.'] ++ line.minor) ++ (line.stop ++ rest)) r
  obtain ⟨r₂, hrun₂, hregister⟩ := hversion _ (line.stop ++ rest) r₁
  obtain ⟨n, r₃, hrun₃, hsame'⟩ := run_terminator line.stop_mem _ rest r₂
  refine ⟨n, r₃, ?_, ?_, ?_⟩
  · rw [← hrun₃, ← hrun₂, ← hrun₁]
    simp only [RequestLine.bytes, RequestLine.behindUri, List.append_assoc]
  · rw [hsame', hregister]
    exact (hsame _).1.trans (hmajorSum r₁.register)
  · rw [hsame', hregister, hminor]
    exact (hsame _).2

theorem feed_version {line : RequestLine acceptedByte} {rest : List Byte} {chunks : List (List Byte)}
    {request : SgxHttpRequest} (hlast : request.last = request.pos)
    (hstate : request.state = LineState.swStart.code)
    (hchunks : ∀ chunk ∈ chunks, chunk.length ≤ sgxMaxBuf)
    (hbytes : chunks.flatten = line.bytes ++ rest) {d : Byte} {tail : List Byte}
    (hmajor : line.major = d :: tail) :
    let answer := feed sgxHttpParseRequestLine request chunks
    answer.1 = sgxOk ∧
      answer.2.httpMajor = cInt (majorSum ((d.toNat : ℤ) - (chr '0').toNat) tail) ∧
      answer.2.httpMinor = cInt (decimal line.minor) := by
  intro answer
  have hfollows := feed_line_follows chunks hlast hstate hchunks
  obtain ⟨n, r, hrun, hreg⟩ := line.run_version (fun _ h => h) hmajor request.pos rest
    (Record.empty (lineScanned.register request))
  rw [hbytes, hrun] at hfollows
  obtain ⟨hok, hdone⟩ := hfollows
  obtain ⟨-, hversion⟩ := hdone rfl
  exact ⟨hok, hversion.major.trans hreg.1, hversion.minor.trans hreg.2⟩

theorem version_decoded_iff (line : RequestLine acceptedByte) (rest : List Byte)
    (chunks : List (List Byte)) (request : SgxHttpRequest) (hlast : request.last = request.pos)
    (hstate : request.state = LineState.swStart.code)
    (hchunks : ∀ chunk ∈ chunks, chunk.length ≤ sgxMaxBuf)
    (hbytes : chunks.flatten = line.bytes ++ rest) (hmajor : decimal line.major < 2 ^ 31)
    (hminor : decimal line.minor < 2 ^ 31) :
    let answer := feed sgxHttpParseRequestLine request chunks
    answer.1 = sgxOk ∧
      (answer.2.httpMajor = decimal line.major ∧ answer.2.httpMinor = decimal line.minor ↔
        line.major.length = 1) := by
  intro answer
  obtain ⟨d, tail, hdigits, hd, htail⟩ := line.major_eq
  obtain ⟨hok, hmajorReg, hminorReg⟩ := feed_version hlast hstate hchunks hbytes hdigits
  refine ⟨hok, ?_⟩
  have hone : 49 ≤ d.toNat := UInt8.le_iff_toNat_le.mp hd.1
  have hzero : (chr '0').toNat = 48 := by decide
  have hcast : (d.toNat : ℤ) - (chr '0').toNat = ((d.toNat - 48 : ℕ) : ℤ) := by omega
  rw [hcast, majorSum_eq] at hmajorReg
  rw [cInt_of_lt hminor] at hminorReg
  rw [hdigits, decimal_cons, hzero] at hmajor
  rw [show answer.2.httpMajor = _ from hmajorReg, show answer.2.httpMinor = _ from hminorReg,
    hdigits, decimal_cons, hzero, List.length_cons]
  cases tail with
  | nil =>
    have hsmall : d.toNat - 48 < 2 ^ 31 := by simpa [decimal] using hmajor
    simpa [decimal] using cInt_of_lt hsmall
  | cons c tail =>
    have hne := majorSum_ne (show 1 ≤ d.toNat - 48 by omega)
      (show 1 ≤ (c :: tail).length by simp) (decimal_lt htail) hmajor
    refine iff_of_false (fun h => hne h.1) ?_
    simp

def getLine (major minor : List Byte) (hmajor : major ∈ Http.major) (hminor : minor ∈ Http.minor) :
    RequestLine acceptedByte where
  ends := []
  word := [chr 'G', chr 'E', chr 'T']
  spacesBeforeUri := [chr ' ']
  uri := [chr '/']
  spacesAfterUri := [chr ' ']
  major := major
  minor := minor
  stop := [lf]
  ends_mem := Language.nil_mem_kstar _
  word_mem := mem_symbols_plus_of_all (by decide) (by decide)
  spacesBeforeUri_mem := mem_symbols_plus_of_all (by decide) (by decide)
  uri_mem := cons_mem_symbols_mul.mpr ⟨rfl, Language.nil_mem_kstar _⟩
  spacesAfterUri_mem := mem_symbols_plus_of_all (by decide) (by decide)
  major_mem := hmajor
  minor_mem := hminor
  stop_mem := .inl (.inl rfl)

theorem mem_major_one : [chr '1'] ∈ major :=
  cons_mem_symbols_mul.mpr ⟨by decide, Language.nil_mem_kstar _⟩

theorem mem_major_eleven : [chr '1', chr '1'] ∈ major :=
  cons_mem_symbols_mul.mpr ⟨by decide, mem_kstar_symbols.mpr (List.all_iff_forall_prop.mp (by decide))⟩

theorem mem_minor_zero : [chr '0'] ∈ minor := mem_symbols_plus_of_all (by decide) (by decide)

theorem version_one_zero_decoded :
    let line := getLine [chr '1'] [chr '0'] mem_major_one mem_minor_zero
    let answer := feed sgxHttpParseRequestLine zeroRequest [line.bytes.take 12, line.bytes.drop 12]
    answer.2.httpMajor = (decimal line.major : ℤ) ∧ answer.2.httpMinor = (decimal line.minor : ℤ) := by
  intro line answer
  have hchunks : ∀ chunk ∈ [line.bytes.take 12, line.bytes.drop 12], chunk.length ≤ sgxMaxBuf := by
    decide
  exact (version_decoded_iff line [] [line.bytes.take 12, line.bytes.drop 12] zeroRequest rfl rfl
    hchunks rfl (by decide) (by decide)).2.mpr rfl

theorem version_eleven_not_decoded :
    let line := getLine [chr '1', chr '1'] [chr '0'] mem_major_eleven mem_minor_zero
    let answer := feed sgxHttpParseRequestLine zeroRequest [line.bytes]
    decimal line.major < 2 ^ 31 ∧ decimal line.minor < 2 ^ 31 ∧ answer.1 = sgxOk ∧
      answer.2.httpMajor = 109 ∧ answer.2.httpMajor ≠ decimal line.major := by
  decide

end Sginx.Http
