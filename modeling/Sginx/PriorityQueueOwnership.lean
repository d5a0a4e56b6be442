import Sginx.PriorityQueueFailure

namespace Sginx.PriorityQueue

variable {α : Type}

section comparator

variable (cmp : α → α → Bool)

def popRemoved (q : SgxPriorityQueue α) : List α :=
  (sgxPriorityQueueTop q).toList

def clearRemoved : ℕ → SgxPriorityQueue α → (ℕ → Option (ℕ → α)) → List α
  | 0, _, _ => []
  | fuel + 1, q, mem =>
    if sgxPriorityQueueEmpty q then []
    else
      popRemoved q ++
        match sgxPriorityQueuePop cmp q (mem 0) with
        | none => []
        | some (_, q) => clearRemoved fuel q fun i => mem (i + 1)

def QueueCall.removed (q : SgxPriorityQueue α) : QueueCall α → List α
  | .push _ _ => []
  | .pop _ => popRemoved q
  | .clear mem => clearRemoved cmp q.size q mem

def QueueCall.accepted (q : SgxPriorityQueue α) : QueueCall α → List α
  | .push value mem =>
    match sgxPriorityQueuePush cmp q value mem with
    | none => []
    | some (result, _) => if result < 0 then [] else [value]
  | .pop _ => []
  | .clear _ => []

end comparator

def collect (part : (α → α → Bool) → SgxPriorityQueue α → QueueCall α → List α) :
    SgxPriorityQueue α → List ((α → α → Bool) × QueueCall α) → List α
  | _, [] => []
  | q, (cmp, call) :: calls =>
    part cmp q call ++
      match call.apply cmp q with
      | none => []
      | some q => collect part q calls

def Address.isArray : Address α → Bool
  | .value _ => false
  | .slot _ index => index == 0

def popFreed (q : SgxPriorityQueue α) : List (Address α) :=
  q.freed.reverse.filter fun a => !a.isArray

structure OwnsValues [DecidableEq α] (q : SgxPriorityQueue α) (removed accepted : List α) :
    Prop where
  order : popFreed q = removed.map .value
  queued : ∀ v ∈ stored q, .value v ∉ q.freed
  cleared : q.size = 0 → ∀ v ∈ accepted, q.freed.count (.value v) = 1
  outside : ∀ array index, .slot array index ∈ q.freed → index = 0

def OnEmptyOnly : SgxPriorityQueue α → List ((α → α → Bool) × QueueCall α) → Prop
  | _, [] => True
  | q, (cmp, call) :: calls => ((∀ v mem, call ≠ .push v mem) → q.size = 0) ∧
      ∀ q', call.apply cmp q = some q' → OnEmptyOnly q' calls

def FreesArrays (q q' : SgxPriorityQueue α) : Prop :=
  ∃ arrays : List ℕ, q'.freed = arrays.map (fun n => .slot n 0) ++ q.freed

theorem FreesArrays.suffix {q q' : SgxPriorityQueue α} (h : FreesArrays q q') :
    q.freed <:+ q'.freed := by
  obtain ⟨arrays, h⟩ := h
  exact ⟨_, h.symm⟩

theorem resize_frees {q q' : SgxPriorityQueue α} {newSize : ℕ} {mem : Option (ℕ → α)} {result : ℤ}
    (h : priorityQueueResize q newSize mem = some (result, q')) : FreesArrays q q' := by
  rw [priorityQueueResize] at h
  split_ifs at h with hsmall
  · simp only [Option.some.injEq, Prod.mk.injEq] at h
    exact ⟨[], by rw [← h.2]; rfl⟩
  cases hm : malloc (sizeMul sizeofPtr newSize) mem with
  | none =>
    simp only [hm, Option.some.injEq, Prod.mk.injEq] at h
    exact ⟨[], by rw [← h.2]; rfl⟩
  | some fresh =>
    simp only [hm] at h
    split_ifs at h with hcopy
    simp only [Option.some.injEq, Prod.mk.injEq] at h
    exact ⟨[q.array], by rw [← h.2]; rfl⟩

theorem insert_freed (cmp : α → α → Bool) {q q' : SgxPriorityQueue α} {v : α} {result : ℤ}
    (h : (q.store q.size v).bind
      (fun q => (priorityQueueUp cmp q q.size).bind fun q => some (sgxOk, q)) =
        some (result, q')) : q'.freed = q.freed := by
  obtain ⟨q₁, hstore, h⟩ := Option.bind_eq_some_iff.mp h
  obtain ⟨q₂, hup, h⟩ := Option.bind_eq_some_iff.mp h
  rw [SgxPriorityQueue.store] at hstore
  split_ifs at hstore with hslot
  obtain rfl := Option.some.inj hstore
  rw [up_eq cmp (by exact hslot)] at hup
  obtain rfl := Option.some.inj hup
  simp only [Option.some.injEq, Prod.mk.injEq] at h
  rw [← h.2]

theorem push_frees (cmp : α → α → Bool) {q q' : SgxPriorityQueue α} {v : α}
    {mem : Option (ℕ → α)} {result : ℤ}
    (h : sgxPriorityQueuePush cmp q v mem = some (result, q')) : FreesArrays q q' := by
  rw [sgxPriorityQueuePush] at h
  by_cases hfull : sizeAdd q.size 1 = q.maxSize
  · rw [if_pos hfull] at h
    obtain ⟨⟨result₁, q₁⟩, hresize, h⟩ := Option.bind_eq_some_iff.mp h
    obtain ⟨arrays, harrays⟩ := resize_frees hresize
    dsimp only at h
    split_ifs at h with hneg
    · simp only [Option.some.injEq, Prod.mk.injEq] at h
      exact ⟨arrays, by rw [← h.2, harrays]⟩
    · exact ⟨arrays, (insert_freed cmp (q := { q₁ with size := sizeAdd q₁.size 1 }) h).trans harrays⟩
  · rw [if_neg hfull] at h
    exact ⟨[], insert_freed cmp (q := { q with size := sizeAdd q.size 1 }) h⟩

theorem pop_frees (cmp : α → α → Bool) {q q' : SgxPriorityQueue α} (hs : SlotsHold q)
    (h0 : 0 < q.size) {mem : Option (ℕ → α)} {result : ℤ}
    (h : sgxPriorityQueuePop cmp q mem = some (result, q')) : FreesArrays (popped cmp q) q' := by
  rw [pop_eq_of_holds cmp hs h0] at h
  split_ifs at h with hshrink
  · obtain ⟨⟨result₁, q₁⟩, hresize, h⟩ := Option.bind_eq_some_iff.mp h
    dsimp only at h
    split_ifs at h with hneg
    · simp only [Option.some.injEq, Prod.mk.injEq] at h
      rw [← h.2]
      exact resize_frees hresize
    · simp only [Option.some.injEq, Prod.mk.injEq] at h
      rw [← h.2]
      exact resize_frees hresize
  · simp only [Option.some.injEq, Prod.mk.injEq] at h
    exact ⟨[], by rw [← h.2]; rfl⟩

theorem pop_frees_slot (cmp : α → α → Bool) {q q' : SgxPriorityQueue α} (hs : SlotsHold q)
    (h0 : 0 < q.size) {mem : Option (ℕ → α)} {result : ℤ}
    (h : sgxPriorityQueuePop cmp q mem = some (result, q')) : .slot q.array q.size ∈ q'.freed :=
  (pop_frees cmp hs h0 h).suffix.mem List.mem_cons_self

theorem pop_keeps_freed (cmp : α → α → Bool) {q q' : SgxPriorityQueue α} (hs : SlotsHold q)
    {mem : Option (ℕ → α)} {result : ℤ}
    (h : sgxPriorityQueuePop cmp q mem = some (result, q')) : q.freed <:+ q'.freed := by
  by_cases h0 : 0 < q.size
  · have hpopped : q.freed <:+ (popped cmp q).freed := List.suffix_cons _ _
    exact hpopped.trans (pop_frees cmp hs h0 h).suffix
  · simp only [pop_empty cmp h0, Option.some.injEq, Prod.mk.injEq] at h
    rw [← h.2]

theorem clearLoop_keeps_freed (cmp : α → α → Bool) (fuel : ℕ) {q q' : SgxPriorityQueue α}
    (hs : SlotsHold q) {mem : ℕ → Option (ℕ → α)} (h : clearLoop cmp fuel q mem = some q') :
    q.freed <:+ q'.freed := by
  induction fuel generalizing q mem with
  | zero =>
    obtain rfl := Option.some.inj h
    exact List.suffix_refl _
  | succ fuel ih =>
    rw [clearLoop] at h
    split_ifs at h
    · obtain rfl := Option.some.inj h
      exact List.suffix_refl _
    · obtain ⟨⟨result, q₁⟩, hpop, h⟩ := Option.bind_eq_some_iff.mp h
      exact (pop_keeps_freed cmp hs hpop).trans (ih (pop_holds cmp hs hpop) h)

theorem clear_frees_slot (cmp : α → α → Bool) {q q' : SgxPriorityQueue α} (hs : SlotsHold q)
    (h0 : 0 < q.size) {mem : ℕ → Option (ℕ → α)} (h : sgxPriorityQueueClear cmp q mem = some q') :
    .slot q.array q.size ∈ q'.freed := by
  obtain ⟨fuel, hfuel⟩ := Nat.exists_eq_succ_of_ne_zero h0.ne'
  rw [sgxPriorityQueueClear, hfuel, clearLoop, nonempty_iff.mpr h0, if_neg Bool.false_ne_true] at h
  obtain ⟨⟨result, q₁⟩, hpop, h⟩ := Option.bind_eq_some_iff.mp h
  exact (clearLoop_keeps_freed cmp fuel (pop_holds cmp hs hpop) h).mem
    (pop_frees_slot cmp hs h0 hpop)

theorem call_keeps_freed (cmp : α → α → Bool) {q q' : SgxPriorityQueue α} (hs : SlotsHold q)
    (call : QueueCall α) (h : call.apply cmp q = some q') : q.freed <:+ q'.freed := by
  cases call with
  | push v mem =>
    obtain ⟨⟨result, q₁⟩, hpush, rfl⟩ := Option.map_eq_some_iff.mp h
    exact (push_frees cmp hpush).suffix
  | pop mem =>
    obtain ⟨⟨result, q₁⟩, hpop, rfl⟩ := Option.map_eq_some_iff.mp h
    exact pop_keeps_freed cmp hs hpop
  | clear mem => exact clearLoop_keeps_freed cmp q.size hs h

theorem calls_keep_freed {q q' : SgxPriorityQueue α} (hs : SlotsHold q)
    (calls : List ((α → α → Bool) × QueueCall α)) (h : runCalls q calls = some q') :
    q.freed <:+ q'.freed := by
  induction calls generalizing q with
  | nil =>
    obtain rfl := Option.some.inj h
    exact List.suffix_refl _
  | cons call calls ih =>
    obtain ⟨q₁, hcall, h⟩ := Option.bind_eq_some_iff.mp h
    exact (call_keeps_freed call.1 hs call.2 hcall).trans (ih (call_holds call.1 hs call.2 hcall) h)

theorem call_frees_slot (cmp : α → α → Bool) {q q' : SgxPriorityQueue α} (hs : SlotsHold q)
    (h0 : 0 < q.size) {call : QueueCall α} (hcall : ∀ v mem, call ≠ .push v mem)
    (h : call.apply cmp q = some q') : .slot q.array q.size ∈ q'.freed := by
  cases call with
  | push v mem => exact absurd rfl (hcall v mem)
  | pop mem =>
    obtain ⟨⟨result, q₁⟩, hpop, rfl⟩ := Option.map_eq_some_iff.mp h
    exact pop_frees_slot cmp hs h0 hpop
  | clear mem => exact clear_frees_slot cmp hs h0 h

theorem onEmptyOnly_of_outside {q q' : SgxPriorityQueue α} (hs : SlotsHold q)
    (calls : List ((α → α → Bool) × QueueCall α)) (h : runCalls q calls = some q')
    (houtside : ∀ array index, .slot array index ∈ q'.freed → index = 0) : OnEmptyOnly q calls := by
  induction calls generalizing q with
  | nil => trivial
  | cons call calls ih =>
    obtain ⟨q₁, hcall, h⟩ := Option.bind_eq_some_iff.mp h
    have hs₁ := call_holds call.1 hs call.2 hcall
    constructor
    · intro hnot
      by_contra h0
      have hslot := call_frees_slot call.1 hs (Nat.pos_of_ne_zero h0) hnot hcall
      exact h0 (houtside _ _ ((calls_keep_freed hs₁ calls h).mem hslot))
    · intro q₂ hcall₂
      obtain rfl := Option.some.inj (hcall.symm.trans hcall₂)
      exact ih hs₁ h

structure FreesNothing (q : SgxPriorityQueue α) (removed accepted : List α) (size : ℕ) : Prop where
  removed_eq : removed = []
  size_eq : q.size = size + accepted.length
  arrays : ∀ a ∈ q.freed, a.isArray = true

theorem call_on_empty (cmp : α → α → Bool) {q q' : SgxPriorityQueue α} (hs : SlotsHold q)
    (ha : ∀ a ∈ q.freed, a.isArray = true) {call : QueueCall α}
    (h0 : (∀ v mem, call ≠ .push v mem) → q.size = 0) (h : call.apply cmp q = some q') :
    FreesNothing q' (call.removed cmp q) (call.accepted cmp q) q.size := by
  cases call with
  | push v mem =>
    obtain ⟨⟨result, q₁⟩, hpush, rfl⟩ := Option.map_eq_some_iff.mp h
    obtain ⟨arrays, hfreed⟩ := push_frees cmp hpush
    refine ⟨rfl, ?_, ?_⟩
    · simp only [QueueCall.accepted, hpush]
      rcases push_returns cmp hs hpush with ⟨rfl, rfl⟩ | ⟨rfl, q₂, rfl, -, hs₂, -⟩
      · rfl
      · simp [inserted, sgxOk, hs₂]
    · intro a hmem
      simp only [hfreed, List.mem_append, List.mem_map] at hmem
      rcases hmem with ⟨n, -, rfl⟩ | hmem
      · rfl
      · exact ha a hmem
  | pop mem =>
    have h0 : q.size = 0 := h0 fun v mem => by simp
    obtain ⟨⟨result, q₁⟩, hpop, rfl⟩ := Option.map_eq_some_iff.mp h
    rw [pop_empty cmp (by omega)] at hpop
    obtain ⟨-, rfl⟩ := Prod.mk.inj (Option.some.inj hpop)
    refine ⟨?_, rfl, ha⟩
    simp [QueueCall.removed, popRemoved, sgxPriorityQueueTop, sgxPriorityQueueEmpty, h0]
  | clear mem =>
    have h0 : q.size = 0 := h0 fun v mem => by simp
    simp only [QueueCall.apply, sgxPriorityQueueClear, h0, clearLoop, Option.some.injEq] at h
    subst h
    refine ⟨?_, rfl, ha⟩
    simp [QueueCall.removed, h0, clearRemoved]

theorem calls_on_empty {q q' : SgxPriorityQueue α} (hs : SlotsHold q)
    (ha : ∀ a ∈ q.freed, a.isArray = true) (calls : List ((α → α → Bool) × QueueCall α))
    (h0 : OnEmptyOnly q calls) (h : runCalls q calls = some q') :
    FreesNothing q' (collect QueueCall.removed q calls) (collect QueueCall.accepted q calls)
      q.size := by
  induction calls generalizing q with
  | nil =>
    obtain rfl := Option.some.inj h
    exact ⟨rfl, rfl, ha⟩
  | cons call calls ih =>
    obtain ⟨cmp, call⟩ := call
    obtain ⟨q₁, hcall, h⟩ := Option.bind_eq_some_iff.mp h
    obtain ⟨hremoved, hsize, harrays⟩ := call_on_empty cmp hs ha h0.1 hcall
    obtain ⟨hremoved', hsize', harrays'⟩ :=
      ih (call_holds cmp hs call hcall) harrays (h0.2 q₁ hcall) h
    refine ⟨?_, ?_, harrays'⟩
    · simp [collect, hremoved, hcall, hremoved']
    · simp only [collect, hcall, List.length_append]
      omega

theorem FreesNothing.owns [DecidableEq α] {q : SgxPriorityQueue α} {removed accepted : List α}
    (h : FreesNothing q removed accepted 0) : OwnsValues q removed accepted := by
  constructor
  · rw [h.removed_eq, List.map_nil, popFreed, List.filter_eq_nil_iff]
    intro a ha
    simp [h.arrays a (List.mem_reverse.mp ha)]
  · intro v hv hfreed
    exact Bool.false_ne_true (h.arrays _ hfreed)
  · intro h0 v hv
    have hnone : accepted = [] := List.length_eq_zero_iff.mp (by have := h.size_eq; omega)
    rw [hnone] at hv
    exact absurd hv List.not_mem_nil
  · intro array index hslot
    simpa [Address.isArray] using h.arrays _ hslot

theorem owns_values_iff [DecidableEq α] {maxSize : ℕ} {mem : Option (ℕ → α)}
    {q₀ q : SgxPriorityQueue α} (hi : sgxPriorityQueueInit maxSize mem = some q₀)
    (calls : List ((α → α → Bool) × QueueCall α)) (hr : runCalls q₀ calls = some q) :
    OwnsValues q (collect QueueCall.removed q₀ calls) (collect QueueCall.accepted q₀ calls) ↔
      OnEmptyOnly q₀ calls := by
  constructor
  · intro howns
    exact onEmptyOnly_of_outside (init_holds hi) calls hr howns.outside
  · intro hempty
    obtain ⟨fresh, -, h⟩ := Option.map_eq_some_iff.mp hi
    have hsize : q₀.size = 0 := by rw [← h]
    have hfreed : ∀ a ∈ q₀.freed, a.isArray = true := by rw [← h]; exact List.forall_mem_nil _
    have hkeeps := calls_on_empty (init_holds hi) hfreed calls hempty hr
    rw [hsize] at hkeeps
    exact hkeeps.owns

def pushRefused : List ((ℤ → ℤ → Bool) × QueueCall ℤ) :=
  [(sgxPriorityQueueGreater, .push 5 none), (sgxPriorityQueueGreater, .clear fun _ => none)]

theorem owns_values_iff_refused_push : ∃ q₀ q : SgxPriorityQueue ℤ,
    sgxPriorityQueueInit 1 (some fun _ => 0) = some q₀ ∧ runCalls q₀ pushRefused = some q ∧
      OwnsValues q (collect QueueCall.removed q₀ pushRefused)
        (collect QueueCall.accepted q₀ pushRefused) := by
  refine ⟨_, _, rfl, rfl, ?_⟩
  apply (@owns_values_iff ℤ _ 1 (some fun _ => 0) _ _ rfl pushRefused rfl).mpr
  refine ⟨fun hnot => absurd rfl (hnot 5 none), ?_⟩
  rintro q' ⟨⟩
  exact ⟨fun _ => rfl, fun _ _ => trivial⟩

def pushAndPop : List ((ℤ → ℤ → Bool) × QueueCall ℤ) :=
  [(sgxPriorityQueueGreater, .push 5 none), (sgxPriorityQueueGreater, .pop none)]

theorem popped_value_is_not_freed : ∃ q₀ q : SgxPriorityQueue ℤ,
    sgxPriorityQueueInit 4 (some fun _ => 0) = some q₀ ∧ runCalls q₀ pushAndPop = some q ∧
      collect QueueCall.removed q₀ pushAndPop = [5] ∧ q.freed = [.slot 0 1] ∧
      ¬ OwnsValues q (collect QueueCall.removed q₀ pushAndPop)
        (collect QueueCall.accepted q₀ pushAndPop) := by
  refine ⟨_, _, rfl, rfl, rfl, rfl, ?_⟩
  intro howns
  exact absurd (howns.outside 0 1 List.mem_cons_self) one_ne_zero

end Sginx.PriorityQueue
