import TurboFlow.Inbox.Invariant

/-!
# Conservation laws and capacity of the memory inbox

`Conserved` states what each counter of a memory inbox counts; `Exact` that one operation moves
every counter by what it counts, so that none wraps. The public snapshot, which rejects counters
that contradict each other, is therefore never rejected.
-/

namespace TurboFlow.Inbox

open Word Table Transition List Option

structure Conserved (memory : Memory) : Prop where
  live : memory.liveRecords = phaseCount isLive memory.slots
  history : memory.historyRecords = phaseCount (· = .tombstone) memory.slots
  claims : memory.inFlightClaims = phaseCount (· = .claimed) memory.slots
  reserved : memory.reservedRecords = reservedCount memory.slots
  retained : memory.retainedBytes = storedBytes memory.slots
  admitted : memory.admitted = memory.liveRecords + memory.completed + memory.discarded
  failed :
    memory.failed = memory.retried + memory.discarded + phaseCount (· = .failed) memory.slots

theorem Consistent.conserved (h : Consistent s) : Conserved s.memory :=
  ⟨h.live, h.history, h.claims, h.reserved, h.retained, h.admitted, h.failed⟩

def Near (a b : ℕ) : Prop :=
  a ≤ b + 1 ∧ b ≤ a + 1

@[simp] theorem near_refl (a : ℕ) : Near a a :=
  ⟨Nat.le_succ a, Nat.le_succ a⟩

theorem near_sub64 (h : sub64 a 1 < max64) : Near a (sub64 a 1) := by
  unfold sub64 max64 at *
  unfold Near
  split at h
  · rw [if_pos ‹_›]
    omega
  · omega

theorem near_add64 (h : a < max64) : Near a (add64 a 1) := by
  rw [add64_of_le h]
  unfold Near
  omega

theorem le_add64 (h : a < max64) : a ≤ add64 a 1 := by
  rw [add64_of_le h]
  omega

/-- One operation moves every counter by at most one, a cumulative one never backwards, and keeps
the bytes within the total. -/
structure Exact (before after : Memory) : Prop where
  live : Near before.liveRecords after.liveRecords
  history : Near before.historyRecords after.historyRecords
  claims : Near before.inFlightClaims after.inFlightClaims
  reserved : Near before.reservedRecords after.reservedRecords
  admitted : before.admitted ≤ after.admitted ∧ Near before.admitted after.admitted
  completed : before.completed ≤ after.completed ∧ Near before.completed after.completed
  failed : before.failed ≤ after.failed ∧ Near before.failed after.failed
  retried : before.retried ≤ after.retried ∧ Near before.retried after.retried
  discarded : before.discarded ≤ after.discarded ∧ Near before.discarded after.discarded
  bytes : after.retainedBytes + after.reservedBytes ≤ after.config.maxTotalBytes

theorem Consistent.gauges_lt (h : Consistent s) :
    s.memory.liveRecords < max64 ∧ s.memory.historyRecords < max64 ∧
      s.memory.inFlightClaims < max64 ∧ s.memory.reservedRecords < max64 := by
  obtain ⟨hrecords, -, -⟩ := configValid_bounds h.config
  have hoccupancy := h.occupancy
  have hlive := phaseCount_isLive s.memory.slots
  have := h.live
  have := h.claims
  unfold memoryMaxRecords at hrecords
  unfold max64
  omega

theorem Consistent.exact (h : Consistent s) (he : Effect s op s') : Exact s.memory s'.memory := by
  have h' := h.effect he
  obtain ⟨hlive, hhistory, hclaims, hreserved⟩ := h.gauges_lt
  obtain ⟨hlive', hhistory', hclaims', hreserved'⟩ := h'.gauges_lt
  have hbytes := h'.bytes
  obtain ⟨⟩ := id h
  have hissuedMax := issuedIds_le h.idMax
  have hfailedMax := h.failedMax
  have hsame : Exact s.memory s.memory :=
    ⟨near_refl _, near_refl _, near_refl _, near_refl _, by simp, by simp, by simp, by simp,
      by simp, h.bytes⟩
  cases he with
  | idle => exact hsame
  | reserve hr _ => exact { hsame with reserved := near_add64 hreserved, bytes := hbytes }
  | reserveZero hid =>
    have := h.idPos
    omega
  | release hk => exact { hsame with reserved := near_sub64 hreserved', bytes := hbytes }
  | commit hk _ _ =>
    have hlength := length_eraseIdx_of_getElem? hk
    have hlt : s.memory.admitted < max64 := by omega
    exact
      { hsame with
        live := near_add64 hlive
        reserved := near_sub64 hreserved'
        admitted := ⟨le_add64 hlt, near_add64 hlt⟩
        bytes := hbytes }
  | @move _ index _ _ mv record' hslot hrecord hbefore hafter _ _ _ hallowed =>
    cases mv with
    | claim => exact { hsame with claims := near_add64 hclaims, bytes := hbytes }
    | complete =>
      have hlt : s.memory.completed < max64 := Nat.lt_of_le_of_ne (by omega) hallowed
      exact
        { hsame with
          live := near_sub64 hlive'
          history := near_add64 hhistory
          claims := near_sub64 hclaims'
          completed := ⟨le_add64 hlt, near_add64 hlt⟩
          bytes := hbytes }
    | fail =>
      have hlt : s.memory.failed < max64 := Nat.lt_of_le_of_ne hfailedMax hallowed
      exact
        { hsame with
          claims := near_sub64 hclaims'
          failed := ⟨le_add64 hlt, near_add64 hlt⟩
          bytes := hbytes }
    | retry =>
      have hlt : s.memory.retried < max64 := Nat.lt_of_le_of_ne (by omega) hallowed
      exact { hsame with retried := ⟨le_add64 hlt, near_add64 hlt⟩, bytes := hbytes }
    | discard =>
      have hlt : s.memory.discarded < max64 := Nat.lt_of_le_of_ne (by omega) hallowed
      exact
        { hsame with
          live := near_sub64 hlive'
          history := near_add64 hhistory
          discarded := ⟨le_add64 hlt, near_add64 hlt⟩
          bytes := hbytes }
  | forget hslot hphase => exact { hsame with history := near_sub64 hhistory', bytes := hbytes }
  | close => exact { hsame with bytes := hbytes }

theorem countPhase_eq (h : phaseCount (· = phase) slots ≤ max64) :
    countPhase phase slots = phaseCount (· = phase) slots := by
  -- The accumulator of the loop is generalised.
  suffices hfold : ∀ f : ℕ → Slot → ℕ, (∀ count reserved, f count ⟨none, reserved⟩ = count) →
      (∀ count record reserved, f count ⟨some record, reserved⟩ =
        if record.phase = phase then add64 count 1 else count) →
      ∀ count, count + phaseCount (· = phase) slots ≤ max64 →
        slots.foldl f count = count + phaseCount (· = phase) slots by
    rw [countPhase, hfold _ (fun _ _ => rfl) (fun _ _ _ => rfl) 0 (by omega), Nat.zero_add]
  clear h
  intro f hnone hsome
  induction slots with
  | nil => simp [phaseCount]
  | cons slot slots ih =>
    intro count hcount
    have hcons : phaseCount (· = phase) (slot :: slots) =
        slot.weigh (fun record => (decide (record.phase = phase)).toNat) +
          phaseCount (· = phase) slots := tally_cons
    rcases slot with ⟨_ | record, reserved⟩
    · simp only [Slot.weigh, elim_none] at hcons
      rw [foldl_cons, hnone, ih count (by omega)]
      omega
    by_cases hp : record.phase = phase
    · simp only [Slot.weigh, elim_some, hp, decide_true, Bool.toNat_true] at hcons
      rw [foldl_cons, hsome, if_pos hp, add64_of_le (by omega), ih _ (by omega)]
      omega
    simp only [Slot.weigh, elim_some, hp, decide_false, Bool.toNat_false] at hcons
    rw [foldl_cons, hsome, if_neg hp, ih count (by omega)]
    omega

theorem Consistent.snapshot (h : Consistent s) :
    inboxSnapshot s.memory = .ok (memorySnapshot s.memory) := by
  obtain ⟨hlive, hhistory, hclaims, -⟩ := h.gauges_lt
  have hparts := phaseCount_isLive s.memory.slots
  have hissued := h.issued
  have hissuedMax := issuedIds_le h.idMax
  obtain ⟨-, -, -, live, history, claims, -, -, -, -, admitted, settled, failed, failedMax, -⟩ := h
  have hpending : countPhase .pending s.memory.slots = phaseCount (· = .pending) s.memory.slots :=
    countPhase_eq (by omega)
  have hfailed : countPhase .failed s.memory.slots = phaseCount (· = .failed) s.memory.slots :=
    countPhase_eq (by omega)
  have hunclassified :
      sub64 s.memory.liveRecords (phaseCount (· = .pending) s.memory.slots) =
        s.memory.liveRecords - phaseCount (· = .pending) s.memory.slots := sub64_of_le (by omega)
  have hleased :
      sub64 (s.memory.liveRecords - phaseCount (· = .pending) s.memory.slots)
          (phaseCount (· = .failed) s.memory.slots) =
        s.memory.liveRecords - phaseCount (· = .pending) s.memory.slots -
          phaseCount (· = .failed) s.memory.slots := sub64_of_le (by omega)
  have hgone : sub64 s.memory.admitted s.memory.liveRecords =
      s.memory.admitted - s.memory.liveRecords := sub64_of_le (by omega)
  have hleft : sub64 s.memory.admitted s.memory.completed =
      s.memory.admitted - s.memory.completed := sub64_of_le (by omega)
  have hsum : add64 s.memory.completed s.memory.discarded =
      s.memory.completed + s.memory.discarded := add64_of_le (by omega)
  have hvalid : snapshotValid (memorySnapshot s.memory) = true := by
    simp only [snapshotValid, memorySnapshot, hpending, hfailed, hunclassified, hleased, hgone,
      hleft, hsum]
    rw [if_neg (by omega), if_neg (by omega), if_neg (by omega), if_neg (by omega),
      if_neg (by omega), if_neg (by omega)]
  simp [inboxSnapshot, hvalid]

/-- The conservation laws hold in every reachable state of the memory inbox, no operation wraps a
counter, and the public snapshot succeeds. -/
theorem memory_conservation {config : MemoryConfig} {memory : Memory}
    (hcreate : memoryCreate config = some memory) {tr : List (Operation × Outcome)} {s : System}
    (h : Run (Acts act) (System.init memory) tr s) :
    Conserved s.memory ∧
      (∀ op out s', act s op = some (s', out) → Exact s.memory s'.memory) ∧
      inboxSnapshot s.memory = .ok (memorySnapshot s.memory) := by
  have hs := consistent_of_run hcreate h
  exact ⟨hs.conserved, fun _ _ _ hact => hs.exact (act_effect hact), hs.snapshot⟩

/-- The laws after one record was admitted, claimed and completed. -/
theorem memory_conservation_completed :
    ∃ memory s outs, memoryCreate twoSlots = some memory ∧
        exec act (System.init memory)
          [.admitRecord (sampleRecord 7), .commit 0, .claim, .complete 1 1] = some (s, outs) ∧
        s.memory.completed = 1 ∧ Conserved s.memory := by
  exact ⟨_, _, _, and_of_imp rfl fun hcreate => and_of_imp rfl fun hexec => ⟨rfl,
    (memory_conservation hcreate (run_of_exec hexec)).1⟩⟩

end TurboFlow.Inbox
