import Mathlib.Data.List.Nodup
import TurboFlow.Inbox.System

/-!
# The invariant of the memory inbox

`Consistent` relates the counters to the slots and to the admissions in flight. It holds in every
state that an interleaving of callers reaches (`consistent_of_run`).

It is needed as a whole: a commit finds its slot because reservations are distinct, a counter does
not wrap because of the capacity bounds, and these rest on exact tallies.
-/

namespace TurboFlow.Inbox

open Word Table Transition List Slot

def Slot.weigh (w : MemoryRecord → ℕ) (slot : Slot) : ℕ :=
  slot.record.elim 0 w

@[simp] theorem Slot.weigh_withReserved (w : MemoryRecord → ℕ) (b : Bool) (slot : Slot) :
    (slot.withReserved b).weigh w = slot.weigh w := rfl

@[simp] theorem Slot.weigh_withRecord (w : MemoryRecord → ℕ) (record : Option MemoryRecord)
    (slot : Slot) : (slot.withRecord record).weigh w = record.elim 0 w := rfl

@[simp] theorem Slot.reserved_withRecord (record : Option MemoryRecord) (slot : Slot) :
    (slot.withRecord record).reserved = slot.reserved := rfl

@[simp] theorem Slot.record_withRecord (record : Option MemoryRecord) (slot : Slot) :
    (slot.withRecord record).record = record := rfl

@[simp] theorem Slot.reserved_withReserved (b : Bool) (slot : Slot) :
    (slot.withReserved b).reserved = b := rfl

@[simp] theorem Slot.record_withReserved (b : Bool) (slot : Slot) :
    (slot.withReserved b).record = slot.record := rfl

/-- The number of stored records in the phases selected by `p`. -/
def phaseCount (p : RecordPhase → Bool) (slots : List Slot) : ℕ :=
  tally (weigh fun record => (p record.phase).toNat) slots

def reservedCount (slots : List Slot) : ℕ :=
  tally (fun slot => slot.reserved.toNat) slots

def storedBytes (slots : List Slot) : ℕ :=
  tally (weigh MemoryRecord.retainedBytes) slots

def isLive (phase : RecordPhase) : Bool :=
  phase = .pending ∨ phase = .claimed ∨ phase = .failed

def issuedIds (memory : Memory) : ℕ :=
  if memory.recordIdExhausted then max64 else memory.nextRecordId - 1

structure Consistent (s : System) : Prop where
  config : memoryConfigValid s.memory.config
  length : s.memory.slots.length = s.memory.config.maxRecords
  exclusive : ∀ slot ∈ s.memory.slots, slot.record ≠ none → slot.reserved = false
  live : s.memory.liveRecords = phaseCount isLive s.memory.slots
  history : s.memory.historyRecords = phaseCount (· = .tombstone) s.memory.slots
  claims : s.memory.inFlightClaims = phaseCount (· = .claimed) s.memory.slots
  reserved : s.memory.reservedRecords = reservedCount s.memory.slots
  retained : s.memory.retainedBytes = storedBytes s.memory.slots
  reservedBytes : s.memory.reservedBytes = tally Reservation.bytes s.inFlight
  bytes : s.memory.retainedBytes + s.memory.reservedBytes ≤ s.memory.config.maxTotalBytes
  admitted :
    s.memory.admitted = s.memory.liveRecords + s.memory.completed + s.memory.discarded
  settled : s.memory.historyRecords ≤ s.memory.completed + s.memory.discarded
  failed :
    s.memory.failed =
      s.memory.retried + s.memory.discarded + phaseCount (· = .failed) s.memory.slots
  failedMax : s.memory.failed ≤ max64
  held : ∀ r ∈ s.inFlight, s.memory.slots[r.slot]? = some ⟨none, true⟩
  distinct : (s.inFlight.map Reservation.slot).Nodup
  idPos : 1 ≤ s.memory.nextRecordId
  idMax : s.memory.nextRecordId ≤ max64
  exhausted : s.memory.recordIdExhausted → s.memory.nextRecordId = max64
  issued : s.memory.admitted + s.inFlight.length ≤ issuedIds s.memory

theorem issuedIds_le (h : memory.nextRecordId ≤ max64) : issuedIds memory ≤ max64 := by
  unfold issuedIds
  split <;> omega

theorem issuedIds_memoryReserve (hc : Consistent s) (hids : ¬ s.memory.recordIdExhausted)
    (index bytes : ℕ) :
    issuedIds (memoryReserve s.memory index bytes) = s.memory.nextRecordId ∧
      issuedIds s.memory + 1 = s.memory.nextRecordId := by
  have hidPos := hc.idPos
  have hidMax := hc.idMax
  have hex : s.memory.recordIdExhausted = false := by simpa using hids
  refine ⟨?_, ?_⟩
  · simp only [issuedIds, memoryReserve, hex, Bool.false_or, beq_iff_eq]
    split
    · rename_i hmax
      exact hmax.symm
    rename_i hne
    rw [add64_of_le (by omega)]
    omega
  simp only [issuedIds, hex, Bool.false_eq_true, if_false]
  omega

section Counting

variable {slots : List Slot} {index : ℕ} {slot : Slot} (p : RecordPhase → Bool)

section

variable (h : slots[index]? = some slot)

include h

theorem phaseCount_withReserved (b : Bool) :
    phaseCount p (slots.modify index (withReserved b)) = phaseCount p slots := by
  have := tally_modify (w := weigh fun record => (p record.phase).toNat) h
    (withReserved b)
  simp only [weigh_withReserved] at this
  exact Nat.add_right_cancel this

theorem phaseCount_withRecord (record : Option MemoryRecord) :
    phaseCount p (slots.modify index (withRecord record)) +
        slot.record.elim 0 (fun record => (p record.phase).toNat) =
      phaseCount p slots + record.elim 0 (fun record => (p record.phase).toNat) :=
  tally_modify h (withRecord record)

theorem storedBytes_withReserved (b : Bool) :
    storedBytes (slots.modify index (withReserved b)) = storedBytes slots := by
  have := tally_modify (w := weigh MemoryRecord.retainedBytes) h (withReserved b)
  simp only [weigh_withReserved] at this
  exact Nat.add_right_cancel this

theorem storedBytes_withRecord (record : Option MemoryRecord) :
    storedBytes (slots.modify index (withRecord record)) +
        slot.record.elim 0 MemoryRecord.retainedBytes =
      storedBytes slots + record.elim 0 MemoryRecord.retainedBytes :=
  tally_modify h (withRecord record)

theorem reservedCount_withReserved (b : Bool) :
    reservedCount (slots.modify index (withReserved b)) + slot.reserved.toNat =
      reservedCount slots + b.toNat :=
  tally_modify h (withReserved b)

theorem reservedCount_withRecord (record : Option MemoryRecord) :
    reservedCount (slots.modify index (withRecord record)) = reservedCount slots := by
  have := tally_modify (w := fun slot => slot.reserved.toNat) h (withRecord record)
  simp only [reserved_withRecord] at this
  exact Nat.add_right_cancel this

end

theorem phaseCount_isLive (slots : List Slot) :
    phaseCount isLive slots =
      phaseCount (· = .pending) slots + phaseCount (· = .claimed) slots +
        phaseCount (· = .failed) slots := by
  unfold phaseCount
  rw [← tally_add, ← tally_add]
  congr 1
  funext slot
  rcases slot with ⟨_ | record, reserved⟩
  · rfl
  · cases h : record.phase <;> simp [weigh, isLive, h]

end Counting

def usage (slot : Slot) : ℕ :=
  slot.weigh (fun record => (isLive record.phase).toNat) +
    slot.weigh (fun record => (decide (record.phase = .tombstone)).toNat) + slot.reserved.toNat

theorem tally_usage (slots : List Slot) :
    tally usage slots =
      phaseCount isLive slots + phaseCount (· = .tombstone) slots + reservedCount slots := by
  unfold usage phaseCount reservedCount
  rw [tally_add, tally_add]

/-- A slot that is not both occupied and reserved is used at most once, and unused if it is
neither. -/
theorem usage_le_one (h : slot.record ≠ none → slot.reserved = false) : usage slot ≤ 1 := by
  rcases slot with ⟨_ | record, reserved⟩
  · cases reserved <;> simp [usage, weigh]
  obtain rfl : reserved = false := h (by simp)
  cases hphase : record.phase <;> simp [usage, weigh, isLive, hphase]

theorem usage_eq_zero (h : usage slot = 0) : slot.record = none ∧ slot.reserved = false := by
  rcases slot with ⟨_ | record, _ | _⟩
  · exact ⟨rfl, rfl⟩
  · simp [usage, weigh] at h
  all_goals cases hphase : record.phase <;> simp [usage, weigh, isLive, hphase] at h

theorem Consistent.occupancy (h : Consistent s) :
    s.memory.liveRecords + s.memory.historyRecords + s.memory.reservedRecords ≤
      s.memory.config.maxRecords := by
  rw [h.live, h.history, h.reserved, ← tally_usage, ← h.length]
  exact tally_le_length fun slot hslot => usage_le_one (h.exclusive slot hslot)

variable {config : MemoryConfig}

theorem configValid_bounds (h : memoryConfigValid config) :
    config.maxRecords ≤ memoryMaxRecords ∧ config.maxTotalBytes ≤ memoryMaxTotalBytes ∧
      config.maxClaims ≤ config.maxRecords := by
  simp only [memoryConfigValid, decide_eq_true_eq] at h
  exact ⟨h.2.1, h.2.2.2.2.1, h.2.2.2.2.2.2.2.2⟩

theorem consistent_of_memoryCreate (h : memoryCreate config = some memory) :
    Consistent (System.init memory) := by
  unfold memoryCreate at h
  split at h
  · rename_i hvalid
    cases h
    have hphase : ∀ p, phaseCount p (replicate config.maxRecords ⟨none, false⟩) = 0 :=
      fun p => tally_replicate_zero rfl
    have hreserved : reservedCount (replicate config.maxRecords ⟨none, false⟩) = 0 :=
      tally_replicate_zero rfl
    have hstored : storedBytes (replicate config.maxRecords ⟨none, false⟩) = 0 :=
      tally_replicate_zero rfl
    refine
      { config := hvalid
        length := by simp [System.init]
        exclusive := ?_
        live := (hphase _).symm
        history := (hphase _).symm
        claims := (hphase _).symm
        reserved := hreserved.symm
        retained := hstored.symm
        reservedBytes := rfl
        bytes := Nat.zero_le _
        admitted := rfl
        settled := Nat.zero_le _
        failed := by simp [System.init, hphase]
        failedMax := Nat.zero_le _
        held := by simp [System.init]
        distinct := by simp [System.init]
        idPos := le_refl 1
        idMax := by simp [System.init, max64]
        exhausted := by simp [System.init]
        issued := by simp [System.init, issuedIds] }
    intro slot hslot
    obtain ⟨-, rfl⟩ := mem_replicate.mp hslot
    simp
  · cases h

section Settle

variable (memory : Memory) (mv : Move)

@[simp] theorem Move.count_config : (mv.count memory).config = memory.config := by
  cases mv <;> rfl

@[simp] theorem Move.count_reservedRecords :
    (mv.count memory).reservedRecords = memory.reservedRecords := by
  cases mv <;> rfl

@[simp] theorem Move.count_retainedBytes :
    (mv.count memory).retainedBytes = memory.retainedBytes := by
  cases mv <;> rfl

@[simp] theorem Move.count_reservedBytes :
    (mv.count memory).reservedBytes = memory.reservedBytes := by
  cases mv <;> rfl

@[simp] theorem Move.count_nextRecordId :
    (mv.count memory).nextRecordId = memory.nextRecordId := by
  cases mv <;> rfl

@[simp] theorem Move.count_recordIdExhausted :
    (mv.count memory).recordIdExhausted = memory.recordIdExhausted := by
  cases mv <;> rfl

@[simp] theorem Move.count_admitted : (mv.count memory).admitted = memory.admitted := by
  cases mv <;> rfl

end Settle

section Preservation

variable {s : System} {index k : ℕ} {r : Reservation} {record : MemoryRecord}

section

variable (h : Consistent s)

include h

theorem Consistent.reserve {source : Record} {bytes : ℕ}
    (hr : Reservable s.memory source index bytes) :
    Consistent
      ⟨memoryReserve s.memory index bytes,
        s.inFlight ++ [⟨index, bytes, s.memory.nextRecordId, source⟩]⟩ := by
  obtain ⟨hrecords, htotal, -⟩ := configValid_bounds h.config
  have hslot := freeSlot_spec hr.slot
  have hoccupancy := h.occupancy
  have hbytes := h.bytes
  have hopen := hr.openBytes
  rw [sub64_of_le (a := s.memory.config.maxTotalBytes) (by omega), sub64_of_le (by omega)] at hopen
  have hreserved : add64 s.memory.reservedRecords 1 = s.memory.reservedRecords + 1 :=
    add64_of_le (by unfold memoryMaxRecords max64 at *; omega)
  have hreservedBytes : add64 s.memory.reservedBytes bytes = s.memory.reservedBytes + bytes :=
    add64_of_le (by unfold memoryMaxTotalBytes max64 at *; omega)
  have hcount := reservedCount_withReserved hslot true
  have hids := hr.ids
  have hidPos := h.idPos
  have hidMax := h.idMax
  have hissued := h.issued
  have hnext : s.memory.nextRecordId ≠ max64 →
      add64 s.memory.nextRecordId 1 = s.memory.nextRecordId + 1 :=
    fun hne => add64_of_le (by omega)
  refine
    { h with
      length := by simpa [memoryReserve] using h.length
      exclusive := ?_
      live := by simpa [memoryReserve, phaseCount_withReserved _ hslot] using h.live
      history := by simpa [memoryReserve, phaseCount_withReserved _ hslot] using h.history
      claims := by simpa [memoryReserve, phaseCount_withReserved _ hslot] using h.claims
      reserved := ?_
      retained := by simpa [memoryReserve, storedBytes_withReserved hslot] using h.retained
      reservedBytes := ?_
      bytes := ?_
      failed := by simpa [memoryReserve, phaseCount_withReserved _ hslot] using h.failed
      held := ?_
      distinct := ?_
      idPos := ?_
      idMax := ?_
      exhausted := ?_
      issued := ?_ }
  · refine forall_mem_modify h.exclusive ?_
    intro slot hslot'
    obtain rfl : slot = ⟨none, false⟩ := by simpa [hslot] using hslot'.symm
    simp
  · have := h.reserved
    simp only [memoryReserve, hreserved]
    simp only [Bool.toNat_false, Bool.toNat_true] at hcount
    omega
  · have := h.reservedBytes
    simp only [memoryReserve, hreservedBytes, tally_append, tally_cons, tally_nil]
    omega
  · simp only [memoryReserve, hreservedBytes]
    omega
  · -- The slot was free, so no other admission holds it.
    intro r hmem
    rcases mem_append.mp hmem with hmem | hmem
    · have hheld := h.held r hmem
      have hne : index ≠ r.slot := by
        rintro rfl
        rw [hslot] at hheld
        simp at hheld
      simpa [memoryReserve, getElem?_modify, hne] using hheld
    obtain rfl := mem_singleton.mp hmem
    simp [memoryReserve, hslot, withReserved]
  · rw [map_append]
    refine nodup_append_comm.mpr (nodup_cons.mpr ⟨fun ha => ?_, h.distinct⟩)
    obtain ⟨r, hmem, heq⟩ := mem_map.mp ha
    have hheld := h.held r hmem
    rw [heq, hslot] at hheld
    simp at hheld
  · simp only [memoryReserve]
    split
    · exact hidPos
    rename_i hne
    rw [hnext hne]
    omega
  · simp only [memoryReserve]
    split
    · exact hidMax
    rename_i hne
    rw [hnext hne]
    omega
  · intro hex
    have heq : s.memory.nextRecordId = max64 := by simpa [memoryReserve, hids] using hex
    simp [memoryReserve, heq]
  obtain ⟨hafter, hbefore⟩ := issuedIds_memoryReserve h hids index bytes
  simp only [hafter, length_append, length_singleton]
  simp only [memoryReserve]
  omega

section

variable (hk : s.inFlight[k]? = some r)

include hk

theorem Consistent.mem_held : s.memory.slots[r.slot]? = some ⟨none, true⟩ :=
  h.held r (mem_of_getElem? hk)

theorem Consistent.held_eraseIdx :
    ∀ r' ∈ s.inFlight.eraseIdx k, (s.memory.slots.modify r.slot f)[r'.slot]? =
      some ⟨none, true⟩ := by
  intro r' hr'
  have hne : r.slot ≠ r'.slot := (key_ne_of_mem_eraseIdx h.distinct hk hr').symm
  have hheld := h.held r' (mem_of_mem_eraseIdx hr')
  simpa [getElem?_modify, hne] using hheld

omit hk in
theorem Consistent.distinct_eraseIdx (k : ℕ) :
    ((s.inFlight.eraseIdx k).map Reservation.slot).Nodup :=
  h.distinct.sublist ((eraseIdx_sublist _ k).map _)

omit h in
theorem length_eraseIdx_of_getElem? : (s.inFlight.eraseIdx k).length + 1 = s.inFlight.length := by
  obtain ⟨hlt, -⟩ := List.getElem?_eq_some_iff.mp hk
  rw [length_eraseIdx_of_lt hlt]
  omega

theorem Consistent.release : Consistent (release s k r) := by
  have hslot := h.mem_held hk
  have hcount := reservedCount_withReserved hslot false
  have htally := tally_eraseIdx (w := Reservation.bytes) hk
  have hlength := length_eraseIdx_of_getElem? hk
  obtain ⟨⟩ := id h
  simp only [Bool.toNat_false, Bool.toNat_true] at hcount
  have hsub : sub64 s.memory.reservedRecords 1 = s.memory.reservedRecords - 1 :=
    sub64_of_le (by omega)
  have hsubBytes : sub64 s.memory.reservedBytes r.bytes = s.memory.reservedBytes - r.bytes :=
    sub64_of_le (by omega)
  have hphase := fun p => phaseCount_withReserved p hslot false
  simp only [Inbox.release, memoryReleaseReservation, hsub, hsubBytes]
  refine
    { h with
      length := by simpa using h.length
      exclusive := forall_mem_modify h.exclusive fun _ _ _ => rfl
      live := h.live.trans (hphase _).symm
      history := h.history.trans (hphase _).symm
      claims := h.claims.trans (hphase _).symm
      reserved := by dsimp only; omega
      retained := h.retained.trans (storedBytes_withReserved hslot false).symm
      reservedBytes := by dsimp only; omega
      bytes := by dsimp only; omega
      failed := by rw [hphase, h.failed]
      held := h.held_eraseIdx hk
      distinct := h.distinct_eraseIdx k
      issued := ?_ }
  change s.memory.admitted + (s.inFlight.eraseIdx k).length ≤ issuedIds s.memory
  omega

theorem Consistent.commit :
    Consistent (Inbox.release { s with memory := memoryStore s.memory r } k r) := by
  obtain ⟨hrecords, htotal, -⟩ := configValid_bounds h.config
  have hslot := h.mem_held hk
  obtain ⟨stored, hdef⟩ :
      ∃ t, s.memory.slots.modify r.slot (withRecord (some (memoryRecordCopy r))) = t :=
    ⟨_, rfl⟩
  have hstored : stored[r.slot]? = some ⟨some (memoryRecordCopy r), true⟩ := by
    simp [← hdef, hslot, withRecord]
  have hphase : ∀ p : RecordPhase → Bool, phaseCount p (stored.modify r.slot (withReserved false)) =
        phaseCount p s.memory.slots + (p .pending).toNat := by
    intro p
    rw [phaseCount_withReserved p hstored, ← hdef]
    exact phaseCount_withRecord p hslot (some (memoryRecordCopy r))
  have hstoredBytes :
      storedBytes (stored.modify r.slot (withReserved false)) =
        storedBytes s.memory.slots + r.bytes := by
    rw [storedBytes_withReserved hstored, ← hdef]
    exact storedBytes_withRecord hslot (some (memoryRecordCopy r))
  have hcount := reservedCount_withReserved hstored false
  have hcount' : reservedCount stored = reservedCount s.memory.slots := by
    rw [← hdef, reservedCount_withRecord hslot]
  have htally := tally_eraseIdx (w := Reservation.bytes) hk
  have hlength := length_eraseIdx_of_getElem? hk
  obtain ⟨⟩ := id h
  have hissuedMax := issuedIds_le h.idMax
  simp only [Bool.toNat_false, Bool.toNat_true] at hcount
  have hsub : sub64 s.memory.reservedRecords 1 = s.memory.reservedRecords - 1 :=
    sub64_of_le (by omega)
  have hsubBytes : sub64 s.memory.reservedBytes r.bytes = s.memory.reservedBytes - r.bytes :=
    sub64_of_le (by omega)
  have hlive : add64 s.memory.liveRecords 1 = s.memory.liveRecords + 1 :=
    add64_of_le (by unfold memoryMaxRecords max64 at *; omega)
  have hadmitted : add64 s.memory.admitted 1 = s.memory.admitted + 1 := add64_of_le (by omega)
  have hretained : add64 s.memory.retainedBytes r.bytes = s.memory.retainedBytes + r.bytes :=
    add64_of_le (by unfold memoryMaxTotalBytes max64 at *; omega)
  simp only [Inbox.release, memoryReleaseReservation, memoryStore, hdef, hsub, hsubBytes, hlive,
    hadmitted, hretained]
  refine
    { h with
      length := by simpa [← hdef] using h.length
      exclusive := ?_
      live := by rw [hphase, h.live]; rfl
      history := by rw [hphase, h.history]; rfl
      claims := by rw [hphase, h.claims]; rfl
      reserved := by dsimp only; omega
      retained := by rw [hstoredBytes, h.retained]
      reservedBytes := by dsimp only; omega
      bytes := by dsimp only; omega
      admitted := by dsimp only; omega
      failed := by rw [hphase, h.failed]; rfl
      held := ?_
      distinct := h.distinct_eraseIdx k
      issued := ?_ }
  · simp only [← hdef, modify_modify_eq]
    exact forall_mem_modify h.exclusive fun _ _ _ => rfl
  · simp only [← hdef, modify_modify_eq]
    exact h.held_eraseIdx hk
  change s.memory.admitted + 1 + (s.inFlight.eraseIdx k).length ≤ issuedIds s.memory
  omega

end

structure SettledCounters (memory : Memory) (slots : List Slot) : Prop where
  live : memory.liveRecords = phaseCount isLive slots
  history : memory.historyRecords = phaseCount (· = .tombstone) slots
  claims : memory.inFlightClaims = phaseCount (· = .claimed) slots
  admitted : memory.admitted = memory.liveRecords + memory.completed + memory.discarded
  settled : memory.historyRecords ≤ memory.completed + memory.discarded
  failed : memory.failed = memory.retried + memory.discarded + phaseCount (· = .failed) slots
  failedMax : memory.failed ≤ max64

theorem Consistent.settled_counters (mv : Move) (hphase : ∀ p : RecordPhase → Bool,
      phaseCount p slots + (p mv.before).toNat =
        phaseCount p s.memory.slots + (p mv.after).toNat) (hallowed : mv.Allowed s.memory) :
    SettledCounters (mv.count s.memory) slots := by
  obtain ⟨hrecords, -, hmaxClaims⟩ := configValid_bounds h.config
  have hoccupancy := h.occupancy
  have hissued := h.issued
  have hissuedMax := issuedIds_le h.idMax
  have hlive := hphase isLive
  have hhistory := hphase (· = .tombstone)
  have hclaims := hphase (· = .claimed)
  have hfailed := hphase (· = .failed)
  obtain ⟨-, -, -, live, history, claims, -, -, -, -, admitted, settled, failed, failedMax, -⟩ := h
  unfold memoryMaxRecords at hrecords
  have hmax : max64 = 2 ^ 64 - 1 := rfl
  -- In every case the old counters bound the new ones away from both ends of the word.
  cases mv with
  | claim =>
    simp [Move.before, Move.after, isLive] at hlive hhistory hclaims hfailed
    have hguard : s.memory.inFlightClaims < s.memory.config.maxClaims := hallowed
    have hinc : add64 s.memory.inFlightClaims 1 = s.memory.inFlightClaims + 1 :=
      add64_of_le (by omega)
    constructor <;> simp only [Move.count, hinc] <;> omega
  | complete =>
    simp [Move.before, Move.after, isLive] at hlive hhistory hclaims hfailed
    have hguard : s.memory.completed ≠ max64 := hallowed
    have hdecClaims : sub64 s.memory.inFlightClaims 1 = s.memory.inFlightClaims - 1 :=
      sub64_of_le (by omega)
    have hdecLive : sub64 s.memory.liveRecords 1 = s.memory.liveRecords - 1 :=
      sub64_of_le (by omega)
    have hincHistory : add64 s.memory.historyRecords 1 = s.memory.historyRecords + 1 :=
      add64_of_le (by omega)
    have hincCompleted : add64 s.memory.completed 1 = s.memory.completed + 1 :=
      add64_of_le (by omega)
    constructor <;> simp only [Move.count, hdecClaims, hdecLive, hincHistory, hincCompleted] <;>
      omega
  | fail =>
    simp [Move.before, Move.after, isLive] at hlive hhistory hclaims hfailed
    have hguard : s.memory.failed ≠ max64 := hallowed
    have hdecClaims : sub64 s.memory.inFlightClaims 1 = s.memory.inFlightClaims - 1 :=
      sub64_of_le (by omega)
    have hincFailed : add64 s.memory.failed 1 = s.memory.failed + 1 := add64_of_le (by omega)
    constructor <;> simp only [Move.count, hdecClaims, hincFailed] <;> omega
  | retry =>
    simp [Move.before, Move.after, isLive] at hlive hhistory hclaims hfailed
    have hguard : s.memory.retried ≠ max64 := hallowed
    have hincRetried : add64 s.memory.retried 1 = s.memory.retried + 1 := add64_of_le (by omega)
    constructor <;> simp only [Move.count, hincRetried] <;> omega
  | discard =>
    simp [Move.before, Move.after, isLive] at hlive hhistory hclaims hfailed
    have hguard : s.memory.discarded ≠ max64 := hallowed
    have hdecLive : sub64 s.memory.liveRecords 1 = s.memory.liveRecords - 1 :=
      sub64_of_le (by omega)
    have hincHistory : add64 s.memory.historyRecords 1 = s.memory.historyRecords + 1 :=
      add64_of_le (by omega)
    have hincDiscarded : add64 s.memory.discarded 1 = s.memory.discarded + 1 :=
      add64_of_le (by omega)
    constructor <;> simp only [Move.count, hdecLive, hincHistory, hincDiscarded] <;> omega

theorem Consistent.move (mv : Move) (hslot : s.memory.slots[index]? = some slot)
    (hrecord : slot.record = some record) (hbefore : record.phase = mv.before)
    (hafter : record'.phase = mv.after) (hbytes : record'.retainedBytes = record.retainedBytes)
    (hallowed : mv.Allowed s.memory) :
    Consistent { s with memory := settle s.memory mv index record' } := by
  obtain ⟨hrecords, -, -⟩ := configValid_bounds h.config
  obtain ⟨slots, hdef⟩ :
      ∃ t, s.memory.slots.modify index (withRecord (some record')) = t := ⟨_, rfl⟩
  have hphase : ∀ p : RecordPhase → Bool, phaseCount p slots + (p mv.before).toNat =
        phaseCount p s.memory.slots + (p mv.after).toNat := by
    intro p
    have := phaseCount_withRecord p hslot (some record')
    simpa [hrecord, hbefore, hafter, hdef] using this
  have hstored : storedBytes slots = storedBytes s.memory.slots := by
    have := storedBytes_withRecord hslot (some record')
    simpa [hrecord, hbytes, hdef] using this
  have hcount : reservedCount slots = reservedCount s.memory.slots := by
    rw [← hdef, reservedCount_withRecord hslot]
  have hunreserved : slot.reserved = false :=
    h.exclusive slot (mem_of_getElem? hslot) (by simp [hrecord])
  -- The record's slot is occupied, so it is none of those that admissions hold.
  have hheld : ∀ r ∈ s.inFlight, slots[r.slot]? = some ⟨none, true⟩ := by
    intro r hr
    have hheld := h.held r hr
    have hne : index ≠ r.slot := by
      rintro rfl
      rw [hslot] at hheld
      cases hheld
      cases hunreserved
    simpa [← hdef, getElem?_modify, hne] using hheld
  have hexclusive : ∀ slot ∈ slots, slot.record ≠ none → slot.reserved = false := by
    rw [← hdef]
    refine forall_mem_modify h.exclusive ?_
    intro slot' hslot' _
    obtain rfl : slot = slot' := by simpa [hslot] using hslot'
    exact hunreserved
  have hcounters := h.settled_counters mv hphase hallowed
  exact
    { config := by simpa [settle] using h.config
      length := by simpa [settle] using h.length
      exclusive := by simpa [settle, hdef] using hexclusive
      live := by simpa [settle, hdef] using hcounters.live
      history := by simpa [settle, hdef] using hcounters.history
      claims := by simpa [settle, hdef] using hcounters.claims
      reserved := by simpa [settle, hdef, hcount] using h.reserved
      retained := by simpa [settle, hdef, hstored] using h.retained
      reservedBytes := by simpa [settle] using h.reservedBytes
      bytes := by simpa [settle] using h.bytes
      admitted := by simpa [settle] using hcounters.admitted
      settled := by simpa [settle] using hcounters.settled
      failed := by simpa [settle, hdef] using hcounters.failed
      failedMax := by simpa [settle] using hcounters.failedMax
      held := by simpa [settle, hdef] using hheld
      distinct := h.distinct
      idPos := by simpa [settle] using h.idPos
      idMax := by simpa [settle] using h.idMax
      exhausted := by simpa [settle] using h.exhausted
      issued := by simpa [settle, issuedIds] using h.issued }

theorem Consistent.forget (hslot : s.memory.slots[index]? = some ⟨some record, false⟩)
    (hphase : record.phase = .tombstone) :
    Consistent { s with memory := eraseRecord s.memory index record } := by
  have hcount : ∀ p : RecordPhase → Bool,
      phaseCount p (s.memory.slots.modify index (withRecord none)) + (p .tombstone).toNat =
        phaseCount p s.memory.slots := by
    intro p
    have := phaseCount_withRecord p hslot none
    simpa [hphase] using this
  have hlive := hcount isLive
  have hhistory := hcount (· = .tombstone)
  have hclaims := hcount (· = .claimed)
  have hfailed := hcount (· = .failed)
  have hstored : storedBytes (s.memory.slots.modify index (withRecord none)) +
      record.retainedBytes = storedBytes s.memory.slots :=
    storedBytes_withRecord hslot none
  simp only [isLive, reduceCtorEq, or_self, decide_false, decide_true, Bool.toNat_false,
    Bool.toNat_true, add_zero] at hlive hhistory hclaims hfailed
  obtain ⟨⟩ := id h
  have hsub : sub64 s.memory.historyRecords 1 = s.memory.historyRecords - 1 :=
    sub64_of_le (by omega)
  have hsubBytes : sub64 s.memory.retainedBytes record.retainedBytes =
      s.memory.retainedBytes - record.retainedBytes :=
    sub64_of_le (by omega)
  simp only [eraseRecord, hsub, hsubBytes]
  refine
    { h with
      length := by simpa using h.length
      exclusive := forall_mem_modify h.exclusive fun slot _ hne => by simp at hne
      live := h.live.trans hlive.symm
      history := by dsimp only; omega
      claims := h.claims.trans hclaims.symm
      reserved := h.reserved.trans (reservedCount_withRecord hslot none).symm
      retained := by dsimp only; omega
      bytes := by dsimp only; omega
      settled := by dsimp only; omega
      failed := by rw [hfailed, h.failed]
      held := ?_
      issued := h.issued }
  intro r hr
  have hheld := h.held r hr
  have hne : index ≠ r.slot := by
    rintro rfl
    rw [hslot] at hheld
    simp at hheld
  simpa [getElem?_modify, hne] using hheld

theorem Consistent.effect {s' : System} {op : Operation} (he : Effect s op s') : Consistent s' := by
  cases he with
  | idle => exact h
  | reserve hr _ => exact h.reserve hr
  | reserveZero hid =>
    have := h.idPos
    omega
  | release hk => exact h.release hk
  | commit hk _ _ => exact h.commit hk
  | move mv record' hslot hrecord hbefore hafter _ _ hbytes hallowed =>
    exact h.move mv hslot hrecord hbefore hafter hbytes hallowed
  | forget hslot hphase => exact h.forget hslot hphase
  | close => exact { h with issued := h.issued }

end

end Preservation

theorem consistent_of_run (hcreate : memoryCreate config = some memory)
    (h : Run (Acts act) (System.init memory) tr s) : Consistent s :=
  h.invariant (consistent_of_memoryCreate hcreate) fun _ _ _ hs hstep =>
    hs.effect (act_effect hstep)

end TurboFlow.Inbox
