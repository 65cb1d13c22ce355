import TurboFlow.TurboDb.Leases
import TurboFlow.Inbox.Capacity
import Mathlib.Algebra.BigOperators.Ring.Finset

/-!
# One owner beside the memory inbox

The first owner of a namespace uses it alone, and the engine commits every transaction. `serve` is a
call that runs to its end, and `memoryServe` the call on the memory inbox. `Matches` relates the two
states: the slots and the rows have the same views, in whatever order, and equal counters.
-/

namespace TurboFlow.TurboDb

open Inbox Transition Table List Slot

/-! ### Calls that run alone -/

def finish (s : System) : ℕ → Outcome → Option (System × Result)
  | _, .returned result => some (s, result)
  | fuel + 1, .continues =>
    match act s (.advance 0 0 .ok) with
    | some (s', out) => finish s' fuel out
    | none => none
  | _, _ => none

/-- One call of the first owner. A settlement takes the most steps: connection, transaction,
metadata. -/
def serve (s : System) (op : Operation) : Option (System × Result) :=
  match act s (.call 0 op) with
  | some (s', out) => finish s' 3 out
  | none => none

/-- The receipt of `turbo_flow_inbox_admit`. -/
def memoryReceipt (rc : Status) (recordId : ℕ) : Result :=
  if rc ≠ .ok then .admitted rc 0
  else if recordId = 0 then .admitted .eproto 0
  else .admitted .ok recordId

def memoryAdmit (memory : Memory) (source : Record) : Memory × Result :=
  match memoryAdmitReserve memory source with
  | (reserved, .returned rc recordId) => (reserved, memoryReceipt rc recordId)
  | (reserved, .reserved r) =>
    let (stored, rc, recordId) := memoryAdmitCommit reserved r
    (stored, memoryReceipt rc recordId)

def memoryStatus (r : Memory × Status) : Memory × Result :=
  (r.1, .status r.2)

def memoryClaimed (r : Memory × Except Status Claim) : Memory × Result :=
  (r.1, .claimed r.2)

def memoryServe (memory : Memory) : Operation → Memory × Result
  | .admitRecord record =>
    if recordValid record.1 ≠ .ok then (memory, .admitted (recordValid record.1) 0)
    else memoryAdmit memory record.1
  | .claim => memoryClaimed (inboxClaim memory claimRequestInit)
  | .claimEx request => memoryClaimed (inboxClaim memory request)
  | .complete recordId claimToken =>
    if recordId = 0 ∨ claimToken = 0 then (memory, .status .einval)
    else memoryStatus (memoryComplete memory recordId claimToken)
  | .fail recordId claimToken status =>
    if recordId = 0 ∨ claimToken = 0 ∨ status = .ok then (memory, .status .einval)
    else memoryStatus (memoryFail memory recordId claimToken status)
  | .retry recordId =>
    if recordId = 0 then (memory, .status .einval)
    else memoryStatus (memoryRetry memory recordId)
  | .discard recordId =>
    if recordId = 0 then (memory, .status .einval)
    else memoryStatus (memoryDiscard memory recordId)
  | .forget recordId =>
    if recordId = 0 then (memory, .status .einval)
    else memoryStatus (memoryForget memory recordId)
  | .scanFailed afterId capacity =>
    (memory, .failed (Inbox.inboxScanFailed memory afterId capacity))
  | .scanHistory afterId capacity =>
    (memory, .history (Inbox.inboxScanHistory memory afterId capacity))
  | .close => memoryStatus (memoryClose memory)
  | .snapshot => (memory, .snapshot (Inbox.inboxSnapshot memory))

theorem finish_run (h : finish s fuel out = some (s', result)) : ∃ tr, Run (Acts act) s tr s' := by
  induction fuel generalizing s out with
  | zero =>
    cases out with
    | returned r =>
      cases h
      exact ⟨[], Run.nil⟩
    | _ => cases h
  | succ fuel ih =>
    cases out with
    | returned r =>
      cases h
      exact ⟨[], Run.nil⟩
    | continues =>
      simp only [finish] at h
      split at h
      · rename_i t out hact
        have hstep : Acts act s (.advance 0 0 .ok, out) t := hact
        obtain ⟨tr, hrun⟩ := ih h
        exact ⟨_, Run.cons_iff.mpr ⟨t, hstep, hrun⟩⟩
      · cases h
    | _ => cases h

theorem serve_run (h : serve s op = some (s', result)) : ∃ tr, Run (Acts act) s tr s' := by
  unfold serve at h
  split at h
  · rename_i t out hact
    have hstep : Acts act s (.call 0 op, out) t := hact
    obtain ⟨tr, hrun⟩ := finish_run h
    exact ⟨_, Run.cons_iff.mpr ⟨t, hstep, hrun⟩⟩
  · cases h

theorem serve_sound (h : serve s op = some (s', result)) (hsound : Sound limits s)
    (hleased : Leased s) : Sound limits s' ∧ Leased s' := by
  obtain ⟨tr, hrun⟩ := serve_run h
  exact hrun.invariant (P := fun s => Sound limits s ∧ Leased s) ⟨hsound, hleased⟩
    fun _ _ _ hs hstep => ⟨hs.1.effect (act_effect hstep), hs.2.act hs.1 hstep⟩

/-! ### Records as callers see them -/

structure View where
  recordId : ℤ
  phase : RecordPhase
  record : Record
  retainedBytes : ℤ
  claimToken : Option ℤ
  failure : Option (Status × FailureKind)
  terminalKind : Option TerminalKind

def slotView (r : MemoryRecord) : View where
  recordId := r.recordId
  phase := r.phase
  record := r.view
  retainedBytes := r.retainedBytes
  claimToken := if r.phase = .claimed then some r.claimToken else none
  failure := if r.phase = .failed then some (r.failureStatus, r.failureKind) else none
  terminalKind := r.terminalKind

def rowView (row : Row) : View where
  recordId := row.recordId
  phase := row.phase
  record := materialize row.columns
  retainedBytes := row.retainedBytes
  claimToken := if row.phase = .claimed then some row.claimToken else none
  failure := if row.phase = .failed then some (row.failureStatus, row.failureKind) else none
  terminalKind := row.terminalKind

variable {r : MemoryRecord} {row : Row} {index : ℕ} {limits : Limits} {memory : Memory}
  {db : Database} {o : Owner}

section Views

section

variable (h : slotView r = rowView row)

include h

theorem recordId_of_view : (r.recordId : ℤ) = row.recordId :=
  congrArg View.recordId h

theorem phase_of_view : r.phase = row.phase :=
  congrArg View.phase h

theorem record_of_view : r.view = materialize row.columns :=
  congrArg View.record h

theorem retainedBytes_of_view : (r.retainedBytes : ℤ) = row.retainedBytes :=
  congrArg View.retainedBytes h

theorem terminalKind_of_view : r.terminalKind = row.terminalKind :=
  congrArg View.terminalKind h

theorem claimToken_of_view (hphase : row.phase = .claimed) :
    (r.claimToken : ℤ) = row.claimToken := by
  have htoken := congrArg View.claimToken h
  simp only [slotView, rowView, phase_of_view h, hphase, if_true, Option.some.injEq] at htoken
  exact htoken

theorem failure_of_view (hphase : row.phase = .failed) :
    r.failureStatus = row.failureStatus ∧ r.failureKind = row.failureKind := by
  have hfailure := congrArg View.failure h
  simp only [slotView, rowView, phase_of_view h, hphase, if_true, Option.some.injEq,
    Prod.mk.injEq] at hfailure
  exact hfailure

end

end Views

/-! ### The records in the slots -/

def stored (slots : List Slot) : List MemoryRecord :=
  slots.filterMap record

section Stored

variable {slots : List Slot} {slot : Slot}

theorem mem_stored : r ∈ stored slots ↔ ∃ slot ∈ slots, slot.record = some r :=
  mem_filterMap

theorem mem_stored_of_getElem? (h : slots[index]? = some slot) (hr : slot.record = some r) :
    r ∈ stored slots :=
  mem_stored.mpr ⟨slot, mem_of_getElem? h, hr⟩

theorem stored_replicate (n : ℕ) (b : Bool) : stored (replicate n ⟨none, b⟩) = [] := by
  simp [stored]

theorem stored_around (h : slots[index]? = some slot) (hr : slot.record = some r) :
    ∃ before behind, stored slots = before ++ r :: behind ∧
      (∀ r', stored (slots.modify index (withRecord (some r'))) = before ++ r' :: behind) ∧
      stored (slots.modify index (withRecord none)) = before ++ behind := by
  obtain ⟨before, behind, hsplit, hset, -⟩ := exists_around h
  refine ⟨stored before, stored behind, ?_, ?_, ?_⟩
  · rw [hsplit]
    simp [stored, filterMap_append, hr]
  · intro r'
    rw [modify_eq_set h, hset]
    simp [stored, filterMap_append, withRecord]
  rw [modify_eq_set h, hset]
  simp [stored, filterMap_append, withRecord]

theorem stored_insert (h : slots[index]? = some slot) (hnone : slot.record = none)
    (r : MemoryRecord) :
    (stored (slots.modify index (withRecord (some r)))).Perm (stored slots ++ [r]) := by
  obtain ⟨before, behind, hsplit, hset, -⟩ := exists_around h
  rw [modify_eq_set h, hset, hsplit]
  simp only [stored, filterMap_append, filterMap_cons, withRecord, hnone]
  exact (perm_middle).trans (perm_append_singleton _ _).symm

@[simp] theorem stored_withReserved (b : Bool) :
    stored (slots.modify index (withReserved b)) = stored slots := by
  induction slots generalizing index with
  | nil => simp [stored]
  | cons slot slots ih =>
    cases index with
    | zero => simp [stored, withReserved, filterMap_cons]
    | succ index =>
      simp only [modify_succ_cons, stored, filterMap_cons] at ih ⊢
      rw [ih]

theorem phaseCount_eq_countP (p : RecordPhase → Bool) (slots : List Slot) :
    phaseCount p slots = (stored slots).countP fun r => p r.phase := by
  induction slots with
  | nil => rfl
  | cons slot slots ih =>
    rcases slot with ⟨_ | r, reserved⟩
    · simpa [phaseCount, stored, tally, weigh] using ih
    simp only [phaseCount, stored, tally, map_cons, sum_cons, weigh,
      Option.elim_some, filterMap_cons] at ih ⊢
    rw [ih, countP_cons, Nat.add_comm]
    cases p r.phase <;> simp

theorem storedBytes_eq_sum (slots : List Slot) :
    storedBytes slots = ((stored slots).map MemoryRecord.retainedBytes).sum := by
  induction slots with
  | nil => rfl
  | cons slot slots ih =>
    rcases slot with ⟨_ | r, reserved⟩
    · simpa [storedBytes, stored, tally, weigh] using ih
    simp only [storedBytes, stored, tally, map_cons, sum_cons, weigh,
      Option.elim_some, filterMap_cons] at ih ⊢
    rw [ih]

end Stored

/-! ### The relation -/

structure Matches (limits : Limits) (memory : Memory) (db : Database) (o : Owner) : Prop where
  config : memory.config = limits
  calls : o.calls = []
  connections : 0 < o.connectionCount
  generation : o.generation = 1
  current : db.metaRow.generation = 1
  closing : o.closing = false
  accepting : o.accepting = memory.accepting
  views : ((stored memory.slots).map slotView).Perm (db.rows.map rowView)
  nextRecordId : db.metaRow.nextRecordId = memory.nextRecordId
  nextClaimToken : db.metaRow.nextClaimToken = memory.nextClaimToken
  completed : db.metaRow.completed = memory.completed
  retried : db.metaRow.retried = memory.retried
  discarded : db.metaRow.discarded = memory.discarded
  reserved : memory.reservedRecords = 0
  ids : memory.recordIdExhausted = false
  tokens : memory.claimTokenExhausted = false

structure Mirrors (limits : Limits) (memory : Memory) (db : Database) (o : Owner) : Prop
    extends Matches limits memory db o where
  sound : Sound limits ⟨db, [some o]⟩
  leased : Leased ⟨db, [some o]⟩
  consistent : Consistent ⟨memory, []⟩

namespace Mirrors

variable (h : Mirrors limits memory db o)

include h

omit h in
theorem live (_ : Mirrors limits memory db o) : System.Live ⟨db, [some o]⟩ 0 o := rfl

theorem intact : Intact limits db := h.sound.intact

theorem ownerLimits : o.limits = limits :=
  h.sound.ownerLimits 0 o h.live

theorem exists_row (hr : r ∈ stored memory.slots) : ∃ row ∈ db.rows, slotView r = rowView row := by
  have hmem : slotView r ∈ db.rows.map rowView := h.views.mem_iff.mp (mem_map_of_mem hr)
  obtain ⟨row, hrow, heq⟩ := mem_map.mp hmem
  exact ⟨row, hrow, heq.symm⟩

theorem exists_stored (hrow : row ∈ db.rows) :
    ∃ r ∈ stored memory.slots, slotView r = rowView row := by
  have hmem : rowView row ∈ (stored memory.slots).map slotView :=
    h.views.mem_iff.mpr (mem_map_of_mem hrow)
  exact mem_map.mp hmem

theorem phaseCount_eq (phase : RecordPhase) :
    (phaseCount (· = phase) memory.slots : ℤ) = phaseRows phase db.rows := by
  have hperm := h.views.countP_eq fun view => decide (view.phase = phase)
  rw [countP_map, countP_map] at hperm
  rw [phaseCount_eq_countP, phaseRows]
  exact_mod_cast hperm

theorem inFlightClaims_eq : db.metaRow.inFlightClaims = memory.inFlightClaims := by
  have hclaims := h.consistent.claims
  rw [h.intact.claimed, ← h.phaseCount_eq]
  exact_mod_cast hclaims.symm

theorem historyRecords_eq : db.metaRow.historyRecords = memory.historyRecords := by
  have hhistory := h.consistent.history
  rw [h.intact.history, ← h.phaseCount_eq]
  exact_mod_cast hhistory.symm

theorem records_eq : db.metaRow.records = memory.liveRecords := by
  have hlive := h.consistent.live
  have hsplit := phaseCount_isLive memory.slots
  rw [h.intact.records, h.intact.pending, h.intact.claimed, h.intact.failedRows,
    ← h.phaseCount_eq, ← h.phaseCount_eq, ← h.phaseCount_eq]
  simp only at hlive
  omega

theorem retainedBytes_eq : db.metaRow.retainedBytes = memory.retainedBytes := by
  have hretained := h.consistent.retained
  simp only at hretained
  rw [h.intact.bytes, rowBytes, hretained, storedBytes_eq_sum]
  have hperm := (h.views.map View.retainedBytes).sum_eq
  simp only [map_map] at hperm
  rw [Nat.cast_list_sum, map_map]
  exact hperm.symm

theorem admitted_eq : db.metaRow.admitted = memory.admitted := by
  have hadmitted := h.consistent.admitted
  simp only at hadmitted
  rw [h.intact.admitted, h.records_eq, h.completed, h.discarded]
  omega

theorem failed_eq : db.metaRow.failed = memory.failed := by
  have hfailed := h.consistent.failed
  simp only at hfailed
  rw [h.intact.failures, h.intact.failedRows, ← h.phaseCount_eq, h.retried, h.discarded]
  omega

theorem maxRecordBytes_le : (limits.maxRecordBytes : ℤ) ≤ int64Max := by
  have hvalid := h.consistent.config
  simp only [memoryConfigValid, decide_eq_true_eq, h.config] at hvalid
  have htotal : memoryMaxTotalBytes = 2 ^ 63 - 1 := by decide
  simp only [int64Max]
  omega

end Mirrors

/-! ### Lookups -/

structure Found (memory : Memory) (db : Database) (index : ℕ) (r : MemoryRecord)
    (before : List Row) (row : Row) (behind : List Row) : Prop where
  slot : ∃ slot, memory.slots[index]? = some slot ∧ slot.record = some r
  split : db.rows = before ++ row :: behind
  view : slotView r = rowView row

namespace Found

variable {before behind : List Row}

section

variable (h : Found memory db index r before row behind)
include h

theorem mem : row ∈ db.rows := by
  rw [h.split]
  simp

theorem exchange (hmirrors : Mirrors limits memory db o) (hview : slotView r' = rowView row') :
    ((stored (memory.slots.modify index (withRecord (some r')))).map slotView).Perm
      ((before ++ row' :: behind).map rowView) := by
  obtain ⟨slot, hslot, hr⟩ := h.slot
  obtain ⟨b, e, hstored, hset, -⟩ := stored_around hslot hr
  have hviews := hmirrors.views
  rw [hstored, h.split, map_append, map_cons, map_append, map_cons, h.view] at hviews
  rw [hset r', map_append, map_cons, map_append, map_cons, hview]
  have hrest := (perm_middle.symm.trans (hviews.trans perm_middle)).cons_inv
  exact perm_middle.trans ((hrest.cons _).trans perm_middle.symm)

theorem removal (hmirrors : Mirrors limits memory db o) :
    ((stored (memory.slots.modify index (withRecord none))).map slotView).Perm
      ((before ++ behind).map rowView) := by
  obtain ⟨slot, hslot, hr⟩ := h.slot
  obtain ⟨b, e, hstored, -, hremove⟩ := stored_around hslot hr
  have hviews := hmirrors.views
  rw [hstored, h.split, map_append, map_cons, map_append, map_cons, h.view] at hviews
  rw [hremove, map_append, map_append]
  exact (perm_middle.symm.trans (hviews.trans perm_middle)).cons_inv

end

end Found

theorem findFrom_eq_none : findFrom p index slots = none ↔ ∀ r ∈ stored slots, p r = false := by
  rw [findFrom_eq_none_iff]
  constructor
  · intro h r hr
    obtain ⟨slot, hslot, heq⟩ := mem_stored.mp hr
    exact h slot hslot r heq
  intro h slot hslot r heq
  exact h r (mem_stored.mpr ⟨slot, hslot, heq⟩)

namespace Mirrors

theorem selects (h : Mirrors limits memory db o) (hrow : row ∈ db.rows) (hp : p row = true)
    (hid : ∀ b ∈ db.rows, p b = true → b.recordId = row.recordId) :
    ∃ before behind, Rows.Selects p db.rows before row behind :=
  Rows.Selects.of_mem h.intact.ids_nodup hrow hp hid

theorem find_cases (h : Mirrors limits memory db o) (recordId : ℕ) :
    (memoryFind memory recordId = none ∧ ∀ row ∈ db.rows, row.recordId ≠ (recordId : ℤ)) ∨
      ∃ index r before row behind, memoryFind memory recordId = some (index, r) ∧
        r.recordId = recordId ∧ Found memory db index r before row behind ∧
        Rows.Selects (fun row => row.recordId = (recordId : ℤ)) db.rows before row behind := by
  rcases hfind : memoryFind memory recordId with _ | ⟨index, r⟩
  · refine .inl ⟨rfl, ?_⟩
    intro row hrow hid
    obtain ⟨r, hr, hview⟩ := h.exists_stored hrow
    have hother := findFrom_eq_none.mp hfind r hr
    have hsame := (recordId_of_view hview).trans hid
    simp only [beq_eq_false_iff_ne, ne_eq] at hother
    exact hother (by exact_mod_cast hsame)
  obtain ⟨slot, hslot, hrecord, hid⟩ := memoryFind_spec hfind
  obtain ⟨row, hrow, hview⟩ := h.exists_row (mem_stored_of_getElem? hslot hrecord)
  have hrowId : row.recordId = (recordId : ℤ) := by
    rw [← recordId_of_view hview, hid]
  obtain ⟨before, behind, hsel⟩ :=
    h.selects hrow (p := fun row => row.recordId = (recordId : ℤ)) (by simp [hrowId])
      fun b _ hb => (decide_eq_true_eq.mp hb).trans hrowId.symm
  exact .inr ⟨index, r, before, row, behind, rfl, hid, ⟨⟨slot, hslot, hrecord⟩, hsel.split, hview⟩,
    hsel⟩

end Mirrors

end TurboFlow.TurboDb
