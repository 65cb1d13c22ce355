import TurboFlow.Inbox.Partition
import TurboFlow.Inbox.Scan

/-!
# Reading an index by pages

A reader of an index passes the last id of a page to the next scan, until a page is empty. The ids
are distinct, so a page and the records behind its last id are together the records behind its
cursor. The wrappers accept every page: a failed record carries a failure, a tombstone its terminal
kind.
-/

namespace TurboFlow.Inbox

open Transition List MemoryRecord

/-- The scans of a reader from `afterId` on, until a page is empty. There is no result when a scan
is refused or the fuel is spent. -/
def scanAll {E : Type*} (scan : ℕ → Except Status (List E)) (idOf : E → ℕ) :
    ℕ → ℕ → Option (List E)
  | 0, _ => none
  | fuel + 1, afterId =>
    match scan afterId with
    | .error _ => none
    | .ok [] => some []
    | .ok page => (scanAll scan idOf fuel ((page.map idOf).getLastD afterId)).map (page ++ ·)

def recordsIn (phase : RecordPhase) (slots : List Slot) : List MemoryRecord :=
  (slots.filterMap Slot.record).filter (·.phase = phase)

def recordsBehind (phase : RecordPhase) (slots : List Slot) (afterId : ℕ) : List MemoryRecord :=
  (recordsIn phase slots).filter (afterId < ·.recordId)

variable {phase : RecordPhase} {record : MemoryRecord}

section Pages

variable {slots : List Slot} {afterId capacity : ℕ}

theorem mem_recordsBehind : record ∈ recordsBehind phase slots afterId ↔
    (∃ slot ∈ slots, slot.record = some record) ∧ record.phase = phase ∧
      afterId < record.recordId := by
  simp only [recordsBehind, recordsIn, mem_filter, mem_filterMap, decide_eq_true_eq, and_assoc]

theorem scanFrom_succ (phase : RecordPhase) (slots : List Slot) (afterId capacity : ℕ) :
    (scanFrom phase slots afterId (capacity + 1) = [] ∧
        recordsBehind phase slots afterId = []) ∨
      ∃ record ∈ recordsBehind phase slots afterId, scanFrom phase slots afterId (capacity + 1) =
          record :: scanFrom phase slots record.recordId capacity ∧
        ∀ other ∈ recordsBehind phase slots afterId, record.recordId ≤ other.recordId := by
  rw [scanFrom]
  set eligible : MemoryRecord → Bool :=
    fun record => record.phase == phase && decide (afterId < record.recordId)
  have hoverall : ∀ other ∈ recordsBehind phase slots afterId, ∃ oldest,
      oldestFrom eligible none 0 slots = some oldest ∧ oldest.2.recordId ≤ other.recordId := by
    intro other hother
    obtain ⟨⟨slot, hslot, hrecord⟩, hphase, hafter⟩ := mem_recordsBehind.mp hother
    exact (oldestFrom_le eligible none 0 slots).2 slot hslot other hrecord
      (by simp [eligible, hphase, hafter])
  rcases hfound : oldestFrom eligible none 0 slots with _ | ⟨index, record⟩
  · refine .inl ⟨rfl, eq_nil_iff_forall_not_mem.mpr fun other hother => ?_⟩
    obtain ⟨oldest, heq, -⟩ := hoverall other hother
    cases hfound.symm.trans heq
  rcases oldestFrom_spec hfound with hnone | ⟨k, slot, -, hslot, hrecord, heligible⟩
  · cases hnone
  refine .inr ⟨record, mem_recordsBehind.mpr
    ⟨⟨slot, mem_of_getElem? hslot, hrecord⟩, by simpa [eligible] using heligible⟩, rfl, ?_⟩
  intro other hother
  obtain ⟨oldest, heq, hle⟩ := hoverall other hother
  obtain rfl := Option.some.inj (hfound.symm.trans heq)
  exact hle

theorem ascendingFrom_append (ids ids' : List ℕ) :
    ascendingFrom afterId (ids ++ ids') =
      (ascendingFrom afterId ids && ascendingFrom (ids.getLastD afterId) ids') := by
  induction ids generalizing afterId with
  | nil => simp
  | cons id ids ih => simp [ih, Bool.and_assoc, getLast?_cons]

theorem pairwise_of_ascendingFrom (h : ascendingFrom afterId ids) :
    (afterId :: ids).Pairwise (· < ·) := by
  rw [← isChain_iff_pairwise]
  induction ids generalizing afterId with
  | nil => exact .singleton _
  | cons id ids ih =>
    obtain ⟨hlt, hids⟩ := by simpa using h
    exact .cons_cons hlt (ih hids)

theorem scanFrom_page (phase : RecordPhase) (slots : List Slot) (afterId capacity : ℕ) :
    (scanFrom phase slots afterId capacity).length ≤ capacity ∧
      ascendingFrom afterId
        ((scanFrom phase slots afterId capacity).map recordId) := by
  induction capacity generalizing afterId with
  | zero => exact ⟨le_refl _, rfl⟩
  | succ capacity ih =>
    rcases scanFrom_succ phase slots afterId capacity with ⟨hnil, -⟩ | ⟨record, hmem, hcons, -⟩
    · simp [hnil]
    · simp [hcons, ih, (mem_recordsBehind.mp hmem).2.2]

variable (hids : ((slots.filterMap Slot.record).map recordId).Nodup)
include hids

/-- The oldest record behind a cursor, and the records behind that one. -/
theorem recordsBehind_cons (hmem : record ∈ recordsBehind phase slots afterId)
    (hle : ∀ other ∈ recordsBehind phase slots afterId, record.recordId ≤ other.recordId) :
    (recordsBehind phase slots afterId).Perm
      (record :: recordsBehind phase slots record.recordId) := by
  have hnodup : (recordsBehind phase slots afterId).Nodup := ((hids.of_map _).filter _).filter _
  have hrest : (recordsBehind phase slots afterId).erase record =
      recordsBehind phase slots record.recordId := by
    rw [hnodup.erase_eq_filter, recordsBehind, recordsBehind, filter_filter]
    refine filter_congr fun other hother => ?_
    have hrecord := (mem_filter.mp hmem).1
    rw [Bool.eq_iff_iff]
    simp only [Bool.and_eq_true, bne_iff_ne, decide_eq_true_eq]
    constructor
    · rintro ⟨hne, hlt⟩
      refine lt_of_le_of_ne (hle other (mem_filter.mpr ⟨hother, by simpa using hlt⟩)) ?_
      exact fun heq => hne (inj_on_of_nodup_map hids (mem_filter.mp hother).1
        (mem_filter.mp hrecord).1 heq.symm)
    intro hlt
    exact ⟨fun heq => absurd hlt (by simp [heq]), (mem_recordsBehind.mp hmem).2.2.trans hlt⟩
  exact hrest ▸ perm_cons_erase hmem

theorem recordsBehind_perm (phase : RecordPhase) (afterId capacity : ℕ) :
    (recordsBehind phase slots afterId).Perm
      (scanFrom phase slots afterId capacity ++ recordsBehind phase slots
        (((scanFrom phase slots afterId capacity).map recordId).getLastD afterId)) := by
  induction capacity generalizing afterId with
  | zero => exact .refl _
  | succ capacity ih =>
    rcases scanFrom_succ phase slots afterId capacity with ⟨hnil, -⟩ | ⟨record, hmem, hcons, hle⟩
    · simp [hnil]
    simpa [hcons, getLast?_cons] using
      (recordsBehind_cons hids hmem hle).trans ((ih record.recordId).cons record)

theorem scanFrom_subset (afterId capacity : ℕ) :
    scanFrom phase slots afterId capacity ⊆ recordsIn phase slots := fun _ hmem =>
  (mem_filter.mp ((recordsBehind_perm hids phase afterId capacity).symm.subset
    (mem_append_left _ hmem))).1

variable {E : Type*} {scan : ℕ → Except Status (List E)} {idOf : E → ℕ}
  {entry : MemoryRecord → E} (hid : ∀ record, idOf (entry record) = record.recordId)
  (hcapacity : 0 < capacity)
  (hscan : ∀ afterId, scan afterId = .ok ((scanFrom phase slots afterId capacity).map entry))
include hid hcapacity hscan

/-- A reading returns the records behind its cursor in the order of their ids. Each page leaves
fewer. -/
theorem scanAll_records (hfuel : (recordsBehind phase slots afterId).length < fuel) :
    ∃ records : List MemoryRecord, scanAll scan idOf fuel afterId = some (records.map entry) ∧
      records.Perm (recordsBehind phase slots afterId) ∧
      ascendingFrom afterId (records.map recordId) := by
  induction fuel generalizing afterId with
  | zero => cases hfuel
  | succ fuel ih =>
    have hperm := recordsBehind_perm hids phase afterId capacity
    have hascending := (scanFrom_page phase slots afterId capacity).2
    rcases hpage : scanFrom phase slots afterId capacity with _ | ⟨record, page⟩
    · refine ⟨[], by simp [scanAll, hscan, hpage], ?_, rfl⟩
      obtain ⟨capacity, rfl⟩ := Nat.exists_eq_succ_of_ne_zero hcapacity.ne'
      rcases scanFrom_succ phase slots afterId capacity with ⟨-, hnil⟩ | ⟨record, -, hcons, -⟩
      · rw [hnil]
      · cases hpage.symm.trans hcons
    rw [hpage] at hperm hascending
    have hlength := hperm.length_eq
    rw [length_append, length_cons] at hlength
    obtain ⟨rest, hrest, hbehind, hsorted⟩ :=
      @ih (((record :: page).map recordId).getLastD afterId) (by omega)
    have hlast : ((record :: page).map entry).map idOf =
        (record :: page).map recordId := by simp [hid]
    refine ⟨record :: page ++ rest, ?_, (hbehind.append_left _).trans hperm.symm, ?_⟩
    · rw [← hlast] at hrest
      simp only [scanAll, hscan, hpage, map_cons] at hrest ⊢
      rw [hrest]
      simp
    rw [map_append, ascendingFrom_append, hascending, hsorted]
    rfl

theorem scanAll_index (hpos : ∀ record ∈ recordsIn phase slots, 0 < record.recordId) :
    ∃ records : List MemoryRecord,
      scanAll scan idOf (slots.length + 1) 0 = some (records.map entry) ∧
      records.Perm (recordsIn phase slots) ∧ (records.map recordId).Pairwise (· < ·) := by
  have hbehind : recordsBehind phase slots 0 = recordsIn phase slots :=
    filter_eq_self.mpr fun record hmem => decide_eq_true (hpos record hmem)
  have hlength : (recordsIn phase slots).length ≤ slots.length :=
    (length_filter_le _ _).trans (length_filterMap_le _ _)
  obtain ⟨records, hall, hperm, hascending⟩ := scanAll_records hids hid hcapacity hscan
    (by rw [hbehind]; exact Nat.lt_succ_of_le hlength)
  exact ⟨records, hall, hbehind ▸ hperm, (pairwise_of_ascendingFrom hascending).of_cons⟩

end Pages

/-! ### The readings -/

variable {config : MemoryConfig} {memory : Memory} {s : System} {tr : List (Operation × Outcome)}

theorem marked_of_run (hcreate : memoryCreate config = some memory)
    (h : Run (Acts act) (System.init memory) tr s) :
    Sound s ∧ ∀ i record, recordAt s.memory.slots i = some record → record.Marked := by
  refine h.invariant (P := fun s => Sound s ∧
      ∀ i record, recordAt s.memory.slots i = some record → record.Marked)
    ⟨sound_of_memoryCreate hcreate, ?_⟩
    fun _ _ _ ⟨hs, hmarked⟩ hact => ⟨hs.effect (act_effect hact), fun i record hrecord =>
      (hs.recordAt_of_act hact hrecord).elim (hmarked i record) And.left⟩
  intro i record hrecord
  cases (recordAt_of_memoryCreate hcreate i).symm.trans hrecord

theorem recordAt_of_mem_recordsIn (hmem : record ∈ recordsIn phase s.memory.slots) :
    record.phase = phase ∧ ∃ i, recordAt s.memory.slots i = some record := by
  obtain ⟨hstored, hphase⟩ := mem_filter.mp hmem
  obtain ⟨slot, hslot, hrecord⟩ := mem_filterMap.mp hstored
  obtain ⟨i, hi⟩ := mem_iff_getElem?.mp hslot
  exact ⟨by simpa using hphase, i, (recordAt_of_getElem? hi).trans hrecord⟩

def failedEntry (record : MemoryRecord) : FailedEntry :=
  ⟨record.recordId, record.failureStatus, record.failureKind⟩

def historyEntry (record : MemoryRecord) : HistoryEntry :=
  ⟨record.recordId, record.terminalKind.getD .completed⟩

section Readings

variable (hs : Sound s)
include hs

theorem Sound.nodup_ids :
    ((s.memory.slots.filterMap Slot.record).map recordId).Nodup := by
  rw [List.Nodup, pairwise_map, pairwise_filterMap, pairwise_iff_getElem]
  intro i j hi hj hij a ha b hb heq
  have := hs.numbered.unique i j a b (by simpa [recordAt, hi] using ha)
    (by simpa [recordAt, hj] using hb) heq
  omega

theorem Sound.recordId_pos (hmem : record ∈ recordsIn phase s.memory.slots) :
    0 < record.recordId := by
  obtain ⟨-, i, hrecord⟩ := recordAt_of_mem_recordsIn hmem
  exact Nat.pos_of_ne_zero (hs.coherent.stored i record hrecord).2

variable (hmarked : ∀ i record, recordAt s.memory.slots i = some record → record.Marked)
  (afterId capacity : ℕ)
include hmarked

/-- The wrapper of the failed index accepts the page of the provider. -/
theorem Sound.inboxScanFailed_eq : inboxScanFailed s.memory afterId capacity =
    .ok ((scanFrom .failed s.memory.slots afterId capacity).map failedEntry) := by
  obtain ⟨hlength, hascending⟩ := scanFrom_page .failed s.memory.slots afterId capacity
  have hstatus : ∀ record ∈ scanFrom .failed s.memory.slots afterId capacity,
      record.failureStatus ≠ .ok := by
    intro record hmem
    obtain ⟨hphase, i, hrecord⟩ :=
      recordAt_of_mem_recordsIn (scanFrom_subset hs.nodup_ids afterId capacity hmem)
    exact (hmarked i record hrecord).1 hphase
  unfold inboxScanFailed failedPage memoryScanFailed
  rw [if_neg (by simpa using hlength), if_pos ⟨by simpa [Function.comp_def] using hascending,
    by simpa using hstatus⟩]
  rfl

omit hs in
theorem kind_historyEntry (hmem : record ∈ recordsIn .tombstone s.memory.slots) :
    record.terminalKind = some (historyEntry record).kind := by
  obtain ⟨hphase, i, hrecord⟩ := recordAt_of_mem_recordsIn hmem
  obtain ⟨kind, hkind⟩ := Option.ne_none_iff_exists'.mp ((hmarked i record hrecord).2 hphase)
  simp [historyEntry, hkind]

theorem Sound.inboxScanHistory_eq : inboxScanHistory s.memory afterId capacity =
    .ok ((scanFrom .tombstone s.memory.slots afterId capacity).map historyEntry) := by
  obtain ⟨hlength, hascending⟩ := scanFrom_page .tombstone s.memory.slots afterId capacity
  have hpage : ∀ records ⊆ recordsIn .tombstone s.memory.slots,
      (records.map fun record => (record.recordId, record.terminalKind)).mapM
        (fun entry => entry.2.map fun kind => HistoryEntry.mk entry.1 kind) =
      some (records.map historyEntry) := by
    intro records hsub
    induction records with
    | nil => rfl
    | cons record records ih =>
      obtain ⟨hmem, hsub⟩ := cons_subset.mp hsub
      simp [kind_historyEntry hmarked hmem, ih hsub]
      rfl
  unfold inboxScanHistory historyPage memoryScanHistory
  rw [if_neg (by simpa using hlength), if_pos (by simpa [Function.comp_def] using hascending),
    hpage _ (scanFrom_subset hs.nodup_ids afterId capacity)]

end Readings

/-- In every reachable state, no scan is refused as malformed, and the pages of a reading from the
first id on, of any positive size, come to an end and list the failed, or the settled, records in
the order of their ids, each once and as stored. -/
theorem scans_enumerate (hcreate : memoryCreate config = some memory)
    (hrun : Run (Acts act) (System.init memory) tr s) :
    (∀ afterId capacity, inboxScanFailed s.memory afterId capacity ≠ .error .eproto ∧
      inboxScanHistory s.memory afterId capacity ≠ .error .eproto) ∧
    ∀ capacity, 0 < capacity → ∃ failed history,
      scanAll (inboxScanFailed s.memory · capacity) FailedEntry.recordId
        (s.memory.slots.length + 1) 0 = some failed ∧
      (failed.map FailedEntry.recordId).Pairwise (· < ·) ∧
      failed.Perm ((recordsIn .failed s.memory.slots).map failedEntry) ∧
      scanAll (inboxScanHistory s.memory · capacity) HistoryEntry.recordId
        (s.memory.slots.length + 1) 0 = some history ∧
      (history.map HistoryEntry.recordId).Pairwise (· < ·) ∧
      (history.map fun entry => (entry.recordId, some entry.kind)).Perm
        ((recordsIn .tombstone s.memory.slots).map fun record =>
          (record.recordId, record.terminalKind)) := by
  obtain ⟨hs, hmarked⟩ := marked_of_run hcreate hrun
  refine ⟨fun afterId capacity => ?_, fun capacity hcapacity => ?_⟩
  · rw [hs.inboxScanFailed_eq hmarked, hs.inboxScanHistory_eq hmarked]
    exact ⟨nofun, nofun⟩
  have hid : ∀ record, (failedEntry record).recordId = record.recordId := fun _ => rfl
  have hid' : ∀ record, (historyEntry record).recordId = record.recordId := fun _ => rfl
  obtain ⟨failed, hfailed, hperm, hsorted⟩ := scanAll_index hs.nodup_ids hid hcapacity
    (hs.inboxScanFailed_eq hmarked · capacity) fun _ => hs.recordId_pos
  obtain ⟨history, hhistory, hperm', hsorted'⟩ := scanAll_index hs.nodup_ids hid' hcapacity
    (hs.inboxScanHistory_eq hmarked · capacity) fun _ => hs.recordId_pos
  refine ⟨_, _, hfailed, ?_, hperm.map _, hhistory, ?_, ?_⟩
  · simpa [Function.comp_def, hid] using hsorted
  · simpa [Function.comp_def, hid'] using hsorted'
  refine Perm.trans (.of_eq ?_) (hperm'.map _)
  rw [map_map]
  refine map_congr_left fun record hmem => ?_
  simp [kind_historyEntry hmarked (hperm'.subset hmem), hid']

def oneFailed : List Operation :=
  [.admitRecord (sampleRecord 7), .commit 0, .admitRecord (sampleRecord 8), .commit 0, .claim,
    .fail 1 1 .eio, .claim, .complete 2 2]

/-- One record has failed and another one is settled. -/
theorem scans_enumerate_failed :
    ∃ memory s outs failed, memoryCreate twoSlots = some memory ∧
      exec act (System.init memory) oneFailed = some (s, outs) ∧
      scanAll (inboxScanFailed s.memory · 1) FailedEntry.recordId 3 0 = some failed ∧
      failed.Perm [⟨1, .eio, .processing⟩] := by
  have hcreate : memoryCreate twoSlots = some ((memoryCreate twoSlots).get rfl) := rfl
  obtain ⟨failed, -, hfailed, -, hperm, -⟩ := (scans_enumerate hcreate
    (run_of_exec (show exec act _ oneFailed = some (_, _) from rfl))).2 1 Nat.one_pos
  exact ⟨_, _, _, failed, hcreate, rfl, hfailed, hperm⟩

end TurboFlow.Inbox
