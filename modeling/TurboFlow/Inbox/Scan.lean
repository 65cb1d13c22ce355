import TurboFlow.Inbox.Settlement

/-!
# The failed and the history index

A scan returns the failed records, or the settled ones, behind a record id in the order of their
ids, up to the capacity of the caller's array, with one search of the table for each.
-/

namespace TurboFlow.Inbox

/-- The loop of a scan: the records in the phase behind `afterId`, oldest first. -/
def scanFrom (phase : RecordPhase) (slots : List Slot) (afterId : ℕ) : ℕ → List MemoryRecord
  | 0 => []
  | capacity + 1 =>
    match oldestFrom
        (fun record => record.phase == phase && decide (afterId < record.recordId)) none 0
          slots with
    | none => []
    | some (_, record) => record :: scanFrom phase slots record.recordId capacity

def memoryScanFailed (memory : Memory) (afterId capacity : ℕ) : List FailedEntry :=
  (scanFrom .failed memory.slots afterId capacity).map fun record =>
    ⟨record.recordId, record.failureStatus, record.failureKind⟩

/-- `flow_inbox_memory_scan_history`. The terminal kind is what the record carries. -/
def memoryScanHistory (memory : Memory) (afterId capacity : ℕ) : List (ℕ × Option TerminalKind) :=
  (scanFrom .tombstone memory.slots afterId capacity).map fun record =>
    (record.recordId, record.terminalKind)

/-- Every id of a page is behind `afterId` and behind the one before it. -/
@[simp] def ascendingFrom (afterId : ℕ) : List ℕ → Bool
  | [] => true
  | id :: ids => decide (afterId < id) && ascendingFrom id ids

/-- `turbo_flow_inbox_scan_failed`, with the entries of a provider. -/
def failedPage (afterId capacity : ℕ) (entries : List FailedEntry) :
    Except Status (List FailedEntry) :=
  if entries.length > capacity then .error .eproto
  else if ascendingFrom afterId (entries.map FailedEntry.recordId) ∧
      entries.all (fun entry => entry.status ≠ .ok) then .ok entries
  else .error .eproto

/-- `turbo_flow_inbox_scan_history`, with the entries of a provider. -/
def historyPage (afterId capacity : ℕ) (entries : List (ℕ × Option TerminalKind)) :
    Except Status (List HistoryEntry) :=
  if entries.length > capacity then .error .eproto
  else if ascendingFrom afterId (entries.map Prod.fst) then
    match entries.mapM fun entry => entry.2.map fun kind => HistoryEntry.mk entry.1 kind with
    | some page => .ok page
    | none => .error .eproto
  else .error .eproto

def inboxScanFailed (memory : Memory) (afterId capacity : ℕ) : Except Status (List FailedEntry) :=
  failedPage afterId capacity (memoryScanFailed memory afterId capacity)

def inboxScanHistory (memory : Memory) (afterId capacity : ℕ) :
    Except Status (List HistoryEntry) :=
  historyPage afterId capacity (memoryScanHistory memory afterId capacity)

end TurboFlow.Inbox
