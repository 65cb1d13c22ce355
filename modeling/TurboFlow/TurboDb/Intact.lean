import TurboFlow.TurboDb.Transactions

/-!
# The invariant of a namespace

`Intact` relates the metadata row to the record table: gauges count the rows of each phase,
cumulative counters balance, ids and tokens are below the next ones, and every row has the columns
of its phase. The transactions of the current owner and every open keep it, and it implies the
preflight.
-/

namespace TurboFlow.TurboDb

open Inbox Word List

def Row.identity (row : Row) : Bytes × Bytes :=
  (row.columns.sourceId, row.columns.admissionId)

structure Intact (limits : Limits) (db : Database) : Prop where
  magic : db.metaRow.schemaMagic = inboxSchemaMagic
  version : db.metaRow.schemaVersion = inboxSchemaVersion
  maxRecords : db.metaRow.maxRecords = limits.maxRecords
  maxTotalBytes : db.metaRow.maxTotalBytes = limits.maxTotalBytes
  maxRecordBytes : db.metaRow.maxRecordBytes = limits.maxRecordBytes
  maxClaims : db.metaRow.maxClaims = limits.maxClaims
  generation : 0 ≤ db.metaRow.generation
  opened : db.metaRow.ownerState = .active → 0 < db.metaRow.generation
  closed : db.metaRow.ownerState = .closed → db.metaRow.records = 0
  nextId : 1 ≤ db.metaRow.nextRecordId
  nextToken : 1 ≤ db.metaRow.nextClaimToken
  ascending : (db.rows.map Row.recordId).Pairwise (· < ·)
  identities : (db.rows.map Row.identity).Nodup
  ids : ∀ row ∈ db.rows, 0 < row.recordId ∧ row.recordId < db.metaRow.nextRecordId
  tokens : ∀ row ∈ db.rows, row.claimToken < db.metaRow.nextClaimToken
  phases : ∀ row ∈ db.rows, phaseColumnsValid db.metaRow.generation row
  stored : ∀ row ∈ db.rows, ∃ record, Stored limits row record
  pending : db.metaRow.pendingRecords = phaseRows .pending db.rows
  claimed : db.metaRow.inFlightClaims = phaseRows .claimed db.rows
  failedRows : db.metaRow.failedRecords = phaseRows .failed db.rows
  history : db.metaRow.historyRecords = phaseRows .tombstone db.rows
  records : db.metaRow.records =
    db.metaRow.pendingRecords + db.metaRow.inFlightClaims + db.metaRow.failedRecords
  bytes : db.metaRow.retainedBytes = rowBytes db.rows
  room : db.metaRow.records + db.metaRow.historyRecords ≤ limits.maxRecords
  bytesRoom : db.metaRow.retainedBytes ≤ limits.maxTotalBytes
  admitted : db.metaRow.admitted = db.metaRow.records + db.metaRow.completed + db.metaRow.discarded
  settled : db.metaRow.historyRecords ≤ db.metaRow.completed + db.metaRow.discarded
  failures : db.metaRow.failed =
    db.metaRow.failedRecords + db.metaRow.retried + db.metaRow.discarded
  completedNonneg : 0 ≤ db.metaRow.completed
  retriedNonneg : 0 ≤ db.metaRow.retried
  discardedNonneg : 0 ≤ db.metaRow.discarded

/-! ### Counting rows -/

variable {rows before behind : List Row} {row : Row}

section Counting

@[simp] theorem phaseRows_nil : phaseRows phase [] = 0 := rfl

@[simp] theorem phaseRows_append :
    phaseRows phase (before ++ behind) = phaseRows phase before + phaseRows phase behind := by
  simp [phaseRows, countP_append]

@[simp] theorem phaseRows_cons :
    phaseRows phase (row :: rows) = phaseRows phase rows + if row.phase = phase then 1 else 0 := by
  by_cases h : row.phase = phase <;> simp [phaseRows, h]

@[simp] theorem rowBytes_append :
    rowBytes (before ++ behind) = rowBytes before + rowBytes behind := by
  simp [rowBytes]

@[simp] theorem rowBytes_cons : rowBytes (row :: rows) = row.retainedBytes + rowBytes rows := by
  simp [rowBytes]

theorem phaseRows_nonneg (phase : RecordPhase) (rows : List Row) : 0 ≤ phaseRows phase rows := by
  simp [phaseRows]

theorem length_eq_phaseRows (rows : List Row) :
    (rows.length : ℤ) = phaseRows .pending rows + phaseRows .claimed rows +
      phaseRows .failed rows + phaseRows .tombstone rows := by
  induction rows with
  | nil => rfl
  | cons row rows ih =>
    simp only [length_cons, phaseRows_cons, Nat.cast_add, Nat.cast_one]
    cases row.phase <;> simp <;> omega

theorem phaseRows_pos (h : row ∈ rows) (hphase : row.phase = phase) : 0 < phaseRows phase rows := by
  have : 0 < rows.countP fun row => row.phase = phase :=
    countP_pos_iff.mpr ⟨row, h, by simp [hphase]⟩
  simp only [phaseRows]
  omega

theorem rowBytes_nonneg (h : ∀ row ∈ rows, 0 ≤ row.retainedBytes) : 0 ≤ rowBytes rows :=
  sum_nonneg fun bytes hbytes => by
    obtain ⟨row, hrow, rfl⟩ := mem_map.mp hbytes
    exact h row hrow

theorem maxColumn_lt (hn : 0 < n) (h : ∀ row ∈ rows, column row < n) :
    maxColumn column rows < n := by
  unfold maxColumn
  cases hmax : (rows.map column).max? with
  | none => exact hn
  | some a =>
    obtain ⟨row, hrow, rfl⟩ := mem_map.mp (max?_mem hmax)
    exact h row hrow

theorem forall_mem_exchange {P : Row → Prop} (row : Row) (h : ∀ b ∈ before ++ row :: behind, P b)
    (hrow : P row') : ∀ b ∈ before ++ row' :: behind, P b := by
  simp only [forall_mem_append, forall_mem_cons] at h ⊢
  exact ⟨h.1, hrow, h.2.2⟩

theorem mem_of_mem_remove (h : b ∈ before ++ behind) : b ∈ before ++ row :: behind := by
  exact (sublist_cons_self ..).append_left before |>.subset h

end Counting

theorem Move.nextClaimToken_le (mv : Move) (m : MetaRow) :
    m.nextClaimToken ≤ (mv.count m).nextClaimToken := by
  cases mv <;> simp [Move.count]

namespace Intact

variable {limits : Limits} {db : Database}

theorem sorted (h : Intact limits db) : db.rows.Pairwise fun a b => a.recordId < b.recordId :=
  pairwise_map.mp h.ascending

theorem ids_nodup (h : Intact limits db) : (db.rows.map Row.recordId).Nodup :=
  h.ascending.imp ne_of_lt

theorem eq_of_recordId (h : Intact limits db) (hrow : row ∈ db.rows) (hrow' : row' ∈ db.rows)
    (hid : row.recordId = row'.recordId) : row = row' :=
  inj_on_of_nodup_map h.ids_nodup hrow hrow' hid

theorem retained_nonneg (h : Intact limits db) : 0 ≤ db.metaRow.retainedBytes := by
  rw [h.bytes]
  refine rowBytes_nonneg fun row hrow => ?_
  obtain ⟨record, hstored⟩ := h.stored row hrow
  exact hstored.bytes_nonneg

/-! ### Initially -/

theorem emptySchema (limits : Limits) : Intact limits (TurboDb.emptySchema limits) := by
  constructor <;> simp [TurboDb.emptySchema, rowBytes]

/-! ### Preservation -/

section Preservation

variable {generation : ℤ} (h : Intact limits db)
include h

variable {mv : Move}

theorem phaseColumnsValid_set (hrow : row ∈ db.rows) (hcurrent : db.metaRow.generation = generation)
    (hactive : db.metaRow.ownerState = .active) (hphase : row.phase = mv.before)
    (hclaim : ∀ g t, mv = .claim g t → g = generation ∧ t = db.metaRow.nextClaimToken)
    (hstatus : mv ≠ .fail .ok) : phaseColumnsValid db.metaRow.generation (mv.set row) := by
  have hcolumns := h.phases row hrow
  have hpositive := h.opened hactive
  have htoken := h.nextToken
  cases mv with
  | claim g t =>
    obtain ⟨rfl, rfl⟩ := hclaim g t rfl
    simp only [phaseColumnsValid, show row.phase = .pending from hphase,
      decide_eq_true_eq] at hcolumns
    simp only [phaseColumnsValid, Move.set, hcurrent, hcolumns, decide_eq_true_eq]
    exact ⟨by omega, trivial, by omega, trivial, trivial⟩
  | complete | retry | discard => simp [phaseColumnsValid, Move.set]
  | fail status =>
    have hne : status ≠ .ok := fun heq => hstatus (by rw [heq])
    simp [phaseColumnsValid, Move.set, hne]

theorem claimToken_set_lt (hrow : row ∈ db.rows)
    (hclaim : ∀ g t, mv = .claim g t → g = generation ∧ t = db.metaRow.nextClaimToken) :
    (mv.set row).claimToken < (mv.count db.metaRow).nextClaimToken := by
  have hlt := h.tokens row hrow
  have htoken := h.nextToken
  cases mv with
  | claim g t =>
    obtain ⟨rfl, rfl⟩ := hclaim g t rfl
    simp [Move.set, Move.count]
  | complete | fail status | discard => exact hlt
  | retry =>
    simp only [Move.set, Move.count]
    omega

theorem move (mv : Move) (hcurrent : db.metaRow.generation = generation)
    (hactive : db.metaRow.ownerState = .active) (hsplit : db.rows = before ++ row :: behind)
    (hphase : row.phase = mv.before)
    (hclaim : ∀ g t, mv = .claim g t → g = generation ∧ t = db.metaRow.nextClaimToken)
    (hstatus : mv ≠ .fail .ok) :
    Intact limits ⟨mv.count db.metaRow, before ++ mv.set row :: behind⟩ := by
  have hrow : row ∈ db.rows := by
    rw [hsplit]
    simp
  have hnextToken := h.nextToken
  have hpending := h.pending
  have hclaimed := h.claimed
  have hfailed := h.failedRows
  have hhistory := h.history
  obtain ⟨⟩ := id h
  rw [hsplit] at hpending hclaimed hfailed hhistory
  simp only [phaseRows_append, phaseRows_cons, hphase] at hpending hclaimed hfailed hhistory
  constructor
  case magic => cases mv <;> exact h.magic
  case version => cases mv <;> exact h.version
  case maxRecords => cases mv <;> exact h.maxRecords
  case maxTotalBytes => cases mv <;> exact h.maxTotalBytes
  case maxRecordBytes => cases mv <;> exact h.maxRecordBytes
  case maxClaims => cases mv <;> exact h.maxClaims
  case generation => simpa using h.generation
  case opened => simpa using h.opened
  case closed => simp [hactive]
  case nextId => simpa using h.nextId
  case nextToken => exact hnextToken.trans (mv.nextClaimToken_le _)
  case ascending => simpa [hsplit] using h.ascending
  case identities => simpa [hsplit, Row.identity] using h.identities
  case ids =>
    refine forall_mem_exchange row ?_ ?_
    · simpa [hsplit] using h.ids
    · simpa using h.ids row hrow
  case tokens =>
    refine forall_mem_exchange row ?_ (h.claimToken_set_lt hrow hclaim)
    rw [← hsplit]
    exact fun b hb => (h.tokens b hb).trans_le (mv.nextClaimToken_le _)
  case phases =>
    refine forall_mem_exchange row ?_ ?_
    · simpa [hsplit] using h.phases
    · simpa using h.phaseColumnsValid_set hrow hcurrent hactive hphase hclaim hstatus
  case stored =>
    refine forall_mem_exchange row (by rw [← hsplit]; exact h.stored) ?_
    obtain ⟨record, hstored⟩ := h.stored row hrow
    exact ⟨record, hstored.valid, hstored.representable, by simpa using hstored.columns, by simpa
      using hstored.size, by simpa using hstored.bytes_nonneg, by simpa using hstored.bytes_le⟩
  case bytes =>
    have hbytes := h.bytes
    rw [hsplit] at hbytes
    cases mv <;> simpa [Move.count] using hbytes
  case bytesRoom => cases mv <;> exact h.bytesRoom
  all_goals
    cases mv <;>
      simp only [Move.before, Move.count, Move.set, phaseRows_append, phaseRows_cons, if_true,
        reduceCtorEq, if_false] at hpending hclaimed hfailed hhistory ⊢ <;>
      omega

theorem insert {record : Record} {bytes : ℕ} (hactive : db.metaRow.ownerState = .active)
    (ha : Admissible limits record bytes db) (hvalid : WellFormed record)
    (hrep : Representable record) :
    Intact limits
      ⟨admitCount bytes db.metaRow,
        db.rows ++ [freshRow db.metaRow.nextRecordId record bytes]⟩ := by
  obtain ⟨⟩ := id h
  have hroom := ha.room
  have hbytesRoom : db.metaRow.retainedBytes + bytes ≤ limits.maxTotalBytes := by
    have hnonneg := h.retained_nonneg
    have hle := h.bytesRoom
    have hfits := ha.totalBytes
    rw [sub64_of_le (by omega)] at hfits
    omega
  refine
    { h with
      ascending := ?ascending, identities := ?identities, ids := ?ids, tokens := ?tokens
      phases := ?phases, stored := ?stored, bytes := ?bytes, bytesRoom := hbytesRoom
      closed := by simp [admitCount, hactive]
      nextId := ?_, pending := ?_, claimed := ?_, failedRows := ?_, history := ?_, records := ?_
      room := ?_, admitted := ?_ }
  case ascending =>
    rw [map_append, pairwise_append]
    refine ⟨h.ascending, by simp, ?_⟩
    intro a hmem b hb
    obtain ⟨row, hrow, rfl⟩ := mem_map.mp hmem
    obtain rfl := mem_singleton.mp hb
    exact (h.ids row hrow).2
  case identities =>
    rw [map_append]
    refine nodup_append_comm.mpr (nodup_cons.mpr ⟨fun hmem => ?_, h.identities⟩)
    obtain ⟨row, hrow, heq⟩ := mem_map.mp hmem
    refine absurd heq ?_
    simpa [hasIdentity, Row.identity, freshRow, recordColumns] using ha.fresh row hrow
  case ids =>
    simp only [admitCount]
    refine forall_mem_append.mpr ⟨fun row hrow => ?_, forall_mem_singleton.mpr ?_⟩
    · have := h.ids row hrow
      omega
    simp only [freshRow]
    omega
  case tokens =>
    refine forall_mem_append.mpr ⟨h.tokens, forall_mem_singleton.mpr ?_⟩
    simp only [admitCount, freshRow]
    omega
  case phases =>
    exact forall_mem_append.mpr ⟨h.phases, by simp [phaseColumnsValid, freshRow]⟩
  case stored =>
    refine forall_mem_append.mpr ⟨h.stored, forall_mem_singleton.mpr ?_⟩
    refine ⟨record, hvalid, hrep, rfl, by simpa [freshRow] using ha.size, ?_, ?_⟩
    · simp [freshRow]
    · simpa [freshRow] using ha.recordBytes
  case bytes =>
    have hbytes := h.bytes
    simp only [admitCount, rowBytes_append, freshRow, hbytes]
    simp [rowBytes]
  all_goals
    simp only [admitCount, phaseRows_append, phaseRows_cons, phaseRows_nil, freshRow, if_true,
      reduceCtorEq, if_false]
    omega

theorem forget (hsplit : db.rows = before ++ row :: behind) (hphase : row.phase = .tombstone) :
    Intact limits ⟨forgetCount row.retainedBytes db.metaRow, before ++ behind⟩ := by
  obtain ⟨record, hstored⟩ := h.stored row (by rw [hsplit]; simp)
  have hnonneg := hstored.bytes_nonneg
  have hretained := h.bytes
  rw [hsplit, rowBytes_append, rowBytes_cons] at hretained
  have hpending := h.pending
  have hclaimed := h.claimed
  have hfailed := h.failedRows
  have hhistory := h.history
  rw [hsplit] at hpending hclaimed hfailed hhistory
  simp only [phaseRows_append, phaseRows_cons, hphase, if_true, reduceCtorEq,
    if_false] at hpending hclaimed hfailed hhistory
  have hsub : ∀ b ∈ before ++ behind, b ∈ db.rows := by
    intro b hb
    rw [hsplit]
    exact mem_of_mem_remove hb
  have hsublist : List.Sublist (before ++ behind) db.rows := by
    rw [hsplit]
    exact List.Sublist.append_left (sublist_cons_self row behind) before
  obtain ⟨⟩ := id h
  refine
    { h with
      ascending := h.ascending.sublist (hsublist.map _)
      identities := h.identities.sublist (hsublist.map _)
      ids := fun b hb => h.ids b (hsub b hb)
      tokens := fun b hb => h.tokens b (hsub b hb)
      phases := fun b hb => h.phases b (hsub b hb)
      stored := fun b hb => h.stored b (hsub b hb)
      pending := ?_, claimed := ?_, failedRows := ?_, history := ?_, bytes := ?_, room := ?_
      bytesRoom := ?_, settled := ?_ }
  all_goals
    simp only [forgetCount, phaseRows_append, rowBytes_append]
    omega

theorem finish (hempty : db.metaRow.records = 0) :
    Intact limits ⟨{ db.metaRow with ownerState := .closed }, db.rows⟩ :=
  { h with
    opened := nofun
    closed := fun _ => hempty }

theorem change (hactive : db.metaRow.generation = generation → db.metaRow.ownerState = .active)
    (hchange : Change limits generation db db') : Intact limits db' := by
  cases hchange with
  | keep => exact h
  | insert hcurrent ha hvalid hrep => exact h.insert (hactive hcurrent) ha hvalid hrep
  | move mv hcurrent hsplit hphase hcounter hclaim hstatus =>
    exact h.move mv hcurrent (hactive hcurrent) hsplit hphase hclaim hstatus
  | forget hcurrent hsplit hphase => exact h.forget hsplit hphase

omit h in
theorem phaseRows_loseOwner (phase : RecordPhase)
    (hclaims : ∀ row ∈ rows, row.phase = .claimed → row.claimGeneration = generation) :
    phaseRows phase (Rows.update (claimedBy generation) loseOwner rows) =
      match phase with
      | .claimed => 0
      | .failed => phaseRows .failed rows + phaseRows .claimed rows
      | .pending => phaseRows .pending rows
      | .tombstone => phaseRows .tombstone rows := by
  induction rows with
  | nil => cases phase <;> rfl
  | cons row rows ih =>
    have hrest := ih fun r hr => hclaims r (mem_cons_of_mem _ hr)
    have hrow := hclaims row mem_cons_self
    simp only [Rows.update, map_cons, phaseRows_cons] at hrest ⊢
    rw [hrest]
    cases hphase : row.phase <;> cases phase <;> simp_all [claimedBy, loseOwner] <;> omega

omit h in
theorem map_update_loseOwner {β : Type*} (f : Row → β) (hf : ∀ row, f (loseOwner row) = f row) :
    (Rows.update (claimedBy generation) loseOwner rows).map f = rows.map f := by
  rw [Rows.update, map_map]
  apply map_congr_left
  intro row _
  by_cases hclaimed : claimedBy generation row
  · simp [hclaimed, hf]
  · simp [hclaimed]

theorem claimGeneration_eq (hrow : row ∈ db.rows) (hphase : row.phase = .claimed) :
    row.claimGeneration = db.metaRow.generation := by
  have hcolumns := h.phases row hrow
  simp only [phaseColumnsValid, hphase, decide_eq_true_eq] at hcolumns
  exact hcolumns.2.1

theorem opening :
    Intact limits
      ⟨openMeta db.metaRow, Rows.update (claimedBy db.metaRow.generation) loseOwner db.rows⟩ := by
  obtain ⟨⟩ := id h
  have hclaims : ∀ row ∈ db.rows, row.phase = .claimed →
      row.claimGeneration = db.metaRow.generation := fun row hrow => h.claimGeneration_eq hrow
  refine
    { h with
      generation := by simp only [openMeta]; omega
      opened := by simp only [openMeta]; omega
      closed := by simp [openMeta]
      ascending := by rw [map_update_loseOwner _ fun _ => rfl]; exact h.ascending
      identities := by rw [map_update_loseOwner _ fun _ => rfl]; exact h.identities
      ids := ?_
      tokens := ?_
      phases := ?_
      stored := ?_
      pending := by simpa [phaseRows_loseOwner _ hclaims, openMeta] using h.pending
      claimed := by simp [phaseRows_loseOwner _ hclaims, openMeta]
      failedRows := by
        simp only [phaseRows_loseOwner _ hclaims, openMeta, h.failedRows, h.claimed]
      history := by simpa [phaseRows_loseOwner _ hclaims, openMeta] using h.history
      records := by simp only [openMeta]; omega
      bytes := by rw [rowBytes, map_update_loseOwner _ fun _ => rfl]; exact h.bytes
      failures := by simp only [openMeta]; omega }
  · intro row' hrow'
    obtain ⟨row, hrow, ⟨-, rfl⟩ | ⟨-, rfl⟩⟩ := Rows.mem_update hrow'
    · exact h.ids row hrow
    · exact h.ids row' hrow
  · intro row' hrow'
    obtain ⟨row, hrow, ⟨-, rfl⟩ | ⟨-, rfl⟩⟩ := Rows.mem_update hrow'
    · exact h.tokens row hrow
    · exact h.tokens row' hrow
  · intro row' hrow'
    obtain ⟨row, hrow, ⟨hlost, rfl⟩ | ⟨hother, rfl⟩⟩ := Rows.mem_update hrow'
    · have hcolumns := h.phases row hrow
      have hphase := (decide_eq_true_eq.mp hlost).1
      simp only [phaseColumnsValid, hphase, decide_eq_true_eq] at hcolumns
      simp [phaseColumnsValid, loseOwner, hcolumns]
    have hcolumns := h.phases row' hrow
    cases hphase : row'.phase with
    | claimed => simp [claimedBy, hphase, hclaims row' hrow hphase] at hother
    | pending | failed | tombstone => simpa [phaseColumnsValid, hphase] using hcolumns
  intro row' hrow'
  obtain ⟨row, hrow, ⟨-, rfl⟩ | ⟨-, rfl⟩⟩ := Rows.mem_update hrow'
  · obtain ⟨record, hstored⟩ := h.stored row hrow
    exact ⟨record, hstored.valid, hstored.representable, hstored.columns, hstored.size,
      hstored.bytes_nonneg, hstored.bytes_le⟩
  · exact h.stored row' hrow

end Preservation

/-! ### The preflight -/

theorem inboxPreflight (h : Intact limits db) : TurboDb.inboxPreflight limits db = .ok := by
  have hgeneration := h.generation
  have hnextId := h.nextId
  have hnextToken := h.nextToken
  have hpending := h.pending
  have hclaimed := h.claimed
  have hfailed := h.failedRows
  have hhistory := h.history
  obtain ⟨⟩ := id h
  have hbytes := h.bytes
  have hretained := h.retained_nonneg
  have hmaxRecords := h.maxRecords
  have hmaxTotal := h.maxTotalBytes
  have hpendingNonneg := phaseRows_nonneg .pending db.rows
  have hclaimedNonneg := phaseRows_nonneg .claimed db.rows
  have hfailedNonneg := phaseRows_nonneg .failed db.rows
  have htombNonneg := phaseRows_nonneg .tombstone db.rows
  have hlength := length_eq_phaseRows db.rows
  have hheader : metaHeaderValid limits db.metaRow := by
    simp only [metaHeaderValid, decide_eq_true_eq]
    exact ⟨h.magic, h.version, hgeneration, hnextId, hnextToken, h.maxRecords, h.maxTotalBytes,
      h.maxRecordBytes, h.maxClaims⟩
  have hnonneg : metaCountersNonneg db.metaRow := by
    simp only [metaCountersNonneg, all_cons, all_nil, Bool.and_eq_true, decide_eq_true_eq, and_true]
    omega
  have hgauges : metaGaugesValid db.metaRow := by
    simp only [metaGaugesValid, decide_eq_true_eq]
    exact ⟨by omega, by omega, by omega, by omega, by omega, by omega, by omega, by omega,
      by omega, h.closed⟩
  have htotals : metaTotalsValid db.metaRow := by
    simp only [metaTotalsValid, decide_eq_true_eq]
    omega
  have henvelopes : db.rows.countP envelopeCurrent = db.rows.length := by
    rw [countP_eq_length]
    intro row hrow
    obtain ⟨record, hstored⟩ := h.stored row hrow
    simp [envelopeCurrent, hstored.columns, recordColumns]
  have haggregates : aggregatesValid db := by
    simp only [aggregatesValid, decide_eq_true_eq]
    exact ⟨by omega, by omega, hhistory.symm, hpending.symm, hfailed.symm, hclaimed.symm,
      hbytes.symm, henvelopes, maxColumn_lt (by omega) fun row hrow => (h.ids row hrow).2,
      maxColumn_lt (by omega) h.tokens⟩
  have hrows : ∀ row ∈ db.rows, rowValid limits db.metaRow.generation row := by
    intro row hrow
    obtain ⟨record, hstored⟩ := h.stored row hrow
    simp only [rowValid, decide_eq_true_eq]
    exact ⟨(h.ids row hrow).1, hstored.recordColumnsValid, h.phases row hrow⟩
  have hdescriptors : inboxValidateDescriptors db.rows = .ok := by
    refine inboxValidateDescriptors_ok h.sorted fun row hrow => ?_
    obtain ⟨record, hstored⟩ := h.stored row hrow
    exact hstored.descriptorValid
  have hlimits : ¬ (db.rows.length > limits.maxRecords ∨
      rowBytes db.rows > limits.maxTotalBytes) := by
    omega
  have hany : (db.rows.any fun row => !rowValid limits db.metaRow.generation row) = false := by
    simpa [any_eq_false] using hrows
  simp [TurboDb.inboxPreflight, hheader, hnonneg, hgauges, htotals, haggregates, hlimits, hany,
    hdescriptors]

end Intact

end TurboFlow.TurboDb
