import TurboFlow.TurboDb.MemoryMoves

/-!
# The namespace answers like the memory inbox

Both providers get the same calls. Every call leaves them in matching states, and sequences of calls
get the same results as long as every claim finds a free lease or an eligible record.
-/

namespace TurboFlow.TurboDb

open Inbox Transition Table Word List

namespace Mirrors

variable {limits : Limits} {memory : Memory} {db : Database} {o : Owner}
  (h : Mirrors limits memory db o)

include h

/-! ### Admission -/

theorem admission_cases (record : Record) :
    (memoryFindAdmission memory record = none ∧ db.rows.filter (hasIdentity record) = []) ∨
      ∃ index r row, memoryFindAdmission memory record = some (index, r) ∧
        sameIdentity r.view record ∧ row ∈ db.rows ∧
        db.rows.filter (hasIdentity record) = [row] ∧ slotView r = rowView row := by
  have hsame : ∀ {r : MemoryRecord} {row : Row}, slotView r = rowView row →
      (sameIdentity r.view record ↔ hasIdentity record row) := by
    intro r row hview
    simp [record_of_view hview, materialize, hasIdentity]
  rcases hfind : memoryFindAdmission memory record with _ | ⟨index, r⟩
  · refine .inl ⟨rfl, filter_eq_nil_iff.mpr ?_⟩
    intro row hrow hid
    obtain ⟨r, hr, hview⟩ := h.exists_stored hrow
    have hother := findFrom_eq_none.mp hfind r hr
    simp [(hsame hview).mpr hid] at hother
  obtain ⟨slot, hslot, hrecord, hid⟩ := memoryFindAdmission_spec hfind
  obtain ⟨row, hrow, hview⟩ := h.exists_row (mem_stored_of_getElem? hslot hrecord)
  have hrowId := (hsame hview).mp hid
  obtain ⟨before, behind, hsel⟩ := Rows.Selects.of_mem h.intact.identities hrow
    hrowId (by
      intro b _ hb
      simp only [hasIdentity, decide_eq_true_eq] at hb hrowId
      simp [Row.identity, hb, hrowId])
  exact .inr ⟨index, r, row, rfl, hid, hrow, hsel.filter, hview⟩

omit h in
theorem replayEqual_eq (hid : sameIdentity existing record) :
    replayEqual existing record = recordEqual existing record := by
  obtain ⟨hsource, hadmission⟩ := (sameIdentity_iff _ _).mp hid
  rw [Bool.eq_iff_iff]
  simp only [replayEqual, recordEqual, hsource, hadmission, Bool.and_eq_true, beq_iff_eq,
    beq_self_eq_true, and_true]
  constructor
  · rintro ⟨⟨⟨⟨hhead, hcontent⟩, hkey⟩, hcorrelation⟩, hpayload⟩
    exact ⟨⟨⟨⟨hhead, hkey⟩, hcorrelation⟩, hpayload⟩, hcontent⟩
  rintro ⟨⟨⟨⟨hhead, hkey⟩, hcorrelation⟩, hpayload⟩, hcontent⟩
  exact ⟨⟨⟨⟨hhead, hcontent⟩, hkey⟩, hcorrelation⟩, hpayload⟩

theorem room_exact :
    memory.liveRecords + memory.historyRecords ≤ memory.config.maxRecords ∧
      add64 memory.liveRecords memory.historyRecords = memory.liveRecords + memory.historyRecords ∧
      sub64 (sub64 memory.config.maxRecords memory.liveRecords) memory.historyRecords =
        memory.config.maxRecords - (memory.liveRecords + memory.historyRecords) ∧
      memory.reservedBytes = 0 ∧ memory.retainedBytes ≤ memory.config.maxTotalBytes := by
  have hexact := h.consistent.capacityExact
  have hlive := hexact.liveRecords
  have hhistory := hexact.historyRecords
  have hconfig := (configValid_bounds h.consistent.config).1
  have hmax : max64 = 2 ^ 64 - 1 := rfl
  simp only [memoryMaxRecords] at hconfig
  refine ⟨by simp only at hlive hhistory; omega, add64_of_le ?_, hexact.records, ?_,
    hexact.retainedBytes⟩
  · simp only at hlive hhistory
    omega
  have hreserved := h.consistent.reservedBytes
  simpa [tally] using hreserved

structure Admitted (memory : Memory) (copy : MemoryRecord) (memory' : Memory) : Prop where
  slots : (stored memory'.slots).Perm (stored memory.slots ++ [copy])
  config : memory'.config = memory.config
  accepting : memory'.accepting = memory.accepting
  nextRecordId : memory'.nextRecordId = memory.nextRecordId + 1
  nextClaimToken : memory'.nextClaimToken = memory.nextClaimToken
  completed : memory'.completed = memory.completed
  retried : memory'.retried = memory.retried
  discarded : memory'.discarded = memory.discarded
  reserved : memory'.reservedRecords = 0
  ids : memory'.recordIdExhausted = false
  tokens : memory'.claimTokenExhausted = memory.claimTokenExhausted

theorem nextRecordId_ne : memory.nextRecordId ≠ 0 := by
  have := h.consistent.idPos
  simp only at this
  omega

theorem memoryAdmit_ok (hsmall : CountersSmall db.metaRow)
    (hfresh : memoryFindAdmission memory source = none) (haccepting : memory.accepting = true)
    (hsize : retainedSize source = some bytes) (hbytes : bytes ≤ memory.config.maxRecordBytes)
    (hroom : memory.liveRecords + memory.historyRecords < memory.config.maxRecords)
    (htotal : bytes ≤ sub64 memory.config.maxTotalBytes memory.retainedBytes) :
    ∃ memory', memoryAdmit memory source = (memory', .admitted .ok memory.nextRecordId) ∧
      Admitted memory (memoryRecordCopy ⟨0, bytes, memory.nextRecordId, source⟩) memory' := by
  obtain ⟨-, hadd, hsub, hreservedBytes, hretained⟩ := h.room_exact
  have hadmitted : memory.admitted ≠ max64 := (add64_one (h.admitted_eq ▸ hsmall.admitted)).2
  obtain ⟨hnext, hnextMax⟩ := add64_one (h.nextRecordId ▸ hsmall.nextRecordId)
  obtain ⟨index, hindex⟩ := h.consistent.exists_freeSlot
    (by simp only [h.reserved, hsub]; omega)
  simp only at hindex
  have hslot := freeSlot_spec hindex
  have hopen : sub64 (sub64 memory.config.maxTotalBytes memory.retainedBytes) 0 =
      sub64 memory.config.maxTotalBytes memory.retainedBytes := sub64_of_le (Nat.zero_le _)
  let r : Reservation := ⟨index, bytes, memory.nextRecordId, source⟩
  have hreserve : memoryAdmitReserve memory source =
      (memoryReserve memory index bytes, .reserved r) := by
    rw [memoryAdmitReserve_of_fresh hfresh]
    simp only [memoryAdmitFresh, haccepting, not_true_eq_false, if_false, hsize,
      not_lt.mpr hbytes, hadmitted, h.ids, Bool.false_eq_true, or_self, hadd, ge_iff_le,
      not_le.mpr hroom, not_lt.mpr htotal, h.reserved, hsub, Nat.le_zero, hreservedBytes,
      Nat.not_lt_zero, hopen, hindex, h.nextRecordId_ne, gt_iff_lt]
    rw [if_neg (by simp only [or_false]; omega)]
  have hreservedSlot : (memoryReserve memory index bytes).slots[index]? = some ⟨none, true⟩ := by
    simp [memoryReserve, hslot, Slot.withReserved]
  have hstill : memoryFindAdmission (memoryReserve memory index bytes) source = none := by
    refine findFrom_eq_none.mpr fun x hx => ?_
    simp only [memoryReserve, stored_withReserved] at hx
    exact findFrom_eq_none.mp hfresh x hx
  have hcommit : memoryAdmitCommit (memoryReserve memory index bytes) r =
      (memoryReleaseReservation (memoryStore (memoryReserve memory index bytes) r) index bytes,
        .ok, memory.nextRecordId) := by
    simp only [memoryAdmitCommit, r, hstill, hreservedSlot]
  refine ⟨memoryReleaseReservation (memoryStore (memoryReserve memory index bytes) r) index bytes,
    ?_, ?_⟩
  · simp [memoryAdmit, hreserve, hcommit, memoryReceipt, h.nextRecordId_ne]
  have hstored : (stored (memoryStore (memoryReserve memory index bytes) r).slots).Perm
      (stored memory.slots ++ [memoryRecordCopy r]) := by
    have hinsert := stored_insert hreservedSlot rfl (memoryRecordCopy r)
    simpa [memoryReserve, memoryStore, r] using hinsert
  exact
    { slots := by
        simp only [memoryReleaseReservation, stored_withReserved]
        exact hstored
      config := rfl
      accepting := rfl
      nextRecordId := by
        simp [memoryStore, memoryReserve, hnextMax, hnext]
      nextClaimToken := rfl
      completed := rfl
      retried := rfl
      discarded := rfl
      reserved := by
        simp [memoryStore, memoryReserve, h.reserved, add64, sub64]
      ids := by
        simp [memoryStore, memoryReserve, h.ids, hnextMax]
      tokens := rfl }

variable {record : CallerRecord} {bytes : ℕ} {memory' : Memory}

theorem serve_admit (hvalid : recordValid record.1 = .ok) :
    serve ⟨db, [some o]⟩ (.admitRecord record) =
      some (match inboxAdmit limits o.generation o.accepting record.1 db with
        | .ok (db', recordId) => (⟨db', [some o]⟩, receiptOf (.ok recordId))
        | .error rc => (⟨db, [some o]⟩, receiptOf (.error rc))) := by
  have hstart : o.start (.admitRecord record) =
      (o, .inl (.admitRecord ⟨record.1, recordValid_iff.mp hvalid, record.2⟩)) := by
    simp only [Owner.start, hvalid, dite_true]
    exact h.connecting _ _
  rcases hadmission : inboxAdmit limits o.generation o.accepting record.1 db with
    rc | ⟨db', recordId⟩
  all_goals
    exact h.serve_plain hstart (by simp [Owner.advance, transact, h.ownerLimits, hadmission])

theorem admit_refused (rc : Status) (hvalid : recordValid record.1 = .ok) (hrc : rc ≠ .ok)
    (hfind : memoryFindAdmission memory record.1 = none)
    (hfilter : db.rows.filter (hasIdentity record.1) = [])
    (hfresh : inboxAdmitFresh limits o.generation o.accepting record.1 db = .error rc)
    (hmemory : memoryAdmitFresh memory record.1 = (memory, .returned rc 0)) :
    Replies limits memory db o (.admitRecord record) := by
  have hserve := h.serve_admit hvalid
  simp only [inboxAdmit, h.generation_eq, ne_eq, not_true_eq_false, if_false, hfilter,
    hfresh] at hserve
  refine replies_of hserve ?_ h.toMatches
  simp [memoryServe, hvalid, memoryAdmit, memoryAdmitReserve_of_fresh hfind, hmemory,
    memoryReceipt, hrc, receiptOf]

/-- A stored identity is answered with its record id where the record is the same. -/
theorem admit_replayed {index : ℕ} {r : MemoryRecord} {row : Row}
    (hvalid : recordValid record.1 = .ok)
    (hfind : memoryFindAdmission memory record.1 = some (index, r))
    (hid : sameIdentity r.view record.1) (hrow : row ∈ db.rows)
    (hfilter : db.rows.filter (hasIdentity record.1) = [row]) (hview : slotView r = rowView row) :
    Replies limits memory db o (.admitRecord record) := by
  have hadmission : inboxAdmit limits o.generation o.accepting record.1 db =
      if recordEqual r.view record.1 then .ok (db, row.recordId) else .error .eproto := by
    simp [inboxAdmit, h.generation_eq, hfilter, h.record_from_result hrow hview,
      replayEqual_eq hid, bind, Except.bind]
  have hserve := h.serve_admit hvalid
  rw [hadmission] at hserve
  have hrowId := recordId_of_view hview
  have hrowPos := (h.intact.ids row hrow).1
  have hpos : r.recordId ≠ 0 := by omega
  have htoNat : row.recordId.toNat = r.recordId := by rw [← hrowId, Int.toNat_natCast]
  by_cases hequal : recordEqual r.view record.1 = true
  · rw [if_pos hequal] at hserve
    refine replies_of hserve ?_ h.toMatches
    simp [memoryServe, hvalid, memoryAdmit, memoryAdmitReserve_of_found hfind, hequal,
      memoryReceipt, hpos, receiptOf, htoNat]
  rw [if_neg hequal] at hserve
  refine replies_of hserve ?_ h.toMatches
  simp [memoryServe, hvalid, memoryAdmit, memoryAdmitReserve_of_found hfind, hequal,
    memoryReceipt, receiptOf]

/-- The new record and the new row look the same. -/
theorem matches_admitted (hvalid : recordValid record.1 = .ok)
    (hstored : Admitted memory (memoryRecordCopy ⟨0, bytes, memory.nextRecordId, record.1⟩)
      memory') :
    Matches limits memory' ⟨admitCount bytes db.metaRow,
      db.rows ++ [freshRow db.metaRow.nextRecordId record.1 bytes]⟩ o := by
  have hcopy : slotView (memoryRecordCopy ⟨0, bytes, memory.nextRecordId, record.1⟩) =
      rowView (freshRow db.metaRow.nextRecordId record.1 bytes) := by
    have hwell := recordValid_iff.mp hvalid
    have hview : ({ record.1 with envelopeSchema := recordSchema } : Record) = record.1 := by
      rw [← hwell.envelopeSchema]
    simp [slotView, rowView, memoryRecordCopy, freshRow, hview, h.nextRecordId,
      materialize_recordColumns hwell record.2]
  exact
    { h.toMatches with
      config := hstored.config.trans h.config
      current := h.current
      accepting := h.accepting.trans hstored.accepting.symm
      views := by
        refine (hstored.slots.map slotView).trans ?_
        rw [map_append, map_append, map_singleton, map_singleton, hcopy]
        exact h.views.append_right _
      nextRecordId := by
        rw [hstored.nextRecordId]
        simp [admitCount, h.nextRecordId]
      nextClaimToken := h.nextClaimToken.trans (by rw [hstored.nextClaimToken])
      completed := h.completed.trans (by rw [hstored.completed])
      retried := h.retried.trans (by rw [hstored.retried])
      discarded := h.discarded.trans (by rw [hstored.discarded])
      reserved := hstored.reserved
      ids := hstored.ids
      tokens := hstored.tokens.trans h.tokens }

/-- The two providers have the same room. -/
theorem full_iff (bytes : ℕ) :
    (db.metaRow.records + db.metaRow.historyRecords ≥ limits.maxRecords ∨
      bytes > sub64 limits.maxTotalBytes db.metaRow.retainedBytes.toNat) ↔
    limits.maxRecords ≤ memory.liveRecords + memory.historyRecords ∨
      sub64 limits.maxTotalBytes memory.retainedBytes < bytes := by
  rw [h.records_eq, h.historyRecords_eq, h.retainedBytes_eq, Int.toNat_natCast]
  exact_mod_cast Iff.rfl

/-- A new identity is stored by both where there is room. -/
theorem admit_stored (hsmall : CountersSmall db.metaRow) (hvalid : recordValid record.1 = .ok)
    (hfind : memoryFindAdmission memory record.1 = none)
    (hfilter : db.rows.filter (hasIdentity record.1) = []) (haccepting : memory.accepting = true)
    (hsize : retainedSize record.1 = some bytes) (hbytes : bytes ≤ limits.maxRecordBytes)
    (hroom : ¬ (limits.maxRecords ≤ memory.liveRecords + memory.historyRecords ∨
      sub64 limits.maxTotalBytes memory.retainedBytes < bytes)) :
    Replies limits memory db o (.admitRecord record) := by
  have hvacant := (h.full_iff bytes).not.mpr hroom
  obtain ⟨hrecords, htotal⟩ := not_or.mp hroom
  obtain ⟨memory', hmemory, hstored⟩ := h.memoryAdmit_ok hsmall hfind haccepting hsize
    (by rwa [h.config]) (by rw [h.config]; omega) (by rw [h.config]; omega)
  have hunused : (db.rows.any fun other =>
      other.recordId == db.metaRow.nextRecordId || hasIdentity record.1 other) = false := by
    rw [any_eq_false]
    intro other hother
    have hlt := (h.intact.ids other hother).2
    have hnone := filter_eq_nil_iff.mp hfilter other hother
    simp [hlt.ne, hnone]
  have hinsert : inboxAdmit limits o.generation o.accepting record.1 db =
      .ok (⟨admitCount bytes db.metaRow, db.rows ++ [freshRow db.metaRow.nextRecordId record.1
        bytes]⟩, db.metaRow.nextRecordId) := by
    simp only [inboxAdmit, h.generation_eq, ne_eq, not_true_eq_false, if_false, hfilter,
      inboxAdmitFresh, h.accepting.trans haccepting, hsize, gt_iff_lt, not_lt.mpr hbytes]
    rw [if_neg hvacant]
    simp [hsmall.nextRecordId.ne, hsmall.admitted.ne, insertRow, freshRow, hunused, updateMeta,
      h.generation_eq, bind, Except.bind]
  have hserve := h.serve_admit hvalid
  rw [hinsert] at hserve
  have hnext : db.metaRow.nextRecordId.toNat = memory.nextRecordId := by
    rw [h.nextRecordId, Int.toNat_natCast]
  simp only [receiptOf, hnext, h.nextRecordId_ne, if_false] at hserve
  refine replies_of hserve ?_ (h.matches_admitted hvalid hstored)
  simp [memoryServe, hvalid, hmemory]

theorem replies_admit (hsmall : CountersSmall db.metaRow) (record : CallerRecord) :
    Replies limits memory db o (.admitRecord record) := by
  by_cases hvalid : recordValid record.1 = .ok
  swap
  · exact h.replies_refused (.admitted (recordValid record.1) 0) (by simp [Owner.start, hvalid])
      (by simp [memoryServe, hvalid])
  have hconfig := h.config
  rcases h.admission_cases record.1 with
    ⟨hfind, hfilter⟩ | ⟨index, r, row, hfind, hid, hrow, hfilter, hview⟩
  swap
  · exact h.admit_replayed hvalid hfind hid hrow hfilter hview
  -- The checks of a new identity, in the order of both providers.
  by_cases haccepting : memory.accepting = true
  swap
  · exact h.admit_refused .eshutdown hvalid (by decide) hfind hfilter
      (by simp [inboxAdmitFresh, h.accepting, haccepting])
      (by simp [memoryAdmitFresh, haccepting])
  have hopen : o.accepting = true := h.accepting.trans haccepting
  rcases hsize : retainedSize record.1 with _ | bytes
  · exact h.admit_refused .erange hvalid (by decide) hfind hfilter
      (by simp [inboxAdmitFresh, hopen, hsize]) (by simp [memoryAdmitFresh, haccepting, hsize])
  by_cases hbytes : bytes ≤ limits.maxRecordBytes
  swap
  · have hlarge := not_le.mp hbytes
    exact h.admit_refused .enospc hvalid (by decide) hfind hfilter
      (by simp [inboxAdmitFresh, hopen, hsize, hlarge])
      (by simp [memoryAdmitFresh, haccepting, hsize, hconfig, hlarge])
  by_cases hfull : limits.maxRecords ≤ memory.liveRecords + memory.historyRecords ∨
      sub64 limits.maxTotalBytes memory.retainedBytes < bytes
  swap
  · exact h.admit_stored hsmall hvalid hfind hfilter haccepting hsize hbytes hfull
  obtain ⟨-, hadd, -, -, -⟩ := h.room_exact
  have hadmitted : memory.admitted ≠ max64 := (add64_one (h.admitted_eq ▸ hsmall.admitted)).2
  exact h.admit_refused .enospc hvalid (by decide) hfind hfilter
    (by simp only [inboxAdmitFresh, hopen, hsize, not_true_eq_false, if_false, gt_iff_lt,
          not_lt.mpr hbytes]
        rw [if_pos ((h.full_iff bytes).mpr hfull)])
    (by simp only [memoryAdmitFresh, haccepting, hsize, hconfig, not_true_eq_false, if_false,
          gt_iff_lt, not_lt.mpr hbytes, hadmitted, h.ids, Bool.false_eq_true, or_self, hadd]
        rw [if_pos hfull])

/-! ### Reads -/

theorem scan_forall₂ (phase : RecordPhase) (afterId capacity : ℕ) :
    List.Forall₂ (fun r row => slotView r = rowView row ∧ row ∈ db.rows ∧ row.phase = phase)
      (scanFrom phase memory.slots afterId capacity)
      ((db.rows.filter fun row => row.phase = phase ∧ (afterId : ℤ) < row.recordId).take
        capacity) := by
  induction capacity generalizing afterId with
  | zero => simp [scanFrom]
  | succ capacity ih =>
    have hpq : ∀ {r : MemoryRecord} {row : Row}, slotView r = rowView row →
        (r.phase == phase && decide (afterId < r.recordId)) =
          decide (row.phase = phase ∧ (afterId : ℤ) < row.recordId) := by
      intro r row hview
      rw [phase_of_view hview, ← recordId_of_view hview, Bool.eq_iff_iff]
      simp
    rcases h.oldest_cases hpq with
      ⟨hnone, hfilter⟩ | ⟨index, r, before, row, behind, rest, hsome, hfilter, hfound⟩
    · simp only [scanFrom, hnone, hfilter, take_nil, List.Forall₂.nil]
    have hrow : row.phase = phase ∧ (afterId : ℤ) < row.recordId := by
      have hmem : row ∈ db.rows.filter
          fun row => row.phase = phase ∧ (afterId : ℤ) < row.recordId := by
        rw [hfilter]
        exact mem_cons_self ..
      simpa using (mem_filter.mp hmem).2
    -- The other rows are those behind the id of the first one.
    have hrest : (db.rows.filter fun other =>
        other.phase = phase ∧ (r.recordId : ℤ) < other.recordId) = rest := by
      have hsorted := h.intact.sorted.filter
        fun row => row.phase = phase ∧ (afterId : ℤ) < row.recordId
      rw [hfilter, pairwise_cons] at hsorted
      have hbehind : ((row :: rest).filter fun other => row.recordId < other.recordId) =
          rest := by
        rw [filter_cons_of_neg (by simp), filter_eq_self]
        intro other hother
        simpa using hsorted.1 other hother
      rw [← hbehind, ← hfilter, filter_filter]
      apply filter_congr
      intro other _
      rw [recordId_of_view hfound.view, Bool.eq_iff_iff]
      simp only [decide_eq_true_eq, Bool.and_eq_true]
      constructor
      · rintro ⟨hphase, hlt⟩
        exact ⟨hlt, hphase, hrow.2.trans hlt⟩
      rintro ⟨hlt, hphase, -⟩
      exact ⟨hphase, hlt⟩
    simp only [scanFrom, hsome, hfilter, take_succ_cons]
    refine List.Forall₂.cons ⟨hfound.view, hfound.mem, hrow.1⟩ ?_
    rw [← hrest]
    exact ih r.recordId

theorem scanRows_eq (phase : RecordPhase) (afterId capacity : ℕ) :
    scanRows phase afterId capacity db.rows =
      (db.rows.filter fun row => row.phase = phase ∧ (afterId : ℤ) < row.recordId).take
        capacity := by
  rw [scanRows, Rows.orderBy_eq (h.intact.sorted.filter _)]

theorem replies_scanFailed {afterId capacity : ℕ}
    (hmax : (afterId : ℤ) ≤ int64Max ∧ (capacity : ℤ) ≤ int64Max) :
    Replies limits memory db o (.scanFailed afterId capacity) := by
  have hstart : o.start (.scanFailed afterId capacity) =
      (o, .inl (.scanFailed afterId capacity)) := by
    simp only [Owner.start]
    rw [if_neg (by omega)]
    exact h.connecting _ _
  have hentries : memoryScanFailed memory afterId capacity =
      (scanRows .failed afterId capacity db.rows).map fun row =>
        ⟨row.recordId.toNat, row.failureStatus, row.failureKind⟩ := by
    rw [h.scanRows_eq, ← forall₂_eq_eq_eq]
    refine forall₂_map_left_iff.mpr (forall₂_map_right_iff.mpr ?_)
    refine (h.scan_forall₂ .failed afterId capacity).imp ?_
    rintro r row ⟨hview, -, hphase⟩
    obtain ⟨hstatus, hkind⟩ := failure_of_view hview hphase
    rw [← recordId_of_view hview, Int.toNat_natCast, hstatus, hkind]
  have hpositive : ((scanRows .failed afterId capacity db.rows).any fun row =>
      row.recordId ≤ 0) = false := by
    rw [any_eq_false]
    intro row hrow
    rw [h.scanRows_eq] at hrow
    have hmem := (mem_filter.mp (mem_of_mem_take hrow)).1
    simpa using (h.intact.ids row hmem).1
  have hscan : inboxScanFailed o.generation afterId capacity db =
      .ok (memoryScanFailed memory afterId capacity) := by
    simp [inboxScanFailed, h.generation_eq, hpositive, hentries]
  refine replies_of (h.serve_plain hstart ?_) rfl h.toMatches
  simp [Owner.advance, transact, hscan, bind, Except.bind, Inbox.inboxScanFailed]

theorem replies_scanHistory {afterId capacity : ℕ}
    (hmax : (afterId : ℤ) ≤ int64Max ∧ (capacity : ℤ) ≤ int64Max) :
    Replies limits memory db o (.scanHistory afterId capacity) := by
  have hstart : o.start (.scanHistory afterId capacity) =
      (o, .inl (.scanHistory afterId capacity)) := by
    simp only [Owner.start]
    rw [if_neg (by omega)]
    exact h.connecting _ _
  have hentries : memoryScanHistory memory afterId capacity =
      (scanRows .tombstone afterId capacity db.rows).map fun row =>
        (row.recordId.toNat, row.terminalKind) := by
    rw [h.scanRows_eq, ← forall₂_eq_eq_eq]
    refine forall₂_map_left_iff.mpr (forall₂_map_right_iff.mpr ?_)
    refine (h.scan_forall₂ .tombstone afterId capacity).imp ?_
    rintro r row ⟨hview, -, -⟩
    rw [← recordId_of_view hview, Int.toNat_natCast, terminalKind_of_view hview]
  have hpositive : ((scanRows .tombstone afterId capacity db.rows).any fun row =>
      row.recordId ≤ 0 ∨ row.terminalKind = none) = false := by
    rw [any_eq_false]
    intro row hrow
    rw [h.scanRows_eq] at hrow
    obtain ⟨hmem, hcondition⟩ := mem_filter.mp (mem_of_mem_take hrow)
    have hphase : row.phase = .tombstone := (decide_eq_true_eq.mp hcondition).1
    have hvalid := h.intact.phases row hmem
    simp only [phaseColumnsValid, hphase, decide_eq_true_eq] at hvalid
    simp [(h.intact.ids row hmem).1, hvalid]
  have hscan : inboxScanHistory o.generation afterId capacity db =
      .ok (memoryScanHistory memory afterId capacity) := by
    simp only [inboxScanHistory, h.generation_eq, ne_eq, not_true_eq_false, if_false, hpositive,
      Bool.false_eq_true, hentries]
  refine replies_of (h.serve_plain hstart ?_) rfl h.toMatches
  simp [Owner.advance, transact, hscan, bind, Except.bind, Inbox.inboxScanHistory]

theorem snapshot_eq : inboxSnapshot o.generation o.accepting db = .ok (memorySnapshot memory) := by
  have hbound := (configValid_bounds h.consistent.config).1
  have hlive := h.consistent.capacityExact.liveRecords
  have hlive' := h.consistent.live
  have hsplit := phaseCount_isLive memory.slots
  have hmax : max64 = 2 ^ 64 - 1 := rfl
  simp only [memoryMaxRecords] at hbound hlive hlive'
  have hpending : db.metaRow.pendingRecords.toNat = countPhase .pending memory.slots := by
    rw [countPhase_eq (by omega), h.intact.pending, ← h.phaseCount_eq, Int.toNat_natCast]
  have hfailed : db.metaRow.failedRecords.toNat = countPhase .failed memory.slots := by
    rw [countPhase_eq (by omega), h.intact.failedRows, ← h.phaseCount_eq, Int.toNat_natCast]
  have hgeneration : o.generation.toNat = 1 := by
    rw [h.generation]
    rfl
  simp [inboxSnapshot, h.generation_eq, memorySnapshot, hgeneration, h.accepting, h.records_eq,
    h.historyRecords_eq, hpending, hfailed, h.inFlightClaims_eq, h.retainedBytes_eq, h.admitted_eq,
    h.completed, h.failed_eq, h.retried, h.discarded]

theorem replies_snapshot : Replies limits memory db o .snapshot := by
  have hstart : o.start .snapshot = (o, .inl .snapshot) := h.connecting _ _
  refine replies_of (h.serve_plain hstart ?_) rfl h.toMatches
  simp [Owner.advance, transact, h.snapshot_eq, bind, Except.bind, Inbox.inboxSnapshot, snapshotOf]

theorem replies_close : Replies limits memory db o .close := by
  have hmemory : memoryServe memory .close =
      ({ memory with accepting := false }, .status .ok) := by
    simp [memoryServe, memoryClose, memoryStatus, h.reserved]
  by_cases haccepting : o.accepting = true
  · have hstart : o.start .close =
      ({ o with accepting := false, closing := true }, .inl .close) := by
      simp [Owner.start, Owner.startClose, h.connectionFree, haccepting, h.calls]
    have hadvance :
        ({ o with accepting := false, closing := true, calls := [.close] } : Owner).advance db .ok
          .close =
        ({ o with accepting := false, closing := false, calls := [.close] }, db,
          .inr (.status .ok)) := by
      simp [Owner.advance, transact, inboxClose, updateMeta, h.generation_eq]
    refine replies_of (serve_once hstart h.calls hadvance) hmemory ?_
    exact
      { h.toMatches with
        calls := rfl
        closing := rfl
        accepting := rfl }
  have hstart : o.start .close = (o, .inr (.status .ok)) := by
    simp [Owner.start, Owner.startClose, h.connectionFree, haccepting, h.closing]
  refine replies_of (serve_returned hstart) hmemory ?_
  exact
    { h.toMatches with
      accepting := by simpa using haccepting }

end Mirrors

/-! ### Sequences of calls -/

variable {memory : Memory}

theorem memoryServe_consistent (h : Consistent ⟨memory, []⟩) (op : Operation) :
    Consistent ⟨(memoryServe memory op).1, []⟩ := by
  have hact : ∀ (op : Inbox.Operation) {s : Inbox.System} {out : Inbox.Outcome},
      Inbox.act ⟨memory, []⟩ op = some (s, out) → Consistent s :=
    fun _ _ _ hstep => h.effect (Inbox.act_effect hstep)
  cases op with
  | admitRecord record =>
    simp only [memoryServe]
    split
    · exact h
    rename_i hvalid
    unfold memoryAdmit
    rcases hadmission : memoryAdmitReserve memory record.1 with ⟨reserved, ⟨rc, recordId⟩ | r⟩
    · exact hact (.admitRecord record.1) (by rw [Inbox.act, if_neg hvalid, hadmission])
    have hreserved := hact (.admitRecord record.1) (by rw [Inbox.act, if_neg hvalid, hadmission])
    have hcommit : Inbox.act ⟨reserved, [r]⟩ (.commit 0) =
        some (⟨(memoryAdmitCommit reserved r).1, []⟩,
          Inbox.receiptOf r.source (memoryAdmitCommit reserved r).2.1
            (memoryAdmitCommit reserved r).2.2) := rfl
    exact hreserved.effect (Inbox.act_effect hcommit)
  | claim => exact hact .claim rfl
  | claimEx request => exact hact (.claimEx request) rfl
  | complete recordId claimToken =>
    simp only [memoryServe]
    split
    · exact h
    rename_i hzero
    exact hact (.complete recordId claimToken) (by rw [Inbox.act, if_neg hzero]; rfl)
  | fail recordId claimToken status =>
    simp only [memoryServe]
    split
    · exact h
    rename_i hzero
    exact hact (.fail recordId claimToken status) (by rw [Inbox.act, if_neg hzero]; rfl)
  | retry recordId =>
    simp only [memoryServe]
    split
    · exact h
    rename_i hzero
    exact hact (.retry recordId) (by rw [Inbox.act, if_neg hzero]; rfl)
  | discard recordId =>
    simp only [memoryServe]
    split
    · exact h
    rename_i hzero
    exact hact (.discard recordId) (by rw [Inbox.act, if_neg hzero]; rfl)
  | forget recordId =>
    simp only [memoryServe]
    split
    · exact h
    rename_i hzero
    exact hact (.forget recordId) (by rw [Inbox.act, if_neg hzero]; rfl)
  | scanFailed afterId capacity => exact h
  | scanHistory afterId capacity => exact h
  | close => exact hact .close rfl
  | snapshot => exact h

def Answerable (limits : Limits) (s : System) : Operation → Prop
  | .claim => Mirrors.ClaimAnswerable limits s.db claimRequestInit
  | .claimEx request => Mirrors.ClaimAnswerable limits s.db request
  | _ => True

/-- The counters of the namespace and the arguments of the call are within `INT64_MAX`. -/
def WithinRange (s : System) (op : Operation) : Prop :=
  CountersSmall s.db.metaRow ∧ op.Small

theorem Mirrors.step {limits : Limits} {db : Database} {o : Owner}
    (h : Mirrors limits memory db o) {op : Operation} (hrange : WithinRange ⟨db, [some o]⟩ op) :
    ∃ db' o' result, serve ⟨db, [some o]⟩ op = some (⟨db', [some o']⟩, result) ∧
      Mirrors limits (memoryServe memory op).1 db' o' ∧
      (result = (memoryServe memory op).2 ↔ Answerable limits ⟨db, [some o]⟩ op) := by
  obtain ⟨hsmall, hop⟩ := hrange
  have hmatches : ∃ db' o' result, serve ⟨db, [some o]⟩ op = some (⟨db', [some o']⟩, result) ∧
      Matches limits (memoryServe memory op).1 db' o' ∧
      (result = (memoryServe memory op).2 ↔ Answerable limits ⟨db, [some o]⟩ op) := by
    have hreplies : Replies limits memory db o op → Answerable limits ⟨db, [some o]⟩ op →
        ∃ db' o' result, serve ⟨db, [some o]⟩ op = some (⟨db', [some o']⟩, result) ∧
          Matches limits (memoryServe memory op).1 db' o' ∧
          (result = (memoryServe memory op).2 ↔ Answerable limits ⟨db, [some o]⟩ op) := by
      rintro ⟨db', o', hserve, hm⟩ hanswer
      exact ⟨db', o', _, hserve, hm, fun _ => hanswer, fun _ => rfl⟩
    cases op with
    | admitRecord record => exact hreplies (h.replies_admit hsmall record) trivial
    | claim | claimEx request => exact h.claim_step hsmall rfl rfl
    | complete recordId claimToken =>
      exact hreplies (h.replies_complete hsmall hop.1 hop.2) trivial
    | fail recordId claimToken status =>
      exact hreplies (h.replies_fail hsmall status hop.1 hop.2) trivial
    | retry recordId => exact hreplies (h.replies_retry hsmall hop) trivial
    | discard recordId => exact hreplies (h.replies_discard hsmall hop) trivial
    | forget recordId => exact hreplies (h.replies_forget hop) trivial
    | scanFailed afterId capacity => exact hreplies (h.replies_scanFailed hop) trivial
    | scanHistory afterId capacity => exact hreplies (h.replies_scanHistory hop) trivial
    | close => exact hreplies h.replies_close trivial
    | snapshot => exact hreplies h.replies_snapshot trivial
  obtain ⟨db', o', result, hserve, hm, hiff⟩ := hmatches
  obtain ⟨hsound, hleased⟩ := serve_sound hserve h.sound h.leased
  exact ⟨db', o', result, hserve,
    ⟨hm, hsound, hleased, memoryServe_consistent h.consistent op⟩, hiff⟩

def serveAll (s : System) : List Operation → Option (List Result)
  | [] => some []
  | op :: ops =>
    match serve s op with
    | none => none
    | some (s', result) => (serveAll s' ops).map (result :: ·)

def memoryServeAll (memory : Memory) : List Operation → List Result
  | [] => []
  | op :: ops => (memoryServe memory op).2 :: memoryServeAll (memoryServe memory op).1 ops

theorem Mirrors.sequence (h : Mirrors limits memory db o)
    (hrange : Along serve WithinRange ⟨db, [some o]⟩ ops) :
    ∃ results, serveAll ⟨db, [some o]⟩ ops = some results ∧
      (results = memoryServeAll memory ops ↔
        Along serve (Answerable limits) ⟨db, [some o]⟩ ops) := by
  induction ops generalizing memory db o with
  | nil => exact ⟨[], rfl, fun _ => trivial, fun _ => rfl⟩
  | cons op ops ih =>
    obtain ⟨db', o', result, hserve, hnext, hiff⟩ := h.step hrange.1
    have hrest := hrange.2
    rw [hserve] at hrest
    obtain ⟨results, hall, hresults⟩ := ih hnext hrest
    refine ⟨result :: results, by simp [serveAll, hserve, hall], ?_⟩
    rw [memoryServeAll, List.cons.injEq, hiff, hresults, Along, hserve]

def opened (limits : Limits) (connectionCount : ℕ) : System :=
  ((System.init limits).create ⟨limits, connectionCount, .exclusive⟩ .ok).1

theorem mirrors_opened (hmemory : memoryCreate limits = some memory)
    (hpool : 0 < connectionCount ∧ connectionCount ≤ inboxMaxConnections) :
    ∃ db o, opened limits connectionCount = ⟨db, [some o]⟩ ∧ Mirrors limits memory db o := by
  have hconfig : memoryConfigValid limits := by
    by_contra hnot
    simp [memoryCreate, hnot] at hmemory
  have hlimits : limitsValid limits := by
    have htotal : memoryMaxTotalBytes = 2 ^ 63 - 1 := by decide
    have hrecords : memoryMaxRecords = 1048576 := rfl
    have hmax : int64Max = 2 ^ 63 - 1 := rfl
    simp only [memoryConfigValid, decide_eq_true_eq] at hconfig
    simp only [limitsValid, decide_eq_true_eq]
    omega
  have hgeneration : (0 : ℤ) ≠ int64Max := by decide
  have hcreate := create_exclusive_ok (Sound.init limits) hlimits hpool rfl hgeneration
  have hopened : opened limits connectionCount =
      ⟨⟨openMeta (emptySchema limits).metaRow, []⟩,
        [some (newOwner ⟨limits, connectionCount, .exclusive⟩ 1)]⟩ :=
    congrArg Prod.fst (Option.some.inj hcreate)
  have hrun : Run (Acts act) (System.init limits)
      [(.create ⟨limits, connectionCount, .exclusive⟩ .ok, .created (.ok 1))]
      ⟨⟨openMeta (emptySchema limits).metaRow, []⟩,
        [some (newOwner ⟨limits, connectionCount, .exclusive⟩ 1)]⟩ :=
    Run.single_iff.mpr hcreate
  refine ⟨_, _, hopened, ?_⟩
  have hconsistent := consistent_of_memoryCreate hmemory
  rw [memoryCreate, if_pos hconfig] at hmemory
  cases hmemory
  exact
    { config := rfl
      calls := rfl
      connections := hpool.1
      generation := rfl
      current := rfl
      closing := rfl
      accepting := rfl
      views := by simp [stored_replicate]
      nextRecordId := rfl
      nextClaimToken := rfl
      completed := rfl
      retried := rfl
      discarded := rfl
      reserved := rfl
      ids := rfl
      tokens := rfl
      sound := sound_of_run hrun
      leased := leased_of_run hrun
      consistent := hconsistent }

/-- The first owner of an empty namespace gets results for every sequence of calls; they are those
of a new memory inbox with the same limits exactly when every claim finds a free lease or an
eligible record. -/
theorem answers_like_memory {limits : Limits} {memory : Memory}
    (hmemory : memoryCreate limits = some memory) {connectionCount : ℕ}
    (hpool : 0 < connectionCount ∧ connectionCount ≤ inboxMaxConnections) {ops : List Operation}
    (hrange : Along serve WithinRange (opened limits connectionCount) ops) :
    ∃ results, serveAll (opened limits connectionCount) ops = some results ∧
      (results = memoryServeAll memory ops ↔
        Along serve (Answerable limits) (opened limits connectionCount) ops) := by
  obtain ⟨db, o, hopened, hmirrors⟩ := mirrors_opened hmemory hpool
  rw [hopened] at hrange ⊢
  exact hmirrors.sequence hrange

/-- A record is admitted, claimed and completed, and both providers answer alike. -/
theorem answers_like_memory_complete :
    ∃ memory results, memoryCreate twoSlots = some memory ∧
      serveAll (opened twoSlots 1)
        [.admitRecord firstRecord, .claim, .complete 1 1] = some results ∧
      results = memoryServeAll memory
        [.admitRecord firstRecord, .claim, .complete 1 1] := by
  obtain ⟨results, hserve, hiff⟩ := @answers_like_memory twoSlots _ rfl 1 (by decide)
    [.admitRecord firstRecord, .claim, .complete 1 1]
    ⟨⟨by constructor <;> decide, trivial⟩, ⟨by constructor <;> decide, trivial⟩,
      ⟨by constructor <;> decide, by decide, by decide⟩, trivial⟩
  exact ⟨_, results, rfl, hserve, hiff.mpr ⟨trivial, fun _ => .inl (by decide), trivial, trivial⟩⟩

/-- While the only lease is taken and no record is pending, the namespace refuses a claim with
`ENOSPC`, not `ENOENT`. -/
theorem claim_without_lease :
    ∃ memory receipt claim, memoryCreate twoSlots = some memory ∧
      serveAll (opened twoSlots 1)
        [.admitRecord firstRecord, .claim, .claim] =
          some [receipt, claim, .claimed (.error .enospc)] ∧
      memoryServeAll memory [.admitRecord firstRecord, .claim, .claim] =
        [receipt, claim, .claimed (.error .enoent)] :=
  ⟨_, _, _, rfl, rfl, rfl⟩

end TurboFlow.TurboDb
