import TurboFlow.TurboDb.Sequential

/-!
# Claims and settlement beside the memory inbox

In matching states the namespace and the memory inbox find the same record, move it alike and return
the same. The exception: a claim that finds all leases taken is refused with `ENOSPC` before the
namespace looks for a record, where the memory inbox returns `ENOENT` when there is none.
-/

namespace TurboFlow.TurboDb

open Inbox Transition Table Word List Rows

/-- The counters of the namespace are below `INT64_MAX`. -/
structure CountersSmall (m : MetaRow) : Prop where
  nextRecordId : m.nextRecordId < int64Max
  nextClaimToken : m.nextClaimToken < int64Max
  admitted : m.admitted < int64Max
  completed : m.completed < int64Max
  failed : m.failed < int64Max
  retried : m.retried < int64Max
  discarded : m.discarded < int64Max

/-- The ids and sizes that a caller passes do not exceed `INT64_MAX`. -/
def Operation.Small : Operation → Prop
  | .complete recordId claimToken | .fail recordId claimToken _ =>
    (recordId : ℤ) ≤ int64Max ∧ (claimToken : ℤ) ≤ int64Max
  | .retry recordId | .discard recordId | .forget recordId => (recordId : ℤ) ≤ int64Max
  | .scanFailed afterId capacity | .scanHistory afterId capacity =>
    (afterId : ℤ) ≤ int64Max ∧ (capacity : ℤ) ≤ int64Max
  | _ => True

def Replies (limits : Limits) (memory : Memory) (db : Database) (o : Owner) (op : Operation) :
    Prop :=
  ∃ db' o', serve ⟨db, [some o]⟩ op = some (⟨db', [some o']⟩, (memoryServe memory op).2) ∧
    Matches limits (memoryServe memory op).1 db' o'

/-! ### Calls of a single owner -/

variable {db db' : Database} {o : Owner} {op : Operation} {result : Result} {recordId : ℕ}
  {r : MemoryRecord} {row : Row}

section Serving

theorem serve_returned (h : o.start op = (p, .inr result)) :
    serve ⟨db, [some o]⟩ op = some (⟨db, [some p]⟩, result) := by
  have hlive : System.Live ⟨db, [some o]⟩ 0 o := rfl
  rw [serve, act_call hlive, h]
  rfl

theorem serve_once (hstart : o.start op = (p, .inl c)) (hcalls : p.calls = [])
    (hadvance : ({ p with calls := [c] } : Owner).advance db .ok c = (q, db', .inr result)) :
    serve ⟨db, [some o]⟩ op =
      some (⟨db', [some { q with calls := q.calls.eraseIdx 0 }]⟩, result) := by
  have hlive : System.Live ⟨db, [some o]⟩ 0 o := rfl
  have hlive' : System.Live ⟨db, [some { p with calls := [c] }]⟩ 0 { p with calls := [c] } := rfl
  rw [serve, act_call hlive, hstart]
  simp only [System.callStarted, hcalls, nil_append, set_cons_zero, finish]
  rw [act_advance hlive' rfl, hadvance]
  rfl

theorem serve_twice (hstart : o.start op = (p, .inl c)) (hcalls : p.calls = [])
    (hconnect : ({ p with calls := [c] } : Owner).advance db .ok c =
      ({ p with calls := [c] }, db, .inl d))
    (hadvance : ({ p with calls := [d] } : Owner).advance db .ok d = (q, db', .inr result)) :
    serve ⟨db, [some o]⟩ op =
      some (⟨db', [some { q with calls := q.calls.eraseIdx 0 }]⟩, result) := by
  have hlive : System.Live ⟨db, [some o]⟩ 0 o := rfl
  have hlive₁ : System.Live ⟨db, [some { p with calls := [c] }]⟩ 0 { p with calls := [c] } := rfl
  have hlive₂ : System.Live ⟨db, [some { p with calls := [d] }]⟩ 0 { p with calls := [d] } := rfl
  rw [serve, act_call hlive, hstart]
  simp only [System.callStarted, hcalls, nil_append, set_cons_zero, finish]
  rw [act_advance hlive₁ rfl, hconnect]
  simp only [System.callAdvanced, set_cons_zero, finish]
  rw [act_advance hlive₂ rfl, hadvance]
  rfl

end Serving

namespace Mirrors

variable {limits : Limits} {memory : Memory} (h : Mirrors limits memory db o)

include h

theorem generation_eq : db.metaRow.generation = o.generation :=
  h.current.trans h.generation.symm

theorem connectionFree : o.connectionFree = true := by
  simp [Owner.connectionFree, h.calls, h.connections]

theorem connecting (call : Call) (busy : Result) : o.connecting call busy = (o, .inl call) := by
  rw [Owner.connecting, if_pos h.connectionFree]

theorem owner_eq : ({ o with calls := [] } : Owner) = o := by
  rw [← h.calls]

variable {claimToken : ℕ} {request : ClaimRequest}

theorem serve_plain (hstart : o.start op = (o, .inl c))
    (hadvance : ({ o with calls := [c] } : Owner).advance db .ok c =
      ({ o with calls := [c] }, db', .inr result)) :
    serve ⟨db, [some o]⟩ op = some (⟨db', [some o]⟩, result) := by
  rw [serve_once hstart h.calls hadvance]
  simp only [eraseIdx_cons_zero]
  rw [h.owner_eq]

theorem startWithId (hpos : recordId ≠ 0) (hmax : (recordId : ℤ) ≤ int64Max)
    (call : Call) : o.startWithId recordId call = (o, .inl call) := by
  rw [Owner.startWithId, if_neg hpos, if_neg (not_lt.mpr hmax), h.connecting]

theorem replies_refused (result : Result) (hstart : o.start op = (o, .inr result))
    (hmemory : memoryServe memory op = (memory, result)) : Replies limits memory db o op := by
  refine ⟨db, o, ?_, ?_⟩
  · rw [serve_returned hstart, hmemory]
  rw [hmemory]
  exact h.toMatches

/-! ### The operator's actions -/

section FailedTransition

variable {mv : Move}

section

variable (hcounter : mv.counter db.metaRow ≠ int64Max)
include hcounter

theorem failedTransition_none (hnone : ∀ row ∈ db.rows, row.recordId ≠ (recordId : ℤ)) :
    inboxFailedTransition o.generation recordId mv db = .error .enoent := by
  have hfilter : (db.rows.filter fun row => row.recordId = (recordId : ℤ)) = [] :=
    filter_eq_nil_iff.mpr fun row hrow => by simp [hnone row hrow]
  simp [inboxFailedTransition, h.current, h.generation, hcounter, hfilter]

theorem failedTransition_busy
    (hsel : Selects (fun row => row.recordId = (recordId : ℤ)) db.rows before row behind)
    (hphase : row.phase ≠ .failed) :
    inboxFailedTransition o.generation recordId mv db = .error .ebusy := by
  simp [inboxFailedTransition, h.current, h.generation, hcounter, hsel.filter, hphase]

theorem failedTransition_ok
    (hsel : Selects (fun row => row.recordId = (recordId : ℤ)) db.rows before row behind)
    (hphase : row.phase = .failed) :
    inboxFailedTransition o.generation recordId mv db =
      .ok ⟨mv.count db.metaRow, before ++ mv.set row :: behind⟩ := by
  have hfailed : Selects (fun row => row.recordId = (recordId : ℤ) ∧ row.phase = .failed)
      db.rows before row behind :=
    ⟨hsel.split, by simpa [hphase] using hsel.holds,
      fun b hb => by simpa using fun hid => absurd hid (by simpa using hsel.others b hb)⟩
  simp only [inboxFailedTransition, h.current, h.generation, ne_eq, not_true_eq_false, if_false,
    hcounter, hsel.filter, hphase, moveOne, updateOne, hfailed.countP, if_true, hfailed.update,
    updateMeta, bind, Except.bind]

end

theorem serve_failedTransition (op : Operation) (mv : FailedMove) (hpos : recordId ≠ 0)
    (hmax : (recordId : ℤ) ≤ int64Max)
    (hstart : o.start op = o.startWithId recordId (.failedTransition recordId mv)) :
    serve ⟨db, [some o]⟩ op =
      some (⟨committed db (inboxFailedTransition o.generation recordId mv.1 db), [some o]⟩,
        .status (statusOf (inboxFailedTransition o.generation recordId mv.1 db))) := by
  rw [h.startWithId hpos hmax] at hstart
  exact h.serve_plain hstart rfl

end FailedTransition

omit h in
theorem replies_of {memory' : Memory} {o' : Owner}
    (hserve : serve ⟨db, [some o]⟩ op = some (⟨db', [some o']⟩, result))
    (hmemory : memoryServe memory op = (memory', result)) (hm : Matches limits memory' db' o') :
    Replies limits memory db o op := by
  refine ⟨db', o', ?_, ?_⟩
  · rw [hserve, hmemory]
  rw [hmemory]
  exact hm

omit h in
theorem add64_one {c : ℕ} (h : (c : ℤ) < int64Max) : add64 c 1 = c + 1 ∧ c ≠ max64 := by
  simp only [int64Max] at h
  have hmax : max64 = 2 ^ 64 - 1 := rfl
  exact ⟨add64_of_le (by omega), by omega⟩

theorem terminalKind_none (hrow : row ∈ db.rows) (hphase : row.phase ≠ .tombstone) :
    row.terminalKind = none := by
  have hvalid := h.intact.phases row hrow
  unfold phaseColumnsValid at hvalid
  cases hp : row.phase with
  | tombstone => exact absurd hp hphase
  | pending => simp [hp] at hvalid; exact hvalid.2.2.2
  | claimed => simp [hp] at hvalid; exact hvalid.2.2.2.2
  | failed => simp [hp] at hvalid; exact hvalid.2

theorem replies_retry (hsmall : CountersSmall db.metaRow)
    (hmax : (recordId : ℤ) ≤ int64Max) : Replies limits memory db o (.retry recordId) := by
  by_cases hpos : recordId = 0
  · exact h.replies_refused (.status .einval)
      (by simp [Owner.start, Owner.startWithId, hpos]) (by simp [memoryServe, hpos])
  have hserve := h.serve_failedTransition (.retry recordId) ⟨.retry, rfl⟩ hpos hmax rfl
  have hcounter : Move.retry.counter db.metaRow ≠ int64Max := hsmall.retried.ne
  obtain ⟨hsum, hne⟩ := add64_one (h.retried ▸ hsmall.retried)
  rcases h.find_cases recordId with
    ⟨hfind, hnone⟩ | ⟨index, r, before, row, behind, hfind, -, hfound, hsel⟩
  · rw [h.failedTransition_none hcounter hnone] at hserve
    exact replies_of hserve
      (by simp [memoryServe, hpos, memoryRetry, hfind, memoryStatus, statusOf])
      h.toMatches
  have hphase := phase_of_view hfound.view
  by_cases hfailed : row.phase = .failed
  · rw [h.failedTransition_ok hcounter hsel hfailed] at hserve
    refine replies_of hserve (by simp only [memoryServe, hpos, if_false, memoryRetry, hfind, hphase,
      hfailed, ne_eq, not_true_eq_false, hne, memoryStatus, statusOf]; rfl) ?_
    exact
      { h.toMatches with
        views := by
          refine hfound.exchange h ?_
          simp [slotView, rowView, Move.set, recordId_of_view hfound.view, record_of_view
            hfound.view, retainedBytes_of_view hfound.view, terminalKind_of_view hfound.view,
            h.terminalKind_none hfound.mem (by simp [hfailed])]
        retried := by simp [committed, Move.count, hsum, h.retried] }
  rw [h.failedTransition_busy hcounter hsel hfailed] at hserve
  exact replies_of hserve (by simp [memoryServe, hpos, memoryRetry, hfind, hphase, hfailed,
    memoryStatus, statusOf]) h.toMatches

theorem replies_discard (hsmall : CountersSmall db.metaRow)
    (hmax : (recordId : ℤ) ≤ int64Max) : Replies limits memory db o (.discard recordId) := by
  by_cases hpos : recordId = 0
  · exact h.replies_refused (.status .einval)
      (by simp [Owner.start, Owner.startWithId, hpos]) (by simp [memoryServe, hpos])
  have hserve := h.serve_failedTransition (.discard recordId) ⟨.discard, rfl⟩ hpos hmax rfl
  have hcounter : Move.discard.counter db.metaRow ≠ int64Max := hsmall.discarded.ne
  obtain ⟨hsum, hne⟩ := add64_one (h.discarded ▸ hsmall.discarded)
  rcases h.find_cases recordId with
    ⟨hfind, hnone⟩ | ⟨index, r, before, row, behind, hfind, -, hfound, hsel⟩
  · rw [h.failedTransition_none hcounter hnone] at hserve
    exact replies_of hserve
      (by simp [memoryServe, hpos, memoryDiscard, hfind, memoryStatus, statusOf]) h.toMatches
  have hphase := phase_of_view hfound.view
  by_cases hfailed : row.phase = .failed
  · rw [h.failedTransition_ok hcounter hsel hfailed] at hserve
    refine replies_of hserve (by simp only [memoryServe, hpos, if_false, memoryDiscard, hfind,
      hphase, hfailed, ne_eq, not_true_eq_false, hne, memoryStatus, statusOf]; rfl) ?_
    exact
      { h.toMatches with
        views := by
          refine hfound.exchange h ?_
          simp [slotView, rowView, Move.set, recordId_of_view hfound.view,
            record_of_view hfound.view, retainedBytes_of_view hfound.view]
        discarded := by simp [committed, Move.count, hsum, h.discarded] }
  rw [h.failedTransition_busy hcounter hsel hfailed] at hserve
  exact replies_of hserve (by simp [memoryServe, hpos, memoryDiscard, hfind, hphase, hfailed,
    memoryStatus, statusOf]) h.toMatches

theorem replies_forget (hmax : (recordId : ℤ) ≤ int64Max) :
    Replies limits memory db o (.forget recordId) := by
  by_cases hpos : recordId = 0
  · exact h.replies_refused (.status .einval)
      (by simp [Owner.start, Owner.startWithId, hpos]) (by simp [memoryServe, hpos])
  have hstart : o.start (.forget recordId) = (o, .inl (.forget recordId)) :=
    h.startWithId hpos hmax _
  have hserve : serve ⟨db, [some o]⟩ (.forget recordId) =
      some (⟨committed db (inboxForget o.generation recordId db), [some o]⟩,
        .status (statusOf (inboxForget o.generation recordId db))) :=
    h.serve_plain hstart rfl
  rcases h.find_cases recordId with
    ⟨hfind, hnone⟩ | ⟨index, r, before, row, behind, hfind, -, hfound, hsel⟩
  · have hfilter : (db.rows.filter fun row => row.recordId = (recordId : ℤ)) = [] :=
      filter_eq_nil_iff.mpr fun row hrow => by simp [hnone row hrow]
    have hforget : inboxForget o.generation recordId db = .error .enoent := by
      simp only [inboxForget, hfilter]
    rw [hforget] at hserve
    exact replies_of hserve
      (by simp [memoryServe, hpos, memoryForget, hfind, memoryStatus, statusOf]) h.toMatches
  have hphase := phase_of_view hfound.view
  by_cases htombstone : row.phase = .tombstone
  · have hselected : Selects
        (fun row => row.recordId = (recordId : ℤ) ∧ row.phase = .tombstone)
        db.rows before row behind :=
      ⟨hsel.split, by simpa [htombstone] using hsel.holds,
        fun b hb => by simpa using fun hid => absurd hid (by simpa using hsel.others b hb)⟩
    have hforget : inboxForget o.generation recordId db =
        .ok ⟨forgetCount row.retainedBytes db.metaRow, before ++ behind⟩ := by
      simp only [inboxForget, hsel.filter, htombstone, ne_eq, not_true_eq_false, if_false,
        deleteOne, hselected.countP, if_true, hselected.filter_not, updateMeta, h.current,
        h.generation, bind, Except.bind]
    obtain ⟨⟨record, reserved⟩, hslot, hrecord⟩ := hfound.slot
    obtain rfl : record = some r := hrecord
    have hfree : reserved = false := h.consistent.exclusive _ (mem_of_getElem? hslot) (by simp)
    subst hfree
    rw [hforget] at hserve
    refine replies_of hserve (by simp only [memoryServe, hpos, if_false, memoryForget, hfind,
      hphase, htombstone, ne_eq, not_true_eq_false, hslot, memoryStatus, statusOf]; rfl) ?_
    exact
      { h.toMatches with
        views := hfound.removal h }
  have hforget : inboxForget o.generation recordId db = .error .ebusy := by
    simp [inboxForget, hsel.filter, htombstone]
  rw [hforget] at hserve
  exact replies_of hserve (by simp [memoryServe, hpos, memoryForget, hfind, hphase, htombstone,
    memoryStatus, statusOf]) h.toMatches

/-! ### Leases and claims -/

theorem lease_idle (hlease : lease ∈ o.leases) : lease.Idle := by
  obtain ⟨l, hl⟩ := getElem?_of_mem hlease
  exact (h.leased.tidy 0 o h.live).idle l lease hl (by simp [h.calls])

theorem heldKeys_perm : (heldKeys o.leases).Perm (claimKeys db.rows) :=
  h.leased.covered 0 o h.live (h.generation.trans h.current.symm)

theorem countP_held : (o.leases.countP Lease.held : ℤ) = db.metaRow.inFlightClaims := by
  have hlength := h.heldKeys_perm.length_eq
  simp only [heldKeys, claimKeys, select, length_map, ← countP_eq_length_filter]
    at hlength
  rw [h.intact.claimed, phaseRows]
  exact_mod_cast hlength

theorem length_leases : o.leases.length = limits.maxClaims := by
  rw [(h.leased.tidy 0 o h.live).length, h.ownerLimits]

theorem leaseReserve_cases :
    (db.metaRow.inFlightClaims < limits.maxClaims ∧
      ∃ k lease, o.leaseReserve = some k ∧ o.leases[k]? = some lease ∧ lease.state = .free) ∨
    ((limits.maxClaims : ℤ) ≤ db.metaRow.inFlightClaims ∧ o.leaseReserve = none) := by
  have hcount := h.countP_held
  have hlength := h.length_leases
  rcases hreserve : o.leaseReserve with _ | k
  · refine .inr ⟨?_, rfl⟩
    have hall : ∀ lease ∈ o.leases, lease.held := by
      intro lease hlease
      have hstate := findIdx?_eq_none_iff.mp hreserve lease hlease
      rcases h.lease_idle hlease with hfree | hactive
      · simp [hfree] at hstate
      · simp [Lease.held, hactive]
    rw [countP_eq_length.mpr hall, hlength] at hcount
    omega
  obtain ⟨hlt, hfree, -⟩ := findIdx?_eq_some_iff_getElem.mp hreserve
  have hstate : o.leases[k].state = .free := by simpa using hfree
  refine .inl ⟨?_, k, o.leases[k], rfl, getElem?_eq_getElem hlt, hstate⟩
  have hnot : o.leases.countP Lease.held < o.leases.length := by
    rw [countP_lt_length_iff]
    exact ⟨o.leases[k], getElem_mem hlt, by simp [Lease.held, hstate]⟩
  omega

theorem leaseBeginSettle_cases (recordId claimToken : ℕ) :
    ((∃ row ∈ db.rows, row.phase = .claimed ∧ row.recordId = (recordId : ℤ) ∧
        row.claimToken = (claimToken : ℤ)) ∧
      ∃ k lease, o.leaseBeginSettle recordId claimToken = some k ∧ o.leases[k]? = some lease) ∨
    ((∀ row ∈ db.rows, row.phase = .claimed → row.recordId = (recordId : ℤ) →
        row.claimToken ≠ (claimToken : ℤ)) ∧
      o.leaseBeginSettle recordId claimToken = none) := by
  have hkeys : ∀ key, key ∈ heldKeys o.leases ↔ key ∈ claimKeys db.rows :=
    fun key => h.heldKeys_perm.mem_iff
  rcases hsettle : o.leaseBeginSettle recordId claimToken with _ | k
  · refine .inr ⟨?_, rfl⟩
    intro row hrow hphase hid htoken
    have hmem : ((recordId : ℤ), (claimToken : ℤ)) ∈ heldKeys o.leases := by
      rw [hkeys]
      simp only [claimKeys, select, mem_map, mem_filter]
      exact ⟨row, ⟨hrow, by simp [hphase]⟩, by rw [hid, htoken]⟩
    simp only [heldKeys, select, mem_map, mem_filter, Prod.mk.injEq, Nat.cast_inj] at hmem
    obtain ⟨lease, ⟨hlease, hheld⟩, hleaseId, hleaseToken⟩ := hmem
    have hother := findIdx?_eq_none_iff.mp hsettle lease hlease
    rcases h.lease_idle hlease with hfree | hactive
    · simp [Lease.held, hfree] at hheld
    · simp [hactive, hleaseId, hleaseToken] at hother
  obtain ⟨hlt, hactive, -⟩ := findIdx?_eq_some_iff_getElem.mp hsettle
  obtain ⟨hstate, hleaseId, hleaseToken⟩ := decide_eq_true_eq.mp hactive
  refine .inl ⟨?_, k, o.leases[k], rfl, getElem?_eq_getElem hlt⟩
  have hmem : ((recordId : ℤ), (claimToken : ℤ)) ∈ claimKeys db.rows := by
    rw [← hkeys]
    simp only [heldKeys, select, mem_map, mem_filter]
    exact ⟨o.leases[k], ⟨getElem_mem hlt, by simp [Lease.held, hstate]⟩,
      by rw [hleaseId, hleaseToken]⟩
  simp only [claimKeys, select, mem_map, mem_filter, Prod.mk.injEq, decide_eq_true_eq] at hmem
  obtain ⟨row, ⟨hrow, hphase⟩, hid, htoken⟩ := hmem
  exact ⟨row, hrow, hphase, hid, htoken⟩

/-! ### Settlement -/

theorem settle_cases (recordId claimToken : ℕ) :
    (o.leaseBeginSettle recordId claimToken = none ∧
      ∀ index r, memoryFind memory recordId = some (index, r) →
        r.phase ≠ .claimed ∨ r.claimToken ≠ claimToken) ∨
    ∃ k index r before row behind, o.leaseBeginSettle recordId claimToken = some k ∧
      memoryFind memory recordId = some (index, r) ∧ r.phase = .claimed ∧
      r.claimToken = claimToken ∧ Found memory db index r before row behind ∧
      Selects (fun row => row.recordId = (recordId : ℤ) ∧ row.claimToken = (claimToken : ℤ) ∧
        row.claimGeneration = o.generation ∧ row.phase = .claimed) db.rows before row behind := by
  rcases h.leaseBeginSettle_cases recordId claimToken with
    ⟨⟨claimed, hclaimed, hphase, hid, htoken⟩, k, lease, hk, -⟩ | ⟨hnone, hk⟩
  · rcases h.find_cases recordId with
      ⟨-, hnot⟩ | ⟨index, r, before, row, behind, hfind, -, hfound, hsel⟩
    · exact absurd hid (hnot claimed hclaimed)
    have hrow : row.recordId = (recordId : ℤ) := by simpa using hsel.holds
    obtain rfl := h.intact.eq_of_recordId hclaimed hfound.mem (hid.trans hrow.symm)
    have hgeneration : claimed.claimGeneration = o.generation := by
      rw [h.intact.claimGeneration_eq hclaimed hphase, h.current, h.generation]
    have hview := hfound.view
    have hmemoryToken : r.claimToken = claimToken := by
      have := (claimToken_of_view hview hphase).trans htoken
      exact_mod_cast this
    refine .inr ⟨k, index, r, before, claimed, behind, hk, hfind,
      (phase_of_view hview).trans hphase,
      hmemoryToken, hfound, hsel.split, by simp [hid, htoken, hgeneration, hphase], ?_⟩
    intro b hb
    have hother : b.recordId ≠ (recordId : ℤ) := by simpa using hsel.others b hb
    simp [hother]
  refine .inl ⟨hk, ?_⟩
  intro index r hfind
  obtain ⟨slot, hslot, hrecord, hid⟩ := memoryFind_spec hfind
  obtain ⟨row, hrow, hview⟩ := h.exists_row (mem_stored_of_getElem? hslot hrecord)
  by_cases hphase : r.phase = .claimed
  · refine .inr fun htoken => ?_
    have hrowPhase : row.phase = .claimed := (phase_of_view hview).symm.trans hphase
    refine hnone row hrow hrowPhase ?_ ?_
    · rw [← recordId_of_view hview, hid]
    · rw [← claimToken_of_view hview hrowPhase, htoken]
  · exact .inl hphase

theorem claimTransition_ok {mv : Move} {before behind : List Row}
    (hcounter : mv.counter db.metaRow ≠ int64Max)
    (hsel : Selects (fun row => row.recordId = (recordId : ℤ) ∧
      row.claimToken = (claimToken : ℤ) ∧ row.claimGeneration = o.generation ∧
      row.phase = .claimed) db.rows before row behind) :
    inboxClaimTransition o.generation recordId claimToken mv db =
      .ok ⟨mv.count db.metaRow, before ++ mv.set row :: behind⟩ := by
  simp only [inboxClaimTransition, h.generation_eq, ne_eq, not_true_eq_false, if_false, hcounter,
    moveOne, updateOne, hsel.countP, if_true, hsel.update, updateMeta, bind, Except.bind]

theorem serve_settle {recordId k : ℕ} {mv : Settlement} (hmax : (recordId : ℤ) ≤ int64Max)
    (hmax' : (claimToken : ℤ) ≤ int64Max) (hk : o.leaseBeginSettle recordId claimToken = some k)
    (hstart : o.start op = o.startSettle recordId claimToken mv)
    (htransition : inboxClaimTransition o.generation recordId claimToken mv.1 db = .ok db') :
    ∃ leases, serve ⟨db, [some o]⟩ op =
      some (⟨db', [some { o with leases, calls := [] }]⟩, .status .ok) := by
  rw [Owner.startSettle, if_neg (by omega), hk] at hstart
  have hconnections := h.connections
  refine ⟨_, serve_twice hstart h.calls (d := .settle true k recordId claimToken mv)
    (q := { (o.setState k .settling) with
      calls := [.settle true k recordId claimToken mv]
      leases := (o.setState k .settling).leases.set k Lease.free }) ?_ ?_⟩
  · simp [Owner.advance, Owner.connectionFree, Call.connected, Owner.setState, hconnections]
  · simp [Owner.advance, transact, Owner.setState, htransition, Owner.leaseRelease]

omit h in
theorem serve_settle_gone (_ : Mirrors limits memory db o) {mv : Settlement}
    (hmax : (recordId : ℤ) ≤ int64Max) (hmax' : (claimToken : ℤ) ≤ int64Max)
    (hk : o.leaseBeginSettle recordId claimToken = none)
    (hstart : o.start op = o.startSettle recordId claimToken mv) :
    serve ⟨db, [some o]⟩ op = some (⟨db, [some o]⟩, .status .ealready) := by
  rw [Owner.startSettle, if_neg (by omega), hk] at hstart
  exact serve_returned hstart

theorem replies_complete (hsmall : CountersSmall db.metaRow)
    (hmax : (recordId : ℤ) ≤ int64Max) (hmax' : (claimToken : ℤ) ≤ int64Max) :
    Replies limits memory db o (.complete recordId claimToken) := by
  by_cases hzero : recordId = 0 ∨ claimToken = 0
  · exact h.replies_refused (.status .einval) (by simp [Owner.start, hzero])
      (by simp [memoryServe, hzero])
  have hstart : o.start (.complete recordId claimToken) =
      o.startSettle recordId claimToken ⟨.complete, rfl, by decide⟩ := by
    simp [Owner.start, hzero]
  rcases h.settle_cases recordId claimToken with
    ⟨hk, hnot⟩ | ⟨k, index, r, before, row, behind, hk, hfind, hphase, htoken, hfound, hsel⟩
  · have hmemory : memoryComplete memory recordId claimToken = (memory, .ealready) := by
      unfold memoryComplete
      split
      · rfl
      rename_i index r hfind
      rw [if_pos (hnot index r hfind)]
    exact replies_of (h.serve_settle_gone hmax hmax' hk hstart)
      (by simp [memoryServe, hzero, hmemory, memoryStatus]) h.toMatches
  obtain ⟨hsum, hne⟩ := add64_one (h.completed ▸ hsmall.completed)
  obtain ⟨leases, hserve⟩ := h.serve_settle hmax hmax' hk hstart
    (h.claimTransition_ok hsmall.completed.ne hsel)
  refine replies_of hserve (by simp only [memoryServe, hzero, if_false, memoryComplete, hfind,
    hphase, htoken, ne_eq, not_true_eq_false, or_self, hne, memoryStatus]; rfl) ?_
  exact
    { h.toMatches with
      calls := rfl
      views := by
        refine hfound.exchange h ?_
        simp [slotView, rowView, Move.set, recordId_of_view hfound.view,
          record_of_view hfound.view, retainedBytes_of_view hfound.view]
      completed := by simp [Move.count, hsum, h.completed] }

theorem replies_fail (hsmall : CountersSmall db.metaRow) (status : Status)
    (hmax : (recordId : ℤ) ≤ int64Max) (hmax' : (claimToken : ℤ) ≤ int64Max) :
    Replies limits memory db o (.fail recordId claimToken status) := by
  by_cases hzero : recordId = 0 ∨ claimToken = 0
  · exact h.replies_refused (.status .einval) (by simp [Owner.start, hzero])
      (by simp [memoryServe, ← or_assoc, hzero])
  by_cases hstatus : status = .ok
  · exact h.replies_refused (.status .einval) (by simp [Owner.start, hstatus])
      (by simp [memoryServe, hstatus])
  have hargs : ¬ (recordId = 0 ∨ claimToken = 0 ∨ status = .ok) := by
    simp only [← or_assoc, hzero, hstatus, or_self, not_false_eq_true]
  have hstart : o.start (.fail recordId claimToken status) =
      o.startSettle recordId claimToken
        ⟨.fail status, rfl, fun heq => hstatus (Move.fail.inj heq)⟩ := by
    simp [Owner.start, hzero, hstatus]
  rcases h.settle_cases recordId claimToken with
    ⟨hk, hnot⟩ | ⟨k, index, r, before, row, behind, hk, hfind, hphase, htoken, hfound, hsel⟩
  · have hmemory : memoryFail memory recordId claimToken status = (memory, .ealready) := by
      unfold memoryFail
      split
      · rfl
      rename_i index r hfind
      rw [if_pos (hnot index r hfind)]
    exact replies_of (h.serve_settle_gone hmax hmax' hk hstart)
      (by simp [memoryServe, hargs, hmemory, memoryStatus]) h.toMatches
  have hfailed : memory.failed ≠ max64 := (add64_one (h.failed_eq ▸ hsmall.failed)).2
  have hrowPhase : row.phase = .claimed := (phase_of_view hfound.view).symm.trans hphase
  obtain ⟨leases, hserve⟩ := h.serve_settle hmax hmax' hk hstart
    (h.claimTransition_ok hsmall.failed.ne hsel)
  refine replies_of hserve (by simp only [memoryServe, hargs, if_false, memoryFail, hfind,
    hphase, htoken, ne_eq, not_true_eq_false, or_self, hfailed, memoryStatus]; rfl) ?_
  exact
    { h.toMatches with
      calls := rfl
      views := by
        refine hfound.exchange h ?_
        simp [slotView, rowView, Move.set, recordId_of_view hfound.view, record_of_view hfound.view,
          retainedBytes_of_view hfound.view, terminalKind_of_view hfound.view, h.terminalKind_none
          hfound.mem (by simp [hrowPhase])] }

/-! ### Claims -/

def eligible (request : ClaimRequest) (record : MemoryRecord) : Bool :=
  record.phase == .pending && !claimPartitionExcluded record.view request

omit h in
theorem eligible_eq (request : ClaimRequest)
    (hview : slotView r = rowView row) : eligible request r = claimEligible request row := by
  rw [eligible, claimEligible, phase_of_view hview, claimPartitionExcluded, record_of_view hview,
    Bool.eq_iff_iff]
  simp only [materialize, Bool.and_eq_true, beq_iff_eq, Bool.not_eq_true', decide_eq_true_eq]
  exact and_congr_right fun _ => decide_eq_false_iff_not

theorem oldest_cases {p : MemoryRecord → Bool} {q : Row → Bool}
    (hpq : ∀ {r row}, slotView r = rowView row → p r = q row) :
    (oldestFrom p none 0 memory.slots = none ∧ db.rows.filter q = []) ∨
    ∃ index r before row behind rest, oldestFrom p none 0 memory.slots = some (index, r) ∧
      db.rows.filter q = row :: rest ∧ Found memory db index r before row behind := by
  have hle := (oldestFrom_le p none 0 memory.slots).2
  rcases hfilter : db.rows.filter q with _ | ⟨row, rest⟩
  · refine .inl ⟨?_, rfl⟩
    rcases hold : oldestFrom p none 0 memory.slots with _ | ⟨index, r⟩
    · rfl
    rcases oldestFrom_spec hold with hbest | ⟨k, slot, -, hk, hrecord, hr⟩
    · cases hbest
    obtain ⟨row, hrow, hview⟩ := h.exists_row (mem_stored_of_getElem? hk hrecord)
    rw [hpq hview] at hr
    have hmem := mem_filter.mpr ⟨hrow, hr⟩
    rw [hfilter] at hmem
    cases hmem
  right
  have hfirst : row ∈ db.rows ∧ q row = true :=
    mem_filter.mp (by rw [hfilter]; exact mem_cons_self ..)
  have hsorted := h.intact.sorted.filter q
  rw [hfilter, pairwise_cons] at hsorted
  obtain ⟨r, hr, hview⟩ := h.exists_stored hfirst.1
  obtain ⟨slot, hslot, hrecord⟩ := mem_stored.mp hr
  obtain ⟨⟨index, old⟩, hold, holdLe⟩ := hle slot hslot r hrecord ((hpq hview).trans hfirst.2)
  rcases oldestFrom_spec hold with hbest | ⟨k, oldSlot, rfl, hk, holdRecord, holdEligible⟩
  · cases hbest
  rw [Nat.zero_add] at hold
  obtain ⟨oldRow, holdRow, holdView⟩ := h.exists_row (mem_stored_of_getElem? hk holdRecord)
  -- The row of the oldest record is no younger than the first row, so it is this row.
  have hmem : oldRow ∈ row :: rest := by
    rw [← hfilter]
    exact mem_filter.mpr ⟨holdRow, (hpq holdView).symm.trans holdEligible⟩
  have hsame : oldRow = row := by
    rcases mem_cons.mp hmem with rfl | hrest
    · rfl
    have hlt := hsorted.1 oldRow hrest
    have hold' := recordId_of_view holdView
    have hview' := recordId_of_view hview
    simp only at holdLe
    omega
  subst hsame
  obtain ⟨before, behind, hsplit⟩ := append_of_mem holdRow
  exact ⟨k, old, before, oldRow, behind, rest, hold, rfl, ⟨oldSlot, hk, holdRecord⟩, hsplit,
    holdView⟩

theorem claimSelect_eq (request : ClaimRequest) :
    inboxClaimSelect limits o.generation request db =
      match db.rows.filter (claimEligible request) with
      | [] => .error .enoent
      | row :: _ =>
        if db.metaRow.inFlightClaims ≥ limits.maxClaims then .error .enospc
        else if db.metaRow.nextClaimToken = int64Max then .error .erange
        else
          (inboxRecordFromResult limits row).bind fun record =>
            (moveOne o.generation
              (fun other => other.recordId = row.recordId ∧ other.phase = .pending)
              (.claim o.generation db.metaRow.nextClaimToken) db).bind fun db' =>
              .ok (db', ⟨row.recordId.toNat, db.metaRow.nextClaimToken.toNat, record⟩) := by
  simp only [inboxClaimSelect, h.generation_eq, ne_eq, not_true_eq_false, if_false,
    orderBy_eq (h.intact.sorted.filter (claimEligible request))]
  cases db.rows.filter (claimEligible request) with
  | nil => rfl
  | cons row rest => rfl

theorem serve_claim {k : ℕ} (hvalid : claimRequestValid request = true)
    (hk : o.leaseReserve = some k) (hstart : o.start op = o.startClaim request) :
    ∃ leases, serve ⟨db, [some o]⟩ op =
      some (match inboxClaimSelect limits o.generation request db with
        | .ok (db', claim) =>
          (⟨db', [some { o with leases, calls := [] }]⟩, .claimed (claimOf claim))
        | .error rc => (⟨db, [some { o with leases, calls := [] }]⟩, .claimed (.error rc))) := by
  rw [Owner.startClaim, if_neg (by simp [hvalid]), hk] at hstart
  have hconnections := h.connections
  have hconnect :
    ({ o.setState k .reserved with calls := [.claim false k request] } : Owner).advance
      db .ok (.claim false k request) =
        ({ o.setState k .reserved with calls := [.claim false k request] }, db,
          .inl (.claim true k request)) := by
    simp [Owner.advance, Owner.connectionFree, Call.connected, Owner.setState, hconnections]
  rcases hselect : inboxClaimSelect limits o.generation request db with rc | ⟨db', claim⟩
  · refine ⟨_, serve_twice hstart h.calls hconnect (q := { (o.setState k .reserved) with
        calls := [.claim true k request]
        leases := (o.setState k .reserved).leases.set k Lease.free }) ?_⟩
    simp [Owner.advance, transact, Owner.setState, h.ownerLimits, hselect, Owner.leaseRelease]
  refine ⟨_, serve_twice hstart h.calls hconnect (q := { (o.setState k .reserved) with
      calls := [.claim true k request]
      leases := (o.setState k .reserved).leases.set k
        ⟨.active, claim.recordId, claim.claimToken, some claim.record⟩ }) ?_⟩
  simp [Owner.advance, transact, Owner.setState, h.ownerLimits, hselect, Owner.leaseActivate]

omit h in
theorem memoryClaim_none (hvalid : claimRequestValid request = true)
    (hnone : oldestFrom (eligible request) none 0 memory.slots = none) :
    inboxClaim memory request = (memory, .error .enoent) := by
  unfold eligible at hnone
  simp [inboxClaim, memoryClaimSelect, hvalid, hnone]

def claimedMemory (memory : Memory) (index : ℕ) (r : MemoryRecord) : Memory :=
  { memory with
    slots := memory.slots.modify index
      (Slot.withRecord (some { r with claimToken := memory.nextClaimToken, phase := .claimed }))
    claimTokenExhausted := false
    nextClaimToken := memory.nextClaimToken + 1
    inFlightClaims := add64 memory.inFlightClaims 1 }

theorem memoryClaim_ok (hsmall : CountersSmall db.metaRow) {index : ℕ}
    (hvalid : claimRequestValid request = true)
    (hsome : oldestFrom (eligible request) none 0 memory.slots = some (index, r))
    (hroom : memory.inFlightClaims < memory.config.maxClaims) :
    inboxClaim memory request =
      (claimedMemory memory index r, claimOf ⟨r.recordId, memory.nextClaimToken, r.view⟩) := by
  obtain ⟨hsum, hne⟩ := add64_one (h.nextClaimToken ▸ hsmall.nextClaimToken)
  unfold eligible at hsome
  have hselect : memoryClaimSelect memory request = (claimedMemory memory index r,
      .ok ⟨r.recordId, memory.nextClaimToken, r.view⟩) := by
    simp [memoryClaimSelect, hvalid, hsome, not_le.mpr hroom, h.tokens, hsum, hne, claimedMemory]
  simp only [inboxClaim, hselect, claimOf]
  split <;> rfl

omit h in
theorem view_claim (hview : slotView r = rowView row)
    {token : ℕ} {generation next : ℤ} (htoken : next = token) :
    slotView { r with claimToken := token, phase := .claimed } =
      rowView ((Move.claim generation next).set row) := by
  simp [slotView, rowView, Move.set, recordId_of_view hview, record_of_view hview,
    retainedBytes_of_view hview, terminalKind_of_view hview, htoken]

def ClaimAnswerable (limits : Limits) (db : Database) (request : ClaimRequest) : Prop :=
  claimRequestValid request = true →
    db.metaRow.inFlightClaims < limits.maxClaims ∨ ∃ row ∈ db.rows, claimEligible request row

theorem record_from_result (hrow : row ∈ db.rows)
    (hview : slotView r = rowView row) : inboxRecordFromResult limits row = .ok r.view := by
  obtain ⟨record, hstored⟩ := h.intact.stored row hrow
  rw [hstored.inboxRecordFromResult h.maxRecordBytes_le, record_of_view hview, hstored.columns,
    materialize_recordColumns hstored.valid hstored.representable]

theorem claim_step (hsmall : CountersSmall db.metaRow) (hstart : o.start op = o.startClaim request)
    (hmemory : memoryServe memory op = memoryClaimed (inboxClaim memory request)) :
    ∃ db' o' result, serve ⟨db, [some o]⟩ op = some (⟨db', [some o']⟩, result) ∧
      Matches limits (memoryServe memory op).1 db' o' ∧
      (result = (memoryServe memory op).2 ↔ ClaimAnswerable limits db request) := by
  rw [hmemory]
  by_cases hvalid : claimRequestValid request = true
  swap
  · refine ⟨db, o, .claimed (.error .einval), ?_, ?_, ?_⟩
    · refine serve_returned (hstart.trans ?_)
      rw [Owner.startClaim, if_pos hvalid]
    · simpa [memoryClaimed, inboxClaim, memoryClaimSelect, hvalid] using h.toMatches
    · simp [memoryClaimed, inboxClaim, memoryClaimSelect, hvalid, ClaimAnswerable]
  have hinFlight := h.inFlightClaims_eq
  have hconfig : memory.config.maxClaims = limits.maxClaims := by rw [h.config]
  rcases h.leaseReserve_cases with ⟨hroom, k, lease, hk, -⟩ | ⟨hfull, hk⟩
  · obtain ⟨leases, hserve⟩ := h.serve_claim hvalid hk hstart
    have hanswer : ClaimAnswerable limits db request := fun _ => .inl hroom
    rcases h.oldest_cases (eligible_eq request) with
      ⟨hnone, hfilter⟩ | ⟨index, r, before, row, behind, rest, hsome, hfilter, hfound⟩
    · rw [h.claimSelect_eq, hfilter] at hserve
      refine ⟨_, _, _, hserve, ?_, ?_⟩
      · rw [memoryClaim_none hvalid hnone]
        exact { h.toMatches with calls := rfl }
      rw [memoryClaim_none hvalid hnone]
      exact ⟨fun _ => hanswer, fun _ => rfl⟩
    have hpending : row.phase = .pending := by
      have hmem : row ∈ db.rows.filter (claimEligible request) := by
        rw [hfilter]
        exact mem_cons_self ..
      have heligible := (mem_filter.mp hmem).2
      simp only [claimEligible, decide_eq_true_eq] at heligible
      exact heligible.1
    have hmove : moveOne o.generation
        (fun other => other.recordId = row.recordId ∧ other.phase = .pending)
        (.claim o.generation db.metaRow.nextClaimToken) db =
        .ok ⟨(Move.claim o.generation db.metaRow.nextClaimToken).count db.metaRow,
          before ++ (Move.claim o.generation db.metaRow.nextClaimToken).set row :: behind⟩ := by
      have hnodup := h.intact.ids_nodup
      rw [hfound.split, map_append, map_cons, nodup_middle, nodup_cons, ← map_append] at hnodup
      have hsel : Selects (fun other => other.recordId = row.recordId ∧ other.phase = .pending)
          db.rows before row behind :=
        ⟨hfound.split, by simp [hpending], fun b hb => decide_eq_false fun hb' =>
          hnodup.1 (hb'.1 ▸ mem_map_of_mem hb)⟩
      simp only [moveOne, updateOne, hsel.countP, if_true, hsel.update, updateMeta, h.generation_eq,
        bind, Except.bind]
    have hclaim : (⟨row.recordId.toNat, db.metaRow.nextClaimToken.toNat, r.view⟩ : Claim) =
        ⟨r.recordId, memory.nextClaimToken, r.view⟩ := by
      rw [← recordId_of_view hfound.view, h.nextClaimToken, Int.toNat_natCast, Int.toNat_natCast]
    rw [h.claimSelect_eq, hfilter] at hserve
    simp only [ge_iff_le, not_le.mpr hroom, if_false, hsmall.nextClaimToken.ne,
      h.record_from_result hfound.mem hfound.view, hmove, Except.bind, hclaim] at hserve
    refine ⟨_, _, _, hserve, ?_, ?_⟩
    · rw [h.memoryClaim_ok hsmall hvalid hsome (by omega)]
      exact
        { h.toMatches with
          calls := rfl
          views := hfound.exchange h (view_claim hfound.view h.nextClaimToken)
          nextClaimToken := by simp [Move.count, memoryClaimed, claimedMemory, h.nextClaimToken]
          tokens := rfl }
    rw [h.memoryClaim_ok hsmall hvalid hsome (by omega)]
    exact ⟨fun _ => hanswer, fun _ => rfl⟩
  have hserve : serve ⟨db, [some o]⟩ op = some (⟨db, [some o]⟩, .claimed (.error .enospc)) := by
    refine serve_returned (hstart.trans ?_)
    rw [Owner.startClaim, if_neg (by simp [hvalid]), hk]
  refine ⟨db, o, _, hserve, ?_⟩
  rcases h.oldest_cases (eligible_eq request) with
    ⟨hnone, hfilter⟩ | ⟨index, r, before, row, behind, rest, hsome, hfilter, hfound⟩
  · rw [memoryClaim_none hvalid hnone]
    refine ⟨h.toMatches, ?_⟩
    have hneither : ¬ ClaimAnswerable limits db request := by
      intro hanswer
      rcases hanswer hvalid with hroom | ⟨row, hrow, heligible⟩
      · omega
      have hmem := mem_filter.mpr ⟨hrow, heligible⟩
      rw [hfilter] at hmem
      cases hmem
    simp [memoryClaimed, hneither]
  have hfull : memory.config.maxClaims ≤ memory.inFlightClaims := by omega
  unfold eligible at hsome
  simp only [inboxClaim, memoryClaimSelect, hvalid, hsome, hfull]
  refine ⟨h.toMatches, ⟨fun _ _ => .inr ?_, fun _ => rfl⟩⟩
  have hmem : row ∈ db.rows.filter (claimEligible request) := by
    rw [hfilter]
    exact mem_cons_self ..
  exact ⟨row, (mem_filter.mp hmem).1, (mem_filter.mp hmem).2⟩

end Mirrors

end TurboFlow.TurboDb
