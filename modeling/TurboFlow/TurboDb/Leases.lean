import TurboFlow.TurboDb.Reopening

/-!
# The lease table of an owner

`Tidy` says that a call that claims or settles holds its lease in the right state and alone, and
that every reserved or settling lease is held. `Leased` relates the table to the database: the
leases of the current owner are the claimed rows, each under its record id and token.
-/

namespace TurboFlow.TurboDb

open Inbox Transition List Rows Option TurboFlow.TurboDb.Lease

def Call.Holds : Call → Lease → Prop
  | .claim _ _ _, lease => lease.state = .reserved
  | .settle _ _ recordId claimToken _, lease =>
    lease.state = .settling ∧ lease.recordId = recordId ∧ lease.claimToken = claimToken
  | .reread _ rc, lease => lease.state = .settling ∧ rc ≠ .ok
  | _, _ => True

def Lease.Idle (lease : Lease) : Prop :=
  lease.state = .free ∨ lease.state = .active

structure Tidy (maxClaims : ℕ) (leases : List Lease) (calls : List Call) : Prop where
  length : leases.length = maxClaims
  holds : ∀ call ∈ calls, ∀ l, call.lease = some l →
    ∃ lease, leases[l]? = some lease ∧ call.Holds lease
  apart : (calls.filterMap Call.lease).Nodup
  idle : ∀ l lease, leases[l]? = some lease → l ∉ calls.filterMap Call.lease → lease.Idle

variable {call : Call} {leases : List Lease} {k l : ℕ} {lease : Lease} {o o' : Owner}
  {db : Database}

theorem Call.not_idle {l : ℕ} {lease : Lease} (hcall : call.lease = some l)
    (hholds : call.Holds lease) : ¬ lease.Idle := by
  cases call with
  | claim connected l request =>
    simp only [Call.Holds] at hholds
    simp [Idle, hholds]
  | settle connected l recordId claimToken mv | reread l rc =>
    simp only [Call.Holds] at hholds
    simp [Idle, hholds.1]
  | _ => simp [Call.lease] at hcall

namespace Tidy

variable {n : ℕ} {calls : List Call}

theorem new (n : ℕ) : Tidy n (replicate n free) [] where
  length := length_replicate
  holds := by simp
  apart := by simp
  idle := by
    intro l lease hl _
    rw [getElem?_replicate] at hl
    split at hl
    · cases hl
      exact .inl rfl
    · cases hl

section

variable (h : Tidy n leases calls)

include h

theorem not_held (hl : leases[l]? = some lease) (hidle : lease.Idle) :
    l ∉ calls.filterMap Call.lease := by
  intro hmem
  obtain ⟨call, hcall, hlease⟩ := mem_filterMap.mp hmem
  obtain ⟨held, hheld, hholds⟩ := h.holds call hcall l hlease
  obtain rfl := some.inj (hl.symm.trans hheld)
  exact Call.not_idle hlease hholds hidle

theorem enter (hnone : call.lease = none) : Tidy n leases (calls ++ [call]) := by
  have hkeys : (calls ++ [call]).filterMap Call.lease = calls.filterMap Call.lease := by
    simp [filterMap_append, hnone]
  refine ⟨h.length, ?_, by rw [hkeys]; exact h.apart, by rw [hkeys]; exact h.idle⟩
  exact forall_mem_append.mpr ⟨h.holds, by simp [hnone]⟩

theorem hold (hl : leases[l]? = some lease) (hidle : lease.Idle) (hcall : call.lease = some l)
    (hholds : call.Holds lease') : Tidy n (leases.set l lease') (calls ++ [call]) := by
  have hnot := h.not_held hl hidle
  have hlt : l < leases.length := (List.getElem?_eq_some_iff.mp hl).1
  have hkeys : (calls ++ [call]).filterMap Call.lease = calls.filterMap Call.lease ++ [l] := by
    simp [filterMap_append, hcall]
  refine ⟨by simpa using h.length, ?_, ?_, ?_⟩
  · intro c hc m hm
    rcases mem_append.mp hc with hc | hc
    · have hne : l ≠ m := by
        rintro rfl
        exact hnot (mem_filterMap.mpr ⟨c, hc, hm⟩)
      rw [getElem?_set_ne hne]
      exact h.holds c hc m hm
    obtain rfl := mem_singleton.mp hc
    obtain rfl := some.inj (hcall.symm.trans hm)
    exact ⟨lease', getElem?_set_self hlt, hholds⟩
  · rw [hkeys]
    exact nodup_append_comm.mpr (nodup_cons.mpr ⟨hnot, h.apart⟩)
  intro m held hheld hfree
  rw [hkeys, mem_append, mem_singleton, not_or] at hfree
  rw [getElem?_set_ne (Ne.symm hfree.2)] at hheld
  exact h.idle m held hheld hfree.1

theorem pass (hk : calls[k]? = some call) (hlease : call'.lease = call.lease)
    (hholds : ∀ lease, call.Holds lease → call'.Holds lease) :
    Tidy n leases (calls.set k call') := by
  obtain ⟨before, behind, rfl, hset, -⟩ := Table.exists_around hk
  have hkeys : ((before ++ call :: behind).set k call').filterMap Call.lease =
      (before ++ call :: behind).filterMap Call.lease := by
    rw [hset]
    simp [filterMap_append, filterMap_cons, hlease]
  refine ⟨h.length, ?_, by rw [hkeys]; exact h.apart, by rw [hkeys]; exact h.idle⟩
  rw [hset]
  intro c hc l hl
  rcases mem_append.mp hc with hc | hc
  · exact h.holds c (mem_append_left _ hc) l hl
  rcases mem_cons.mp hc with rfl | hc
  · obtain ⟨lease, hget, hold⟩ := h.holds call (by simp) l (hlease ▸ hl)
    exact ⟨lease, hget, hholds lease hold⟩
  · exact h.holds c (mem_append_right _ (mem_cons_of_mem _ hc)) l hl

theorem leave (hk : calls[k]? = some call) (hnone : call.lease = none) :
    Tidy n leases (calls.eraseIdx k) := by
  obtain ⟨before, behind, rfl, -, herase⟩ := Table.exists_around hk
  have hkeys : ((before ++ call :: behind).eraseIdx k).filterMap Call.lease =
      (before ++ call :: behind).filterMap Call.lease := by
    rw [herase]
    simp [filterMap_append, hnone]
  refine ⟨h.length, ?_, by rw [hkeys]; exact h.apart, by rw [hkeys]; exact h.idle⟩
  intro c hc
  exact h.holds c (mem_of_mem_eraseIdx hc)

theorem drop (hk : calls[k]? = some call) (hcall : call.lease = some l) (hidle : lease'.Idle) :
    Tidy n (leases.set l lease') (calls.eraseIdx k) := by
  obtain ⟨held, hheld, -⟩ := h.holds call (mem_of_getElem? hk) l hcall
  have hlt : l < leases.length := (List.getElem?_eq_some_iff.mp hheld).1
  obtain ⟨before, behind, rfl, -, herase⟩ := Table.exists_around hk
  have hapart := h.apart
  rw [filterMap_append, filterMap_cons, hcall] at hapart
  simp only [nodup_middle, nodup_cons, ← filterMap_append] at hapart
  rw [herase]
  refine ⟨by simpa using h.length, ?_, hapart.2, ?_⟩
  · intro c hc m hm
    have hne : l ≠ m := by
      rintro rfl
      exact hapart.1 (mem_filterMap.mpr ⟨c, hc, hm⟩)
    rw [getElem?_set_ne hne]
    refine h.holds c ?_ m hm
    rcases mem_append.mp hc with hc | hc
    · exact mem_append_left _ hc
    · exact mem_append_right _ (mem_cons_of_mem _ hc)
  intro m lease hm hfree
  rcases eq_or_ne l m with rfl | hne
  · rw [getElem?_set_self hlt] at hm
    cases hm
    exact hidle
  rw [getElem?_set_ne hne] at hm
  refine h.idle m lease hm ?_
  rw [filterMap_append, filterMap_cons, hcall]
  simp only [mem_append, mem_cons, not_or]
  rw [filterMap_append, mem_append, not_or] at hfree
  exact ⟨hfree.1, hne.symm, hfree.2⟩

end

end Tidy

/-! ### Leases and claimed rows -/

def Lease.held (lease : Lease) : Bool :=
  lease.state = .active ∨ lease.state = .settling

def heldKeys (leases : List Lease) : List (ℤ × ℤ) :=
  select held (fun lease => (lease.recordId, lease.claimToken)) leases

def claimKeys (rows : List Row) : List (ℤ × ℤ) :=
  select (fun row => row.phase = .claimed) (fun row => (row.recordId, row.claimToken)) rows

section Keys

theorem heldKeys_set (hl : leases[l]? = some lease) (lease' : Lease) :
    ∃ rest, (heldKeys leases).Perm (heldKeys [lease] ++ rest) ∧
      (heldKeys (leases.set l lease')).Perm (heldKeys [lease'] ++ rest) := by
  obtain ⟨before, behind, hsplit, hset, -⟩ := Table.exists_around hl
  refine ⟨heldKeys (before ++ behind), ?_, ?_⟩
  · rw [hsplit]
    exact select_around _
  rw [hset]
  exact select_around _

theorem claimKeys_split (before behind : List Row) (row : Row) :
    (claimKeys (before ++ row :: behind)).Perm
      (claimKeys [row] ++ claimKeys (before ++ behind)) :=
  select_around _

theorem claimKeys_of_not_claimed (h : row.phase ≠ .claimed) : claimKeys [row] = [] := by
  simp [claimKeys, select, h]

theorem claimKeys_of_claimed (h : row.phase = .claimed) :
    claimKeys [row] = [(row.recordId, row.claimToken)] := by
  simp [claimKeys, select, h]

end Keys

/-! ### Calls and leases -/

structure StartSpec (o o' : Owner) (r : Call ⊕ Result) : Prop where
  tidy : Tidy o.limits.maxClaims o.leases o.calls →
    Tidy o.limits.maxClaims o'.leases (callsStarted o'.calls r)
  keys : (heldKeys o'.leases).Perm (heldKeys o.leases)

theorem StartSpec.entered (hnone : call.lease = none) (hleases : o'.leases = o.leases)
    (hcalls : o'.calls = o.calls) : StartSpec o o' (.inl call) := by
  refine ⟨fun h => ?_, by rw [hleases]⟩
  rw [callsStarted, hleases, hcalls]
  exact h.enter hnone

theorem StartSpec.held {o : Owner} {l : ℕ} {lease : Lease} {state : LeaseState}
    (hl : o.leases[l]? = some lease) (hidle : lease.Idle) (hcall : call.lease = some l)
    (hholds : call.Holds { lease with state })
    (hkeys : heldKeys [{ lease with state }] = heldKeys [lease]) :
    StartSpec o (o.setState l state) (.inl call) := by
  have hset : (o.setState l state).leases = o.leases.set l { lease with state } :=
    Table.modify_eq_set hl _
  refine ⟨fun h => ?_, ?_⟩
  · rw [callsStarted, hset]
    exact h.hold hl hidle hcall hholds
  rw [hset]
  obtain ⟨rest, hold, hnew⟩ := heldKeys_set hl { lease with state }
  rw [hkeys] at hnew
  exact hnew.trans hold.symm

variable {r : Call ⊕ Result}

theorem Starts.spec {o o' : Owner} (h : Starts o op o' r) : StartSpec o o' r := by
  cases h with
  | returned => exact ⟨id, .refl _⟩
  | entered hnone => exact .entered hnone rfl rfl
  | closing => exact .entered rfl rfl rfl
  | reserved hl hfree =>
    refine .held hl (.inl hfree) rfl rfl ?_
    simp [heldKeys, select, held, hfree]
  | settling _ hl hactive hid htoken =>
    refine .held hl (.inr hactive) rfl ⟨rfl, hid, htoken⟩ ?_
    simp [heldKeys, select, held, hactive]

/-- What a step does to leases and calls, and how it keeps the leases of a current owner equal to
the claimed rows. -/
structure AdvanceSpec (o : Owner) (db : Database) (k : ℕ) (o' : Owner) (db' : Database)
    (r : Call ⊕ Result) : Prop where
  tidy : Tidy o.limits.maxClaims o'.leases (callsAdvanced o'.calls k r)
  keys : o.generation = db.metaRow.generation → (heldKeys o.leases).Perm (claimKeys db.rows) →
    (heldKeys o'.leases).Perm (claimKeys db'.rows)
  others : ∀ call l, o.calls[k]? = some call → call.lease ≠ some l →
    o'.leases[l]? = o.leases[l]?

section Advance

section

variable (h : Tidy o.limits.maxClaims o.leases o.calls)
include h

section

variable (hk : o.calls[k]? = some call)
include hk

theorem AdvanceSpec.plain (hnone : call.lease = none) (hleases : o'.leases = o.leases)
    (hcalls : o'.calls = o.calls) (hkeys : (claimKeys db'.rows).Perm (claimKeys db.rows)) :
    AdvanceSpec o db k o' db' (.inr result) := by
  refine ⟨?_, fun _ hperm => ?_, fun _ _ _ _ => by rw [hleases]⟩
  · rw [callsAdvanced, hleases, hcalls]
    exact h.leave hk hnone
  rw [hleases]
  exact hperm.trans hkeys.symm

theorem AdvanceSpec.passed (hlease : call'.lease = call.lease)
    (hholds : ∀ lease, call.Holds lease → call'.Holds lease) :
    AdvanceSpec o db k o db (.inl call') :=
  ⟨h.pass hk hlease hholds, fun _ hperm => hperm, fun _ _ _ _ => rfl⟩

theorem AdvanceSpec.dropped (hcall : call.lease = some l) (hidle : x.Idle)
    (hleases : o'.leases = o.leases.set l x) (hcalls : o'.calls = o.calls)
    (hkeys : ∀ lease rest, o.leases[l]? = some lease → call.Holds lease →
      o.generation = db.metaRow.generation → (heldKeys [lease] ++ rest).Perm (claimKeys db.rows) →
      (heldKeys [x] ++ rest).Perm (claimKeys db'.rows)) :
    AdvanceSpec o db k o' db' (.inr result) := by
  obtain ⟨lease, hl, hholds⟩ := h.holds call (mem_of_getElem? hk) l hcall
  refine ⟨?_, fun hcurrent hperm => ?_, fun other m hother hne => ?_⟩
  · rw [callsAdvanced, hleases, hcalls]
    exact h.drop hk hcall hidle
  · obtain ⟨rest, hold, hnew⟩ := heldKeys_set hl x
    rw [hleases]
    exact hnew.trans (hkeys lease rest hl hholds hcurrent (hold.symm.trans hperm))
  obtain rfl := some.inj (hk.symm.trans hother)
  rw [hleases]
  exact getElem?_set_ne fun hm => hne (hcall.trans (congrArg some hm))

/-- A lease that was restored is held as before. -/
theorem AdvanceSpec.restored (hcall : call.lease = some l)
    (hsettling : ∀ lease, call.Holds lease → lease.state = .settling) :
    AdvanceSpec o db k (o.leaseRestore l) db (.inr result) := by
  obtain ⟨lease, hl, hholds⟩ := h.holds _ (mem_of_getElem? hk) l hcall
  have hstate := hsettling lease hholds
  refine .dropped (x := { lease with state := .active }) h hk hcall (.inr rfl) ?_ rfl ?_
  · simp [Owner.leaseRestore, Table.modify_eq_set hl, hstate]
  intro held rest hheld _ _ hperm
  obtain rfl := some.inj (hl.symm.trans hheld)
  simpa [heldKeys, select, held, hstate] using hperm

end

/-- A lease that was only reserved is none of the keys. -/
theorem AdvanceSpec.unreserved (hk : o.calls[k]? = some (.claim connected l request)) :
    AdvanceSpec o db k (o.leaseRelease l) db (.inr result) := by
  refine .dropped h hk rfl (.inl rfl) rfl rfl ?_
  intro lease rest _ hholds _ hperm
  simp only [Call.Holds] at hholds
  simpa [heldKeys, select, held, hholds, free] using hperm

end

end Advance

theorem inboxClaimTransition_ne_ok {recordId claimToken : ℕ} {mv : Move} {db : Database}
    {rc : Status}
    (h : transact engine (inboxClaimTransition generation recordId claimToken mv db) = .error rc) :
    rc ≠ .ok := by
  unfold transact at h
  split at h
  · unfold inboxClaimTransition at h
    split at h
    · cases h
      decide
    split at h
    · cases h
      decide
    unfold moveOne updateOne at h
    split at h
    · simp only [bind, Except.bind, updateMeta] at h
      split at h
      · cases h
      cases h
      decide
    cases h
    decide
  cases h
  cases engine <;> simp_all [inboxOrmStatus]

theorem Settlement.phase_ne (mv : Settlement) (row : Row) : (mv.1.set row).phase ≠ .claimed := by
  obtain ⟨mv, hbefore, -⟩ := mv
  cases mv with
  | complete | fail status => simp [Move.set]
  | claim g t | retry | discard => cases hbefore

theorem FailedMove.phase_ne (mv : FailedMove) (row : Row) : (mv.1.set row).phase ≠ .claimed := by
  obtain ⟨mv, hbefore⟩ := mv
  cases mv with
  | retry | discard => simp [Move.set]
  | claim g t | complete | fail status => cases hbefore

section

variable {engine : OrmStatus} (h : Tidy o.limits.maxClaims o.leases o.calls)
include h

/-- A claim that succeeds holds the lease of the row it claimed; otherwise the lease is free
again. -/
theorem Owner.advance_claim {limits : Limits} {connected : Bool} {request : ClaimRequest}
    (hintact : Intact limits db) (hk : o.calls[k]? = some (.claim connected l request)) :
    AdvanceSpec o db k (o.advance db engine (.claim connected l request)).1
      (o.advance db engine (.claim connected l request)).2.1
      (o.advance db engine (.claim connected l request)).2.2 := by
  cases connected with
  | false =>
    simp only [advance]
    split
    · exact .passed h hk rfl fun _ hholds => hholds
    · exact .unreserved h hk
  | true =>
    simp only [advance]
    split
    · rename_i db' claim hclaim
      obtain ⟨-, -, before, row, behind, hsplit, hphase, rfl, hid, htoken⟩ :=
        inboxClaimSelect_eq_ok (transact_eq_ok hclaim)
      refine .dropped h hk rfl (.inr rfl) rfl rfl ?_
      intro lease rest _ hholds _ hperm
      simp only [Call.Holds] at hholds
      have hrow := hintact.ids row (by rw [hsplit]; simp)
      have hnext := hintact.nextToken
      have hcast : ((row.recordId.toNat : ℕ) : ℤ) = row.recordId := Int.toNat_of_nonneg hrow.1.le
      have hcastToken : ((db.metaRow.nextClaimToken.toNat : ℕ) : ℤ) =
          db.metaRow.nextClaimToken := Int.toNat_of_nonneg (by omega)
      have hrest : rest.Perm (claimKeys (before ++ behind)) := by
        rw [hsplit] at hperm
        have := hperm.trans (claimKeys_split before behind row)
        simpa [heldKeys, select, held, hholds, claimKeys_of_not_claimed, hphase] using this
      refine Perm.trans ?_ (claimKeys_split before behind _).symm
      rw [claimKeys_of_claimed rfl]
      simpa [heldKeys, select, held, hid, htoken, hcast, hcastToken, Move.set] using hrest
    · exact .unreserved h hk

/-- A settlement that succeeds frees its lease with the claim of its row. -/
theorem Owner.advance_settle {connected : Bool} {recordId claimToken : ℕ} {mv : Settlement}
    (hk : o.calls[k]? = some (.settle connected l recordId claimToken mv)) :
    AdvanceSpec o db k (o.advance db engine (.settle connected l recordId claimToken mv)).1
      (o.advance db engine (.settle connected l recordId claimToken mv)).2.1
      (o.advance db engine (.settle connected l recordId claimToken mv)).2.2 := by
  cases connected with
  | false =>
    simp only [advance]
    split
    · exact .passed h hk rfl fun _ hholds => hholds
    · exact .restored h hk rfl fun _ hholds => hholds.1
  | true =>
    simp only [advance]
    split
    · rename_i db' hsettled
      obtain ⟨-, -, before, row, behind, hsplit, hid, htoken, hphase, rfl⟩ :=
        inboxClaimTransition_eq_ok (transact_eq_ok hsettled)
      refine .dropped h hk rfl (.inl rfl) rfl rfl ?_
      intro lease rest _ hholds _ hperm
      simp only [Call.Holds] at hholds
      rw [hsplit] at hperm
      have hkeys := hperm.trans (claimKeys_split before behind row)
      rw [claimKeys_of_claimed hphase] at hkeys
      have hrest : rest.Perm (claimKeys (before ++ behind)) := by
        simpa [heldKeys, select, held, hholds, hid, htoken] using hkeys
      refine Perm.trans ?_ (claimKeys_split before behind _).symm
      rw [claimKeys_of_not_claimed (Settlement.phase_ne mv row)]
      simpa [heldKeys, select, held, free] using hrest
    rename_i rc herror
    refine .passed h hk rfl fun lease hholds => ?_
    simp only [Call.Holds] at hholds ⊢
    exact ⟨hholds.1, inboxClaimTransition_ne_ok herror⟩

end

theorem Owner.advance_leases {limits : Limits} {o : Owner} {db : Database} (engine : OrmStatus)
    {k : ℕ} (hintact : Intact limits db)
    (h : Tidy o.limits.maxClaims o.leases o.calls) (hk : o.calls[k]? = some call) :
    AdvanceSpec o db k (o.advance db engine call).1 (o.advance db engine call).2.1
      (o.advance db engine call).2.2 := by
  cases call with
  | admitRecord record =>
    simp only [advance]
    split
    · rename_i db' recordId hadmitted
      refine .plain h hk rfl rfl rfl ?_
      rcases inboxAdmit_eq_ok (transact_eq_ok hadmitted) with rfl | ⟨-, bytes, -, rfl⟩
      · exact .refl _
      · simp [claimKeys, select, freshRow]
    · exact .plain h hk rfl rfl rfl (.refl _)
  | claim connected l request => exact advance_claim h hintact hk
  | settle connected l recordId claimToken mv => exact advance_settle h hk
  | reread l rc =>
    simp only [advance]
    split
    · rename_i hstale
      refine .dropped h hk rfl (.inl rfl) rfl rfl ?_
      intro _ _ _ _ hcurrent
      exact absurd hcurrent.symm hstale.2
    · exact .restored h hk rfl fun _ hholds => hholds.1
  | failedTransition recordId mv =>
    simp only [advance]
    refine .plain h hk rfl rfl rfl ?_
    cases hmoved : transact engine (inboxFailedTransition o.generation recordId mv.1 db) with
    | ok db' =>
      obtain ⟨-, -, before, row, behind, hsplit, -, hphase, rfl⟩ :=
        inboxFailedTransition_eq_ok (transact_eq_ok hmoved)
      rw [committed, hsplit]
      have hold := claimKeys_split before behind row
      rw [claimKeys_of_not_claimed (by simp [hphase])] at hold
      refine Perm.trans ?_ hold.symm
      simpa [claimKeys_of_not_claimed (FailedMove.phase_ne mv row)] using
        claimKeys_split before behind (mv.1.set row)
    | error rc => exact .refl _
  | forget recordId =>
    simp only [advance]
    refine .plain h hk rfl rfl rfl ?_
    cases hforgot : transact engine (inboxForget o.generation recordId db) with
    | ok db' =>
      obtain ⟨-, before, row, behind, hsplit, -, hphase, rfl⟩ :=
        inboxForget_eq_ok (transact_eq_ok hforgot)
      rw [committed, hsplit]
      have hkeys := claimKeys_split before behind row
      rw [claimKeys_of_not_claimed (by simp [hphase])] at hkeys
      exact hkeys.symm
    | error rc => exact .refl _
  | scanFailed afterId capacity | scanHistory afterId capacity | snapshot =>
    exact .plain h hk rfl rfl rfl (.refl _)
  | close =>
    simp only [advance]
    split
    · rename_i db' hclosed
      obtain rfl := inboxClose_change (transact_eq_ok hclosed)
      exact .plain h hk rfl rfl rfl (.refl _)
    · exact .plain h hk rfl rfl rfl (.refl _)

/-! ### The leases of all owners -/

/-- The lease tables are tidy, and the current owner holds a lease for every claimed row and for
nothing else. -/
structure Leased (s : System) : Prop where
  tidy : ∀ i o, s.Live i o → Tidy o.limits.maxClaims o.leases o.calls
  covered : ∀ i o, s.Live i o → o.generation = s.db.metaRow.generation →
    (heldKeys o.leases).Perm (claimKeys s.db.rows)

theorem heldKeys_replicate_free (n : ℕ) : heldKeys (replicate n free) = [] := by
  simp [heldKeys, select, held, free]

theorem Intact.claimKeys_opening (h : Intact limits db) :
    claimKeys (update (claimedBy db.metaRow.generation) loseOwner db.rows) = [] := by
  have hnone : ∀ row ∈ update (claimedBy db.metaRow.generation) loseOwner db.rows,
      row.phase ≠ .claimed := by
    intro row hrow
    obtain ⟨old, hold, ⟨-, rfl⟩ | ⟨hother, rfl⟩⟩ := mem_update hrow
    · simp [loseOwner]
    intro hphase
    simp [claimedBy, hphase, h.claimGeneration_eq hold hphase] at hother
  have hempty : (update (claimedBy db.metaRow.generation) loseOwner db.rows).filter
      (fun row => row.phase = .claimed) = [] :=
    filter_eq_nil_iff.mpr fun row hrow => by simpa using hnone row hrow
  rw [claimKeys, select, hempty, map_nil]

namespace Leased

variable {s : System}

theorem init (limits : Limits) : Leased (System.init limits) where
  tidy := by simp [System.init, System.Live]
  covered := by simp [System.init, System.Live]

theorem set (h : Leased s) (htidy : ∀ o, x = some o → Tidy o.limits.maxClaims o.leases o.calls)
    (hcovered : ∀ o, x = some o → o.generation = s.db.metaRow.generation →
      (heldKeys o.leases).Perm (claimKeys s.db.rows)) : Leased ⟨s.db, s.owners.set i x⟩ := by
  constructor
  · intro j p hp
    rcases live_set hp with ⟨-, hx⟩ | ⟨-, hp⟩
    · exact htidy p hx
    · exact h.tidy j p hp
  intro j p hp hcurrent
  rcases live_set hp with ⟨-, hx⟩ | ⟨-, hp⟩
  · exact hcovered p hx hcurrent
  · exact h.covered j p hp hcurrent

theorem opened (hsound : Sound limits s) (h : Leased s)
    (hcreate : inboxCreate config s.db = .ok (db, generation)) :
    Leased ⟨db, s.owners ++ [some (newOwner config generation)]⟩ := by
  obtain ⟨-, rfl, rfl⟩ := hsound.intact.inboxCreate_eq_ok hcreate
  constructor
  · intro j p hp
    rcases live_append hp with hp | ⟨-, rfl⟩
    · exact h.tidy j p hp
    · exact Tidy.new _
  intro j p hp hcurrent
  rcases live_append hp with hp | ⟨-, rfl⟩
  · have hbehind := hsound.behind j p hp
    simp only [openMeta] at hcurrent
    omega
  rw [hsound.intact.claimKeys_opening]
  simp [newOwner, heldKeys_replicate_free]

theorem started (h : Leased s) (ho : s.Live i o) (hstarts : Starts o op o' r) :
    Leased ⟨s.db, s.owners.set i (some { o' with calls := callsStarted o'.calls r })⟩ := by
  have hsame := hstarts.same
  refine h.set ?_ ?_
  · rintro p hp
    cases hp
    have htidy := hstarts.spec.tidy (h.tidy i o ho)
    rw [← hsame.limits] at htidy
    exact htidy
  rintro p hp hcurrent
  cases hp
  exact hstarts.spec.keys.trans (h.covered i o ho (hsame.generation ▸ hcurrent))

theorem advanced (hsound : Sound limits s) (h : Leased s) (ho : s.Live i o) {k : ℕ}
    (hk : o.calls[k]? = some call) (hadvance : o.advance s.db engine call = (o', db, r)) :
    Leased ⟨db, s.owners.set i (some { o' with calls := callsAdvanced o'.calls k r })⟩ := by
  have hspec := o.advance_leases engine hsound.intact (h.tidy i o ho) hk
  obtain ⟨hsame, hchange⟩ := o.advance_spec s.db engine call
  rw [hadvance] at hspec hsame hchange
  have hgeneration := hchange.generation_eq
  -- While another owner is current, this one cannot change the database.
  have hother : ∀ j p, s.Live j p → j ≠ i → p.generation = s.db.metaRow.generation →
      db = s.db := by
    intro j p hp hne hcurrent
    apply hchange.eq_of_stale
    intro hstale
    exact hne (hsound.distinct j i p o hp ho (hcurrent.trans hstale))
  constructor
  · intro j p hp
    rcases live_set hp with ⟨-, hx⟩ | ⟨-, hp⟩
    · cases hx
      have htidy := hspec.tidy
      rw [← hsame.limits] at htidy
      exact htidy
    · exact h.tidy j p hp
  intro j p hp hcurrent
  rcases live_set hp with ⟨-, hx⟩ | ⟨hne, hlive⟩
  · cases hx
    have hcurrent' : o.generation = s.db.metaRow.generation :=
      (hsame.generation.symm.trans hcurrent).trans hgeneration
    exact hspec.keys hcurrent' (h.covered i o ho hcurrent')
  have hcurrent' : p.generation = s.db.metaRow.generation := hcurrent.trans hgeneration
  have hkept : db = s.db := hother j p hlive hne hcurrent'
  have hcovered := h.covered j p hlive hcurrent'
  rw [← hkept] at hcovered
  exact hcovered

theorem left (h : Leased s) (hrows : db.rows = s.db.rows)
    (hgeneration : db.metaRow.generation = s.db.metaRow.generation) :
    Leased ⟨db, s.owners.set i none⟩ := by
  constructor
  · intro j p hp
    rcases live_set hp with ⟨-, hx⟩ | ⟨-, hp⟩
    · cases hx
    · exact h.tidy j p hp
  intro j p hp hcurrent
  rcases live_set hp with ⟨-, hx⟩ | ⟨-, hp⟩
  · cases hx
  rw [hrows]
  exact h.covered j p hp (hcurrent.trans hgeneration)

theorem act (hsound : Sound limits s) (h : Leased s) (hact : TurboDb.act s a = some (s', out)) :
    Leased s' := by
  cases act_acted hact with
  | notOpened | stayed => exact h
  | opened _ hcreate => exact h.opened hsound hcreate
  | crashed | left | finished => exact h.left rfl rfl
  | started ho hstarts => exact h.started ho hstarts
  | advanced ho hk hadvance => exact h.advanced hsound ho hk hadvance

end Leased

theorem leased_of_run (h : Run (Acts act) (System.init limits) tr s) : Leased s := by
  have hboth : Sound limits s ∧ Leased s :=
    h.invariant (P := fun s => Sound limits s ∧ Leased s)
      ⟨Sound.init limits, Leased.init limits⟩ fun _ _ _ hs hstep =>
        ⟨hs.1.effect (act_effect hstep), hs.2.act hs.1 hstep⟩
  exact hboth.2

end TurboFlow.TurboDb
