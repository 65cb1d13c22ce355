import TurboFlow.TurboDb.Leases

/-!
# Ownership is fenced by the generation

An open raises the generation of the namespace. Nothing that older owners do reaches the database,
however their calls were placed around the takeover. Their claims have become failed records of a
lost owner, and a settlement of one ends with `ECANCELED` as soon as it can read the metadata.
-/

namespace TurboFlow.TurboDb

open Inbox Transition List

def Action.owner : Action → Option ℕ
  | .create _ _ => none
  | .crash i | .destroy i _ | .call i _ | .advance i _ _ => some i

def System.Older (s : System) (o : Owner) : Prop :=
  o.generation < s.db.metaRow.generation

@[simp] def System.withOwner (s : System) (i : ℕ) (o : Owner) : System :=
  ⟨s.db, s.owners.set i (some o)⟩

/-! ### Steps of one owner -/

variable {limits : Limits} {s s' : System} {i : ℕ} {o o' : Owner} {a : Action} {out : Outcome}

section Steps

theorem act_of_owner (howner : a.owner = some i) (h : act s a = some (s', out)) :
    ∃ o, s.Live i o ∧ (∀ r, out ≠ .created r) ∧
      (Change o.limits o.generation s.db s'.db ∨
        s.db.metaRow.generation = o.generation ∧
          s'.db = ⟨{ s.db.metaRow with ownerState := .closed }, s.db.rows⟩) := by
  cases act_acted h with
  | notOpened | opened => cases howner
  | crashed ho | stayed ho | left ho =>
    cases howner
    exact ⟨_, ho, by simp, .inl .keep⟩
  | finished ho hcurrent _ =>
    cases howner
    exact ⟨_, ho, by simp, .inr ⟨hcurrent, rfl⟩⟩
  | @started _ o _ _ r ho =>
    cases howner
    exact ⟨o, ho, by cases r <;> simp [shown], .inl .keep⟩
  | @advanced _ _ o _ engine call _ r ho _ hadvance =>
    cases howner
    have hchange := (o.advance_spec s.db engine call).2
    rw [hadvance] at hchange
    exact ⟨o, ho, by cases r <;> simp [shown], .inl hchange⟩

theorem act_of_older (ho : s.Live i o) (holder : s.Older o) (howner : a.owner = some i)
    (h : act s a = some (s', out)) : s'.db = s.db := by
  obtain ⟨p, hp, -, hchange | ⟨hcurrent, -⟩⟩ := act_of_owner howner h
  · obtain rfl : p = o := Option.some.inj (Option.some.inj (hp.symm.trans ho))
    exact hchange.eq_of_stale (ne_of_gt holder)
  obtain rfl : p = o := Option.some.inj (Option.some.inj (hp.symm.trans ho))
  exact absurd hcurrent (ne_of_gt holder)

theorem act_same (ho : s.Live i o) (ho' : s'.Live i o') (h : act s a = some (s', out)) :
    SameOwner o o' := by
  have heq : ∀ p, s.Live i p → p = o := fun p hp =>
    Option.some.inj (Option.some.inj (hp.symm.trans ho))
  cases act_effect h with
  | idle =>
    obtain rfl := heq o' ho'
    exact .refl _
  | opened hvalid hcreate =>
    rcases live_append ho' with hp | ⟨hi, -⟩
    · obtain rfl := heq o' hp
      exact .refl _
    rw [System.Live, hi, getElem?_eq_none (le_refl _)] at ho
    cases ho
  | served hj hsame hchange =>
    rcases live_set ho' with ⟨rfl, hx⟩ | ⟨-, hp⟩
    · cases hx
      obtain rfl := heq _ hj
      exact hsame
    obtain rfl := heq o' hp
    exact .refl _
  | left hj | finished hj hcurrent hempty =>
    rcases live_set ho' with ⟨-, hx⟩ | ⟨-, hp⟩
    · cases hx
    obtain rfl := heq o' hp
    exact .refl _

theorem Sound.created (hsound : Sound limits s)
    (h : act s (.create config engine) = some (s', .created (.ok g))) :
    g = s.db.metaRow.generation + 1 ∧ s'.db.metaRow.generation = g ∧
      s'.db.rows = s.db.rows.map fun row =>
        if row.phase = .claimed then loseOwner row else row := by
  cases act_acted h with
  | opened _ hcreate =>
    obtain ⟨-, rfl, rfl⟩ := hsound.intact.inboxCreate_eq_ok hcreate
    refine ⟨rfl, rfl, map_congr_left fun row hrow => ?_⟩
    by_cases hphase : row.phase = .claimed
    · simp [claimedBy, hphase, hsound.intact.claimGeneration_eq hrow hphase]
    · simp [claimedBy, hphase]

theorem Sound.generation_step (hsound : Sound limits s) (h : act s a = some (s', out)) :
    (∃ g, out = .created (.ok g) ∧ g = s.db.metaRow.generation + 1 ∧
        s'.db.metaRow.generation = g) ∨
      (∀ g, out ≠ .created (.ok g)) ∧ s'.db.metaRow.generation = s.db.metaRow.generation := by
  cases howner : a.owner with
  | some i =>
    obtain ⟨o, -, hout, hchange | ⟨-, hdb⟩⟩ := act_of_owner howner h
    · exact .inr ⟨fun g => hout _, hchange.generation_eq⟩
    · exact .inr ⟨fun g => hout _, by rw [hdb]⟩
  | none =>
    cases a with
    | create config engine =>
      cases act_acted h with
      | notOpened => exact .inr ⟨by simp, rfl⟩
      | @opened _ _ _ g =>
        obtain ⟨hg, hs', -⟩ := hsound.created h
        exact .inl ⟨g, rfl, hg, hs'⟩
    | _ => cases howner

end Steps

def Outcome.generation : Outcome → Option ℤ
  | .created (.ok g) => some g
  | _ => none

def createdGenerations (tr : List (Action × Outcome)) : List ℤ :=
  tr.filterMap fun e => e.2.generation

variable {row : Row} {tr : List (Action × Outcome)}

theorem createdGenerations_pairwise {s : System}
    (h : Run (Acts act) (System.init limits) tr s) : (createdGenerations tr).Pairwise (· < ·) := by
  have hall : Sound limits s ∧ (createdGenerations tr).Pairwise (· < ·) ∧
      ∀ g ∈ createdGenerations tr, g ≤ s.db.metaRow.generation := by
    refine h.invariant_trace (P := fun tr s => Sound limits s ∧
      (createdGenerations tr).Pairwise (· < ·) ∧
      ∀ g ∈ createdGenerations tr, g ≤ s.db.metaRow.generation)
      ⟨Sound.init limits, .nil, by simp [createdGenerations]⟩ ?_
    rintro tr s ⟨a, out⟩ s' ⟨hsound, hpairs, hbound⟩ hstep
    refine ⟨hsound.effect (act_effect hstep), ?_⟩
    rcases hsound.generation_step hstep with ⟨g, rfl, hg, hs'⟩ | ⟨hout, hs'⟩
    · have hlist : createdGenerations (tr ++ [(a, .created (.ok g))]) =
          createdGenerations tr ++ [g] := by
        simp [createdGenerations, filterMap_append, Outcome.generation]
      rw [hlist]
      refine ⟨pairwise_append.mpr ⟨hpairs, pairwise_singleton _ _, ?_⟩, ?_⟩
      · intro x hx y hy
        obtain rfl := mem_singleton.mp hy
        have := hbound x hx
        omega
      refine forall_mem_append.mpr ⟨fun x hx => ?_, forall_mem_singleton.mpr (by omega)⟩
      have := hbound x hx
      omega
    have hlist : createdGenerations (tr ++ [(a, out)]) = createdGenerations tr := by
      rw [createdGenerations, filterMap_append, filterMap_cons_none, filterMap_nil, append_nil]
      · rfl
      unfold Outcome.generation
      split
      · rename_i heq
        exact absurd heq (hout _)
      · rfl
    rw [hlist, hs']
    exact ⟨hpairs, hbound⟩
  exact hall.2.1

/-! ### Tokens and ids -/

structure Draws (db db' : Database) : Prop where
  tokens : db.metaRow.nextClaimToken ≤ db'.metaRow.nextClaimToken
  ids : db.metaRow.nextRecordId ≤ db'.metaRow.nextRecordId
  claims : ∀ row' ∈ db'.rows, row'.phase = .claimed →
    (∃ row ∈ db.rows, row.phase = .claimed ∧ row.recordId = row'.recordId ∧
      row.claimToken = row'.claimToken) ∨
    row'.claimToken = db.metaRow.nextClaimToken ∧
      db.metaRow.nextClaimToken < db'.metaRow.nextClaimToken
  rows : ∀ row' ∈ db'.rows, (∃ row ∈ db.rows, row.recordId = row'.recordId) ∨
    row'.recordId = db.metaRow.nextRecordId ∧
      db.metaRow.nextRecordId < db'.metaRow.nextRecordId

namespace Draws

theorem of_rows (hmeta : db'.metaRow.nextClaimToken = db.metaRow.nextClaimToken)
    (hids : db'.metaRow.nextRecordId = db.metaRow.nextRecordId)
    (hrows : ∀ row' ∈ db'.rows, ∃ row ∈ db.rows, row.recordId = row'.recordId ∧
      (row'.phase = .claimed → row' = row)) : Draws db db' := by
  refine ⟨hmeta.ge, hids.ge, ?_, ?_⟩
  · intro row' hrow' hphase
    obtain ⟨row, hrow, -, hsame⟩ := hrows row' hrow'
    obtain rfl := hsame hphase
    exact .inl ⟨row', hrow, hphase, rfl, rfl⟩
  intro row' hrow'
  obtain ⟨row, hrow, hid, -⟩ := hrows row' hrow'
  exact .inl ⟨row, hrow, hid⟩

theorem refl (db : Database) : Draws db db :=
  of_rows rfl rfl fun row hrow => ⟨row, hrow, rfl, fun _ => rfl⟩

theorem of_move {mv : Move} (hsplit : db.rows = before ++ row :: behind)
    (hphase : (mv.set row).phase ≠ .claimed)
    (htoken : (mv.count db.metaRow).nextClaimToken = db.metaRow.nextClaimToken) :
    Draws db ⟨mv.count db.metaRow, before ++ mv.set row :: behind⟩ := by
  refine of_rows htoken (mv.count_nextRecordId _) ?_
  rw [hsplit]
  intro row' hrow'
  rcases mem_append.mp hrow' with hmem | hmem
  · exact ⟨row', mem_append_left _ hmem, rfl, fun _ => rfl⟩
  rcases mem_cons.mp hmem with rfl | hmem
  · exact ⟨row, by simp, (mv.set_recordId row).symm, fun h => absurd h hphase⟩
  · exact ⟨row', mem_append_right _ (mem_cons_of_mem _ hmem), rfl, fun _ => rfl⟩

theorem of_claim (hsplit : db.rows = before ++ row :: behind) :
    Draws db ⟨(Move.claim g db.metaRow.nextClaimToken).count db.metaRow,
      before ++ (Move.claim g db.metaRow.nextClaimToken).set row :: behind⟩ := by
  refine ⟨by simp [Move.count], by simp [Move.count], ?_, ?_⟩
  · intro row' hrow' hphase
    rw [hsplit]
    rcases mem_append.mp hrow' with hmem | hmem
    · exact .inl ⟨row', mem_append_left _ hmem, hphase, rfl, rfl⟩
    rcases mem_cons.mp hmem with rfl | hmem
    · exact .inr ⟨rfl, by simp [Move.count]⟩
    · exact .inl ⟨row', mem_append_right _ (mem_cons_of_mem _ hmem), hphase, rfl, rfl⟩
  intro row' hrow'
  rw [hsplit]
  rcases mem_append.mp hrow' with hmem | hmem
  · exact .inl ⟨row', mem_append_left _ hmem, rfl⟩
  rcases mem_cons.mp hmem with rfl | hmem
  · exact .inl ⟨row, by simp, rfl⟩
  · exact .inl ⟨row', mem_append_right _ (mem_cons_of_mem _ hmem), rfl⟩

theorem of_change {generation : ℤ} (h : Change limits generation db db') : Draws db db' := by
  cases h with
  | keep => exact refl db
  | insert hcurrent hadmissible hvalid hrep =>
    refine ⟨le_refl _, by simp [admitCount], ?_, ?_⟩
    · intro row' hrow' hphase
      rcases mem_append.mp hrow' with hmem | hmem
      · exact .inl ⟨row', hmem, hphase, rfl, rfl⟩
      obtain rfl := mem_singleton.mp hmem
      cases hphase
    intro row' hrow'
    rcases mem_append.mp hrow' with hmem | hmem
    · exact .inl ⟨row', hmem, rfl⟩
    obtain rfl := mem_singleton.mp hmem
    exact .inr ⟨rfl, by simp [admitCount]⟩
  | move mv hcurrent hsplit hphase hcounter hclaim hstatus =>
    cases mv with
    | claim g t =>
      obtain ⟨-, rfl⟩ := hclaim g t rfl
      exact of_claim hsplit
    | complete | fail status | retry | discard => exact of_move hsplit (by simp [Move.set]) rfl
  | forget hcurrent hsplit hphase =>
    refine of_rows rfl rfl fun row' hrow' => ⟨row', ?_, rfl, fun _ => rfl⟩
    rw [hsplit]
    exact mem_of_mem_remove hrow'

theorem of_effect (hsound : Sound limits s) (h : Effect s s') : Draws s.db s'.db := by
  cases h with
  | idle | left => exact refl _
  | opened hvalid hcreate =>
    obtain ⟨-, rfl, rfl⟩ := hsound.intact.inboxCreate_eq_ok hcreate
    refine of_rows rfl rfl fun row' hrow' => ?_
    obtain ⟨row, hrow, ⟨-, rfl⟩ | ⟨-, rfl⟩⟩ := Rows.mem_update hrow'
    · exact ⟨row, hrow, rfl, nofun⟩
    · exact ⟨row', hrow, rfl, fun _ => rfl⟩
  | served ho hsame hchange => exact of_change hchange
  | finished => exact of_rows rfl rfl fun row hrow => ⟨row, hrow, rfl, fun _ => rfl⟩

end Draws

def Claims (token : ℤ) (s s' : System) : Prop :=
  ∃ row' ∈ s'.db.rows, row'.phase = .claimed ∧ row'.claimToken = token ∧
    ∀ row ∈ s.db.rows, row.phase = .claimed → row.recordId = row'.recordId →
      row.claimToken ≠ token

def Inserts (recordId : ℤ) (s s' : System) : Prop :=
  (∃ row' ∈ s'.db.rows, row'.recordId = recordId) ∧ ∀ row ∈ s.db.rows, row.recordId ≠ recordId

def Loses (recordId token : ℤ) (s s' : System) : Prop :=
  (∃ row ∈ s.db.rows, row.phase = .claimed ∧ row.recordId = recordId ∧ row.claimToken = token) ∧
    ∃ row' ∈ s'.db.rows, row'.phase = .failed ∧ row'.failureKind = .ownerLostUnknown ∧
      row'.recordId = recordId ∧ row'.claimToken = token

section Once

variable (limits : Limits)

theorem claims_once (token : ℤ) : AtMostOnce (Acts act) (System.init limits) (Claims token) := by
  refine AtMostOnce.of_mark (I := Sound limits) (M := fun s => token < s.db.metaRow.nextClaimToken)
    (Sound.init limits) (fun s e s' hs hstep => hs.effect (act_effect hstep)) ?_ ?_ ?_
  · rintro s e s' hs hstep ⟨row', hrow', hphase, rfl, hnew⟩
    rcases (Draws.of_effect hs (act_effect hstep)).claims row' hrow' hphase with
      ⟨row, hrow, hclaimed, hid, htoken⟩ | ⟨htoken, hlt⟩
    · exact absurd htoken (hnew row hrow hclaimed hid)
    rw [htoken]
    exact hlt
  · intro s e s' hs hstep hmark
    exact lt_of_lt_of_le hmark (Draws.of_effect hs (act_effect hstep)).tokens
  rintro s e s' hs hstep hmark ⟨row', hrow', hphase, rfl, hnew⟩
  rcases (Draws.of_effect hs (act_effect hstep)).claims row' hrow' hphase with
    ⟨row, hrow, hclaimed, hid, htoken⟩ | ⟨htoken, -⟩
  · exact hnew row hrow hclaimed hid htoken
  · exact absurd htoken hmark.ne

theorem inserts_once (recordId : ℤ) :
    AtMostOnce (Acts act) (System.init limits) (Inserts recordId) := by
  refine AtMostOnce.of_mark (I := Sound limits) (M := fun s => recordId < s.db.metaRow.nextRecordId)
    (Sound.init limits) (fun s e s' hs hstep => hs.effect (act_effect hstep)) ?_ ?_ ?_
  · rintro s e s' hs hstep ⟨⟨row', hrow', rfl⟩, hnew⟩
    rcases (Draws.of_effect hs (act_effect hstep)).rows row' hrow' with
      ⟨row, hrow, hid⟩ | ⟨hid, hlt⟩
    · exact absurd hid (hnew row hrow)
    rw [hid]
    exact hlt
  · intro s e s' hs hstep hmark
    exact lt_of_lt_of_le hmark (Draws.of_effect hs (act_effect hstep)).ids
  rintro s e s' hs hstep hmark ⟨⟨row', hrow', rfl⟩, hnew⟩
  rcases (Draws.of_effect hs (act_effect hstep)).rows row' hrow' with
    ⟨row, hrow, hid⟩ | ⟨hid, -⟩
  · exact hnew row hrow hid
  · exact absurd hid hmark.ne

def ClaimOver (recordId token : ℤ) (s : System) : Prop :=
  token < s.db.metaRow.nextClaimToken ∧
    ∀ row ∈ s.db.rows, row.phase = .claimed → row.recordId = recordId → row.claimToken ≠ token

theorem loses_once (recordId token : ℤ) :
    AtMostOnce (Acts act) (System.init limits) (Loses recordId token) := by
  refine AtMostOnce.of_mark (I := Sound limits) (M := ClaimOver recordId token)
    (Sound.init limits) (fun s e s' hs hstep => hs.effect (act_effect hstep)) ?_ ?_ ?_
  · rintro s e s' hs hstep ⟨⟨row, hrow, hphase, rfl, rfl⟩, row', hrow', hfailed, -, hid, -⟩
    have hs' := hs.effect (act_effect hstep)
    refine ⟨lt_of_lt_of_le (hs.intact.tokens row hrow)
      (Draws.of_effect hs (act_effect hstep)).tokens, ?_⟩
    -- The row with the id is the failed one.
    intro other hother hclaimed hsame
    obtain rfl := hs'.intact.eq_of_recordId hother hrow' (hsame.trans hid.symm)
    rw [hfailed] at hclaimed
    cases hclaimed
  · rintro s e s' hs hstep ⟨htoken, hover⟩
    have hdraws := Draws.of_effect hs (act_effect hstep)
    refine ⟨lt_of_lt_of_le htoken hdraws.tokens, ?_⟩
    intro row' hrow' hphase hid
    rcases hdraws.claims row' hrow' hphase with ⟨row, hrow, hclaimed, hsame, hkept⟩ | ⟨hdrawn, -⟩
    · rw [← hkept]
      exact hover row hrow hclaimed (hsame.trans hid)
    rw [hdrawn]
    exact htoken.ne'
  rintro s e s' hs hstep ⟨-, hover⟩ ⟨⟨row, hrow, hphase, hid, htoken⟩, -⟩
  exact hover row hrow hphase hid htoken

end Once

/-! ### The leases of an older owner -/

section Leases

variable {l : ℕ}

theorem exists_lease (hleased : Leased s) (ho : s.Live i o)
    (hcurrent : o.generation = s.db.metaRow.generation) (hrow : row ∈ s.db.rows)
    (hphase : row.phase = .claimed) :
    ∃ lease ∈ o.leases, lease.held ∧ lease.recordId = row.recordId ∧
      lease.claimToken = row.claimToken := by
  have hkey : (row.recordId, row.claimToken) ∈ claimKeys s.db.rows := by
    simp only [claimKeys, Rows.select, mem_map, mem_filter]
    exact ⟨row, ⟨hrow, by simp [hphase]⟩, rfl⟩
  have hmem := (hleased.covered i o ho hcurrent).mem_iff.mpr hkey
  simp only [heldKeys, Rows.select, mem_map, mem_filter] at hmem
  obtain ⟨lease, ⟨hlease, hheld⟩, hkeys⟩ := hmem
  obtain ⟨hid, htoken⟩ := Prod.mk.inj hkeys
  exact ⟨lease, hlease, hheld, hid, htoken⟩

variable {lease : Lease} {mv : Settlement}

theorem Owner.leaseRestore_eq (hl : o.leases[l]? = some lease)
    (hsettling : lease.state = .settling) :
    o.leaseRestore l = { o with leases := o.leases.set l { lease with state := .active } } := by
  rw [Owner.leaseRestore, Table.modify_eq_set hl, if_pos hsettling]

theorem startSettle_active (mv : Settlement) (hlease : lease ∈ o.leases)
    (hactive : lease.state = .active)
    (hrange : (lease.recordId : ℤ) ≤ int64Max ∧ (lease.claimToken : ℤ) ≤ int64Max) :
    ∃ l, o.startSettle lease.recordId lease.claimToken mv = (o.setState l .settling,
      .inl (.settle false l lease.recordId lease.claimToken mv)) := by
  have hfind : ∃ l, o.leaseBeginSettle lease.recordId lease.claimToken = some l := by
    rw [← Option.isSome_iff_exists, Owner.leaseBeginSettle, findIdx?_isSome, any_eq_true]
    exact ⟨lease, hlease, by simp [hactive]⟩
  obtain ⟨l, hl⟩ := hfind
  refine ⟨l, ?_⟩
  rw [Owner.startSettle, if_neg (by omega), hl]

theorem Starts.keeps (h : Starts o op o' r) (hl : o.leases[l]? = some lease)
    (hactive : lease.state = .active)
    (hother : ∀ mv, op.settlement ≠ some (lease.recordId, lease.claimToken, mv)) :
    o'.leases[l]? = some lease := by
  cases h with
  | returned | entered | closing => exact hl
  | @reserved m free _ hm hfree =>
    have hne : m ≠ l := by
      rintro rfl
      obtain rfl : free = lease := Option.some.inj (hm.symm.trans hl)
      simp [hactive] at hfree
    exact (getElem?_modify_ne _ _ hne).trans hl
  | @settling m _ _ settled mv hop hm _ hid htoken =>
    have hne : m ≠ l := by
      rintro rfl
      obtain rfl : settled = lease := Option.some.inj (hm.symm.trans hl)
      exact hother mv (by rw [hop, hid, htoken])
    exact (getElem?_modify_ne _ _ hne).trans hl

theorem act_keeps (hsound : Sound limits s) (hleased : Leased s) (ho : s.Live i o)
    (hl : o.leases[l]? = some lease) (hactive : lease.state = .active)
    (hother : ∀ op mv, a = .call i op →
      op.settlement ≠ some (lease.recordId, lease.claimToken, mv)) (h : act s a = some (s', out))
    (ho' : s'.Live i o') : o'.leases[l]? = some lease := by
  have heq : ∀ p, s.Live i p → p = o := fun p hp =>
    Option.some.inj (Option.some.inj (hp.symm.trans ho))
  cases act_acted h with
  | notOpened | stayed => exact heq o' ho' ▸ hl
  | opened =>
    rcases live_append ho' with hp | ⟨hi, -⟩
    · exact heq o' hp ▸ hl
    rw [System.Live, hi, getElem?_eq_none (le_refl _)] at ho
    cases ho
  | crashed | left | finished =>
    rcases live_set ho' with ⟨-, hx⟩ | ⟨-, hp⟩
    · cases hx
    · exact heq o' hp ▸ hl
  | @started _ _ _ op _ hp hstarts =>
    rcases live_set ho' with ⟨rfl, hx⟩ | ⟨-, hp⟩
    · cases hx
      obtain rfl := heq _ hp
      exact hstarts.keeps hl hactive fun mv => hother op mv rfl
    · exact heq o' hp ▸ hl
  | @advanced _ _ _ _ engine call _ _ hp hk hadvance =>
    rcases live_set ho' with ⟨rfl, hx⟩ | ⟨-, hp⟩
    · cases hx
      obtain rfl := heq _ hp
      have htidy := hleased.tidy _ _ ho
      have hcall : call.lease ≠ some l := fun hcall =>
        htidy.not_held hl (.inr hactive)
          (mem_filterMap.mpr ⟨call, mem_of_getElem? hk, hcall⟩)
      have hspec := Owner.advance_leases engine hsound.intact htidy hk
      rw [hadvance] at hspec
      exact (hspec.others call l hk hcall).trans hl
    · exact heq o' hp ▸ hl

theorem act_begins (ho : s.Live i o) (hlease : lease ∈ o.leases) (hactive : lease.state = .active)
    (hop : op.settlement = some (lease.recordId, lease.claimToken, mv))
    (hid : 0 < lease.recordId ∧ (lease.recordId : ℤ) ≤ int64Max)
    (htoken : 0 < lease.claimToken ∧ (lease.claimToken : ℤ) ≤ int64Max) :
    ∃ l, act s (.call i op) = some (s.withOwner i
      { o.setState l .settling with
        calls := o.calls ++ [.settle false l lease.recordId lease.claimToken mv] },
      .continues) := by
  obtain ⟨l, hstart⟩ := startSettle_active mv hlease hactive ⟨hid.2, htoken.2⟩
  refine ⟨l, ?_⟩
  have hget : s.owners[i]? = some (some o) := ho
  have hzero : ¬ (lease.recordId = 0 ∨ lease.claimToken = 0) := by omega
  cases op with
  | complete n t =>
    simp only [Operation.settlement, Option.some.injEq, Prod.mk.injEq] at hop
    obtain ⟨rfl, rfl, rfl⟩ := hop
    simp only [act, hget, Owner.start, if_neg hzero, hstart]
    rfl
  | fail n t status =>
    simp only [Operation.settlement] at hop
    split at hop
    · cases hop
    rename_i hstatus
    simp only [Option.some.injEq, Prod.mk.injEq] at hop
    obtain ⟨rfl, rfl, rfl⟩ := hop
    simp only [act, hget, Owner.start, if_neg hzero, dif_neg hstatus, hstart]
    rfl
  | _ => cases hop

end Leases

/-! ### Fencing -/

structure Bounded (s : System) : Prop where
  ids : s.db.metaRow.nextRecordId ≤ int64Max
  tokens : s.db.metaRow.nextClaimToken ≤ int64Max

theorem Bounded.effect (hsound : Sound limits s) (h : Bounded s) (heffect : Effect s s') :
    Bounded s' := by
  cases heffect with
  | idle => exact h
  | opened hvalid hcreate =>
    obtain ⟨-, rfl, rfl⟩ := hsound.intact.inboxCreate_eq_ok hcreate
    exact ⟨h.ids, h.tokens⟩
  | served ho hsame hchange =>
    cases hchange with
    | keep | forget => exact ⟨h.ids, h.tokens⟩
    | insert hcurrent hadmissible =>
      have hids := h.ids
      have hne := hadmissible.ids
      exact ⟨by simp only [admitCount]; omega, h.tokens⟩
    | move mv hcurrent hsplit hphase hcounter =>
      refine ⟨by rw [Move.count_nextRecordId]; exact h.ids, ?_⟩
      have htokens := h.tokens
      cases mv with
      | claim g t =>
        simp only [Move.counter] at hcounter
        simp only [Move.count]
        omega
      | _ => exact htokens
  | left | finished => exact ⟨h.ids, h.tokens⟩

theorem bounded_of_run (h : Run (Acts act) (System.init limits) tr s) : Bounded s := by
  have hone : (1 : ℤ) ≤ int64Max := by decide
  have hboth : Sound limits s ∧ Bounded s :=
    h.invariant (P := fun s => Sound limits s ∧ Bounded s)
      ⟨Sound.init limits, hone, hone⟩ fun _ _ _ hs hstep =>
        ⟨hs.1.effect (act_effect hstep), hs.2.effect hs.1 (act_effect hstep)⟩
  exact hboth.2

/-- What the generation guarantees in a state: first for the database, then for a claim whose lease
is there at the takeover, stays, begins its settlement and can end in one way. -/
structure Fenced (s : System) : Prop where
  frozen : ∀ i o a s' out, s.Live i o → s.Older o → a.owner = some i →
    act s a = some (s', out) → s'.db = s.db
  staysOlder : ∀ i o o' a s' out, s.Live i o → s.Older o → act s a = some (s', out) →
    s'.Live i o' → s'.Older o'
  single : ∀ i j o o', s.Live i o → s.Live j o' → ¬ s.Older o → ¬ s.Older o' → i = j
  takeover : ∀ config engine s' g, act s (.create config engine) = some (s', .created (.ok g)) →
    g = s.db.metaRow.generation + 1 ∧ s'.db.metaRow.generation = g ∧
      s'.db.rows = s.db.rows.map fun row =>
        if row.phase = .claimed then loseOwner row else row
  leased : ∀ i o row, s.Live i o → ¬ s.Older o → row ∈ s.db.rows → row.phase = .claimed →
    ∃ lease ∈ o.leases, lease.held ∧ lease.recordId = row.recordId ∧
      lease.claimToken = row.claimToken ∧ 0 < row.recordId ∧ row.recordId ≤ int64Max ∧
      0 < row.claimToken ∧ row.claimToken ≤ int64Max
  kept : ∀ i o o' (l : ℕ) (lease : Lease) a s' out, s.Live i o → o.leases[l]? = some lease →
    lease.state = .active →
    (∀ op mv, a = .call i op → op.settlement ≠ some (lease.recordId, lease.claimToken, mv)) →
    act s a = some (s', out) → s'.Live i o' → o'.leases[l]? = some lease
  begins : ∀ i o lease op mv, s.Live i o → lease ∈ o.leases → lease.state = .active →
    op.settlement = some (lease.recordId, lease.claimToken, mv) →
    0 < lease.recordId ∧ (lease.recordId : ℤ) ≤ int64Max →
    0 < lease.claimToken ∧ (lease.claimToken : ℤ) ≤ int64Max →
    ∃ l, act s (.call i op) = some (s.withOwner i
      { o.setState l .settling with
        calls := o.calls ++ [.settle false l lease.recordId lease.claimToken mv] }, .continues)
  connects : ∀ i o (k : ℕ) l n t mv engine, s.Live i o →
    o.calls[k]? = some (.settle false l n t mv) →
    o.connectionFree = true →
    act s (.advance i k engine) = some (s.withOwner i
      { o with calls := o.calls.set k (.settle true l n t mv) }, .continues)
  refused : ∀ i o (k : ℕ) l n t mv engine, s.Live i o →
    o.calls[k]? = some (.settle false l n t mv) →
    o.connectionFree = false → ∃ lease, o.leases[l]? = some lease ∧
      act s (.advance i k engine) = some (s.withOwner i
        { o with
          leases := o.leases.set l { lease with state := .active }
          calls := o.calls.eraseIdx k }, .returned (.status .ebusy))
  attempts : ∀ i o (k : ℕ) l n t mv engine, s.Live i o → s.Older o →
    o.calls[k]? = some (.settle true l n t mv) → ∃ rc, rc ≠ .ok ∧
      act s (.advance i k engine) = some (s.withOwner i
        { o with calls := o.calls.set k (.reread l rc) }, .continues)
  cancels : ∀ i o (k : ℕ) l rc, s.Live i o → s.Older o → o.calls[k]? = some (.reread l rc) →
    act s (.advance i k .ok) = some (s.withOwner i
      { o with leases := o.leases.set l Lease.free, calls := o.calls.eraseIdx k },
      .returned (.status .ecanceled))
  interrupted : ∀ i o (k : ℕ) l rc engine, s.Live i o → o.calls[k]? = some (.reread l rc) →
    engine ≠ .ok → rc ≠ .ok ∧ ∃ lease, o.leases[l]? = some lease ∧
      act s (.advance i k engine) = some (s.withOwner i
        { o with
          leases := o.leases.set l { lease with state := .active }
          calls := o.calls.eraseIdx k }, .returned (.status rc))

theorem fenced_of_run (h : Run (Acts act) (System.init limits) tr s) : Fenced s := by
  have hsound := sound_of_run h
  have hleased := leased_of_run h
  have hbounded := bounded_of_run h
  have hcurrent : ∀ i o, s.Live i o → ¬ s.Older o → o.generation = s.db.metaRow.generation :=
    fun i o ho hold => le_antisymm (hsound.behind i o ho) (not_lt.mp hold)
  exact
    { frozen := fun _ _ _ _ _ => act_of_older
      staysOlder := by
        intro i o o' a s' out ho holder hact ho'
        rw [System.Older, (act_same ho ho' hact).generation]
        refine lt_of_lt_of_le holder ?_
        rcases hsound.generation_step hact with ⟨g, -, rfl, hs'⟩ | ⟨-, hs'⟩
        · omega
        · exact hs'.ge
      single := fun i j o o' ho ho' hold hold' =>
        hsound.distinct i j o o' ho ho'
          ((hcurrent i o ho hold).trans (hcurrent j o' ho' hold').symm)
      takeover := fun _ _ _ _ => hsound.created
      leased := by
        intro i o row ho hold hrow hphase
        obtain ⟨lease, hlease, hheld, hid, htoken⟩ :=
          exists_lease hleased ho (hcurrent i o ho hold) hrow hphase
        have hids := hsound.intact.ids row hrow
        have htokens := hsound.intact.tokens row hrow
        have hvalid := hsound.intact.phases row hrow
        simp only [phaseColumnsValid, hphase, decide_eq_true_eq] at hvalid
        have hnextId := hbounded.ids
        have hnextToken := hbounded.tokens
        exact ⟨lease, hlease, hheld, hid, htoken, hids.1, by omega, hvalid.2.2.1, by omega⟩
      kept := fun _ _ _ _ _ _ _ _ => act_keeps hsound hleased
      begins := fun _ _ _ _ _ => act_begins
      connects := by
        intro i o k l n t mv engine ho hk hfree
        rw [act_advance ho hk]
        simp [Owner.advance, hfree, System.callAdvanced]
      refused := by
        intro i o k l n t mv engine ho hk hbusy
        obtain ⟨lease, hl, hsettling, -⟩ := (hleased.tidy i o ho).holds _ (mem_of_getElem? hk) l rfl
        refine ⟨lease, hl, ?_⟩
        rw [act_advance ho hk]
        simp [Owner.advance, hbusy, Owner.leaseRestore_eq hl hsettling, System.callAdvanced]
      attempts := by
        intro i o k l n t mv engine ho holder hk
        rcases htransact : transact engine (inboxClaimTransition o.generation n t mv.1 s.db) with
          rc | db'
        · refine ⟨rc, inboxClaimTransition_ne_ok htransact, ?_⟩
          rw [act_advance ho hk]
          simp [Owner.advance, htransact, System.callAdvanced]
        · have howner := (inboxClaimTransition_eq_ok (transact_eq_ok htransact)).1
          exact absurd howner (ne_of_gt holder)
      cancels := by
        intro i o k l rc ho holder hk
        have hne : s.db.metaRow.generation ≠ o.generation := ne_of_gt holder
        rw [act_advance ho hk]
        simp [Owner.advance, hne, Owner.leaseRelease, System.callAdvanced]
      interrupted := by
        intro i o k l rc engine ho hk hengine
        obtain ⟨lease, hl, hsettling, hrc⟩ :=
          (hleased.tidy i o ho).holds _ (mem_of_getElem? hk) l rfl
        refine ⟨hrc, lease, hl, ?_⟩
        rw [act_advance ho hk]
        simp [Owner.advance, hengine, Owner.leaseRestore_eq hl hsettling, System.callAdvanced] }

/-- Ownership is fenced by the generation in every reachable state: the generations of the opens
increase, and no token, record id or loss of a claim occurs twice. -/
theorem ownership_fenced {limits : Limits} {tr : List (Action × Outcome)} {s : System}
    (h : Run (Acts act) (System.init limits) tr s) :
    Fenced s ∧ (createdGenerations tr).Pairwise (· < ·) ∧
      (∀ token, AtMostOnce (Acts act) (System.init limits) (Claims token)) ∧
      (∀ recordId, AtMostOnce (Acts act) (System.init limits) (Inserts recordId)) ∧
      ∀ recordId token, AtMostOnce (Acts act) (System.init limits) (Loses recordId token) :=
  ⟨fenced_of_run h, createdGenerations_pairwise h, claims_once limits, inserts_once limits,
    loses_once limits⟩

def claimedThenTakenOver (connectionCount : ℕ) : List Action :=
  [.create ⟨twoSlots, connectionCount, .exclusive⟩ .ok, .call 0 (.admitRecord firstRecord),
    .advance 0 0 .ok, .call 0 .claim, .advance 0 0 .ok, .advance 0 0 .ok,
    .create ⟨twoSlots, 1, .takeover 1⟩ .ok]

/-- After a takeover the claim of the older owner is a failed record, and its settlement is
canceled. -/
theorem ownership_fenced_after_takeover :
    ∃ tr s o, Run (Acts act) (System.init twoSlots) tr s ∧ s.Live 0 o ∧ s.Older o ∧
      s.db.rows.map (fun row => (row.phase, row.failureKind)) = [(.failed, .ownerLostUnknown)] ∧
      createdGenerations tr = [1, 2] ∧ (createdGenerations tr).Pairwise (· < ·) ∧
      o.calls = [.reread 0 .ebusy] ∧
      act s (.advance 0 0 .ok) = some (s.withOwner 0
        { o with leases := o.leases.set 0 Lease.free, calls := o.calls.eraseIdx 0 },
        .returned (.status .ecanceled)) := by
  have hrun : Run (Acts act) (System.init twoSlots) _ _ := run_of_exec (show exec act _
    (claimedThenTakenOver 1 ++ [.call 0 (.complete 1 1), .advance 0 0 .ok, .advance 0 0 .ok]) = _
      from rfl)
  obtain ⟨hfenced, hincreasing, -⟩ := ownership_fenced hrun
  refine ⟨_, _, _, hrun, and_of_imp rfl fun ho => and_of_imp (Int.lt_succ 1) fun holder =>
    ⟨rfl, rfl, hincreasing, rfl, hfenced.cancels 0 _ 0 0 .ebusy ho holder rfl⟩⟩

/-- With its only connection in use, the settlement of an older owner returns `EBUSY` and the lease
stays active. -/
theorem older_settlement_refused :
    ∃ tr s o s' o', Run (Acts act) (System.init twoSlots) tr s ∧ s.Live 0 o ∧ s.Older o ∧
      o.calls = [.snapshot, .settle false 0 1 1 ⟨.complete, rfl, by decide⟩] ∧
      act s (.advance 0 1 .ok) = some (s', .returned (.status .ebusy)) ∧
      s'.Live 0 o' ∧ (o'.leases.map Lease.state)[0]? = some .active := by
  have hrun : Run (Acts act) (System.init twoSlots) _ _ := run_of_exec (show exec act _
    (claimedThenTakenOver 1 ++ [.call 0 .snapshot, .call 0 (.complete 1 1)]) = _ from rfl)
  exact ⟨_, _, _, _, _, hrun, rfl, Int.lt_succ 1, rfl, rfl, rfl, rfl⟩

end TurboFlow.TurboDb
