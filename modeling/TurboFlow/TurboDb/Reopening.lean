import TurboFlow.TurboDb.Owners
import TurboFlow.Inbox.System

/-!
# Every reachable namespace can be opened again

`Sound` adds what ties the owners to the namespace: a live owner has its limits and a generation of
its own, none is ahead of it, and the current owner finds it active. So the preflight accepts what
the provider has written at any point, and an open can only be stopped by an exhausted counter.
-/

namespace TurboFlow.TurboDb

open Inbox Transition List

structure Sound (limits : Limits) (s : System) : Prop where
  intact : Intact limits s.db
  ownerLimits : ∀ i o, s.Live i o → o.limits = limits
  behind : ∀ i o, s.Live i o → o.generation ≤ s.db.metaRow.generation
  current : ∀ i o, s.Live i o → o.generation = s.db.metaRow.generation →
    s.db.metaRow.ownerState = .active
  distinct : ∀ i j o o', s.Live i o → s.Live j o' → o.generation = o'.generation → i = j

variable {s : System} {db : Database} {limits : Limits}

section Live

theorem live_set (h : (⟨db, s.owners.set i x⟩ : System).Live j p) :
    j = i ∧ x = some p ∨ j ≠ i ∧ s.Live j p := by
  simp only [System.Live, getElem?_set] at h
  split at h
  · rename_i heq
    split at h
    · exact .inl ⟨heq.symm, Option.some.inj h⟩
    · cases h
  rename_i hne
  exact .inr ⟨fun heq => hne heq.symm, h⟩

theorem live_append (h : (⟨db, s.owners ++ [some o]⟩ : System).Live j p) :
    s.Live j p ∨ j = s.owners.length ∧ p = o := by
  simp only [System.Live] at h
  rcases lt_trichotomy j s.owners.length with hlt | heq | hgt
  · rw [getElem?_append_left hlt] at h
    exact .inl h
  · rw [getElem?_append_right (by omega), heq, Nat.sub_self] at h
    cases h
    exact .inr ⟨heq, rfl⟩
  rw [getElem?_eq_none (by simp; omega)] at h
  cases h

end Live

theorem Intact.limits_eq (h : Intact limits db)
    (hpreflight : TurboDb.inboxPreflight limits' db = .ok) : limits' = limits := by
  unfold TurboDb.inboxPreflight at hpreflight
  split at hpreflight
  · cases hpreflight
  rename_i hheader
  simp only [metaHeaderValid, decide_eq_true_eq, not_not, h.maxRecords, h.maxTotalBytes,
    h.maxRecordBytes, h.maxClaims, Nat.cast_inj] at hheader
  rcases limits with ⟨a, b, c, d⟩
  rcases limits' with ⟨a', b', c', d'⟩
  simp_all

theorem Intact.update_loseOwner_of_closed (h : Intact limits db)
    (hclosed : db.metaRow.ownerState = .closed) :
    Rows.update (claimedBy db.metaRow.generation) loseOwner db.rows = db.rows := by
  apply Rows.update_eq_self
  intro row hrow
  have hempty := h.closed hclosed
  obtain ⟨⟩ := id h
  have hpendingNonneg := phaseRows_nonneg .pending db.rows
  have hfailedNonneg := phaseRows_nonneg .failed db.rows
  by_contra hother
  have hphase : row.phase = .claimed := by
    simp only [claimedBy, decide_eq_false_iff_not, not_not] at hother
    exact hother.1
  have hpos := phaseRows_pos hrow hphase
  omega

theorem Intact.inboxCreate_eq_ok {limits : Limits} {db db' : Database} {config : Config}
    {generation : ℤ} (h : Intact limits db)
    (hcreate : inboxCreate config db = .ok (db', generation)) :
    config.limits = limits ∧ generation = db.metaRow.generation + 1 ∧
      db' = ⟨openMeta db.metaRow,
        Rows.update (claimedBy db.metaRow.generation) loseOwner db.rows⟩ := by
  unfold inboxCreate at hcreate
  simp only at hcreate
  split at hcreate
  · cases hcreate
  rename_i hpreflight
  refine ⟨h.limits_eq (not_not.mp hpreflight), ?_⟩
  split at hcreate
  · split at hcreate
    · cases hcreate
    rename_i hclosed
    split at hcreate
    · cases hcreate
    cases hcreate
    exact ⟨rfl, by rw [h.update_loseOwner_of_closed (not_not.mp hclosed)]⟩
  rename_i expected _
  split at hcreate
  · cases hcreate
  rename_i hcurrent
  split at hcreate
  · cases hcreate
  split at hcreate
  · cases hcreate
  split at hcreate
  · cases hcreate
  cases hcreate
  simp only [not_or, not_not] at hcurrent
  exact ⟨rfl, by rw [hcurrent.2]⟩

/-! ### The invariant of the system -/

namespace Sound

theorem init (limits : Limits) : Sound limits (System.init limits) where
  intact := Intact.emptySchema limits
  ownerLimits := by simp [System.init, System.Live]
  behind := by simp [System.init, System.Live]
  current := by simp [System.init, System.Live]
  distinct := by simp [System.init, System.Live]

section

variable (h : Sound limits s)
include h

theorem opened {config : Config} {generation : ℤ}
    (hcreate : inboxCreate config s.db = .ok (db, generation)) :
    Sound limits ⟨db, s.owners ++ [some (newOwner config generation)]⟩ := by
  obtain ⟨hlimits, rfl, rfl⟩ := h.intact.inboxCreate_eq_ok hcreate
  refine ⟨h.intact.opening, ?_, ?_, ?_, ?_⟩
  · intro i o ho
    rcases live_append ho with ho | ⟨-, rfl⟩
    · exact h.ownerLimits i o ho
    · exact hlimits
  · intro i o ho
    rcases live_append ho with ho | ⟨-, rfl⟩
    · exact (h.behind i o ho).trans (by simp [openMeta])
    · exact le_refl _
  · intro i o ho _
    rfl
  intro i j o o' ho ho' hsame
  rcases live_append ho with ho | ⟨rfl, rfl⟩
  · rcases live_append ho' with ho' | ⟨rfl, rfl⟩
    · exact h.distinct i j o o' ho ho' hsame
    have := h.behind i o ho
    simp only [newOwner] at hsame
    omega
  rcases live_append ho' with ho' | ⟨rfl, rfl⟩
  · have := h.behind j o' ho'
    simp only [newOwner] at hsame
    omega
  · rfl

theorem served (ho : s.Live i o) (hsame : SameOwner o o')
    (hchange : Change o.limits o.generation s.db db) :
    Sound limits ⟨db, s.owners.set i (some o')⟩ := by
  have hgeneration := hchange.generation_eq
  have hstate := hchange.ownerState_eq
  -- The owner in place `i` differs only in what its mutex protects.
  have hlive : ∀ j p, (⟨db, s.owners.set i (some o')⟩ : System).Live j p →
      ∃ q, s.Live j q ∧ SameOwner q p := by
    intro j p hp
    rcases live_set hp with ⟨rfl, hsome⟩ | ⟨-, hp⟩
    · cases hsome
      exact ⟨o, ho, hsame⟩
    · exact ⟨p, hp, .refl p⟩
  refine ⟨?_, ?_, ?_, ?_, ?_⟩
  · rw [h.ownerLimits i o ho] at hchange
    exact h.intact.change (fun hcurrent => h.current i o ho hcurrent.symm) hchange
  · intro j p hp
    obtain ⟨q, hq, hsameq⟩ := hlive j p hp
    rw [hsameq.limits]
    exact h.ownerLimits j q hq
  · intro j p hp
    obtain ⟨q, hq, hsameq⟩ := hlive j p hp
    rw [hsameq.generation, hgeneration]
    exact h.behind j q hq
  · intro j p hp hcurrent
    obtain ⟨q, hq, hsameq⟩ := hlive j p hp
    rw [hsameq.generation, hgeneration] at hcurrent
    rw [hstate]
    exact h.current j q hq hcurrent
  intro j k p p' hp hp' heq
  obtain ⟨q, hq, hsameq⟩ := hlive j p hp
  obtain ⟨q', hq', hsameq'⟩ := hlive k p' hp'
  rw [hsameq.generation, hsameq'.generation] at heq
  exact h.distinct j k q q' hq hq' heq

theorem left : Sound limits ⟨s.db, s.owners.set i none⟩ := by
  have hlive : ∀ j p, (⟨s.db, s.owners.set i none⟩ : System).Live j p → s.Live j p := by
    intro j p hp
    rcases live_set hp with ⟨-, hnone⟩ | ⟨-, hp⟩
    · cases hnone
    · exact hp
  exact
    { intact := h.intact
      ownerLimits := fun j p hp => h.ownerLimits j p (hlive j p hp)
      behind := fun j p hp => h.behind j p (hlive j p hp)
      current := fun j p hp => h.current j p (hlive j p hp)
      distinct := fun j k p p' hp hp' => h.distinct j k p p' (hlive j p hp) (hlive k p' hp') }

theorem finished (ho : s.Live i o) (hcurrent : s.db.metaRow.generation = o.generation)
    (hempty : s.db.metaRow.records = 0) :
    Sound limits
      ⟨⟨{ s.db.metaRow with ownerState := .closed }, s.db.rows⟩, s.owners.set i none⟩ := by
  have hleft := h.left (i := i)
  refine ⟨h.intact.finish hempty, hleft.ownerLimits, hleft.behind, ?_, hleft.distinct⟩
  -- No other owner has the generation of the one that ends.
  intro j p hp hsame
  rcases live_set hp with ⟨-, hnone⟩ | ⟨hne, hp⟩
  · cases hnone
  · exact absurd (h.distinct j i p o hp ho (hsame.trans hcurrent)) hne

theorem effect (heffect : Effect s s') : Sound limits s' := by
  cases heffect with
  | idle => exact h
  | opened _ hcreate => exact h.opened hcreate
  | served ho hsame hchange => exact h.served ho hsame hchange
  | left => exact h.left
  | finished ho hcurrent hempty => exact h.finished ho hcurrent hempty

end

end Sound

theorem sound_of_run (h : Run (Acts act) (System.init limits) tr s) : Sound limits s :=
  h.invariant (Sound.init limits) fun _ _ _ hs hstep => hs.effect (act_effect hstep)

/-! ### Opening a reachable namespace -/

def reopened (m : MetaRow) : Except Status ℤ :=
  if m.generation = int64Max then .error .erange else .ok (m.generation + 1)

def takenOver (m : MetaRow) : Except Status ℤ :=
  if m.failed + m.inFlightClaims > int64Max then .error .erange else .ok (m.generation + 1)

section Opening

variable {connectionCount : ℕ} (h : Sound limits s) (hlimits : limitsValid limits)
  (hpool : 0 < connectionCount ∧ connectionCount ≤ inboxMaxConnections)

include hlimits hpool in
theorem exclusive_valid : inboxConfigValid ⟨limits, connectionCount, .exclusive⟩ := by
  simp only [inboxConfigValid, openModeValid, decide_eq_true_eq, and_true]
  exact ⟨hlimits, by omega, hpool.2⟩

include h hlimits hpool

section

variable (hclosed : s.db.metaRow.ownerState = .closed)
include hclosed

theorem create_exclusive_ok (hmax : s.db.metaRow.generation ≠ int64Max) :
    act s (.create ⟨limits, connectionCount, .exclusive⟩ .ok) =
      some (⟨⟨openMeta s.db.metaRow, s.db.rows⟩,
          s.owners ++ [some (newOwner ⟨limits, connectionCount, .exclusive⟩
            (s.db.metaRow.generation + 1))]⟩, .created (.ok (s.db.metaRow.generation + 1))) := by
  have hvalid := exclusive_valid hlimits hpool
  simp [act, System.create, hvalid, transact, inboxCreate, h.intact.inboxPreflight, hclosed, hmax]

theorem create_exclusive_exhausted (hmax : s.db.metaRow.generation = int64Max) :
    act s (.create ⟨limits, connectionCount, .exclusive⟩ .ok) =
      some (s, .created (.error .erange)) := by
  have hvalid := exclusive_valid hlimits hpool
  simp [act, System.create, hvalid, transact, inboxCreate, h.intact.inboxPreflight, hclosed, hmax]

theorem create_exclusive :
    ∃ s', act s (.create ⟨limits, connectionCount, .exclusive⟩ .ok) =
      some (s', .created (reopened s.db.metaRow)) := by
  rw [reopened]
  split
  · rename_i hmax
    exact ⟨s, create_exclusive_exhausted h hlimits hpool hclosed hmax⟩
  rename_i hmax
  exact ⟨_, create_exclusive_ok h hlimits hpool hclosed hmax⟩

end

theorem create_takeover (hactive : s.db.metaRow.ownerState = .active)
    (hmax : s.db.metaRow.generation < int64Max) :
    ∃ s', act s
        (.create ⟨limits, connectionCount, .takeover s.db.metaRow.generation.toNat⟩ .ok) =
      some (s', .created (takenOver s.db.metaRow)) := by
  have hpositive := h.intact.opened hactive
  have hcast : (s.db.metaRow.generation.toNat : ℤ) = s.db.metaRow.generation :=
    Int.toNat_of_nonneg (by omega)
  have hvalid : inboxConfigValid
      ⟨limits, connectionCount, .takeover s.db.metaRow.generation.toNat⟩ := by
    simp only [inboxConfigValid, openModeValid, decide_eq_true_eq]
    exact ⟨hlimits, by omega, hpool.2, by omega, by omega⟩
  have hpreflight := h.intact.inboxPreflight
  have hretried := h.intact.retriedNonneg
  have hdiscarded := h.intact.discardedNonneg
  have hfailures := h.intact.failures
  have hclaims : (s.db.rows.countP (claimedBy s.db.metaRow.generation) : ℤ) =
      s.db.metaRow.inFlightClaims := by
    rw [h.intact.claimed, phaseRows, countP_congr]
    intro row hrow
    simp only [claimedBy, decide_eq_true_eq]
    exact ⟨fun hclaimed => hclaimed.1,
      fun hphase => ⟨hphase, h.intact.claimGeneration_eq hrow hphase⟩⟩
  simp only [act, System.create, hvalid, not_true_eq_false, if_false, transact, if_true,
    inboxCreate, hpreflight, ne_eq, hactive, hcast, or_self, hmax.ne, hclaims, takenOver]
  by_cases hroom : s.db.metaRow.failed + s.db.metaRow.inFlightClaims > int64Max
  · rw [if_pos (by omega), if_pos hroom]
    exact ⟨s, rfl⟩
  rw [if_neg (by omega), if_neg hroom]
  exact ⟨_, rfl⟩

end Opening

/-- Every namespace that only the provider has written passes the preflight, and an open that finds
it closed, or takes it over from its current generation, succeeds unless a counter would pass
`INT64_MAX`. -/
theorem opens_again {limits : Limits} (hlimits : limitsValid limits)
    {tr : List (Action × Outcome)} {s : System}
    (h : Run (Acts act) (System.init limits) tr s) :
    inboxPreflight limits s.db = .ok ∧
      ∀ connectionCount, 0 < connectionCount ∧ connectionCount ≤ inboxMaxConnections →
        (s.db.metaRow.ownerState = .closed →
          ∃ s', act s (.create ⟨limits, connectionCount, .exclusive⟩ .ok) =
            some (s', .created (reopened s.db.metaRow))) ∧
        (s.db.metaRow.ownerState = .active → s.db.metaRow.generation < int64Max →
          ∃ s', act s
              (.create ⟨limits, connectionCount, .takeover s.db.metaRow.generation.toNat⟩ .ok) =
            some (s', .created (takenOver s.db.metaRow))) := by
  have hsound := sound_of_run h
  refine ⟨hsound.intact.inboxPreflight, ?_⟩
  intro connectionCount hpool
  exact ⟨create_exclusive hsound hlimits hpool, create_takeover hsound hlimits hpool⟩

def firstRecord : CallerRecord := ⟨sampleRecord 1, by decide⟩

/-- A namespace whose owner crashed with a pending record is taken over. -/
theorem opens_again_after_crash :
    ∃ tr s s', Run (Acts act) (System.init twoSlots) tr s ∧ s.owners = [none] ∧
      s.db.metaRow.pendingRecords = 1 ∧ inboxPreflight twoSlots s.db = .ok ∧
      act s (.create ⟨twoSlots, 1, .takeover 1⟩ .ok) = some (s', .created (.ok 2)) := by
  have hrun : Run (Acts act) (System.init twoSlots) _ _ := run_of_exec (show exec act _
    [.create ⟨twoSlots, 1, .exclusive⟩ .ok, .call 0 (.admitRecord firstRecord), .advance 0 0 .ok,
      .crash 0] = _ from rfl)
  obtain ⟨hpreflight, hopen⟩ := opens_again (by decide) hrun
  obtain ⟨s', hact⟩ := (hopen 1 (by decide)).2 rfl (by decide)
  exact ⟨_, _, s', hrun, rfl, rfl, hpreflight, hact⟩

/-! ### The last generation -/

theorem exists_clean_destroy (ho : s.Live i o) (hcalls : o.calls = [])
    (haccepting : o.accepting = true) (hpool : 0 < o.connectionCount)
    (hcurrent : s.db.metaRow.generation = o.generation) (hrecords : s.db.metaRow.records = 0)
    (hclaims : s.db.metaRow.inFlightClaims = 0) :
    ∃ tr s', Run (Acts act) s tr s' ∧
      s'.db = ⟨{ s.db.metaRow with ownerState := .closed }, s.db.rows⟩ := by
  have hi : i < s.owners.length := by
    by_contra hge
    rw [System.Live, getElem?_eq_none (by omega)] at ho
    cases ho
  have hget : s.owners[i]? = some (some o) := ho
  let closing : Owner := { o with accepting := false, closing := true, calls := [.close] }
  let idle : Owner := { o with accepting := false, closing := false, calls := [] }
  have hcall : act s (.call i .close) =
      some (⟨s.db, s.owners.set i (some closing)⟩, .continues) := by
    simp [act, hget, Owner.start, Owner.startClose, Owner.connectionFree, hcalls, hpool,
      haccepting, System.callStarted, closing]
  have hclose : act ⟨s.db, s.owners.set i (some closing)⟩ (.advance i 0 .ok) =
      some (⟨s.db, s.owners.set i (some idle)⟩, .returned (.status .ok)) := by
    simp [act, hi, closing, idle, Owner.advance, transact, inboxClose, updateMeta, hcurrent,
      System.callAdvanced]
  have hdestroy : act ⟨s.db, s.owners.set i (some idle)⟩ (.destroy i .ok) =
      some (⟨⟨{ s.db.metaRow with ownerState := .closed }, s.db.rows⟩, s.owners.set i none⟩,
        .destroyed .ok) := by
    simp [act, hi, idle, System.destroy, inboxDestroy, updateMeta, hcurrent, hrecords, hclaims]
  have hrun : Run (Acts act) s
      [(.call i .close, .continues), (.advance i 0 .ok, .returned (.status .ok)),
        (.destroy i .ok, .destroyed .ok)]
      ⟨⟨{ s.db.metaRow with ownerState := .closed }, s.db.rows⟩, s.owners.set i none⟩ :=
    Run.cons_iff.mpr ⟨_, hcall, Run.cons_iff.mpr ⟨_, hclose, Run.single_iff.mpr hdestroy⟩⟩
  exact ⟨_, _, hrun, rfl⟩

theorem exists_closed_run (n : ℕ) (hn : (n : ℤ) ≤ int64Max) :
    ∃ tr s, Run (Acts act) (System.init twoSlots) tr s ∧ s.db.metaRow.ownerState = .closed ∧
      s.db.metaRow.generation = n := by
  induction n with
  | zero => exact ⟨[], _, Run.nil, rfl, rfl⟩
  | succ n ih =>
    obtain ⟨tr, s, hrun, hclosed, hgeneration⟩ := ih (by omega)
    have hsound := sound_of_run hrun
    have hrecords := hsound.intact.closed hclosed
    have hcreate : Acts act s (.create ⟨twoSlots, 1, .exclusive⟩ .ok, _) _ :=
      create_exclusive_ok hsound (by decide) (by decide) hclosed (by omega)
    have hlive : System.Live
        ⟨⟨openMeta s.db.metaRow, s.db.rows⟩,
          s.owners ++ [some (newOwner ⟨twoSlots, 1, .exclusive⟩ (s.db.metaRow.generation + 1))]⟩
        s.owners.length (newOwner ⟨twoSlots, 1, .exclusive⟩ (s.db.metaRow.generation + 1)) := by
      simp [System.Live]
    obtain ⟨tr', s', hdestroy, hdb⟩ :=
      exists_clean_destroy hlive rfl rfl Nat.one_pos rfl hrecords rfl
    refine ⟨_, s', (hrun.append (Run.single_iff.mpr hcreate)).append hdestroy, ?_, ?_⟩
    · rw [hdb]
    rw [hdb]
    simp [openMeta, hgeneration]

/-- A closed namespace of the last generation is not opened any more. -/
theorem exclusive_open_exhausted :
    ∃ tr s, Run (Acts act) (System.init twoSlots) tr s ∧ s.db.metaRow.ownerState = .closed ∧
      act s (.create ⟨twoSlots, 1, .exclusive⟩ .ok) = some (s, .created (.error .erange)) := by
  obtain ⟨tr, s, hrun, hclosed, hgeneration⟩ := exists_closed_run int64Max.toNat (by decide)
  refine ⟨tr, s, hrun, hclosed, ?_⟩
  exact create_exclusive_exhausted (sound_of_run hrun) (by decide) (by decide) hclosed
    (by rw [hgeneration]; decide)

end TurboFlow.TurboDb
