import TurboFlow.Keyed.Window

/-!
# Windows close once and for ever

Between the publication of a watermark and the deletion of a window, the gate refuses every event of
the window. So the delete commit finds the entry as collected, and nothing commits to the window
again. `StoreEffect` says all that a step can do to the store.
-/

namespace TurboFlow.Keyed

open Word Version Transition List Option

section Invariant

variable (windows : WindowConfig)

def EventState.Sound : EventState → Prop
  | .gated key closeAtNs => WellKeyed windows key ∧ closeAtNs = closeAtOf windows key
  | .opened txn => WellKeyed windows txn.key ∧ txn.closeAt = some (closeAtOf windows txn.key)

structure Pending (store : Store) (watermarkNs : ℕ) (candidates : List Candidate) : Prop where
  nodup : (candidates.map Candidate.key).Nodup
  present : ∀ c ∈ candidates, store.lookup c.key = some ⟨some c.value, c.revision⟩
  due : ∀ c ∈ candidates, closeAtOf windows c.key ≤ watermarkNs
  complete : ∀ key value, store.valueAt key = some value → closeAtOf windows key ≤ watermarkNs →
    key ∈ candidates.map Candidate.key

def Advance.Sound (store : Store) : Advance → Prop
  | .idle => store.watermarkAdvancing = false
  | .reserved watermarkNs =>
    store.watermarkAdvancing = true ∧ ∀ w, store.watermark = some w → w ≤ watermarkNs
  | .closing watermarkNs candidates _ =>
    store.watermarkAdvancing = true ∧ store.watermark = some watermarkNs ∧
      Pending windows store watermarkNs candidates
  | .failed _ rc _ => store.watermarkAdvancing = true ∧ rc ≠ .ok

structure WindowSystem.Sound (s : WindowSystem) : Prop where
  eventTime : s.store.windows = some windows
  keys : ∀ key entry, s.store.lookup key = some entry → WellKeyed windows key
  events : ∀ id event, s.events id = some event → event.Sound windows
  advance : s.advance.Sound windows s.store

/-- The effect of a step: no commit, the commit of an event to an open window, or the delete commit
of a due window. The watermark never decreases. -/
inductive StoreEffect (store : Store) : WindowOutcome → Store → Prop
  | quiet {out : WindowOutcome} {store' : Store}
      (hevent : ∀ key closeAtNs left, out ≠ .committed key closeAtNs .ok left)
      (hclose : ∀ candidate rc, out ≠ .closed candidate (some .ok) rc)
      (hlookup : ∀ key, store'.lookup key = store.lookup key)
      (hwatermark : ∀ w, store.watermark = some w → ∃ w', store'.watermark = some w' ∧ w ≤ w') :
      StoreEffect store out store'
  | event {key : Bytes} {store' : Store}
      (hopen : ∀ w, store.watermark = some w → w < closeAtOf windows key)
      (hothers : ∀ other, other ≠ key → store'.lookup other = store.lookup other)
      (hwatermark : store'.watermark = store.watermark) :
      StoreEffect store (.committed key (closeAtOf windows key) .ok (store'.valueAt key)) store'
  | close {candidate : Candidate} {rc : Status} {w : ℕ} {store' : Store}
      (hcurrent : store.watermark = some w)
      (hdue : closeAtOf windows candidate.key ≤ w)
      (hpresent : store.valueAt candidate.key = some candidate.value)
      (hdeleted : store'.valueAt candidate.key = none)
      (hothers : ∀ other, other ≠ candidate.key → store'.lookup other = store.lookup other)
      (hwatermark : store'.watermark = store.watermark) :
      StoreEffect store (.closed candidate (some .ok) rc) store'

end Invariant

variable {windows : WindowConfig} {store store' : Store} {s s' : WindowSystem} {out : WindowOutcome}

section Commits

variable {rc : Status} {key : Bytes} {w : ℕ} {c : Candidate} {candidates : List Candidate}

theorem lt_of_gate (h : store.gate t = .ok) (hcloseAt : t.closeAt = some closeAtNs)
    (hwatermark : store.watermark = some w) : w < closeAtNs := by
  unfold Store.gate at h
  rw [hcloseAt, hwatermark] at h
  dsimp only at h
  split at h
  · cases h
  · omega

theorem wellKeyed_of_committed (hcommitted : Store.Committed store t store')
    (hkeys : ∀ key entry, store.lookup key = some entry → WellKeyed windows key)
    (hkey : WellKeyed windows t.key) :
    ∀ key entry, store'.lookup key = some entry → WellKeyed windows key := by
  intro key entry hlookup
  by_cases heq : key = t.key
  · rw [heq]
    exact hkey
  rw [hcommitted.others key heq] at hlookup
  exact hkeys key entry hlookup

theorem valueAt_of_lookup (h : store'.lookup key = store.lookup key) :
    store'.valueAt key = store.valueAt key := by
  rw [Store.valueAt, h, Store.valueAt]

theorem Pending.of_event (h : Pending windows store w candidates)
    (hcommitted : Store.Committed store t store') (hopen : w < closeAtOf windows t.key) :
    Pending windows store' w candidates where
  nodup := h.nodup
  present := by
    intro c hc
    have hne : c.key ≠ t.key := by
      intro heq
      have := h.due c hc
      rw [heq] at this
      omega
    rw [hcommitted.others _ hne]
    exact h.present c hc
  due := h.due
  complete := by
    intro key value hvalue hdue
    have hne : key ≠ t.key := by
      rintro rfl
      omega
    rw [valueAt_of_lookup (hcommitted.others key hne)] at hvalue
    exact h.complete key value hvalue hdue

theorem valueAt_of_delete (hcommitted : Store.Committed store c.txn store') :
    store'.valueAt c.key = none := by
  have hwritten : store'.lookup c.key = Store.mutated (store.lookup c.key) .delete :=
    hcommitted.written
  rw [Store.valueAt, hwritten]
  rfl

theorem Pending.of_delete (h : Pending windows store w (c :: candidates))
    (hcommitted : Store.Committed store c.txn store') : Pending windows store' w candidates where
  nodup := (nodup_cons.mp h.nodup).2
  present := by
    intro d hd
    have hne : d.key ≠ c.key := by
      intro heq
      apply (nodup_cons.mp h.nodup).1
      rw [← heq]
      exact List.mem_map_of_mem hd
    rw [hcommitted.others _ hne]
    exact h.present d (mem_cons_of_mem _ hd)
  due := fun d hd => h.due d (mem_cons_of_mem _ hd)
  complete := by
    intro key value hvalue hdue
    have hne : key ≠ c.key := by
      rintro rfl
      rw [valueAt_of_delete hcommitted] at hvalue
      cases hvalue
    rw [valueAt_of_lookup (hcommitted.others key hne)] at hvalue
    rcases mem_cons.mp (h.complete key value hvalue hdue) with heq | hmem
    · exact absurd heq hne
    · exact hmem

theorem Advance.Sound.of_event {advance : Advance} (h : advance.Sound windows store)
    (hcommitted : Store.Committed store t store')
    (hopen : ∀ w, store.watermark = some w → w < closeAtOf windows t.key) :
    advance.Sound windows store' := by
  cases advance with
  | idle => exact hcommitted.advancing.trans h
  | reserved w =>
    refine ⟨hcommitted.advancing.trans h.1, ?_⟩
    rw [hcommitted.watermark]
    exact h.2
  | closing w candidates closed =>
    refine ⟨hcommitted.advancing.trans h.1, hcommitted.watermark.trans h.2.1, ?_⟩
    exact h.2.2.of_event hcommitted (hopen w h.2.1)
  | failed w rc closed => exact ⟨hcommitted.advancing.trans h.1, h.2⟩

theorem eventTimeBounds_error (h : eventTimeBounds windows timestampNs = .error rc) :
    rc = .erange := by
  unfold eventTimeBounds at h
  dsimp only at h
  split at h
  · exact (Except.error.inj h).symm
  · cases h

theorem closeCandidate_spec (h : closeCandidate windows store c answers = (store', commit, rc)) :
    (commit ≠ some .ok ∧ rc ≠ .ok ∧ store' = store) ∨
      (commit = some .ok ∧ Store.Committed store c.txn store') := by
  unfold closeCandidate at h
  split at h
  · rename_i rc' hbounds
    cases h
    rw [eventTimeBounds_error hbounds]
    exact .inl ⟨by simp, by simp, rfl⟩
  split at h
  · cases h
    exact .inl ⟨by simp, by simp, rfl⟩
  split at h
  · rename_i hinit
    cases h
    exact .inl ⟨by simp, hinit, rfl⟩
  split at h
  · rename_i hcallback
    cases h
    exact .inl ⟨by simp, hcallback, rfl⟩
  rcases hclose : store.close c.txn answers.callback answers.mapped with ⟨store₁, rc₁⟩
  rw [hclose] at h
  cases h
  rcases Store.close_spec hclose with ⟨hne, hstore⟩ | ⟨rfl, hcommitted, -⟩
  · refine .inl ⟨fun heq => hne (some.inj heq), ?_, hstore⟩
    rw [if_neg hne]
    exact hne
  · exact .inr ⟨rfl, hcommitted⟩

theorem closeCandidate_commit {commit : Status}
    (hpresent : store.lookup c.key = some ⟨some c.value, c.revision⟩)
    (h : closeCandidate windows store c answers = (store', some commit, rc)) :
    commit ≠ .ebusy ∧ commit ≠ .enoent := by
  unfold closeCandidate at h
  split at h
  · simp at h
  split at h
  · simp at h
  split at h
  · simp at h
  split at h
  · simp at h
  rename_i hcallback
  cases h
  have hgate : store.gate c.txn = .ok := rfl
  have hkey : store.lookup c.txn.key = c.txn.observed := hpresent
  rw [Store.close, if_neg hcallback, if_neg (by simp [Candidate.txn])]
  have hdelete : store.commit c.txn answers.mapped = store.commitDelete c.txn answers.mapped := rfl
  rw [hdelete, Store.commitDelete, if_neg (by simp [hgate])]
  dsimp only
  rw [hkey, conflict_self, if_neg (by simp)]
  simp only [Candidate.txn]
  split
  · simp
  split <;> simp

end Commits

section Steps

/-- The step keeps the invariant, and the store moves as the outcome says. -/
abbrev Keeps (windows : WindowConfig) (s : WindowSystem) (out : WindowOutcome)
    (s' : WindowSystem) : Prop :=
  s'.Sound windows ∧ StoreEffect windows s.store out s'.store

variable {id watermarkNs : ℕ}

section

variable (h : s.Sound windows)

include h

theorem WindowSystem.Sound.setEvent (hevent : ∀ e, event = some e → e.Sound windows) :
    (s.setEvent id event).Sound windows where
  eventTime := h.eventTime
  keys := h.keys
  events := by
    intro i e he
    by_cases hi : i = id
    · subst hi
      exact hevent e (by simpa [WindowSystem.setEvent] using he)
    simp only [WindowSystem.setEvent, Function.update_of_ne hi] at he
    exact h.events i e he
  advance := h.advance

omit h in
theorem StoreEffect.of_same (hstore : s'.store = s.store)
    (hevent : ∀ key closeAtNs left, out ≠ .committed key closeAtNs .ok left)
    (hclose : ∀ candidate rc, out ≠ .closed candidate (some .ok) rc) :
    StoreEffect windows s.store out s'.store := by
  rw [hstore]
  exact .quiet hevent hclose (fun _ => rfl) fun w hw => ⟨w, hw, le_refl _⟩

theorem step_enter (hact : windowStep windows s (.enter id selected timestampNs) = some (s', out)) :
    Keeps windows s out s' := by
  rw [windowStep] at hact
  split at hact
  · cases hact
  split at hact
  · cases hact
    exact ⟨h, .of_same rfl (by simp) (by simp)⟩
  rename_i key closeAtNs hwindow
  split at hact
  · cases hact
    exact ⟨h, .of_same rfl (by simp) (by simp)⟩
  cases hact
  refine ⟨h.setEvent fun e he => ?_, .of_same rfl (by simp) (by simp)⟩
  cases he
  exact eventWindow_spec hwindow

theorem step_snapshot (hact : windowStep windows s (.snapshot id copied) = some (s', out)) :
    Keeps windows s out s' := by
  rw [windowStep] at hact
  split at hact
  · rename_i key closeAtNs hevent
    split at hact
    · cases hact
      refine ⟨h.setEvent fun e he => ?_, .of_same rfl (by simp) (by simp)⟩
      cases he
      obtain ⟨hkey, rfl⟩ := h.events id _ hevent
      exact ⟨hkey, rfl⟩
    cases hact
    exact ⟨h.setEvent (by simp), .of_same rfl (by simp) (by simp)⟩
  · cases hact

theorem step_call (hact : windowStep windows s (.call id c) = some (s', out)) :
    Keeps windows s out s' := by
  rw [windowStep] at hact
  split at hact
  · rename_i txn hevent
    cases hact
    refine ⟨h.setEvent fun e he => ?_, .of_same rfl (by simp) (by simp)⟩
    cases he
    obtain ⟨hkey, -, hcloseAt⟩ := call_frame txn s.store.config.maxValueSize c
    have hsound := h.events id _ hevent
    refine ⟨?_, ?_⟩
    · rw [hkey]
      exact hsound.1
    rw [hkey, hcloseAt]
    exact hsound.2
  · cases hact

theorem step_commit {callback : Status} {mapped : Bool}
    (hact : windowStep windows s (.commit id callback mapped) = some (s', out)) :
    Keeps windows s out s' := by
  rw [windowStep] at hact
  split at hact
  swap
  · cases hact
  rename_i txn hevent
  rcases hclose : s.store.close txn callback mapped with ⟨store', rc⟩
  rw [hclose] at hact
  cases hact
  obtain ⟨hkey, hcloseAt⟩ := h.events id _ hevent
  have hevents : ∀ i e, Function.update s.events id none i = some e → e.Sound windows :=
    (h.setEvent (by simp)).events
  rcases Store.close_spec hclose with ⟨hne, rfl⟩ | ⟨rfl, hcommitted, -⟩
  · refine ⟨⟨h.eventTime, h.keys, hevents, h.advance⟩, .of_same rfl ?_ (by simp)⟩
    intro key closeAtNs left heq
    exact hne (WindowOutcome.committed.inj heq).2.2.1
  have hopen : ∀ w, s.store.watermark = some w → w < closeAtOf windows txn.key :=
    fun w hw => lt_of_gate hcommitted.gate hcloseAt hw
  refine ⟨⟨hcommitted.windows.trans h.eventTime, ?_, hevents, ?_⟩, ?_⟩
  · exact wellKeyed_of_committed hcommitted h.keys hkey
  · exact h.advance.of_event hcommitted hopen
  rw [hcloseAt]
  exact .event hopen hcommitted.others hcommitted.watermark

theorem step_reserve (hact : windowStep windows s (.reserve watermarkNs) = some (s', out)) :
    Keeps windows s out s' := by
  rw [windowStep, WindowSystem.reserve] at hact
  split at hact
  · cases hact
    exact ⟨h, .of_same rfl (by simp) (by simp)⟩
  split at hact
  · cases hact
    exact ⟨h, .of_same rfl (by simp) (by simp)⟩
  rename_i hlower
  cases hact
  refine ⟨⟨h.eventTime, h.keys, h.events, rfl, fun w hw => ?_⟩, ?_⟩
  · have hw' : s.store.watermark = some w := hw
    rw [hw'] at hlower
    simpa using hlower
  · exact .quiet (by simp) (by simp) (fun _ => rfl) fun w hw => ⟨w, hw, le_refl _⟩

omit h in
theorem collectCandidates_error
    (h : collectCandidates windows watermarkNs room entries = .error rc) : rc ≠ .ok := by
  induction entries generalizing room with
  | nil => cases h
  | cons e entries ih =>
    obtain ⟨key, entry⟩ := e
    rw [collectCandidates] at h
    split at h
    · exact ih h
    split at h
    · cases h
      simp
    split at h
    · rename_i hbounds
      cases h
      rw [eventTimeBounds_error hbounds]
      simp
    split at h
    · exact ih h
    split at h
    · cases h
      simp
    split at h
    · rename_i hrest
      cases h
      exact ih hrest
    · cases h

omit h in
theorem pending_of_collect
    (h : collectCandidates windows watermarkNs room store.entries.entries = .ok candidates) :
    Pending windows store watermarkNs (candidates.insertionSort Candidate.Before) := by
  obtain ⟨hsub, hsound, hcomplete⟩ := collectCandidates_spec h
  have hperm := perm_insertionSort Candidate.Before candidates
  have hnodup : (candidates.map Candidate.key).Nodup := store.entries.keys_nodup.sublist hsub
  exact
    { nodup := (hperm.map Candidate.key).nodup_iff.mpr hnodup
      present := fun c hc => AList.mem_lookup_iff.mpr (hsound c (hperm.mem_iff.mp hc)).1
      due := fun c hc => (hsound c (hperm.mem_iff.mp hc)).2
      complete := by
        intro key value hvalue hdue
        obtain ⟨⟨cell, revision⟩, hlookup, hcell⟩ := bind_eq_some_iff.mp hvalue
        obtain rfl : cell = some value := hcell
        rw [(hperm.map Candidate.key).mem_iff]
        exact hcomplete key value revision (AList.mem_lookup_iff.mp hlookup) hdue }

theorem step_publish (hact : windowStep windows s (.publish candidatesInit room) = some (s', out)) :
    Keeps windows s out s' := by
  rw [windowStep] at hact
  split at hact
  swap
  · cases hact
  rename_i watermarkNs hadvance
  cases hact
  have hreserved : Advance.Sound windows s.store (.reserved watermarkNs) := by
    rw [← hadvance]
    exact h.advance
  rw [WindowSystem.publish]
  split
  · rename_i hinit
    exact ⟨⟨h.eventTime, h.keys, h.events, hreserved.1, hinit⟩, .of_same rfl (by simp) (by simp)⟩
  refine ⟨⟨h.eventTime, h.keys, h.events, ?_⟩, .quiet (by simp) (by simp) (fun _ => rfl) ?_⟩
  · dsimp only
    split
    · rename_i hcandidates
      exact ⟨hreserved.1, collectCandidates_error hcandidates⟩
    rename_i candidates hcandidates
    obtain ⟨hnodup, hpresent, hdue, hcomplete⟩ := pending_of_collect hcandidates
    exact ⟨hreserved.1, rfl, hnodup, hpresent, hdue, hcomplete⟩
  · exact fun w hw => ⟨watermarkNs, rfl, hreserved.2 w hw⟩

theorem step_close (hact : windowStep windows s (.close answers) = some (s', out)) :
    Keeps windows s out s' := by
  rw [windowStep] at hact
  split at hact
  swap
  · cases hact
  rename_i watermarkNs candidate candidates closed hadvance
  obtain ⟨hadvancing, hwatermark, hpending⟩ :
      Advance.Sound windows s.store (.closing watermarkNs (candidate :: candidates) closed) := by
    rw [← hadvance]
    exact h.advance
  have hpresent := hpending.present candidate mem_cons_self
  rcases hr : closeCandidate windows s.store candidate answers with ⟨store', commit, rc⟩
  rw [WindowSystem.closeNext, hr] at hact
  cases hact
  rcases closeCandidate_spec hr with ⟨hne, hrc, rfl⟩ | ⟨rfl, hcommitted⟩
  · refine ⟨⟨h.eventTime, h.keys, h.events, ?_⟩, .of_same rfl (by simp) ?_⟩
    · simp only [if_neg hrc]
      exact ⟨hadvancing, hrc⟩
    intro c rc' heq
    exact hne (WindowOutcome.closed.inj heq).2.1
  refine ⟨⟨hcommitted.windows.trans h.eventTime, ?_, h.events, ?_⟩, ?_⟩
  · exact wellKeyed_of_committed hcommitted h.keys (h.keys _ _ hpresent)
  · dsimp only
    split
    · exact ⟨hcommitted.advancing.trans hadvancing, hcommitted.watermark.trans hwatermark,
        hpending.of_delete hcommitted⟩
    rename_i hrc
    exact ⟨hcommitted.advancing.trans hadvancing, hrc⟩
  refine .close hwatermark (hpending.due candidate mem_cons_self) ?_
    (valueAt_of_delete hcommitted) hcommitted.others hcommitted.watermark
  rw [Store.valueAt, hpresent]
  rfl

theorem step_finish (hact : windowStep windows s .finish = some (s', out)) :
    Keeps windows s out s' := by
  have hquiet : ∀ watermarkNs rc closed, StoreEffect windows s.store
      (.advanced watermarkNs rc closed) { s.store with watermarkAdvancing := false } :=
    fun _ _ _ => .quiet (by simp) (by simp) (fun _ => rfl) fun w hw => ⟨w, hw, le_refl _⟩
  rw [windowStep] at hact
  split at hact
  · cases hact
    exact ⟨⟨h.eventTime, h.keys, h.events, rfl⟩, hquiet _ _ _⟩
  · cases hact
    exact ⟨⟨h.eventTime, h.keys, h.events, rfl⟩, hquiet _ _ _⟩
  · cases hact

theorem WindowSystem.Sound.windowStep (hact : windowStep windows s op = some (s', out)) :
    Keeps windows s out s' := by
  cases op with
  | enter id selected timestampNs => exact step_enter h hact
  | snapshot id copied => exact step_snapshot h hact
  | call id c => exact step_call h hact
  | commit id callback mapped => exact step_commit h hact
  | reserve watermarkNs => exact step_reserve h hact
  | publish candidatesInit room => exact step_publish h hact
  | close answers => exact step_close h hact
  | finish => exact step_finish h hact

theorem WindowSystem.Sound.windowAct_eq (op : WindowOperation) :
    windowAct s op = Keyed.windowStep windows s op := by
  simp only [windowAct, h.eventTime]

theorem WindowSystem.Sound.step (hact : windowAct s op = some (s', out)) : Keeps windows s out s' :=
  h.windowStep ((h.windowAct_eq op).symm.trans hact)

theorem WindowSystem.Sound.advanced {closed : ℕ}
    (hact : windowAct s .finish = some (s', .advanced watermarkNs .ok closed)) :
    s'.store.watermark = some watermarkNs ∧
      ∀ key value, s'.store.valueAt key = some value → watermarkNs < closeAtOf windows key := by
  have hadvance := h.advance
  rw [h.windowAct_eq, Keyed.windowStep] at hact
  split at hact
  · rename_i w closed' heq
    rw [heq] at hadvance
    obtain ⟨rfl, hout⟩ := Prod.mk.inj (some.inj hact)
    obtain ⟨rfl, -⟩ := WindowOutcome.advanced.inj hout
    refine ⟨hadvance.2.1, fun key value hvalue => ?_⟩
    by_contra hdue
    have := hadvance.2.2.complete key value hvalue (Nat.le_of_not_lt hdue)
    simp at this
  · rename_i w rc closed' heq
    rw [heq] at hadvance
    obtain ⟨-, hout⟩ := Prod.mk.inj (some.inj hact)
    exact absurd (WindowOutcome.advanced.inj hout).2.1 hadvance.2
  · cases hact

theorem WindowSystem.Sound.closed
    (hact : windowAct s (.close answers) = some (s', .closed candidate commit rc)) :
    s.store.lookup candidate.key = some ⟨some candidate.value, candidate.revision⟩ ∧
      closeCandidate windows s.store candidate answers = (s'.store, commit, rc) := by
  have hadvance := h.advance
  rw [h.windowAct_eq, Keyed.windowStep] at hact
  split at hact
  · rename_i w candidate' candidates closed heq
    rw [heq] at hadvance
    obtain ⟨rfl, hout⟩ := Prod.mk.inj (some.inj hact)
    obtain ⟨rfl, rfl, rfl⟩ := WindowOutcome.closed.inj hout
    exact ⟨hadvance.2.2.present _ mem_cons_self, rfl⟩
  · cases hact

end

end Steps

section Runs

variable {tr : List (WindowOperation × WindowOutcome)}

def EventCommits (key : Bytes) (e : WindowOperation × WindowOutcome) : Prop :=
  ∃ closeAtNs left, e.2 = .committed key closeAtNs .ok left

def CloseCommits (key : Bytes) (e : WindowOperation × WindowOutcome) : Prop :=
  ∃ candidate rc, e.2 = .closed candidate (some .ok) rc ∧ candidate.key = key

def LastLeft (tr : List (WindowOperation × WindowOutcome)) (key : Bytes) (left : Option Bytes) :
    Prop :=
  ∃ tr₁ op closeAtNs tr₂, tr = tr₁ ++ (op, .committed key closeAtNs .ok left) :: tr₂ ∧
    ∀ e ∈ tr₂, ¬ EventCommits key e

def Shut (windows : WindowConfig) (key : Bytes) (store : Store) : Prop :=
  (∃ w, store.watermark = some w ∧ closeAtOf windows key ≤ w) ∧ store.valueAt key = none

def Settled (windows : WindowConfig) (watermarkNs : ℕ) (store : Store) : Prop :=
  (∃ w, store.watermark = some w ∧ watermarkNs ≤ w) ∧
    ∀ key value, store.valueAt key = some value → watermarkNs < closeAtOf windows key

section

variable (h : StoreEffect windows store out store')

include h

theorem StoreEffect.watermark (hw : store.watermark = some w) :
    ∃ w', store'.watermark = some w' ∧ w ≤ w' := by
  cases h with
  | quiet _ _ _ hwatermark => exact hwatermark w hw
  | event _ _ hwatermark | close _ _ _ _ _ hwatermark => exact ⟨w, hwatermark.trans hw, le_refl _⟩

theorem StoreEffect.watermark_le {n : ℕ} (hn : ∃ w, store.watermark = some w ∧ n ≤ w) :
    ∃ w, store'.watermark = some w ∧ n ≤ w := by
  obtain ⟨w, hw, hle⟩ := hn
  obtain ⟨w', hw', hle'⟩ := h.watermark hw
  exact ⟨w', hw', hle.trans hle'⟩

theorem StoreEffect.shut (hshut : Shut windows key store) (op : WindowOperation) :
    Shut windows key store' ∧ ¬ EventCommits key (op, out) ∧ ¬ CloseCommits key (op, out) := by
  have hwatermark := h.watermark_le hshut.1
  cases h with
  | quiet hevent hclose hlookup _ =>
    refine ⟨⟨hwatermark, (valueAt_of_lookup (hlookup key)).trans hshut.2⟩, ?_, ?_⟩
    · rintro ⟨closeAtNs, left, heq⟩
      exact hevent key closeAtNs left heq
    rintro ⟨candidate, rc, heq, -⟩
    exact hclose candidate rc heq
  | @event key' _ hopen hothers _ =>
    have hne : key ≠ key' := by
      rintro rfl
      obtain ⟨w, hw, hle⟩ := hshut.1
      have := hopen w hw
      omega
    refine ⟨⟨hwatermark, (valueAt_of_lookup (hothers key hne)).trans hshut.2⟩, ?_, ?_⟩
    · rintro ⟨closeAtNs, left, heq⟩
      exact hne (WindowOutcome.committed.inj heq).1.symm
    rintro ⟨candidate, rc, heq, -⟩
    cases heq
  | @close candidate _ _ _ _ _ hpresent _ hothers _ =>
    have hne : key ≠ candidate.key := by
      rintro rfl
      rw [hshut.2] at hpresent
      cases hpresent
    refine ⟨⟨hwatermark, (valueAt_of_lookup (hothers key hne)).trans hshut.2⟩, ?_, ?_⟩
    · rintro ⟨closeAtNs, left, heq⟩
      cases heq
    rintro ⟨candidate', rc, heq, hkey⟩
    rw [← (WindowOutcome.closed.inj heq).1] at hkey
    exact hne hkey.symm

theorem StoreEffect.settled {n : ℕ} (hsettled : Settled windows n store) :
    Settled windows n store' := by
  refine ⟨h.watermark_le hsettled.1, fun key value hvalue => ?_⟩
  cases h with
  | quiet _ _ hlookup _ =>
    rw [valueAt_of_lookup (hlookup key)] at hvalue
    exact hsettled.2 key value hvalue
  | @event key' _ hopen hothers _ =>
    by_cases heq : key = key'
    · obtain ⟨w, hw, hle⟩ := hsettled.1
      rw [heq]
      exact hle.trans_lt (hopen w hw)
    rw [valueAt_of_lookup (hothers key heq)] at hvalue
    exact hsettled.2 key value hvalue
  | @close candidate _ _ _ _ _ _ hdeleted hothers _ =>
    by_cases heq : key = candidate.key
    · rw [heq, hdeleted] at hvalue
      cases hvalue
    rw [valueAt_of_lookup (hothers key heq)] at hvalue
    exact hsettled.2 key value hvalue

omit h in
theorem LastLeft.snoc (h : LastLeft tr key left) (he : ¬ EventCommits key e) :
    LastLeft (tr ++ [e]) key left := by
  obtain ⟨tr₁, op, closeAtNs, tr₂, rfl, hlast⟩ := h
  exact ⟨tr₁, op, closeAtNs, tr₂ ++ [e], by simp,
    forall_mem_append.mpr ⟨hlast, forall_mem_singleton.mpr he⟩⟩

theorem StoreEffect.lastLeft (op : WindowOperation)
    (hleft : ∀ key value, store.valueAt key = some value → LastLeft tr key (some value)) :
    ∀ key value, store'.valueAt key = some value →
      LastLeft (tr ++ [(op, out)]) key (some value) := by
  intro key value hvalue
  cases h with
  | quiet hevent _ hlookup _ =>
    rw [valueAt_of_lookup (hlookup key)] at hvalue
    refine (hleft key value hvalue).snoc ?_
    rintro ⟨closeAtNs, left, heq⟩
    exact hevent key closeAtNs left heq
  | @event key' _ _ hothers _ =>
    by_cases heq : key = key'
    · subst heq
      rw [hvalue]
      exact ⟨tr, op, _, [], rfl, by simp⟩
    rw [valueAt_of_lookup (hothers key heq)] at hvalue
    refine (hleft key value hvalue).snoc ?_
    rintro ⟨closeAtNs, left, hout⟩
    exact heq (WindowOutcome.committed.inj hout).1.symm
  | @close candidate _ _ _ _ _ _ hdeleted hothers _ =>
    by_cases heq : key = candidate.key
    · rw [heq, hdeleted] at hvalue
      cases hvalue
    rw [valueAt_of_lookup (hothers key heq)] at hvalue
    refine (hleft key value hvalue).snoc ?_
    rintro ⟨closeAtNs, left, hout⟩
    cases hout

end

theorem sound_init {config : WindowStoreConfig} (h : windowStoreCreate config = some store) :
    (∃ windows, (WindowSystem.init store).Sound windows) ∧ ∀ key, store.lookup key = none := by
  unfold windowStoreCreate at h
  split at h
  · cases h
  obtain ⟨store₀, hcreate, rfl⟩ := map_eq_some_iff.mp h
  unfold storeCreate at hcreate
  split at hcreate
  swap
  · cases hcreate
  cases hcreate
  have hempty : ∀ key, AList.lookup key (∅ : AList fun _ : Bytes => Entry) = none :=
    AList.lookup_empty
  refine ⟨⟨_, rfl, ?_, ?_, rfl⟩, hempty⟩
  · intro key entry hlookup
    have := (hempty key).symm.trans hlookup
    cases this
  intro id event hevent
  cases hevent

theorem sound_of_run (h₀ : s.Sound windows) (h : Run (Acts windowAct) s tr s') : s'.Sound windows :=
  h.invariant h₀ fun _ _ _ hs hact => (hs.step hact).1

theorem along_run {P : Store → Prop} (h₀ : s.Sound windows) (hP : P s.store)
    (h : Run (Acts windowAct) s tr s')
    (hkeep : ∀ store out store', StoreEffect windows store out store' → P store → P store') :
    P s'.store := by
  have hboth : s'.Sound windows ∧ P s'.store := by
    refine h.invariant (P := fun s => s.Sound windows ∧ P s.store) ⟨h₀, hP⟩ ?_
    rintro s e s' ⟨hs, hPs⟩ hact
    obtain ⟨hs', heffect⟩ := hs.step hact
    exact ⟨hs', hkeep _ _ _ heffect hPs⟩
  exact hboth.2

theorem Shut.silent (h₀ : s.Sound windows) (hshut : Shut windows key s.store)
    (h : Run (Acts windowAct) s tr s') : ∀ e ∈ tr, ¬ EventCommits key e ∧ ¬ CloseCommits key e := by
  have hall : (s'.Sound windows ∧ Shut windows key s'.store) ∧
      ∀ e ∈ tr, ¬ EventCommits key e ∧ ¬ CloseCommits key e := by
    refine h.invariant_trace (P := fun tr s => (s.Sound windows ∧ Shut windows key s.store) ∧
      ∀ e ∈ tr, ¬ EventCommits key e ∧ ¬ CloseCommits key e) ⟨⟨h₀, hshut⟩, by simp⟩ ?_
    rintro tr s ⟨op, out⟩ s' ⟨⟨hs, hshut⟩, hsilent⟩ hact
    obtain ⟨hs', heffect⟩ := hs.step hact
    obtain ⟨hshut', hnot⟩ := heffect.shut hshut op
    exact ⟨⟨hs', hshut'⟩, forall_mem_append.mpr ⟨hsilent, forall_mem_singleton.mpr hnot⟩⟩
  exact hall.2

theorem lastLeft_of_run (hinit : (WindowSystem.init store).Sound windows)
    (hempty : ∀ key, store.lookup key = none)
    (h : Run (Acts windowAct) (WindowSystem.init store) tr s) :
    ∀ key value, s.store.valueAt key = some value → LastLeft tr key (some value) := by
  have hall : s.Sound windows ∧
      ∀ key value, s.store.valueAt key = some value → LastLeft tr key (some value) := by
    refine h.invariant_trace (P := fun tr s => s.Sound windows ∧
      ∀ key value, s.store.valueAt key = some value → LastLeft tr key (some value))
      ⟨hinit, fun key value hvalue => ?_⟩ ?_
    · have hnone : store.valueAt key = none := by rw [Store.valueAt, hempty, bind_none]
      exact absurd (hnone.symm.trans hvalue) (by simp)
    rintro tr s ⟨op, out⟩ s' ⟨hs, hleft⟩ hact
    obtain ⟨hs', heffect⟩ := hs.step hact
    exact ⟨hs', heffect.lastLeft op hleft⟩
  exact hall.2

end Runs

/-- Event-time windows close once and for ever. In every run: the watermark never decreases; an
event commits only to a window that closes after it; nothing commits to a window after its close
commit; a close that commits was given the value that the last event left; the delete commit of a
candidate is never refused as busy or missing; and after a successful advance no window that it had
to close is present. -/
theorem windows_close_once {config : WindowStoreConfig} {store : Store} {windows : WindowConfig}
    {tr : List (WindowOperation × WindowOutcome)} {s : WindowSystem}
    (hcreate : windowStoreCreate config = some store) (hwindows : store.windows = some windows)
    (h : Run (Acts windowAct) (WindowSystem.init store) tr s) :
    (∀ tr' s' w, Run (Acts windowAct) s tr' s' → s.store.watermark = some w →
        ∃ w', s'.store.watermark = some w' ∧ w ≤ w') ∧
      (∀ op s' key closeAtNs left w, windowAct s op = some (s', .committed key closeAtNs .ok left) →
        s.store.watermark = some w → closeAtNs = closeAtOf windows key ∧ w < closeAtNs) ∧
      (∀ tr₁ e tr₂ key, tr = tr₁ ++ e :: tr₂ → CloseCommits key e →
        ∀ e' ∈ tr₂, ¬ EventCommits key e' ∧ ¬ CloseCommits key e') ∧
      (∀ tr₁ op candidate rc tr₂, tr = tr₁ ++ (op, .closed candidate (some .ok) rc) :: tr₂ →
        LastLeft tr₁ candidate.key (some candidate.value)) ∧
      (∀ answers s' candidate commit rc,
        windowAct s (.close answers) = some (s', .closed candidate (some commit) rc) →
        commit ≠ .ebusy ∧ commit ≠ .enoent) ∧
      (∀ tr₁ watermarkNs closed tr₂,
        tr = tr₁ ++ (.finish, .advanced watermarkNs .ok closed) :: tr₂ →
        ∀ key value, s.store.valueAt key = some value →
          WellKeyed windows key ∧ watermarkNs < closeAtOf windows key) := by
  obtain ⟨⟨windows', hinit⟩, hempty⟩ := sound_init hcreate
  obtain rfl := some.inj (hinit.eventTime.symm.trans hwindows)
  have hs := sound_of_run hinit h
  refine ⟨?_, ?_, ?_, ?_, ?_, ?_⟩
  · intro tr' s' w hrun hw
    exact along_run hs
      ⟨w, hw, le_refl _⟩ hrun fun _ _ _ heffect hle => heffect.watermark_le hle
  · intro op s' key closeAtNs left w hact hw
    cases (hs.step hact).2 with
    | quiet hevent _ _ _ => exact absurd rfl (hevent key closeAtNs left)
    | event hopen _ _ => exact ⟨rfl, hopen w hw⟩
  · rintro tr₁ ⟨op, out⟩ tr₂ key rfl ⟨candidate, rc, rfl, rfl⟩
    obtain ⟨s₁, hrun, hrest⟩ := h.split
    obtain ⟨s₂, hact, hrest⟩ := Run.cons_iff.mp hrest
    obtain ⟨hs₂, heffect⟩ := (sound_of_run hinit hrun).step hact
    cases heffect with
    | quiet _ hclose _ _ => exact absurd rfl (hclose candidate rc)
    | close hcurrent hdue _ hdeleted _ hwatermark =>
      have hshut : Shut _ candidate.key s₂.store := ⟨⟨_, hwatermark.trans hcurrent, hdue⟩, hdeleted⟩
      exact hshut.silent hs₂ hrest
  · rintro tr₁ op candidate rc tr₂ rfl
    obtain ⟨s₁, hrun, hrest⟩ := h.split
    obtain ⟨s₂, hact, -⟩ := Run.cons_iff.mp hrest
    cases ((sound_of_run hinit hrun).step hact).2 with
    | quiet _ hclose _ _ => exact absurd rfl (hclose candidate rc)
    | close _ _ hpresent _ _ _ => exact lastLeft_of_run hinit hempty hrun _ _ hpresent
  · intro answers s' candidate commit rc hact
    obtain ⟨hpresent, hclose⟩ := hs.closed hact
    exact closeCandidate_commit hpresent hclose
  rintro tr₁ watermarkNs closed tr₂ rfl key value hvalue
  obtain ⟨s₁, hrun, hrest⟩ := h.split
  obtain ⟨s₂, hact, hrest⟩ := Run.cons_iff.mp hrest
  have hs₁ := sound_of_run hinit hrun
  obtain ⟨hwatermark, hsettled⟩ := hs₁.advanced hact
  have hfinal := along_run (hs₁.step hact).1
    ⟨⟨_, hwatermark, le_refl _⟩, hsettled⟩ hrest fun _ _ _ heffect => heffect.settled
  obtain ⟨entry, hlookup, -⟩ := bind_eq_some_iff.mp hvalue
  exact ⟨hs.keys key entry hlookup, hfinal.2 key value hvalue⟩

/-- While a second event of the window from 10 to 20 is in progress, an advance to 25 publishes its
watermark. A first close fails, and an advance to the same watermark closes the window. -/
def crossedWatermark : List WindowOperation :=
  [.enter 0 (.ok [7]) 12, .snapshot 0 true, .call 0 (.put [1] true), .commit 0 .ok true,
    .enter 1 (.ok [7]) 13, .snapshot 1 true, .call 1 (.put [2] true),
    .reserve 25, .publish .ok 8, .close ⟨.ok, .einval, true, .ok⟩, .finish, .commit 1 .ok true,
    .reserve 25, .publish .ok 8, .close ⟨.ok, .ok, true, .ok⟩, .finish]

/-- The second event does not commit, and the window is closed with the value of the first. -/
theorem windows_close_once_crossedWatermark :
    ∃ store windows s outs tr₁ op tr₂,
      windowStoreCreate ⟨4, 16, 16, 64, 10, 5⟩ = some store ∧ store.windows = some windows ∧
        exec windowAct (WindowSystem.init store) crossedWatermark = some (s, outs) ∧
        outs[11]? = some (.committed (eventTimeKey 10 [7]) 25 .etimedout (some [1])) ∧
        crossedWatermark.zip outs =
          tr₁ ++ (op, .closed ⟨eventTimeKey 10 [7], [1], 1, 10⟩ (some .ok) .ok) :: tr₂ ∧
        LastLeft tr₁ (eventTimeKey 10 [7]) (some [1]) := by
  refine ⟨_, _, _, _, _, _, _, and_of_imp rfl fun hcreate => and_of_imp rfl fun hwindows =>
    and_of_imp rfl fun hexec => ⟨rfl, and_of_imp (take_append_drop 14 _).symm fun htrace => ?_⟩⟩
  exact (windows_close_once hcreate hwindows (run_of_exec hexec)).2.2.2.1 _ _ _ _ _ htrace

end TurboFlow.Keyed
