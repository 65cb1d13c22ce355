import TurboFlow.Reorder.Publication

/-!
# The cleanup of a publication

A refused publication keeps its number of the flow in the array entry of the refusing boundary, and
its cleanup cancels that number there, although the boundary may issue it to another publication.
The cancel has no effect if the boundary has already passed the number.
-/

namespace TurboFlow.Reorder

open Transition List Option Function TurboFlow.Reorder.Publication

variable {n q : ℕ} {pub' : Publication} {timedOut : Bool}

variable {t t' : Tickets} {pub : Publication} {stage : ℕ}

namespace Tickets

/-- A change of a boundary that concerns the number `n` only. -/
structure Touches (t t' : Tickets) (n : ℕ) : Prop where
  next_le : t.boundary.next ≤ t'.boundary.next
  entered : t'.entered ⊆ insert n t.entered
  holders : t'.holders ⊆ insert n t.holders
  waiters : t.waiters ⊆ insert n t'.waiters
  withdrawn_subset : t.withdrawn ⊆ t'.withdrawn
  withdrawn : t'.withdrawn ⊆ insert n t.withdrawn
  admissions : t.admissions ⊆ t'.admissions

theorem touches_refl (t : Tickets) (n : ℕ) : Touches t t n :=
  ⟨le_refl _, Finset.subset_insert _ _, Finset.subset_insert _ _, Finset.subset_insert _ _,
    subset_rfl, Finset.subset_insert _ _, Subset.refl _⟩

theorem touches_enter {out : Outcome} (hact : t.act (.enter n) = some (t', out)) :
    Touches t t' n ∧ t'.withdrawn = t.withdrawn ∧
      ((∃ rc, out = .entered n rc ∧ (rc = .ok → n ∈ t'.admissions) ∧
          (rc ≠ .ok → t'.holders = t.holders)) ∨
        (out = .waits ∧ n ∈ t'.waiters ∧ t'.holders = t.holders)) := by
  rcases t.boundary.enter_cases n with ⟨rc, heq, hrc, -⟩ | ⟨heq, -⟩ | ⟨heq, -⟩
  · obtain ⟨rfl, rfl⟩ := by simpa [act, heq, finishEnter, hrc] using hact
    refine ⟨{ touches_refl t n with entered := subset_rfl }, rfl, ?_⟩
    exact .inl ⟨rc, rfl, fun h => absurd h hrc, fun _ => rfl⟩
  · obtain ⟨rfl, rfl⟩ := by simpa [act, heq] using hact
    refine ⟨{ touches_refl t n with entered := subset_rfl, waiters := ?_ }, rfl, ?_⟩
    · exact (Finset.subset_insert _ _).trans (Finset.subset_insert _ _)
    · exact .inr ⟨rfl, Finset.mem_insert_self _ _, rfl⟩
  obtain ⟨rfl, rfl⟩ := by simpa [act, heq, finishEnter] using hact
  refine ⟨{ touches_refl t n with
    entered := subset_rfl, holders := subset_rfl, admissions := ?_ }, rfl, ?_⟩
  · exact subset_append_left _ _
  · exact .inl ⟨.ok, rfl, by simp, fun h => absurd rfl h⟩

theorem touches_resume {out : Outcome} (hact : t.act (.resume n timedOut) = some (t', out)) :
    Touches t t' n ∧ t'.withdrawn = t.withdrawn ∧
      ∃ rc, out = .entered n rc ∧ (rc = .ok → n ∈ t'.admissions) ∧
        (rc ≠ .ok → t'.holders = t.holders) := by
  obtain ⟨hwaits, b, rc, hres, rfl, rfl⟩ := act_resume hact
  have hrest : t.waiters ⊆ insert n (t.waiters.erase n) := by
    rw [Finset.insert_erase hwaits]
  unfold finishEnter
  rcases Boundary.resume_cases hres with ⟨hrc, rfl⟩ | ⟨rfl, rfl, -⟩
  · rw [if_neg hrc]
    refine ⟨{ touches_refl t n with waiters := hrest }, rfl, ?_⟩
    exact ⟨rc, rfl, fun h => absurd h hrc, fun _ => rfl⟩
  refine ⟨{ touches_refl t n with
    waiters := hrest, holders := subset_rfl, admissions := ?_ }, rfl, ?_⟩
  · exact subset_append_left _ _
  · exact ⟨.ok, rfl, by simp, fun h => absurd rfl h⟩

theorem touches_leave (hact : t.act (.leave n) = some (t', out)) :
    Touches t t' n ∧ t'.withdrawn = t.withdrawn ∧ n ∉ t'.holders := by
  cases hact
  have hnext := (t.boundary.sameCounts_leave n).next_le
  refine ⟨{ touches_refl t n with next_le := hnext, holders := ?_ }, rfl, ?_⟩
  · exact (Finset.erase_subset _ _).trans (Finset.subset_insert _ _)
  · simp

theorem touches_cancelNumber (t : Tickets) (n : ℕ) : Touches t (t.cancelNumber n) n := by
  refine
    { touches_refl t n with
      next_le := (t.boundary.sameCounts_cancel n).next_le
      withdrawn_subset := ?_
      withdrawn := ?_ }
  · unfold cancelNumber
    split
    · exact Finset.subset_insert _ _
    · exact subset_rfl
  unfold cancelNumber
  split
  · exact subset_rfl
  · exact Finset.subset_insert _ _

theorem cancelNumber_of_lt (h : n < t.boundary.next) : t.cancelNumber n = t := by
  simp [cancelNumber, Boundary.cancel, Nat.not_le.mpr h]

theorem passed_of_cancelNumber (t : Tickets) (n : ℕ) :
    n < (t.cancelNumber n).boundary.next ∨ n ∈ (t.cancelNumber n).withdrawn := by
  rcases Nat.lt_or_ge n t.boundary.next with hlt | hge
  · exact .inl (by rwa [cancelNumber_of_lt hlt])
  · exact .inr (by simp [cancelNumber, hge])

theorem ordered_cancelNumber (ho : t.Ordered) (hq : t.Queued) (hreserved : t.Reserved n)
    (hnot : n ∉ t.holders) : (t.cancelNumber n).Ordered ∧ (t.cancelNumber n).Queued := by
  rcases Nat.lt_or_ge n t.boundary.next with hlt | hge
  · rw [cancelNumber_of_lt hlt]
    exact ⟨ho, hq⟩
  have hact : t.act (.cancel n) = some (t.cancelNumber n, .done) := by
    simp [act, cancelNumber, hge]
  exact step hact ⟨hreserved, hnot⟩ ho hq

end Tickets

namespace Publication

/-- The publication still has its number `q` for the stage: neither an emission nor the cleanup
released it. -/
def Holds (pub : Publication) (stage q : ℕ) : Prop :=
  pub.stageSequences stage = q ∧ pub.phase ≠ .finished ∧
    ∀ stages, pub.phase = .cleanup stages → stage ∈ stages

@[simp] def Ended (pub : Publication) : Prop :=
  pub.phase = .finished ∨ ∃ stages, pub.phase = .cleanup stages

structure Keeps (pub : Publication) (stage : ℕ) (t : Tickets) (q : ℕ) : Prop where
  entered : q ∈ t.entered → stage ∈ pub.dispatched
  inside : q ∈ t.holders → pub.phase = .inside stage ∧ pub.stageSequences stage = q
  released : q ∈ t.withdrawn → ¬ pub.Holds stage q
  passed : ¬ pub.Holds stage q → q < t.boundary.next ∨ q ∈ t.withdrawn

theorem holds_of_not_ended (h : ¬ pub.Ended) :
    pub.Holds stage q ↔ pub.stageSequences stage = q := by
  refine ⟨And.left, fun hq => ⟨hq, fun hfin => h (.inl hfin), fun stages hphase => ?_⟩⟩
  exact absurd (.inr ⟨stages, hphase⟩) h

theorem Keeps.frame {t t' : Tickets} (h : pub.Keeps stage t q) (ht : Tickets.Touches t t' n)
    (hne : q ≠ n) : pub.Keeps stage t' q where
  entered hq := h.entered ((Finset.mem_insert.mp (ht.entered hq)).resolve_left hne)
  inside hq := h.inside ((Finset.mem_insert.mp (ht.holders hq)).resolve_left hne)
  released hq := h.released ((Finset.mem_insert.mp (ht.withdrawn hq)).resolve_left hne)
  passed hnot := (h.passed hnot).imp (fun hlt => Nat.lt_of_lt_of_le hlt ht.next_le)
    (fun hq => ht.withdrawn_subset hq)

theorem Keeps.transfer {t : Tickets} (h : pub.Keeps stage t q)
    (hdispatched : pub.dispatched ⊆ pub'.dispatched) (houtside : pub.phase ≠ .inside stage)
    (hholds : pub'.Holds stage q ↔ pub.Holds stage q) : pub'.Keeps stage t q where
  entered hq := hdispatched (h.entered hq)
  inside hq := absurd (h.inside hq).1 houtside
  released hq := hholds.not.mpr (h.released hq)
  passed hnot := h.passed (hholds.not.mp hnot)

end Publication

namespace Flow

variable {s s' : Flow} {p : ℕ}

structure Orderly (s : Flow) (p : ℕ) (pub : Publication) : Prop where
  positive : 0 < pub.sequence
  number : ∀ {stage t}, s.boundary stage = some t → pub.stageSequences stage ≠ 0 →
    s.owner stage (pub.stageSequences stage) = some p ∨ pub.refused = some stage
  refused : ∀ {stage}, pub.refused = some stage →
    pub.Ended ∧ pub.stageSequences stage = pub.sequence ∧ ∀ q, s.owner stage q ≠ some p
  reserving : ∀ {stages}, pub.phase = .reserving stages →
    stages.Nodup ∧ ∀ stage ∈ stages, ∀ q, s.owner stage q ≠ some p
  cleanup : ∀ {stages}, pub.phase = .cleanup stages → stages.Nodup
  inside : ∀ {stage t}, pub.phase = .inside stage → s.boundary stage = some t →
    pub.stageSequences stage ∈ t.admissions
  waiting : ∀ {stage t}, pub.phase = .waiting stage → s.boundary stage = some t →
    pub.stageSequences stage ∈ t.waiters
  keeps : ∀ {stage t q}, s.boundary stage = some t → s.owner stage q = some p →
    pub.Keeps stage t q

/-- The invariant of a flow: its boundaries are in order, the issued numbers are owned, and every
publication is orderly. -/
structure Sound (s : Flow) : Prop where
  within : ∀ {stage t}, s.boundary stage = some t → stage < s.stageCount
  tickets : ∀ {stage t}, s.boundary stage = some t → t.Ordered ∧ t.Queued
  owned : ∀ {stage t q}, s.boundary stage = some t → t.Reserved q → ∃ p, s.owner stage q = some p
  issued : ∀ {stage q p}, s.owner stage q = some p →
    (∃ t, s.boundary stage = some t ∧ t.Reserved q) ∧ ∃ pub, s.publication p = some pub
  orderly : ∀ {p pub}, s.publication p = some pub → s.Orderly p pub

theorem sound_start (stageCount number : ℕ) (capacity : ℕ → ℕ) :
    (start stageCount number capacity).Sound where
  within := by
    intro stage t h
    obtain ⟨hlt, -⟩ := by simpa [start] using h
    exact hlt.1
  tickets := by
    intro stage t h
    obtain ⟨-, rfl⟩ := by simpa [start] using h
    exact ⟨Tickets.ordered_start _, Tickets.queued_start _⟩
  owned := by
    intro stage t q h hq
    obtain ⟨-, rfl⟩ := by simpa [start] using h
    exact absurd (hq.1.trans hq.2) (by simp [Tickets.start, Boundary.start])
  issued := by simp [start]
  orderly := by simp [start]

theorem Orderly.congr (h : s.Orderly p pub) (hboundary : s'.boundary = s.boundary)
    (howner : s'.owner = s.owner) : s'.Orderly p pub := by
  obtain ⟨hpositive, hnumber, hrefused, hreserving, hcleanup, hinside, hwaiting, hkeeps⟩ := h
  exact ⟨hpositive, by rwa [hboundary, howner], by rwa [howner], by rwa [howner], hcleanup,
    by rwa [hboundary], by rwa [hboundary], by rwa [hboundary, howner]⟩

theorem Orderly.not_refused (h : s.Orderly p pub) (hended : ¬ pub.Ended) : pub.refused = none := by
  rcases hrefused : pub.refused with _ | stage
  · rfl
  · exact absurd (h.refused hrefused).1 hended

theorem Orderly.owner (h : s.Orderly p pub) (hended : ¬ pub.Ended)
    (hb : s.boundary stage = some t) (hne : pub.stageSequences stage ≠ 0) :
    s.owner stage (pub.stageSequences stage) = some p := by
  refine (h.number hb hne).resolve_right ?_
  simp [h.not_refused hended]

theorem boundary_cases {boundary : ℕ → Option Tickets} {u : Tickets} {i : ℕ}
    (h : update boundary stage (some t') i = some u) :
    (i = stage ∧ u = t') ∨ (i ≠ stage ∧ boundary i = some u) := by
  by_cases heq : i = stage
  · subst heq
    exact .inl ⟨rfl, by simpa using h.symm⟩
  · exact .inr ⟨heq, by simpa [heq] using h⟩

theorem Orderly.frame (h : s.Orderly p pub) (hb : s.boundary stage = some t)
    (hq : t.Queued) (ht : Tickets.Touches t t' n) (hn : s.owner stage n ≠ some p)
    (hboundary : s'.boundary = update s.boundary stage (some t'))
    (howner : ∀ {i q}, s'.owner i q = some p ↔ s.owner i q = some p) : s'.Orderly p pub := by
  have hcases : ∀ {i u}, s'.boundary i = some u →
      (i = stage ∧ u = t') ∨ (i ≠ stage ∧ s.boundary i = some u) :=
    fun hi => boundary_cases (hboundary ▸ hi)
  constructor
  case positive => exact h.positive
  case number =>
    intro i u hi hne
    rw [howner]
    rcases hcases hi with ⟨rfl, rfl⟩ | ⟨-, hi⟩
    · exact h.number hb hne
    · exact h.number hi hne
  case refused =>
    intro i hi
    obtain ⟨hended, hsequence, hnone⟩ := h.refused hi
    exact ⟨hended, hsequence, fun q ho => hnone q (howner.mp ho)⟩
  case reserving =>
    intro stages hi
    obtain ⟨hnodup, hnone⟩ := h.reserving hi
    exact ⟨hnodup, fun i hm q ho => hnone i hm q (howner.mp ho)⟩
  case cleanup => exact h.cleanup
  case inside =>
    intro i u hphase hi
    rcases hcases hi with ⟨rfl, rfl⟩ | ⟨-, hi⟩
    · exact ht.admissions (h.inside hphase hb)
    · exact h.inside hphase hi
  case waiting =>
    intro i u hphase hi
    rcases hcases hi with ⟨rfl, rfl⟩ | ⟨-, hi⟩
    · have hw := h.waiting hphase hb
      rcases Finset.mem_insert.mp (ht.waiters hw) with heq | hw'
      · have hne : pub.stageSequences i ≠ 0 :=
          Nat.one_le_iff_ne_zero.mp (hq.entered _ (hq.waiters hw)).1
        have hended : ¬ pub.Ended := by simp [hphase]
        exact absurd (heq ▸ h.owner hended hb hne) hn
      · exact hw'
    · exact h.waiting hphase hi
  case keeps =>
    intro i u q hi ho
    rw [howner] at ho
    rcases hcases hi with ⟨rfl, rfl⟩ | ⟨-, hi⟩
    · exact (h.keeps hb ho).frame ht fun heq => hn (heq ▸ ho)
    · exact h.keeps hi ho

section

variable (h : s.Sound)

include h

theorem Sound.relabel (hown : s.Orderly p pub') (hcount : s'.stageCount = s.stageCount)
    (hboundary : s'.boundary = s.boundary) (howner : s'.owner = s.owner)
    (hpublication : s'.publication = update s.publication p (some pub')) : s'.Sound where
  within hb := hcount ▸ h.within (hboundary ▸ hb)
  tickets hb := h.tickets (hboundary ▸ hb)
  owned hb hq := howner ▸ h.owned (hboundary ▸ hb) hq
  issued := by
    intro i q r ho
    rw [howner] at ho
    rw [hboundary, hpublication]
    obtain ⟨ht, hpub⟩ := h.issued ho
    refine ⟨ht, ?_⟩
    by_cases heq : r = p
    · exact ⟨pub', by simp [heq]⟩
    · simpa [heq] using hpub
  orderly := by
    intro r other hr
    rw [hpublication] at hr
    by_cases heq : r = p
    · subst heq
      obtain rfl : pub' = other := by simpa using hr
      exact hown.congr hboundary howner
    · exact (h.orderly (by simpa [heq] using hr)).congr hboundary howner

/-- What a step at one boundary leaves of the flow: it may issue numbers there and give them
away. -/
theorem Sound.exchange (hb : s.boundary stage = some t)
    (hok : t'.Ordered ∧ t'.Queued) (hissued : t.boundary.issued ≤ t'.boundary.issued)
    (hcount : s'.stageCount = s.stageCount)
    (hboundary : s'.boundary = update s.boundary stage (some t'))
    (hkept : ∀ {i q r}, s.owner i q = some r → s'.owner i q = some r)
    (howned : ∀ {q}, t'.Reserved q → t.Reserved q ∨ ∃ r, s'.owner stage q = some r)
    (howner : ∀ {i q r}, s'.owner i q = some r →
      s.owner i q = some r ∨ i = stage ∧ t'.Reserved q ∧ ∃ pub, s'.publication r = some pub)
    (hpublication : ∀ {r}, (∃ pub, s.publication r = some pub) → ∃ pub, s'.publication r = some pub)
    (horderly : ∀ {r pub}, s'.publication r = some pub → s'.Orderly r pub) : s'.Sound where
  within := by
    intro i u hi
    rw [hcount]
    rcases boundary_cases (hboundary ▸ hi) with ⟨rfl, -⟩ | ⟨-, hi⟩
    · exact h.within hb
    · exact h.within hi
  tickets := by
    intro i u hi
    rcases boundary_cases (hboundary ▸ hi) with ⟨rfl, rfl⟩ | ⟨-, hi⟩
    · exact hok
    · exact h.tickets hi
  owned := by
    intro i u q hi hq
    rcases boundary_cases (hboundary ▸ hi) with ⟨rfl, rfl⟩ | ⟨-, hi⟩
    · rcases howned hq with hq | ho
      · exact (h.owned hb hq).imp fun _ => hkept
      · exact ho
    · exact (h.owned hi hq).imp fun _ => hkept
  issued := by
    intro i q r ho
    rw [hboundary]
    rcases howner ho with ho | ⟨rfl, hq, hpub⟩
    · obtain ⟨⟨u, hu, hq⟩, hpub⟩ := h.issued ho
      refine ⟨?_, hpublication hpub⟩
      by_cases heq : i = stage
      · subst heq
        obtain rfl : t = u := by simpa [hb] using hu
        exact ⟨t', by simp, hq.1, hq.2.trans hissued⟩
      · exact ⟨u, by simpa [heq] using hu, hq⟩
    · exact ⟨⟨t', by simp, hq⟩, hpub⟩
  orderly := horderly

theorem Sound.replace (hb : s.boundary stage = some t)
    (ht : Tickets.Touches t t' n) (hok : t'.Ordered ∧ t'.Queued)
    (hissued : t'.boundary.issued = t.boundary.issued) (hn : s.owner stage n = some p)
    (hown : ((s.setBoundary stage t').setPublication p pub').Orderly p pub') :
    ((s.setBoundary stage t').setPublication p pub').Sound := by
  refine h.exchange hb hok hissued.ge rfl rfl id
    (fun hq => .inl (by simpa [Tickets.Reserved, hissued] using hq)) .inl ?_ ?_
  · intro r hr
    by_cases heq : r = p
    · exact ⟨pub', by simp [heq]⟩
    · simpa [heq] using hr
  intro r other hr
  by_cases heq : r = p
  · subst heq
    obtain rfl : pub' = other := by simpa using hr
    exact hown
  have hother := h.orderly (by simpa [heq] using hr)
  refine hother.frame hb (h.tickets hb).2 ht ?_ rfl Iff.rfl
  rw [hn]
  exact fun hp => heq (some.inj hp).symm

variable {out : Answer} {stages : List ℕ} {dispatched : Finset ℕ} {phase : Phase}

omit h in
theorem Orderly.pass (h : s.Orderly p pub) (hb : s.boundary stage = some t)
    (hat : pub.phase = .running ∨ pub.phase = .waiting stage ∨ pub.phase = .inside stage)
    (hto : phase = .running ∨ phase = .waiting stage ∨ phase = .inside stage)
    (hdispatched : insert stage pub.dispatched ⊆ dispatched)
    (ht : Tickets.Touches t t' (pub.stageSequences stage)) (hwithdrawn : t'.withdrawn = t.withdrawn)
    (hholders : pub.stageSequences stage ∈ t'.holders → phase = .inside stage)
    (hinside : phase = .inside stage → pub.stageSequences stage ∈ t'.admissions)
    (hwaiting : phase = .waiting stage → pub.stageSequences stage ∈ t'.waiters) :
    Orderly ((s.setBoundary stage t').setPublication p { pub with dispatched, phase }) p
      { pub with dispatched, phase } := by
  have hended : ¬ pub.Ended := by
    rcases hat with hat | hat | hat <;> simp [hat]
  have hended' : ¬ Ended { pub with dispatched, phase } := by
    rcases hto with hto | hto | hto <;> simp [hto]
  constructor
  case positive => exact h.positive
  case number =>
    intro i u hi hne
    rcases boundary_cases hi with ⟨rfl, rfl⟩ | ⟨-, hi⟩
    · exact h.number hb hne
    · exact h.number hi hne
  case refused =>
    intro i hi
    rw [h.not_refused hended] at hi
    cases hi
  case reserving | cleanup =>
    intro stages hi
    rcases hto with hto | hto | hto <;> simp [hto] at hi
  case inside =>
    intro i u hphase hi
    obtain rfl : stage = i := by rcases hto with hto | hto | hto <;> simp_all
    obtain ⟨-, rfl⟩ | ⟨hne, -⟩ := boundary_cases hi
    · exact hinside hphase
    · exact absurd rfl hne
  case waiting =>
    intro i u hphase hi
    obtain rfl : stage = i := by rcases hto with hto | hto | hto <;> simp_all
    obtain ⟨-, rfl⟩ | ⟨hne, -⟩ := boundary_cases hi
    · exact hwaiting hphase
    · exact absurd rfl hne
  case keeps =>
    intro i u q hi ho
    rcases boundary_cases hi with ⟨rfl, rfl⟩ | ⟨hne, hi⟩
    · have hk := h.keeps hb ho
      refine ⟨fun _ => hdispatched (Finset.mem_insert_self _ _), fun hm => ?_, ?_, ?_⟩
      · have heq : q = pub.stageSequences i := by
          rcases Finset.mem_insert.mp (ht.holders hm) with heq | hm'
          · exact heq
          · exact (hk.inside hm').2.symm
        exact ⟨hholders (heq ▸ hm), heq.symm⟩
      · rw [hwithdrawn, holds_of_not_ended hended']
        exact fun hm => (holds_of_not_ended hended).not.mp (hk.released hm)
      rw [hwithdrawn, holds_of_not_ended hended']
      intro hnot
      exact (hk.passed ((holds_of_not_ended hended).not.mpr hnot)).imp_left
        fun hlt => Nat.lt_of_lt_of_le hlt ht.next_le
    have hk := h.keeps hi ho
    refine ⟨fun hm => hdispatched (Finset.mem_insert_of_mem (hk.entered hm)), fun hm => ?_, ?_, ?_⟩
    · obtain ⟨hphase, -⟩ := hk.inside hm
      rcases hat with hat | hat | hat <;> simp_all
    · rw [holds_of_not_ended hended']
      exact fun hm => (holds_of_not_ended hended).not.mp (hk.released hm)
    rw [holds_of_not_ended hended']
    exact fun hnot => hk.passed ((holds_of_not_ended hended).not.mpr hnot)

omit h in
theorem Orderly.advance (h : s.Orderly p pub) (howner : s'.owner = s.owner)
    (hboundary : ∀ {i t'}, s'.boundary i = some t' → ∃ t, s.boundary i = some t)
    (hsequence : pub'.sequence = pub.sequence) (hrefused : pub'.refused = pub.refused)
    (hnumber : ∀ {i t'}, s'.boundary i = some t' → pub'.stageSequences i ≠ 0 →
      pub'.stageSequences i = pub.stageSequences i)
    (hended : pub.refused ≠ none → pub'.Ended ∧ pub'.stageSequences = pub.stageSequences)
    (hreserving : ∀ {stages}, pub'.phase = .reserving stages →
      stages.Nodup ∧ ∀ i ∈ stages, ∀ q, s.owner i q ≠ some p)
    (hcleanup : ∀ {stages}, pub'.phase = .cleanup stages → stages.Nodup)
    (houtside : ∀ {i t'}, s'.boundary i = some t' →
      pub'.phase ≠ .inside i ∧ pub'.phase ≠ .waiting i)
    (hkeeps : ∀ {i t' q}, s'.boundary i = some t' → s.owner i q = some p → pub'.Keeps i t' q) :
    s'.Orderly p pub' := by
  constructor
  case positive => exact hsequence ▸ h.positive
  case number =>
    intro i t' hi hne
    obtain ⟨t, ht⟩ := hboundary hi
    have heq := hnumber hi hne
    rw [howner, hrefused, heq]
    exact h.number ht (heq ▸ hne)
  case refused =>
    intro i hi
    rw [hrefused] at hi
    obtain ⟨hend, hsame⟩ := hended (by simp [hi])
    rw [howner, hsame, hsequence]
    exact ⟨hend, (h.refused hi).2⟩
  case reserving => exact fun hphase => howner ▸ hreserving hphase
  case cleanup => exact hcleanup
  case inside => exact fun hphase hi => absurd hphase (houtside hi).1
  case waiting => exact fun hphase hi => absurd hphase (houtside hi).2
  case keeps => exact fun hi ho => hkeeps hi (howner ▸ ho)

omit h in
theorem Orderly.proceed (h : s.Orderly p pub) (hended : ¬ pub.Ended)
    (hfrom : ∀ {i t}, s.boundary i = some t → pub.phase ≠ .inside i)
    (hdispatched : pub.dispatched ⊆ dispatched) (hreserving : ∀ stages, phase ≠ .reserving stages)
    (houtside : ∀ {i t}, s.boundary i = some t → phase ≠ .inside i ∧ phase ≠ .waiting i)
    (hphase : phase ≠ .finished ∧ ∀ {stages}, phase = .cleanup stages →
      stages.Nodup ∧ ∀ {i t}, s.boundary i = some t → i ∈ stages) :
    s.Orderly p { pub with dispatched, phase } := by
  refine h.advance rfl (fun hi => ⟨_, hi⟩) rfl rfl (fun _ _ => rfl) ?_
    (fun hphase => absurd hphase (hreserving _)) (fun hstages => (hphase.2 hstages).1) houtside ?_
  · exact fun hne => absurd (h.not_refused hended) hne
  intro i t q hi ho
  have hk := h.keeps hi ho
  have hholds : Holds { pub with dispatched, phase } i q ↔ pub.Holds i q := by
    rw [holds_of_not_ended hended]
    exact ⟨And.left, fun heq => ⟨heq, hphase.1, fun stages hstages => (hphase.2 hstages).2 hi⟩⟩
  exact hk.transfer hdispatched (hfrom hi) hholds

theorem Sound.begin (hnew : s.publication p = none) (hnodup : stages.Nodup) {sequence : ℕ}
    (hpos : 0 < sequence) (mutex : Option ℕ) :
    Sound
      { s.setPublication p
          { sequence, stageSequences := fun _ => 0, dispatched := ∅, refused := none,
            phase := .reserving stages } with
        nextSequence := sequence
        runtimeMutex := mutex } := by
  have hnone : ∀ i q, s.owner i q ≠ some p := by
    intro i q ho
    obtain ⟨-, pub, hpub⟩ := h.issued ho
    rw [hnew] at hpub
    cases hpub
  refine h.relabel ?_ rfl rfl rfl rfl
  constructor
  case positive => exact hpos
  case number => exact fun _ hne => absurd rfl hne
  case refused => exact fun hi => absurd hi (by simp)
  case reserving =>
    intro stages' hphase
    cases hphase
    exact ⟨hnodup, fun i _ q => hnone i q⟩
  case cleanup | inside | waiting => exact fun hphase => absurd hphase (by simp)
  case keeps => exact fun _ ho => absurd ho (hnone _ _)

omit h in
theorem Orderly.skip (h : s.Orderly p pub) (hphase : pub.phase = .reserving (stage :: stages))
    (hb : s.boundary stage = none) :
    s.Orderly p
      { pub with
        stageSequences := update pub.stageSequences stage pub.sequence
        phase := .reserving stages } := by
  have hne : ∀ {i t}, s.boundary i = some t → i ≠ stage := by
    rintro i t hi rfl
    rw [hb] at hi
    cases hi
  have hended : ¬ pub.Ended := by simp [hphase]
  obtain ⟨hnodup, hnone⟩ := h.reserving hphase
  refine h.advance rfl (fun hi => ⟨_, hi⟩) rfl rfl (fun hi _ => by simp [hne hi])
    (absurd (h.not_refused hended)) ?_ (by simp) (by simp) ?_
  · intro stages' hphase'
    cases hphase'
    exact ⟨hnodup.of_cons, fun i hm => hnone i (mem_cons_of_mem _ hm)⟩
  intro i t q hi ho
  refine (h.keeps hi ho).transfer subset_rfl (by simp [hphase]) ?_
  rw [holds_of_not_ended hended, holds_of_not_ended (by simp)]
  simp [hne hi]

theorem Sound.next_issued (hb : s.boundary stage = some t) :
    s.owner stage (t.boundary.issued + 1) = none ∧ t.boundary.issued + 1 ∉ t.entered ∧
      t.boundary.issued + 1 ∉ t.holders ∧ t.boundary.issued + 1 ∉ t.withdrawn := by
  obtain ⟨ho, hq⟩ := h.tickets hb
  have hentered : t.boundary.issued + 1 ∉ t.entered := fun hm =>
    absurd (hq.entered _ hm).2 (Nat.not_succ_le_self _)
  refine ⟨?_, hentered, fun hm => hentered (hq.admissions _ (hq.holders _ hm)).1, fun hm => ?_⟩
  · rcases howner : s.owner stage (t.boundary.issued + 1) with _ | r
    · rfl
    obtain ⟨⟨u, hu, hr⟩, -⟩ := h.issued howner
    obtain rfl : t = u := by simpa [hb] using hu
    exact absurd hr.2 (Nat.not_succ_le_self _)
  rcases ho.withdrawn _ hm with hlt | hcanceled
  · exact absurd hlt (Nat.not_lt.mpr ho.next_le)
  · exact absurd (ho.canceled _ hcanceled).2.2 (Nat.not_succ_le_self _)

omit h in
theorem Orderly.obtain_number (h : s.Orderly p pub)
    (hphase : pub.phase = .reserving (stage :: stages)) (hentered : n ∉ t'.entered)
    (hholders : n ∉ t'.holders) (hwithdrawn : n ∉ t'.withdrawn)
    (hboundary : s'.boundary = update s.boundary stage (some t'))
    (howner : ∀ {i q}, s'.owner i q = some p ↔ (i = stage ∧ q = n) ∨ s.owner i q = some p) :
    s'.Orderly p
      { pub with
        stageSequences := update pub.stageSequences stage n
        phase := .reserving stages } := by
  obtain ⟨hnodup, hnone⟩ := h.reserving hphase
  have hnot : ∀ q, s.owner stage q ≠ some p := hnone stage mem_cons_self
  have hended : ¬ pub.Ended := by simp [hphase]
  constructor
  case positive => exact h.positive
  case number =>
    intro i u hi hne
    rw [howner]
    rcases boundary_cases (hboundary ▸ hi) with ⟨rfl, -⟩ | ⟨heq, hi⟩
    · exact .inl (.inl ⟨rfl, by simp⟩)
    simp only [ne_eq, heq, not_false_eq_true, update_of_ne] at hne ⊢
    exact (h.number hi hne).imp_left .inr
  case refused =>
    intro i hi
    rw [h.not_refused hended] at hi
    cases hi
  case reserving =>
    intro stages' hphase'
    cases hphase'
    refine ⟨hnodup.of_cons, fun i hm q ho => ?_⟩
    rcases howner.mp ho with ⟨rfl, -⟩ | ho
    · exact (nodup_cons.mp hnodup).1 hm
    · exact hnone i (mem_cons_of_mem _ hm) q ho
  case cleanup | inside | waiting => exact fun hphase' => absurd hphase' (by simp)
  case keeps =>
    intro i u q hi ho
    rcases boundary_cases (hboundary ▸ hi) with ⟨rfl, rfl⟩ | ⟨heq, hi⟩
    · obtain rfl : q = n := (howner.mp ho).elim And.right fun ho => absurd ho (hnot q)
      refine ⟨fun hm => absurd hm hentered, fun hm => absurd hm hholders,
        fun hm => absurd hm hwithdrawn, fun hm => absurd ?_ hm⟩
      rw [holds_of_not_ended (by simp)]
      simp
    have ho := (howner.mp ho).resolve_left fun hand => heq hand.1
    refine (h.keeps hi ho).transfer subset_rfl (by simp [hphase]) ?_
    rw [holds_of_not_ended hended, holds_of_not_ended (by simp)]
    simp [heq]

section

variable (hpub : s.publication p = some pub)

include hpub

theorem Sound.obtain_number (hphase : pub.phase = .reserving (stage :: stages))
    (hb : s.boundary stage = some t)
    (ht' : t' = { t with boundary := { t.boundary with issued := t.boundary.issued + 1 } })
    (hok : t'.Ordered ∧ t'.Queued) (hpub' : pub' =
      { pub with
        stageSequences := update pub.stageSequences stage (t.boundary.issued + 1)
        phase := .reserving stages }) :
    (((s.setBoundary stage t').setPublication p pub').setOwner stage (t.boundary.issued + 1)
      p).Sound := by
  obtain ⟨hfree, hentered, hholders, hwithdrawn⟩ := h.next_issued hb
  have htouch : Tickets.Touches t t' (t.boundary.issued + 1) := by
    subst ht'
    exact { Tickets.touches_refl t _ with }
  have howner : ∀ {i q r}, r ≠ p →
      ((((s.setBoundary stage t').setPublication p pub').setOwner stage (t.boundary.issued + 1)
        p).owner i q = some r ↔ s.owner i q = some r) := by
    intro i q r hne
    rw [setOwner_owner]
    split
    · rename_i heq
      obtain ⟨rfl, rfl⟩ := heq
      simp [hfree, hne.symm]
    · rfl
  refine h.exchange hb hok (by simp [ht']) rfl rfl ?_ ?_ ?_ ?_ ?_
  · intro i q r ho
    rw [setOwner_owner, if_neg]
    · exact ho
    rintro ⟨rfl, rfl⟩
    rw [hfree] at ho
    cases ho
  · intro q hq
    rw [setOwner_owner]
    have hle : q ≤ t.boundary.issued + 1 := by simpa [ht'] using hq.2
    rcases Nat.le_succ_iff.mp hle with hle | heq
    · exact .inl ⟨hq.1, hle⟩
    · exact .inr ⟨p, if_pos ⟨rfl, heq⟩⟩
  · intro i q r ho
    rw [setOwner_owner] at ho
    split at ho
    · rename_i heq
      cases ho
      exact .inr ⟨heq.1, ⟨heq.2 ▸ Nat.succ_pos _, by simp [ht', heq.2]⟩, pub', by simp [setOwner]⟩
    · exact .inl ho
  · intro r hr
    by_cases heq : r = p
    · exact ⟨pub', by simp [setOwner, heq]⟩
    · simpa [setOwner, heq] using hr
  intro r other hr
  by_cases heq : r = p
  · subst heq
    obtain rfl : pub' = other := by simpa [setOwner] using hr
    subst hpub'
    have hentered' : t.boundary.issued + 1 ∉ t'.entered := by simpa [ht'] using hentered
    have hholders' : t.boundary.issued + 1 ∉ t'.holders := by simpa [ht'] using hholders
    have hwithdrawn' : t.boundary.issued + 1 ∉ t'.withdrawn := by simpa [ht'] using hwithdrawn
    refine (h.orderly hpub).obtain_number hphase hentered' hholders' hwithdrawn' rfl ?_
    intro i q
    rw [setOwner_owner]
    split
    · simp_all
    · simp_all
  have hother := h.orderly
    (by simpa [setOwner, heq] using hr)
  exact hother.frame hb (h.tickets hb).2 htouch (by simp [hfree]) rfl (howner heq)

omit h in
omit hpub in
theorem Orderly.refuse (h : s.Orderly p pub)
    (hwithin : ∀ {i t}, s.boundary i = some t → i < s.stageCount)
    (hphase : pub.phase = .reserving (stage :: stages)) :
    s.Orderly p
      { pub with
        stageSequences := update pub.stageSequences stage pub.sequence
        refused := some stage
        phase := .cleanup (range s.stageCount) } := by
  obtain ⟨-, hnone⟩ := h.reserving hphase
  have hnot : ∀ q, s.owner stage q ≠ some p := hnone stage mem_cons_self
  have hended : ¬ pub.Ended := by simp [hphase]
  constructor
  case positive => exact h.positive
  case number =>
    intro i t hi hne
    by_cases heq : i = stage
    · exact .inr (by simp [heq])
    simp only [ne_eq, heq, not_false_eq_true, update_of_ne] at hne ⊢
    exact .inl (h.owner hended hi hne)
  case refused =>
    intro i hi
    cases hi
    exact ⟨.inr ⟨_, rfl⟩, by simp, hnot⟩
  case reserving | inside | waiting => exact fun hphase' => absurd hphase' (by simp)
  case cleanup =>
    intro stages' hphase'
    cases hphase'
    exact nodup_range
  case keeps =>
    intro i t q hi ho
    have hne : i ≠ stage := fun heq => hnot q (heq ▸ ho)
    refine (h.keeps hi ho).transfer subset_rfl (by simp [hphase]) ?_
    rw [holds_of_not_ended hended]
    simp [Holds, hne, hwithin hi]

theorem Sound.reserveStage (hact : s.reserveStage p pub = some (s', out)) : s'.Sound := by
  unfold Flow.reserveStage at hact
  have hown := h.orderly hpub
  split at hact
  next hphase =>
    cases hact
    refine h.relabel (hown.proceed ?_ ?_ subset_rfl ?_ ?_ ?_) rfl rfl rfl rfl
    · simp [hphase]
    · simp [hphase]
    all_goals simp
  next i rest hphase =>
    dsimp only at hact
    split at hact
    next hb =>
      cases hact
      exact h.relabel (hown.skip hphase hb) rfl rfl rfl rfl
    next t hb =>
      rcases t.boundary.reserve_cases with ⟨rc, heq⟩ | ⟨heq, -⟩
      · rw [heq] at hact
        cases hact
        have hsame : update s.boundary i (some t) = s.boundary := update_eq_self_iff.mpr hb.symm
        exact h.relabel (hown.refuse h.within hphase) rfl hsame rfl rfl
      have hreserve : t.act .reserve = some
          ({ t with boundary := { t.boundary with issued := t.boundary.issued + 1 } },
            .reserved (.ok (t.boundary.issued + 1))) := by
        simp [Tickets.act, heq]
      obtain ⟨ho, hq⟩ := h.tickets hb
      rw [heq] at hact
      cases hact
      exact h.obtain_number hpub hphase hb rfl (Tickets.step hreserve trivial ho hq) (by simp)
  next => cases hact

theorem Sound.fresh (hb : s.boundary stage = some t) (hphase : pub.phase = .running)
    (hnew : stage ∉ pub.dispatched) (hne : pub.stageSequences stage ≠ 0) :
    s.owner stage (pub.stageSequences stage) = some p ∧
      t.Disciplined (.enter (pub.stageSequences stage)) := by
  have hown := h.orderly hpub
  have ho := hown.owner (by simp [hphase]) hb hne
  obtain ⟨⟨u, hu, hreserved⟩, -⟩ := h.issued ho
  obtain rfl : t = u := by simpa [hb] using hu
  exact ⟨ho, hreserved, fun hm => hnew ((hown.keeps hb ho).entered hm)⟩

theorem Sound.finishEnter {op : Operation} {out : Outcome} {rc : Status}
    (hb : s.boundary stage = some t) (hat : pub.phase = .running ∨ pub.phase = .waiting stage)
    (hdispatched : insert stage pub.dispatched ⊆ dispatched)
    (howner : s.owner stage (pub.stageSequences stage) = some p) (hact : t.act op = some (t', out))
    (hop : t.Disciplined op) (hne : op ≠ .reserve)
    (htouch : Tickets.Touches t t' (pub.stageSequences stage))
    (hwithdrawn : t'.withdrawn = t.withdrawn)
    (hok : rc = .ok → pub.stageSequences stage ∈ t'.admissions)
    (hfail : rc ≠ .ok → t'.holders = t.holders) :
    Sound ((s.setBoundary stage t').setPublication p
      { pub with dispatched, phase := if rc = .ok then .inside stage else .running }) := by
  have hown := h.orderly hpub
  obtain ⟨ho, hq⟩ := h.tickets hb
  refine h.replace hb htouch (Tickets.step hact hop ho hq)
    ((Tickets.act_counts hact).2.resolve_left hne) howner
    (hown.pass hb (hat.imp_right .inl) ?_ hdispatched htouch hwithdrawn ?_ ?_ ?_)
  · split
    · exact .inr (.inr rfl)
    · exact .inl rfl
  · intro hm
    split
    · rfl
    rename_i hrc
    rw [hfail hrc] at hm
    have hinside := ((hown.keeps hb howner).inside hm).1
    rcases hat with hat | hat <;> simp [hat] at hinside
  · split
    · rename_i hrc
      exact fun _ => hok hrc
    · simp
  · split <;> simp

theorem Sound.enterStage (hact : s.enterStage p pub stage = some (s', out)) : s'.Sound := by
  unfold Flow.enterStage at hact
  have hown := h.orderly hpub
  split at hact
  · rename_i hguard
    obtain ⟨hphase, hnew⟩ := hguard
    dsimp only at hact
    have hended : ¬ pub.Ended := by simp [hphase]
    have hfrom : ∀ {i t}, s.boundary i = some t → pub.phase ≠ .inside i := by simp [hphase]
    have hinsert := Finset.subset_insert stage pub.dispatched
    split at hact
    next hb =>
      cases hact
      refine h.relabel (hown.proceed hended hfrom hinsert (by simp) ?_ (by simp)) rfl rfl rfl rfl
      rintro i t hi
      have hne : stage ≠ i := by
        rintro rfl
        rw [hb] at hi
        cases hi
      simp [hne]
    next t hb =>
      split at hact
      · split at hact
        · cases hact
          have hgo : s.Orderly p
              { pub with dispatched := insert stage pub.dispatched, phase := .running } :=
            hown.proceed hended hfrom hinsert (by simp) (by simp) (by simp)
          rw [← hphase] at hgo
          exact h.relabel hgo rfl rfl rfl rfl
        · cases hact
      rename_i hne
      obtain ⟨howner, hop⟩ := h.fresh hpub hb hphase hnew hne
      obtain ⟨ho, hq⟩ := h.tickets hb
      rcases hres : t.act (.enter (pub.stageSequences stage)) with _ | ⟨t', result⟩
      · simp [hres] at hact
      obtain ⟨htouch, hwithdrawn, ⟨rc, rfl, hok, hfail⟩ | ⟨rfl, hwaits, hholders⟩⟩ :=
        Tickets.touches_enter hres
      · obtain ⟨rfl, -⟩ := by simpa [hres] using hact
        exact h.finishEnter hpub hb (.inl hphase) subset_rfl howner hres hop (by simp) htouch
          hwithdrawn hok hfail
      obtain ⟨rfl, -⟩ := by simpa [hres] using hact
      refine h.replace hb htouch (Tickets.step hres hop ho hq)
        ((Tickets.act_counts hres).2.resolve_left (by simp)) howner
        (hown.pass hb (.inl hphase) (.inr (.inl rfl)) subset_rfl htouch hwithdrawn ?_
          (by simp) fun _ => hwaits)
      rw [hholders]
      intro hm
      have hinside := ((hown.keeps hb howner).inside hm).1
      simp [hphase] at hinside
  · cases hact

theorem Sound.resumeStage (hact : s.resumeStage p pub timedOut = some (s', out)) : s'.Sound := by
  unfold Flow.resumeStage at hact
  have hown := h.orderly hpub
  split at hact
  next i hphase =>
    split at hact
    · cases hact
    next t hb =>
      obtain ⟨-, hq⟩ := h.tickets hb
      have hended : ¬ pub.Ended := by simp [hphase]
      have hentered := hq.waiters (hown.waiting hphase hb)
      have hne : pub.stageSequences i ≠ 0 := Nat.one_le_iff_ne_zero.mp (hq.entered _ hentered).1
      have howner := hown.owner hended hb hne
      have hdispatched := (hown.keeps hb howner).entered hentered
      rcases hres : t.act (.resume (pub.stageSequences i) timedOut) with _ | ⟨t', result⟩
      · simp [hres] at hact
      obtain ⟨htouch, hwithdrawn, rc, rfl, hok, hfail⟩ := Tickets.touches_resume hres
      obtain ⟨rfl, -⟩ := by simpa [hres] using hact
      exact h.finishEnter hpub hb (.inr hphase)
        (Finset.insert_subset hdispatched subset_rfl) howner hres trivial (by simp) htouch
        hwithdrawn hok hfail
  next => cases hact

theorem Sound.leaveStage (hact : s.leaveStage p pub = some (s', out)) : s'.Sound := by
  unfold Flow.leaveStage at hact
  have hown := h.orderly hpub
  split at hact
  next i hphase =>
    have hended : ¬ pub.Ended := by simp [hphase]
    split at hact
    next hb =>
      cases hact
      refine h.relabel (hown.proceed hended ?_ subset_rfl (by simp) (by simp) (by simp)) rfl rfl rfl
        rfl
      rintro j t hj heq
      obtain rfl : i = j := by simpa [hphase] using heq
      rw [hb] at hj
      cases hj
    next t hb =>
      obtain ⟨ho, hq⟩ := h.tickets hb
      have hadmitted := hown.inside hphase hb
      have hentered := (hq.admissions _ hadmitted).1
      have hne : pub.stageSequences i ≠ 0 := Nat.one_le_iff_ne_zero.mp (hq.entered _ hentered).1
      have howner := hown.owner hended hb hne
      have hdispatched := (hown.keeps hb howner).entered hentered
      rcases hres : t.act (.leave (pub.stageSequences i)) with _ | ⟨t', result⟩
      · simp [hres] at hact
      obtain ⟨htouch, hwithdrawn, hholders⟩ := Tickets.touches_leave hres
      obtain ⟨rfl, -⟩ := by simpa [hres] using hact
      exact h.replace hb htouch (Tickets.step hres hadmitted ho hq)
        ((Tickets.act_counts hres).2.resolve_left (by simp)) howner
        (hown.pass hb (.inr (.inr hphase)) (.inl rfl)
          (Finset.insert_subset hdispatched subset_rfl) htouch hwithdrawn
          (fun hm => absurd hm hholders) (by simp) (by simp))
  next => cases hact

omit h in
omit hpub in
theorem Orderly.release (h : s.Orderly p pub) (hb : s.boundary stage = some t)
    (hsequence : pub'.sequence = pub.sequence) (hrefused : pub'.refused = pub.refused)
    (hdispatched : pub'.dispatched = pub.dispatched)
    (hnumber : ∀ {i}, pub'.stageSequences i ≠ 0 → pub'.stageSequences i = pub.stageSequences i)
    (hended : pub.refused ≠ none → pub'.Ended ∧ pub'.stageSequences = pub.stageSequences)
    (hreserving : ∀ stages, pub'.phase ≠ .reserving stages)
    (hcleanup : ∀ {stages}, pub'.phase = .cleanup stages → stages.Nodup)
    (houtside : ∀ {i}, pub'.phase ≠ .inside i ∧ pub'.phase ≠ .waiting i)
    (hfrom : ∀ {i}, pub.phase ≠ .inside i)
    (hreleased : ¬ pub'.Holds stage (pub.stageSequences stage))
    (hholds : ∀ {i q}, s.owner i q = some p → (i = stage → q ≠ pub.stageSequences stage) →
      (pub'.Holds i q ↔ pub.Holds i q)) :
    Orderly ((s.setBoundary stage (t.cancelNumber (pub.stageSequences stage))).setPublication p
      pub') p pub' := by
  have htouch := t.touches_cancelNumber (pub.stageSequences stage)
  refine h.advance rfl ?_ hsequence hrefused (fun _ => hnumber) hended
    (fun hphase => absurd hphase (hreserving _)) hcleanup (fun _ => houtside) ?_
  · intro i t' hi
    rcases boundary_cases hi with ⟨rfl, -⟩ | ⟨-, hi⟩
    · exact ⟨t, hb⟩
    · exact ⟨t', hi⟩
  intro i t' q hi ho
  rcases boundary_cases hi with ⟨rfl, rfl⟩ | ⟨hne, hi⟩
  · have hk := h.keeps hb ho
    by_cases heq : q = pub.stageSequences i
    · subst heq
      exact ⟨fun hm => hdispatched ▸ hk.entered hm, fun hm => absurd (hk.inside hm).1 hfrom,
        fun _ => hreleased, fun _ => t.passed_of_cancelNumber _⟩
    · exact (hk.frame htouch heq).transfer hdispatched.ge hfrom (hholds ho fun _ => heq)
  · exact (h.keeps hi ho).transfer hdispatched.ge hfrom (hholds ho fun heq => absurd heq hne)

omit h in
omit hpub in
theorem Orderly.visit (h : s.Orderly p pub) (hphase : pub.phase = .cleanup (stage :: stages))
    (hnone : ∀ q, s.owner stage q = some p → pub.stageSequences stage ≠ q) :
    s.Orderly p { pub with phase := .cleanup stages } := by
  refine h.advance rfl (fun hi => ⟨_, hi⟩) rfl rfl (fun _ _ => rfl) ?_ (by simp) ?_ (by simp) ?_
  · exact fun _ => ⟨.inr ⟨_, rfl⟩, rfl⟩
  · intro stages' hphase'
    cases hphase'
    exact (h.cleanup hphase).of_cons
  intro i t q hi ho
  refine (h.keeps hi ho).transfer subset_rfl (by simp [hphase]) ?_
  by_cases heq : i = stage
  · subst heq
    simp [Holds, hnone q ho]
  · simp [Holds, hphase, heq]

omit hpub in
theorem Sound.owner_pos (ho : s.owner stage q = some p) : 0 ≠ q := by
  obtain ⟨⟨t, -, hq⟩, -⟩ := h.issued ho
  exact (Nat.ne_of_gt hq.1).symm

theorem Sound.cancelOwn (hb : s.boundary stage = some t)
    (houtside : pub.phase ≠ .inside stage)
    (ho : s.owner stage (pub.stageSequences stage) = some p) :
    (t.cancelNumber (pub.stageSequences stage)).Ordered ∧
      (t.cancelNumber (pub.stageSequences stage)).Queued := by
  obtain ⟨⟨u, hu, hreserved⟩, -⟩ := h.issued ho
  obtain rfl : t = u := by simpa [hb] using hu
  obtain ⟨hordered, hqueued⟩ := h.tickets hb
  refine Tickets.ordered_cancelNumber hordered hqueued hreserved fun hm => ?_
  exact houtside (((h.orderly hpub).keeps hb ho).inside hm).1

theorem Sound.cancelDescendantStage (hact : s.cancelDescendantStage p pub = some (s', out)) :
    s'.Sound := by
  unfold Flow.cancelDescendantStage at hact
  have hown := h.orderly hpub
  split at hact
  next hphase =>
    cases hact
    refine h.relabel (hown.proceed ?_ ?_ subset_rfl (by simp) (by simp) (by simp)) rfl rfl rfl rfl
    · simp [hphase]
    · simp [hphase]
  next i rest hphase =>
    have hended : ¬ pub.Ended := by simp [hphase]
    split at hact
    · cases hact
      exact h.relabel (hown.proceed hended (by simp [hphase]) subset_rfl (by simp) (by simp)
        (by simp)) rfl rfl rfl rfl
    rename_i hne
    cases hact
    have hholds : ∀ {j q}, s.owner j q = some p → (j = i → q ≠ pub.stageSequences i) →
        (Holds
          { pub with
            stageSequences := update pub.stageSequences i 0
            phase := .emitting rest } j q ↔ pub.Holds j q) := by
      intro j q ho hother
      rw [holds_of_not_ended hended, holds_of_not_ended (by simp)]
      by_cases heq : j = i
      · subst heq
        simp [h.owner_pos ho, (hother rfl).symm]
      · simp [heq]
    have hnumber : ∀ {j}, update pub.stageSequences i 0 j ≠ 0 →
        update pub.stageSequences i 0 j = pub.stageSequences j := by
      intro j hj
      by_cases heq : j = i
      · simp [heq] at hj
      · simp [heq]
    have hrefused := hown.not_refused hended
    unfold reorderCancel
    split
    next hb =>
      have hreleased : s.Orderly p
          { pub with
            stageSequences := update pub.stageSequences i 0
            phase := .emitting rest } := by
        refine hown.advance rfl (fun hi => ⟨_, hi⟩) rfl rfl (fun _ => hnumber) (absurd hrefused)
          (by simp) (by simp) (by simp) ?_
        intro j t q hj ho
        refine (hown.keeps hj ho).transfer subset_rfl (by simp [hphase]) (hholds ho ?_)
        rintro rfl
        rw [hb] at hj
        cases hj
      exact h.relabel hreleased rfl rfl rfl rfl
    next t hb =>
      have howner := hown.owner hended hb hne
      refine h.replace hb (t.touches_cancelNumber _)
        (h.cancelOwn hpub hb (by simp [hphase]) howner) (t.boundary.sameCounts_cancel _).issued
        howner (hown.release hb rfl rfl rfl hnumber (absurd hrefused) (by simp) (by simp)
          (by simp) (by simp [hphase]) ?_ hholds)
      rw [holds_of_not_ended (by simp)]
      simp [Ne.symm hne]
  next => cases hact

/-- The number of the flow that the cleanup of a refused publication is about to cancel, with the
boundary that refused. -/
def refusedCancel (s : Flow) : Call → Option (ℕ × Boundary)
  | .cancelStage p =>
    (s.publication p).bind fun pub =>
      match pub.phase with
      | .cleanup (stage :: _) =>
        if pub.refused = some stage then
          (s.boundary stage).map fun t => (pub.sequence, t.boundary)
        else none
      | _ => none
  | _ => none

/-- What the cleanup of a refused publication needs: the refusing boundary has passed the number of
the flow. -/
def RefusedPassed (s : Flow) (op : Call) : Prop :=
  ∀ r ∈ s.refusedCancel op, r.1 < r.2.next

instance (s : Flow) (op : Call) : Decidable (s.RefusedPassed op) :=
  inferInstanceAs (Decidable (∀ r ∈ s.refusedCancel op, r.1 < r.2.next))

omit h in
theorem refusedCancel_of_refused (hphase : pub.phase = .cleanup (stage :: stages))
    (hrefused : pub.refused = some stage) (hb : s.boundary stage = some t) :
    s.refusedCancel (.cancelStage p) = some (pub.sequence, t.boundary) := by
  simp [refusedCancel, hpub, hphase, hrefused, hb]

theorem Sound.cancelCleanupStage (hpassed : s.RefusedPassed (.cancelStage p))
    (hact : s.cancelCleanupStage p pub = some (s', out)) : s'.Sound := by
  unfold Flow.cancelCleanupStage at hact
  have hown := h.orderly hpub
  split at hact
  next hphase =>
    cases hact
    have hfinished : s.Orderly p { pub with phase := .finished } := by
      refine hown.advance rfl (fun hi => ⟨_, hi⟩) rfl rfl (fun _ _ => rfl)
        (fun _ => ⟨.inl rfl, rfl⟩) (by simp) (by simp) (by simp) ?_
      intro i t q hi ho
      refine (hown.keeps hi ho).transfer subset_rfl (by simp [hphase]) ?_
      simp [Holds, hphase]
    exact h.relabel hfinished rfl rfl rfl rfl
  next i rest hphase =>
    split at hact
    next hzero =>
      cases hact
      refine h.relabel (hown.visit hphase fun q ho => ?_) rfl rfl rfl rfl
      exact hzero ▸ h.owner_pos ho
    next hne =>
      cases hact
      unfold reorderCancel
      split
      next hb =>
        refine h.relabel (hown.visit hphase fun q ho => ?_) rfl rfl rfl rfl
        obtain ⟨⟨t, ht, -⟩, -⟩ := h.issued ho
        rw [hb] at ht
        cases ht
      next t hb =>
        rcases hown.number hb hne with howner | hrefused
        · refine h.replace hb (t.touches_cancelNumber _)
            (h.cancelOwn hpub hb (by simp [hphase]) howner)
            (t.boundary.sameCounts_cancel _).issued howner
            (hown.release hb rfl rfl rfl (fun _ => rfl) (fun _ => ⟨.inr ⟨_, rfl⟩, rfl⟩) (by simp)
              ?_ (by simp) (by simp [hphase]) ?_ ?_)
          · intro stages' hphase'
            cases hphase'
            exact (hown.cleanup hphase).of_cons
          · rintro ⟨-, -, hmem⟩
            exact (nodup_cons.mp (hown.cleanup hphase)).1 (hmem rest rfl)
          intro j q _ hother
          by_cases heq : j = i
          · subst heq
            simp [Holds, (hother rfl).symm]
          · simp [Holds, hphase, heq]
        -- The boundary refused the publication: the condition says that nothing is canceled.
        obtain ⟨-, hsequence, hnone⟩ := hown.refused hrefused
        have hlt : pub.stageSequences i < t.boundary.next :=
          hsequence ▸ hpassed _ (refusedCancel_of_refused hpub hphase hrefused hb)
        have hsame : update s.boundary i (some t) = s.boundary := update_eq_self_iff.mpr hb.symm
        rw [Tickets.cancelNumber_of_lt hlt]
        exact h.relabel (hown.visit hphase fun q ho => absurd ho (hnone q)) rfl hsame rfl rfl
  next => cases hact

end

theorem Sound.stop (hb : s.boundary stage = some t) :
    (s.setBoundary stage { t with boundary := t.boundary.stop }).Sound := by
  have hact : t.act .stop = some ({ t with boundary := t.boundary.stop }, .done) := rfl
  have hok := Tickets.step hact trivial (h.tickets hb).1 (h.tickets hb).2
  have htouch : Tickets.Touches t { t with boundary := t.boundary.stop } 0 :=
    { Tickets.touches_refl t 0 with }
  refine h.exchange hb hok le_rfl rfl rfl id .inl .inl id fun hpub => ?_
  exact (h.orderly hpub).frame hb (h.tickets hb).2 htouch (fun ho => h.owner_pos ho rfl) rfl Iff.rfl

/-- Every step keeps the invariant, if the cleanup of a refused publication has no effect where it
was refused. -/
theorem Sound.act {op : Call} (hop : s.RefusedPassed op) (hact : s.act op = some (s', out)) :
    s'.Sound := by
  cases op with
  | number =>
    cases hact
    exact ⟨h.within, h.tickets, h.owned, h.issued, fun hpub => (h.orderly hpub).congr rfl rfl⟩
  | begin p stages =>
    rw [Flow.act] at hact
    split at hact
    · rename_i hguard
      cases hact
      exact h.begin hguard.2.1 hguard.2.2.1 (Nat.succ_pos _) (some p)
    · cases hact
  | reserve p =>
    obtain ⟨pub, hpub, hact⟩ := bind_eq_some_iff.mp hact
    exact h.reserveStage hpub hact
  | enter p stage =>
    obtain ⟨pub, hpub, hact⟩ := bind_eq_some_iff.mp hact
    exact h.enterStage hpub hact
  | resume p timedOut =>
    obtain ⟨pub, hpub, hact⟩ := bind_eq_some_iff.mp hact
    exact h.resumeStage hpub hact
  | leave p =>
    obtain ⟨pub, hpub, hact⟩ := bind_eq_some_iff.mp hact
    exact h.leaveStage hpub hact
  | emit p stage descendants =>
    obtain ⟨pub, hpub, hact⟩ := bind_eq_some_iff.mp hact
    split at hact
    · rename_i hguard
      cases hact
      refine h.relabel ((h.orderly hpub).proceed ?_ ?_ subset_rfl (by simp) (by simp) (by simp))
        rfl rfl rfl rfl
      all_goals simp [hguard.1]
    · cases hact
  | cancelDescendant p =>
    obtain ⟨pub, hpub, hact⟩ := bind_eq_some_iff.mp hact
    exact h.cancelDescendantStage hpub hact
  | finish p =>
    obtain ⟨pub, hpub, hact⟩ := bind_eq_some_iff.mp hact
    split at hact
    · rename_i hphase
      cases hact
      refine h.relabel ((h.orderly hpub).proceed ?_ ?_ subset_rfl (by simp) (by simp) ⟨by simp, ?_⟩)
        rfl rfl rfl rfl
      · simp [hphase]
      · simp [hphase]
      intro stages hstages
      cases hstages
      exact ⟨nodup_range, fun hb => mem_range.mpr (h.within hb)⟩
    · cases hact
  | cancelStage p =>
    obtain ⟨pub, hpub, hact⟩ := bind_eq_some_iff.mp hact
    exact h.cancelCleanupStage hpub hop hact
  | stop stage =>
    obtain ⟨t, hb, hact⟩ := bind_eq_some_iff.mp hact
    cases hact
    exact h.stop hb

omit h in
theorem sound_of_run {stageCount number : ℕ} {capacity : ℕ → ℕ} {tr : List (Call × Answer)}
    (h : Run (Meeting (Acts Flow.act) fun s e => s.RefusedPassed e.1)
      (start stageCount number capacity) tr s) : s.Sound :=
  h.invariant (sound_start stageCount number capacity) fun _ _ _ hs hstep => hs.act hstep.2 hstep.1

/-- The call of `flow_reorder_cancel` that a step makes: who calls, the stage and the number. -/
def canceling (s : Flow) : Call → Option (ℕ × ℕ × ℕ)
  | .cancelDescendant p =>
    (s.publication p).bind fun pub =>
      match pub.phase with
      | .emitting (stage :: _) =>
        if pub.stageSequences stage = 0 then none else some (p, stage, pub.stageSequences stage)
      | _ => none
  | .cancelStage p =>
    (s.publication p).bind fun pub =>
      match pub.phase with
      | .cleanup (stage :: _) =>
        if pub.stageSequences stage = 0 then none else some (p, stage, pub.stageSequences stage)
      | _ => none
  | _ => none

def CancelsOwn (s : Flow) (op : Call) : Prop :=
  ∀ {p stage n t}, s.canceling op = some (p, stage, n) → s.boundary stage = some t →
    t.boundary.next ≤ n → s.owner stage n = some p

omit h in
theorem canceling_eq (h : s.canceling op = some (p, stage, n)) :
    ∃ pub stages, s.publication p = some pub ∧
      (pub.phase = .emitting (stage :: stages) ∨
        op = .cancelStage p ∧ pub.phase = .cleanup (stage :: stages)) ∧
      n = pub.stageSequences stage ∧ n ≠ 0 := by
  cases op
  case cancelDescendant | cancelStage =>
    obtain ⟨pub, hpub, h⟩ := bind_eq_some_iff.mp h
    split at h
    next i stages hphase =>
      split at h
      · cases h
      rename_i hne
      cases h
      exact ⟨pub, stages, hpub, by simp [hphase], rfl, hne⟩
    next => cases h
  all_goals cases h

theorem Sound.cancelsOwn_iff (op : Call) : s.CancelsOwn op ↔ s.RefusedPassed op := by
  constructor
  · intro hcancels r hr
    cases op with
    | cancelStage p =>
      obtain ⟨pub, hpub, hr⟩ := bind_eq_some_iff.mp hr
      split at hr
      next stage stages hphase =>
        split at hr
        · rename_i hrefused
          obtain ⟨t, hb, rfl⟩ := map_eq_some_iff.mp hr
          obtain ⟨-, hsequence, hnone⟩ := (h.orderly hpub).refused hrefused
          have hne : pub.sequence ≠ 0 := Nat.pos_iff_ne_zero.mp (h.orderly hpub).positive
          by_contra hlt
          refine hnone pub.sequence (hcancels ?_ hb (Nat.le_of_not_lt hlt))
          simp [canceling, hpub, hphase, hsequence, hne]
        · cases hr
      next => cases hr
    | _ => cases hr
  intro hpassed p stage n t hcancel hb hle
  obtain ⟨pub, stages, hpub, hphase | ⟨rfl, hphase⟩, rfl, hne⟩ := canceling_eq hcancel
  · exact (h.orderly hpub).owner (by simp [hphase]) hb hne
  refine ((h.orderly hpub).number hb hne).resolve_right fun hrefused => ?_
  have hlt := hpassed _ (refusedCancel_of_refused hpub hphase hrefused hb)
  rw [((h.orderly hpub).refused hrefused).2.1] at hle
  exact Nat.not_le.mpr hlt hle

theorem Sound.not_passed (hb : s.boundary stage = some t)
    (ho : s.owner stage q = some p) (hpub : s.publication p = some pub) (hholds : pub.Holds stage q)
    (hahead : stage ∉ pub.dispatched ∨ pub.phase = .waiting stage) :
    t.boundary.next ≤ q ∧ q ∉ t.boundary.canceled := by
  obtain ⟨hordered, hqueued⟩ := h.tickets hb
  have hown := h.orderly hpub
  have hk := hown.keeps hb ho
  have hkept : q ∉ t.withdrawn := fun hm => hk.released hm hholds
  refine ⟨?_, fun hm => hkept (hordered.canceled q hm).1⟩
  by_contra hlt
  obtain ⟨⟨u, hu, hreserved⟩, -⟩ := h.issued ho
  rcases hordered.below q hreserved.1 (Nat.lt_of_not_le hlt) with hdeparted | hm
  · obtain ⟨hentered, hnot⟩ := hqueued.admissions q (hqueued.departed q hdeparted)
    rcases hahead with hnew | hwaits
    · exact hnew (hk.entered hentered)
    · exact hnot (hholds.1 ▸ hown.waiting hwaits hb)
  · exact hkept hm

theorem Sound.enter_ne_ealready (hpub : s.publication p = some pub)
    (hne : pub.stageSequences stage ≠ 0) :
    s.act (.enter p stage) ≠ some (s', .entered stage .ealready) := by
  intro hact
  obtain ⟨pub', hpub', hact⟩ := bind_eq_some_iff.mp hact
  obtain rfl : pub = pub' := by simpa [hpub] using hpub'
  unfold Flow.enterStage at hact
  split at hact
  · rename_i hguard
    obtain ⟨hphase, hnew⟩ := hguard
    dsimp only at hact
    split at hact
    · simp at hact
    next t hb =>
      obtain ⟨ho, -⟩ := h.fresh hpub hb hphase hnew hne
      have hholds : pub.Holds stage (pub.stageSequences stage) :=
        (holds_of_not_ended (by simp [hphase])).mpr rfl
      obtain ⟨hle, -⟩ := h.not_passed hb ho hpub hholds (.inl hnew)
      rcases t.boundary.enter_cases (pub.stageSequences stage) with
        ⟨rc, heq, -, hlate, -⟩ | ⟨heq, -⟩ | ⟨heq, -⟩
      · simp only [hne, if_false, Tickets.act, heq, some.injEq, Prod.mk.injEq,
          Answer.entered.injEq, true_and] at hact
        exact Nat.not_lt.mpr hle (hlate hact.2)
      all_goals simp [hne, Tickets.act, heq] at hact
  · cases hact

theorem Sound.due_held (hb : s.boundary stage = some t)
    (hle : t.boundary.next ≤ t.boundary.issued) :
    ∃ p pub, s.owner stage t.boundary.next = some p ∧ s.publication p = some pub ∧
      pub.Holds stage t.boundary.next := by
  obtain ⟨hordered, -⟩ := h.tickets hb
  obtain ⟨p, ho⟩ := h.owned hb ⟨hordered.next_pos, hle⟩
  obtain ⟨-, pub, hpub⟩ := h.issued ho
  refine ⟨p, pub, ho, hpub, ?_⟩
  by_contra hnot
  rcases ((h.orderly hpub).keeps hb ho).passed hnot with hlt | hm
  · exact Nat.lt_irrefl _ hlt
  · exact hordered.next_not_withdrawn hm

end

/-- In every interleaving in which a refusing boundary has passed the number of the flow when the
cleanup of the refused publication comes to it, effective cancels are of own numbers. Then no number
is passed over, or reported as passed, while its owner is in front of the boundary or waits there,
and the number that is due is held by a publication that has not finished with it. A step meets the
condition exactly when it cancels no number of somebody else. -/
theorem cleanup_cancels_own {stageCount number : ℕ} {capacity : ℕ → ℕ} {tr : List (Call × Answer)}
    {s : Flow} (h : Run (Meeting (Acts act) fun s e => s.RefusedPassed e.1)
      (start stageCount number capacity) tr s) :
    (∀ op, s.CancelsOwn op ↔ s.RefusedPassed op) ∧
      (∀ stage t p pub q, s.boundary stage = some t → s.owner stage q = some p →
        s.publication p = some pub → pub.Holds stage q →
        stage ∉ pub.dispatched ∨ pub.phase = .waiting stage →
        t.boundary.next ≤ q ∧ q ∉ t.boundary.canceled) ∧
      (∀ stage p pub s', s.publication p = some pub → pub.stageSequences stage ≠ 0 →
        s.act (.enter p stage) ≠ some (s', .entered stage .ealready)) ∧
      (∀ stage t, s.boundary stage = some t → t.boundary.next ≤ t.boundary.issued →
        ∃ p pub, s.owner stage t.boundary.next = some p ∧ s.publication p = some pub ∧
          pub.Holds stage t.boundary.next) := by
  have hs := sound_of_run h
  exact ⟨hs.cancelsOwn_iff, fun _ _ _ _ _ => hs.not_passed,
    fun _ _ _ _ hpub => hs.enter_ne_ealready hpub, fun _ _ hb => hs.due_held hb⟩

def narrow : Flow :=
  start 2 0 fun stage => if stage = 1 then 1 else 0

def crowd : List Call :=
  [.begin 1 [1], .reserve 1, .reserve 1, .begin 2 [1], .reserve 2, .reserve 2, .begin 3 [1],
    .reserve 3]

def turnover : List Call :=
  [.enter 1 1, .leave 1, .enter 2 1, .leave 2, .begin 4 [1], .reserve 4, .reserve 4]

/-- The cleanup of the refused publication cancels its number 3. The boundary later issues it to the
fourth publication, which is told that it comes too late. -/
theorem cleanup_cancels_stranger :
    (∃ s outs t, exec act narrow (crowd ++ [.cancelStage 3]) = some (s, outs) ∧
      s.canceling (.cancelStage 3) = some (3, 1, 3) ∧ s.boundary 1 = some t ∧
      t.boundary.next ≤ 3 ∧ s.owner 1 3 ≠ some 3) ∧
    ∃ s outs s', exec act narrow
        (crowd ++ [.cancelStage 3, .cancelStage 3, .cancelStage 3] ++ turnover) = some (s, outs) ∧
      s.owner 1 3 = some 4 ∧ s.act (.enter 4 1) = some (s', .entered 1 .ealready) :=
  ⟨⟨_, _, _, rfl, rfl, rfl, by decide, by decide⟩, _, _, _, rfl, rfl, rfl⟩

/-- When the cleanup of the refused publication comes after number 3 has left, it has no effect. -/
theorem cleanup_cancels_own_late :
    ∃ s outs, execMeeting act RefusedPassed narrow
        (crowd ++ turnover ++ [.enter 4 1, .leave 4, .cancelStage 3]) = some (s, outs) ∧
      s.CancelsOwn (.cancelStage 3) := by
  exact ⟨_, _, and_of_imp rfl fun hexec =>
    ((cleanup_cancels_own (run_of_execMeeting hexec)).1 _).mpr (by decide)⟩

end Flow

end TurboFlow.Reorder
