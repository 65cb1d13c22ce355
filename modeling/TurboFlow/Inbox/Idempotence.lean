import TurboFlow.Inbox.Invariant

/-!
# Idempotent admission

Two callers can both miss the duplicate check of the first critical section, so the second one
repeats it: an identity `(sourceId, admissionId)` is stored at most once (`Coherent`). `Holds s id
record` says that the record is stored under an id; only a successful `forget` of the id ends it.
-/

namespace TurboFlow.Inbox

open Word Table Transition List Option

/-- The record in the slot at `index`. -/
def recordAt (slots : List Slot) (index : ℕ) : Option MemoryRecord :=
  slots[index]?.bind Slot.record

variable {s s' : System} {memory : Memory} {i id₁ id₂ index recordId : ℕ}
  {r₁ r₂ record source : Record} {op : Operation} {slot : Slot} {r : Reservation}
  {a existing : MemoryRecord} {config : MemoryConfig} {slots : List Slot}
  {tr : List (Operation × Outcome)}

theorem recordAt_of_getElem? (h : slots[index]? = some slot) :
    recordAt slots index = slot.record := by
  simp [recordAt, h]

@[simp] theorem recordAt_withReserved (slots : List Slot) (i j : ℕ) (b : Bool) :
    recordAt (slots.modify i (Slot.withReserved b)) j = recordAt slots j := by
  unfold recordAt
  rw [getElem?_modify]
  rcases slots[j]? with _ | slot
  · rfl
  · by_cases hij : i = j <;> simp [hij]

theorem recordAt_withRecord_self (h : slots[i]? = some slot) (record : Option MemoryRecord) :
    recordAt (slots.modify i (Slot.withRecord record)) i = record := by
  simp [recordAt, h]

theorem recordAt_withRecord_of_ne {j : ℕ} (h : i ≠ j) (record : Option MemoryRecord) :
    recordAt (slots.modify i (Slot.withRecord record)) j = recordAt slots j := by
  simp [recordAt, h]

theorem memoryFindAdmission_recordAt {record : MemoryRecord}
    (h : memoryFindAdmission memory source = some (index, record)) :
    recordAt memory.slots index = some record ∧ sameIdentity record.view source := by
  obtain ⟨slot, hslot, hrecord, hid⟩ := memoryFindAdmission_spec h
  exact ⟨(recordAt_of_getElem? hslot).trans hrecord, hid⟩

theorem memoryFindAdmission_none {record : MemoryRecord}
    (h : memoryFindAdmission memory source = none)
    (hrecord : recordAt memory.slots index = some record) :
    sameIdentity record.view source = false := by
  obtain ⟨slot, hslot, hslotRecord⟩ := bind_eq_some_iff.mp hrecord
  exact findFrom_eq_none_iff.mp h slot (mem_of_getElem? hslot) record hslotRecord

structure Coherent (s : System) : Prop where
  unique : ∀ i j a b, recordAt s.memory.slots i = some a → recordAt s.memory.slots j = some b →
    sameIdentity a.view b.view → i = j
  stored : ∀ i a, recordAt s.memory.slots i = some a →
    recordValid a.view = .ok ∧ a.recordId ≠ 0
  copied : ∀ r ∈ s.inFlight, recordValid r.source = .ok ∧ r.recordId ≠ 0

theorem Coherent.of_recordAt (h : Coherent s)
    (hrecord : ∀ i a, recordAt s'.memory.slots i = some a →
      ∃ b, recordAt s.memory.slots i = some b ∧ a.recordId = b.recordId ∧ a.view = b.view)
    (hinFlight : s'.inFlight ⊆ s.inFlight) : Coherent s' := by
  refine ⟨?_, ?_, fun r hr => h.copied r (hinFlight hr)⟩
  · intro i j a b ha hb hab
    obtain ⟨a', ha', -, hav⟩ := hrecord i a ha
    obtain ⟨b', hb', -, hbv⟩ := hrecord j b hb
    rw [hav, hbv] at hab
    exact h.unique i j a' b' ha' hb' hab
  intro i a ha
  obtain ⟨a', ha', hai, hav⟩ := hrecord i a ha
  rw [hai, hav]
  exact h.stored i a' ha'

theorem memoryRecordCopy_view (h : recordValid r.source = .ok) :
    (memoryRecordCopy r).view = r.source := by
  have hschema := (envelope_of_recordValid h).2.1
  simp only [memoryRecordCopy, ← hschema]

theorem Coherent.reserve (h : Coherent s) {bytes : ℕ} (hr : Reservable s.memory source index bytes)
    (hid : s.memory.nextRecordId ≠ 0) :
    Coherent
      ⟨memoryReserve s.memory index bytes,
        s.inFlight ++ [⟨index, bytes, s.memory.nextRecordId, source⟩]⟩ := by
  refine ⟨?_, ?_, ?_⟩
  · intro i j a b ha hb
    simp only [memoryReserve, recordAt_withReserved] at ha hb
    exact h.unique i j a b ha hb
  · intro i a ha
    simp only [memoryReserve, recordAt_withReserved] at ha
    exact h.stored i a ha
  · exact forall_mem_append.mpr ⟨h.copied, forall_mem_singleton.mpr ⟨hr.valid, hid⟩⟩

theorem recordAt_of_commit (hslot : s.memory.slots[r.slot]? = some ⟨none, true⟩)
    (ha : recordAt (release { s with memory := memoryStore s.memory r } k r).memory.slots i =
      some a) : (i = r.slot ∧ a = memoryRecordCopy r) ∨ recordAt s.memory.slots i = some a := by
  simp only [release, memoryReleaseReservation, memoryStore, recordAt_withReserved] at ha
  by_cases hi : r.slot = i
  · subst hi
    rw [recordAt_withRecord_self hslot] at ha
    exact .inl ⟨rfl, (some.inj ha).symm⟩
  rw [recordAt_withRecord_of_ne hi] at ha
  exact .inr ha

theorem recordAt_of_eraseRecord {record : MemoryRecord} (hslot : memory.slots[index]? = some slot)
    (ha : recordAt (eraseRecord memory index record).slots i = some a) :
    recordAt memory.slots i = some a := by
  by_cases hi : index = i
  · subst hi
    rw [eraseRecord, recordAt_withRecord_self hslot] at ha
    cases ha
  · rwa [eraseRecord, recordAt_withRecord_of_ne hi] at ha

theorem Coherent.commit (h : Coherent s) {k : ℕ} (hk : s.inFlight[k]? = some r)
    (hfresh : memoryFindAdmission s.memory r.source = none)
    (hslot : s.memory.slots[r.slot]? = some ⟨none, true⟩) :
    Coherent (release { s with memory := memoryStore s.memory r } k r) := by
  have hcopied := h.copied r (mem_of_getElem? hk)
  have hview := memoryRecordCopy_view hcopied.1
  have hrecord : ∀ i a,
      recordAt (release { s with memory := memoryStore s.memory r } k r).memory.slots i = some a →
      (i = r.slot ∧ a = memoryRecordCopy r) ∨ recordAt s.memory.slots i = some a :=
    fun _ _ ha => recordAt_of_commit hslot ha
  have hother : ∀ i a, recordAt s.memory.slots i = some a →
      sameIdentity a.view (memoryRecordCopy r).view = false := by
    intro i a ha
    rw [hview]
    exact memoryFindAdmission_none hfresh ha
  refine ⟨?_, ?_, fun r' hr' => h.copied r' (mem_of_mem_eraseIdx hr')⟩
  · intro i j a b ha hb hab
    rcases hrecord i a ha with ⟨rfl, rfl⟩ | ha'
    · rcases hrecord j b hb with ⟨rfl, rfl⟩ | hb'
      · rfl
      rw [sameIdentity_comm, hother j b hb'] at hab
      cases hab
    rcases hrecord j b hb with ⟨rfl, rfl⟩ | hb'
    · rw [hother i a ha'] at hab
      cases hab
    · exact h.unique i j a b ha' hb' hab
  intro i a ha
  rcases hrecord i a ha with ⟨-, rfl⟩ | ha'
  · rw [hview]
    exact hcopied
  · exact h.stored i a ha'

theorem recordAt_settle {record : MemoryRecord} (hslot : memory.slots[index]? = some slot)
    (hrecord : slot.record = some record) (mv : Move) (record' : MemoryRecord) (i : ℕ) :
    (i = index ∧ recordAt memory.slots i = some record ∧
        recordAt (settle memory mv index record').slots i = some record') ∨
      (i ≠ index ∧
        recordAt (settle memory mv index record').slots i = recordAt memory.slots i) := by
  by_cases hi : i = index
  · subst hi
    exact .inl ⟨rfl, (recordAt_of_getElem? hslot).trans hrecord, recordAt_withRecord_self hslot _⟩
  · exact .inr ⟨hi, recordAt_withRecord_of_ne (Ne.symm hi) _⟩

inductive Change (s : System) (op : Operation) : System → Prop
  | kept {s' : System}
      (hrecord : ∀ i a, recordAt s'.memory.slots i = some a →
        ∃ b, recordAt s.memory.slots i = some b ∧ a.recordId = b.recordId ∧ a.view = b.view)
      (hinFlight : s'.inFlight.Sublist s.inFlight)
      (hids : s.memory.nextRecordId ≠ 0 → issuedIds s'.memory = issuedIds s.memory) :
      Change s op s'
  | reserved {source : Record} {index bytes : ℕ} (hop : op = .admitRecord source)
      (hr : Reservable s.memory source index bytes) (hid : s.memory.nextRecordId ≠ 0) :
      Change s op
        ⟨memoryReserve s.memory index bytes,
          s.inFlight ++ [⟨index, bytes, s.memory.nextRecordId, source⟩]⟩
  | committed {k : ℕ} {r : Reservation} (hk : s.inFlight[k]? = some r)
      (hfresh : memoryFindAdmission s.memory r.source = none)
      (hslot : s.memory.slots[r.slot]? = some ⟨none, true⟩) :
      Change s op (release { s with memory := memoryStore s.memory r } k r)

theorem Effect.change (he : Effect s op s') : Change s op s' := by
  cases he with
  | idle | close =>
    exact .kept (fun i a ha => ⟨a, ha, rfl, rfl⟩) (Sublist.refl _) fun _ => rfl
  | reserve hr hid => exact .reserved rfl hr hid
  | reserveZero hid =>
    refine .kept (fun i a ha => ⟨a, ?_, rfl, rfl⟩) (Sublist.refl _) (absurd hid)
    simpa [memoryReserve] using ha
  | release =>
    refine .kept (fun i a ha => ⟨a, ?_, rfl, rfl⟩) (eraseIdx_sublist _ _) fun _ => rfl
    simpa [Inbox.release] using ha
  | commit hk hfresh hslot => exact .committed hk hfresh hslot
  | move mv record' hslot hrecord _ _ hid hview _ _ =>
    refine .kept (fun i a ha => ?_) (Sublist.refl _) fun _ => by simp [settle, issuedIds]
    rcases recordAt_settle hslot hrecord mv record' i with ⟨-, hbefore, hafter⟩ | ⟨-, hsame⟩
    · obtain rfl := some.inj (hafter.symm.trans ha)
      exact ⟨_, hbefore, hid, hview⟩
    · exact ⟨a, hsame ▸ ha, rfl, rfl⟩
  | forget hslot _ =>
    exact .kept (fun i a ha => ⟨a, recordAt_of_eraseRecord hslot ha, rfl, rfl⟩)
      (Sublist.refl _) fun _ => rfl

theorem Coherent.effect (h : Coherent s) (he : Effect s op s') : Coherent s' := by
  cases he.change with
  | kept hrecord hinFlight _ => exact h.of_recordAt hrecord hinFlight.subset
  | reserved _ hr hid => exact h.reserve hr hid
  | committed hk hfresh hslot => exact h.commit hk hfresh hslot

theorem recordAt_of_memoryCreate (hcreate : memoryCreate config = some memory) (i : ℕ) :
    recordAt memory.slots i = none := by
  unfold memoryCreate at hcreate
  split at hcreate
  · cases hcreate
    unfold recordAt
    rw [getElem?_replicate]
    split <;> rfl
  · cases hcreate

theorem coherent_of_run (hcreate : memoryCreate config = some memory)
    (h : Run (Acts act) (System.init memory) tr s) : Coherent s := by
  refine h.invariant ?_ fun _ _ _ hs hact => hs.effect (act_effect hact)
  have hempty := recordAt_of_memoryCreate hcreate
  refine ⟨?_, ?_, by simp [System.init]⟩
  · intro i j a b ha
    rw [System.init, hempty] at ha
    cases ha
  intro i a ha
  rw [System.init, hempty] at ha
  cases ha

def Holds (s : System) (recordId : ℕ) (record : Record) : Prop :=
  ∃ i a, recordAt s.memory.slots i = some a ∧ a.recordId = recordId ∧ a.view = record

theorem Coherent.findAdmission (h : Coherent s) (hholds : Holds s recordId record)
    (hsame : sameIdentity record source) :
    ∃ index existing, memoryFindAdmission s.memory source = some (index, existing) ∧
      existing.recordId = recordId ∧ existing.view = record := by
  obtain ⟨i, a, ha, rfl, rfl⟩ := hholds
  cases hfind : memoryFindAdmission s.memory source with
  | none =>
    rw [memoryFindAdmission_none hfind ha] at hsame
    cases hsame
  | some found =>
    obtain ⟨index, existing⟩ := found
    obtain ⟨hexisting, hidentity⟩ := memoryFindAdmission_recordAt hfind
    have hab : sameIdentity a.view existing.view := by
      rw [sameIdentity_iff] at *
      exact ⟨hsame.1.trans hidentity.1.symm, hsame.2.trans hidentity.2.symm⟩
    obtain rfl := h.unique i index a existing ha hexisting hab
    obtain rfl := some.inj (ha.symm.trans hexisting)
    exact ⟨i, a, rfl, rfl, rfl⟩

theorem Coherent.holds_valid (h : Coherent s) (hholds : Holds s recordId record) :
    recordValid record = .ok ∧ recordId ≠ 0 := by
  obtain ⟨i, a, ha, rfl, rfl⟩ := hholds
  exact h.stored i a ha

theorem holds_effect (he : Effect s op s') (hop : op ≠ .forget recordId)
    (h : Holds s recordId record) : Holds s' recordId record := by
  obtain ⟨i, a, ha, rfl, rfl⟩ := h
  cases he with
  | idle | close => exact ⟨i, a, ha, rfl, rfl⟩
  | reserve | reserveZero => exact ⟨i, a, by simpa [memoryReserve] using ha, rfl, rfl⟩
  | release =>
    exact ⟨i, a, by simpa [release] using ha, rfl, rfl⟩
  | @commit _ r _ _ hslot =>
    have hne : r.slot ≠ i := by
      rintro rfl
      rw [recordAt_of_getElem? hslot] at ha
      cases ha
    refine ⟨i, a, ?_, rfl, rfl⟩
    simpa [release, memoryStore, recordAt_withRecord_of_ne hne] using ha
  | @move _ _ _ stored mv record' hslot hrecord _ _ hid hview _ _ =>
    rcases recordAt_settle hslot hrecord mv record' i with ⟨-, hbefore, hafter⟩ | ⟨-, hsame⟩
    · obtain rfl := some.inj (hbefore.symm.trans ha)
      exact ⟨i, record', hafter, hid, hview⟩
    · exact ⟨i, a, hsame.trans ha, rfl, rfl⟩
  | @forget index stored hslot _ =>
    have hne : index ≠ i := by
      rintro rfl
      rw [recordAt_of_getElem? hslot] at ha
      cases ha
      exact hop rfl
    exact ⟨i, a, (recordAt_withRecord_of_ne hne none).trans ha, rfl, rfl⟩

theorem holds_act (hact : act s op = some (s', out))
    (hkept : (op, out) ≠ (.forget recordId, .status .ok)) (h : Holds s recordId record) :
    Holds s' recordId record := by
  by_cases hop : op = .forget recordId
  · subst hop
    cases act_served hact with
    | claim request => exact holds_effect (inboxClaim_effect s .claim request) (by simp) h
    | refused => exact h
    | settled hresult =>
      cases hresult
      rcases memoryForget_cases s.memory recordId with ⟨rc, heq, -⟩ | ⟨index, a, -, -, -, heq⟩
      · rwa [heq]
      rw [heq] at hkept
      exact absurd rfl hkept
  · exact holds_effect (act_effect hact) hop h

def NotForgotten (recordId : ℕ) (tr : List (Operation × Outcome)) : Prop :=
  ∀ e ∈ tr, e ≠ (.forget recordId, .status .ok)

theorem holds_run (h : Run (Acts act) s tr s') (hkept : NotForgotten recordId tr)
    (hholds : Holds s recordId record) : Holds s' recordId record := by
  induction h with
  | nil => exact hholds
  | @snoc tr t t' e _ hact ih =>
    have hlast : e ≠ (.forget recordId, .status .ok) := hkept e (by simp)
    exact holds_act hact hlast (ih fun e he => hkept e (by simp [he]))

theorem receiptOf_ok (h : receiptOf source rc recordId = .admitted source' .ok recordId') :
    source = source' ∧ rc = .ok ∧ recordId = recordId' ∧ recordId ≠ 0 := by
  unfold receiptOf at h
  split at h
  · rename_i hrc
    obtain ⟨-, rfl, -⟩ := Outcome.admitted.inj h
    exact absurd rfl hrc
  split at h
  · cases h
  rename_i hrc hid
  obtain ⟨rfl, -, rfl⟩ := Outcome.admitted.inj h
  exact ⟨rfl, not_not.mp hrc, rfl, hid⟩

theorem memoryAdmitCommit_of_found
    (h : memoryFindAdmission memory r.source = some (index, existing)) :
    memoryAdmitCommit memory r =
      (memoryReleaseReservation memory r.slot r.bytes,
        if recordEqual existing.view r.source then (.ok, existing.recordId) else (.eproto, 0)) := by
  simp only [memoryAdmitCommit, h]
  split <;> rfl

theorem memoryAdmitReserve_ok (hvalid : recordValid source = .ok)
    (h : memoryAdmitReserve memory source = (memory', .returned .ok recordId))
    (hid : recordId ≠ 0) :
    memory' = memory ∧ ∃ index existing,
      memoryFindAdmission memory source = some (index, existing) ∧
        recordEqual existing.view source ∧ existing.recordId = recordId := by
  cases hfind : memoryFindAdmission memory source with
  | some found =>
    obtain ⟨index, existing⟩ := found
    rw [memoryAdmitReserve_of_found hfind] at h
    obtain ⟨rfl, hret⟩ := Prod.mk.inj h
    split at hret
    · rename_i heq
      exact ⟨rfl, index, existing, rfl, heq, (Admission.returned.inj hret).2⟩
    · cases hret
  | none =>
    rw [memoryAdmitReserve_of_fresh hfind] at h
    rcases memoryAdmitFresh_cases hvalid hfind with
      ⟨rc, hrc, hne, -⟩ | ⟨-, index, bytes, hrc⟩ | ⟨-, index, bytes, -, hrc⟩
    · rw [hrc] at h
      obtain ⟨rfl, -⟩ : rc = .ok ∧ _ := by simpa using (Prod.mk.inj h).2
      exact absurd rfl hne
    · rw [hrc] at h
      obtain rfl : 0 = recordId := by simpa using (Prod.mk.inj h).2
      exact absurd rfl hid
    · simp [hrc] at h

theorem holds_of_found (h : Coherent s) (hvalid : recordValid source = .ok)
    (hfind : memoryFindAdmission s.memory source = some (index, existing))
    (heq : recordEqual existing.view source) : Holds s existing.recordId source := by
  obtain ⟨hrecord, -⟩ := memoryFindAdmission_recordAt hfind
  have hstored := (h.stored index existing hrecord).1
  exact ⟨index, existing, hrecord, rfl, (recordEqual_iff hstored hvalid).mp heq⟩

theorem Coherent.holds_of_admitted (h : Coherent s)
    (hact : act s op = some (s', .admitted source .ok recordId)) : Holds s' recordId source := by
  generalize hout : Outcome.admitted source .ok recordId = out at hact
  cases act_served hact with
  | invalid hvalid => exact absurd (Outcome.admitted.inj hout).2.1.symm hvalid
  | returned hvalid hres =>
    obtain ⟨rfl, rfl, rfl, hid⟩ := receiptOf_ok hout.symm
    obtain ⟨rfl, index, existing, hfind, heq, rfl⟩ := memoryAdmitReserve_ok hvalid hres hid
    exact holds_of_found h hvalid hfind heq
  | @commit k r hk =>
    obtain ⟨rfl, hrc, hid, -⟩ := receiptOf_ok hout.symm
    have hcopied := (h.copied r (mem_of_getElem? hk)).1
    cases hfind : memoryFindAdmission s.memory r.source with
    | some found =>
      obtain ⟨index, existing⟩ := found
      rw [memoryAdmitCommit_of_found hfind] at hrc hid ⊢
      split at hrc
      · rename_i heq
        simp only [heq, if_true] at hid
        subst hid
        have heffect : Effect s (.commit k) (release s k r) := .release hk
        exact holds_effect heffect (by simp) (holds_of_found h hcopied hfind heq)
      · cases hrc
    | none =>
      unfold memoryAdmitCommit at hrc hid ⊢
      simp only [hfind] at hrc hid ⊢
      split at hrc
      · rename_i hslot
        simp only [hslot] at hid ⊢
        refine ⟨r.slot, memoryRecordCopy r, ?_, hid, memoryRecordCopy_view hcopied⟩
        simp [memoryStore, recordAt_withRecord_self hslot]
      · cases hrc
  | reserved | copyFailed | claim | refused | settled | snapshot => cases hout

/-- Admission of a stored identity: the same record is given its id, another one is refused. Nothing
changes but that the second section gives the reservation back. -/
theorem Coherent.admit_held (h : Coherent s) (hholds : Holds s recordId record)
    (hsame : sameIdentity record source) (hvalid : recordValid source = .ok) :
    let out := if record = source then Outcome.admitted source .ok recordId
      else .admitted source .eproto 0
    act s (.admitRecord source) = some (s, out) ∧
      ∀ k r, s.inFlight[k]? = some r → r.source = source →
        act s (.commit k) = some (release s k r, out) := by
  obtain ⟨hrecord, hid⟩ := h.holds_valid hholds
  obtain ⟨index, existing, hfind, rfl, rfl⟩ := h.findAdmission hholds hsame
  have hequal : recordEqual existing.view source = decide (existing.view = source) := by
    rw [Bool.eq_iff_iff, recordEqual_iff hrecord hvalid, decide_eq_true_iff]
  by_cases heq : existing.view = source
  · simp only [heq, decide_true] at hequal
    refine ⟨?_, ?_⟩
    · simp [act, hvalid, memoryAdmitReserve_of_found hfind, hequal, heq, receiptOf, hid]
    rintro k r hk rfl
    simp [act, hk, memoryAdmitCommit_of_found hfind, hequal, heq, receiptOf, hid, release]
  simp only [heq, decide_false] at hequal
  refine ⟨?_, ?_⟩
  · simp [act, hvalid, memoryAdmitReserve_of_found hfind, hequal, heq, receiptOf]
  rintro k r hk rfl
  simp [act, hk, memoryAdmitCommit_of_found hfind, hequal, heq, receiptOf, release]

/-- Two successful admissions of one identity, not forgotten in between, return one id and carried
one record. -/
theorem admitted_twice (hcreate : memoryCreate config = some memory)
    (h : Run (Acts act) (System.init memory)
      (tr₁ ++ [(op₁, .admitted r₁ .ok id₁)] ++ tr₂ ++ [(op₂, .admitted r₂ .ok id₂)] ++ tr₃) s)
    (hsame : sameIdentity r₁ r₂) (hkept : NotForgotten id₁ tr₂) : id₁ = id₂ ∧ r₁ = r₂ := by
  obtain ⟨t₄, h₄, -⟩ := h.split
  obtain ⟨t₃, h₃, hsecond⟩ := Run.snoc_iff.mp h₄
  obtain ⟨t₂, h₂, hmiddle⟩ := h₃.split
  obtain ⟨t₁, h₁, hfirst⟩ := Run.snoc_iff.mp h₂
  have hstored : Holds t₂ id₁ r₁ := (coherent_of_run hcreate h₁).holds_of_admitted hfirst
  have hstill : Holds t₃ id₁ r₁ := holds_run hmiddle hkept hstored
  obtain ⟨i, a, ha, rfl, rfl⟩ := holds_act hsecond (by simp) hstill
  obtain ⟨j, b, hb, rfl, rfl⟩ := (coherent_of_run hcreate h₃).holds_of_admitted hsecond
  obtain rfl := (coherent_of_run hcreate h₄).unique i j a b ha hb hsame
  cases ha.symm.trans hb
  exact ⟨rfl, rfl⟩

/-- Idempotent admission: identities are stored once, successful admissions of one identity agree
until it is forgotten, and a stored identity answers from its record. -/
theorem memory_idempotence {config : MemoryConfig} {memory : Memory}
    (hcreate : memoryCreate config = some memory) {tr : List (Operation × Outcome)} {s : System}
    (h : Run (Acts act) (System.init memory) tr s) :
    (∀ i j a b, recordAt s.memory.slots i = some a → recordAt s.memory.slots j = some b →
        sameIdentity a.view b.view → i = j) ∧
      (∀ tr₁ tr₂ tr₃ op₁ op₂ r₁ r₂ id₁ id₂,
        tr = tr₁ ++ [(op₁, .admitted r₁ .ok id₁)] ++ tr₂ ++ [(op₂, .admitted r₂ .ok id₂)] ++ tr₃ →
          sameIdentity r₁ r₂ → NotForgotten id₁ tr₂ → id₁ = id₂ ∧ r₁ = r₂) ∧
      (∀ recordId record source, Holds s recordId record → sameIdentity record source →
        recordValid source = .ok → record ≠ source →
          act s (.admitRecord source) = some (s, .admitted source .eproto 0) ∧
            ∀ k r, s.inFlight[k]? = some r → r.source = source →
              act s (.commit k) = some (release s k r, .admitted source .eproto 0)) ∧
      (∀ recordId record, Holds s recordId record →
        act s (.admitRecord record) = some (s, .admitted record .ok recordId)) := by
  have hs := coherent_of_run hcreate h
  refine ⟨hs.unique, ?_, ?_, ?_⟩
  · rintro tr₁ tr₂ tr₃ op₁ op₂ r₁ r₂ id₁ id₂ rfl
    exact admitted_twice hcreate h
  · intro recordId record source hholds hsame hvalid hne
    have hheld := hs.admit_held hholds hsame hvalid
    simpa only [hne, if_false] using hheld
  intro recordId record hholds
  have hvalid := (hs.holds_valid hholds).1
  have hheld := (hs.admit_held hholds (by simp) hvalid).1
  simpa using hheld

/-- A completed record answers its replay after the inbox was closed. -/
theorem memory_idempotence_replay :
    ∃ memory s outs, memoryCreate twoSlots = some memory ∧
        exec act (System.init memory)
          [.admitRecord (sampleRecord 7), .commit 0, .claim, .complete 1 1, .close] =
            some (s, outs) ∧
        s.memory.accepting = false ∧
        act s (.admitRecord (sampleRecord 7)) = some (s, .admitted (sampleRecord 7) .ok 1) := by
  exact ⟨_, _, _, and_of_imp rfl fun hcreate => and_of_imp rfl fun hexec => ⟨rfl,
    (memory_idempotence hcreate (run_of_exec hexec)).2.2.2 1 (sampleRecord 7)
      ⟨0, _, rfl, rfl, rfl⟩⟩⟩

end TurboFlow.Inbox
