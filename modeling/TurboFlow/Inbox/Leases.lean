import TurboFlow.Inbox.Idempotence
import TurboFlow.Lib.Lease

/-!
# Claim tokens

A claim hands out a pair of record id and claim token, with which `complete` or `fail` settles it.
The token stays in the record through `fail` and `retry`, so a stale pair is told by the token
alone.

`ledger` reads a system as a ledger of leases. That a lease is determined by its record rests on
`Numbered`: a drawn record id belongs to one stored or copied record.
-/

namespace TurboFlow.Inbox

open Word Transition List Option

structure Numbered (s : System) : Prop where
  stored : ∀ i a, recordAt s.memory.slots i = some a → a.recordId ≤ issuedIds s.memory
  copied : ∀ r ∈ s.inFlight, r.recordId ≤ issuedIds s.memory
  unique : ∀ i j a b, recordAt s.memory.slots i = some a → recordAt s.memory.slots j = some b →
    a.recordId = b.recordId → i = j
  distinct : (s.inFlight.map Reservation.recordId).Nodup
  apart : ∀ i a, recordAt s.memory.slots i = some a → ∀ r ∈ s.inFlight, a.recordId ≠ r.recordId

variable {s s' : System} {slot : Slot}

theorem Numbered.of_recordAt (h : Numbered s)
    (hrecord : ∀ i a, recordAt s'.memory.slots i = some a →
      ∃ b, recordAt s.memory.slots i = some b ∧ a.recordId = b.recordId ∧ a.view = b.view)
    (hinFlight : s'.inFlight.Sublist s.inFlight)
    (hids : issuedIds s'.memory = issuedIds s.memory) : Numbered s' where
  stored := by
    intro i a ha
    obtain ⟨b, hb, hid, -⟩ := hrecord i a ha
    rw [hids, hid]
    exact h.stored i b hb
  copied := by
    intro r hr
    rw [hids]
    exact h.copied r (hinFlight.subset hr)
  unique := by
    intro i j a b ha hb hab
    obtain ⟨a', ha', hida, -⟩ := hrecord i a ha
    obtain ⟨b', hb', hidb, -⟩ := hrecord j b hb
    exact h.unique i j a' b' ha' hb' (by rw [← hida, ← hidb, hab])
  distinct := h.distinct.sublist (hinFlight.map _)
  apart := by
    intro i a ha r hr
    obtain ⟨b, hb, hid, -⟩ := hrecord i a ha
    rw [hid]
    exact h.apart i b hb r (hinFlight.subset hr)

variable {op : Operation} {memory : Memory} {claimToken recordId : ℕ} {config : MemoryConfig}
  {tr : List (Operation × Outcome)}

theorem Numbered.reserve (h : Numbered s) (hc : Consistent s)
    (hr : Reservable s.memory source index bytes) :
    Numbered
      ⟨memoryReserve s.memory index bytes,
        s.inFlight ++ [⟨index, bytes, s.memory.nextRecordId, source⟩]⟩ := by
  obtain ⟨hafter, hbefore⟩ := issuedIds_memoryReserve hc hr.ids index bytes
  have hrecord : ∀ i, recordAt (memoryReserve s.memory index bytes).slots i =
      recordAt s.memory.slots i := by
    simp [memoryReserve]
  refine ⟨?_, ?_, ?_, ?_, ?_⟩
  · intro i a ha
    have hle := h.stored i a (by rwa [hrecord] at ha)
    rw [hafter]
    omega
  · simp only [hafter]
    refine forall_mem_append.mpr ⟨fun r hmem => ?_, forall_mem_singleton.mpr (le_refl _)⟩
    have hle := h.copied r hmem
    omega
  · intro i j a b ha hb
    rw [hrecord] at ha hb
    exact h.unique i j a b ha hb
  · rw [map_append]
    refine nodup_append_comm.mpr (nodup_cons.mpr ⟨fun hid => ?_, h.distinct⟩)
    obtain ⟨r, hmem, heq⟩ := List.mem_map.mp hid
    have hle := h.copied r hmem
    dsimp only at heq
    omega
  intro i a ha r hmem heq
  rw [hrecord] at ha
  rcases mem_append.mp hmem with hmem | hmem
  · exact h.apart i a ha r hmem heq
  obtain rfl := mem_singleton.mp hmem
  have hle := h.stored i a ha
  simp only at heq
  omega

theorem Numbered.commit (h : Numbered s) (hk : s.inFlight[k]? = some r)
    (hslot : s.memory.slots[r.slot]? = some ⟨none, true⟩) :
    Numbered (release { s with memory := memoryStore s.memory r } k r) := by
  have hmem := mem_of_getElem? hk
  have hrecord : ∀ i a,
      recordAt (release { s with memory := memoryStore s.memory r } k r).memory.slots i = some a →
      (i = r.slot ∧ a.recordId = r.recordId) ∨ recordAt s.memory.slots i = some a := by
    intro i a ha
    rcases recordAt_of_commit hslot ha with ⟨hi, rfl⟩ | ha
    · exact .inl ⟨hi, rfl⟩
    · exact .inr ha
  have hids : issuedIds (release { s with memory := memoryStore s.memory r } k r).memory =
      issuedIds s.memory := rfl
  refine ⟨?_, ?_, ?_, ?_, ?_⟩
  · intro i a ha
    rw [hids]
    rcases hrecord i a ha with ⟨-, hid⟩ | ha
    · rw [hid]
      exact h.copied r hmem
    · exact h.stored i a ha
  · exact fun r' hr' => h.copied r' (mem_of_mem_eraseIdx hr')
  · intro i j a b ha hb hab
    rcases hrecord i a ha with ⟨rfl, hida⟩ | ha
    · rcases hrecord j b hb with ⟨rfl, -⟩ | hb
      · rfl
      · exact absurd (hab.symm.trans hida) (h.apart j b hb r hmem)
    rcases hrecord j b hb with ⟨rfl, hidb⟩ | hb
    · exact absurd (hab.trans hidb) (h.apart i a ha r hmem)
    · exact h.unique i j a b ha hb hab
  · exact h.distinct.sublist ((eraseIdx_sublist _ k).map _)
  intro i a ha r' hr'
  rcases hrecord i a ha with ⟨-, hid⟩ | ha
  · rw [hid]
    exact (Table.key_ne_of_mem_eraseIdx h.distinct hk hr').symm
  · exact h.apart i a ha r' (mem_of_mem_eraseIdx hr')

theorem Numbered.effect (h : Numbered s) (hc : Consistent s) (he : Effect s op s') :
    Numbered s' := by
  cases he.change with
  | kept hrecord hinFlight hids =>
    exact h.of_recordAt hrecord hinFlight (hids (Nat.ne_of_gt hc.idPos))
  | reserved _ hr _ => exact h.reserve hc hr
  | committed hk _ hslot => exact h.commit hk hslot

/-- The leased pairs of record id and claim token in the slots that `p` selects. -/
def leasesIn (p : ℕ → Prop) (slots : List Slot) : Set (ℕ × ℕ) :=
  {pair | ∃ i a, p i ∧ recordAt slots i = some a ∧ a.phase = .claimed ∧
    (a.recordId, a.claimToken) = pair}

def leases (slots : List Slot) : Set (ℕ × ℕ) :=
  leasesIn (fun _ => True) slots

theorem mem_leases :
    (recordId, claimToken) ∈ leases slots ↔
      ∃ i a, recordAt slots i = some a ∧ a.phase = .claimed ∧ a.recordId = recordId ∧
        a.claimToken = claimToken := by
  simp [leases, leasesIn]

theorem leases_congr (h : ∀ i, recordAt slots' i = recordAt slots i) :
    leases slots' = leases slots := by
  simp only [leases, leasesIn, h]

section Exchange

variable {slots : List Slot} {index : ℕ} {a : MemoryRecord}

theorem leases_eq_union (slots : List Slot) (index : ℕ) :
    leases slots = leasesIn (· = index) slots ∪ leasesIn (· ≠ index) slots := by
  ext pair
  constructor
  · rintro ⟨i, a, -, hlease⟩
    by_cases hi : i = index
    · exact .inl ⟨i, a, hi, hlease⟩
    · exact .inr ⟨i, a, hi, hlease⟩
  · rintro (⟨i, a, -, hlease⟩ | ⟨i, a, -, hlease⟩) <;> exact ⟨i, a, trivial, hlease⟩

theorem leasesIn_ne_withRecord (slots : List Slot) (index : ℕ) (record : Option MemoryRecord) :
    leasesIn (· ≠ index) (slots.modify index (Slot.withRecord record)) =
      leasesIn (· ≠ index) slots := by
  ext pair
  constructor
  · rintro ⟨i, a, hi, ha, hlease⟩
    rw [recordAt_withRecord_of_ne (Ne.symm hi)] at ha
    exact ⟨i, a, hi, ha, hlease⟩
  rintro ⟨i, a, hi, ha, hlease⟩
  rw [← recordAt_withRecord_of_ne (Ne.symm hi) record] at ha
  exact ⟨i, a, hi, ha, hlease⟩

theorem leasesIn_eq_empty (h : ∀ a, recordAt slots index = some a → a.phase ≠ .claimed) :
    leasesIn (· = index) slots = ∅ := by
  ext pair
  constructor
  · rintro ⟨_, a, rfl, ha, hclaimed, -⟩
    exact absurd hclaimed (h a ha)
  · exact False.elim

theorem leasesIn_eq_singleton (h : recordAt slots index = some a) (hclaimed : a.phase = .claimed) :
    leasesIn (· = index) slots = {(a.recordId, a.claimToken)} := by
  ext pair
  constructor
  · rintro ⟨_, b, rfl, hb, -, rfl⟩
    obtain rfl := some.inj (h.symm.trans hb)
    rfl
  rintro rfl
  exact ⟨index, a, rfl, h, hclaimed, rfl⟩

section

variable (hslot : slots[index]? = some slot)
include hslot

theorem leases_of_unclaimed (hold : ∀ a, slot.record = some a → a.phase ≠ .claimed)
    (hnew : ∀ a, record = some a → a.phase ≠ .claimed) :
    leases (slots.modify index (Slot.withRecord record)) = leases slots := by
  rw [leases_eq_union _ index, leases_eq_union slots index, leasesIn_ne_withRecord,
    leasesIn_eq_empty, leasesIn_eq_empty]
  · rwa [recordAt_of_getElem? hslot]
  · rwa [recordAt_withRecord_self hslot]

theorem leases_of_claimed
    (hold : ∀ a, slot.record = some a → a.phase ≠ .claimed) (hclaimed : a.phase = .claimed) :
    leases (slots.modify index (Slot.withRecord (some a))) =
      insert (a.recordId, a.claimToken) (leases slots) := by
  rw [leases_eq_union _ index, leases_eq_union slots index, leasesIn_ne_withRecord,
    leasesIn_eq_singleton (recordAt_withRecord_self hslot _) hclaimed, leasesIn_eq_empty (by rwa
    [recordAt_of_getElem? hslot]), Set.empty_union, Set.insert_eq]

theorem leases_of_settled (hrecord : slot.record = some a) (hclaimed : a.phase = .claimed)
    (hnew : b.phase ≠ .claimed)
    (hunique : ∀ i b, recordAt slots i = some b → b.recordId = a.recordId → i = index) :
    leases (slots.modify index (Slot.withRecord (some b))) =
      leases slots \ {(a.recordId, a.claimToken)} := by
  have hat : recordAt slots index = some a := (recordAt_of_getElem? hslot).trans hrecord
  have hafter : ∀ c, recordAt (slots.modify index (Slot.withRecord (some b))) index = some c →
      c.phase ≠ .claimed := by
    intro c hc
    rw [recordAt_withRecord_self hslot] at hc
    cases hc
    exact hnew
  rw [leases_eq_union _ index, leases_eq_union slots index, leasesIn_ne_withRecord,
    leasesIn_eq_empty hafter, leasesIn_eq_singleton hat hclaimed, Set.empty_union]
  ext pair
  constructor
  · rintro ⟨i, c, hi, hc, hphase, rfl⟩
    refine ⟨.inr ⟨i, c, hi, hc, hphase, rfl⟩, ?_⟩
    intro heq
    exact hi (hunique i c hc (Prod.mk.inj heq).1)
  rintro ⟨hsame | hother, hne⟩
  · exact absurd hsame hne
  · exact hother

end

end Exchange

def issuedTokens (memory : Memory) : ℕ :=
  if memory.claimTokenExhausted then max64 else memory.nextClaimToken - 1

structure Drawn (memory : Memory) : Prop where
  tokenPos : 1 ≤ memory.nextClaimToken
  tokenMax : memory.nextClaimToken ≤ max64

def ledger (s : System) : Lease.Ledger ℕ where
  leases := leases s.memory.slots
  drawn := issuedTokens s.memory

def entry : Operation × Outcome → Lease.Entry ℕ
  | (_, .claimed (.ok claim)) => .grant claim.recordId claim.claimToken
  | (.complete recordId claimToken, .status .ok) => .spend recordId claimToken
  | (.fail recordId claimToken _, .status .ok) => .spend recordId claimToken
  | _ => .keep

theorem issuedTokens_count_claim (h : Drawn memory) (hleft : memory.claimTokenExhausted = false) :
    issuedTokens memory + 1 = memory.nextClaimToken ∧
      issuedTokens (Move.claim.count memory) = memory.nextClaimToken := by
  have htokenPos := h.tokenPos
  have htokenMax := h.tokenMax
  refine ⟨?_, ?_⟩
  · simp only [issuedTokens, hleft, Bool.false_eq_true, if_false]
    omega
  simp only [issuedTokens, Move.count, beq_iff_eq]
  split
  · rename_i hmax
    exact hmax.symm
  rename_i hne
  rw [add64_of_le (by omega)]
  omega

theorem Drawn.count (h : Drawn memory) (mv : Move) : Drawn (mv.count memory) := by
  have htokenPos := h.tokenPos
  have htokenMax := h.tokenMax
  cases mv with
  | claim =>
    by_cases hmax : memory.nextClaimToken = max64
    · exact ⟨by simp [Move.count, hmax, max64], by simp [Move.count, hmax]⟩
    have hnext : (Move.claim.count memory).nextClaimToken = memory.nextClaimToken + 1 := by
      simp only [Move.count, hmax, if_false]
      exact add64_of_le (by omega)
    exact ⟨by omega, by omega⟩
  | complete | fail | retry | discard => exact ⟨h.tokenPos, h.tokenMax⟩

theorem Drawn.effect (h : Drawn s.memory) (he : Effect s op s') : Drawn s'.memory := by
  cases he with
  | idle | reserve | reserveZero | release | commit | forget | close =>
    exact ⟨h.tokenPos, h.tokenMax⟩
  | move mv =>
    have hcount := h.count mv
    exact ⟨hcount.tokenPos, hcount.tokenMax⟩

structure Sound (s : System) : Prop where
  consistent : Consistent s
  coherent : Coherent s
  numbered : Numbered s
  drawn : Drawn s.memory

theorem Sound.effect (h : Sound s) (he : Effect s op s') : Sound s' where
  consistent := h.consistent.effect he
  coherent := h.coherent.effect he
  numbered := h.numbered.effect h.consistent he
  drawn := h.drawn.effect he

theorem sound_of_memoryCreate (hcreate : memoryCreate config = some memory) :
    Sound (System.init memory) where
  consistent := consistent_of_memoryCreate hcreate
  coherent := coherent_of_run hcreate Run.nil
  numbered := by
    have hempty := recordAt_of_memoryCreate hcreate
    refine ⟨?_, by simp [System.init], ?_, by simp [System.init], by simp [System.init]⟩
    · intro i a ha
      rw [System.init, hempty] at ha
      cases ha
    intro i j a b ha
    rw [System.init, hempty] at ha
    cases ha
  drawn := by
    unfold memoryCreate at hcreate
    split at hcreate
    · cases hcreate
      exact ⟨le_refl 1, by simp [System.init, max64]⟩
    · cases hcreate

theorem sound_of_run (hcreate : memoryCreate config = some memory)
    (h : Run (Acts act) (System.init memory) tr s) : Sound s :=
  h.invariant (sound_of_memoryCreate hcreate) fun _ _ _ hs hact => hs.effect (act_effect hact)

structure Selected (memory : Memory) (request : ClaimRequest) (index : ℕ) (record : MemoryRecord) :
    Prop where
  valid : claimRequestValid request
  slot : ∃ slot, memory.slots[index]? = some slot ∧ slot.record = some record
  pending : record.phase = .pending
  included : claimPartitionExcluded record.view request = false
  oldest : ∀ slot ∈ memory.slots, ∀ other, slot.record = some other → other.phase = .pending →
    claimPartitionExcluded other.view request = false → record.recordId ≤ other.recordId
  claims : memory.inFlightClaims < memory.config.maxClaims
  tokens : memory.claimTokenExhausted = false

def leaseRecord (memory : Memory) (record : MemoryRecord) : MemoryRecord :=
  { record with claimToken := memory.nextClaimToken, phase := .claimed }

theorem memoryClaimSelect_cases (memory : Memory) (request : ClaimRequest) :
    (∃ rc, memoryClaimSelect memory request = (memory, .error rc)) ∨
      ∃ index record, Selected memory request index record ∧
        memoryClaimSelect memory request =
          (settle memory .claim index (leaseRecord memory record),
            .ok ⟨record.recordId, memory.nextClaimToken, record.view⟩) := by
  unfold memoryClaimSelect
  split
  · exact .inl ⟨_, rfl⟩
  rename_i hvalid
  split
  · exact .inl ⟨_, rfl⟩
  rename_i index record hselected
  split
  · exact .inl ⟨_, rfl⟩
  rename_i hclaims
  split
  · exact .inl ⟨_, rfl⟩
  rename_i htokens
  refine .inr ⟨index, record, ?_, rfl⟩
  rcases oldestFrom_spec hselected with hnone | ⟨k, slot, rfl, hslot, hrecord, heligible⟩
  · cases hnone
  simp only [Bool.and_eq_true, beq_iff_eq, Bool.not_eq_true'] at heligible
  refine
    { valid := not_not.mp hvalid
      slot := ⟨slot, by simpa using hslot, hrecord⟩
      pending := heligible.1
      included := heligible.2
      oldest := ?_
      claims := Nat.lt_of_not_le hclaims
      tokens := by simpa using htokens }
  intro slot' hmem other hother hpending hincluded
  obtain ⟨oldest, holdest, hle⟩ := (oldestFrom_le
    (fun record => record.phase == .pending && !claimPartitionExcluded record.view request)
    none 0 memory.slots).2 slot' hmem other hother (by simp [hpending, hincluded])
  obtain rfl := some.inj (hselected.symm.trans holdest)
  exact hle

theorem Sound.inboxClaim_eq (h : Sound s) (request : ClaimRequest) :
    inboxClaim s.memory request = memoryClaimSelect s.memory request := by
  unfold inboxClaim
  rcases memoryClaimSelect_cases s.memory request with ⟨rc, heq⟩ | ⟨index, record, hselected, heq⟩
  · rw [heq]
  rw [heq]
  obtain ⟨slot, hslot, hrecord⟩ := hselected.slot
  obtain ⟨hvalid, hid⟩ :=
    h.coherent.stored index record ((recordAt_of_getElem? hslot).trans hrecord)
  have htoken := h.drawn.tokenPos
  have hwellFormed : ¬ (record.recordId = 0 ∨ s.memory.nextClaimToken = 0 ∨
      recordValid record.view ≠ .ok) := by
    simp only [hid, hvalid, ne_eq, not_true_eq_false, or_false, false_or]
    omega
  simp [hwellFormed]

theorem settlement_of_not_leased (h : (recordId, claimToken) ∉ leases memory.slots) :
    memoryComplete memory recordId claimToken = (memory, .ealready) ∧
      ∀ status, memoryFail memory recordId claimToken status = (memory, .ealready) := by
  have hrefused : ∀ index record, memoryFind memory recordId = some (index, record) →
      record.phase ≠ .claimed ∨ record.claimToken ≠ claimToken := by
    intro index record hfind
    obtain ⟨slot, hslot, hrecord, hid⟩ := memoryFind_spec hfind
    by_contra hclaimed
    push Not at hclaimed
    exact h (mem_leases.mpr ⟨index, record, (recordAt_of_getElem? hslot).trans hrecord,
      hclaimed.1, hid, hclaimed.2⟩)
  unfold memoryComplete memoryFail
  cases hfind : memoryFind memory recordId with
  | none => exact ⟨rfl, fun _ => rfl⟩
  | some found => simp only [hrefused found.1 found.2 hfind, if_true, implies_true, and_self]

section Simulation

theorem issuedTokens_settle (memory : Memory) (mv : Move) (index : ℕ) (record : MemoryRecord) :
    issuedTokens (settle memory mv index record) = issuedTokens (mv.count memory) := rfl

theorem ledger_keep (hleases : leases s'.memory.slots = leases s.memory.slots)
    (htokens : issuedTokens s'.memory = issuedTokens s.memory) :
    (ledger s).Step .keep (ledger s') := by
  have heq : ledger s' = ledger s := by simp only [ledger, hleases, htokens]
  rw [heq]
  exact .keep

variable {record : MemoryRecord}

theorem Sound.ledger_grant (h : Sound s) (hselected : Selected s.memory request index record) :
    (ledger s).Step (.grant record.recordId s.memory.nextClaimToken)
      (ledger { s with
        memory := settle s.memory .claim index (leaseRecord s.memory record) }) := by
  obtain ⟨slot, hslot, hrecord⟩ := hselected.slot
  have hat := (recordAt_of_getElem? hslot).trans hrecord
  obtain ⟨hbefore, hafter⟩ := issuedTokens_count_claim h.drawn hselected.tokens
  have hunclaimed : ∀ a, slot.record = some a → a.phase ≠ .claimed := by
    intro a ha
    obtain rfl : record = a := by simpa [hrecord] using ha
    simp [hselected.pending]
  have hfree : ∀ token, (record.recordId, token) ∉ (ledger s).leases := by
    intro token hmem
    obtain ⟨i, a, ha, hclaimed, hid, -⟩ := mem_leases.mp hmem
    obtain rfl := h.numbered.unique i index a record ha hat hid
    obtain rfl := some.inj (hat.symm.trans ha)
    rw [hselected.pending] at hclaimed
    cases hclaimed
  have hgrant := Lease.Ledger.Step.grant hfree
  have hleases := leases_of_claimed (a := leaseRecord s.memory record) hslot hunclaimed rfl
  have hnext : (ledger s).drawn + 1 = s.memory.nextClaimToken := hbefore
  rw [hnext] at hgrant
  have heq : ledger { s with
      memory := settle s.memory .claim index (leaseRecord s.memory record) } =
      ⟨insert (record.recordId, s.memory.nextClaimToken) (ledger s).leases,
        s.memory.nextClaimToken⟩ := by
    simp only [ledger, issuedTokens_settle, hafter]
    rw [settle, hleases]
    rfl
  rwa [heq]

theorem Sound.ledger_spend (h : Sound s) (mv : Move) (hslot : s.memory.slots[index]? = some slot)
    (hrecord : slot.record = some record) (hclaimed : record.phase = .claimed)
    (hafter : record'.phase ≠ .claimed)
    (htokens : issuedTokens (mv.count s.memory) = issuedTokens s.memory) :
    (ledger s).Step (.spend record.recordId record.claimToken)
      (ledger { s with memory := settle s.memory mv index record' }) := by
  have hat := (recordAt_of_getElem? hslot).trans hrecord
  have hleased : (record.recordId, record.claimToken) ∈ (ledger s).leases :=
    mem_leases.mpr ⟨index, record, hat, hclaimed, rfl, rfl⟩
  have hleases := leases_of_settled hslot hrecord hclaimed hafter
    fun i b hb hid => h.numbered.unique i index b record hb hat hid
  have heq : ledger { s with memory := settle s.memory mv index record' } =
      ⟨(ledger s).leases \ {(record.recordId, record.claimToken)}, (ledger s).drawn⟩ := by
    simp only [ledger, issuedTokens_settle, htokens]
    rw [settle, hleases]
  rw [heq]
  exact .spend hleased

theorem Sound.ledger_claim (h : Sound s) (op : Operation) (request : ClaimRequest) :
    (ledger s).Step (entry (op, .claimed (inboxClaim s.memory request).2))
      (ledger { s with memory := (inboxClaim s.memory request).1 }) := by
  rw [h.inboxClaim_eq]
  rcases memoryClaimSelect_cases s.memory request with ⟨rc, heq⟩ | ⟨index, record, hselected, heq⟩
  · rw [heq]
    cases op <;> exact .keep
  rw [heq]
  have hgrant := h.ledger_grant hselected
  cases op <;> exact hgrant

theorem ledger_admit (hvalid : recordValid source = .ok) :
    leases (memoryAdmitReserve s.memory source).1.slots = leases s.memory.slots ∧
      issuedTokens (memoryAdmitReserve s.memory source).1 = issuedTokens s.memory := by
  rcases memoryAdmitReserve_cases hvalid with
    ⟨rc, recordId, heq⟩ | ⟨-, index, bytes, heq⟩ | ⟨-, index, bytes, -, heq⟩
  · rw [heq]
    exact ⟨rfl, rfl⟩
  all_goals
    rw [heq]
    exact ⟨leases_congr (by simp [memoryReserve]), rfl⟩

theorem leases_memoryReleaseReservation (memory : Memory) (index bytes : ℕ) :
    leases (memoryReleaseReservation memory index bytes).slots = leases memory.slots :=
  leases_congr (by simp)

theorem ledger_commit (memory : Memory) (r : Reservation) :
    leases (memoryAdmitCommit memory r).1.slots = leases memory.slots ∧
      issuedTokens (memoryAdmitCommit memory r).1 = issuedTokens memory := by
  unfold memoryAdmitCommit
  split
  · split <;> exact ⟨leases_memoryReleaseReservation _ _ _, rfl⟩
  split
  · rename_i hslot
    refine ⟨?_, rfl⟩
    rw [leases_memoryReleaseReservation, memoryStore]
    refine leases_of_unclaimed hslot (by simp) ?_
    intro a ha
    cases ha
    simp [memoryRecordCopy]
  · exact ⟨leases_memoryReleaseReservation _ _ _, rfl⟩

theorem entry_receiptOf (op : Operation) (source : Record) (rc : Status) (recordId : ℕ) :
    entry (op, receiptOf source rc recordId) = .keep := by
  unfold receiptOf
  split
  · cases op <;> rfl
  · split <;> cases op <;> rfl

theorem entry_refused (op : Operation) (hrc : rc ≠ .ok) : entry (op, .status rc) = .keep := by
  unfold entry
  split <;> simp_all

theorem Sound.ledger_settles (h : Sound s) (hsettles : Settles s.memory recordId mv P result)
    (hmv : mv ≠ .claim) (hspend : mv.before = .claimed → ∀ a, P a →
      entry (op, .status .ok) = .spend recordId a.claimToken)
    (hkeep : mv.before ≠ .claimed → entry (op, .status .ok) = .keep) :
    (ledger s).Step (entry (op, .status result.2)) (ledger { s with memory := result.1 }) := by
  cases hsettles with
  | refused hrc =>
    rw [entry_refused op hrc]
    exact .keep
  | @moved index slot record record' hslot hrecord hid hP hbefore hafter =>
    subst hid
    have hunclaimed : record'.phase ≠ .claimed := by
      rw [hafter]
      cases mv <;> simp_all [Move.after]
    have htokens : issuedTokens (mv.count s.memory) = issuedTokens s.memory := by
      cases mv <;> first | rfl | exact absurd rfl hmv
    by_cases hclaimed : mv.before = .claimed
    · rw [hspend hclaimed record hP]
      exact h.ledger_spend mv hslot hrecord (hbefore.trans hclaimed) hunclaimed htokens
    rw [hkeep hclaimed]
    refine ledger_keep (leases_of_unclaimed hslot (fun a ha => ?_) fun a ha => ?_) htokens
    · cases hrecord.symm.trans ha
      exact hbefore ▸ hclaimed
    cases ha
    exact hunclaimed

theorem Sound.ledger_settlement (h : Sound s) (hresult : settlement s.memory op = some result) :
    (ledger s).Step (entry (op, .status result.2)) (ledger { s with memory := result.1 }) := by
  cases op with
  | complete recordId claimToken =>
    cases hresult
    exact h.ledger_settles (memoryComplete_settles s.memory recordId claimToken) (by simp)
      (fun _ a ha => by rw [← ha]; rfl) (absurd rfl)
  | fail recordId claimToken status =>
    cases hresult
    exact h.ledger_settles (memoryFail_settles s.memory recordId claimToken status) (by simp)
      (fun _ a ha => by rw [← ha]; rfl) (absurd rfl)
  | retry recordId =>
    cases hresult
    exact h.ledger_settles (memoryRetry_settles s.memory recordId) (by simp)
      nofun (fun _ => rfl)
  | discard recordId =>
    cases hresult
    exact h.ledger_settles (memoryDiscard_settles s.memory recordId) (by simp)
      nofun (fun _ => rfl)
  | forget recordId =>
    cases hresult
    rcases memoryForget_cases s.memory recordId with
      ⟨rc, heq, hrc⟩ | ⟨index, record, hslot, -, hphase, heq⟩
    · rw [heq, entry_refused _ hrc]
      exact .keep
    rw [heq]
    refine ledger_keep (leases_of_unclaimed hslot ?_ (by simp)) rfl
    intro a ha
    cases ha
    simp [hphase]
  | close =>
    cases hresult
    unfold memoryClose
    split <;> exact .keep
  | _ => cases hresult

theorem Sound.act_ledger (h : Sound s) (hact : act s op = some (s', out)) :
    (ledger s).Step (entry (op, out)) (ledger s') := by
  cases act_served hact with
  | invalid | snapshot => exact .keep
  | returned hvalid heq =>
    have hreserve := ledger_admit (s := s) hvalid
    rw [heq] at hreserve
    rw [entry_receiptOf]
    exact ledger_keep hreserve.1 hreserve.2
  | reserved hvalid heq =>
    have hreserve := ledger_admit (s := s) hvalid
    rw [heq] at hreserve
    exact ledger_keep hreserve.1 hreserve.2
  | @commit k r =>
    rw [entry_receiptOf]
    exact ledger_keep (ledger_commit s.memory r).1 (ledger_commit s.memory r).2
  | copyFailed => exact ledger_keep (leases_memoryReleaseReservation _ _ _) rfl
  | claim request => exact h.ledger_claim _ request
  | refused =>
    rw [entry_refused _ (by simp)]
    exact .keep
  | settled hresult => exact h.ledger_settlement hresult

end Simulation

theorem ledger_of_run (hcreate : memoryCreate config = some memory)
    (h : Run (Acts act) (System.init memory) tr s) :
    Run Lease.Ledger.Step ⟨∅, issuedTokens memory⟩ (tr.map entry) (ledger s) := by
  have hinit : ledger (System.init memory) = ⟨∅, issuedTokens memory⟩ := by
    have hempty : leases memory.slots = ∅ := by
      ext pair
      simp [leases, leasesIn, recordAt_of_memoryCreate hcreate]
    simp only [ledger, System.init, hempty]
  rw [← hinit]
  exact h.simulate ledger entry (sound_of_memoryCreate hcreate)
    (fun _ _ _ hs hact => hs.effect (act_effect hact)) fun _ _ _ hs hact => hs.act_ledger hact

def issuedPair : Operation × Outcome → Option (ℕ × ℕ)
  | (_, .claimed (.ok claim)) => some (claim.recordId, claim.claimToken)
  | _ => none

def acceptedPair : Operation × Outcome → Option (ℕ × ℕ)
  | (.complete recordId claimToken, .status .ok) => some (recordId, claimToken)
  | (.fail recordId claimToken _, .status .ok) => some (recordId, claimToken)
  | _ => none

def issuedPairs (tr : List (Operation × Outcome)) : List (ℕ × ℕ) :=
  tr.filterMap issuedPair

/-- The pairs accepted by `complete` and `fail` along a trace, in order. -/
def acceptedPairs (tr : List (Operation × Outcome)) : List (ℕ × ℕ) :=
  tr.filterMap acceptedPair

theorem granted_map_entry (tr : List (Operation × Outcome)) :
    Lease.granted (tr.map entry) = issuedPairs tr := by
  have hentry : ∀ e, (entry e).granted = issuedPair e := by
    intro e
    unfold entry
    split
    · rfl
    · rfl
    · rfl
    rename_i hclaim _ _
    unfold issuedPair
    split
    · exact absurd rfl (hclaim _ _)
    · rfl
  rw [Lease.granted, filterMap_map, issuedPairs]
  exact filterMap_congr fun e _ => hentry e

theorem spent_map_entry (tr : List (Operation × Outcome)) :
    Lease.spent (tr.map entry) = acceptedPairs tr := by
  have hentry : ∀ e, (entry e).spent = acceptedPair e := by
    intro e
    unfold entry
    split
    · rename_i op claim
      cases op <;> rfl
    · rfl
    · rfl
    rename_i hcomplete hfail
    unfold acceptedPair
    split
    · exact absurd rfl (hcomplete _ _)
    · exact absurd rfl (hfail _ _ _)
    · rfl
  rw [Lease.spent, filterMap_map, acceptedPairs]
  exact filterMap_congr fun e _ => hentry e

/-- The pair settles its record: `complete` accepts it, or `fail` with some status. -/
def CanSettle (memory : Memory) (recordId claimToken : ℕ) : Prop :=
  (memoryComplete memory recordId claimToken).2 = .ok ∨
    ∃ status, (memoryFail memory recordId claimToken status).2 = .ok

def Refused (memory : Memory) (recordId claimToken : ℕ) : Prop :=
  memoryComplete memory recordId claimToken = (memory, .ealready) ∧
    ∀ status, memoryFail memory recordId claimToken status = (memory, .ealready)

theorem leased_of_canSettle (h : CanSettle memory recordId claimToken) :
    (recordId, claimToken) ∈ leases memory.slots := by
  by_contra hnot
  obtain ⟨hcomplete, hfail⟩ := settlement_of_not_leased hnot
  rcases h with hok | ⟨status, hok⟩
  · rw [hcomplete] at hok
    cases hok
  rw [hfail] at hok
  cases hok

theorem act_claimed (hact : act s op = some (s', .claimed claim)) :
    ∃ request, s' = { s with memory := (inboxClaim s.memory request).1 } ∧
      (inboxClaim s.memory request).2 = claim := by
  generalize hout : Outcome.claimed claim = out at hact
  cases act_served hact with
  | claim request => exact ⟨request, rfl, (Outcome.claimed.inj hout).symm⟩
  | returned | commit =>
    unfold receiptOf at hout
    grind
  | invalid | reserved | copyFailed | refused | settled | snapshot => cases hout

theorem Sound.pending_of_claim (h : Sound s) (hact : act s op = some (s', .claimed (.ok claim))) :
    (∃ i a, recordAt s.memory.slots i = some a ∧ a.recordId = claim.recordId) ∧
      ∀ i a, recordAt s.memory.slots i = some a → a.recordId = claim.recordId →
        a.phase = .pending := by
  obtain ⟨request, -, hclaim⟩ := act_claimed hact
  rw [h.inboxClaim_eq] at hclaim
  rcases memoryClaimSelect_cases s.memory request with ⟨rc, heq⟩ | ⟨index, record, hselected, heq⟩
  · rw [heq] at hclaim
    cases hclaim
  rw [heq] at hclaim
  cases hclaim
  obtain ⟨slot, hslot, hrecord⟩ := hselected.slot
  have hat := (recordAt_of_getElem? hslot).trans hrecord
  refine ⟨⟨index, record, hat, rfl⟩, ?_⟩
  intro i a ha hid
  obtain rfl := h.numbered.unique i index a record ha hat hid
  obtain rfl := some.inj (hat.symm.trans ha)
  exact hselected.pending

/-- Claim tokens fence the claims of a record. Over any run, no token is handed out twice; a record
is settled by one pair at a time; no pair is accepted twice; a pair that was accepted, or whose
record was claimed again, is refused from then on; and only pending records are claimed. -/
theorem claims_fenced {config : MemoryConfig} {memory : Memory}
    (hcreate : memoryCreate config = some memory) {tr : List (Operation × Outcome)} {s : System}
    (h : Run (Acts act) (System.init memory) tr s) :
    ((issuedPairs tr).map Prod.snd).Nodup ∧
      (∀ recordId token token', CanSettle s.memory recordId token →
        CanSettle s.memory recordId token' → token = token') ∧
      (acceptedPairs tr).Nodup ∧
      (∀ recordId token, (recordId, token) ∈ acceptedPairs tr →
        Refused s.memory recordId token) ∧
      (∀ tr₁ tr₂ recordId token token', tr = tr₁ ++ tr₂ → (recordId, token) ∈ issuedPairs tr₁ →
        (recordId, token') ∈ issuedPairs tr₂ → Refused s.memory recordId token) ∧
      ∀ op s' claim, act s op = some (s', .claimed (.ok claim)) →
        (∃ i a, recordAt s.memory.slots i = some a ∧ a.recordId = claim.recordId) ∧
          ∀ i a, recordAt s.memory.slots i = some a → a.recordId = claim.recordId →
            a.phase = .pending := by
  have hrun := ledger_of_run hcreate h
  have haccounted := Lease.accounted_of_run hrun
  have hsound := sound_of_run hcreate h
  have hrefused : ∀ recordId token, (recordId, token) ∈ acceptedPairs tr →
      Refused s.memory recordId token := by
    intro recordId token haccepted
    refine settlement_of_not_leased fun hleased => ?_
    rw [← spent_map_entry] at haccepted
    exact ((haccounted.balance _).mp hleased).2 haccepted
  refine ⟨?_, ?_, ?_, hrefused, ?_, fun op s' claim hact => hsound.pending_of_claim hact⟩
  · rw [← granted_map_entry]
    exact haccounted.tokens
  · intro recordId token token' hsettle hsettle'
    exact haccounted.functional recordId token token' (leased_of_canSettle hsettle)
      (leased_of_canSettle hsettle')
  · rw [← spent_map_entry]
    exact haccounted.spent_once
  rintro tr₁ tr₂ recordId token token' rfl hfirst hagain
  rw [← granted_map_entry] at hfirst hagain
  apply hrefused
  rw [map_append] at hrun
  rw [← spent_map_entry, map_append]
  exact Lease.spent_of_granted_again hrun hfirst hagain

/-- A record fails, is retried and claimed again: its first pair is refused. -/
theorem claims_fenced_reclaimed :
    ∃ memory s outs, memoryCreate twoSlots = some memory ∧
        exec act (System.init memory)
          [.admitRecord (sampleRecord 7), .commit 0, .claim, .fail 1 1 .eio, .retry 1, .claim] =
            some (s, outs) ∧
        (1, 2) ∈ leases s.memory.slots ∧ Refused s.memory 1 1 := by
  exact ⟨_, _, _, and_of_imp rfl fun hcreate => and_of_imp rfl fun hexec =>
    ⟨mem_leases.mpr ⟨0, _, rfl, rfl, rfl, rfl⟩,
      (claims_fenced hcreate (run_of_exec hexec)).2.2.2.1 1 1 (by decide)⟩⟩

end TurboFlow.Inbox
