import TurboFlow.Durable.Drain
import TurboFlow.Lib.Exclusion

/-!
# Exclusive partitions

In a run of a buffer no two drivers own claims of one partition. The exclusion list of a progress
call names the partitions of the drivers it has visited, each once. Keys are short and there are at
most 64 drivers, so the inbox accepts every exclusion list.
-/

namespace TurboFlow.Durable

open Inbox Transition Exclusion Word List Option

def keyOf (claim : Option Claim) : Option Bytes :=
  claim.map fun claim => claim.record.partitionKey

theorem keyOf_release (h : claim' = claim ∨ claim' = none) :
    keyOf claim' = keyOf claim ∨ keyOf claim' = none := by
  rcases h with rfl | rfl
  · exact .inl rfl
  · exact .inr rfl

/-- The exclusion list names the partitions of the drivers in `p`, and it fits its array. -/
structure Excludes (p : ℕ → Prop) (b : Binding) (excluded : List Bytes) : Prop where
  lists : Lists p (fun i => keyOf (b.claimAt i)) excluded
  fits : excluded.length ≤ maxWorkers

theorem Excludes.congr {p : ℕ → Prop} {b b' : Binding} {excluded : List Bytes}
    (h : Excludes p b excluded) (hclaims : ∀ i, b'.claimAt i = b.claimAt i) :
    Excludes p b' excluded :=
  ⟨h.lists.congr fun i key => by rw [hclaims], h.fits⟩

variable {s : Buffer} {refill : Refill} {claim : Claim}

namespace Buffer

def CallSound (s : Buffer) : Prop :=
  match s.call with
  | .none => True
  | .polling pass =>
    s.binding.drain.ordering = .partition → Excludes (· < pass.index) s.binding pass.excluded
  | .refilling refill =>
    s.binding.drain.ordering = .partition → Excludes (fun _ => True) s.binding refill.excluded
  | .claimed refill claim =>
    s.binding.claimAt refill.index = none ∧
      (s.binding.drain.ordering = .partition →
        Excludes (fun _ => True) s.binding refill.excluded ∧
          claim.record.partitionKey ∉ refill.excluded)

section CallSound

theorem callSound_none (h : s.call = .none) : s.CallSound := by
  rw [CallSound, h]
  trivial

theorem callSound_polling {pass : Pass} (h : s.call = .polling pass) :
    s.CallSound ↔ (s.binding.drain.ordering = .partition →
      Excludes (· < pass.index) s.binding pass.excluded) := by
  rw [CallSound, h]

theorem callSound_refilling (h : s.call = .refilling refill) :
    s.CallSound ↔ (s.binding.drain.ordering = .partition →
      Excludes (fun _ => True) s.binding refill.excluded) := by
  rw [CallSound, h]

theorem callSound_claimed (h : s.call = .claimed refill claim) :
    s.CallSound ↔ s.binding.claimAt refill.index = none ∧
      (s.binding.drain.ordering = .partition →
        Excludes (fun _ => True) s.binding refill.excluded ∧
          claim.record.partitionKey ∉ refill.excluded) := by
  rw [CallSound, h]

end CallSound

/-- The drivers in use are configured ones with different partitions, which the progress call has
listed. -/
structure Orderly (s : Buffer) : Prop where
  sound : Sound s.inbox
  keys : KeysWithin partitionComponentMax s.inbox
  bounded : ∀ i claim, s.held i = some claim → i < s.binding.effectiveWorkers
  apart : Apart fun i => keyOf (s.held i)
  short : ∀ i claim, s.held i = some claim →
    claim.record.partitionKey ≠ [] ∧ claim.record.partitionKey.length ≤ partitionComponentMax
  call : s.CallSound

end Buffer

theorem partitionKey_of_recordValid (h : recordValid record = .ok) : record.partitionKey ≠ [] := by
  intro hempty
  unfold recordValid at h
  split at h
  · cases h
  split at h
  · cases h
  simp [hempty] at h

theorem excludedPartitionsValid_of_short {keys : List Bytes} (earlier : List Bytes) (total : ℕ)
    (hnodup : (earlier ++ keys).Nodup)
    (hshort : ∀ key ∈ keys, key ≠ [] ∧ key.length ≤ partitionComponentMax)
    (htotal : total + keys.length * partitionComponentMax ≤ claimMaxExcludedBytes) :
    excludedPartitionsValid earlier total keys := by
  induction keys generalizing earlier total with
  | nil => rfl
  | cons key keys ih =>
    obtain ⟨hne, hlength⟩ := hshort key mem_cons_self
    have hroom : total + key.length + keys.length * partitionComponentMax ≤
        claimMaxExcludedBytes := by
      rw [length_cons, Nat.succ_mul] at htotal
      omega
    have hnew : key ∉ earlier := fun hmem =>
      (nodup_append.mp hnodup).2.2 key hmem key mem_cons_self rfl
    have hvalid := ih (earlier ++ [key]) (total + key.length) (by simpa using hnodup)
      (fun k hk => hshort k (mem_cons_of_mem _ hk)) hroom
    have hfits : ¬ (key = [] ∨ key.length > claimMaxExcludedBytes - total) := by
      rintro (h | h)
      · exact hne h
      · omega
    rw [excludedPartitionsValid, if_neg hfits, if_neg hnew]
    exact hvalid

namespace Buffer

variable {s' : Buffer}

variable {request : ClaimRequest} {recordId : ℕ}

section

variable (h : Orderly s)

include h

theorem Orderly.claimRequestValid (hcall : s.call = .refilling refill) :
    claimRequestValid (s.claimRequest refill) := by
  unfold claimRequest
  cases hordering : s.binding.drain.ordering with
  | global => rfl
  | partition =>
    have hexcludes := (callSound_refilling hcall).mp h.call hordering
    have hshort : ∀ key ∈ refill.excluded, key ≠ [] ∧ key.length ≤ partitionComponentMax := by
      intro key hkey
      obtain ⟨i, -, hi⟩ := hexcludes.lists.sound key hkey
      obtain ⟨claim, hclaim, rfl⟩ := map_eq_some_iff.mp hi
      exact h.short i claim (by rw [held_of_refilling hcall, hclaim])
    have htotal : 0 + refill.excluded.length * partitionComponentMax ≤ claimMaxExcludedBytes := by
      have hfits := hexcludes.fits
      have hmax : maxWorkers * partitionComponentMax ≤ claimMaxExcludedBytes := by decide
      have hmul := Nat.mul_le_mul_right partitionComponentMax hfits
      omega
    have hvalid := excludedPartitionsValid_of_short [] 0 (by simpa using hexcludes.lists.nodup)
      hshort htotal
    simp only [Inbox.claimRequestValid, hvalid, and_true, decide_eq_true_eq]
    exact hexcludes.fits

theorem Orderly.release (hsound : Sound s'.inbox)
    (hkeys : KeysWithin partitionComponentMax s'.inbox)
    (hdrain : s'.binding.drain = s.binding.drain)
    (hheld : ∀ i, s'.held i = s.held i ∨ s'.held i = none) (hcall : s'.CallSound) : Orderly s' where
  sound := hsound
  keys := hkeys
  bounded := by
    intro i claim hi
    rw [Binding.effectiveWorkers_congr hdrain]
    rcases hheld i with hsame | hnone
    · exact h.bounded i claim (hsame ▸ hi)
    · simp [hnone] at hi
  apart := h.apart.release fun i => keyOf_release (hheld i)
  short := by
    intro i claim hi
    rcases hheld i with hsame | hnone
    · exact h.short i claim (hsame ▸ hi)
    · simp [hnone] at hi
  call := hcall

theorem Orderly.fresh (hcall : s.call = .refilling refill)
    (hindex : refill.index < s.binding.effectiveWorkers)
    (hfree : s.binding.claimAt refill.index = none)
    (hclaim : (inboxClaim s.inbox.memory (s.claimRequest refill)).2 = .ok claim) (i : ℕ) :
    keyOf (s.held i) ≠ some claim.record.partitionKey := by
  unfold claimRequest at hclaim
  rw [held_of_refilling hcall]
  cases hordering : s.binding.drain.ordering with
  | global =>
    -- There is one driver, and it is the one that gets the claim.
    have heffective : s.binding.effectiveWorkers = 1 := by
      rw [Binding.effectiveWorkers, hordering]
    cases hi : s.binding.claimAt i with
    | none => simp [keyOf]
    | some other =>
      have hlt := h.bounded i other (by rw [held_of_refilling hcall, hi])
      obtain rfl : i = refill.index := by omega
      simp [hfree] at hi
  | partition =>
    rw [hordering] at hclaim
    have hexcludes := (callSound_refilling hcall).mp h.call hordering
    exact hexcludes.lists.not_held (h.sound.not_excluded hclaim) i

theorem Orderly.polled {pass pass' : Pass} (hordering : s.binding.drain.ordering = .partition)
    (hclaims : ∀ i, s'.binding.claimAt i = s.binding.claimAt i ∨
      i = pass.index ∧ s'.binding.claimAt i = none) (hbefore : s.call = .polling pass)
    (hindex : pass'.index = pass.index + 1)
    (hexcluded : Extended s.binding.drain.ordering (s'.binding.claimAt pass.index) pass.excluded
      pass'.excluded) : Excludes (· < pass'.index) s'.binding pass'.excluded := by
  have hexcludes := (callSound_polling hbefore).mp h.call hordering
  have hvisited : Lists (· < pass.index) (fun i => keyOf (s'.binding.claimAt i)) pass.excluded := by
    refine hexcludes.lists.congr fun i key => and_congr_right fun hi => ?_
    rcases hclaims i with hsame | ⟨rfl, -⟩
    · rw [hsame]
    · exact absurd hi (lt_irrefl _)
  have hsplit : ∀ i, i < pass'.index ↔ i < pass.index ∨ i = pass.index := by
    intro i
    omega
  rw [hordering] at hexcluded
  cases hclaim : s'.binding.claimAt pass.index with
  | none =>
    rw [hclaim] at hexcluded
    have hsame : pass'.excluded = pass.excluded := hexcluded
    rw [hsame]
    refine ⟨hvisited.congr fun i key => ?_, hexcludes.fits⟩
    rw [hsplit]
    constructor
    · rintro ⟨hi | rfl, hkey⟩
      · exact ⟨hi, hkey⟩
      · simp [hclaim, keyOf] at hkey
    rintro ⟨hi, hkey⟩
    exact ⟨.inl hi, hkey⟩
  | some claim =>
    rw [hclaim] at hexcluded
    obtain ⟨hroom, hlonger⟩ := hexcluded
    have hapart : Apart fun i => keyOf (s'.binding.claimAt i) := by
      refine h.apart.release fun i => keyOf_release ?_
      rw [held_of_polling hbefore]
      exact (hclaims i).imp_right And.right
    have hkey : keyOf (s'.binding.claimAt pass.index) = some claim.record.partitionKey := by
      rw [hclaim]
      rfl
    rw [hlonger]
    refine ⟨?_, by rw [length_append]; exact hroom⟩
    exact (hvisited.snoc hapart (lt_irrefl _) hkey).congr fun i key => by rw [hsplit]

theorem Orderly.started {refill' : Refill} (hordering : s.binding.drain.ordering = .partition)
    (hclaims : ∀ i, i ≠ refill.index → s'.binding.claimAt i = s.binding.claimAt i)
    (hbefore : s.call = .claimed refill claim) (hclaim : s'.binding.claimAt refill.index = none ∨
      s'.binding.claimAt refill.index = some claim)
    (hexcluded : Extended s.binding.drain.ordering (s'.binding.claimAt refill.index)
      refill.excluded refill'.excluded) : Excludes (fun _ => True) s'.binding refill'.excluded := by
  obtain ⟨hfree, hlisted⟩ := (callSound_claimed hbefore).mp h.call
  obtain ⟨hexcludes, -⟩ := hlisted hordering
  have hothers : Lists (· ≠ refill.index) (fun i => keyOf (s'.binding.claimAt i))
      refill.excluded := by
    refine hexcludes.lists.congr fun i key => ?_
    constructor
    · rintro ⟨hi, hkey⟩
      exact ⟨trivial, by rwa [← hclaims i hi]⟩
    rintro ⟨-, hkey⟩
    have hi : i ≠ refill.index := by
      rintro rfl
      simp [hfree, keyOf] at hkey
    exact ⟨hi, by rwa [hclaims i hi]⟩
  rw [hordering] at hexcluded
  rcases hclaim with hnone | hsome
  · rw [hnone] at hexcluded
    have hsame : refill'.excluded = refill.excluded := hexcluded
    rw [hsame]
    refine ⟨hothers.congr fun i key => ?_, hexcludes.fits⟩
    simp only [true_and, iff_and_self]
    rintro hkey rfl
    simp [hnone, keyOf] at hkey
  rw [hsome] at hexcluded
  obtain ⟨hroom, hlonger⟩ := hexcluded
  have hapart : Apart fun i => keyOf (s'.binding.claimAt i) := by
    refine h.apart.release fun i => keyOf_release (.inl ?_)
    rw [held_of_claimed hbefore]
    by_cases hi : i = refill.index
    · rw [if_pos hi, hi, hsome]
    · rw [if_neg hi, hclaims i hi]
  have hkey : keyOf (s'.binding.claimAt refill.index) = some claim.record.partitionKey := by
    rw [hsome]
    rfl
  rw [hlonger]
  refine ⟨?_, by rw [length_append]; exact hroom⟩
  exact (hothers.snoc hapart (fun hne => hne rfl) hkey).congr fun i key => by
    simp only [true_and, ne_or_eq]

theorem inbox_step (hinbox : InboxEffect s.inbox op out s'.inbox) :
    Sound s'.inbox ∧ KeysWithin partitionComponentMax s'.inbox := by
  cases hinbox with
  | same hsame =>
    rw [hsame]
    exact ⟨h.sound, h.keys⟩
  | admitted message record inboxOut _ hkey hact =>
    have heffect := act_effect hact
    refine ⟨h.sound.effect heffect, h.keys.effect ?_ heffect⟩
    rintro source hsource
    obtain rfl := Operation.admitRecord.inj hsource
    exact hkey
  | called call inboxOut _ _ hact =>
    have heffect := act_effect hact
    refine ⟨h.sound.effect heffect, h.keys.effect ?_ heffect⟩
    cases call <;> simp [InboxCall.operation]
  | settled claim settlement inboxOut hact =>
    have heffect := act_effect hact
    refine ⟨h.sound.effect heffect, h.keys.effect ?_ heffect⟩
    cases settlement <;> simp [settlementOperation]
  | requested request answer _ hact =>
    have heffect := act_effect hact
    exact ⟨h.sound.effect heffect, h.keys.effect (by simp) heffect⟩

omit h in
theorem callSound_congr (h : s.CallSound) (hdrain : s'.binding.drain = s.binding.drain)
    (hclaims : ∀ i, s'.binding.claimAt i = s.binding.claimAt i) (hcall : s'.call = s.call) :
    s'.CallSound := by
  cases hbefore : s.call with
  | none => exact callSound_none (hcall.trans hbefore)
  | polling pass =>
    rw [callSound_polling (hcall.trans hbefore), hdrain]
    exact fun hordering => ((callSound_polling hbefore).mp h hordering).congr hclaims
  | refilling refill =>
    rw [callSound_refilling (hcall.trans hbefore), hdrain]
    exact fun hordering => ((callSound_refilling hbefore).mp h hordering).congr hclaims
  | claimed refill claim =>
    obtain ⟨hfree, hlisted⟩ := (callSound_claimed hbefore).mp h
    rw [callSound_claimed (hcall.trans hbefore), hdrain, hclaims]
    exact ⟨hfree, fun hordering => ⟨(hlisted hordering).1.congr hclaims, (hlisted hordering).2⟩⟩

theorem Orderly.step (hstep : s.step op = some (s', out)) : Orderly s' := by
  obtain ⟨heffect, hinbox⟩ := step_does hstep
  obtain ⟨hsound, hkeys⟩ := inbox_step h hinbox
  cases heffect with
  | same hdrain hclaims hcall =>
    exact h.release hsound hkeys hdrain (fun i => .inl (by rw [held, held, hcall, hclaims]))
      (callSound_congr h.call hdrain hclaims hcall)
  | reset hclaims hcall =>
    have hnone : ∀ i, s'.held i = none := fun i => by rw [held_of_none hcall, hclaims]
    exact
      { sound := hsound
        keys := hkeys
        bounded := by simp [hnone]
        apart := by
          intro i j key hi
          simp [hnone, keyOf] at hi
        short := by simp [hnone]
        call := callSound_none hcall }
  | ended hdrain hheld hcall =>
    refine h.release hsound hkeys hdrain (fun i => ?_) (callSound_none hcall)
    rw [held_of_none hcall]
    exact hheld i
  | begun draining hdrain hclaims hbefore hcall =>
    refine h.release hsound hkeys hdrain (fun i => .inl ?_) ?_
    · rw [held_of_polling hcall, held_of_none hbefore, hclaims]
    rw [callSound_polling hcall]
    exact fun _ => ⟨Lists.nil (by simp), by simp⟩
  | polled pass pass' hdrain hclaims hbefore hcall hindex hexcluded =>
    refine h.release hsound hkeys hdrain (fun i => ?_) ?_
    · rw [held_of_polling hcall, held_of_polling hbefore]
      exact (hclaims i).imp_right And.right
    rw [callSound_polling hcall, hdrain]
    exact fun hordering => h.polled hordering hclaims hbefore hindex hexcluded
  | refilled pass refill hdrain hclaims hbefore hindex hcall hexcluded =>
    refine h.release hsound hkeys hdrain (fun i => .inl ?_) ?_
    · rw [held_of_refilling hcall, held_of_polling hbefore, hclaims]
    rw [callSound_refilling hcall, hdrain, hexcluded]
    intro hordering
    -- All drivers in use are among those that the first loop has visited.
    have hexcludes := (callSound_polling hbefore).mp h.call hordering
    refine Excludes.congr ⟨hexcludes.lists.congr fun i key => ?_, hexcludes.fits⟩ hclaims
    refine ⟨fun hkey => ⟨?_, hkey.2⟩, fun hkey => ⟨trivial, hkey.2⟩⟩
    obtain ⟨claim, hclaim, -⟩ := map_eq_some_iff.mp hkey.2
    exact (h.bounded i claim (by rw [held_of_polling hbefore, hclaim])).trans_le hindex
  | skipped refill refill' hdrain hclaims hbefore hcall hexcluded =>
    refine h.release hsound hkeys hdrain (fun i => .inl ?_) ?_
    · rw [held_of_refilling hcall, held_of_refilling hbefore, hclaims]
    rw [callSound_refilling hcall, hdrain, hexcluded]
    exact fun hordering => ((callSound_refilling hbefore).mp h.call hordering).congr hclaims
  | claimed refill claim hdrain hclaims hbefore hindex hfree hout hclaim hcall =>
    have hself : s'.held refill.index = some claim := by
      rw [held_of_claimed hcall, if_pos rfl]
    have hother : ∀ i, i ≠ refill.index → s'.held i = s.held i := by
      intro i hi
      rw [held_of_claimed hcall, if_neg hi, held_of_refilling hbefore, hclaims]
    refine
      { sound := hsound
        keys := hkeys
        bounded := ?_
        apart := h.apart.acquire (h.fresh hbefore hindex hfree hclaim) (by rw [hself]; rfl)
          fun i hi => by rw [hother i hi]
        short := ?_
        call := ?_ }
    · intro i other hi
      rw [Binding.effectiveWorkers_congr hdrain]
      by_cases hindexed : i = refill.index
      · rwa [hindexed]
      · exact h.bounded i other (by rwa [← hother i hindexed])
    · intro i other hi
      by_cases hindexed : i = refill.index
      · obtain rfl := some.inj (hself.symm.trans (hindexed ▸ hi))
        obtain ⟨⟨i, a, ha, -, -, hview⟩, -⟩ := h.sound.oldestOfPartition hclaim
        rw [← hview]
        exact ⟨partitionKey_of_recordValid (h.sound.coherent.stored i a ha).1, h.keys.stored i a ha⟩
      · exact h.short i other (by rwa [← hother i hindexed])
    rw [callSound_claimed hcall, hdrain, hclaims]
    refine ⟨hfree, fun hordering => ?_⟩
    refine ⟨((callSound_refilling hbefore).mp h.call hordering).congr hclaims, ?_⟩
    rw [claimRequest, hordering] at hclaim
    exact h.sound.not_excluded hclaim
  | started refill refill' claim hdrain hclaims hbefore hcall hclaim hexcluded =>
    refine h.release hsound hkeys hdrain (fun i => ?_) ?_
    · rw [held_of_refilling hcall, held_of_claimed hbefore]
      by_cases hi : i = refill.index
      · rw [if_pos hi, hi]
        exact hclaim.symm
      rw [if_neg hi]
      exact .inl (hclaims i hi)
    rw [callSound_refilling hcall, hdrain]
    exact fun hordering => h.started hordering hclaims hbefore hclaim hexcluded

omit h in
theorem orderly_of_run (hcreate : memoryCreate config = some memory) (h : Run (Acts Buffer.step)
      (bind identityMode maxMessageBytes admissionNamespace stageName memory) tr s) :
    Orderly s := by
  refine h.invariant ?_ fun _ _ _ hs hstep => hs.step hstep
  have hnone : ∀ i,
      (bind identityMode maxMessageBytes admissionNamespace stageName memory).held i = none := by
    simp [bind, held, Binding.claimAt, Binding.driverAt]
  exact
    { sound := sound_of_memoryCreate hcreate
      keys := keysWithin_of_memoryCreate hcreate _
      bounded := by simp [hnone]
      apart := by
        intro i j key hi
        simp [hnone, keyOf] at hi
      short := by simp [hnone]
      call := callSound_none rfl }

omit h in
theorem request_requested (h : (s.request refill input).2 = .requested request answer) :
    request = s.claimRequest refill ∧
      act s.inbox (.claimEx request) =
        some ((s.request refill input).1.inbox, .claimed answer) := by
  have hdrain := (ensureDriver_claims s.binding refill.index input.created).1
  have hrequest := claimRequest_congr
    (t := { s with binding := (s.binding.ensureDriver refill.index input.created).1 }) hdrain refill
  revert h
  unfold Buffer.request
  dsimp only
  rw [hrequest]
  split
  · intro h
    cases h
  split
  · intro h
    cases h
  split
  · intro h
    cases h
  split
  · intro h
    cases h
  split <;> intro h <;> obtain ⟨rfl, rfl⟩ := BufferOutcome.requested.inj h
  · rw [blocked_inbox]
    exact ⟨rfl, rfl⟩
  all_goals exact ⟨rfl, rfl⟩

omit h in
theorem step_request (hstep : s.step (.request input) = some (s', .requested request answer)) :
    ∃ refill, s.call = .refilling refill ∧ request = s.claimRequest refill ∧
      act s.inbox (.claimEx request) = some (s'.inbox, .claimed answer) := by
  simp only [step] at hstep
  split at hstep
  · rename_i refill hcall
    split at hstep
    · refine ⟨refill, hcall, ?_⟩
      obtain rfl : (s.request refill input).1 = s' := congrArg Prod.fst (some.inj hstep)
      exact request_requested (congrArg Prod.snd (some.inj hstep))
    · cases hstep
  · cases hstep

/-- The operation made the record pending: its admission was committed, or the operator retried
it. -/
def Revives (recordId : ℕ) (e : BufferOp × BufferOutcome) : Prop :=
  e = (.inbox (.retry recordId), .inbox (.status .ok)) ∨
    ∃ k source, e = (.inbox (.commit k), .inbox (.admitted source .ok recordId))

theorem Orderly.pends_step (hstep : s.step op = some (s', out)) (hid : recordId ≠ 0)
    (hpends : Pends s'.inbox recordId) : Pends s.inbox recordId ∨ Revives recordId (op, out) := by
  have hact : ∀ {iop iout}, act s.inbox iop = some (s'.inbox, iout) →
      iop ≠ .retry recordId → (∀ k, iop ≠ .commit k) → Pends s.inbox recordId := by
    intro iop iout hact hretry hcommit
    rcases h.sound.pends_of_act hact hid hpends with hbefore | ⟨hop, -⟩ | ⟨k, source, hop, -⟩
    · exact hbefore
    · exact absurd hop hretry
    · exact absurd hop (hcommit k)
  cases (step_does hstep).2 with
  | same hsame => exact .inl (hsame ▸ hpends)
  | admitted message record iout _ _ hreserve => exact .inl (hact hreserve (by simp) (by simp))
  | settled claim settlement iout hsettle =>
    refine .inl (hact hsettle ?_ ?_) <;> cases settlement <;> simp [settlementOperation]
  | requested request answer _ hclaim => exact .inl (hact hclaim (by simp) (by simp))
  | called call iout hop hout hcall =>
    rcases h.sound.pends_of_act hcall hid hpends with hbefore | ⟨hretry, rfl⟩
      | ⟨k, source, hcommit, rfl⟩
    · exact .inl hbefore
    · cases call <;> cases hretry
      exact .inr (.inl (by rw [hop, hout]))
    cases call <;> cases hcommit
    exact .inr (.inr ⟨k, source, by rw [hop, hout]⟩)

theorem Orderly.pends_run (hrun : Run (Acts Buffer.step) s tr s') (hid : recordId ≠ 0)
    (hbefore : ¬ Pends s.inbox recordId) (hpends : Pends s'.inbox recordId) :
    ∃ e ∈ tr, Revives recordId e := by
  have hinv : Orderly s' ∧ (Pends s'.inbox recordId → ∃ e ∈ tr, Revives recordId e) := by
    refine hrun.invariant_trace (P := fun tr s' =>
      Orderly s' ∧ (Pends s'.inbox recordId → ∃ e ∈ tr, Revives recordId e))
      ⟨h, fun hp => absurd hp hbefore⟩ ?_
    rintro tr t e t' ⟨horderly, hrevived⟩ hstep
    refine ⟨horderly.step hstep, fun hp => ?_⟩
    rcases horderly.pends_step hstep hid hp with hp | hrevives
    · obtain ⟨e', he', hrevives⟩ := hrevived hp
      exact ⟨e', mem_append_left _ he', hrevives⟩
    · exact ⟨e, mem_append_right _ (mem_singleton_self _), hrevives⟩
  exact hinv.2 hpends

theorem Orderly.assigned_run (hrun : Run (Acts Buffer.step) s tr s')
    (hassigned : Assigned s.inbox recordId record) : Assigned s'.inbox recordId record := by
  have hinv : Orderly s' ∧ Assigned s'.inbox recordId record := by
    refine hrun.invariant (P := fun s' => Orderly s' ∧ Assigned s'.inbox recordId record)
      ⟨h, hassigned⟩ ?_
    rintro t e t' ⟨horderly, hassigned⟩ hstep
    refine ⟨horderly.step hstep, ?_⟩
    cases (step_does hstep).2 with
    | same hsame => exact hsame ▸ hassigned
    | admitted _ _ _ _ _ hact | called _ _ _ _ hact | settled _ _ _ hact | requested _ _ _ hact =>
      exact hassigned.effect horderly.sound.consistent (act_effect hact)
  exact hinv.2

/-- A record that is claimed behind a younger one of its partition, or a second time, was committed
or retried in between. -/
theorem Orderly.claimed_in_order
    (hfirst : s.step (.request input) = some (s', .requested request (.ok a)))
    (hrun : Run (Acts Buffer.step) s' tr t)
    (hsecond : t.step (.request input') = some (t', .requested request' (.ok b)))
    (hkey : a.record.partitionKey = b.record.partitionKey) (hle : b.recordId ≤ a.recordId) :
    ∃ e ∈ tr, Revives b.recordId e := by
  have hafter := h.step hfirst
  have hlast : Orderly t := hrun.invariant hafter fun _ _ _ hs hstep => hs.step hstep
  obtain ⟨-, -, -, hclaimA⟩ := step_request hfirst
  obtain ⟨-, -, -, hclaimB⟩ := step_request hsecond
  have hanswer : (inboxClaim t.inbox.memory request').2 = .ok b := by
    obtain ⟨-, hclaim⟩ := by simpa only [act, some.injEq, Prod.mk.injEq] using hclaimB
    exact Outcome.claimed.inj hclaim
  obtain ⟨j, stored, hstored, hpending, hid, hview⟩ :=
    (hlast.sound.oldestOfPartition hanswer).stored
  have hne : b.recordId ≠ 0 := hid ▸ (hlast.sound.coherent.stored j stored hstored).2
  refine hafter.pends_run hrun hne ?_ ⟨j, stored, hstored, hid, hpending⟩
  -- A record with this id at the first claim is the one that is claimed later.
  refine h.sound.not_pends_of_claim hclaimA hle fun i x hx hxid => ?_
  have hassigned : Assigned s.inbox b.recordId x.view := hxid ▸ h.sound.assigned hx
  have hstep : Acts Buffer.step s (.request input, .requested request (.ok a)) s' := hfirst
  have hlater := h.assigned_run (Run.cons_iff.mpr ⟨s', hstep, hrun⟩) hassigned
  rw [← hlater.stored j stored hstored hid, hview, hkey]

def ownedClaims (s : Buffer) : ℕ :=
  ((Finset.range maxWorkers).filter fun i => (s.held i).isSome).card

theorem Orderly.ownedClaims_le : s.ownedClaims ≤ s.binding.effectiveWorkers := by
  refine card_inUse_le fun i hi => ?_
  obtain ⟨claim, hclaim⟩ := isSome_iff_exists.mp hi
  exact h.bounded i claim hclaim

end

end Buffer

open Buffer

/-- A durable buffer drains its partitions one record at a time. In a run no two drivers own claims
of one partition and the claims stay within the configured numbers; a claim hands out the oldest
pending record of its partition, so a record is claimed behind a younger one only when it was
committed or retried after the younger was claimed; and the inbox accepts every exclusion list. -/
theorem partitions_exclusive {config : MemoryConfig} {memory : Memory}
    (hcreate : memoryCreate config = some memory) {identityMode : IdentityMode}
    {maxMessageBytes : ℕ} {admissionNamespace stageName : String}
    {tr : List (BufferOp × BufferOutcome)} {s : Buffer}
    (h : Run (Acts Buffer.step)
      (Buffer.bind identityMode maxMessageBytes admissionNamespace stageName memory) tr s) :
    (∀ i j a b, s.held i = some a → s.held j = some b →
        a.record.partitionKey = b.record.partitionKey → i = j) ∧
      s.ownedClaims ≤ min s.binding.drain.workers s.binding.drain.maxInFlight ∧
      (s.binding.drain.ordering = .global → s.ownedClaims ≤ 1) ∧
      (∀ refill, s.call = .refilling refill → claimRequestValid (s.claimRequest refill)) ∧
      (∀ input s' request answer, s.step (.request input) = some (s', .requested request answer) →
          claimRequestValid request ∧
            ∀ claim, answer = .ok claim → OldestOfPartition s.inbox claim) ∧
      ∀ tr₁ tr₂ tr₃ input input' request request' a b,
        tr = tr₁ ++ (.request input, .requested request (.ok a)) :: tr₂ ++
          (.request input', .requested request' (.ok b)) :: tr₃ →
        a.record.partitionKey = b.record.partitionKey → b.recordId ≤ a.recordId →
          ∃ e ∈ tr₂, Revives b.recordId e := by
  have horderly := orderly_of_run hcreate h
  refine ⟨?_, ?_, ?_, fun refill hcall => horderly.claimRequestValid hcall, ?_, ?_⟩
  · intro i j a b hi hj hkey
    refine horderly.apart (k := a.record.partitionKey) ?_ ?_
    · simp [keyOf, hi]
    · simp [keyOf, hj, hkey]
  · exact horderly.ownedClaims_le.trans s.binding.effectiveWorkers_le
  · intro hordering
    have hle := horderly.ownedClaims_le
    rwa [Binding.effectiveWorkers, hordering] at hle
  · intro input s' request answer hstep
    obtain ⟨refill, hcall, rfl, hact⟩ := step_request hstep
    refine ⟨horderly.claimRequestValid hcall, ?_⟩
    rintro claim rfl
    obtain ⟨-, hclaim⟩ := by simpa only [act, some.injEq, Prod.mk.injEq] using hact
    exact horderly.sound.oldestOfPartition (Outcome.claimed.inj hclaim)
  rintro tr₁ tr₂ tr₃ input input' request request' a b rfl hkey hle
  rw [append_assoc, cons_append] at h
  obtain ⟨s₁, hrun₁, hrest⟩ := h.split
  obtain ⟨s₁', hfirst, hrest⟩ := Run.cons_iff.mp hrest
  obtain ⟨s₂, hrun₂, hrest⟩ := hrest.split
  obtain ⟨s₂', hsecond, -⟩ := Run.cons_iff.mp hrest
  exact (orderly_of_run hcreate hrun₁).claimed_in_order hfirst hrun₂ hsecond hkey hle

/-- A message of a device, with the content of `sampleRecord`. -/
def sampleMessage (device id : UInt8) : Message where
  payload := []
  payloadHeld := true
  claimActive := false
  hasResult := false
  hasProjection := false
  descriptor := some (sampleRecord id).content
  identity := some
    { sourceId := [1]
      deviceId := [device]
      sessionId := []
      partitionKey := []
      admissionId := [id]
      correlation := []
      sourceSequence := 0
      valid := rfl }
  timestampNs := 0
  messageType := 0
  messageFlags := 0

def runningStart : StartInput where
  build := .ok
  publisher := true
  opened := .ok
  observers := .ok
  requested := .ok
  state := .active
  canceled := .ok
  poll := ⟨Reactive.Run.create false false, false, none⟩

def twoDevices : List BufferOp :=
  [.resolve (some 0), .configureDrain ⟨.partition, .deviceId, 2, 2, 2⟩,
    .admitStage (sampleMessage 1 1), .inbox (.commit 0), .admitStage (sampleMessage 1 2),
    .inbox (.commit 0), .admitStage (sampleMessage 2 3), .inbox (.commit 0), .progress false,
    .poll runningStart.poll, .poll runningStart.poll, .refill true,
    .request ⟨.ok, true, .opened⟩, .start runningStart,
    .request ⟨.ok, true, .opened⟩, .start runningStart]

/-- The drivers of two partitions run at the same time, and the second message of device 1 waits. -/
theorem partitions_exclusive_twoDevices :
    ∃ memory s outs, memoryCreate ⟨3, 64, 32, 2⟩ = some memory ∧
        exec Buffer.step (Buffer.bind .stableRequired 32 "" "" memory) twoDevices = some (s, outs) ∧
        (s.held 0).map Claim.recordId = some 1 ∧ (s.held 1).map Claim.recordId = some 3 ∧
        s.ownedClaims ≤ 2 := by
  exact ⟨_, _, _, and_of_imp rfl fun hcreate => and_of_imp rfl fun hexec => ⟨rfl, rfl,
    (partitions_exclusive hcreate (run_of_exec hexec)).2.1⟩⟩

end TurboFlow.Durable
