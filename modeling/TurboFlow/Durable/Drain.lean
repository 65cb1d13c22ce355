import TurboFlow.Durable.Buffer
import TurboFlow.Inbox.Partition

/-!
# What an operation on a buffer does

`step_does` says once what an operation can do to the claims of the drivers, the progress call and
the inbox. Only a round of the second loop acquires a claim.
-/

namespace TurboFlow.Durable

open Inbox Word Option Binding List

theorem AcceptedDrain.bounds (drain : AcceptedDrain) :
    0 < drain.workers ∧ drain.workers ≤ maxWorkers ∧ drain.workers ≤ drain.maxInFlight := by
  have hvalid := drain.valid
  simp only [drainConfigValid, decide_eq_true_eq] at hvalid
  omega

/-- The driver has the claim, or it has given it up. -/
def Keeps (claim : Option Claim) (driver : OwnedDriver) : Prop :=
  driver.claim = none ∨ driver.claim = claim

namespace Binding

variable {b : Binding} {i : ℕ} {driver : OwnedDriver}

theorem effectiveWorkers_le (b : Binding) :
    b.effectiveWorkers ≤ min b.drain.workers b.drain.maxInFlight := by
  have hbounds := b.drain.bounds
  unfold effectiveWorkers
  cases b.drain.ordering <;> simp only [Nat.le_min] <;> omega

theorem effectiveWorkers_congr {b' : Binding} (h : b'.drain = b.drain) :
    b'.effectiveWorkers = b.effectiveWorkers := by
  rw [effectiveWorkers, effectiveWorkers, h]

@[simp] theorem setDriver_drain : (b.setDriver i driver).drain = b.drain := rfl

theorem driverAt_setDriver_self (hi : i < maxWorkers) :
    (b.setDriver i driver).driverAt i = some driver := by
  simp [driverAt, setDriver, hi]

theorem claimAt_setDriver_self (hi : i < maxWorkers) :
    (b.setDriver i driver).claimAt i = driver.claim := by
  rw [claimAt, driverAt_setDriver_self hi, bind_some]

theorem claimAt_setDriver_of_ne (hj : j ≠ i) : (b.setDriver i driver).claimAt j = b.claimAt j := by
  simp [claimAt, driverAt, setDriver, hj]

theorem claimAt_of_driverAt (h : b.driverAt i = some driver) : b.claimAt i = driver.claim := by
  rw [claimAt, h, bind_some]

theorem lt_of_driverAt (h : b.driverAt i = some driver) : i < maxWorkers := by
  by_contra hi
  simp [driverAt, hi] at h

theorem claimAt_destroyDrivers (b : Binding) (i : ℕ) : b.destroyDrivers.claimAt i = none := by
  simp [claimAt, driverAt, destroyDrivers]

theorem claimAt_replace (h : b.driverAt i = some driver) (hkeeps : Keeps driver.claim driver')
    (j : ℕ) :
    (b.setDriver i driver').claimAt j = b.claimAt j ∨ (b.setDriver i driver').claimAt j = none := by
  by_cases hj : j = i
  · subst hj
    rw [claimAt_setDriver_self (lt_of_driverAt h), claimAt_of_driverAt h]
    exact Or.symm hkeeps
  · exact .inl (claimAt_setDriver_of_ne hj)

end Binding

section Claims

variable (driver : OwnedDriver) (claim : Claim)

theorem claim_ofCore (core : Driver) : Keeps (some claim) (OwnedDriver.ofCore claim core) := by
  unfold OwnedDriver.ofCore
  by_cases hidle : core.phase = .idle
  · exact .inl (if_pos hidle)
  · exact .inr (if_neg hidle)

theorem claim_requestClaimed (core : Driver) (env : RequestEnv) :
    Keeps (some claim) (requestClaimed core claim env).driver := by
  unfold requestClaimed
  split
  · exact claim_ofCore claim _
  split
  · exact claim_ofCore claim _
  split
  · exact claim_ofCore claim _
  split
  · exact claim_ofCore claim _
  dsimp only
  split
  · exact claim_ofCore claim _
  split
  · exact claim_ofCore claim _
  split <;> exact claim_ofCore claim _

theorem claim_poll (env : PollEnv) : Keeps driver.claim (driver.poll env).driver := by
  unfold OwnedDriver.poll
  split
  · exact .inr rfl
  rename_i claim hclaim
  rw [hclaim]
  exact claim_ofCore claim _

theorem claim_retrySettlement (answer : Settlement → Status) :
    Keeps driver.claim (driver.retrySettlement answer).driver := by
  unfold OwnedDriver.retrySettlement
  split
  · exact .inr rfl
  rename_i claim hclaim
  split
  · exact .inr rfl
  · rw [hclaim]
    exact claim_ofCore claim _
  · rw [hclaim]
    exact claim_ofCore claim _
  · exact .inr rfl
  · exact .inr rfl

theorem claim_reconcileOwned (memory : Memory) :
    Keeps driver.claim (reconcileOwned memory driver).driver := by
  unfold reconcileOwned OwnedDriver.reconcileSettlement
  split
  · exact .inr rfl
  split
  · exact .inr rfl
  · exact .inr rfl
  unfold OwnedDriver.reconcileMatched
  split
  · exact .inr rfl
  split
  · exact .inr rfl
  split
  · exact .inl rfl
  split
  · exact .inr rfl
  · exact .inl rfl

theorem claim_pollOwned (inbox : System) (input : PollInput) :
    Keeps driver.claim (pollOwned inbox driver input).2.driver := by
  unfold pollOwned
  split
  · exact .inr rfl
  · exact claim_poll driver _

theorem claim_retryOwned (inbox : System) (fault : Option Fault) :
    Keeps driver.claim (retryOwned inbox driver fault).2.driver := by
  unfold retryOwned
  split
  · exact .inr rfl
  · exact claim_retrySettlement driver _

theorem status_empty_iff : driver.status.state = .empty ↔ driver.claim = none := by
  have hheld := driver.held
  rw [← not_isSome_iff_eq_none, hheld, not_not]
  unfold OwnedDriver.status
  cases driver.core.phase <;> simp [Driver.result]

theorem driverAt_of_candidate {b : Binding} {i : ℕ} (h : (i, driver) ∈ b.candidates p) :
    b.driverAt i = some driver := by
  unfold candidates at h
  obtain ⟨j, -, hj⟩ := mem_filterMap.mp h
  split at hj
  · cases hj
  rename_i other hother
  split at hj
  · cases hj
    exact hother
  · cases hj

end Claims

section Settling

variable (inbox : System) (claim : Claim)

def SettlesAtMost (inbox' : System) : Prop :=
  inbox' = inbox ∨
    ∃ claim settlement out, act inbox (settlementOperation claim settlement) = some (inbox', out)

theorem settlesAtMost_answerSettlement (fault : Option Fault) (settlement : Settlement) :
    SettlesAtMost inbox (answerSettlement inbox claim fault settlement).1 := by
  have hsettled : SettlesAtMost inbox (settleClaim inbox claim settlement).1 := by
    refine .inr ⟨claim, settlement, ?_⟩
    cases settlement <;> simp only [settleClaim, settlementOperation, act] <;> split <;>
      exact ⟨_, rfl⟩
  unfold answerSettlement
  split
  · exact hsettled
  dsimp only
  split
  · exact hsettled
  · exact .inl rfl

theorem settlesAtMost_settling (fault : Option Fault) (call : (Settlement → Status) → OwnedCall) :
    SettlesAtMost inbox (settling inbox claim fault call).1 := by
  unfold settling
  dsimp only
  split
  · exact .inl rfl
  · exact settlesAtMost_answerSettlement inbox claim fault _

theorem settlesAtMost_pollOwned (driver : OwnedDriver) (input : PollInput) :
    SettlesAtMost inbox (pollOwned inbox driver input).1 := by
  unfold pollOwned
  split
  · exact .inl rfl
  · exact settlesAtMost_settling inbox _ _ _

theorem settlesAtMost_retryOwned (driver : OwnedDriver) (fault : Option Fault) :
    SettlesAtMost inbox (retryOwned inbox driver fault).1 := by
  unfold retryOwned
  split
  · exact .inl rfl
  · exact settlesAtMost_settling inbox _ _ _

end Settling

namespace Buffer

def held (s : Buffer) (i : ℕ) : Option Claim :=
  match s.call with
  | .claimed refill claim => if i = refill.index then some claim else s.binding.claimAt i
  | _ => s.binding.claimAt i

def Extended (ordering : DrainOrdering) (claim : Option Claim) (excluded excluded' : List Bytes) :
    Prop :=
  match ordering, claim with
  | .partition, some claim =>
    excluded.length < maxWorkers ∧ excluded' = excluded ++ [claim.record.partitionKey]
  | _, _ => excluded' = excluded

inductive Effect (s : Buffer) (out : BufferOutcome) (s' : Buffer) : Prop
  | same (hdrain : s'.binding.drain = s.binding.drain)
      (hclaims : ∀ i, s'.binding.claimAt i = s.binding.claimAt i) (hcall : s'.call = s.call)
  | reset (hclaims : ∀ i, s'.binding.claimAt i = none) (hcall : s'.call = .none)
  | ended (hdrain : s'.binding.drain = s.binding.drain)
      (hheld : ∀ i, s'.binding.claimAt i = s.held i ∨ s'.binding.claimAt i = none)
      (hcall : s'.call = .none)
  | begun (draining : Bool) (hdrain : s'.binding.drain = s.binding.drain)
      (hclaims : ∀ i, s'.binding.claimAt i = s.binding.claimAt i) (hbefore : s.call = .none)
      (hcall : s'.call = .polling ⟨draining, 0, 0, [], false⟩)
  | polled (pass pass' : Pass) (hdrain : s'.binding.drain = s.binding.drain)
      (hclaims : ∀ i, s'.binding.claimAt i = s.binding.claimAt i ∨
        i = pass.index ∧ s'.binding.claimAt i = none)
      (hbefore : s.call = .polling pass) (hcall : s'.call = .polling pass')
      (hindex : pass'.index = pass.index + 1)
      (hexcluded : Extended s.binding.drain.ordering (s'.binding.claimAt pass.index) pass.excluded
        pass'.excluded)
  | refilled (pass : Pass) (refill : Refill) (hdrain : s'.binding.drain = s.binding.drain)
      (hclaims : ∀ i, s'.binding.claimAt i = s.binding.claimAt i)
      (hbefore : s.call = .polling pass) (hindex : s.binding.effectiveWorkers ≤ pass.index)
      (hcall : s'.call = .refilling refill) (hexcluded : refill.excluded = pass.excluded)
  | skipped (refill refill' : Refill) (hdrain : s'.binding.drain = s.binding.drain)
      (hclaims : ∀ i, s'.binding.claimAt i = s.binding.claimAt i)
      (hbefore : s.call = .refilling refill) (hcall : s'.call = .refilling refill')
      (hexcluded : refill'.excluded = refill.excluded)
  | claimed (refill : Refill) (claim : Claim) (hdrain : s'.binding.drain = s.binding.drain)
      (hclaims : ∀ i, s'.binding.claimAt i = s.binding.claimAt i)
      (hbefore : s.call = .refilling refill) (hindex : refill.index < s.binding.effectiveWorkers)
      (hfree : s.binding.claimAt refill.index = none)
      (hout : out = .requested (s.claimRequest refill) (.ok claim))
      (hclaim : (inboxClaim s.inbox.memory (s.claimRequest refill)).2 = .ok claim)
      (hcall : s'.call = .claimed refill claim)
  | started (refill refill' : Refill) (claim : Claim)
      (hdrain : s'.binding.drain = s.binding.drain)
      (hclaims : ∀ i, i ≠ refill.index → s'.binding.claimAt i = s.binding.claimAt i)
      (hbefore : s.call = .claimed refill claim)
      (hcall : s'.call = .refilling refill')
      (hclaim : s'.binding.claimAt refill.index = none ∨
        s'.binding.claimAt refill.index = some claim)
      (hexcluded : Extended s.binding.drain.ordering (s'.binding.claimAt refill.index)
        refill.excluded refill'.excluded)

inductive InboxEffect (inbox : System) (op : BufferOp) (out : BufferOutcome) (inbox' : System) :
    Prop
  | same (h : inbox' = inbox)
  | admitted (message : Message) (record : Record) (inboxOut : Outcome)
      (hop : op = .admitStage message)
      (hkey : record.partitionKey.length ≤ partitionComponentMax)
      (hact : act inbox (.admitRecord record) = some (inbox', inboxOut))
  | called (call : InboxCall) (inboxOut : Outcome) (hop : op = .inbox call)
      (hout : out = .inbox inboxOut) (hact : act inbox call.operation = some (inbox', inboxOut))
  | settled (claim : Claim) (settlement : Settlement) (inboxOut : Outcome)
      (hact : act inbox (settlementOperation claim settlement) = some (inbox', inboxOut))
  | requested (request : ClaimRequest) (answer : Except Status Claim)
      (hout : out = .requested request answer)
      (hact : act inbox (.claimEx request) = some (inbox', .claimed answer))

def Does (s : Buffer) (op : BufferOp) (out : BufferOutcome) (s' : Buffer) : Prop :=
  Effect s out s' ∧ InboxEffect s.inbox op out s'.inbox

@[simp] theorem ends_binding (s : Buffer) (rc : Status) : (s.ends rc).1.binding = s.binding := rfl

section Returns

variable (s : Buffer) (refill : Refill)

@[simp] theorem finish_keeps :
    (s.finish refill).1.inbox = s.inbox ∧
      (s.finish refill).1.binding.drain = s.binding.drain ∧
      ∀ i, (s.finish refill).1.binding.claimAt i = s.binding.claimAt i := by
  unfold finish
  dsimp only
  split <;> exact ⟨rfl, rfl, fun _ => rfl⟩

@[simp] theorem blocked_keeps :
    (s.blocked refill).1.inbox = s.inbox ∧
      (s.blocked refill).1.binding.drain = s.binding.drain ∧
      ∀ i, (s.blocked refill).1.binding.claimAt i = s.binding.claimAt i := by
  unfold blocked
  dsimp only
  split <;> exact finish_keeps _ _

theorem blocked_inbox : (s.blocked refill).1.inbox = s.inbox :=
  (s.blocked_keeps refill).1

@[simp] theorem polled_keeps (pass : Pass) (driver : OwnedDriver) (live : Bool) :
    (s.polled pass driver live).1.inbox = s.inbox ∧
      (s.polled pass driver live).1.binding = s.binding := by
  unfold polled
  dsimp only
  split
  · exact ⟨rfl, rfl⟩
  · split <;> exact ⟨rfl, rfl⟩

end Returns

variable {pass : Pass} {driver : OwnedDriver} {claim : Claim} {inbox : System} {t : Buffer}

theorem exclude_ok (h : exclude ordering excluded driver = .ok excluded') :
    Extended ordering driver.claim excluded excluded' := by
  unfold exclude at h
  split at h
  · exact (Except.ok.inj h).symm
  split at h
  · cases h
  rename_i key hkey
  split at h
  · cases h
  rename_i hlength
  cases h
  unfold OwnedDriver.activePartition at hkey
  split at hkey
  · cases hkey
  rename_i claim hclaim
  split at hkey
  · cases hkey
  cases hkey
  rw [hclaim]
  exact ⟨lt_of_not_ge hlength, rfl⟩

variable {s : Buffer} {op : BufferOp} {out : BufferOutcome}

theorem inboxEffect_of_settlesAtMost (h : SettlesAtMost inbox inbox') :
    InboxEffect inbox op out inbox' := by
  rcases h with hsame | ⟨claim, settlement, inboxOut, hact⟩
  · exact .same hsame
  · exact .settled claim settlement inboxOut hact

theorem polled_call (pass : Pass) (driver : OwnedDriver) (live : Bool) :
    (s.polled pass driver live).1.call = .none ∨
      ∃ pass', (s.polled pass driver live).1.call = .polling pass' ∧
        pass'.index = pass.index + 1 ∧
        Extended s.binding.drain.ordering driver.claim pass.excluded pass'.excluded := by
  unfold polled
  dsimp only
  split
  · rename_i hempty
    refine .inr ⟨_, rfl, rfl, ?_⟩
    rw [(status_empty_iff driver).mp hempty]
    cases s.binding.drain.ordering <;> exact rfl
  split
  · exact .inl rfl
  rename_i excluded hexcluded
  exact .inr ⟨_, rfl, rfl, exclude_ok hexcluded⟩

theorem held_of_polling (h : s.call = .polling pass) (i : ℕ) : s.held i = s.binding.claimAt i := by
  rw [held, h]

variable {refill : Refill}

theorem held_of_refilling (h : s.call = .refilling refill) (i : ℕ) :
    s.held i = s.binding.claimAt i := by
  rw [held, h]

theorem held_of_none (h : s.call = .none) (i : ℕ) : s.held i = s.binding.claimAt i := by
  rw [held, h]

theorem held_of_claimed (h : s.call = .claimed refill claim) (i : ℕ) :
    s.held i = if i = refill.index then some claim else s.binding.claimAt i := by
  rw [held, h]

theorem does_ends (h : ∀ refill claim, s.call ≠ .claimed refill claim) (rc : Status) :
    Does s op out (s.ends rc).1 := by
  refine ⟨.ended rfl (fun i => .inl ?_) rfl, .same rfl⟩
  unfold held
  split
  · rename_i refill claim hcall
    exact absurd hcall (h refill claim)
  · rfl

section

variable (hcall : s.call = .polling pass)
include hcall

theorem effect_polled (hdrain : t.binding.drain = s.binding.drain)
    (hclaims : ∀ i, t.binding.claimAt i = s.binding.claimAt i ∨
      i = pass.index ∧ t.binding.claimAt i = none)
    (hdriver : t.binding.claimAt pass.index = driver.claim) :
    Effect s out (t.polled pass driver live).1 := by
  rcases polled_call pass driver live with hended | ⟨pass', hnext, hindex, hexcluded⟩
  · refine .ended (by rw [(t.polled_keeps ..).2, hdrain]) (fun i => ?_) hended
    rw [(t.polled_keeps ..).2, held_of_polling hcall]
    exact (hclaims i).imp_right And.right
  refine .polled pass pass' (by rw [(t.polled_keeps ..).2, hdrain]) ?_ hcall hnext hindex ?_
  · rwa [(t.polled_keeps ..).2]
  · rwa [(t.polled_keeps ..).2, hdriver, ← hdrain]

theorem poll_does (input : PollInput) : Does s op out (s.poll pass input).1 := by
  have hends : ∀ rc, Does s op out (s.ends rc).1 := does_ends (by simp [hcall])
  unfold poll
  split
  · rename_i hdriver
    refine ⟨.polled pass _ rfl (fun _ => .inl rfl) hcall rfl rfl ?_, .same rfl⟩
    have hclaim : s.binding.claimAt pass.index = none := by simp [claimAt, hdriver]
    dsimp only
    rw [hclaim]
    cases s.binding.drain.ordering <;> exact rfl
  rename_i driver hdriver
  dsimp only
  split
  · exact hends _
  · exact hends _
  · have hkeeps := claim_pollOwned driver s.inbox input
    have hreplaced := claimAt_replace hdriver hkeeps
    have hsettles := settlesAtMost_pollOwned s.inbox driver input
    split
    · refine ⟨.ended rfl (fun i => ?_) rfl, inboxEffect_of_settlesAtMost hsettles⟩
      rw [held_of_polling hcall]
      exact hreplaced i
    refine ⟨effect_polled hcall rfl (fun i => ?_)
      (claimAt_setDriver_self (lt_of_driverAt hdriver)),
      inboxEffect_of_settlesAtMost (by rwa [(polled_keeps ..).1])⟩
    by_cases hi : i = pass.index
    · exact (hreplaced i).imp_right fun h => ⟨hi, h⟩
    · exact .inl (claimAt_setDriver_of_ne hi)
  exact ⟨effect_polled hcall rfl (fun _ => .inl rfl) (claimAt_of_driverAt hdriver),
    .same (s.polled_keeps pass driver _).1⟩

theorem refill_does (hindex : ¬ pass.index < s.binding.effectiveWorkers) (started : Bool) :
    Does s op out (s.refill pass started).1 := by
  have hends : ∀ rc, Does s op out (s.ends rc).1 := does_ends (by simp [hcall])
  unfold refill
  dsimp only
  split
  · exact hends _
  split
  · exact hends _
  split
  · exact hends _
  split
  · exact hends _
  split
  · exact hends _
  · exact ⟨.refilled pass _ rfl (fun _ => rfl) hcall (not_lt.mp hindex) rfl rfl, .same rfl⟩

end

theorem ensureDriver_claims (b : Binding) (index : ℕ) (created : Status) :
    (b.ensureDriver index created).1.drain = b.drain ∧
      ∀ i, (b.ensureDriver index created).1.claimAt i = b.claimAt i := by
  unfold ensureDriver
  split
  · exact ⟨rfl, fun _ => rfl⟩
  split
  · exact ⟨rfl, fun _ => rfl⟩
  split
  · exact ⟨rfl, fun _ => rfl⟩
  split
  · exact ⟨rfl, fun _ => rfl⟩
  rename_i hnone
  split
  · exact ⟨rfl, fun _ => rfl⟩
  refine ⟨rfl, fun i => ?_⟩
  by_cases hi : i = index
  · subst hi
    have hbefore : b.claimAt i = none := by
      rw [claimAt, not_isSome_iff_eq_none.mp hnone, bind_none]
    rw [hbefore]
    by_cases hlt : i < maxWorkers
    · exact claimAt_setDriver_self hlt
    · simp [claimAt, driverAt, hlt]
  · exact claimAt_setDriver_of_ne hi

theorem claimRequest_congr (h : t.binding.drain = s.binding.drain) (refill : Refill) :
    t.claimRequest refill = s.claimRequest refill := by
  rw [claimRequest, claimRequest, h]

theorem request_does (hcall : s.call = .refilling refill)
    (hindex : refill.index < s.binding.effectiveWorkers) (input : RequestInput) :
    Does s op (s.request refill input).2 (s.request refill input).1 := by
  obtain ⟨hdrain, hclaims⟩ := ensureDriver_claims s.binding refill.index input.created
  have hended : ∀ out t, t.binding.drain =
    (s.binding.ensureDriver refill.index input.created).1.drain →
      (∀ i, t.binding.claimAt i = (s.binding.ensureDriver refill.index input.created).1.claimAt i) →
      t.call = .none → Effect s out t := by
    intro out t htdrain htclaims htcall
    refine .ended (htdrain.trans hdrain) (fun i => .inl ?_) htcall
    rw [held_of_refilling hcall, htclaims, hclaims]
  unfold request
  dsimp only
  split
  · exact ⟨hended _ _ rfl (fun _ => rfl) rfl, .same rfl⟩
  split
  · exact ⟨hended _ _ rfl (fun _ => rfl) rfl, .same rfl⟩
  rename_i driver hdriver
  split
  · exact ⟨.skipped refill _ hdrain hclaims hcall rfl rfl, .same rfl⟩
  rename_i hempty
  split
  · exact ⟨hended _ _ rfl (fun _ => rfl) rfl, .same rfl⟩
  split
  · exact ⟨hended _ _ (by simp) (by simp) rfl, .requested _ _ rfl (by rw [blocked_inbox]; rfl)⟩
  · exact ⟨hended _ _ rfl (fun _ => rfl) rfl, .requested _ _ rfl rfl⟩
  rename_i claim hclaim
  refine ⟨?_, .requested _ _ rfl rfl⟩
  have hrequest := claimRequest_congr
    (t := { s with binding := (s.binding.ensureDriver refill.index input.created).1 }) hdrain refill
  have hfree : s.binding.claimAt refill.index = none := by
    rw [← hclaims, claimAt_of_driverAt hdriver]
    exact (status_empty_iff driver).mp (not_not.mp hempty)
  rw [hrequest] at hclaim ⊢
  exact .claimed refill claim hdrain hclaims hcall hindex hfree (by rw [hclaim]) hclaim rfl

theorem start_does (hcall : s.call = .claimed refill claim) (input : StartInput) :
    Does s op out (s.start refill claim input).1 := by
  -- Whether the call goes on or ends, the driver of the round holds the new claim or none.
  have hended : ∀ t : Buffer, t.binding.drain = s.binding.drain →
      (∀ i, i ≠ refill.index → t.binding.claimAt i = s.binding.claimAt i) →
      (t.binding.claimAt refill.index = none ∨ t.binding.claimAt refill.index = some claim) →
      t.call = .none → Effect s out t := by
    intro t hdrain hother hclaim htcall
    refine .ended hdrain (fun i => ?_) htcall
    rw [held_of_claimed hcall]
    by_cases hi : i = refill.index
    · rw [if_pos hi, hi]
      exact hclaim.symm
    rw [if_neg hi]
    exact .inl (hother i hi)
  unfold start
  split
  · rename_i hnone
    exact ⟨hended _ rfl (fun _ _ => rfl) (.inl (by simp [claimAt, hnone])) rfl, .same rfl⟩
  rename_i driver hdriver
  dsimp only
  have hself : (s.binding.setDriver refill.index
      (startOwned s.inbox driver claim input).2.driver).claimAt refill.index =
        (startOwned s.inbox driver claim input).2.driver.claim :=
    claimAt_setDriver_self (lt_of_driverAt hdriver)
  have hclaim : (startOwned s.inbox driver claim input).2.driver.claim = none ∨
      (startOwned s.inbox driver claim input).2.driver.claim = some claim :=
    claim_requestClaimed claim _ _
  rw [← hself] at hclaim
  have hsettles : InboxEffect s.inbox op out (startOwned s.inbox driver claim input).1 :=
    inboxEffect_of_settlesAtMost (settlesAtMost_settling s.inbox _ _ _)
  split
  · refine ⟨hended _ (by simp) (fun i hi => ?_) (by simpa using hclaim) rfl, ?_⟩
    · rw [(blocked_keeps ..).2.2]
      exact claimAt_setDriver_of_ne hi
    · rwa [blocked_inbox]
  split
  · exact ⟨hended _ rfl (fun i hi => claimAt_setDriver_of_ne hi) hclaim rfl, hsettles⟩
  split
  · exact ⟨hended _ rfl (fun i hi => claimAt_setDriver_of_ne hi) hclaim rfl, hsettles⟩
  rename_i excluded hexcluded
  refine ⟨.started refill _ claim rfl (fun i hi => claimAt_setDriver_of_ne hi) hcall rfl
    hclaim ?_, hsettles⟩
  rw [hself]
  exact exclude_ok hexcluded

theorem configureDrain_claims (b : Binding) (memory : Memory) (config : DrainConfig) :
    (b.configureDrain memory config).1 = b ∨
      ∀ i, (b.configureDrain memory config).1.claimAt i = none := by
  unfold configureDrain
  split
  · split
    · exact .inl rfl
    split
    · exact .inl rfl
    dsimp only
    split
    · exact .inr b.claimAt_destroyDrivers
    split
    · exact .inl rfl
    split
    · exact .inl rfl
    · exact .inr b.claimAt_destroyDrivers
  · exact .inl rfl

section

variable (hcall : s.call = .none)
include hcall

theorem does_replace {index : ℕ} {rc : Status}
    (hcandidates : s.binding.candidates p = [(index, driver)])
    (hkeeps : Keeps driver.claim driver') (hsettles : SettlesAtMost s.inbox inbox) :
    Does s op out
      (ends { s with inbox, binding := s.binding.setDriver index driver' } rc).1 := by
  have hdriver : s.binding.driverAt index = some driver :=
    driverAt_of_candidate driver (hcandidates ▸ mem_singleton_self _)
  refine ⟨.ended rfl (fun i => ?_) rfl, inboxEffect_of_settlesAtMost hsettles⟩
  rw [held_of_none hcall]
  exact claimAt_replace hdriver hkeeps i

theorem retrySettlement_does (fault : Option Fault) :
    Does s op out (s.retrySettlement fault).1 := by
  have hends : ∀ rc, Does s op out (s.ends rc).1 := does_ends (by simp [hcall])
  unfold retrySettlement
  split
  · exact hends _
  split
  · exact hends _
  · rename_i index driver hcandidates
    exact does_replace hcall hcandidates (claim_retryOwned driver s.inbox fault)
      (settlesAtMost_retryOwned s.inbox driver fault)
  · exact hends _

theorem reconcileSettlement_does : Does s op out s.reconcileSettlement.1 := by
  have hends : ∀ rc, Does s op out (s.ends rc).1 := does_ends (by simp [hcall])
  unfold reconcileSettlement
  split
  · exact hends _
  split
  · exact hends _
  · rename_i index driver hcandidates
    exact does_replace hcall hcandidates (claim_reconcileOwned driver s.inbox.memory) (.inl rfl)
  · exact hends _

theorem progress_does (draining : Bool) : Does s op out (s.progress draining).1 := by
  have hends : ∀ rc, Does s op out (s.ends rc).1 := does_ends (by simp [hcall])
  unfold progress
  split
  · exact hends _
  split
  · exact hends _
  · exact ⟨.begun draining rfl (fun _ => rfl) hcall rfl, .same rfl⟩

end

theorem does_same : Does s op out s := ⟨.same rfl (fun _ => rfl) rfl, .same rfl⟩

theorem admitStage_does {message : Message} (h : s.admitStage message = some (s', out)) :
    Does s (.admitStage message) out s' := by
  unfold admitStage at h
  split at h
  · cases h
    exact does_same
  split at h
  · cases h
    exact does_same
  dsimp only at h
  split at h
  · cases h
    exact ⟨.same rfl (fun _ => rfl) rfl, .same rfl⟩
  rename_i record hencoded
  obtain ⟨⟨inbox, inboxOut⟩, hact, heq⟩ := map_eq_some_iff.mp h
  cases heq
  obtain ⟨content, identity, -, hshort, rfl, -⟩ := encodeRecord_ok hencoded
  exact ⟨.same rfl (fun _ => rfl) rfl, .admitted message _ inboxOut rfl hshort.partitionKey hact⟩

theorem inboxCall_does {call : InboxCall} (h : s.inboxCall call = some (s', out)) :
    Does s (.inbox call) out s' := by
  unfold inboxCall at h
  split at h
  · cases h
    exact does_same
  obtain ⟨⟨inbox, inboxOut⟩, hact, heq⟩ := map_eq_some_iff.mp h
  cases heq
  exact ⟨.same rfl (fun _ => rfl) rfl, .called call inboxOut rfl rfl hact⟩

theorem step_does (hstep : s.step op = some (s', out)) : Does s op out s' := by
  cases op with
  | admitStage message => exact admitStage_does hstep
  | inbox call => exact inboxCall_does hstep
  | pauseDrain paused =>
    simp only [step] at hstep
    split at hstep <;> cases hstep
    all_goals exact ⟨.same rfl (fun _ => rfl) rfl, .same rfl⟩
  | configureDrain config =>
    simp only [step] at hstep
    split at hstep
    · rename_i hcall
      cases hstep
      refine ⟨?_, .same rfl⟩
      rcases configureDrain_claims s.binding s.inbox.memory config with hsame | hreset
      · exact .same (by rw [hsame]) (fun i => by rw [hsame]) rfl
      · exact .reset hreset hcall
    · cases hstep
  | resolve stageIndex =>
    simp only [step] at hstep
    split at hstep
    · rename_i hcall
      cases hstep
      refine ⟨?_, .same rfl⟩
      unfold resolve
      split
      · exact .same rfl (fun _ => rfl) rfl
      · exact .reset s.binding.claimAt_destroyDrivers hcall
    · cases hstep
  | retrySettlement fault =>
    simp only [step] at hstep
    split at hstep
    · rename_i hcall
      obtain rfl : (s.retrySettlement fault).1 = s' := congrArg Prod.fst (some.inj hstep)
      exact retrySettlement_does hcall fault
    · cases hstep
  | reconcileSettlement =>
    simp only [step] at hstep
    split at hstep
    · rename_i hcall
      obtain rfl : s.reconcileSettlement.1 = s' := congrArg Prod.fst (some.inj hstep)
      exact reconcileSettlement_does hcall
    · cases hstep
  | progress draining =>
    simp only [step] at hstep
    split at hstep
    · rename_i hcall
      obtain rfl : (s.progress draining).1 = s' := congrArg Prod.fst (some.inj hstep)
      exact progress_does hcall draining
    · cases hstep
  | poll input =>
    simp only [step] at hstep
    split at hstep
    · rename_i pass hcall
      split at hstep
      · obtain rfl : (s.poll pass input).1 = s' := congrArg Prod.fst (some.inj hstep)
        exact poll_does hcall input
      · cases hstep
    · cases hstep
  | refill started =>
    simp only [step] at hstep
    split at hstep
    · rename_i pass hcall
      split at hstep
      · cases hstep
      rename_i hindex
      obtain rfl : (s.refill pass started).1 = s' := congrArg Prod.fst (some.inj hstep)
      exact refill_does hcall hindex started
    · cases hstep
  | request input =>
    simp only [step] at hstep
    split at hstep
    · rename_i refill hcall
      split at hstep
      · rename_i hrefills
        have hindex : refill.index < s.binding.effectiveWorkers := by
          simp only [refills, decide_eq_true_eq] at hrefills
          exact hrefills.1
        obtain rfl : (s.request refill input).1 = s' := congrArg Prod.fst (some.inj hstep)
        obtain rfl : (s.request refill input).2 = out := congrArg Prod.snd (some.inj hstep)
        exact request_does hcall hindex input
      · cases hstep
    · cases hstep
  | start input =>
    simp only [step] at hstep
    split at hstep
    · rename_i refill claim hcall
      obtain rfl : (s.start refill claim input).1 = s' := congrArg Prod.fst (some.inj hstep)
      exact start_does hcall input
    · cases hstep
  | finish =>
    simp only [step] at hstep
    split at hstep
    · rename_i refill hcall
      split at hstep
      · cases hstep
      obtain rfl : (s.finish refill).1 = s' := congrArg Prod.fst (some.inj hstep)
      refine ⟨.ended (by simp) (fun i => .inl ?_) rfl, .same (s.finish_keeps refill).1⟩
      rw [(finish_keeps ..).2.2, held_of_refilling hcall]
    · cases hstep

end Buffer

end TurboFlow.Durable
