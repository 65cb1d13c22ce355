import TurboFlow.Inbox.Ownership
import TurboFlow.Inbox.System
import Mathlib.Data.List.DropRight

/-!
# Every claim is settled once

`Ownership` is the protocol of a driver: it takes a claim when it has none, executes the graph at
most once, chooses one settlement by the way the graph ended, repeats it until the inbox accepts it,
and then gives the claim back. `driver_disciplined` says that every sequence of calls keeps to it.
-/

namespace TurboFlow.Inbox

open Transition List Option

/-- The owner of a claim: without one, before and after the graph was started, after it has ended,
while a settlement is to be repeated, and while its outcome is unknown. -/
inductive Ownership
  | idle
  | owned (claim : Claim) (executed : Bool)
  | ended (claim : Claim) (state : Reactive.RunState) (status : Status)
  | settling (claim : Claim) (settlement : Settlement)
  | unknown (claim : Claim) (settlement : Settlement)

open Ownership

def Matches (recordId : ℕ) (settlement : Settlement) (failed : Option FailedEntry)
    (history : Option HistoryEntry) : Prop :=
  (∃ entry ∈ failed, entry.recordId = recordId ∧ entry.kind = .ownerLostUnknown) ∨
    match settlement with
    | .complete => ∃ entry ∈ history, entry.recordId = recordId ∧ entry.kind = .completed
    | .fail status =>
      (∃ entry ∈ failed,
        entry.recordId = recordId ∧ entry.kind = .processing ∧ entry.status = status) ∨
      ∃ entry ∈ history, entry.recordId = recordId ∧ entry.kind = .discarded

namespace Ownership

def after (claim : Claim) (settlement : Settlement) : Status → Ownership
  | .ok | .ecanceled => .idle
  | .ealready => .unknown claim settlement
  | _ => .settling claim settlement

inductive Step : Ownership → DriverEvent → Ownership → Prop
  | refused {rc : Status} : Step .idle (.claimRefused rc) .idle
  | claimed {claim : Claim} : Step .idle (.claimed claim) (.owned claim false)
  | executed {claim : Claim} : Step (.owned claim false) .executed (.owned claim true)
  | ended {claim : Claim} {state : Reactive.RunState} {status : Status} :
      Step (.owned claim true) (.ended state status) (.ended claim state status)
  | unstarted {claim : Claim} {failure answer : Status} (h : failure ≠ .ok) :
      Step (.owned claim false) (.settled (.fail failure) answer)
        (after claim (.fail failure) answer)
  | completes {claim : Claim} {answer : Status} :
      Step (.ended claim .completed .ok) (.settled .complete answer) (after claim .complete answer)
  | fails {claim : Claim} {state : Reactive.RunState} {status failure answer : Status}
      (h : failure ≠ .ok) :
      Step (.ended claim state status) (.settled (.fail failure) answer)
        (after claim (.fail failure) answer)
  | repeats {claim : Claim} {settlement : Settlement} {answer : Status} :
      Step (.settling claim settlement) (.settled settlement answer) (after claim settlement answer)
  | reconciled {claim : Claim} {settlement : Settlement} {failed : Option FailedEntry}
      {history : Option HistoryEntry} (h : Matches claim.recordId settlement failed history) :
      Step (.unknown claim settlement) (.reconciled failed history) .idle

def claim? : Ownership → Option Claim
  | .idle => none
  | .owned claim _ | .ended claim _ _ | .settling claim _ | .unknown claim _ => some claim

def settlement? : Ownership → Option Settlement
  | .idle | .owned _ _ | .ended _ _ _ => none
  | .settling _ settlement | .unknown _ settlement => some settlement

end Ownership

namespace DriverEvent

def claim? : DriverEvent → Option Claim
  | .claimed claim => some claim
  | _ => none

def requests : DriverEvent → Bool
  | .claimed _ | .claimRefused _ => true
  | _ => false

/-- An event that gives the claim back: a settlement accepted, or refused for a replaced owner, and
a reconciled outcome. -/
@[simp] def releases : DriverEvent → Bool
  | .settled _ .ok | .settled _ .ecanceled | .reconciled _ _ => true
  | _ => false

end DriverEvent

def claimedCount (evs : List DriverEvent) : ℕ :=
  evs.countP fun e => e.claim?.isSome

def releasedCount (evs : List DriverEvent) : ℕ :=
  evs.countP DriverEvent.releases

def sinceClaim (evs : List DriverEvent) : List DriverEvent :=
  evs.rtakeWhile fun e => e.claim?.isNone

def lastClaim (evs : List DriverEvent) : Option Claim :=
  evs.reverse.findSome? DriverEvent.claim?

section Snoc

variable (evs : List DriverEvent)

theorem claimedCount_snoc : claimedCount (evs ++ [e]) =
    claimedCount evs + if e.claim?.isSome then 1 else 0 := by
  simp [claimedCount, countP_append, countP_singleton]

theorem releasedCount_snoc : releasedCount (evs ++ [e]) =
    releasedCount evs + if e.releases then 1 else 0 := by
  simp [releasedCount, countP_append, countP_singleton]

theorem sinceClaim_snoc (h : e.claim? = none) : sinceClaim (evs ++ [e]) = sinceClaim evs ++ [e] :=
  rtakeWhile_concat_pos _ _ _ (by simp [h])

theorem sinceClaim_claimed (claim : Claim) : sinceClaim (evs ++ [.claimed claim]) = [] :=
  rtakeWhile_concat_neg _ _ _ (by simp [DriverEvent.claim?])

theorem lastClaim_snoc (h : e.claim? = none) : lastClaim (evs ++ [e]) = lastClaim evs := by
  simp [lastClaim, h]

theorem lastClaim_claimed (claim : Claim) : lastClaim (evs ++ [.claimed claim]) = some claim := by
  rw [lastClaim, reverse_append, reverse_singleton, singleton_append, findSome?_cons_of_isSome rfl]
  rfl

end Snoc

structure Tracked (evs : List DriverEvent) (o : Ownership) : Prop where
  balance : claimedCount evs = releasedCount evs + if o.claim?.isSome then 1 else 0
  claim : ∀ claim, o.claim? = some claim → lastClaim evs = some claim
  undecided : o.settlement? = none → o.claim?.isSome →
    ∀ settlement answer, .settled settlement answer ∉ sinceClaim evs
  unexecuted : ∀ claim, o = .owned claim false → .executed ∉ sinceClaim evs
  ended : ∀ claim state status, o = .ended claim state status →
    .ended state status ∈ sinceClaim evs
  chosen : ∀ settlement, o.settlement? = some settlement →
    (∃ answer, .settled settlement answer ∈ sinceClaim evs) ∧
      ∀ other answer, .settled other answer ∈ sinceClaim evs → other = settlement
  complete : o.settlement? = some .complete → .ended .completed .ok ∈ sinceClaim evs
  failing : ∀ status, o.settlement? = some (.fail status) → status ≠ .ok

theorem tracked_nil : Tracked [] .idle := by
  constructor <;> simp [claimedCount, releasedCount, claim?, settlement?]

theorem Ownership.after_cases (claim : Claim) (settlement : Settlement) (answer : Status) :
    (DriverEvent.releases (.settled settlement answer) ∧ after claim settlement answer = .idle) ∨
      (DriverEvent.releases (.settled settlement answer) = false ∧
        (after claim settlement answer).claim? = some claim ∧
        (after claim settlement answer).settlement? = some settlement ∧
        (∀ claim', after claim settlement answer ≠ .owned claim' false) ∧
        ∀ claim' state status, after claim settlement answer ≠ .ended claim' state status) := by
  cases answer <;> simp [after, claim?, settlement?]

variable {claim : Claim} {core : Driver} {settlement : Settlement} {before : List DriverEvent}
  {o' : Ownership} {s : Option OwnedDriver}

variable {o : Ownership} {evs : List DriverEvent}

theorem Tracked.settle (h : Tracked evs o) (answer : Status) (hclaim : o.claim? = some claim)
    (hsame : ∀ other answer, .settled other answer ∈ sinceClaim evs → other = settlement)
    (hcomplete : settlement = .complete → .ended .completed .ok ∈ sinceClaim evs)
    (hfail : ∀ status, settlement = .fail status → status ≠ .ok) :
    Tracked (evs ++ [.settled settlement answer]) (.after claim settlement answer) := by
  have hbalance := h.balance
  rw [hclaim] at hbalance
  simp only [isSome_some, if_true] at hbalance
  have hsince : sinceClaim (evs ++ [.settled settlement answer]) =
      sinceClaim evs ++ [.settled settlement answer] := sinceClaim_snoc evs rfl
  rcases after_cases claim settlement answer with
    ⟨hreleases, hafter⟩ | ⟨hreleases, hclaim', hchosen, howned, hended⟩
  · rw [hafter]
    constructor <;> simp [claim?, settlement?]
    rw [claimedCount_snoc, releasedCount_snoc, hreleases, hbalance]
    rfl
  refine
    { balance := ?_
      claim := ?_
      undecided := by simp [hchosen]
      unexecuted := fun claim' heq => absurd heq (howned claim')
      ended := fun claim' state status heq => absurd heq (hended claim' state status)
      chosen := ?_
      complete := ?_
      failing := ?_ }
  · rw [claimedCount_snoc, releasedCount_snoc, hreleases, hclaim', hbalance]
    rfl
  · intro claim₁ heq
    rw [lastClaim_snoc evs rfl]
    exact h.claim claim₁ (by rw [hclaim, ← hclaim', heq])
  · intro settlement₁ heq
    obtain rfl : settlement = settlement₁ := by simpa [hchosen] using heq
    rw [hsince]
    refine ⟨⟨answer, by simp⟩, ?_⟩
    intro other answer' hmem
    rcases mem_append.mp hmem with hmem | hmem
    · exact hsame other answer' hmem
    · exact (DriverEvent.settled.inj (mem_singleton.mp hmem)).1
  · intro heq
    rw [hchosen] at heq
    rw [hsince]
    exact mem_append_left _ (hcomplete (some.inj heq))
  intro status heq
  rw [hchosen] at heq
  exact hfail status (some.inj heq)

theorem Tracked.step (h : Tracked evs o) (hstep : o.Step e o') : Tracked (evs ++ [e]) o' := by
  have hsnoc : e.claim? = none → sinceClaim (evs ++ [e]) = sinceClaim evs ++ [e] ∧
      lastClaim (evs ++ [e]) = lastClaim evs :=
    fun hnone => ⟨sinceClaim_snoc evs hnone, lastClaim_snoc evs hnone⟩
  cases hstep with
  | refused | reconciled =>
    have hbalance := h.balance
    constructor <;>
      simp_all [claimedCount_snoc, releasedCount_snoc, claim?, settlement?, DriverEvent.claim?]
  | claimed =>
    have hbalance := h.balance
    constructor <;>
      simp_all [claimedCount_snoc, releasedCount_snoc, claim?, settlement?,
        DriverEvent.claim?, lastClaim_claimed, sinceClaim_claimed]
  | executed | ended =>
    have hbalance := h.balance
    have hundecided := h.undecided rfl rfl
    have hclaim := h.claim _ rfl
    obtain ⟨hsince, hlast⟩ := hsnoc rfl
    constructor <;>
      simp_all [claimedCount_snoc, releasedCount_snoc, claim?, settlement?, DriverEvent.claim?]
  | unstarted hfailure | fails hfailure =>
    refine h.settle _ rfl ?_ (by simp) ?_
    · exact fun other answer hmem => absurd hmem (h.undecided rfl rfl other answer)
    rintro status heq
    obtain rfl := Settlement.fail.inj heq
    exact hfailure
  | completes =>
    refine h.settle _ rfl ?_ (fun _ => h.ended _ _ _ rfl) (by simp)
    exact fun other answer hmem => absurd hmem (h.undecided rfl rfl other answer)
  | repeats =>
    refine h.settle _ rfl (h.chosen _ rfl).2 ?_ ?_
    · rintro rfl
      exact h.complete rfl
    rintro status rfl
    exact h.failing status rfl

theorem tracked_of_run (h : Run Step .idle evs o) : Tracked evs o :=
  h.invariant_trace tracked_nil fun _ _ _ _ hs hstep => hs.step hstep

structure Disciplined (evs : List DriverEvent) : Prop where
  /-- At any moment at most one claim has not been given back, and none was given back twice. -/
  once : ∀ before later, evs = before ++ later →
    releasedCount before ≤ claimedCount before ∧ claimedCount before ≤ releasedCount before + 1
  /-- A claim is requested only when all claims have been given back. -/
  exclusive : ∀ before e later, evs = before ++ e :: later → e.requests →
    claimedCount before = releasedCount before
  /-- The graph is executed once for a claim. -/
  executes : ∀ before later, evs = before ++ .executed :: later → .executed ∉ sinceClaim before
  /-- A record is completed only after its graph was completed without an error. -/
  completes : ∀ before answer later, evs = before ++ .settled .complete answer :: later →
    .ended .completed .ok ∈ sinceClaim before
  fails : ∀ before status answer later, evs = before ++ .settled (.fail status) answer :: later →
    status ≠ .ok
  /-- All settlements of a claim are the same. -/
  steady : ∀ before settlement answer later, evs = before ++ .settled settlement answer :: later →
    ∀ other answer', .settled other answer' ∈ sinceClaim before → other = settlement
  /-- A reconciled outcome is that of the claimed record and of the settlement tried before. -/
  reconciles : ∀ before failed history later, evs = before ++ .reconciled failed history :: later →
    ∃ claim settlement answer, lastClaim before = some claim ∧
      .settled settlement answer ∈ sinceClaim before ∧
      Matches claim.recordId settlement failed history

theorem disciplined_of_run (h : Run Step .idle evs o) : Disciplined evs := by
  -- The owner before an event of the trace, with the step that the event is.
  have hat : ∀ before e later, evs = before ++ e :: later →
      ∃ o₁ o₂, Tracked before o₁ ∧ o₁.Step e o₂ := by
    intro before e later heq
    rw [heq, ← singleton_append, ← append_assoc] at h
    obtain ⟨o₂, h₂, -⟩ := h.split
    obtain ⟨o₁, h₁, hstep⟩ := Run.snoc_iff.mp h₂
    exact ⟨o₁, o₂, tracked_of_run h₁, hstep⟩
  refine ⟨?_, ?_, ?_, ?_, ?_, ?_, ?_⟩
  · rintro before later rfl
    obtain ⟨o₁, h₁, -⟩ := h.split
    have hbalance := (tracked_of_run h₁).balance
    split at hbalance <;> omega
  · intro before e later heq hrequests
    obtain ⟨o₁, o₂, htracked, hstep⟩ := hat before e later heq
    have hbalance := htracked.balance
    cases hstep with
    | refused | claimed => simpa [claim?] using hbalance
    | executed | ended | unstarted | completes | fails | repeats | reconciled => cases hrequests
  · intro before later heq
    obtain ⟨o₁, o₂, htracked, hstep⟩ := hat before _ later heq
    cases hstep with
    | executed => exact htracked.unexecuted _ rfl
  · intro before answer later heq
    obtain ⟨o₁, o₂, htracked, hstep⟩ := hat before _ later heq
    cases hstep with
    | completes => exact htracked.ended _ _ _ rfl
    | repeats => exact htracked.complete rfl
  · intro before status answer later heq
    obtain ⟨o₁, o₂, htracked, hstep⟩ := hat before _ later heq
    cases hstep with
    | unstarted hfailure | fails hfailure => exact hfailure
    | repeats => exact htracked.failing status rfl
  · intro before settlement answer later heq other answer' hmem
    obtain ⟨o₁, o₂, htracked, hstep⟩ := hat before _ later heq
    cases hstep with
    | unstarted | completes | fails => exact absurd hmem (htracked.undecided rfl rfl other answer')
    | repeats => exact (htracked.chosen _ rfl).2 other answer' hmem
  intro before failed history later heq
  obtain ⟨o₁, o₂, htracked, hstep⟩ := hat before _ later heq
  cases hstep with
  | @reconciled claim settlement _ _ hmatches =>
    obtain ⟨⟨answer, hanswer⟩, -⟩ := htracked.chosen settlement rfl
    exact ⟨claim, settlement, answer, htracked.claim claim rfl, hanswer, hmatches⟩

structure Driver.Decided (core : Driver) (claim : Claim) (settlement : Settlement) : Prop where
  record : core.recordId = claim.recordId
  phase : core.phase = .settleComplete ∧ core.graphStatus = .ok ∧ settlement = .complete ∨
    core.phase = .settleFail ∧ core.graphStatus ≠ .ok ∧ settlement = .fail core.graphStatus

def settlementOf (graphStatus : Status) : Settlement :=
  if graphStatus = .ok then .complete else .fail graphStatus

def Owns (d : OwnedDriver) : Ownership → Prop
  | .idle => d.core.phase = .idle
  | .owned claim executed =>
    executed ∧ d.claim = some claim ∧ d.core.phase = .graphRunning ∧
      d.core.recordId = claim.recordId
  | .ended _ _ _ => False
  | .settling claim settlement => d.claim = some claim ∧ d.core.Decided claim settlement
  | .unknown claim settlement =>
    d.claim = some claim ∧ d.core.phase = .settleUnknown ∧
      d.core.recordId = claim.recordId ∧ settlement = settlementOf d.core.graphStatus

/-- The events of a call continue the protocol, up to an owner that the driver agrees with. -/
def OwnedCall.Continues (call : OwnedCall) (o : Ownership) : Prop :=
  ∃ o', Run Step o call.events o' ∧ Owns call.driver o'

section

variable (h : core.Decided claim settlement)
include h

theorem Driver.Decided.settlement_eq : settlement = settlementOf core.graphStatus := by
  rcases h.phase with ⟨-, hstatus, rfl⟩ | ⟨-, hstatus, rfl⟩ <;> simp [settlementOf, hstatus]

theorem Driver.Decided.settle (inbox : Settlement → Status) :
    (core.settle inbox).settlement = some settlement ∧
      Owns (.ofCore claim (core.settle inbox).driver)
        (.after claim settlement (inbox settlement)) := by
  have hphase : core.phase = .settleComplete ∨ core.phase = .settleFail := by
    rcases h.phase with ⟨hphase, -⟩ | ⟨hphase, -⟩
    · exact .inl hphase
    · exact .inr hphase
  have hnotIdle : core.phase ≠ .idle := by
    rcases hphase with hphase | hphase <;> simp [hphase]
  have hchoice : (if core.phase = .settleComplete then Settlement.complete
      else .fail core.graphStatus) = settlement := by
    rcases h.phase with ⟨hphase, -, rfl⟩ | ⟨hphase, -, rfl⟩ <;> simp [hphase]
  have hpending : ∀ status, core.Decided claim settlement →
      Owns (.ofCore claim { core with settlementStatus := status })
        (.settling claim settlement) := by
    intro status h
    exact ⟨by simp [hnotIdle], h.record, h.phase⟩
  unfold Driver.settle
  rw [if_pos hphase]
  simp only [hchoice]
  cases inbox settlement <;> refine ⟨rfl, ?_⟩
  case ok => rfl
  case ecanceled => rfl
  case ealready =>
    exact ⟨by simp, rfl, h.record, h.settlement_eq⟩
  all_goals exact hpending _ h

theorem Driver.Decided.owned (inbox : Settlement → Status) (hbefore : Run Step o before o')
    (hstep : o'.Step (.settled settlement (inbox settlement))
      (.after claim settlement (inbox settlement))) :
    ((core.settle inbox).owned claim before inbox).Continues o := by
  obtain ⟨hsettlement, howns⟩ := h.settle inbox
  refine ⟨_, ?_, howns⟩
  simp only [DriverCall.owned, DriverCall.events, hsettlement]
  exact hbefore.snoc hstep

end

theorem failClaim_owns (inbox : Settlement → Status) (hrecord : core.recordId = claim.recordId) :
    (failClaim core claim graphStatus inbox).Continues .idle := by
  have hfailure : (core.failing graphStatus).graphStatus ≠ .ok := by
    unfold Driver.failing
    split <;> simp_all
  have hdecided : (core.failing graphStatus).Decided claim
      (.fail (core.failing graphStatus).graphStatus) := ⟨hrecord, .inr ⟨rfl, hfailure, rfl⟩⟩
  exact hdecided.owned inbox (Run.single_iff.mpr .claimed) (.unstarted hfailure)

theorem ofCore_eq (h : d.claim = some claim) : OwnedDriver.ofCore claim d.core = d := by
  have hphase : d.core.phase ≠ .idle := d.held.mp (by simp [h])
  rcases d with ⟨core, claim', held⟩
  simp only at h hphase
  subst h
  simp [hphase]

theorem pollClaim_owns (env : PollEnv) (hrecord : core.recordId = claim.recordId)
    (hphase : core.phase = .graphRunning) (hbefore : Run Step o before (.owned claim true)) :
    (pollClaim core claim before env).Continues o := by
  unfold pollClaim Driver.poll Driver.noted
  simp only [hphase, true_and]
  by_cases hactive : env.run.state = .opened ∨ env.run.state = .active ∨ env.pending
  · refine ⟨.owned claim true, ?_, ?_⟩
    · simpa [hactive, DriverCall.events] using hbefore
    · simp [hactive, hphase, hrecord, Owns]
  simp only [hactive, if_false, not_false_eq_true, if_true]
  have hended : Run Step o (before ++ [.ended env.run.state env.run.status])
      (.ended claim env.run.state env.run.status) := hbefore.snoc .ended
  split
  · rename_i hcompleted
    -- A completed run was not canceled, so its own status was taken over.
    have hstatus : env.run.status = .ok := by
      simpa [Driver.endStatus, hcompleted.1] using hcompleted.2
    rw [hcompleted.1, hstatus] at hended
    rw [hcompleted.1, hstatus]
    have hdecided : Driver.Decided { core with graphStatus := .ok, phase := .settleComplete }
        claim .complete := ⟨hrecord, .inl ⟨rfl, rfl, rfl⟩⟩
    exact hdecided.owned env.inbox hended .completes
  have hfailure :
      (if core.endStatus env.run = .ok then Status.eproto else core.endStatus env.run) ≠ .ok := by
    split <;> simp_all
  have hdecided : Driver.Decided
      { core with
        graphStatus := if core.endStatus env.run = .ok then .eproto else core.endStatus env.run
        phase := .settleFail }
      claim (.fail (if core.endStatus env.run = .ok then .eproto else core.endStatus env.run)) :=
    ⟨hrecord, .inr ⟨rfl, hfailure, rfl⟩⟩
  exact hdecided.owned env.inbox hended (.fails hfailure)

theorem requestClaimed_owns (env : RequestEnv) :
    (requestClaimed core claim env).Continues .idle := by
  have hstarted : Run Step .idle [.claimed claim, .executed] (.owned claim true) :=
    (Run.single_iff.mpr .claimed).snoc .executed
  unfold requestClaimed
  split
  · exact failClaim_owns _ rfl
  split
  · exact failClaim_owns _ rfl
  split
  · exact failClaim_owns _ rfl
  split
  · exact failClaim_owns _ rfl
  split
  · exact ⟨_, hstarted, by simp [Owns]⟩
  split
  · exact ⟨_, hstarted, by simp [Owns]⟩
  split
  · exact ⟨_, hstarted, by simp [Owns]⟩
  refine pollClaim_owns env.poll ?_ ?_ hstarted
  · split <;> rfl
  · split <;> rfl

section Calls

variable {d : OwnedDriver} {o : Ownership}

section

variable (h : Owns d o)
include h

theorem Owns.claim_eq : d.claim = o.claim? := by
  cases o with
  | idle =>
    have hnone : ¬ d.claim.isSome := fun hsome => d.held.mp hsome h
    simpa [claim?] using hnone
  | owned claim executed => exact h.2.1
  | ended => exact h.elim
  | settling claim settlement | unknown claim settlement => exact h.1

theorem Owns.eq_idle (hidle : d.core.phase = .idle) : o = .idle := by
  have hnone : ¬ d.claim.isSome := fun hsome => d.held.mp hsome hidle
  have hclaim : o.claim? = none := by
    rw [← h.claim_eq]
    simpa using hnone
  cases o <;> first | rfl | cases hclaim

theorem Owns.refuse (status : Status) (result : DriverResult) :
    (d.refuse status result).Continues o :=
  ⟨o, Run.nil, h⟩

theorem Owns.request (drain : Bool) (env : RequestEnv) :
    (d.request drain env).Continues o := by
  unfold OwnedDriver.request
  split
  · exact h.refuse _ _
  rename_i hidle
  split
  · exact h.refuse _ _
  split
  · exact h.refuse _ _
  obtain rfl := h.eq_idle (not_not.mp hidle)
  split
  · exact ⟨.idle, Run.single_iff.mpr .refused, h⟩
  · exact requestClaimed_owns env

theorem Owns.running_or_waiting (hclaim : d.claim = some claim) :
    (o = .owned claim true ∧ d.core.phase = .graphRunning ∧ d.core.recordId = claim.recordId) ∨
      d.core.phase ≠ .graphRunning := by
  cases o with
  | idle =>
    rw [h.claim_eq] at hclaim
    cases hclaim
  | owned claim' executed =>
    obtain ⟨hexecuted, howned, hphase, hrecord⟩ := h
    obtain rfl : claim' = claim := by simpa [howned] using hclaim
    obtain rfl : executed = true := hexecuted
    exact .inl ⟨rfl, hphase, hrecord⟩
  | ended => exact h.elim
  | settling claim' settlement =>
    rcases h.2.phase with ⟨hphase, -⟩ | ⟨hphase, -⟩ <;> exact .inr (by simp [hphase])
  | unknown claim' settlement => exact .inr (by simp [h.2.1])

theorem Owns.poll (env : PollEnv) : (d.poll env).Continues o := by
  unfold OwnedDriver.poll
  split
  · exact h.refuse _ _
  rename_i claim hclaim
  rcases h.running_or_waiting hclaim with ⟨rfl, hphase, hrecord⟩ | hwaiting
  · exact pollClaim_owns env hrecord hphase Run.nil
  have hkeeps : (pollClaim d.core claim [] env).events = [] ∧
      (pollClaim d.core claim [] env).driver = .ofCore claim d.core := by
    unfold pollClaim Driver.poll Driver.noted
    split <;> simp_all [DriverCall.events]
  rw [OwnedCall.Continues, hkeeps.1, hkeeps.2, ofCore_eq hclaim]
  exact ⟨o, Run.nil, h⟩

theorem Owns.cancel (canceled : Status) (env : PollEnv) :
    (d.cancel canceled env).Continues o := by
  unfold OwnedDriver.cancel
  split
  · exact h.refuse _ _
  rename_i claim hclaim
  split
  · exact h.refuse _ _
  rename_i hrunning
  split
  · exact h.refuse _ _
  rcases h.running_or_waiting hclaim with ⟨rfl, hphase, hrecord⟩ | hwaiting
  · refine pollClaim_owns env ?_ ?_ Run.nil
    · split <;> exact hrecord
    · split <;> exact hphase
  · exact absurd hwaiting hrunning

theorem Owns.retrySettlement (inbox : Settlement → Status) :
    (d.retrySettlement inbox).events = [] ∧ (d.retrySettlement inbox).driver = d ∨
      ∃ claim settlement, o = .settling claim settlement ∧
        (d.retrySettlement inbox).events = [.settled settlement (inbox settlement)] ∧
        Owns (d.retrySettlement inbox).driver (.after claim settlement (inbox settlement)) := by
  unfold OwnedDriver.retrySettlement
  split
  · exact .inl ⟨rfl, rfl⟩
  rename_i claim hclaim
  cases o with
  | idle =>
    rw [h.claim_eq] at hclaim
    cases hclaim
  | owned claim' executed =>
    rw [h.2.2.1]
    exact .inl ⟨rfl, rfl⟩
  | ended => exact h.elim
  | settling claim' settlement =>
    obtain ⟨howned, hdecided⟩ := h
    obtain rfl : claim' = claim := by simpa [howned] using hclaim
    obtain ⟨hsettlement, howns⟩ := hdecided.settle inbox
    refine .inr ⟨claim', settlement, rfl, ?_⟩
    have hcall : ((d.core.settle inbox).owned claim' [] inbox).events =
        [.settled settlement (inbox settlement)] := by
      simp [DriverCall.events, hsettlement]
    rcases hdecided.phase with ⟨hphase, -⟩ | ⟨hphase, -⟩
    all_goals
      rw [hphase]
      exact ⟨hcall, howns⟩
  | unknown claim' settlement =>
    rw [h.2.1]
    exact .inl ⟨rfl, rfl⟩

end

theorem matches_of_expected (hfailed : ∀ entry ∈ failed, entry.recordId = recordId)
    (hhistory : ∀ entry ∈ history, entry.recordId = recordId)
    (h : failed.any (·.kind = .ownerLostUnknown) ∨ d.outcomeExpected failed history) :
    Matches recordId (settlementOf d.core.graphStatus) failed history := by
  rcases h with hlost | hexpected
  · obtain ⟨entry, hentry, hkind⟩ := (Option.any_eq_true _ _).mp hlost
    exact .inl ⟨entry, hentry, hfailed entry hentry, by simpa using hkind⟩
  refine .inr ?_
  unfold OwnedDriver.outcomeExpected at hexpected
  unfold settlementOf
  split at hexpected
  · rename_i hok
    rw [if_pos hok]
    obtain ⟨entry, hentry, hkind⟩ := (Option.any_eq_true _ _).mp hexpected
    exact ⟨entry, hentry, hhistory entry hentry, by simpa using hkind⟩
  rename_i hnotOk
  rw [if_neg hnotOk]
  rcases of_decide_eq_true hexpected with hprocessing | hdiscarded
  · obtain ⟨entry, hentry, hkind⟩ := (Option.any_eq_true _ _).mp hprocessing
    have hkind' : entry.kind = .processing ∧ entry.status = d.core.graphStatus := by
      simpa using hkind
    exact .inl ⟨entry, hentry, hfailed entry hentry, hkind'⟩
  obtain ⟨entry, hentry, hkind⟩ := (Option.any_eq_true _ _).mp hdiscarded
  exact .inr ⟨entry, hentry, hhistory entry hentry, by simpa using hkind⟩

theorem Owns.reconcileMatched (h : Owns d (.unknown claim (settlementOf d.core.graphStatus)))
    (hfailed : ∀ entry ∈ failed, entry.recordId = claim.recordId)
    (hhistory : ∀ entry ∈ history, entry.recordId = claim.recordId) :
    (d.reconcileMatched failed history).Continues
      (.unknown claim (settlementOf d.core.graphStatus)) := by
  unfold OwnedDriver.reconcileMatched
  split
  · exact h.refuse _ _
  split
  · exact h.refuse _ _
  split
  · rename_i hlost
    exact ⟨.idle, Run.single_iff.mpr
      (.reconciled (matches_of_expected hfailed hhistory (.inl hlost))), rfl⟩
  split
  · exact h.refuse _ _
  rename_i hexpected
  exact ⟨.idle, Run.single_iff.mpr
    (.reconciled (matches_of_expected hfailed hhistory (.inr (not_not.mp hexpected)))), rfl⟩

theorem Owns.reconcileSettlement (h : Owns d o) (scanFailed : Except Status (Option FailedEntry))
    (scanHistory : Except Status (Option HistoryEntry)) :
    (d.reconcileSettlement scanFailed scanHistory).Continues o := by
  unfold OwnedDriver.reconcileSettlement
  split
  · exact h.refuse _ _
  rename_i hunknown
  split
  · exact h.refuse _ _
  · exact h.refuse _ _
  have hphase := not_not.mp hunknown
  cases o with
  | idle | owned => simp [Owns, hphase] at h
  | ended => exact h.elim
  | settling => rcases h.2.phase with ⟨hother, -⟩ | ⟨hother, -⟩ <;> simp [hphase] at hother
  | unknown claim settlement =>
    obtain ⟨-, -, hrecord, rfl⟩ := id h
    refine h.reconcileMatched ?_ ?_
    all_goals
      intro entry hentry
      have := (mem_filter_iff.mp hentry).2
      simpa [hrecord] using this

end Calls

inductive DriverOp
  | request (drain : Bool) (env : RequestEnv)
  | poll (env : PollEnv)
  | cancel (canceled : Status) (env : PollEnv)
  | retrySettlement (inbox : Settlement → Status)
  | reconcileSettlement (scanFailed : Except Status (Option FailedEntry))
      (scanHistory : Except Status (Option HistoryEntry))
  | destroy

structure DriverOutcome where
  status : Status
  result : DriverResult
  events : List DriverEvent

def OwnedCall.outcome (call : OwnedCall) : DriverOutcome :=
  ⟨call.status, call.result, call.events⟩

/-- One call on a driver, which `flow_inbox_driver_destroy` refuses unless it is idle. -/
def driverAct : Option OwnedDriver → DriverOp → Option (Option OwnedDriver × DriverOutcome)
  | none, _ => none
  | some d, .destroy =>
    if d.core.phase ≠ .idle then some (some d, ⟨.ebusy, .init, []⟩)
    else some (none, ⟨.ok, .init, []⟩)
  | some d, .request drain env =>
    let call := d.request drain env
    some (some call.driver, call.outcome)
  | some d, .poll env =>
    let call := d.poll env
    some (some call.driver, call.outcome)
  | some d, .cancel canceled env =>
    let call := d.cancel canceled env
    some (some call.driver, call.outcome)
  | some d, .retrySettlement inbox =>
    let call := d.retrySettlement inbox
    some (some call.driver, call.outcome)
  | some d, .reconcileSettlement scanFailed scanHistory =>
    let call := d.reconcileSettlement scanFailed scanHistory
    some (some call.driver, call.outcome)

def driverEvents (tr : List (DriverOp × DriverOutcome)) : List DriverEvent :=
  tr.flatMap fun e => e.2.events

def OwnsLive : Option OwnedDriver → Ownership → Prop
  | some d, o => Owns d o
  | none, o => o = .idle

theorem driverAct_owns (h : OwnsLive s o) (hact : driverAct s op = some (s', out)) :
    ∃ o', Run Step o out.events o' ∧ OwnsLive s' o' := by
  cases s with
  | none => simp [driverAct] at hact
  | some d =>
    cases op with
    | request drain env =>
      cases hact
      exact Owns.request h drain env
    | poll env =>
      cases hact
      exact Owns.poll h env
    | cancel canceled env =>
      cases hact
      exact Owns.cancel h canceled env
    | retrySettlement inbox =>
      cases hact
      rcases Owns.retrySettlement h inbox with
        ⟨hevents, hdriver⟩ | ⟨claim, settlement, rfl, hevents, howns⟩
      · refine ⟨o, ?_, ?_⟩
        · simpa [OwnedCall.outcome, hevents] using Run.nil
        rw [hdriver]
        exact h
      refine ⟨_, ?_, howns⟩
      rw [OwnedCall.outcome, hevents]
      exact Run.single_iff.mpr .repeats
    | reconcileSettlement scanFailed scanHistory =>
      cases hact
      exact Owns.reconcileSettlement h scanFailed scanHistory
    | destroy =>
      rw [driverAct] at hact
      split at hact
      · cases hact
        exact ⟨o, Run.nil, h⟩
      rename_i hidle
      cases hact
      exact ⟨o, Run.nil, Owns.eq_idle h (not_not.mp hidle)⟩

def holding (s : Option OwnedDriver) : Bool :=
  s.any fun d => d.core.phase ≠ .idle

theorem OwnsLive.holding_eq (h : OwnsLive s o) : holding s = o.claim?.isSome := by
  cases s with
  | none =>
    obtain rfl : o = .idle := h
    rfl
  | some d =>
    rw [← Owns.claim_eq h, Bool.eq_iff_iff, d.held]
    simp [holding]

/-- Over any calls and whatever the inbox answers, a driver keeps to the protocol of its claims; it
holds a claim exactly as long as it has not been given back; and a repeated settlement executes
nothing, claims nothing and is the settlement tried before. -/
theorem driver_disciplined {tr : List (DriverOp × DriverOutcome)} {s : Option OwnedDriver}
    (h : Run (Acts driverAct) (some .create) tr s) :
    Disciplined (driverEvents tr) ∧
      claimedCount (driverEvents tr) =
        releasedCount (driverEvents tr) + (if holding s then 1 else 0) ∧
      ∀ inbox s' out, driverAct s (.retrySettlement inbox) = some (s', out) →
        (out.events = [] ∧ s' = s) ∨
          ∃ settlement answer, out.events = [.settled settlement (inbox settlement)] ∧
            .settled settlement answer ∈ sinceClaim (driverEvents tr) := by
  have hstart : OwnsLive (some .create) .idle := rfl
  obtain ⟨o, hrun, howns⟩ : ∃ o, Run Step .idle (driverEvents tr) o ∧ OwnsLive s o :=
    h.refine (fun e => e.2.events) hstart
      fun _ _ _ _ => driverAct_owns
  have htracked := tracked_of_run hrun
  refine ⟨disciplined_of_run hrun, ?_, ?_⟩
  · rw [htracked.balance, howns.holding_eq]
  intro inbox s' out hact
  cases s with
  | none => simp [driverAct] at hact
  | some d =>
    cases hact
    rcases Owns.retrySettlement howns inbox with
      ⟨hevents, hdriver⟩ | ⟨claim, settlement, rfl, hevents, -⟩
    · exact .inl ⟨hevents, by rw [hdriver]⟩
    obtain ⟨⟨answer, hanswer⟩, -⟩ := htracked.chosen settlement rfl
    exact .inr ⟨settlement, answer, hevents, hanswer⟩

/-- A run that has completed, and an inbox that answers every settlement with `answer`. -/
def completedPoll (answer : Status) : PollEnv where
  run := { Reactive.Run.create false false with state := .completed }
  pending := false
  inbox := fun _ => answer

/-- A request that is given the record of `sampleRecord` and starts its graph. -/
def startedRequest : RequestEnv where
  started := true
  admission := .opened
  claim := .ok ⟨1, 1, sampleRecord 7⟩
  build := .ok
  publisher := true
  opened := .ok
  observers := .ok
  requested := .ok
  state := .active
  canceled := .ok
  poll := completedPoll .ok

/-- A completed graph whose settlement fails at first: the claim is given back once, by the repeated
settlement. -/
theorem driver_disciplined_repeated :
    ∃ s outs, exec driverAct (some .create)
        [.request false startedRequest, .poll (completedPoll .eio),
          .retrySettlement fun _ => .ok] = some (s, outs) ∧
      Disciplined (outs.flatMap DriverOutcome.events) ∧ holding s = false := by
  exact ⟨_, _, and_of_imp rfl fun hexec => ⟨(driver_disciplined (run_of_exec hexec)).1, rfl⟩⟩

end TurboFlow.Inbox
