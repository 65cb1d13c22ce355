import TurboFlow.Inbox.Settlement

/-!
# Rates of a durable buffer

The throughput and completion snapshots of a binding report events per second, in thousandths. A
rate is a quotient that saturates, decided from the counter alone: it is exact as long as the
product with the scale fits in 64 bits, and from then on only where the quotient does not fit
either.
-/

namespace TurboFlow.Durable

open Inbox Word

def rateScale : ℕ := 1000000000000

def rateMilli (count elapsedNs : ℕ) : ℕ :=
  if count = 0 ∨ elapsedNs = 0 then 0
  else if count > max64 / rateScale then max64
  else count * rateScale % 2 ^ 64 / elapsedNs

/-- The metrics of `turbo_flow_durable_buffer_binding_t`: its creation time, the counters of the
provider then and those of finished runs. -/
structure Metrics where
  runtimeStartedNs : ℕ
  baselineAdmitted : ℕ
  baselineCompleted : ℕ
  baselineFailed : ℕ
  baselineRetried : ℕ
  baselineDiscarded : ℕ
  graphCompleted : ℕ
  graphFailed : ℕ
  sinkCompleted : ℕ
  sinkFailed : ℕ

def elapsedSince (started now : ℕ) : ℕ :=
  if now ≥ started then now - started else 0

structure RuntimeSnapshot where
  elapsedNs : ℕ
  admitted : ℕ
  completed : ℕ
  failed : ℕ
  retried : ℕ
  discarded : ℕ
  admittedPerSecondMilli : ℕ
  completedPerSecondMilli : ℕ
  failedPerSecondMilli : ℕ

/-- `turbo_flow_durable_buffer_runtime_snapshot`, with the answer of
`flow_durable_buffer_validate_provider` and the snapshot of the inbox. -/
def runtimeSnapshot (binding : Option Metrics) (validated : Status)
    (provider : Except Status Inbox.Snapshot) (now : ℕ) : Except Status RuntimeSnapshot :=
  match binding with
  | none => .error .enoent
  | some binding =>
    if validated ≠ .ok then .error validated
    else
      match provider with
      | .error rc => .error rc
      | .ok provider =>
        if provider.admitted < binding.baselineAdmitted ∨
            provider.completed < binding.baselineCompleted ∨
            provider.failed < binding.baselineFailed ∨
            provider.retried < binding.baselineRetried ∨
            provider.discarded < binding.baselineDiscarded then .error .eproto
        else
          let elapsedNs := elapsedSince binding.runtimeStartedNs now
          let admitted := provider.admitted - binding.baselineAdmitted
          let completed := provider.completed - binding.baselineCompleted
          let failed := provider.failed - binding.baselineFailed
          .ok
            { elapsedNs
              admitted
              completed
              failed
              retried := provider.retried - binding.baselineRetried
              discarded := provider.discarded - binding.baselineDiscarded
              admittedPerSecondMilli := rateMilli admitted elapsedNs
              completedPerSecondMilli := rateMilli completed elapsedNs
              failedPerSecondMilli := rateMilli failed elapsedNs }

structure CompletionSnapshot where
  elapsedNs : ℕ
  graphCompleted : ℕ
  graphFailed : ℕ
  sinkCompleted : ℕ
  sinkFailed : ℕ
  graphCompletedPerSecondMilli : ℕ
  graphFailedPerSecondMilli : ℕ
  sinkCompletedPerSecondMilli : ℕ
  sinkFailedPerSecondMilli : ℕ

def completionSnapshot (binding : Option Metrics) (validated : Status) (now : ℕ) :
    Except Status CompletionSnapshot :=
  match binding with
  | none => .error .enoent
  | some binding =>
    if validated ≠ .ok then .error validated
    else
      let elapsedNs := elapsedSince binding.runtimeStartedNs now
      .ok
        { elapsedNs
          graphCompleted := binding.graphCompleted
          graphFailed := binding.graphFailed
          sinkCompleted := binding.sinkCompleted
          sinkFailed := binding.sinkFailed
          graphCompletedPerSecondMilli := rateMilli binding.graphCompleted elapsedNs
          graphFailedPerSecondMilli := rateMilli binding.graphFailed elapsedNs
          sinkCompletedPerSecondMilli := rateMilli binding.sinkCompleted elapsedNs
          sinkFailedPerSecondMilli := rateMilli binding.sinkFailed elapsedNs }

def RuntimeSnapshot.rates (s : RuntimeSnapshot) : List (ℕ × ℕ) :=
  [(s.admitted, s.admittedPerSecondMilli), (s.completed, s.completedPerSecondMilli),
    (s.failed, s.failedPerSecondMilli)]

def CompletionSnapshot.rates (s : CompletionSnapshot) : List (ℕ × ℕ) :=
  [(s.graphCompleted, s.graphCompletedPerSecondMilli), (s.graphFailed, s.graphFailedPerSecondMilli),
    (s.sinkCompleted, s.sinkCompletedPerSecondMilli), (s.sinkFailed, s.sinkFailedPerSecondMilli)]

/-! ### The exact rate -/

def exactRate (count elapsedNs : ℕ) : ℕ :=
  if count * rateScale / elapsedNs ≤ max64 then count * rateScale / elapsedNs else max64

def RateFits (count elapsedNs : ℕ) : Prop :=
  count * rateScale ≤ max64 ∨ max64 * elapsedNs ≤ count * rateScale

variable {count elapsedNs : ℕ}

theorem guard_iff (count : ℕ) : count > max64 / rateScale ↔ max64 < count * rateScale := by
  rw [gt_iff_lt, Nat.div_lt_iff_lt_mul (by decide)]

theorem rateMilli_of_fits (hproduct : count * rateScale ≤ max64) :
    rateMilli count elapsedNs = count * rateScale / elapsedNs := by
  unfold rateMilli
  split
  · rename_i hzero
    rcases hzero with rfl | rfl
    · simp
    · simp
  have hguard : ¬ count > max64 / rateScale := by
    rw [guard_iff]
    omega
  have hword : count * rateScale % 2 ^ 64 = count * rateScale :=
    Nat.mod_eq_of_lt (by unfold max64 at hproduct; omega)
  rw [if_neg hguard, hword]

theorem rateMilli_of_guard (helapsed : 0 < elapsedNs) (hproduct : max64 < count * rateScale) :
    rateMilli count elapsedNs = max64 := by
  have hcount : count ≠ 0 := by
    rintro rfl
    simp at hproduct
  unfold rateMilli
  rw [if_neg (by omega), if_pos ((guard_iff count).mpr hproduct)]

theorem rateMilli_eq_exactRate_iff (helapsed : 0 < elapsedNs) :
    rateMilli count elapsedNs = exactRate count elapsedNs ↔ RateFits count elapsedNs := by
  unfold exactRate RateFits
  rcases Nat.lt_or_ge max64 (count * rateScale) with hguard | hfits
  · -- beyond the guard the report is the largest word, and the quotient has to reach it
    rw [rateMilli_of_guard helapsed hguard]
    have hquotient : max64 * elapsedNs ≤ count * rateScale ↔
        max64 ≤ count * rateScale / elapsedNs := (Nat.le_div_iff_mul_le helapsed).symm
    rw [hquotient]
    split <;> omega
  have hle : count * rateScale / elapsedNs ≤ max64 := (Nat.div_le_self _ _).trans hfits
  rw [rateMilli_of_fits hfits, if_pos hle]
  simp [hfits]

theorem rateMilli_antitone (count : ℕ) (helapsed : 0 < elapsedNs) (hle : elapsedNs ≤ elapsedNs') :
    rateMilli count elapsedNs' ≤ rateMilli count elapsedNs := by
  rcases Nat.lt_or_ge max64 (count * rateScale) with hguard | hfits
  · rw [rateMilli_of_guard helapsed hguard, rateMilli_of_guard (helapsed.trans_le hle) hguard]
  rw [rateMilli_of_fits hfits, rateMilli_of_fits hfits]
  exact Nat.div_le_div_left hle helapsed

/-! ### The snapshots -/

theorem runtimeSnapshot_rates (h : runtimeSnapshot binding validated provider now = .ok s) :
    ∀ p ∈ s.rates, p.2 = rateMilli p.1 s.elapsedNs := by
  unfold runtimeSnapshot at h
  split at h
  · cases h
  split at h
  · cases h
  split at h
  · cases h
  split at h
  · cases h
  cases h
  simp [RuntimeSnapshot.rates]

theorem completionSnapshot_rates (h : completionSnapshot binding validated now = .ok s) :
    ∀ p ∈ s.rates, p.2 = rateMilli p.1 s.elapsedNs := by
  unfold completionSnapshot at h
  split at h
  · cases h
  split at h
  · cases h
  cases h
  simp [CompletionSnapshot.rates]

/-- Every rate is the exact one just when its counter and the elapsed time meet `RateFits`, and
never grows with the elapsed time. -/
theorem snapshot_rates_exact_iff (binding : Option Metrics) (validated : Status)
    (provider : Except Status Inbox.Snapshot) (now : ℕ) :
    (∀ s, runtimeSnapshot binding validated provider now = .ok s → 0 < s.elapsedNs →
      ∀ p ∈ s.rates, p.2 = exactRate p.1 s.elapsedNs ↔ RateFits p.1 s.elapsedNs) ∧
    (∀ s, completionSnapshot binding validated now = .ok s → 0 < s.elapsedNs →
      ∀ p ∈ s.rates, p.2 = exactRate p.1 s.elapsedNs ↔ RateFits p.1 s.elapsedNs) ∧
    ∀ count elapsedNs elapsedNs', 0 < elapsedNs → elapsedNs ≤ elapsedNs' →
      rateMilli count elapsedNs' ≤ rateMilli count elapsedNs := by
  refine ⟨fun s hs helapsed p hp => ?_, fun s hs helapsed p hp => ?_, ?_⟩
  · rw [runtimeSnapshot_rates hs p hp]
    exact rateMilli_eq_exactRate_iff helapsed
  · rw [completionSnapshot_rates hs p hp]
    exact rateMilli_eq_exactRate_iff helapsed
  intro count elapsedNs elapsedNs' helapsed hle
  exact rateMilli_antitone count helapsed hle

theorem snapshot_rates_exact_iff_five :
    ∃ s, runtimeSnapshot (some ⟨0, 0, 0, 0, 0, 0, 0, 0, 0, 0⟩) .ok
        (.ok ⟨1, true, 0, 0, 0, 0, 0, 0, 5, 0, 0, 0, 0⟩) 1000000000 = .ok s ∧
      s.admittedPerSecondMilli = exactRate s.admitted s.elapsedNs ∧
        s.admittedPerSecondMilli = 5000 :=
  ⟨_, rfl, ((snapshot_rates_exact_iff (some ⟨0, 0, 0, 0, 0, 0, 0, 0, 0, 0⟩) .ok
      (.ok ⟨1, true, 0, 0, 0, 0, 0, 0, 5, 0, 0, 0, 0⟩) 1000000000).1 _ rfl (by decide) (5, 5000)
      (by decide)).mpr (.inl (by decide)), by decide⟩

/-- After 20 million admissions in 1000 seconds the exact rate is 20000 a second; the largest word
is reported. -/
theorem admitted_rate_saturates :
    ∃ s, runtimeSnapshot (some ⟨0, 0, 0, 0, 0, 0, 0, 0, 0, 0⟩) .ok
        (.ok ⟨1, true, 0, 0, 0, 0, 0, 0, 20000000, 0, 0, 0, 0⟩) 1000000000000 = .ok s ∧
      exactRate s.admitted s.elapsedNs = 20000000 ∧ s.admittedPerSecondMilli = max64 :=
  ⟨_, rfl, by decide, by decide⟩

end TurboFlow.Durable
