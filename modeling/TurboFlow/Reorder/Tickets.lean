import TurboFlow.Reorder.Boundary
import TurboFlow.Lib.Run
import Mathlib.Order.Interval.Finset.Nat

/-!
# Tickets at a reorder boundary

`Tickets` adds to a boundary, as history, which numbers called `enter`, wait, are inside, have left
or were canceled. Callers are `Disciplined` when a number is entered once and only after it was
reserved, left only after a successful enter and canceled only after it was reserved and not while
inside. They are `Strict` when no number is entered after it was canceled or canceled while it
waits.
-/

namespace TurboFlow.Reorder

open Transition Finset

structure Tickets where
  boundary : Boundary
  entered : Finset ℕ
  waiters : Finset ℕ
  holders : Finset ℕ
  departed : Finset ℕ
  withdrawn : Finset ℕ
  admissions : List ℕ

/-- The calls of the publications. `resume` is the continuation of a waiting `enter`. -/
inductive Operation
  | reserve
  | enter (sequence : ℕ)
  | resume (sequence : ℕ) (timedOut : Bool)
  | leave (sequence : ℕ)
  | cancel (sequence : ℕ)
  | stop

inductive Outcome
  | reserved (result : Except Status ℕ)
  | entered (sequence : ℕ) (rc : Status)
  | waits
  | done

namespace Tickets

def start (capacity : ℕ) : Tickets where
  boundary := Boundary.start capacity
  entered := ∅
  waiters := ∅
  holders := ∅
  departed := ∅
  withdrawn := ∅
  admissions := []

/-- An `enter` returns; with success its number is inside. -/
def finishEnter (t : Tickets) (sequence : ℕ) (rc : Status) : Tickets :=
  if rc = .ok then
    { t with
      holders := insert sequence t.holders
      admissions := t.admissions ++ [sequence] }
  else t

@[simp]
theorem finishEnter_waiters (t : Tickets) (sequence : ℕ) (rc : Status) :
    (t.finishEnter sequence rc).waiters = t.waiters := by
  unfold finishEnter
  split <;> rfl

@[simp]
theorem finishEnter_withdrawn (t : Tickets) (sequence : ℕ) (rc : Status) :
    (t.finishEnter sequence rc).withdrawn = t.withdrawn := by
  unfold finishEnter
  split <;> rfl

@[simp]
theorem finishEnter_boundary (t : Tickets) (sequence : ℕ) (rc : Status) :
    (t.finishEnter sequence rc).boundary = t.boundary := by
  unfold finishEnter
  split <;> rfl

def act (t : Tickets) : Operation → Option (Tickets × Outcome)
  | .reserve =>
    let (boundary, result) := t.boundary.reserve
    some ({ t with boundary }, .reserved result)
  | .enter sequence =>
    match t.boundary.enter sequence with
    | (boundary, .returned rc) =>
      some (({ t with boundary, entered := insert sequence t.entered }).finishEnter sequence rc,
        .entered sequence rc)
    | (boundary, .waits) =>
      some ({ t with
          boundary
          entered := insert sequence t.entered
          waiters := insert sequence t.waiters }, .waits)
  | .resume sequence timedOut =>
    if sequence ∈ t.waiters then
      match t.boundary.resume sequence timedOut with
      | some (boundary, rc) =>
        some (({ t with boundary, waiters := t.waiters.erase sequence }).finishEnter sequence rc,
          .entered sequence rc)
      | none => none
    else none
  | .leave sequence =>
    some ({ t with
        boundary := t.boundary.leave sequence
        holders := t.holders.erase sequence
        departed := insert sequence t.departed }, .done)
  | .cancel sequence =>
    some ({ t with
        boundary := t.boundary.cancel sequence
        withdrawn := insert sequence t.withdrawn }, .done)
  | .stop => some ({ t with boundary := t.boundary.stop }, .done)

def Reserved (t : Tickets) (sequence : ℕ) : Prop :=
  1 ≤ sequence ∧ sequence ≤ t.boundary.issued

def Disciplined (t : Tickets) : Operation → Prop
  | .enter sequence => t.Reserved sequence ∧ sequence ∉ t.entered
  | .leave sequence => sequence ∈ t.admissions
  | .cancel sequence => t.Reserved sequence ∧ sequence ∉ t.holders
  | _ => True

def Strict (t : Tickets) : Operation → Prop
  | .enter sequence => t.Disciplined (.enter sequence) ∧ sequence ∉ t.withdrawn
  | .cancel sequence => t.Disciplined (.cancel sequence) ∧ sequence ∉ t.waiters
  | op => t.Disciplined op

instance (t : Tickets) : ∀ op, Decidable (t.Disciplined op)
  | .enter _ => inferInstanceAs (Decidable ((_ ∧ _) ∧ _))
  | .leave _ => inferInstanceAs (Decidable (_ ∈ _))
  | .cancel _ => inferInstanceAs (Decidable ((_ ∧ _) ∧ _))
  | .reserve | .resume _ _ | .stop => inferInstanceAs (Decidable True)

instance (t : Tickets) : ∀ op, Decidable (t.Strict op)
  | .enter sequence => inferInstanceAs (Decidable (t.Disciplined (.enter sequence) ∧ _))
  | .cancel sequence => inferInstanceAs (Decidable (t.Disciplined (.cancel sequence) ∧ _))
  | .leave sequence => inferInstanceAs (Decidable (t.Disciplined (.leave sequence)))
  | .reserve | .resume _ _ | .stop => inferInstanceAs (Decidable True)

variable {capacity sequence : ℕ} {op : Operation} {t' : Tickets} {tr : List (Operation × Outcome)}

theorem Strict.disciplined {t : Tickets} (h : t.Strict op) : t.Disciplined op := by
  cases op with
  | enter | cancel => exact h.1
  | reserve | resume | leave | stop => exact h

abbrev DisciplinedStep := Meeting (Acts act) fun t e => t.Disciplined e.1

abbrev StrictStep := Meeting (Acts act) fun t e => t.Strict e.1

/-- The order of the numbers, up to canceled ones that are due: those below `next` are done with,
only `next` can be inside, and canceled ones above are remembered. -/
structure Arranged (t : Tickets) : Prop where
  next_pos : 1 ≤ t.boundary.next
  next_le : t.boundary.next ≤ t.boundary.issued + 1
  outstanding : t.boundary.issued ≤ t.boundary.next + t.boundary.capacity
  canceled : ∀ q ∈ t.boundary.canceled,
    q ∈ t.withdrawn ∧ t.boundary.next ≤ q ∧ q ≤ t.boundary.issued
  withdrawn : ∀ q ∈ t.withdrawn, q < t.boundary.next ∨ q ∈ t.boundary.canceled
  below : ∀ q, 1 ≤ q → q < t.boundary.next → q ∈ t.departed ∨ q ∈ t.withdrawn
  inside : t.boundary.active → t.holders = {t.boundary.next} ∧
    t.boundary.next ≤ t.boundary.issued ∧ t.boundary.next ∉ t.boundary.canceled
  nobody : t.boundary.active = false → t.holders = ∅
  admitted : ∀ q ∈ t.admissions, q < t.boundary.next ∨ (q = t.boundary.next ∧ t.boundary.active)
  increasing : t.admissions.Pairwise (· < ·)

structure Ordered (t : Tickets) : Prop extends Arranged t where
  due : t.boundary.next ∉ t.boundary.canceled

theorem ordered_start (capacity : ℕ) : (start capacity).Ordered := by
  refine ⟨?_, by simp [start, Boundary.start]⟩
  constructor <;> simp [start, Boundary.start]
  omega

variable {t : Tickets}

theorem Arranged.ordered_of_advanced (h : t.Arranged) (hadv : Boundary.Advanced t.boundary b) :
    Ordered { t with boundary := b } := by
  obtain ⟨hcapacity, -, hissued, hactive, -, hle, hskipped, hmem, hheld, hsettled⟩ := hadv
  have hpos := h.next_pos
  have hnext := h.next_le
  have hout := h.outstanding
  have hkept : ∀ q, q ∈ b.canceled → q ∈ t.boundary.canceled ∧ b.next ≤ q := by
    intro q hq
    obtain ⟨hqc, hq⟩ := (hmem q).mp hq
    have := (h.canceled q hqc).2.1
    exact ⟨hqc, by omega⟩
  refine
    { next_pos := Nat.le_trans hpos hle
      next_le := ?_
      outstanding := by dsimp only; omega
      canceled := ?_
      withdrawn := ?_
      below := ?_
      inside := ?_
      nobody := fun hb => h.nobody (hactive ▸ hb)
      admitted := ?_
      increasing := h.increasing
      due := ?_ }
  · -- The last number that was skipped had been issued.
    dsimp only
    rcases Nat.eq_or_lt_of_le hle with heq | hlt
    · omega
    have := (h.canceled _ (hskipped (b.next - 1) (by omega) (by omega))).2.2
    omega
  · intro q hq
    obtain ⟨hqc, hge⟩ := hkept q hq
    obtain ⟨hw, -, hi⟩ := h.canceled q hqc
    exact ⟨hw, hge, hissued.symm ▸ hi⟩
  · intro q hq
    rcases h.withdrawn q hq with hlt | hqc
    · exact .inl (Nat.lt_of_lt_of_le hlt hle)
    rcases Nat.lt_or_ge q b.next with hlt | hge
    · exact .inl hlt
    · exact .inr ((hmem q).mpr ⟨hqc, .inr hge⟩)
  · intro q hq hlt
    rcases Nat.lt_or_ge q t.boundary.next with hbelow | hge
    · exact h.below q hq hbelow
    · exact .inr (h.canceled q (hskipped q hge hlt)).1
  · intro hb
    have hsame := hheld (hactive ▸ hb)
    obtain ⟨hholders, hi, hnot⟩ := h.inside (hactive ▸ hb)
    dsimp only
    rw [hsame, hissued]
    exact ⟨hholders, hi, fun hq => hnot (hkept _ hq).1⟩
  · intro q hq
    rcases h.admitted q hq with hlt | ⟨rfl, hact⟩
    · exact .inl (Nat.lt_of_lt_of_le hlt hle)
    · exact .inr ⟨(hheld hact).symm, hactive ▸ hact⟩
  cases hb : b.active with
  | false => exact hsettled hb
  | true =>
    have hact : t.boundary.active := hactive ▸ hb
    rw [hheld hact]
    exact fun hq => (h.inside hact).2.2 (hkept _ hq).1

section

variable (h : t.Ordered)
include h

theorem Ordered.next_not_withdrawn : t.boundary.next ∉ t.withdrawn := by
  intro hw
  rcases h.withdrawn _ hw with hlt | hc
  · omega
  · exact h.due hc

theorem Ordered.takeTurn (hactive : t.boundary.active = false)
    (hissued : t.boundary.next ≤ t.boundary.issued) (waiting : ℕ) (entered waiters : Finset ℕ) :
    Ordered
      { t with
        boundary := { t.boundary with waiting, active := true }
        entered
        waiters
        holders := insert t.boundary.next t.holders
        admissions := t.admissions ++ [t.boundary.next] } := by
  have hbefore : ∀ q ∈ t.admissions, q < t.boundary.next := by
    intro q hq
    rcases h.admitted q hq with hlt | ⟨-, hact⟩
    · exact hlt
    · simp [hactive] at hact
  refine
    { h with
      inside := ?_
      nobody := by simp
      admitted := ?_
      increasing := ?_ }
  · intro _
    exact ⟨by simp [h.nobody hactive], hissued, h.due⟩
  · intro q hq
    rcases List.mem_append.mp hq with hq | hq
    · exact .inl (hbefore q hq)
    · exact .inr ⟨List.mem_singleton.mp hq, rfl⟩
  rw [List.pairwise_append]
  refine ⟨h.increasing, by simp, ?_⟩
  intro a ha b hb
  rw [List.mem_singleton.mp hb]
  exact hbefore a ha

theorem Ordered.wait (waiting : ℕ) (entered waiters : Finset ℕ) :
    Ordered { t with boundary := { t.boundary with waiting }, entered, waiters } :=
  { h with }

theorem Ordered.leave (hadm : sequence ∈ t.admissions) :
    Ordered
      { t with
        boundary := t.boundary.leave sequence
        holders := t.holders.erase sequence
        departed := insert sequence t.departed } := by
  rcases h.admitted sequence hadm with hlt | ⟨rfl, hactive⟩
  · -- It has left before: nothing happens at the boundary.
    have hstay : t.boundary.leave sequence = t.boundary := by
      simp [Boundary.leave, Nat.ne_of_lt hlt]
    have herase : t.holders.erase sequence = t.holders := by
      apply erase_eq_of_notMem
      cases hb : t.boundary.active with
      | false => simp [h.nobody hb]
      | true => simpa [(h.inside hb).1] using Nat.ne_of_lt hlt
    rw [hstay, herase]
    exact { h with below := fun q hq hlt => (h.below q hq hlt).imp_left mem_insert_of_mem }
  obtain ⟨hholders, hissued, hnot⟩ := h.inside hactive
  have hleave : t.boundary.leave t.boundary.next = Boundary.advanceCanceled
      { t.boundary with active := false, next := t.boundary.next + 1 } := by
    simp [Boundary.leave, hactive]
  rw [hleave]
  refine Arranged.ordered_of_advanced (t := { t with
      boundary := { t.boundary with active := false, next := t.boundary.next + 1 }
      holders := t.holders.erase t.boundary.next
      departed := insert t.boundary.next t.departed }) ?_ (Boundary.advanced_advanceCanceled _)
  have hout := h.outstanding
  refine
    { next_pos := by simp
      next_le := by simpa using hissued
      outstanding := by simp only; omega
      canceled := ?_
      withdrawn := ?_
      below := ?_
      inside := by simp
      nobody := fun _ => by simp [hholders]
      admitted := ?_
      increasing := h.increasing }
  · intro q hq
    obtain ⟨hw, hge, hi⟩ := h.canceled q hq
    have hne : q ≠ t.boundary.next := fun heq => hnot (heq ▸ hq)
    exact ⟨hw, by simp only; omega, hi⟩
  · intro q hq
    exact (h.withdrawn q hq).imp_left Nat.lt_succ_of_lt
  · intro q hq hlt
    rcases Nat.lt_succ_iff_lt_or_eq.mp hlt with hlt | rfl
    · exact (h.below q hq hlt).imp_left mem_insert_of_mem
    · exact .inl (mem_insert_self _ _)
  intro q hq
  rcases h.admitted q hq with hlt | ⟨rfl, -⟩
  · exact .inl (Nat.lt_succ_of_lt hlt)
  · exact .inl (Nat.lt_succ_self _)

theorem Ordered.cancel (hreserved : t.Reserved sequence) (houtside : sequence ∉ t.holders) :
    Ordered
      { t with
        boundary := t.boundary.cancel sequence
        withdrawn := insert sequence t.withdrawn } := by
  obtain ⟨hpos, hissued⟩ := hreserved
  rcases Nat.lt_or_ge sequence t.boundary.next with hlt | hge
  · have hstay : t.boundary.cancel sequence = t.boundary := by
      simp [Boundary.cancel, Nat.not_le.mpr hlt]
    rw [hstay]
    refine
      { h with
        canceled := ?_
        withdrawn := ?_
        below := fun q hq hlt => (h.below q hq hlt).imp_right mem_insert_of_mem }
    · intro q hq
      obtain ⟨hw, hq⟩ := h.canceled q hq
      exact ⟨mem_insert_of_mem hw, hq⟩
    intro q hq
    rcases mem_insert.mp hq with rfl | hq
    · exact .inl hlt
    · exact h.withdrawn q hq
  have hcancel : t.boundary.cancel sequence =
      Boundary.advanceCanceled
        { t.boundary with canceled := insert sequence t.boundary.canceled } := by
    simp [Boundary.cancel, Nat.ne_of_gt hpos, hge]
  rw [hcancel]
  refine Arranged.ordered_of_advanced (t := { t with
      boundary := { t.boundary with canceled := insert sequence t.boundary.canceled }
      withdrawn := insert sequence t.withdrawn }) ?_ (Boundary.advanced_advanceCanceled _)
  refine
    { h with
      canceled := ?_
      withdrawn := ?_
      below := fun q hq hlt => (h.below q hq hlt).imp_right mem_insert_of_mem
      inside := ?_ }
  · intro q hq
    rcases mem_insert.mp hq with rfl | hq
    · exact ⟨mem_insert_self _ _, hge, hissued⟩
    obtain ⟨hw, hq⟩ := h.canceled q hq
    exact ⟨mem_insert_of_mem hw, hq⟩
  · intro q hq
    rcases mem_insert.mp hq with rfl | hq
    · exact .inr (mem_insert_self _ _)
    · exact (h.withdrawn q hq).imp_right mem_insert_of_mem
  intro hactive
  obtain ⟨hholders, hi, hnot⟩ := h.inside hactive
  refine ⟨hholders, hi, ?_⟩
  rw [mem_insert, not_or]
  refine ⟨fun heq => houtside ?_, hnot⟩
  rw [hholders, mem_singleton]
  exact heq.symm

theorem Ordered.reserve : Ordered { t with boundary := t.boundary.reserve.1 } := by
  rcases t.boundary.reserve_cases with ⟨rc, heq⟩ | ⟨heq, hroom⟩
  · rw [heq]
    exact h
  rw [heq]
  refine
    { h with
      next_le := Nat.le_succ_of_le h.next_le
      outstanding := hroom
      canceled := ?_
      inside := ?_ }
  · intro q hq
    obtain ⟨hw, hge, hi⟩ := h.canceled q hq
    exact ⟨hw, hge, Nat.le_succ_of_le hi⟩
  intro hactive
  obtain ⟨hholders, hi, hnot⟩ := h.inside hactive
  exact ⟨hholders, Nat.le_succ_of_le hi, hnot⟩

end

/-- The waiting room of a boundary: who waits has called `enter` and is not inside. -/
structure Queued (t : Tickets) : Prop where
  waiting : t.boundary.waiting = t.waiters.card
  waiters : t.waiters ⊆ t.entered
  entered : ∀ q ∈ t.entered, t.Reserved q
  admissions : ∀ q ∈ t.admissions, q ∈ t.entered ∧ q ∉ t.waiters
  holders : ∀ q ∈ t.holders, q ∈ t.admissions
  departed : ∀ q ∈ t.departed, q ∈ t.admissions

theorem queued_start (capacity : ℕ) : (start capacity).Queued := by
  constructor <;> simp [start, Boundary.start]

theorem Queued.finishEnter (h : t.Queued) (hentered : sequence ∈ t.entered)
    (hnot : sequence ∉ t.waiters) (rc : Status) : (t.finishEnter sequence rc).Queued := by
  unfold Tickets.finishEnter
  split
  · refine
      { h with
        admissions := ?_
        holders := ?_
        departed := fun q hq => List.mem_append_left _ (h.departed q hq) }
    · exact List.forall_mem_append.mpr
        ⟨h.admissions, List.forall_mem_singleton.mpr ⟨hentered, hnot⟩⟩
    intro q hq
    rcases mem_insert.mp hq with rfl | hq
    · simp
    · exact List.mem_append_left _ (h.holders q hq)
  · exact h

theorem Queued.enter (h : t.Queued) (hreserved : t.Reserved sequence)
    (hfresh : sequence ∉ t.entered) (active : Bool) (rc : Status) :
    Queued (({ t with
      boundary := { t.boundary with active }
      entered := insert sequence t.entered }).finishEnter sequence rc) := by
  have hentered : ∀ q ∈ insert sequence t.entered, t.Reserved q := by
    intro q hq
    rcases mem_insert.mp hq with rfl | hq
    · exact hreserved
    · exact h.entered q hq
  have hqueued : Queued
      { t with
        boundary := { t.boundary with active }
        entered := insert sequence t.entered } :=
    { h with
      waiters := h.waiters.trans (subset_insert _ _)
      entered := hentered
      admissions := fun q hq => (h.admissions q hq).imp_left mem_insert_of_mem }
  exact hqueued.finishEnter (mem_insert_self _ _) (fun hw => hfresh (h.waiters hw)) rc

theorem Queued.wait (h : t.Queued) (hreserved : t.Reserved sequence)
    (hfresh : sequence ∉ t.entered) :
    Queued { t with
      boundary := { t.boundary with waiting := t.boundary.waiting + 1 }
      entered := insert sequence t.entered
      waiters := insert sequence t.waiters } := by
  have hnot : sequence ∉ t.waiters := fun hw => hfresh (h.waiters hw)
  refine ⟨?_, insert_subset_insert _ h.waiters, ?_, ?_, h.holders, h.departed⟩
  · rw [card_insert_of_notMem hnot, h.waiting]
  · intro q hq
    rcases mem_insert.mp hq with rfl | hq
    · exact hreserved
    · exact h.entered q hq
  intro q hq
  obtain ⟨hentered, hw⟩ := h.admissions q hq
  refine ⟨mem_insert_of_mem hentered, ?_⟩
  rw [mem_insert, not_or]
  exact ⟨fun heq => hfresh (heq ▸ hentered), hw⟩

theorem Queued.resume (h : t.Queued) (hwaits : sequence ∈ t.waiters) (active : Bool) (rc : Status) :
    Queued (({ t with
      boundary := { t.boundary with waiting := t.boundary.waiting - 1, active }
      waiters := t.waiters.erase sequence }).finishEnter sequence rc) := by
  have hcard : t.boundary.waiting - 1 = (t.waiters.erase sequence).card := by
    rw [card_erase_of_mem hwaits, h.waiting]
  have hqueued : Queued
      { t with
        boundary := { t.boundary with waiting := t.boundary.waiting - 1, active }
        waiters := t.waiters.erase sequence } :=
    { h with
      waiting := hcard
      waiters := (erase_subset _ _).trans h.waiters
      admissions := fun q hq =>
        (h.admissions q hq).imp_right fun hnot hw => hnot (mem_of_mem_erase hw) }
  exact hqueued.finishEnter (h.waiters hwaits) (notMem_erase _ _) rc

theorem act_resume {timedOut : Bool} (hact : act t (.resume sequence timedOut) = some (t', out)) :
    sequence ∈ t.waiters ∧ ∃ boundary rc, t.boundary.resume sequence timedOut =
      some (boundary, rc) ∧
      t' = ({ t with boundary, waiters := t.waiters.erase sequence }).finishEnter sequence rc ∧
      out = .entered sequence rc := by
  by_cases hwaits : sequence ∈ t.waiters
  · rcases hres : t.boundary.resume sequence timedOut with _ | ⟨b, rc⟩
    · simp [act, hwaits, hres] at hact
    obtain ⟨rfl, rfl⟩ := by simpa [act, hwaits, hres] using hact
    exact ⟨hwaits, b, rc, rfl, rfl, rfl⟩
  · simp [act, hwaits] at hact

theorem step (hact : act t op = some (t', out)) (hop : t.Disciplined op) (h : t.Ordered)
    (hq : t.Queued) : t'.Ordered ∧ t'.Queued := by
  cases op with
  | reserve =>
    obtain ⟨rfl, -⟩ := by simpa [act] using hact
    refine ⟨h.reserve, ?_⟩
    rcases t.boundary.reserve_cases with ⟨rc, heq⟩ | ⟨heq, -⟩
    · rw [heq]
      exact hq
    rw [heq]
    exact { hq with entered := fun q hm => (hq.entered q hm).imp_right Nat.le_succ_of_le }
  | enter sequence =>
    obtain ⟨hreserved, hfresh⟩ := hop
    rcases t.boundary.enter_cases sequence with
      ⟨rc, heq, hrc, -⟩ | ⟨heq, -⟩ | ⟨heq, hnext, hactive⟩
    · obtain ⟨rfl, -⟩ := by simpa [act, heq] using hact
      refine ⟨?_, hq.enter hreserved hfresh t.boundary.active rc⟩
      simpa [finishEnter, hrc] using h.wait t.boundary.waiting (insert sequence t.entered) t.waiters
    · obtain ⟨rfl, -⟩ := by simpa [act, heq] using hact
      exact ⟨h.wait _ _ _, hq.wait hreserved hfresh⟩
    obtain ⟨rfl, -⟩ := by simpa [act, heq] using hact
    refine ⟨?_, hq.enter hreserved hfresh true .ok⟩
    subst hnext
    exact h.takeTurn hactive hreserved.2 t.boundary.waiting _ t.waiters
  | resume sequence timedOut =>
    obtain ⟨hwaits, b, rc, hres, rfl, -⟩ := act_resume hact
    rcases Boundary.resume_cases hres with ⟨hrc, rfl⟩ | ⟨rfl, rfl, hnext, hactive⟩
    · refine ⟨?_, hq.resume hwaits t.boundary.active rc⟩
      simpa [finishEnter, hrc] using
        h.wait (t.boundary.waiting - 1) t.entered (t.waiters.erase sequence)
    refine ⟨?_, hq.resume hwaits true .ok⟩
    have hissued := (hq.entered sequence (hq.waiters hwaits)).2
    subst hnext
    exact h.takeTurn hactive hissued (t.boundary.waiting - 1) t.entered _
  | leave sequence =>
    cases hact
    obtain ⟨-, hwaiting, hissued, -⟩ := t.boundary.sameCounts_leave sequence
    refine ⟨h.leave hop, ?_⟩
    exact
      { hq with
        waiting := hwaiting.trans hq.waiting
        entered := fun q hm => by simpa [Reserved, hissued] using hq.entered q hm
        holders := fun q hm => hq.holders q (mem_of_mem_erase hm)
        departed := fun q hm => (mem_insert.mp hm).elim (fun heq => heq ▸ hop)
          (hq.departed q) }
  | cancel sequence =>
    cases hact
    obtain ⟨-, hwaiting, hissued, -⟩ := t.boundary.sameCounts_cancel sequence
    refine ⟨h.cancel hop.1 hop.2, ?_⟩
    exact
      { hq with
        waiting := hwaiting.trans hq.waiting
        entered := fun q hm => by simpa [Reserved, hissued] using hq.entered q hm }
  | stop =>
    cases hact
    exact ⟨{ h with }, { hq with }⟩

theorem ordered_of_run (h : Run DisciplinedStep (start capacity) tr t) : t.Ordered ∧ t.Queued :=
  h.invariant ⟨ordered_start capacity, queued_start capacity⟩
    fun _ _ _ hs hstep => step hstep.1 hstep.2 hs.1 hs.2

theorem act_counts (hact : act t op = some (t', out)) :
    t'.boundary.capacity = t.boundary.capacity ∧
      (op = .reserve ∨ t'.boundary.issued = t.boundary.issued) := by
  cases op with
  | reserve =>
    obtain ⟨rfl, -⟩ := by simpa [act] using hact
    rcases t.boundary.reserve_cases with ⟨rc, heq⟩ | ⟨heq, -⟩ <;> simp [heq]
  | enter sequence =>
    rcases t.boundary.enter_cases sequence with ⟨rc, heq, -⟩ | ⟨heq, -⟩ | ⟨heq, -⟩ <;>
      (obtain ⟨rfl, -⟩ := by simpa [act, heq] using hact) <;> simp
  | resume sequence timedOut =>
    obtain ⟨-, b, rc, hres, rfl, -⟩ := act_resume hact
    rcases Boundary.resume_cases hres with ⟨-, rfl⟩ | ⟨-, rfl, -⟩ <;> simp
  | leave sequence =>
    obtain ⟨rfl, -⟩ := by simpa [act] using hact
    have hcounts := t.boundary.sameCounts_leave sequence
    exact ⟨hcounts.capacity, .inr hcounts.issued⟩
  | cancel sequence =>
    obtain ⟨rfl, -⟩ := by simpa [act] using hact
    have hcounts := t.boundary.sameCounts_cancel sequence
    exact ⟨hcounts.capacity, .inr hcounts.issued⟩
  | stop =>
    obtain ⟨rfl, -⟩ := by simpa [act] using hact
    exact ⟨rfl, .inr rfl⟩

theorem capacity_of_run (h : Run DisciplinedStep (start capacity) tr t) :
    t.boundary.capacity = capacity :=
  h.invariant (P := fun t => t.boundary.capacity = capacity) rfl
    fun _ _ _ hs hstep => (act_counts hstep.1).1.trans hs

theorem strict_of_run (h : Run StrictStep (start capacity) tr t) :
    (t.Ordered ∧ t.Queued) ∧ ∀ q ∈ t.waiters, q ∉ t.withdrawn := by
  refine h.invariant (P := fun t => (t.Ordered ∧ t.Queued) ∧ ∀ q ∈ t.waiters, q ∉ t.withdrawn)
    ⟨⟨ordered_start capacity, queued_start capacity⟩, by simp [start]⟩ ?_
  rintro t ⟨op, out⟩ t' ⟨⟨ho, hq⟩, hdisjoint⟩ ⟨hact, hop⟩
  refine ⟨step hact hop.disciplined ho hq, ?_⟩
  have hact : act t op = some (t', out) := hact
  cases op with
  | reserve | leave | stop =>
    cases hact
    exact hdisjoint
  | enter sequence =>
    rcases t.boundary.enter_cases sequence with ⟨rc, heq, hrc, -⟩ | ⟨heq, -⟩ | ⟨heq, -⟩
    · obtain ⟨rfl, -⟩ := by simpa [act, heq, finishEnter, hrc] using hact
      exact hdisjoint
    · obtain ⟨rfl, -⟩ := by simpa [act, heq] using hact
      intro q hm
      rcases mem_insert.mp hm with rfl | hm
      · exact hop.2
      · exact hdisjoint q hm
    obtain ⟨rfl, -⟩ := by simpa [act, heq, finishEnter] using hact
    exact hdisjoint
  | resume sequence timedOut =>
    obtain ⟨-, b, rc, -, rfl, -⟩ := act_resume hact
    rw [finishEnter_waiters, finishEnter_withdrawn]
    exact fun q hm => hdisjoint q (mem_of_mem_erase hm)
  | cancel sequence =>
    cases hact
    intro q hm
    dsimp only at hm ⊢
    rw [mem_insert, not_or]
    exact ⟨fun heq => hop.2 (heq ▸ hm), hdisjoint q hm⟩

theorem Ordered.next_entered (ho : t.Ordered) (hq : t.Queued) (hactive : t.boundary.active) :
    t.boundary.next ∈ t.entered ∧ t.boundary.next ∉ t.waiters := by
  obtain ⟨hholders, -⟩ := ho.inside hactive
  exact hq.admissions _ (hq.holders _ (by simp [hholders]))

theorem Ordered.next_le_of_waiting (ho : t.Ordered) (hq : t.Queued) (hw : q ∈ t.waiters)
    (hnot : q ∉ t.withdrawn) : t.boundary.next ≤ q := by
  by_contra hlt
  have hpos := (hq.entered q (hq.waiters hw)).1
  rcases ho.below q hpos (Nat.lt_of_not_le hlt) with hdeparted | hwithdrawn
  · exact (hq.admissions q (hq.departed q hdeparted)).2 hw
  · exact hnot hwithdrawn

/-- A strict `enter` finds no place only while the waiter whose turn it is has not resumed: the
other waiting numbers lie between `next` and `issued`. -/
theorem Ordered.next_waits_of_enospc (ho : t.Ordered) (hq : t.Queued)
    (hdisjoint : ∀ q ∈ t.waiters, q ∉ t.withdrawn) (hop : t.Disciplined (.enter sequence))
    (hact : t.act (.enter sequence) = some (t', .entered sequence .enospc)) :
    t.boundary.active = false ∧ t.boundary.next ∈ t.waiters := by
  obtain ⟨⟨-, hissued⟩, hnew⟩ := hop
  obtain ⟨hge, hwait, hfull⟩ : t.boundary.next ≤ sequence ∧
      (sequence ≠ t.boundary.next ∨ t.boundary.active) ∧
      t.boundary.capacity ≤ t.boundary.waiting := by
    rcases t.boundary.enter_cases sequence with ⟨rc, heq, -, -, henospc⟩ | ⟨heq, -⟩ | ⟨heq, -⟩
    · obtain ⟨-, rfl⟩ := by simpa [act, heq] using hact
      exact henospc rfl
    all_goals simp [act, heq] at hact
  by_contra hturn
  have hne : sequence ≠ t.boundary.next := by
    rintro rfl
    exact hnew (ho.next_entered hq (by simpa using hwait)).1
  have hsubset : t.waiters ⊆ (Ioc t.boundary.next t.boundary.issued).erase sequence := by
    intro w hw
    have hentered := hq.waiters hw
    have hle := ho.next_le_of_waiting hq hw (hdisjoint w hw)
    have hnext : w ≠ t.boundary.next := by
      rintro rfl
      by_cases hactive : t.boundary.active
      · exact (ho.next_entered hq hactive).2 hw
      · exact hturn ⟨by simpa using hactive, hw⟩
    refine mem_erase.mpr ⟨fun heq => hnew (heq ▸ hentered), mem_Ioc.mpr ⟨?_, ?_⟩⟩
    · exact Nat.lt_of_le_of_ne hle hnext.symm
    · exact (hq.entered w hentered).2
  have hmem : sequence ∈ Ioc t.boundary.next t.boundary.issued :=
    mem_Ioc.mpr ⟨Nat.lt_of_le_of_ne hge hne.symm, hissued⟩
  have hcard := card_le_card hsubset
  rw [card_erase_of_mem hmem, Nat.card_Ioc] at hcard
  have hwaiting := hq.waiting
  have houtstanding := ho.outstanding
  omega

theorem Ordered.not_withdrawn_of_entered (ho : t.Ordered) {q : ℕ}
    (hact : t.act op = some (t', .entered q .ok)) : q ∉ t.withdrawn := by
  cases op with
  | reserve | leave | cancel | stop => simp [act] at hact
  | enter sequence =>
    rcases t.boundary.enter_cases sequence with ⟨rc, heq, hrc, -⟩ | ⟨heq, -⟩ | ⟨heq, hnext, -⟩
    · obtain ⟨-, -, rfl⟩ := by simpa [act, heq] using hact
      exact absurd rfl hrc
    · simp [act, heq] at hact
    obtain ⟨-, rfl⟩ := by simpa [act, heq] using hact
    exact hnext ▸ ho.next_not_withdrawn
  | resume sequence timedOut =>
    obtain ⟨-, b, rc, hres, -, hout⟩ := act_resume hact
    cases hout
    rcases Boundary.resume_cases hres with ⟨hrc, -⟩ | ⟨-, -, hnext, -⟩
    · exact absurd rfl hrc
    · exact hnext ▸ ho.next_not_withdrawn

/-- Publications pass a boundary one at a time in the order of their numbers. A number is passed
over only when it was left or canceled, and at most `capacity` numbers are outstanding beyond the
next one. For strict callers the waiting room is full only while the waiter whose turn it is has not
resumed. -/
theorem boundary_order {capacity : ℕ} {tr : List (Operation × Outcome)} {t : Tickets}
    (h : Run DisciplinedStep (start capacity) tr t) :
    t.holders.card ≤ 1 ∧
      t.admissions.Pairwise (· < ·) ∧
      (∀ op q t', t.act op = some (t', .entered q .ok) → q ∉ t.withdrawn) ∧
      (∀ q, 1 ≤ q → q < t.boundary.next → q ∈ t.departed ∨ q ∈ t.withdrawn) ∧
      (t.boundary.active = false → t.boundary.next ∉ t.boundary.canceled) ∧
      (∀ q ∈ t.boundary.canceled, t.boundary.next ≤ q ∧ q ≤ t.boundary.issued) ∧
      t.boundary.issued ≤ t.boundary.next + capacity ∧
      (Run StrictStep (start capacity) tr t → ∀ q t', t.Strict (.enter q) →
        t.act (.enter q) = some (t', .entered q .enospc) →
        t.boundary.active = false ∧ t.boundary.next ∈ t.waiters) := by
  obtain ⟨ho, hq⟩ := ordered_of_run h
  refine ⟨?_, ho.increasing, fun _ _ _ => ho.not_withdrawn_of_entered, ho.below, fun _ => ho.due,
    fun q hq => (ho.canceled q hq).2, capacity_of_run h ▸ ho.outstanding, ?_⟩
  · rcases hactive : t.boundary.active with _ | _
    · simp [ho.nobody hactive]
    · simp [(ho.inside hactive).1]
  intro hstrict q t' hop hact
  obtain ⟨-, hdisjoint⟩ := strict_of_run hstrict
  exact ho.next_waits_of_enospc hq hdisjoint hop.disciplined hact

/-- Three publications at a boundary of capacity 1: the first has left, the second waits and the
third has its number. -/
def handover : List Operation :=
  [.reserve, .enter 1, .reserve, .enter 2, .leave 1, .reserve]

/-- The second number was woken but counts as waiting: the third finds no place, although every
number was reserved, entered once and never canceled. -/
theorem enter_enospc_handover :
    ∃ t outs t', execMeeting act Disciplined (start 1) handover = some (t, outs) ∧
      t.Disciplined (.enter 3) ∧ t.withdrawn = ∅ ∧
      t.act (.enter 3) = some (t', .entered 3 .enospc) :=
  ⟨_, _, _, rfl, by decide, rfl, rfl⟩

theorem boundary_order_handover :
    ∃ t outs, execMeeting act Strict (start 1) handover = some (t, outs) ∧
      t.admissions = [1] ∧ t.holders.card ≤ 1 ∧ t.boundary.issued ≤ t.boundary.next + 1 ∧
      t.boundary.active = false ∧ t.boundary.next ∈ t.waiters := by
  obtain ⟨t, outs, t', hexec, hstrict, henter, hadmissions⟩ : ∃ t outs t',
      execMeeting act Strict (start 1) handover = some (t, outs) ∧ t.Strict (.enter 3) ∧
        t.act (.enter 3) = some (t', .entered 3 .enospc) ∧ t.admissions = [1] :=
    ⟨_, _, _, rfl, by decide, rfl, by decide⟩
  have hrun : Run StrictStep (start 1) (handover.zip outs) t := run_of_execMeeting hexec
  obtain ⟨hcard, -, -, -, -, -, hissued, hturn⟩ :=
    boundary_order (hrun.mono fun _ _ _ hstep => ⟨hstep.1, hstep.2.disciplined⟩)
  exact ⟨t, outs, hexec, hadmissions, hcard, hissued, hturn hrun 3 t' hstrict henter⟩

end Tickets

end TurboFlow.Reorder
