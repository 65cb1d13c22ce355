import TurboFlow.Graph.Plan
import TurboFlow.Lib.Kahn

/-!
# Retiring the durable buffers of a flow

A flow that is stopped for good closes and drains its durable buffers. A record may be admitted by a
buffer further down, so they are retired in the order of the graph, which
`flow_durable_buffers_prepare_retire` finds by counting incoming edges. `stageOrder` reports a write
beyond the end of the order array as a fault.
-/

namespace TurboFlow.Durable

open List Option
open Relation (TransGen)
open TurboFlow.Graph Kahn

inductive OrderResult
  | fault (fault : Fault)
  | refused (rc : Status)
  | ordered (order : List ℕ)

/-- The sort of the stages in `flow_durable_buffers_prepare_retire`. -/
def stageOrder (count : ℕ) (edges : List Edge) : OrderResult :=
  if edges.any fun e => e.fromStage ≥ count || e.toStage ≥ count then .refused .eproto
  else
    match kahn Edge.fromStage Edge.toStage edges count with
    | .error fault => .fault fault
    | .ok s => if s.order.length ≠ count then .refused .eproto else .ordered s.order

inductive RetireEvent
  | quiesced (binding : ℕ) (rc : Status)
  | drained (binding : ℕ) (rc : Status)

/-- The flow and the answers of the functions called: `runs` is of `flow_run_prepare_buffer_retire`,
`settled` of the last look at a provider. -/
structure Retiring where
  started : Bool
  count : ℕ
  edges : List Edge
  stageOf : List (Option ℕ)
  allocated : Bool
  runs : Status
  quiesce : ℕ → Status
  drain : ℕ → Status
  settled : ℕ → Except Status Bool

def retireEach (r : Retiring) : List ℕ → List RetireEvent × Status
  | [] => ([], .ok)
  | binding :: bindings =>
    if r.quiesce binding ≠ .ok then
      ([.quiesced binding (r.quiesce binding)], r.quiesce binding)
    else if r.drain binding ≠ .ok then
      ([.quiesced binding .ok, .drained binding (r.drain binding)], r.drain binding)
    else
      let rest := retireEach r bindings
      (.quiesced binding .ok :: .drained binding .ok :: rest.1, rest.2)

def bindingsIn (r : Retiring) (order : List ℕ) : List ℕ :=
  order.flatMap fun stage =>
    (range r.stageOf.length).filter fun binding => r.stageOf[binding]? = some (some stage)

def settledAll (r : Retiring) : List ℕ → Status
  | [] => .ok
  | binding :: bindings =>
    match r.settled binding with
    | .error rc => rc
    | .ok false => .ebusy
    | .ok true => settledAll r bindings

/-- `flow_durable_buffers_prepare_retire`; it has no result where the sort has none. -/
def prepareRetire (r : Retiring) : Except Fault (List RetireEvent × Status) :=
  if r.stageOf = [] then .ok ([], .ok)
  else if r.started = false then .ok (retireEach r (range r.stageOf.length))
  else if r.count = 0 ∨ r.count > 2 ^ 32 - 1 then .ok ([], .eproto)
  else if r.allocated = false then .ok ([], .enomem)
  else
    match stageOrder r.count r.edges with
    | .fault fault => .error fault
    | .refused rc => .ok ([], rc)
    | .ordered order =>
      if r.runs ≠ .ok then .ok ([], r.runs)
      else
        let retired := retireEach r (bindingsIn r order)
        if retired.2 ≠ .ok then .ok retired
        else .ok (retired.1, settledAll r (range r.stageOf.length))

abbrev StagesAcyclic (edges : List Edge) : Prop :=
  Acyclic Edge.fromStage Edge.toStage edges

abbrev UpstreamOf (edges : List Edge) (a b : ℕ) : Prop :=
  TransGen (Linked Edge.fromStage Edge.toStage edges) a b

/-! ### The sort -/

variable {count : ℕ} {edges : List Edge}

theorem range_or_refused (count : ℕ) (edges : List Edge) :
    (∀ e ∈ edges, e.fromStage < count ∧ e.toStage < count) ∨
      stageOrder count edges = .refused .eproto := by
  by_cases hrange : (edges.any fun e => e.fromStage ≥ count || e.toStage ≥ count) = true
  · exact .inr (if_pos hrange)
  refine .inl fun e he => ?_
  by_contra hout
  refine hrange (List.any_eq_true.mpr ⟨e, he, ?_⟩)
  simp only [Bool.or_eq_true, decide_eq_true_eq]
  omega

theorem stageOrder_spec (hlt : ∀ e ∈ edges, e.fromStage < count ∧ e.toStage < count) :
    (StagesAcyclic edges ∧ ∃ order, stageOrder count edges = .ordered order ∧
        order.Perm (range count) ∧ Respects Edge.fromStage Edge.toStage edges order) ∨
      (¬ StagesAcyclic edges ∧ stageOrder count edges = .refused .eproto) := by
  obtain ⟨s, hrun, -, -, hiff, hcomplete⟩ := kahn_spec hlt
  have hrange : ¬ (edges.any fun e => e.fromStage ≥ count || e.toStage ≥ count) = true := by
    intro hany
    obtain ⟨e, he, hout⟩ := List.any_eq_true.mp hany
    have := hlt e he
    simp only [Bool.or_eq_true, decide_eq_true_eq] at hout
    omega
  unfold stageOrder
  rw [if_neg hrange, hrun]
  by_cases hlength : s.order.length = count
  · refine .inl ⟨hiff.mp hlength, s.order, ?_, hcomplete hlength⟩
    simp [hlength]
  refine .inr ⟨fun hacyclic => hlength (hiff.mpr hacyclic), ?_⟩
  simp [hlength]

theorem stageOrder_ne_fault (count : ℕ) (edges : List Edge) (fault : Fault) :
    stageOrder count edges ≠ .fault fault := by
  rcases range_or_refused count edges with hlt | hrefused
  · rcases stageOrder_spec hlt with ⟨-, order, horder, -⟩ | ⟨-, hrefused⟩
    · rw [horder]
      simp
    rw [hrefused]
    simp
  rw [hrefused]
  simp

variable {binding : ℕ} {order : List ℕ} {rc : Status}

theorem stageOrder_ordered (h : stageOrder count edges = .ordered order) :
    order.Perm (range count) ∧ Respects Edge.fromStage Edge.toStage edges order := by
  rcases range_or_refused count edges with hlt | hrefused
  · rcases stageOrder_spec hlt with ⟨-, order', horder, hspec⟩ | ⟨-, hrefused⟩
    · obtain rfl : order' = order := by simpa [horder] using h
      exact hspec
    rw [hrefused] at h
    cases h
  rw [hrefused] at h
  cases h

/-! ### The buffers -/

variable {r : Retiring}

theorem retireEach_before {tr₁ tr₂ : List RetireEvent}
    (h : (retireEach r bindings).1 = tr₁ ++ .quiesced binding rc :: tr₂) :
    ∃ before after, bindings = before ++ binding :: after ∧
      ∀ b ∈ before, .quiesced b .ok ∈ tr₁ ∧ .drained b .ok ∈ tr₁ := by
  induction bindings generalizing tr₁ with
  | nil => simp [retireEach] at h
  | cons b bindings ih =>
    rw [retireEach] at h
    split at h
    · obtain ⟨rfl, rfl⟩ : tr₁ = [] ∧ b = binding := by
        cases tr₁ with
        | nil => simp at h; exact ⟨rfl, h.1.1⟩
        | cons => simp at h
      exact ⟨[], bindings, rfl, by simp⟩
    split at h
    · obtain ⟨rfl, rfl⟩ : tr₁ = [] ∧ b = binding := by
        cases tr₁ with
        | nil => simp at h; exact ⟨rfl, h.1.1⟩
        | cons e tr₁ =>
          cases tr₁ with
          | nil | cons => simp at h
      exact ⟨[], bindings, rfl, by simp⟩
    -- the events of `b` come first, or are those of the buffer itself
    cases tr₁ with
    | nil =>
      obtain rfl : b = binding := by
        simp only [nil_append, List.cons.injEq, RetireEvent.quiesced.injEq] at h
        exact h.1.1
      exact ⟨[], bindings, rfl, by simp⟩
    | cons e tr₁ =>
      cases tr₁ with
      | nil => simp at h
      | cons e' tr₁ =>
        simp only [cons_append, List.cons.injEq] at h
        obtain ⟨rfl, rfl, hrest⟩ := h
        obtain ⟨before, after, rfl, hall⟩ := ih hrest
        refine ⟨b :: before, after, rfl, fun c hc => ?_⟩
        rcases mem_cons.mp hc with rfl | hc
        · simp
        obtain ⟨hq, hd⟩ := hall c hc
        exact ⟨by simp [hq], by simp [hd]⟩

theorem mem_bindingsIn :
    binding ∈ bindingsIn r order ↔ ∃ stage ∈ order, r.stageOf[binding]? = some (some stage) := by
  simp only [bindingsIn, mem_flatMap, mem_filter, mem_range, decide_eq_true_eq]
  constructor
  · rintro ⟨stage, hstage, -, hof⟩
    exact ⟨stage, hstage, hof⟩
  rintro ⟨stage, hstage, hof⟩
  exact ⟨stage, hstage, (List.getElem?_eq_some_iff.mp hof).1, hof⟩

theorem mem_before (hnodup : order.Nodup) {before after : List ℕ} {b stage stage' p q : ℕ}
    (hsplit : bindingsIn r order = before ++ binding :: after)
    (hbinding : r.stageOf[binding]? = some (some stage)) (hb : r.stageOf[b]? = some (some stage'))
    (hp : order[p]? = some stage') (hq : order[q]? = some stage) (hpq : p < q) : b ∈ before := by
  have hparts : bindingsIn r order =
    bindingsIn r (order.take q) ++ bindingsIn r (order.drop q) := by
    conv_lhs => rw [← take_append_drop q order]
    exact flatMap_append
  have hin : b ∈ bindingsIn r (order.take q) := by
    refine mem_bindingsIn.mpr ⟨stage', ?_, hb⟩
    exact mem_of_getElem? (by rw [getElem?_take, if_pos hpq]; exact hp)
  -- the binding itself is not among the first ones, as its stage is not
  have hnot : binding ∉ bindingsIn r (order.take q) := by
    intro hmem
    obtain ⟨other, hother, hof⟩ := mem_bindingsIn.mp hmem
    obtain rfl := some.inj (some.inj (hbinding.symm.trans hof))
    obtain ⟨k, hk⟩ := getElem?_of_mem hother
    rw [getElem?_take] at hk
    split at hk
    · rename_i hkq
      have heq : k = q := (getElem?_inj (List.getElem?_eq_some_iff.mp hk).1 hnodup).mp
        (hk.trans hq.symm)
      omega
    · cases hk
  rw [hparts] at hsplit
  rcases append_eq_append_iff.mp hsplit with ⟨mid, hbefore, -⟩ | ⟨mid, htake, hrest⟩
  · rw [hbefore]
    exact mem_append_left _ hin
  cases mid with
  | nil =>
    rw [append_nil] at htake
    exact htake ▸ hin
  | cons c mid =>
    obtain ⟨rfl, -⟩ := List.cons.inj hrest
    exact absurd (htake ▸ mem_append_right _ mem_cons_self) hnot

theorem prepareRetire_trace {tr : List RetireEvent} (hstarted : r.started = true)
    (h : prepareRetire r = .ok (tr, rc)) (htr : tr ≠ []) :
    ∃ order, stageOrder r.count r.edges = .ordered order ∧
      (retireEach r (bindingsIn r order)).1 = tr := by
  have hempty : ∀ {status : Status}, (.ok ([], status) : Except Fault _) ≠ .ok (tr, rc) := by
    intro status heq
    exact htr (congrArg Prod.fst (Except.ok.inj heq)).symm
  unfold prepareRetire at h
  split at h
  · exact absurd h hempty
  rw [if_neg (by simp [hstarted])] at h
  split at h
  · exact absurd h hempty
  split at h
  · exact absurd h hempty
  split at h
  · cases h
  · exact absurd h hempty
  rename_i order horder
  refine ⟨order, horder, ?_⟩
  split at h
  · exact absurd h hempty
  simp only at h
  split at h
  all_goals exact congrArg Prod.fst (Except.ok.inj h)

/-- The stages are sorted within the order array. The sort refuses a graph just when it has a cycle,
and otherwise has every stage once, with every edge leading forward. So when a running flow retires
a buffer, every buffer upstream of it has been closed and drained. -/
theorem retired_in_order (r : Retiring) :
    (∀ fault, stageOrder r.count r.edges ≠ .fault fault) ∧
    ((∀ e ∈ r.edges, e.fromStage < r.count ∧ e.toStage < r.count) →
      (stageOrder r.count r.edges = .refused .eproto ↔ ¬ StagesAcyclic r.edges) ∧
      (StagesAcyclic r.edges → ∃ order, stageOrder r.count r.edges = .ordered order ∧
        order.Perm (range r.count) ∧
        Respects Edge.fromStage Edge.toStage r.edges order)) ∧
    (r.started = true → ∀ tr rc, prepareRetire r = .ok (tr, rc) →
      ∀ tr₁ binding rc' tr₂, tr = tr₁ ++ .quiesced binding rc' :: tr₂ →
        ∀ stage b stage', r.stageOf[binding]? = some (some stage) →
          r.stageOf[b]? = some (some stage') → UpstreamOf r.edges stage' stage →
            .quiesced b .ok ∈ tr₁ ∧ .drained b .ok ∈ tr₁) := by
  refine ⟨stageOrder_ne_fault r.count r.edges, fun hlt => ?_, ?_⟩
  · rcases stageOrder_spec hlt with ⟨hacyclic, order, horder, hspec⟩ | ⟨hcycle, hrefused⟩
    · exact ⟨by simp [horder, hacyclic], fun _ => ⟨order, horder, hspec⟩⟩
    · exact ⟨by simp [hrefused, hcycle], fun hacyclic => absurd hacyclic hcycle⟩
  intro hstarted tr rc hret tr₁ binding rc' tr₂ htr stage b stage' hbinding hb hup
  obtain ⟨order, horder, htrace⟩ := prepareRetire_trace hstarted hret (by rw [htr]; simp)
  obtain ⟨hperm, hrespects⟩ := stageOrder_ordered horder
  have hnodup : order.Nodup := hperm.nodup_iff.mpr nodup_range
  obtain ⟨before, after, hsplit, hall⟩ := retireEach_before (htrace.trans htr)
  obtain ⟨p, q, hpq, hp, hq⟩ := hrespects.lt_of_transGen hnodup hup
  exact hall b (mem_before hnodup hsplit hbinding hb hp hq hpq)

def chain : Retiring :=
  { started := true, count := 3
    edges := [⟨2, 0, .unconditional⟩, ⟨2, 0, .reject⟩, ⟨0, 1, .unconditional⟩]
    stageOf := [some 1, some 0], allocated := true, runs := .ok
    quiesce := fun _ => .ok, drain := fun _ => .ok, settled := fun _ => .ok true }

/-- Two buffers in a row: the second one is closed after the first one was drained. -/
theorem retired_in_order_chain :
    ∃ tr rc, prepareRetire chain = .ok (tr, rc) ∧
      tr = [.quiesced 1 .ok, .drained 1 .ok] ++ .quiesced 0 .ok :: [.drained 0 .ok] ∧
      .drained 1 .ok ∈ ([.quiesced 1 .ok, .drained 1 .ok] : List RetireEvent) :=
  ⟨_, _, rfl, rfl, ((retired_in_order chain).2.2 rfl _ _ rfl _ 0 .ok [.drained 0 .ok] rfl 1 1 0 rfl
    rfl (.single ⟨⟨0, 1, .unconditional⟩, by decide, rfl, rfl⟩)).2⟩

end TurboFlow.Durable
