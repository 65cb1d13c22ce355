import Mathlib.Data.List.Sort
import TurboFlow.Graph.Ancestors
import TurboFlow.Graph.Mutability

/-!
# Isolation of the branches of a fan-out

All stages of a run work on one message object. If every stage that may change it is ordered with
the stages on the other branches of a fan-out, what a stage observes is determined by its ancestors.
The compiler's check does not guarantee that order: its search stops at every fan-in, also at one
that joins only some of the branches. `FanInsComplete` says what is missing.
-/

namespace TurboFlow.Graph

open List CompiledPlan
open Relation (ReflTransGen TransGen)
open Branches (Comparable)

/-! ### Values -/

section Values

variable {V : Type*} {f f' : ℕ → V → V} {p : ℕ → Bool} {l : List ℕ} {v : V} {a b : ℕ}

/-- The value of the message when `s` is executed; `order` lists the executed stages and `effect t`
is what `t` makes of the message. -/
def observed (effect : ℕ → V → V) (v₀ : V) (order : List ℕ) (s : ℕ) : V :=
  (executedBefore order s).foldl (fun v t => effect t v) v₀

theorem foldl_filter_effect (hid : ∀ t, p t = false → f t = id) :
    l.foldl (fun v t => f t v) v = (l.filter p).foldl (fun v t => f t v) v := by
  induction l generalizing v with
  | nil => rfl
  | cons t l ih =>
    cases ht : p t with
    | true => simpa [ht] using ih
    | false => simpa [ht, hid t ht] using ih

theorem foldl_effect_congr (hsame : ∀ t ∈ l, f t = f' t) :
    l.foldl (fun v t => f t v) v = l.foldl (fun v t => f' t v) v := by
  induction l generalizing v with
  | nil => rfl
  | cons t l ih =>
    rw [foldl_cons, foldl_cons, hsame t (by simp)]
    exact ih fun t' ht' => hsame t' (mem_cons_of_mem _ ht')

theorem executedBefore_cons (hne : a ≠ b) :
    executedBefore (a :: l) b = a :: executedBefore l b := by
  simp [executedBefore, hne]

theorem pairwise_executedBefore (hnodup : l.Nodup) :
    l.Pairwise fun a b => a ∈ executedBefore l b := by
  induction l with
  | nil => exact .nil
  | cons c l ih =>
    obtain ⟨hc, hnodup⟩ := nodup_cons.mp hnodup
    have hne : ∀ b ∈ l, c ≠ b := fun b hb heq => hc (heq ▸ hb)
    refine .cons (fun b hb => ?_) ?_
    · rw [executedBefore_cons (hne b hb)]
      exact mem_cons_self
    refine (ih hnodup).imp_of_mem fun _ hb hab => ?_
    rw [executedBefore_cons (hne _ hb)]
    exact mem_cons_of_mem _ hab

theorem executedBefore_asymm (hb : b ∈ l) (hab : a ∈ executedBefore l b) :
    b ∉ executedBefore l a := by
  induction l with
  | nil => simp at hb
  | cons c l ih =>
    intro hba
    by_cases hca : c = a
    · subst hca
      simp [executedBefore] at hba
    by_cases hcb : c = b
    · subst hcb
      simp [executedBefore] at hab
    rw [executedBefore_cons hca] at hba
    rw [executedBefore_cons hcb] at hab
    refine ih ?_ ?_ ?_
    · exact (mem_cons.mp hb).resolve_left (Ne.symm hcb)
    · exact (mem_cons.mp hab).resolve_left (Ne.symm hca)
    · exact (mem_cons.mp hba).resolve_left (Ne.symm hcb)

end Values

/-! ### Agreement on the ancestors -/

structure World.AgreeAt (w w' : World) (s : ℕ) : Prop where
  dispatch : w.dispatch s = w'.dispatch s
  regionStatus : w.regionStatus s = w'.regionStatus s
  decision : w.decision s = w'.decision s
  predicate : ∀ e : Edge, e.fromStage = s → w.predicate e = w'.predicate e

section Agreement

variable {plan : CompiledPlan} {w w' : World} {origin s a : ℕ} {e : Edge}

theorem World.AgreeAt.verdict (h : w.AgreeAt w' e.fromStage) (selection : Option Status) :
    w.verdict plan selection e = w'.verdict plan selection e := by
  cases selection with
  | none => rfl
  | some status =>
    simp only [World.verdict, World.routeEdgeActive, World.route?, h.decision, h.predicate e rfl]

theorem World.AgreeAt.offer (h : w.AgreeAt w' s) (c : Completion) : w.offer s c = w'.offer s c := by
  have hdropped : w.dropped s = w'.dropped s := by
    rw [World.dropped, World.dropped, h.decision]
  rw [World.offer, World.offer, hdropped]

theorem World.AgreeAt.unitOffer (h : w.AgreeAt w' u) (h' : w.AgreeAt w' (plan.unitExit u)) :
    w.unitOffer plan u = w'.unitOffer plan u := by
  have hcompletion : w.unitCompletion plan u = w'.unitCompletion plan u := by
    simp only [World.unitCompletion, World.stageCompletion, h.dispatch, h.regionStatus]
  rw [World.unitOffer, World.unitOffer, hcompletion, h'.offer]

def Above (plan : CompiledPlan) (origin s a : ℕ) : Prop :=
  a = origin ∨ TransGen (Precedes plan origin) a s

theorem Fires.congr (h : Fires plan w origin s)
    (hagree : ∀ a, Above plan origin s a → w.AgreeAt w' a) : Fires plan w' origin s := by
  induction h with
  | @start e he hfrom hverdict =>
    have horigin := hagree origin (.inl rfl)
    refine .start he hfrom ?_
    rw [← hverdict, (hfrom ▸ horigin : w.AgreeAt w' e.fromStage).verdict, horigin.offer]
  | @next u e hu hbuffer he hfrom hverdict ih =>
    have hexit : Precedes plan origin (plan.unitExit u) e.toStage :=
      ⟨e, he, hfrom, rfl, reaches_unitExit hu.reaches,
        .edge he (hfrom ▸ reaches_unitExit hu.reaches)
          (.inr (hfrom ▸ isBuffer_unitExit hbuffer))⟩
    have hunit : TransGen (Precedes plan origin) u e.toStage :=
      .tail' (precedes_of_mem_unit hu.reaches (unitExit_mem_unit u)) hexit
    have hagree' : ∀ a, Above plan origin u a → w.AgreeAt w' a := fun a ha =>
      hagree a (ha.imp id fun hpath => hpath.trans hunit)
    have hagreeExit := hagree _ (.inr (.single hexit))
    refine .next (ih hagree') hbuffer he hfrom ?_
    rw [← hverdict, (hfrom ▸ hagreeExit : w.AgreeAt w' e.fromStage).verdict,
      (hagree u (.inr hunit)).unitOffer hagreeExit]

theorem Executes.congr (h : Executes plan w origin a) (hpath : TransGen (Precedes plan origin) a s)
    (hagree : ∀ b, Above plan origin s b → w.AgreeAt w' b) : Executes plan w' origin a := by
  obtain ⟨u, hu, hbuffer, hmem⟩ := h
  refine ⟨u, hu.congr fun b hb => hagree b (hb.imp id fun hbu => ?_), hbuffer, hmem⟩
  exact (hbu.trans_left (precedes_of_mem_unit hu.reaches hmem)).trans hpath

theorem World.AgreeAt.symm (h : w.AgreeAt w' s) : w'.AgreeAt w s :=
  ⟨h.dispatch.symm, h.regionStatus.symm, h.decision.symm, fun e he => (h.predicate e he).symm⟩

end Agreement

/-! ### Branches -/

namespace AcceptedPlan

variable (g : AcceptedPlan) (step : ℕ → ℕ → Prop)

def Passes (a b : ℕ) : Prop :=
  g.Linked a b ∧ g.isBuffer b = false

structure Branching (e e' : Edge) : Prop where
  mem : e ∈ g.edges
  mem' : e' ∈ g.edges
  same : e'.fromStage = e.fromStage
  ne : e ≠ e'
  kind : e.kind ≠ .reject
  kind' : e'.kind ≠ .reject
  fansOut : g.FansOut e.fromStage
  enters : step e.fromStage e.toStage
  enters' : step e'.fromStage e'.toStage

/-- A stage that may change the message and that a fan-out leads to is ordered with every stage on
another branch of the fan-out. -/
def BranchesOrdered : Prop :=
  ∀ e e' m x, g.Branching step e e' → g.Mutates m → ReflTransGen step e.toStage m →
    ReflTransGen step e'.toStage x → Comparable step x m

/-- Every fan-in through which a fan-out leads to a stage `m` that may change the message is
complete: no edge of the fan-out, or of a stage between another branch and `m`, escapes to a stage
that is not ordered with `m`. -/
def FanInsComplete : Prop :=
  ∀ e e' j m, g.Branching step e e' → ReflTransGen step e.toStage j → g.FansIn j →
    ReflTransGen step j m → g.Mutates m →
      Comparable step e'.toStage m ∧
        ∀ v w, ReflTransGen step e'.toStage v → ReflTransGen step v m → step v w →
          Comparable step w m

/-- What a stage observes is determined by its ancestors: two runs, in whatever order they dispatch
the stages, in which the ancestors get the same answers and have the same effect, show it the same
value. -/
def Isolated : Prop :=
  ∀ (V : Type) (f f' : ℕ → V → V) (v₀ : V) (w w' : World) (origin : ℕ) (reach : ℕ → Bool)
    (tr tr' : List Event) (s : ℕ), (∀ t, ¬ g.Mutates t → f t = id ∧ f' t = id) →
    (∀ t, reach t = true ↔ g.Reaches origin t) →
    Legal g.toCompiledPlan w origin reach tr → Legal g.toCompiledPlan w' origin reach tr' →
    s ∈ executed g.toCompiledPlan tr → s ∈ executed g.toCompiledPlan tr' →
    (∀ a, TransGen g.Linked a s → w.AgreeAt w' a ∧ f a = f' a) →
    observed f v₀ (executed g.toCompiledPlan tr) s =
      observed f' v₀ (executed g.toCompiledPlan tr') s

variable {g step}

instance (s : ℕ) : Decidable (g.Mutates s) :=
  inferInstanceAs (Decidable (_ ≠ _))

theorem branchesOrdered_iff (hstep : ∀ a b, step a b → g.Linked a b) :
    g.BranchesOrdered step ↔ g.FanInsComplete step := by
  constructor
  · intro h e e' j m hbranch hj _ hjm hm
    have hpath := hj.trans hjm
    exact ⟨h e e' m _ hbranch hm hpath .refl,
      fun v w hv _ hvw => h e e' m w hbranch hm hpath (hv.tail hvw)⟩
  intro h e e' m x hbranch hm hpath hx
  obtain htree | ⟨j, hj, hin, hjm⟩ := exists_fansIn hstep hpath
  · exact absurd (CompiledPlan.compileValidate_ok_iff.mp g.fanout_mutability e hbranch.mem
      hbranch.fansOut m htree) hm
  obtain ⟨hfirst, hsteps⟩ := h e e' j m hbranch hj hin hjm hm
  exact Branches.comparable_of_steps hfirst hsteps hx

theorem linked_of_passes (h : g.Passes a b) : g.Linked a b :=
  h.1

/-! ### Runs -/

variable {w : World} {origin : ℕ} {reach : ℕ → Bool} {tr : List Event} {s a b m : ℕ}

def Fed (g : AcceptedPlan) (w : World) (origin : ℕ) (tr : List Event) (a b : ℕ) : Prop :=
  ∃ e ∈ g.edges, e.fromStage = a ∧ e.toStage = b ∧
    Active g.toCompiledPlan w origin tr e ∧ g.isBuffer b = false

theorem Fed.passes (h : g.Fed w origin tr a b) : g.Passes a b := by
  obtain ⟨e, he, hfrom, hto, -, hbuffer⟩ := h
  exact ⟨⟨e, he, hfrom, hto⟩, hbuffer⟩

theorem precedes_of_passes (ha : g.isBuffer a = false ∧ g.Reaches origin a)
    (hpath : TransGen g.Passes a b) :
    TransGen (Precedes g.toCompiledPlan origin) a b ∧ g.isBuffer b = false ∧
      g.Reaches origin b := by
  have hstep : ∀ {x y}, g.isBuffer x = false ∧ g.Reaches origin x → g.Passes x y →
      Precedes g.toCompiledPlan origin x y ∧ g.isBuffer y = false ∧ g.Reaches origin y := by
    rintro x y ⟨hbuffer, hx⟩ ⟨⟨e, he, rfl, rfl⟩, hbuffer'⟩
    have hy := Reaches.edge he hx (.inr hbuffer)
    exact ⟨⟨e, he, rfl, rfl, hx, hy⟩, hbuffer', hy⟩
  induction hpath with
  | single hab =>
    obtain ⟨hprec, hb⟩ := hstep ha hab
    exact ⟨.single hprec, hb⟩
  | tail _ hbc ih =>
    obtain ⟨hpath, hb⟩ := ih
    obtain ⟨hprec, hc⟩ := hstep hb hbc
    exact ⟨hpath.tail hprec, hc⟩

section Legal

variable (h : Legal g.toCompiledPlan w origin reach tr)
  (hreach : ∀ t, reach t = true ↔ g.Reaches origin t)
include h hreach

theorem fed_of_executed (hs : s ∈ executed g.toCompiledPlan tr) :
    ReflTransGen (g.Fed w origin tr) origin s := by
  obtain ⟨rank, hrank⟩ := g.acyclic
  induction hn : rank s using Nat.strong_induction_on generalizing s with
  | _ n ih =>
    obtain ⟨e, he, rfl, hactive⟩ := h.exists_active_of_executed hs
    have hfed : g.Fed w origin tr e.fromStage e.toStage :=
      ⟨e, he, rfl, rfl, hactive, (h.isBuffer_of_executed hreach hs).1⟩
    rcases hactive with ⟨horigin, -⟩ | ⟨u, hu, hcases⟩
    · exact .single (horigin ▸ hfed)
    have hmem : e.fromStage ∈ g.unit u := by
      rcases hcases with ⟨hexit, -⟩ | ⟨hmem, -⟩
      · exact hexit ▸ unitExit_mem_unit u
      · exact hmem
    exact (ih _ (hn ▸ hrank e he) (mem_executed.mpr ⟨u, hu, hmem⟩) rfl).tail hfed

theorem origin_not_executed : origin ∉ executed g.toCompiledPlan tr := fun horigin =>
  (h.not_skipped_of_executes hreach (h.executes_of_executed horigin)).1 rfl

theorem exists_selection (he : e ∈ g.edges) (he' : e' ∈ g.edges)
    (hfrom : e'.fromStage = e.fromStage) (hne : e ≠ e')
    (hactive : Active g.toCompiledPlan w origin tr e)
    (hactive' : Active g.toCompiledPlan w origin tr e') :
    ∃ selection, w.verdict g.toCompiledPlan selection e = .ok true ∧
      w.verdict g.toCompiledPlan selection e' = .ok true := by
  have hnot := origin_not_executed h hreach
  have hinner : ∀ u, .dispatched u ∈ tr → e.fromStage ∈ g.unit u →
      e.fromStage ≠ g.unitExit u → e = e' := by
    -- Inside a region a stage has a single outgoing edge.
    intro u _ hmem hexit
    rcases g.unit_cases u with ⟨-, hunit, hself⟩ | ⟨r, hr, -, hunit, hself⟩
    · rw [hunit, mem_singleton] at hmem
      exact absurd (hmem.trans hself.symm) hexit
    obtain ⟨m, -, hfused⟩ := exists_fused_after hr (hunit ▸ hmem) (hself ▸ hexit)
    rw [Fused.eq_of_from hfused he rfl, Fused.eq_of_from hfused he' hfrom]
  rcases hactive with ⟨horigin, hv⟩ | ⟨u, hu, ⟨hexit, hv⟩ | ⟨hmem, hexit⟩⟩
  · rcases hactive' with ⟨-, hv'⟩ | ⟨u', hu', ⟨hexit', -⟩ | ⟨hmem', -⟩⟩
    · exact ⟨_, hv, hv'⟩
    · have hmem' : origin ∈ g.unit u' := by
        rw [← horigin, ← hfrom, hexit']
        exact unitExit_mem_unit u'
      exact absurd (mem_executed.mpr ⟨u', hu', hmem'⟩) hnot
    rw [hfrom, horigin] at hmem'
    exact absurd (mem_executed.mpr ⟨u', hu', hmem'⟩) hnot
  · have hmem : e.fromStage ∈ g.unit u := hexit ▸ unitExit_mem_unit u
    rcases hactive' with ⟨horigin', -⟩ | ⟨u', hu', hcases⟩
    · rw [← hfrom, horigin'] at hmem
      exact absurd (mem_executed.mpr ⟨u, hu, hmem⟩) hnot
    have hmem' : e.fromStage ∈ g.unit u' := by
      rw [← hfrom]
      rcases hcases with ⟨hexit', -⟩ | ⟨hmem', -⟩
      · exact hexit' ▸ unitExit_mem_unit u'
      · exact hmem'
    obtain rfl := h.unit_unique hreach hu hu' hmem hmem'
    rcases hcases with ⟨-, hv'⟩ | ⟨-, hexit'⟩
    · exact ⟨_, hv, hv'⟩
    · exact absurd (hfrom.trans hexit) hexit'
  · exact absurd (hinner u hu hmem hexit) hne

omit h hreach in
theorem kind_of_verdict (hv : w.verdict g.toCompiledPlan selection e = .ok true) :
    e.kind = .reject ↔ ∃ status, selection = some status ∧ status ≠ .ok := by
  cases selection with
  | none => cases hv
  | some status =>
    simp only [World.verdict, World.routeEdgeActive] at hv
    split at hv
    · rename_i hfail
      simpa [hfail] using hv
    rename_i hok
    split at hv
    · cases hv
    rename_i hkind
    simpa [hkind] using hok

theorem branching_of_fed (hb : g.Fed w origin tr f b) (hc : g.Fed w origin tr f c) (hne : b ≠ c) :
    ∃ e e', g.Branching g.Passes e e' ∧ e.toStage = b ∧ e'.toStage = c := by
  have hbpasses := hb.passes
  have hcpasses := hc.passes
  obtain ⟨e, he, rfl, rfl, hactive, -⟩ := hb
  obtain ⟨e', he', hfrom, rfl, hactive', -⟩ := hc
  have hdiff : e ≠ e' := fun heq => hne (congrArg Edge.toStage heq)
  obtain ⟨selection, hv, hv'⟩ := exists_selection h hreach he he' hfrom hdiff hactive hactive'
  have hkind : e.kind ≠ .reject := by
    intro hreject
    have hreject' := (kind_of_verdict hv').mpr ((kind_of_verdict hv).mp hreject)
    exact hdiff (g.reject_unique e he e' he' hreject hreject' hfrom.symm)
  have hkind' : e'.kind ≠ .reject := by
    intro hreject'
    exact hkind ((kind_of_verdict hv).mpr ((kind_of_verdict hv').mp hreject'))
  refine ⟨e, e', ⟨he, he', hfrom, hdiff, hkind, hkind', ?_, hbpasses, hfrom ▸ hcpasses⟩, rfl, rfl⟩
  -- The two edges are counted by the compiler.
  have hsub : [e, e'] ⊆ g.edges.filter fun d => d.fromStage = e.fromStage ∧ d.kind ≠ .reject := by
    simp [he, he', hfrom, hkind, hkind']
  have hpair : [e, e'].Nodup := by simpa using hdiff
  have hlength := (hpair.subperm hsub).length_le
  rw [FansOut, outgoingCount, countP_eq_length_filter]
  exact hlength

section

variable (hordered : g.BranchesOrdered g.Passes)
include hordered

theorem precedes_or_precedes
    (ha : a ∈ executed g.toCompiledPlan tr) (hm : m ∈ executed g.toCompiledPlan tr)
    (hmutates : g.Mutates m) (hne : a ≠ m) :
    TransGen (Precedes g.toCompiledPlan origin) a m ∨
      TransGen (Precedes g.toCompiledPlan origin) m a := by
  have hlift : ∀ {x y}, x ∈ executed g.toCompiledPlan tr → TransGen g.Passes x y →
      TransGen (Precedes g.toCompiledPlan origin) x y := fun hx hpath =>
    (precedes_of_passes (h.isBuffer_of_executed hreach hx) hpath).1
  have hmono : ∀ {x y}, ReflTransGen (g.Fed w origin tr) x y → ReflTransGen g.Passes x y :=
    fun hpath => ReflTransGen.mono (fun _ _ hab => Fed.passes hab) _ _ hpath
  have hcomparable : Comparable g.Passes a m := by
    rcases Branches.comparable_or_part (fed_of_executed h hreach ha)
      (fed_of_executed h hreach hm) with hcomparable | ⟨f, b, c, hfb, hfc, hbc, hba, hcm⟩
    · exact hcomparable.imp hmono hmono
    obtain ⟨e, e', hbranch, rfl, rfl⟩ := branching_of_fed h hreach hfc hfb hbc.symm
    exact hordered e e' m a hbranch hmutates (hmono hcm) (hmono hba)
  exact (hcomparable.transGen hne).imp (hlift ha) (hlift hm)

theorem mem_mutatesBefore (hs : s ∈ executed g.toCompiledPlan tr) :
    m ∈ (executedBefore (executed g.toCompiledPlan tr) s).filter (fun t => g.Mutates t) ↔
      g.Mutates m ∧ TransGen (Precedes g.toCompiledPlan origin) m s ∧
        Executes g.toCompiledPlan w origin m := by
  rw [mem_filter, decide_eq_true_eq]
  constructor
  · rintro ⟨hbefore, hmutates⟩
    have hm : m ∈ executed g.toCompiledPlan tr := (takeWhile_sublist _).subset hbefore
    have hne : s ≠ m := by
      rintro rfl
      exact executedBefore_asymm hs hbefore hbefore
    refine ⟨hmutates, ?_, h.executes_of_executed hm⟩
    rcases precedes_or_precedes h hreach hordered hs hm hmutates hne with hsm | hms
    · exact absurd (h.executed_before hreach hm hs hsm) (executedBefore_asymm hs hbefore)
    · exact hms
  rintro ⟨hmutates, hpath, hexecutes⟩
  have hm := (h.executed_iff_executes hreach hs hpath).mpr hexecutes
  exact ⟨h.executed_before hreach hs hm hpath, hmutates⟩

theorem pairwise_mutatesBefore {rank : ℕ → ℕ}
    (hrank : ∀ e ∈ g.edges, rank e.fromStage < rank e.toStage) :
    ((executedBefore (executed g.toCompiledPlan tr) s).filter fun t => g.Mutates t).Pairwise
      fun a b => rank a < rank b := by
  have hnodup := h.executed_nodup hreach
  have hsub : ((executedBefore (executed g.toCompiledPlan tr) s).filter
      fun t => g.Mutates t).Sublist (executed g.toCompiledPlan tr) :=
    filter_sublist.trans (takeWhile_sublist _)
  refine ((pairwise_executedBefore hnodup).sublist hsub).imp_of_mem ?_
  intro a b ha hb hab
  have hea := hsub.subset ha
  have heb := hsub.subset hb
  have hmutates : g.Mutates b := by simpa using (mem_filter.mp hb).2
  have hne : a ≠ b := by
    rintro rfl
    exact executedBefore_asymm hea hab hab
  rcases precedes_or_precedes h hreach hordered hea heb hmutates hne with hpath | hpath
  · exact rank_lt_of_precedes hrank hpath
  · exact absurd (h.executed_before hreach hea heb hpath) (executedBefore_asymm heb hab)

end

end Legal

theorem transGen_linked (hpath : TransGen (Precedes g.toCompiledPlan origin) a b) :
    TransGen g.Linked a b :=
  TransGen.mono (fun _ _ ⟨e, he, hfrom, hto, _⟩ => ⟨e, he, hfrom, hto⟩) _ _ hpath

theorem linked_of_reaches (h : g.Reaches origin s) : ReflTransGen g.Linked origin s := by
  induction h with
  | origin => exact .refl
  | edge he _ _ ih => exact ih.tail ⟨_, he, rfl, rfl⟩

theorem isolated_of_branchesOrdered (hordered : g.BranchesOrdered g.Passes) : g.Isolated := by
  intro V f f' v₀ w w' origin reach tr tr' s hid hreach h h' hs hs' hagree
  obtain ⟨rank, hrank⟩ := g.acyclic
  have hreached := (h.isBuffer_of_executed hreach hs).2
  have hneOrigin : s ≠ origin := by
    rintro rfl
    exact origin_not_executed h hreach hs
  have habove : ∀ a, Above g.toCompiledPlan origin s a → w.AgreeAt w' a := by
    rintro a (rfl | hpath)
    · have hpath := Relation.reflTransGen_iff_eq_or_transGen.mp (linked_of_reaches hreached)
      exact (hagree a (hpath.resolve_left hneOrigin)).1
    · exact (hagree a (transGen_linked hpath)).1
  -- The two runs put the same effects in front of the stage, in the order of the graph.
  have hsame : (executedBefore (executed g.toCompiledPlan tr) s).filter (fun t => g.Mutates t) =
      (executedBefore (executed g.toCompiledPlan tr') s).filter fun t => g.Mutates t := by
    have : Std.Irrefl fun a b : ℕ => rank a < rank b := ⟨fun a => lt_irrefl _⟩
    have : Std.Antisymm fun a b : ℕ => rank a < rank b := ⟨fun a b hab hba => absurd hab hba.not_gt⟩
    refine List.Pairwise.eq_of_mem_iff (pairwise_mutatesBefore h hreach hordered hrank)
      (pairwise_mutatesBefore h' hreach hordered hrank) fun m => ?_
    rw [mem_mutatesBefore h hreach hordered hs, mem_mutatesBefore h' hreach hordered hs']
    refine and_congr_right fun _ => and_congr_right fun hpath => ?_
    exact ⟨fun he => he.congr hpath habove, fun he => he.congr hpath fun b hb => (habove b hb).symm⟩
  have hpure : ∀ t, decide (g.Mutates t) = false → f t = id ∧ f' t = id := fun t ht =>
    hid t (of_decide_eq_false ht)
  rw [observed, observed, foldl_filter_effect fun t ht => (hpure t ht).1,
    foldl_filter_effect fun t ht => (hpure t ht).2, ← hsame]
  refine foldl_effect_congr fun t ht => ?_
  have hpath := ((mem_mutatesBefore h hreach hordered hs).mp ht).2.1
  exact (hagree t (transGen_linked hpath)).2

/-- In a graph that the compiler accepts, the stages that may change the message are ordered with
the other branches of every fan-out exactly if all fan-ins in front of them are complete; and if
they are complete within the execution regions, where no path passes a buffer, what an executed
stage observes is determined by its ancestors. -/
theorem fanout_isolates (g : AcceptedPlan) :
    (g.BranchesOrdered g.Linked ↔ g.FanInsComplete g.Linked) ∧
      (g.FanInsComplete g.Passes → g.BranchesOrdered g.Passes ∧ g.Isolated) := by
  refine ⟨branchesOrdered_iff fun _ _ h => h, fun hcomplete => ?_⟩
  have hordered := (branchesOrdered_iff fun _ _ => linked_of_passes).mpr hcomplete
  exact ⟨hordered, isolated_of_branchesOrdered hordered⟩

/-- The edges of `joinPlan` without its buffer. -/
def meetingPlan : AcceptedPlan where
  __ := joinPlan
  stages := [{ name := "input", isSource := true }, { name := "left" }, { name := "right" },
    { name := "merge" }]
  regions_executable := by simp [joinPlan]
  mutability s := if s = 3 then .mutatesInPlace else .readonly
  reject_unique := by decide
  fanout_mutability := by decide

theorem fanout_isolates_meeting : meetingPlan.FanInsComplete meetingPlan.Passes ∧
    meetingPlan.Isolated := by
  have hleads : ∀ a b, meetingPlan.Passes a b → Comparable meetingPlan.Passes b 3 := by
    rintro a b ⟨⟨e, he, -, rfl⟩, -⟩
    have hcases : ∀ e ∈ meetingPlan.edges, e.toStage = 3 ∨
        ∃ d ∈ meetingPlan.edges, d.fromStage = e.toStage ∧ d.toStage = 3 := by decide
    rcases hcases e he with h3 | ⟨d, hd, hfrom, hto⟩
    · exact .inl (h3 ▸ .refl)
    · exact .inl (.single ⟨⟨d, hd, hfrom, hto⟩, by decide⟩)
  have hcomplete : meetingPlan.FanInsComplete meetingPlan.Passes := by
    intro e e' j m hbranch _ _ _ hm
    obtain rfl : m = 3 := by
      by_contra hne
      exact hm (if_neg hne)
    exact ⟨hleads _ _ hbranch.enters', fun v w _ _ hvw => hleads v w hvw⟩
  exact ⟨hcomplete, ((fanout_isolates meetingPlan).2 hcomplete).2⟩

def leakingPlan : AcceptedPlan where
  stages := [{ name := "input", isSource := true }, { name := "left" }, { name := "right" },
    { name := "copy" }, { name := "merge" }, { name := "store" }]
  nodes := [⟨0, 3⟩, ⟨3, 1⟩, ⟨4, 1⟩, ⟨5, 1⟩, ⟨6, 0⟩, ⟨6, 0⟩]
  edges := [⟨0, 1, .unconditional⟩, ⟨0, 2, .unconditional⟩, ⟨0, 3, .unconditional⟩,
    ⟨1, 4, .unconditional⟩, ⟨2, 4, .unconditional⟩, ⟨3, 5, .unconditional⟩]
  mutability s := if s = 4 then .mutatesInPlace else .readonly
  reject_unique := by decide
  fanout_mutability := by decide

/-- The third branch of `leakingPlan` is not ordered with the stage that changes the message, and
observes the change. -/
theorem leakingPlan_leaks :
    leakingPlan.compileValidateFanoutMutability leakingPlan.mutability = .ok ∧
      ¬ leakingPlan.BranchesOrdered leakingPlan.Linked ∧ ¬ leakingPlan.Isolated := by
  have hlast : ∀ b, ¬ leakingPlan.Linked 4 b := by
    rintro b ⟨e, he, hfrom, -⟩
    have hall : ∀ e ∈ leakingPlan.edges, e.fromStage ≠ 4 := by decide
    exact hall e he hfrom
  refine ⟨leakingPlan.fanout_mutability, fun hordered => ?_, fun hisolated => ?_⟩
  · have hbranch : leakingPlan.Branching leakingPlan.Linked ⟨0, 1, .unconditional⟩
        ⟨0, 3, .unconditional⟩ :=
      ⟨by decide, by decide, rfl, by decide, by decide, by decide, by unfold FansOut; decide,
        ⟨_, by decide, rfl, rfl⟩, ⟨⟨0, 3, .unconditional⟩, by decide, rfl, rfl⟩⟩
    have hmerge : leakingPlan.Linked 1 4 := ⟨⟨1, 4, .unconditional⟩, by decide, rfl, rfl⟩
    rcases hordered _ _ 4 3 hbranch (by decide) (.single hmerge) .refl with hcopy | hback
    · have hclosed : ∀ s, leakingPlan.Leads 3 s → s = 3 ∨ s = 5 := by
        intro s hpath
        induction hpath with
        | refl => exact .inl rfl
        | tail _ hstep ih =>
          obtain ⟨e, he, hfrom, rfl⟩ := hstep
          have hall : ∀ e ∈ leakingPlan.edges, e.fromStage = 3 ∨ e.fromStage = 5 →
              e.toStage = 5 := by decide
          exact .inr (hall e he (hfrom ▸ ih))
      exact absurd (hclosed 4 hcopy) (by decide)
    rcases ReflTransGen.cases_head hback with heq | ⟨b, hstep, -⟩
    · exact absurd heq (by decide)
    · exact hlast b hstep
  obtain ⟨-, -, -, reach, hreach, hlegal⟩ := execute_legal leakingPlan.toCompiledPlan calmWorld 0
  have hstore : 5 ∈ executed leakingPlan.toCompiledPlan
      (Dispatch.workspace (Dispatch.execute leakingPlan.toCompiledPlan calmWorld 0)).trace := by
    decide
  have hsame := hisolated ℕ (fun s v => if s = 4 then v + 1 else v) (fun _ => id) 0 calmWorld
    calmWorld 0 reach _ _ 5 ?_ hreach hlegal hlegal hstore hstore ?_
  · exact absurd hsame (by decide)
  · intro t ht
    have hne : t ≠ 4 := fun heq => ht (by subst heq; decide)
    exact ⟨by funext v; simp [hne], rfl⟩
  intro a hpath
  refine ⟨⟨rfl, rfl, rfl, fun _ _ => rfl⟩, ?_⟩
  have hne : a ≠ 4 := by
    rintro rfl
    obtain ⟨b, hstep, -⟩ := TransGen.head'_iff.mp hpath
    exact hlast b hstep
  funext v
  simp [hne]

end AcceptedPlan

end TurboFlow.Graph
