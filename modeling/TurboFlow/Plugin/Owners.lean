import TurboFlow.Plugin.Protocol

/-!
# The loops over the owners

Quiesce, drain, shutdown and destroy are loops over the entries of a provider generation. `Visits`
says what their bodies share: an owner that has completed the callback is skipped, one whose turn it
is gets it, and nothing else is touched. So the loops follow the protocol where no owner is behind.
-/

namespace TurboFlow.Plugin

open Stages Transition List OwnerState

def Entry.progress (e : Entry) : ℕ :=
  match e.compiled with
  | none => 4
  | some _ => e.state.rank - 1

/-- The entries that retirement meets: a valid owner that is live, one that is destroyed, and a
released entry. -/
inductive Entry.Sound : Entry → Prop
  | live {name : String} {state : OwnerState} {c : Instance} (materialized : state ≠ .prepared)
      (before : state.rank < rank .ownerDestroyed) (owned : c.ownerLive = true)
      (valid : c.ownerValid = true) : Entry.Sound ⟨name, state, some c⟩
  | dead {name : String} {c : Instance} (gone : c.ownerLive = false) :
      Entry.Sound ⟨name, .ownerDestroyed, some c⟩
  | freed {name : String} {state : OwnerState}
      (rests : state = .prepared ∨ state = .ownerDestroyed) : Entry.Sound ⟨name, state, none⟩

@[simp] theorem OwnerState.rank_shutdown : rank .shutdown = 4 := rfl

@[simp] theorem OwnerState.rank_ownerDestroyed : rank .ownerDestroyed = 5 := rfl

theorem OwnerState.rank_pos {s : OwnerState} (h : s ≠ .prepared) : 0 < s.rank := by
  cases s with
  | prepared => exact absurd rfl h
  | materialized => decide
  | quiesced => decide
  | drained => decide
  | shutdown => decide
  | ownerDestroyed => decide

theorem Entry.Sound.of_progress_lt {e : Entry} (h : e.Sound) (hlt : e.progress < 4) :
    ∃ c, e.compiled = some c ∧ e.state ≠ .prepared ∧ e.state.rank = e.progress + 1 ∧
      c.ownerLive = true ∧ c.ownerValid = true := by
  cases h with
  | @live _ state c materialized before owned valid =>
    have hpos := OwnerState.rank_pos materialized
    exact ⟨c, rfl, materialized, by simp only [Entry.progress]; omega, owned, valid⟩
  | dead gone | freed rests => exact absurd hlt (Nat.lt_irrefl 4)

/-- The body `f` of a loop makes the callback `c`. -/
structure Visits (c : Callback) (f : ℕ → Entry → Outcome Entry Event ConfigError) : Prop where
  done : ∀ i e, e.Sound → c.index < e.progress → f i e = ⟨e, [], none⟩
  turn : ∀ i e, e.Sound → e.progress = c.index →
    (∃ e', e'.Sound ∧ e'.progress = c.index + 1 ∧ f i e = ⟨e', [.call c i .ok], none⟩) ∨
      ∃ st x, st ≠ .ok ∧ f i e = ⟨e, [.call c i st], some x⟩

structure Phase.Regular (p : Phase) : Prop where
  owner : p.callback ≠ .destroy
  target : p.target.rank = p.callback.index + 2
  requires : ∀ needed message, p.requires = some (needed, message) →
    needed.rank = p.callback.index + 1

theorem quiescing_regular : quiescing.Regular :=
  ⟨by decide, rfl, by simp [quiescing]⟩

theorem draining_regular : draining.Regular := by
  refine ⟨by decide, rfl, fun needed message h => ?_⟩
  cases h
  rfl

theorem shuttingDown_regular : shuttingDown.Regular := by
  refine ⟨by decide, rfl, fun needed message h => ?_⟩
  cases h
  rfl

namespace Phase.Regular

variable {p : Phase}

theorem index_le (h : p.Regular) : p.callback.index ≤ 2 := by
  have howner := h.owner
  cases hc : p.callback with
  | destroy => exact absurd hc howner
  | quiesce => decide
  | drain => decide
  | shutdown => decide

theorem misses_eq_none (h : p.Regular) (hstate : p.callback.index < e.state.rank) :
    p.misses e = none := by
  unfold Phase.misses
  split
  · rename_i needed message hreq
    have := h.requires needed message hreq
    rw [if_neg (by omega)]
  · rfl

theorem visits (h : p.Regular) (answer : ℕ → Status) : Visits p.callback (p.visit answer) where
  done i e hsound hdone := by
    have hindex := h.index_le
    have htarget := h.target
    unfold Phase.visit
    split
    · rfl
    rename_i hprepared
    have hrank : p.callback.index + 2 ≤ e.state.rank := by
      cases hsound with
      | live materialized before owned valid =>
        simp only [Entry.progress] at hdone ⊢
        omega
      | dead gone =>
        simp only [rank]
        omega
      | freed rests =>
        rcases rests with rfl | rfl
        · exact absurd rfl hprepared
        simp only [rank]
        omega
    rw [h.misses_eq_none (by omega)]
    simp only
    rw [if_pos (by omega)]
  turn i e hsound hturn := by
    have hindex := h.index_le
    have htarget := h.target
    obtain ⟨c, hcompiled, hprepared, hrank, hlive, hvalid⟩ := hsound.of_progress_lt (by omega)
    have hvisit : p.visit answer i e =
        if answer i ≠ .ok then
          ⟨e, [.call p.callback i (answer i)],
            some (providerGenerationError (answer i) e.name p.field p.message)⟩
        else ⟨{ e with state := p.target }, [.call p.callback i .ok], none⟩ := by
      unfold Phase.visit
      rw [if_neg hprepared, h.misses_eq_none (by omega)]
      simp only
      rw [if_neg (by omega)]
    rw [hvisit]
    by_cases hok : answer i = .ok
    · left
      refine ⟨{ e with state := p.target }, ?_, ?_, by simp [hok]⟩
      · rw [hcompiled]
        refine Entry.Sound.live (fun hcontra => ?_) ?_ hlive hvalid
        · rw [hcontra] at htarget
          simp [rank] at htarget
        rw [htarget]
        simp only [rank]
        omega
      simp only [Entry.progress, hcompiled]
      omega
    · exact .inr ⟨answer i, _, hok, if_pos hok⟩

end Phase.Regular

theorem visitOwnerDestroy_of_turn (i : ℕ) {e : Entry} (hsound : e.Sound)
    (hturn : e.progress = Callback.destroy.index) :
    ∃ e', e'.Sound ∧ e'.progress = 4 ∧
      visitOwnerDestroy i e = ⟨e', [.call .destroy i .ok], none⟩ := by
  obtain ⟨c, hcompiled, hprepared, hrank, hlive, hvalid⟩ :=
    hsound.of_progress_lt (by rw [hturn]; decide)
  have hrank' : e.state.rank = 4 := by rw [hrank, hturn]; rfl
  have hdestroy : instanceOwnerDestroy c =
      (.ok, { c with ownerLive := false, ownerValid := false }) := by
    simp [instanceOwnerDestroy, hlive, hvalid]
  refine ⟨⟨e.name, .ownerDestroyed, some { c with ownerLive := false, ownerValid := false }⟩,
    Entry.Sound.dead rfl, rfl, ?_⟩
  unfold visitOwnerDestroy
  rw [if_neg (by simp [hprepared, hrank']), if_neg (by simp [hrank']), hcompiled]
  simp [hdestroy]

theorem visitOwnerDestroy_visits : Visits .destroy visitOwnerDestroy where
  done i e hsound hdone := by
    unfold visitOwnerDestroy
    rw [if_pos]
    cases hsound with
    | live materialized before owned valid =>
      simp only [Entry.progress, Callback.index] at hdone
      simp only [rank_ownerDestroyed] at before
      omega
    | dead gone => exact .inr le_rfl
    | freed rests => exact rests.imp id fun h => by rw [h]
  turn i e hsound hturn := .inl (visitOwnerDestroy_of_turn i hsound hturn)

def Retiring.owning (t : Retiring) (entries : List Entry) : Retiring :=
  { t with progress := column 4 Entry.progress entries }

/-- No owner of the table is behind the callback `c`. -/
structure NoneBehind (c : Callback) (entries : List Entry) : Prop where
  sound : ∀ e ∈ entries, e.Sound
  due : ∀ e ∈ entries, c.index ≤ e.progress

theorem Callback.index_lt (c : Callback) : c.index < 4 := by
  cases c <;> decide

variable {c : Callback}

theorem NoneBehind.replace (h : NoneBehind c (pre ++ e :: post)) (hsound : e'.Sound)
    (hdue : c.index ≤ e'.progress) : NoneBehind c (pre ++ e' :: post) := by
  obtain ⟨hsounds, hdues⟩ := h
  simp only [forall_mem_append, forall_mem_cons] at hsounds hdues
  constructor
  · simp only [forall_mem_append, forall_mem_cons]
    exact ⟨hsounds.1, hsound, hsounds.2.2⟩
  simp only [forall_mem_append, forall_mem_cons]
  exact ⟨hdues.1, hdue, hdues.2.2⟩

theorem run_pass (hf : Visits c f) {t : Retiring}
    (hready : ∀ entries, NoneBehind c entries → (t.owning entries).Ready c) {entries : List Entry}
    (hentries : NoneBehind c entries) :
    Run Retiring.Step (t.owning entries) (backward f 0 entries).events
        (t.owning (backward f 0 entries).state) ∧
      NoneBehind c (backward f 0 entries).state ∧
      ((backward f 0 entries).failure = none →
        ∀ e ∈ (backward f 0 entries).state, c.index < e.progress) := by
  refine run_backward (fun pre e post hC hdone => ?_) hentries
  have hsound : e.Sound := hC.sound e (by simp)
  have hturn : (t.owning (pre ++ e :: post)).progress pre.length = e.progress := column_length
  have hbehind : ∀ j, pre.length < j → c.index < (t.owning (pre ++ e :: post)).progress j :=
    fun j hj => column_behind c.index_lt hdone hj
  rcases (hC.due e (by simp)).lt_or_eq with hlt | heq
  · rw [hf.done pre.length e hsound hlt]
    exact ⟨Run.nil, hC, fun _ => hlt⟩
  rcases hf.turn pre.length e hsound heq.symm with
    ⟨e', hsound', hprogress, heq'⟩ | ⟨st, x, hst, heq'⟩
  · have hdue : c.index ≤ e'.progress := by omega
    rw [heq']
    refine ⟨?_, hC.replace hsound' hdue, fun _ => hprogress ▸ Nat.lt_succ_self _⟩
    have hnext : t.owning (pre ++ e' :: post) =
      (t.owning (pre ++ e :: post)).advance pre.length := by
      simp only [Retiring.owning, Retiring.advance, Retiring.mk.injEq, and_true]
      rw [column_replace, column_length, hprogress, heq]
    rw [hnext]
    exact Run.single_iff.mpr (Retiring.Step.called (hturn.trans heq.symm) hbehind (hready _ hC))
  rw [heq']
  refine ⟨?_, hC, fun hok => by simp at hok⟩
  exact Run.single_iff.mpr
    (Retiring.Step.refused hst (hturn.trans heq.symm) hbehind (hready _ hC))

theorem pass_failure_eq_none (hf : Visits c f)
    (hok : ∀ i e, e.Sound → e.progress = c.index → (f i e).failure = none)
    (h : NoneBehind c entries) : (backward f 0 entries).failure = none := by
  refine backward_failure_eq_none (fun i e he => ?_) 0
  rcases (h.due e he).lt_or_eq with hlt | heq
  · rw [hf.done i e (h.sound e he) hlt]
  · exact hok i e (h.sound e he) heq.symm

end TurboFlow.Plugin
