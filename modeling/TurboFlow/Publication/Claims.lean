import TurboFlow.Publication.Tracker
import TurboFlow.Lib.Run
import TurboFlow.Lib.Table

/-!
# Claims on a publication

An asynchronous stage submits a claim, an object that counts in the publication and is owned by a
claim value. The adapter moves the value where it likes and completes it once; the completion of an
emit claim runs the graph, which can submit further claims. An adapter may return success without
taking the claim, or an error after taking it; `copy` stands for one that copies the bytes of a
claim value.
-/

namespace TurboFlow.Publication

open Transition Table List Tracker Function Option

inductive Kind
  | terminal
  | emit
  deriving DecidableEq

inductive Life
  | live
  | taken
  | freed
  deriving DecidableEq

/-- An implementation object. `local?` is the address of the claim value on the stack of its submit
call. -/
structure Claim where
  kind : Kind
  local? : Option ℕ
  life : Life

/-- A publication, its owner's remaining program, the claim values by address and the objects by
creation. `recorded` results and `finished` callbacks are history. -/
structure System where
  tracker : Tracker
  owner : List OwnerCall
  handle : ℕ → Option ℕ
  claims : List Claim
  recorded : List Status
  finished : List Status

/-- The steps. `complete` takes the claim, `release` ends that completion with its result. A scope
is the owner's (`none`) or an emit completion's. -/
inductive Operation
  | owner
  | submit (scope : Option ℕ) (kind : Kind) (address : ℕ)
  | returned (claim : ℕ) (rc : Status)
  | move (destination source : ℕ)
  | copy (destination source : ℕ)
  | complete (address : ℕ) (valid : Bool)
  | release (claim : ℕ) (status : Status)

inductive Outcome
  | done
  | status (rc : Status)
  | taken (claim : ℕ)
  | useAfterFree
  deriving DecidableEq

namespace System

def start (path : List OwnerCall) : System where
  tracker := create
  owner := path
  handle := fun _ => none
  claims := []
  recorded := []
  finished := []

def conclude (s : System) (r : Tracker × Bool) : System :=
  { s with
    tracker := r.1
    finished := if r.2 then s.finished ++ [r.1.status] else s.finished }

def ScopeOpen (s : System) : Option ℕ → Prop
  | none => s.owner.head? = some .run
  | some claim => ∃ c ∈ s.claims[claim]?, c.kind = .emit ∧ c.life = .taken

def IsLocal (s : System) (address : ℕ) : Prop :=
  ∃ c ∈ s.claims, c.local? = some address

instance (s : System) : ∀ scope, Decidable (s.ScopeOpen scope)
  | none => inferInstanceAs (Decidable (_ = _))
  | some claim => inferInstanceAs
      (Decidable (∃ c ∈ s.claims[claim]?, c.kind = .emit ∧ c.life = .taken))

instance (s : System) (address : ℕ) : Decidable (s.IsLocal address) :=
  inferInstanceAs (Decidable (∃ c ∈ s.claims, c.local? = some address))

def ownerCall (s : System) : Option (System × Outcome) :=
  match s.owner with
  | [] => none
  | .run :: rest => some ({ s with owner := rest }, .done)
  | .seal status :: rest =>
    let s := { s with owner := rest, recorded := s.recorded ++ [status] }
    some (s.conclude (s.tracker.sealPublication status), .done)
  | .leave :: rest =>
    let s := { s with owner := rest }
    some (s.conclude s.tracker.ownerLeave, .done)

/-- `flow_async_terminal_submit_stage` and `flow_async_emit_submit_stage` up to the adapter. -/
def submitStage (s : System) (scope : Option ℕ) (kind : Kind) (address : ℕ) :
    Option (System × Outcome) :=
  if s.ScopeOpen scope ∧ s.handle address = none ∧ ¬ s.IsLocal address then
    some ({ s with
        tracker := s.tracker.submit
        handle := update s.handle address (some s.claims.length)
        claims := s.claims ++ [{ kind, local? := some address, life := .live }] }, .done)
  else none

def submitReturned (s : System) (claim : ℕ) (rc : Status) : Option (System × Outcome) :=
  match s.claims[claim]? with
  | some ⟨_, some address, life⟩ =>
    match s.handle address with
    | some _ =>
      if life = .live then
        let s :=
          { s with
            handle := update s.handle address none
            claims := s.claims.modify claim fun c => { c with local? := none, life := .freed }
            recorded := s.recorded ++ [Status.ok] }
        some (s.conclude (s.tracker.release .ok), .status (if rc = .ok then .eproto else rc))
      else some (s, .useAfterFree)
    | none =>
      some ({ s with claims := s.claims.modify claim fun c => { c with local? := none } },
        .status (if rc = .ok then .ok else .eproto))
  | _ => none

/-- `turbo_flow_async_terminal_claim_move` and `turbo_flow_async_emit_claim_move`. -/
def claimMove (s : System) (destination source : ℕ) : System × Outcome :=
  if s.handle source = none ∨ s.handle destination ≠ none then (s, .status .einval)
  else
    ({ s with handle := update (update s.handle destination (s.handle source)) source none },
      .status .ok)

/-- `turbo_flow_async_terminal_complete` and `turbo_flow_async_emit_complete` until the claim value
is empty. -/
def claimComplete (s : System) (address : ℕ) (valid : Bool) : System × Outcome :=
  match s.handle address with
  | none => (s, .status .ealready)
  | some claim =>
    if valid = false then (s, .status .einval)
    else
      match s.claims[claim]? with
      | some ⟨_, _, .live⟩ =>
        ({ s with
            handle := update s.handle address none
            claims := s.claims.modify claim fun c => { c with life := .taken } }, .taken claim)
      | _ => (s, .useAfterFree)

def claimRelease (s : System) (claim : ℕ) (status : Status) : Option (System × Outcome) :=
  match s.claims[claim]? with
  | some ⟨_, _, .taken⟩ =>
    let s :=
      { s with
        claims := s.claims.modify claim fun c => { c with life := .freed }
        recorded := s.recorded ++ [status] }
    some (s.conclude (s.tracker.release status), .status .ok)
  | _ => none

def act (s : System) : Operation → Option (System × Outcome)
  | .owner => s.ownerCall
  | .submit scope kind address => s.submitStage scope kind address
  | .returned claim rc => s.submitReturned claim rc
  | .move destination source => some (s.claimMove destination source)
  | .copy destination source =>
    some ({ s with handle := update s.handle destination (s.handle source) }, .done)
  | .complete address valid => some (s.claimComplete address valid)
  | .release claim status => s.claimRelease claim status

/-- Claim values are not copied, and into the value of a running submit call only the claim of that
call is moved back, as the sinks that refuse a message do. -/
def MoveOnly (s : System) : Operation → Prop
  | .copy _ _ => False
  | .move destination source => ∀ i < s.claims.length, ∀ c ∈ s.claims[i]?,
      c.local? = some destination → ∀ claim ∈ s.handle source, claim = i
  | _ => True

instance (s : System) : DecidablePred s.MoveOnly
  | .copy _ _ => inferInstanceAs (Decidable False)
  | .move destination source => inferInstanceAs (Decidable (∀ i < s.claims.length,
      ∀ c ∈ s.claims[i]?, c.local? = some destination → ∀ claim ∈ s.handle source, claim = i))
  | .owner | .submit _ _ _ | .returned _ _ | .complete _ _ | .release _ _ =>
    inferInstanceAs (Decidable True)

abbrev MoveOnlyStep := Meeting (Acts act) fun s e => s.MoveOnly e.1

def weight (c : Claim) : ℕ :=
  if c.life = .freed then 0 else 1

inductive Progress (s : System) : Prop
  | opened (status : Status)
      (program : s.owner = [.run, .seal status, .leave] ∨ s.owner = [.seal status, .leave])
      (unsealed : s.tracker.isSealed = false) (active : s.tracker.ownerActive = true)
  | leaving (program : s.owner = [.leave]) (closed : s.tracker.isSealed = true)
      (active : s.tracker.ownerActive = true)
  | left (program : s.owner = []) (closed : s.tracker.isSealed = true)
      (inactive : s.tracker.ownerActive = false)

/-- The invariant: the count is that of the live objects, claim values own distinct ones, and the
callback has run, with the first failure, exactly when it is due. -/
structure Sound (s : System) : Prop where
  pending : s.tracker.pending = tally weight s.claims
  pointed : ∀ {h i}, s.handle h = some i → ∃ c, s.claims[i]? = some c ∧ c.life = .live
  unique : ∀ {h h' i}, s.handle h = some i → s.handle h' = some i → h = h'
  ownLocal : ∀ {i c h}, s.claims[i]? = some c → c.local? = some h →
    s.handle h = none ∨ s.handle h = some i
  progress : s.Progress
  status : s.tracker.status = firstFailure s.recorded
  finished : s.finished = if s.tracker.isDone then [s.tracker.status] else []

variable {s s' : System}

variable {out : Outcome} {address claim : ℕ} {op : Operation} {c : Claim} {path : List OwnerCall}
  {f : Claim → Claim} {handle : ℕ → Option ℕ} {tr : List (Operation × Outcome)}

theorem sound_start (h : Creator path) : (start path).Sound where
  pending := rfl
  pointed := by simp [start]
  unique := by simp [start]
  ownLocal := by simp [start]
  progress := by
    obtain ⟨status, hpath⟩ := h.seals_and_leaves
    exact .opened status hpath rfl rfl
  status := rfl
  finished := rfl

theorem Progress.congr (h : s.Progress) (howner : s'.owner = s.owner)
    (hsealed : s'.tracker.isSealed = s.tracker.isSealed)
    (hactive : s'.tracker.ownerActive = s.tracker.ownerActive) : s'.Progress := by
  cases h with
  | opened status program unsealed active =>
    exact .opened status (howner ▸ program) (hsealed ▸ unsealed) (hactive ▸ active)
  | leaving program closed active =>
    exact .leaving (howner ▸ program) (hsealed ▸ closed) (hactive ▸ active)
  | left program closed inactive =>
    exact .left (howner ▸ program) (hsealed ▸ closed) (hactive ▸ inactive)

section

variable (h : s.Sound)

include h

theorem Sound.not_done_of_unsealed (hs : s.tracker.isSealed = false) :
    s.tracker.isDone = false ∧ s.finished = [] := by
  have hdone : s.tracker.isDone = false := by simp [isDone, hs]
  exact ⟨hdone, by simp [h.finished, hdone]⟩

theorem Sound.not_done_of_active (hs : s.tracker.ownerActive = true) :
    s.tracker.isDone = false ∧ s.finished = [] := by
  have hdone : s.tracker.isDone = false := by simp [isDone, hs]
  exact ⟨hdone, by simp [h.finished, hdone]⟩

theorem Sound.not_done_of_claim {i : ℕ} (hc : s.claims[i]? = some c) (hlife : c.life ≠ .freed) :
    0 < s.tracker.pending ∧ s.tracker.isDone = false ∧
      s.finished = [] := by
  have hpos : 0 < s.tracker.pending := by
    have hle : weight c ≤ tally weight s.claims := le_tally hc
    have hone : weight c = 1 := by simp [weight, hlife]
    rw [h.pending]
    omega
  have hdone : s.tracker.isDone = false := by simp [isDone, Nat.ne_of_gt hpos]
  exact ⟨hpos, hdone, by simp [h.finished, hdone]⟩

omit h in
theorem finished_conclude {r : Tracker × Bool} (hfinished : s.finished = [])
    (hr : r.2 = r.1.isDone) :
    (s.conclude r).finished = if r.1.isDone then [r.1.status] else [] := by
  simp [conclude, hfinished, hr]

omit h in
theorem record_status (hstatus : s.tracker.status = firstFailure s.recorded) (status : Status) :
    (s.tracker.record status).status = firstFailure (s.recorded ++ [status]) := by
  rw [firstFailure_append, ← hstatus]
  unfold record
  split <;> rfl

theorem Sound.ownerCall (hact : s.ownerCall = some (s', out)) : s'.Sound := by
  obtain ⟨hpending, hpointed, hunique, hlocal, hprogress, hstatus, hfinished⟩ := id h
  unfold System.ownerCall at hact
  cases hprogress with
  | opened status program unsealed active =>
    obtain ⟨hdone, hempty⟩ := h.not_done_of_unsealed unsealed
    rcases program with program | program
    · rw [program] at hact
      cases hact
      exact ⟨hpending, hpointed, hunique, hlocal, .opened status (.inr rfl) unsealed active,
        hstatus, hfinished⟩
    rw [program] at hact
    cases hact
    refine ⟨?_, hpointed, hunique, hlocal, .leaving rfl rfl ?_, ?_, ?_⟩
    · simpa [conclude, sealPublication] using hpending
    · simpa [conclude, sealPublication] using active
    · exact record_status hstatus status
    · exact finished_conclude hempty (sealPublication_isDone _ _)
  | leaving program closed active =>
    obtain ⟨hdone, hempty⟩ := h.not_done_of_active active
    rw [program] at hact
    cases hact
    refine ⟨hpending, hpointed, hunique, hlocal, .left rfl closed rfl, hstatus, ?_⟩
    exact finished_conclude hempty (ownerLeave_isDone _)
  | left program => simp [program] at hact

omit h in
theorem getElem?_modify_cases {claims : List Claim} {i j : ℕ}
    (h : (claims.modify i f)[j]? = some c) :
    (i = j ∧ ∃ c₀, claims[j]? = some c₀ ∧ c = f c₀) ∨ (i ≠ j ∧ claims[j]? = some c) := by
  rw [getElem?_modify] at h
  obtain ⟨c₀, hc₀, heq⟩ := map_eq_some_iff.mp h
  by_cases hij : i = j
  · exact .inl ⟨hij, c₀, hc₀, by simpa [hij] using heq.symm⟩
  obtain rfl : c₀ = c := by simpa [hij] using heq
  exact .inr ⟨hij, hc₀⟩

theorem Sound.submitStage {scope : Option ℕ} {kind : Kind}
    (hact : s.submitStage scope kind address = some (s', out)) : s'.Sound := by
  unfold System.submitStage at hact
  split at hact
  case isFalse => cases hact
  case isTrue hguard =>
    obtain ⟨hscope, hfree, hnotLocal⟩ := hguard
    have hempty : s.finished = [] := by
      -- The owner's scope is open before the seal, a nested one while its claim is not freed.
      cases scope with
      | none =>
        cases h.progress with
        | opened _ _ unsealed => exact (h.not_done_of_unsealed unsealed).2
        | leaving program | left program => simp [ScopeOpen, program] at hscope
      | some i =>
        obtain ⟨c, hc, -, hlife⟩ := hscope
        exact (h.not_done_of_claim hc (by simp [hlife])).2.2
    cases hact
    have hnew : ∀ {a i}, update s.handle address (some s.claims.length) a = some i →
        (a = address ∧ i = s.claims.length) ∨ (a ≠ address ∧ s.handle a = some i) := by
      intro a i ha
      by_cases heq : a = address
      · exact .inl ⟨heq, by simpa [heq] using ha.symm⟩
      · exact .inr ⟨heq, by simpa [heq] using ha⟩
    have hlt : ∀ {a i}, s.handle a = some i → i < s.claims.length := by
      intro a i ha
      obtain ⟨c, hc, -⟩ := h.pointed ha
      exact (List.getElem?_eq_some_iff.mp hc).1
    refine ⟨?_, ?_, ?_, ?_, ?_, h.status, ?_⟩
    · simp [submit, h.pending, weight]
    · intro a i ha
      rcases hnew ha with ⟨-, rfl⟩ | ⟨-, ha⟩
      · exact ⟨_, getElem?_concat_length, rfl⟩
      obtain ⟨c, hc, hlife⟩ := h.pointed ha
      exact ⟨c, by rw [getElem?_append_left (hlt ha)]; exact hc, hlife⟩
    · intro a b i ha hb
      rcases hnew ha with ⟨haddress, hi⟩ | ⟨-, ha'⟩ <;> rcases hnew hb with ⟨hb', hi'⟩ | ⟨-, hb'⟩
      · exact haddress.trans hb'.symm
      · exact absurd (hi ▸ hlt hb') (Nat.lt_irrefl _)
      · exact absurd (hi' ▸ hlt ha') (Nat.lt_irrefl _)
      · exact h.unique ha' hb'
    · intro i c a hc ha
      dsimp only at hc ⊢
      rcases Nat.lt_or_ge i s.claims.length with hi | hi
      · rw [getElem?_append_left hi] at hc
        have hne : a ≠ address := fun heq =>
          hnotLocal ⟨c, mem_of_getElem? hc, heq ▸ ha⟩
        simpa [hne] using h.ownLocal hc ha
      rw [getElem?_append_right hi] at hc
      obtain ⟨hlen, rfl⟩ := List.getElem?_eq_some_iff.mp hc
      obtain rfl : i = s.claims.length := by
        simp only [length_singleton] at hlen
        omega
      obtain rfl : address = a := by simpa using ha
      simp
    · exact h.progress.congr rfl rfl rfl
    · simp [isDone, submit, hempty]

/-- Claim values are emptied and one object changes: the others still own distinct live objects,
provided none owns one that is no longer alive. -/
theorem Sound.modify (claim : ℕ) (f : Claim → Claim)
    (hsub : ∀ a, handle a = none ∨ handle a = s.handle a)
    (hlife : (∀ a, handle a ≠ some claim) ∨ ∀ c, (f c).life = c.life)
    (hlocal : ∀ c, (f c).local? = c.local? ∨ (f c).local? = none) :
    (∀ {a i}, handle a = some i → ∃ c, (s.claims.modify claim f)[i]? = some c ∧ c.life = .live) ∧
    (∀ {a b i}, handle a = some i → handle b = some i → a = b) ∧
    (∀ {i c a}, (s.claims.modify claim f)[i]? = some c → c.local? = some a →
      handle a = none ∨ handle a = some i) := by
  have hold : ∀ {a i}, handle a = some i → s.handle a = some i := by
    intro a i ha
    rcases hsub a with hnone | hsame
    · simp [hnone] at ha
    · exact hsame ▸ ha
  refine ⟨?_, fun ha hb => h.unique (hold ha) (hold hb), ?_⟩
  · intro a i ha
    obtain ⟨c, hc, halive⟩ := h.pointed (hold ha)
    by_cases heq : claim = i
    · subst heq
      refine ⟨f c, by simp [hc], ?_⟩
      rcases hlife with hnone | hsame
      · exact absurd ha (hnone a)
      · exact (hsame c).trans halive
    · exact ⟨c, by simp [heq, hc], halive⟩
  intro i c a hc ha
  have hbefore : ∃ c₀, s.claims[i]? = some c₀ ∧ c₀.local? = some a := by
    rcases getElem?_modify_cases hc with ⟨-, c₀, hc₀, rfl⟩ | ⟨-, hc⟩
    · rcases hlocal c₀ with hsame | hnone
      · exact ⟨c₀, hc₀, hsame ▸ ha⟩
      · simp [hnone] at ha
    · exact ⟨c, hc, ha⟩
  obtain ⟨c₀, hc₀, ha₀⟩ := hbefore
  rcases hsub a with hnone | hsame
  · exact .inl hnone
  · exact hsame ▸ h.ownLocal hc₀ ha₀

theorem Sound.free (hc : s.claims[claim]? = some c) (hlife : c.life ≠ .freed)
    (hf : ∀ c, (f c).life = .freed) (hlocal : ∀ c, (f c).local? = c.local? ∨ (f c).local? = none)
    (hsub : ∀ a, handle a = none ∨ handle a = s.handle a) (howned : ∀ a, handle a ≠ some claim)
    (status : Status) :
    Sound (conclude
      { s with handle, claims := s.claims.modify claim f, recorded := s.recorded ++ [status] }
      (s.tracker.release status)) := by
  obtain ⟨hpos, -, hempty⟩ := h.not_done_of_claim hc hlife
  obtain ⟨hpointed, hunique, hown⟩ := h.modify claim f hsub (.inl howned) hlocal
  have htracker := release_fst hpos status
  have hcount : tally weight (s.claims.modify claim f) + 1 = tally weight s.claims := by
    have hmodify := tally_modify (w := weight) hc f
    simpa [weight, hlife, hf] using hmodify
  refine ⟨?_, hpointed, hunique, hown, ?_, ?_, ?_⟩
  · have hpending := h.pending
    simp only [conclude, htracker]
    omega
  · exact h.progress.congr rfl (by simp [conclude, htracker]) (by simp [conclude, htracker])
  · simp only [conclude, htracker]
    exact record_status h.status status
  · exact finished_conclude hempty (release_isDone _ _)

theorem Sound.submitReturned {rc : Status} (hact : s.submitReturned claim rc = some (s', out)) :
    s'.Sound ∧ out ≠ .useAfterFree := by
  unfold System.submitReturned at hact
  split at hact
  next address life hc =>
    split at hact
    next i hhandle =>
      obtain rfl : claim = i := by
        rcases h.ownLocal hc rfl with hnone | hsome
        · simp [hnone] at hhandle
        · exact some.inj (hsome.symm.trans hhandle)
      obtain ⟨c, hc', hlive⟩ := h.pointed hhandle
      obtain rfl : life = .live := by
        rw [hc] at hc'
        cases hc'
        exact hlive
      cases hact
      refine ⟨h.free hc (by simp) (by simp) (by simp) ?_ ?_ .ok, by simp⟩
      · intro a
        by_cases heq : a = address <;> simp [heq]
      intro a ha
      by_cases heq : a = address
      · simp [heq] at ha
      · exact heq (h.unique (by simpa [heq] using ha) hhandle)
    next hhandle =>
      cases hact
      obtain ⟨hpointed, hunique, hown⟩ := h.modify claim (fun c => { c with local? := none })
        (fun a => .inr (Eq.refl (s.handle a))) (.inr fun _ => rfl) (by simp)
      refine ⟨⟨?_, hpointed, hunique, hown, h.progress.congr rfl rfl rfl, h.status, h.finished⟩,
        by simp⟩
      have hmodify := tally_modify (w := weight) hc fun c => { c with local? := none }
      have hpending := h.pending
      simp only [weight] at hmodify hpending ⊢
      omega
  next => cases hact

theorem Sound.claimMove {destination source : ℕ} (hop : s.MoveOnly (.move destination source))
    (hact : s.claimMove destination source = (s', out)) : s'.Sound ∧ out ≠ .useAfterFree := by
  unfold System.claimMove at hact
  split at hact
  · cases hact
    exact ⟨h, by simp⟩
  rename_i hfull
  push Not at hfull
  obtain ⟨hsource, hdestination⟩ := hfull
  cases hact
  have hne : destination ≠ source := fun heq => hsource (heq ▸ hdestination)
  have hcases : ∀ {a i}, update (update s.handle destination (s.handle source))
      source none a = some i →
      (a = destination ∧ s.handle source = some i) ∨
        (a ≠ destination ∧ a ≠ source ∧ s.handle a = some i) := by
    intro a i ha
    by_cases hsrc : a = source
    · simp [hsrc] at ha
    by_cases hdst : a = destination
    · exact .inl ⟨hdst, by simpa [hdst, hne] using ha⟩
    · exact .inr ⟨hdst, hsrc, by simpa [hsrc, hdst] using ha⟩
  refine ⟨⟨h.pending, ?_, ?_, ?_, h.progress.congr rfl rfl rfl, h.status, h.finished⟩, by simp⟩
  · intro a i ha
    rcases hcases ha with ⟨-, ha⟩ | ⟨-, -, ha⟩
    all_goals exact h.pointed ha
  · intro a b i ha hb
    rcases hcases ha with ⟨hdst, ha'⟩ | ⟨-, hsrc, ha'⟩ <;>
      rcases hcases hb with ⟨hdst', hb'⟩ | ⟨-, hsrc', hb'⟩
    · exact hdst.trans hdst'.symm
    · exact absurd (h.unique hb' ha') hsrc'
    · exact absurd (h.unique ha' hb') hsrc
    · exact h.unique ha' hb'
  intro i c a hc ha
  by_cases hsrc : a = source
  · exact .inl (by simp [hsrc])
  by_cases hdst : a = destination
  · subst hdst
    obtain ⟨claim, hclaim⟩ := ne_none_iff_exists'.mp hsource
    obtain rfl := hop i (List.getElem?_eq_some_iff.mp hc).1 c hc ha claim hclaim
    exact .inr (by simp [hne, hclaim])
  · simpa [hsrc, hdst] using h.ownLocal hc ha

theorem Sound.claimComplete {valid : Bool} (hact : s.claimComplete address valid = (s', out)) :
    s'.Sound ∧ out ≠ .useAfterFree := by
  unfold System.claimComplete at hact
  split at hact
  · cases hact
    exact ⟨h, by simp⟩
  next claim hhandle =>
    split at hact
    · cases hact
      exact ⟨h, by simp⟩
    obtain ⟨⟨kind, local?, life⟩, hc, hlive⟩ := h.pointed hhandle
    obtain rfl : life = .live := hlive
    rw [hc] at hact
    cases hact
    have hnone : ∀ a, update s.handle address none a ≠ some claim := by
      intro a ha
      by_cases heq : a = address
      · simp [heq] at ha
      · exact heq (h.unique (by simpa [heq] using ha) hhandle)
    have hsub : ∀ a, update s.handle address none a = none ∨
        update s.handle address none a = s.handle a := by
      intro a
      by_cases heq : a = address <;> simp [heq]
    obtain ⟨hpointed, hunique, hown⟩ := h.modify claim (fun c => { c with life := .taken }) hsub
      (.inl hnone) (by simp)
    refine ⟨⟨?_, hpointed, hunique, hown, h.progress.congr rfl rfl rfl, h.status, h.finished⟩,
      by simp⟩
    have hmodify := tally_modify (w := weight) hc fun c => { c with life := .taken }
    have hpending := h.pending
    simp only [weight, reduceCtorEq, if_false] at hmodify hpending ⊢
    omega

theorem Sound.claimRelease {status : Status} (hact : s.claimRelease claim status = some (s', out)) :
    s'.Sound ∧ out ≠ .useAfterFree := by
  unfold System.claimRelease at hact
  split at hact
  next kind local? hc =>
    cases hact
    refine ⟨h.free hc (by simp) (by simp) (by simp) (fun _ => .inr rfl) ?_ status, by simp⟩
    intro a ha
    obtain ⟨c, hc', hlive⟩ := h.pointed ha
    rw [hc] at hc'
    cases hc'
    cases hlive
  next => cases hact

theorem Sound.act (hop : s.MoveOnly op) (hact : s.act op = some (s', out)) :
    s'.Sound ∧ out ≠ .useAfterFree := by
  cases op with
  | owner =>
    refine ⟨h.ownerCall hact, ?_⟩
    rintro rfl
    simp only [System.act, System.ownerCall] at hact
    split at hact <;> simp at hact
  | submit scope kind address =>
    refine ⟨h.submitStage hact, ?_⟩
    rintro rfl
    simp only [System.act, System.submitStage] at hact
    split at hact <;> simp at hact
  | returned claim rc => exact h.submitReturned hact
  | move destination source => exact h.claimMove hop (some.inj hact)
  | copy => exact hop.elim
  | complete address valid => exact h.claimComplete (some.inj hact)
  | release claim status => exact h.claimRelease hact

end

theorem sound_of_run (hpath : Creator path) (h : Run MoveOnlyStep (start path) tr s) : s.Sound :=
  h.invariant (sound_start hpath) fun _ _ _ hs hstep => (hs.act hstep.2 hstep.1).1

def Spent (s : System) (claim : ℕ) : Prop :=
  ∃ c, s.claims[claim]? = some c ∧ c.life ≠ .live

/-- What a step does to the objects: it creates one, or changes one without reviving it; a
completion takes a live one. -/
theorem claims_act (hact : s.act op = some (s', out)) :
    ((∃ c, s'.claims = s.claims ++ [c]) ∧ out = .done) ∨
      ∃ j f, s'.claims = s.claims.modify j f ∧ (∀ c, c.life ≠ .live → (f c).life ≠ .live) ∧
        ∀ i, out = .taken i → i = j ∧ (∃ c, s.claims[j]? = some c ∧ c.life = .live) ∧
          ∀ c, (f c).life ≠ .live := by
  have hsame : ∀ {s' : System}, s'.claims = s.claims → (∀ i, out ≠ .taken i) →
      ∃ j f, s'.claims = s.claims.modify j f ∧ (∀ c, c.life ≠ .live → (f c).life ≠ .live) ∧
        ∀ i, out = .taken i → i = j ∧ (∃ c, s.claims[j]? = some c ∧ c.life = .live) ∧
          ∀ c, (f c).life ≠ .live := fun heq hout =>
    ⟨0, id, by rw [heq, modify_id], fun _ hlife => hlife, fun i hi => absurd hi (hout i)⟩
  cases op with
  | owner =>
    simp only [System.act, System.ownerCall] at hact
    split at hact
    · cases hact
    all_goals
      cases hact
      exact .inr (hsame rfl (by simp))
  | submit scope kind address =>
    simp only [System.act, System.submitStage] at hact
    split at hact
    · cases hact
      exact .inl ⟨⟨_, rfl⟩, rfl⟩
    · cases hact
  | returned i rc =>
    simp only [System.act, System.submitReturned] at hact
    split at hact
    · split at hact
      · split at hact
        · cases hact
          exact .inr ⟨i, _, rfl, by simp, by simp⟩
        cases hact
        exact .inr (hsame rfl (by simp))
      cases hact
      exact .inr ⟨i, _, rfl, fun _ hlife => hlife, by simp⟩
    · cases hact
  | move destination source =>
    simp only [System.act, System.claimMove] at hact
    split at hact
    all_goals
      cases hact
      exact .inr (hsame rfl (by simp))
  | copy destination source =>
    cases hact
    exact .inr (hsame rfl (by simp))
  | complete address valid =>
    simp only [System.act, System.claimComplete] at hact
    split at hact
    · cases hact
      exact .inr (hsame rfl (by simp))
    next claim hhandle =>
      split at hact
      · cases hact
        exact .inr (hsame rfl (by simp))
      split at hact
      next kind local? hc =>
        cases hact
        refine .inr ⟨claim, fun c => { c with life := .taken }, rfl, by simp, fun i hi => ?_⟩
        exact ⟨(Outcome.taken.inj hi).symm, ⟨_, hc, rfl⟩, by simp⟩
      · cases hact
        exact .inr (hsame rfl (by simp))
  | release i status =>
    simp only [System.act, System.claimRelease] at hact
    split at hact
    · cases hact
      exact .inr ⟨i, _, rfl, by simp, by simp⟩
    · cases hact

theorem spent_act (hact : s.act op = some (s', out)) (h : s.Spent claim) : s'.Spent claim := by
  obtain ⟨c, hc, hlife⟩ := h
  rcases claims_act hact with ⟨⟨c', heq⟩, -⟩ | ⟨j, f, heq, hf, -⟩
  · have hlt := (List.getElem?_eq_some_iff.mp hc).1
    exact ⟨c, by rw [heq, getElem?_append_left hlt]; exact hc, hlife⟩
  by_cases hj : j = claim
  · exact ⟨f c, by simp [heq, hj, hc], hf c hlife⟩
  · exact ⟨c, by simp [heq, hj, hc], hlife⟩

theorem act_taken (hact : s.act op = some (s', .taken claim)) :
    ¬ s.Spent claim ∧ s'.Spent claim := by
  rcases claims_act hact with ⟨-, hout⟩ | ⟨j, f, heq, -, htaken⟩
  · cases hout
  obtain ⟨rfl, ⟨c, hc, hlive⟩, hf⟩ := htaken claim rfl
  refine ⟨?_, f c, by simp [heq, hc], hf c⟩
  rintro ⟨c', hc', hlife⟩
  rw [hc] at hc'
  cases hc'
  exact hlife hlive

def completions (claim : ℕ) (tr : List (Operation × Outcome)) : ℕ :=
  tr.countP fun e => e.2 = .taken claim

theorem completions_of_run (h : Run MoveOnlyStep (start path) tr s) (claim : ℕ) :
    completions claim tr ≤ 1 ∧ (completions claim tr = 1 → s.Spent claim) := by
  refine h.invariant_trace (P := fun tr s =>
    completions claim tr ≤ 1 ∧ (completions claim tr = 1 → s.Spent claim)) ?_ ?_
  · simp [completions]
  rintro tr s ⟨op, out⟩ s' ⟨hle, hspent⟩ ⟨hact, -⟩
  have hsnoc : completions claim (tr ++ [(op, out)]) =
      completions claim tr + if out = .taken claim then 1 else 0 := by
    simp [completions, countP_cons]
  rw [hsnoc]
  by_cases hout : out = .taken claim
  · subst hout
    obtain ⟨hnot, hafter⟩ := act_taken hact
    have hzero : completions claim tr = 0 := by
      by_contra hne
      exact hnot (hspent (by omega))
    simp [hzero, hafter]
  simp only [hout, if_false, Nat.add_zero]
  exact ⟨hle, fun heq => spent_act hact (hspent heq)⟩

/-- The finish callback of a publication runs exactly once: it has run exactly when the publication
is sealed, its owner has left and no claim is pending, and reports the first recorded failure. Every
creator seals and leaves its publication, a moved claim completes at most once, and a completion
through an emptied claim value has no effect. -/
theorem publication_finishes_once {path : List OwnerCall} (hpath : Creator path)
    {tr : List (Operation × Outcome)} {s : System} (h : Run MoveOnlyStep (start path) tr s) :
    s.finished.length ≤ 1 ∧
      (s.finished ≠ [] ↔ s.tracker.isSealed ∧ s.tracker.ownerActive = false ∧
        s.tracker.pending = 0) ∧
      (∀ status ∈ s.finished, status = firstFailure s.recorded ∧
        (status = .ok ↔ ∀ result ∈ s.recorded, result = .ok)) ∧
      (∀ claim, completions claim tr ≤ 1) ∧
      (∀ address claim, s.handle address = some claim → ¬ s.Spent claim ∧
        ∀ other, s.handle other = some claim → other = address) ∧
      (∀ address valid, s.handle address = none →
        s.act (.complete address valid) = some (s, .status .ealready)) ∧
      (∀ op s', s.MoveOnly op → s.act op ≠ some (s', .useAfterFree)) ∧
      (∃ runs status, path = runs ++ [.seal status, .leave] ∧ ∀ call ∈ runs, call = .run) ∧
      (s.owner = [] → s.tracker.isSealed ∧ s.tracker.ownerActive = false) := by
  have hs := sound_of_run hpath h
  refine ⟨?_, ?_, ?_, fun claim => (completions_of_run h claim).1, ?_, ?_, ?_, ?_, ?_⟩
  · rw [hs.finished]
    split <;> simp
  · rw [hs.finished]
    simp [isDone, and_assoc]
  · intro status hm
    have heq : status = s.tracker.status := by
      rw [hs.finished] at hm
      split at hm <;> simp_all
    rw [heq, hs.status]
    exact ⟨rfl, firstFailure_eq_ok_iff _⟩
  · intro address claim haddress
    obtain ⟨c, hc, hlive⟩ := hs.pointed haddress
    refine ⟨?_, fun other hother => hs.unique hother haddress⟩
    rintro ⟨c', hc', hlife⟩
    rw [hc] at hc'
    cases hc'
    exact hlife hlive
  · intro address valid hnone
    simp [System.act, System.claimComplete, hnone]
  · exact fun op s' hop hact => (hs.act hop hact).2 rfl
  · obtain ⟨status, rfl | rfl⟩ := hpath.seals_and_leaves
    · exact ⟨[.run], status, rfl, by simp⟩
    · exact ⟨[], status, rfl, by simp⟩
  intro hempty
  cases hs.progress with
  | opened status program => rcases program with program | program <;> simp [program] at hempty
  | leaving program => simp [program] at hempty
  | left _ closed inactive => exact ⟨closed, inactive⟩

/-- The completion of an emit claim submits two terminal claims after the owner has left. The first
is moved back and refused, the second and the emit claim are completed. -/
def relay : List Operation :=
  [.submit none .emit 0, .move 1 0, .returned 0 .ok, .owner, .owner, .owner, .complete 1 true,
    .submit (some 0) .terminal 2, .move 3 2, .move 2 3, .returned 1 .ebusy,
    .submit (some 0) .terminal 2, .move 3 2, .returned 2 .ok, .release 0 .ok, .complete 3 true,
    .release 2 .etimedout]

theorem publication_finishes_once_relay :
    ∃ s outs, execMeeting act MoveOnly (start (asyncPublishTaskRun .ok)) relay = some (s, outs) ∧
      s.finished = [.etimedout] ∧ s.finished.length ≤ 1 ∧
      s.act (.complete 3 true) = some (s, .status .ealready) := by
  obtain ⟨s, outs, hexec, hfinished, hempty⟩ : ∃ s outs,
      execMeeting act MoveOnly (start (asyncPublishTaskRun .ok)) relay = some (s, outs) ∧
        s.finished = [.etimedout] ∧ s.handle 3 = none := ⟨_, _, rfl, rfl, rfl⟩
  obtain ⟨hlength, -, -, -, -, hlate, -⟩ :=
    publication_finishes_once (.byTask .ok) (run_of_execMeeting hexec)
  exact ⟨s, outs, hexec, hfinished, hlength, hlate 3 true hempty⟩

/-- The adapter copies its claim. The completion of the copy after that of the claim works on the
freed object. -/
theorem copied_claim_completes_twice :
    ∃ s outs, exec act (start (asyncPublishTaskRun .ok))
        [.submit none .terminal 0, .move 1 0, .copy 2 1, .returned 0 .ok, .complete 1 true,
          .release 0 .ok] = some (s, outs) ∧
      s.act (.complete 2 true) = some (s, .useAfterFree) :=
  ⟨_, _, rfl, rfl⟩

end System

end TurboFlow.Publication
