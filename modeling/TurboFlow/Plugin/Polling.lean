import Mathlib.Data.List.Rotate
import TurboFlow.Plugin.Generation

/-!
# External polling of the runtime owners

A round polls the owners that can be polled externally, once around from the first behind the
cursor, which moves before a callback is made. So the order of the next round is this one rotated by
one place.
-/

namespace TurboFlow.Plugin

open Transition List

/-- What polling reads of a `flow_provider_generation_entry_t`: an owner with
`TURBO_FLOW_RUNTIME_OWNER_EXTERNAL_POLL` or without. -/
structure PollEntry where
  name : String
  state : OwnerState
  owner : Option Bool

def PollEntry.capable (e : PollEntry) : Bool :=
  e.state = .materialized && e.owner = some true

structure Polling where
  entries : List PollEntry
  pollCursor : ℕ

/-- A call: the timeout, and what the owners' callbacks answer in it. -/
structure PollCall where
  timeoutMs : ℕ
  answer : ℕ → Status

/-- The owners that were polled with their timeouts, and the error. -/
structure Polled where
  polls : List (ℕ × ℕ)
  error : Option ConfigError

namespace Polling

variable (g : Polling) (call : PollCall)

def capableAt (index : ℕ) : Bool :=
  (g.entries[index]?).any PollEntry.capable

def indicesFrom (start : ℕ) : List ℕ :=
  (range g.entries.length).map fun offset => (start + offset) % g.entries.length

/-- The second loop of `flow_provider_generation_poll`. -/
def pollLoop (first : ℕ) : List ℕ → Polled
  | [] => ⟨[], none⟩
  | index :: rest =>
    match g.entries[index]?.filter PollEntry.capable with
    | none => pollLoop first rest
    | some e =>
      let poll := (index, if index = first then call.timeoutMs else 0)
      if call.answer index ≠ .ok then
        ⟨[poll], some (providerGenerationError (call.answer index) e.name "poll"
          "provider runtime owner poll failed")⟩
      else { pollLoop first rest with polls := poll :: (pollLoop first rest).polls }

def poll : Option (Polling × Polled) :=
  match (g.indicesFrom g.pollCursor).find? g.capableAt with
  | none => some (g, ⟨[], none⟩)
  | some first => some ({ g with pollCursor := (first + 1) % g.entries.length },
      g.pollLoop call first (g.indicesFrom first))

/-- The owners that can be polled. -/
def capable : List ℕ :=
  (range g.entries.length).filter g.capableAt

/-- The owners in the order of the next round. -/
def order : List ℕ :=
  ((range g.entries.length).rotate g.pollCursor).filter g.capableAt

variable {g call}

theorem indicesFrom_eq (start : ℕ) :
    g.indicesFrom start = (range g.entries.length).rotate start := by
  refine ext_getElem (by simp [indicesFrom]) fun k hk hk' => ?_
  simp [indicesFrom, getElem_rotate, Nat.add_comm]

/-- Around from `start`, the index behind `pre` comes first when one goes around from it. -/
theorem rotate_range (h : (range n).rotate start = pre ++ i :: post) :
    (range n).rotate i = i :: (post ++ pre) := by
  have hlt : pre.length < (range n).length := by
    rw [← (range n).length_rotate start, h]
    simp
  have hget := getElem?_rotate (n := start) hlt
  rw [length_range] at hlt hget
  rw [getElem?_range (Nat.mod_lt _ (Nat.zero_lt_of_lt hlt)), h] at hget
  have hi : i = (start + pre.length) % (range n).length := by simpa [Nat.add_comm] using hget
  nth_rewrite 1 [hi]
  rw [rotate_mod, ← rotate_rotate, h, rotate_append_length_eq, cons_append]

theorem order_perm : g.order.Perm g.capable :=
  (rotate_perm _ _).filter _

theorem nodup_capable : g.capable.Nodup :=
  nodup_range.filter _

theorem pollLoop_prefix (g : Polling) (call : PollCall) (first : ℕ) (indices : List ℕ) :
    let polls := (indices.filter g.capableAt).map fun i =>
      (i, if i = first then call.timeoutMs else 0)
    (g.pollLoop call first indices).polls <+: polls ∧
      ((g.pollLoop call first indices).error = none →
        (g.pollLoop call first indices).polls = polls) ∧
      ((g.pollLoop call first indices).polls = [] → polls = []) := by
  induction indices with
  | nil => simp [pollLoop]
  | cons index rest ih =>
    cases he : g.entries[index]?.filter PollEntry.capable with
    | none =>
      have hnot : g.capableAt index = false := by
        cases hget : g.entries[index]? <;> simp_all [capableAt]
      simpa [pollLoop, he, hnot] using ih
    | some e =>
      have hcapable : g.capableAt index = true := by
        obtain ⟨hget, he⟩ := Option.filter_eq_some_iff.mp he
        simp [capableAt, hget, he]
      by_cases hanswer : call.answer index = .ok
      · simpa [pollLoop, he, hcapable, hanswer] using And.intro ih.1 ih.2.1
      · simp [pollLoop, he, hcapable, hanswer]

/-- A round makes its polls in the given order as far as it comes, and the next order is rotated. -/
theorem poll_spec (h : g.poll call = some (g', out)) :
    let polls := g.order.map fun i => (i, if g.order.head? = some i then call.timeoutMs else 0)
    g'.entries = g.entries ∧ g'.order = g.order.rotate 1 ∧ out.polls <+: polls ∧
      (out.error = none → out.polls = polls) ∧ out.polls.head?.map Prod.fst = g.order.head? := by
  rw [poll, indicesFrom_eq] at h
  cases hfind : ((range g.entries.length).rotate g.pollCursor).find? g.capableAt with
  | none =>
    rw [hfind] at h
    cases h
    have hnil : g.order = [] := filter_eq_nil_iff.mpr (find?_eq_none.mp hfind)
    simp [hnil]
  | some first =>
    rw [hfind] at h
    cases h
    obtain ⟨hfirst, pre, post, hsplit, hpre⟩ := find?_eq_some_iff_append.mp hfind
    have hnone : pre.filter g.capableAt = [] :=
      filter_eq_nil_iff.mpr fun i hi => by simpa using hpre i hi
    have horder : g.order = first :: post.filter g.capableAt := by
      simp [order, hsplit, hnone, hfirst]
    have hrotate := rotate_range hsplit
    have hloop := g.pollLoop_prefix call first (g.indicesFrom first)
    have hfilter : (g.indicesFrom first).filter g.capableAt = g.order := by
      rw [indicesFrom_eq, hrotate, horder]
      simp [hfirst, hnone]
    have hnext : (range g.entries.length).rotate ((first + 1) % g.entries.length) =
        post ++ pre ++ [first] := by
      nth_rewrite 2 [← length_range (n := g.entries.length)]
      rw [rotate_mod, ← rotate_rotate, hrotate]
      simp
    rw [hfilter] at hloop
    have hhead : g.order.head? = some first := by rw [horder, head?_cons]
    simp only [hhead, Option.some.injEq, eq_comm (a := first)]
    refine ⟨trivial, ?_, hloop.1, hloop.2.1, ?_⟩
    · change ((range _).rotate _).filter g.capableAt = _
      rw [hnext, horder]
      simp [hnone, hfirst]
    cases hpolls : (g.pollLoop call first (g.indicesFrom first)).polls with
    | nil => simpa [horder] using hloop.2.2 hpolls
    | cons poll polls =>
      have hpast := hloop.1
      rw [hpolls, horder, map_cons, cons_prefix_cons] at hpast
      simp [hpast.1]

/-- The first owner that each call polls. -/
def firsts (tr : List (PollCall × Polled)) : List ℕ :=
  tr.filterMap fun e => e.2.polls.head?.map Prod.fst

variable {g' : Polling} {tr : List (PollCall × Polled)}

/-- Calls poll first what stands first in the orders that the rotation goes through. -/
theorem firsts_of_run (h : Run (Acts poll) g tr g') :
    g'.entries = g.entries ∧ g'.order = g.order.rotate tr.length ∧
      (tr.length ≤ g.order.length → firsts tr = g.order.take tr.length) := by
  refine h.invariant_trace (P := fun tr g' => g'.entries = g.entries ∧
    g'.order = g.order.rotate tr.length ∧
      (tr.length ≤ g.order.length → firsts tr = g.order.take tr.length)) (by simp [firsts]) ?_
  rintro tr g₁ e g₂ ⟨hentries, horder, hfirsts⟩ hstep
  obtain ⟨hentries', horder', -, -, hhead⟩ := poll_spec hstep
  rw [horder, rotate_rotate] at horder'
  refine ⟨hentries'.trans hentries, by simpa using horder', fun hle => ?_⟩
  rw [length_append, length_singleton] at hle ⊢
  rw [horder, head?_rotate hle] at hhead
  rw [take_add_one, ← hfirsts (Nat.le_of_succ_le hle), ← hhead]
  cases hpolls : e.2.polls <;> simp [firsts, hpolls]

/-- The guarantees of the rounds `tr`. -/
structure Fair (g : Polling) (tr : List (PollCall × Polled)) : Prop where
  round : ∀ e ∈ tr, e.2.error = none → ∃ order : List ℕ, order.Perm g.capable ∧
    e.2.polls = order.map fun i => (i, if order.head? = some i then e.1.timeoutMs else 0)
  once : ∀ e ∈ tr, (e.2.polls.map Prod.fst).Nodup
  turns : ∀ before calls after, tr = before ++ calls ++ after →
    calls.length = g.capable.length → (firsts calls).Perm g.capable

theorem capable_eq (h : g'.entries = g.entries) : g'.capable = g.capable := by
  unfold capable capableAt
  rw [h]

/-- Whatever the callbacks answer, a round polls no owner twice and the owners take turns at being
first. -/
theorem polls_fair (h : Run (Acts poll) g tr g') : Fair g tr := by
  have hround : ∀ e ∈ tr, ∃ g₁ g₂ : Polling, g₁.entries = g.entries ∧
      g₁.poll e.1 = some (g₂, e.2) := by
    intro e he
    obtain ⟨before, after, rfl⟩ := append_of_mem he
    obtain ⟨g₁, hbefore, hrest⟩ := h.split
    obtain ⟨g₂, hpoll, -⟩ := Run.cons_iff.mp hrest
    exact ⟨g₁, g₂, (firsts_of_run hbefore).1, hpoll⟩
  constructor
  case round =>
    intro e he hok
    obtain ⟨g₁, g₂, hentries, hpoll⟩ := hround e he
    exact ⟨g₁.order, capable_eq hentries ▸ order_perm, (poll_spec hpoll).2.2.2.1 hok⟩
  case once =>
    intro e he
    obtain ⟨g₁, g₂, -, hpoll⟩ := hround e he
    have hpast := (poll_spec hpoll).2.2.1.map Prod.fst
    rw [map_map] at hpast
    refine hpast.sublist.nodup ?_
    simpa [Function.comp_def] using order_perm.nodup_iff.mpr (nodup_capable)
  case turns =>
    intro before calls after htr hlength
    subst htr
    obtain ⟨g₂, hrun, -⟩ := h.split
    obtain ⟨g₁, hbefore, hcalls⟩ := hrun.split
    have hperm : g₁.order.Perm g.capable := capable_eq (firsts_of_run hbefore).1 ▸ order_perm
    have hlength : calls.length = g₁.order.length := hlength.trans hperm.length_eq.symm
    rw [(firsts_of_run hcalls).2.2 hlength.le, hlength, take_length]
    exact hperm

/-- Of three owners the one in the middle cannot be polled. -/
def threeOwners : Polling :=
  ⟨[⟨"a", .materialized, some true⟩, ⟨"b", .materialized, some false⟩,
    ⟨"c", .materialized, some true⟩], 0⟩

def failingCalls : List PollCall :=
  [⟨5, fun _ => .eio⟩, ⟨5, fun _ => .eio⟩]

/-- All callbacks fail, and each owner has its turn. -/
theorem polls_fair_failing :
    ∃ g' outs, exec poll threeOwners failingCalls = some (g', outs) ∧
      outs.map Polled.polls = [[(0, 5)], [(2, 5)]] ∧
      (firsts (failingCalls.zip outs)).Perm threeOwners.capable := by
  exact ⟨_, _, and_of_imp rfl fun hexec => ⟨rfl,
    (polls_fair (run_of_exec hexec)).turns [] _ [] (append_nil _).symm rfl⟩⟩

end Polling

end TurboFlow.Plugin
