import Mathlib.Data.Fintype.EquivFin
import Mathlib.Order.WellFounded
import TurboFlow.Lib.Word
import TurboFlow.Lib.Worklist

/-!
# Topological order by counting incoming edges

The vertices are the numbers below `n`. A vertex without edges from vertices that are not processed
is appended to the order, which is the queue at the same time. The order is an array of `n` entries;
writing beyond its end is a fault.
-/

namespace Kahn

open List Function
open Relation (TransGen)
open Fallible Word

/-- What the loop cannot survive: a write beyond the end of the order, or the end of the fuel. -/
inductive Fault
  | outOfBounds
  | exhausted
  deriving DecidableEq

/-- The counts of incoming edges and the order. -/
structure State where
  indegree : ℕ → ℕ
  order : List ℕ

variable {ε : Type} (src dst : ε → ℕ) (edges : List ε) (n : ℕ)

def push (v : ℕ) (s : State) : Except Fault State :=
  if s.order.length < n then .ok { s with order := s.order ++ [v] } else .error .outOfBounds

/-- The counts of all edges, and an empty order. -/
def start : State :=
  ⟨fun v => edges.countP fun e => dst e = v, []⟩

/-- Append a vertex without incoming edges. -/
def pushRoot (s : State) (v : ℕ) : Except Fault State :=
  if s.indegree v = 0 then push n v s else .ok s

/-- Take an edge off the count of its target if it comes from `v`. -/
def relax (v : ℕ) (s : State) (e : ε) : Except Fault State :=
  if src e = v then
    let left := sub64 (s.indegree (dst e)) 1
    let s := { s with indegree := update s.indegree (dst e) left }
    if left = 0 then push n (dst e) s else .ok s
  else .ok s

/-- Process a vertex of the order. -/
def visit (v : ℕ) (s : State) : Except Fault State :=
  edges.foldlM (relax src dst n v) s

def kahn : Except Fault State :=
  (range n).foldlM (pushRoot n) (start dst edges) >>=
    drain State.order (visit src dst edges n) (fun _ => .exhausted) (n + 1) 0

/-- An edge leads from `a` to `b`. -/
def Linked (a b : ℕ) : Prop :=
  ∃ e ∈ edges, src e = a ∧ dst e = b

/-- No vertex is reached from itself. -/
def Acyclic : Prop :=
  ∀ v, ¬ TransGen (Linked src dst edges) v v

/-- The first `head` vertices of the order have been processed. -/
structure Inv (head : ℕ) (s : State) : Prop where
  nodup : s.order.Nodup
  lt : ∀ v ∈ s.order, v < n
  head_le : head ≤ s.order.length
  indegree : ∀ v, s.indegree v = edges.countP fun e => dst e = v ∧ src e ∉ s.order.take head
  mem : ∀ v, v < n → (v ∈ s.order ↔ s.indegree v = 0)
  sorted : ∀ p v, s.order[p]? = some v → ∀ e ∈ edges, dst e = v → src e ∈ s.order.take p

/-- The vertex `v` at position `head` is being processed, and the edges `rest` are to come. -/
structure Mid (head v : ℕ) (rest : List ε) (s : State) : Prop where
  nodup : s.order.Nodup
  lt : ∀ v ∈ s.order, v < n
  current : s.order[head]? = some v
  indegree : ∀ w, s.indegree w =
    edges.countP (fun e => dst e = w ∧ src e ∉ s.order.take (head + 1)) +
      rest.countP fun e => dst e = w ∧ src e = v
  mem : ∀ v, v < n → (v ∈ s.order ↔ s.indegree v = 0)
  sorted : ∀ p v, s.order[p]? = some v → ∀ e ∈ edges, dst e = v → src e ∈ s.order.take p

variable {src dst edges n} {head v : ℕ} {s : State} {l order : List ℕ}

theorem length_le_of_forall_lt (hnodup : l.Nodup) (hlt : ∀ v ∈ l, v < n) : l.length ≤ n := by
  have hsub : l ⊆ range n := fun v hv => mem_range.mpr (hlt v hv)
  simpa using (hnodup.subperm hsub).length_le

theorem push_eq {w : ℕ} (indegree : ℕ → ℕ) (hnodup : order.Nodup) (hlt : ∀ v ∈ order, v < n)
    (hw : w < n) (hnot : w ∉ order) :
    push n w ⟨indegree, order⟩ = .ok ⟨indegree, order ++ [w]⟩ := by
  have hroom : (w :: order).length ≤ n :=
    length_le_of_forall_lt (nodup_cons.mpr ⟨hnot, hnodup⟩) (by simpa [hw] using hlt)
  exact if_pos (by simpa [Nat.succ_le_iff] using hroom)

theorem nodup_snoc {w : ℕ} (hnodup : order.Nodup) (hnot : w ∉ order) : (order ++ [w]).Nodup :=
  nodup_append_comm.mpr (nodup_cons.mpr ⟨hnot, hnodup⟩)

theorem countP_add {l : List ε} {p q r : ε → Prop} [DecidablePred p] [DecidablePred q]
    [DecidablePred r] (h : ∀ e, p e ↔ q e ∨ r e) (hdisjoint : ∀ e, q e → ¬ r e) :
    l.countP (fun e => p e) = l.countP (fun e => q e) + l.countP fun e => r e := by
  induction l with
  | nil => rfl
  | cons e l ih =>
    simp only [countP_cons, ih, decide_eq_true_eq]
    by_cases hq : q e
    · simp only [(h e).mpr (.inl hq), hq, hdisjoint e hq, if_true, if_false]
      omega
    by_cases hr : r e
    · simp only [(h e).mpr (.inr hr), hq, hr, if_true, if_false]
      omega
    have hp : ¬ p e := fun hp => ((h e).mp hp).elim hq hr
    simp only [hp, hq, hr, if_false]
    omega

theorem take_succ_of_getElem? (h : l[head]? = some v) : l.take (head + 1) = l.take head ++ [v] := by
  rw [take_add_one, h]
  rfl

/-- Before its edges are taken off, a vertex is the one processed vertex more. -/
theorem Inv.mid (h : Inv src dst edges n head s) (hv : s.order[head]? = some v) :
    Mid src dst edges n head v edges s where
  nodup := h.nodup
  lt := h.lt
  current := hv
  indegree w := by
    rw [h.indegree w, take_succ_of_getElem? hv]
    have hnot : v ∉ s.order.take head := by
      have hnodup := h.nodup.sublist (take_sublist (head + 1) s.order)
      rw [take_succ_of_getElem? hv] at hnodup
      intro hmem
      exact (nodup_append.mp hnodup).2.2 v hmem v (mem_singleton_self v) rfl
    refine countP_add (fun e => ?_) fun e hq hr => ?_
    · simp only [mem_append, mem_singleton, not_or]
      constructor
      · rintro ⟨hdst, hsrc⟩
        by_cases hev : src e = v
        · exact .inr ⟨hdst, hev⟩
        · exact .inl ⟨hdst, hsrc, hev⟩
      rintro (⟨hdst, hsrc, -⟩ | ⟨hdst, rfl⟩)
      · exact ⟨hdst, hsrc⟩
      · exact ⟨hdst, hnot⟩
    · exact hq.2 (by simp [hr.2])
  mem := h.mem
  sorted := h.sorted

theorem Mid.inv (h : Mid src dst edges n head v [] s) : Inv src dst edges n (head + 1) s where
  nodup := h.nodup
  lt := h.lt
  head_le := (List.getElem?_eq_some_iff.mp h.current).1
  indegree w := by simpa using h.indegree w
  mem := h.mem
  sorted := h.sorted

theorem Mid.relax {e : ε} {rest : List ε} (hlt : dst e < n)
    (h : Mid src dst edges n head v (e :: rest) s) :
    Ends (Mid src dst edges n head v rest) (fun _ => False) (relax src dst n v s e) := by
  unfold Kahn.relax
  split
  · rename_i hsrc
    have hcount := h.indegree (dst e)
    rw [countP_cons_of_pos (by simp [hsrc])] at hcount
    have hleft : sub64 (s.indegree (dst e)) 1 = s.indegree (dst e) - 1 := sub64_of_le (by omega)
    have hnot : dst e ∉ s.order := by
      rw [h.mem (dst e) hlt]
      omega
    -- the counts, before and after the target may have been appended
    have hindegree : ∀ w, update s.indegree (dst e) (s.indegree (dst e) - 1) w =
        edges.countP (fun e => dst e = w ∧ src e ∉ s.order.take (head + 1)) +
          rest.countP fun e => dst e = w ∧ src e = v := by
      intro w
      by_cases hw : w = dst e
      · subst hw
        rw [update_self]
        omega
      have := h.indegree w
      rw [countP_cons_of_neg (by simp [Ne.symm hw])] at this
      rw [update_of_ne hw]
      exact this
    simp only [hleft]
    split
    · rename_i hzero
      rw [push_eq _ h.nodup h.lt hlt hnot]
      have hhead : head + 1 ≤ s.order.length := (List.getElem?_eq_some_iff.mp h.current).1
      exact
        { nodup := nodup_snoc h.nodup hnot
          lt := forall_mem_append.mpr ⟨h.lt, forall_mem_singleton.mpr hlt⟩
          current := by rw [getElem?_append_left (by omega)]; exact h.current
          indegree := by
            intro w
            rw [take_append_of_le_length hhead]
            exact hindegree w
          mem := by
            intro w hw
            by_cases hwe : w = dst e
            · subst hwe
              simp [hzero]
            show w ∈ s.order ++ [dst e] ↔ update s.indegree (dst e) _ w = 0
            rw [update_of_ne hwe, ← h.mem w hw]
            simp [hwe]
          sorted := by
            intro p w hp e' he' hdst
            rcases Nat.lt_or_ge p s.order.length with hlow | hhigh
            · rw [getElem?_append_left hlow] at hp
              rw [take_append_of_le_length (by omega)]
              exact h.sorted p w hp e' he' hdst
            -- the target is appended: all its edges come from processed vertices
            have hpe : p = s.order.length := by
              have := (List.getElem?_eq_some_iff.mp hp).1
              simp at this
              omega
            subst hpe
            obtain rfl : dst e = w := by simpa using hp
            have hnone := hindegree (dst e)
            rw [update_self, hzero] at hnone
            have hprocessed : src e' ∈ s.order.take (head + 1) := by
              by_contra hsrc'
              have hpos : 0 < edges.countP fun e'' =>
                  dst e'' = dst e ∧ src e'' ∉ s.order.take (head + 1) :=
                countP_pos_iff.mpr ⟨e', he', by simp [hdst, hsrc']⟩
              omega
            rw [take_append_of_le_length (le_refl _), take_length]
            exact mem_of_mem_take hprocessed }
    rename_i hne
    refine { h with indegree := hindegree, mem := fun w hw => ?_ }
    by_cases hwe : w = dst e
    · subst hwe
      simp [hnot, hne]
    show w ∈ s.order ↔ update s.indegree (dst e) _ w = 0
    rw [update_of_ne hwe]
    exact h.mem w hw
  rename_i hsrc
  refine { h with indegree := fun w => ?_ }
  have := h.indegree w
  rwa [countP_cons_of_neg (by simp [hsrc])] at this

theorem Inv.visit (hlt : ∀ e ∈ edges, dst e < n) (h : Inv src dst edges n head s)
    (hv : s.order[head]? = some v) :
    Ends (Inv src dst edges n (head + 1)) (fun _ => False) (visit src dst edges n v s) := by
  have hloop : Ends (fun s => Mid src dst edges n head v [] s ∧ ([] : List ε) ⊆ edges)
      (fun _ => False) (Kahn.visit src dst edges n v s) := by
    unfold Kahn.visit
    refine Ends.foldlM
      (I := fun (rest : List ε) (s : State) => Mid src dst edges n head v rest s ∧ rest ⊆ edges)
      (fun e rest s hs => ?_) edges s ⟨h.mid hv, fun _ he => he⟩
    have he : e ∈ edges := hs.2 mem_cons_self
    have hrest : rest ⊆ edges := fun _ he' => hs.2 (mem_cons_of_mem _ he')
    exact (hs.1.relax (hlt e he)).mono (fun _ hmid => ⟨hmid, hrest⟩) fun _ hfalse => hfalse
  exact hloop.mono (fun _ hmid => hmid.1.inv) fun _ hfalse => hfalse

/-- The order while the vertices without incoming edges are appended: those below the next one. -/
structure Rooted (dst : ε → ℕ) (edges : List ε) (next : ℕ) (s : State) : Prop where
  nodup : s.order.Nodup
  indegree : s.indegree = (start dst edges).indegree
  mem : ∀ v, v ∈ s.order ↔ v < next ∧ s.indegree v = 0

theorem Rooted.pushRoot {next : ℕ} (h : Rooted dst edges next s) (hnext : next < n) :
    Ends (Rooted dst edges (next + 1)) (fun _ => False) (pushRoot n s next) := by
  have hlt : ∀ v ∈ s.order, v < n := fun v hv => ((h.mem v).mp hv).1.trans hnext
  have hnot : next ∉ s.order := fun hmem => absurd ((h.mem next).mp hmem).1 (Nat.lt_irrefl _)
  unfold Kahn.pushRoot
  split
  · rename_i hzero
    rw [push_eq _ h.nodup hlt hnext hnot]
    refine ⟨nodup_snoc h.nodup hnot, h.indegree, fun v => ?_⟩
    simp only [mem_append, mem_singleton, h.mem v, Nat.lt_succ_iff_lt_or_eq]
    constructor
    · rintro (⟨hv, hcount⟩ | rfl)
      · exact ⟨.inl hv, hcount⟩
      · exact ⟨.inr rfl, hzero⟩
    rintro ⟨hv | hv, hcount⟩
    · exact .inl ⟨hv, hcount⟩
    · exact .inr hv
  rename_i hne
  refine ⟨h.nodup, h.indegree, fun v => ?_⟩
  rw [h.mem v, Nat.lt_succ_iff_lt_or_eq]
  constructor
  · rintro ⟨hv, hcount⟩
    exact ⟨.inl hv, hcount⟩
  rintro ⟨hv | rfl, hcount⟩
  · exact ⟨hv, hcount⟩
  · exact absurd hcount hne

theorem rooted_foldlM :
    ∀ k ≤ n, Ends (Rooted dst edges k) (fun _ => False)
      ((range k).foldlM (pushRoot n) (start dst edges)) := by
  intro k
  induction k with
  | zero => exact fun _ => ⟨nodup_nil, rfl, by simp [start]⟩
  | succ k ih =>
    intro hk
    rw [range_succ, foldlM_append]
    refine Ends.bind (ih (by omega)) fun s hs => ?_
    have hlast := hs.pushRoot (show k < n by omega)
    cases hpush : pushRoot n s k with
    | error e =>
      rw [hpush] at hlast
      exact hlast.elim
    | ok s' =>
      rw [hpush] at hlast
      rw [foldlM_cons, hpush]
      exact hlast

theorem Rooted.inv (h : Rooted dst edges n s) : Inv src dst edges n 0 s where
  nodup := h.nodup
  lt v hv := ((h.mem v).mp hv).1
  head_le := Nat.zero_le _
  indegree v := by simp [h.indegree, start]
  mem v hv := by simp [h.mem v, hv]
  sorted p v hp e he hdst := by
    have hzero := ((h.mem v).mp (mem_of_getElem? hp)).2
    rw [h.indegree] at hzero
    have hnone := countP_eq_zero.mp hzero e he
    simp [hdst] at hnone

/-- The loop ends without a fault, for every graph. -/
theorem kahn_ends (src : ε → ℕ) (hlt : ∀ e ∈ edges, dst e < n) :
    ∃ s, kahn src dst edges n = .ok s ∧ Inv src dst edges n s.order.length s := by
  have hloop : Ends (fun s => Inv src dst edges n s.order.length s) (fun _ => False)
      (kahn src dst edges n) := by
    refine Ends.bind (rooted_foldlM n (le_refl n)) fun s hs => ?_
    refine Ends.drain (I := Inv src dst edges n) (n := n) ?_ ?_ (n + 1) 0 s hs.inv (by omega)
    · exact fun head s h => ⟨h.head_le, length_le_of_forall_lt h.nodup h.lt⟩
    · exact fun head s v h hv => h.visit hlt hv
  cases hrun : kahn src dst edges n with
  | ok s =>
    rw [hrun] at hloop
    exact ⟨s, rfl, hloop⟩
  | error e =>
    rw [hrun] at hloop
    exact hloop.elim

/-! ### Complete orders -/

/-- Every edge leads from an earlier to a later position of an order. -/
def Respects (src dst : ε → ℕ) (edges : List ε) (order : List ℕ) : Prop :=
  ∀ e ∈ edges, ∃ p q : ℕ, p < q ∧ order[p]? = some (src e) ∧ order[q]? = some (dst e)

theorem Inv.respects (h : Inv src dst edges n s.order.length s) (hlt : ∀ e ∈ edges, dst e < n)
    (hfull : ∀ v < n, v ∈ s.order) : Respects src dst edges s.order := by
  intro e he
  obtain ⟨q, hq⟩ := getElem?_of_mem (hfull (dst e) (hlt e he))
  have hsrc := h.sorted q (dst e) hq e he rfl
  obtain ⟨p, hp⟩ := getElem?_of_mem hsrc
  rw [getElem?_take] at hp
  split at hp
  · rename_i hpq
    exact ⟨p, q, hpq, hp, hq⟩
  · cases hp

theorem Respects.lt_of_transGen (h : Respects src dst edges order) (hnodup : order.Nodup) {a b : ℕ}
    (hpath : TransGen (Linked src dst edges) a b) :
    ∃ p q : ℕ, p < q ∧ order[p]? = some a ∧ order[q]? = some b := by
  induction hpath with
  | single hab =>
    obtain ⟨e, he, rfl, rfl⟩ := hab
    exact h e he
  | tail _ hbc ih =>
    obtain ⟨e, he, rfl, rfl⟩ := hbc
    obtain ⟨p, q, hpq, hp, hq⟩ := ih
    obtain ⟨q', r, hqr, hq', hr⟩ := h e he
    have heq : q = q' := (getElem?_inj (List.getElem?_eq_some_iff.mp hq).1 hnodup).mp
      (hq.trans hq'.symm)
    exact ⟨p, r, by omega, hp, hr⟩

theorem Respects.acyclic (h : Respects src dst edges order) (hnodup : order.Nodup) :
    Acyclic src dst edges := by
  intro v hcycle
  obtain ⟨p, q, hpq, hp, hq⟩ := h.lt_of_transGen hnodup hcycle
  have heq : p = q := (getElem?_inj (List.getElem?_eq_some_iff.mp hp).1 hnodup).mp
    (hp.trans hq.symm)
  omega

/-- Without a cycle the order is complete: a first missing vertex would have no incoming edges
left. -/
theorem Inv.mem_of_acyclic (h : Inv src dst edges n s.order.length s)
    (hlt : ∀ e ∈ edges, src e < n) (hacyclic : Acyclic src dst edges) : ∀ v < n, v ∈ s.order := by
  by_contra hmissing
  push Not at hmissing
  obtain ⟨v, hv, hnot⟩ := hmissing
  let before (a b : Fin n) : Prop := TransGen (Linked src dst edges) a b
  have : IsTrans (Fin n) before := ⟨fun _ _ _ => TransGen.trans⟩
  have : Std.Irrefl before := ⟨fun a => hacyclic a⟩
  have hwf : WellFounded before := Finite.wellFounded_of_trans_of_irrefl before
  obtain ⟨m, hm, hmin⟩ := hwf.has_min {v : Fin n | (v : ℕ) ∉ s.order} ⟨⟨v, hv⟩, hnot⟩
  have hcount : s.indegree m ≠ 0 := fun hzero => hm ((h.mem m m.2).mpr hzero)
  rw [h.indegree, take_length] at hcount
  obtain ⟨e, he, hedge⟩ := countP_pos_iff.mp (Nat.pos_of_ne_zero hcount)
  obtain ⟨hdst, hsrc⟩ := of_decide_eq_true hedge
  exact hmin ⟨src e, hlt e he⟩ hsrc (.single ⟨e, he, rfl, hdst⟩)

/-- The loop ends without a fault for every graph; its order has no vertex twice, and it is
complete, with every edge leading forward, just when there is no cycle. -/
theorem kahn_spec (hlt : ∀ e ∈ edges, src e < n ∧ dst e < n) :
    ∃ s, kahn src dst edges n = .ok s ∧ s.order.Nodup ∧ (∀ v ∈ s.order, v < n) ∧
      (s.order.length = n ↔ Acyclic src dst edges) ∧
      (s.order.length = n → s.order.Perm (range n) ∧ Respects src dst edges s.order) := by
  obtain ⟨s, hrun, h⟩ := kahn_ends src fun e he => (hlt e he).2
  have hsub : s.order ⊆ range n := fun v hv => mem_range.mpr (h.lt v hv)
  have hcomplete : s.order.length = n →
      s.order.Perm (range n) ∧ Respects src dst edges s.order := by
    intro hlength
    have hperm : s.order.Perm (range n) :=
      (h.nodup.subperm hsub).perm_of_length_le (by simp [hlength])
    exact ⟨hperm, h.respects (fun e he => (hlt e he).2)
      fun v hv => hperm.mem_iff.mpr (mem_range.mpr hv)⟩
  refine ⟨s, hrun, h.nodup, h.lt, ⟨fun hlength => (hcomplete hlength).2.acyclic h.nodup, ?_⟩,
    hcomplete⟩
  intro hacyclic
  have hall := h.mem_of_acyclic (fun e he => (hlt e he).1) hacyclic
  have hsup : range n ⊆ s.order := fun v hv => hall v (mem_range.mp hv)
  have hge := (nodup_range.subperm hsup).length_le
  have hle := length_le_of_forall_lt h.nodup h.lt
  simp only [length_range] at hge
  omega

end Kahn
