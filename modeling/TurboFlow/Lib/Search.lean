import Mathlib.Data.List.Perm.Subperm
import Mathlib.Algebra.Order.Ring.Int

/-!
# Depth-first search with marks

A vertex that is marked is left at once; otherwise it is marked and may answer for itself, or else
the search goes on along its edges and ends with the first positive answer. More fuel than there are
vertices is never spent (`dfs_iff`).
-/

namespace Search

open List Option
open Relation (ReflTransGen)

variable {α ε : Type*} [DecidableEq α]

/-- Search from a vertex, with the vertices that are marked. -/
def dfs (edges : List ε) (follow : α → ε → Option α) (answer : α → Option Bool) :
    ℕ → α → List α → Option (Bool × List α)
  | 0, _, _ => none
  | fuel + 1, v, visited =>
    if v ∈ visited then some (false, visited)
    else
      match answer v with
      | some found => some (found, v :: visited)
      | none =>
        edges.foldl
          (fun result e =>
            match result with
            | some (false, visited) =>
              match follow v e with
              | some w => dfs edges follow answer fuel w visited
              | none => some (false, visited)
            | found => found)
          (some (false, v :: visited))

variable (edges : List ε) (follow : α → ε → Option α) (answer : α → Option Bool)

/-- The search goes on from `v` to `w`. -/
def Step (v w : α) : Prop :=
  answer v = none ∧ ∃ e ∈ edges, follow v e = some w

/-- The search has left the marks `visiting` for `visited` without a positive answer. -/
structure Explored (vertices : List α) (visiting visited : List α) : Prop where
  subset : visiting ⊆ visited
  nodup : visited.Nodup
  inside : visited ⊆ vertices
  negative : ∀ v ∈ visited, v ∉ visiting → answer v ≠ some true
  closed : ∀ v ∈ visited, v ∉ visiting → ∀ w, Step edges follow answer v w → w ∈ visited

/-- The outcome of a search from the vertices `starts`. -/
inductive Searched (vertices : List α) (starts : α → Prop) (visiting : List α) :
    Option (Bool × List α) → Prop
  | found {visited : List α} {v w : α} (hv : starts v)
      (hpath : ReflTransGen (Step edges follow answer) v w) (hw : answer w = some true) :
      Searched vertices starts visiting (some (true, visited))
  | clean {visited : List α}
      (hexplored : Explored edges follow answer vertices visiting visited)
      (hstarts : ∀ v, starts v → v ∈ visited) :
      Searched vertices starts visiting (some (false, visited))

variable {edges follow answer} {vertices : List α} {visiting : List α} {v : α}

omit [DecidableEq α] in
theorem Explored.refl (hnodup : visiting.Nodup) (hinside : visiting ⊆ vertices) :
    Explored edges follow answer vertices visiting visiting :=
  ⟨fun _ h => h, hnodup, hinside, fun _ h hn => absurd h hn, fun _ h hn => absurd h hn⟩

theorem Explored.trans {v₁ v₂ v₃ : List α} (h : Explored edges follow answer vertices v₁ v₂)
    (h' : Explored edges follow answer vertices v₂ v₃) :
    Explored edges follow answer vertices v₁ v₃ where
  subset := fun _ hv => h'.subset (h.subset hv)
  nodup := h'.nodup
  inside := h'.inside
  negative v hv hnot := by
    by_cases hmid : v ∈ v₂
    · exact h.negative v hmid hnot
    · exact h'.negative v hv hmid
  closed v hv hnot w hw := by
    by_cases hmid : v ∈ v₂
    · exact h'.subset (h.closed v hmid hnot w hw)
    · exact h'.closed v hv hmid w hw

theorem Explored.of_cons {visited : List α}
    (h : Explored edges follow answer vertices (v :: visiting) visited)
    (hanswer : answer v ≠ some true) (hclosed : ∀ w, Step edges follow answer v w → w ∈ visited) :
    Explored edges follow answer vertices visiting visited where
  subset := fun _ hu => h.subset (mem_cons_of_mem _ hu)
  nodup := h.nodup
  inside := h.inside
  negative u hu hnot := by
    by_cases huv : u = v
    · exact huv ▸ hanswer
    · exact h.negative u hu (by simp [huv, hnot])
  closed u hu hnot w hw := by
    by_cases huv : u = v
    · exact hclosed w (huv ▸ hw)
    · exact h.closed u hu (by simp [huv, hnot]) w hw

/-- The body of the loop over the edges. -/
def searchEdge (edges : List ε) (follow : α → ε → Option α) (answer : α → Option Bool) (fuel : ℕ)
    (v : α) (result : Option (Bool × List α)) (e : ε) : Option (Bool × List α) :=
  match result with
  | some (false, visited) =>
    match follow v e with
    | some w => dfs edges follow answer fuel w visited
    | none => some (false, visited)
  | found => found

theorem foldl_found (fuel : ℕ) (v : α) (es : List ε) (visited : List α) :
    es.foldl (searchEdge edges follow answer fuel v) (some (true, visited)) =
      some (true, visited) := by
  induction es with
  | nil => rfl
  | cons e es ih => exact ih

omit [DecidableEq α] in
theorem Searched.mono {starts starts' : α → Prop} {r : Option (Bool × List α)}
    (h : Searched edges follow answer vertices starts visiting r)
    (hstarts : ∀ v, starts v → starts' v)
    (hmarked : ∀ visited, visiting ⊆ visited → (∀ v, starts v → v ∈ visited) →
      ∀ v, starts' v → v ∈ visited) : Searched edges follow answer vertices starts' visiting r := by
  cases h with
  | found hv hpath hw => exact .found (hstarts _ hv) hpath hw
  | clean hexplored hall => exact .clean hexplored (hmarked _ hexplored.subset hall)

/-- The loop over the edges `es`, given what a search with the remaining fuel does. -/
theorem searched_foldl {fuel : ℕ} {es : List ε}
    (hfollow : ∀ e ∈ es, ∀ w, follow v e = some w → w ∈ vertices)
    (hsearch : ∀ w visiting, visiting.Nodup → visiting ⊆ vertices → w ∈ vertices →
      vertices.length < fuel + visiting.length →
        Searched edges follow answer vertices (· = w) visiting
          (dfs edges follow answer fuel w visiting)) (hnodup : visiting.Nodup)
    (hinside : visiting ⊆ vertices) (hfuel : vertices.length < fuel + visiting.length) :
    Searched edges follow answer vertices (fun w => ∃ e ∈ es, follow v e = some w) visiting
      (es.foldl (searchEdge edges follow answer fuel v) (some (false, visiting))) := by
  induction es generalizing visiting with
  | nil => exact .clean (.refl hnodup hinside) (by simp)
  | cons e es ih =>
    have hrest : ∀ e ∈ es, ∀ w, follow v e = some w → w ∈ vertices :=
      fun e' he' => hfollow e' (mem_cons_of_mem _ he')
    rw [foldl_cons]
    cases hto : follow v e with
    | some w =>
      have hhead : searchEdge edges follow answer fuel v (some (false, visiting)) e =
          dfs edges follow answer fuel w visiting := by
        simp only [searchEdge, hto]
      rw [hhead]
      have hstep := hsearch w visiting hnodup hinside (hfollow e mem_cons_self w hto) hfuel
      generalize dfs edges follow answer fuel w visiting = r at hstep
      cases hstep with
      | found hv hpath hw =>
        subst hv
        rw [foldl_found]
        exact .found ⟨e, mem_cons_self, hto⟩ hpath hw
      | @clean visited hexplored hstarts =>
        have hle : visiting.length ≤ visited.length := (hnodup.subperm hexplored.subset).length_le
        have hmore := ih hrest hexplored.nodup hexplored.inside (by omega)
        generalize es.foldl (searchEdge edges follow answer fuel v) (some (false, visited)) = r
          at hmore
        cases hmore with
        | found hv hpath hw =>
          obtain ⟨e', he', hto'⟩ := hv
          exact .found ⟨e', mem_cons_of_mem _ he', hto'⟩ hpath hw
        | clean hexplored' hstarts' =>
          refine .clean (hexplored.trans hexplored') ?_
          rintro u ⟨e', he', hto'⟩
          rcases mem_cons.mp he' with rfl | he'
          · obtain rfl : w = u := some.inj (hto.symm.trans hto')
            exact hexplored'.subset (hstarts _ rfl)
          · exact hstarts' _ ⟨e', he', hto'⟩
    | none =>
      have hhead : searchEdge edges follow answer fuel v (some (false, visiting)) e =
          some (false, visiting) := by
        simp only [searchEdge, hto]
      rw [hhead]
      refine (ih hrest hnodup hinside hfuel).mono ?_ ?_
      · rintro u ⟨e', he', hto'⟩
        exact ⟨e', mem_cons_of_mem _ he', hto'⟩
      rintro visited - hall u ⟨e', he', hto'⟩
      rcases mem_cons.mp he' with rfl | he'
      · rw [hto] at hto'
        cases hto'
      · exact hall u ⟨e', he', hto'⟩

/-- The search ends, and it answers positively or has seen all it can reach. -/
theorem searched (hfollow : ∀ v ∈ vertices, ∀ e ∈ edges, ∀ w, follow v e = some w → w ∈ vertices)
    (fuel : ℕ) :
    ∀ (v : α) (visiting : List α), visiting.Nodup → visiting ⊆ vertices → v ∈ vertices →
      vertices.length < fuel + visiting.length →
        Searched edges follow answer vertices (· = v) visiting
          (dfs edges follow answer fuel v visiting) := by
  induction fuel with
  | zero =>
    intro v visiting hnodup hinside hv hfuel
    have hle := (hnodup.subperm hinside).length_le
    omega
  | succ fuel ih =>
    intro v visiting hnodup hinside hv hfuel
    rw [dfs]
    split
    · rename_i hmem
      exact .clean (.refl hnodup hinside) fun u hu => hu ▸ hmem
    rename_i hnew
    have hnodup' : (v :: visiting).Nodup := nodup_cons.mpr ⟨hnew, hnodup⟩
    have hinside' : v :: visiting ⊆ vertices := cons_subset.mpr ⟨hv, hinside⟩
    cases hanswer : answer v with
    | some found =>
      cases found with
      | true => exact .found rfl .refl hanswer
      | false =>
        refine .clean ((Explored.refl hnodup' hinside').of_cons (by simp [hanswer]) ?_) ?_
        · rintro w ⟨hnone, -⟩
          rw [hanswer] at hnone
          cases hnone
        · exact fun u hu => hu ▸ mem_cons_self
    | none =>
      have hloop := searched_foldl (hfollow v hv) ih hnodup' hinside'
        (by rw [length_cons]; omega)
      change Searched edges follow answer vertices _ visiting
        (edges.foldl (searchEdge edges follow answer fuel v) (some (false, v :: visiting)))
      generalize edges.foldl (searchEdge edges follow answer fuel v)
        (some (false, v :: visiting)) = r at hloop
      cases hloop with
      | found hw hpath hu => exact .found rfl (.head ⟨hanswer, hw⟩ hpath) hu
      | clean hexplored hstarts =>
        refine .clean (hexplored.of_cons (by simp [hanswer]) fun w hw => hstarts w hw.2) ?_
        exact fun u hu => hu ▸ hexplored.subset mem_cons_self

/-- With more fuel than vertices, a search without marks answers positively just when it reaches a
vertex that does. -/
theorem dfs_iff (hfollow : ∀ v ∈ vertices, ∀ e ∈ edges, ∀ w, follow v e = some w → w ∈ vertices)
    (hv : v ∈ vertices) :
    (dfs edges follow answer (vertices.length + 1) v []).any (·.1) = true ↔
      ∃ w, ReflTransGen (Step edges follow answer) v w ∧ answer w = some true := by
  have hsearch : Searched edges follow answer vertices (· = v) [] _ :=
    searched hfollow (vertices.length + 1) v [] nodup_nil (nil_subset _) hv (by simp)
  generalize dfs edges follow answer (vertices.length + 1) v [] = r at hsearch
  cases hsearch with
  | found hu hpath hw =>
    subst hu
    simpa using ⟨_, hpath, hw⟩
  | @clean visited hexplored hstarts =>
    have hall : ∀ w, ReflTransGen (Step edges follow answer) v w → w ∈ visited := by
      intro w hpath
      induction hpath with
      | refl => exact hstarts v rfl
      | tail _ hstep ih => exact hexplored.closed _ ih (by simp) _ hstep
    simp only [any_some, Bool.false_eq_true, false_iff, not_exists, not_and]
    exact fun w hpath => hexplored.negative w (hall w hpath) (by simp)

end Search
