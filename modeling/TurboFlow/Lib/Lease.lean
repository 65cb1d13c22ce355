import TurboFlow.Lib.Run
import Mathlib.Data.List.Nodup

/-!
# Leases with fencing tokens

A ledger hands out tokens in increasing order. A lease binds a key to its token and is spent by
presenting both. A key has at most one lease at a time.

A component whose steps are steps of a ledger inherits `Accounted`: a token is granted once, a lease
is spent at most once, and the leases of a moment are those granted and not yet spent.
-/

namespace Lease

open Transition List

/-- What a step does to the leases of a component. -/
inductive Entry (κ : Type*)
  | keep
  | grant (key : κ) (token : ℕ)
  | spend (key : κ) (token : ℕ)

/-- The leases in force and the number of tokens drawn so far. -/
structure Ledger (κ : Type*) where
  leases : Set (κ × ℕ)
  drawn : ℕ

variable {κ : Type*}

/-- The steps of a ledger. -/
inductive Ledger.Step (l : Ledger κ) : Entry κ → Ledger κ → Prop
  | keep : Step l .keep l
  | grant {key : κ} (hfree : ∀ token, (key, token) ∉ l.leases) :
      Step l (.grant key (l.drawn + 1)) ⟨insert (key, l.drawn + 1) l.leases, l.drawn + 1⟩
  | spend {key : κ} {token : ℕ} (hleased : (key, token) ∈ l.leases) :
      Step l (.spend key token) ⟨l.leases \ {(key, token)}, l.drawn⟩

def Entry.granted : Entry κ → Option (κ × ℕ)
  | .grant key token => some (key, token)
  | .keep | .spend _ _ => none

def Entry.spent : Entry κ → Option (κ × ℕ)
  | .spend key token => some (key, token)
  | .keep | .grant _ _ => none

def granted (tr : List (Entry κ)) : List (κ × ℕ) :=
  tr.filterMap Entry.granted

def spent (tr : List (Entry κ)) : List (κ × ℕ) :=
  tr.filterMap Entry.spent

@[simp] theorem granted_append (tr tr' : List (Entry κ)) :
    granted (tr ++ tr') = granted tr ++ granted tr' :=
  filterMap_append

@[simp] theorem spent_append (tr tr' : List (Entry κ)) :
    spent (tr ++ tr') = spent tr ++ spent tr' :=
  filterMap_append

@[simp] theorem granted_keep : granted [(.keep : Entry κ)] = [] := rfl

@[simp] theorem granted_grant (key : κ) (token : ℕ) :
    granted [.grant key token] = [(key, token)] := rfl

@[simp] theorem granted_spend (key : κ) (token : ℕ) : granted [.spend key token] = [] := rfl

@[simp] theorem spent_keep : spent [(.keep : Entry κ)] = [] := rfl

@[simp] theorem spent_grant (key : κ) (token : ℕ) : spent [.grant key token] = [] := rfl

@[simp] theorem spent_spend (key : κ) (token : ℕ) :
    spent [.spend key token] = [(key, token)] := rfl

/-- The ledger accounts for what the trace granted and spent. -/
structure Accounted (tr : List (Entry κ)) (l : Ledger κ) : Prop where
  drawn : ∀ p ∈ granted tr, p.2 ≤ l.drawn
  tokens : ((granted tr).map Prod.snd).Nodup
  spent_subset : spent tr ⊆ granted tr
  spent_once : (spent tr).Nodup
  balance : ∀ p, p ∈ l.leases ↔ p ∈ granted tr ∧ p ∉ spent tr
  functional : ∀ key token token', (key, token) ∈ l.leases → (key, token') ∈ l.leases →
    token = token'

theorem accounted_nil (drawn : ℕ) : Accounted [] (⟨∅, drawn⟩ : Ledger κ) where
  drawn := by simp [granted]
  tokens := by simp [granted]
  spent_subset := Subset.refl _
  spent_once := by simp [spent]
  balance := by simp [granted]
  functional := by simp

variable {tr tr' : List (Entry κ)} {l l' : Ledger κ} {key : κ}

section

variable (h : Accounted tr l)
include h

theorem Accounted.fresh : (key, l.drawn + 1) ∉ granted tr := by
  intro hmem
  have hle : l.drawn + 1 ≤ l.drawn := h.drawn _ hmem
  omega

theorem Accounted.grant (hfree : ∀ token, (key, token) ∉ l.leases) :
    Accounted (tr ++ [.grant key (l.drawn + 1)])
      ⟨insert (key, l.drawn + 1) l.leases, l.drawn + 1⟩ where
  drawn := by
    simp only [granted_append, granted_grant, mem_append, mem_singleton]
    rintro p (hp | rfl)
    · exact Nat.le_succ_of_le (h.drawn p hp)
    · exact le_refl _
  tokens := by
    simp only [granted_append, granted_grant, map_append, map_cons, map_nil]
    refine nodup_append_comm.mpr (nodup_cons.mpr ⟨fun htoken => ?_, h.tokens⟩)
    obtain ⟨p, hp, heq⟩ := mem_map.mp htoken
    have hle := h.drawn p hp
    omega
  spent_subset := by
    simp only [granted_append, spent_append, spent_grant, append_nil]
    exact fun p hp => mem_append_left _ (h.spent_subset hp)
  spent_once := by simpa using h.spent_once
  balance := by
    intro p
    have hunspent : (key, l.drawn + 1) ∉ spent tr := fun hmem => h.fresh (h.spent_subset hmem)
    simp only [granted_append, granted_grant, spent_append, spent_grant, append_nil,
      mem_append, mem_singleton, Set.mem_insert_iff, h.balance]
    constructor
    · rintro (rfl | ⟨hgranted, hspent⟩)
      · exact ⟨Or.inr rfl, hunspent⟩
      · exact ⟨Or.inl hgranted, hspent⟩
    rintro ⟨hgranted | rfl, hspent⟩
    · exact Or.inr ⟨hgranted, hspent⟩
    · exact Or.inl rfl
  functional := by
    simp only [Set.mem_insert_iff, Prod.mk.injEq]
    rintro key' token token' (⟨rfl, rfl⟩ | ht) (⟨hkey, rfl⟩ | ht')
    · rfl
    · exact absurd ht' (hfree token')
    · exact absurd (hkey ▸ ht) (hfree token)
    · exact h.functional key' token token' ht ht'

theorem Accounted.spend {token : ℕ} (hleased : (key, token) ∈ l.leases) :
    Accounted (tr ++ [.spend key token]) ⟨l.leases \ {(key, token)}, l.drawn⟩ where
  drawn := by simpa using h.drawn
  tokens := by simpa using h.tokens
  spent_subset := by
    simp only [granted_append, granted_spend, spent_append, spent_spend, append_nil]
    exact append_subset.mpr ⟨h.spent_subset, by simpa using ((h.balance _).mp hleased).1⟩
  spent_once := by
    rw [spent_append, spent_spend]
    exact nodup_append_comm.mpr (nodup_cons.mpr ⟨((h.balance _).mp hleased).2, h.spent_once⟩)
  balance := by
    intro p
    simp [granted_append, granted_spend, spent_append, spent_spend, Set.mem_sdiff,
      Set.mem_singleton_iff, h.balance, and_assoc]
  functional := fun key token token' ht ht' => h.functional key token token' ht.1 ht'.1

theorem Accounted.step {e : Entry κ} (hstep : l.Step e l') : Accounted (tr ++ [e]) l' := by
  cases hstep with
  | keep =>
    exact
      { drawn := by simpa using h.drawn
        tokens := by simpa using h.tokens
        spent_subset := by simpa using h.spent_subset
        spent_once := by simpa using h.spent_once
        balance := by simpa using h.balance
        functional := h.functional }
  | grant hfree => exact h.grant hfree
  | spend hleased => exact h.spend hleased

end

/-- A ledger that starts without leases accounts for its whole trace. -/
theorem accounted_of_run {drawn : ℕ} (h : Run Ledger.Step ⟨∅, drawn⟩ tr l) : Accounted tr l :=
  h.invariant_trace (accounted_nil drawn) fun _ _ _ _ hs hstep => hs.step hstep

/-- A lease whose key was granted again has been spent. -/
theorem spent_of_granted_again {drawn token token' : ℕ}
    (h : Run Ledger.Step ⟨∅, drawn⟩ (tr ++ tr') l) (hfirst : (key, token) ∈ granted tr)
    (hagain : (key, token') ∈ granted tr') : (key, token) ∈ spent (tr ++ tr') := by
  obtain ⟨e, he, hgrant⟩ := mem_filterMap.mp hagain
  obtain ⟨tr₁, tr₂, rfl⟩ := append_of_mem he
  obtain ⟨l₁, h₁, h₂⟩ : ∃ l₁, Run Ledger.Step ⟨∅, drawn⟩ (tr ++ tr₁) l₁ ∧
      Run Ledger.Step l₁ ([e] ++ tr₂) l := by
    apply Run.split
    simpa using h
  obtain ⟨l₂, hstep, -⟩ := h₂.split
  have hfree : ∀ token, (key, token) ∉ l₁.leases := by
    cases Run.single_iff.mp hstep with
    | keep | spend => cases hgrant
    | grant hfree =>
      cases hgrant
      exact hfree
  -- Granted, not leased when the key is granted again, hence spent in between.
  have hspent : (key, token) ∈ spent (tr ++ tr₁) := by
    by_contra hunspent
    refine hfree token (((accounted_of_run h₁).balance _).mpr ⟨?_, hunspent⟩)
    simp [hfirst]
  rw [← append_assoc, spent_append]
  exact mem_append_left _ hspent

end Lease
