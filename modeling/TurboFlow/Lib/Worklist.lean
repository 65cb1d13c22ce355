import Mathlib.Data.List.Nodup
import Mathlib.Algebra.Order.Ring.Int

/-!
# Fallible loops and worklists

`Ends P E r` says that a fallible computation ends with a value in `P` or an error in `E`. It
composes over `>>=`, over a loop through a list and over `drain`, which walks along a queue while
its body appends to it.

A queue is kept whole and read at a growing position. The loop rule asks for a bound on its length,
and fuel above that bound is never used up.
-/

namespace Fallible

open List

universe u

variable {ε : Type*} {α β σ : Type u}

/-- The computation returns a value in `P` or fails with an error in `E`. -/
def Ends (P : α → Prop) (E : ε → Prop) : Except ε α → Prop
  | .ok a => P a
  | .error e => E e

variable {P Q : α → Prop} {E : ε → Prop}

@[simp]
theorem ends_ok {a : α} : Ends P E (.ok a) ↔ P a := Iff.rfl

@[simp]
theorem ends_error {e : ε} : Ends P E (.error e) ↔ E e := Iff.rfl

variable {r : Except ε α} {f : α → Except ε β}

theorem bind_eq_ok {b : β} : r >>= f = .ok b ↔ ∃ a, r = .ok a ∧ f a = .ok b := by
  cases r with
  | ok a =>
    constructor
    · intro h
      exact ⟨a, rfl, h⟩
    rintro ⟨a', ha, h⟩
    cases ha
    exact h
  | error e =>
    constructor
    · intro h
      cases h
    rintro ⟨a', ha, -⟩
    cases ha

namespace Ends

theorem mono {F : ε → Prop} (h : Ends P E r) (hP : ∀ a, P a → Q a) (hE : ∀ e, E e → F e) :
    Ends Q F r := by
  cases r with
  | ok a => exact hP a h
  | error e => exact hE e h

theorem bind {R : β → Prop} (h : Ends P E r) (hf : ∀ a, P a → Ends R E (f a)) :
    Ends R E (r >>= f) := by
  cases r with
  | ok a => exact hf a h
  | error e => exact h

/-- The loop rule for a list: the invariant mentions the elements that are still to come. -/
theorem foldlM {I : List β → α → Prop} {f : α → β → Except ε α}
    (hf : ∀ b rest a, I (b :: rest) a → Ends (I rest) E (f a b)) :
    ∀ (l : List β) (a : α), I l a → Ends (I []) E (l.foldlM f a)
  | [], _, h => h
  | b :: rest, a, h => by
    rw [foldlM_cons]
    exact bind (hf b rest a h) fun a' h' => foldlM hf rest a' h'

end Ends

/-- Process the queue of the state from position `head` on. The body may append to the queue. -/
def drain (queue : σ → List β) (body : β → σ → Except ε σ) (exhausted : σ → ε) :
    ℕ → ℕ → σ → Except ε σ
  | 0, _, s => .error (exhausted s)
  | fuel + 1, head, s =>
    match (queue s)[head]? with
    | none => .ok s
    | some b => body b s >>= drain queue body exhausted fuel (head + 1)

/-- The loop rule for a worklist: the position stays inside the queue and the queue below the bound
`n`. -/
theorem Ends.drain {q : σ → List β} {f : β → σ → Except ε σ} {x : σ → ε} {I : ℕ → σ → Prop} {n : ℕ}
    (hbound : ∀ head s, I head s → head ≤ (q s).length ∧ (q s).length ≤ n)
    (hbody : ∀ head s b, I head s → (q s)[head]? = some b → Ends (I (head + 1)) E (f b s)) :
    ∀ (fuel head : ℕ) (s : σ), I head s → n < fuel + head →
      Ends (fun s' => I (q s').length s') E (Fallible.drain q f x fuel head s)
  | 0, head, s, hI, hfuel => by
    have := hbound head s hI
    omega
  | fuel + 1, head, s, hI, hfuel => by
    rw [Fallible.drain]
    cases hb : (q s)[head]? with
    | none =>
      have hlength : head = (q s).length :=
        Nat.le_antisymm (hbound head s hI).1 (List.getElem?_eq_none_iff.mp hb)
      exact hlength ▸ hI
    | some b =>
      exact bind (hbody head s b hI hb) fun s' hI' =>
        Ends.drain hbound hbody fuel (head + 1) s' hI' (by omega)

theorem countP_ne_add_one [DecidableEq β] {l : List β} {b : β} {p : β → Bool} (hl : l.Nodup)
    (hb : b ∈ l) (hp : p b = true) : l.countP (fun x => p x && x != b) + 1 = l.countP p := by
  have hperm := (perm_cons_erase hb).countP_eq p
  rw [countP_cons_of_pos hp, hl.erase_eq_filter, countP_filter] at hperm
  exact hperm.symm

end Fallible
