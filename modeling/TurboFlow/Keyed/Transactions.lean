import TurboFlow.Keyed.Store
import TurboFlow.Lib.Run

/-!
# Interleaved transactions on one store

Any number of processors have transactions open on one store. `act` performs one atomic step: the
snapshot of a new transaction, a call of a callback, or the close, which reports the transaction.

The committed transactions are serializable in commit order: run one after the other, they give
every callback the same answers and end in the same store.
-/

namespace TurboFlow.Keyed

open Word Version Transition List Option

structure Session where
  txn : Txn
  log : List (Call × Answer)

structure Transaction where
  key : Bytes
  log : List (Call × Answer)
  callback : Status
  mapped : Bool

structure System where
  store : Store
  sessions : ℕ → Option Session

inductive Operation
  | open (id : ℕ) (selected : Except Status Bytes) (copied : Bool)
  | call (id : ℕ) (c : Call)
  | close (id : ℕ) (callback : Status) (mapped : Bool)

inductive Outcome
  | refused (rc : Status)
  | opened
  | answered (answer : Answer)
  | closed (transaction : Transaction) (rc : Status)

def System.init (store : Store) : System := ⟨store, fun _ => none⟩

def act (s : System) : Operation → Option (System × Outcome)
  | .open id selected copied =>
    match s.sessions id with
    | some _ => none
    | none =>
      match s.store.keyOf selected copied with
      | .error rc => some (s, .refused rc)
      | .ok key =>
        let session : Session := ⟨Txn.snapshot s.store key none, []⟩
        some ({ s with sessions := Function.update s.sessions id (some session) }, .opened)
  | .call id c =>
    match s.sessions id with
    | none => none
    | some session =>
      let called := session.txn.call s.store.config.maxValueSize c
      let session : Session := ⟨called.1, session.log ++ [(c, called.2)]⟩
      some ({ s with sessions := Function.update s.sessions id (some session) }, .answered called.2)
  | .close id callback mapped =>
    match s.sessions id with
    | none => none
    | some session =>
      let closed := s.store.close session.txn callback mapped
      some (⟨closed.1, Function.update s.sessions id none⟩,
        .closed ⟨session.txn.key, session.log, callback, mapped⟩ closed.2)

section Calls

theorem calls_append (t : Txn) (n : ℕ) (cs : List Call) (c : Call) :
    t.calls n (cs ++ [c]) =
      (((t.calls n cs).1.call n c).1, (t.calls n cs).2 ++ [((t.calls n cs).1.call n c).2]) := by
  induction cs generalizing t with
  | nil => rfl
  | cons c' cs ih => simp [Txn.calls, ih]

theorem call_frame (t : Txn) (n : ℕ) (c : Call) :
    (t.call n c).1.key = t.key ∧ (t.call n c).1.observed = t.observed ∧
      (t.call n c).1.closeAt = t.closeAt := by
  cases c with
  | get => exact ⟨rfl, rfl, rfl⟩
  | put value copied =>
    simp only [Txn.call, Txn.put]
    split
    · exact ⟨rfl, rfl, rfl⟩
    split
    · exact ⟨rfl, rfl, rfl⟩
    split <;> exact ⟨rfl, rfl, rfl⟩
  | delete =>
    simp only [Txn.call, Txn.delete]
    split
    · exact ⟨rfl, rfl, rfl⟩
    split <;> exact ⟨rfl, rfl, rfl⟩

end Calls

structure Session.Valid (session : Session) (store : Store) : Prop where
  replay : (Txn.start session.txn.key session.txn.observed none).calls store.config.maxValueSize
    (session.log.map Prod.fst) = (session.txn, session.log.map Prod.snd)
  later : Later session.txn.observed (store.lookup session.txn.key)

def System.Valid (s : System) : Prop :=
  ∀ id session, s.sessions id = some session → session.Valid s.store

variable {id : ℕ} {store : Store} {callback : Status} {mapped : Bool} {session : Session}
  {tr : List (Operation × Outcome)}

theorem Session.Valid.mono (h : session.Valid store) (hconfig : store'.config = store.config)
    (hlater : ∀ key, Later (store.lookup key) (store'.lookup key)) : session.Valid store' where
  replay := by
    rw [hconfig]
    exact h.replay
  later := h.later.trans (hlater _)

theorem System.Valid.update {s : System} (h : s.Valid) {session : Option Session}
    (hconfig : store.config = s.store.config)
    (hlater : ∀ key, Later (s.store.lookup key) (store.lookup key))
    (hsession : ∀ x, session = some x → x.Valid store) :
    System.Valid ⟨store, Function.update s.sessions id session⟩ := by
  intro i x hx
  by_cases hi : i = id
  · subst hi
    exact hsession x (by simpa using hx)
  simp only [Function.update_of_ne hi] at hx
  exact (h i x hx).mono hconfig hlater

section Steps

theorem later_act (hact : act s op = some (s', out)) :
    s'.store.config = s.store.config ∧
      ∀ key, Later (s.store.lookup key) (s'.store.lookup key) := by
  have hsame : s'.store = s.store → s'.store.config = s.store.config ∧
      ∀ key, Later (s.store.lookup key) (s'.store.lookup key) := by
    intro h
    rw [h]
    exact ⟨rfl, fun _ => Later.refl _⟩
  cases op with
  | «open» id selected copied =>
    rw [act] at hact
    split at hact
    · cases hact
    · split at hact <;> obtain ⟨rfl, -⟩ := Prod.mk.inj (some.inj hact) <;> exact hsame rfl
  | call id c =>
    rw [act] at hact
    split at hact
    · cases hact
    cases hact
    exact hsame rfl
  | close id callback mapped =>
    rw [act] at hact
    split at hact
    · cases hact
    rename_i session _
    cases hact
    rcases Store.close_spec (rfl : s.store.close session.txn callback mapped = _) with
      ⟨-, hstore⟩ | ⟨-, hcommitted, -⟩
    · exact hsame hstore
    · exact ⟨hcommitted.config, hcommitted.later⟩

theorem System.Valid.step (h : s.Valid) (hact : act s op = some (s', out)) : s'.Valid := by
  obtain ⟨hconfig, hlater⟩ := later_act hact
  cases op with
  | «open» id selected copied =>
    rw [act] at hact
    split at hact
    · cases hact
    split at hact
    · cases hact
      exact h
    cases hact
    refine h.update hconfig hlater fun x hx => ?_
    cases hx
    exact ⟨rfl, Later.refl _⟩
  | call id c =>
    rw [act] at hact
    split at hact
    · cases hact
    rename_i session hsession
    cases hact
    refine h.update hconfig hlater fun x hx => ?_
    cases hx
    obtain ⟨hkey, hobserved, -⟩ := call_frame session.txn s.store.config.maxValueSize c
    have hvalid := h id session hsession
    refine ⟨?_, ?_⟩ <;> dsimp only
    · rw [hkey, hobserved, map_append, map_append, map_singleton,
        map_singleton, calls_append, hvalid.replay]
    rw [hkey, hobserved]
    exact hvalid.later
  | close id callback mapped =>
    rw [act] at hact
    split at hact
    · cases hact
    cases hact
    exact h.update hconfig hlater fun x hx => by cases hx

end Steps

def serialStep (store : Store) (t : Transaction) (store' : Store) : Prop :=
  store.execute t.key (t.log.map Prod.fst) t.callback t.mapped = (store', t.log.map Prod.snd, .ok)

def committedBy (e : Operation × Outcome) : List Transaction :=
  match e.2 with
  | .closed transaction .ok => [transaction]
  | _ => []

def committed (tr : List (Operation × Outcome)) : List Transaction :=
  tr.flatMap committedBy

theorem System.Valid.observed {s s' : System} (h : s.Valid)
    (hsession : s.sessions id = some session)
    (hclose : s.store.close session.txn callback mapped = (s'.store, .ok)) :
    session.txn.observed = s.store.lookup session.txn.key ∧
      Store.Committed s.store session.txn s'.store := by
  rcases Store.close_spec hclose with ⟨hne, -⟩ | ⟨-, hcommitted, -⟩
  · exact absurd rfl hne
  · exact ⟨((h id session hsession).later.eq_of_not_conflict hcommitted.unchanged).symm, hcommitted⟩

theorem System.Valid.serial {s s' : System} (h : s.Valid) (hsession : s.sessions id = some session)
    (hclose : s.store.close session.txn callback mapped = (s'.store, .ok)) :
    serialStep s.store ⟨session.txn.key, session.log, callback, mapped⟩ s'.store := by
  have hreplay := (h id session hsession).replay
  rw [(h.observed hsession hclose).1] at hreplay
  simp only [serialStep, Store.execute, Txn.snapshot, hreplay, hclose]

theorem valid_of_run {s : System} (h : Run (Acts act) (System.init store) tr s) : s.Valid := by
  refine h.invariant ?_ fun _ _ _ hs hact => hs.step hact
  intro id session hsession
  cases hsession

theorem System.Valid.serial_act {s s' : System} {op : Operation} {out : Outcome} (h : s.Valid)
    (hact : act s op = some (s', out)) :
    Run serialStep s.store (committedBy (op, out)) s'.store := by
  cases op with
  | «open» id selected copied =>
    rw [act] at hact
    split at hact
    · cases hact
    · split at hact <;> obtain ⟨rfl, rfl⟩ := Prod.mk.inj (some.inj hact) <;> exact Run.nil
  | call id c =>
    rw [act] at hact
    split at hact
    · cases hact
    cases hact
    exact Run.nil
  | close id callback mapped =>
    rw [act] at hact
    split at hact
    · cases hact
    rename_i session hsession
    obtain ⟨hs', rfl⟩ := Prod.mk.inj (some.inj hact)
    have hclose : s.store.close session.txn callback mapped =
        (s'.store, (s.store.close session.txn callback mapped).2) := by rw [← hs']
    rcases Store.close_spec hclose with ⟨hne, hstore⟩ | ⟨hok, -⟩
    · rw [hstore]
      have hnone : committedBy (.close id callback mapped,
          .closed ⟨session.txn.key, session.log, callback, mapped⟩
            (s.store.close session.txn callback mapped).2) = [] := by
        unfold committedBy
        split
        · rename_i heq
          exact absurd (Outcome.closed.inj heq).2 hne
        · rfl
      rw [hnone]
      exact Run.nil
    rw [hok] at hclose ⊢
    exact Run.single_iff.mpr (h.serial hsession hclose)

theorem serial_of_run {s : System} (h : Run (Acts act) (System.init store) tr s) :
    Run serialStep store (committed tr) s.store := by
  have hstart : (System.init store).Valid ∧ store = (System.init store).store :=
    ⟨valid_of_run Run.nil, rfl⟩
  obtain ⟨_, hserial, -, rfl⟩ := h.refine (R := fun s store => s.Valid ∧ store = s.store)
    committedBy hstart (by
      rintro s e s' _ ⟨hvalid, rfl⟩ hact
      exact ⟨s'.store, hvalid.serial_act hact, hvalid.step hact, rfl⟩)
  exact hserial

/-- Transactions are serializable in commit order. In every run, the committed transactions have the
effect and their callbacks got the answers of a serial run; one that commits observed what is stored
right before its commit, and its staged mutation is stored behind it; a close that fails changes
nothing; and a revision that is found again belongs to the same entry. -/
theorem keyed_serializable {store : Store} {tr : List (Operation × Outcome)} {s : System}
    (h : Run (Acts act) (System.init store) tr s) :
    Run serialStep store (committed tr) s.store ∧
      (∀ id session callback mapped s' transaction rc, s.sessions id = some session →
        act s (.close id callback mapped) = some (s', .closed transaction rc) →
          (rc ≠ .ok → s'.store = s.store) ∧
          (rc = .ok → session.txn.observed = s.store.lookup session.txn.key ∧
            s'.store.lookup session.txn.key =
              Store.mutated (s.store.lookup session.txn.key) session.txn.mutation ∧
            ∀ key, key ≠ session.txn.key → s'.store.lookup key = s.store.lookup key)) ∧
      ∀ tr' s' key, Run (Acts act) s tr' s' →
        Later (s.store.lookup key) (s'.store.lookup key) := by
  have hvalid := valid_of_run h
  refine ⟨serial_of_run h, ?_, ?_⟩
  · intro id session callback mapped s' transaction rc hsession hact
    simp only [act, hsession] at hact
    obtain ⟨hs', hout⟩ := Prod.mk.inj (some.inj hact)
    have hclose : s.store.close session.txn callback mapped = (s'.store, rc) :=
      Prod.ext (congrArg System.store hs') (Outcome.closed.inj hout).2
    refine ⟨fun hne => ?_, ?_⟩
    · rcases Store.close_spec hclose with ⟨-, hstore⟩ | ⟨hok, -⟩
      · exact hstore
      · exact absurd hok hne
    rintro rfl
    obtain ⟨hobserved, hcommitted⟩ := hvalid.observed hsession hclose
    exact ⟨hobserved, hcommitted.written, hcommitted.others⟩
  intro tr' s' key hrun
  refine hrun.invariant (P := fun s' => Later (s.store.lookup key) (s'.store.lookup key))
    (Later.refl _) ?_
  intro t e t' hlater hact
  exact hlater.trans ((later_act hact).2 key)

def insertDeleteInsert : List Operation :=
  [.open 0 (.ok [7]) true, .call 0 (.put [1] true), .close 0 .ok true,
    .open 1 (.ok [7]) true, .call 1 .get,
    .open 2 (.ok [7]) true, .call 2 .delete, .close 2 .ok true,
    .open 3 (.ok [7]) true, .call 3 (.put [1] true), .close 3 .ok true,
    .call 1 (.put [2] true), .close 1 .ok true]

/-- The processor that read the value before it was deleted and put back does not commit. -/
theorem keyed_serializable_insertDeleteInsert :
    ∃ store s outs, storeCreate ⟨4, 16, 16, 64⟩ = some store ∧
        exec act (System.init store) insertDeleteInsert = some (s, outs) ∧
        s.store.lookup [7] = some ⟨some [1], 3⟩ ∧
        (committed (insertDeleteInsert.zip outs)).length = 3 ∧
        Run serialStep store (committed (insertDeleteInsert.zip outs)) s.store := by
  exact ⟨_, _, _, rfl, and_of_imp rfl fun hexec => ⟨rfl, rfl,
    (keyed_serializable (run_of_exec hexec)).1⟩⟩

end TurboFlow.Keyed
