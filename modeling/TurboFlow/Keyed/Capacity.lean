import TurboFlow.Keyed.Accounting

/-!
# Closed windows keep their capacity

A window that an advance closes keeps its slot, and its key stays charged until the store is reset.
-/

namespace TurboFlow.Keyed

open Word Version Transition Totals Option

namespace Store

def openBytes (store : Store) : ℕ :=
  total (fun key entry => if entry.value.isSome = true then entryBytes key entry else 0)
    store.entries

def closedSlots (store : Store) (key : Bytes) : ℕ :=
  total (fun key' entry => if entry.value.isNone = true ∧ key' ≠ key then 1 else 0) store.entries

def closedBytes (store : Store) (key : Bytes) : ℕ :=
  total (fun key' entry => if entry.value.isNone = true ∧ key' ≠ key then key'.length else 0)
    store.entries

def Full (store : Store) (key value : Bytes) : Prop :=
  store.config.maxEntries ≤ store.presentSlots ∨
    store.config.maxTotalBytes < store.openBytes + key.length + value.length

def FitsBesideClosed (store : Store) (key value : Bytes) : Prop :=
  store.presentSlots + store.closedSlots key < store.config.maxEntries ∧
    store.openBytes + store.closedBytes key + key.length + value.length ≤ store.config.maxTotalBytes

structure Reaches (store : Store) (t : Txn) : Prop where
  gate : store.gate t = .ok
  unchanged : conflict t.observed (store.lookup t.key) = false
  revision : ∀ entry, store.lookup t.key = some entry → entry.revision ≠ max64

variable {store : Store} {key : Bytes}

def hasSlot (store : Store) (key : Bytes) : ℕ :=
  if (store.lookup key).isSome = true then 1 else 0

/-- A sum over the entries is that over the open windows, the closed ones, and the own slot of a
key. -/
theorem total_split (f : Bytes → Entry → ℕ) (hnew : store.valueAt key = none) :
    total f store.entries =
      total (fun k e => if e.value.isSome = true then f k e else 0) store.entries +
        total (fun k e => if e.value.isNone = true ∧ k ≠ key then f k e else 0) store.entries +
        share f store.entries key := by
  have hsingle := total_single (fun k (e : Entry) => if e.value.isNone = true then f k e else 0)
    store.entries key
  have hshare : share (fun k (e : Entry) => if e.value.isNone = true then f k e else 0)
      store.entries key = share f store.entries key := by
    cases hlookup : store.lookup key with
    | none => rw [share_of_none _ hlookup, share_of_none _ hlookup]
    | some entry =>
      have hvalue : entry.value = none := by simpa [valueAt, hlookup] using hnew
      rw [share_of_lookup _ hlookup, share_of_lookup _ hlookup]
      simp [hvalue]
  rw [← hshare, ← hsingle, ← total_add, ← total_add]
  congr 1
  funext k e
  by_cases hk : k = key
  · cases he : e.value with
    | none => simp [hk]
    | some value => simp
  cases he : e.value with
  | none => simp [hk]
  | some value => simp

theorem slots_split (hnew : store.valueAt key = none) :
    store.slots = store.presentSlots + store.closedSlots key + store.hasSlot key := by
  have hsplit := total_split (fun _ _ => 1) hnew
  rw [slots_eq, presentSlots_eq, hsplit, closedSlots]
  congr 1
  unfold hasSlot
  cases hlookup : store.lookup key with
  | none => rw [share_of_none _ hlookup]; rfl
  | some entry => rw [share_of_lookup _ hlookup]; rfl

theorem chargedBytes_split (hnew : store.valueAt key = none) :
    store.chargedBytes =
      store.openBytes + store.closedBytes key + store.hasSlot key * key.length := by
  have hsplit := total_split entryBytes hnew
  have hclosed : total (fun k (e : Entry) => if e.value.isNone = true ∧ k ≠ key then entryBytes k e
      else 0) store.entries = store.closedBytes key := by
    unfold closedBytes
    congr 1
    funext k e
    cases he : e.value with
    | none => simp [entryBytes, he]
    | some value => simp
  rw [chargedBytes_eq, hsplit, hclosed, openBytes]
  congr 1
  unfold hasSlot
  cases hlookup : store.lookup key with
  | none => rw [share_of_none _ hlookup]; simp
  | some entry =>
    have hvalue : entry.value = none := by simpa [valueAt, hlookup] using hnew
    rw [share_of_lookup _ hlookup]
    simp [entryBytes, hvalue]

theorem bytesWith_eq_none_iff (h : store.Accounted) (hword : store.config.maxTotalBytes ≤ max64)
    (hnew : store.valueAt key = none) (value : Bytes) :
    store.bytesWith key (store.lookup key) value = none ↔
      store.config.maxTotalBytes <
        store.openBytes + store.closedBytes key + key.length + value.length := by
  have hcharged := chargedBytes_split hnew
  rw [← h.bytes] at hcharged
  unfold bytesWith
  cases hlookup : store.lookup key with
  | none =>
    simp only [hasSlot, hlookup, isSome_none, Bool.false_eq_true, if_false,
      Nat.zero_mul] at hcharged
    simp only [bind_none, map_none, getD_none, isNone_none, if_true,
      sub64_of_le (Nat.zero_le _), Nat.sub_zero]
    split
    · simp only [true_iff]
      omega
    split
    · simp only [true_iff]
      omega
    simp only [reduceCtorEq, false_iff]
    omega
  | some entry =>
    have hvalue : entry.value = none := by simpa [valueAt, hlookup] using hnew
    simp only [hasSlot, hlookup, isSome_some, if_true, Nat.one_mul] at hcharged
    simp only [bind_some, hvalue, map_none, getD_none, isNone_some,
      Bool.false_eq_true, if_false, sub64_of_le (Nat.zero_le _), Nat.sub_zero, Nat.add_zero]
    split
    · simp only [true_iff]
      omega
    split
    · simp only [true_iff]
      omega
    simp only [reduceCtorEq, false_iff]
    omega

/-- A put that gets to the checks of the capacity is refused just where its window does not fit
beside the open and the closed ones. -/
theorem commitPut_enospc_iff (value : Bytes) (mapped : Bool) (h : store.Accounted)
    (hword : store.config.maxTotalBytes ≤ max64) (hreaches : store.Reaches t)
    (hnew : store.valueAt t.key = none) :
    (store.commitPut t value mapped).2 = .enospc ↔ ¬ store.FitsBesideClosed t.key value := by
  have hslots := slots_split hnew
  have hle := h.slots_le
  have hbytes := bytesWith_eq_none_iff h hword hnew value
  have hrevision : ¬ (store.lookup t.key).any (fun entry => entry.revision = max64) = true := by
    cases hlookup : store.lookup t.key with
    | none => simp
    | some entry => simpa using hreaches.revision entry hlookup
  -- the slot of the key itself is counted for a window that was closed before
  have hroom : ((store.lookup t.key).isNone = true ∧
      store.entries.entries.length ≥ store.config.maxEntries) ↔
      store.config.maxEntries ≤ store.presentSlots + store.closedSlots t.key := by
    have hlength : store.entries.entries.length = store.slots := rfl
    rw [hlength, hslots]
    cases hlookup : store.lookup t.key with
    | none => simp [hasSlot, hlookup]
    | some entry =>
      simp only [hasSlot, hlookup, isSome_some, if_true] at hslots
      simp only [isNone_some, Bool.false_eq_true, false_and, false_iff]
      omega
  unfold Store.commitPut FitsBesideClosed
  rw [if_neg (by simp [hreaches.gate])]
  simp only [hreaches.unchanged, Bool.false_eq_true, if_false]
  by_cases hfull : store.config.maxEntries ≤ store.presentSlots + store.closedSlots t.key
  · rw [if_pos (hroom.mpr hfull)]
    simp only [true_iff]
    omega
  rw [if_neg fun hc => hfull (hroom.mp hc), if_neg hrevision]
  cases hwith : store.bytesWith t.key (store.lookup t.key) value with
  | none =>
    have := hbytes.mp hwith
    simp only [true_iff]
    omega
  | some newBytes =>
    have hfits : ¬ store.config.maxTotalBytes <
        store.openBytes + store.closedBytes t.key + t.key.length + value.length := by
      intro hc
      rw [hbytes.mpr hc] at hwith
      cases hwith
    have hnot : ∀ x : Store × Status, x.2 ≠ .enospc → (x.2 = .enospc ↔
        ¬ (store.presentSlots + store.closedSlots t.key < store.config.maxEntries ∧
          store.openBytes + store.closedBytes t.key + t.key.length + value.length ≤
            store.config.maxTotalBytes)) := by
      intro x hx
      constructor
      · exact fun heq => absurd heq hx
      intro hc
      omega
    refine hnot _ ?_
    dsimp only
    split <;> simp

theorem commitPut_of_not_reaches (hreaches : ¬ store.Reaches t) :
    (store.commitPut t value mapped).2 ≠ .enospc := by
  unfold Store.commitPut
  by_cases hgate : store.gate t = .ok
  · rw [if_neg (by simp [hgate])]
    dsimp only
    cases hconflict : conflict t.observed (store.lookup t.key) with
    | true => simp
    | false =>
      obtain ⟨entry, hlookup, hrevision⟩ :
          ∃ entry, store.lookup t.key = some entry ∧ entry.revision = max64 := by
        by_contra hnone
        push Not at hnone
        exact hreaches ⟨hgate, hconflict, hnone⟩
      simp [hlookup, hrevision]
  rw [if_pos hgate]
  show store.gate t ≠ .enospc
  unfold Store.gate
  split
  · split <;> simp
  · simp

end Store

theorem windowStoreCreate_maxTotalBytes (h : windowStoreCreate config = some store) :
    store.config.maxTotalBytes = config.maxTotalBytes := by
  unfold windowStoreCreate at h
  split at h
  · cases h
  obtain ⟨base, hbase, rfl⟩ := map_eq_some_iff.mp h
  unfold storeCreate at hbase
  split at hbase
  · cases hbase
    rfl
  · cases hbase

/-- In every run, an event whose commit would open a window is refused for want of capacity just
where the window does not fit beside the open windows and those closed before. A commit that does
not get to these checks is refused for another reason. -/
theorem window_refused_iff_not_fits {config : WindowStoreConfig} {store : Store}
    {tr : List (WindowOperation × WindowOutcome)} {s s' : WindowSystem} {id : ℕ} {t : Txn}
    {value : Bytes} {mapped : Bool} {key : Bytes} {closeAtNs : ℕ} {rc : Status}
    {left : Option Bytes} (hcreate : windowStoreCreate config = some store)
    (hword : config.maxTotalBytes ≤ max64)
    (hrun : Run (Acts windowAct) (WindowSystem.init store) tr s)
    (hevent : s.events id = some (.opened t)) (hstatus : t.status = .ok)
    (hput : t.mutation = .put value) (hnew : s.store.valueAt t.key = none)
    (hact : windowAct s (.commit id .ok mapped) = some (s', .committed key closeAtNs rc left)) :
    (s.store.Reaches t → (rc = .enospc ↔ ¬ s.store.FitsBesideClosed t.key value)) ∧
      (¬ s.store.Reaches t → rc ≠ .enospc) := by
  obtain ⟨cs, hcs⟩ := changes_of_windowRun hrun
  have haccounted := accounted_of_run (.inr ⟨config, hcreate⟩) hcs
  have hlimit : s.store.config.maxTotalBytes ≤ max64 := by
    rw [config_of_run hcs, windowStoreCreate_maxTotalBytes hcreate]
    exact hword
  have hrc : rc = (s.store.commitPut t value mapped).2 := by
    unfold windowAct at hact
    split at hact
    · cases hact
    simp only [windowStep, hevent, some.injEq, Prod.mk.injEq, WindowOutcome.committed.injEq] at hact
    rw [← hact.2.2.2.1]
    simp [Store.close, Store.commit, hstatus, hput]
  refine ⟨fun hreaches => ?_, fun hreaches => ?_⟩
  · rw [hrc]
    exact Store.commitPut_enospc_iff value mapped haccounted hlimit hreaches hnew
  rw [hrc]
  exact Store.commitPut_of_not_reaches hreaches

def secondWindow : List WindowOperation :=
  [.enter 0 (.ok [7]) 12, .snapshot 0 true, .call 0 (.put [1] true), .commit 0 .ok true,
    .reserve 25, .publish .ok 8, .close ⟨.ok, .ok, true, .ok⟩, .finish,
    .enter 0 (.ok [7]) 41, .snapshot 0 true, .call 0 (.put [2] true)]

/-- With two windows the second one fits beside the first, which is closed. -/
theorem window_refused_iff_not_fits_secondWindow :
    ∃ store s outs t, windowStoreCreate ⟨2, 16, 16, 64, 10, 5⟩ = some store ∧
      exec windowAct (WindowSystem.init store) secondWindow = some (s, outs) ∧
      s.events 0 = some (.opened t) ∧ s.store.Reaches t ∧
      (Status.ok = .enospc ↔ ¬ s.store.FitsBesideClosed t.key [2]) := by
  refine ⟨_, _, _, _, and_of_imp rfl fun hcreate => and_of_imp rfl fun hexec =>
    and_of_imp rfl fun hevent => and_of_imp ⟨rfl, rfl, fun _ h => by cases h⟩ fun hreaches => ?_⟩
  exact (window_refused_iff_not_fits hcreate (by decide) (run_of_exec hexec) hevent rfl rfl rfl
    (show windowAct _ (.commit 0 .ok true) = some (_, .committed _ _ .ok _) from rfl)).1 hreaches

/-- With one window the second one is refused, although no window is open. -/
theorem closed_window_keeps_slot :
    ∃ store s outs t s' left, windowStoreCreate ⟨1, 16, 16, 64, 10, 5⟩ = some store ∧
      exec windowAct (WindowSystem.init store) secondWindow = some (s, outs) ∧
      s.events 0 = some (.opened t) ∧ t.mutation = .put [2] ∧
      windowAct s (.commit 0 .ok true) =
        some (s', .committed (eventTimeKey 40 [7]) 55 .enospc left) ∧
      s.store.presentSlots = 0 ∧ ¬ s.store.Full t.key [2] :=
  ⟨_, _, _, _, _, _, rfl, rfl, rfl, rfl, rfl, rfl, fun h => h.elim (by decide) (by decide)⟩

end TurboFlow.Keyed
