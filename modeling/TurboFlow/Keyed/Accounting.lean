import TurboFlow.Keyed.Window
import TurboFlow.Lib.Totals

/-!
# The account of a store

A store counts its bytes, those of all keys and of the values of present entries, and its present
entries. `Accounted` says that the counters are these sums and keep to the limits.
-/

namespace TurboFlow.Keyed

open Word Version Transition Totals Option

def entryBytes (key : Bytes) (entry : Entry) : ℕ :=
  key.length + (entry.value.map List.length).getD 0

namespace Store

def reset (store : Store) : Store :=
  { store with
    entries := ∅
    currentBytes := 0
    presentCount := 0
    watermark := none
    watermarkAdvancing := false }

def slots (store : Store) : ℕ :=
  store.entries.entries.length

def presentSlots (store : Store) : ℕ :=
  store.entries.entries.countP fun e => e.2.value.isSome

def chargedBytes (store : Store) : ℕ :=
  (store.entries.entries.map fun e => entryBytes e.1 e.2).sum

structure Accounted (store : Store) : Prop where
  config : configValid store.config = true
  bytes : store.currentBytes = store.chargedBytes
  present : store.presentCount = store.presentSlots
  slots_le : store.slots ≤ store.config.maxEntries
  bytes_le : store.currentBytes ≤ store.config.maxTotalBytes

section Totals

theorem chargedBytes_eq (store : Store) : store.chargedBytes = total entryBytes store.entries := rfl

theorem presentSlots_eq (store : Store) :
    store.presentSlots =
      total (fun _ entry => if entry.value.isSome = true then 1 else 0) store.entries :=
  countP_eq_total (fun _ (entry : Entry) => entry.value.isSome) store.entries

theorem slots_eq (store : Store) : store.slots = total (fun _ _ => 1) store.entries :=
  length_eq_total store.entries

theorem presentSlots_le_slots (store : Store) : store.presentSlots ≤ store.slots :=
  List.countP_le_length

variable {store : Store}

theorem share_of_lookup (f : Bytes → Entry → ℕ) (h : store.lookup key = some entry) :
    share f store.entries key = f key entry := by
  have : store.entries.lookup key = some entry := h
  simp [share, this]

theorem share_of_none (f : Bytes → Entry → ℕ) (h : store.lookup key = none) :
    share f store.entries key = 0 := by
  have : store.entries.lookup key = none := h
  simp [share, this]

theorem length_le_chargedBytes (h : store.valueAt key = some value) :
    value.length ≤ store.chargedBytes ∧ 1 ≤ store.presentSlots := by
  obtain ⟨entry, hlookup, hvalue⟩ := bind_eq_some_iff.mp h
  have hbytes := share_le_total entryBytes store.entries key
  have hpresent :=
    share_le_total (fun _ (entry : Entry) => if entry.value.isSome = true then 1 else 0)
    store.entries key
  rw [share_of_lookup _ hlookup] at hbytes hpresent
  rw [chargedBytes_eq, presentSlots_eq]
  simp only [hvalue, isSome_some, if_true] at hpresent
  simp only [entryBytes, hvalue, map_some, getD_some] at hbytes
  omega

end Totals

section Commits

variable {store : Store}

section

variable (h : store.Accounted)

include h

theorem Accounted.maxEntries_lt : store.config.maxEntries < max64 := by
  have hvalid := h.config
  simp only [configValid, decide_eq_true_eq] at hvalid
  simp only [maxEntriesLimit] at hvalid
  simp only [max64]
  omega

theorem bytesWith_eq (hbytes : store.bytesWith key (store.lookup key) value = some newBytes)
    (revision : ℕ) :
    newBytes = (store.insert key ⟨some value, revision⟩).chargedBytes ∧
      newBytes ≤ store.config.maxTotalBytes := by
  have hinsert := total_insert entryBytes store.entries key ⟨some value, revision⟩
  have hcharged := h.bytes
  rw [chargedBytes_eq] at hcharged
  unfold bytesWith at hbytes
  cases hlookup : store.lookup key with
  | none =>
    rw [share_of_none _ hlookup] at hinsert
    simp only [hlookup, bind_none, map_none, getD_none, isNone_none,
      if_true, sub64_of_le (Nat.zero_le _), Nat.sub_zero] at hbytes
    split at hbytes
    · cases hbytes
    split at hbytes
    · cases hbytes
    cases hbytes
    rw [chargedBytes_eq]
    simp only [insert, entryBytes, map_some, getD_some] at hinsert ⊢
    omega
  | some entry =>
    rw [share_of_lookup _ hlookup] at hinsert
    have hle : (entry.value.map List.length).getD 0 ≤ store.currentBytes := by
      have hshare := share_le_total entryBytes store.entries key
      rw [share_of_lookup _ hlookup] at hshare
      simp only [entryBytes] at hshare
      omega
    simp only [hlookup, bind_some, isNone_some, Bool.false_eq_true, if_false,
      sub64_of_le hle, Nat.add_zero] at hbytes
    split at hbytes
    · cases hbytes
    split at hbytes
    · cases hbytes
    cases hbytes
    rw [chargedBytes_eq]
    simp only [insert, entryBytes, map_some, getD_some] at hinsert ⊢
    omega

theorem Accounted.commitPut : (store.commitPut t value mapped).1.Accounted := by
  unfold Store.commitPut
  split
  · exact h
  dsimp only
  split
  · exact h
  split
  · exact h
  rename_i hroom
  split
  · exact h
  split
  · exact h
  rename_i newBytes hbytes
  split
  · exact h
  set revision := ((store.lookup t.key).map Cell.revision).getD 0 + 1
  obtain ⟨hcharged, hle⟩ := bytesWith_eq h hbytes revision
  have hslots := total_insert (fun _ _ => 1) store.entries t.key (⟨some value, revision⟩ : Entry)
  have hpresent := total_insert (fun _ (e : Entry) => if e.value.isSome = true then 1 else 0)
    store.entries t.key ⟨some value, revision⟩
  have hslots_le := h.slots_le
  have hpresent_le := presentSlots_le_slots store
  have hmax := h.maxEntries_lt
  have hcount := h.present
  rw [presentSlots_eq] at hcount hpresent_le
  rw [slots_eq] at hslots_le hpresent_le
  simp only [isSome_some, if_true] at hpresent
  refine ⟨h.config, hcharged, ?_, ?_, hle⟩
  · show _ = presentSlots (store.insert t.key ⟨some value, revision⟩)
    rw [presentSlots_eq]
    simp only [insert]
    cases hlookup : store.lookup t.key with
    | none =>
      rw [share_of_none _ hlookup] at hpresent
      simp only [bind_none, isSome_none, Bool.false_eq_true, if_false]
      rw [add64_of_le (by omega)]
      omega
    | some entry =>
      rw [share_of_lookup _ hlookup] at hpresent
      cases hvalue : entry.value with
      | none =>
        simp only [hvalue, bind_some, isSome_none, Bool.false_eq_true, if_false] at hpresent ⊢
        rw [add64_of_le (by omega)]
        omega
      | some old =>
        simp only [hvalue, bind_some, isSome_some, if_true] at hpresent ⊢
        omega
  show slots (store.insert t.key ⟨some value, revision⟩) ≤ store.config.maxEntries
  rw [slots_eq]
  simp only [insert]
  cases hlookup : store.lookup t.key with
  | none =>
    -- a new slot is opened below the limit only
    rw [share_of_none _ hlookup] at hslots
    have hlt : store.slots < store.config.maxEntries := by
      simpa [hlookup, slots] using hroom
    rw [slots_eq] at hlt
    omega
  | some entry =>
    rw [share_of_lookup _ hlookup] at hslots
    omega

theorem Accounted.commitDelete : (store.commitDelete t mapped).1.Accounted := by
  unfold Store.commitDelete
  split
  · exact h
  dsimp only
  split
  · exact h
  split
  · rename_i value revision hlookup
    split
    · exact h
    split
    · exact h
    have hbytes := total_insert entryBytes store.entries t.key (⟨none, revision + 1⟩ : Entry)
    have hslots := total_insert (fun _ _ => 1) store.entries t.key (⟨none, revision + 1⟩ : Entry)
    have hpresent := total_insert (fun _ (e : Entry) => if e.value.isSome = true then 1 else 0)
      store.entries t.key ⟨none, revision + 1⟩
    rw [share_of_lookup _ hlookup] at hbytes hslots hpresent
    have hvalueAt : store.valueAt t.key = some value := by simp [valueAt, hlookup]
    obtain ⟨hvalue_le, hone_le⟩ := length_le_chargedBytes hvalueAt
    have hcharged := h.bytes
    have hcount := h.present
    have hslots_le := h.slots_le
    have hbytes_le := h.bytes_le
    rw [chargedBytes_eq] at hcharged hvalue_le
    rw [presentSlots_eq] at hcount hone_le
    rw [slots_eq] at hslots_le
    simp only [entryBytes, map_some, map_none, getD_some, getD_none] at hbytes
    simp only [isSome_some, isSome_none, if_true, Bool.false_eq_true, if_false] at hpresent
    refine ⟨h.config, ?_, ?_, ?_, ?_⟩
    · show sub64 store.currentBytes value.length =
        chargedBytes (store.insert t.key ⟨none, revision + 1⟩)
      rw [chargedBytes_eq, sub64_of_le (by omega)]
      simp only [insert]
      omega
    · show sub64 store.presentCount 1 = presentSlots (store.insert t.key ⟨none, revision + 1⟩)
      rw [presentSlots_eq, sub64_of_le (by omega)]
      simp only [insert]
      omega
    · show slots (store.insert t.key ⟨none, revision + 1⟩) ≤ store.config.maxEntries
      rw [slots_eq]
      simp only [insert]
      omega
    show sub64 store.currentBytes value.length ≤ store.config.maxTotalBytes
    rw [sub64_of_le (by omega)]
    omega
  · exact h

theorem Accounted.commit : (store.commit t mapped).1.Accounted := by
  unfold Store.commit
  split
  · exact h
  · exact h.commitPut
  · exact h.commitDelete

theorem Accounted.setWatermark (watermark : Option ℕ) (advancing : Bool) :
    ({ store with watermark, watermarkAdvancing := advancing } : Store).Accounted :=
  ⟨h.config, h.bytes, h.present, h.slots_le, h.bytes_le⟩

end

theorem accounted_empty (hconfig : configValid store.config = true) : store.reset.Accounted :=
  ⟨hconfig, rfl, rfl, Nat.zero_le _, Nat.zero_le _⟩

end Commits

end Store

/-! ### Sequences of commits and resets -/

/-- What changes a store: a commit, the section of an advance that sets the watermark, and a
reset. -/
inductive Change
  | commit (t : Txn) (mapped : Bool)
  | watermark (watermark : Option ℕ) (advancing : Bool)
  | reset

def Store.change (store : Store) : Change → Option (Store × Status)
  | .commit t mapped => some (store.commit t mapped)
  | .watermark watermark advancing =>
    some ({ store with watermark, watermarkAdvancing := advancing }, .ok)
  | .reset => some (store.reset, .ok)

def Created (store : Store) : Prop :=
  (∃ config, storeCreate config = some store) ∨ ∃ config, windowStoreCreate config = some store

variable {store : Store}

theorem storeCreate_accounted (h : storeCreate config = some store) : store.Accounted := by
  unfold storeCreate at h
  split at h
  · rename_i hvalid
    cases h
    exact ⟨hvalid, rfl, rfl, Nat.zero_le _, Nat.zero_le _⟩
  · cases h

theorem Created.accounted (h : Created store) : store.Accounted := by
  rcases h with ⟨config, h⟩ | ⟨config, h⟩
  · exact storeCreate_accounted h
  unfold windowStoreCreate at h
  split at h
  · cases h
  obtain ⟨base, hbase, rfl⟩ := map_eq_some_iff.mp h
  have hacc := storeCreate_accounted hbase
  exact ⟨hacc.config, hacc.bytes, hacc.present, hacc.slots_le, hacc.bytes_le⟩

variable {rc : Status} {store₀ : Store} {tr : List (Change × Status)}

theorem Store.Accounted.change (h : store.Accounted)
    (hchange : store.change c = some (store', rc)) : store'.Accounted := by
  cases c with
  | commit t mapped =>
    obtain rfl : (store.commit t mapped).1 = store' := congrArg Prod.fst (some.inj hchange)
    exact h.commit
  | watermark watermark advancing =>
    obtain rfl := congrArg Prod.fst (some.inj hchange)
    exact h.setWatermark watermark advancing
  | reset =>
    obtain rfl := congrArg Prod.fst (some.inj hchange)
    exact Store.accounted_empty h.config

theorem Store.change_config (hchange : store.change c = some (store', rc)) :
    store'.config = store.config := by
  cases c with
  | commit t mapped =>
    rcases Store.commit_spec (some.inj hchange) with ⟨-, rfl⟩ | ⟨-, hcommitted⟩
    · rfl
    · exact hcommitted.config
  | watermark watermark advancing | reset =>
    obtain rfl := congrArg Prod.fst (some.inj hchange)
    rfl

theorem config_of_run (hrun : Run (Acts Store.change) store₀ tr store) :
    store.config = store₀.config :=
  hrun.invariant (P := fun store => store.config = store₀.config) rfl
    fun _ _ _ h hstep => (Store.change_config hstep).trans h

theorem accounted_of_run (hcreated : Created store₀)
    (hrun : Run (Acts Store.change) store₀ tr store) : store.Accounted :=
  hrun.invariant hcreated.accounted fun _ _ _ h hstep => h.change hstep

/-- In every state that commits and resets reach, the counters are the sums over the slots within
the limits, the subtractions of a commit do not underflow, and a failed commit changes nothing. -/
theorem counters_accounted {store₀ store : Store} {tr : List (Change × Status)}
    (hcreated : Created store₀) (hrun : Run (Acts Store.change) store₀ tr store) :
    store.currentBytes = store.chargedBytes ∧ store.presentCount = store.presentSlots ∧
      store.slots ≤ store.config.maxEntries ∧ store.currentBytes ≤ store.config.maxTotalBytes ∧
      (∀ key value, store.valueAt key = some value →
        value.length ≤ store.currentBytes ∧ 1 ≤ store.presentCount) ∧
      ∀ t mapped store' rc, store.commit t mapped = (store', rc) → rc ≠ .ok → store' = store := by
  have h := accounted_of_run hcreated hrun
  refine ⟨h.bytes, h.present, h.slots_le, h.bytes_le, fun key value hvalue => ?_, ?_⟩
  · rw [h.bytes, h.present]
    exact Store.length_le_chargedBytes hvalue
  intro t mapped store' rc hcommit hrc
  rcases Store.commit_spec hcommit with ⟨-, hsame⟩ | ⟨hok, -⟩
  · exact hsame
  · exact absurd hok hrc

/-- A value of two bytes is written and deleted: the key stays charged. -/
theorem counters_accounted_putDelete :
    ∃ store₀ store, storeCreate ⟨2, 8, 8, 32⟩ = some store₀ ∧
      exec Store.change store₀
        [.commit ⟨[7], none, none, .ok, .put [1, 2]⟩ true,
          .commit ⟨[7], some ⟨some [1, 2], 1⟩, none, .ok, .delete⟩ true] =
            some (store, [.ok, .ok]) ∧
      store.currentBytes = 1 ∧ store.currentBytes = store.chargedBytes ∧
      store.presentCount = store.presentSlots := by
  refine ⟨_, _, and_of_imp rfl fun hcreate => and_of_imp rfl fun hexec => ⟨rfl, ?_⟩⟩
  have hall := counters_accounted (.inl ⟨_, hcreate⟩) (run_of_exec hexec)
  exact ⟨hall.1, hall.2.1⟩

/-! ### Processors and advances only commit -/

theorem close_changes (store : Store) (t : Txn) (callback : Status) (mapped : Bool) :
    ∃ cs, Run (Acts Store.change) store cs (store.close t callback mapped).1 := by
  unfold Store.close
  split
  · exact ⟨[], Run.nil⟩
  split
  · exact ⟨[], Run.nil⟩
  · exact ⟨[(.commit t mapped, (store.commit t mapped).2)], Run.single_iff.mpr rfl⟩

theorem watermark_changes (store : Store) (watermark : Option ℕ) (advancing : Bool) :
    ∃ cs, Run (Acts Store.change) store cs
      { store with watermark, watermarkAdvancing := advancing } :=
  ⟨[(.watermark watermark advancing, .ok)], Run.single_iff.mpr rfl⟩

theorem windowStep_changes {windows : WindowConfig} {s s' : WindowSystem} {op : WindowOperation}
    {out : WindowOutcome} (h : windowStep windows s op = some (s', out)) :
    ∃ cs, Run (Acts Store.change) s.store cs s'.store := by
  cases op with
  | enter id selected timestampNs =>
    rw [windowStep] at h
    split at h
    · cases h
    split at h
    · cases h
      exact ⟨[], Run.nil⟩
    split at h
    all_goals
      cases h
      exact ⟨[], Run.nil⟩
  | snapshot id copied =>
    rw [windowStep] at h
    split at h
    · split at h
      all_goals
        cases h
        exact ⟨[], Run.nil⟩
    · cases h
  | call id c =>
    rw [windowStep] at h
    split at h
    · cases h
      exact ⟨[], Run.nil⟩
    · cases h
  | commit id callback mapped =>
    rw [windowStep] at h
    split at h
    · cases h
      exact close_changes _ _ _ _
    · cases h
  | reserve watermarkNs =>
    rw [windowStep] at h
    obtain rfl := congrArg Prod.fst (some.inj h)
    unfold WindowSystem.reserve
    split
    · exact ⟨[], Run.nil⟩
    split
    · exact ⟨[], Run.nil⟩
    · exact watermark_changes s.store s.store.watermark true
  | publish candidatesInit room =>
    rw [windowStep] at h
    split at h
    · cases h
      unfold WindowSystem.publish
      split
      · exact ⟨[], Run.nil⟩
      · exact watermark_changes s.store (some _) s.store.watermarkAdvancing
    · cases h
  | close answers =>
    rw [windowStep] at h
    split at h
    · obtain rfl := congrArg Prod.fst (some.inj h)
      simp only [WindowSystem.closeNext, closeCandidate]
      split
      · exact ⟨[], Run.nil⟩
      split
      · exact ⟨[], Run.nil⟩
      split
      · exact ⟨[], Run.nil⟩
      split
      · exact ⟨[], Run.nil⟩
      · exact close_changes _ _ _ _
    · cases h
  | finish =>
    rw [windowStep] at h
    split at h
    · cases h
      exact watermark_changes s.store s.store.watermark false
    · cases h
      exact watermark_changes s.store s.store.watermark false
    · cases h

/-- Events and advances are sequences of commits and of changes of the watermark. -/
theorem changes_of_windowRun {tr : List (WindowOperation × WindowOutcome)}
    {s : WindowSystem} (h : Run (Acts windowAct) (WindowSystem.init store) tr s) :
    ∃ cs, Run (Acts Store.change) store cs s.store := by
  refine h.invariant (P := fun s => ∃ cs, Run (Acts Store.change) store cs s.store) ⟨[], Run.nil⟩ ?_
  rintro s ⟨op, out⟩ s' ⟨cs, hcs⟩ hstep
  have hstep' : windowAct s op = some (s', out) := hstep
  unfold windowAct at hstep'
  split at hstep'
  · cases hstep'
  obtain ⟨cs', hcs'⟩ := windowStep_changes hstep'
  exact ⟨cs ++ cs', hcs.append hcs'⟩

end TurboFlow.Keyed
