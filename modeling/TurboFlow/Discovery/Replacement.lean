import TurboFlow.Discovery.Slots

/-!
# Replacing the peer list

A replacement commits every target or undoes what it applied; a compensation that fails makes the
controller inconsistent for good. Between calls a consistent controller is `Coherent`: the owner of
an active slot runs with its endpoint, that of an inactive slot is quiesced, and the ids of the
active peers are distinct.
-/

namespace TurboFlow.Discovery

open List Option World Saga
open List (Forall₂ Perm)
open Saga (pass sweep Reports forall₂_trans)
open Transition

def World.peers (w : World) : List Peer :=
  w.slots.filterMap (·.peer)

structure Coherent (w : World) : Prop where
  synced : ∀ p ∈ w.places, p.Synced
  nodup : (w.peers.map (·.peerId)).Nodup

/-! ### Whole tables -/

variable {answer : ℕ → Status} {n : ℕ} {a : Cell} {cells : List Cell}

theorem advanced_applyAll (answer : ℕ → Status) (cells : List Cell) :
    Forall₂ Cell.Advanced cells (applyAll answer cells).value := by
  have hfirst : Forall₂ Cell.Advanced cells (pass .ok (applyTarget answer) 0 cells).value :=
    forall₂_pass (fun _ => .untouched) (advanced_applyTarget answer) 0 cells
  simp only [applyAll]
  split
  · refine forall₂_trans (S := fun b c => ∀ a : Cell, a.Advanced b → a.Advanced c)
      (fun a _ _ hab hbc => hbc a hab) hfirst ?_
    exact forall₂_pass (fun _ _ h => h) (fun n _ _ h => h.removal answer n) _ _
  · exact hfirst

theorem done_applyAll (h : (applyAll answer cells).status = .ok) :
    Forall₂ Cell.Done cells (applyAll answer cells).value := by
  simp only [applyAll] at h ⊢
  split at h
  · rename_i hfirst
    rw [if_pos hfirst]
    have hplaced : Forall₂ Cell.Placed cells (pass .ok (applyTarget answer) 0 cells).value :=
      forall₂_pass_of_ok (fun _ _ hok => placed_applyTarget hok) hfirst
    have hdone := forall₂_pass_of_ok
      (R := fun b c => ∀ a : Cell, a.Placed b → a.Done c) (fun n b hok a hab => hab.done hok) h
    exact forall₂_trans (fun a _ _ hab hbc => hbc a hab) hplaced hdone
  rename_i hfirst
  exact absurd h hfirst

theorem rollback_status (answer : ℕ → Status) (n : ℕ) (cells : List Cell) :
    (rollback answer n cells).status = .ok ↔
      (sweep .ok (undoRemoval answer) n cells).status = .ok ∧
        (sweep .ok (undoTarget answer) (sweep .ok (undoRemoval answer) n cells).next
          (sweep .ok (undoRemoval answer) n cells).value).status = .ok := by
  simp only [rollback]
  split
  all_goals
    rename_i hfirst
    simp [hfirst]

theorem rollback_reports (answer : ℕ → Status) (n : ℕ) (cells : List Cell) :
    Reports .ok answer n (rollback answer n cells) := by
  have hfirst := reports_sweep (undoRemoval_reports answer) n cells
  have hsecond := reports_sweep (undoTarget_reports answer)
    (sweep .ok (undoRemoval answer) n cells).next (sweep .ok (undoRemoval answer) n cells).value
  obtain ⟨hle, hiff⟩ := hfirst.append hsecond
  exact ⟨hle, (rollback_status answer n cells).trans hiff⟩

theorem restored_rollback (hadvanced : Forall₂ Cell.Advanced cells cells')
    (hfresh : ∀ a ∈ cells, a.action = .none ∧ a.toPlace.Synced)
    (h : (rollback answer n cells').status = .ok) :
    Forall₂ (fun a b : Cell => a.toPlace.Restored b.toPlace) cells
      (rollback answer n cells').value := by
  obtain ⟨hfirst, hsecond⟩ := (rollback_status answer n cells').mp h
  have hremoved := forall₂_sweep_of_ok (R := fun b c : Cell => c = b.resumed)
    (fun n b => undoRemoval_value) hfirst
  have hrestored := forall₂_sweep_of_ok
    (R := fun c d => ∀ a b : Cell, (a.action = .none ∧ a.toPlace.Synced) ∧ a.Advanced b →
      c = b.resumed → a.toPlace.Restored d.toPlace)
    (fun m c hok a b hab hc => by subst hc; exact hab.2.restored hab.1.1 hab.1.2 hok) hsecond
  have hcells := (forall₂_and_left cells cells').mpr ⟨hfresh, hadvanced⟩
  -- Both loops have passed over every cell: chain what they did to it.
  have hpair := forall₂_trans (T := fun a c : Cell => ∃ b : Cell,
      ((a.action = .none ∧ a.toPlace.Synced) ∧ a.Advanced b) ∧ c = b.resumed)
    (fun a b c hab hbc => ⟨b, hab, hbc⟩) hcells hremoved
  refine forall₂_trans ?_ hpair hrestored
  rintro a c d ⟨b, hab, hbc⟩ hcd
  exact hcd a b hab hbc

variable {w w' : World} {q : Request} {targets : List (Option Peer)}

theorem World.forall₂_cells (hlen : targets.length = w.places.length) :
    Forall₂ (fun p c => c.toPlace = p ∧ c.action = .none) w.places (w.cells targets) := by
  unfold cells
  induction hplaces : w.places generalizing w targets with
  | nil => simp
  | cons p ps ih =>
    cases targets with
    | nil => simp [hplaces] at hlen
    | cons t ts =>
      refine Forall₂.cons ⟨rfl, rfl⟩ (ih (w := { w with places := ps }) ?_ rfl)
      simpa [hplaces] using hlen

theorem World.map_target_cells (hlen : targets.length = w.places.length) :
    (w.cells targets).map (·.target) = targets := by
  apply ext_getElem
  · simp [cells, hlen]
  intro i _ _
  simp [cells]

/-! ### Whole replacements -/

/-- A committed replacement: the active slots hold the listed peers, an active peer keeps its slot,
and every owner is in the state of its slot. -/
structure Replaced (w : World) (peers : List Peer) (w' : World) : Prop where
  listed : Perm w'.peers peers
  keeps : ∀ (i : ℕ) (s : Slot) (p q : Peer), w.slots[i]? = some s → s.peer = some p → q ∈ peers →
    q.peerId = p.peerId → ∃ s', w'.slots[i]? = some s' ∧ s'.peer = some q
  synced : ∀ p ∈ w'.places, p.Synced
  adapters : w'.slots.map (·.adapterName) = w.slots.map (·.adapterName)

/-- A compensated replacement: slots, version and the owners of active slots are as before, the
owners of inactive slots quiesced. -/
structure Restored (w w' : World) : Prop where
  places : Forall₂ Place.Restored w.places w'.places
  registryVersion : w'.registryVersion = w.registryVersion
  consistent : w'.consistent = w.consistent

theorem Restored.slots (h : Restored w w') : w'.slots = w.slots :=
  map_eq_of_forall₂ (h.places.imp fun _ _ hp => hp.slot)

theorem Place.Restored.synced {p p' : Place} (h : p.Restored p') (hp : p.Synced) : p'.Synced := by
  cases hpeer : p.slot.peer with
  | none =>
    have hquiesced := h.inactive (Slot.active_eq_false.mpr hpeer)
    simpa [h.slot, hpeer] using hquiesced
  | some q =>
    have howner := h.active (Slot.active_eq_true.mpr ⟨q, hpeer⟩)
    simpa [h.slot, hpeer, howner] using hp

theorem Restored.coherent (h : Restored w w') (hw : Coherent w) : Coherent w' := by
  refine ⟨?_, ?_⟩
  · intro p' hp'
    obtain ⟨p, hp, hrestored⟩ := exists_of_forall₂ h.places hp'
    exact hrestored.synced (hw.synced p hp)
  rw [peers, h.slots]
  exact hw.nodup

theorem Coherent.restored (hw : Coherent w) : Restored w w := by
  refine ⟨forall₂_same.mpr ?_, rfl, rfl⟩
  intro p hp
  refine ⟨rfl, fun _ => rfl, ?_⟩
  intro hinactive
  simpa [Slot.active_eq_false.mp hinactive] using hw.synced p hp

theorem Replaced.coherent {peers : List Peer} (h : Replaced w peers w')
    (hpeers : (peers.map (·.peerId)).Nodup) : Coherent w' :=
  ⟨h.synced, (h.listed.map (·.peerId)).nodup_iff.mpr hpeers⟩

theorem Coherent.fresh_cells (hw : Coherent w) (hlen : targets.length = w.places.length) :
    ∀ a ∈ w.cells targets, a.action = .none ∧ a.toPlace.Synced := by
  intro a ha
  obtain ⟨p, hp, rfl, haction⟩ := exists_of_forall₂ (w.forall₂_cells hlen) ha
  exact ⟨haction, hw.synced _ hp⟩

theorem replaced_of_applyAll (hw : Coherent w) (ht : Targets w.slots q.peers targets)
    (hok : (applyAll q.answer (w.cells targets)).status = .ok) (version : ℕ) :
    Replaced w q.peers
      { w with places := (applyAll q.answer (w.cells targets)).value.map Cell.commit,
               registryVersion := version } := by
  have hlen : targets.length = w.places.length := by simpa [slots] using ht.length
  have hdone := done_applyAll hok
  have htargets : (applyAll q.answer (w.cells targets)).value.map (·.target) = targets := by
    rw [map_eq_of_forall₂ (hdone.imp fun _ _ hab => hab.target), map_target_cells hlen]
  generalize (applyAll q.answer (w.cells targets)).value = bs at hdone htargets
  refine ⟨?_, ?_, ?_, ?_⟩
  · have hpeers : targets.filterMap id =
      ((bs.map Cell.commit).map (·.slot)).filterMap (·.peer) := by
      rw [← htargets, filterMap_map, filterMap_map, filterMap_map]
      rfl
    have hperm := ht.perm
    rw [hpeers] at hperm
    exact hperm
  · intro i s p r hs hp hr hid
    have hfound : findActivePeer w.slots r.peerId = some i := hid ▸ findActivePeer_eq hw.nodup hs hp
    have hat := ht.keeps r hr i hfound
    rw [← htargets, getElem?_map, map_eq_some_iff] at hat
    obtain ⟨b, hb, htarget⟩ := hat
    exact ⟨b.commit.slot, by simp [slots, hb], htarget⟩
  · intro p' hp'
    obtain ⟨b, hb, rfl⟩ := List.mem_map.mp hp'
    obtain ⟨a, ha, hab⟩ := exists_of_forall₂ hdone hb
    exact hab.synced (hw.fresh_cells hlen a ha).2
  have hslots : Forall₂ (fun (p : Place) (b : Cell) => b.slot.adapterName = p.slot.adapterName)
      w.places bs := by
    refine forall₂_trans ?_ (w.forall₂_cells hlen) hdone
    rintro p a b ⟨rfl, _⟩ hab
    rw [hab.slot]
  simpa [slots, Function.comp_def, Cell.commit] using map_eq_of_forall₂ hslots

theorem restored_of_rollback (hw : Coherent w) (hlen : targets.length = w.places.length)
    (hok : (rollback q.answer m (applyAll q.answer (w.cells targets)).value).status = .ok) :
    Restored w
      { w with places := (rollback q.answer m
        (applyAll q.answer (w.cells targets)).value).value.map Cell.toPlace } := by
  have hcells := restored_rollback (advanced_applyAll q.answer (w.cells targets))
    (hw.fresh_cells hlen) hok
  refine ⟨?_, rfl, rfl⟩
  rw [forall₂_map_right_iff]
  refine forall₂_trans ?_ (w.forall₂_cells hlen) hcells
  rintro p a b ⟨rfl, _⟩ hab
  exact hab

theorem replacePeerList_cases (w : World) (q : Request) :
    (∃ reply, w.replacePeerList q = (w, reply) ∧ reply.issued = reply.attempted ∧
        (reply.returned = .ok → q.registryVersion = w.registryVersion)) ∨
      (w.consistent = true ∧ ∃ targets, Targets w.slots q.peers targets ∧
        w.replacePeerList q = w.commandOwners q targets) := by
  unfold replacePeerList
  split
  · exact .inl ⟨_, rfl, rfl, by simp [Reply.refused]⟩
  rename_i hready
  have hconsistent : w.consistent = true := by
    simp only [Bool.or_eq_true, Bool.not_eq_true', not_or, Bool.not_eq_false] at hready
    exact hready.1
  split
  · rename_i rc herror
    exact .inl ⟨_, rfl, rfl, fun h => absurd h (buildTargets_error herror)⟩
  rename_i targets hbuild
  split
  · exact .inl ⟨_, rfl, rfl, by simp [settle]⟩
  split
  · rename_i heq
    split
    · exact .inl ⟨_, rfl, rfl, fun _ => heq⟩
    · exact .inl ⟨_, rfl, rfl, by simp [settle]⟩
  split
  · rename_i hscope
    exact .inl ⟨_, rfl, rfl, fun h => absurd h hscope.2⟩
  · exact .inr ⟨hconsistent, targets, buildTargets_spec hbuild, rfl⟩

theorem commandOwners_cases (hw : Coherent w) (ht : Targets w.slots q.peers targets) :
    let r := w.commandOwners q targets
    (r.2.returned = .ok ∧ r.2.issued = r.2.attempted ∧ r.1.consistent = w.consistent ∧
        Replaced w q.peers r.1) ∨
      (r.2.returned ≠ .ok ∧
        ((∀ m, r.2.attempted ≤ m → m < r.2.issued → q.answer m = .ok) ∧
            (w.consistent = true → Restored w r.1) ∨
          (∃ m, r.2.attempted ≤ m ∧ m < r.2.issued ∧ q.answer m ≠ .ok) ∧
            r.1.consistent = false)) := by
  have hlen : targets.length = w.places.length := by simpa [slots] using ht.length
  simp only [commandOwners]
  split
  · rename_i hok
    exact .inl ⟨rfl, rfl, rfl, replaced_of_applyAll hw ht hok _⟩
  rename_i hfail
  have hreports := rollback_reports q.answer (applyAll q.answer (w.cells targets)).next
    (applyAll q.answer (w.cells targets)).value
  by_cases hundone : (rollback q.answer (applyAll q.answer (w.cells targets)).next
      (applyAll q.answer (w.cells targets)).value).status = .ok
  · refine .inr ⟨by simpa [hundone] using hfail, .inl ⟨hreports.ok_iff.mp hundone, ?_⟩⟩
    intro hconsistent
    have hrestored := restored_of_rollback hw hlen hundone
    exact ⟨hrestored.places, rfl, by simp [hundone, hconsistent]⟩
  refine .inr ⟨by simp [hundone], .inr ⟨?_, by simp [hundone]⟩⟩
  rw [hreports.ok_iff] at hundone
  push Not at hundone
  exact hundone

def Sound (w : World) : Prop :=
  w.consistent = true → Coherent w

theorem Sound.replace (hw : Sound w) (q : Request) : Sound (w.replacePeerList q).1 := by
  rcases replacePeerList_cases w q with ⟨reply, h, _⟩ | ⟨hconsistent, targets, ht, h⟩
  · rw [h]
    exact hw
  rw [h]
  rcases commandOwners_cases (hw hconsistent) ht with ⟨_, _, _, hreplaced⟩ |
    ⟨_, ⟨_, hrestored⟩ | ⟨_, hpoisoned⟩⟩
  · exact fun _ => hreplaced.coherent ht.nodup
  · exact fun _ => (hrestored hconsistent).coherent (hw hconsistent)
  intro hc
  rw [hpoisoned] at hc
  exact absurd hc (by simp)

theorem act_cases (h : act w op = some (w', reply)) :
    w' = w ∨ ∃ q, w' = (w.replacePeerList q).1 := by
  cases op with
  | replace q => exact .inr ⟨q, (congrArg Prod.fst (some.inj h)).symm⟩
  | poll fetch q =>
    obtain rfl : (w.poll fetch q).1 = w' := congrArg Prod.fst (some.inj h)
    unfold World.poll
    split
    · exact .inl rfl
    split
    · exact .inl rfl
    split
    · exact .inl rfl
    · exact .inr ⟨_, rfl⟩

theorem Sound.run (hw : Sound w) (h : Run (Acts act) w tr w') : Sound w' := by
  refine h.invariant hw ?_
  intro s e s' hs hstep
  rcases act_cases hstep with rfl | ⟨q, rfl⟩
  · exact hs
  · exact hs.replace q

theorem replacePeerList_inconsistent (hw : w.consistent = false) (q : Request) :
    w.replacePeerList q = (w, Reply.refused) := by
  simp [replacePeerList, hw]

theorem inconsistent_run (hw : w.consistent = false) (h : Run (Acts act) w tr w') : w' = w := by
  refine h.invariant (P := fun s => s = w) rfl ?_
  rintro s e s' rfl hstep
  rcases act_cases hstep with rfl | ⟨q, rfl⟩
  · rfl
  · rw [replacePeerList_inconsistent hw]

theorem quiesceSlot_value (h : (quiesceSlot answer n a).status = .ok) :
    (quiesceSlot answer n a).value =
      { a with owner := { a.owner with running := false }, action := .remove } := by
  simp only [quiesceSlot] at h ⊢
  split at h
  · rename_i hfail
    exact absurd h hfail
  rename_i hok
  rw [if_neg hok, command_value (by simpa using hok)]
  rfl

theorem sound_create (h : create setup = .inl w) : Sound w := by
  intro _
  simp only [create] at h
  split at h
  · exact absurd h (by simp)
  split at h
  · exact absurd h (by simp)
  split at h
  · exact absurd h (by simp)
  split at h
  · rename_i hok
    obtain rfl := Sum.inl.inj h
    have hquiesced := forall₂_pass_of_ok
      (R := fun a b => b.slot = a.slot ∧ b.owner.running = false)
      (fun n a hok => by rw [quiesceSlot_value hok]; exact ⟨rfl, rfl⟩) hok
    generalize (pass .ok (quiesceSlot setup.answer) 0 (setup.adapters.map Adapter.cell)).value = bs
      at hquiesced
    have hempty : ∀ b ∈ bs, b.slot.peer = none ∧ b.owner.running = false := by
      intro b hb
      obtain ⟨a, ha, hslot, hrunning⟩ := exists_of_forall₂ hquiesced hb
      obtain ⟨adapter, _, rfl⟩ := List.mem_map.mp ha
      exact ⟨by rw [hslot]; rfl, hrunning⟩
    refine ⟨?_, ?_⟩
    · intro p hp
      obtain ⟨b, hb, rfl⟩ := List.mem_map.mp hp
      simp [hempty b hb]
    have hnone : peers { places := bs.map Cell.toPlace, registryVersion := 0,
                               consistent := true } = [] := by
      simp only [peers, slots, filterMap_eq_nil_iff, List.mem_map]
      rintro s ⟨p, ⟨b, hb, rfl⟩, rfl⟩
      exact (hempty b hb).1
    rw [hnone]
    exact nodup_nil
  · exact absurd h (by simp)

/-- In every state of a controller: a replacement by a newer list that returns `SALTS_OK` is
committed. One that fails, with all compensations answered by `SALTS_OK`, is compensated. One with a
compensation that fails is the last one: every later call is refused and changes nothing. -/
theorem replacement_compensated {setup : Setup} {w₀ w : World} {tr : List (Operation × Reply)}
    (hcreate : create setup = .inl w₀) (hrun : Run (Acts act) w₀ tr w) (q : Request) :
    let r := w.replacePeerList q
    (r.2.returned = .ok → w.registryVersion < q.registryVersion → Replaced w q.peers r.1) ∧
      (w.consistent = true → r.2.returned ≠ .ok →
        (∀ m, r.2.attempted ≤ m → m < r.2.issued → q.answer m = .ok) → Restored w r.1) ∧
      ((∃ m, r.2.attempted ≤ m ∧ m < r.2.issued ∧ q.answer m ≠ .ok) →
        ∀ tr' w', Run (Acts act) r.1 tr' w' →
          ∀ q', w'.replacePeerList q' = (w', Reply.refused)) ∧
      (w.consistent = false → r = (w, Reply.refused)) := by
  have hsound : Sound w := (sound_create hcreate).run hrun
  refine ⟨?_, ?_, ?_, fun hw => replacePeerList_inconsistent hw q⟩
  · intro hok hnewer
    rcases replacePeerList_cases w q with ⟨reply, h, _, hsame⟩ | ⟨hconsistent, targets, ht, h⟩
    · rw [h] at hok
      exact absurd (hsame hok) hnewer.ne'
    rw [h] at hok ⊢
    rcases commandOwners_cases (hsound hconsistent) ht with ⟨_, _, _, hreplaced⟩ | ⟨hfail, _⟩
    · exact hreplaced
    · exact absurd hok hfail
  · intro hconsistent hfail hcompensated
    rcases replacePeerList_cases w q with ⟨reply, h, _⟩ | ⟨_, targets, ht, h⟩
    · rw [h]
      exact (hsound hconsistent).restored
    rw [h] at hfail hcompensated ⊢
    rcases commandOwners_cases (hsound hconsistent) ht with ⟨hok, _⟩ |
      ⟨_, ⟨_, hrestored⟩ | ⟨⟨m, hm, hlt, hbad⟩, _⟩⟩
    · exact absurd hok hfail
    · exact hrestored hconsistent
    · exact absurd (hcompensated m hm hlt) hbad
  rintro ⟨m, hm, hlt, hbad⟩ tr' w' hrun' q'
  have hpoisoned : (w.replacePeerList q).1.consistent = false := by
    rcases replacePeerList_cases w q with ⟨reply, h, hnone, _⟩ | ⟨hconsistent, targets, ht, h⟩
    · rw [h] at hm hlt
      have hle : reply.attempted ≤ m := hm
      have hless : m < reply.issued := hlt
      omega
    rw [h] at hm hlt ⊢
    rcases commandOwners_cases (hsound hconsistent) ht with ⟨_, hnone, _⟩ |
      ⟨_, ⟨hcompensated, _⟩ | ⟨_, hpoisoned⟩⟩
    · omega
    · exact absurd (hcompensated m hm hlt) hbad
    · exact hpoisoned
  rw [inconsistent_run hpoisoned hrun']
  exact replacePeerList_inconsistent hpoisoned q'

def pairSetup : Setup :=
  { started := true
    adapters :=
      [{ name := "left", lookup := .ok, owner := ⟨⟨"l", "", 1⟩, true⟩ },
        { name := "right", lookup := .ok, owner := ⟨⟨"r", "", 2⟩, true⟩ }]
    scope := .ok
    answer := fun _ => .ok }

def pairWorld : World :=
  { places :=
      [{ slot := ⟨"left", none⟩, owner := ⟨⟨"l", "", 1⟩, false⟩ },
        { slot := ⟨"right", none⟩, owner := ⟨⟨"r", "", 2⟩, false⟩ }]
    registryVersion := 0
    consistent := true }

def pairRequest : Request :=
  { started := true
    registryVersion := 1
    peers := [⟨⟨"h", "", 80⟩, "x"⟩, ⟨⟨"h", "", 81⟩, "y"⟩]
    scope := .ok
    answer := fun n => if n = 3 then .eio else .ok }

/-- The last of four commands fails, and the two places are restored. -/
theorem replacement_compensated_pair :
    (pairWorld.replacePeerList pairRequest).2.returned = .eio ∧
      Restored pairWorld (pairWorld.replacePeerList pairRequest).1 := by
  refine ⟨by decide, ?_⟩
  refine (@replacement_compensated pairSetup pairWorld pairWorld [] (by decide) Run.nil
    pairRequest).2.1 rfl (by decide) ?_
  have hattempted : (pairWorld.replacePeerList pairRequest).2.attempted = 4 := by decide
  intro m hm _
  rw [hattempted] at hm
  exact if_neg (by omega)

end TurboFlow.Discovery
