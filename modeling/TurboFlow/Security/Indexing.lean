import TurboFlow.Security.Policy
import Mathlib.Data.Nat.Bitwise

/-!
# The index of a snapshot

A bucket indexes the rules that one domain, action and resource type select (`Bucket.Indexes`).
Every rule that is added keeps this in all buckets, so the index that
`flow_security_policy_snapshot_create` builds has it for all rules. Compiling the leaves changes no
entries.
-/

namespace TurboFlow.Security

open Postings List Function Bucket Index

/-! ### Masks -/

theorem and_shiftLeft_ne_zero (mask i : ℕ) : mask &&& (1 <<< i) ≠ 0 ↔ mask.testBit i = true := by
  rw [Nat.one_shiftLeft, Nat.and_two_pow]
  cases mask.testBit i <;> simp

theorem masked_iff (mask : ℕ) (kind : SubjectKind) :
    masked mask kind = true ↔ mask.testBit kind.value = true := by
  rw [masked, maskBit, decide_eq_true_iff]
  exact and_shiftLeft_ne_zero mask kind.value

theorem SubjectKind.value_injective {k k' : SubjectKind} (h : k.value = k'.value) : k = k' := by
  cases k <;> cases k' <;> first | rfl | cases h

theorem masked_or_maskBit (mask : ℕ) (k k' : SubjectKind) :
    masked (mask ||| maskBit k) k' = true ↔ masked mask k' = true ∨ k = k' := by
  rw [masked_iff, masked_iff, Nat.testBit_or, Bool.or_eq_true, maskBit, Nat.one_shiftLeft,
    Nat.testBit_two_pow]
  constructor
  · rintro (h | h)
    · exact .inl h
    · exact .inr (SubjectKind.value_injective (by simpa using h))
  rintro (h | rfl)
  · exact .inl h
  · exact .inr (by simp)

/-! ### Buckets -/

def Bucket.subjectEntries (b : Bucket) (key : SubjectKey) : List ℕ :=
  ((b.subjectIndex key).map Leaf.entries).getD []

/-- The rule with the number `i` has the property `P`. -/
def RuleAt (rules : List Rule) (i : ℕ) (P : Rule → Prop) : Prop :=
  ∃ r, rules[i]? = some r ∧ P r

variable {key : SubjectKey} {P : Rule → Prop}

theorem ruleAt_snoc :
    RuleAt (rules ++ [rule]) i P ↔ RuleAt rules i P ∨ (i = rules.length ∧ P rule) :=
  exists_getElem?_snoc

/-- The bucket indexes the rules that `sel` selects. A mask has the kinds of their subjects. -/
structure Bucket.Indexes (rules : List Rule) (sel : Rule → Prop) (b : Bucket) : Prop where
  initialized : ∀ r ∈ rules, sel r → b.initialized = true
  exact_mem : ∀ key i, i ∈ postings b.exactIndex key ↔
    RuleAt rules i fun r => sel r ∧ r.matchKind = .exact ∧ r.patternKey = key
  exact_mask : ∀ key, b.exactIndex key ≠ none → masked b.exactSubjectMask key.subjectKind = true
  prefix_mem : ∀ key i, i ∈ postings b.prefixIndex key ↔
    RuleAt rules i fun r => sel r ∧ r.matchKind = .prefixed ∧ r.patternKey = key
  prefix_mask : ∀ key, b.prefixIndex key ≠ none → masked b.prefixSubjectMask key.subjectKind = true
  prefix_size : ∀ r ∈ rules, sel r → r.matchKind = .prefixed → r.pattern.length ≤ b.maxPrefixSize
  any_mem : ∀ i, i ∈ b.anyAdapter.entries ↔
    RuleAt rules i fun r => sel r ∧ r.matchKind = .adapter ∧ r.subjectKind = .any
  subject_mem : ∀ key i, i ∈ b.subjectEntries key ↔
    RuleAt rules i fun r =>
      sel r ∧ r.matchKind = .adapter ∧ r.subjectKind ≠ .any ∧ r.subjectKey = key
  subject_mask : ∀ r ∈ rules, sel r → r.matchKind = .adapter →
    masked b.candidateSubjectMask r.subjectKind = true
  subjects : ∀ key, b.subjectIndex key ≠ none → key ∈ b.subjects

theorem indexes_zero (sel : Rule → Prop) : zero.Indexes [] sel where
  initialized := by simp
  exact_mem := by simp [RuleAt, postings, zero]
  exact_mask := by simp [zero]
  prefix_mem := by simp [RuleAt, postings, zero]
  prefix_mask := by simp [zero]
  prefix_size := by simp
  any_mem := by simp [RuleAt, zero]
  subject_mem := by simp [RuleAt, subjectEntries, zero]
  subject_mask := by simp
  subjects := by simp [zero]

variable {rules : List Rule} {sel : Rule → Prop} {b : Bucket} {rule : Rule}

theorem forall_mem_snoc (h : ∀ r ∈ rules, P r) (hrule : P rule) : ∀ r ∈ rules ++ [rule], P r :=
  forall_mem_append.mpr ⟨h, forall_mem_singleton.mpr hrule⟩

theorem Bucket.Indexes.skip (h : b.Indexes rules sel) (hrule : ¬ sel rule) :
    b.Indexes (rules ++ [rule]) sel where
  initialized := forall_mem_snoc h.initialized fun hsel => absurd hsel hrule
  exact_mem key i := by
    rw [h.exact_mem, ruleAt_snoc]
    simp [hrule]
  exact_mask := h.exact_mask
  prefix_mem key i := by
    rw [h.prefix_mem, ruleAt_snoc]
    simp [hrule]
  prefix_mask := h.prefix_mask
  prefix_size := forall_mem_snoc h.prefix_size fun hsel => absurd hsel hrule
  any_mem i := by
    rw [h.any_mem, ruleAt_snoc]
    simp [hrule]
  subject_mem key i := by
    rw [h.subject_mem, ruleAt_snoc]
    simp [hrule]
  subject_mask := forall_mem_snoc h.subject_mask fun hsel => absurd hsel hrule
  subjects := h.subjects

theorem insertPattern_mask (rule : Rule) (i : ℕ)
    (h : ∀ key, index key ≠ none → masked mask key.subjectKind = true) (key : PatternKey)
    (hkey : (insertPattern index mask rule i).1 key ≠ none) :
    masked (insertPattern index mask rule i).2 key.subjectKind = true := by
  simp only [insertPattern] at hkey ⊢
  by_cases heq : key = rule.patternKey
  · subst heq
    split
    · rename_i hsome
      exact h _ (Option.isSome_iff_ne_none.mp hsome)
    · exact (masked_or_maskBit _ _ _).mpr (.inr rfl)
  have hkey' : index key ≠ none := by
    simpa [post, update_of_ne heq] using hkey
  split
  · exact h key hkey'
  · exact (masked_or_maskBit _ _ _).mpr (.inl (h key hkey'))

theorem mem_subjectEntries_pushSubject :
    j ∈ (pushSubject b key i).subjectEntries key' ↔
      j ∈ b.subjectEntries key' ∨ (j = i ∧ key = key') := by
  unfold pushSubject subjectEntries
  by_cases hkey : key' = key
  · subst hkey
    cases hleaf : b.subjectIndex key' with
    | none => simp
    | some leaf => simp
  cases hleaf : b.subjectIndex key with
  | none | some leaf => simp [update_of_ne hkey, Ne.symm hkey]

theorem subjects_pushSubject (h : ∀ key, b.subjectIndex key ≠ none → key ∈ b.subjects)
    (key : SubjectKey) (i : ℕ) (key' : SubjectKey)
    (hkey : (pushSubject b key i).subjectIndex key' ≠ none) :
    key' ∈ (pushSubject b key i).subjects := by
  unfold pushSubject at hkey ⊢
  cases hleaf : b.subjectIndex key with
  | none =>
    simp only [hleaf] at hkey ⊢
    by_cases heq : key' = key
    · simp [heq]
    · exact mem_append_left _ (h key' (by simpa [update_of_ne heq] using hkey))
  | some leaf =>
    simp only [hleaf] at hkey ⊢
    by_cases heq : key' = key
    · exact heq ▸ h key (by simp [hleaf])
    · exact h key' (by simpa [update_of_ne heq] using hkey)

theorem bucketInsert_spec (b : Bucket) (rule : Rule) (i : ℕ) :
    ((bucketInsert b rule i).exactIndex, (bucketInsert b rule i).exactSubjectMask) =
        (if rule.matchKind = .exact then insertPattern b.exactIndex b.exactSubjectMask rule i
          else (b.exactIndex, b.exactSubjectMask)) ∧
      ((bucketInsert b rule i).prefixIndex, (bucketInsert b rule i).prefixSubjectMask) =
        (if rule.matchKind = .prefixed then
          insertPattern b.prefixIndex b.prefixSubjectMask rule i
          else (b.prefixIndex, b.prefixSubjectMask)) ∧
      (bucketInsert b rule i).initialized = true ∧
      (bucketInsert b rule i).maxPrefixSize =
        (if rule.matchKind = .prefixed ∧ b.maxPrefixSize < rule.pattern.length then
          rule.pattern.length else b.maxPrefixSize) ∧
      (bucketInsert b rule i).anyAdapter.entries = b.anyAdapter.entries ++
        (if rule.matchKind = .adapter ∧ rule.subjectKind = .any then [i] else []) ∧
      (bucketInsert b rule i).candidateSubjectMask =
        (if rule.matchKind = .adapter then b.candidateSubjectMask ||| maskBit rule.subjectKind
          else b.candidateSubjectMask) := by
  unfold bucketInsert
  cases rule.matchKind with
  | exact => simp
  | prefixed => simp
  | adapter =>
    dsimp only
    split
    · simp_all
    unfold pushSubject
    split <;> simp_all

theorem mem_subjectEntries_bucketInsert :
    j ∈ (bucketInsert b rule i).subjectEntries key ↔ j ∈ b.subjectEntries key ∨
      (j = i ∧ rule.matchKind = .adapter ∧ rule.subjectKind ≠ .any ∧ rule.subjectKey = key) := by
  unfold bucketInsert
  cases rule.matchKind with
  | exact | prefixed => simp [subjectEntries]
  | adapter =>
    dsimp only
    split
    · simp_all [subjectEntries]
    rw [mem_subjectEntries_pushSubject]
    simp_all [subjectEntries]

theorem subjects_bucketInsert (h : ∀ key, b.subjectIndex key ≠ none → key ∈ b.subjects) (i : ℕ) :
    ∀ key, (bucketInsert b rule i).subjectIndex key ≠ none →
      key ∈ (bucketInsert b rule i).subjects := by
  unfold bucketInsert
  cases rule.matchKind with
  | exact => exact h
  | prefixed => exact h
  | adapter =>
    dsimp only
    split
    · exact h
    refine subjects_pushSubject ?_ rule.subjectKey i
    exact h

theorem indexes_insertPattern (hrule : sel rule) (hmem : ∀ key i, i ∈ postings index key ↔
      RuleAt rules i fun r => sel r ∧ r.matchKind = kind ∧ r.patternKey = key)
    (hmask : ∀ key, index key ≠ none → masked mask key.subjectKind = true)
    (h : (index', mask') = if rule.matchKind = kind then
      insertPattern index mask rule rules.length else (index, mask)) :
    (∀ key i, i ∈ postings index' key ↔
        RuleAt (rules ++ [rule]) i fun r => sel r ∧ r.matchKind = kind ∧ r.patternKey = key) ∧
      ∀ key, index' key ≠ none → masked mask' key.subjectKind = true := by
  split at h
  · rename_i hkind
    cases h
    refine ⟨fun key i => ?_, insertPattern_mask rule _ hmask⟩
    rw [mem_postings_post, hmem, ruleAt_snoc]
    simp [hrule, hkind]
  rename_i hkind
  cases h
  refine ⟨fun key i => ?_, hmask⟩
  rw [hmem, ruleAt_snoc]
  simp [hkind]

theorem Bucket.Indexes.insert (h : b.Indexes rules sel) (hrule : sel rule) :
    (bucketInsert b rule rules.length).Indexes (rules ++ [rule]) sel := by
  obtain ⟨hexact, hprefixed, hinit, hsize, hany, hcandidate⟩ :=
    bucketInsert_spec b rule rules.length
  obtain ⟨hexactMem, hexactMask⟩ := indexes_insertPattern hrule h.exact_mem h.exact_mask hexact
  obtain ⟨hprefixMem, hprefixMask⟩ :=
    indexes_insertPattern hrule h.prefix_mem h.prefix_mask hprefixed
  constructor
  case initialized => exact fun _ _ _ => hinit
  case exact_mem => exact hexactMem
  case exact_mask => exact hexactMask
  case prefix_mem => exact hprefixMem
  case prefix_mask => exact hprefixMask
  case prefix_size =>
    rw [hsize]
    refine forall_mem_snoc (fun r hr hsel hkind => ?_) fun _ hkind => ?_
    · have hle := h.prefix_size r hr hsel hkind
      split <;> omega
    · split <;> simp_all
  case any_mem =>
    intro i
    rw [hany, mem_append, h.any_mem, ruleAt_snoc]
    split <;> simp_all
  case subject_mem =>
    intro key i
    rw [mem_subjectEntries_bucketInsert, h.subject_mem, ruleAt_snoc]
    simp [hrule]
  case subject_mask =>
    rw [hcandidate]
    refine forall_mem_snoc (fun r hr hsel hkind => ?_) fun _ hkind => ?_
    · split
      · exact (masked_or_maskBit _ _ _).mpr (.inl (h.subject_mask r hr hsel hkind))
      · exact h.subject_mask r hr hsel hkind
    rw [if_pos hkind]
    exact (masked_or_maskBit _ _ _).mpr (.inr rfl)
  case subjects => exact subjects_bucketInsert h.subjects _

/-! ### Roots -/

def Index.bucketAt (index : Index) (domain : Text) (action column : ℕ) : Bucket :=
  match index.rootIndex domain with
  | some root => root action column
  | none => .zero

def Selects (domain : Text) (action column : ℕ) (rule : Rule) : Prop :=
  rule.domainId = domain ∧ action < 7 ∧ rule.actionMask.testBit action = true ∧
    rule.resourceType.column = column

theorem insertActions_apply (root : Root) (rule : Rule) (i action column : ℕ) :
    insertActions root rule i action column =
      if action < 7 ∧ rule.actionMask.testBit action = true ∧ rule.resourceType.column = column then
        bucketInsert (root action column) rule i
      else root action column := by
  have hloop := foldl_update (fun action => decide (rule.actionMask &&& (1 <<< action) ≠ 0))
    (fun _ row => update row rule.resourceType.column
      (bucketInsert (row rule.resourceType.column) rule i)) (nodup_range (n := 7)) root action
  unfold insertActions
  rw [hloop]
  have hcond : (action ∈ range 7 ∧ decide (rule.actionMask &&& (1 <<< action) ≠ 0) = true) ↔
      action < 7 ∧ rule.actionMask.testBit action = true := by
    rw [mem_range, decide_eq_true_iff, and_shiftLeft_ne_zero]
  by_cases hin : action < 7 ∧ rule.actionMask.testBit action = true
  · rw [if_pos (hcond.mpr hin)]
    by_cases hcol : column = rule.resourceType.column
    · subst hcol
      rw [update_self, if_pos ⟨hin.1, hin.2, rfl⟩]
    · rw [update_of_ne hcol, if_neg fun h => hcol h.2.2.symm]
  · rw [if_neg fun h => hin (hcond.mp h), if_neg fun h => hin ⟨h.1, h.2.1⟩]

variable {index : Index} {i : ℕ}

theorem insertRule_bucketAt (domain : Text) (action column : ℕ)
    [Decidable (Selects domain action column rule)] :
    (insertRule index rule i).bucketAt domain action column =
      if Selects domain action column rule then
        bucketInsert (index.bucketAt domain action column) rule i
      else index.bucketAt domain action column := by
  have hroot : (snapshotRoot index rule.domainId).1 action column =
      index.bucketAt rule.domainId action column := by
    unfold snapshotRoot bucketAt
    cases index.rootIndex rule.domainId <;> rfl
  by_cases hdomain : domain = rule.domainId
  · subst hdomain
    have hat : (insertRule index rule i).bucketAt rule.domainId action column =
        insertActions (snapshotRoot index rule.domainId).1 rule i action column := by
      simp [insertRule, bucketAt]
    rw [hat, insertActions_apply, hroot]
    simp only [Selects, true_and]
  rw [if_neg fun h => hdomain h.1.symm]
  have hsame : (insertRule index rule i).rootIndex domain = index.rootIndex domain := by
    unfold insertRule snapshotRoot
    cases index.rootIndex rule.domainId <;> simp [update_of_ne hdomain]
  rw [bucketAt, hsame, bucketAt]

structure Index.Indexes (rules : List Rule) (index : Index) : Prop where
  bucket : ∀ domain action column,
    (index.bucketAt domain action column).Indexes rules (Selects domain action column)
  roots : ∀ domain, index.rootIndex domain ≠ none → domain ∈ index.roots

theorem Index.Indexes.insertRule (h : index.Indexes rules) (rule : Rule) :
    (insertRule index rule rules.length).Indexes (rules ++ [rule]) where
  bucket domain action column := by
    classical
    rw [insertRule_bucketAt domain action column]
    split
    · rename_i hrule
      exact (h.bucket domain action column).insert hrule
    rename_i hrule
    exact (h.bucket domain action column).skip hrule
  roots domain hdomain := by
    unfold Security.insertRule snapshotRoot at hdomain ⊢
    by_cases heq : domain = rule.domainId
    · subst heq
      cases hroot : index.rootIndex rule.domainId with
      | none => simp
      | some root => exact h.roots _ (by simp [hroot])
    cases hroot : index.rootIndex rule.domainId with
    | none =>
      simp only [hroot, update_of_ne heq] at hdomain
      exact mem_append_left _ (h.roots domain hdomain)
    | some root =>
      simp only [hroot, update_of_ne heq] at hdomain
      exact h.roots domain hdomain

theorem Index.Indexes.insertRules (h : index.Indexes rules) (more : List Rule) :
    (insertRules index rules.length more).Indexes (rules ++ more) := by
  induction more generalizing index rules with
  | nil => simpa [Security.insertRules] using h
  | cons rule more ih =>
    have hrest := ih (h.insertRule rule)
    simpa [Security.insertRules] using hrest

theorem indexes_insertRules (rules : List Rule) :
    (insertRules ⟨[], fun _ => none⟩ 0 rules).Indexes rules := by
  have hempty : (⟨[], fun _ => none⟩ : Index).Indexes [] :=
    ⟨fun _ _ _ => indexes_zero _, fun _ h => absurd rfl h⟩
  simpa using hempty.insertRules rules

/-! ### Compiling the leaves -/

def Leaf.Ready (leaf : Leaf) : Prop :=
  leaf.entries ≠ [] → leaf.compiled = true

theorem leafCompile_spec (h : leafCompile matcher rules leaf = .ok leaf') :
    leaf'.entries = leaf.entries ∧ leaf'.Ready := by
  unfold leafCompile at h
  split at h
  · rename_i hempty
    cases h
    exact ⟨rfl, absurd hempty⟩
  split at h
  · cases h
  split at h
  · cases h
  split at h
  · cases h
    exact ⟨rfl, fun _ => rfl⟩
  · cases h

def Bucket.SubjectReady (key : SubjectKey) (b : Bucket) : Prop :=
  ∀ leaf, b.subjectIndex key = some leaf → leaf.Ready

structure Bucket.Ready (b : Bucket) : Prop where
  any : b.anyAdapter.Ready
  subject : ∀ key, b.SubjectReady key

theorem subjectCompile_spec {keys : List SubjectKey}
    (hb : b.Indexes rules sel ∧ b.anyAdapter.Ready ∧ b.subjects = keys)
    (h : subjectCompile matcher rules b key = .ok b') :
    (b'.Indexes rules sel ∧ b'.anyAdapter.Ready ∧ b'.subjects = keys) ∧ b'.SubjectReady key ∧
      ∀ other, b.SubjectReady other → b'.SubjectReady other := by
  obtain ⟨hindexes, hany, hkeys⟩ := hb
  unfold subjectCompile at h
  split at h
  · cases h
  rename_i leaf hleaf
  cases hcompile : leafCompile matcher rules leaf with
  | error status =>
    rw [hcompile] at h
    cases h
  | ok leaf' =>
    rw [hcompile] at h
    cases h
    obtain ⟨hentries, hready⟩ := leafCompile_spec hcompile
    have hself : ∀ l, update b.subjectIndex key (some leaf') key = some l → l.Ready := by
      intro l hl
      rw [update_self] at hl
      exact Option.some.inj hl ▸ hready
    refine ⟨⟨{ hindexes with
        subject_mem := fun other i => ?_
        subjects := fun other hother => ?_ }, hany, hkeys⟩, hself, fun other hother => ?_⟩
    · rw [← hindexes.subject_mem]
      unfold subjectEntries
      by_cases heq : other = key
      · simp [heq, hleaf, hentries]
      · simp [update_of_ne heq]
    · by_cases heq : other = key
      · exact hindexes.subjects other (by simp [heq, hleaf])
      · exact hindexes.subjects other (by simpa [update_of_ne heq] using hother)
    by_cases heq : other = key
    · exact heq ▸ hself
    intro l hl
    exact hother l (by simpa [update_of_ne heq] using hl)

theorem bucketCompile_spec (hb : b.Indexes rules sel) (h : bucketCompile matcher rules b = .ok b') :
    b'.Indexes rules sel ∧ (b'.initialized = true → b'.Ready) := by
  unfold bucketCompile at h
  split at h
  · rename_i hinit
    cases h
    exact ⟨hb, fun hinit' => by rw [hinit] at hinit'; cases hinit'⟩
  cases hany : leafCompile matcher rules b.anyAdapter with
  | error status =>
    rw [hany] at h
    cases h
  | ok leaf =>
    rw [hany] at h
    obtain ⟨hentries, hready⟩ := leafCompile_spec hany
    have hb' : ({ b with anyAdapter := leaf } : Bucket).Indexes rules sel :=
      { hb with any_mem := fun i => by rw [hentries]; exact hb.any_mem i }
    obtain ⟨⟨hindexes, hanyReady, hkeys⟩, hsubjects, -⟩ :=
      foldlM_ok
        (P := fun b' : Bucket =>
          b'.Indexes rules sel ∧ b'.anyAdapter.Ready ∧ b'.subjects = b.subjects)
        (fun _ _ _ => subjectCompile_spec) ⟨hb', hready, rfl⟩ h
    refine ⟨hindexes, fun _ => ⟨hanyReady, fun key leaf' hleaf' => ?_⟩⟩
    -- a subject with a leaf is listed, so the loop has compiled it
    have hkey : key ∈ b.subjects := hkeys ▸ hindexes.subjects key (by simp [hleaf'])
    exact hsubjects key hkey leaf' hleaf'

def Index.CellReady (cell : Text × ℕ × ℕ) (index : Index) : Prop :=
  (index.bucketAt cell.1 cell.2.1 cell.2.2).initialized = true →
    (index.bucketAt cell.1 cell.2.1 cell.2.2).Ready

theorem bucketAt_update (hroot : index.rootIndex domain = some root) (action column : ℕ)
    (bucket : Bucket) (domain' : Text) (action' column' : ℕ) :
    ({ index with
      rootIndex := update index.rootIndex domain
        (some (update root action (update (root action) column bucket))) } :
        Index).bucketAt domain' action' column' =
      if (domain', action', column') = (domain, action, column) then bucket
      else index.bucketAt domain' action' column' := by
  unfold bucketAt
  by_cases hdomain : domain' = domain
  · subst hdomain
    by_cases haction : action' = action
    · subst haction
      by_cases hcolumn : column' = column
      · simp [hcolumn]
      · simp [hcolumn, hroot]
    · simp [haction, hroot]
  · simp [hdomain]

theorem cellCompile_spec (hi : index.Indexes rules ∧ index.roots = domains)
    (h : cellCompile matcher rules index cell = .ok index') :
    (index'.Indexes rules ∧ index'.roots = domains) ∧ index'.CellReady cell ∧
      ∀ other, index.CellReady other → index'.CellReady other := by
  obtain ⟨hindexes, hdomains⟩ := hi
  obtain ⟨domain, action, column⟩ := cell
  unfold cellCompile at h
  split at h
  · cases h
  rename_i root hroot
  have hat : index.bucketAt domain action column = root action column := by
    simp [bucketAt, hroot]
  cases hcompile : bucketCompile matcher rules (root action column) with
  | error status =>
    rw [hcompile] at h
    cases h
  | ok bucket =>
    rw [hcompile] at h
    cases h
    obtain ⟨hbucket, hready⟩ :=
      bucketCompile_spec (hat ▸ hindexes.bucket domain action column) hcompile
    have hself : ∀ cell : Text × ℕ × ℕ, cell = (domain, action, column) →
        ({ index with
          rootIndex := update index.rootIndex domain
            (some (update root action (update (root action) column bucket))) } :
            Index).CellReady cell := by
      rintro cell rfl
      simp only [CellReady, bucketAt_update hroot, if_true]
      exact hready
    refine ⟨⟨⟨fun domain' action' column' => ?_, fun domain' hdomain' => ?_⟩, hdomains⟩,
      hself _ rfl, fun other hother => ?_⟩
    · rw [bucketAt_update hroot]
      split
      · rename_i heq
        obtain ⟨rfl, rfl, rfl⟩ : domain' = domain ∧ action' = action ∧ column' = column := by
          simpa using heq
        exact hbucket
      · exact hindexes.bucket domain' action' column'
    · by_cases heq : domain' = domain
      · exact hindexes.roots domain' (by simp [heq, hroot])
      · exact hindexes.roots domain' (by simpa [update_of_ne heq] using hdomain')
    by_cases heq : other = (domain, action, column)
    · exact hself other heq
    simp only [CellReady, bucketAt_update hroot, if_neg heq]
    exact hother

theorem snapshotCreate_spec
    (h : snapshotCreate matcher policyVersion expiresAt rules = .ok snapshot) :
    snapshot.policyVersion = policyVersion ∧ snapshot.expiresAt = expiresAt ∧
      snapshot.rules = rules ∧
      rules.length ≤ maxRules ∧ (∀ r ∈ rules, ruleValid matcher r = true) ∧
      snapshot.index.Indexes rules ∧
      ∀ domain action column, action < 7 → column < 5 →
        snapshot.index.CellReady (domain, action, column) := by
  unfold snapshotCreate at h
  split at h
  · cases h
  rename_i hsize
  split at h
  · cases h
  rename_i hvalid
  simp only at h
  cases hfold : (cells (insertRules ⟨[], fun _ => none⟩ 0 rules)).foldlM
      (cellCompile matcher rules) (insertRules ⟨[], fun _ => none⟩ 0 rules) with
  | error status =>
    rw [hfold] at h
    cases h
  | ok index =>
    rw [hfold] at h
    cases h
    obtain ⟨⟨hindexes, hroots⟩, hcells, -⟩ :=
      foldlM_ok
        (P := fun index : Index => index.Indexes rules ∧
          index.roots = (insertRules ⟨[], fun _ => none⟩ 0 rules).roots)
        (fun _ _ _ => cellCompile_spec)
        ⟨indexes_insertRules rules, rfl⟩ hfold
    refine ⟨rfl, rfl, rfl, by omega, ?_, hindexes, fun domain action column haction hcolumn => ?_⟩
    · simpa [all_eq_true] using hvalid
    by_cases hroot : index.rootIndex domain = none
    · intro hinit
      simp only [bucketAt, hroot] at hinit
      cases hinit
    refine hcells _ ?_
    simp only [cells, mem_flatMap, mem_map, mem_range]
    exact ⟨domain, hroots ▸ hindexes.roots domain hroot, action, haction, column, hcolumn, rfl⟩

end TurboFlow.Security
