import TurboFlow.Security.Indexing

/-!
# Evaluation and a scan of the rules

The index of a snapshot decides what a scan of its rules decides: the first deny rule that matches,
otherwise the first allow rule that matches, otherwise deny. Every part of an evaluation adds the
rules it looks at (`Adds`), and the parts of a subject those that match by it.
-/

namespace TurboFlow.Security

open Postings List

/-! ### The scan -/

/-- The pattern of a rule matches the resource of a request; `adapter` is what the matcher says. -/
@[simp] def patternMatches (adapter : Rule → Request → Bool) (rule : Rule) (request : Request) :
    Bool :=
  match rule.matchKind with
  | .exact => rule.pattern = request.resource
  | .prefixed => rule.pattern.isPrefixOf request.resource
  | .adapter => adapter rule request

def ruleMatches (adapter : Rule → Request → Bool) (request : Request) (rule : Rule) : Bool :=
  rule.domainId = request.domainId && rule.actionMask &&& request.action ≠ 0 &&
    rule.resourceType = request.resourceType && subjectMatches rule request.principal &&
    patternMatches adapter rule request

def firstMatch (adapter : Rule → Request → Bool) (rules : List Rule) (request : Request)
    (effect : Effect) : Option ℕ :=
  rules.findIdx? fun rule => ruleMatches adapter request rule && rule.effect = effect

def linearScan (adapter : Rule → Request → Bool) (rules : List Rule) (request : Request)
    (policyVersion : ℕ) : Decision :=
  match firstMatch adapter rules request .deny with
  | some i => ⟨.deny, .denyRule, i, policyVersion⟩
  | none =>
    match firstMatch adapter rules request .allow with
    | some i => ⟨.allow, .allowRule, i, policyVersion⟩
    | none => ⟨.deny, .defaultDeny, sizeMax, policyVersion⟩

structure Passes (snapshot : Snapshot) (request : Request) (now : ℕ) : Prop where
  domain : request.principal.scope = .system ∨
    (request.domainId ≠ [] ∧ request.principal.domainId = request.domainId)
  principal : expired request.principal.expiresAt now = false
  version : request.principal.policyVersion = snapshot.policyVersion
  snapshot : expired snapshot.expiresAt now = false

def Matcher.Emits (m : Matcher) (adapter : Rule → Request → Bool) : Prop :=
  ∀ (rules : List Rule) (entries : List ℕ) (request : Request),
    (m.evaluateLeaf rules entries request).1 = .ok ∧
      ∀ position, position ∈ (m.evaluateLeaf rules entries request).2 ↔
        ∃ i rule, entries[position]? = some i ∧ rules[i]? = some rule ∧ adapter rule request = true

def Matcher.scanning (adapter : Rule → Request → Bool) : Matcher where
  compileLeaf _ _ := .ok
  evaluateLeaf rules entries request :=
    (.ok, (range entries.length).filter fun position =>
      ((entries[position]?).bind fun i => rules[i]?).any fun rule => adapter rule request)

theorem Matcher.scanning_emits (adapter : Rule → Request → Bool) :
    (Matcher.scanning adapter).Emits adapter := by
  intro rules entries request
  refine ⟨rfl, fun position => ?_⟩
  simp only [Matcher.scanning, mem_filter, mem_range, Option.any_eq_true, Option.bind_eq_some_iff]
  constructor
  · rintro ⟨-, rule, ⟨i, hi, hrule⟩, hmatch⟩
    exact ⟨i, rule, hi, hrule, hmatch⟩
  rintro ⟨i, rule, hi, hrule, hmatch⟩
  exact ⟨(List.getElem?_eq_some_iff.mp hi).1, rule, ⟨i, hi, hrule⟩, hmatch⟩

/-! ### What a part of an evaluation adds -/

variable {rules : List Rule}

structure Best.Holds (rules : List Rule) (S : ℕ → Prop) (best : Best) : Prop where
  deny : Least sizeMax (fun i => S i ∧ RuleAt rules i fun r => r.effect = .deny) best.deny
  allow : Least sizeMax (fun i => S i ∧ RuleAt rules i fun r => r.effect = .allow) best.allow

variable {S T : ℕ → Prop} {best : Best}

theorem holds_empty : Best.Holds rules (fun _ => False) ⟨sizeMax, sizeMax⟩ :=
  ⟨Least.empty.congr (by simp), Least.empty.congr (by simp)⟩

theorem Best.Holds.congr (h : best.Holds rules S) (hST : ∀ i, S i ↔ T i) : best.Holds rules T :=
  ⟨h.deny.congr fun i => by rw [hST], h.allow.congr fun i => by rw [hST]⟩

variable {matcher : Option Matcher} {rule : Rule} {α : Type*}

theorem Best.Holds.note (h : best.Holds rules S) (hi : rules[i]? = some rule)
    (hsize : i < sizeMax) : (best.note rule i).Holds rules fun j => S j ∨ j = i := by
  have heffect : ∀ effect, RuleAt rules i (fun r => r.effect = effect) ↔ rule.effect = effect := by
    intro effect
    simp [RuleAt, hi]
  have hother : ∀ effect, rule.effect ≠ effect → ∀ j,
      (S j ∧ RuleAt rules j fun r => r.effect = effect) ↔
        (S j ∨ j = i) ∧ RuleAt rules j fun r => r.effect = effect := by
    intro effect hne j
    constructor
    · exact fun hj => ⟨.inl hj.1, hj.2⟩
    rintro ⟨hj | rfl, hrule⟩
    · exact ⟨hj, hrule⟩
    · exact absurd ((heffect effect).mp hrule) hne
  have hsame : ∀ effect, rule.effect = effect → ∀ j,
      ((S j ∧ RuleAt rules j fun r => r.effect = effect) ∨ j = i) ↔
        (S j ∨ j = i) ∧ RuleAt rules j fun r => r.effect = effect := by
    intro effect heq j
    constructor
    · rintro (hj | rfl)
      · exact ⟨.inl hj.1, hj.2⟩
      · exact ⟨.inr rfl, (heffect effect).mpr heq⟩
    rintro ⟨hj | rfl, hrule⟩
    · exact .inl ⟨hj, hrule⟩
    · exact .inr rfl
  cases heq : rule.effect with
  | deny =>
    simp only [Best.note, heq]
    exact ⟨(h.deny.keep hsize).congr (hsame _ heq), h.allow.congr (hother _ (by simp [heq]))⟩
  | allow =>
    simp only [Best.note, heq]
    exact ⟨h.deny.congr (hother _ (by simp [heq])), (h.allow.keep hsize).congr (hsame _ heq)⟩

def Adds (rules : List Rule) (part : Best → Except Status Best) (T : ℕ → Prop) : Prop :=
  ∀ S best, Best.Holds rules S best →
    ∃ best', part best = .ok best' ∧ Best.Holds rules (fun i => S i ∨ T i) best'

theorem Adds.congr (h : Adds rules part T) (hTT : ∀ i, T i ↔ T' i) : Adds rules part T' := by
  intro S best hbest
  obtain ⟨best', hpart, hbest'⟩ := h S best hbest
  exact ⟨best', hpart, hbest'.congr fun i => by rw [hTT]⟩

theorem adds_nothing : Adds rules (fun best => .ok best) fun _ => False :=
  fun _ best hbest => ⟨best, rfl, hbest.congr (by simp)⟩

theorem Adds.bind {part next : Best → Except Status Best} (h : Adds rules part T)
    (h' : Adds rules next T') :
    Adds rules (fun best => (part best).bind next) fun i => T i ∨ T' i := by
  intro S best hbest
  obtain ⟨best', hpart, hbest'⟩ := h S best hbest
  obtain ⟨best'', hnext, hbest''⟩ := h' _ best' hbest'
  refine ⟨best'', ?_, hbest''.congr fun i => or_assoc⟩
  simp only [hpart, Except.bind, hnext]

theorem adds_foldlM {turn : Best → α → Except Status Best} {A : α → ℕ → Prop} {l : List α}
    (h : ∀ a ∈ l, Adds rules (fun best => turn best a) (A a)) :
    Adds rules (fun best => l.foldlM turn best) fun i => ∃ a ∈ l, A a i := by
  induction l with
  | nil => exact adds_nothing.congr (by simp)
  | cons a l ih =>
    have hrest := ih fun b hb => h b (mem_cons_of_mem a hb)
    refine ((h a (mem_cons_self ..)).bind hrest).congr fun i => ?_
    simp

/-! ### The parts of an evaluation -/

variable {request : Request}

def plainMatches (request : Request) (rule : Rule) : Prop :=
  subjectMatches rule request.principal = true ∧ resourceMatches rule request = .ok true

section

variable (hrules : rules.length ≤ maxRules)

include hrules

theorem adds_evaluateEntry {i : ℕ} (hi : rules[i]? = some rule)
    (hkind : rule.matchKind ≠ .adapter) :
    Adds rules (fun best => evaluateEntry rules request best i)
      fun j => j = i ∧ plainMatches request rule := by
  intro S best hbest
  have hsize : i < sizeMax := by
    have : i < rules.length := (List.getElem?_eq_some_iff.mp hi).1
    simp only [maxRules] at hrules
    simp only [sizeMax]
    omega
  obtain ⟨matched, hmatched⟩ : ∃ matched, resourceMatches rule request = .ok matched := by
    unfold resourceMatches
    cases hk : rule.matchKind with
    | exact | prefixed => exact ⟨_, rfl⟩
    | adapter => exact absurd hk hkind
  by_cases hsubject : subjectMatches rule request.principal = true
  · cases matched with
    | true =>
      refine ⟨best.note rule i, ?_, (hbest.note hi hsize).congr fun j => ?_⟩
      · simp [evaluateEntry, hi, hsubject, hmatched, Except.map]
      · simp [plainMatches, hsubject, hmatched]
    | false =>
      refine ⟨best, ?_, hbest.congr fun j => ?_⟩
      · simp [evaluateEntry, hi, hsubject, hmatched, Except.map]
      · simp [plainMatches, hmatched]
  refine ⟨best, ?_, hbest.congr fun j => ?_⟩
  · simp [evaluateEntry, hi, hsubject]
  · simp [plainMatches, hsubject]

theorem adds_evaluateEntries
    (hentries : ∀ i ∈ entries, RuleAt rules i fun r => r.matchKind ≠ .adapter) :
    Adds rules (evaluateEntries rules request entries)
      fun i => i ∈ entries ∧ RuleAt rules i (plainMatches request) := by
  have hturn : ∀ i ∈ entries, Adds rules (fun best => evaluateEntry rules request best i)
      fun j => j = i ∧ RuleAt rules i (plainMatches request) := by
    intro i hi
    obtain ⟨rule, hrule, hkind⟩ := hentries i hi
    refine (adds_evaluateEntry hrules hrule hkind).congr fun j => ?_
    simp [RuleAt, hrule]
  refine (adds_foldlM hturn).congr fun j => ?_
  constructor
  · rintro ⟨i, hi, rfl, hrule⟩
    exact ⟨hi, hrule⟩
  rintro ⟨hj, hrule⟩
  exact ⟨j, hj, rfl, hrule⟩

variable {adapter : Rule → Request → Bool}

theorem adapterEmit_holds (hentries : ∀ i ∈ entries, RuleAt rules i fun r => r.matchKind = .adapter)
    {positions : List ℕ} (hpositions : ∀ p ∈ positions, p < entries.length)
    (hbest : best.Holds rules S) :
    ∃ best', positions.foldl (adapterEmit rules entries) (.ok, best) = (.ok, best') ∧
      best'.Holds rules fun i => S i ∨ ∃ p ∈ positions, entries[p]? = some i := by
  induction positions generalizing S best with
  | nil => exact ⟨best, rfl, hbest.congr (by simp)⟩
  | cons p positions ih =>
    have hp : p < entries.length := hpositions p (mem_cons_self ..)
    have hi : entries[p]? = some entries[p] := getElem?_eq_getElem hp
    obtain ⟨rule, hrule, hkind⟩ := hentries entries[p] (getElem_mem hp)
    have hsize : entries[p] < sizeMax := by
      have : entries[p] < rules.length := (List.getElem?_eq_some_iff.mp hrule).1
      simp only [maxRules] at hrules
      simp only [sizeMax]
      omega
    have hemit : adapterEmit rules entries (.ok, best) p = (.ok, best.note rule entries[p]) := by
      simp [adapterEmit, hi, hrule, hkind]
    obtain ⟨best', hfold, hbest'⟩ :=
      ih (fun q hq => hpositions q (mem_cons_of_mem p hq)) (hbest.note hrule hsize)
    refine ⟨best', by rw [foldl_cons, hemit, hfold], hbest'.congr fun i => ?_⟩
    simp only [mem_cons, exists_eq_or_imp, hi, Option.some.injEq, or_assoc]
    exact or_congr_right (or_congr_left eq_comm)

theorem adds_evaluateAdapterLeaf (hvalid : ∀ r ∈ rules, ruleValid matcher r = true)
    (hemits : ∀ m, matcher = some m → m.Emits adapter) {leaf : Leaf} (hready : leaf.Ready)
    (hentries : ∀ i ∈ leaf.entries, RuleAt rules i fun r => r.matchKind = .adapter) :
    Adds rules (evaluateAdapterLeaf matcher rules request (some leaf))
      fun i => i ∈ leaf.entries ∧ RuleAt rules i fun r => adapter r request = true := by
  intro S best hbest
  by_cases hempty : leaf.entries = []
  · exact ⟨best, by simp [evaluateAdapterLeaf, hempty], hbest.congr (by simp [hempty])⟩
  obtain ⟨m, rfl⟩ : ∃ m, matcher = some m := by
    obtain ⟨i, hi⟩ := exists_mem_of_ne_nil _ hempty
    obtain ⟨rule, hrule, hkind⟩ := hentries i hi
    have hv := hvalid rule (mem_of_getElem? hrule)
    cases matcher with
    | some m => exact ⟨m, rfl⟩
    | none => simp [ruleValid, hkind] at hv
  obtain ⟨hstatus, hpositions⟩ := hemits m rfl rules leaf.entries request
  have hbounds : ∀ p ∈ (m.evaluateLeaf rules leaf.entries request).2, p < leaf.entries.length := by
    intro p hp
    obtain ⟨i, -, hi, -⟩ := (hpositions p).mp hp
    exact (List.getElem?_eq_some_iff.mp hi).1
  obtain ⟨best', hfold, hbest'⟩ := adapterEmit_holds hrules hentries hbounds hbest
  refine ⟨best', ?_, hbest'.congr fun i => or_congr_right ?_⟩
  · simp [evaluateAdapterLeaf, hempty, hready hempty, hstatus, hfold]
  constructor
  · rintro ⟨p, hp, hi⟩
    obtain ⟨i', rule, hi', hrule, hadapter⟩ := (hpositions p).mp hp
    obtain rfl : i' = i := Option.some.inj (hi'.symm.trans hi)
    exact ⟨mem_of_getElem? hi, rule, hrule, hadapter⟩
  rintro ⟨hi, rule, hrule, hadapter⟩
  obtain ⟨p, hp⟩ := getElem?_of_mem hi
  exact ⟨p, (hpositions p).mpr ⟨i, rule, hp, hrule, hadapter⟩, hp⟩

end

/-! ### One subject -/

/-- The rules of a subject that match, among those that `sel` selects. -/
def MatchesBy (adapter : Rule → Request → Bool) (request : Request) (sel : Rule → Prop)
    (key : SubjectKey) (rule : Rule) : Prop :=
  sel rule ∧ rule.subjectKey = key ∧ patternMatches adapter rule request = true

variable {sel : Rule → Prop} {bucket : Bucket} {kind : SubjectKind} {subject : Text}

theorem mem_bucketPattern (hinit : bucket.initialized = true)
    (hmem : ∀ key i, i ∈ postings index key ↔
      RuleAt rules i fun r => sel r ∧ r.matchKind = matchKind ∧ r.patternKey = key)
    (hmask : ∀ key, index key ≠ none → masked mask key.subjectKind = true) (kind : SubjectKind)
    (subject pattern : Text) (i : ℕ) :
    i ∈ bucketPattern bucket index mask kind subject pattern ↔
      RuleAt rules i fun r =>
        sel r ∧ r.matchKind = matchKind ∧ r.subjectKey = ⟨kind, subject⟩ ∧ r.pattern = pattern := by
  have hkey : ∀ r : Rule, r.patternKey = ⟨kind, subject, pattern⟩ ↔
      r.subjectKey = ⟨kind, subject⟩ ∧ r.pattern = pattern := by
    intro r
    simp [Rule.patternKey, Rule.subjectKey, and_assoc]
  simp only [← hkey, ← hmem]
  unfold bucketPattern
  by_cases hm : masked mask kind = true
  · simp [hinit, hm]
  have hnone : index ⟨kind, subject, pattern⟩ = none := by
    by_contra hsome
    exact hm (hmask _ hsome)
  simp [hinit, hm, postings, hnone]

theorem subject_eq_nil_iff (h : ruleValid matcher rule = true) :
    rule.subjectKind = .any ↔ rule.subject = [] := by
  simp only [ruleValid, Bool.and_eq_true] at h
  have hsubject := h.1.2
  by_cases hk : rule.subjectKind = .any
  all_goals simpa [hk] using hsubject

section Subject

variable (adapter) (hrules : rules.length ≤ maxRules)
  (hb : bucket.Indexes rules sel) (hinit : bucket.initialized = true)
  (hsubject : ∀ r ∈ rules, r.subjectKey = ⟨kind, subject⟩ →
    subjectMatches r request.principal = true)

include hrules hb hinit hsubject

theorem adds_exact :
    Adds rules
      (evaluateEntries rules request
        (bucketPattern bucket bucket.exactIndex bucket.exactSubjectMask kind subject
          request.resource))
      fun i => RuleAt rules i fun r =>
        r.matchKind = .exact ∧ MatchesBy adapter request sel ⟨kind, subject⟩ r := by
  have hmem := mem_bucketPattern hinit hb.exact_mem hb.exact_mask kind subject request.resource
  refine (adds_evaluateEntries hrules fun i hi => ?_).congr fun i => ?_
  · obtain ⟨r, hr, -, hkind, -⟩ := (hmem i).mp hi
    exact ⟨r, hr, by simp [hkind]⟩
  rw [hmem]
  constructor
  · rintro ⟨⟨r, hr, hsel, hkind, hkey, hpattern⟩, -⟩
    exact ⟨r, hr, hkind, hsel, hkey, by simp [hkind, hpattern]⟩
  rintro ⟨r, hr, hkind, hsel, hkey, hpattern⟩
  have hpattern' : r.pattern = request.resource := by
    simpa [hkind] using hpattern
  refine ⟨⟨r, hr, hsel, hkind, hkey, hpattern'⟩, r, hr, hsubject r (mem_of_getElem? hr) hkey, ?_⟩
  simp [resourceMatches, hkind, hpattern']

theorem adds_prefixEntries (size : ℕ) :
    Adds rules (evaluateEntries rules request (prefixEntries bucket request kind subject size))
      fun i => RuleAt rules i fun r =>
        r.pattern = request.resource.take size ∧ r.matchKind = .prefixed ∧
          MatchesBy adapter request sel ⟨kind, subject⟩ r := by
  have hmem := mem_bucketPattern hinit hb.prefix_mem hb.prefix_mask kind subject
    (request.resource.take size)
  have hprefix : request.resource.take size <+: request.resource := take_prefix ..
  refine (adds_evaluateEntries hrules fun i hi => ?_).congr fun i => ?_
  · obtain ⟨r, hr, -, hkind, -⟩ := (hmem i).mp hi
    exact ⟨r, hr, by simp [hkind]⟩
  rw [prefixEntries, hmem]
  constructor
  · rintro ⟨⟨r, hr, hsel, hkind, hkey, hpattern⟩, -⟩
    refine ⟨r, hr, hpattern, hkind, hsel, hkey, ?_⟩
    simp only [patternMatches, hkind, isPrefixOf_iff_prefix, hpattern]
    exact hprefix
  rintro ⟨r, hr, hpattern, hkind, hsel, hkey, -⟩
  refine ⟨⟨r, hr, hsel, hkind, hkey, hpattern⟩, r, hr, hsubject r (mem_of_getElem? hr) hkey, ?_⟩
  simp only [resourceMatches, hkind, hpattern, Except.ok.injEq, isPrefixOf_iff_prefix]
  exact hprefix

/-- The probes find every prefix rule that matches: its prefix is not longer than the resource or
the longest one. -/
theorem adds_evaluatePrefixes :
    Adds rules (evaluatePrefixes rules request bucket kind subject)
      fun i => RuleAt rules i fun r =>
        r.matchKind = .prefixed ∧ MatchesBy adapter request sel ⟨kind, subject⟩ r := by
  by_cases hmask : masked bucket.prefixSubjectMask kind = true
  · have hprobes := (adds_prefixEntries adapter hrules hb hinit hsubject 0).bind
      (adds_foldlM (l := range' 1 (if request.resource.length < bucket.maxPrefixSize then
        request.resource.length else bucket.maxPrefixSize)) fun size _ =>
        adds_prefixEntries adapter hrules hb hinit hsubject size)
    have hpart : evaluatePrefixes rules request bucket kind subject = fun best =>
        (evaluateEntries rules request (prefixEntries bucket request kind subject 0) best).bind
          fun best => (range' 1 (if request.resource.length < bucket.maxPrefixSize then
            request.resource.length else bucket.maxPrefixSize)).foldlM
            (fun best size =>
              evaluateEntries rules request (prefixEntries bucket request kind subject size) best)
            best := by
      funext best
      simp only [evaluatePrefixes, hmask, if_true]
    rw [hpart]
    refine hprobes.congr fun i => ?_
    constructor
    · rintro (⟨r, hr, -, h⟩ | ⟨size, -, r, hr, -, h⟩)
      all_goals exact ⟨r, hr, h⟩
    rintro ⟨r, hr, hkind, hmatches⟩
    have hprefix : r.pattern <+: request.resource := by
      simpa [hkind] using hmatches.2.2
    have htake : r.pattern = request.resource.take r.pattern.length := prefix_iff_eq_take.mp hprefix
    have hle : r.pattern.length ≤ request.resource.length := hprefix.length_le
    have hle' : r.pattern.length ≤ bucket.maxPrefixSize :=
      hb.prefix_size r (mem_of_getElem? hr) hmatches.1 hkind
    rcases Nat.eq_zero_or_pos r.pattern.length with hzero | hpos
    · exact .inl ⟨r, hr, hzero ▸ htake, hkind, hmatches⟩
    refine .inr ⟨r.pattern.length, ?_, r, hr, htake, hkind, hmatches⟩
    rw [mem_range'_1]
    split <;> omega
  have hpart : evaluatePrefixes rules request bucket kind subject = fun best => .ok best := by
    funext best
    simp only [evaluatePrefixes, hmask, Bool.false_eq_true, if_false]
  rw [hpart]
  refine adds_nothing.congr fun i => ?_
  simp only [false_iff]
  rintro ⟨r, hr, hkind, hsel, hkey, -⟩
  -- the rule is in the index, so the mask has its kind
  have hin : i ∈ postings bucket.prefixIndex r.patternKey :=
    (hb.prefix_mem r.patternKey i).mpr ⟨r, hr, hsel, hkind, rfl⟩
  have hsome : bucket.prefixIndex r.patternKey ≠ none := by
    intro hnone
    simp [postings, hnone] at hin
  have hkind' : r.subjectKind = kind := congrArg SubjectKey.kind hkey
  exact hmask (hkind' ▸ hb.prefix_mask _ hsome)

omit hsubject in
theorem adds_subjectLeaf (request : Request) (hready : bucket.Ready)
    (hvalid : ∀ r ∈ rules, ruleValid matcher r = true)
    (hemits : ∀ m, matcher = some m → m.Emits adapter) (hany : kind = .any → subject = []) :
    Adds rules
      (evaluateAdapterLeaf matcher rules request
        (if kind = .any then some bucket.anyAdapter else bucketSubject bucket kind subject))
      fun i => RuleAt rules i fun r =>
        r.matchKind = .adapter ∧ MatchesBy adapter request sel ⟨kind, subject⟩ r := by
  by_cases hk : kind = .any
  · rw [if_pos hk]
    refine (adds_evaluateAdapterLeaf hrules hvalid hemits hready.any fun i hi => ?_).congr
      fun i => ?_
    · obtain ⟨r, hr, -, hkind, -⟩ := (hb.any_mem i).mp hi
      exact ⟨r, hr, hkind⟩
    rw [hb.any_mem]
    constructor
    · rintro ⟨⟨r, hr, hsel, hkind, hrany⟩, r', hr', hadapter⟩
      obtain rfl : r = r' := Option.some.inj (hr.symm.trans hr')
      refine ⟨r, hr, hkind, hsel, ?_, by simp [hkind, hadapter]⟩
      have hrsubject := (subject_eq_nil_iff (hvalid r (mem_of_getElem? hr))).mp hrany
      simp [Rule.subjectKey, hrany, hrsubject, hk, hany hk]
    rintro ⟨r, hr, hkind, hsel, hkey, hpattern⟩
    have hrany : r.subjectKind = .any := (congrArg SubjectKey.kind hkey).trans hk
    exact ⟨⟨r, hr, hsel, hkind, hrany⟩, r, hr, by simpa [hkind] using hpattern⟩
  rw [if_neg hk]
  cases hleaf : bucketSubject bucket kind subject with
  | none =>
    refine adds_nothing.congr fun i => ?_
    simp only [false_iff]
    rintro ⟨r, hr, hkind, hsel, hkey, -⟩
    have hrmem : r ∈ rules := mem_of_getElem? hr
    obtain ⟨hrkind, hrsubject⟩ : r.subjectKind = kind ∧ r.subject = subject := by
      simpa [Rule.subjectKey] using hkey
    have hne : r.subjectKind ≠ .any := hrkind ▸ hk
    -- the leaf of the rule is looked up: the mask has its kind, and its subject is not empty
    have hmask : masked bucket.candidateSubjectMask kind = true :=
      hrkind ▸ hb.subject_mask r hrmem hsel hkind
    have hnonempty : subject ≠ [] :=
      fun h => hne ((subject_eq_nil_iff (hvalid r hrmem)).mpr (hrsubject.trans h))
    have hnone : bucket.subjectIndex ⟨kind, subject⟩ = none := by
      simpa [bucketSubject, hinit, hnonempty, hmask] using hleaf
    have hin := (hb.subject_mem ⟨kind, subject⟩ i).mpr ⟨r, hr, hsel, hkind, hne, hkey⟩
    simp [Bucket.subjectEntries, hnone] at hin
  | some leaf =>
    have hindex : bucket.subjectIndex ⟨kind, subject⟩ = some leaf := by
      unfold bucketSubject at hleaf
      split at hleaf
      · cases hleaf
      split at hleaf
      · cases hleaf
      · exact hleaf
    have hmem : ∀ i, i ∈ leaf.entries ↔ RuleAt rules i fun r =>
        sel r ∧ r.matchKind = .adapter ∧ r.subjectKind ≠ .any ∧
          r.subjectKey = ⟨kind, subject⟩ := by
      intro i
      rw [← hb.subject_mem]
      simp [Bucket.subjectEntries, hindex]
    refine (adds_evaluateAdapterLeaf hrules hvalid hemits (hready.subject _ leaf hindex)
      fun i hi => ?_).congr fun i => ?_
    · obtain ⟨r, hr, -, hkind, -⟩ := (hmem i).mp hi
      exact ⟨r, hr, hkind⟩
    rw [hmem]
    constructor
    · rintro ⟨⟨r, hr, hsel, hkind, -, hkey⟩, r', hr', hadapter⟩
      obtain rfl : r = r' := Option.some.inj (hr.symm.trans hr')
      exact ⟨r, hr, hkind, hsel, hkey, by simp [hkind, hadapter]⟩
    rintro ⟨r, hr, hkind, hsel, hkey, hpattern⟩
    have hne : r.subjectKind ≠ .any := fun h => hk ((congrArg SubjectKey.kind hkey).symm.trans h)
    exact ⟨⟨r, hr, hsel, hkind, hne, hkey⟩, r, hr, by simpa [hkind] using hpattern⟩

theorem adds_evaluateSubject (hready : bucket.Ready)
    (hvalid : ∀ r ∈ rules, ruleValid matcher r = true)
    (hemits : ∀ m, matcher = some m → m.Emits adapter) (hany : kind = .any → subject = []) :
    Adds rules (evaluateSubject matcher rules request bucket kind subject)
      fun i => RuleAt rules i (MatchesBy adapter request sel ⟨kind, subject⟩) := by
  have hparts := (adds_exact adapter hrules hb hinit hsubject).bind
    ((adds_evaluatePrefixes adapter hrules hb hinit hsubject).bind
      (adds_subjectLeaf adapter hrules hb hinit request hready hvalid hemits hany))
  refine hparts.congr fun i => ?_
  constructor
  · rintro (⟨r, hr, -, h⟩ | ⟨r, hr, -, h⟩ | ⟨r, hr, -, h⟩) <;> exact ⟨r, hr, h⟩
  rintro ⟨r, hr, h⟩
  cases hkind : r.matchKind with
  | exact => exact .inl ⟨r, hr, hkind, h⟩
  | prefixed => exact .inr (.inl ⟨r, hr, hkind, h⟩)
  | adapter => exact .inr (.inr ⟨r, hr, hkind, h⟩)

end Subject

/-! ### All subjects -/

theorem subjectMatches_iff (h : ruleValid matcher rule = true) (principal : Principal) :
    subjectMatches rule principal = true ↔
      ∃ s ∈ subjectsOf principal, rule.subjectKey = ⟨s.1, s.2⟩ := by
  have hnil := subject_eq_nil_iff h
  unfold subjectMatches subjectsOf Rule.subjectKey
  cases hk : rule.subjectKind with
  | any => simp [hnil.mp hk]
  | principal => simp
  | role => simp
  | group => simp

theorem actionIndex_of_valid (h : requestValid request = true) :
    actionIndex request.action < 7 ∧ request.action = 1 <<< actionIndex request.action := by
  have hall : ∀ action < 128, action ≠ 0 → action &&& (action - 1) = 0 →
      actionIndex action < 7 ∧ action = 1 <<< actionIndex action := by
    decide
  simp only [requestValid, Bool.and_eq_true, decide_eq_true_eq, Bool.not_eq_true'] at h
  obtain ⟨⟨⟨⟨-, hne⟩, hword⟩, hpow⟩, hinside⟩ := h
  refine hall request.action ?_ hne hpow
  refine Nat.lt_pow_two_of_testBit (n := 7) request.action fun i hi => ?_
  have hzero : request.action &&& (2 ^ 32 - 1 - actionAll) = 0 := by
    simpa [actionOutside] using hinside
  by_contra hbit
  have hbit' : request.action.testBit i = true := by simpa using hbit
  have hi' : i < 32 := by
    by_contra hge
    exact absurd (Nat.testBit_lt_two_pow (Nat.lt_of_lt_of_le hword
      (Nat.pow_le_pow_right (by decide) (Nat.le_of_not_lt hge)))) hbit
  have hmask : ∀ j < 32, 7 ≤ j → (2 ^ 32 - 1 - actionAll).testBit j = true := by decide
  have := congrArg (fun n => Nat.testBit n i) hzero
  simp only [Nat.testBit_and, hbit', hmask i hi' hi, Nat.zero_testBit] at this
  cases this

theorem ResourceType.column_injective {t t' : ResourceType} (h : t.column = t'.column) :
    t = t' := by
  cases t <;> cases t' <;> first | rfl | cases h

theorem ResourceType.column_lt (t : ResourceType) : t.column < 5 := by
  cases t <;> decide

theorem selects_iff (h : requestValid request = true) (rule : Rule) :
    Selects request.domainId (actionIndex request.action) request.resourceType.column rule ↔
      rule.domainId = request.domainId ∧ rule.actionMask &&& request.action ≠ 0 ∧
        rule.resourceType = request.resourceType := by
  obtain ⟨hlt, haction⟩ := actionIndex_of_valid h
  have hmask : rule.actionMask &&& request.action ≠ 0 ↔
      rule.actionMask.testBit (actionIndex request.action) = true := by
    conv_lhs => rw [haction]
    exact and_shiftLeft_ne_zero rule.actionMask (actionIndex request.action)
  have htype : rule.resourceType.column = request.resourceType.column ↔
      rule.resourceType = request.resourceType :=
    ⟨ResourceType.column_injective, fun h => by rw [h]⟩
  rw [Selects, hmask, htype]
  simp only [hlt, true_and]

theorem evaluateIndex_holds {policyVersion expiresAt : ℕ} {snapshot : Snapshot}
    (hcreate : snapshotCreate matcher policyVersion expiresAt rules = .ok snapshot)
    (hemits : ∀ m, matcher = some m → m.Emits adapter) (hrequest : requestValid request = true) :
    ∃ best, evaluateIndex matcher snapshot request = .ok best ∧
      best.Holds rules fun i => RuleAt rules i fun r => ruleMatches adapter request r = true := by
  obtain ⟨-, -, hsame, hrules, hvalid, hindexes, hready⟩ := snapshotCreate_spec hcreate
  subst hsame
  have hlt := (actionIndex_of_valid hrequest).1
  have hb := hindexes.bucket request.domainId (actionIndex request.action)
    request.resourceType.column
  have hmatch : ∀ r, ruleMatches adapter request r = true ↔
      Selects request.domainId (actionIndex request.action) request.resourceType.column r ∧
        subjectMatches r request.principal = true ∧ patternMatches adapter r request = true := by
    intro r
    rw [selects_iff hrequest]
    simp [ruleMatches, and_assoc]
  -- without an initialized bucket no rule is selected
  have hnone : (snapshot.index.bucketAt request.domainId (actionIndex request.action)
      request.resourceType.column).initialized ≠ true →
      ∀ i, False ↔ RuleAt snapshot.rules i fun r => ruleMatches adapter request r = true := by
    intro hinit i
    simp only [false_iff]
    rintro ⟨r, hr, hrmatch⟩
    exact hinit (hb.initialized r (mem_of_getElem? hr) ((hmatch r).mp hrmatch).1)
  unfold evaluateIndex
  cases hroot : snapshot.index.rootIndex request.domainId with
  | none =>
    refine ⟨_, rfl, holds_empty.congr (hnone ?_)⟩
    simp [Index.bucketAt, hroot, Bucket.zero]
  | some root =>
    have hat : snapshot.index.bucketAt request.domainId (actionIndex request.action)
        request.resourceType.column =
        root (actionIndex request.action) request.resourceType.column := by
      simp [Index.bucketAt, hroot]
    rw [hat] at hb hnone
    simp only
    split
    · rename_i hinit
      have hready' := hready request.domainId _ _ hlt request.resourceType.column_lt
      simp only [Index.CellReady, hat] at hready'
      have hsubjects : ∀ s ∈ subjectsOf request.principal, Adds snapshot.rules
          (fun best => evaluateSubject matcher snapshot.rules request
            (root (actionIndex request.action) request.resourceType.column) s.1 s.2 best)
          fun i => RuleAt snapshot.rules i
            (MatchesBy adapter request (Selects request.domainId (actionIndex request.action)
              request.resourceType.column) ⟨s.1, s.2⟩) := by
        intro s hs
        refine adds_evaluateSubject adapter hrules hb hinit (fun r hr hkey => ?_) (hready' hinit)
          hvalid hemits fun hk => ?_
        · exact (subjectMatches_iff (hvalid r hr) _).mpr ⟨s, hs, hkey⟩
        simp only [subjectsOf, mem_cons, mem_append, mem_map] at hs
        rcases hs with (rfl | rfl | ⟨_, _, rfl⟩) | ⟨_, _, rfl⟩
        · rfl
        all_goals cases hk
      obtain ⟨best, hfold, hbest⟩ := adds_foldlM hsubjects _ _ holds_empty
      refine ⟨best, hfold, hbest.congr fun i => ?_⟩
      simp only [false_or]
      constructor
      · rintro ⟨s, hs, r, hr, hsel, hkey, hpattern⟩
        exact ⟨r, hr, (hmatch r).mpr ⟨hsel,
          (subjectMatches_iff (hvalid r (mem_of_getElem? hr)) _).mpr ⟨s, hs, hkey⟩, hpattern⟩⟩
      rintro ⟨r, hr, hrmatch⟩
      obtain ⟨hsel, hsubject, hpattern⟩ := (hmatch r).mp hrmatch
      obtain ⟨s, hs, hkey⟩ := (subjectMatches_iff (hvalid r (mem_of_getElem? hr)) _).mp hsubject
      exact ⟨s, hs, r, hr, hsel, hkey, hpattern⟩
    rename_i hinit
    exact ⟨_, rfl, holds_empty.congr (hnone hinit)⟩

theorem Best.Holds.decision_eq (hrules : rules.length ≤ maxRules) (policyVersion : ℕ)
    (h : best.Holds rules fun i => RuleAt rules i fun r => ruleMatches adapter request r = true) :
    best.decision policyVersion = linearScan adapter rules request policyVersion := by
  have hsize : ∀ i P, RuleAt rules i P → i < sizeMax := by
    rintro i P ⟨r, hr, -⟩
    have : i < rules.length := (List.getElem?_eq_some_iff.mp hr).1
    simp only [maxRules] at hrules
    simp only [sizeMax]
    omega
  have hfirst : ∀ effect, Least sizeMax
      (fun i => (RuleAt rules i fun r => ruleMatches adapter request r = true) ∧
        RuleAt rules i fun r => r.effect = effect)
      ((firstMatch adapter rules request effect).getD sizeMax) := by
    intro effect
    refine (least_findIdx rules _).congr fun i => ?_
    constructor
    · rintro ⟨r, hr, hboth⟩
      rw [Bool.and_eq_true, decide_eq_true_iff] at hboth
      exact ⟨⟨r, hr, hboth.1⟩, r, hr, hboth.2⟩
    rintro ⟨⟨r, hr, hmatch⟩, r', hr', heffect⟩
    obtain rfl : r = r' := Option.some.inj (hr.symm.trans hr')
    exact ⟨r, hr, by simp [hmatch, heffect]⟩
  have hbound : ∀ effect i, firstMatch adapter rules request effect = some i → i ≠ sizeMax := by
    intro effect i hi
    obtain ⟨hlt, -, -⟩ := findIdx?_eq_some_iff_getElem.mp hi
    exact Nat.ne_of_lt (hsize i (fun _ => True) ⟨rules[i], getElem?_eq_getElem hlt, trivial⟩)
  have hdeny : best.deny = (firstMatch adapter rules request .deny).getD sizeMax :=
    h.deny.unique (hfirst .deny) fun i hi => hsize i _ hi.1
  have hallow : best.allow = (firstMatch adapter rules request .allow).getD sizeMax :=
    h.allow.unique (hfirst .allow) fun i hi => hsize i _ hi.1
  unfold Best.decision linearScan
  rw [hdeny, hallow]
  cases hd : firstMatch adapter rules request .deny with
  | some i => simp [hbound _ _ hd]
  | none =>
    cases ha : firstMatch adapter rules request .allow with
    | some i => simp [hbound _ _ ha]
    | none => simp

/-- The index of every snapshot decides every request that passes the checks as a scan of the rules
does. -/
theorem evaluateOn_eq_linearScan (matcher : Option Matcher) (adapter : Rule → Request → Bool)
    (policyVersion expiresAt : ℕ) (rules : List Rule) (snapshot : Snapshot)
    (hcreate : snapshotCreate matcher policyVersion expiresAt rules = .ok snapshot)
    (hemits : ∀ m, matcher = some m → m.Emits adapter) (request : Request)
    (hrequest : requestValid request = true) (now : ℕ) (hpasses : Passes snapshot request now) :
    evaluateOn matcher (some snapshot) request now =
      (.ok, linearScan adapter rules request policyVersion) := by
  obtain ⟨hversion, -, -, hrules, -⟩ := snapshotCreate_spec hcreate
  obtain ⟨best, hindex, hbest⟩ := evaluateIndex_holds hcreate hemits hrequest
  have hdomain : ¬ (request.principal.scope ≠ .system ∧
      (request.domainId = [] ∨ request.principal.domainId ≠ request.domainId)) := by
    rintro ⟨hscope, hmismatch⟩
    rcases hpasses.domain with h | ⟨hne, heq⟩
    · exact hscope h
    · exact hmismatch.elim hne fun h => h heq
  have hclock : ¬ (request.principal.expiresAt ≠ 0 ∧ now = 0) ∧
      ¬ (request.principal.expiresAt ≠ 0 ∧ request.principal.expiresAt ≤ now) := by
    have := hpasses.principal
    simp only [expired, Bool.and_eq_false_iff, Bool.or_eq_false_iff,
      decide_eq_false_iff_not] at this
    exact ⟨fun h => this.elim (fun h' => h' h.1) fun h' => h'.1 h.2,
      fun h => this.elim (fun h' => h' h.1) fun h' => h'.2 h.2⟩
  have hcurrent : ¬ (request.principal.policyVersion ≠ snapshot.policyVersion ∨
      expired snapshot.expiresAt now = true) := by
    rintro (h | h)
    · exact h hpasses.version
    rw [hpasses.snapshot] at h
    cases h
  simp only [evaluateOn, if_neg hdomain, if_neg hclock.1, if_neg hclock.2, if_neg hcurrent, hindex]
  rw [hbest.decision_eq hrules, hversion]

theorem exists_ok_of_isOk {ε : Type*} {x : Except ε α} (h : x.isOk = true) : ∃ a, x = .ok a := by
  cases x with
  | ok a => exact ⟨a, rfl⟩
  | error e => cases h

def resourceMatcher : Matcher :=
  .scanning fun rule request => rule.pattern = request.resource

def roleRules : List Rule :=
  [⟨.allow, .any, [], [100], 1, .generic, .prefixed, []⟩,
    ⟨.deny, .role, [114], [100], 3, .generic, .adapter, [120]⟩]

def roleRequest : Request :=
  ⟨⟨[112], [117], [100], [116], .domain, [[114]], [], 0, 1⟩, [100], 1, .generic, [120]⟩

/-- Everyone may connect, and the adapter rule of a role denies a resource. -/
theorem evaluateOn_eq_linearScan_role :
    ∃ snapshot, snapshotCreate (some resourceMatcher) 1 0 roleRules = .ok snapshot ∧
      evaluateOn (some resourceMatcher) (some snapshot) roleRequest 5 =
        (.ok, ⟨.deny, .denyRule, 1, 1⟩) := by
  have hok : (snapshotCreate (some resourceMatcher) 1 0 roleRules).isOk = true := by decide
  obtain ⟨snapshot, hcreate⟩ := exists_ok_of_isOk hok
  obtain ⟨hversion, hexpires, -⟩ := snapshotCreate_spec hcreate
  refine ⟨snapshot, hcreate, ?_⟩
  have hscan := evaluateOn_eq_linearScan _ _ 1 0 _ snapshot hcreate
    (by rintro _ ⟨⟩; exact Matcher.scanning_emits _) roleRequest (by decide) 5
    ⟨.inr ⟨by decide, rfl⟩, by decide, by simp [hversion, roleRequest],
      by simp [hexpires, expired]⟩
  rw [hscan]
  decide

end TurboFlow.Security
