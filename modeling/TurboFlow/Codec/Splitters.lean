import Mathlib.Data.Finset.Card
import TurboFlow.Graph.Marking

/-!
# Nested publications of CSV splitters

A splitter publishes the rows of a message at its output source, inside the publication that came to
it. Its start checks that the output source does not lead back, but over the edges of the flow only:
two splitters may feed each other.
-/

namespace TurboFlow.Codec

open List Option
open Relation (ReflTransGen TransGen)

structure StagePlan where
  name : String
  isSource : Bool

/-- The stages of a flow and the edges between them. -/
structure FlowGraph where
  stages : List StagePlan
  edges : List (ℕ × ℕ)
  edges_lt : ∀ e ∈ edges, e.2 < stages.length

/-- A splitter: its stage, the name of its output source and its limits. -/
structure Splitter where
  stage : StagePlan
  outputSource : String
  maxRows : ℕ := 10000
  maxPayloadSize : ℕ := 16 * 1024 * 1024
  maxRowSize : ℕ := 1024 * 1024

inductive CsvStatus
  | ok
  | einval
  | enoent
  | enomem
  | eloop
  | efbig
  | eproto
  | enospc
  deriving DecidableEq

abbrev Bytes := List UInt8

/-- A parsed document; `csv_get` is null where a row has no such cell. -/
structure Document where
  columns : ℕ
  rows : List (List Bytes)

def csvDelimiter : UInt8 := 44

def csvQuote : UInt8 := 34

def appendCell (value : Bytes) : Bytes :=
  let quoted := value.any fun b => b = csvDelimiter ∨ b = csvQuote ∨ b = 13 ∨ b = 10
  let body := value.flatMap fun b => if b = csvQuote then [csvQuote, b] else [b]
  if quoted then csvQuote :: body ++ [csvQuote] else body

def appendRecord (doc : Document) (row : ℕ) : Bytes :=
  let cell column := ((doc.rows[row]?).bind (·[column]?)).getD []
  [csvDelimiter].intercalate
    ((range doc.columns).map fun column => appendCell (cell column)) ++ [10]

section Emission

variable (emit : ℕ → Bytes → Option (CsvStatus × ℕ)) (s : Splitter) (doc : Document)

/-- `flow_codec_csv_emit_row`. A publication `emit` that ends gives its status and the number of
publications nested in it. -/
def csvEmitRow (row : ℕ) : Option (CsvStatus × ℕ) :=
  let output := appendRecord doc 0 ++ appendRecord doc row
  if s.maxRowSize < output.length then some (.efbig, 0)
  else (emit row output).map fun r => (r.1, r.2 + 1)

def csvEmitRows : List ℕ → Option (CsvStatus × ℕ)
  | [] => some (.ok, 0)
  | row :: rows =>
    match csvEmitRow emit s doc row with
    | some (.ok, n) => (csvEmitRows rows).map fun r => (r.1, n + r.2)
    | r => r

/-- `flow_codec_transform_csv_split`. -/
def transformCsvSplit (parse : Bytes → Option Document) (payload : Bytes) :
    Option (CsvStatus × ℕ) :=
  if s.maxPayloadSize < payload.length then some (.efbig, 0)
  else
    match parse payload with
    | none => some (.eproto, 0)
    | some doc =>
      let rows := doc.rows.length - 1
      if s.maxRows < rows then some (.enospc, 0) else csvEmitRows emit s doc (range' 1 rows)

variable {emit s}

/-- The rows end if the publications do. -/
theorem transformCsvSplit_eq_some {parse : Bytes → Option Document} {payload : Bytes}
    (h : ∀ row output, ∃ r, emit row output = some r) :
    ∃ r, transformCsvSplit emit s parse payload = some r := by
  have hrow : ∀ doc row, ∃ r, csvEmitRow emit s doc row = some r := by
    intro doc row
    obtain ⟨r, hr⟩ := h row (appendRecord doc 0 ++ appendRecord doc row)
    rw [csvEmitRow, hr]
    split <;> exact ⟨_, rfl⟩
  have hrows : ∀ doc rows, ∃ r, csvEmitRows emit s doc rows = some r := by
    intro doc rows
    induction rows with
    | nil => exact ⟨_, rfl⟩
    | cons row rows ih =>
      obtain ⟨⟨rc, n⟩, hr⟩ := hrow doc row
      obtain ⟨r, hr'⟩ := ih
      rw [csvEmitRows, hr, hr']
      split <;> exact ⟨_, rfl⟩
  unfold transformCsvSplit
  split
  · exact ⟨_, rfl⟩
  split
  · exact ⟨_, rfl⟩
  dsimp only
  split
  · exact ⟨_, rfl⟩
  · exact hrows _ _

/-- The limits leave room for two empty rows. -/
def Splitter.Admits (s : Splitter) : Prop :=
  1 ≤ s.maxRows ∧ 2 ≤ s.maxPayloadSize ∧ 2 ≤ s.maxRowSize

theorem transformCsvSplit_eq_none {parse : Bytes → Option Document} (hs : s.Admits)
    (hparse : parse [10, 10] = some ⟨0, [[], []]⟩) (hemit : emit 1 [10, 10] = none) :
    transformCsvSplit emit s parse [10, 10] = none := by
  obtain ⟨hrows, hpayload, hrow⟩ := hs
  have houtput : appendRecord ⟨0, [[], []]⟩ 0 ++ appendRecord ⟨0, [[], []]⟩ 1 = [10, 10] := rfl
  have hemits : csvEmitRows emit s ⟨0, [[], []]⟩ [1] = none := by
    rw [csvEmitRows, csvEmitRow, houtput, hemit, if_neg (by exact Nat.not_lt.mpr hrow)]
    rfl
  rw [transformCsvSplit, if_neg (by exact Nat.not_lt.mpr hpayload), hparse]
  exact (if_neg (by dsimp only [length_cons, length_nil]; omega)).trans hemits

/-- The splitters that one run comes to, one after the other. -/
def consumeAll (consume : ℕ → Splitter × Bytes → Option (CsvStatus × ℕ)) :
    ℕ → List (Splitter × Bytes) → Option (List CsvStatus × ℕ)
  | _, [] => some ([], 0)
  | i, d :: ds => (consume i d).bind fun r =>
      (consumeAll consume (i + 1) ds).map fun rs => (r.1 :: rs.1, r.2 + rs.2)

theorem consumeAll_eq_some {consume : ℕ → Splitter × Bytes → Option (CsvStatus × ℕ)}
    {ds : List (Splitter × Bytes)} (h : ∀ d ∈ ds, ∀ i, ∃ r, consume i d = some r) (i : ℕ) :
    ∃ rs, consumeAll consume i ds = some rs := by
  induction ds generalizing i with
  | nil => exact ⟨_, rfl⟩
  | cons d ds ih =>
    obtain ⟨r, hr⟩ := h d mem_cons_self i
    obtain ⟨rs, hrs⟩ := ih (fun d hd => h d (mem_cons_of_mem _ hd)) (i + 1)
    exact ⟨_, by rw [consumeAll, hr, hrs]; rfl⟩

end Emission

namespace FlowGraph

variable (f : FlowGraph)

def findStage (name : String) : Option ℕ :=
  f.stages.findIdx? fun s => s.name = name

/-- One edge in `flow_codec_csv_source_reaches_stage`: the marked stages and `changed`. -/
def markEdge (r : List ℕ × Bool) (e : ℕ × ℕ) : List ℕ × Bool :=
  if e.1 ∈ r.1 ∧ e.2 ∉ r.1 then (e.2 :: r.1, true) else r

def markLoop : ℕ → List ℕ → Option (List ℕ)
  | 0, _ => none
  | fuel + 1, reachable =>
    let r := f.edges.foldl markEdge (reachable, false)
    if r.2 then markLoop fuel r.1 else some r.1

def sourceReachesStage (source target : ℕ) : Option Bool :=
  (f.markLoop f.stages.length [source]).map fun reachable => decide (target ∈ reachable)

def isSource (stage : ℕ) : Bool :=
  (f.stages[stage]?).any StagePlan.isSource

/-- `flow_codec_start` of a splitter. -/
def start (s : Splitter) : CsvStatus :=
  if s.stage.isSource then .einval
  else
    match f.findStage s.outputSource, f.findStage s.stage.name with
    | some source, some stage =>
      if ¬ f.isSource source then .einval
      else
        match f.sourceReachesStage source stage with
        | none => .enomem
        | some true => .eloop
        | some false => .ok
    | _, _ => .enoent

def Edge (a b : ℕ) : Prop :=
  (a, b) ∈ f.edges

/-- A publication at `a` comes to a splitter that publishes at `b`. -/
def Feeds (splitters : List Splitter) (a b : ℕ) : Prop :=
  ∃ s ∈ splitters, ∃ stage, f.findStage s.stage.name = some stage ∧
    f.findStage s.outputSource = some b ∧ ReflTransGen f.Edge a stage

def link (s : Splitter) : Option (ℕ × ℕ) :=
  (f.findStage s.stage.name).bind fun stage => (f.findStage s.outputSource).map fun b => (stage, b)

variable {f} {s : Splitter} {splitters : List Splitter} {source target a b : ℕ}

theorem link_eq_some : f.link s = some (a, b) ↔
    f.findStage s.stage.name = some a ∧ f.findStage s.outputSource = some b := by
  simp [link, bind_eq_some_iff]

theorem findStage_lt {name : String} (h : f.findStage name = some a) : a < f.stages.length :=
  (findIdx?_eq_some_iff_findIdx_eq.mp h).1

/-- The flow with an edge from every splitter to its output source. -/
def linked (f : FlowGraph) (splitters : List Splitter) : FlowGraph where
  stages := f.stages
  edges := f.edges ++ splitters.filterMap f.link
  edges_lt := by
    rintro ⟨a, b⟩ he
    rcases mem_append.mp he with he | he
    · exact f.edges_lt _ he
    obtain ⟨s, -, hlink⟩ := mem_filterMap.mp he
    exact findStage_lt (link_eq_some.mp hlink).2

/-- Marked stages are reached from the source. -/
structure Marked (f : FlowGraph) (source : ℕ) (reachable : List ℕ) : Prop where
  nodup : reachable.Nodup
  lt : ∀ s ∈ reachable, s < f.stages.length
  start : source ∈ reachable
  path : ∀ s ∈ reachable, ReflTransGen f.Edge source s

theorem Marked.foldl {es : List (ℕ × ℕ)} {r : List ℕ × Bool} (h : Marked f source r.1)
    (hes : es ⊆ f.edges) : Marked f source (es.foldl markEdge r).1 ∧
      ((es.foldl markEdge r).2 = true → r.2 = true ∨ r.1.length < (es.foldl markEdge r).1.length) ∧
      r.1.length ≤ (es.foldl markEdge r).1.length ∧
      ((es.foldl markEdge r).2 = false →
        es.foldl markEdge r = r ∧ ∀ e ∈ es, e.1 ∈ r.1 → e.2 ∈ r.1) := by
  induction es generalizing r with
  | nil => exact ⟨h, .inl, le_rfl, by simp⟩
  | cons e es ih =>
    have hes' := cons_subset.mp hes
    rw [foldl_cons, markEdge]
    split
    · rename_i hnew
      obtain ⟨hmarked, -, hle, hclosed⟩ := @ih (e.2 :: r.1, true)
        { nodup := nodup_cons.mpr ⟨hnew.2, h.nodup⟩
          lt := forall_mem_cons.mpr ⟨f.edges_lt e hes'.1, h.lt⟩
          start := mem_cons_of_mem _ h.start
          path := forall_mem_cons.mpr ⟨(h.path _ hnew.1).tail hes'.1, h.path⟩ } hes'.2
      refine ⟨hmarked, fun _ => .inr hle, Nat.le_of_succ_le hle, fun hfalse => ?_⟩
      rw [(hclosed hfalse).1] at hfalse
      cases hfalse
    rename_i hold
    obtain ⟨hmarked, hgrows, hle, hclosed⟩ := ih h hes'.2
    refine ⟨hmarked, hgrows, hle, fun hfalse => ⟨(hclosed hfalse).1, ?_⟩⟩
    exact forall_mem_cons.mpr ⟨by tauto, (hclosed hfalse).2⟩

/-- The loop ends with marks that no edge leaves, since every further pass marks a stage. -/
theorem markLoop_spec {fuel : ℕ} {r : List ℕ} (h : Marked f source r)
    (hfuel : f.stages.length < fuel + r.length) :
    ∃ r', f.markLoop fuel r = some r' ∧ Marked f source r' ∧
      ∀ e ∈ f.edges, e.1 ∈ r' → e.2 ∈ r' := by
  induction fuel generalizing r with
  | zero =>
    have := Graph.CompiledPlan.length_le_of_lt h.nodup h.lt
    omega
  | succ fuel ih =>
    obtain ⟨hmarked, hgrows, -, hclosed⟩ :=
      @Marked.foldl f source f.edges (r, false) h (Subset.refl _)
    rw [markLoop]
    split
    · rename_i hchanged
      have := (hgrows hchanged).resolve_left (by simp)
      exact ih hmarked (by dsimp only at this; omega)
    rename_i hsame
    obtain ⟨heq, hclosed⟩ := hclosed (by simpa using hsame)
    rw [heq]
    exact ⟨r, rfl, h, hclosed⟩

theorem sourceReachesStage_eq_false_iff (hsource : source < f.stages.length) :
    f.sourceReachesStage source target = some false ↔
      ¬ ReflTransGen f.Edge source target := by
  obtain ⟨r, hloop, hmarked, hclosed⟩ := @markLoop_spec f source f.stages.length [source]
    ⟨by simp, by simpa, by simp, by simp [ReflTransGen.refl]⟩ (by simp)
  have hmem : target ∈ r ↔ ReflTransGen f.Edge source target := by
    refine ⟨hmarked.path target, fun hpath => ?_⟩
    induction hpath with
    | refl => exact hmarked.start
    | tail _ hedge ih => exact hclosed _ hedge ih
  simp [sourceReachesStage, hloop, hmem]

theorem start_eq_ok_iff : f.start s = .ok ↔ ∃ source stage,
    f.findStage s.outputSource = some source ∧ f.findStage s.stage.name = some stage ∧
      (¬ s.stage.isSource ∧ f.isSource source) ∧
      ¬ ReflTransGen f.Edge source stage := by
  unfold start
  by_cases hkind : s.stage.isSource
  · simp [hkind]
  rw [if_neg hkind]
  rcases hout : f.findStage s.outputSource with _ | source
  · simp
  rcases hstage : f.findStage s.stage.name with _ | stage
  · simp
  have hreach := @sourceReachesStage_eq_false_iff f source stage (findStage_lt hout)
  simp only [some.injEq, exists_eq_left', exists_and_left]
  split_ifs with hsource
  · rcases hloop : f.sourceReachesStage source stage with _ | _ | _ <;> simp_all
  · simp [hsource]

theorem linked_edge_iff : (f.linked splitters).Edge a b ↔ f.Edge a b ∨
    ∃ s ∈ splitters, f.findStage s.stage.name = some a ∧ f.findStage s.outputSource = some b := by
  simp [Edge, linked, link_eq_some]

theorem Feeds.path (h : f.Feeds splitters a b) : ReflTransGen (f.linked splitters).Edge a b := by
  obtain ⟨s, hs, stage, hstage, hb, hpath⟩ := h
  exact (hpath.lift id fun _ _ hedge => linked_edge_iff.mpr (.inl hedge)).tail
    (linked_edge_iff.mpr (.inr ⟨s, hs, hstage, hb⟩))

theorem feeds_of_path (h : ReflTransGen (f.linked splitters).Edge a b) :
    ∃ c, ReflTransGen (f.Feeds splitters) a c ∧
      ReflTransGen f.Edge c b := by
  induction h with
  | refl => exact ⟨a, .refl, .refl⟩
  | @tail b d _ hedge ih =>
    obtain ⟨c, hfeeds, hpath⟩ := ih
    rcases linked_edge_iff.mp hedge with hedge | ⟨s, hs, hstage, hout⟩
    · exact ⟨c, hfeeds, hpath.tail hedge⟩
    · exact ⟨d, hfeeds.tail ⟨s, hs, b, hstage, hout, hpath⟩, .refl⟩

/-- The stages that a publication can still come to by nested ones decrease along `Feeds`. -/
theorem exists_rank (hacyclic : ∀ a, ¬ TransGen (f.Feeds splitters) a a) :
    ∃ rank : ℕ → ℕ, (∀ a, rank a ≤ f.stages.length) ∧
      ∀ a b, f.Feeds splitters a b → rank b < rank a := by
  classical
  refine ⟨fun a => ((Finset.range f.stages.length).filter (TransGen (f.Feeds splitters) a)).card,
    fun a => (Finset.card_filter_le _ _).trans (Finset.card_range _).le, fun a b hfeeds => ?_⟩
  refine Finset.card_lt_card ((Finset.ssubset_iff_of_subset fun c hc => ?_).mpr ⟨b, ?_, ?_⟩)
  · rw [Finset.mem_filter] at hc ⊢
    exact ⟨hc.1, .head hfeeds hc.2⟩
  · obtain ⟨s, -, stage, -, hout, -⟩ := id hfeeds
    exact Finset.mem_filter.mpr ⟨Finset.mem_range.mpr (findStage_lt hout), .single hfeeds⟩
  · exact fun hb => hacyclic b (Finset.mem_filter.mp hb).2

/-- What a publication meets besides the splitters' own code: the parser, and the payloads that the
other stages bring to splitters behind its source, with the status of the run. The path of a
publication tells it from all others. -/
structure Traffic (f : FlowGraph) (splitters : List Splitter) where
  parse : Bytes → Option Document
  deliver : List ℕ → ℕ → Bytes → List (Splitter × Bytes)
  result : List ℕ → List CsvStatus → CsvStatus
  reached : ∀ path source payload, ∀ d ∈ deliver path source payload, d.1 ∈ splitters ∧
    ∃ stage, f.findStage d.1.stage.name = some stage ∧ ReflTransGen f.Edge source stage

namespace Traffic

/-- `turbo_flow_publish`. A publication that ends within the fuel gives its status and the number of
publications nested in it. -/
def publish (w : Traffic f splitters) : ℕ → List ℕ → String → Bytes → Option (CsvStatus × ℕ)
  | 0, _, _, _ => none
  | fuel + 1, path, name, payload =>
    match f.findStage name with
    | none => some (.enoent, 0)
    | some source =>
      (consumeAll (fun i d => transformCsvSplit (fun row => w.publish fuel (path ++ [i, row])
        d.1.outputSource) d.1 w.parse d.2) 0 (w.deliver path source payload)).map
          fun rs => (w.result path rs.1, rs.2)

variable {name : String} {fuel : ℕ}

/-- A publication ends: those nested in it are at sources of lower rank. -/
theorem publish_eq_some (w : Traffic f splitters) {rank : ℕ → ℕ}
    (hrank : ∀ a b, f.Feeds splitters a b → rank b < rank a)
    (hknown : ∀ s ∈ splitters, ∃ b, f.findStage s.outputSource = some b)
    (hname : f.findStage name = some source) (hfuel : rank source < fuel) (path : List ℕ)
    (payload : Bytes) : ∃ r, w.publish fuel path name payload = some r := by
  induction fuel generalizing name source path payload with
  | zero => omega
  | succ fuel ih =>
    have hsplit : ∀ d ∈ w.deliver path source payload, ∀ i, ∃ r, transformCsvSplit
        (fun row => w.publish fuel (path ++ [i, row]) d.1.outputSource) d.1 w.parse d.2 =
          some r := by
      intro d hd i
      obtain ⟨hmem, stage, hstage, hpath⟩ := w.reached path source payload d hd
      obtain ⟨b, hb⟩ := hknown _ hmem
      have hlt := hrank source b ⟨_, hmem, stage, hstage, hb, hpath⟩
      exact transformCsvSplit_eq_some fun row output => ih hb (by omega) _ _
    obtain ⟨rs, hrs⟩ := consumeAll_eq_some hsplit 0
    exact ⟨_, by rw [publish, hname]; simp only [hrs]; rfl⟩

end Traffic

/-- On a cycle every source has a splitter whose output source is on a cycle. -/
theorem exists_splitter_of_cycle (h : TransGen (f.Feeds splitters) a a) :
    ∃ s ∈ splitters, ∃ stage b, f.findStage s.stage.name = some stage ∧
      f.findStage s.outputSource = some b ∧ ReflTransGen f.Edge a stage ∧
      TransGen (f.Feeds splitters) b b := by
  obtain ⟨b, hfeeds, hback⟩ := TransGen.head'_iff.mp h
  obtain ⟨s, hs, stage, hstage, hout, hpath⟩ := id hfeeds
  exact ⟨s, hs, stage, b, hstage, hout, hpath, .tail' hback hfeeds⟩

open Classical in
/-- Every document has two rows, and a run from a source on a cycle comes to a splitter that
publishes at one. -/
noncomputable def cyclicTraffic (f : FlowGraph) (splitters : List Splitter) :
    Traffic f splitters where
  parse _ := some ⟨0, [[], []]⟩
  deliver _ a payload :=
    if h : TransGen (f.Feeds splitters) a a then [((exists_splitter_of_cycle h).choose, payload)]
    else []
  result _ _ := .ok
  reached path a payload d hd := by
    split at hd
    · rename_i h
      obtain ⟨hs, stage, b, hstage, -, hpath, -⟩ := (exists_splitter_of_cycle h).choose_spec
      obtain rfl := mem_singleton.mp hd
      exact ⟨hs, stage, hstage, hpath⟩
    · cases hd

theorem publish_cyclicTraffic (hadmits : ∀ s ∈ splitters, s.Admits) {name : String}
    (hname : f.findStage name = some a) (hcycle : TransGen (f.Feeds splitters) a a) (fuel : ℕ)
    (path : List ℕ) : (cyclicTraffic f splitters).publish fuel path name [10, 10] = none := by
  induction fuel generalizing name a path with
  | zero => rfl
  | succ fuel ih =>
    obtain ⟨hs, stage, b, -, hout, -, hnext⟩ := (exists_splitter_of_cycle hcycle).choose_spec
    have hdeliver : (cyclicTraffic f splitters).deliver path a [10, 10] =
        [((exists_splitter_of_cycle hcycle).choose, [10, 10])] := dif_pos hcycle
    have hsplit : transformCsvSplit (fun row => (cyclicTraffic f splitters).publish fuel
        (path ++ [0, row]) (exists_splitter_of_cycle hcycle).choose.outputSource) _
        (cyclicTraffic f splitters).parse [10, 10] = none :=
      transformCsvSplit_eq_none (hadmits _ hs) rfl (ih hout hnext _)
    simp only [Traffic.publish, hname, hdeliver, consumeAll, hsplit]
    rfl

/-- Splitters that start feed no cycle just when they also start in the flow with an edge from every
splitter to its output source. Then every publication ends, whatever the payload and the other
stages; otherwise there are documents for which one does not. -/
theorem publications_nest_finitely_iff (hstarted : ∀ s ∈ splitters, f.start s = .ok) :
    ((∀ s ∈ splitters, (f.linked splitters).start s = .ok) ↔
      ∀ a, ¬ TransGen (f.Feeds splitters) a a) ∧
    ((∀ s ∈ splitters, (f.linked splitters).start s = .ok) →
      ∀ (w : Traffic f splitters) path name payload,
        ∃ r, w.publish (f.stages.length + 1) path name payload = some r) ∧
    ((∀ s ∈ splitters, s.Admits) → ¬ (∀ s ∈ splitters, (f.linked splitters).start s = .ok) →
      ∃ (w : Traffic f splitters) (name : String) (payload : Bytes),
        ∀ fuel path, w.publish fuel path name payload = none) := by
  have hiff : (∀ s ∈ splitters, (f.linked splitters).start s = .ok) ↔
      ∀ a, ¬ TransGen (f.Feeds splitters) a a := by
    refine ⟨fun hcheck a hcycle => ?_, fun hacyclic s hs => ?_⟩
    · obtain ⟨c, hfeeds, s, hs, stage, hstage, hout, hpath⟩ := TransGen.tail'_iff.mp hcycle
      obtain ⟨source, stage', hout', hstage', -, hno⟩ := start_eq_ok_iff.mp (hcheck s hs)
      obtain rfl := some.inj (hout'.symm.trans hout)
      obtain rfl := some.inj (hstage'.symm.trans hstage)
      refine hno (.trans ?_ (hpath.lift id fun _ _ hedge => linked_edge_iff.mpr (.inl hedge)))
      exact hfeeds.lift' id fun _ _ hstep => hstep.path
    obtain ⟨source, stage, hout, hstage, hkind, -⟩ := start_eq_ok_iff.mp (hstarted s hs)
    refine start_eq_ok_iff.mpr ⟨source, stage, hout, hstage, hkind, fun hpath => ?_⟩
    obtain ⟨c, hfeeds, hpath⟩ := feeds_of_path hpath
    exact hacyclic source (.tail' hfeeds ⟨s, hs, stage, hstage, hout, hpath⟩)
  refine ⟨hiff, fun hcheck w path name payload => ?_, fun hadmits hcheck => ?_⟩
  · obtain ⟨rank, hle, hrank⟩ := exists_rank (hiff.mp hcheck)
    cases hname : f.findStage name with
    | none => exact ⟨(.enoent, 0), by rw [Traffic.publish, hname]⟩
    | some source =>
      refine w.publish_eq_some hrank (fun s hs => ?_) hname (Nat.lt_succ_of_le (hle source)) path
        payload
      obtain ⟨source, -, hout, -⟩ := start_eq_ok_iff.mp (hstarted s hs)
      exact ⟨source, hout⟩
  rw [hiff] at hcheck
  push Not at hcheck
  obtain ⟨a, hcycle⟩ := hcheck
  obtain ⟨s, -, stage, b, -, hout, -, hnext⟩ := exists_splitter_of_cycle hcycle
  exact ⟨cyclicTraffic f splitters, s.outputSource, [10, 10],
    publish_cyclicTraffic hadmits hout hnext⟩

/-- Two sources, each of which leads to a splitter. -/
def twoSources : FlowGraph where
  stages := [⟨"a", true⟩, ⟨"splitA", false⟩, ⟨"b", true⟩, ⟨"splitB", false⟩]
  edges := [(0, 1), (2, 3)]
  edges_lt := by decide

def splitA : Splitter := { stage := ⟨"splitA", false⟩, outputSource := "b" }

def splitB : Splitter := { stage := ⟨"splitB", false⟩, outputSource := "a" }

/-- Two splitters start that publish at each other's source. -/
theorem splitters_feed_each_other :
    (∀ s ∈ [splitA, splitB], twoSources.start s = .ok) ∧
      TransGen (twoSources.Feeds [splitA, splitB]) 0 0 := by
  refine ⟨by decide, .tail (.single ⟨splitA, by simp, 1, rfl, rfl, ?_⟩)
    ⟨splitB, by simp, 3, rfl, rfl, ?_⟩⟩
  all_goals exact .single (by simp [Edge, twoSources])

theorem publications_nest_finitely_iff_one :
    (∀ s ∈ [splitA], twoSources.start s = .ok) ∧
      ∀ (w : Traffic twoSources [splitA]) payload, ∃ r, w.publish 5 [] "a" payload = some r :=
  ⟨by decide, fun w payload =>
    (publications_nest_finitely_iff (by decide)).2.1 (by decide) w [] "a" payload⟩

end FlowGraph

end TurboFlow.Codec
