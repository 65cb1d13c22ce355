import TurboFlow.Status

/-!
# Lowering of expressions

An expression is lowered to a MIR function over the slots of a frame: a node finds its left operand
in the slot it writes to, and its right operand in the next one; `and` and `or` branch over the
right one. The function returns what the tree evaluates to, and the depth check leaves slots enough.
-/

namespace TurboFlow.Lowering

open List
open Function (update update_of_ne)

variable {κ α : Type}

inductive Value (α : Type)
  | null
  | bool (b : Bool)
  | other (a : α)

/-- The tree of a `flow_expr_ast_t`. A binary node has a kind, or is an `and` or an `or`. -/
inductive Expr (κ : Type)
  | leaf (kind : κ)
  | unary (kind : κ) (left : Expr κ)
  | binary (node : κ ⊕ Bool) (left right : Expr κ)

/-- `flow_expr_mir_eval_node` at the nodes with a kind: the status and what it leaves in the
slot. -/
abbrev Operation (κ α : Type) := κ → Option (Value α) → Option (Value α) → Status × Value α

def evalNode (op : Operation κ α) :
    κ ⊕ Bool → Option (Value α) → Option (Value α) → Status × Value α
  | .inl kind, left, right => op kind left right
  | .inr conj, some (.bool b), some (.bool c) => (.ok, .bool (if conj then b && c else b || c))
  | .inr _, _, _ => (.eproto, .null)

def truth : Value α → Except Status Bool
  | .bool b => .ok b
  | _ => .error .eproto

def maxEvalDepth : ℕ := 256

def inFrame (slot : ℕ) : Bool := slot < maxEvalDepth

/-- `checkStatus` and `checkTruth` are the branches to the failure labels; `branch` is `MIR_BEQ` or
`MIR_BNE` of the truth register and zero. -/
inductive Insn (κ : Type)
  | eval (node : κ ⊕ Bool) (out : ℕ) (left right : Option ℕ)
  | checkStatus
  | truth (slot : ℕ)
  | checkTruth
  | branch (zero : Bool) (target : ℕ)
  | jump (target : ℕ)
  | label (l : ℕ)
  | move
  | ret (ok : Bool)

def failLabel : ℕ := 0

def truthFailLabel : ℕ := 1

structure Machine (α : Type) where
  frame : ℕ → Value α
  status : Status
  truth : Except Status Bool

/-- Executes the code, or looks for a label in it: all branches lead forward. -/
def exec (op : Operation κ α) : List (Insn κ) → Option ℕ → Machine α → Option (Machine α)
  | [], _, _ => none
  | .label l :: code, target, m => exec op code (if target = some l then none else target) m
  | _ :: code, some target, m => exec op code (some target) m
  | .eval node out left right :: code, none, m =>
    let r := if inFrame out && left.all inFrame && right.all inFrame then
      evalNode op node (left.map m.frame) (right.map m.frame) else (.einval, m.frame out)
    exec op code none { m with status := r.1, frame := update m.frame out r.2 }
  | .checkStatus :: code, none, m =>
    exec op code (if m.status = .ok then none else some failLabel) m
  | .truth slot :: code, none, m =>
    exec op code none
      { m with truth := if inFrame slot then Lowering.truth (m.frame slot) else .error .eproto }
  | .checkTruth :: code, none, m =>
    exec op code (if m.truth matches .ok _ then none else some truthFailLabel) m
  | .branch zero target :: code, none, m =>
    exec op code (if (m.truth matches .ok false) = zero then some target else none) m
  | .jump target :: code, none, m => exec op code (some target) m
  | .move :: code, none, m =>
    exec op code none { m with status := match m.truth with | .error rc => rc | .ok _ => .ok }
  | .ret ok :: _, none, m => some { m with status := if ok then .ok else m.status }

def statusCall (node : κ ⊕ Bool) (out : ℕ) (left right : Option ℕ) : List (Insn κ) :=
  [.eval node out left right, .checkStatus]

/-- The code behind the right operand of `and` and `or`, with the labels `short` and `done`. -/
def logicalEnd (conj : Bool) (slot short done : ℕ) : List (Insn κ) :=
  statusCall (.inr conj) slot (some slot) (some (slot + 1)) ++ [.jump done, .label short] ++
    statusCall (.inr conj) slot (some slot) (some slot) ++ [.label done]

/-- `flow_expr_mir_emit_node`, with the number of the next label. -/
def emitNode (e : Expr κ) (slot n : ℕ) : Except Status (List (Insn κ) × ℕ) :=
  if inFrame slot then
    match e with
    | .leaf kind => .ok (statusCall (.inl kind) slot none none, n)
    | .unary kind left => do
      let (code, n) ← emitNode left slot n
      .ok (code ++ statusCall (.inl kind) slot (some slot) none, n)
    | .binary (.inl kind) left right => do
      let (code, n) ← emitNode left slot n
      let (code', n) ← emitNode right (slot + 1) n
      .ok (code ++ (code' ++ statusCall (.inl kind) slot (some slot) (some (slot + 1))), n)
    | .binary (.inr conj) left right => do
      let (code, n) ← emitNode left slot n
      let (code', n') ← emitNode right (slot + 1) (n + 2)
      .ok (code ++ ([.truth slot, .checkTruth, .branch conj n] ++
        (code' ++ logicalEnd conj slot n (n + 1))), n')
  else .error .einval

/-- The slots that `flow_expr_mir_validate_depth` computes for a node. -/
def Expr.depth : Expr κ → ℕ
  | leaf _ => 1
  | unary _ left => left.depth
  | binary _ left right => max left.depth (1 + right.depth)

/-- `flow_expr_mir_compile` up to the code of the function. -/
def compile (e : Expr κ) : Except Status (List (Insn κ)) :=
  if e.depth > maxEvalDepth then .error .enospc
  else do
    let (code, _) ← emitNode e 0 2
    .ok (code ++ [.ret true, .label truthFailLabel, .move, .label failLabel, .ret false])

def result (r : Status × Value α) : Except Status (Value α) :=
  if r.1 = .ok then .ok r.2 else .error r.1

/-- `flow_expr_mir_evaluate`; a function that does not return has no result. -/
def evaluate (op : Operation κ α) (code : List (Insn κ)) : Option (Except Status (Value α)) :=
  (exec op code none ⟨fun _ => .null, .ok, .ok false⟩).map fun m => result (m.status, m.frame 0)

/-- What an expression means: the right operand of `and` and `or` counts only where it decides. -/
def Expr.eval (op : Operation κ α) : Expr κ → Except Status (Value α)
  | leaf kind => result (op kind none none)
  | unary kind left => do
    let v ← left.eval op
    result (op kind (some v) none)
  | binary (.inl kind) left right => do
    let v ← left.eval op
    let w ← right.eval op
    result (op kind (some v) (some w))
  | binary (.inr conj) left right => do
    if (← truth (← left.eval op)) = conj then return .bool (← truth (← right.eval op))
    else return .bool !conj

variable {op : Operation κ α} {code code' rest : List (Insn κ)} {m : Machine α} {slot slot' : ℕ}
  {r : Except Status (Value α)} {P : (ℕ → Value α) → Prop}

theorem exec_skip {target : ℕ} (h : .label target ∉ code) :
    exec op (code ++ rest) (some target) m = exec op rest (some target) m := by
  induction code with
  | nil => rfl
  | cons insn code ih =>
    rw [mem_cons, not_or] at h
    cases insn with
    | label l =>
      have hl : target ≠ l := fun heq => h.1 (heq ▸ rfl)
      simpa [exec, hl] using ih h.2
    | _ => exact ih h.2

/-- From frames in `P`, the code leaves the value in the slot and goes on behind its end, or looks
there for the label of the register that has the status. It changes no slot below its own. -/
def Delivers (op : Operation κ α) (P : (ℕ → Value α) → Prop) (code : List (Insn κ)) (slot : ℕ)
    (r : Except Status (Value α)) : Prop :=
  ∀ rest m, P m.frame → ∃ m' target, exec op (code ++ rest) none m = exec op rest target m' ∧
    (∀ i < slot, m'.frame i = m.frame i) ∧
    match r with
    | .ok v => target = none ∧ m'.frame slot = v
    | .error rc => rc ≠ .ok ∧ (target = some failLabel ∧ m'.status = rc ∨
      target = some truthFailLabel ∧ m'.truth = .error rc)

theorem delivers_statusCall (node : κ ⊕ Bool) {left right : Option ℕ} {a b : Option (Value α)}
    (hslots : (inFrame slot && left.all inFrame && right.all inFrame) = true)
    (h : ∀ f, P f → left.map f = a ∧ right.map f = b) :
    Delivers op P (statusCall node slot left right) slot (result (evalNode op node a b)) := by
  intro rest m hm
  obtain ⟨rfl, rfl⟩ := h _ hm
  refine ⟨_, _, rfl, fun i hi => update_of_ne hi.ne .., ?_⟩
  simp only [hslots, if_true]
  by_cases hrc : (evalNode op node (left.map m.frame) (right.map m.frame)).1 = .ok <;>
    simp [result, hrc]

theorem Delivers.mono {Q : (ℕ → Value α) → Prop} (h : Delivers op P code slot r)
    (hQ : ∀ f, Q f → P f) : Delivers op Q code slot r :=
  fun rest m hm => h rest m (hQ _ hm)

theorem Delivers.bind {f : Value α → Except Status (Value α)} (h : Delivers op P code slot' r)
    (hslot : slot ≤ slot') (hfree : ∀ l < 2, .label l ∉ code')
    (h' : ∀ v, Delivers op (fun g' => ∃ g, P g ∧ (∀ i < slot', g' i = g i) ∧ g' slot' = v) code'
      slot (f v)) :
    Delivers op P (code ++ code') slot (r >>= f) := by
  intro rest m hm
  obtain ⟨m₁, t, hexec, hkeep, hend⟩ := h (code' ++ rest) m hm
  rw [append_assoc, hexec]
  cases r with
  | ok v =>
    obtain ⟨rfl, hv⟩ := hend
    obtain ⟨m₂, t, hexec', hkeep', hend'⟩ := h' v rest m₁ ⟨_, hm, hkeep, hv⟩
    exact ⟨m₂, t, hexec', fun i hi => (hkeep' i hi).trans (hkeep i (hi.trans_le hslot)), hend'⟩
  | error rc =>
    refine ⟨m₁, t, ?_, fun i hi => hkeep i (hi.trans_le hslot), hend⟩
    rcases hend.2 with ⟨rfl, -⟩ | ⟨rfl, -⟩
    · exact exec_skip (hfree _ (by decide))
    · exact exec_skip (hfree _ (by decide))

section

variable {conj : Bool} {n : ℕ} (hn : 2 ≤ n) (hslot : inFrame slot ∧ inFrame (slot + 1))

include hn hslot

/-- Where the right operand decides. -/
theorem delivers_logicalEnd {w : Value α} :
    Delivers op (fun f => f slot = .bool conj ∧ f (slot + 1) = w) (logicalEnd conj slot n (n + 1))
      slot (.bool <$> truth w) := by
  rintro rest m ⟨hm, hw⟩
  cases w with
  | null | other a =>
    refine ⟨⟨update m.frame slot .null, .eproto, m.truth⟩, some failLabel, ?_,
      fun i hi => update_of_ne hi.ne .., by decide, .inl ⟨rfl, rfl⟩⟩
    have : failLabel ≠ n ∧ failLabel ≠ n + 1 := by simp only [failLabel]; omega
    simp [exec, logicalEnd, statusCall, evalNode, hm, hw, hslot, this]
  | bool b =>
    refine ⟨⟨update m.frame slot (.bool b), .ok, m.truth⟩, none, ?_,
      fun i hi => update_of_ne hi.ne .., by simp [truth]⟩
    cases conj <;> simp [exec, logicalEnd, statusCall, evalNode, hm, hw, hslot]

/-- What follows the left operand of `and` and `or`. -/
theorem delivers_logical {v : Value α} (hright : Delivers op (fun _ => True) code' (slot + 1) r)
    (hlabels : ∀ l, .label l ∈ code' → n + 2 ≤ l) :
    Delivers op (fun f => f slot = v)
      ([.truth slot, .checkTruth, .branch conj n] ++ (code' ++ logicalEnd conj slot n (n + 1))) slot
      (truth v >>= fun b =>
        if b = conj then r >>= fun w => .bool <$> truth w else .ok (.bool !conj)) := by
  have hend : ∀ l < 2, .label l ∉ logicalEnd (κ := κ) conj slot n (n + 1) := by
    intro l hl
    simp [logicalEnd, statusCall]
    omega
  intro rest m hm
  cases v with
  | null | other a =>
    refine ⟨{ m with truth := .error .eproto }, some truthFailLabel, ?_, fun _ _ => rfl, by decide,
      .inr ⟨rfl, rfl⟩⟩
    have hskip : .label truthFailLabel ∉ code' ++ logicalEnd conj slot n (n + 1) := by
      have := hlabels truthFailLabel
      have := hend truthFailLabel
      grind [truthFailLabel]
    simpa [exec, hm, hslot, truth] using exec_skip hskip
  | bool b =>
    by_cases hb : b = conj
    · subst hb
      have hall :
        Delivers op (fun f => f slot = .bool b) (code' ++ logicalEnd b slot n (n + 1)) slot
          (r >>= fun w => .bool <$> truth w) := by
        refine (hright.mono fun _ _ => trivial).bind (by omega) hend fun w =>
          (delivers_logicalEnd hn hslot).mono ?_
        rintro f ⟨g, hg, hkeep, hw⟩
        exact ⟨(hkeep _ (by omega)).trans hg, hw⟩
      obtain ⟨m', t, hexec, hkeep, hres⟩ := hall rest { m with truth := .ok b } hm
      refine ⟨m', t, ?_, hkeep, by simpa [truth, bind, Except.bind] using hres⟩
      cases b <;> simpa [exec, truth, hm, hslot] using hexec
    -- The branch leads to `short`, where the left operand stands for both.
    obtain rfl : b = !conj := by cases b <;> cases conj <;> simp_all
    refine ⟨⟨update m.frame slot (.bool !conj), .ok, .ok (!conj)⟩, none, ?_,
      fun i hi => update_of_ne hi.ne .., by simp [truth, bind, Except.bind]⟩
    have hskip : .label n ∉ code' := fun h => by have := hlabels n h; omega
    cases conj <;> simp [exec, logicalEnd, statusCall, evalNode, truth, hm, hslot, exec_skip hskip]

end

theorem Expr.depth_pos (e : Expr κ) : 0 < e.depth := by
  induction e <;> simp only [depth] <;> omega

theorem emitNode_spec (e : Expr κ) (slot n : ℕ) (h : slot + e.depth ≤ maxEvalDepth) (hn : 2 ≤ n) :
    ∃ code n', emitNode e slot n = .ok (code, n') ∧ n ≤ n' ∧ (∀ l, .label l ∈ code → n ≤ l) ∧
      ∀ op : Operation κ α, Delivers op (fun _ => True) code slot (e.eval op) := by
  have hslot : inFrame slot := by have := e.depth_pos; simp [inFrame]; omega
  induction e generalizing slot n with
  | leaf kind =>
    exact ⟨_, n, by rw [emitNode, if_pos hslot], le_rfl, by simp [statusCall],
      fun _ => delivers_statusCall (.inl kind) (by simp [hslot]) fun _ _ => ⟨rfl, rfl⟩⟩
  | unary kind left ih =>
    obtain ⟨code, n', hcode, hle, hlabels, hleft⟩ := ih slot n h hn hslot
    refine ⟨_, n', by rw [emitNode, if_pos hslot, hcode]; rfl, hle,
      by simpa [statusCall] using hlabels,
      fun op => (hleft op).bind le_rfl (by simp [statusCall]) fun v => ?_⟩
    exact delivers_statusCall (.inl kind) (by simp [hslot]) fun f ⟨_, _, _, hv⟩ =>
      ⟨congrArg some hv, rfl⟩
  | binary node left right ihl ihr =>
    have hdepth := right.depth_pos
    simp only [Expr.depth] at h
    obtain ⟨code, n', hcode, hle, hlabels, hleft⟩ := ihl slot n (by omega) hn hslot
    have hslot' : inFrame (slot + 1) := by simp [inFrame]; omega
    have hright := fun k (hk : n' ≤ k) => ihr (slot + 1) k (by omega) (by omega) hslot'
    cases node with
    | inl kind =>
      obtain ⟨code', n'', hcode', hle', hlabels', hright⟩ := hright n' le_rfl
      refine ⟨_, n'',
        by rw [emitNode, if_pos hslot, hcode]; simp only [bind, Except.bind]; rw [hcode'],
        by omega, ?_, fun op => (hleft op).bind le_rfl ?_ fun v =>
          ((hright op).mono fun _ _ => trivial).bind (by omega) (by simp [statusCall]) fun w => ?_⟩
      · simp only [statusCall, mem_append]
        grind
      · simp only [statusCall, mem_append]
        grind
      refine delivers_statusCall (.inl kind) (by simp [hslot, hslot']) ?_
      rintro f ⟨g, ⟨_, _, _, hv⟩, hkeep, hw⟩
      exact ⟨congrArg some ((hkeep _ (by omega)).trans hv), congrArg some hw⟩
    | inr conj =>
      obtain ⟨code', n'', hcode', hle', hlabels', hright⟩ := hright (n' + 2) (by omega)
      refine ⟨_, n'',
        by rw [emitNode, if_pos hslot, hcode]; simp only [bind, Except.bind]; rw [hcode'],
        by omega, ?_, fun op => (hleft op).bind le_rfl ?_ fun v =>
          (delivers_logical (by omega) ⟨hslot, hslot'⟩ (hright op) hlabels').mono
            fun f ⟨_, _, _, hv⟩ => hv⟩
      · simp only [logicalEnd, statusCall, mem_append]
        grind
      simp only [logicalEnd, statusCall, mem_append]
      grind

/-- The function of a tree that passes the depth check returns what the tree means. -/
theorem compile_evaluate (e : Expr κ) :
    if e.depth ≤ maxEvalDepth then
      ∃ code, compile e = .ok code ∧ ∀ op : Operation κ α, evaluate op code = some (e.eval op)
    else compile e = .error .enospc := by
  split
  case isTrue h =>
    obtain ⟨code, n, hcode, -, -, hall⟩ := emitNode_spec (α := α) e 0 2 (by omega) le_rfl
    refine ⟨_, by rw [compile, if_neg h.not_gt, hcode]; rfl, fun op => ?_⟩
    obtain ⟨m, t, hexec, -, hend⟩ := hall op [.ret true, .label truthFailLabel, .move,
      .label failLabel, .ret false] ⟨fun _ => .null, .ok, .ok false⟩ trivial
    rw [evaluate, hexec]
    cases heval : e.eval op with
    | ok v =>
      obtain ⟨rfl, rfl⟩ := heval ▸ hend
      rfl
    | error rc =>
      rw [heval] at hend
      rcases hend with ⟨hrc, ⟨rfl, rfl⟩ | ⟨rfl, ht⟩⟩
      · simp [exec, result, failLabel, truthFailLabel, hrc]
      · simp [exec, result, failLabel, truthFailLabel, hrc, ht]
  case isFalse h => rw [compile, if_pos (by omega)]

end TurboFlow.Lowering
