import Backprop.Proofs.Expression
import Backprop.Proofs.Results
/-!
# What recorded expressions compute

* `Operator.apply_toValue`: on plain numbers the operators on values compute as `Number` says.
* `Workspace.Succeeds` and `Workspace.FailsWith` say how a run of consecutive nodes ends.
* `Expression.yields_added`: the nodes that recording adds end as the evaluation of the expression
  does, and what recording returned denotes its value.
-/

namespace Backprop

open Workspace

/-! ### Plain numbers -/

/-- On plain numbers an operator computes as `Number` says. -/
theorem Operator.apply_toValue {op : Operator} {a b : Number}
    (sequences : op.sequences a.toValue b.toValue = none) :
    op.apply a.toValue b.toValue = (op.plain a b).map Number.toValue := by
  unfold apply applyWithin
  cases a <;> cases b <;> simp only [Number.toValue] at sequences ⊢ <;> rw [sequences] <;> rfl

theorem Value.neg_toValue (a : Number) : Value.neg a.toValue = .ok a.neg.toValue := by
  cases a <;> rfl

namespace BinaryOperator

/-- What an operator is on values. -/
def onValues : BinaryOperator → Operator
  | add => .add
  | sub => .sub
  | mul => .mul
  | div => .div
  | pow => .pow

theorem onValues_toValue (op : BinaryOperator) (a b : Number) :
    op.onValues.apply a.toValue b.toValue = (op.plain a b).map Number.toValue := by
  cases op <;> exact Operator.apply_toValue (by cases a <;> cases b <;> rfl)

/-- The built-in kernel of an operator, with or without tests. -/
theorem builtin_get (op : BinaryOperator) : ∃ o, Registry.builtin.get op.kind = .ok o ∧
    ∀ testing x y, o.forwardKernel testing [x, y] [] = op.onValues.apply x y := by
  cases op <;> exact ⟨_, rfl, fun testing _ _ => by cases testing <;> rfl⟩

end BinaryOperator

theorem Registry.builtin_get_neg : ∃ o, Registry.builtin.get "neg" = .ok o ∧
    ∀ testing x, o.forwardKernel testing [x] [] = Value.neg x :=
  ⟨_, rfl, fun testing _ => by cases testing <;> rfl⟩

/-! ### Consecutive nodes -/

namespace Workspace

variable {ws : Workspace} {I : Interpretation} {id next count more : Nat} {e : Error}
  {l l' : List Node}

/-- Whether so many nodes from a handle on have results. -/
def Succeeds (ws : Workspace) (I : Interpretation) (id next count : Nat) : Prop :=
  Throughout (fun n => ∃ outs, ws.results I n = .ok outs) id next count

/-- Whether the first of so many nodes that has no results fails with an error. -/
def FailsWith (ws : Workspace) (I : Interpretation) (id next count : Nat) (e : Error) : Prop :=
  ∃ k < count, ws.results I ⟨id, next + k⟩ = .error e ∧ ws.Succeeds I id next k

theorem Succeeds.failsWith (h : ws.Succeeds I id next count)
    (h' : ws.FailsWith I id (next + count) more e) : ws.FailsWith I id next (count + more) e := by
  obtain ⟨k, hk, failed, fine⟩ := h'
  exact ⟨count + k, by omega, by rwa [← Nat.add_assoc], throughout_add.mpr ⟨h, fine⟩⟩

/-- A node that an operator recorded applies the built-in kernel. -/
theorem Sound.results_called (sound : ws.Sound) {n : NodeRef} {kind : String} {operands : List Value}
    {op : Operation} (node : ws.node n = Expression.called kind operands)
    (found : (ws.registryFor n.graph I.registry).get kind = .ok op) {args : List Value}
    (read : operands.mapM (read (ws.denoted I)) = .ok args) :
    ws.results I n = (op.forwardKernel I.testing args []).map fun x => [x] := by
  have operation : (ws.node n).isOperation = true := by
    rw [node]
    rfl
  rw [sound.results_operation operation, applied, node]
  simp only [Expression.called, Graph.calledNode, found, read, components, bind, Except.bind,
    List.mapM_nil, pure, Except.pure, if_true]
  cases op.forwardKernel I.testing args [] <;> rfl

/-- What an operator with these results denotes. -/
theorem denoted_of_results {n : NodeRef} {x : Value} (results : ws.results I n = .ok [x]) :
    ws.denoted I n = .ok x := by
  rw [denoted, results]
  rfl

/-- How the nodes that stand for a computation end: they have results, the last of which denotes its
value, or the first that has none fails like it. -/
def Yields (ws : Workspace) (I : Interpretation) (id next : Nat) (l : List Node) (v : Value) :
    Except Error Number → Prop
  | .ok x => ws.Succeeds I id next l.length ∧ read (ws.denoted I) v = .ok x.toValue
  | .error e => ws.FailsWith I id next l.length e

/-- If all nodes have results, the computation has a value. -/
theorem Yields.of_succeeds {v : Value} {outcome : Except Error Number}
    (h : ws.Yields I id next l v outcome) (fine : ws.Succeeds I id next l.length) :
    ∃ x, outcome = .ok x ∧ read (ws.denoted I) v = .ok x.toValue := by
  cases outcome with
  | ok x => exact ⟨x, rfl, h.2⟩
  | error e =>
    obtain ⟨k, hk, failed, _⟩ := h
    obtain ⟨outs, computed⟩ := fine k hk
    cases failed.symm.trans computed

/-- If a node has no results, the computation fails like the first such node. -/
theorem Yields.of_failsWith {v : Value} {outcome : Except Error Number}
    (h : ws.Yields I id next l v outcome) (fails : ws.FailsWith I id next l.length e) :
    outcome = .error e := by
  obtain ⟨j, hj, failed, fine⟩ := fails
  cases outcome with
  | ok x =>
    obtain ⟨outs, computed⟩ := h.1 j hj
    cases failed.symm.trans computed
  | error e' =>
    obtain ⟨k, hk, failed', fine'⟩ := h
    rcases Nat.lt_trichotomy j k with less | rfl | less
    · obtain ⟨outs, computed⟩ := fine' j less
      cases failed.symm.trans computed
    · cases failed.symm.trans failed'
      rfl
    · obtain ⟨outs, computed⟩ := fine k less
      cases failed'.symm.trans computed

/-- After a failure nothing else matters. -/
theorem FailsWith.yields {v : Value} (h : ws.FailsWith I id next l.length e) :
    ws.Yields I id next (l ++ l') v (.error e) := by
  obtain ⟨k, hk, failed, fine⟩ := h
  exact ⟨k, by rw [List.length_append]; omega, failed, fine⟩

/-- Nodes that stand for what is computed after other nodes. -/
theorem Succeeds.yields {v : Value} {outcome : Except Error Number}
    (h : ws.Succeeds I id next l.length) (h' : ws.Yields I id (next + l.length) l' v outcome) :
    ws.Yields I id next (l ++ l') v outcome := by
  cases outcome with
  | ok x => exact ⟨by rw [List.length_append]; exact throughout_add.mpr ⟨h, h'.1⟩, h'.2⟩
  | error e =>
    have failed := h.failsWith h'
    rwa [← List.length_append] at failed

/-- The node of one operation. -/
theorem yields_one {m : Node} {outcome : Except Error Number}
    (results : ws.results I ⟨id, next⟩ = outcome.map fun x => [x.toValue]) :
    ws.Yields I id next [m] (.node ⟨id, next⟩) outcome := by
  cases outcome with
  | ok x => exact ⟨throughout_one.mpr ⟨_, results⟩, denoted_of_results results⟩
  | error e => exact ⟨0, Nat.one_pos, results, throughout_zero⟩

/-- What uses the value of a computation comes behind it. -/
theorem Yields.bind {a v : Value} {outcome : Except Error Number}
    {rest : Number → Except Error Number} (first : ws.Yields I id next l a outcome)
    (second : ∀ x, read (ws.denoted I) a = .ok x.toValue →
      ws.Yields I id (next + l.length) l' v (rest x)) :
    ws.Yields I id next (l ++ l') v (outcome >>= rest) := by
  cases outcome with
  | ok x => exact Succeeds.yields first.1 (second x first.2)
  | error e => exact FailsWith.yields first

end Workspace

namespace Expression

variable {ws : Workspace} {I : Interpretation} {id k : Nat} {held : NodeRef → Int}

/-- The node of an operator computes its value from those of the operands. -/
theorem yields_called (sound : ws.Sound) (supports : Supports (ws.registryFor id I.registry))
    {next : Nat} (op : BinaryOperator) {a b : Value} {x y : Number}
    (node : ws.node ⟨id, next⟩ = called op.kind [a, b])
    (left : read (ws.denoted I) a = .ok x.toValue) (right : read (ws.denoted I) b = .ok y.toValue) :
    ws.Yields I id next [called op.kind [a, b]] (.node ⟨id, next⟩) (op.plain x y) := by
  obtain ⟨o, builtin, kernel⟩ := op.builtin_get
  have found := (supports op.kind (kind_mem_kinds op)).trans builtin
  have args : [a, b].mapM (read (ws.denoted I)) = .ok [x.toValue, y.toValue] := by
    rw [List.mapM_cons, left, List.mapM_cons, right]
    rfl
  refine yields_one ?_
  rw [sound.results_called node found args, kernel, op.onValues_toValue]
  cases op.plain x y <;> rfl

theorem yields_neg (sound : ws.Sound) (supports : Supports (ws.registryFor id I.registry))
    {next : Nat} {a : Value} {x : Number} (node : ws.node ⟨id, next⟩ = called "neg" [a])
    (operand : read (ws.denoted I) a = .ok x.toValue) :
    ws.Yields I id next [called "neg" [a]] (.node ⟨id, next⟩) (.ok x.neg) := by
  obtain ⟨o, builtin, kernel⟩ := Registry.builtin_get_neg
  have found := (supports "neg" (by simp [kinds])).trans builtin
  have args : [a].mapM (read (ws.denoted I)) = .ok [x.toValue] := by
    rw [List.mapM_cons, operand]
    rfl
  refine yields_one ?_
  rw [sound.results_called node found args, kernel, Value.neg_toValue]
  rfl

/-- The nodes that recording adds end as the evaluation of the expression does. -/
theorem yields_added (sound : ws.Sound) (supports : Supports (ws.registryFor id I.registry))
    (e : Expression k) : ∀ (given : Fin k → Value) (values : Fin k → Number) (next : Nat),
    ws.Holds id next (e.added id given next) →
    (∀ i, read (ws.denoted I) (given i) = .ok (values i).toValue) →
    (∀ n ∈ e.leaves, ws.denoted I n = .ok (.int (held n))) →
    ws.Yields I id next (e.added id given next) (e.result id given next) (e.eval held values) := by
  induction e with
  | node n =>
    intro given values next _ _ leaves
    rw [added, result]
    exact ⟨throughout_zero, leaves n (List.mem_singleton_self n)⟩
  | constant c =>
    intro given values next _ _ _
    rw [added, result]
    exact ⟨throughout_zero, rfl⟩
  | bound i =>
    intro given values next _ known _
    rw [added, result]
    exact ⟨throughout_zero, known i⟩
  | neg x ih =>
    intro given values next holds known leaves
    rw [added] at holds
    rw [added, result, eval]
    refine (ih given values next holds.left known leaves).bind fun a denotes => ?_
    exact yields_neg sound supports holds.last denotes
  | apply op x y ihx ihy =>
    intro given values next holds known leaves
    rw [added] at holds
    rw [Expression.leaves, List.forall_mem_append] at leaves
    rw [added, result, eval, List.append_assoc, ← Nat.add_assoc]
    refine (ihx given values next holds.left.left known leaves.1).bind fun a denotesx => ?_
    refine (ihy given values _ holds.left.right known leaves.2).bind fun b denotesy => ?_
    have node := holds.last
    rw [List.length_append, ← Nat.add_assoc] at node
    exact yields_called sound supports op node denotesx denotesy
  | bind x body ihx ihbody =>
    intro given values next holds known leaves
    rw [added] at holds
    rw [Expression.leaves, List.forall_mem_append] at leaves
    rw [added, result, eval]
    refine (ihx given values next holds.left known leaves.1).bind fun a denotes => ?_
    refine ihbody _ (Fin.cons a values) _ holds.right (fun i => ?_) leaves.2
    cases i using Fin.cases with
    | zero => exact denotes
    | succ i => exact known i

end Expression

end Backprop
