import Backprop.Proofs.Chain
import Backprop.Proofs.Results
import Backprop.Proofs.Derivatives
/-!
# Gradients of polynomial graphs

An evaluation of a graph of polynomials leaves the partial derivatives of its last terminal.

* `Schedules.values_whole`: slots hold the values of polynomials.
* `Schedules.pderiv_of_unmarked`: what is not marked does not depend on a leaf that is.
* `Schedules.not_failed`: an evaluation that can start succeeds.
* `Reached.gradient`: the derivatives of leaves.
-/

namespace Backprop

open MvPolynomial Workspace

/-- Whole numbers for the leaves of a net. -/
def Net.wholes (net : Net) (options : NetOptions) (z : NodeRef → Int) : Interpretation where
  registry := options.registry
  testing := false
  shown := net.shownName
  leaf n := .int (z n)

/-- Constants that are no arrays stay where they are. -/
theorem Net.constantsOf_of_still {net : Net} {i : Instruction} (kwargs : i.kwargs = [])
    (still : ∀ a ∈ i.args, (constantOf a).isMovable = false) :
    net.constantsOf i = .ok i.constants := by
  unfold Net.constantsOf
  split
  next =>
    have same : i.constants.1.mapM net.placedValue = .ok i.constants.1 := by
      have each : ∀ v ∈ i.constants.1, net.placedValue v = .ok (id v) := by
        intro v hv
        obtain ⟨a, ha, rfl⟩ := List.mem_map.mp hv
        rw [placedValue, still a ha]
        rfl
      rw [mapM_congr_mem each, mapM_eq_ok (fun _ _ => rfl), List.map_id]
    unfold Net.movedConstants
    rw [same]
    simp only [Instruction.constants, kwargs]
    rfl
  next => rfl

/-- What a backward pass begins with is worth the derivative of the last terminal at a leaf. -/
theorem Workspace.sum_starts {ws : Workspace} {order : List NodeRef} {z prior : NodeRef → Int}
    {t x : NodeRef} {accumulate : Bool} (hx : x ∈ order) (leaf : (ws.node x).isLeaf = true)
    (ht : t ∈ order) (c : Int) :
    ∑ m ∈ order.toFinset, ((if accumulate && (ws.node m).isParam then prior m else 0) +
        if m = t then c else 0) * eval z (pderiv x (ws.poly m)) =
      (if accumulate && (ws.node x).isParam then prior x else 0) +
        c * eval z (pderiv x (ws.poly t)) := by
  have old : ∑ m ∈ order.toFinset, (if accumulate && (ws.node m).isParam then prior m else 0) *
      eval z (pderiv x (ws.poly m)) = if accumulate && (ws.node x).isParam then prior x else 0 := by
    rw [Finset.sum_eq_single x]
    · rw [poly_of_leaf leaf, pderiv_X_self, map_one, mul_one]
    · intro m _ other
      split
      next param =>
        simp only [Bool.and_eq_true] at param
        rw [poly_of_leaf (by simp [Node.isLeaf, param.2]), pderiv_X_of_ne other, map_zero, mul_zero]
      next => exact zero_mul _
    · exact fun lacks => absurd (List.mem_toFinset.mpr hx) lacks
  have seed : ∑ m ∈ order.toFinset, (if m = t then c else 0) * eval z (pderiv x (ws.poly m)) =
      c * eval z (pderiv x (ws.poly t)) := by
    simp [ite_mul, Finset.sum_ite_eq', ht]
  rw [← old, ← seed, ← Finset.sum_add_distrib]
  exact Finset.sum_congr rfl fun m _ => add_mul _ _ _

namespace Schedules

variable {ws : Workspace} {options : NetOptions} {terminals order : List NodeRef}
  {keep : List String} {id : Nat} {marks : GradientMarks} {z prior : NodeRef → Int}
  {n m t x : NodeRef} {net : Net} {val : Valuation} {pass : PassOptions}
variable (sched : Schedules ws options.registry terminals keep net.schedule id order marks)
  (sound : ws.Sound) (polynomial : ws.IsPolynomial options.registry terminals)
include sched

/-- Leaves that derivatives are wanted for are marked. -/
theorem marked_of_leaf (hx : x ∈ order) (wanted : (ws.node x).isParam = true ∨
    (ws.node x).isInput = true ∧ (ws.node x).requiresGradient = true) : marks.marked x = true := by
  have settled := sched.compiled.settles.settled x hx
  unfold GradientMarks.ofNode at settled
  cases role : (ws.node x).role with
  | param data =>
    rw [role] at settled
    exact (Except.ok.inj settled).symm
  | input =>
    rw [role] at settled
    have flagged : (ws.node x).requiresGradient = true := by
      simpa [Node.isParam, Node.isInput, role] using wanted
    exact (Except.ok.inj settled).symm.trans flagged
  | _ => simp [Node.isParam, Node.isInput, role] at wanted

include polynomial

/-- The instructions of a polynomial graph run on their own constants on any device. -/
theorem constants_whole : ∀ i ∈ net.schedule.forward, net.constantsOf i = .ok i.constants := by
  intro i hi
  obtain ⟨n, member, instructs⟩ := forall₂_mem_right sched.compiled.forward i hi
  obtain ⟨hn, operation⟩ := List.mem_filter.mp member
  obtain ⟨t, term, operands⟩ := polynomial.terms n ((sched.orders.mem_iff n).mp hn) operation
  obtain ⟨_, _, kwargs, _, args⟩ := Node.term?_spec term
  refine Net.constantsOf_of_still (by rw [instructs.kwargs, kwargs]; rfl) fun a ha => ?_
  rw [instructs.args, args] at ha
  obtain ⟨v, hv, rfl⟩ := List.mem_map.mp ha
  rcases (Term.mem_args hv).elim (operands v) .inr with ⟨m, rfl⟩ | ⟨k, rfl⟩ <;> rfl

theorem interprets_whole (leaves : ∀ n, ws.Reaches terminals n → (ws.node n).isLeaf = true →
      net.boundValuation pass.inputs (net.schedule.slotFor ws n) = .int (z n)) :
    net.Interprets ws order pass.inputs (net.wholes options z) :=
  ⟨rfl, sched.constants_whole polynomial,
    fun n hn leaf => leaves n ((sched.orders.mem_iff n).mp hn) leaf⟩

include sound

/-- Slots hold the values of polynomials. -/
theorem values_whole (interprets : net.Interprets ws order pass.inputs (net.wholes options z))
    (run : net.valuesAfter false (net.boundValuation pass.inputs) net.schedule.forward = .ok val) :
    ∀ m ∈ order, val (net.schedule.slotFor ws m) = .int (eval z (ws.poly m)) := by
  intro m hm
  have results := sched.run_results (I := net.wholes options z) sound interprets
  rw [show (net.wholes options z).testing = false from rfl, run] at results
  have computed := results m hm (sched.plain sound polynomial hm)
  rw [polynomial.results_eq sound (I := net.wholes options z) rfl (fun _ _ _ => rfl)
    ((sched.orders.mem_iff m).mp hm), sched.slotCount_eq sound polynomial hm] at computed
  rw [sched.slotFor_eq sound polynomial hm]
  exact (List.singleton_inj.mp (Except.ok.inj computed)).symm

/-- What is not marked does not depend on a leaf that is. -/
theorem pderiv_of_unmarked (marked : marks.marked x = true) :
    ∀ m ∈ order, marks.marked m = false → eval z (pderiv x (ws.poly m)) = 0 := by
  intro m hm unmarked
  have closed : ∀ n, n ∈ order ∧ marks.marked n = false → ∀ m ∈ ws.inputs n,
      m ∈ order ∧ marks.marked m = false := by
    rintro n ⟨hn, unmarked⟩ m hm
    refine ⟨sched.orders.input_mem hn hm, ?_⟩
    cases operation : (ws.node n).isOperation with
    | false =>
      have leaf := Node.isLeaf_of_not_isOperation (sched.plain sound polynomial hn)
        (by simp [operation])
      obtain ⟨args, kwargs⟩ := sound.leaf leaf
      simp [Workspace.inputs, Node.inputs, args, kwargs] at hm
    | true =>
      obtain ⟨t, term, _⟩ := polynomial.terms n ((sched.orders.mem_iff n).mp hn) operation
      have kwargs := (Node.term?_spec term).2.2.1
      have settled := sched.compiled.settles.settled n hn
      simp only [GradientMarks.ofNode, (Node.isOperation_iff _).mp operation, unmarked,
        Except.ok.injEq, GradientMarks.any_eq, List.any_eq_false, Bool.not_eq_true] at settled
      refine settled m ?_
      simpa [Workspace.inputs, Node.inputs, kwargs] using hm
  rw [sound.pderiv_eq_zero (fun n => n ∈ order ∧ marks.marked n = false) closed ?_ ⟨hm, unmarked⟩,
    map_zero]
  rintro ⟨_, unmarked⟩
  rw [marked] at unmarked
  cases unmarked

/-- The derivatives that a backward pass begins with: previous ones of parameters if they are
accumulated, and the seed at the last terminal. -/
theorem starts_whole (runs : Net.Runs net.schedule net) (addition : net.table.addition = Value.add)
    (last : terminals.getLast? = some t)
    (before : pass.accumulate = true → ∀ n, ws.Reaches terminals n → (ws.node n).isParam = true →
      net.table.readDer (net.schedule.slotFor ws n) = .ok (.int (prior n))) (c : Int) :
    ∀ m ∈ order, net.startAdjoint pass.accumulate (.int c) (net.schedule.slotFor ws m) =
      .ok (.int ((if pass.accumulate && (ws.node m).isParam then prior m else 0) +
        if m = t then c else 0)) := by
  intro m hm
  have old : net.table.startDer pass.accumulate (net.schedule.slotFor ws m) =
      .ok (.int (if pass.accumulate && (ws.node m).isParam then prior m else 0)) := by
    obtain ⟨info, mem, index, _, _, describes⟩ :=
      sched.compiled.info_of_node sched.orders sound hm
    have persistent := runs.persistentAt sched.wellFormed mem
    rw [index, describes.persistent, source_of_plain (sched.plain sound polynomial hm)] at persistent
    unfold VariableTable.startDer
    rw [persistent, Bool.and_comm]
    split
    next accumulated =>
      simp only [Bool.and_eq_true] at accumulated
      exact before accumulated.1 m ((sched.orders.mem_iff m).mp hm) accumulated.2
    next => rfl
  have place : net.schedule.terminals.getLast? = some (net.schedule.slotFor ws m) ↔ m = t := by
    have ht : t ∈ order := sched.orders.root_mem (List.mem_of_getLast? last)
    rw [sched.compiled.terminalSlots, List.getLast?_map, last, Option.map_some,
      Option.some.injEq]
    exact ⟨fun same => (sched.slotFor_inj sound polynomial ht hm same).symm, fun same => by rw [same]⟩
  have seeds : net.seedsAt (.int c) (net.schedule.slotFor ws m) =
      (if m = t then [c] else []).map .int := by
    change (if net.schedule.terminals.getLast? = some (net.schedule.slotFor ws m) then
      [Value.int c] else []) = _
    by_cases here : m = t
    · rw [if_pos (place.mpr here), if_pos here]
      rfl
    · rw [if_neg (mt place.mp here), if_neg here]
      rfl
  rw [Net.startAdjoint, old, seeds]
  change net.totalOf _ _ = _
  rw [Net.totalOf_whole addition]
  by_cases here : m = t <;> simp [here]

/-- Every slot is that of a node. -/
theorem exists_slotFor {r : Slot} (has : net.schedule.HasSlot r) :
    ∃ m ∈ order, net.schedule.slotFor ws m = r := by
  obtain ⟨info, mem, rfl⟩ := has
  obtain ⟨index, m, hm, describes⟩ := sched.compiled.slots info mem
  have bound := describes.output
  rw [sched.slotCount_eq sound polynomial hm] at bound
  refine ⟨m, hm, ?_⟩
  rw [sched.slotFor_eq sound polynomial hm, index, describes.handle, Nat.lt_one_iff.mp bound]

theorem isLeaf_slotFor (hx : x ∈ order) (leaf : (ws.node x).isLeaf = true) :
    net.schedule.IsLeaf (net.schedule.slotFor ws x) := by
  obtain ⟨info, mem, index, _, _, describes⟩ := sched.compiled.info_of_node sched.orders sound hx
  rw [source_of_plain (sched.plain sound polynomial hx)] at describes
  refine ⟨info, mem, index, ?_⟩
  rw [describes.kind]
  cases role : (ws.node x).role <;>
    simp [Layout.slotKind, role, Node.isLeaf, Node.isInput, Node.isParam] at leaf ⊢

/-- An evaluation that can start succeeds. -/
theorem not_failed (interprets : net.Interprets ws order pass.inputs (net.wholes options z))
    (idle : Net.Idle net) (addition : net.table.addition = Value.add)
    (last : terminals.getLast? = some t) {now : Workspace} (ready : Net.Ready now pass net)
    (normal : pass.mode = "normal") {c : Int} {start : NodeRef → Int}
    (starts : ∀ m ∈ order, net.startAdjoint pass.accumulate (.int c) (net.schedule.slotFor ws m) =
      .ok (.int (start m))) {e : Error} : ¬ Net.Failed now pass net.schedule (.int c) net e := by
  intro failed
  cases failed with
  | forward stopped =>
    have named : Mode.ofName pass.mode = .ok .normal := by rw [normal]; rfl
    obtain ⟨n, hn, _, failed, _⟩ := sched.of_stopped (I := net.wholes options z) sound interprets
      idle ready named rfl stopped
    rw [polynomial.results_eq sound (I := net.wholes options z) rfl (fun _ _ _ => rfl)
      ((sched.orders.mem_iff n).mp hn)] at failed
    cases failed
  | seeds bad =>
    refine bad fun none => ?_
    rw [sched.compiled.terminalSlots, List.map_eq_nil_iff] at none
    rw [none] at last
    cases last
  | start has failed =>
    obtain ⟨m, hm, rfl⟩ := sched.exists_slotFor sound polynomial has
    rw [starts m hm] at failed
    cases failed
  | @backward val values failed =>
    obtain ⟨done, i, rest, split, failed⟩ := failed
    -- The instructions behind `i` that do not require gradients send nothing.
    obtain ⟨pre, behind, whole, _, filtered⟩ :=
      List.filter_eq_append_iff.mp (sched.wellFormed.forward_of_backward split)
    obtain ⟨between, post, rfl, _, _, filtered⟩ := List.filter_eq_cons_iff.mp filtered
    obtain ⟨ders, reacts⟩ := sched.reaction_ok sound polynomial addition interprets.constants
      (sched.values_whole sound polynomial interprets values) starts
      (whole.trans (List.append_assoc pre between (i :: post)).symm)
    have same : net.adjointAfter (net.startAdjoint pass.accumulate (.int c)) val done =
        net.adjointAfter (net.startAdjoint pass.accumulate (.int c)) val post := by
      unfold Net.adjointAfter
      rw [← filtered, Net.received_filter]
    rw [same, reacts] at failed
    cases failed

end Schedules

namespace Sample

theorem mem_of_reaches {n : NodeRef} (reaches : graph.Reaches (Net.terminalNodes terminals) n) :
    n ∈ [(⟨0, 0⟩ : NodeRef), ⟨0, 1⟩, ⟨0, 2⟩, ⟨0, 3⟩] := by
  induction reaches with
  | @root n mem =>
    obtain rfl : n = ⟨0, 3⟩ := List.mem_singleton.mp mem
    decide
  | @input n m _ input among =>
    have closed : ∀ n ∈ [(⟨0, 0⟩ : NodeRef), ⟨0, 1⟩, ⟨0, 2⟩, ⟨0, 3⟩], ∀ m ∈ graph.inputs n,
        m ∈ [(⟨0, 0⟩ : NodeRef), ⟨0, 1⟩, ⟨0, 2⟩, ⟨0, 3⟩] := by decide
    exact closed n among m input

theorem polynomial : graph.IsPolynomial options.registry (Net.terminalNodes terminals) := by
  refine ⟨fun n reaches operation => ?_, fun n reaches _ => ?_⟩
  · have among := mem_of_reaches reaches
    simp only [List.mem_cons, List.not_mem_nil, or_false] at among
    rcases among with rfl | rfl | rfl | rfl
    · cases operation
    · cases operation
    · exact ⟨.mul (.node ⟨0, 0⟩) (.node ⟨0, 1⟩), rfl, by simp [Term.operands]⟩
    · exact ⟨.add (.node ⟨0, 2⟩) (.node ⟨0, 0⟩), rfl, by simp [Term.operands]⟩
  · have among := mem_of_reaches reaches
    simp only [List.mem_cons, List.not_mem_nil, or_false] at among
    rcases among with rfl | rfl | rfl | rfl <;> rfl

end Sample

namespace Net

/-- A normal evaluation of a graph of polynomials with whole numbers for its leaves and a whole
number `c` as seed cannot fail once it can start. It leaves at every parameter and every input that is
flagged for gradients exactly `c` times the partial derivative of the last terminal by this leaf, on
top of the previous derivative of a parameter if these are accumulated. The partial derivative is zero
if the terminal does not depend on the leaf. -/
theorem Reached.gradient {ws : Workspace} {terminals : List Value} {options : NetOptions}
    {net : Net} {t : NodeRef} (built : ws.Built)
    (exist : ∀ n ∈ terminalNodes terminals, ws.Exists n)
    (reached : Reached ws terminals options net) (quiet : net.Quiet)
    (polynomial : ws.IsPolynomial options.registry (terminalNodes terminals))
    (last : (terminalNodes terminals).getLast? = some t) (now : Workspace) (pass : PassOptions)
    (normal : pass.mode = "normal") (z prior : NodeRef → Int)
    (leaves : ∀ n, ws.Reaches (terminalNodes terminals) n → (ws.node n).isLeaf = true →
      net.boundValuation pass.inputs (net.schedule.slotFor ws n) = .int (z n))
    (before : pass.accumulate = true → ∀ n, ws.Reaches (terminalNodes terminals) n →
      (ws.node n).isParam = true →
        net.table.readDer (net.schedule.slotFor ws n) = .ok (.int (prior n))) (c : Int) :
    (net.Ready now pass → ∃ net', Net.evaluate now pass (.int c) net = .ok ⟨⟩ net') ∧
    ∀ net', Net.evaluate now pass (.int c) net = .ok ⟨⟩ net' →
      ∀ x, ws.Reaches (terminalNodes terminals) x →
        (ws.node x).isParam = true ∨
          (ws.node x).isInput = true ∧ (ws.node x).requiresGradient = true →
        (∀ key, net'.slotOfKey key = .ok (net.schedule.slotFor ws x) →
          outcome (getDer key) net' =
            .ok (.int ((if pass.accumulate && (ws.node x).isParam then prior x else 0) +
              c * eval z (pderiv x (ws.poly t))))) ∧
        (¬ ws.Reaches [t] x → pderiv x (ws.poly t) = 0) := by
  obtain ⟨⟨id, order, marks, sched⟩, runs, idle, addition, _⟩ := reached.spec built exist
  have sound := built.sound
  have wf := sched.wellFormed
  have interprets := sched.interprets_whole polynomial leaves
  have starts := sched.starts_whole sound polynomial runs addition last before c
  have ends := leads_evaluatePass wf runs (silent_notifyObservers now) quiet now pass normal (.int c)
  refine ⟨fun ready => ?_, fun net' run x reaches wanted => ⟨fun key slot => ?_, fun apart => ?_⟩⟩
  · cases run : Net.evaluate now pass (.int c) net with
    | ok _ net' => exact ⟨net', rfl⟩
    | error e net' =>
      exact absurd ((leads_of_error run).mp ends)
        (sched.not_failed sound polynomial interprets idle addition last ready normal starts)
  · obtain ⟨val, values, read⟩ := Evaluated.outcome_getDer wf ((leads_of_ok run).mp ends)
    have hx := (sched.orders.mem_iff x).mpr reaches
    have ht := sched.orders.root_mem (List.mem_of_getLast? last)
    have leaf : (ws.node x).isLeaf = true := by
      rcases wanted with param | ⟨input, _⟩ <;> simp [Node.isLeaf, *]
    have unmarked := sched.pderiv_of_unmarked sound polynomial (z := z)
      (sched.marked_of_leaf hx wanted)
    rw [read _ (.inl (sched.isLeaf_slotFor sound polynomial hx leaf)) key slot, sched.adjoint_leaf sound polynomial addition
      interprets.constants (sched.values_whole sound polynomial interprets values) starts hx leaf
      unmarked, sum_starts hx leaf ht c]
  · exact sound.pderiv_eq_zero (fun n => ws.Reaches [t] n) (fun n reaches m input =>
      reaches.input input) apart (.root (List.mem_singleton.mpr rfl))

/-- The derivative of `x * p + x` by `x`, with 7 as seed. -/
theorem gradient_sample : ∃ now net net',
    Reached Sample.graph Sample.terminals Sample.options net ∧
      Net.evaluate now Sample.pass (.int 7) net = .ok ⟨⟩ net' ∧
      outcome (getDer (.text "x")) net' = .ok (.int (7 * eval (fun n => if n = ⟨0, 0⟩ then 5 else 3)
        (pderiv ⟨0, 0⟩ (Sample.graph.poly ⟨0, 3⟩)))) := by
  have check : Sample.graph.builds Sample.terminals Sample.options (fun now net =>
      !net.observed &&
        isWhole 5 (net.boundValuation Sample.pass.inputs (net.schedule.slotFor Sample.graph ⟨0, 0⟩)) &&
        isWhole 3 (net.boundValuation Sample.pass.inputs (net.schedule.slotFor Sample.graph ⟨0, 1⟩)) &&
        net.succeeds (Net.evaluate now Sample.pass (.int 7)) fun net' =>
          match net'.slotOfKey (.text "x") with
          | .ok r => r == net.schedule.slotFor Sample.graph ⟨0, 0⟩
          | .error _ => false) = true := by cbv
  obtain ⟨now, net, reached, check⟩ := Reached.of_builds check
  simp only [Bool.and_eq_true, Bool.not_eq_true'] at check
  obtain ⟨⟨⟨alone, five⟩, three⟩, run⟩ := check
  obtain ⟨net', run, slot⟩ := succeeds_iff.mp run
  have key : net'.slotOfKey (.text "x") = .ok (net.schedule.slotFor Sample.graph ⟨0, 0⟩) := by
    split at slot
    next r found => rw [found, beq_iff_eq.mp slot]
    next => cases slot
  have leaves : ∀ n, Sample.graph.Reaches (terminalNodes Sample.terminals) n →
      (Sample.graph.node n).isLeaf = true →
      net.boundValuation Sample.pass.inputs (net.schedule.slotFor Sample.graph n) =
        .int (if n = ⟨0, 0⟩ then 5 else 3) := by
    intro n reaches leaf
    have among := Sample.mem_of_reaches reaches
    simp only [List.mem_cons, List.not_mem_nil, or_false] at among
    rcases among with rfl | rfl | rfl | rfl
    · exact eq_of_isWhole five
    · exact eq_of_isWhole three
    · cases leaf
    · cases leaf
  have reaches : Sample.graph.Reaches (terminalNodes Sample.terminals) ⟨0, 0⟩ :=
    .input (n := ⟨0, 3⟩) (.root (List.mem_singleton.mpr rfl)) (by decide)
  have gradient := reached.gradient Sample.graph_built Sample.terminals_exist
    (fun observed => by rw [alone] at observed; cases observed) Sample.polynomial rfl now Sample.pass
    rfl _ (fun _ => 0) leaves (fun on => by cases on) 7
  have read := (gradient.2 net' run ⟨0, 0⟩ reaches (.inr (by decide))).1 _ key
  refine ⟨now, net, net', reached, run, ?_⟩
  simpa [Sample.pass] using read

end Net

end Backprop
