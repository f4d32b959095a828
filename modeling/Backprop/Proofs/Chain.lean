import Mathlib.Tactic.Ring
import Backprop.Proofs.Polynomial
import Backprop.Proofs.Adjoint
/-!
# The chain rule along an instruction list

The instructions of a polynomial graph, run backward, send whole numbers, and what they have left to
send is worth the derivative of what has been seeded.

* `Net.totalOf_whole`: adding up whole numbers does not depend on which of them are zero.
* `Schedules.reaction_whole`: an instruction sends the slopes of its term times its derivative.
* `Sound.sum_sent`: this is worth the derivative of its result.
* `Schedules.Swept` is the invariant: the derivatives of the nodes whose instructions have not run,
  times their partial derivatives, sum up to the same all along. An instruction carries it on
  (`swept_next`), and so does a list (`swept_of_forall₂`).
* `Schedules.adjoint_leaf` is what a leaf has in the end.
-/

namespace Backprop

open MvPolynomial Workspace

/-- Adding up whole numbers. A total that cancels out to zero is taken for none, which makes no
difference. -/
theorem Net.totalOf_whole {net : Net} (addition : net.table.addition = Value.add) :
    ∀ (l : List Int) (total : Int),
      net.totalOf (.int total) (l.map .int) = .ok (.int (total + l.sum)) := by
  intro l
  induction l with
  | nil => intro total; simp [totalOf]; rfl
  | cons k l ih =>
    intro total
    have first : VariableTable.accumulated net.table.addition (.int total) (.int k) =
        .ok (.int (total + k)) := by
      rw [addition]
      unfold VariableTable.accumulated
      split
      next zero =>
        have none : total = 0 := by simpa [Value.isZero] using zero
        rw [none, zero_add]
      next => rfl
    have rest := ih (total + k)
    simp only [totalOf, List.map_cons, List.foldlM_cons, first, List.sum_cons] at rest ⊢
    rw [← add_assoc]
    exact rest

/-- The derivative of a node once instructions at the end have sent theirs. -/
theorem Net.adjoint_whole {net : Net} {val : Valuation} (addition : net.table.addition = Value.add) {start : Cotangent} {r : Slot}
    {c : Int} {l : List Instruction} {parts : List (Position × Value)} {b : List Int}
    (starts : start r = .ok (.int c)) (received : net.received start val l r = .ok parts)
    (whole : parts.map (·.2) = b.map .int) :
    net.adjointAfter start val l r = .ok (.int (c + b.sum)) := by
  rw [Net.adjointAfter, received, starts]
  change net.totalOf (.int c) (parts.map (·.2)) = _
  rw [whole, Net.totalOf_whole addition]

/-- An instruction that applies a term to whole numbers sends the slopes of the term times the derivative
of its result, and nothing if that is zero. -/
theorem Net.reaction_of_term {net : Net} {val : Valuation} {adj : Cotangent} {i : Instruction}
    {t : Term Value} {f : Value → Int} {o : Slot} {d : Int}
    (get : Registry.builtin.get t.kind = .ok i.operation) (constants : ∀ k, f (.int k) = k)
    (arguments : net.argumentsOf val i = .ok (t.args.map fun v => .int (f v), []))
    (outputs : i.outputs = [o]) (adjoint : adj o = .ok (.int d)) :
    ∃ more, net.reaction val adj i =
      .ok (if d = 0 then [] else ((t.map f).slopes.map fun w => .int (d * w)) ++ more) := by
  obtain ⟨kernel, more, backward, run⟩ := Term.backward get constants d
  have douts : i.outputs.mapM adj = .ok [.int d] := by
    rw [outputs, List.mapM_cons, adjoint]
    rfl
  refine ⟨more, ?_⟩
  unfold Net.reaction
  rw [douts]
  change (if [Value.int d].any (fun d => !d.isZero) then net.dersOf val i [.int d]
    else .ok []) = _
  by_cases zero : d = 0
  · simp [zero, Value.isZero]
  · have some : ([Value.int d].any fun d => !d.isZero) = true := by simp [Value.isZero, zero]
    rw [if_pos some, if_neg zero]
    unfold Net.dersOf
    rw [arguments, backward]
    change kernel (_ ++ [Net.joined [.int d]]) [] >>= _ = _
    rw [Net.joined, run]
    rfl

/-- What an instruction sends to a node by its operands. -/
theorem Instruction.entries_whole (ws : Workspace) (marks : GradientMarks) (s : Schedule)
    (m : NodeRef) (r : Slot) {d : Int} (index : Nat) (ders : List Value) :
    ∀ (slopes : List Int) (operands : List Value) (k : Nat), slopes.length = operands.length →
      (∀ (j : Nat) (w : Int), slopes[j]? = some w → ders[k + j]? = some (.int (d * w))) →
      (∀ q, Value.node q ∈ operands → (s.slotFor ws q = r ↔ q = m)) →
      ∃ l : List Int, (entries index ((operands.zipIdx k).filterMap fun (v, position) =>
          match v with
          | .node n => if marks.marked n then some (position, s.slotFor ws n) else none
          | _ => none) ders r).map (·.2) = l.map .int ∧
        l.sum = if marks.marked m then d * weight slopes operands m else 0 := by
  intro slopes
  induction slopes with
  | nil =>
    intro operands k length _ _
    obtain rfl := List.length_eq_zero_iff.mp length.symm
    exact ⟨[], rfl, by simp [weight]⟩
  | cons w slopes ih =>
    intro operands k length found slots
    cases operands with
    | nil => cases length
    | cons a operands =>
      obtain ⟨l, rest, sum⟩ := ih operands (k + 1) (by simpa using length)
        (fun j w slope => by
          have := found (j + 1) w (by simpa using slope)
          rwa [show k + (j + 1) = k + 1 + j by omega] at this)
        fun q hq => slots q (List.mem_cons_of_mem _ hq)
      have here : ders[k]? = some (.int (d * w)) := found 0 w rfl
      have next : weight (w :: slopes) (a :: operands) m =
          (if a.node? = some m then w else 0) + weight slopes operands m := by simp [weight]
      rw [next, List.zipIdx_cons, List.filterMap_cons]
      cases a with
      | node q =>
        have slot := slots q List.mem_cons_self
        cases mark : marks.marked q with
        | true =>
          by_cases same : q = m
          · refine ⟨d * w :: l, ?_, ?_⟩
            · have kept : (some (Value.int (d * w))).filter (fun d => !d.isNone) =
                  some (.int (d * w)) := rfl
              simp only [mark, if_true, entries, List.filterMap_cons, slot.mpr same, here, kept,
                Option.map_some, List.map_cons]
              exact congrArg (Value.int (d * w) :: ·) rest
            · rw [same] at mark
              rw [List.sum_cons, sum, mark]
              simp only [if_true, Value.node?, same]
              ring
          · refine ⟨l, ?_, ?_⟩
            · simp only [mark, if_true, entries, List.filterMap_cons, mt slot.mp same, if_false]
              simpa only [entries] using rest
            · simp [Value.node?, same, sum]
        | false =>
          refine ⟨l, ?_, ?_⟩
          · simpa only [mark, Bool.false_eq_true, if_false] using rest
          · by_cases same : q = m
            · rw [same] at mark
              simp [sum, mark]
            · simp [Value.node?, same, sum]
      | _ => exact ⟨l, rest, by simp [Value.node?, sum]⟩

/-- The sum over what one list leaves out has one term more than with one element more in the list. -/
theorem sum_filter_not_mem {nodes : Finset NodeRef} {post : List NodeRef} {n : NodeRef}
    {f : NodeRef → Int} (member : n ∈ nodes) (new : n ∉ post) :
    ∑ m ∈ nodes.filter (· ∉ post), f m = f n + ∑ m ∈ nodes.filter (· ∉ n :: post), f m := by
  have rest : nodes.filter (· ∉ n :: post) = (nodes.filter (· ∉ post)).erase n := by
    ext m
    simp only [Finset.mem_filter, Finset.mem_erase, List.mem_cons, not_or]
    exact ⟨fun h => ⟨h.2.1, h.1, h.2.2⟩, fun h => ⟨h.2.1, h.1, h.2.2⟩⟩
  rw [rest, Finset.add_sum_erase _ _ (Finset.mem_filter.mpr ⟨member, new⟩)]

/-- What an instruction sends, times the partial derivatives of the nodes that get it, is worth the
derivative of its result. A node without a mark does not depend on the variable. -/
theorem Workspace.Sound.sum_sent {ws : Workspace} (sound : ws.Sound) {marks : GradientMarks}
    {z : NodeRef → Int} {n x : NodeRef} {t : Term Value} (term : (ws.node n).term? = some t)
    {nodes : Finset NodeRef} {d : Int}
    (unmarked : marks.marked n = false → eval z (pderiv x (ws.poly n)) = 0)
    (inside : ∀ q, Value.node q ∈ t.operands → q ∈ nodes)
    (unmarked' : ∀ m ∈ nodes, marks.marked m = false → eval z (pderiv x (ws.poly m)) = 0) :
    ∑ m ∈ nodes, (if marks.marked n && marks.marked m then d *
        weight (t.map fun v => eval z (ws.operandPoly v)).slopes t.operands m else 0) *
          eval z (pderiv x (ws.poly m)) = d * eval z (pderiv x (ws.poly n)) := by
  cases mark : marks.marked n with
  | false =>
    rw [unmarked mark, mul_zero]
    exact Finset.sum_eq_zero fun m _ => by simp
  | true =>
    have others : ∀ a : Value, a.node? = none → eval z (pderiv x (ws.operandPoly a)) = 0 := by
      intro a node
      cases a with
      | node q => cases node
      | _ => simp [operandPoly]
    rw [sound.eval_pderiv term, ← sum_weight (fun m => rfl) others _ _ inside, Finset.mul_sum]
    refine Finset.sum_congr rfl fun m hm => ?_
    cases mark' : marks.marked m with
    | true =>
      rw [Bool.true_and, if_pos rfl, mul_assoc]
      rfl
    | false => simp [operandPoly, unmarked' m hm mark']

namespace Schedules

variable {ws : Workspace} {registry : Option Registry} {terminals order : List NodeRef}
  {keep : List String} {s : Schedule} {id : Nat} {marks : GradientMarks} {z : NodeRef → Int}
  {n m : NodeRef} {i : Instruction} {t : Term Value} {net : Net} {val : Valuation}
variable (sched : Schedules ws registry terminals keep s id order marks) (sound : ws.Sound)
  (polynomial : ws.IsPolynomial registry terminals)
include sched sound polynomial

theorem plain (hn : n ∈ order) : (ws.node n).isSelector = false :=
  polynomial.plain sound ((sched.orders.mem_iff n).mp hn)

/-- In a polynomial graph every node has one slot. -/
theorem slotCount_eq (hn : n ∈ order) : (ws.node n).slotCount = 1 := by
  cases operation : (ws.node n).isOperation with
  | true =>
    obtain ⟨t, term, _⟩ := polynomial.terms n ((sched.orders.mem_iff n).mp hn) operation
    rw [Node.slotCount_of_isOperation operation, (Node.term?_spec term).2.1]
  | false =>
    have leaf := Node.isLeaf_of_not_isOperation (sched.plain sound polynomial hn)
      (by simp [operation])
    rw [Node.slotCount, if_pos leaf]

theorem slotFor_eq (hn : n ∈ order) : s.slotFor ws n = s.slotAt n.handle 0 := by
  rw [Schedule.slotFor, source_of_plain (sched.plain sound polynomial hn)]

theorem slotFor_inj (hn : n ∈ order) (hm : m ∈ order) (same : s.slotFor ws n = s.slotFor ws m) :
    n = m := by
  rw [sched.slotFor_eq sound polynomial hn, sched.slotFor_eq sound polynomial hm] at same
  refine (sched.compiled.slotAt_inj sched.orders hn (sched.plain sound polynomial hn) ?_ hm
    (sched.plain sound polynomial hm) ?_ same).1
  · rw [sched.slotCount_eq sound polynomial hn]
    exact Nat.one_pos
  · rw [sched.slotCount_eq sound polynomial hm]
    exact Nat.one_pos

/-- An instruction sends the slopes of its term times the derivative of its result, and nothing if
that is zero. -/
theorem reaction_whole (hn : n ∈ order)
    (instructs : Instructs ws (ws.registryFor id registry) marks s n i)
    (term : (ws.node n).term? = some t)
    (operands : ∀ a ∈ t.operands, (∃ m, a = Value.node m) ∨ ∃ k, a = Value.int k)
    (constants : net.constantsOf i = .ok i.constants)
    (values : ∀ m ∈ order, val (s.slotFor ws m) = .int (eval z (ws.poly m))) {adj : Cotangent}
    {d : Int} (adjoint : adj (s.slotFor ws n) = .ok (.int d)) :
    ∃ more, net.reaction val adj i = .ok (if d = 0 then [] else
      ((t.map fun v => eval z (ws.operandPoly v)).slopes.map fun w => .int (d * w)) ++ more) := by
  obtain ⟨operation, one, kwargs, kind, args⟩ := Node.term?_spec term
  have outputs : i.outputs = [s.slotFor ws n] := by
    rw [instructs.outputs, one, sched.slotFor_eq sound polynomial hn]
    rfl
  have read : ∀ v ∈ (ws.node n).args,
      (s.argOf ws v).value val (Net.constantOf (s.argOf ws v)) =
        .int (eval z (ws.operandPoly v)) := by
    intro v hv
    rw [args] at hv
    rcases (Term.mem_args hv).elim (operands v) .inr with ⟨m, rfl⟩ | ⟨k, rfl⟩
    · have input : m ∈ ws.inputs n := by
        rw [← args] at hv
        exact mem_inputs_of_arg hv
      exact values m (sched.orders.input_mem hn input)
    · rw [operandPoly, eval_C]
      rfl
  have arguments : net.argumentsOf val i =
      .ok (t.args.map fun v => .int (eval z (ws.operandPoly v)), []) := by
    rw [Net.argumentsOf, constants]
    change Except.ok (i.arguments val i.constants) = _
    rw [instructs.arguments_eq, kwargs, ← args, List.map_congr_left read]
    rfl
  have get : Registry.builtin.get t.kind = .ok i.operation := by
    rw [← kind, ← polynomial.builtin n ((sched.orders.mem_iff n).mp hn) operation,
      sched.orders.graph n hn]
    exact instructs.operation
  exact Net.reaction_of_term get (fun k => eval_C k) arguments outputs adjoint

/-- What an instruction sends to a node is how its term depends on the node, times the derivative of
its result. -/
theorem sent_whole (hn : n ∈ order) (hm : m ∈ order)
    (instructs : Instructs ws (ws.registryFor id registry) marks s n i)
    (term : (ws.node n).term? = some t) {adj : Cotangent} {d : Int} {slopes : List Int}
    (length : slopes.length = t.operands.length) {more : List Value}
    (reacts : net.reaction val adj i =
      .ok (if d = 0 then [] else (slopes.map fun w => .int (d * w)) ++ more)) :
    ∃ (parts : List (Position × Value)) (l : List Int),
      net.sent val adj i (s.slotFor ws m) = .ok parts ∧ parts.map (·.2) = l.map .int ∧
      l.sum = if marks.marked n && marks.marked m then d * weight slopes t.operands m else 0 := by
  cases gradient : i.requiresGradient with
  | false =>
    have unmarked : marks.marked n = false := instructs.requiresGradient.symm.trans gradient
    refine ⟨[], [], Net.sent_of_not_sendsTo ?_, rfl, by simp [unmarked]⟩
    simp [Instruction.sendsTo, gradient]
  | true =>
    have mark : marks.marked n = true := instructs.requiresGradient.symm.trans gradient
    have positions : i.gradientPositions = t.operands.zipIdx.filterMap fun (v, position) =>
        match v with
        | .node q => if marks.marked q then some (position, s.slotFor ws q) else none
        | _ => none := by
      rw [instructs.gradientPositions, (Node.term?_spec term).2.2.2.2]
      cases t <;> rfl
    rw [Net.sent_of_reaction gradient reacts]
    by_cases zero : d = 0
    · refine ⟨_, [], rfl, ?_, by simp [zero]⟩
      simp [zero, Instruction.entriesFor, Instruction.entries]
    · obtain ⟨l, entries, sum⟩ := Instruction.entries_whole ws marks s m (s.slotFor ws m) i.index
        ((slopes.map fun w => .int (d * w)) ++ more) slopes t.operands 0 length
        (fun j w slope => by
          have bound := (List.getElem?_eq_some_iff.mp slope).1
          rw [Nat.zero_add, List.getElem?_append_left (by simpa using bound), List.getElem?_map,
            slope]
          rfl)
        fun q operand => by
          have input := sched.orders.input_mem hn (mem_inputs_of_operand term operand)
          exact ⟨sched.slotFor_inj sound polynomial input hm, fun same => by rw [same]⟩
      refine ⟨_, l, rfl, ?_, by simp [mark, sum]⟩
      rw [if_neg zero, Instruction.entriesFor, positions]
      exact entries

/-- The invariant of a backward pass, once the instructions `l` of the nodes `post` have sent what they
send. All that nodes have got is whole numbers `b`; and for every variable that nodes without a mark do
not depend on, the derivatives of the other nodes, times their partial derivatives, sum up to the same
as in the beginning, when the derivatives were `c`. -/
structure Swept (ws : Workspace) (marks : GradientMarks) (order : List NodeRef) (z : NodeRef → Int)
    (s : Schedule) (net : Net) (start : Cotangent) (val : Valuation) (c : NodeRef → Int)
    (post : List NodeRef) (l : List Instruction) (b : NodeRef → List Int) : Prop where
  received : ∀ m ∈ order, ∃ parts, net.received start val l (s.slotFor ws m) = .ok parts ∧
    parts.map (·.2) = (b m).map .int
  sum : ∀ x, (∀ m ∈ order, marks.marked m = false → eval z (pderiv x (ws.poly m)) = 0) →
    ∑ m ∈ order.toFinset.filter (· ∉ post), (c m + (b m).sum) * eval z (pderiv x (ws.poly m)) =
      ∑ m ∈ order.toFinset, c m * eval z (pderiv x (ws.poly m))

section
variable (addition : net.table.addition = Value.add)
  (constants : ∀ i ∈ s.forward, net.constantsOf i = .ok i.constants)
  (values : ∀ m ∈ order, val (s.slotFor ws m) = .int (eval z (ws.poly m))) {start : Cotangent}
  {c : NodeRef → Int} (starts : ∀ m ∈ order, start (s.slotFor ws m) = .ok (.int (c m)))
include addition constants values starts

/-- The reaction of an instruction when the ones behind it have sent what they send. -/
theorem reaction_swept {post : List NodeRef} {l : List Instruction} {b : NodeRef → List Int}
    (swept : Swept ws marks order z s net start val c post l b) (hn : n ∈ order) (hi : i ∈ s.forward)
    (instructs : Instructs ws (ws.registryFor id registry) marks s n i)
    (term : (ws.node n).term? = some t)
    (operands : ∀ a ∈ t.operands, (∃ m, a = Value.node m) ∨ ∃ k, a = Value.int k) :
    ∃ more, net.reaction val (net.adjointAfter start val l) i =
      .ok (if c n + (b n).sum = 0 then [] else
        ((t.map fun v => eval z (ws.operandPoly v)).slopes.map
          fun w => .int ((c n + (b n).sum) * w)) ++ more) := by
  obtain ⟨parts, run, whole⟩ := swept.received n hn
  exact sched.reaction_whole sound polynomial hn instructs term operands (constants i hi) values
    (Net.adjoint_whole addition (starts n hn) run whole)

/-- An instruction carries the invariant on. -/
theorem swept_next {pre post : List NodeRef} {l : List Instruction} {b : NodeRef → List Int}
    (swept : Swept ws marks order z s net start val c post l b)
    (split : (order.filter fun n => (ws.node n).isOperation) = pre ++ n :: post) (hi : i ∈ s.forward)
    (instructs : Instructs ws (ws.registryFor id registry) marks s n i) :
    ∃ b, Swept ws marks order z s net start val c (n :: post) (i :: l) b := by
  have member : n ∈ order.filter fun n => (ws.node n).isOperation := by rw [split]; simp
  obtain ⟨hn, operation⟩ := List.mem_filter.mp member
  obtain ⟨t, term, operands⟩ := polynomial.terms n ((sched.orders.mem_iff n).mp hn) operation
  obtain ⟨more, reacts⟩ := sched.reaction_swept sound polynomial addition constants values starts
    swept hn hi instructs term operands
  have sends : ∀ m, ∃ (parts : List (Position × Value)) (l' : List Int), m ∈ order →
      net.sent val (net.adjointAfter start val l) i (s.slotFor ws m) = .ok parts ∧
      parts.map (·.2) = l'.map .int ∧
      l'.sum = if marks.marked n && marks.marked m then (c n + (b n).sum) *
        weight (t.map fun v => eval z (ws.operandPoly v)).slopes t.operands m else 0 := by
    intro m
    by_cases hm : m ∈ order
    · obtain ⟨parts, l', sent⟩ := sched.sent_whole sound polynomial hn hm instructs term
        (by rw [Term.length_slopes, Term.operands_map, List.length_map]) reacts
      exact ⟨parts, l', fun _ => sent⟩
    · exact ⟨[], [], fun h => absurd h hm⟩
  choose own l' sent using sends
  have sorted := sched.orders.sorted.sublist
    (List.filter_sublist (p := fun n => (ws.node n).isOperation))
  rw [split] at sorted
  have later := (List.pairwise_cons.mp (List.pairwise_append.mp sorted).2.1).1
  have new : n ∉ post := fun again => Nat.lt_irrefl _ (later n again)
  -- Operands stand before the node, so their instructions have not run.
  have inside : ∀ q, Value.node q ∈ t.operands →
      q ∈ order.toFinset.filter (· ∉ n :: post) := by
    intro q operand
    have input := mem_inputs_of_operand term operand
    have less := (sound.input_lt input).2.1
    refine Finset.mem_filter.mpr ⟨List.mem_toFinset.mpr (sched.orders.input_mem hn input), ?_⟩
    intro again
    rcases List.mem_cons.mp again with rfl | again
    · omega
    · have := later q again
      omega
  refine ⟨fun m => l' m ++ b m, fun m hm => ?_, fun x unmarked => ?_⟩
  · obtain ⟨parts, run, whole⟩ := swept.received m hm
    obtain ⟨sent, whole', _⟩ := sent m hm
    refine ⟨own m ++ parts, ?_, by rw [List.map_append, List.map_append, whole', whole]⟩
    rw [Net.received_cons, sent, run]
    rfl
  · have gains : ∑ m ∈ order.toFinset.filter (· ∉ n :: post),
        (l' m).sum * eval z (pderiv x (ws.poly m)) =
          (c n + (b n).sum) * eval z (pderiv x (ws.poly n)) := by
      rw [← sound.sum_sent term (unmarked n hn) inside fun m hm =>
        unmarked m (List.mem_toFinset.mp (Finset.mem_filter.mp hm).1)]
      refine Finset.sum_congr rfl fun m hm => ?_
      rw [(sent m (List.mem_toFinset.mp (Finset.mem_filter.mp hm).1)).2.2]
    rw [← swept.sum x unmarked, sum_filter_not_mem (List.mem_toFinset.mpr hn) new, ← gains,
      ← Finset.sum_add_distrib]
    refine Finset.sum_congr rfl fun m _ => ?_
    rw [List.sum_append]
    ring

/-- The invariant holds all along. -/
theorem swept_of_forall₂ {post : List NodeRef} {l : List Instruction}
    (each : List.Forall₂ (Instructs ws (ws.registryFor id registry) marks s) post l) :
    ∀ pre : List NodeRef, (order.filter fun n => (ws.node n).isOperation) = pre ++ post →
      l ⊆ s.forward → ∃ b, Swept ws marks order z s net start val c post l b := by
  induction each with
  | nil => exact fun _ _ _ => ⟨fun _ => [], fun m _ => ⟨[], rfl, rfl⟩, by simp⟩
  | @cons n i post l instructs _ ih =>
    intro pre split sub
    obtain ⟨b, swept⟩ := ih (pre ++ [n]) (by simpa using split)
      fun j hj => sub (List.mem_cons_of_mem _ hj)
    exact sched.swept_next sound polynomial addition constants values starts swept split
      (sub List.mem_cons_self) instructs

/-- No instruction fails backward. -/
theorem reaction_ok {pre post : List Instruction} (split : s.forward = pre ++ i :: post) :
    ∃ ders, net.reaction val (net.adjointAfter start val post) i = .ok ders := by
  have each := sched.compiled.forward
  rw [split] at each
  obtain ⟨before, n, after, nodes, _, instructs, rest⟩ := forall₂_split each
  have member : n ∈ order.filter fun n => (ws.node n).isOperation := by rw [nodes]; simp
  obtain ⟨hn, operation⟩ := List.mem_filter.mp member
  have hi : i ∈ s.forward := by rw [split]; simp
  have sub : post ⊆ s.forward := fun j hj => by rw [split]; simp [hj]
  obtain ⟨t, term, operands⟩ := polynomial.terms n ((sched.orders.mem_iff n).mp hn) operation
  obtain ⟨b, swept⟩ := sched.swept_of_forall₂ sound polynomial addition constants values starts rest
    (before ++ [n]) (by simp [nodes]) sub
  obtain ⟨more, reacts⟩ := sched.reaction_swept sound polynomial addition constants values starts
    swept hn hi instructs term operands
  exact ⟨_, reacts⟩

/-- In the end a leaf has the derivatives of all nodes in the beginning times their partial
derivatives by the leaf. -/
theorem adjoint_leaf {x : NodeRef} (hx : x ∈ order) (leaf : (ws.node x).isLeaf = true)
    (unmarked : ∀ m ∈ order, marks.marked m = false → eval z (pderiv x (ws.poly m)) = 0) :
    net.adjointAfter start val s.forward (s.slotFor ws x) =
      .ok (.int (∑ m ∈ order.toFinset, c m * eval z (pderiv x (ws.poly m)))) := by
  obtain ⟨b, swept⟩ := sched.swept_of_forall₂ sound polynomial addition constants values starts
    sched.compiled.forward [] rfl (List.Subset.refl _)
  obtain ⟨parts, run, whole⟩ := swept.received x hx
  rw [Net.adjoint_whole addition (starts x hx) run whole, ← swept.sum x unmarked]
  have isLeaf : ∀ m ∈ order.toFinset.filter (· ∉ order.filter fun n => (ws.node n).isOperation),
      (ws.node m).isLeaf = true := by
    intro m hm
    obtain ⟨hm, other⟩ := Finset.mem_filter.mp hm
    have hm := List.mem_toFinset.mp hm
    refine Node.isLeaf_of_not_isOperation (sched.plain sound polynomial hm) fun operation => ?_
    exact other (List.mem_filter.mpr ⟨hm, operation⟩)
  rw [Finset.sum_eq_single x]
  · rw [poly_of_leaf leaf, pderiv_X_self, map_one, mul_one]
  · intro m hm other
    rw [poly_of_leaf (isLeaf m hm), pderiv_X_of_ne other, map_zero, mul_zero]
  · intro lacks
    refine absurd (Finset.mem_filter.mpr ⟨List.mem_toFinset.mpr hx, fun among => ?_⟩) lacks
    have operation := (List.mem_filter.mp among).2
    simp only [Node.isOperation, leaf, Bool.not_true, Bool.false_and, Bool.false_eq_true] at operation

end

end Schedules

end Backprop
