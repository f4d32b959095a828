import Backprop.Proofs.Layout
import Backprop.Proofs.Liveness
/-!
# Compiled schedules

* `Instructs` relates an operation node to its instruction: arguments that are nodes became the slots
  of the outputs they stand for, and constants stayed as they are.
* `Compiled` says of a schedule what it holds of an order of nodes.
* `Schedule.compiled_of_ofOrder`: it is what the compiler makes of one.
-/

namespace Backprop

open Workspace

namespace Schedule

/-- The slot of an output of the node with a handle. -/
def slotAt (s : Schedule) (handle output : Nat) : Slot :=
  ((s.slots.find? fun info => info.handle == handle && info.output == output).map (·.index)).getD 0

/-- The slot of the output that a node stands for. -/
def slotFor (s : Schedule) (ws : Workspace) (n : NodeRef) : Slot :=
  s.slotAt (ws.source n).1.handle (ws.source n).2

/-- An argument of a node as an instruction has it. -/
def argOf (s : Schedule) (ws : Workspace) : Value → Arg
  | .node n => .slot (s.slotFor ws n)
  | v => .const v

/-- The marked nodes among positional arguments, as positions and slots. -/
def markedArgs (s : Schedule) (ws : Workspace) (marks : GradientMarks) (args : List Value) :
    List (Nat × Slot) :=
  args.zipIdx.filterMap fun (v, position) =>
    match v with
    | .node n => if marks.marked n then some (position, s.slotFor ws n) else none
    | _ => none

/-- The slots that are kept for a terminal: all of its outputs, or the one that a selector selects. -/
def slotsOf (s : Schedule) (ws : Workspace) (t : NodeRef) : List Slot :=
  if (ws.node t).isSelector then [s.slotFor ws t]
  else (List.range (ws.node t).slotCount).map (s.slotAt t.handle)

end Schedule

/-- The instruction of an operation node. -/
structure Instructs (ws : Workspace) (registry : Registry) (marks : GradientMarks) (s : Schedule)
    (n : NodeRef) (i : Instruction) : Prop where
  handle : i.handle = n.handle
  operation : registry.get (ws.node n).kind = .ok i.operation
  args : i.args = (ws.node n).args.map (s.argOf ws)
  kwargs : i.kwargs = (ws.node n).kwargs.map fun p => (p.1, s.argOf ws p.2)
  outputs : i.outputs = (List.range (ws.node n).outputs).map (s.slotAt n.handle)
  gradientPositions : i.gradientPositions = s.markedArgs ws marks (ws.node n).args
  requiresGradient : i.requiresGradient = marks.marked n
  differentiable : i.requiresGradient = true → i.operation.differentiable = true
  devicePlacement : i.devicePlacement = (ws.node n).devicePlacement

/-- A slot that holds an output of a node. -/
structure Describes (ws : Workspace) (marks : GradientMarks) (n : NodeRef) (info : SlotInfo) : Prop where
  plain : (ws.node n).isSelector = false
  handle : info.handle = n.handle
  output : info.output < (ws.node n).slotCount
  kind : info.kind = Layout.slotKind (ws.node n)
  persistent : info.persistent = (ws.node n).isParam
  requiresGradient : info.requiresGradient = marks.marked n
  devicePlacement : info.devicePlacement = (ws.node n).devicePlacement

/-- A schedule of an order of nodes. -/
structure Compiled (ws : Workspace) (registry : Registry) (marks : GradientMarks)
    (order terminals : List NodeRef) (keep : List String) (s : Schedule) : Prop where
  nodes : s.nodes = order
  settles : marks.Settles ws order
  numbered : ∀ (k : Nat) (info : SlotInfo), s.slots[k]? = some info → info.index = (k : Int)
  slots : ∀ info ∈ s.slots, info.index = s.slotAt info.handle info.output ∧
    ∃ n ∈ order, Describes ws marks n info
  places : ∀ n ∈ order, (ws.node n).isSelector = false → ∀ k < (ws.node n).slotCount,
    ∃ info ∈ s.slots, info.handle = n.handle ∧ info.output = k
  indices : ∀ (k : Nat) (i : Instruction), s.forward[k]? = some i → i.index = k
  forward : List.Forall₂ (Instructs ws registry marks s)
    (order.filter fun n => (ws.node n).isOperation) s.forward
  backward : s.backward = (s.forward.filter (·.requiresGradient)).reverse
  uses : ∀ info ∈ s.slots, info = info.withUses s.forward s.backward
  plan : ReleasePlan.ofSlots s.slots s.forward.length s.backward.length = .ok s.release
  terminalSlots : s.terminals = terminals.map (s.slotFor ws)
  retained : ∀ info ∈ s.slots, info.retained = true ↔
    (∃ t ∈ terminals, info.index ∈ s.slotsOf ws t) ∨
      ∃ name ∈ keep, s.names.lookup name = some info.index
  names : ∀ p ∈ s.names, s.HasSlot p.2

/-- The first slot of a node is named like the node. -/
def Schedule.NamedLike (ws : Workspace) (order : List NodeRef) (s : Schedule) : Prop :=
  ∀ info ∈ s.slots, info.output = 0 →
    ∃ n ∈ order, n.handle = info.handle ∧ info.name = Error.shownName (ws.name n)

/-- The description of a slot once it is known what is kept and which instructions use it. -/
def SlotInfo.finished (retained : List Slot) (forward backward : List Instruction)
    (info : SlotInfo) : SlotInfo :=
  { info with retained := retained.contains info.index }.withUses forward backward

namespace Schedule

variable {ws : Workspace} {selectors : List ((Nat × Nat) × NodeRef)} {marks : GradientMarks}
  {order : List NodeRef} {l : Layout} {s : Schedule} {n : NodeRef} {r : Slot}
  {retained : List Slot} {forward backward : List Instruction}

section
variable (cov : l.Covers ws selectors marks order)
variable (finished : s.slots = l.infos.map (SlotInfo.finished retained forward backward))
include cov finished

theorem slotAt_eq {h k : Nat} {slots : List Slot} (found : l.places.lookup h = some slots)
    (slot : slots[k]? = some r) : s.slotAt h k = r := by
  obtain ⟨n, hn, plain, rfl⟩ := cov.known h (by rw [found]; rfl)
  obtain ⟨slots', found', _, infos⟩ := cov.places n hn plain
  obtain rfl : slots = slots' := Option.some.inj (found.symm.trans found')
  have there : SlotInfo.finished retained forward backward
      (Layout.infoOf ws selectors marks n r k) ∈ s.slots := by
    rw [finished]
    exact List.mem_map_of_mem (infos k r slot)
  unfold slotAt
  cases search : s.slots.find? fun info => info.handle == n.handle && info.output == k with
  | none =>
    have := List.find?_eq_none.mp search _ there
    simp [SlotInfo.finished, SlotInfo.withUses, Layout.infoOf] at this
  | some info =>
    have fits := List.find?_some search
    have mem := List.mem_of_find?_eq_some search
    rw [finished] at mem
    obtain ⟨base, hbase, rfl⟩ := List.mem_map.mp mem
    simp only [SlotInfo.finished, SlotInfo.withUses, Bool.and_eq_true, beq_iff_eq] at fits
    obtain ⟨m, hm, _, shape, slots', found', slot'⟩ := cov.infos base hbase
    have handle : m.handle = n.handle := (congrArg SlotInfo.handle shape).symm.trans fits.1
    rw [handle, found] at found'
    cases found'
    rw [fits.2, slot] at slot'
    exact (Option.some.inj slot').symm

theorem hasSlot_of_place {h k : Nat} {slots : List Slot} (found : l.places.lookup h = some slots)
    (slot : slots[k]? = some r) : s.HasSlot r := by
  obtain ⟨n, hn, plain, rfl⟩ := cov.known h (by rw [found]; rfl)
  obtain ⟨slots', found', _, infos⟩ := cov.places n hn plain
  obtain rfl : slots = slots' := Option.some.inj (found.symm.trans found')
  refine ⟨SlotInfo.finished retained forward backward (Layout.infoOf ws selectors marks n r k),
    ?_, rfl⟩
  rw [finished]
  exact List.mem_map_of_mem (infos k r slot)

theorem slotFor_of_slotOf (sound : ws.Sound) (run : l.slotOf ws n = .ok r) :
    r = s.slotFor ws n ∧ s.HasSlot r := by
  obtain ⟨slots, found, slot⟩ := Layout.slotOf_spec sound run
  exact ⟨(slotAt_eq cov finished found slot).symm, hasSlot_of_place cov finished found slot⟩

theorem slots_of_slotsOf (hn : n ∈ order) (plain : (ws.node n).isSelector = false)
    {slots : List Slot} (run : l.slotsOf n.handle = .ok slots) :
    slots = (List.range (ws.node n).slotCount).map (s.slotAt n.handle) := by
  obtain ⟨slots', found, length, _⟩ := cov.places n hn plain
  simp only [Layout.slotsOf, found] at run
  cases run
  refine List.ext_getElem (by simp [length]) fun k hk _ => ?_
  rw [List.getElem_map, List.getElem_range]
  exact (slotAt_eq cov finished found (List.getElem?_eq_getElem hk)).symm

theorem argOf_of_resolve (sound : ws.Sound) {v : Value} {a : Arg} (run : resolve ws l v = .ok a) :
    a = s.argOf ws v := by
  cases v with
  | node n =>
    obtain ⟨r, found, run⟩ := ok_of_bind run
    cases run
    rw [argOf, (slotFor_of_slotOf cov finished sound found).1]
  | _ =>
    cases run
    rfl

theorem markedArgs_of_gradientPositions (sound : ws.Sound) {args : List Value}
    {positions : List (Nat × Slot)} (run : gradientPositions ws l marks args = .ok positions) :
    positions = s.markedArgs ws marks args := by
  have go : ∀ (rest : List (Value × Nat)) (before after : List (Nat × Slot)),
      rest.foldlM (fun l' (v, position) =>
        match v with
        | .node n =>
          if marks.any [n] then do return l' ++ [(position, ← l.slotOf ws n)] else .ok l'
        | _ => .ok l') before = (Except.ok after : Except Error _) →
      after = before ++ rest.filterMap fun (v, position) =>
        match v with
        | .node n => if marks.marked n then some (position, s.slotFor ws n) else none
        | _ => none := by
    intro rest
    induction rest with
    | nil =>
      intro before after run
      cases run
      simp
    | cons p rest ih =>
      intro before after run
      obtain ⟨v, position⟩ := p
      rw [List.foldlM_cons] at run
      obtain ⟨middle, first, run⟩ := ok_of_bind run
      rw [ih middle after run]
      cases v with
      | node n =>
        dsimp only at first
        by_cases mark : marks.marked n = true
        · have mark' : marks.any [n] = true := mark
          rw [if_pos mark'] at first
          obtain ⟨r, found, first⟩ := ok_of_bind first
          cases first
          simp [mark, (slotFor_of_slotOf cov finished sound found).1]
        · have mark' : ¬ marks.any [n] = true := mark
          rw [if_neg mark'] at first
          cases first
          simp [mark]
      | _ =>
        cases first
        simp
  exact go args.zipIdx [] positions run

theorem instructs_of_instruction (sound : ws.Sound) {registry : Registry} {index : Nat}
    {i : Instruction} (hn : n ∈ order) (operation : (ws.node n).isOperation = true)
    (run : instruction ws registry l marks index n = .ok i) :
    Instructs ws registry marks s n i ∧ i.index = index := by
  obtain ⟨op, found, run⟩ := ok_of_bind run
  dsimp only at run
  split at run
  next => cases run
  next differentiable =>
    obtain ⟨positions, positional, run⟩ := ok_of_bind run
    obtain ⟨args, hargs, run⟩ := ok_of_bind run
    obtain ⟨kwargs, hkwargs, run⟩ := ok_of_bind run
    obtain ⟨outputs, houtputs, run⟩ := ok_of_bind run
    cases run
    have plain : (ws.node n).isSelector = false ∧ (ws.node n).isLeaf = false := by
      simpa [Node.isOperation, and_comm] using operation
    refine ⟨⟨rfl, found, ?_, ?_, ?_, ?_, rfl, ?_, rfl⟩, rfl⟩
    · exact eq_map_of_forall₂ (forall₂_of_mapM hargs) fun v _ a run =>
        argOf_of_resolve cov finished sound run
    · refine eq_map_of_forall₂ (forall₂_of_mapM hkwargs) fun p _ q run => ?_
      obtain ⟨a, resolved, run⟩ := ok_of_bind run
      cases run
      rw [argOf_of_resolve cov finished sound resolved]
    · have slots := slots_of_slotsOf cov finished hn plain.1 houtputs
      simpa [Node.slotCount, plain.2] using slots
    · exact markedArgs_of_gradientPositions cov finished sound positional
    · intro required
      by_contra none
      exact differentiable (by simp_all)

/-- The instructions of operations, in their order. -/
theorem instructs_of_mapM (sound : ws.Sound) {registry : Registry} {made : List Instruction}
    (run : (order.filter fun n => (ws.node n).isOperation).zipIdx.mapM (fun (n, i) =>
      instruction ws registry l marks i n) = .ok made) :
    List.Forall₂ (Instructs ws registry marks s)
        (order.filter fun n => (ws.node n).isOperation) made ∧
      ∀ (k : Nat) (i : Instruction), made[k]? = some i → i.index = k := by
  obtain ⟨length, pairs⟩ := List.forall₂_iff_get.mp (forall₂_of_mapM run)
  have same : (order.filter fun n => (ws.node n).isOperation).length = made.length := by
    rwa [List.length_zipIdx] at length
  have each : ∀ (k : Nat) (bound : k < made.length),
      Instructs ws registry marks s
        (order.filter fun n => (ws.node n).isOperation)[k] made[k] ∧ made[k].index = k := by
    intro k bound
    have ran := pairs k (by rw [length]; exact bound) bound
    simp only [List.get_eq_getElem, List.getElem_zipIdx, Nat.zero_add] at ran
    have member := List.mem_filter.mp (List.getElem_mem (h := same ▸ bound))
    exact instructs_of_instruction cov finished sound member.1 member.2 ran
  refine ⟨List.forall₂_iff_get.mpr ⟨same, fun k _ bound => (each k bound).1⟩, fun k i found => ?_⟩
  obtain ⟨bound, rfl⟩ := List.getElem?_eq_some_iff.mp found
  exact (each k bound).2

theorem index_of_finished (k : Nat) {info : SlotInfo} (found : s.slots[k]? = some info) :
    info.index = (k : Int) := by
  rw [finished, List.getElem?_map] at found
  obtain ⟨base, there, rfl⟩ := Option.map_eq_some_iff.mp found
  exact cov.index k base there

/-- Every slot holds an output of a node. -/
theorem describes_of_mem {info : SlotInfo} (mem : info ∈ s.slots) :
    info.index = s.slotAt info.handle info.output ∧ ∃ n ∈ order, Describes ws marks n info := by
  rw [finished] at mem
  obtain ⟨base, hbase, rfl⟩ := List.mem_map.mp mem
  obtain ⟨n, hn, plain, shape, slots, found, slot⟩ := cov.infos base hbase
  have handle : base.handle = n.handle := congrArg SlotInfo.handle shape
  refine ⟨(slotAt_eq cov finished (handle ▸ found) slot).symm, n, hn, plain, handle, ?_,
    congrArg SlotInfo.kind shape, congrArg SlotInfo.persistent shape,
    congrArg SlotInfo.requiresGradient shape, congrArg SlotInfo.devicePlacement shape⟩
  obtain ⟨slots', found', length, _⟩ := cov.places n hn plain
  rw [found] at found'
  cases found'
  rw [← length]
  exact (List.getElem?_eq_some_iff.mp slot).1

/-- Every output of a node that is no selector has a slot. -/
theorem exists_slot (hn : n ∈ order) (plain : (ws.node n).isSelector = false) {k : Nat}
    (hk : k < (ws.node n).slotCount) : ∃ info ∈ s.slots, info.handle = n.handle ∧ info.output = k := by
  obtain ⟨slots, found, length, infos⟩ := cov.places n hn plain
  rw [← length] at hk
  refine ⟨SlotInfo.finished retained forward backward (Layout.infoOf ws selectors marks n slots[k] k),
    ?_, rfl, rfl⟩
  rw [finished]
  exact List.mem_map_of_mem (infos k _ (List.getElem?_eq_getElem hk))

theorem namedLike_of_finished : s.NamedLike ws order := by
  intro info mem first
  rw [finished] at mem
  obtain ⟨base, hbase, rfl⟩ := List.mem_map.mp mem
  obtain ⟨n, hn, _, shape, _⟩ := cov.infos base hbase
  refine ⟨n, hn, (congrArg SlotInfo.handle shape).symm, (congrArg SlotInfo.name shape).trans ?_⟩
  have first' : base.output = 0 := first
  simp [Layout.infoOf, Layout.slotName, first']

omit cov in
/-- What is kept, and which instructions use a slot, is what the compiler found. -/
theorem finished_of_mem {info : SlotInfo} (mem : info ∈ s.slots) :
    info.retained = retained.contains info.index ∧ info = info.withUses forward backward := by
  rw [finished] at mem
  obtain ⟨base, _, rfl⟩ := List.mem_map.mp mem
  exact ⟨rfl, rfl⟩

end

/-- Names are only entered with a slot. -/
theorem mem_enterName {names : List (String × Slot)} {name : String} {p : String × Slot}
    (h : p ∈ enterName names name r) : p ∈ names ∨ p.2 = r := by
  unfold enterName at h
  split at h
  · obtain ⟨q, hq, rfl⟩ := List.mem_map.mp h
    split
    · exact .inr rfl
    · exact .inl hq
  · rcases List.mem_append.mp h with old | new
    · exact .inl old
    · rw [List.mem_singleton.mp new]
      exact .inr rfl

theorem mem_of_names {names : List (String × Slot)} {keep : List String} {slots : List Slot}
    (h : List.Forall₂ (fun name slot => (match names.lookup name with
      | some s => Except.ok s
      | none => .error (.cannotKeep name)) = (Except.ok slot : Except Error _)) keep slots) :
    r ∈ slots ↔ ∃ name ∈ keep, names.lookup name = some r := by
  induction h with
  | nil => simp
  | @cons name slot keep slots first _ ih =>
    have here : names.lookup name = some slot := by
      split at first
      next found =>
        cases first
        exact found
      next => cases first
    rw [List.mem_cons, ih]
    simp only [List.mem_cons, exists_eq_or_imp, here, Option.some.injEq]
    exact or_congr ⟨Eq.symm, Eq.symm⟩ .rfl

/-- The slots to keep are those of the terminals and of the names. -/
theorem mem_retainedSlots (cov : l.Covers ws selectors marks order)
    (finished : s.slots = l.infos.map (SlotInfo.finished retained forward backward))
    (sound : ws.Sound) {names : List (String × Slot)} {terminals : List NodeRef}
    {keep : List String} (inside : ∀ t ∈ terminals, t ∈ order)
    (run : retainedSlots ws l names terminals keep = .ok retained) :
    r ∈ retained ↔ (∃ t ∈ terminals, r ∈ s.slotsOf ws t) ∨
      ∃ name ∈ keep, names.lookup name = some r := by
  obtain ⟨outs, houts, run⟩ := ok_of_bind run
  obtain ⟨named, hnamed, run⟩ := ok_of_bind run
  have ofTerminals : outs = terminals.map (s.slotsOf ws) := by
    refine eq_map_of_forall₂ (forall₂_of_mapM houts) fun t ht slots run => ?_
    unfold slotsOf
    split at run
    next selector =>
      obtain ⟨r, found, run⟩ := ok_of_bind run
      cases run
      rw [if_pos selector, (slotFor_of_slotOf cov finished sound found).1]
    next plain =>
      rw [if_neg plain]
      exact slots_of_slotsOf cov finished (inside t ht) (by simpa using plain) run
  cases run
  rw [List.mem_append, mem_of_names (forall₂_of_mapM hnamed), ofTerminals]
  simp only [List.mem_flatten, List.mem_map, exists_exists_and_eq_and]

/-- Every name stands for a slot. -/
theorem names_hasSlot (cov : l.Covers ws selectors marks order)
    (finished : s.slots = l.infos.map (SlotInfo.finished retained forward backward))
    (sound : ws.Sound) {names : List (String × Slot)}
    (run : order.foldlM (fun names n => do
        return enterName names (Error.shownName (ws.name n)) (← l.slotOf ws n))
      (l.infos.foldl (fun names info => enterName names info.name info.index) []) = .ok names) :
    ∀ p ∈ names, s.HasSlot p.2 := by
  have infos : ∀ (infos : List SlotInfo) (names : List (String × Slot)),
      (∀ info ∈ infos, info ∈ l.infos) → (∀ p ∈ names, s.HasSlot p.2) →
      ∀ p ∈ infos.foldl (fun names info => enterName names info.name info.index) names,
        s.HasSlot p.2 := by
    intro infos
    induction infos with
    | nil => exact fun _ _ known => known
    | cons info infos ih =>
      intro names inside known
      refine ih _ (fun i hi => inside i (by simp [hi])) fun p hp => ?_
      rcases mem_enterName hp with old | new
      · exact known p old
      · obtain ⟨n, _, _, _, slots, found, slot⟩ := cov.infos info (inside info (by simp))
        rw [new]
        exact hasSlot_of_place cov finished found slot
  have nodes : ∀ (nodes : List NodeRef) (names names' : List (String × Slot)),
      (∀ p ∈ names, s.HasSlot p.2) →
      nodes.foldlM (fun names n => do
        return enterName names (Error.shownName (ws.name n)) (← l.slotOf ws n)) names = .ok names' →
      ∀ p ∈ names', s.HasSlot p.2 := by
    intro nodes
    induction nodes with
    | nil =>
      intro names names' known run
      cases run
      exact known
    | cons n nodes ih =>
      intro names names' known run
      rw [List.foldlM_cons] at run
      obtain ⟨middle, first, run⟩ := ok_of_bind run
      obtain ⟨r, found, first⟩ := ok_of_bind first
      cases first
      refine ih _ names' (fun p hp => ?_) run
      rcases mem_enterName hp with old | new
      · exact known p old
      · rw [new]
        exact (slotFor_of_slotOf cov finished sound found).2
  exact nodes order _ names (infos _ [] (fun _ h => h) (by simp)) run

/-- What the compiler makes of an order of nodes is a schedule of it. -/
theorem compiled_of_ofOrder (sound : ws.Sound) {id : Nat} {terminals : List NodeRef}
    {registry : Registry} {keep : List String} {naming : String}
    (ord : ws.Orders id terminals order)
    (run : ofOrder ws registry order terminals keep naming = .ok s) :
    (∃ marks, Compiled ws registry marks order terminals keep s) ∧ s.NamedLike ws order := by
  obtain ⟨marks, hmarks, run⟩ := ok_of_bind run
  obtain ⟨selectors, _, run⟩ := ok_of_bind run
  dsimp only at run
  obtain ⟨forward, hforward, run⟩ := ok_of_bind run
  obtain ⟨names, hnames, run⟩ := ok_of_bind run
  obtain ⟨retained, hretained, run⟩ := ok_of_bind run
  obtain ⟨terminalSlots, hterminals, run⟩ := ok_of_bind run
  obtain ⟨release, hrelease, run⟩ := ok_of_bind run
  have cov := Layout.covers_foldl selectors marks ord
  have made : s.nodes = order ∧ s.forward = forward ∧ s.names = names ∧ s.terminals = terminalSlots ∧
      s.release = release ∧ s.backward = (s.forward.filter (·.requiresGradient)).reverse ∧
      s.slots = (order.foldl (fun l n => l.push ws selectors marks n) ({} : Layout)).infos.map
        (SlotInfo.finished retained s.forward s.backward) := by
    cases run
    exact ⟨rfl, rfl, rfl, rfl, rfl, rfl, rfl⟩
  obtain ⟨nodes, rfl, rfl, rfl, rfl, backward, finished⟩ := made
  obtain ⟨instructs, indices⟩ := instructs_of_mapM cov finished sound hforward
  refine ⟨⟨marks, ?_⟩, namedLike_of_finished cov finished⟩
  constructor
  case nodes => exact nodes
  case settles => exact GradientMarks.ofOrder_spec sound ord hmarks
  case numbered => exact fun k _ found => index_of_finished cov finished k found
  case slots => exact fun _ mem => describes_of_mem cov finished mem
  case places => exact fun _ hn plain _ hk => exists_slot cov finished hn plain hk
  case indices => exact indices
  case forward => exact instructs
  case backward => exact backward
  case uses => exact fun _ mem => (finished_of_mem finished mem).2
  case plan =>
    rw [finished, backward]
    exact hrelease
  case terminalSlots =>
    exact eq_map_of_forall₂ (forall₂_of_mapM hterminals) fun t _ r run =>
      (slotFor_of_slotOf cov finished sound run).1
  case retained =>
    intro info mem
    rw [(finished_of_mem finished mem).1, List.contains_iff_mem]
    exact mem_retainedSlots cov finished sound (fun t ht => ord.root_mem ht) hretained
  case names => exact names_hasSlot cov finished sound hnames

end Schedule

end Backprop
