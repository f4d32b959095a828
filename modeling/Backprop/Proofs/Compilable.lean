import Backprop.Proofs.Checked
import Backprop.Proofs.FreshNames
/-!
# What can be compiled

Compiling for nodes that exist fails only over their names and their kernels.

* `Workspace.Compilable` is what compiling asks of the nodes that roots depend on.
* `Workspace.Lacks` are the operations without a kernel that they need. `Schedule.ofOrder_error`: an
  order with such an operation has no schedule. `Schedule.ofOrder_names`: every other order has one, if
  the names to keep are in its name table.
* `Built.compile_ok`: unnamed nodes are named and a schedule is made; `Built.buildNet_ok`: it passes
  the check, and there is a net that runs it.
-/

namespace Backprop

open Workspace

section
variable {ε α β σ : Type}

theorem bind_isOk {x : Except ε α} {f : α → Except ε β} (first : ∃ a, x = .ok a)
    (rest : ∀ a, x = .ok a → ∃ b, f a = .ok b) : ∃ b, (x >>= f) = .ok b := by
  obtain ⟨a, rfl⟩ := first
  exact rest a rfl

theorem mapM_isOk {f : α → Except ε β} : ∀ {l : List α}, (∀ a ∈ l, ∃ b, f a = .ok b) →
    ∃ l', l.mapM f = .ok l' := by
  intro l
  induction l with
  | nil => exact fun _ => ⟨[], rfl⟩
  | cons a l ih =>
    intro each
    rw [List.mapM_cons]
    exact bind_isOk (each a (by simp)) fun b _ =>
      bind_isOk (ih fun c hc => each c (by simp [hc])) fun l' _ => ⟨b :: l', rfl⟩

/-- The first failure on a list is the failure of the list. -/
theorem mapM_isError {f : α → Except ε β} {p : α → ε → Prop} : ∀ {l : List α},
    (∀ a ∈ l, (∃ b, f a = .ok b) ∨ ∃ e, f a = .error e ∧ p a e) → (∃ a ∈ l, ∀ b, f a ≠ .ok b) →
      ∃ a ∈ l, ∃ e, f a = .error e ∧ p a e ∧ l.mapM f = .error e := by
  intro l
  induction l with
  | nil => simp
  | cons a l ih =>
    intro each fails
    rw [List.mapM_cons]
    rcases each a List.mem_cons_self with ⟨b, first⟩ | ⟨e, first, holds⟩
    · obtain ⟨c, mem, none⟩ := fails
      have later : c ∈ l := (List.mem_cons.mp mem).resolve_left fun same => none b (same ▸ first)
      obtain ⟨d, hd, e, failed, holds, rest⟩ :=
        ih (fun c hc => each c (List.mem_cons_of_mem a hc)) ⟨c, later, none⟩
      exact ⟨d, List.mem_cons_of_mem a hd, e, failed, holds, by rw [first, rest]; rfl⟩
    · exact ⟨a, List.mem_cons_self, e, first, holds, by rw [first]; rfl⟩

theorem foldlM_isOk {f : σ → α → Except ε σ} : ∀ {l : List α},
    (∀ a ∈ l, ∀ s, ∃ s', f s a = .ok s') → ∀ s, ∃ s', l.foldlM f s = .ok s' := by
  intro l
  induction l with
  | nil => exact fun _ s => ⟨s, rfl⟩
  | cons a l ih =>
    intro each s
    rw [List.foldlM_cons]
    exact bind_isOk (each a (by simp) s) fun middle _ =>
      ih (fun c hc => each c (by simp [hc])) middle

end

/-! ### Marks and slots -/

namespace GradientMarks

variable {ws : Workspace} {id : Nat} {roots order : List NodeRef}

/-- Nodes whose inputs are marked can be marked. -/
theorem ofNode_isOk {marks : GradientMarks} (sound : ws.Sound) {n : NodeRef}
    (known : ∀ i ∈ ws.inputs n, (marks.lookup i.handle).isSome = true) :
    ∃ mark, marks.ofNode (ws.node n) = .ok mark := by
  unfold ofNode
  split
  next => exact ⟨_, rfl⟩
  next => exact ⟨_, rfl⟩
  next k role =>
    obtain ⟨p, args, _, input, _⟩ := sound.selector role
    obtain ⟨mark, found⟩ := Option.isSome_iff_exists.mp (known p input)
    refine bind_isOk ⟨p, by rw [Node.parent, args]⟩ fun q parent => ⟨mark, ?_⟩
    rw [Node.parent, args] at parent
    cases parent
    rw [get, found]
  next => exact ⟨_, rfl⟩

theorem ofOrder_isOk (sound : ws.Sound) (ord : ws.Orders id roots order) :
    ∃ marks, ofOrder ws [] order = .ok marks := by
  have go : ∀ (rest done : List NodeRef) (before : GradientMarks), order = done ++ rest →
      Settles ws done before → ∃ after, ofOrder ws before rest = .ok after := by
    intro rest
    induction rest with
    | nil => exact fun _ before _ _ => ⟨before, rfl⟩
    | cons n rest ih =>
      intro done before split settles
      have known : ∀ i ∈ ws.inputs n, (before.lookup i.handle).isSome = true := fun i hi =>
        (settles.known _).mpr ⟨i, ord.input_before sound split hi, rfl⟩
      obtain ⟨mark, first⟩ := ofNode_isOk sound known
      obtain ⟨after, later⟩ := ih (done ++ [n]) _ (by simp [split])
        (settles.next_of_order sound ord split first)
      exact ⟨after, by rw [ofOrder, first]; exact later⟩
  exact go order [] [] rfl ⟨fun h => by simp, fun n hn => by cases hn⟩

end GradientMarks

namespace Layout

variable {ws : Workspace} {id : Nat} {roots order : List NodeRef} {l : Layout}
  {selectors : List ((Nat × Nat) × NodeRef)} {marks : GradientMarks} {n : NodeRef} {r : Slot}

theorem selectors_isOk (sound : ws.Sound) (order : List NodeRef) :
    ∃ l, Layout.selectors ws order = .ok l := by
  refine foldlM_isOk (fun n _ l => ?_) []
  cases role : (ws.node n).role with
  | selector k =>
    obtain ⟨p, args, _⟩ := sound.selector role
    simp only [role, Node.parent, args]
    exact ⟨_, rfl⟩
  | _ =>
    simp only [role]
    exact ⟨l, rfl⟩

/-- The slot of the output that a node stands for is found. -/
theorem slotOf_eq_ok (sound : ws.Sound) {slots : List Slot}
    (found : l.places.lookup (ws.source n).1.handle = some slots)
    (slot : slots[(ws.source n).2]? = some r) : l.slotOf ws n = .ok r := by
  unfold Workspace.source at found slot
  cases role : (ws.node n).role with
  | selector k =>
    obtain ⟨p, args, _⟩ := sound.selector role
    simp only [role, args] at found slot
    simp only [slotOf, role, Node.parent, args, slotsOf, found, bind, Except.bind, slot, pure,
      Except.pure]
  | _ =>
    simp only [role] at found slot
    simp only [slotOf, role, slotsOf, found, bind, Except.bind, slot, pure, Except.pure]

section
variable (sound : ws.Sound) (ord : ws.Orders id roots order)
  (cov : l.Covers ws selectors marks order)
include sound ord cov

theorem slotOf_isOk (hn : n ∈ order) : ∃ r, l.slotOf ws n = .ok r := by
  obtain ⟨plain, bound, place⟩ := sound.source_spec n
  have inside : (ws.source n).1 ∈ order := by
    rcases place with same | input
    · rwa [same]
    · exact ord.input_mem hn input
  obtain ⟨slots, found, length, _⟩ := cov.places _ inside plain
  exact ⟨_, slotOf_eq_ok sound found (List.getElem?_eq_getElem (by rw [length]; exact bound))⟩

omit sound ord in
theorem slotsOf_isOk (hn : n ∈ order) (plain : (ws.node n).isSelector = false) :
    ∃ slots, l.slotsOf n.handle = .ok slots := by
  obtain ⟨slots, found, _⟩ := cov.places n hn plain
  exact ⟨slots, by simp only [slotsOf, found]⟩

/-- Arguments of nodes of an order resolve. -/
theorem resolve_isOk (hn : n ∈ order) {v : Value} (arg : ∀ m, v = .node m → m ∈ ws.inputs n) :
    ∃ a, Schedule.resolve ws l v = .ok a := by
  cases v with
  | node m =>
    exact bind_isOk (slotOf_isOk sound ord cov (ord.input_mem hn (arg m rfl))) fun r _ =>
      ⟨.slot r, rfl⟩
  | _ => exact ⟨_, rfl⟩

theorem gradientPositions_isOk (hn : n ∈ order) :
    ∃ positions, Schedule.gradientPositions ws l marks (ws.node n).args = .ok positions := by
  refine foldlM_isOk (fun p hp positions => ?_) []
  obtain ⟨v, position⟩ := p
  cases v with
  | node m =>
    have arg : m ∈ ws.inputs n := List.mem_append_left _
      (List.mem_filterMap.mpr ⟨_, List.fst_mem_of_mem_zipIdx hp, rfl⟩)
    dsimp only
    split
    · exact bind_isOk (slotOf_isOk sound ord cov (ord.input_mem hn arg)) fun r _ => ⟨_, rfl⟩
    · exact ⟨_, rfl⟩
  | _ => exact ⟨_, rfl⟩

/-- An operation whose kind is known, with a derivative if it is marked, has an instruction. -/
theorem instruction_isOk (hn : n ∈ order) (operation : (ws.node n).isOperation = true)
    {registry : Registry} {op : Operation} (known : registry.get (ws.node n).kind = .ok op)
    (differentiable : marks.marked n = true → op.differentiable = true) (index : Nat) :
    ∃ i, Schedule.instruction ws registry l marks index n = .ok i := by
  have plain := Node.isSelector_of_isOperation operation
  unfold Schedule.instruction
  refine bind_isOk ⟨op, known⟩ fun op' found => ?_
  obtain rfl : op = op' := Except.ok.inj (known.symm.trans found)
  dsimp only
  have supported : ¬ (marks.any [n] && !op.differentiable) = true := by
    intro lacking
    rw [Bool.and_eq_true, Bool.not_eq_true'] at lacking
    have differentiable' := differentiable lacking.1
    simp [lacking.2] at differentiable'
  rw [if_neg supported]
  refine bind_isOk (gradientPositions_isOk sound ord cov hn) fun _ _ => ?_
  refine bind_isOk (mapM_isOk fun v hv => ?_) fun _ _ => ?_
  · exact resolve_isOk sound ord cov hn fun m node => List.mem_append_left _
      (List.mem_filterMap.mpr ⟨v, hv, by rw [node]; rfl⟩)
  refine bind_isOk (mapM_isOk fun p hp => ?_) fun _ _ => ?_
  · refine bind_isOk (resolve_isOk sound ord cov hn fun m node => ?_) fun a _ => ⟨(p.1, a), rfl⟩
    refine List.mem_append_right _ (List.mem_filterMap.mpr ⟨p, hp, ?_⟩)
    exact congrArg Value.node? node
  exact bind_isOk (slotsOf_isOk cov hn plain) fun _ _ => ⟨_, rfl⟩

end

end Layout

namespace ReleasePlan

theorem lastStep_lt {l : List Instruction} {p : Instruction → Bool} :
    (lastStep l p).all (· < l.length) = true := by
  cases found : lastStep l p with
  | none => rfl
  | some k =>
    obtain ⟨pre, i, post, rfl, rfl, _⟩ := (lastStep_eq_some_iff p l k).mp found
    simp

/-- Steps that slots name exist. -/
theorem ofSlots_isOk {slots : List SlotInfo} {forward backward : List Instruction}
    (uses : ∀ s ∈ slots, s = s.withUses forward backward) :
    ∃ plan, ofSlots slots forward.length backward.length = .ok plan := by
  unfold ofSlots
  rw [if_pos]
  · exact ⟨_, rfl⟩
  · refine List.all_eq_true.mpr fun s hs => ?_
    have range : inRange forward.length backward.length s = true := by
      rw [uses s hs]
      have read : (lastUse forward s.index).all (· < forward.length) = true := lastStep_lt
      have made : (producerOf forward s.index).all (· < forward.length) = true := lastStep_lt
      have back : (lastUse backward s.index).all (· < backward.length) = true := lastStep_lt
      have madeBack : (producerOf backward s.index).all (· < backward.length) = true := lastStep_lt
      simp only [inRange, SlotInfo.lastForwardNeed, SlotInfo.withUses, Bool.and_eq_true]
      refine ⟨⟨?_, back⟩, madeBack⟩
      cases found : lastUse forward s.index with
      | none => simpa [found] using made
      | some k => simpa [found] using read
    simp [range]

end ReleasePlan

/-! ### Compiling -/

/-- An operation lacks a kernel if its kind is unknown to the registry, or if a gradient is wanted at it
and there is no backward kernel. -/
def Workspace.Lacks (ws : Workspace) (registry : Registry) (n : NodeRef) : Prop :=
  (ws.node n).isOperation = true ∧ (registry.find? (ws.node n).kind = none ∨
    ws.Differentiated n ∧ ∃ op, registry.find? (ws.node n).kind = some op ∧ op.backward = none)

namespace Schedule

variable {ws : Workspace} {id : Nat} {terminals order : List NodeRef} {registry : Registry}
  {selectors : List ((Nat × Nat) × NodeRef)} {marks : GradientMarks} {l : Layout} {n : NodeRef}

section
variable (sound : ws.Sound) (ord : ws.Orders id terminals order)
include sound ord

/-- An operation has an instruction, unless it lacks a kernel. -/
theorem instruction_cases (settles : marks.Settles ws order)
    (cov : l.Covers ws selectors marks order) (hn : n ∈ order)
    (operation : (ws.node n).isOperation = true) (registry : Registry) (index : Nat) :
    (¬ ws.Lacks registry n ∧ ∃ i, instruction ws registry l marks index n = .ok i) ∨
      ws.Lacks registry n ∧ ∃ e, instruction ws registry l marks index n = .error e ∧
        e.kind = .configuration := by
  cases found : registry.find? (ws.node n).kind with
  | none =>
    have unknown : registry.get (ws.node n).kind = .error (.unknownKind (ws.node n).kind) := by
      rw [Registry.get, found]
    right
    exact ⟨⟨operation, .inl found⟩, _, by rw [instruction, unknown]; rfl, rfl⟩
  | some op =>
    have known : registry.get (ws.node n).kind = .ok op := by rw [Registry.get, found]
    by_cases lacks : ws.Differentiated n ∧ op.backward = none
    · have mark : marks.any [n] = true := (settles.marked_iff sound ord hn).mpr lacks.1
      have without : op.differentiable = false := by simp [Operation.differentiable, lacks.2]
      right
      refine ⟨⟨operation, .inr ⟨lacks.1, op, found, lacks.2⟩⟩,
        .noBackward (ws.node n).kind (ws.node n).name, ?_, rfl⟩
      simp only [instruction, known, bind, Except.bind, mark, without, Bool.not_false,
        Bool.and_self, if_true]
      rfl
    · left
      constructor
      · rintro ⟨-, unknown | ⟨wanted, op', found', without⟩⟩
        · simp [found] at unknown
        · obtain rfl : op = op' := Option.some.inj (found.symm.trans found')
          exact lacks ⟨wanted, without⟩
      · refine Layout.instruction_isOk sound ord cov hn operation known (fun mark => ?_) index
        have wanted := (settles.marked_iff sound ord hn).mp mark
        rw [Operation.differentiable, Option.isSome_iff_ne_none]
        exact fun without => lacks ⟨wanted, without⟩

/-- An order with an operation that lacks a kernel has no schedule. -/
theorem ofOrder_error (hn : n ∈ order) (lacks : ws.Lacks registry n) (keep : List String)
    (naming : String) :
    ∃ e, ofOrder ws registry order terminals keep naming = .error e ∧ e.kind = .configuration := by
  obtain ⟨marks, hmarks⟩ := GradientMarks.ofOrder_isOk sound ord
  obtain ⟨selectors, hselectors⟩ := Layout.selectors_isOk sound order
  have settles := GradientMarks.ofOrder_spec sound ord hmarks
  have cov := Layout.covers_foldl selectors marks ord
  rw [ofOrder, bind_eq_of_ok hmarks rfl, bind_eq_of_ok hselectors rfl]
  dsimp only
  generalize order.foldl (fun (l : Layout) n => l.push ws selectors marks n) {} = l at cov ⊢
  let operations := order.filter fun n => (ws.node n).isOperation
  have each : ∀ p ∈ operations.zipIdx,
      (∃ i, instruction ws registry l marks p.2 p.1 = .ok i) ∨
        ∃ e, instruction ws registry l marks p.2 p.1 = .error e ∧ e.kind = .configuration := by
    intro p hp
    obtain ⟨hm, operation⟩ := List.mem_filter.mp (List.fst_mem_of_mem_zipIdx hp)
    rcases instruction_cases sound ord settles cov hm operation registry p.2 with made | failed
    · exact .inl made.2
    · exact .inr failed.2
  have fails : ∃ p ∈ operations.zipIdx, ∀ i, instruction ws registry l marks p.2 p.1 ≠ .ok i := by
    have mem : n ∈ operations := List.mem_filter.mpr ⟨hn, lacks.1⟩
    rw [← List.zipIdx_map_fst 0 operations] at mem
    obtain ⟨⟨m, index⟩, hp, rfl⟩ := List.mem_map.mp mem
    refine ⟨(m, index), hp, fun i made => ?_⟩
    rcases instruction_cases sound ord settles cov hn lacks.1 registry index with
      supported | ⟨-, e, failed, -⟩
    · exact supported.1 lacks
    · cases made.symm.trans failed
  obtain ⟨-, -, e, -, kind, failed⟩ := mapM_isError each fails
  exact ⟨e, by rw [failed]; rfl, kind⟩

/-- The slot of a name to keep. -/
def slotToKeep (names : List (String × Slot)) (name : String) : Except Error Slot :=
  (names.lookup name).elim (.error (.cannotKeep name)) .ok

/-- The slots to keep are found, unless a name is missing in the table. -/
theorem retainedSlots_cases (cov : l.Covers ws selectors marks order)
    (names : List (String × Slot)) (keep : List String) :
    (∃ retained, retainedSlots ws l names terminals keep = .ok retained ∧
        ∀ x ∈ keep, (names.lookup x).isSome = true) ∨
      ∃ x ∈ keep, names.lookup x = none ∧
        retainedSlots ws l names terminals keep = .error (.cannotKeep x) := by
  unfold retainedSlots
  obtain ⟨outs, houts⟩ : ∃ outs, terminals.mapM (fun t =>
      if (ws.node t).isSelector then (do return [← l.slotOf ws t]) else l.slotsOf t.handle) =
        (.ok outs : Except Error _) := by
    refine mapM_isOk fun t ht => ?_
    split
    next =>
      exact bind_isOk (Layout.slotOf_isOk sound ord cov (ord.root_mem ht)) fun r _ => ⟨[r], rfl⟩
    next plain => exact Layout.slotsOf_isOk cov (ord.root_mem ht) (by simpa using plain)
  rw [bind_eq_of_ok houts rfl, mapM_congr_mem (l := keep) (g := slotToKeep names) fun x _ => by
    unfold slotToKeep
    cases names.lookup x <;> rfl]
  by_cases kept : ∀ x ∈ keep, (names.lookup x).isSome = true
  · left
    have each : ∀ x ∈ keep, ∃ r, slotToKeep names x = .ok r := by
      intro x hx
      obtain ⟨r, here⟩ := Option.isSome_iff_exists.mp (kept x hx)
      exact ⟨r, by rw [slotToKeep, here]; rfl⟩
    obtain ⟨ofNames, hnames⟩ := mapM_isOk each
    exact ⟨_, bind_eq_of_ok hnames rfl, kept⟩
  · right
    have found : ∀ x ∈ keep, (∃ r, slotToKeep names x = .ok r) ∨
        ∃ e, slotToKeep names x = .error e ∧ names.lookup x = none ∧ e = .cannotKeep x := by
      intro x _
      unfold slotToKeep
      cases names.lookup x with
      | some r => exact .inl ⟨r, rfl⟩
      | none => exact .inr ⟨_, rfl, rfl, rfl⟩
    have fails : ∃ x ∈ keep, ∀ r, slotToKeep names x ≠ .ok r := by
      obtain ⟨x, hx, missing⟩ := by simpa only [not_forall, exists_prop] using kept
      refine ⟨x, hx, fun r here => missing ?_⟩
      unfold slotToKeep at here
      cases look : names.lookup x with
      | some r => rfl
      | none => rw [look] at here; cases here
    obtain ⟨x, hx, e, -, ⟨missing, rfl⟩, failed⟩ := mapM_isError found fails
    refine ⟨x, hx, missing, ?_⟩
    rw [failed]
    rfl

/-- An order without such an operation has a name table, and a schedule if the names to keep are in the
table. -/
theorem ofOrder_names (supported : ∀ n ∈ order, ¬ ws.Lacks registry n) (naming : String) :
    ∃ names : List (String × Slot), ∀ keep,
      (∃ s, ofOrder ws registry order terminals keep naming = .ok s ∧ s.names = names ∧
        ∀ x ∈ keep, (names.lookup x).isSome = true) ∨
      ∃ x ∈ keep, names.lookup x = none ∧
        ofOrder ws registry order terminals keep naming = .error (.cannotKeep x) := by
  obtain ⟨marks, hmarks⟩ := GradientMarks.ofOrder_isOk sound ord
  obtain ⟨selectors, hselectors⟩ := Layout.selectors_isOk sound order
  have settles := GradientMarks.ofOrder_spec sound ord hmarks
  have cov := Layout.covers_foldl selectors marks ord
  unfold ofOrder
  simp only [bind_eq_of_ok hmarks rfl, bind_eq_of_ok hselectors rfl]
  generalize order.foldl (fun (l : Layout) n => l.push ws selectors marks n) {} = l at cov ⊢
  have slot : ∀ n ∈ order, ∃ r, l.slotOf ws n = .ok r := fun n hn =>
    Layout.slotOf_isOk sound ord cov hn
  obtain ⟨forward, hforward⟩ : ∃ forward,
      (order.filter fun n => (ws.node n).isOperation).zipIdx.mapM (fun p =>
        instruction ws registry l marks p.2 p.1) = .ok forward := by
    refine mapM_isOk fun p hp => ?_
    obtain ⟨hn, operation⟩ := List.mem_filter.mp (List.fst_mem_of_mem_zipIdx hp)
    rcases instruction_cases sound ord settles cov hn operation registry p.2 with made | lacking
    · exact made.2
    · exact absurd lacking.1 (supported p.1 hn)
  obtain ⟨names, hnames⟩ : ∃ names, order.foldlM (fun names n => do
        return enterName names (Error.shownName (ws.name n)) (← l.slotOf ws n))
      (l.infos.foldl (fun names info => enterName names info.name info.index) []) =
        (.ok names : Except Error _) :=
    foldlM_isOk (fun n hn names => bind_isOk (slot n hn) fun r _ => ⟨_, rfl⟩) _
  obtain ⟨terminalSlots, hterminals⟩ : ∃ slots, terminals.mapM (l.slotOf ws) = .ok slots :=
    mapM_isOk fun t ht => slot t (ord.root_mem ht)
  refine ⟨names, fun keep => ?_⟩
  rw [bind_eq_of_ok hforward rfl, bind_eq_of_ok hnames rfl]
  rcases retainedSlots_cases sound ord cov names keep with
    ⟨retained, hretained, kept⟩ | ⟨x, hx, missing, failed⟩
  · left
    rw [bind_eq_of_ok hretained rfl, bind_eq_of_ok hterminals rfl]
    have uses : ∀ info ∈ l.infos.map (SlotInfo.finished retained forward
        (forward.filter (·.requiresGradient)).reverse),
        info = info.withUses forward (forward.filter (·.requiresGradient)).reverse := by
      intro info mem
      obtain ⟨base, -, rfl⟩ := List.mem_map.mp mem
      rfl
    obtain ⟨plan, hplan⟩ := ReleasePlan.ofSlots_isOk uses
    exact ⟨_, bind_eq_of_ok hplan rfl, rfl, kept⟩
  · right
    exact ⟨x, hx, missing, by rw [failed]; rfl⟩

end

/-- An order of nodes whose operations have kernels and derivatives has a schedule. -/
theorem ofOrder_isOk (sound : ws.Sound) (ord : ws.Orders id terminals order)
    (kernels : ∀ n ∈ order, (ws.node n).isOperation = true → ∃ op,
      registry.get (ws.node n).kind = .ok op ∧ op.differentiable = true) (naming : String) :
    ∃ s, ofOrder ws registry order terminals [] naming = .ok s := by
  have supported : ∀ n ∈ order, ¬ ws.Lacks registry n := by
    rintro n hn ⟨operation, without⟩
    obtain ⟨op, known, differentiable⟩ := kernels n hn operation
    unfold Registry.get at known
    split at known
    next op' found =>
      cases known
      simp only [found, Option.some.injEq, exists_eq_left', reduceCtorEq, false_or] at without
      simp [Operation.differentiable, without.2] at differentiable
    next => cases known
  obtain ⟨names, outcome⟩ := ofOrder_names sound ord supported naming
  rcases outcome [] with ⟨s, made, -⟩ | ⟨x, none, -⟩
  · exact ⟨s, made⟩
  · cases none

end Schedule

namespace Workspace

/-- What compiling asks of the nodes that roots depend on: the names that they carry differ, and
operations have kernels and derivatives. -/
structure Compilable (ws : Workspace) (registry : Registry) (roots : List NodeRef) : Prop where
  apart : ∀ a b name, ws.Reaches roots a → ws.Reaches roots b → ws.name a = some name →
    ws.name b = some name → a = b
  kernels : ∀ n, ws.Reaches roots n → (ws.node n).isOperation = true → ∃ op,
    registry.get (ws.node n).kind = .ok op ∧ op.differentiable = true

variable {ws : Workspace} {id : Nat} {nodes : List NodeRef} {terminals : List Value}

/-- Compiling, once the nodes are ordered and named. -/
theorem compile_eq {named : Workspace} {order : List NodeRef} (options : CompileOptions)
    {assigned : Assignment} (checked : checkTerminals terminals = .ok (id, nodes))
    (ordered : ws.topologicalOrder nodes = .ok order)
    (resolved : ws.resolveNames id order options.naming = (.ok assigned, named)) :
    ws.compile terminals options =
      if named.duplicateNames order = [] then
        match Schedule.ofOrder named (named.registryFor id options.registry) order nodes options.keep
          options.naming with
        | .error e => (.error e, named)
        | .ok s => (.ok s, named.report s.summary)
      else
        (.error (.duplicateNames (((named.duplicateNames order).map (·.1)).mergeSort
          fun a b => decide (a ≤ b))), named) := by
  unfold compile
  simp only [checked, ordered, resolved, bind, Except.bind, pure, Except.pure]
  by_cases none : named.duplicateNames order = []
  · rw [if_pos none]
    cases Schedule.ofOrder named (named.registryFor id options.registry) order nodes options.keep
      options.naming
    all_goals
      simp only [none, List.map_nil, List.isEmpty_nil, Bool.not_true, Bool.false_eq_true, if_false]
  · rw [if_neg none]
    obtain ⟨p, rest, some⟩ := List.exists_cons_of_ne_nil none
    simp only [some, List.map_cons, List.isEmpty_cons, Bool.not_false, if_true]
    rfl

/-- Compilable nodes have a schedule. Nodes were named for it and nothing else, and its slots go by
the names of nodes. -/
theorem Built.compile_ok (built : ws.Built) (checked : checkTerminals terminals = .ok (id, nodes))
    (exist : ∀ n ∈ nodes, ws.Exists n) (options : CompileOptions)
    (compilable : ws.Compilable (ws.registryFor id options.registry) nodes)
    (keep : options.keep = []) {mode : NamingMode} (naming : options.naming = mode.name) :
    ∃ s now, ws.compile terminals options = (.ok s, now) ∧ SameShape ws now ∧
      (∀ n name, ws.name n = some name → now.name n = some name) ∧ s.NamedLike now s.nodes := by
  obtain ⟨-, graph⟩ := checkTerminals_spec checked
  obtain ⟨order, found, ord⟩ := built.sound.topologicalOrder fun n hn => ⟨exist n hn, graph n hn⟩
  have apart : ws.NamesApart order := fun a ha b hb name =>
    compilable.apart a b name ((ord.mem_iff a).mp ha) ((ord.mem_iff b).mp hb)
  obtain ⟨assigned, named, resolved, apart', kept⟩ :=
    built.resolveNames_ok ord.exist ord.graph apart mode
  obtain ⟨built', same, _⟩ := resolveNames_spec built ord.exist resolved
  have ord' := same.orders ord
  have duplicates := apart'.duplicateNames ord'.nodup
  have kernels : ∀ n ∈ order, (named.node n).isOperation = true → ∃ op,
      (named.registryFor id options.registry).get (named.node n).kind = .ok op ∧
        op.differentiable = true := by
    intro n hn operation
    rw [same.congr (·.isOperation) (fun _ _ => rfl)] at operation
    rw [same.congr (·.kind) (fun _ _ => rfl)]
    simp only [registryFor, same.registry]
    exact compilable.kernels n ((ord.mem_iff n).mp hn) operation
  obtain ⟨s, made⟩ := Schedule.ofOrder_isOk built'.sound ord' kernels options.naming
  obtain ⟨⟨marks, comp⟩, like⟩ := Schedule.compiled_of_ofOrder built'.sound ord' made
  refine ⟨s, named.report s.summary, ?_, ⟨same.registry, same.exist, same.node⟩, kept, ?_⟩
  · rw [← naming] at resolved
    rw [compile_eq _ checked found resolved, if_pos duplicates, keep, made]
  · rw [comp.nodes]
    exact like

/-- For compilable nodes a net is built, on the host. -/
theorem Built.buildNet_ok (built : ws.Built) {vs : List Value}
    (spread : Net.spread terminals = .ok vs) (checked : checkTerminals vs = .ok (id, nodes))
    (exist : ∀ n ∈ nodes, ws.Exists n) {options : NetOptions}
    (compilable : ws.Compilable (ws.registryFor id options.registry) nodes)
    (keep : options.keep = [])
    (device : ∀ label, Device.normalize label options.config.device = Device.host) :
    ∃ s now, ws.buildNet terminals options = (.ok (Net.ofSchedule now s options), now) ∧
      SameShape ws now ∧ (∀ n name, ws.name n = some name → now.name n = some name) ∧
      s.NamedLike now s.nodes := by
  obtain ⟨rfl, -⟩ := checkTerminals_spec checked
  let shown : Workspace := if options.config.debug then { ws with verbose := true } else ws
  have shown_eq : shown = { ws with verbose := shown.verbose } := by
    cases debug : options.config.debug <;> simp [shown, debug]
  have built' : shown.Built := by
    rw [shown_eq]
    exact .report _ ws.journal built
  have same : SameShape ws shown := by
    rw [shown_eq]
    exact ⟨fun _ => rfl, fun _ => .rfl, fun _ => ⟨_, rfl⟩⟩
  have names : shown.name = ws.name := by
    rw [shown_eq]
    rfl
  have compilable' : shown.Compilable (shown.registryFor id options.registry) (nodesIn vs) := by
    simp only [registryFor, same.registry]
    refine ⟨fun a b name ha hb => ?_, fun n hn operation => ?_⟩
    · rw [names]
      exact compilable.apart a b name (same.reaches_iff.mp ha) (same.reaches_iff.mp hb)
    · rw [same.congr (·.isOperation) (fun _ _ => rfl)] at operation
      rw [same.congr (·.kind) (fun _ _ => rfl)]
      exact compilable.kernels n (same.reaches_iff.mp hn) operation
  have exist' : ∀ n ∈ nodesIn vs, shown.Exists n := fun n hn => (same.exist n).mpr (exist n hn)
  obtain ⟨s, now, compiled, later, kept, like⟩ := built'.compile_ok checked exist'
    { keep := options.keep, naming := options.config.naming.name, registry := options.registry }
    compilable' keep rfl
  obtain ⟨_, named, apart⟩ := built'.compile_spec exist' compiled
  obtain ⟨⟨_, _, _, sched⟩, _⟩ := built'.compile_spec exist' compiled
  rw [names] at kept
  refine ⟨s, now, ?_, same.trans later, kept, like⟩
  have compiled' : (if options.config.debug then { ws with verbose := true } else ws).compile vs
      { keep := options.keep, naming := options.config.naming.name, registry := options.registry } =
      (.ok s, now) := compiled
  unfold buildNet
  simp only [spread, compiled', sched.wellFormed.check named apart, device, if_true]

end Workspace

end Backprop
