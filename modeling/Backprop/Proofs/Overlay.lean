import Backprop.Net.Build
import Backprop.Proofs.LeastOrder
import Backprop.Proofs.Locality
/-!
# What compiling does not look at

Of a workspace, naming and compiling read the nodes and the registry that they are to use. They change it
by new names and by messages.

* `Workspace.Overlay f`: `f` changes other things than these.
* `Overlay.compile` and `Overlay.buildNet`: compiling and building a net come to the same under `f`.
* `Workspace.compile_transfers`: compiling moves nothing.
-/

namespace Backprop

/-! ### Schedules depend on nodes -/

section
variable {ws ws' : Workspace} (same : ws'.node = ws.node)
include same

theorem Workspace.name_congr : ws'.name = ws.name := by
  funext n
  rw [Workspace.name, same]
  rfl

theorem Workspace.label_congr : ws'.label = ws.label := by
  funext n
  rw [Workspace.label, same]
  rfl

theorem Workspace.inputs_congr : ws'.inputs = ws.inputs := by
  funext n
  rw [Workspace.inputs, same]
  rfl

theorem Workspace.visit_congr (unmet : List Nat) (stack : List NodeRef) :
    ws'.visit unmet stack = ws.visit unmet stack := by
  induction unmet, stack using Workspace.visit.induct ws with
  | case1 unmet => rw [Workspace.visit, Workspace.visit]
  | case2 unmet n stack unseen ih =>
    rw [Workspace.visit, Workspace.visit, if_pos unseen, if_pos unseen, inputs_congr same, ih]
  | case3 unmet n stack seen ih =>
    rw [Workspace.visit, Workspace.visit, if_neg seen, if_neg seen, ih]

theorem Workspace.listReady_congr (listed : List Nat) (waiting : List NodeRef) :
    ws'.listReady listed waiting = ws.listReady listed waiting := by
  have ready : ws'.isReady = ws.isReady := by
    funext listed n
    rw [Workspace.isReady, inputs_congr same]
    rfl
  induction listed, waiting using Workspace.listReady.induct ws with
  | case1 listed waiting n found ih =>
    have found' : waiting.find? (ws'.isReady listed) = some n := by rw [ready, found]
    rw [Workspace.listReady_of_some found, Workspace.listReady_of_some found', ih]
  | case2 listed waiting none | case3 listed waiting none =>
    have none' : waiting.find? (ws'.isReady listed) = Option.none := by rw [ready, none]
    rw [Workspace.listReady_of_none none, Workspace.listReady_of_none none']

theorem Schedule.ofOrder_congr : Schedule.ofOrder ws' = Schedule.ofOrder ws := by
  funext registry order terminals keep naming
  have alike : ws.Alike ws' fun _ => True := fun n _ => congrFun same n
  exact Schedule.ofOrder_alike alike registry keep naming (fun _ _ => trivial)
    (fun _ _ _ _ => trivial) fun _ _ => trivial

theorem Net.ofSchedule_congr : Net.ofSchedule ws' = Net.ofSchedule ws := by
  funext s options
  have initial : Net.initialValue ws' s = Net.initialValue ws s := by
    funext info
    simp only [Net.initialValue, same]
  simp only [Net.ofSchedule, Net.initialTable, Net.paramsOf, initial, Workspace.name_congr same, same]

end

/-! ### Overlays -/

/-- A change of a workspace that can neither be read while nodes are named nor interferes with it. -/
structure Workspace.Overlay (f : Workspace → Workspace) : Prop where
  node : ∀ ws, (f ws).node = ws.node
  names : ∀ ws id, Namer.ofGraph ((f ws).graph id) = Namer.ofGraph (ws.graph id)
  bound : ∀ ws, (f ws).handleBound = ws.handleBound
  rename : ∀ ws n name, (f ws).rename n name = f (ws.rename n name)
  report : ∀ ws message, (f ws).report message = f (ws.report message)
  debug : ∀ ws : Workspace, { f ws with verbose := true } = f { ws with verbose := true }

namespace Naming

/-- A naming in a changed workspace. -/
def under (f : Workspace → Workspace) (s : Naming) : Naming := { s with workspace := f s.workspace }

variable {f : Workspace → Workspace}

theorem under_foldl {g : Naming → NodeRef → Naming}
    (step : ∀ s n, g (s.under f) n = (g s n).under f) (l : List NodeRef) (s : Naming) :
    l.foldl g (s.under f) = (l.foldl g s).under f := by
  induction l generalizing s with
  | nil => rfl
  | cons n l ih => rw [List.foldl_cons, List.foldl_cons, step, ih]

variable (overlay : Workspace.Overlay f)
include overlay

theorem under_isNamed (s : Naming) (n : NodeRef) : (s.under f).isNamed n = s.isNamed n :=
  congrArg (fun name : NodeRef → Option String => (name n).isSome)
    (Workspace.name_congr (overlay.node s.workspace))

theorem under_assign (s : Naming) (n : NodeRef) (name : String) :
    (s.under f).assign n name = (s.assign n name).under f := by
  simp only [assign, under, overlay.rename]

theorem under_assignNumbered (s : Naming) (n : NodeRef) (stem : String) :
    (s.under f).assignNumbered n stem = (s.assignNumbered n stem).under f :=
  under_assign overlay { s with namer := (s.namer.next stem).2 } n _

theorem under_assignClaimed (s : Naming) (n : NodeRef) (base : String) :
    (s.under f).assignClaimed n base = (s.assignClaimed n base).under f :=
  under_assign overlay { s with namer := (s.namer.claim base).2 } n _

theorem under_assignByKind (s : Naming) (n : NodeRef) :
    (s.under f).assignByKind n = (s.assignByKind n).under f := by
  have node : (s.under f).workspace.node = s.workspace.node := overlay.node _
  simp only [assignByKind, under_isNamed overlay, under_assignNumbered overlay, node]
  split <;> rfl

theorem under_assignParams (operation : String) (l : List NodeRef) (s : Naming) (rank : Nat) :
    (s.under f).assignParams operation rank l = (s.assignParams operation rank l).under f := by
  induction l generalizing s rank with
  | nil => rfl
  | cons p rest ih =>
    have node : (s.under f).workspace.node = s.workspace.node := overlay.node _
    simp only [assignParams, under_isNamed overlay, under_assignClaimed overlay, node]
    split
    · split
      · exact ih _ _
      · exact ih _ _
    · exact ih _ _

theorem under_assignOperation (s : Naming) (n : NodeRef) :
    (s.under f).assignOperation n = (s.assignOperation n).under f := by
  have node : (s.under f).workspace.node = s.workspace.node := overlay.node _
  have after : ∀ s : Naming, (s.under f).workspace.name = s.workspace.name ∧
      (s.under f).workspace.inputs = s.workspace.inputs := fun s =>
    ⟨Workspace.name_congr (overlay.node _), Workspace.inputs_congr (overlay.node _)⟩
  simp only [assignOperation, under_assignByKind overlay, under_assignParams overlay, node, after]
  split <;> rfl

theorem under_assignRest (l : List NodeRef) (s : Naming) : (s.under f).assignRest l =
    ((s.assignRest l).1, (s.assignRest l).2.under f) := by
  induction l generalizing s with
  | nil => rfl
  | cons n rest ih =>
    have node : (s.under f).workspace.node = s.workspace.node := overlay.node _
    have name : (s.under f).workspace.name = s.workspace.name := Workspace.name_congr node
    simp only [assignRest, under_isNamed overlay, under_assignClaimed overlay, under_assignByKind overlay,
      node, name]
    split
    · exact ih s
    · split
      · split
        · exact ih _
        · rfl
      · exact ih _

/-- Naming comes to the same in a changed workspace. -/
theorem under_assignIn (mode : String) (order : List NodeRef) (s : Naming) :
    (s.under f).assignIn mode order = ((s.assignIn mode order).1, (s.assignIn mode order).2.under f) := by
  unfold assignIn
  split
  · rw [assignSequential, under_foldl (under_assignOperation overlay), under_assignRest overlay]
    rfl
  · split
    · rw [assignDefault, under_foldl (under_assignByKind overlay)]
      rfl
    · rfl

end Naming

namespace Workspace.Overlay

variable {f : Workspace → Workspace} (overlay : Overlay f)
include overlay

theorem topologicalOrder (ws : Workspace) : (f ws).topologicalOrder = ws.topologicalOrder := by
  funext terminals
  have same := overlay.node ws
  rw [Workspace.topologicalOrder, Workspace.reachable, overlay.bound, visit_congr same,
    listReady_congr same]
  rfl

theorem duplicateNames (ws : Workspace) : (f ws).duplicateNames = ws.duplicateNames := by
  funext nodes
  simp only [Workspace.duplicateNames, name_congr (overlay.node ws)]

theorem resolveNames (ws : Workspace) (id : Nat) (order : List NodeRef) (mode : String) :
    (f ws).resolveNames id order mode =
      ((ws.resolveNames id order mode).1, f (ws.resolveNames id order mode).2) := by
  have run := Naming.under_assignIn overlay mode order
    { workspace := ws, namer := .ofGraph (ws.graph id) }
  have start : ({ workspace := f ws, namer := .ofGraph ((f ws).graph id) } : Naming) =
      Naming.under f { workspace := ws, namer := .ofGraph (ws.graph id) } := by
    rw [overlay.names]
    rfl
  have unnamed : (f ws).unnamed order = ws.unnamed order := by
    rw [Workspace.unnamed, name_congr (overlay.node ws)]
    rfl
  rw [← start] at run
  simp only [Workspace.resolveNames, unnamed, Option.getD_none, Naming.assignWorkspace, List.foldl_nil, run]
  by_cases none : (ws.unnamed order).isEmpty = true
  · rw [if_pos none, if_pos none]
  · rw [if_neg none, if_neg none]
    cases Naming.assignIn { workspace := ws, namer := .ofGraph (ws.graph id) } mode order with
    | mk result s => cases result <;> rfl

/-- Compiling comes to the same in a changed workspace that has the same operations. -/
theorem compile {options : CompileOptions}
    (same : ∀ ws id, (f ws).registryFor id options.registry = ws.registryFor id options.registry)
    (ws : Workspace) (terminals : List Value) : (f ws).compile terminals options =
      ((ws.compile terminals options).1, f (ws.compile terminals options).2) := by
  simp only [Workspace.compile, overlay.topologicalOrder]
  split
  · rfl
  next id nodes order _ =>
    rw [overlay.resolveNames]
    cases ws.resolveNames id order options.naming with
    | mk result named =>
      cases result with
      | error e => rfl
      | ok assigned =>
        simp only [overlay.duplicateNames, same, Schedule.ofOrder_congr (overlay.node named),
          overlay.report]
        split <;> rfl

theorem check (ws : Workspace) (s : Schedule) : s.check (f ws) = s.check ws := by
  rw [Schedule.check, name_congr (overlay.node ws)]
  rfl

/-- So does building a net. -/
theorem buildNet {options : NetOptions}
    (same : ∀ ws id, (f ws).registryFor id options.registry = ws.registryFor id options.registry)
    (ws : Workspace) (terminals : List Value) :
    ((f ws).buildNet terminals options).1 = (ws.buildNet terminals options).1 := by
  have debug : (if options.config.debug then { f ws with verbose := true } else f ws) =
      f (if options.config.debug then { ws with verbose := true } else ws) := by
    split
    · exact overlay.debug ws
    · rfl
  unfold Workspace.buildNet
  split
  · rfl
  next terminals _ =>
    dsimp only
    rw [debug, overlay.compile same]
    generalize (if options.config.debug then { ws with verbose := true } else ws).compile terminals _ =
      compiled
    obtain ⟨e | s, now⟩ := compiled
    · rfl
    · dsimp only
      rw [overlay.check, Net.ofSchedule_congr (overlay.node now), label_congr (overlay.node now)]
      split
      · rfl
      · split
        · rfl
        · split <;> rfl

end Workspace.Overlay

/-! ### Calls of transfers -/

namespace Workspace

/-- A workspace with other records of transfers. -/
def carrying (transfers : Array (String × Value)) (ws : Workspace) : Workspace :=
  { ws with journal := { ws.journal with transfers } }

theorem overlay_carrying (transfers : Array (String × Value)) : Overlay (carrying transfers) := by
  constructor <;> intros <;> rfl

/-- Compiling moves nothing. -/
theorem compile_transfers (ws : Workspace) (terminals : List Value) (options : CompileOptions) :
    (ws.compile terminals options).2.journal.transfers = ws.journal.transfers := by
  have overlay := overlay_carrying ws.journal.transfers
  exact congrArg (fun result : Except Error Schedule × Workspace => result.2.journal.transfers)
    (overlay.compile (fun _ _ => rfl) ws terminals)

end Workspace

end Backprop
