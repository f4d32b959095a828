import Mathlib
import Backprop.Proofs.Compilable
import Backprop.Proofs.SlotNames
/-!
# How compiling turns out

Compiling for nodes that exist fails in three ways, and the first that applies is reported: two nodes
carried one name before, an operation lacks a kernel, a name to keep belongs to nothing.

* `Naming.Confined`: naming an order names none but nodes of the order.
* `Workspace.GoesBy` are the names of nodes, and those made for outputs that no node stands for;
  `Schedule.lookup_isSome_iff`: they are the names of a compiled schedule.
* `Built.compile_outcome`: which of the failures is reported when, and what has become of the nodes.
-/

namespace Backprop

open Workspace

/-! ### The nodes that are named -/

namespace Naming

/-- A naming that began in a workspace has named some nodes only. -/
structure Confined (ws : Workspace) (among : NodeRef → Prop) (s : Naming) : Prop where
  built : s.workspace.Built
  same : SameShape ws s.workspace
  rest : ∀ n, ¬ among n → s.workspace.name n = ws.name n

variable {ws : Workspace} {among : NodeRef → Prop} {s : Naming} {n : NodeRef}

theorem Confined.assign (h : Confined ws among s) (hn : among n) (name : String) :
    Confined ws among (s.assign n name) := by
  refine ⟨.rename n _ h.built, h.same.trans (h.built.sound.sameShape_rename n _), fun m hm => ?_⟩
  have ne : m ≠ n := fun same => hm (same ▸ hn)
  rw [← h.rest m hm]
  exact congrArg Node.name (h.built.sound.node_rename_ne ne)

theorem Confined.assignClaimed (h : Confined ws among s) (hn : among n) (base : String) :
    Confined ws among (s.assignClaimed n base) :=
  Confined.assign (s := { s with namer := (s.namer.claim base).2 }) ⟨h.built, h.same, h.rest⟩ hn _

theorem Confined.assignByKind (h : Confined ws among s) (hn : among n) :
    Confined ws among (s.assignByKind n) := by
  unfold Naming.assignByKind
  split
  · exact h
  · exact Confined.assign (s := { s with namer := (s.namer.next (s.workspace.node n).kind).2 })
      ⟨h.built, h.same, h.rest⟩ hn _

theorem Confined.assignParams (operation : String) : ∀ (l : List NodeRef) (s : Naming) (rank : Nat),
    Confined ws among s → (∀ n ∈ l, among n) → Confined ws among (s.assignParams operation rank l) := by
  intro l
  induction l with
  | nil => exact fun _ _ h _ => h
  | cons p rest ih =>
    intro s rank h inside
    have inside' : ∀ n ∈ rest, among n := fun n hn => inside n (List.mem_cons_of_mem p hn)
    unfold Naming.assignParams
    split
    · dsimp only
      split
      · exact ih s _ h inside'
      · exact ih _ _ (h.assignClaimed (inside p List.mem_cons_self) _) inside'
    · exact ih s rank h inside'

theorem Confined.assignOperation (h : Confined ws among s) (hn : among n)
    (inputs : ∀ i ∈ ws.inputs n, among i) : Confined ws among (s.assignOperation n) := by
  unfold Naming.assignOperation
  split
  · have named := h.assignByKind hn
    apply Confined.assignParams _ _ _ _ named
    intro p hp
    have input := mem_of_mem_distinct hp
    rw [named.same.inputs] at input
    exact inputs p input
  · exact h

theorem Confined.foldl {f : Naming → NodeRef → Naming} {p : NodeRef → Prop}
    (step : ∀ (s : Naming) (n : NodeRef), p n → Confined ws among s → Confined ws among (f s n)) :
    ∀ (l : List NodeRef) (s : Naming), (∀ n ∈ l, p n) → Confined ws among s →
      Confined ws among (l.foldl f s) := by
  intro l
  induction l with
  | nil => exact fun _ _ h => h
  | cons n l ih =>
    intro s all h
    apply ih
    · exact fun m hm => all m (List.mem_cons_of_mem n hm)
    · exact step s n (all n List.mem_cons_self) h

theorem Confined.assignRest : ∀ (l : List NodeRef) (s : Naming), Confined ws among s →
    (∀ n ∈ l, among n) → Confined ws among (s.assignRest l).2 := by
  intro l
  induction l with
  | nil => exact fun _ h _ => h
  | cons n rest ih =>
    intro s h inside
    have hn := inside n List.mem_cons_self
    have inside' : ∀ m ∈ rest, among m := fun m hm => inside m (List.mem_cons_of_mem n hm)
    unfold Naming.assignRest
    split
    · exact ih s h inside'
    · dsimp only
      split
      · split
        · exact ih _ (h.assignClaimed hn _) inside'
        · exact h
      · exact ih _ (h.assignByKind hn) inside'

/-- Naming an order that has the inputs of its nodes names only nodes of the order. -/
theorem Confined.assignIn (h : Confined ws among s) {order : List NodeRef}
    (inside : ∀ n ∈ order, among n) (closed : ∀ n ∈ order, ∀ i ∈ ws.inputs n, among i)
    (mode : String) : Confined ws among (s.assignIn mode order).2 := by
  unfold Naming.assignIn
  split
  · apply Confined.assignRest _ _ _ inside
    apply Confined.foldl (p := (· ∈ order)) _ order s (fun n hn => hn) h
    exact fun _ n hn h => h.assignOperation (inside n hn) (closed n hn)
  · split
    · apply Confined.foldl (p := among) (fun _ n hn h => h.assignByKind hn) _ s _ h
      intro n hn
      exact inside n ((List.mergeSort_perm _ _).mem_iff.mp hn)
    · exact h

end Naming

namespace Workspace

variable {ws : Workspace} {id : Nat} {roots order : List NodeRef}

/-- Resolving the names of an order leaves the names of other nodes. -/
theorem Built.resolveNames_rest (built : ws.Built) (ord : ws.Orders id roots order) (mode : String)
    {n : NodeRef} (outside : n ∉ order) :
    (ws.resolveNames id order mode).2.name n = ws.name n := by
  unfold resolveNames
  split
  · rfl
  · have begin : Naming.Confined ws (· ∈ order)
        { workspace := ws, namer := .ofGraph (ws.graph id) } := ⟨built, .refl ws, fun _ _ => rfl⟩
    have done := begin.assignIn (fun _ hn => hn) (fun _ hn _ input => ord.input_mem hn input) mode
    have rest := done.rest n outside
    dsimp only [Option.getD_none, Naming.assignWorkspace, List.foldl_nil]
    split
    next found => rw [← rest, found]
    next found => rw [← rest, found]

/-! ### The names of a schedule -/

/-- The names that nodes have under a naming: their own, and for an output of an operation that no node
stands for one that is made from the operation's. -/
def GoesBy (ws : Workspace) (roots : List NodeRef) (name : NodeRef → Option String) (x : String) :
    Prop :=
  (∃ n, ws.Reaches roots n ∧ name n = some x) ∨
    ∃ n y k, ws.Reaches roots n ∧ (ws.node n).isOperation = true ∧ name n = some y ∧ 0 < k ∧
      k < (ws.node n).outputs ∧ (∀ m, ws.Reaches roots m → ws.source m ≠ (n, k)) ∧
        x = Schedule.madeName y k

end Workspace

namespace Workspace.SameShape

variable {ws ws' : Workspace} (h : SameShape ws ws')
include h

theorem differentiated {n : NodeRef} (wanted : ws.Differentiated n) : ws'.Differentiated n := by
  induction wanted with
  | param role => exact .param (by rwa [h.congr (·.isParam) fun _ _ => rfl])
  | input role flagged =>
    apply Differentiated.input
    · rwa [h.congr (·.isInput) fun _ _ => rfl]
    · rwa [h.congr (·.requiresGradient) fun _ _ => rfl]
  | argument arg _ ih => exact .argument (by rwa [h.congr (·.args) fun _ _ => rfl]) ih

/-- Whether an operation lacks a kernel does not depend on names. -/
theorem lacks {registry : Registry} {n : NodeRef} (lacks : ws.Lacks registry n) :
    ws'.Lacks registry n := by
  unfold Lacks
  rw [h.congr (·.isOperation) fun _ _ => rfl, h.congr (·.kind) fun _ _ => rfl]
  exact lacks.imp_right (Or.imp_right (And.imp_left h.differentiated))

theorem goesBy_iff {roots : List NodeRef} {name : NodeRef → Option String} {x : String} :
    ws'.GoesBy roots name x ↔ ws.GoesBy roots name x := by
  simp only [GoesBy, h.reaches_iff, h.source, h.congr (·.isOperation) fun _ _ => rfl,
    h.congr (·.outputs) fun _ _ => rfl]

end Workspace.SameShape

theorem lookup_isSome_iff_mem {α β : Type} [BEq α] [LawfulBEq α] {l : List (α × β)} {a : α} :
    (l.lookup a).isSome = true ↔ ∃ b, (a, b) ∈ l := by
  constructor
  · intro found
    obtain ⟨b, found⟩ := Option.isSome_iff_exists.mp found
    exact ⟨b, mem_of_lookup found⟩
  · rintro ⟨b, mem⟩
    rw [← Option.ne_none_iff_isSome]
    intro none
    simpa using List.lookup_eq_none_iff.mp none _ mem

/-- The names of a schedule are those that its nodes go by. -/
theorem Schedule.lookup_isSome_iff {ws : Workspace} {id : Nat} {terminals order : List NodeRef}
    {registry : Registry} {keep : List String} {naming : String} {s : Schedule}
    (ord : ws.Orders id terminals order)
    (run : ofOrder ws registry order terminals keep naming = .ok s) (sound : ws.Sound)
    (named : ∀ n ∈ order, (ws.name n).isSome = true) (x : String) :
    (s.names.lookup x).isSome = true ↔ ws.GoesBy terminals ws.name x := by
  obtain ⟨⟨_, comp⟩, -⟩ := compiled_of_ofOrder sound ord run
  have shown : ∀ n ∈ order, ws.name n = some (Error.shownName (ws.name n)) := by
    intro n hn
    obtain ⟨y, hy⟩ := Option.isSome_iff_exists.mp (named n hn)
    rw [hy]
    rfl
  rw [lookup_names ord run sound, lookup_isSome_iff_mem]
  simp only [entries, List.mem_reverse, List.mem_append, List.mem_map, Prod.mk.injEq]
  constructor
  · rintro ⟨r, ⟨info, mem, rfl, -⟩ | ⟨n, hn, rfl, -⟩⟩
    · cases names_slot ord run sound named mem with
      | carried hn _ name => exact .inl ⟨_, (ord.mem_iff _).mp hn, name⟩
      | @made n y hn name handle made none =>
        obtain ⟨index, m, hm, describes⟩ := comp.slots info mem
        obtain rfl := ord.handle_inj hm hn (describes.handle.symm.trans handle.symm)
        have apart : ∀ i ∈ order, ws.source i ≠ (m, info.output) := by
          intro i hi source
          apply none i hi
          rw [slotFor, source, index, describes.handle]
        have pos : 0 < info.output := by
          by_contra first
          apply apart m hm
          rw [source_of_plain describes.plain, Nat.eq_zero_of_not_pos first]
        have bound := describes.output
        have operation : (ws.node m).isOperation = true := by
          have inner : (ws.node m).isLeaf = false := by
            by_contra leaf
            rw [Node.slotCount, if_pos (by simpa using leaf)] at bound
            omega
          simp [Node.isOperation, inner, describes.plain]
        rw [Node.slotCount_of_isOperation operation] at bound
        right
        exact ⟨m, y, info.output, (ord.mem_iff m).mp hm, operation, name, pos, bound,
          fun i hi => apart i ((ord.mem_iff i).mpr hi), made⟩
    · exact .inl ⟨n, (ord.mem_iff n).mp hn, shown n hn⟩
  · rintro (⟨n, hn, name⟩ | ⟨n, y, k, hn, operation, name, pos, bound, none, rfl⟩)
    · refine ⟨_, .inr ⟨n, (ord.mem_iff n).mpr hn, ?_, rfl⟩⟩
      rw [name]
      rfl
    · have hn' := (ord.mem_iff n).mpr hn
      have plain := Node.isSelector_of_isOperation operation
      rw [← Node.slotCount_of_isOperation operation] at bound
      obtain ⟨info, mem, index, output, describes⟩ := comp.info_of_output ord hn' plain bound
      refine ⟨_, .inl ⟨info, mem, ?_, rfl⟩⟩
      cases names_slot ord run sound named mem with
      | @carried m hm slot _ =>
        have source := comp.source_of_slotFor ord sound hn' plain bound hm (slot.trans index)
        exact absurd source (none m ((ord.mem_iff m).mp hm))
      | @made m z hm name' handle made _ =>
        obtain rfl := ord.handle_inj hm hn' (handle.trans describes.handle)
        obtain rfl := Option.some.inj (name.symm.trans name')
        rw [made, output]

namespace Workspace

/-! ### The outcome -/

/-- Two nodes that roots depend on carry one name. -/
def Clash (ws : Workspace) (roots : List NodeRef) : Prop :=
  ∃ a b x, ws.Reaches roots a ∧ ws.Reaches roots b ∧ a ≠ b ∧ ws.name a = some x ∧ ws.name b = some x

/-- A call has failed in a way. -/
def Fails {α : Type} (kind : ErrorKind) (result : Except Error α) : Prop :=
  ∃ e, result = .error e ∧ e.kind = kind

theorem fails_error {α : Type} {kind : ErrorKind} {e : Error} :
    Fails kind (.error e : Except Error α) ↔ e.kind = kind := by
  simp [Fails]

theorem fails_ok {α : Type} {kind : ErrorKind} {a : α} : ¬ Fails kind (.ok a) := by
  simp [Fails]

/-- How compiling for roots turns out, and what it does to the workspace: failures are reported in this
order, and nodes without a name that the roots depend on may have been named. -/
structure CompileOutcome (ws : Workspace) (id : Nat) (roots : List NodeRef) (keep : List String)
    (result : Except Error Schedule) (now : Workspace) : Prop where
  unresolved : Fails .unresolvedName result ↔ ws.Clash roots
  configuration : ¬ ws.Clash roots → (Fails .configuration result ↔
    ∃ n, ws.Reaches roots n ∧ ws.Lacks (ws.graph id).registry n)
  unknown : ¬ ws.Clash roots → (∀ n, ws.Reaches roots n → ¬ ws.Lacks (ws.graph id).registry n) →
    (Fails .unknownVariable result ↔ ∃ x ∈ keep, ¬ ws.GoesBy roots now.name x)
  success : ¬ ws.Clash roots → (∀ n, ws.Reaches roots n → ¬ ws.Lacks (ws.graph id).registry n) →
    (∀ x ∈ keep, ws.GoesBy roots now.name x) → ∃ s, result = .ok s
  same : SameShape ws now
  names : ∀ n, now.name n ≠ ws.name n → ws.name n = none ∧ ws.Reaches roots n

section
variable {ws now : Workspace} {id : Nat} {roots : List NodeRef} {keep : List String} {e : Error}
  (same : SameShape ws now) (names : ∀ n, now.name n ≠ ws.name n → ws.name n = none ∧ ws.Reaches roots n)
include same names

theorem CompileOutcome.ofClash (clash : ws.Clash roots) (kind : e.kind = .unresolvedName) :
    CompileOutcome ws id roots keep (.error e) now := by
  constructor
  case unresolved => exact iff_of_true (fails_error.mpr kind) clash
  case configuration => exact fun apart => absurd clash apart
  case unknown => exact fun apart => absurd clash apart
  case success => exact fun apart => absurd clash apart
  case same => exact same
  case names => exact names

variable (apart : ¬ ws.Clash roots)
include apart

theorem CompileOutcome.ofLack
    (lacking : ∃ n, ws.Reaches roots n ∧ ws.Lacks (ws.graph id).registry n)
    (kind : e.kind = .configuration) : CompileOutcome ws id roots keep (.error e) now := by
  constructor
  case unresolved => simp [fails_error, kind, apart]
  case configuration => exact fun _ => iff_of_true (fails_error.mpr kind) lacking
  case unknown => exact fun _ supported => absurd lacking (by simpa using supported)
  case success => exact fun _ supported => absurd lacking (by simpa using supported)
  case same => exact same
  case names => exact names

variable (supported : ∀ n, ws.Reaches roots n → ¬ ws.Lacks (ws.graph id).registry n)
include supported

theorem CompileOutcome.ofUnknown (strange : ∃ x ∈ keep, ¬ ws.GoesBy roots now.name x)
    (kind : e.kind = .unknownVariable) : CompileOutcome ws id roots keep (.error e) now := by
  constructor
  case unresolved => simp [fails_error, kind, apart]
  case configuration =>
    refine fun _ => iff_of_false (by simp [fails_error, kind]) ?_
    rintro ⟨n, reached, without⟩
    exact supported n reached without
  case unknown => exact fun _ _ => iff_of_true (fails_error.mpr kind) strange
  case success => exact fun _ _ all => absurd strange (by simpa using all)
  case same => exact same
  case names => exact names

theorem CompileOutcome.ofSuccess (found : ∀ x ∈ keep, ws.GoesBy roots now.name x) (s : Schedule) :
    CompileOutcome ws id roots keep (.ok s) now := by
  constructor
  case unresolved => exact iff_of_false fails_ok apart
  case configuration =>
    refine fun _ => iff_of_false fails_ok ?_
    rintro ⟨n, reached, without⟩
    exact supported n reached without
  case unknown =>
    refine fun _ _ => iff_of_false fails_ok ?_
    rintro ⟨x, hx, strange⟩
    exact strange (found x hx)
  case success => exact fun _ _ _ => ⟨s, rfl⟩
  case same => exact same
  case names => exact names

end

/-- Roots of one graph can be compiled for. -/
theorem checkTerminals_roots {roots : List NodeRef} {id : Nat} (nonempty : roots ≠ [])
    (graph : ∀ r ∈ roots, r.graph = id) : checkTerminals (roots.map .node) = .ok (id, roots) := by
  obtain ⟨r, rest, rfl⟩ := List.exists_cons_of_ne_nil nonempty
  have same : rest.all (·.graph == r.graph) = true := by
    refine List.all_eq_true.mpr fun n hn => beq_iff_eq.mpr ?_
    rw [graph n (List.mem_cons_of_mem r hn), graph r List.mem_cons_self]
  unfold checkTerminals
  refine bind_eq_of_ok (mapM_map_of_eq_ok fun _ _ => rfl) ?_
  dsimp only
  rw [if_pos same, graph r List.mem_cons_self]
  rfl

/-- Nodes that roots depend on carry names of their own, or two of them clash. -/
theorem Orders.namesApart_iff {ws : Workspace} {id : Nat} {roots order : List NodeRef}
    (ord : ws.Orders id roots order) : ws.NamesApart order ↔ ¬ ws.Clash roots := by
  constructor
  · rintro apart ⟨a, b, x, ha, hb, ne, first, second⟩
    exact ne (apart a ((ord.mem_iff a).mpr ha) b ((ord.mem_iff b).mpr hb) x first second)
  · intro none a ha b hb x first second
    by_contra ne
    exact none ⟨a, b, x, (ord.mem_iff a).mp ha, (ord.mem_iff b).mp hb, ne, first, second⟩

variable {ws : Workspace} {id : Nat} {roots : List NodeRef}

/-- For nodes that exist, the first failure that applies is reported, and if none applies compiling
succeeds. Nodes are changed only by naming those without a name. -/
theorem Built.compile_outcome (built : ws.Built) (nonempty : roots ≠ [])
    (exist : ∀ r ∈ roots, ws.Exists r ∧ r.graph = id) (mode : NamingMode) (keep : List String) :
    CompileOutcome ws id roots keep
      (ws.compile (roots.map .node) { keep, naming := mode.name }).1
      (ws.compile (roots.map .node) { keep, naming := mode.name }).2 := by
  obtain ⟨order, ordered, ord⟩ := built.sound.topologicalOrder exist
  have known : ∀ n ∈ order, ws.Exists n ∧ n.graph = id := fun n hn => ⟨ord.exist n hn, ord.graph n hn⟩
  obtain ⟨r, s, resolved, since, ok⟩ := built.resolveNames_since known none (by simp) mode.name
  rw [ok ⟨mode, rfl⟩] at resolved
  have checked := checkTerminals_roots nonempty fun r hr => (exist r hr).2
  have run := compile_eq { keep, naming := mode.name } checked ordered resolved
  obtain ⟨built', same, complete⟩ := resolveNames_spec built ord.exist resolved
  have ord' := same.orders ord
  have names : ∀ n, s.workspace.name n ≠ ws.name n → ws.name n = none ∧ ws.Reaches roots n := by
    intro n changed
    constructor
    · refine Option.eq_none_iff_forall_ne_some.mpr fun x old => changed ?_
      rw [old]
      exact (since.name n x).mpr (.inl old)
    · by_contra outside
      apply changed
      have rest := built.resolveNames_rest ord mode.name fun hn => outside ((ord.mem_iff n).mp hn)
      rwa [resolved] at rest
  have registry : s.workspace.registryFor id none = (ws.graph id).registry := same.registry id
  simp only [registry] at run
  by_cases clash : ws.Clash roots
  · have distinct : s.workspace.duplicateNames order ≠ [] := by
      intro none
      obtain ⟨a, b, x, ha, hb, ne, first, second⟩ := clash
      exact ne (name_inj none ((ord.mem_iff a).mpr ha) ((ord.mem_iff b).mpr hb)
        ((since.name a x).mpr (.inl first)) ((since.name b x).mpr (.inl second)))
    rw [if_neg distinct] at run
    rw [run]
    exact .ofClash same names clash rfl
  · have distinct := ((ord.namesApart_iff.mpr clash).since known since).duplicateNames ord'.nodup
    rw [if_pos distinct] at run
    by_cases lacks : ∃ n, ws.Reaches roots n ∧ ws.Lacks (ws.graph id).registry n
    · obtain ⟨n, hn, without⟩ := lacks
      obtain ⟨e, failed, kind⟩ := Schedule.ofOrder_error built'.sound ord' ((ord.mem_iff n).mpr hn)
        (same.lacks without) keep mode.name
      rw [failed] at run
      rw [run]
      exact .ofLack same names clash ⟨n, hn, without⟩ kind
    · have supported : ∀ n, ws.Reaches roots n → ¬ ws.Lacks (ws.graph id).registry n :=
        fun n reached without => lacks ⟨n, reached, without⟩
      obtain ⟨table, outcome⟩ := Schedule.ofOrder_names built'.sound ord' (fun n hn without =>
        supported n ((ord.mem_iff n).mp hn) (same.symm.lacks without)) mode.name
      have goes : ∀ x, (table.lookup x).isSome = true ↔ ws.GoesBy roots s.workspace.name x := by
        intro x
        rcases outcome [] with ⟨s₀, made, rfl, -⟩ | ⟨x, none, -⟩
        · rw [Schedule.lookup_isSome_iff ord' made built'.sound complete, same.goesBy_iff]
        · cases none
      rcases outcome keep with ⟨s', made, -, found⟩ | ⟨x, hx, missing, failed⟩
      · rw [made] at run
        rw [run]
        have reported : SameShape ws (s.workspace.report s'.summary) :=
          ⟨same.registry, same.exist, same.node⟩
        exact .ofSuccess reported names clash supported (fun x hx => (goes x).mp (found x hx)) s'
      · rw [failed] at run
        rw [run]
        have strange : ¬ ws.GoesBy roots s.workspace.name x := by
          rw [← goes, missing]
          simp
        exact .ofUnknown same names clash supported ⟨x, hx, strange⟩ rfl

/-- The second output of the operation can be kept by its name, and there is no third. -/
theorem compile_outcome_shadowed :
    shadowed.CompileOutcome 0 [⟨0, 1⟩] ["a:1", "a:2"]
      (shadowed.compile [.node ⟨0, 1⟩] { keep := ["a:1", "a:2"] }).1
      (shadowed.compile [.node ⟨0, 1⟩] { keep := ["a:1", "a:2"] }).2 ∧
    (shadowed.compile [.node ⟨0, 1⟩] { keep := ["a:1", "a:2"] }).1 = .error (.cannotKeep "a:2") := by
  constructor
  · have exist : ∀ r ∈ [(⟨0, 1⟩ : NodeRef)], shadowed.Exists r ∧ r.graph = 0 := by
      intro r hr
      obtain rfl := List.mem_singleton.mp hr
      exact ⟨exists_of_lt_size (by decide), rfl⟩
    exact shadowed_built.compile_outcome (List.cons_ne_nil _ _) exist .default ["a:1", "a:2"]
  · cbv

end Workspace

end Backprop
