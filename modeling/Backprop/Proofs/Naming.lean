import Mathlib.Data.List.Perm.Subperm
import Backprop.Proofs.Order
/-!
# Names and structure

Naming changes the names of nodes and nothing else.

* `Workspace.SameShape` relates workspaces whose nodes differ in their names only; orders of
  evaluation carry over.
* `Naming.Extends`: naming keeps the shape and every name that was given before.
* `resolveNames_spec`: when names were resolved, every node of the order has one.
-/

namespace Backprop

namespace Workspace

/-- Two workspaces are the same but for the names of nodes. -/
structure SameShape (ws ws' : Workspace) : Prop where
  registry : ∀ id, (ws'.graph id).registry = (ws.graph id).registry
  exist : ∀ n, ws'.Exists n ↔ ws.Exists n
  node : ∀ n, ∃ name, ws'.node n = { ws.node n with name }

variable {ws ws' ws'' : Workspace} {n m : NodeRef} {name : Option String}

namespace SameShape

theorem refl (ws : Workspace) : SameShape ws ws := ⟨fun _ => rfl, fun _ => .rfl, fun _ => ⟨_, rfl⟩⟩

theorem trans (h : SameShape ws ws') (h' : SameShape ws' ws'') : SameShape ws ws'' := by
  refine ⟨fun id => (h'.registry id).trans (h.registry id),
    fun n => (h'.exist n).trans (h.exist n), fun n => ?_⟩
  obtain ⟨_, first⟩ := h.node n
  obtain ⟨name, second⟩ := h'.node n
  exact ⟨name, by rw [second, first]⟩

theorem inputs (h : SameShape ws ws') : ws'.inputs = ws.inputs := by
  funext n
  obtain ⟨_, node⟩ := h.node n
  rw [Workspace.inputs, node]
  rfl

theorem reaches_iff (h : SameShape ws ws') {roots : List NodeRef} :
    ws'.Reaches roots n ↔ ws.Reaches roots n := by
  constructor
  · intro r
    induction r with
    | root mem => exact .root mem
    | input _ mem ih => exact ih.input (h.inputs ▸ mem)
  · intro r
    induction r with
    | root mem => exact .root mem
    | input _ mem ih => exact ih.input (h.inputs ▸ mem)

theorem orders (h : SameShape ws ws') {id : Nat} {roots order : List NodeRef}
    (ord : ws.Orders id roots order) : ws'.Orders id roots order :=
  ⟨ord.sorted, fun n => (ord.mem_iff n).trans h.reaches_iff.symm,
    fun n hn => (h.exist n).mpr (ord.exist n hn), ord.graph⟩

end SameShape

/-! ### Renaming one node -/

theorem Sound.graph?_rename (h : ws.Sound) (id : Nat) : (ws.rename n name).graph? id =
    (ws.graph? id).map fun g => if n.graph = id then g.rename n.handle name else g := by
  have own : ((ws.graph n.graph).rename n.handle name).id = n.graph := h.graph_id n.graph
  simp only [Workspace.rename, Workspace.setGraph, graph?, Array.getElem?_setIfInBounds, own]
  by_cases same : n.graph = id
  · subst same
    by_cases inside : n.graph < ws.graphs.size
    · simp [inside, Workspace.graph, graph?]
    · simp [inside]
  · simp [same]

theorem Sound.node_rename_self (h : ws.Sound) (there : ws.Exists n) :
    (ws.rename n name).node n = { ws.node n with name } := by
  obtain ⟨g, found, node⟩ := there.node_eq
  simp only [Workspace.node, h.graph?_rename, found, Option.map_some, if_true, Option.bind_some,
    Graph.rename, Array.getElem?_modify]
  rw [node]
  simp

theorem Sound.node_rename_ne (h : ws.Sound) (ne : m ≠ n) :
    (ws.rename n name).node m = ws.node m := by
  simp only [Workspace.node, h.graph?_rename]
  cases found : ws.graph? m.graph with
  | none => rfl
  | some g =>
    by_cases same : n.graph = m.graph
    · have apart : n.handle ≠ m.handle := fun eq => ne (eq_of_handle same eq).symm
      simp [same, Graph.rename, Array.getElem?_modify, apart]
    · simp [same]

theorem Sound.sameShape_rename (h : ws.Sound) (n : NodeRef) (name : Option String) :
    SameShape ws (ws.rename n name) := by
  have exist : ∀ m, (ws.rename n name).Exists m ↔ ws.Exists m := by
    intro m
    simp only [Exists, h.graph?_rename, Option.map_eq_some_iff]
    constructor
    · rintro ⟨_, ⟨g, found, rfl⟩, bound⟩
      refine ⟨g, found, ?_⟩
      split at bound
      · simpa [Graph.rename] using bound
      · exact bound
    · rintro ⟨g, found, bound⟩
      refine ⟨_, ⟨g, found, rfl⟩, ?_⟩
      split
      · simpa [Graph.rename] using bound
      · exact bound
  refine ⟨fun id => ?_, exist, fun m => ?_⟩
  · simp only [Workspace.graph, h.graph?_rename]
    cases ws.graph? id with
    | none => rfl
    | some g =>
      simp only [Option.map_some, Option.getD_some]
      split <;> rfl
  · by_cases same : m = n
    · subst same
      by_cases there : ws.Exists m
      · exact ⟨name, h.node_rename_self there⟩
      · refine ⟨(ws.node m).name, ?_⟩
        rw [node_of_not_exists fun r => there ((exist m).mp r), node_of_not_exists there]
    · exact ⟨(ws.node m).name, h.node_rename_ne same⟩

end Workspace

/-! ### Naming many nodes -/

open Workspace

namespace Naming

variable {s s' s'' : Naming} {n : NodeRef}

/-- What naming keeps: it starts and ends with a workspace that calls lead to, of the same shape, and
nodes keep their names. -/
structure Extends (s s' : Naming) : Prop where
  built : s'.workspace.Built
  same : SameShape s.workspace s'.workspace
  named : ∀ n, s.isNamed n = true → s'.isNamed n = true

theorem Extends.refl (built : s.workspace.Built) : Extends s s := ⟨built, .refl _, fun _ h => h⟩

theorem Extends.trans (h : Extends s s') (h' : Extends s' s'') : Extends s s'' :=
  ⟨h'.built, h.same.trans h'.same, fun n hn => h'.named n (h.named n hn)⟩

theorem Extends.exists (h : Extends s s') (there : s.workspace.Exists n) :
    s'.workspace.Exists n := (h.same.exist n).mpr there

/-- Steps that keep names keep them one after the other. -/
theorem Extends.foldl {α : Type} {f : Naming → α → Naming}
    (step : ∀ (s : Naming) (a : α), s.workspace.Built → Extends s (f s a)) :
    ∀ (l : List α) (s : Naming), s.workspace.Built → Extends s (l.foldl f s) := by
  intro l
  induction l with
  | nil => exact fun s built => .refl built
  | cons a l ih => exact fun s built => (step s a built).trans (ih _ (step s a built).built)

theorem assign_named (built : s.workspace.Built) (there : s.workspace.Exists n) (name : String) :
    (s.assign n name).isNamed n = true := by
  simp [isNamed, assign, Workspace.name, built.sound.node_rename_self there]

theorem extends_assign (built : s.workspace.Built) (n : NodeRef) (name : String) :
    Extends s (s.assign n name) := by
  refine ⟨.rename n _ built, built.sound.sameShape_rename n _, fun m named => ?_⟩
  by_cases same : m = n
  · subst same
    by_cases there : s.workspace.Exists m
    · exact assign_named built there name
    · simp [isNamed, Workspace.name, node_of_not_exists there] at named
      cases named
  · simpa [isNamed, assign, Workspace.name, built.sound.node_rename_ne same] using named

theorem extends_assignClaimed (built : s.workspace.Built) (n : NodeRef) (base : String) :
    Extends s (s.assignClaimed n base) := by
  have step := extends_assign (s := { s with namer := (s.namer.claim base).2 }) built n
    (s.namer.claim base).1
  exact ⟨step.built, step.same, step.named⟩

theorem extends_assignByKind (built : s.workspace.Built) (n : NodeRef) :
    Extends s (s.assignByKind n) := by
  unfold assignByKind
  split
  · exact .refl built
  · have step := extends_assign
      (s := { s with namer := (s.namer.next (s.workspace.node n).kind).2 }) built n
      (s.namer.next (s.workspace.node n).kind).1
    exact ⟨step.built, step.same, step.named⟩

theorem assignByKind_named (built : s.workspace.Built) (there : s.workspace.Exists n) :
    (s.assignByKind n).isNamed n = true := by
  unfold assignByKind
  split
  next named => exact named
  next =>
    exact assign_named (s := { s with namer := (s.namer.next (s.workspace.node n).kind).2 })
      built there _

theorem assignDefault_named (built : s.workspace.Built) {nodes : List NodeRef}
    (exist : ∀ n ∈ nodes, s.workspace.Exists n) :
    Extends s (s.assignDefault nodes) ∧ ∀ n ∈ nodes, (s.assignDefault nodes).isNamed n = true := by
  have each : ∀ (l : List NodeRef) (s : Naming), s.workspace.Built →
      (∀ n ∈ l, s.workspace.Exists n) → ∀ n ∈ l, (l.foldl assignByKind s).isNamed n = true := by
    intro l
    induction l with
    | nil => intro s _ _ n h; cases h
    | cons a l ih =>
      intro s built exist n mem
      have step := extends_assignByKind built a
      rcases List.mem_cons.mp mem with rfl | mem
      · have rest := Extends.foldl (fun _ b h => extends_assignByKind h b) l _ step.built
        exact rest.named n (assignByKind_named built (exist n (by simp)))
      · exact ih _ step.built (fun m hm => step.exists (exist m (by simp [hm]))) n mem
  have perm : (byHandle nodes).Perm nodes := List.mergeSort_perm _ _
  refine ⟨Extends.foldl (fun _ b h => extends_assignByKind h b) _ s built, fun n hn => ?_⟩
  exact each _ s built (fun m hm => exist m (perm.mem_iff.mp hm)) n (perm.mem_iff.mpr hn)

theorem extends_assignParams (operation : String) : ∀ (l : List NodeRef) (s : Naming) (rank : Nat),
    s.workspace.Built → Extends s (s.assignParams operation rank l) := by
  intro l
  induction l with
  | nil => exact fun s _ built => .refl built
  | cons p rest ih =>
    intro s rank built
    unfold assignParams
    split
    · dsimp only
      split
      · exact ih s _ built
      · have step := extends_assignClaimed built p (operation ++ "_p" ++ toString (rank + 1))
        exact step.trans (ih _ _ step.built)
    · exact ih s rank built

theorem extends_assignOperation (built : s.workspace.Built) (n : NodeRef) :
    Extends s (s.assignOperation n) := by
  unfold assignOperation
  split
  · have step := extends_assignByKind built n
    exact step.trans (extends_assignParams _ _ _ _ step.built)
  · exact .refl built

/-- The last part of sequential naming leaves no node of the order without a name. -/
theorem assignRest_named : ∀ (l : List NodeRef) (s s' : Naming), s.workspace.Built →
    (∀ n ∈ l, s.workspace.Exists n) → s.assignRest l = (.ok (), s') →
    Extends s s' ∧ ∀ n ∈ l, s'.isNamed n = true := by
  intro l
  induction l with
  | nil =>
    intro s s' built _ run
    cases run
    exact ⟨.refl built, by simp⟩
  | cons n rest ih =>
    intro s s' built exist run
    have go : ∀ t : Naming, Extends s t → t.isNamed n = true → t.assignRest rest = (.ok (), s') →
        Extends s s' ∧ ∀ m ∈ n :: rest, s'.isNamed m = true := by
      intro t step named run
      obtain ⟨later, all⟩ := ih t s' step.built
        (fun m hm => step.exists (exist m (by simp [hm]))) run
      refine ⟨step.trans later, fun m hm => ?_⟩
      rcases List.mem_cons.mp hm with rfl | hm
      · exact later.named m named
      · exact all m hm
    unfold assignRest at run
    split at run
    next named => exact go s (.refl built) named run
    next =>
      dsimp only at run
      split at run
      next k _ =>
        split at run
        next p _ =>
          refine go _ (extends_assignClaimed built n _) ?_ run
          exact assign_named (s := { s with namer := (s.namer.claim _).2 }) built
            (exist n (by simp)) _
        next => cases run
      next =>
        exact go _ (extends_assignByKind built n) (assignByKind_named built (exist n (by simp))) run

theorem extends_assignKey (built : s.workspace.Built) (entry : String × Value) :
    Extends s (s.assignKey entry) := by
  unfold assignKey
  split
  · split
    · exact .refl built
    · exact extends_assign built _ _
  · exact .refl built

end Naming

namespace Workspace

variable {ws ws' : Workspace} {id : Nat} {order : List NodeRef} {mode : String}
  {mapping : Option Keywords} {assigned : Assignment}

/-- When names were resolved, the nodes of the order have names, and nothing else has changed. -/
theorem resolveNames_spec (built : ws.Built) (exist : ∀ n ∈ order, ws.Exists n)
    (h : ws.resolveNames id order mode mapping = (.ok assigned, ws')) :
    ws'.Built ∧ SameShape ws ws' ∧ ∀ n ∈ order, (ws'.name n).isSome = true := by
  unfold resolveNames at h
  split at h
  next named =>
    cases h
    refine ⟨built, .refl _, fun n hn => ?_⟩
    have none := List.filter_eq_nil_iff.mp (List.isEmpty_iff.mp named) n hn
    cases name : ws.name n with
    | none => exact absurd (by rw [name]; rfl) none
    | some _ => rfl
  next =>
    let start : Naming := { workspace := ws, namer := .ofGraph (ws.graph id) }
    have mapped : Naming.Extends start (start.assignWorkspace (mapping.getD [])) :=
      Naming.Extends.foldl (fun _ b h => Naming.extends_assignKey h b) _ start built
    have exist' : ∀ n ∈ order, (start.assignWorkspace (mapping.getD [])).workspace.Exists n :=
      fun n hn => mapped.exists (exist n hn)
    have done : ∀ s, (start.assignWorkspace (mapping.getD [])).assignIn mode order = (.ok (), s) →
        Naming.Extends start s ∧ ∀ n ∈ order, s.isNamed n = true := by
      intro s run
      unfold Naming.assignIn at run
      split at run
      · have first := Naming.Extends.foldl (fun _ b h => Naming.extends_assignOperation h b) order _
          mapped.built
        obtain ⟨later, named⟩ := Naming.assignRest_named order _ s first.built
          (fun n hn => first.exists (exist' n hn)) run
        exact ⟨mapped.trans (first.trans later), named⟩
      · split at run
        · obtain ⟨later, named⟩ := Naming.assignDefault_named mapped.built exist'
          cases run
          exact ⟨mapped.trans later, named⟩
        · cases run
    dsimp only at h
    split at h
    next s run =>
      cases h
      obtain ⟨all, named⟩ := done s run
      exact ⟨all.built, all.same, named⟩
    next => cases h

/-- Without duplicates, a name stands for one node. -/
theorem name_inj (none : ws.duplicateNames order = []) {a b : NodeRef} (ha : a ∈ order)
    (hb : b ∈ order) {name : String} (hna : ws.name a = some name)
    (hnb : ws.name b = some name) : a = b := by
  by_cases ne : a = b
  · exact ne
  have used : name ∈ (order.filterMap ws.name).eraseDups :=
    List.mem_eraseDups.mpr (List.mem_filterMap.mpr ⟨a, ha, hna⟩)
  have group := List.filter_eq_nil_iff.mp none _ (List.mem_map_of_mem used)
  have both : [a, b].Subperm (order.filter fun n => ws.name n == some name) := by
    refine List.subperm_of_subset (by simp [ne]) ?_
    intro n hn
    simp only [List.mem_cons, List.not_mem_nil, or_false] at hn
    rcases hn with rfl | rfl
    · simp [ha, hna]
    · simp [hb, hnb]
  have := both.length_le
  simp only [List.length_cons, List.length_nil, decide_eq_true_eq] at this group
  exact absurd this (by omega)

end Workspace

end Backprop
