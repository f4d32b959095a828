import Backprop.Net.Config
import Backprop.Proofs.Naming
/-!
# Fresh names

Naming gives no name twice.

* `Namer.nextNumber_spec`: of the numbers that a namer tries, one makes a free name, and the first
  that does is the next. `Namer.search_nextNumber`: counting on without a bound ends there too.
* `Naming.Since` is what a naming keeps: it gave names that the namer did not know, each to one node
  that had none, and changed nothing else.
* `Built.resolveNames_ok`: if the names that nodes carry differ, naming the others succeeds, and no
  name is used twice afterwards.
-/

namespace Backprop

open Workspace

/-! ### Names that are free -/

namespace Namer

variable {stem : String}

/-- The digits of a number determine it. -/
theorem numbered_inj {j k : Nat} (same : numbered stem j = numbered stem k) : j = k := by
  have digits : Nat.toDigits 10 j = Nat.toDigits 10 k := by
    have texts := (String.append_right_inj stem).mp same
    rwa [Nat.toString_eq_ofList_toDigits, Nat.toString_eq_ofList_toDigits, String.ofList_inj] at texts
  simpa using congrArg (fun l => Nat.ofDigitChars 10 l 0) digits

/-- Taken names cannot exhaust one more number than there are names, so one of the numbers tried is
free, and the first of these is the next number. -/
theorem nextNumber_spec (nm : Namer) (stem : String) : ∃ j,
    nm.nextNumber stem = nm.counter stem + 1 + j ∧
      numbered stem (nm.counter stem + 1 + j) ∉ nm.taken ∧
      ∀ i < j, numbered stem (nm.counter stem + 1 + i) ∈ nm.taken := by
  unfold nextNumber
  dsimp only
  generalize nm.counter stem + 1 = first
  rw [List.find?_map]
  cases found : (List.range (nm.taken.length + 1)).find?
      ((fun k => !nm.taken.contains (numbered stem k)) ∘ (first + ·)) with
  | some j =>
    obtain ⟨free, -, tried⟩ := List.find?_range_eq_some.mp found
    exact ⟨j, rfl, by simpa using free, fun i hi => by simpa using tried i hi⟩
  | none =>
    let tried := (List.range (nm.taken.length + 1)).map fun k => numbered stem (first + k)
    have nodup : tried.Nodup :=
      List.nodup_range.map fun j k same => Nat.add_left_cancel (numbered_inj same)
    have used : tried ⊆ nm.taken := by
      intro name mem
      obtain ⟨k, hk, rfl⟩ := List.mem_map.mp mem
      simpa using List.find?_eq_none.mp found k hk
    have few := (List.subperm_of_subset nodup used).length_le
    simp only [tried, List.length_map, List.length_range] at few
    omega

theorem numbered_nextNumber (nm : Namer) (stem : String) :
    numbered stem (nm.nextNumber stem) ∉ nm.taken := by
  obtain ⟨j, next, free, -⟩ := nm.nextNumber_spec stem
  rwa [next]

/-- Counting on from a number until the text with the number is free. -/
inductive Search (nm : Namer) (stem : String) : Nat → Nat → Prop where
  | found {k : Nat} : numbered stem (k + 1) ∉ nm.taken → Search nm stem k (k + 1)
  | retry {k n : Nat} : numbered stem (k + 1) ∈ nm.taken → Search nm stem (k + 1) n →
      Search nm stem k n

/-- Counting on ends, with the next number. -/
theorem search_nextNumber (nm : Namer) (stem : String) :
    nm.Search stem (nm.counter stem) (nm.nextNumber stem) := by
  obtain ⟨j, next, free, tried⟩ := nm.nextNumber_spec stem
  rw [next]
  clear next
  generalize nm.counter stem = k at free tried
  induction j generalizing k with
  | zero => exact .found free
  | succ j ih =>
    have shift : ∀ i, k + 1 + 1 + i = k + 1 + (i + 1) := fun i => by omega
    refine .retry (tried 0 (Nat.zero_lt_succ j)) ?_
    rw [← shift] at free ⊢
    refine ih (k + 1) free fun i hi => ?_
    rw [shift]
    exact tried (i + 1) (by omega)

theorem next_free (nm : Namer) (stem : String) : (nm.next stem).1 ∉ nm.taken :=
  nm.numbered_nextNumber stem

theorem claim_free (nm : Namer) (base : String) : (nm.claim base).1 ∉ nm.taken ∧
    ∃ counters, (nm.claim base).2 = { nm with counters } := by
  unfold claim
  split
  next => exact ⟨nm.next_free _, _, rfl⟩
  next free => exact ⟨by simpa using free, nm.counters, rfl⟩

end Namer

namespace Workspace

variable {ws : Workspace} {n m : NodeRef} {name : Option String} {text : String}
  {order : List NodeRef}

/-- The names that nodes of an order carry are different. -/
def NamesApart (ws : Workspace) (order : List NodeRef) : Prop :=
  ∀ a ∈ order, ∀ b ∈ order, ∀ name, ws.name a = some name → ws.name b = some name → a = b

/-- A node has its old name, unless it is the one that was renamed. -/
theorem Sound.name_rename (h : ws.Sound) (named : (ws.rename n name).name m = some text) :
    ws.name m = some text ∧ m ≠ n ∨ m = n ∧ name = some text := by
  unfold Workspace.name at named ⊢
  by_cases same : m = n
  · subst same
    by_cases there : ws.Exists m
    · rw [h.node_rename_self there] at named
      exact .inr ⟨rfl, named⟩
    · rw [node_of_not_exists fun r => there (((h.sameShape_rename m name).exist m).mp r)] at named
      cases named
  · rw [h.node_rename_ne same] at named
    exact .inl ⟨named, same⟩

/-- Different names are no duplicates. -/
theorem NamesApart.duplicateNames (apart : ws.NamesApart order) (nodup : order.Nodup) :
    ws.duplicateNames order = [] := by
  refine List.filter_eq_nil_iff.mpr fun p hp => ?_
  obtain ⟨name, -, rfl⟩ := List.mem_map.mp hp
  have alone : ∀ a ∈ order.filter (fun n => ws.name n == some name),
      ∀ b ∈ order.filter (fun n => ws.name n == some name), a = b := by
    intro a ha b hb
    obtain ⟨ha, first⟩ := List.mem_filter.mp ha
    obtain ⟨hb, second⟩ := List.mem_filter.mp hb
    exact apart a ha b hb name (eq_of_beq first) (eq_of_beq second)
  have distinct := nodup.filter fun n => ws.name n == some name
  simp only [decide_eq_true_eq, Nat.not_lt]
  generalize order.filter (fun n => ws.name n == some name) = group at alone distinct ⊢
  cases group with
  | nil => exact Nat.zero_le 1
  | cons a rest =>
    cases rest with
    | nil => exact Nat.le_refl 1
    | cons b rest =>
      have same := alone a (by simp) b (by simp)
      simp [same] at distinct

end Workspace

/-! ### What a naming has done -/

/-- A name for a handle that has none yet is added at the end. -/
theorem Assignment.insert_new {a : Assignment} {handle : Nat} {name : String}
    (new : handle ∉ a.map (·.1)) : a.insert handle name = a ++ [(handle, name)] := by
  have none : ¬ a.any (·.1 == handle) = true := by simpa using new
  rw [Assignment.insert, if_neg none]

namespace Naming

/-- What a naming has done since it began in a workspace, with a namer: it gave names that the namer
did not know, each to one node of the graph that had none, and it changed nothing else. -/
structure Since (ws : Workspace) (nm : Namer) (s : Naming) : Prop where
  built : s.workspace.Built
  same : SameShape ws s.workspace
  graph : s.namer.graph = nm.graph
  name : ∀ n x, s.workspace.name n = some x ↔
    ws.name n = some x ∨ n.graph = nm.graph ∧ (n.handle, x) ∈ s.assigned
  unnamed : ∀ p ∈ s.assigned, ws.name ⟨nm.graph, p.1⟩ = none
  handles : (s.assigned.map (·.1)).Nodup
  names : (s.assigned.map (·.2)).Nodup
  taken : ∀ x, x ∈ s.namer.taken ↔ x ∈ nm.taken ∨ x ∈ s.assigned.map (·.2)
  fresh : ∀ x ∈ s.assigned.map (·.2), x ∉ nm.taken

variable {ws : Workspace} {nm : Namer} {s : Naming} {n : NodeRef} {name : String}

theorem Since.begin (built : ws.Built) (nm : Namer) :
    Since ws nm { workspace := ws, namer := nm } := by
  refine ⟨built, .refl ws, rfl, ?_, ?_, .nil, .nil, ?_, ?_⟩ <;> simp

/-- The assignment is the set of changes. -/
theorem Since.changes (h : Since ws nm s) (n : NodeRef) (x : String) :
    (ws.name n = none ∧ s.workspace.name n = some x) ↔
      n.graph = nm.graph ∧ (n.handle, x) ∈ s.assigned := by
  constructor
  · rintro ⟨blank, now⟩
    refine ((h.name n x).mp now).resolve_left fun old => ?_
    rw [blank] at old
    cases old
  · rintro ⟨graph, given⟩
    refine ⟨?_, (h.name n x).mpr (.inr ⟨graph, given⟩)⟩
    have blank := h.unnamed _ given
    rwa [← graph] at blank

/-- A name that was given is carried by no other node, but for those that had it before. -/
theorem Since.alone (h : Since ws nm s) {m : NodeRef} {x : String} (graph : n.graph = nm.graph)
    (given : (n.handle, x) ∈ s.assigned) (now : s.workspace.name m = some x) (ne : m ≠ n) :
    ws.name m = some x := by
  refine ((h.name m x).mp now).resolve_right fun ⟨graph', given'⟩ => ne ?_
  have same := List.inj_on_of_nodup_map h.names given' given rfl
  exact eq_of_handle (graph'.trans graph.symm) (congrArg Prod.fst same)

/-- The numbers tried do not matter. -/
theorem Since.counted (h : Since ws nm s) (counters : List (String × Nat)) :
    Since ws nm { s with namer := { s.namer with counters } } :=
  ⟨h.built, h.same, h.graph, h.name, h.unnamed, h.handles, h.names, h.taken, h.fresh⟩

section
variable (h : Since ws nm s) (there : ws.Exists n) (graph : n.graph = nm.graph)
include h there graph

omit there in
/-- A node without a name was given none. -/
theorem Since.new (unnamed : ¬ s.isNamed n = true) : n.handle ∉ s.assigned.map (·.1) := by
  intro mem
  obtain ⟨⟨_, x⟩, given, rfl⟩ := List.mem_map.mp mem
  exact unnamed (Option.isSome_iff_exists.mpr ⟨x, (h.name n x).mpr (.inr ⟨graph, given⟩)⟩)

omit there in
theorem Since.assigned_assign (unnamed : ¬ s.isNamed n = true) (name : String) :
    (s.assign n name).assigned = s.assigned ++ [(n.handle, name)] :=
  Assignment.insert_new (h.new graph unnamed)

omit there graph in
theorem Since.blank (unnamed : ¬ s.isNamed n = true) : ws.name n = none := by
  refine Option.eq_none_iff_forall_ne_some.mpr fun x old => unnamed ?_
  exact Option.isSome_iff_exists.mpr ⟨x, (h.name n x).mpr (.inl old)⟩

/-- The names after a node that had none was given one. -/
theorem Since.name_assign (unnamed : ¬ s.isNamed n = true) (name : String) (m : NodeRef) (x : String) :
    (s.assign n name).workspace.name m = some x ↔
      ws.name m = some x ∨ m.graph = nm.graph ∧ (m.handle, x) ∈ (s.assign n name).assigned := by
  rw [h.assigned_assign graph unnamed, List.mem_append, List.mem_singleton, Prod.mk.injEq]
  by_cases eq : m = n
  · subst eq
    have now : (s.assign m name).workspace.name m = some name :=
      congrArg Node.name (h.built.sound.node_rename_self ((h.same.exist m).mpr there))
    have old : (m.handle, x) ∉ s.assigned := fun mem =>
      h.new graph unnamed (List.mem_map.mpr ⟨_, mem, rfl⟩)
    simp [now, h.blank unnamed, old, graph, eq_comm]
  · have now : (s.assign n name).workspace.name m = s.workspace.name m :=
      congrArg Node.name (h.built.sound.node_rename_ne eq)
    have other : m.graph = nm.graph → m.handle ≠ n.handle := fun graph' same =>
      eq (eq_of_handle (graph'.trans graph.symm) same)
    rw [now, h.name]
    constructor
    · rintro (old | ⟨graph', given⟩)
      · exact .inl old
      · exact .inr ⟨graph', .inl given⟩
    · rintro (old | ⟨graph', given | ⟨same, -⟩⟩)
      · exact .inl old
      · exact .inr ⟨graph', given⟩
      · exact absurd same (other graph')

/-- A free name for a node that has none. -/
theorem Since.assign (unnamed : ¬ s.isNamed n = true) (free : name ∉ s.namer.taken) :
    Since ws nm (s.assign n name) := by
  have new := h.new graph unnamed
  obtain ⟨untaken, ungiven⟩ : name ∉ nm.taken ∧ name ∉ s.assigned.map (·.2) := by
    rwa [h.taken, not_or] at free
  have assigned := h.assigned_assign graph unnamed name
  constructor
  case built => exact .rename n _ h.built
  case same => exact h.same.trans (h.built.sound.sameShape_rename n _)
  case graph => exact h.graph
  case name => exact h.name_assign there graph unnamed name
  case unnamed =>
    intro p mem
    rw [assigned] at mem
    rcases List.mem_append.mp mem with mem | mem
    · exact h.unnamed p mem
    · rw [List.mem_singleton.mp mem, ← graph]
      exact h.blank unnamed
  case handles =>
    rw [assigned, List.map_append]
    exact h.handles.append (List.nodup_singleton _) (by simpa using new)
  case names =>
    rw [assigned, List.map_append]
    exact h.names.append (List.nodup_singleton _) (by simpa using ungiven)
  case taken =>
    intro x
    have known : (s.assign n name).namer.taken = name :: s.namer.taken := rfl
    rw [known, assigned, List.map_append, List.mem_cons, List.mem_append, h.taken x,
      List.map_singleton, List.mem_singleton]
    constructor
    · rintro (new | old | given)
      · exact .inr (.inr new)
      · exact .inl old
      · exact .inr (.inl given)
    · rintro (old | given | new)
      · exact .inr (.inl old)
      · exact .inr (.inr given)
      · exact .inl new
  case fresh =>
    intro x mem
    rw [assigned, List.map_append] at mem
    rcases List.mem_append.mp mem with mem | mem
    · exact h.fresh x mem
    · rw [List.mem_singleton.mp mem]
      exact untaken

theorem Since.assignNumbered (unnamed : ¬ s.isNamed n = true) (stem : String) :
    Since ws nm (s.assignNumbered n stem) :=
  (h.counted _).assign there graph unnamed (s.namer.next_free stem)

theorem Since.assignClaimed (unnamed : ¬ s.isNamed n = true) (base : String) :
    Since ws nm (s.assignClaimed n base) := by
  obtain ⟨free, counters, namer⟩ := s.namer.claim_free base
  have step := (h.counted counters).assign there graph unnamed free
  rwa [← namer] at step

theorem Since.assignByKind : Since ws nm (s.assignByKind n) := by
  unfold Naming.assignByKind
  split
  next => exact h
  next unnamed => exact h.assignNumbered there graph unnamed _

end

theorem Since.assignParams (operation : String) : ∀ (l : List NodeRef) (s : Naming) (rank : Nat),
    Since ws nm s → (∀ n ∈ l, ws.Exists n ∧ n.graph = nm.graph) →
      Since ws nm (s.assignParams operation rank l) := by
  intro l
  induction l with
  | nil => exact fun _ _ h _ => h
  | cons p rest ih =>
    intro s rank h known
    obtain ⟨there, graph⟩ := known p List.mem_cons_self
    have known' : ∀ n ∈ rest, ws.Exists n ∧ n.graph = nm.graph := fun n hn =>
      known n (List.mem_cons_of_mem p hn)
    unfold Naming.assignParams
    split
    · dsimp only
      split
      next => exact ih s _ h known'
      next unnamed => exact ih _ _ (h.assignClaimed there graph unnamed _) known'
    · exact ih s rank h known'

theorem mem_of_mem_distinct {l : List NodeRef} {n : NodeRef} (mem : n ∈ distinct l) : n ∈ l := by
  have step : ∀ (l seen : List NodeRef),
      n ∈ l.foldl (fun seen n => if seen.any (·.handle == n.handle) then seen else seen ++ [n]) seen →
        n ∈ seen ∨ n ∈ l := by
    intro l
    induction l with
    | nil => exact fun seen mem => .inl mem
    | cons a l ih =>
      intro seen mem
      rcases ih _ mem with mem | mem
      · dsimp only at mem
        split at mem
        · exact .inl mem
        · rcases List.mem_append.mp mem with mem | mem
          · exact .inl mem
          · exact .inr (List.mem_singleton.mp mem ▸ List.mem_cons_self)
      · exact .inr (List.mem_cons_of_mem a mem)
  exact (step l [] mem).resolve_left List.not_mem_nil

theorem Since.assignOperation (h : Since ws nm s) (there : ws.Exists n) (graph : n.graph = nm.graph) :
    Since ws nm (s.assignOperation n) := by
  unfold Naming.assignOperation
  split
  · have named := h.assignByKind there graph
    refine .assignParams _ _ _ _ named fun p hp => ?_
    obtain ⟨graph', -, there'⟩ := named.built.sound.input_lt (mem_of_mem_distinct hp)
    exact ⟨(named.same.exist p).mp there', graph'.trans graph⟩
  · exact h

theorem Since.assignKey (h : Since ws nm s) {entry : String × Value}
    (known : ∀ n, entry.2 = .node n → ws.Exists n) : Since ws nm (s.assignKey entry) := by
  unfold Naming.assignKey
  split
  next n value =>
    split
    next => exact h
    next usable =>
      simp only [Bool.or_eq_true, bne_iff_ne, ne_eq, not_or, Decidable.not_not,
        List.contains_iff_mem] at usable
      obtain ⟨⟨⟨-, graph⟩, unnamed⟩, free⟩ := usable
      exact h.assign (known n value) (graph.trans h.graph) unnamed free
  next => exact h

theorem Since.foldl {α : Type} {f : Naming → α → Naming} {p : α → Prop}
    (step : ∀ (s : Naming) (a : α), p a → Since ws nm s → Since ws nm (f s a)) :
    ∀ (l : List α) (s : Naming), (∀ a ∈ l, p a) → Since ws nm s → Since ws nm (l.foldl f s) := by
  intro l
  induction l with
  | nil => exact fun _ _ h => h
  | cons a l ih =>
    intro s all h
    exact ih _ (fun b hb => all b (List.mem_cons_of_mem a hb))
      (step s a (all a List.mem_cons_self) h)

/-- The last part of sequential naming succeeds, since selectors have parents. -/
theorem Since.assignRest : ∀ (l : List NodeRef) (s : Naming), Since ws nm s →
    (∀ n ∈ l, ws.Exists n ∧ n.graph = nm.graph) →
      ∃ s', s.assignRest l = (.ok (), s') ∧ Since ws nm s' := by
  intro l
  induction l with
  | nil => exact fun s h _ => ⟨s, rfl, h⟩
  | cons n rest ih =>
    intro s h known
    obtain ⟨there, graph⟩ := known n List.mem_cons_self
    have known' : ∀ m ∈ rest, ws.Exists m ∧ m.graph = nm.graph := fun m hm =>
      known m (List.mem_cons_of_mem n hm)
    unfold Naming.assignRest
    split
    next => exact ih s h known'
    next unnamed =>
      dsimp only
      split
      next k role =>
        obtain ⟨p, args, _⟩ := h.built.sound.selector role
        have parent : (s.workspace.node n).parent = .ok p := by rw [Node.parent, args]
        simp only [parent]
        exact ih _ (h.assignClaimed there graph unnamed _) known'
      next => exact ih _ (h.assignByKind there graph) known'

section
variable (h : Since ws nm s) {l : List NodeRef} (known : ∀ n ∈ l, ws.Exists n ∧ n.graph = nm.graph)
include h

theorem Since.assignWorkspace {mapping : Keywords}
    (known : ∀ n, .node n ∈ mapping.map (·.2) → ws.Exists n) :
    Since ws nm (s.assignWorkspace mapping) := by
  refine Since.foldl (p := fun entry => ∀ n, entry.2 = .node n → ws.Exists n)
    (fun _ _ known h => h.assignKey known) mapping s (fun entry mem n value => ?_) h
  exact known n (List.mem_map.mpr ⟨entry, mem, value⟩)

include known

theorem Since.assignDefault : Since ws nm (s.assignDefault l) := by
  refine Since.foldl (p := fun n => ws.Exists n ∧ n.graph = nm.graph)
    (fun _ _ known h => h.assignByKind known.1 known.2) _ s (fun n hn => ?_) h
  exact known n ((List.mergeSort_perm _ _).mem_iff.mp hn)

theorem Since.assignSequential :
    ∃ s', s.assignSequential l = (.ok (), s') ∧ Since ws nm s' :=
  Since.assignRest l _
    (Since.foldl (fun _ _ known h => h.assignOperation known.1 known.2) l s known h) known

/-- Naming in one of the two modes succeeds, and in no other it does anything. -/
theorem Since.assignIn (mode : String) : ∃ r s', s.assignIn mode l = (r, s') ∧ Since ws nm s' ∧
    ((∃ m : NamingMode, m.name = mode) → r = .ok ()) := by
  unfold Naming.assignIn
  split
  next =>
    obtain ⟨s', run, done⟩ := h.assignSequential known
    exact ⟨_, s', run, done, fun _ => rfl⟩
  next ordinary =>
    split
    next => exact ⟨_, _, rfl, h.assignDefault known, fun _ => rfl⟩
    next unknown =>
      refine ⟨_, _, rfl, h, fun ⟨m, name⟩ => ?_⟩
      cases m with
      | default => exact absurd name.symm unknown
      | sequential => exact absurd name.symm ordinary

end

end Naming

namespace Workspace

variable {ws : Workspace} {id : Nat} {roots order : List NodeRef}

/-- A node that carries a name is there. -/
theorem exists_of_name {n : NodeRef} {x : String} (named : ws.name n = some x) : ws.Exists n := by
  by_cases there : ws.Exists n
  · exact there
  · rw [Workspace.name, node_of_not_exists there] at named
    cases named

theorem exists_of_lt_size {n : NodeRef} (bound : n.handle < (ws.graph n.graph).nodes.size) :
    ws.Exists n := by
  unfold Workspace.graph at bound
  cases found : ws.graph? n.graph with
  | none => simp [found] at bound
  | some g => exact ⟨g, found, by simpa [found] using bound⟩

/-- The names of a graph are taken from the start. -/
theorem Exists.name_mem_names {n : NodeRef} {name : String} (there : ws.Exists n)
    (named : ws.name n = some name) : name ∈ (ws.graph n.graph).names := by
  obtain ⟨g, found, node⟩ := there.node_eq
  have here : ws.graph n.graph = g := by simp [Workspace.graph, found]
  rw [here, Graph.names]
  refine List.mem_eraseDups.mpr (List.mem_filterMap.mpr ⟨ws.node n, ?_, named⟩)
  exact Array.mem_toList_iff.mpr (Array.mem_of_getElem? node)

/-- Resolving names gives the unnamed nodes new names and changes nothing else. In one of the two
modes it succeeds. -/
theorem Built.resolveNames_since (built : ws.Built)
    (known : ∀ n ∈ order, ws.Exists n ∧ n.graph = id) (mapping : Option Keywords)
    (mapped : ∀ n, .node n ∈ (mapping.getD []).map (·.2) → ws.Exists n) (mode : String) :
    ∃ (r : Except Error Unit) (s : Naming),
      ws.resolveNames id order mode mapping = (r.map fun _ => s.assigned, s.workspace) ∧
      Naming.Since ws (.ofGraph (ws.graph id)) s ∧
      ((∃ m : NamingMode, m.name = mode) → r = .ok ()) := by
  have begin := Naming.Since.begin built (.ofGraph (ws.graph id))
  have known' : ∀ n ∈ order, ws.Exists n ∧ n.graph = (Namer.ofGraph (ws.graph id)).graph :=
    fun n hn => ⟨(known n hn).1, (known n hn).2.trans (built.sound.graph_id id).symm⟩
  unfold resolveNames
  split
  next => exact ⟨.ok (), _, rfl, begin, fun _ => rfl⟩
  next =>
    obtain ⟨r, s, run, since, ok⟩ := (begin.assignWorkspace mapped).assignIn known' mode
    refine ⟨r, s, ?_, since, ok⟩
    simp only [run]
    cases r <;> rfl

/-- Nodes whose names differ have names that differ after more of them were named. -/
theorem NamesApart.since {s : Naming} (apart : ws.NamesApart order)
    (known : ∀ n ∈ order, ws.Exists n ∧ n.graph = id)
    (since : Naming.Since ws (.ofGraph (ws.graph id)) s) : s.workspace.NamesApart order := by
  have taken : ∀ n ∈ order, ∀ x, ws.name n = some x → x ∉ s.assigned.map (·.2) := by
    intro n hn x named given
    have carried := (known n hn).1.name_mem_names named
    rw [(known n hn).2] at carried
    exact since.fresh x given carried
  intro a ha b hb x first second
  rcases (since.name a x).mp first with olda | ⟨grapha, newa⟩ <;>
    rcases (since.name b x).mp second with oldb | ⟨graphb, newb⟩
  · exact apart a ha b hb x olda oldb
  · exact absurd (List.mem_map.mpr ⟨_, newb, rfl⟩) (taken a ha x olda)
  · exact absurd (List.mem_map.mpr ⟨_, newa, rfl⟩) (taken b hb x oldb)
  · have same := List.inj_on_of_nodup_map since.names newa newb rfl
    exact eq_of_handle (grapha.trans graphb.symm) (congrArg Prod.fst same)

/-- Naming succeeds. Names that were given stay, and names that were different stay so. -/
theorem Built.resolveNames_ok (built : ws.Built) (exist : ∀ n ∈ order, ws.Exists n)
    (graph : ∀ n ∈ order, n.graph = id) (apart : ws.NamesApart order) (mode : NamingMode) :
    ∃ assigned ws', ws.resolveNames id order mode.name = (.ok assigned, ws') ∧
      ws'.NamesApart order ∧ ∀ n name, ws.name n = some name → ws'.name n = some name := by
  have known : ∀ n ∈ order, ws.Exists n ∧ n.graph = id := fun n hn => ⟨exist n hn, graph n hn⟩
  obtain ⟨r, s, run, since, ok⟩ := built.resolveNames_since known none (by simp) mode.name
  rw [ok ⟨mode, rfl⟩] at run
  exact ⟨_, _, run, apart.since known since, fun n x named => (since.name n x).mpr (.inl named)⟩

end Workspace

end Backprop
