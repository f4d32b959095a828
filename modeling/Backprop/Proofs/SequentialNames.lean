import Mathlib
import Backprop.Proofs.FreshNames
import Backprop.Proofs.Nets
/-!
# Names that follow the evaluation

Sequential naming goes through an order twice: operations are named with the parameters that they
consume, and then everything else.

* `Workspace.turns`: the nodes in the order in which they get their turn. A parameter has it with the
  first operation that consumes it.
* `Given` records a name that was given and how it came about, and `Workspace.Rule` says which name a
  node has to get after others were given theirs.
* `Naming.Told`: the state of a naming is told by the names given so far. `Told.numbered`,
  `Told.claimed`: one more name keeps it so.
* `Built.assignSequential_history`: sequential naming names the unnamed nodes by turns, each by its rule.
-/

namespace Backprop

open Workspace

/-! ### Turns -/

namespace Workspace

/-- The parameters among the inputs of a node, each once. -/
def paramsOf (ws : Workspace) (n : NodeRef) : List NodeRef :=
  (ws.inputs n).eraseDups.filter fun p => (ws.node p).isParam

def consumes (ws : Workspace) (n p : NodeRef) : Bool :=
  (ws.node n).isOperation && (ws.inputs n).contains p

/-- The first operation of an order that consumes a node. -/
def firstConsumer (ws : Workspace) (order : List NodeRef) (p : NodeRef) : Option NodeRef :=
  order.find? (ws.consumes · p)

/-- The nodes whose turn comes with an operation: itself and the parameters that no earlier one
consumes. -/
def turn (ws : Workspace) (order : List NodeRef) (n : NodeRef) : List NodeRef :=
  if (ws.node n).isOperation then
    n :: (ws.paramsOf n).filter fun p => ws.firstConsumer order p == some n
  else []

/-- Whether the turn of a node comes after all operations. -/
def waits (ws : Workspace) (order : List NodeRef) (n : NodeRef) : Bool :=
  !(ws.node n).isOperation && !((ws.node n).isParam && (ws.firstConsumer order n).isSome)

/-- The nodes of an order by turns. -/
def turns (ws : Workspace) (order : List NodeRef) : List NodeRef :=
  order.flatMap (ws.turn order) ++ order.filter (ws.waits order)

end Workspace

/-! ### Names that were given -/

/-- How a name comes about. -/
inductive Origin where
  | text (name : String)
  | numbered (stem : String) (n : Nat)

def Origin.name : Origin → String
  | text name => name
  | numbered stem n => stem ++ toString n

/-- A name that a node was given. -/
structure Given where
  node : NodeRef
  origin : Origin

namespace Given

variable {taken : List String} {past : List Given} {stem base : String} {origin : Origin}

/-- Whether a number has been tried for a text: counting goes on from the last one given. -/
def Tried (past : List Given) (stem : String) (k : Nat) : Prop :=
  0 < k ∧ ∃ g ∈ past, ∃ n, g.origin = .numbered stem n ∧ k ≤ n

/-- Whether a name is taken after names were given. -/
def Taken (taken : List String) (past : List Given) (x : String) : Prop :=
  x ∈ taken ∨ ∃ g ∈ past, g.origin.name = x

/-- A text and the least number above all that were tried for it with which it is not taken. -/
def Numbered (taken : List String) (past : List Given) (stem : String) (origin : Origin) : Prop :=
  ∃ n, origin = .numbered stem n ∧
    IsLeast {k | 0 < k ∧ (∀ j, Tried past stem j → j < k) ∧
      ¬ Taken taken past (stem ++ toString k)} n

/-- A text as it is, or numbered after an underscore if it is taken. -/
def Claimed (taken : List String) (past : List Given) (base : String) (origin : Origin) : Prop :=
  ¬ Taken taken past base ∧ origin = .text base ∨
    Taken taken past base ∧ Numbered taken past (base ++ "_") origin

end Given

/-- The name that a node gets after others were given theirs; `named` are the names in the end. -/
inductive Workspace.Rule (ws : Workspace) (order : List NodeRef) (named : NodeRef → Option String)
    (taken : List String) (past : List Given) (g : Given) : Prop where
  /-- An operation gets its kind and a number. -/
  | operation : (ws.node g.node).isOperation = true →
      Given.Numbered taken past (ws.node g.node).kind g.origin → Rule ws order named taken past g
  /-- A parameter is named after the operation that consumes it first, with its rank among the parameters
  of the operation. -/
  | consumed (op : NodeRef) (name : String) (rank : Nat) : (ws.node g.node).isParam = true →
      ws.firstConsumer order g.node = some op → named op = some name →
      (ws.paramsOf op)[rank]? = some g.node →
      Given.Claimed taken past (name ++ "_p" ++ toString (rank + 1)) g.origin →
      Rule ws order named taken past g
  /-- A selector is named after its parent, with the number of the output. -/
  | selector (k : Nat) (p : NodeRef) (name : String) : (ws.node g.node).role = .selector k →
      (ws.node g.node).parent = .ok p → named p = some name →
      Given.Claimed taken past (name ++ "_out" ++ toString k) g.origin →
      Rule ws order named taken past g
  /-- What no operation consumes gets its kind and a number, and so do inputs. -/
  | leaf : (ws.node g.node).isLeaf = true →
      ((ws.node g.node).isParam = true → ws.firstConsumer order g.node = none) →
      Given.Numbered taken past (ws.node g.node).kind g.origin → Rule ws order named taken past g

theorem Workspace.Rule.mono {ws : Workspace} {order : List NodeRef}
    {named named' : NodeRef → Option String} {taken : List String} {past : List Given} {g : Given}
    (h : ws.Rule order named taken past g) (keeps : ∀ n x, named n = some x → named' n = some x) :
    ws.Rule order named' taken past g := by
  cases h with
  | operation role name => exact .operation role name
  | consumed op name rank role first known place claimed =>
    exact .consumed op name rank role first (keeps op name known) place claimed
  | selector k p name role parent known claimed =>
    exact .selector k p name role parent (keeps p name known) claimed
  | leaf role unused name => exact .leaf role unused name

/-! ### What a namer has counted -/

theorem Namer.counter_setCounter (nm : Namer) (stem stem' : String) (n : Nat) :
    (nm.setCounter stem n).counter stem' = if stem' = stem then n else nm.counter stem' := by
  by_cases same : stem' = stem
  · simp [counter, setCounter, same]
  · have other : (stem' == stem) = false := by simpa using same
    have rest : ∀ l : List (String × Nat),
        (l.filter (·.1 != stem)).lookup stem' = l.lookup stem' := by
      intro l
      induction l with
      | nil => rfl
      | cons p l ih =>
        by_cases here : p.1 = stem
        · have apart : (stem' == p.1) = false := by simpa [here] using same
          rw [List.filter_cons_of_neg (by simp [here]), ih, List.lookup_cons, apart]
        · rw [List.filter_cons_of_pos (by simpa using here), List.lookup_cons, List.lookup_cons, ih]
    rw [if_neg same, counter, setCounter, List.lookup_cons, other]
    dsimp only
    rw [rest]
    rfl

namespace Naming

variable {ws : Workspace} {order : List NodeRef} {nm : Namer} {s s' : Naming} {past : List Given}
  {n p : NodeRef} {stem base : String} {origin : Origin}

/-- A naming that began in a workspace and has given names, each by its rule. -/
structure Told (ws : Workspace) (order : List NodeRef) (nm : Namer) (s : Naming)
    (past : List Given) : Prop where
  since : Since ws nm s
  assigned : s.assigned = past.map fun g => (g.node.handle, g.origin.name)
  graph : ∀ g ∈ past, g.node.graph = nm.graph
  tried : ∀ stem k, Given.Tried past stem k ↔ 0 < k ∧ k ≤ s.namer.counter stem
  rule : ∀ before g after, past = before ++ g :: after →
    ws.Rule order s.workspace.name nm.taken before g

namespace Told

theorem begin (built : ws.Built) (nm : Namer) (counters : nm.counters = []) :
    Told ws order nm { workspace := ws, namer := nm } [] := by
  refine ⟨.begin built nm, rfl, by simp, fun stem k => ?_, by simp⟩
  have zero : nm.counter stem = 0 := by simp [Namer.counter, counters]
  simp only [Given.Tried, List.not_mem_nil, false_and, exists_false, and_false, false_iff, zero]
  omega

variable (h : Told ws order nm s past)
include h

theorem taken (x : String) : x ∈ s.namer.taken ↔ Given.Taken nm.taken past x := by
  rw [h.since.taken, h.assigned, Given.Taken]
  simp

theorem name_iff (n : NodeRef) (x : String) : s.workspace.name n = some x ↔
    ws.name n = some x ∨ ∃ g ∈ past, g.node = n ∧ g.origin.name = x := by
  rw [h.since.name, h.assigned]
  refine or_congr_right ⟨fun ⟨graph, given⟩ => ?_, ?_⟩
  · obtain ⟨g, mem, same⟩ := List.mem_map.mp given
    obtain ⟨handle, name⟩ := Prod.mk.injEq .. ▸ same
    exact ⟨g, mem, eq_of_handle ((h.graph g mem).trans graph.symm) handle, name⟩
  · rintro ⟨g, mem, rfl, rfl⟩
    exact ⟨h.graph g mem, List.mem_map.mpr ⟨g, mem, rfl⟩⟩

theorem isNamed_iff (n : NodeRef) :
    s.isNamed n = true ↔ (ws.name n).isSome = true ∨ n ∈ past.map (·.node) := by
  rw [isNamed, Option.isSome_iff_exists, Option.isSome_iff_exists]
  constructor
  · rintro ⟨x, named⟩
    rcases (h.name_iff n x).mp named with old | ⟨g, mem, same, -⟩
    · exact .inl ⟨x, old⟩
    · exact .inr (List.mem_map.mpr ⟨g, mem, same⟩)
  · rintro (⟨x, old⟩ | new)
    · exact ⟨x, (h.name_iff n x).mpr (.inl old)⟩
    · obtain ⟨g, mem, same⟩ := List.mem_map.mp new
      exact ⟨_, (h.name_iff n _).mpr (.inr ⟨g, mem, same, rfl⟩)⟩

/-- The next number is the least one that can be given. -/
theorem nextNumber (stem : String) :
    Given.Numbered nm.taken past stem (.numbered stem (s.namer.nextNumber stem)) := by
  obtain ⟨j, next, free, passed⟩ := s.namer.nextNumber_spec stem
  refine ⟨_, rfl, ⟨?_, fun k hk => ?_, ?_⟩, ?_⟩
  · omega
  · have bound := ((h.tried stem k).mp hk).2
    omega
  · rw [next, ← h.taken]
    exact free
  · rintro k ⟨positive, above, untaken⟩
    rw [← h.taken] at untaken
    by_contra less
    have beyond : s.namer.counter stem < k := by
      by_contra within
      exact absurd (above k ((h.tried stem k).mpr ⟨positive, by omega⟩)) (Nat.lt_irrefl k)
    have place : s.namer.counter stem + 1 + (k - (s.namer.counter stem + 1)) = k := by omega
    have used := passed (k - (s.namer.counter stem + 1)) (by omega)
    rw [place] at used
    exact untaken used

omit h in
theorem tried_append (g : Given) (stem : String) (k : Nat) :
    Given.Tried (past ++ [g]) stem k ↔
      Given.Tried past stem k ∨ 0 < k ∧ ∃ n, g.origin = .numbered stem n ∧ k ≤ n := by
  simp only [Given.Tried, List.mem_append, List.mem_singleton, or_and_right, exists_or,
    exists_eq_left, and_or_left]

/-- One more name that its rule allows. -/
theorem step (since : Since ws nm s') (graph : n.graph = nm.graph)
    (assigned : s'.assigned = s.assigned ++ [(n.handle, origin.name)])
    (tried : ∀ stem k, Given.Tried (past ++ [⟨n, origin⟩]) stem k ↔
      0 < k ∧ k ≤ s'.namer.counter stem)
    (rule : ws.Rule order s.workspace.name nm.taken past ⟨n, origin⟩) :
    Told ws order nm s' (past ++ [⟨n, origin⟩]) := by
  have keeps : ∀ m x, s.workspace.name m = some x → s'.workspace.name m = some x := by
    intro m x named
    refine (since.name m x).mpr (((h.since.name m x).mp named).imp_right fun ⟨same, mem⟩ => ⟨same, ?_⟩)
    exact assigned ▸ List.mem_append_left _ mem
  refine ⟨since, ?_, ?_, tried, fun before g after split => ?_⟩
  · rw [assigned, h.assigned, List.map_append]
    rfl
  · intro g mem
    rcases List.mem_append.mp mem with mem | mem
    · exact h.graph g mem
    · exact List.mem_singleton.mp mem ▸ graph
  · rcases List.eq_nil_or_concat after with rfl | ⟨after, last, rfl⟩
    · obtain ⟨rfl, same⟩ := List.append_inj' split rfl
      cases same
      exact rule.mono keeps
    · rw [List.concat_eq_append, ← List.cons_append, ← List.append_assoc] at split
      exact (h.rule before g after (List.append_inj' split rfl).1).mono keeps

section
variable (there : ws.Exists n) (graph : n.graph = nm.graph) (unnamed : ¬ s.isNamed n = true)
include there graph unnamed

/-- A name with the next number. -/
theorem numbered {stem : String} (rule : ∀ origin, Given.Numbered nm.taken past stem origin →
      ws.Rule order s.workspace.name nm.taken past ⟨n, origin⟩) :
    ∃ origin, Told ws order nm (s.assignNumbered n stem) (past ++ [⟨n, origin⟩]) := by
  have next := h.nextNumber stem
  refine ⟨_, h.step (h.since.assignNumbered there graph unnamed stem) graph ?_ ?_ (rule _ next)⟩
  · exact h.since.assigned_assign graph unnamed _
  · intro stem' k
    have counter : (s.assignNumbered n stem).namer.counter stem' =
        if stem' = stem then s.namer.nextNumber stem else s.namer.counter stem' :=
      s.namer.counter_setCounter stem stem' _
    obtain ⟨j, above, -⟩ := s.namer.nextNumber_spec stem
    rw [tried_append, h.tried, counter]
    by_cases same : stem' = stem
    · subst same
      simp only [Origin.numbered.injEq, true_and, exists_eq_left', if_true]
      omega
    · simp [same, Ne.symm same]

/-- A name with no number, or with the next one if it is taken. -/
theorem claimed {base : String} (rule : ∀ origin, Given.Claimed nm.taken past base origin →
      ws.Rule order s.workspace.name nm.taken past ⟨n, origin⟩) :
    ∃ origin, Told ws order nm (s.assignClaimed n base) (past ++ [⟨n, origin⟩]) := by
  by_cases used : base ∈ s.namer.taken
  · have claim : s.assignClaimed n base = s.assignNumbered n (base ++ "_") := by
      simp [assignClaimed, assignNumbered, Namer.claim, used]
    rw [claim]
    exact h.numbered there graph unnamed fun origin next =>
      rule origin (.inr ⟨(h.taken base).mp used, next⟩)
  · have claim : s.assignClaimed n base = s.assign n base := by
      simp [assignClaimed, Namer.claim, used]
    rw [claim]
    have free : ¬ Given.Taken nm.taken past base := fun taken => used ((h.taken base).mpr taken)
    refine ⟨.text base, h.step (h.since.assign there graph unnamed used) graph ?_ ?_ ?_⟩
    · exact h.since.assigned_assign graph unnamed _
    · intro stem k
      have counter : (s.assign n base).namer.counter stem = s.namer.counter stem := rfl
      rw [tried_append, h.tried, counter]
      simp
    · exact rule _ (.inl ⟨free, rfl⟩)

end

end Told

end Naming

/-! ### Taking turns -/

section
variable {α : Type} [DecidableEq α]

theorem eraseDups_concat (l : List α) (a : α) :
    (l ++ [a]).eraseDups = if a ∈ l then l.eraseDups else l.eraseDups ++ [a] := by
  rw [List.eraseDups_append]
  by_cases mem : a ∈ l <;> simp [List.removeAll, mem, List.eraseDups_cons]

theorem nodup_eraseDups (l : List α) : l.eraseDups.Nodup := by
  induction l using List.reverseRecOn with
  | nil => exact .nil
  | append_singleton l a ih =>
    rw [eraseDups_concat]
    split
    · exact ih
    next new =>
      exact ih.append (List.nodup_singleton a) (by simpa using new)

end

theorem Naming.distinct_eq {l : List NodeRef} {id : Nat} (graph : ∀ n ∈ l, n.graph = id) :
    distinct l = l.eraseDups := by
  induction l using List.reverseRecOn with
  | nil => rfl
  | append_singleton l a ih =>
    have known := ih fun n hn => graph n (by simp [hn])
    have met : l.eraseDups.any (·.handle == a.handle) = true ↔ a ∈ l := by
      simp only [List.any_eq_true, List.mem_eraseDups, beq_iff_eq]
      constructor
      · rintro ⟨b, mem, same⟩
        have both := (graph b (by simp [mem])).trans (graph a (by simp)).symm
        exact eq_of_handle both same ▸ mem
      · exact fun mem => ⟨a, mem, rfl⟩
    rw [distinct, List.foldl_append, List.foldl_cons, List.foldl_nil, ← distinct, known,
      eraseDups_concat]
    exact if_congr met rfl rfl

namespace Workspace

variable {ws : Workspace} {order done rest : List NodeRef} {n m p : NodeRef}

theorem mem_paramsOf : p ∈ ws.paramsOf n ↔ p ∈ ws.inputs n ∧ (ws.node p).isParam = true := by
  rw [paramsOf, List.mem_filter, List.mem_eraseDups]

theorem mem_turn : p ∈ ws.turn order n ↔ (ws.node n).isOperation = true ∧
    (p = n ∨ p ∈ ws.paramsOf n ∧ ws.firstConsumer order p = some n) := by
  unfold turn
  split <;> simp_all

theorem not_isParam (operation : (ws.node n).isOperation = true) : (ws.node n).isParam = false := by
  simp only [Node.isOperation, Node.isLeaf, Bool.and_eq_true, Bool.not_eq_true',
    Bool.or_eq_false_iff] at operation
  exact operation.1.2

theorem not_mem_of_split (split : order = done ++ n :: rest) (nodup : order.Nodup) : n ∉ done := by
  rw [split] at nodup
  exact fun mem => (List.nodup_append.mp nodup).2.2 n mem n (by simp) rfl

/-- A parameter has had its turn before an operation that consumes it if another one is the first. -/
theorem mem_earlier_turn (split : order = done ++ n :: rest) (nodup : order.Nodup)
    (operation : (ws.node n).isOperation = true) (input : p ∈ ws.inputs n)
    (param : (ws.node p).isParam = true) :
    p ∈ done.flatMap (ws.turn order) ↔ ws.firstConsumer order p ≠ some n := by
  have new := not_mem_of_split split nodup
  have here : ws.consumes n p = true := by simp [consumes, operation, input]
  have first : ws.firstConsumer order p = (done.find? (ws.consumes · p)).or (some n) := by
    rw [firstConsumer, split, List.find?_append, List.find?_cons, here]
  constructor
  · intro mem same
    obtain ⟨m, hm, turn⟩ := List.mem_flatMap.mp mem
    obtain ⟨op, rfl | ⟨-, first'⟩⟩ := mem_turn.mp turn
    · simp [not_isParam op] at param
    · exact new (Option.some.inj (first'.symm.trans same) ▸ hm)
  · intro other
    cases found : done.find? (ws.consumes · p) with
    | none => exact absurd (by rw [first, found]; rfl) other
    | some m =>
      have consumes := List.find?_some found
      simp only [Workspace.consumes, Bool.and_eq_true, List.contains_iff_mem] at consumes
      refine List.mem_flatMap.mpr ⟨m, List.mem_of_find?_eq_some found, mem_turn.mpr ⟨consumes.1, ?_⟩⟩
      exact .inr ⟨mem_paramsOf.mpr ⟨consumes.2, param⟩, by rw [first, found]; rfl⟩

/-- An operation has its turn once. -/
theorem not_mem_earlier_turn (split : order = done ++ n :: rest) (nodup : order.Nodup)
    (operation : (ws.node n).isOperation = true) : n ∉ done.flatMap (ws.turn order) := by
  intro mem
  obtain ⟨m, hm, turn⟩ := List.mem_flatMap.mp mem
  obtain ⟨-, rfl | ⟨param, -⟩⟩ := mem_turn.mp turn
  · exact not_mem_of_split split nodup hm
  · simp [not_isParam operation, mem_paramsOf] at param

/-- Whoever does not wait has a turn with an operation. -/
theorem mem_turn_iff_not_waits (mem : n ∈ order) :
    n ∈ order.flatMap (ws.turn order) ↔ ws.waits order n = false := by
  rw [List.mem_flatMap, waits]
  constructor
  · rintro ⟨m, -, turn⟩
    obtain ⟨op, rfl | ⟨param, first⟩⟩ := mem_turn.mp turn
    · simp [op]
    · simp [(mem_paramsOf.mp param).2, first]
  · intro eager
    cases operation : (ws.node n).isOperation with
    | true => exact ⟨n, mem, mem_turn.mpr ⟨operation, .inl rfl⟩⟩
    | false =>
      simp only [operation, Bool.not_false, Bool.true_and, Bool.not_eq_false', Bool.and_eq_true,
        Option.isSome_iff_exists] at eager
      obtain ⟨param, m, first⟩ := eager
      have consumes := List.find?_some first
      simp only [Workspace.consumes, Bool.and_eq_true, List.contains_iff_mem] at consumes
      refine ⟨m, List.mem_of_find?_eq_some first, mem_turn.mpr ⟨consumes.1, .inr ⟨?_, first⟩⟩⟩
      exact mem_paramsOf.mpr ⟨consumes.2, param⟩

end Workspace

namespace Naming

variable {ws : Workspace} {order : List NodeRef} {nm : Namer} {s s' : Naming}
  {past more : List Given} {n p op : NodeRef} {name : String}

theorem Since.isParam (h : Since ws nm s) (n : NodeRef) :
    (s.workspace.node n).isParam = (ws.node n).isParam := by
  obtain ⟨_, same⟩ := h.same.node n
  rw [same]
  rfl

theorem Since.isOperation (h : Since ws nm s) (n : NodeRef) :
    (s.workspace.node n).isOperation = (ws.node n).isOperation := by
  obtain ⟨_, same⟩ := h.same.node n
  rw [same]
  rfl

namespace Told

theorem keeps (h : Told ws order nm s past) (h' : Told ws order nm s' (past ++ more))
    (named : s.workspace.name n = some name) : s'.workspace.name n = some name := by
  refine (h'.name_iff n name).mpr (((h.name_iff n name).mp named).imp_right ?_)
  exact fun ⟨g, mem, rest⟩ => ⟨g, List.mem_append_left _ mem, rest⟩

theorem unnamed (h : Told ws order nm s past) (n : NodeRef) :
    ¬ s.isNamed n = true ↔ ws.name n = none ∧ n ∉ past.map (·.node) := by
  rw [h.isNamed_iff, not_or, Bool.not_eq_true, Option.isSome_eq_false_iff, Option.isNone_iff_eq_none]

/-- A parameter of an operation that has a name. It is named now if its turn is with the operation. -/
theorem nameParam (h : Told ws order nm s past) (there : ws.Exists p) (graph : p.graph = nm.graph)
    (param : (ws.node p).isParam = true) (named : s.workspace.name op = some name) {rank : Nat}
    (place : (ws.paramsOf op)[rank]? = some p)
    (turn : ws.name p = none → (p ∈ past.map (·.node) ↔ ws.firstConsumer order p ≠ some op)) :
    ∃ more, Told ws order nm (if s.isNamed p then s else
        s.assignClaimed p (name ++ "_p" ++ toString (rank + 1))) (past ++ more) ∧
      more.map (·.node) = ([p].filter fun p => ws.firstConsumer order p == some op).filter
        fun p => (ws.name p).isNone := by
  by_cases has : s.isNamed p = true
  · rw [if_pos has]
    refine ⟨[], by rwa [List.append_nil], (List.filter_eq_nil_iff.mpr fun q hq => ?_).symm⟩
    obtain ⟨mem, first⟩ := List.mem_filter.mp hq
    obtain rfl := List.mem_singleton.mp mem
    intro blank
    rw [Option.isNone_iff_eq_none] at blank
    rcases (h.isNamed_iff q).mp has with old | new
    · simp [blank] at old
    · exact (turn blank).mp new (by simpa using first)
  · obtain ⟨blank, new⟩ := (h.unnamed p).mp has
    have first : ws.firstConsumer order p = some op := by
      by_contra other
      exact new ((turn blank).mpr other)
    rw [if_neg has]
    obtain ⟨origin, told⟩ := h.claimed there graph has
      fun origin claimed => .consumed op name rank param first named place claimed
    exact ⟨[⟨p, origin⟩], told, by simp [first, blank]⟩

/-- The parameters of an operation that has a name. -/
theorem assignParams (known : ∀ p ∈ ws.inputs op, ws.Exists p ∧ p.graph = nm.graph) :
    ∀ (l seen : List NodeRef) (s : Naming) (past : List Given),
      (ws.inputs op).eraseDups = seen ++ l → Told ws order nm s past →
      s.workspace.name op = some name →
      (∀ p ∈ l, (ws.node p).isParam = true → ws.name p = none →
        (p ∈ past.map (·.node) ↔ ws.firstConsumer order p ≠ some op)) →
      ∃ more, Told ws order nm
          (s.assignParams name (seen.filter fun p => (ws.node p).isParam).length l) (past ++ more) ∧
        more.map (·.node) = ((l.filter fun p => (ws.node p).isParam).filter
          fun p => ws.firstConsumer order p == some op).filter fun p => (ws.name p).isNone := by
  -- Along the inputs. The parameters among those seen are the rank so far, named ones included.
  intro l
  induction l with
  | nil => exact fun _ _ past _ h _ _ => ⟨[], by rwa [List.append_nil], rfl⟩
  | cons p rest ih =>
    intro seen s past split h named turns
    have split' : (ws.inputs op).eraseDups = (seen ++ [p]) ++ rest := by simpa using split
    have turns' := fun q hq => turns q (List.mem_cons_of_mem p hq)
    unfold Naming.assignParams
    rw [h.since.isParam]
    cases param : (ws.node p).isParam with
    | false =>
      have same : ((seen ++ [p]).filter fun p => (ws.node p).isParam).length =
          (seen.filter fun p => (ws.node p).isParam).length := by simp [param]
      rw [if_neg Bool.false_ne_true, ← same, List.filter_cons_of_neg (by simp [param])]
      exact ih _ s past split' h named turns'
    | true =>
      have rank : ((seen ++ [p]).filter fun p => (ws.node p).isParam).length =
          (seen.filter fun p => (ws.node p).isParam).length + 1 := by simp [param]
      have place : (ws.paramsOf op)[(seen.filter fun p => (ws.node p).isParam).length]? = some p := by
        rw [paramsOf, split, List.filter_append,
          List.filter_cons_of_pos (p := fun p => (ws.node p).isParam) param]
        simp
      have later : ∀ q ∈ rest, q ≠ p := by
        have nodup := nodup_eraseDups (ws.inputs op)
        rw [split] at nodup
        obtain ⟨new, -⟩ := List.nodup_cons.mp (List.nodup_append.mp nodup).2.1
        exact fun q hq same => new (same ▸ hq)
      have input : p ∈ ws.inputs op := List.mem_eraseDups.mp (by rw [split]; simp)
      obtain ⟨one, told, oneNodes⟩ := h.nameParam (known p input).1 (known p input).2 param named place
        (turns p (by simp) param)
      have turns'' : ∀ q ∈ rest, (ws.node q).isParam = true → ws.name q = none →
          (q ∈ (past ++ one).map (·.node) ↔ ws.firstConsumer order q ≠ some op) := by
        intro q hq isParam blank
        have other : q ∉ one.map (·.node) := by
          rw [oneNodes]
          exact fun mem => later q hq (by simpa using (List.mem_filter.mp (List.mem_filter.mp mem).1).1)
        rw [← turns' q hq isParam blank, List.map_append, List.mem_append, or_iff_left other]
      obtain ⟨more, told', nodes⟩ := ih _ _ _ split' told (h.keeps told named) turns''
      rw [if_pos rfl, List.filter_cons_of_pos (p := fun p => (ws.node p).isParam) param]
      refine ⟨one ++ more, ?_, ?_⟩
      · rwa [rank, List.append_assoc] at told'
      · rw [List.map_append, oneNodes, nodes, ← List.filter_append, ← List.filter_append,
          List.singleton_append]

/-- An operation, by its kind. -/
theorem nameOperation (h : Told ws order nm s past) (there : ws.Exists n) (graph : n.graph = nm.graph)
    (operation : (ws.node n).isOperation = true) (new : n ∉ past.map (·.node)) :
    ∃ more, Told ws order nm (s.assignByKind n) (past ++ more) ∧
      more.map (·.node) = [n].filter fun p => (ws.name p).isNone := by
  unfold Naming.assignByKind
  by_cases has : s.isNamed n = true
  · have old : ¬ ws.name n = none := by
      intro blank
      rcases (h.isNamed_iff n).mp has with old | mem
      · simp [blank] at old
      · exact new mem
    rw [if_pos has]
    exact ⟨[], by rwa [List.append_nil], by simp [old]⟩
  · obtain ⟨blank, -⟩ := (h.unnamed n).mp has
    obtain ⟨_, node⟩ := h.since.same.node n
    have kind : (s.workspace.node n).kind = (ws.node n).kind := by rw [node]
    have rule : ∀ origin, Given.Numbered nm.taken past (ws.node n).kind origin →
        ws.Rule order s.workspace.name nm.taken past ⟨n, origin⟩ :=
      fun origin name => .operation operation name
    rw [if_neg has, kind]
    obtain ⟨origin, told⟩ := h.numbered there graph has rule
    exact ⟨[⟨n, origin⟩], told, by simp [blank]⟩

/-- An operation whose turn comes, with its parameters. -/
theorem assignOperation {done rest : List NodeRef} (h : Told ws order nm s past)
    (built : ws.Built) (split : order = done ++ n :: rest) (nodup : order.Nodup)
    (there : ws.Exists n) (graph : n.graph = nm.graph)
    (nodes : past.map (·.node) = (done.flatMap (ws.turn order)).filter fun p => (ws.name p).isNone) :
    ∃ more, Told ws order nm (s.assignOperation n) (past ++ more) ∧
      more.map (·.node) = (ws.turn order n).filter fun p => (ws.name p).isNone := by
  unfold Naming.assignOperation
  rw [h.since.isOperation]
  cases operation : (ws.node n).isOperation with
  | false => exact ⟨[], by rwa [List.append_nil], by simp [turn, operation]⟩
  | true =>
    have new : n ∉ past.map (·.node) := by
      rw [nodes]
      exact fun mem => not_mem_earlier_turn split nodup operation (List.mem_of_mem_filter mem)
    obtain ⟨first, told, firstNodes⟩ := h.nameOperation there graph operation new
    have named : (s.assignByKind n).isNamed n = true :=
      assignByKind_named h.since.built ((h.since.same.exist n).mpr there)
    obtain ⟨name, named⟩ := Option.isSome_iff_exists.mp named
    have known : ∀ p ∈ ws.inputs n, ws.Exists p ∧ p.graph = nm.graph := fun p hp =>
      have input := built.sound.input_lt hp
      ⟨input.2.2, input.1.trans graph⟩
    have turns : ∀ p ∈ (ws.inputs n).eraseDups, (ws.node p).isParam = true → ws.name p = none →
        (p ∈ (past ++ first).map (·.node) ↔ ws.firstConsumer order p ≠ some n) := by
      intro p hp param blank
      have other : p ∉ first.map (·.node) := by
        rw [firstNodes]
        intro mem
        rw [List.mem_singleton.mp (List.mem_of_mem_filter mem), not_isParam operation] at param
        cases param
      rw [← mem_earlier_turn split nodup operation (List.mem_eraseDups.mp hp) param, List.map_append,
        List.mem_append, or_iff_left other, nodes, List.mem_filter]
      simp [blank]
    obtain ⟨more, told', moreNodes⟩ := told.assignParams known
      (ws.inputs n).eraseDups [] _ _ rfl named turns
    rw [if_pos rfl]
    dsimp only
    rw [named, told.since.same.inputs, distinct_eq fun p hp => (known p hp).2]
    refine ⟨first ++ more, by rwa [← List.append_assoc], ?_⟩
    rw [List.map_append, firstNodes, moreNodes, turn, if_pos operation, paramsOf, ← List.filter_append,
      List.singleton_append]

/-- All operations of an order. -/
theorem assignOperations (built : ws.Built) (nodup : order.Nodup)
    (known : ∀ n ∈ order, ws.Exists n ∧ n.graph = nm.graph) :
    ∀ (rest done : List NodeRef) (s : Naming) (past : List Given), order = done ++ rest →
      Told ws order nm s past →
      past.map (·.node) = (done.flatMap (ws.turn order)).filter (fun p => (ws.name p).isNone) →
      ∃ past', Told ws order nm (rest.foldl Naming.assignOperation s) past' ∧
        past'.map (·.node) = (order.flatMap (ws.turn order)).filter fun p => (ws.name p).isNone := by
  intro rest
  induction rest with
  | nil =>
    intro done s past split h nodes
    rw [List.append_nil] at split
    exact ⟨past, h, by rw [nodes, ← split]⟩
  | cons n rest ih =>
    intro done s past split h nodes
    obtain ⟨there, graph⟩ := known n (by rw [split]; simp)
    obtain ⟨more, told, moreNodes⟩ := h.assignOperation built split nodup there graph nodes
    refine ih (done ++ [n]) _ _ (by simpa using split) told ?_
    rw [List.map_append, nodes, moreNodes, List.flatMap_append, List.filter_append,
      List.flatMap_singleton]

/-- A node that waits, when all operations have had their turn. -/
theorem nameLast (h : Told ws order nm s past) (built : ws.Built) (there : ws.Exists n)
    (graph : n.graph = nm.graph) (has : ¬ s.isNamed n = true) (late : ws.waits order n = true)
    (operations : ∀ p ∈ ws.inputs n, (ws.node p).isOperation = true → s.isNamed p = true) :
    ∃ s' origin, (∀ rest, s.assignRest (n :: rest) = s'.assignRest rest) ∧
      Told ws order nm s' (past ++ [⟨n, origin⟩]) := by
  obtain ⟨_, node⟩ := h.since.same.node n
  cases role : (ws.node n).role with
  | operation =>
    simp [waits, Node.isOperation, Node.isLeaf, Node.isInput, Node.isParam, Node.isSelector, role] at late
  | selector k =>
    obtain ⟨p, args, -, input, operation, -⟩ := built.sound.selector role
    have parent : (ws.node n).parent = .ok p := by rw [Node.parent, args]
    have role' : (s.workspace.node n).role = .selector k := by rw [node, ← role]
    have parent' : (s.workspace.node n).parent = .ok p := by rw [node]; exact parent
    obtain ⟨name, named⟩ := Option.isSome_iff_exists.mp <| operations p input <| by
      simp [Node.isOperation, Node.isLeaf, Node.isInput, Node.isParam, Node.isSelector, operation]
    obtain ⟨origin, told⟩ := h.claimed there graph has fun origin claimed =>
      .selector k p name role parent named claimed
    refine ⟨_, origin, fun rest => ?_, told⟩
    rw [Naming.assignRest, if_neg has]
    simp only [role', parent', named]
    rfl
  | input | param =>
    have leaf : (ws.node n).isLeaf = true := by
      simp [Node.isLeaf, Node.isInput, Node.isParam, role]
    have unused : (ws.node n).isParam = true → ws.firstConsumer order n = none := by
      intro param
      simpa [waits, Node.isOperation, leaf, param] using late
    have rule : ∀ origin, Given.Numbered nm.taken past (ws.node n).kind origin →
        ws.Rule order s.workspace.name nm.taken past ⟨n, origin⟩ :=
      fun origin name => .leaf leaf unused name
    obtain ⟨origin, told⟩ := h.numbered there graph has rule
    refine ⟨_, origin, fun rest => ?_, told⟩
    rw [Naming.assignRest, if_neg has, node]
    simp only [role, Naming.assignByKind, if_neg has, node]

/-- A node whose turn is the last one: it is named if it waits. -/
theorem assignLast {done rest : List NodeRef} (h : Told ws order nm s past) (built : ws.Built)
    (split : order = done ++ n :: rest) (nodup : order.Nodup) (there : ws.Exists n)
    (graph : n.graph = nm.graph) (closed : ∀ i ∈ ws.inputs n, i ∈ order)
    (nodes : past.map (·.node) = (order.flatMap (ws.turn order) ++ done.filter (ws.waits order)).filter
      fun p => (ws.name p).isNone) :
    ∃ s' more, (∀ rest, s.assignRest (n :: rest) = s'.assignRest rest) ∧
      Told ws order nm s' (past ++ more) ∧
      more.map (·.node) = ([n].filter (ws.waits order)).filter fun p => (ws.name p).isNone := by
  have mem : n ∈ order := by rw [split]; simp
  have new := not_mem_of_split split nodup
  have met : n ∈ past.map (·.node) ↔ ws.waits order n = false ∧ ws.name n = none := by
    rw [nodes, List.mem_filter, List.mem_append, mem_turn_iff_not_waits mem, List.mem_filter]
    simp [new]
  by_cases has : s.isNamed n = true
  · refine ⟨s, [], fun rest => by rw [Naming.assignRest, if_pos has], by rwa [List.append_nil], ?_⟩
    rcases (h.isNamed_iff n).mp has with old | earlier
    · have blank : (ws.name n).isNone = false := by simpa using old
      rw [List.filter_filter]
      simp [blank]
    · simp [(met.mp earlier).1]
  · obtain ⟨blank, missing⟩ := (h.unnamed n).mp has
    have late : ws.waits order n = true := by
      by_contra eager
      exact missing (met.mpr ⟨by simpa using eager, blank⟩)
    have operations : ∀ p ∈ ws.inputs n, (ws.node p).isOperation = true → s.isNamed p = true := by
      intro p input operation
      have eager : ws.waits order p = false := by simp [waits, operation]
      rw [h.isNamed_iff, nodes, List.mem_filter, List.mem_append,
        mem_turn_iff_not_waits (closed p input)]
      cases ws.name p <;> simp [eager]
    obtain ⟨s', origin, step, told⟩ := h.nameLast built there graph has late operations
    exact ⟨s', [⟨n, origin⟩], step, told, by simp [late, blank]⟩

/-- What is left when all operations have had their turn. -/
theorem assignRest (built : ws.Built) (nodup : order.Nodup)
    (known : ∀ n ∈ order, ws.Exists n ∧ n.graph = nm.graph)
    (closed : ∀ n ∈ order, ∀ i ∈ ws.inputs n, i ∈ order) :
    ∀ (rest done : List NodeRef) (s : Naming) (past : List Given), order = done ++ rest →
      Told ws order nm s past →
      past.map (·.node) = (order.flatMap (ws.turn order) ++ done.filter (ws.waits order)).filter
        (fun p => (ws.name p).isNone) →
      ∃ s' past', s.assignRest rest = (.ok (), s') ∧ Told ws order nm s' past' ∧
        past'.map (·.node) = (ws.turns order).filter fun p => (ws.name p).isNone := by
  intro rest
  induction rest with
  | nil =>
    intro done s past split h nodes
    rw [List.append_nil] at split
    exact ⟨s, past, rfl, h, by rw [nodes, turns, ← split]⟩
  | cons n rest ih =>
    intro done s past split h nodes
    have mem : n ∈ order := by rw [split]; simp
    obtain ⟨there, graph⟩ := known n mem
    obtain ⟨s', more, step, told, moreNodes⟩ :=
      h.assignLast built split nodup there graph (closed n mem) nodes
    rw [step]
    refine ih (done ++ [n]) s' _ (by simpa using split) told ?_
    rw [List.map_append, nodes, moreNodes, List.filter_append done, ← List.append_assoc,
      List.filter_append _ ([n].filter _)]

end Told

end Naming

namespace Workspace

variable {ws : Workspace} {id : Nat} {order : List NodeRef}

/-- What sequential naming leads to. -/
structure NamedInSequence (ws : Workspace) (order : List NodeRef) (taken : List String) (s : Naming)
    (history : List Given) : Prop where
  /-- The names that are reported. -/
  assigned : s.assigned = history.map fun g => (g.node.handle, g.origin.name)
  /-- The unnamed nodes are named by turns. -/
  nodes : history.map (·.node) = (ws.turns order).filter fun n => (ws.name n).isNone
  complete : ∀ n ∈ order, ws.name n = none → n ∈ history.map (·.node)
  /-- The names that nodes have then are those that were given, and those that they had. -/
  names : ∀ n x, s.workspace.name n = some x ↔
    ws.name n = some x ∨ ∃ g ∈ history, g.node = n ∧ g.origin.name = x
  /-- Every name that is given obeys its rule. -/
  rule : ∀ past g later, history = past ++ g :: later →
    ws.Rule order s.workspace.name taken past g

/-- Naming the nodes of an order one after the other, operations first, gives every unnamed node the name
that its rule says. -/
theorem Built.assignSequential_history (built : ws.Built) (exist : ∀ n ∈ order, ws.Exists n)
    (graph : ∀ n ∈ order, n.graph = id) (nodup : order.Nodup)
    (closed : ∀ n ∈ order, ∀ i ∈ ws.inputs n, i ∈ order) :
    ∃ s history, Naming.assignSequential
        { workspace := ws, namer := .ofGraph (ws.graph id) } order = (.ok (), s) ∧
      ws.NamedInSequence order (ws.graph id).names s history := by
  let nm := Namer.ofGraph (ws.graph id)
  have known : ∀ n ∈ order, ws.Exists n ∧ n.graph = nm.graph := fun n hn =>
    ⟨exist n hn, (graph n hn).trans (built.sound.graph_id id).symm⟩
  have begin : Naming.Told ws order nm { workspace := ws, namer := nm } [] := .begin built nm rfl
  obtain ⟨past, told, nodes⟩ := begin.assignOperations built nodup known order [] _ _ rfl rfl
  obtain ⟨s, history, run, done, turns⟩ := told.assignRest built nodup known closed order [] _ _ rfl
    (by rw [nodes, List.filter_nil, List.append_nil])
  refine ⟨s, history, run, done.assigned, turns, fun n hn blank => ?_, done.name_iff, done.rule⟩
  rw [turns, List.mem_filter, Workspace.turns, List.mem_append, mem_turn_iff_not_waits hn,
    List.mem_filter]
  cases ws.waits order n <;> simp [hn, blank]

end Workspace

namespace Sample

/-- The graph of `x * p + x` in which `x` has the name that `p`, which has none, would get. -/
def clashing : Workspace := (graph.rename ⟨0, 0⟩ (some "mul1_p1")).rename ⟨0, 1⟩ none

theorem clashing_built : clashing.Built := .rename _ _ (.rename _ _ graph_built)

def clashingOrder : List NodeRef := [⟨0, 0⟩, ⟨0, 1⟩, ⟨0, 2⟩, ⟨0, 3⟩]

theorem clashing_exist : ∀ n ∈ clashingOrder, clashing.Exists n := by
  intro n mem
  have four : n = ⟨0, 0⟩ ∨ n = ⟨0, 1⟩ ∨ n = ⟨0, 2⟩ ∨ n = ⟨0, 3⟩ := by simpa [clashingOrder] using mem
  rcases four with rfl | rfl | rfl | rfl <;> exact Workspace.exists_of_lt_size (by decide)

theorem assignSequential_history_clashing :
    clashing.Built ∧ clashingOrder.Nodup ∧
    (∀ n ∈ clashingOrder, ∀ i ∈ clashing.inputs n, i ∈ clashingOrder) ∧
    ∃ s history, Naming.assignSequential
        { workspace := clashing, namer := .ofGraph (clashing.graph 0) } clashingOrder = (.ok (), s) ∧
      clashing.NamedInSequence clashingOrder (clashing.graph 0).names s history :=
  ⟨clashing_built, by decide, by decide,
    clashing_built.assignSequential_history clashing_exist (by decide) (by decide) (by decide)⟩

/-- The operations are named first, and the parameter gets a number. -/
example : (Naming.assignSequential { workspace := clashing, namer := .ofGraph (clashing.graph 0) }
    clashingOrder).2.assigned = [(2, "mul1"), (1, "mul1_p1_1"), (3, "add1")] := by cbv

end Sample

end Backprop
