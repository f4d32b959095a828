import Mathlib.Data.List.Forall2
import Mathlib.Data.List.Induction
import Backprop.Schedule.Compile
import Backprop.Proofs.Naming
/-!
# Marks and slots of an order of nodes

* `GradientMarks.ofOrder_spec`: the marks of an order satisfy at every node the rule that
  `GradientMarks.ofNode` states.
* `GradientMarks.Settles.marked_iff`: marked are the nodes on the way from a leaf that wants a gradient.
* `Layout.Covers` says what the layout of an order holds: one slot for each output of each node that
  is no selector, numbered in order.
* `Workspace.source` is the output that a node stands for, and `Layout.slotOf_spec` finds its slot.
-/

namespace Backprop

section
variable {ε α β : Type}

/-- Results that a function gives are its results on the list. -/
theorem eq_map_of_forall₂ {r : α → β → Prop} {g : α → β} : ∀ {l : List α} {l' : List β},
    List.Forall₂ r l l' → (∀ a ∈ l, ∀ b, r a b → b = g a) → l' = l.map g := by
  intro l l' h
  induction h with
  | nil => exact fun _ => rfl
  | cons first _ ih =>
    intro spec
    rw [List.map_cons, ← spec _ (by simp) _ first, ← ih fun a ha => spec a (by simp [ha])]

section
variable {r : α → β → Prop}

/-- A list that is related to one with parts has such parts. -/
theorem forall₂_split : ∀ {pre : List β} {b : β} {post : List β} {l : List α},
    List.Forall₂ r l (pre ++ b :: post) → ∃ pre' a post', l = pre' ++ a :: post' ∧
      List.Forall₂ r pre' pre ∧ r a b ∧ List.Forall₂ r post' post := by
  intro pre
  induction pre with
  | nil =>
    intro b post l h
    obtain ⟨a, post', first, rest, rfl⟩ := List.forall₂_cons_right_iff.mp h
    exact ⟨[], a, post', rfl, .nil, first, rest⟩
  | cons x pre ih =>
    intro b post l h
    obtain ⟨y, l', first, rest, rfl⟩ := List.forall₂_cons_right_iff.mp h
    obtain ⟨pre', a, post', rfl, before, here, after⟩ := ih rest
    exact ⟨y :: pre', a, post', rfl, .cons first before, here, after⟩

end

theorem lookup_append_of_isSome {κ : Type} [BEq κ] {l m : List (κ × α)} {k : κ}
    (h : (l.lookup k).isSome = true) : (l ++ m).lookup k = l.lookup k := by
  rw [List.lookup_append]
  exact Option.or_of_isSome h

theorem lookup_append_of_none {κ : Type} [BEq κ] {l m : List (κ × α)} {k : κ}
    (h : l.lookup k = none) : (l ++ m).lookup k = m.lookup k := by
  rw [List.lookup_append, h]
  rfl

end

open Workspace

/-! ### Marks -/

namespace GradientMarks

variable {ws : Workspace} {marks : GradientMarks} {n : NodeRef} {node : Node}

/-- Whether a node is marked. -/
def marked (marks : GradientMarks) (n : NodeRef) : Bool := marks.any [n]

theorem marked_eq (marks : GradientMarks) (n : NodeRef) :
    marks.marked n = (marks.lookup n.handle).getD false := by
  simp [marked, any]

theorem any_eq (marks : GradientMarks) (l : List NodeRef) : marks.any l = l.any marks.marked := by
  rw [funext marks.marked_eq]
  rfl

/-- The node that a selector selects from is one of its inputs. -/
theorem parent_mem_inputs {p : NodeRef} (h : node.parent = .ok p) : p ∈ node.inputs := by
  unfold Node.parent at h
  split at h
  next rest args =>
    cases h
    simp [Node.inputs, args, Value.node?]
  next => cases h
  next => cases h

/-- More marks do not change what is settled for a node whose inputs are marked or not. -/
theorem ofNode_append {more : GradientMarks}
    (known : ∀ i ∈ node.inputs, (marks.lookup i.handle).isSome = true) :
    GradientMarks.ofNode (marks ++ more) node = marks.ofNode node := by
  unfold ofNode
  split
  · rfl
  · rfl
  · cases parent : node.parent with
    | error e => rfl
    | ok p =>
      have same := lookup_append_of_isSome (m := more) (known p (parent_mem_inputs parent))
      change GradientMarks.get (marks ++ more) p.handle = marks.get p.handle
      unfold get
      rw [same]
  · have same : ∀ i ∈ node.args.filterMap Value.node?,
        ((marks ++ more).lookup i.handle).getD false = (marks.lookup i.handle).getD false := by
      intro i hi
      rw [lookup_append_of_isSome (known i (List.mem_append_left _ hi))]
    have each : ∀ l : List NodeRef, (∀ i ∈ l, ((marks ++ more).lookup i.handle).getD false =
        (marks.lookup i.handle).getD false) → GradientMarks.any (marks ++ more) l = marks.any l := by
      intro l
      induction l with
      | nil => exact fun _ => rfl
      | cons i l ih =>
        intro same
        simp only [any, List.any_cons] at ih ⊢
        rw [same i (by simp), ih fun j hj => same j (by simp [hj])]
    rw [each _ same]

/-- The marks of some nodes: each has one, and it is the one that its inputs give. -/
structure Settles (ws : Workspace) (done : List NodeRef) (marks : GradientMarks) : Prop where
  known : ∀ h, (marks.lookup h).isSome = true ↔ ∃ n ∈ done, n.handle = h
  settled : ∀ n ∈ done, marks.ofNode (ws.node n) = .ok (marks.marked n)

theorem Settles.next {done : List NodeRef} {mark : Bool} (h : Settles ws done marks)
    (new : ∀ m ∈ done, m.handle ≠ n.handle) (inputs : ∀ i ∈ ws.inputs n, i ∈ done)
    (closed : ∀ m ∈ done, ∀ i ∈ ws.inputs m, i ∈ done)
    (run : marks.ofNode (ws.node n) = .ok mark) :
    Settles ws (done ++ [n]) (marks ++ [(n.handle, mark)]) := by
  have known : ∀ m, (∀ i ∈ ws.inputs m, i ∈ done) →
      ∀ i ∈ (ws.node m).inputs, (marks.lookup i.handle).isSome = true :=
    fun m inputs i hi => (h.known _).mpr ⟨i, inputs i hi, rfl⟩
  have fresh : marks.lookup n.handle = none := by
    refine Option.not_isSome_iff_eq_none.mp fun marked => ?_
    obtain ⟨m, hm, same⟩ := (h.known n.handle).mp marked
    exact new m hm same
  constructor
  · intro k
    rw [List.lookup_append, Option.isSome_or, Bool.or_eq_true, h.known k]
    simp only [List.mem_append, List.mem_singleton, or_and_right, exists_or, exists_eq_left]
    refine or_congr .rfl ?_
    by_cases same : k = n.handle
    · simp [same]
    · simp [List.lookup_cons, beq_false_of_ne same, Ne.symm same]
  · intro m hm
    rcases List.mem_append.mp hm with old | new
    · rw [ofNode_append (known m (closed m old)), h.settled m old, marked_eq, marked_eq,
        lookup_append_of_isSome ((h.known _).mpr ⟨m, old, rfl⟩)]
    · obtain rfl := List.mem_singleton.mp new
      rw [ofNode_append (known m inputs), run, marked_eq, lookup_append_of_none fresh]
      simp

/-- Of an order, the next node is settled after those before it. -/
theorem Settles.next_of_order {id : Nat} {roots order done rest : List NodeRef} {mark : Bool}
    (h : Settles ws done marks) (sound : ws.Sound) (ord : ws.Orders id roots order)
    (split : order = done ++ n :: rest) (run : marks.ofNode (ws.node n) = .ok mark) :
    Settles ws (done ++ [n]) (marks ++ [(n.handle, mark)]) := by
  refine h.next (fun m hm same => ?_) (fun i hi => ord.input_before sound split hi)
    (fun m hm i hi => ?_) run
  · have sorted := ord.sorted
    rw [split] at sorted
    have := (List.pairwise_append.mp sorted).2.2 m hm n (by simp)
    omega
  · obtain ⟨a, b, rfl⟩ := List.append_of_mem hm
    have split' : order = a ++ m :: (b ++ n :: rest) := by simp [split]
    have earlier := ord.input_before sound split' hi
    simp [earlier]

/-- The marks of an order are settled at every node. -/
theorem ofOrder_spec {id : Nat} {roots order : List NodeRef} (sound : ws.Sound)
    (ord : ws.Orders id roots order) (run : ofOrder ws [] order = .ok marks) :
    Settles ws order marks := by
  have go : ∀ (rest done : List NodeRef) (before after : GradientMarks), order = done ++ rest →
      Settles ws done before → ofOrder ws before rest = .ok after → Settles ws order after := by
    intro rest
    induction rest with
    | nil =>
      intro done before after split settles run
      cases run
      rw [split, List.append_nil]
      exact settles
    | cons n rest ih =>
      intro done before after split settles run
      obtain ⟨mark, first, run⟩ := ok_of_bind run
      exact ih (done ++ [n]) _ after (by simp [split])
        (settles.next_of_order sound ord split first) run
  refine go order [] [] marks rfl ⟨fun h => by simp, fun n hn => by cases hn⟩ run

end GradientMarks

/-- A gradient is wanted at parameters and flagged inputs, and at every node with a positional argument
at which it is wanted. The argument of a selector is its parent. -/
inductive Workspace.Differentiated (ws : Workspace) : NodeRef → Prop where
  | param {n : NodeRef} : (ws.node n).isParam = true → Differentiated ws n
  | input {n : NodeRef} : (ws.node n).isInput = true → (ws.node n).requiresGradient = true →
      Differentiated ws n
  | argument {n i : NodeRef} : .node i ∈ (ws.node n).args → Differentiated ws i →
      Differentiated ws n

namespace GradientMarks.Settles

variable {ws : Workspace} {marks : GradientMarks} {id : Nat} {roots order : List NodeRef} {n : NodeRef}
variable (settles : marks.Settles ws order) (sound : ws.Sound) (ord : ws.Orders id roots order)
include settles

theorem get_handle (hn : n ∈ order) : marks.get n.handle = .ok (marks.marked n) := by
  obtain ⟨mark, found⟩ := Option.isSome_iff_exists.mp ((settles.known n.handle).mpr ⟨n, hn, rfl⟩)
  simp only [get, marked_eq, found, Option.getD_some]

include sound ord

theorem differentiated_of_marked (hn : n ∈ order) (mark : marks.marked n = true) :
    ws.Differentiated n := by
  -- A mark that is no leaf's own comes from an input, which has a smaller handle.
  induction handle : n.handle using Nat.strongRecOn generalizing n with
  | ind k ih =>
    subst handle
    have settled := settles.settled n hn
    rw [mark] at settled
    unfold ofNode at settled
    split at settled
    next role => exact .param (by simp [Node.isParam, role])
    next role => exact .input (by simp [Node.isInput, role]) (Except.ok.inj settled)
    next k role =>
      obtain ⟨p, args, -, input, -⟩ := sound.selector role
      have hp := ord.input_mem hn input
      rw [Node.parent, args] at settled
      have marked := Except.ok.inj ((settles.get_handle hp).symm.trans settled)
      exact .argument (by simp [args]) (ih p.handle (sound.input_lt input).2.1 hp marked rfl)
    next =>
      rw [any_eq, Except.ok.injEq, List.any_eq_true] at settled
      obtain ⟨i, hi, marked⟩ := settled
      obtain ⟨v, hv, node⟩ := List.mem_filterMap.mp hi
      have input : i ∈ ws.inputs n := List.mem_append_left _ hi
      exact .argument (eq_node_of_node? node ▸ hv)
        (ih i.handle (sound.input_lt input).2.1 (ord.input_mem hn input) marked rfl)

theorem marked_of_differentiated (hn : n ∈ order) (wanted : ws.Differentiated n) :
    marks.marked n = true := by
  induction wanted with
  | @param n param =>
    have settled := settles.settled n hn
    cases role : (ws.node n).role with
    | param data =>
      simp only [ofNode, role, Except.ok.injEq] at settled
      exact settled.symm
    | _ => simp [Node.isParam, role] at param
  | @input n input flagged =>
    have settled := settles.settled n hn
    cases role : (ws.node n).role with
    | input =>
      simp only [ofNode, role, Except.ok.injEq] at settled
      exact settled.symm.trans flagged
    | _ => simp [Node.isInput, role] at input
  | @argument n i arg _ ih =>
    have input : i ∈ ws.inputs n := mem_inputs_of_arg arg
    have hi := ord.input_mem hn input
    have settled := settles.settled n hn
    unfold ofNode at settled
    split at settled
    next => exact (Except.ok.inj settled).symm
    next role =>
      have leaf := (sound.leaf (n := n) (by simp [Node.isLeaf, Node.isInput, role])).1
      simp [leaf] at arg
    next k role =>
      obtain ⟨p, args, -⟩ := sound.selector role
      obtain rfl : i = p := by simpa [args] using arg
      rw [Node.parent, args] at settled
      exact (Except.ok.inj ((settles.get_handle hi).symm.trans settled)).symm.trans (ih hi)
    next =>
      rw [any_eq, Except.ok.injEq] at settled
      rw [← settled, List.any_eq_true]
      exact ⟨i, List.mem_filterMap.mpr ⟨_, arg, rfl⟩, ih hi⟩

/-- The nodes of an order that are marked are those at which a gradient is wanted. -/
theorem marked_iff (hn : n ∈ order) : marks.marked n = true ↔ ws.Differentiated n :=
  ⟨settles.differentiated_of_marked sound ord hn, settles.marked_of_differentiated sound ord hn⟩

end GradientMarks.Settles

/-! ### Slots -/

/-- How many slots a node has, if it is no selector. -/
def Node.slotCount (n : Node) : Nat := if n.isLeaf then 1 else n.outputs

/-- The output that a node stands for: a selector stands for one of its parent's. -/
def Workspace.source (ws : Workspace) (n : NodeRef) : NodeRef × Nat :=
  match (ws.node n).role, (ws.node n).args with
  | .selector k, .node p :: _ => (p, k)
  | _, _ => (n, 0)

namespace Layout

variable {ws : Workspace} {selectors : List ((Nat × Nat) × NodeRef)} {marks : GradientMarks}
  {done : List NodeRef} {l : Layout} {n : NodeRef}

/-- The description of an output's slot before its uses are known. -/
def infoOf (ws : Workspace) (selectors : List ((Nat × Nat) × NodeRef)) (marks : GradientMarks)
    (n : NodeRef) (index : Slot) (output : Nat) : SlotInfo where
  index := index
  name := slotName ws selectors n output
  handle := n.handle
  kind := slotKind (ws.node n)
  output := output
  persistent := (ws.node n).isParam
  requiresGradient := marks.marked n
  devicePlacement := (ws.node n).devicePlacement

/-- A layout of some nodes: slots are numbered from zero, and every output of a node that is no
selector has one. -/
structure Covers (ws : Workspace) (selectors : List ((Nat × Nat) × NodeRef)) (marks : GradientMarks)
    (done : List NodeRef) (l : Layout) : Prop where
  index : ∀ (k : Nat) (info : SlotInfo), l.infos[k]? = some info → info.index = (k : Int)
  known : ∀ h, (l.places.lookup h).isSome = true →
    ∃ n ∈ done, (ws.node n).isSelector = false ∧ n.handle = h
  places : ∀ n ∈ done, (ws.node n).isSelector = false → ∃ slots,
    l.places.lookup n.handle = some slots ∧ slots.length = (ws.node n).slotCount ∧
      ∀ k r, slots[k]? = some r → infoOf ws selectors marks n r k ∈ l.infos
  infos : ∀ info ∈ l.infos, ∃ n ∈ done, (ws.node n).isSelector = false ∧
    info = infoOf ws selectors marks n info.index info.output ∧
      ∃ slots, l.places.lookup n.handle = some slots ∧ slots[info.output]? = some info.index

theorem push_of_isSelector (selector : (ws.node n).isSelector = true) :
    l.push ws selectors marks n = l := by
  simp [push, selector]

/-- What a node that is no selector adds. -/
theorem push_of_not_isSelector (plain : (ws.node n).isSelector = false) :
    l.push ws selectors marks n =
      { places := l.places ++ [(n.handle, (List.range (ws.node n).slotCount).map fun k =>
          ((l.infos.length + k : Nat) : Slot))]
        infos := l.infos ++ (List.range (ws.node n).slotCount).map fun k =>
          infoOf ws selectors marks n ((l.infos.length + k : Nat) : Slot) k } := by
  simp only [push, plain, Bool.false_eq_true, if_false]
  rfl

theorem Covers.push_selector (h : Covers ws selectors marks done l)
    (selector : (ws.node n).isSelector = true) :
    Covers ws selectors marks (done ++ [n]) (l.push ws selectors marks n) := by
  rw [push_of_isSelector selector]
  refine ⟨h.index, fun k hk => ?_, fun m hm plain => ?_, fun info mem => ?_⟩
  · obtain ⟨m, hm, rest⟩ := h.known k hk
    exact ⟨m, by simp [hm], rest⟩
  · rcases List.mem_append.mp hm with hm | hm
    · exact h.places m hm plain
    · rw [List.mem_singleton.mp hm, selector] at plain
      cases plain
  · obtain ⟨m, hm, rest⟩ := h.infos info mem
    exact ⟨m, by simp [hm], rest⟩

theorem lookup_kept {places more : List (Nat × List Slot)} {handle : Nat} {slots : List Slot}
    (found : places.lookup handle = some slots) : (places ++ more).lookup handle = some slots := by
  rw [lookup_append_of_isSome (by rw [found]; rfl), found]

theorem Covers.push_plain (h : Covers ws selectors marks done l)
    (new : ∀ m ∈ done, m.handle ≠ n.handle) (plain : (ws.node n).isSelector = false) :
    Covers ws selectors marks (done ++ [n]) (l.push ws selectors marks n) := by
  rw [push_of_not_isSelector plain]
  have fresh : l.places.lookup n.handle = none := by
    refine Option.not_isSome_iff_eq_none.mp fun placed => ?_
    obtain ⟨m, hm, _, same⟩ := h.known n.handle placed
    exact new m hm same
  have own : ∀ slots : List Slot,
      (l.places ++ [(n.handle, slots)]).lookup n.handle = some slots := fun slots => by
    rw [lookup_append_of_none fresh]
    simp
  refine ⟨fun k info found => ?_, fun k hk => ?_, fun m hm plain' => ?_, fun info mem => ?_⟩
  · rw [List.getElem?_append] at found
    split at found
    next => exact h.index k info found
    next later =>
      rw [List.getElem?_map] at found
      obtain ⟨j, hj, rfl⟩ := Option.map_eq_some_iff.mp found
      obtain ⟨_, rfl⟩ := List.getElem?_eq_some_iff.mp hj
      rw [List.getElem_range]
      change ((l.infos.length + (k - l.infos.length) : Nat) : Int) = k
      omega
  · rw [List.lookup_append, Option.isSome_or, Bool.or_eq_true] at hk
    rcases hk with old | added
    · obtain ⟨m, hm, rest⟩ := h.known k old
      exact ⟨m, by simp [hm], rest⟩
    · by_cases same : k = n.handle
      · exact ⟨n, by simp, plain, same.symm⟩
      · simp [List.lookup_cons, beq_false_of_ne same] at added
  · rcases List.mem_append.mp hm with old | added
    · obtain ⟨slots, found, length, infos⟩ := h.places m old plain'
      exact ⟨slots, lookup_kept found, length,
        fun k r hk => List.mem_append_left _ (infos k r hk)⟩
    · obtain rfl := List.mem_singleton.mp added
      refine ⟨_, own _, by simp, fun k r hk => List.mem_append_right _ ?_⟩
      rw [List.getElem?_map] at hk
      obtain ⟨j, hj, rfl⟩ := Option.map_eq_some_iff.mp hk
      obtain ⟨bound, rfl⟩ := List.getElem?_eq_some_iff.mp hj
      rw [List.getElem_range]
      exact List.mem_map.mpr ⟨k, by simpa using bound, rfl⟩
  · rcases List.mem_append.mp mem with old | added
    · obtain ⟨m, hm, plain', shape, slots, found, slot⟩ := h.infos info old
      exact ⟨m, by simp [hm], plain', shape, slots, lookup_kept found, slot⟩
    · obtain ⟨k, hk, rfl⟩ := List.mem_map.mp added
      refine ⟨n, by simp, plain, rfl, _, own _, ?_⟩
      rw [List.getElem?_map]
      change ((List.range _)[k]?).map _ = _
      rw [List.getElem?_range (List.mem_range.mp hk)]
      rfl

theorem Covers.push (h : Covers ws selectors marks done l)
    (new : ∀ m ∈ done, m.handle ≠ n.handle) :
    Covers ws selectors marks (done ++ [n]) (l.push ws selectors marks n) := by
  cases selector : (ws.node n).isSelector with
  | true => exact h.push_selector selector
  | false => exact h.push_plain new selector

/-- The layout of an order covers it. -/
theorem covers_foldl (selectors : List ((Nat × Nat) × NodeRef)) (marks : GradientMarks) {id : Nat}
    {roots order : List NodeRef} (ord : ws.Orders id roots order) :
    Covers ws selectors marks order (order.foldl (fun l n => l.push ws selectors marks n) {}) := by
  have go : ∀ (pre : List NodeRef), pre <+: order →
      Covers ws selectors marks pre (pre.foldl (fun l n => l.push ws selectors marks n) {}) := by
    intro pre
    induction pre using List.reverseRecOn with
    | nil =>
      intro _
      refine ⟨fun k info none => ?_, fun k none => ?_, fun m hm => ?_, fun info mem => ?_⟩
      · simp at none
      · simp at none
      · cases hm
      · cases mem
    | append_singleton pre n ih =>
      intro part
      rw [List.foldl_append]
      refine (ih ((List.prefix_append pre [n]).trans part)).push fun m hm same => ?_
      have sorted := ord.sorted.sublist part.sublist
      have := (List.pairwise_append.mp sorted).2.2 m hm n (by simp)
      omega
  exact go order (List.prefix_refl order)

theorem ok_of_slotsOf {h k : Nat} {r : Slot} (run : (do
      match (← l.slotsOf h)[k]? with
      | some s => return s
      | none => throw Error.outOfRange : Except Error Slot) = .ok r) :
    ∃ slots, l.places.lookup h = some slots ∧ slots[k]? = some r := by
  obtain ⟨slots, found, run⟩ := ok_of_bind run
  unfold slotsOf at found
  split at found
  next slots' here =>
    cases found
    cases at' : slots[k]? with
    | none =>
      rw [at'] at run
      cases run
    | some s =>
      rw [at'] at run
      cases run
      exact ⟨slots, here, at'⟩
  next => cases found

/-- The slot of a node is that of the output it stands for. -/
theorem slotOf_spec (sound : ws.Sound) {r : Slot} (run : l.slotOf ws n = .ok r) :
    ∃ slots, l.places.lookup (ws.source n).1.handle = some slots ∧
      slots[(ws.source n).2]? = some r := by
  unfold slotOf at run
  unfold Workspace.source
  cases role : (ws.node n).role with
  | selector k =>
    obtain ⟨p, args, _⟩ := sound.selector role
    simp only [role, Node.parent, args] at run ⊢
    exact ok_of_slotsOf run
  | operation =>
    simp only [role] at run ⊢
    exact ok_of_slotsOf run
  | input =>
    simp only [role] at run ⊢
    exact ok_of_slotsOf run
  | param data =>
    simp only [role] at run ⊢
    exact ok_of_slotsOf run

end Layout

end Backprop
