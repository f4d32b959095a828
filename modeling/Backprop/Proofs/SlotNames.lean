import Mathlib
import Backprop.Proofs.FreshNames
import Backprop.Proofs.Nets
/-!
# The names of slots

A slot is named after a node that stands for it, and if none does, after its place among the outputs
of an operation. Names of the second sort are not held against those of nodes.

* `Schedule.lookup_names`: a name stands for the slot that was entered last under it.
* `Schedule.NamesSlot` are the two ways to name a slot, and `madeName_inj` says that names of the
  second sort are different.
* `Built.slot_names`: every name of a node reaches the slot of its value, and every slot can be reached
  by its own name unless a node that stands for another slot has the same name.
-/

namespace Backprop

open Workspace

section
variable {α β : Type} [BEq α] [LawfulBEq α] {l : List (α × β)} {a : α} {b : β}

/-- A key that always comes with one value is found with it. -/
theorem lookup_of_unique (mem : (a, b) ∈ l) (unique : ∀ c, (a, c) ∈ l → c = b) :
    l.lookup a = some b := by
  induction l with
  | nil => cases mem
  | cons p l ih =>
    obtain ⟨x, c⟩ := p
    by_cases same : a = x
    · subst same
      rw [List.lookup_cons_self, unique c List.mem_cons_self]
    · rw [List.lookup_cons, beq_false_of_ne same]
      refine ih ((List.mem_cons.mp mem).resolve_left fun eq => same (congrArg Prod.fst eq)) ?_
      exact fun c mem => unique c (List.mem_cons_of_mem _ mem)

theorem mem_of_lookup (found : l.lookup a = some b) : (a, b) ∈ l := by
  induction l with
  | nil => cases found
  | cons p l ih =>
    obtain ⟨x, c⟩ := p
    by_cases same : a = x
    · subst same
      rw [List.lookup_cons_self] at found
      cases found
      exact List.mem_cons_self
    · rw [List.lookup_cons, beq_false_of_ne same] at found
      exact List.mem_cons_of_mem _ (ih found)

/-- A fold that puts an image of each element with a property in front of what it has. -/
theorem foldlM_filter_map {γ δ ε : Type} {f : List δ → γ → Except ε (List δ)} {keep : γ → Bool}
    {g : γ → δ} (kept : ∀ l c, keep c = true → f l c = .ok (g c :: l))
    (left : ∀ l c, keep c = false → f l c = .ok l) : ∀ (items : List γ) (l : List δ),
    items.foldlM f l = .ok (((items.filter keep).map g).reverse ++ l) := by
  intro items
  induction items with
  | nil => exact fun l => rfl
  | cons c items ih =>
    intro l
    rw [List.foldlM_cons]
    cases here : keep c with
    | true =>
      rw [kept l c here, List.filter_cons_of_pos here, List.map_cons, List.reverse_cons,
        List.append_assoc]
      exact ih (g c :: l)
    | false =>
      rw [left l c here, List.filter_cons_of_neg (by simp [here])]
      exact ih l

/-- Lists agree before and after the last occurrence of an entry. -/
theorem append_cons_inj {γ : Type} {c : γ} {l m d e : List γ} (hd : c ∉ d) (he : c ∉ e)
    (same : l ++ c :: d = m ++ c :: e) : l = m ∧ d = e := by
  rcases List.append_eq_append_iff.mp same with ⟨rest, front, back⟩ | ⟨rest, front, back⟩
  all_goals
    cases rest with
    | nil =>
      rw [List.append_nil] at front
      rw [List.nil_append, List.cons.injEq] at back
      simp [front, back.2]
    | cons b rest =>
      rw [List.cons_append, List.cons.injEq] at back
      simp_all

end

/-! ### The name table -/

namespace Schedule

variable {ws : Workspace} {order : List NodeRef} {s : Schedule} {names : List (String × Slot)}

/-- Entering a name for another slot leaves the slots of other names. -/
theorem lookup_map_replace (names : List (String × Slot)) (name x : String) (r : Slot) :
    (names.map fun p => if p.1 == name then (name, r) else p).lookup x =
      if x = name then (names.lookup x).map fun _ => r else names.lookup x := by
  induction names with
  | nil => simp
  | cons p names ih =>
    obtain ⟨y, q⟩ := p
    rw [List.map_cons]
    by_cases here : y = name
    · subst here
      by_cases same : x = y
      · simp [same]
      · simpa [List.lookup_cons, beq_false_of_ne same, same] using ih
    · have kept : (if ((y, q) : String × Slot).1 == name then (name, r) else (y, q)) = (y, q) := by
        simp [here]
      rw [kept, List.lookup_cons, List.lookup_cons, ih]
      by_cases same : x = y
      · simp [same, here]
      · simp [beq_false_of_ne same]

theorem lookup_enterName (names : List (String × Slot)) (name x : String) (r : Slot) :
    (enterName names name r).lookup x = if x = name then some r else names.lookup x := by
  unfold enterName
  split
  next known =>
    rw [lookup_map_replace]
    split
    next eq =>
      subst eq
      obtain ⟨q, found⟩ : ∃ q, names.lookup x = some q := by
        refine Option.ne_none_iff_exists'.mp fun none => ?_
        obtain ⟨p, hp, same⟩ := List.any_eq_true.mp known
        have other := List.lookup_eq_none_iff.mp none p hp
        simp only [beq_iff_eq] at same
        simp [same] at other
      rw [found]
      rfl
    next => rfl
  next new =>
    rw [List.lookup_append]
    split
    next eq =>
      subst eq
      have none : names.lookup x = none := by
        refine List.lookup_eq_none_iff.mpr fun p hp => ?_
        have other : p.1 ≠ x := fun eq => new (List.any_eq_true.mpr ⟨p, hp, beq_iff_eq.mpr eq⟩)
        simpa using other.symm
      rw [none]
      simp
    next ne =>
      have apart : [(name, r)].lookup x = none := by
        rw [List.lookup_cons, beq_false_of_ne ne]
        rfl
      rw [apart, Option.or_none]

/-- A name stands for the slot that was entered last under it. -/
theorem lookup_foldl (entries : List (String × Slot)) (names : List (String × Slot)) (x : String) :
    (entries.foldl (fun names p => enterName names p.1 p.2) names).lookup x =
      (entries.reverse.lookup x).or (names.lookup x) := by
  induction entries generalizing names with
  | nil => simp
  | cons p entries ih =>
    obtain ⟨y, r⟩ := p
    rw [List.foldl_cons, ih, List.reverse_cons, List.lookup_append, Option.or_assoc, lookup_enterName]
    by_cases same : x = y
    · simp [same]
    · have apart : [(y, r)].lookup x = none := by
        rw [List.lookup_cons, beq_false_of_ne same]
        rfl
      rw [apart, Option.none_or, if_neg same]

/-- The names that are entered, in order, with their slots: those of the slots, and then those of the
nodes. -/
def entries (s : Schedule) (ws : Workspace) (order : List NodeRef) : List (String × Slot) :=
  s.slots.map (fun info => (info.name, info.index)) ++
    order.map fun n => (Error.shownName (ws.name n), s.slotFor ws n)

/-- Nodes enter their names for the slots that they stand for. -/
theorem eq_of_foldlM_enterName {l : Layout}
    (slot : ∀ n r, l.slotOf ws n = .ok r → r = s.slotFor ws n) {after : List (String × Slot)}
    (run : order.foldlM (fun names n => do
        return enterName names (Error.shownName (ws.name n)) (← l.slotOf ws n)) names =
      (Except.ok after : Except Error _)) :
    after = (order.map fun n => (Error.shownName (ws.name n), s.slotFor ws n)).foldl
      (fun names p => enterName names p.1 p.2) names := by
  induction order generalizing names with
  | nil =>
    cases run
    rfl
  | cons n order ih =>
    rw [List.foldlM_cons] at run
    obtain ⟨middle, first, run⟩ := ok_of_bind run
    obtain ⟨r, found, first⟩ := ok_of_bind first
    cases first
    rw [slot n r found] at run
    exact ih run

/-- The names of an output's slots that no node stands for. -/
def madeName (x : String) (output : Nat) : String := x ++ ":" ++ toString output

/-- The text before the last colon and the number behind it can be read off. -/
theorem madeName_inj {x y : String} {j k : Nat} (same : madeName x j = madeName y k) :
    x = y ∧ j = k := by
  have digits : ∀ i : Nat, ':' ∉ Nat.toDigits 10 i := fun i mem =>
    absurd (Nat.isDigit_of_mem_toDigits (by decide) (by decide) mem) (by decide)
  have texts : x.toList ++ ':' :: Nat.toDigits 10 j = y.toList ++ ':' :: Nat.toDigits 10 k := by
    have lists := congrArg String.toList same
    simpa [madeName, Nat.toString_eq_ofList_toDigits] using lists
  obtain ⟨front, back⟩ := append_cons_inj (digits j) (digits k) texts
  refine ⟨String.toList_inj.mp front,
    Namer.numbered_inj (?_ : Namer.numbered x j = Namer.numbered x k)⟩
  rw [Namer.numbered, Namer.numbered, Nat.toString_eq_ofList_toDigits,
    Nat.toString_eq_ofList_toDigits, back]

/-- What the compiler looks selectors up in. -/
theorem selectors_eq (sound : ws.Sound) (order : List NodeRef) : Layout.selectors ws order =
    .ok ((order.filter fun n => (ws.node n).isSelector).map fun n =>
      (((ws.source n).1.handle, (ws.source n).2), n)).reverse := by
  refine (foldlM_filter_map (?_) (?_) order []).trans (by rw [List.append_nil])
  · intro l n selector
    cases role : (ws.node n).role with
    | selector k =>
      obtain ⟨p, args, -⟩ := sound.selector role
      simp only [role, Workspace.source, Node.parent, args]
      rfl
    | _ => simp [Node.isSelector, role] at selector
  · intro l n plain
    cases role : (ws.node n).role with
    | selector k => simp [Node.isSelector, role] at plain
    | _ => simp only [role]

theorem mem_selectors (sound : ws.Sound) {selectors : List ((Nat × Nat) × NodeRef)}
    (found : Layout.selectors ws order = .ok selectors) {key : Nat × Nat} {m : NodeRef} :
    (key, m) ∈ selectors ↔ m ∈ order ∧ (ws.node m).isSelector = true ∧
      ((ws.source m).1.handle, (ws.source m).2) = key := by
  obtain rfl := Except.ok.inj (found.symm.trans (selectors_eq sound order))
  rw [List.mem_reverse, List.mem_map]
  constructor
  · rintro ⟨_, mem, eq⟩
    obtain ⟨rfl, rfl⟩ := Prod.mk.inj eq
    exact ⟨(List.mem_filter.mp mem).1, (List.mem_filter.mp mem).2, rfl⟩
  · rintro ⟨hm, selector, rfl⟩
    exact ⟨m, List.mem_filter.mpr ⟨hm, selector⟩, rfl⟩

/-! ### Names in a compiled schedule -/

/-- How a slot is named: like a node that stands for it, or, if none does, like its operation with the
number of the output. -/
inductive NamesSlot (ws : Workspace) (order : List NodeRef) (s : Schedule) (info : SlotInfo) :
    Prop where
  | carried {n : NodeRef} : n ∈ order → s.slotFor ws n = info.index →
      ws.name n = some info.name → NamesSlot ws order s info
  | made {n : NodeRef} {x : String} : n ∈ order → ws.name n = some x → n.handle = info.handle →
      info.name = madeName x info.output → (∀ m ∈ order, s.slotFor ws m ≠ info.index) →
      NamesSlot ws order s info

/-- A slot is eclipsed if no node stands for it and a node, which then stands for another slot, carries
its name. -/
def Eclipsed (ws : Workspace) (order : List NodeRef) (s : Schedule) (info : SlotInfo) : Prop :=
  (∀ m ∈ order, s.slotFor ws m ≠ info.index) ∧ ∃ m ∈ order, ws.name m = some info.name

section
variable {id : Nat} {terminals : List NodeRef} {registry : Registry} {keep : List String}
  {naming : String} (ord : ws.Orders id terminals order)
  (run : ofOrder ws registry order terminals keep naming = .ok s)
include ord run

/-- The layout that the slots and the names of a schedule come from. -/
theorem layout_of_ofOrder : ∃ (selectors : List ((Nat × Nat) × NodeRef)) (marks : GradientMarks)
    (l : Layout) (retained : List Slot), Layout.selectors ws order = .ok selectors ∧
      l.Covers ws selectors marks order ∧
      s.slots = l.infos.map (SlotInfo.finished retained s.forward s.backward) ∧
      order.foldlM (fun names n => do
          return enterName names (Error.shownName (ws.name n)) (← l.slotOf ws n))
        (l.infos.foldl (fun names info => enterName names info.name info.index) []) =
          (.ok s.names : Except Error _) := by
  obtain ⟨marks, -, run⟩ := ok_of_bind run
  obtain ⟨selectors, hselectors, run⟩ := ok_of_bind run
  dsimp only at run
  obtain ⟨forward, -, run⟩ := ok_of_bind run
  obtain ⟨names, hnames, run⟩ := ok_of_bind run
  obtain ⟨retained, -, run⟩ := ok_of_bind run
  obtain ⟨terminalSlots, -, run⟩ := ok_of_bind run
  obtain ⟨release, -, run⟩ := ok_of_bind run
  cases run
  have covers := Layout.covers_foldl selectors marks ord
  exact ⟨selectors, marks, _, retained, hselectors, covers, rfl, hnames⟩

variable (sound : ws.Sound)
include sound

/-- A name stands for the slot that was entered last under it. -/
theorem lookup_names (x : String) : s.names.lookup x = (s.entries ws order).reverse.lookup x := by
  obtain ⟨selectors, marks, l, retained, -, cov, finished, table⟩ := layout_of_ofOrder ord run
  have slots : s.slots.map (fun info => (info.name, info.index)) =
      l.infos.map fun info => (info.name, info.index) := by
    rw [finished, List.map_map]
    rfl
  have entered : s.names = (s.entries ws order).foldl (fun names p => enterName names p.1 p.2) [] := by
    have slot : ∀ n r, l.slotOf ws n = .ok r → r = s.slotFor ws n := fun _ _ found =>
      (slotFor_of_slotOf cov finished sound found).1
    rw [eq_of_foldlM_enterName slot table, entries, List.foldl_append, slots]
    congr 1
    exact (List.foldl_map (f := fun info : SlotInfo => (info.name, info.index))
      (g := fun names p => enterName names p.1 p.2)).symm
  rw [entered, lookup_foldl, List.lookup_nil, Option.or_none]

/-- Every slot is named in one of the two ways. -/
theorem names_slot (named : ∀ n ∈ order, (ws.name n).isSome = true) {info : SlotInfo}
    (mem : info ∈ s.slots) : NamesSlot ws order s info := by
  obtain ⟨⟨_, comp⟩, -⟩ := compiled_of_ofOrder sound ord run
  obtain ⟨selectors, marks, l, retained, found, cov, finished, -⟩ := layout_of_ofOrder ord run
  obtain ⟨index, -⟩ := comp.slots info mem
  rw [finished] at mem
  obtain ⟨base, hbase, rfl⟩ := List.mem_map.mp mem
  obtain ⟨n, hn, plain, shape, slots, place, slot⟩ := cov.infos base hbase
  have handle : n.handle = base.handle := (congrArg SlotInfo.handle shape).symm
  have name : base.name = Layout.slotName ws selectors n base.output := congrArg SlotInfo.name shape
  have index' : s.slotAt n.handle base.output = base.index := by
    rw [handle]
    exact index.symm
  have bound : base.output < (ws.node n).slotCount := by
    obtain ⟨slots', place', length, -⟩ := cov.places n hn plain
    rw [place] at place'
    cases place'
    rw [← length]
    exact (List.getElem?_eq_some_iff.mp slot).1
  have shown : ∀ m ∈ order, ws.name m = some (Error.shownName (ws.name m)) := by
    intro m hm
    obtain ⟨x, hx⟩ := Option.isSome_iff_exists.mp (named m hm)
    rw [hx]
    rfl
  unfold Layout.slotName at name
  dsimp only at name
  split at name
  next first =>
    refine .carried hn ?_ ((shown n hn).trans (congrArg some name.symm))
    rw [slotFor, source_of_plain plain, ← first]
    exact index'
  next later =>
    split at name
    next m looked =>
      obtain ⟨hm, -, key⟩ := (mem_selectors sound found).mp (mem_of_lookup looked)
      obtain ⟨parent, output⟩ := Prod.mk.inj key
      refine .carried hm ?_ ((shown m hm).trans (congrArg some name.symm))
      rw [slotFor, parent, output]
      exact index'
    next none =>
      refine .made hn (shown n hn) handle name fun m hm same => ?_
      have source := comp.source_of_slotFor ord sound hn plain bound hm (same.trans index'.symm)
      have selector : (ws.node m).isSelector = true := by
        by_contra other
        rw [source_of_plain (by simpa using other)] at source
        exact later (congrArg Prod.snd source).symm
      have entry : ((n.handle, base.output), m) ∈ selectors :=
        (mem_selectors sound found).mpr ⟨hm, selector, by rw [source]⟩
      simpa using List.lookup_eq_none_iff.mp none _ entry

section
variable (named : ∀ n ∈ order, (ws.name n).isSome = true) (distinct : ws.duplicateNames order = [])
include named distinct

/-- The name of a node stands for the slot of its value. -/
theorem lookup_node {n : NodeRef} {x : String} (hn : n ∈ order) (name : ws.name n = some x) :
    s.names.lookup x = some (s.slotFor ws n) := by
  have nodes : (order.map fun n => (Error.shownName (ws.name n), s.slotFor ws n)).reverse.lookup x =
      some (s.slotFor ws n) := by
    refine lookup_of_unique ?_ fun r mem => ?_
    · exact List.mem_reverse.mpr (List.mem_map.mpr ⟨n, hn, by rw [name]; rfl⟩)
    · obtain ⟨m, hm, eq⟩ := List.mem_map.mp (List.mem_reverse.mp mem)
      obtain ⟨y, hy⟩ := Option.isSome_iff_exists.mp (named m hm)
      simp only [hy, Error.shownName, Option.getD_some, Prod.mk.injEq] at eq
      obtain ⟨rfl, rfl⟩ := eq
      rw [name_inj distinct hn hm name hy]
  rw [lookup_names ord run sound, entries, List.reverse_append, List.lookup_append, nodes,
    Option.some_or]

/-- The name of a slot that is not eclipsed stands for the slot. -/
theorem lookup_slot {info : SlotInfo} (mem : info ∈ s.slots)
    (visible : ¬ s.Eclipsed ws order info) : s.names.lookup info.name = some info.index := by
  cases names_slot ord run sound named mem with
  | carried hn slot name => rw [lookup_node ord run sound named distinct hn name, slot]
  | @made n x hn name handle made none =>
    obtain ⟨⟨_, comp⟩, -⟩ := compiled_of_ofOrder sound ord run
    have alone : ∀ m ∈ order, ws.name m ≠ some info.name := fun m hm carries =>
      visible ⟨none, m, hm, carries⟩
    have nodes : (order.map fun n => (Error.shownName (ws.name n), s.slotFor ws n)).reverse.lookup
        info.name = Option.none := by
      refine List.lookup_eq_none_iff.mpr fun p hp => ?_
      obtain ⟨m, hm, rfl⟩ := List.mem_map.mp (List.mem_reverse.mp hp)
      obtain ⟨y, hy⟩ := Option.isSome_iff_exists.mp (named m hm)
      have other : info.name ≠ y := fun eq => alone m hm (hy.trans (congrArg some eq.symm))
      simpa [hy, Error.shownName] using other
    have slots : (s.slots.map fun info => (info.name, info.index)).reverse.lookup info.name =
        some info.index := by
      refine lookup_of_unique ?_ fun r there => ?_
      · exact List.mem_reverse.mpr (List.mem_map.mpr ⟨info, mem, rfl⟩)
      · obtain ⟨other, mem', eq⟩ := List.mem_map.mp (List.mem_reverse.mp there)
        obtain ⟨same, rfl⟩ := Prod.mk.inj eq
        cases names_slot ord run sound named mem' with
        | carried hm _ carries => exact absurd (same ▸ carries) (alone _ hm)
        | @made m y hm name' handle' made' _ =>
          obtain ⟨rfl, output⟩ := madeName_inj (made'.symm.trans (same.trans made))
          obtain rfl := name_inj distinct hn hm name name'
          rw [(comp.slots info mem).1, (comp.slots other mem').1, ← handle, ← handle', output]
    rw [lookup_names ord run sound, entries, List.reverse_append, List.lookup_append, nodes,
      Option.none_or, slots]

end

end

end Schedule

namespace Workspace

variable {ws ws' : Workspace} {terminals : List Value} {options : CompileOptions} {s : Schedule}

/-- Whatever names nodes have: in a schedule, every node's name reaches the slot of its value; every
slot is named like a node that stands for it or like its operation with the number of the output; and
a slot is reached by its own name, and shares it with no other slot, unless it is eclipsed: unless no
node stands for it and some node carries its name. -/
theorem Built.slot_names (built : ws.Built) (exist : ∀ n ∈ nodesIn terminals, ws.Exists n)
    (run : ws.compile terminals options = (.ok s, ws')) :
    (∀ n ∈ s.nodes, ∃ x, ws'.name n = some x ∧ ∃ info ∈ s.slots, s.slotOf x = .ok info.index ∧
      info.handle = (ws'.source n).1.handle ∧ info.output = (ws'.source n).2) ∧
    (∀ info ∈ s.slots, s.NamesSlot ws' s.nodes info) ∧
    (∀ info ∈ s.slots, s.slotOf info.name = .ok info.index ↔ ¬ s.Eclipsed ws' s.nodes info) ∧
    ∀ a ∈ s.slots, ∀ b ∈ s.slots, a.name = b.name →
      a = b ∨ s.Eclipsed ws' s.nodes a ∨ s.Eclipsed ws' s.nodes b := by
  obtain ⟨id, order, now, ord, built', same, named, distinct, compiled, rfl⟩ :=
    built.compile_steps exist run
  have ord' := same.orders ord
  obtain ⟨⟨marks, comp⟩, -⟩ := Schedule.compiled_of_ofOrder built'.sound ord' compiled
  have reaches : ∀ {x : String} {r : Slot}, s.names.lookup x = some r → s.slotOf x = .ok r := by
    intro x r found
    rw [Schedule.slotOf, found]
  have node : ∀ {n : NodeRef} {x : String}, n ∈ order → now.name n = some x →
      s.slotOf x = .ok (s.slotFor now n) := fun hn name =>
    reaches (Schedule.lookup_node ord' compiled built'.sound named distinct hn name)
  have own : ∀ info ∈ s.slots, s.slotOf info.name = .ok info.index ↔ ¬ s.Eclipsed now order info := by
    intro info mem
    refine ⟨fun found ⟨unnamed, m, hm, carries⟩ => unnamed m hm ?_, fun visible => ?_⟩
    · exact Except.ok.inj ((node hm carries).symm.trans found)
    · exact reaches (Schedule.lookup_slot ord' compiled built'.sound named distinct mem visible)
  rw [comp.nodes]
  refine ⟨fun n hn => ?_, fun info mem => ?_, own, fun a ha b hb eq => ?_⟩
  · obtain ⟨x, name⟩ := Option.isSome_iff_exists.mp (named n hn)
    obtain ⟨info, mem, index, -, output, describes⟩ := comp.info_of_node ord' built'.sound hn
    exact ⟨x, name, info, mem, index ▸ node hn name, describes.handle, output⟩
  · cases Schedule.names_slot ord' compiled built'.sound named mem with
    | carried hn slot name => exact .carried hn slot name
    | made hn name handle made unnamed => exact .made hn name handle made unnamed
  · by_contra apart
    obtain ⟨ne, seena, seenb⟩ := by simpa only [not_or] using apart
    have first := (own a ha).mpr seena
    have second := (own b hb).mpr seenb
    rw [eq, second] at first
    exact ne (comp.info_unique ha hb (Except.ok.inj first).symm)

/-! ### An operation with two outputs -/

/-- The graph of an operation `a` with two outputs, of the input `x`. -/
def forked : Workspace :=
  let ws := ({} : Workspace).addGraph.1
  let ws := ws.setGraph ((ws.graph 0).input (some "x") false false).1
  match ws.applyIn 0 "neg" [.node ⟨0, 0⟩] [] { outputs := some 2, name := some "a" } with
  | .ok (ws, _) => ws
  | .error _ => ws

/-- The same with a further input, which is called like the second output. -/
def shadowed : Workspace :=
  forked.setGraph ((forked.graph 0).input (some "a:1") false false).1

theorem shadowed_built : shadowed.Built := by
  have start := (Workspace.Built.empty).addGraph.input 0 (some "x") false false
  have built : forked.Built := by
    unfold forked
    dsimp only
    split
    next call =>
      refine start.apply (fun n mem => ?_) call
      obtain rfl : n = ⟨0, 0⟩ := by simpa using mem
      exact ⟨_, rfl, by decide⟩
    next => exact start
  exact built.input 0 (some "a:1") false false

theorem shadowed_exists {terminals : List Value}
    (small : ∀ n ∈ nodesIn terminals, n.graph = 0 ∧ n.handle < 4) :
    ∀ n ∈ nodesIn terminals, shadowed.Exists n := by
  intro n mem
  obtain ⟨graph, bound⟩ := small n mem
  obtain ⟨_, k⟩ := n
  cases graph
  exact exists_of_lt_size bound

/-- Whether compiling succeeds with a schedule that has a property. -/
def compiles (ws : Workspace) (terminals : List Value) (p : Schedule → Bool) : Bool :=
  match ws.compile terminals with
  | (.ok s, _) => p s
  | (.error _, _) => false

theorem of_compiles {p : Schedule → Bool} (h : ws.compiles terminals p = true) :
    ∃ s now, ws.compile terminals = (.ok s, now) ∧ p s = true := by
  unfold compiles at h
  split at h
  next s now run => exact ⟨s, now, run, h⟩
  next => cases h

/-- Only the operation is compiled, and its second output is reached by name. -/
theorem slot_names_forked : ∃ s now, shadowed.compile [.node ⟨0, 1⟩] = (.ok s, now) ∧
    s.slots.map (·.name) = ["x", "a", "a:1"] ∧
    (∀ n ∈ s.nodes, ∃ x, now.name n = some x ∧ ∃ info ∈ s.slots, s.slotOf x = .ok info.index ∧
      info.handle = (now.source n).1.handle ∧ info.output = (now.source n).2) ∧
    ∀ info ∈ s.slots, s.slotOf info.name = .ok info.index ↔ ¬ s.Eclipsed now s.nodes info := by
  have check : shadowed.compiles [.node ⟨0, 1⟩]
      (fun s => s.slots.map (·.name) == ["x", "a", "a:1"]) = true := by cbv
  obtain ⟨s, now, run, names⟩ := of_compiles check
  have exist : ∀ n ∈ nodesIn [.node ⟨0, 1⟩], shadowed.Exists n :=
    shadowed_exists (by simp [nodesIn, Value.node?])
  obtain ⟨nodes, -, own, -⟩ := shadowed_built.slot_names exist run
  exact ⟨s, now, run, beq_iff_eq.mp names, nodes, own⟩

/-- With the further input two slots go by one name, which reaches the later. -/
theorem slot_names_shadowed : ∃ s now,
    shadowed.compile [.node ⟨0, 1⟩, .node ⟨0, 3⟩] = (.ok s, now) ∧
      s.slots.map (fun info => (info.index, info.name)) =
        [(0, "x"), (1, "a"), (2, "a:1"), (3, "a:1")] ∧ s.slotOf "a:1" = .ok 3 := by
  have check : shadowed.compiles [.node ⟨0, 1⟩, .node ⟨0, 3⟩] (fun s =>
      s.slots.map (fun info => (info.index, info.name)) ==
        [(0, "x"), (1, "a"), (2, "a:1"), (3, "a:1")] &&
      s.names.lookup "a:1" == some 3) = true := by cbv
  obtain ⟨s, now, run, check⟩ := of_compiles check
  simp only [Bool.and_eq_true, beq_iff_eq] at check
  obtain ⟨slots, found⟩ := check
  exact ⟨s, now, run, slots, by rw [Schedule.slotOf, found]⟩

end Workspace

end Backprop
