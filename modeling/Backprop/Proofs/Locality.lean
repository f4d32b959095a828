import Mathlib
import Backprop.Proofs.Compilable
import Backprop.Proofs.SlotNames
/-!
# What a schedule is made of

A schedule depends on the nodes of its order and on nothing else in a workspace. Of its terminals it
matters which nodes they are, but not how often and in which order they are named.

* `Workspace.Alike`: two workspaces hold the same at some nodes; `Schedule.ofOrder_alike`: then the same
  schedule is made of an order among them.
* `Schedule.toward`: a schedule with other terminals of the same nodes; `Schedule.ofOrder_toward`: it is
  the schedule for these.
-/

namespace Backprop

theorem bind_congr_ok {α β ε : Type} {x : Except ε α} {f g : α → Except ε β}
    (h : ∀ a, x = .ok a → f a = g a) : x >>= f = x >>= g := by
  cases x with
  | error e => rfl
  | ok a => exact h a rfl

theorem foldlM_congr_mem {α β ε : Type} {f g : β → α → Except ε β} {l : List α}
    (h : ∀ a ∈ l, ∀ b, f b a = g b a) (b : β) : l.foldlM f b = l.foldlM g b := by
  induction l generalizing b with
  | nil => rfl
  | cons a l ih =>
    have rest : (fun b => l.foldlM f b) = fun b => l.foldlM g b :=
      funext (ih fun a ha => h a (by simp [ha]))
    rw [List.foldlM_cons, List.foldlM_cons, h a (by simp), rest]

/-- What a list grows by, one element after the other, stems from the elements. -/
theorem mem_of_foldlM {α β ε : Type} {f : List β → α → Except ε (List β)} {key : β → α}
    (step : ∀ l a next, f l a = .ok next → ∀ b ∈ next, b ∈ l ∨ key b = a) {l : List α} :
    ∀ {start result : List β}, l.foldlM f start = .ok result →
      ∀ b ∈ result, b ∈ start ∨ key b ∈ l := by
  induction l with
  | nil =>
    intro start result run b hb
    cases run
    exact .inl hb
  | cons a l ih =>
    intro start result run b hb
    rw [List.foldlM_cons] at run
    obtain ⟨next, first, run⟩ := ok_of_bind run
    rcases ih run b hb with mem | mem
    · exact (step start a next first b mem).imp_right fun eq => by simp [eq]
    · exact .inr (List.mem_cons_of_mem a mem)

/-- Nodes that are the same in two workspaces. -/
def Workspace.Alike (ws ws' : Workspace) (among : NodeRef → Prop) : Prop :=
  ∀ n, among n → ws'.node n = ws.node n

section
variable {ws ws' : Workspace} {among : NodeRef → Prop} (alike : ws.Alike ws' among) {n : NodeRef}
include alike

theorem Workspace.Alike.name (hn : among n) : ws'.name n = ws.name n := by
  rw [Workspace.name, alike n hn]
  rfl

theorem Workspace.Alike.inputs (hn : among n) : ws'.inputs n = ws.inputs n := by
  rw [Workspace.inputs, alike n hn]
  rfl

theorem GradientMarks.ofOrder_alike {order : List NodeRef} (inside : ∀ n ∈ order, among n)
    (marks : GradientMarks) :
    GradientMarks.ofOrder ws' marks order = GradientMarks.ofOrder ws marks order := by
  induction order generalizing marks with
  | nil => rfl
  | cons n order ih =>
    simp only [GradientMarks.ofOrder, alike n (inside n (by simp)),
      ih fun m hm => inside m (by simp [hm])]

theorem Layout.selectors_alike {order : List NodeRef} (inside : ∀ n ∈ order, among n) :
    Layout.selectors ws' order = Layout.selectors ws order :=
  foldlM_congr_mem (fun n hn _ => by simp only [alike n (inside n hn)]) []

omit alike in
/-- Selectors are looked up among the nodes of the order. -/
theorem Layout.mem_of_selectors {order : List NodeRef} {selectors : List ((Nat × Nat) × NodeRef)}
    (found : Layout.selectors ws order = .ok selectors) : ∀ p ∈ selectors, p.2 ∈ order := by
  unfold Layout.selectors at found
  refine fun p hp => (mem_of_foldlM (fun l n next first p hp => ?_) found p hp).resolve_left
    List.not_mem_nil
  dsimp only at first
  split at first
  · obtain ⟨parent, -, first⟩ := ok_of_bind first
    cases first
    exact (List.mem_cons.mp hp).symm.imp_right (congrArg Prod.snd)
  · cases first
    exact .inl hp

theorem Layout.slotOf_alike (l : Layout) (hn : among n) : l.slotOf ws' n = l.slotOf ws n := by
  simp only [Layout.slotOf, alike n hn]

theorem Layout.push_alike (l : Layout) {selectors : List ((Nat × Nat) × NodeRef)}
    (known : ∀ p ∈ selectors, among p.2) (marks : GradientMarks) (hn : among n) :
    l.push ws' selectors marks n = l.push ws selectors marks n := by
  have names : Layout.slotName ws' selectors n = Layout.slotName ws selectors n := by
    funext output
    simp only [Layout.slotName, alike.name hn]
    split
    · rfl
    · cases found : selectors.lookup (n.handle, output) with
      | none => rfl
      | some m => simp only [alike.name (known _ (mem_of_lookup found))]
  simp only [Layout.push, alike n hn, names]

theorem Layout.foldl_push_alike {order : List NodeRef} (inside : ∀ n ∈ order, among n)
    {selectors : List ((Nat × Nat) × NodeRef)} (known : ∀ p ∈ selectors, among p.2)
    (marks : GradientMarks) (l : Layout) :
    order.foldl (fun l n => l.push ws' selectors marks n) l =
      order.foldl (fun l n => l.push ws selectors marks n) l :=
  List.foldl_ext _ _ _ fun l n hn => l.push_alike alike known marks (inside n hn)

namespace Schedule

theorem resolve_alike (layout : Layout) {v : Value} (arg : ∀ m, v = .node m → among m) :
    resolve ws' layout v = resolve ws layout v := by
  cases v with
  | node m => simp only [resolve, layout.slotOf_alike alike (arg m rfl)]
  | _ => rfl

/-- An instruction depends on its node and on the inputs of the node. -/
theorem instruction_alike (registry : Registry) (layout : Layout) (marks : GradientMarks) (index : Nat)
    (hn : among n) (inputs : ∀ i ∈ ws.inputs n, among i) :
    instruction ws' registry layout marks index n = instruction ws registry layout marks index n := by
  have positional : ∀ v ∈ (ws.node n).args, ∀ m, v = .node m → among m := fun v hv m eq =>
    inputs m (List.mem_append_left _ (List.mem_filterMap.mpr ⟨v, hv, by rw [eq]; rfl⟩))
  have named : ∀ p ∈ (ws.node n).kwargs, ∀ m, p.2 = .node m → among m := fun p hp m eq =>
    inputs m (List.mem_append_right _ (List.mem_filterMap.mpr ⟨p, hp, congrArg Value.node? eq⟩))
  have args : (ws.node n).args.mapM (resolve ws' layout) = (ws.node n).args.mapM (resolve ws layout) :=
    mapM_congr_mem fun v hv => resolve_alike alike layout (positional v hv)
  have positions : gradientPositions ws' layout marks (ws.node n).args =
      gradientPositions ws layout marks (ws.node n).args := by
    refine foldlM_congr_mem (fun p hp l => ?_) []
    obtain ⟨v, position⟩ := p
    have arg := positional v (List.fst_mem_of_mem_zipIdx hp)
    cases v with
    | node m => simp only [layout.slotOf_alike alike (arg m rfl)]
    | _ => rfl
  have kwargs : ((ws.node n).kwargs.mapM fun p => do return (p.1, ← resolve ws' layout p.2)) =
      (ws.node n).kwargs.mapM fun p => do return (p.1, ← resolve ws layout p.2) :=
    mapM_congr_mem fun p hp => by rw [resolve_alike alike layout (named p hp)]
  simp only [instruction, alike n hn, args, kwargs, positions]

theorem retainedSlots_alike (layout : Layout) (names : List (String × Slot)) {terminals : List NodeRef}
    (inside : ∀ t ∈ terminals, among t) (keep : List String) :
    retainedSlots ws' layout names terminals keep = retainedSlots ws layout names terminals keep := by
  have each : (terminals.mapM fun t =>
      if (ws'.node t).isSelector then (do return [← layout.slotOf ws' t]) else layout.slotsOf t.handle) =
      terminals.mapM fun t =>
        if (ws.node t).isSelector then (do return [← layout.slotOf ws t])
        else layout.slotsOf t.handle :=
    mapM_congr_mem fun t ht => by
      simp only [alike t (inside t ht), layout.slotOf_alike alike (inside t ht)]
  simp only [retainedSlots, each]

/-- Nodes that are the same have the same schedule. -/
theorem ofOrder_alike (registry : Registry) {order terminals : List NodeRef} (keep : List String)
    (naming : String) (inside : ∀ n ∈ order, among n)
    (inputs : ∀ n ∈ order, ∀ i ∈ ws.inputs n, among i) (ends : ∀ t ∈ terminals, among t) :
    ofOrder ws' registry order terminals keep naming =
      ofOrder ws registry order terminals keep naming := by
  have operations : (order.filter fun n => (ws'.node n).isOperation) =
      order.filter fun n => (ws.node n).isOperation :=
    List.filter_congr fun n hn => by rw [alike n (inside n hn)]
  unfold ofOrder
  rw [GradientMarks.ofOrder_alike alike inside, Layout.selectors_alike alike inside, operations]
  refine bind_congr_ok fun marks _ => bind_congr_ok fun selectors found => ?_
  have known : ∀ p ∈ selectors, among p.2 := fun p hp => inside _ (Layout.mem_of_selectors found p hp)
  dsimp only
  rw [Layout.foldl_push_alike alike inside known]
  generalize order.foldl (fun (l : Layout) n => l.push ws selectors marks n) {} = l
  have names : ∀ start, (order.foldlM (fun names n => do
        return enterName names (Error.shownName (ws'.name n)) (← l.slotOf ws' n)) start :
          Except Error (List (String × Slot))) =
      order.foldlM (fun names n => do
        return enterName names (Error.shownName (ws.name n)) (← l.slotOf ws n)) start :=
    foldlM_congr_mem fun n hn _ => by
      rw [alike.name (inside n hn), l.slotOf_alike alike (inside n hn)]
  have slots : terminals.mapM (l.slotOf ws') = terminals.mapM (l.slotOf ws) :=
    mapM_congr_mem fun t ht => l.slotOf_alike alike (ends t ht)
  have forward : ((order.filter fun n => (ws.node n).isOperation).zipIdx.mapM fun p =>
        instruction ws' registry l marks p.2 p.1) =
      (order.filter fun n => (ws.node n).isOperation).zipIdx.mapM fun p =>
        instruction ws registry l marks p.2 p.1 :=
    mapM_congr_mem fun p hp => by
      have hn := List.mem_of_mem_filter (List.fst_mem_of_mem_zipIdx hp)
      exact instruction_alike alike registry l marks p.2 (inside _ hn) (inputs _ hn)
  rw [forward]
  simp only [names, slots, retainedSlots_alike alike l _ ends]

end Schedule

end

/-! ### Terminals -/

/-- What the lists that a function gives for some elements contain depends on which elements they are. -/
theorem mem_flatten_of_mapM {α β ε : Type} {f : α → Except ε (List β)} {l : List α}
    {lists : List (List β)} (run : l.mapM f = .ok lists) (b : β) :
    b ∈ lists.flatten ↔ ∃ a ∈ l, ∃ list, f a = .ok list ∧ b ∈ list := by
  have each := forall₂_of_mapM run
  rw [List.mem_flatten]
  constructor
  · rintro ⟨list, mem, hb⟩
    obtain ⟨a, ha, made⟩ := forall₂_mem_right each list mem
    exact ⟨a, ha, list, made, hb⟩
  · rintro ⟨a, ha, list, made, hb⟩
    obtain ⟨list', mem, made'⟩ := forall₂_mem_left each a ha
    obtain rfl : list = list' := Except.ok.inj (made.symm.trans made')
    exact ⟨list, mem, hb⟩

namespace Schedule

variable {ws : Workspace} {registry : Registry} {id : Nat} {order terminals terminals' : List NodeRef}
  {keep : List String} {naming : String} {s : Schedule}

/-- A schedule with the slots of other terminals, and another naming mode. -/
def toward (s : Schedule) (ws : Workspace) (terminals : List NodeRef) (naming : String) : Schedule :=
  { s with terminals := terminals.map (s.slotFor ws), naming }

/-- The slots that are kept are the same for the same terminals. -/
theorem retainedSlots_same {l : Layout} {names : List (String × Slot)} {retained : List Slot}
    (run : retainedSlots ws l names terminals keep = .ok retained)
    (same : ∀ t, t ∈ terminals' ↔ t ∈ terminals) :
    ∃ retained', retainedSlots ws l names terminals' keep = .ok retained' ∧
      ∀ r, r ∈ retained' ↔ r ∈ retained := by
  obtain ⟨outs, houts, run⟩ := ok_of_bind run
  obtain ⟨named, hnamed, run⟩ := ok_of_bind run
  cases run
  obtain ⟨outs', houts'⟩ := mapM_isOk fun t ht =>
    (forall₂_mem_left (forall₂_of_mapM houts) t ((same t).mp ht)).imp fun _ => And.right
  refine ⟨_, bind_eq_of_ok houts' (bind_eq_of_ok hnamed rfl), fun r => ?_⟩
  rw [List.mem_append, List.mem_append, mem_flatten_of_mapM houts', mem_flatten_of_mapM houts]
  simp only [same]

/-- The schedule for the same terminals, named otherwise, differs from the one there is in its list of
terminals, and in the mode. -/
theorem ofOrder_toward (sound : ws.Sound) (ord : ws.Orders id terminals order)
    (run : ofOrder ws registry order terminals keep naming = .ok s)
    (same : ∀ t, t ∈ terminals' ↔ t ∈ terminals) (naming' : String) :
    ofOrder ws registry order terminals' keep naming' = .ok (s.toward ws terminals' naming') := by
  obtain ⟨marks, hmarks, run⟩ := ok_of_bind run
  obtain ⟨selectors, hselectors, run⟩ := ok_of_bind run
  dsimp only at run
  obtain ⟨forward, hforward, run⟩ := ok_of_bind run
  obtain ⟨names, hnames, run⟩ := ok_of_bind run
  obtain ⟨retained, hretained, run⟩ := ok_of_bind run
  obtain ⟨slots, hslots, run⟩ := ok_of_bind run
  obtain ⟨release, hrelease, run⟩ := ok_of_bind run
  have cov := Layout.covers_foldl selectors marks ord
  -- But for their own slots, terminals enter through the slots that are kept, of which the set matters.
  obtain ⟨retained', hretained', members⟩ := retainedSlots_same hretained same
  have kept : SlotInfo.finished retained' = SlotInfo.finished retained := by
    funext forward backward info
    have contains : retained'.contains info.index = retained.contains info.index := by
      rw [Bool.eq_iff_iff, List.contains_iff_mem, List.contains_iff_mem, members]
    rw [SlotInfo.finished, SlotInfo.finished, contains]
  let l := order.foldl (fun l n => l.push ws selectors marks n) ({} : Layout)
  have finished : s.slots = l.infos.map (SlotInfo.finished retained s.forward s.backward) := by
    cases run
    rfl
  have slot : ∀ t ∈ terminals', l.slotOf ws t = .ok (s.slotFor ws t) := by
    intro t ht
    obtain ⟨r, -, found⟩ := forall₂_mem_left (forall₂_of_mapM hslots) t ((same t).mp ht)
    rw [found, (slotFor_of_slotOf cov finished sound found).1]
  cases run
  refine bind_eq_of_ok hmarks (bind_eq_of_ok hselectors (bind_eq_of_ok hforward (bind_eq_of_ok hnames
    (bind_eq_of_ok hretained' (bind_eq_of_ok (mapM_eq_ok slot) (bind_eq_of_ok (a := release) ?_ ?_))))))
  · change ReleasePlan.ofSlots (l.infos.map (SlotInfo.finished retained' _ _)) _ _ = _
    rw [kept]
    exact hrelease
  · change Except.ok (Schedule.mk order forward _ (l.infos.map (SlotInfo.finished retained' _ _)) names _
      release naming') = _
    rw [kept]
    rfl

end Schedule

end Backprop
