import Backprop.Proofs.Forward
/-!
# What a pass starts from

Before the first instruction the table is emptied but for the parameters, and every input is bound.

* `Net.stagedValue` is the value that an input is to be bound to, `Net.arrived` that value on the
  device.
* `leads_prepare`: the preparation of a pass succeeds exactly when the net is `Ready` for it, and
  `Prepared` says what every slot holds then.
-/

namespace Backprop

namespace Net

variable {s : Schedule} {net net' : Net}

/-- The value that waits for an input when more inputs were given: the last one given for its name,
or else the one that waited before. -/
def stagedValue (net : Net) (inputs : Keywords) (r : Slot) : Option Value :=
  ((inputs.reverse.find? fun p => net.schedule.inputSlots.lookup p.1 == some r).map (·.2)).or
    (net.pending.lookup r)

/-- An input's value where the input is placed. -/
def arrived (net : Net) (r : Slot) (v : Value) : Except Error Value :=
  if ((net.table.at? r).map (·.info.devicePlacement)).getD false && net.device != Device.host then
    net.transfer v net.device
  else .ok v

/-- Whether old derivatives can be read where they are kept, and every input has a value. -/
structure Fillable (accumulate : Bool) (waiting : Slot → Option Value) (net : Net) : Prop where
  readable : ∀ r, net.table.Has r → ∃ d, net.table.startDer accumulate r = .ok d
  bound : ∀ p ∈ net.schedule.inputSlots,
    ∃ v x, waiting p.2 = some v ∧ v.isNone = false ∧ net.arrived p.2 v = .ok x

/-- Everything that a pass asks of a net before its first instruction. -/
structure Ready (ws : Workspace) (options : PassOptions) (net : Net) : Prop where
  named : net.config.checkStructure = true → ∀ p ∈ net.compiledNames, ws.name p.1 = p.2
  known : ∀ p ∈ options.inputs, net.schedule.inputSlots.lookup p.1 ≠ none
  fillable : net.Fillable options.accumulate (net.stagedValue options.inputs)

/-- What the slots of a net hold before the first instruction of a pass. -/
structure Prepared (s : Schedule) (accumulate : Bool) (waiting : Slot → Option Value)
    (net net' : Net) : Prop where
  follows : Follows s net net'
  params : ∀ r, s.IsParam r → net'.table.valueAt r = net.table.valueAt r
  inputs : ∀ info ∈ s.slots, info.kind = .input → ∃ v, waiting info.index = some v ∧
    v.isNone = false ∧ net.arrived info.index v = .ok (net'.table.valueAt info.index)
  others : ∀ info ∈ s.slots, info.kind = .op → net'.table.valueAt info.index = .none
  ders : ∀ r, s.HasSlot r → net.table.startDer accumulate r = .ok (net'.table.derAt r)
  parts : ∀ r, s.HasSlot r → net'.table.partsAt r = []

/-! ### Waiting values -/

theorem lookup_filter_ne (q r : Slot) (ne : r ≠ q) :
    ∀ pending : List (Slot × Value), (pending.filter (·.1 != q)).lookup r = pending.lookup r := by
  intro pending
  induction pending with
  | nil => rfl
  | cons p pending ih =>
    obtain ⟨k, v⟩ := p
    by_cases here : k = q
    · have other : (r == k) = false := by simpa [here] using ne
      rw [List.filter_cons_of_neg (by simp [here]), ih, List.lookup_cons, other]
    · rw [List.filter_cons_of_pos (by simp [here]), List.lookup_cons, List.lookup_cons, ih]

theorem lookup_stage (pending : List (Slot × Value)) (q r : Slot) (v : Value) :
    ((q, v) :: pending.filter (·.1 != q)).lookup r = if r = q then some v else pending.lookup r := by
  by_cases eq : r = q
  · simp [eq]
  · rw [List.lookup_cons, if_neg eq, lookup_filter_ne q r eq, beq_eq_false_iff_ne.mpr eq]

theorem leads_setInputs (inputs : Keywords) (net : Net) : Leads (setInputs inputs) net
    (fun _ net' => (∃ pending, net' = { net with pending }) ∧
      (∀ r, net'.pending.lookup r = net.stagedValue inputs r) ∧
      ∀ p ∈ inputs, net.schedule.inputSlots.lookup p.1 ≠ none)
    (fun _ _ => ∃ p ∈ inputs, net.schedule.inputSlots.lookup p.1 = none) := by
  simp only [setInputs, leads_bind, leads_get]
  refine Leads.forM (fun seen net' => (∃ pending, net' = { net with pending }) ∧
    (∀ r, net'.pending.lookup r = net.stagedValue seen r) ∧
    ∀ p ∈ seen, net.schedule.inputSlots.lookup p.1 ≠ none) ?_ ?_
  · exact ⟨⟨net.pending, rfl⟩, fun r => rfl, by simp⟩
  · rintro seen ⟨name, v⟩ rest _ split ⟨⟨pending, rfl⟩, waits, known⟩
    dsimp only
    split
    next q found =>
      simp only [stage, leads_modify]
      refine ⟨⟨_, rfl⟩, fun r => ?_, fun p hp => ?_⟩
      · rw [lookup_stage, waits r, stagedValue, stagedValue, List.reverse_append,
          List.reverse_singleton, List.singleton_append, List.find?_cons, found]
        by_cases eq : r = q
        · simp [eq]
        · have other : (q == r) = false := by simpa using Ne.symm eq
          simp [eq, other]
      · rcases List.mem_append.mp hp with hp | hp
        · exact known p hp
        · rw [List.mem_singleton.mp hp, found]
          exact Option.some_ne_none q
    next none => exact ⟨(name, v), by simp [split], none⟩

/-! ### Binding -/

theorem leads_bindInput {r : Slot} (has : net.table.Has r) (v : Value) :
    Leads (bindInput r v) net
      (fun _ net' => ∃ x, net.arrived r v = .ok x ∧
        Recorded { net with table := net.table.setValue r x } net')
      (fun e _ => net.arrived r v = .error e) := by
  obtain ⟨x, hx⟩ := has.at?
  have arrived : net.arrived r v =
      if x.info.devicePlacement && net.device != Device.host then net.transfer v net.device
      else .ok v := by simp [Net.arrived, hx]
  rw [arrived]
  simp only [bindInput, leads_bind, leads_onTable, VariableTable.leads_lookup hx, leads_get]
  split
  next placed =>
    simp only [callTransfer, recordTransfer, leads_bind, leads_modify, leads_get, leads_ofExcept]
    cases moved : net.transfer v net.device with
    | error e => rfl
    | ok y =>
      simp only [leads_pure, leads_onTable, VariableTable.leads_putValue has]
      exact ⟨y, rfl, _, _, rfl⟩
  next =>
    simp only [leads_bind, leads_pure, leads_onTable, VariableTable.leads_putValue has]
    exact ⟨v, rfl, .refl _⟩

theorem arrived_eq (same : net.table.SameSlots net'.table) (device : net'.device = net.device)
    (transfer : net'.transfer = net.transfer) : net'.arrived = net.arrived := by
  funext r v
  have info := VariableTable.infoAt_sameSlots same r
  have placed := congrArg (fun o : Option SlotInfo => o.map (·.devicePlacement)) info
  simp only [Option.map_map, Function.comp_def] at placed
  simp only [arrived, placed, device, transfer]

/-- What binding the inputs in some slots changes. -/
structure Binds (pending : List (Slot × Value)) (slots : List Slot) (net net' : Net) : Prop where
  same : net.table.SameSlots net'.table
  device : net'.device = net.device
  transfer : net'.transfer = net.transfer
  bound : ∀ r ∈ slots, net.table.Has r → ∀ v, pending.lookup r = some v → v.isNone = false →
    net.arrived r v = .ok (net'.table.valueAt r)
  other : ∀ r, r ∉ slots → net.table.Has r → net'.table.valueAt r = net.table.valueAt r
  ders : ∀ r, net.table.Has r → net'.table.derAt r = net.table.derAt r
  parts : ∀ r, net.table.Has r → net'.table.partsAt r = net.table.partsAt r

/-- An input without a value is left as it is. -/
theorem Binds.skip {pending : List (Slot × Value)} {slots : List Slot} {q : Slot}
    (none : ¬ ∃ v, pending.lookup q = some v ∧ v.isNone = false)
    (binds : Binds pending slots net net') : Binds pending (q :: slots) net net' := by
  refine ⟨binds.same, binds.device, binds.transfer, fun r hr has v found some => ?_,
    fun r hr => binds.other r fun h => hr (List.mem_cons_of_mem _ h), binds.ders, binds.parts⟩
  rcases List.mem_cons.mp hr with rfl | hr
  · exact absurd ⟨v, found, some⟩ none
  · exact binds.bound r hr has v found some

/-- An input with a value is bound, and then the others are. -/
theorem Binds.cons {pending : List (Slot × Value)} {slots : List Slot} {q : Slot} {v x : Value}
    {mid : Net} (has : net.table.Has q) (found : pending.lookup q = some v)
    (arrived : net.arrived q v = .ok x) (table : mid.table = net.table.setValue q x)
    (device : mid.device = net.device) (transfer : mid.transfer = net.transfer)
    (binds : Binds pending slots mid net') : Binds pending (q :: slots) net net' := by
  have set := VariableTable.Revalued.setValue has x
  have same : net.table.SameSlots mid.table := by
    rw [table]
    exact set.same
  have has' : ∀ r, net.table.Has r → mid.table.Has r := fun r hr => (same.has r).mpr hr
  refine ⟨same.trans binds.same, binds.device.trans device, binds.transfer.trans transfer,
    fun r hr hasr w there some => ?_, fun r hr hasr => ?_, fun r hasr => ?_, fun r hasr => ?_⟩
  · by_cases again : r ∈ slots
    · rw [← arrived_eq same device transfer]
      exact binds.bound r again (has' r hasr) w there some
    · obtain rfl : r = q := by simpa [again] using hr
      rw [binds.other r again (has' r hasr), table, set.values r hasr, if_pos rfl]
      rw [found] at there
      cases there
      exact arrived
  · simp only [List.mem_cons, not_or] at hr
    rw [binds.other r hr.2 (has' r hasr), table, set.values r hasr, if_neg hr.1]
  · rw [binds.ders r (has' r hasr), table, set.ders r hasr]
  · rw [binds.parts r (has' r hasr), table, set.parts r hasr]

/-- Nothing is left out exactly if every input has a value. -/
theorem leads_bindEach (pending : List (Slot × Value)) :
    ∀ (l : List (String × Slot)) (net : Net), (∀ p ∈ l, net.table.Has p.2) → Runs s net →
      Leads (bindEach pending l) net
        (fun missing net' => Follows s net net' ∧ Binds pending (l.map (·.2)) net net' ∧
          (missing = [] ↔ ∀ p ∈ l, ∃ v, pending.lookup p.2 = some v ∧ v.isNone = false))
        (fun e _ => ∃ p ∈ l, ∃ v, pending.lookup p.2 = some v ∧ v.isNone = false ∧
          net.arrived p.2 v = .error e) := by
  intro l
  induction l with
  | nil =>
    intro net _ runs
    refine ⟨.refl runs, ⟨.refl _, rfl, rfl, by simp, fun _ _ _ => rfl, fun _ _ => rfl,
      fun _ _ => rfl⟩, by simp⟩
  | cons p l ih =>
    obtain ⟨name, q⟩ := p
    intro net has runs
    have here := has (name, q) (by simp)
    have later : ∀ p ∈ l, net.table.Has p.2 := fun p hp => has p (by simp [hp])
    have absent : (pending.lookup q = none ∨ pending.lookup q = some .none) →
        Leads (do return name :: (← bindEach pending l)) net
          (fun missing net' => Follows s net net' ∧
            Binds pending (((name, q) :: l).map (·.2)) net net' ∧
            (missing = [] ↔ ∀ p ∈ (name, q) :: l, ∃ v, pending.lookup p.2 = some v ∧
              v.isNone = false))
          (fun e _ => ∃ p ∈ (name, q) :: l, ∃ v, pending.lookup p.2 = some v ∧ v.isNone = false ∧
            net.arrived p.2 v = .error e) := by
      intro nothing
      have none : ¬ ∃ v, pending.lookup q = some v ∧ v.isNone = false := by
        rintro ⟨v, found, some⟩
        rcases nothing with h | h
        · rw [h] at found; cases found
        · rw [h] at found; cases found; cases some
      simp only [leads_bind, leads_pure]
      apply (ih net later runs).mono
      · rintro missing net' ⟨follows, binds, _⟩
        refine ⟨follows, binds.skip none, ?_⟩
        simp only [List.cons_ne_nil, false_iff]
        exact fun all => none (all (name, q) (by simp))
      · rintro e _ ⟨p, hp, rest⟩
        exact ⟨p, by simp [hp], rest⟩
    unfold bindEach
    split
    next h => exact absent (.inl h)
    next h => exact absent (.inr h)
    next _ v notNone found =>
      have some : v.isNone = false := by
        cases v <;> first | rfl | exact absurd rfl notNone
      simp only [leads_bind]
      apply (leads_bindInput here v).mono
      · rintro _ net₁ ⟨x, arrived, recorded⟩
        have set := VariableTable.Revalued.setValue here x
        have table : net₁.table = net.table.setValue q x := recorded.table
        have follows₁ : Follows s net net₁ :=
          (Follows.of_table runs set.same).trans
            (Follows.of_recorded (Follows.of_table runs set.same).runs recorded)
        have same₁ : net.table.SameSlots net₁.table := by rw [table]; exact set.same
        apply (ih net₁ (fun p hp => (same₁.has _).mpr (later p hp)) follows₁.runs).mono
        · rintro missing net' ⟨follows, binds, complete⟩
          refine ⟨follows₁.trans follows,
            .cons here found arrived table follows₁.device follows₁.transfer binds, ?_⟩
          rw [complete]
          constructor
          · intro all p hp
            rcases List.mem_cons.mp hp with rfl | hp
            · exact ⟨v, found, some⟩
            · exact all p hp
          · exact fun all p hp => all p (by simp [hp])
        · rintro e _ ⟨p, hp, w, there, some', failed⟩
          rw [arrived_eq same₁ follows₁.device follows₁.transfer] at failed
          exact ⟨p, by simp [hp], w, there, some', failed⟩
      · intro e _ failed
        exact ⟨(name, q), by simp, v, found, some, failed⟩

/-! ### Preparing a pass -/

theorem leads_checkStructure (ws : Workspace) (net : Net) : Leads (checkStructure ws) net
    (fun _ net' => net' = net ∧
      (net.config.checkStructure = true → ∀ p ∈ net.compiledNames, ws.name p.1 = p.2))
    (fun _ _ => ¬ (net.config.checkStructure = true → ∀ p ∈ net.compiledNames, ws.name p.1 = p.2)) := by
  simp only [checkStructure, leads_bind, leads_get]
  split
  next check =>
    apply (Leads.forM (l := net.compiledNames)
      (fun seen net' => net' = net ∧ ∀ p ∈ seen, ws.name p.1 = p.2)
      (E := fun _ _ => ¬ ∀ p ∈ net.compiledNames, ws.name p.1 = p.2) ⟨rfl, by simp⟩ ?_).mono
    · rintro _ _ ⟨rfl, all⟩
      exact ⟨rfl, fun _ => all⟩
    · exact fun _ _ some all => some (all check)
    · rintro seen ⟨n, name⟩ rest _ split ⟨rfl, named⟩
      dsimp only
      split
      next eq =>
        refine ⟨rfl, fun p hp => ?_⟩
        rcases List.mem_append.mp hp with hp | hp
        · exact named p hp
        · rw [List.mem_singleton.mp hp]
          exact eq
      next ne => exact fun all => ne (all (n, name) (by simp [split]))
  next plain => exact ⟨rfl, fun check => absurd check plain⟩

theorem leads_bindInputs (wf : s.WellFormed) (runs : Runs s net) :
    Leads (bindInputs) net
      (fun _ net' => Follows s net net' ∧
        Binds net.pending (s.inputSlots.map (·.2)) net net' ∧
        ∀ p ∈ s.inputSlots, ∃ v, net.pending.lookup p.2 = some v ∧ v.isNone = false)
      (fun _ _ => ¬ ∀ p ∈ s.inputSlots, ∃ v x, net.pending.lookup p.2 = some v ∧
        v.isNone = false ∧ net.arrived p.2 v = .ok x) := by
  obtain rfl : net.schedule = s := runs.schedule
  have has : ∀ p ∈ net.schedule.inputSlots, net.table.Has p.2 := by
    intro p hp
    obtain ⟨info, mem, _, rfl⟩ := wf.mem_inputSlots.mp hp
    exact (runs.has wf _).mpr ⟨info, mem, rfl⟩
  have emptied : Follows net.schedule net { net with pending := [] } :=
    ⟨⟨runs.schedule, runs.infos, runs.placed⟩, rfl, rfl, rfl, rfl, id⟩
  simp only [bindInputs, leads_bind, leads_get, leads_set]
  apply (leads_bindEach net.pending net.schedule.inputSlots { net with pending := [] } has emptied.runs).mono
  · rintro missing net' ⟨follows, binds, complete⟩
    cases missing with
    | nil =>
      exact ⟨emptied.trans follows, ⟨binds.same, binds.device, binds.transfer, binds.bound,
        binds.other, binds.ders, binds.parts⟩, complete.mp rfl⟩
    | cons name missing =>
      simp only [List.isEmpty_cons, Bool.not_false, if_true, leads_throw]
      intro all
      have none := complete.mpr fun p hp => by
        obtain ⟨v, _, found, some, _⟩ := all p hp
        exact ⟨v, found, some⟩
      cases none
  · rintro e _ ⟨p, hp, v, found, some, failed⟩ all
    obtain ⟨w, x, found', _, arrived⟩ := all p hp
    rw [found] at found'
    cases found'
    have failed' : net.arrived p.2 v = .error e := failed
    rw [arrived] at failed'
    cases failed'

/-- The table is emptied and filled again. -/
theorem leads_fill (wf : s.WellFormed) (runs : Runs s net) (accumulate : Bool) :
    Leads (do onTable (VariableTable.reset accumulate); bindInputs) net
      (fun _ net' => net.Fillable accumulate (fun r => net.pending.lookup r) ∧
        Prepared s accumulate (fun r => net.pending.lookup r) net net')
      (fun _ _ => ¬ net.Fillable accumulate fun r => net.pending.lookup r) := by
  simp only [leads_bind, leads_onTable]
  apply (VariableTable.leads_reset accumulate).mono
  · rintro _ table ⟨same, fresh⟩
    have reset := Follows.of_table runs same
    have arrived : ({ net with table } : Net).arrived = net.arrived := arrived_eq same rfl rfl
    apply (leads_bindInputs wf reset.runs).mono
    · rintro _ net' ⟨follows, binds, given⟩
      have hasT : ∀ r, s.HasSlot r → table.Has r := fun r => (reset.runs.has wf r).mpr
      have hasN : ∀ r, s.HasSlot r → net.table.Has r := fun r => (runs.has wf r).mpr
      have outside : ∀ info ∈ s.slots, info.kind ≠ .input →
          info.index ∉ s.inputSlots.map (·.2) := by
        intro info mem kind among
        obtain ⟨p, hp, index⟩ := List.mem_map.mp among
        obtain ⟨other, mem', input, rfl⟩ := wf.mem_inputSlots.mp hp
        rw [wf.info_unique mem' mem index] at input
        exact kind input
      have bound : ∀ info ∈ s.slots, info.kind = .input → ∃ v,
          net.pending.lookup info.index = some v ∧ v.isNone = false ∧
            net.arrived info.index v = .ok (net'.table.valueAt info.index) := by
        intro info mem kind
        have among := wf.mem_inputSlots.mpr ⟨info, mem, kind, rfl⟩
        obtain ⟨v, found, some⟩ := given _ among
        refine ⟨v, found, some, ?_⟩
        rw [← arrived]
        exact binds.bound _ (List.mem_map_of_mem among) (hasT _ ⟨info, mem, rfl⟩) v found some
      refine ⟨⟨?_, ?_⟩, reset.trans follows, ?_, bound, ?_, ?_, ?_⟩
      · exact fun r hr => ⟨_, (fresh r hr).der⟩
      · intro p hp
        rw [runs.schedule] at hp
        obtain ⟨info, mem, kind, rfl⟩ := wf.mem_inputSlots.mp hp
        obtain ⟨v, found, some, there⟩ := bound info mem kind
        exact ⟨v, _, found, some, there⟩
      · rintro _ ⟨info, mem, rfl, kind⟩
        have there : s.HasSlot info.index := ⟨info, mem, rfl⟩
        rw [binds.other _ (outside info mem (by rw [kind]; decide)) (hasT _ there),
          (fresh _ (hasN _ there)).value, runs.persistentAt wf mem, wf.persistent info mem, kind]
        rfl
      · intro info mem kind
        have there : s.HasSlot info.index := ⟨info, mem, rfl⟩
        rw [binds.other _ (outside info mem (by rw [kind]; decide)) (hasT _ there),
          (fresh _ (hasN _ there)).value, runs.persistentAt wf mem, wf.persistent info mem, kind]
        rfl
      · intro r hr
        rw [binds.ders r (hasT r hr)]
        exact (fresh r (hasN r hr)).der
      · intro r hr
        rw [binds.parts r (hasT r hr)]
        exact (fresh r (hasN r hr)).parts
    · intro _ _ unbound fillable
      refine unbound fun p hp => ?_
      rw [arrived]
      exact fillable.bound p (by rw [runs.schedule]; exact hp)
  · rintro e _ ⟨r, hr, failed⟩ fillable
    obtain ⟨d, read⟩ := fillable.readable r hr
    rw [read] at failed
    cases failed

/-- Preparing a pass succeeds if and only if the net is ready for it. -/
theorem leads_prepare (wf : s.WellFormed) (runs : Runs s net) (ws : Workspace)
    (options : PassOptions) : Leads (prepare ws options) net
      (fun _ net' => Ready ws options net ∧
        Prepared s options.accumulate (net.stagedValue options.inputs) net net')
      (fun _ _ => ¬ Ready ws options net) := by
  simp only [prepare, leads_bind]
  apply (leads_checkStructure ws net).mono _ fun _ _ bad ready => bad ready.named
  rintro _ t ⟨eq, named⟩
  obtain rfl : net = t := eq.symm
  have rest : ∀ pending : List (Slot × Value),
      (∀ r, pending.lookup r = net.stagedValue options.inputs r) →
      (∀ p ∈ options.inputs, net.schedule.inputSlots.lookup p.1 ≠ none) →
      Leads (do onTable (VariableTable.reset options.accumulate); bindInputs) { net with pending }
        (fun _ net' => Ready ws options net ∧
          Prepared s options.accumulate (net.stagedValue options.inputs) net
            { net' with dirty := false })
        (fun _ _ => ¬ Ready ws options net) := by
    intro pending waits known
    have runs' : Runs s { net with pending } := ⟨runs.schedule, runs.infos, runs.placed⟩
    have fill := leads_fill wf runs' options.accumulate
    simp only [waits] at fill
    apply fill.mono
    · rintro _ net' ⟨⟨readable, bound⟩, filled⟩
      have follows : Follows s net { net' with dirty := false } := by
        obtain ⟨⟨a, b, c⟩, d, e, f, g, h⟩ := filled.follows
        exact ⟨⟨a, b, c⟩, d, e, f, g, h⟩
      exact ⟨⟨named, known, readable, bound⟩, follows, filled.params, filled.inputs, filled.others,
        filled.ders, filled.parts⟩
    · exact fun _ _ bad ready => bad ⟨ready.fillable.readable, ready.fillable.bound⟩
  cases inputs : options.inputs with
  | nil =>
    have plain := rest net.pending (by simp [stagedValue, inputs]) (by simp [inputs])
    simpa only [List.isEmpty_nil, Bool.not_true, Bool.false_eq_true, if_false, leads_bind,
      leads_modify, inputs] using plain
  | cons p inputs' =>
    simp only [List.isEmpty_cons, Bool.not_false, if_true, leads_bind, leads_modify]
    rw [← inputs]
    apply (leads_setInputs options.inputs net).mono
    · rintro _ _ ⟨⟨pending, rfl⟩, waits, known⟩
      simpa only [leads_bind] using rest pending waits known
    · rintro _ _ ⟨p, hp, unknown⟩ ready
      exact ready.known p hp unknown

end Net

end Backprop
