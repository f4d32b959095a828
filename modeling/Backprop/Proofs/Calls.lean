import Backprop.Net.Build
import Backprop.Net.Training
import Backprop.Proofs.Valuation
/-!
# What calls keep

* `Keeps I m`: whatever running `m` ends in, a result or a failure, has the property `I` if the
  start had it.
* `Net.Call.keeps`: every call on a net keeps what is `Net.Stable`, also while observers act on it.
* `Net.stable_serves`: the net runs its schedule; `Net.stable_idle`: no pass is left running.
-/

namespace Backprop

section
variable {ε σ α β : Type} {I : σ → Prop}

/-- Whether a change keeps a property of the state, also when it fails. -/
def Keeps (I : σ → Prop) (m : EStateM ε σ α) : Prop :=
  ∀ s, I s → Leads m s (fun _ t => I t) fun _ t => I t

/-- Whether a change gives the state another property, also when it fails. -/
def Turns (I J : σ → Prop) (m : EStateM ε σ α) : Prop :=
  ∀ s, I s → Leads m s (fun _ t => J t) fun _ t => J t

/-- What comes after keeps the property. -/
theorem Turns.bind {J : σ → Prop} {m : EStateM ε σ α} {f : α → EStateM ε σ β} (h : Turns I J m)
    (h' : ∀ a, Keeps J (f a)) : Turns I J (m >>= f) := fun s hs =>
  (leads_bind m f s _ _).mpr ((h s hs).mono (fun a t ht => h' a t ht) fun _ _ ht => ht)

namespace Keeps

theorem pure (a : α) : Keeps I (pure a : EStateM ε σ α) := fun _ h => h

theorem throw (e : ε) : Keeps I (throw e : EStateM ε σ α) := fun _ h => h

theorem get : Keeps I (get : EStateM ε σ σ) := fun _ h => h

theorem modify {f : σ → σ} (h : ∀ s, I s → I (f s)) : Keeps I (modify f : EStateM ε σ PUnit) :=
  fun s hs => (leads_modify f s _ _).mpr (h s hs)

theorem bind {m : EStateM ε σ α} {f : α → EStateM ε σ β} (h : Keeps I m)
    (h' : ∀ a, Keeps I (f a)) : Keeps I (m >>= f) := fun s hs =>
  (leads_bind m f s _ _).mpr ((h s hs).mono (fun a t ht => h' a t ht) fun _ _ ht => ht)

/-- What comes after a failure does not matter. -/
theorem throw_bind (e : ε) (f : α → EStateM ε σ β) : Keeps I (MonadExcept.throw e >>= f) :=
  fun _ h => h

theorem forM {f : α → EStateM ε σ PUnit} {l : List α} (h : ∀ a ∈ l, Keeps I (f a)) :
    Keeps I (l.forM f) := fun _ hs =>
  Leads.forM (fun _ t => I t) hs fun _ a _ t split ht => h a (by rw [split]; simp) t ht

theorem mapM {f : α → EStateM ε σ β} : ∀ {l : List α}, (∀ a ∈ l, Keeps I (f a)) →
    Keeps I (l.mapM f) := by
  intro l
  induction l with
  | nil =>
    intro _
    rw [List.mapM_nil]
    exact .pure []
  | cons a l ih =>
    intro h
    rw [List.mapM_cons]
    refine .bind (h a (by simp)) fun b => .bind (ih fun x hx => h x (by simp [hx])) fun bs => ?_
    exact .pure _

end Keeps

end

/-! ### Tables -/

namespace VariableTable

variable {t : VariableTable} {slot : Slot}

theorem keeps_ofExcept {α : Type} (x : Except Error α) : Keeps t.SameSlots (ofExcept x) := by
  cases x with
  | ok a => exact .pure a
  | error e => exact .throw e

theorem keeps_lookup (slot : Slot) : Keeps t.SameSlots (lookup slot) := by
  refine .bind .get fun t => ?_
  split
  · exact .pure _
  · exact .throw _

theorem keeps_update {f : Variable → Variable} (h : ∀ v, (f v).info = v.info) :
    Keeps t.SameSlots (update slot f) := by
  refine .bind (keeps_lookup slot) fun _ => ?_
  exact .modify fun t' same => same.trans (sameSlots_modify h)

theorem keeps_putValue (x : Value) : Keeps t.SameSlots (putValue slot x) := keeps_update fun _ => rfl

theorem keeps_setDer (d : Value) : Keeps t.SameSlots (setDer slot d) := keeps_update fun _ => rfl

theorem keeps_getValue : Keeps t.SameSlots (getValue slot) :=
  .bind (keeps_lookup slot) fun _ => .pure _

theorem keeps_getDer : Keeps t.SameSlots (getDer slot) := by
  refine .bind (keeps_lookup slot) fun v => ?_
  split
  · exact .pure _
  · refine .bind .get fun _ => .bind (keeps_ofExcept _) fun _ => ?_
    exact .bind (keeps_update fun _ => rfl) fun _ => .pure _

theorem keeps_accumulate (d : Value) (position : Option Position) :
    Keeps t.SameSlots (accumulate slot d position) := by
  unfold accumulate
  split
  · exact keeps_update fun _ => rfl
  · refine .bind keeps_getDer fun _ => .bind .get fun _ => .bind (keeps_ofExcept _) fun _ => ?_
    exact keeps_update fun _ => rfl

theorem keeps_resetSlot (keep : Bool) : Keeps t.SameSlots (resetSlot keep slot) := by
  refine .bind (keeps_lookup slot) fun _ => ?_
  split
  · exact .bind (keeps_putValue _) fun _ => keeps_setDer _
  · split
    · exact .bind keeps_getDer fun _ => .pure _
    · exact keeps_setDer _

theorem keeps_reset (keep : Bool) : Keeps t.SameSlots (reset keep) :=
  .bind .get fun _ => .forM fun _ _ => keeps_resetSlot keep

end VariableTable

namespace Net

/-- What every call keeps: the net runs its schedule, with the addition and the choices that it was
built with. -/
structure Serves (s : Schedule) (base net : Net) : Prop where
  runs : Runs s net
  addition : net.table.addition = base.table.addition
  config : net.config = base.config

variable {s : Schedule} {base net net' : Net} {notify : Notify} {i : Instruction}

/-! ### Running a schedule -/

theorem Serves.follows (serves : Serves s base net) (h : Follows s net net') : Serves s base net' :=
  ⟨h.runs, h.addition.trans serves.addition, h.config.trans serves.config⟩

/-- Nothing changed but records, and none of transfers. -/
def Logged (net net' : Net) : Prop :=
  ∃ journal profile, net' = { net with journal, profile } ∧
    journal.transfers = net.journal.transfers ∧ profile.enabled = net.profile.enabled ∧
      profile.stats.transfers = net.profile.stats.transfers

/-- A property that does not depend on values, on what waits for inputs and on other records than those
of transfers. -/
structure Loose (I : Net → Prop) : Prop where
  table : ∀ {net : Net} {table : VariableTable}, I net → net.table.SameSlots table →
    I { net with table }
  logged : ∀ {net net' : Net}, I net → Logged net net' → I net'
  pending : ∀ {net : Net} {pending : List (Slot × Value)}, I net → I { net with pending }

/-- A property that does not depend on values, records and what waits for inputs. -/
structure Lax (I : Net → Prop) : Prop where
  table : ∀ {net : Net} {table : VariableTable}, I net → net.table.SameSlots table →
    I { net with table }
  records : ∀ {net net' : Net}, I net → Recorded net net' → I net'
  pending : ∀ {net : Net} {pending : List (Slot × Value)}, I net → I { net with pending }

theorem Lax.loose {I : Net → Prop} (lax : Lax I) : Loose I where
  table := lax.table
  logged := by
    rintro net _ holds ⟨journal, profile, rfl, -⟩
    exact lax.records holds ⟨journal, profile, rfl⟩
  pending := lax.pending

/-- A property that does not depend on what calls change without running a pass. -/
structure Movable (I : Net → Prop) : Prop extends Lax I where
  device : ∀ {net : Net} {device : String}, I net →
    I { net with device, placed := [], backwardReady := false }

/-- A change of what a schedule does not depend on. -/
theorem Serves.update (serves : Serves s base net) (schedule : net'.schedule = net.schedule)
    (table : net'.table = net.table) (device : net'.device = net.device)
    (transfer : net'.transfer = net.transfer) (placed : net'.placed = net.placed)
    (config : net'.config = net.config) : Serves s base net' := by
  obtain ⟨runs, addition, config'⟩ := serves
  refine ⟨⟨schedule.trans runs.schedule, by rw [table]; exact runs.infos, fun i hi c => ?_⟩,
    by rw [table]; exact addition, config.trans config'⟩
  rw [places_eq device, placed, constantsOf_eq device transfer]
  exact runs.placed i hi c

theorem lax_serves : Lax (Serves s base) where
  table serves same := serves.follows (.of_table serves.runs same)
  records serves recorded := serves.follows (.of_recorded serves.runs recorded)
  pending serves := serves.update rfl rfl rfl rfl rfl rfl

theorem movable_serves : Movable (Serves s base) where
  toLax := lax_serves
  device {net device} serves := by
    refine ⟨⟨serves.runs.schedule, serves.runs.infos, ?_⟩, serves.addition, serves.config⟩
    intro _ _ _ _ found
    cases found

theorem keeps_ofExcept {I : Net → Prop} {α : Type} (x : Except Error α) : Keeps I (ofExcept x) := by
  cases x with
  | ok a => exact .pure a
  | error e => exact .throw e

theorem Logged.trans (h : Logged net net') {net'' : Net} (h' : Logged net' net'') :
    Logged net net'' := by
  obtain ⟨_, _, rfl, transfers, enabled, count⟩ := h
  obtain ⟨journal, profile, rfl, transfers', enabled', count'⟩ := h'
  exact ⟨journal, profile, rfl, transfers'.trans transfers, enabled'.trans enabled,
    count'.trans count⟩

/-- A count of something else than transfers. -/
theorem logged_record (net : Net) (f : ProfileStats → ProfileStats)
    (h : ∀ stats, (f stats).transfers = stats.transfers) :
    Logged net { net with profile := net.profile.record f } := by
  refine ⟨net.journal, _, rfl, rfl, ?_⟩
  unfold Profile.record
  split
  · exact ⟨rfl, h _⟩
  · exact ⟨rfl, rfl⟩

theorem logged_recordEvent (net : Net) (name : String) (duration : Float) :
    Logged net { net with profile := net.profile.recordEvent name duration } :=
  logged_record net (fun s => { s with events := Profile.addDuration name duration s.events })
    fun _ => rfl

theorem logged_recordForwardStep (net : Net) :
    Logged net { net with profile := net.profile.recordForwardStep } :=
  logged_record net (fun s => { s with forwardSteps := s.forwardSteps + 1 }) fun _ => rfl

theorem logged_recordBackwardStep (net : Net) :
    Logged net { net with profile := net.profile.recordBackwardStep } :=
  logged_record net (fun s => { s with backwardSteps := s.backwardSteps + 1 }) fun _ => rfl

theorem logged_recordLive (net : Net) (slots bytes : Int) :
    Logged net { net with profile := net.profile.recordLive slots bytes } :=
  logged_record net (fun s => { s with
    peakLiveSlots := max s.peakLiveSlots slots
    peakLiveBytes := max s.peakLiveBytes bytes }) fun _ => rfl

section
variable {I : Net → Prop} (loose : Loose I)
include loose

theorem keeps_onTable {α : Type} {m : TableM α} (h : ∀ t : VariableTable, Keeps t.SameSlots m) :
    Keeps I (onTable m) := fun net holds =>
  (leads_onTable m net).mpr ((h net.table net.table (.refl _)).mono
    (fun _ _ same => loose.table holds same) fun _ _ same => loose.table holds same)

theorem keeps_logged {f : Net → Net} (h : ∀ net, Logged net (f net)) :
    Keeps I (modify f : NetM PUnit) :=
  .modify fun net holds => loose.logged holds (h net)

theorem keeps_stage (slot : Slot) (v : Value) : Keeps I (stage slot v) :=
  .modify fun _ holds => loose.pending holds

theorem keeps_getValue (key : Value) : Keeps I (getValue key) :=
  .bind .get fun _ => .bind (keeps_ofExcept _) fun _ =>
    keeps_onTable loose fun _ => VariableTable.keeps_getValue

theorem keeps_setValue (key v : Value) : Keeps I (setValue key v) := by
  refine .bind .get fun _ => .bind (keeps_ofExcept _) fun slot => ?_
  refine .bind (keeps_onTable loose fun _ => VariableTable.keeps_lookup slot) fun _ => ?_
  split
  · exact keeps_stage loose slot v
  · exact keeps_onTable loose fun _ => VariableTable.keeps_putValue v

theorem keeps_getDer (key : Value) : Keeps I (getDer key) :=
  .bind .get fun _ => .bind (keeps_ofExcept _) fun _ =>
    keeps_onTable loose fun _ => VariableTable.keeps_getDer

theorem keeps_setDer (key der : Value) : Keeps I (setDer key der) :=
  .bind .get fun _ => .bind (keeps_ofExcept _) fun _ =>
    keeps_onTable loose fun _ => VariableTable.keeps_setDer der

theorem keeps_setInputs (values : Keywords) : Keeps I (setInputs values) := by
  refine .bind .get fun net => .forM fun entry _ => ?_
  dsimp only
  split
  · exact keeps_stage loose _ _
  · exact .throw _

theorem keeps_describe : Keeps I describe := by
  refine .bind .get fun net => .mapM fun v _ => ?_
  exact .bind (keeps_onTable loose fun _ => VariableTable.keeps_getDer) fun _ => .pure _

theorem keeps_report (message : String) : Keeps I (report message) :=
  keeps_logged loose fun _ => ⟨_, _, rfl, rfl, rfl, rfl⟩

theorem keeps_descend (rate : Value) : Keeps I (descend rate) := by
  refine .bind .get fun net => .mapM fun p _ => ?_
  refine .bind (keeps_onTable loose fun _ => VariableTable.keeps_getValue) fun x => ?_
  split
  · exact .pure _
  · refine .bind (keeps_onTable loose fun _ => VariableTable.keeps_getDer) fun der => ?_
    refine .bind (keeps_ofExcept _) fun _ => .bind (keeps_ofExcept _) fun new => ?_
    exact .bind (keeps_onTable loose fun _ => VariableTable.keeps_putValue new) fun _ => .pure _

end

section
variable {I : Net → Prop} (lax : Lax I)
include lax

theorem keeps_callTransfer (v : Value) (device : String) : Keeps I (callTransfer v device) := by
  refine .bind (.modify fun net holds => lax.records holds ⟨_, _, rfl⟩) fun _ => ?_
  exact .bind .get fun _ => keeps_ofExcept _

theorem keeps_recordTransfer : Keeps I recordTransfer :=
  .modify fun _ holds => lax.records holds ⟨_, _, rfl⟩

theorem keeps_moveParam (device : String) (slot : Slot) : Keeps I (moveParam device slot) := by
  have loose := lax.loose
  refine .bind (keeps_onTable loose fun _ => VariableTable.keeps_lookup slot) fun v => ?_
  have moveDer : Keeps I (do
      let der ← onTable (VariableTable.getDer v.info.index)
      if !der.isZero then
        let x ← callTransfer der device
        onTable (VariableTable.setDer v.info.index x)) := by
    refine .bind (keeps_onTable loose fun _ => VariableTable.keeps_getDer) fun der => ?_
    split
    · exact .bind (keeps_callTransfer lax der device) fun x =>
        keeps_onTable loose fun _ => VariableTable.keeps_setDer x
    · exact .pure _
  split
  · dsimp only
    split
    · refine .bind (keeps_callTransfer lax v.value device) fun x => ?_
      refine .bind (keeps_onTable loose fun _ => VariableTable.keeps_putValue x) fun _ => ?_
      exact .bind (keeps_recordTransfer lax) fun _ => moveDer
    · exact moveDer
  · exact .pure _

end

theorem keeps_move {I : Net → Prop} (movable : Movable I) (label : NodeRef → String)
    (device : Value) : Keeps I (move label device) := by
  have lax := movable.toLax
  refine .bind .get fun net => ?_
  split
  · exact .throw_bind _ _
  · refine .bind .get fun net => .bind (.forM fun _ _ => keeps_moveParam lax _ _) fun _ => ?_
    exact .bind (.modify fun net holds => movable.device holds) fun _ => keeps_report lax.loose _

/-! ### Parts of a pass -/

theorem keeps_checkStructure {I : Net → Prop} (ws : Workspace) : Keeps I (checkStructure ws) := by
  refine .bind .get fun net => ?_
  split
  · refine .forM fun p _ => ?_
    dsimp only
    split
    · exact .pure _
    · exact .throw _
  · exact .pure _

section
variable {I : Net → Prop} (loose : Loose I)
include loose

theorem keeps_valueOf (a : Arg) (v : Value) : Keeps I (valueOf a v) := by
  cases a with
  | slot r => exact keeps_onTable loose fun _ => VariableTable.keeps_getValue
  | const c => exact .pure v

theorem keeps_releaseValues (slots : List Slot) : Keeps I (releaseValues slots) := by
  refine .bind .get fun net => ?_
  split
  · exact .forM fun _ _ => keeps_onTable loose fun _ => VariableTable.keeps_putValue _
  · exact .pure _

theorem keeps_releaseDers (slots : List Slot) : Keeps I (releaseDers slots) := by
  refine .bind .get fun net => ?_
  split
  · exact .forM fun _ _ => keeps_onTable loose fun _ => VariableTable.keeps_setDer _
  · exact .pure _

theorem keeps_recordLive : Keeps I recordLive :=
  keeps_logged loose fun net => logged_recordLive net _ _

theorem keeps_seedDers (ws : Workspace) (seed : Value) : Keeps I (seedDers ws seed) := by
  refine .bind .get fun net => ?_
  dsimp only
  split
  · refine .forM fun p _ => ?_
    split
    · exact .bind (keeps_ofExcept _) fun slot =>
        keeps_onTable loose fun _ => VariableTable.keeps_accumulate _ _
    · exact .throw_bind _ _
  · split
    · exact keeps_onTable loose fun _ => VariableTable.keeps_accumulate _ _
    · exact .throw _

end

section
variable {I : Net → Prop} (lax : Lax I)
include lax

theorem keeps_bindInput (slot : Slot) (v : Value) : Keeps I (bindInput slot v) := by
  refine .bind (keeps_onTable lax.loose fun _ => VariableTable.keeps_lookup slot) fun x => ?_
  have put : ∀ v, Keeps I (onTable (VariableTable.putValue slot v)) := fun v =>
    keeps_onTable lax.loose fun _ => VariableTable.keeps_putValue v
  refine .bind .get fun net => ?_
  dsimp only
  split
  · exact .bind (keeps_callTransfer lax v net.device) fun v =>
      .bind (keeps_recordTransfer lax) fun _ => .bind (.pure v) put
  · exact .bind (.pure v) put

theorem keeps_bindEach (pending : List (Slot × Value)) : ∀ l : List (String × Slot),
    Keeps I (bindEach pending l) := by
  intro l
  induction l with
  | nil => exact .pure []
  | cons p l ih =>
    unfold bindEach
    split
    · exact .bind ih fun _ => .pure _
    · exact .bind ih fun _ => .pure _
    · exact .bind (keeps_bindInput lax _ _) fun _ => ih

theorem keeps_bindInputs : Keeps I bindInputs := by
  intro net holds
  simp only [bindInputs, leads_bind, leads_get, leads_set]
  have cleared : I { net with pending := [] } := lax.pending holds
  refine (keeps_bindEach lax net.pending net.schedule.inputSlots _ cleared).mono ?_ fun _ _ h => h
  intro missing net' h
  split
  · exact h
  · exact h

theorem keeps_prepare (clean : ∀ net, I net → I { net with dirty := false }) (ws : Workspace)
    (options : PassOptions) : Keeps I (prepare ws options) := by
  have rest : Keeps I (do
      onTable (VariableTable.reset options.accumulate)
      bindInputs
      modify fun net => { net with dirty := false }) :=
    .bind (keeps_onTable lax.loose fun _ => VariableTable.keeps_reset _) fun _ =>
      .bind (keeps_bindInputs lax) fun _ => .modify clean
  refine .bind (keeps_checkStructure ws) fun _ => ?_
  dsimp only
  split
  · exact .bind (keeps_setInputs lax.loose _) fun _ => rest
  · exact rest

theorem keeps_place (v : Value) : Keeps I (place v) := by
  unfold place
  split
  · exact .bind (keeps_recordTransfer lax) fun _ => .bind .get fun _ => keeps_callTransfer lax v _
  · exact .pure v

end

section
variable {I J : Net → Prop} (loose : Loose J) (moved : Turns I J (constants i))
  (told : ∀ s, Keeps J (notify s))
include loose moved

/-- What using its constants changes is all that running an instruction changes, as far as a loose
property is concerned. -/
theorem turns_gather : Turns I J (gather i) := by
  refine .bind moved fun c => ?_
  refine .bind (.mapM fun p _ => keeps_valueOf loose p.1 p.2) fun args =>
    .bind (.mapM fun p _ => ?_) fun kwargs => .pure _
  exact .bind (keeps_valueOf loose p.1.2 p.2.2) fun _ => .pure _

include told

theorem turns_forwardStep (testing : Bool) (released : List Slot) :
    Turns I J (forwardStep notify testing released i) := by
  refine .bind (turns_gather loose moved) fun c => .bind (told _) fun _ =>
    .bind (keeps_ofExcept _) fun result => ?_
  refine .bind (keeps_logged loose fun net =>
    (logged_recordEvent net i.kind 0).trans (logged_recordForwardStep _)) fun _ =>
      .bind (keeps_ofExcept _) fun outs => ?_
  refine .bind (.forM fun p _ => keeps_onTable loose fun _ => VariableTable.keeps_putValue p.2)
    fun _ => ?_
  exact .bind (told _) fun _ => .bind (keeps_recordLive loose) fun _ =>
    keeps_releaseValues loose released

theorem turns_propagate (dy : Value) : Turns I J (propagate notify i dy) := by
  refine .bind (turns_gather loose moved) fun c => ?_
  dsimp only
  split
  · refine .bind (.pure _) fun kernel => .bind (told _) fun _ =>
      .bind (keeps_ofExcept _) fun result => ?_
    refine .bind (keeps_logged loose fun net =>
      (logged_recordEvent net (i.kind ++ ".backward") 0).trans (logged_recordBackwardStep _))
      fun _ => ?_
    refine .bind (.forM fun p _ => ?_) fun _ => told _
    split
    · exact .pure _
    · exact .pure _
    · exact keeps_onTable loose fun _ => VariableTable.keeps_accumulate _ _
  · exact .throw_bind _ _

end

/-- What comes after a backward instruction. -/
theorem keeps_backwardRest {I : Net → Prop} (loose : Loose I) (values ders : List Slot) :
    Keeps I (do recordLive; releaseValues values; releaseDers ders) :=
  .bind (keeps_recordLive loose) fun _ => .bind (keeps_releaseValues loose values) fun _ =>
    keeps_releaseDers loose ders

theorem keeps_backwardStep {I : Net → Prop} (loose : Loose I) (moved : Keeps I (constants i))
    (told : ∀ s, Keeps I (notify s)) (values ders : List Slot) :
    Keeps I (backwardStep notify values ders i) := by
  have rest := keeps_backwardRest loose values ders
  refine .bind (.mapM fun o _ => keeps_onTable loose fun _ => VariableTable.keeps_getDer)
    fun douts => ?_
  dsimp only
  split
  · exact .bind (turns_propagate loose moved told _) fun _ => rest
  · exact rest

/-- A property that does not depend on what is kept of moved constants either. -/
structure Aloof (I : Net → Prop) : Prop extends Lax I where
  placed : ∀ {net : Net} {placed : List (Nat × List Value × Keywords)}, I net →
    I { net with placed }

theorem keeps_constants {I : Net → Prop} (aloof : Aloof I) (i : Instruction) :
    Keeps I (constants i) := by
  have lax := aloof.toLax
  refine .bind .get fun net => ?_
  dsimp only
  split
  · split
    · exact .pure _
    · refine .bind (.mapM fun v _ => keeps_place lax v) fun args => ?_
      refine .bind (.mapM fun p _ => .bind (keeps_place lax p.2) fun _ => .pure _)
        fun kwargs => ?_
      exact .bind (.modify fun _ holds => aloof.placed holds) fun _ => .pure _
  · exact .pure _

/-! ### Passes -/

/-- A property of nets that run a schedule, whether they are in a pass or not. -/
structure Running (s : Schedule) (I : Net → Prop) : Prop extends Movable I where
  constants : ∀ {i : Instruction}, i ∈ s.forward → Keeps I (constants i)
  schedule : ∀ {net : Net}, I net → net.schedule = s
  flags : ∀ {net : Net} {evaluating backwardReady dirty : Bool}, I net →
    I { net with evaluating, backwardReady, dirty }

section
variable {I : Net → Prop} (running : Running s I)
include running

theorem keeps_attempt {α : Type} {m : NetM α} (h : Keeps I m) (pass place : String) :
    Keeps I (attempt pass place m) := by
  intro net holds
  have run := h net holds
  simp only [Leads, attempt] at run ⊢
  cases result : m net with
  | ok a net' =>
    rw [result] at run
    exact run
  | error e net' =>
    rw [result] at run
    have stopped : I { net' with dirty := true, evaluating := false } := running.flags run
    exact running.records stopped ⟨_, _, rfl⟩

theorem keeps_enter : Keeps I enter := by
  refine .bind .get fun net => ?_
  split
  · exact .throw_bind _ _
  · exact .modify fun _ holds => running.flags holds

theorem keeps_leave (backwardReady : Bool) : Keeps I (leave backwardReady) :=
  .modify fun _ holds => running.flags holds

variable (told : ∀ s, Keeps I (notify s))
include told

theorem keeps_forwardSteps (testing : Bool) (released : List (List Slot)) :
    ∀ l : List Instruction, (∀ i ∈ l, i ∈ s.forward) →
      Keeps I (forwardSteps notify testing released l) := by
  intro l
  induction l with
  | nil => exact fun _ => .pure _
  | cons i l ih =>
    intro sub
    have step := turns_forwardStep running.loose (running.constants (sub i (by simp))) told testing
      (released.getD i.index [])
    exact .bind (keeps_attempt running step _ _) fun _ => ih fun j hj => sub j (by simp [hj])

theorem keeps_forwardPass (ws : Workspace) (options : PassOptions) :
    Keeps I (forwardPass ws notify options) := by
  have prepared := keeps_prepare running.toLax (fun _ holds => running.flags holds) ws options
  refine .bind (keeps_ofExcept _) fun mode => .bind (keeps_enter running) fun _ => ?_
  refine .bind (keeps_attempt running prepared _ _) fun _ net holds => ?_
  rw [leads_bind, leads_get, running.schedule holds]
  refine Keeps.bind (keeps_forwardSteps running told _ _ _ fun _ h => h) (fun _ => ?_) net holds
  exact .bind (keeps_leave running _) fun _ => told _

theorem keeps_backwardSteps (release : ReleasePlan) : ∀ (l : List Instruction) (step : Nat),
    (∀ i ∈ l, i ∈ s.forward) → Keeps I (backwardSteps notify release step l) := by
  intro l
  induction l with
  | nil => exact fun _ _ => .pure _
  | cons i l ih =>
    intro step sub
    have one := keeps_backwardStep running.loose (running.constants (sub i (by simp))) told
      (release.backwardValues.getD step []) (release.backwardDers.getD step [])
    exact .bind (keeps_attempt running one _ _) fun _ => ih _ fun j hj => sub j (by simp [hj])

theorem keeps_backwardPass (wf : s.WellFormed) (ws : Workspace) (seed : Value) :
    Keeps I (backwardPass ws notify seed) := by
  refine .bind .get fun net => ?_
  split
  · exact .throw_bind _ _
  · refine .bind (keeps_enter running) fun _ =>
      .bind (keeps_attempt running (keeps_seedDers running.loose ws seed) _ _) ?_
    intro _ net holds
    rw [leads_bind, leads_get, running.schedule holds]
    refine Keeps.bind (keeps_backwardSteps running told _ _ _ fun _ h => ?_) (fun _ => ?_) net holds
    · exact wf.mem_forward_of_backward h
    · exact .bind (keeps_leave running _) fun _ => told _

end

theorem running_serves (wf : s.WellFormed) : Running s (Serves s base) where
  toMovable := movable_serves
  constants {i} hi net serves := by
    have failed : Leads (constants i) net (fun _ _ => True) fun _ net' => Serves s base net' := by
      simp only [constants, leads_bind, leads_get]
      split
      · split
        · trivial
        · simp only [leads_bind, leads_modify, leads_pure]
          refine (Keeps.mapM (fun v _ => keeps_place lax_serves v) net serves).mono ?_ fun _ _ h => h
          intro args t serves
          refine (Keeps.mapM (fun p _ => ?_) t serves).mono (fun _ _ _ => trivial) fun _ _ h => h
          exact .bind (keeps_place lax_serves p.2) fun _ => .pure _
      · trivial
    refine ((leads_constants wf.inPlace serves.runs hi).and failed).mono (fun _ _ h => ?_) fun _ _ h => h.2
    exact serves.follows h.1.2.1
  schedule serves := serves.runs.schedule
  flags serves := serves.update rfl rfl rfl rfl rfl rfl

/-! ### Observers -/

/-- A property that passes keep as well, if what they tell their observers keeps it. -/
structure Stable (I : Net → Prop) : Prop extends Movable I where
  reactions : ∀ {net : Net} {reactions : Array Reaction}, I net → I { net with reactions }
  forwardPass : ∀ {notify : Notify}, (∀ e, Keeps I (notify e)) → ∀ ws options,
    Keeps I (forwardPass ws notify options)
  backwardPass : ∀ {notify : Notify}, (∀ e, Keeps I (notify e)) → ∀ ws seed,
    Keeps I (backwardPass ws notify seed)

section
variable {I : Net → Prop} (stable : Stable I)
include stable

theorem keeps_evaluatePass (told : ∀ e, Keeps I (notify e)) (ws : Workspace)
    (options : PassOptions) (seed : Value) : Keeps I (evaluatePass ws notify options seed) := by
  refine .bind (keeps_ofExcept _) fun mode => .bind (keeps_report stable.loose _) fun _ => ?_
  refine .bind (stable.forwardPass told ws _) fun _ => ?_
  split
  · exact stable.backwardPass told ws seed
  · exact .pure _

theorem keeps_perform (told : ∀ e, Keeps I (notify e)) (ws : Workspace) (action : Action) :
    Keeps I (perform ws notify action) := by
  cases action with
  | refuse => exact .throw _
  | evaluate inputs => exact keeps_evaluatePass stable told ws _ _
  | forward inputs => exact stable.forwardPass told ws _
  | backward => exact stable.backwardPass told ws _
  | move device => exact keeps_move stable.toMovable _ _
  | setValue key v => exact keeps_setValue stable.loose key v
  | setDer key v => exact keeps_setDer stable.loose key v
  | setInputs inputs => exact keeps_setInputs stable.loose inputs

/-- Observers act through calls, however deep their reactions set off others. -/
theorem keeps_react (ws : Workspace) : ∀ (depth : Nat) (s : Signal), Keeps I (react ws depth s) := by
  intro depth
  induction depth with
  | zero =>
    intro s net holds
    cases s with
    | kernel instruction args kwargs => exact holds
    | event e =>
      simp only [react, leads_bind, leads_get]
      split
      · exact stable.records holds ⟨_, _, rfl⟩
      · exact holds
  | succ depth ih =>
    intro s net holds
    cases s with
    | kernel instruction args kwargs => exact holds
    | event e =>
      simp only [react, leads_bind, leads_get]
      split
      · simp only [leads_bind, leads_set]
        refine Keeps.forM (fun k _ => .bind .get fun net => ?_) _
          (stable.records holds ⟨_, _, rfl⟩)
        split
        · split
          · exact .bind (.modify fun _ holds => stable.reactions holds) fun _ =>
              keeps_perform stable ih ws _
          · exact .pure _
        · exact .pure _
      · exact holds

theorem keeps_notifyObservers (ws : Workspace) (s : Signal) : Keeps I (notifyObservers ws s) :=
  .bind .get fun _ => keeps_react stable ws _ s

end

/-- What holds inside of passes as well as outside is kept by them. -/
theorem Running.stable {I : Net → Prop} (running : Running s I) (wf : s.WellFormed)
    (reactions : ∀ {net : Net} {reactions : Array Reaction}, I net → I { net with reactions }) :
    Stable I where
  toMovable := running.toMovable
  reactions := reactions
  forwardPass told ws options := keeps_forwardPass running told ws options
  backwardPass told ws seed := keeps_backwardPass running told wf ws seed

theorem stable_serves (wf : s.WellFormed) : Stable (Serves s base) :=
  (running_serves wf).stable wf fun serves => serves.update rfl rfl rfl rfl rfl rfl

/-! ### Passes end -/

/-- Whether no pass is running. -/
def Idle (net : Net) : Prop := net.evaluating = false

theorem movable_idle : Movable Idle where
  table idle _ := idle
  records := by
    rintro _ _ idle ⟨journal, profile, rfl⟩
    exact idle
  pending idle := idle
  device idle := idle

/-- A part of a pass that fails ends the pass. -/
theorem idle_attempt {α : Type} (pass place : String) (m : NetM α) (net : Net) :
    Leads (attempt pass place m) net (fun _ _ => True) fun _ net' => Idle net' := by
  simp only [Leads, attempt]
  cases m net with
  | ok a net' => trivial
  | error e net' => rfl

theorem idle_forwardSteps (testing : Bool) (released : List (List Slot)) :
    ∀ (l : List Instruction) (net : Net), Leads (forwardSteps notify testing released l) net
      (fun _ _ => True) fun _ net' => Idle net' := by
  intro l
  induction l with
  | nil => exact fun _ => trivial
  | cons i l ih =>
    intro net
    rw [forwardSteps, leads_bind]
    exact (idle_attempt _ _ _ net).mono (fun _ net' _ => ih net') fun _ _ h => h

theorem idle_backwardSteps (release : ReleasePlan) : ∀ (l : List Instruction) (step : Nat)
    (net : Net), Leads (backwardSteps notify release step l) net (fun _ _ => True)
      fun _ net' => Idle net' := by
  intro l
  induction l with
  | nil => exact fun _ _ => trivial
  | cons i l ih =>
    intro step net
    rw [backwardSteps, leads_bind]
    exact (idle_attempt _ _ _ net).mono (fun _ net' _ => ih _ net') fun _ _ h => h

section
variable (told : ∀ e, Keeps Idle (notify e))
include told

theorem idle_leave (backwardReady : Bool) (net : Net) :
    Leads (do leave backwardReady; notify (.event .finished)) net (fun _ net' => Idle net')
      fun _ net' => Idle net' := by
  simp only [leave, leads_bind, leads_modify]
  exact told _ _ rfl

theorem idle_forwardPass (ws : Workspace) (options : PassOptions) :
    Keeps Idle (forwardPass ws notify options) := by
  refine .bind (keeps_ofExcept _) fun mode net idle => ?_
  have open' : net.evaluating = false := idle
  simp only [enter, leads_bind, leads_get, open', Bool.false_eq_true, if_false,
    leads_modify]
  refine (idle_attempt _ _ _ _).mono (fun _ net' _ => ?_) fun _ _ h => h
  refine (idle_forwardSteps _ _ _ net').mono (fun _ net' _ => ?_) fun _ _ h => h
  have left := idle_leave told (options.keepForBackward && mode != .test) net'
  rwa [leads_bind] at left

theorem idle_backwardPass (ws : Workspace) (seed : Value) :
    Keeps Idle (backwardPass ws notify seed) := by
  intro net idle
  have open' : net.evaluating = false := idle
  simp only [backwardPass, leads_bind, leads_get]
  split
  · exact idle
  · simp only [enter, leads_bind, leads_get, open', Bool.false_eq_true, if_false, leads_modify]
    refine (idle_attempt _ _ _ _).mono (fun _ net' _ => ?_) fun _ _ h => h
    refine (idle_backwardSteps _ _ _ net').mono (fun _ net' _ => ?_) fun _ _ h => h
    have left := idle_leave told false net'
    rwa [leads_bind] at left

end

theorem stable_idle : Stable Idle where
  toMovable := movable_idle
  reactions idle := idle
  forwardPass told ws options := idle_forwardPass told ws options
  backwardPass told ws seed := idle_backwardPass told ws seed

/-! ### Calls -/

/-- The calls on a net. Those that run passes are given the workspace as it is at that time. -/
inductive Call where
  | evaluate (ws : Workspace) (options : PassOptions) (seed : Value)
  | forward (ws : Workspace) (options : PassOptions)
  | backward (ws : Workspace) (seed : Value)
  | getValue (key : Value)
  | setValue (key v : Value)
  | getDer (key : Value)
  | setDer (key der : Value)
  | setInputs (values : Keywords)
  | describe
  | move (label : NodeRef → String) (device : Value)
  | descend (rate : Value)

/-- How a pass fails to start while another one is running. -/
def startRefusal (options : PassOptions) : Error :=
  match Mode.ofName options.mode with
  | .ok _ => .alreadyEvaluating
  | .error e => e

namespace Call

/-- A call without its result. -/
def run : Call → NetM Unit
  | evaluate ws options seed => Net.evaluate ws options seed
  | forward ws options => Net.forward ws options
  | backward ws seed => Net.backward ws seed
  | getValue key => do let _ ← Net.getValue key
  | setValue key v => Net.setValue key v
  | getDer key => do let _ ← Net.getDer key
  | setDer key der => Net.setDer key der
  | setInputs values => Net.setInputs values
  | describe => do let _ ← Net.describe
  | move label device => Net.move label device
  | descend rate => do let _ ← Net.descend rate

/-- How a call fails during a pass. Calls that neither start a pass nor move the net are carried
out. -/
def refusal : Call → Option Error
  | evaluate _ options _ | forward _ options => some (startRefusal options)
  | backward .. => some .notReady
  | move .. => some .moveWhileEvaluating
  | _ => none

/-- Other calls keep what does not depend on passes. -/
theorem keeps_of_unrefused {I : Net → Prop} (loose : Loose I) {call : Call}
    (unrefused : call.refusal = none) : Keeps I call.run := by
  cases call with
  | getValue key => exact .bind (keeps_getValue loose key) fun _ => .pure _
  | setValue key v => exact keeps_setValue loose key v
  | getDer key => exact .bind (keeps_getDer loose key) fun _ => .pure _
  | setDer key der => exact keeps_setDer loose key der
  | setInputs values => exact keeps_setInputs loose values
  | describe => exact .bind (keeps_describe loose) fun _ => .pure _
  | descend rate => exact .bind (keeps_descend loose rate) fun _ => .pure _
  | _ => cases unrefused

/-- Every call keeps what passes and observers keep. -/
theorem keeps {I : Net → Prop} (stable : Stable I) (call : Call) : Keeps I call.run := by
  have told := keeps_notifyObservers stable
  cases call with
  | evaluate ws options seed => exact keeps_evaluatePass stable (told ws) ws options seed
  | forward ws options => exact stable.forwardPass (told ws) ws options
  | backward ws seed => exact stable.backwardPass (told ws) ws seed
  | move label device => exact keeps_move stable.toMovable label device
  | _ => exact keeps_of_unrefused stable.loose rfl

end Call

end Net

end Backprop
