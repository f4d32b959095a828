import Mathlib
import Backprop.Proofs.PassStates
import Backprop.Proofs.Books
/-!
# When values are moved

A call comes to some occasions at which values are due to be moved, one after the other. What it moves is
entered for these, whatever fails in between and whatever code from outside does.

* `Net.Trail`: the occasions of a change. `Net.Call.trail` and `Net.Outside.atEnd` are those of calls and
  of what code from outside does at the end of a pass.
* `Net.Charges`: a change keeps the books of its occasions. `Net.Call.charges`: calls do.
* `Net.Outside.tells`: code from outside moves nothing during a pass.
-/

namespace Backprop

namespace Net

/-! ### Trails -/

/-- The occasions that a change comes to, by the net that it starts from. -/
abbrev Trail := Net → List Occasion

namespace Trail

def none : Trail := fun _ => []

/-- The occasions of a change, and then those of what follows if it succeeds. -/
def through {α : Type} (t : Trail) (m : NetM α) (next : Trail) : Trail := fun net =>
  t net ++ match m net with
    | .ok _ net => next net
    | .error .. => []

theorem through_none {α : Type} (t : Trail) (m : NetM α) : t.through m none = t := by
  funext net
  unfold through
  split <;> exact List.append_nil _

end Trail

/-- The part of a forward pass before inputs are bound. -/
def unbound (ws : Workspace) (options : PassOptions) : NetM Unit := do
  checkStructure ws
  if !options.inputs.isEmpty then setInputs options.inputs
  onTable (VariableTable.reset options.accumulate)

/-- Inputs are bound once the rest is prepared. -/
def prepareTrail (ws : Workspace) (options : PassOptions) : Trail :=
  Trail.none.through (unbound ws options) fun net => [.bind net.transfer net.pending]

/-- Every forward instruction that is run gathers its arguments. -/
def forwardTrail (notify : Notify) (testing : Bool) (released : List (List Slot)) :
    List Instruction → Trail
  | [] => .none
  | i :: rest => Trail.through (fun net => [.gather net.transfer i])
      (forwardStep notify testing (released.getD i.index []) i)
      (forwardTrail notify testing released rest)

/-- The derivatives of an instruction's outputs. -/
def outputDers (i : Instruction) : NetM (List Value) :=
  i.outputs.mapM fun s => onTable (VariableTable.getDer s)

/-- Whether a derivative has reached an instruction. -/
def wakes (i : Instruction) (net : Net) : Bool :=
  match outputDers i net with
  | .ok douts _ => douts.any fun d => !d.isZero
  | .error .. => false

/-- A backward instruction gathers its arguments if a derivative has reached it. -/
def backwardTrail (notify : Notify) (release : ReleasePlan) (step : Nat) : List Instruction → Trail
  | [] => .none
  | i :: rest => Trail.through (fun net => if wakes i net then [.gather net.transfer i] else [])
      (backwardStep notify (release.backwardValues.getD step []) (release.backwardDers.getD step []) i)
      (backwardTrail notify release (step + 1) rest)

section
variable (notify : Notify) (atEnd : Trail) (ws : Workspace)

/-- The occasions of a forward pass, and of what is done when it has ended. -/
def forwardPassTrail (options : PassOptions) : Trail := fun net =>
  match Mode.ofName options.mode with
  | .error _ => []
  | .ok mode =>
    let keep := options.keepForBackward && mode != .test
    let steps : Trail := fun net =>
      let released :=
        if keep then net.schedule.release.forward else net.schedule.release.forwardOnly
      (forwardTrail notify (mode == .test) released net.schedule.forward).through
        (forwardSteps notify (mode == .test) released net.schedule.forward)
        (Trail.none.through (leave keep) atEnd) net
    Trail.none.through enter ((prepareTrail ws options).through (prepare ws options) steps) net

/-- The occasions of a backward pass, and of what is done when it has ended. -/
def backwardPassTrail (seed : Value) : Trail := fun net =>
  if net.backwardReady then
    let steps : Trail := fun net =>
      (backwardTrail notify net.schedule.release 0 net.schedule.backward).through
        (backwardSteps notify net.schedule.release 0 net.schedule.backward)
        (Trail.none.through (leave false) atEnd) net
    Trail.none.through enter (Trail.none.through (seedDers ws seed) steps) net
  else []

/-- The occasions of an evaluation. -/
def evaluateTrail (options : PassOptions) (seed : Value) : Trail := fun net =>
  match Mode.ofName options.mode with
  | .error _ => []
  | .ok mode =>
    let half := { options with keepForBackward := mode == .normal }
    Trail.none.through (report ("Evaluating Net in `" ++ options.mode ++ "` mode."))
      ((forwardPassTrail notify atEnd ws half).through (forwardPass ws notify half)
        (if mode = .normal then backwardPassTrail notify atEnd ws seed else .none)) net

end

/-- The occasions of a call, if `atEnd` are those of what is done at the end of its passes. -/
def Call.trail (notify : Notify) (atEnd : Trail) : Call → Trail
  | evaluate ws options seed => evaluateTrail notify atEnd ws options seed
  | forward ws options => forwardPassTrail notify atEnd ws options
  | backward ws seed => backwardPassTrail notify atEnd ws seed
  | move label device => fun net =>
    if net.evaluating then [] else [.move net.transfer (Device.normalize label device) net.table]
  | _ => .none

/-- The occasions of what a script does. -/
def Script.trail (act : Call → NetM Unit) (trail : Call → Trail) : Script → Trail
  | done | fail _ => .none
  | renew reactions transfer next => fun net =>
    next.trail act trail { net with reactions, transfer }
  | call c next => fun net =>
    trail c net ++ match act c net with
      | .ok _ net' => (next none net'.unlogged).trail act trail net'
      | .error e net' => (next (some e) net'.unlogged).trail act trail net'

/-- The occasions of what code from outside does at the end of a pass. -/
def Outside.atEnd (code : Outside) : Nat → Trail
  | 0 => .none
  | depth + 1 => fun net => (code (.event .finished) net.unlogged).trail
      (Call.runWith fun _ => code.notify depth) (Call.trail (code.notify depth) (code.atEnd depth)) net

/-! ### Charges -/

/-- Nothing that a net's books are about differs. -/
theorem Books.congr {s : Schedule} {earlier : List (String × Value)} {on : Bool} {a : Account}
    {net net' : Net} (books : Books s earlier on a net) (schedule : net'.schedule = net.schedule)
    (table : net'.table = net.table) (device : net'.device = net.device)
    (placed : net'.placed = net.placed) (transfers : net'.journal.transfers = net.journal.transfers)
    (profile : net'.profile = net.profile) : Books s earlier on a net' where
  schedule := schedule.trans books.schedule
  infos := by rw [table, books.infos]
  device := device.trans books.device
  placed i hi places := by
    rw [placed]
    exact books.placed i hi (by rwa [places_eq device] at places)
  calls := by rw [transfers, books.calls]
  enabled := by rw [profile, books.enabled]
  count yes := by rw [profile, books.count yes]
  belong := books.belong

/-- A change keeps books, which its occasions are entered into. It takes nets with one property to nets
with another, unless it fails. -/
def Charges {α : Type} (s : Schedule) (I J : Net → Prop) (m : NetM α) (trail : Trail) : Prop :=
  ∀ earlier on a net, Books s earlier on a net → I net → Leads m net
    (fun _ net' => Books s earlier on ((trail net).foldl (Account.after s) a) net' ∧ J net')
    fun _ net' => Books s earlier on ((trail net).foldl (Account.after s) a) net'

/-- Whether a pass is running. -/
abbrev InPass : Net → Prop := Busy fun _ => True

/-- Any net. -/
abbrev Anywhere : Net → Prop := fun _ => True

theorem Loose.and {I J : Net → Prop} (h : Loose I) (h' : Loose J) : Loose fun net => I net ∧ J net where
  table := fun ⟨a, b⟩ same => ⟨h.table a same, h'.table b same⟩
  logged := fun ⟨a, b⟩ logged => ⟨h.logged a logged, h'.logged b logged⟩
  pending := fun ⟨a, b⟩ => ⟨h.pending a, h'.pending b⟩

variable {s : Schedule} {I J K : Net → Prop} {α β : Type} {m : NetM α} {trail trail' : Trail}
  {i : Instruction} {notify : Notify} {atEnd : Trail}

namespace Charges

theorem none (h : ∀ earlier on a, Turns (fun net => Books s earlier on a net ∧ I net)
    (fun net => Books s earlier on a net ∧ J net) m) : Charges s I J m .none :=
  fun earlier on a net books holds => (h earlier on a net ⟨books, holds⟩).mono (fun _ _ h => h)
    fun _ _ h => h.1

theorem bind {f : α → NetM β} (h : Charges s I J m trail) (h' : ∀ a, Charges s J K (f a) trail') :
    Charges s I K (m >>= f) (trail.through m trail') := by
  intro earlier on a net books holds
  have first := h earlier on a net books holds
  rw [leads_bind]
  unfold Leads at first ⊢
  unfold Trail.through
  rw [List.foldl_append]
  cases run : m net with
  | ok x net' =>
    rw [run] at first
    exact h' x earlier on _ net' first.1 first.2
  | error e net' =>
    rw [run] at first
    exact first

/-- What can depend on the net that it starts from. -/
theorem of_net {f : Net → NetM α} (h : ∀ earlier on a net, Books s earlier on a net → I net →
    Leads (f net) net
      (fun _ net' => Books s earlier on ((trail net).foldl (Account.after s) a) net' ∧ J net')
      fun _ net' => Books s earlier on ((trail net).foldl (Account.after s) a) net') :
    Charges s I J (get >>= f) trail := fun earlier on a net books holds => by
  rw [leads_bind]
  exact h earlier on a net books holds

theorem attempt (h : Charges s I J m trail) (pass place : String) :
    Charges s I J (attempt pass place m) trail := by
  intro earlier on a net books holds
  have run := h earlier on a net books holds
  unfold Leads at run ⊢
  simp only [Net.attempt]
  cases result : m net with
  | ok x net' =>
    rw [result] at run
    exact run
  | error e net' =>
    rw [result] at run
    exact run.congr rfl rfl rfl rfl rfl rfl

end Charges

theorem through_attempt (pass place : String) (m : NetM α) :
    trail.through (attempt pass place m) trail' = trail.through m trail' := by
  funext net
  simp only [Trail.through, attempt]
  cases m net <;> rfl

/-- What running code does during and after a pass is entered. -/
structure Tells (s : Schedule) (notify : Notify) (atEnd : Trail) : Prop where
  inside : ∀ earlier on a signal,
    Keeps (fun net => Books s earlier on a net ∧ InPass net) (notify signal)
  finished : Charges s Anywhere Anywhere (notify (.event .finished)) atEnd

section
variable {earlier : List (String × Value)} {on : Bool} {a : Account}

theorem loose_inPass : Loose fun net => Books s earlier on a net ∧ InPass net :=
  loose_books.and aloof_busy.loose

/-! ### Instructions -/

/-- An instruction that gathers its arguments in a pass. -/
theorem turns_constants (wf : s.WellFormed) (hi : i ∈ s.forward) (via : Transfer) :
    Turns (fun net => (Books s earlier on a net ∧ InPass net) ∧ net.transfer = via)
      (fun net => Books s earlier on (a.after s (.gather via i)) net ∧ InPass net) (constants i) := by
  rintro net ⟨⟨books, busy⟩, rfl⟩
  exact (books_constants wf hi books).and (keeps_constants aloof_busy i net busy)

end

section
variable (wf : s.WellFormed) (tells : Tells s notify atEnd)
include wf tells

theorem charges_forwardStep (hi : i ∈ s.forward) (testing : Bool) (released : List Slot) :
    Charges s InPass InPass (forwardStep notify testing released i)
      fun net => [.gather net.transfer i] := by
  intro earlier on a net books busy
  exact (turns_forwardStep loose_inPass (turns_constants wf hi net.transfer)
    (tells.inside earlier on _) testing released net ⟨⟨books, busy⟩, rfl⟩).mono (fun _ _ h => h)
      fun _ _ h => h.1

theorem charges_forwardSteps (testing : Bool) (released : List (List Slot)) :
    ∀ l : List Instruction, (∀ i ∈ l, i ∈ s.forward) →
      Charges s InPass InPass (forwardSteps notify testing released l)
        (forwardTrail notify testing released l) := by
  intro l
  induction l with
  | nil => exact fun _ => .none fun _ _ _ => Keeps.pure _
  | cons i l ih =>
    intro sub
    have step := charges_forwardStep wf tells (sub i (by simp)) testing (released.getD i.index [])
    rw [forwardTrail, ← through_attempt "Forward" i.name]
    exact (step.attempt _ _).bind fun _ => ih fun j hj => sub j (by simp [hj])

/-- A backward instruction gathers its arguments only if a derivative has reached it. -/
theorem charges_backwardStep (hi : i ∈ s.forward) (values ders : List Slot) :
    Charges s InPass InPass (backwardStep notify values ders i)
      fun net => if wakes i net then [.gather net.transfer i] else [] := by
  intro earlier on a net books busy
  have loose : Loose fun net' : Net => (Books s earlier on a net' ∧ InPass net') ∧
      net'.transfer = net.transfer := by
    refine loose_inPass.and ⟨fun same _ => same, ?_, fun same => same⟩
    rintro _ _ same ⟨journal, profile, rfl, -⟩
    exact same
  have read : Keeps (fun net' : Net => (Books s earlier on a net' ∧ InPass net') ∧
      net'.transfer = net.transfer) (outputDers i) :=
    .mapM fun o _ => keeps_onTable loose fun _ => VariableTable.keeps_getDer
  have run := read net ⟨⟨books, busy⟩, rfl⟩
  change Leads (outputDers i >>= _) net _ _
  cases result : outputDers i net with
  | error e net' =>
    have asleep : wakes i net = false := by rw [wakes, result]
    rw [leads_of_error result] at run
    rw [leads_bind, leads_of_error result]
    beta_reduce
    rw [asleep]
    exact run.1.1
  | ok douts net' =>
    have reached : wakes i net = douts.any fun d => !d.isZero := by rw [wakes, result]
    rw [leads_of_ok result] at run
    rw [leads_bind, leads_of_ok result]
    beta_reduce
    rw [reached]
    cases douts.any fun d => !d.isZero with
    | false =>
      exact (keeps_backwardRest loose_inPass values ders net' run.1).mono (fun _ _ h => h)
        fun _ _ h => h.1
    | true =>
      have told := tells.inside earlier on (a.after s (.gather net.transfer i))
      have ran := fun dy => turns_propagate loose_inPass (turns_constants wf hi net.transfer) told dy
      refine (Turns.bind (ran _) (fun _ => ?_) net' run).mono (fun _ _ h => h) fun _ _ h => h.1
      exact keeps_backwardRest loose_inPass values ders

theorem charges_backwardSteps (release : ReleasePlan) : ∀ (l : List Instruction) (step : Nat),
    (∀ i ∈ l, i ∈ s.forward) → Charges s InPass InPass (backwardSteps notify release step l)
      (backwardTrail notify release step l) := by
  intro l
  induction l with
  | nil => exact fun _ _ => .none fun _ _ _ => Keeps.pure _
  | cons i l ih =>
    intro step sub
    have one := charges_backwardStep wf tells (sub i (by simp))
      (release.backwardValues.getD step []) (release.backwardDers.getD step [])
    rw [backwardTrail, ← through_attempt "Backward" i.name]
    exact (one.attempt _ _).bind fun _ => ih _ fun j hj => sub j (by simp [hj])

end

/-! ### Passes -/

theorem prepare_eq (ws : Workspace) (options : PassOptions) : prepare ws options = (do
    unbound ws options
    bindInputs
    modify fun net => { net with dirty := false }) := by
  unfold prepare unbound
  cases options.inputs.isEmpty <;> simp

theorem charges_unbound (ws : Workspace) (options : PassOptions) :
    Charges s InPass InPass (unbound ws options) .none := by
  refine .none fun _ _ _ => Keeps.bind (keeps_checkStructure ws) fun _ => ?_
  have reset : ∀ {earlier on a}, Keeps (fun net => Books s earlier on a net ∧ InPass net)
      (onTable (VariableTable.reset options.accumulate)) :=
    keeps_onTable loose_inPass fun _ => VariableTable.keeps_reset options.accumulate
  dsimp only
  split
  · exact .bind (keeps_setInputs loose_inPass _) fun _ => reset
  · exact reset

theorem charges_enter : Charges s Anywhere InPass enter .none := by
  intro earlier on a net books _
  rw [enter, leads_bind, leads_get]
  split
  · exact books
  · exact ⟨books.congr rfl rfl rfl rfl rfl rfl, rfl, rfl, trivial⟩

theorem charges_leave (ready : Bool) : Charges s InPass Anywhere (leave ready) .none :=
  .none fun _ _ _ _ ⟨books, _⟩ => ⟨books.congr rfl rfl rfl rfl rfl rfl, trivial⟩

section
variable (wf : s.WellFormed) (tells : Tells s notify atEnd)
include wf

/-- A forward pass comes to binding its inputs if nothing fails before. -/
theorem charges_prepare (ws : Workspace) (options : PassOptions) :
    Charges s InPass InPass (prepare ws options) (prepareTrail ws options) := by
  have bound : Charges s InPass InPass bindInputs fun net => [.bind net.transfer net.pending] := by
    intro earlier on a net books busy
    exact ((books_bindInputs wf books).and (keeps_bindInputs aloof_busy.toLax net busy)).mono
      (fun _ _ h => h) fun _ _ h => h.1
  have clean : Charges s InPass InPass (modify fun net => { net with dirty := false } : NetM PUnit)
      .none := .none fun _ _ _ _ ⟨books, busy⟩ =>
    ⟨books.congr rfl rfl rfl rfl rfl rfl, busy.evaluating, busy.unready, trivial⟩
  rw [prepare_eq, prepareTrail]
  refine (charges_unbound ws options).bind fun _ => ?_
  rw [← Trail.through_none (fun net => [.bind net.transfer net.pending]) bindInputs]
  exact bound.bind fun _ => clean

include tells

theorem charges_forwardPass (ws : Workspace) (options : PassOptions) :
    Charges s Anywhere Anywhere (forwardPass ws notify options)
      (forwardPassTrail notify atEnd ws options) := by
  unfold forwardPass forwardPassTrail
  cases Mode.ofName options.mode with
  | error e => exact .none fun _ _ _ => Keeps.throw_bind e _
  | ok mode =>
    rw [show (ofExcept (.ok mode) : NetM Mode) = pure mode from rfl, pure_bind]
    refine charges_enter.bind fun _ => ?_
    rw [← through_attempt "Forward" "<setup>"]
    refine ((charges_prepare wf ws options).attempt _ _).bind fun _ => .of_net ?_
    intro earlier on a net books busy
    obtain rfl := books.schedule
    refine Charges.bind (charges_forwardSteps wf tells _ _ _ fun _ h => h) (fun _ => ?_)
      earlier on a net books busy
    exact (charges_leave _).bind fun _ => tells.finished

theorem charges_backwardPass (ws : Workspace) (seed : Value) :
    Charges s Anywhere Anywhere (backwardPass ws notify seed)
      (backwardPassTrail notify atEnd ws seed) := by
  refine .of_net fun earlier on a net books _ => ?_
  unfold backwardPassTrail
  cases net.backwardReady with
  | false => exact books
  | true =>
    have seeded : Charges s InPass InPass (seedDers ws seed) .none :=
      .none fun _ _ _ => keeps_seedDers loose_inPass ws seed
    refine Charges.bind charges_enter (fun _ => ?_) earlier on a net books trivial
    rw [← through_attempt "Backward" "<seed>"]
    refine (seeded.attempt _ _).bind fun _ => .of_net ?_
    intro earlier on a net books busy
    obtain rfl := books.schedule
    refine Charges.bind (charges_backwardSteps wf tells _ _ _ fun _ h => ?_) (fun _ => ?_)
      earlier on a net books busy
    · exact wf.mem_forward_of_backward h
    · exact (charges_leave _).bind fun _ => tells.finished

theorem charges_evaluatePass (ws : Workspace) (options : PassOptions) (seed : Value) :
    Charges s Anywhere Anywhere (evaluatePass ws notify options seed)
      (evaluateTrail notify atEnd ws options seed) := by
  unfold evaluatePass evaluateTrail
  cases Mode.ofName options.mode with
  | error e => exact .none fun _ _ _ => Keeps.throw_bind e _
  | ok mode =>
    have told : ∀ message, Charges s Anywhere Anywhere (report message) .none := fun message =>
      .none fun _ _ _ _ ⟨books, _⟩ => ⟨books.congr rfl rfl rfl rfl rfl rfl, trivial⟩
    rw [show (ofExcept (.ok mode) : NetM Mode) = pure mode from rfl, pure_bind]
    refine (told _).bind fun _ => (charges_forwardPass wf tells ws _).bind fun _ => ?_
    split
    · exact charges_backwardPass wf tells ws seed
    · exact .none fun _ _ _ => Keeps.pure _

/-- Whatever is called, what is moved is what was due. -/
theorem Call.charges (c : Call) :
    Charges s Anywhere Anywhere (c.runWith fun _ => notify) (c.trail notify atEnd) := by
  have other : ∀ {c : Call}, c.refusal = Option.none →
      Charges s Anywhere Anywhere (c.runWith fun _ => notify) .none := by
    intro c unrefused
    rw [Call.runWith_of_unrefused unrefused]
    refine .none fun _ _ _ net ⟨books, _⟩ => ?_
    exact (keeps_of_unrefused loose_books unrefused net books).mono (fun _ _ h => ⟨h, trivial⟩)
      fun _ _ h => ⟨h, trivial⟩
  cases c with
  | evaluate now options seed => exact charges_evaluatePass wf tells now options seed
  | forward now options => exact charges_forwardPass wf tells now options
  | backward now seed => exact charges_backwardPass wf tells now seed
  | move label device =>
    intro earlier on a net books _
    have trail : (Call.move label device).trail notify atEnd net =
      if net.evaluating then [] else
        [.move net.transfer (Device.normalize label device) net.table] := rfl
    rw [trail]
    change Leads (Net.move label device) net _ _
    cases busy : net.evaluating with
    | true =>
      rw [Net.move, leads_bind, leads_get, busy]
      exact books
    | false =>
      exact (books_move wf books busy label device).mono (fun _ _ h => ⟨h, trivial⟩) fun _ _ h => h
  | _ => exact other rfl

end

/-! ### Code from outside -/

/-- What a script does during a pass keeps the books: it cannot move anything. -/
theorem Call.keeps_inPass {earlier : List (String × Value)} {on : Bool} {a : Account} (c : Call) :
    Keeps (fun net => Books s earlier on a net ∧ InPass net) (c.runWith fun _ => notify) := by
  cases refusal : c.refusal with
  | none =>
    rw [Call.runWith_of_unrefused refusal]
    exact keeps_of_unrefused loose_inPass refusal
  | some e =>
    rintro net ⟨books, busy⟩
    refine (Call.refused busy refusal).mono (fun _ _ h => h.elim) ?_
    rintro _ _ ⟨-, messages, rfl⟩
    exact ⟨books.congr rfl rfl rfl rfl rfl rfl, busy.evaluating, busy.unready, trivial⟩

theorem Script.charges {act : Call → NetM Unit} {trail : Call → Trail}
    (acts : ∀ c, Charges s Anywhere Anywhere (act c) (trail c)) (script : Script) :
    Charges s Anywhere Anywhere (script.run act) (script.trail act trail) := by
  induction script with
  | done => exact .none fun _ _ _ => Keeps.pure _
  | fail e => exact .none fun _ _ _ => Keeps.throw e
  | renew reactions transfer next ih =>
    intro earlier on a net books _
    rw [Script.run, leads_bind, leads_modify]
    exact ih earlier on a _ (books.congr rfl rfl rfl rfl rfl rfl) trivial
  | call c next ih =>
    intro earlier on a net books _
    have run := acts c earlier on a net books trivial
    unfold Leads at run
    rw [Script.run, leads_bind]
    simp only [Script.trail, List.foldl_append]
    unfold Leads caught
    cases result : act c net with
    | ok x net' =>
      rw [result] at run
      exact ih none net'.unlogged earlier on _ net' run.1 trivial
    | error e net' =>
      rw [result] at run
      exact ih (some e) net'.unlogged earlier on _ net' run trivial

/-- Code from outside moves nothing during passes, and what is due at their ends. -/
theorem Outside.tells (wf : s.WellFormed) (code : Outside) :
    ∀ depth, Tells s (code.notify depth) (code.atEnd depth) := by
  intro depth
  induction depth with
  | zero =>
    exact ⟨fun _ _ _ _ => Keeps.pure _, .none fun _ _ _ => Keeps.pure _⟩
  | succ depth ih =>
    refine ⟨fun earlier on a signal => ?_, .of_net fun earlier on a net books _ => ?_⟩
    · refine .bind .get fun net => Script.keeps ?_ (fun c => c.keeps_inPass) _
      rintro net reactions transfer ⟨books, busy⟩
      exact ⟨books.congr rfl rfl rfl rfl rfl rfl, busy.evaluating, busy.unready, trivial⟩
    · exact Script.charges (fun c => c.charges wf ih) _ earlier on a net books trivial

end Net

end Backprop
