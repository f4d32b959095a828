import Mathlib
import Backprop.Proofs.Outside
import Backprop.Proofs.Nets
/-!
# What the flags of a net tell

Of all that was called, what counts for the flags of a net are the passes that were started and the
moves that were completed.

* `Net.Stands`: the flags of a net outside of passes. `Net.leads_forwardPass_stands`,
  `Net.leads_backwardPass_stands` and `Net.leads_move_stands` say how they change, whatever fails.
* `Net.Call.fits`: so each call leaves the flags that go with what happened in it.
* `Net.Session.pass_states`: the flags after any calls.
-/

namespace Backprop

namespace Net

/-- What happened to a net: a pass was started, or a move was completed. -/
inductive Happening where
  /-- A forward pass, and whether what it computes is kept for a backward pass. -/
  | forward (kept completed : Bool)
  | backward (completed : Bool)
  | moved
deriving DecidableEq

namespace Happening

def isPass : Happening → Bool
  | moved => false
  | _ => true

/-- A pass that was started but not completed. -/
def isAborted : Happening → Bool
  | forward _ completed | backward completed => !completed
  | moved => false

end Happening

/-- Whether a backward pass can follow what happened, the latest first: a forward pass was completed
and kept, and nothing has happened since. -/
def readyAfter (history : List Happening) : Bool := history.head? == some (.forward true true)

/-- Whether the latest pass was aborted. -/
def dirtyAfter (history : List Happening) : Bool :=
  (history.find? Happening.isPass).any Happening.isAborted

theorem not_dirty_of_ready {history : List Happening} (ready : readyAfter history = true) :
    dirtyAfter history = false := by
  cases history with
  | nil => rfl
  | cons x history =>
    obtain rfl : x = .forward true true := by simpa [readyAfter] using ready
    rfl

/-- The flags of a net outside of passes. -/
structure Stands (ready dirty : Bool) (net : Net) : Prop where
  idle : net.evaluating = false
  ready : net.backwardReady = ready
  dirty : net.dirty = dirty

variable {ready dirty : Bool} {net : Net} {notify : Notify} {P : Bool → Prop}

theorem lax_stands : Lax (Stands ready dirty) where
  table := fun ⟨a, b, c⟩ _ => ⟨a, b, c⟩
  records := by
    rintro _ _ ⟨a, b, c⟩ ⟨journal, profile, rfl⟩
    exact ⟨a, b, c⟩
  pending := fun ⟨a, b, c⟩ => ⟨a, b, c⟩

/-! ### Passes -/

/-- What is told of a pass leaves its flags alone, and nothing is told of its end. -/
structure Calm (notify : Notify) : Prop where
  busy : ∀ P signal, Keeps (Busy P) (notify signal)
  finished : ∀ net, notify (.event .finished) net = .ok ⟨⟩ net

/-- A part of a pass that fails leaves the net dirty and not ready. -/
theorem leads_attempt_stands {pass place : String} {m : NetM Unit} {ok : Unit → Net → Prop}
    (h : Leads m net ok fun _ net' => net'.Busy P) :
    Leads (attempt pass place m) net ok fun _ net' => net'.Stands false true := by
  unfold Leads at h ⊢
  simp only [attempt]
  cases run : m net with
  | ok a net' =>
    rw [run] at h
    exact h
  | error e net' =>
    rw [run] at h
    exact ⟨rfl, h.unready, rfl⟩

/-- The last of two steps decides on the result. -/
theorem leads_last {α β : Type} {m : NetM α} {f : α → NetM β} {ok : β → Net → Prop}
    (h : ∀ a net, Leads (f a) net ok fun _ _ => True) :
    Leads (m >>= f) net ok fun _ _ => True := by
  rw [leads_bind]
  unfold Leads
  cases m net with
  | ok a net' => exact h a net'
  | error e net' => trivial

theorem leads_prepare_clean (ws : Workspace) (options : PassOptions) :
    Leads (prepare ws options) net (fun _ net' => net'.dirty = false) fun _ _ => True := by
  have rest : ∀ net, Leads (do
      onTable (VariableTable.reset options.accumulate)
      bindInputs
      modify fun net => { net with dirty := false }) net (fun _ net' => net'.dirty = false)
        fun _ _ => True :=
    fun _ => leads_last fun _ _ => leads_last fun _ _ => rfl
  refine leads_last fun _ _ => ?_
  dsimp only
  split
  · exact leads_last fun _ _ => rest _
  · exact rest _

/-- Before its first instruction a forward pass takes back that another one was aborted. -/
theorem leads_prepare_busy (busy : net.Busy fun _ => True) (ws : Workspace) (options : PassOptions) :
    Leads (prepare ws options) net (fun _ net' => net'.Busy (· = false))
      fun _ net' => net'.Busy fun _ => True := by
  have kept := keeps_prepare aloof_busy.toLax
    (fun net (busy : net.Busy fun _ => True) => ⟨busy.evaluating, busy.unready, trivial⟩) ws options
  refine ((kept net busy).and (leads_prepare_clean ws options)).mono ?_ fun _ _ h => h.1
  rintro _ net' ⟨busy, clean⟩
  exact ⟨busy.evaluating, busy.unready, clean⟩

section
variable (calm : Calm notify)
include calm

theorem leads_forwardSteps_stands (testing : Bool) (released : List (List Slot)) :
    ∀ (l : List Instruction) (net : Net), net.Busy P →
      Leads (forwardSteps notify testing released l) net (fun _ net' => net'.Busy P)
        fun _ net' => net'.Stands false true := by
  intro l
  induction l with
  | nil => exact fun _ busy => busy
  | cons i l ih =>
    intro net busy
    have step := turns_forwardStep aloof_busy.loose (keeps_constants aloof_busy i) (calm.busy P)
      testing (released.getD i.index [])
    rw [forwardSteps, leads_bind]
    exact (leads_attempt_stands (step net busy)).mono (fun _ net' busy => ih net' busy) fun _ _ h => h

theorem leads_backwardSteps_stands (release : ReleasePlan) :
    ∀ (l : List Instruction) (step : Nat) (net : Net), net.Busy P →
      Leads (backwardSteps notify release step l) net (fun _ net' => net'.Busy P)
        fun _ net' => net'.Stands false true := by
  intro l
  induction l with
  | nil => exact fun _ _ busy => busy
  | cons i l ih =>
    intro step net busy
    have one := keeps_backwardStep aloof_busy.loose (keeps_constants aloof_busy i) (calm.busy P)
      (release.backwardValues.getD step []) (release.backwardDers.getD step [])
    rw [backwardSteps, leads_bind]
    exact (leads_attempt_stands (one net busy)).mono (fun _ net' busy => ih _ net' busy) fun _ _ h => h

/-- The end of a pass. -/
theorem leads_leave_stands (busy : net.Busy (· = dirty)) :
    Leads (do leave ready; notify (.event .finished)) net (fun _ net' => net'.Stands ready dirty)
      fun _ net' => net'.Stands false true := by
  rw [leads_bind, leave, leads_modify, leads_of_ok (calm.finished _)]
  exact ⟨rfl, rfl, busy.dirty⟩

theorem leads_forwardPass_stands (stands : net.Stands ready dirty) (ws : Workspace)
    {options : PassOptions} {mode : Mode} (named : Mode.ofName options.mode = .ok mode) :
    Leads (forwardPass ws notify options) net
      (fun _ net' => net'.Stands (options.keepForBackward && mode != .test) false)
      fun _ net' => net'.Stands false true := by
  have busy : { net with evaluating := true, backwardReady := false }.Busy fun _ => True :=
    ⟨rfl, rfl, trivial⟩
  simp only [forwardPass, leads_bind, leads_ofExcept, named, enter, leads_get, stands.idle,
    Bool.false_eq_true, if_false, leads_modify]
  refine (leads_attempt_stands (leads_prepare_busy busy ws options)).mono ?_ fun _ _ h => h
  intro _ net' busy
  refine (leads_forwardSteps_stands calm _ _ _ net' busy).mono ?_ fun _ _ h => h
  intro _ net' busy
  simpa only [leads_bind] using leads_leave_stands calm busy

theorem leads_backwardPass_stands (stands : net.Stands true dirty) (ws : Workspace) (seed : Value) :
    Leads (backwardPass ws notify seed) net (fun _ net' => net'.Stands false dirty)
      fun _ net' => net'.Stands false true := by
  have busy : { net with evaluating := true, backwardReady := false }.Busy (· = dirty) :=
    ⟨rfl, rfl, stands.dirty⟩
  simp only [backwardPass, leads_bind, leads_get, stands.ready, Bool.not_true, Bool.false_eq_true,
    if_false, enter, stands.idle, leads_modify]
  refine (leads_attempt_stands (keeps_seedDers aloof_busy.loose ws seed _ busy)).mono ?_ fun _ _ h => h
  intro _ net' busy
  refine (leads_backwardSteps_stands calm _ _ _ net' busy).mono ?_ fun _ _ h => h
  intro _ net' busy
  simpa only [leads_bind] using leads_leave_stands calm busy

end

theorem backwardPass_unready (unready : net.backwardReady = false) (ws : Workspace) (notify : Notify)
    (seed : Value) : backwardPass ws notify seed net = .error .notReady net := by
  change (if !net.backwardReady then _ else _ : NetM PUnit) net = _
  rw [unready]
  rfl

/-- A move that fails on the way leaves the net ready if it was. -/
theorem leads_move_stands (stands : net.Stands ready dirty) (label : NodeRef → String)
    (device : Value) :
    Leads (move label device) net (fun _ net' => net'.Stands false dirty)
      fun _ net' => net'.Stands ready dirty := by
  simp only [move, report, leads_bind, leads_get, stands.idle, Bool.false_eq_true, if_false,
    leads_modify]
  refine (Keeps.forM (fun k _ => keeps_moveParam lax_stands _ _) net stands).mono ?_ fun _ _ h => h
  exact fun _ net' stands => ⟨stands.idle, rfl, stands.dirty⟩

/-! ### Calls -/

/-- What happens when a forward pass is called. -/
def forwardHappenings (notify : Notify) (ws : Workspace) (options : PassOptions) (net : Net) :
    List Happening :=
  match Mode.ofName options.mode with
  | .error _ => []
  | .ok mode =>
    if net.evaluating then []
    else [.forward (options.keepForBackward && mode != .test)
      (net.succeeds (forwardPass ws notify options) fun _ => true)]

/-- What happens when a backward pass is called. -/
def backwardHappenings (notify : Notify) (ws : Workspace) (seed : Value) (net : Net) :
    List Happening :=
  if net.evaluating || !net.backwardReady then []
  else [.backward (net.succeeds (backwardPass ws notify seed) fun _ => true)]

/-- What happens when a net is called, the latest first. -/
def Call.happenings (notify : Notify) : Call → Net → List Happening
  | evaluate ws options seed, net =>
    match Mode.ofName options.mode with
    | .error _ => []
    | .ok mode =>
      let half := { options with keepForBackward := mode == .normal }
      let net := ends (report ("Evaluating Net in `" ++ options.mode ++ "` mode.")) net
      let first := forwardHappenings notify ws half net
      match forwardPass ws notify half net with
      | .ok _ net => if mode = .normal then backwardHappenings notify ws seed net ++ first else first
      | .error .. => first
  | forward ws options, net => forwardHappenings notify ws options net
  | backward ws seed, net => backwardHappenings notify ws seed net
  | move label device, net =>
    if net.succeeds (Net.move label device) fun _ => true then [.moved] else []
  | _, _ => []

/-- What a change leads to is what it ends in. -/
theorem ends_of_leads {m : NetM Unit} {ok : Unit → Net → Prop} {err : Error → Net → Prop}
    (h : Leads m net ok err) :
    (net.succeeds m (fun _ => true) = true ∧ ok ⟨⟩ (ends m net)) ∨
      (net.succeeds m (fun _ => true) = false ∧ ∃ e, err e (ends m net)) := by
  unfold Leads at h
  unfold succeeds ends
  cases run : m net with
  | ok a net' =>
    rw [run] at h
    exact .inl ⟨rfl, h⟩
  | error e net' =>
    rw [run] at h
    exact .inr ⟨rfl, e, h⟩

/-- The flags of a net are those that go with what happened to it. -/
def Fits (history : List Happening) (net : Net) : Prop :=
  net.Stands (readyAfter history) (dirtyAfter history)

variable {history : List Happening}

theorem fits_forward (calm : Calm notify) (fits : net.Fits history) (ws : Workspace)
    (options : PassOptions) :
    (ends (forwardPass ws notify options) net).Fits
      (forwardHappenings notify ws options net ++ history) := by
  unfold forwardHappenings
  cases named : Mode.ofName options.mode with
  | error e =>
    have unstarted : ends (forwardPass ws notify options) net = net := by
      simp only [ends, forwardPass, bind, EStateM.bind, named]
      rfl
    rw [unstarted]
    exact fits
  | ok mode =>
    dsimp only
    rw [fits.idle, if_neg Bool.false_ne_true]
    rcases ends_of_leads (leads_forwardPass_stands calm fits ws named) with
      ⟨done, stands⟩ | ⟨failed, e, stands⟩
    · rw [done]
      refine ⟨stands.idle, stands.ready.trans ?_, stands.dirty⟩
      cases options.keepForBackward && mode != .test <;> rfl
    · rw [failed]
      refine ⟨stands.idle, stands.ready.trans ?_, stands.dirty⟩
      cases options.keepForBackward && mode != .test <;> rfl

theorem fits_backward (calm : Calm notify) (fits : net.Fits history) (ws : Workspace)
    (seed : Value) :
    (ends (backwardPass ws notify seed) net).Fits
      (backwardHappenings notify ws seed net ++ history) := by
  unfold backwardHappenings
  rw [fits.idle]
  cases ready : net.backwardReady with
  | false =>
    have unstarted : ends (backwardPass ws notify seed) net = net := by
      rw [ends, backwardPass_unready ready]
    rw [unstarted]
    exact fits
  | true =>
    have after : readyAfter history = true := fits.ready.symm.trans ready
    have clean := not_dirty_of_ready after
    have stands : net.Stands true false := ⟨fits.idle, ready, fits.dirty.trans clean⟩
    rcases ends_of_leads (leads_backwardPass_stands calm stands ws seed) with
      ⟨done, stands⟩ | ⟨failed, e, stands⟩
    · rw [done]
      exact stands
    · rw [failed]
      exact stands

theorem fits_evaluate (calm : Calm notify) (fits : net.Fits history) (ws : Workspace)
    (options : PassOptions) (seed : Value) :
    (ends (evaluatePass ws notify options seed) net).Fits
      ((Call.evaluate ws options seed).happenings notify net ++ history) := by
  simp only [Call.happenings]
  cases named : Mode.ofName options.mode with
  | error e =>
    have unstarted : ends (evaluatePass ws notify options seed) net = net := by
      simp only [ends, evaluatePass, bind, EStateM.bind, named]
      rfl
    rw [unstarted]
    exact fits
  | ok mode =>
    let half : PassOptions := { options with keepForBackward := mode == .normal }
    let told := ends (report ("Evaluating Net in `" ++ options.mode ++ "` mode.")) net
    have fits' : told.Fits history := lax_stands.records fits ⟨_, _, rfl⟩
    have first := fits_forward calm fits' ws half
    have run : ends (evaluatePass ws notify options seed) net =
        ends (forwardPass ws notify half >>= fun _ =>
          if mode = .normal then backwardPass ws notify seed else pure ⟨⟩) told := by
      simp only [ends, evaluatePass, bind, EStateM.bind, named]
      rfl
    rw [run]
    dsimp only
    change (ends _ told).Fits ((match forwardPass ws notify half told with
      | .ok _ net => if mode = .normal then
          backwardHappenings notify ws seed net ++ forwardHappenings notify ws half told
        else forwardHappenings notify ws half told
      | .error .. => forwardHappenings notify ws half told) ++ history)
    simp only [ends, bind, EStateM.bind] at first ⊢
    cases ended : forwardPass ws notify half told with
    | error e net' =>
      rw [ended] at first
      exact first
    | ok a net' =>
      rw [ended] at first
      dsimp only at first ⊢
      by_cases normal : mode = .normal
      · rw [if_pos normal, if_pos normal, List.append_assoc]
        exact fits_backward calm first ws seed
      · rw [if_neg normal, if_neg normal]
        exact first

theorem fits_move (fits : net.Fits history) (label : NodeRef → String) (device : Value) :
    (ends (move label device) net).Fits
      ((Call.move label device).happenings notify net ++ history) := by
  simp only [Call.happenings]
  rcases ends_of_leads (leads_move_stands fits label device) with ⟨done, stands⟩ | ⟨failed, e, stands⟩
  · rw [done]
    exact stands
  · rw [failed]
    exact stands

/-- Every call leaves the flags that go with what happened. -/
theorem Call.fits (calm : Calm notify) (fits : net.Fits history) (c : Call) :
    (ends (c.runWith fun _ => notify) net).Fits (c.happenings notify net ++ history) := by
  have other : ∀ {c : Call}, c.refusal = none → c.happenings notify net = [] →
      (ends (c.runWith fun _ => notify) net).Fits (c.happenings notify net ++ history) := by
    intro c unrefused nothing
    rw [nothing, Call.runWith_of_unrefused unrefused]
    exact keeps_ends (Call.keeps_of_unrefused lax_stands.loose unrefused) fits
  cases c with
  | evaluate ws options seed => exact fits_evaluate calm fits ws options seed
  | forward ws options => exact fits_forward calm fits ws options
  | backward ws seed => exact fits_backward calm fits ws seed
  | move label device => exact fits_move fits label device
  | _ => exact other rfl rfl

/-! ### Sessions -/

/-- Code that does nothing when it is told that a pass has ended. -/
def Outside.Unfinalized (code : Outside) : Prop := ∀ net, code (.event .finished) net = .done

theorem Outside.Unfinalized.calm {code : Outside} (silent : code.Unfinalized) (depth : Nat) :
    Calm (code.notify depth) where
  busy _ signal := code.keeps_busy depth signal
  finished net := by
    cases depth with
    | zero => rfl
    | succ depth =>
      change (code (.event .finished) net.unlogged).run _ net = _
      rw [silent]
      rfl

/-- The nets that building one and calling it lead to, with what happened to them, the latest first.
Code from outside can be another one at each call, and what lies outside of the net can change between
calls. -/
inductive Session (ws : Workspace) (terminals : List Value) (options : NetOptions) :
    List Happening → Net → Prop where
  | built {net : Net} {ws' : Workspace} : ws.buildNet terminals options = (.ok net, ws') →
      Session ws terminals options [] net
  | call {history : List Happening} {net : Net} (c : Call) (code : Outside) (depth : Nat) :
      code.Unfinalized → Session ws terminals options history net →
        Session ws terminals options (c.happenings (code.notify depth) net ++ history)
          (ends (c.runWith fun _ => code.notify depth) net)
  | renew {history : List Happening} {net : Net} (reactions : Array Reaction) (transfer : Transfer) :
      Session ws terminals options history net →
        Session ws terminals options history { net with reactions, transfer }

theorem fits_built {ws ws' : Workspace} {terminals : List Value} {options : NetOptions}
    (run : ws.buildNet terminals options = (.ok net, ws')) : net.Fits [] := by
  obtain ⟨_, _, s, now, -, -, built_net⟩ := buildNet_steps run
  have start : (ofSchedule now s options).Stands false false := ⟨rfl, rfl, rfl⟩
  rcases built_net with ⟨-, rfl, -⟩ | ⟨-, moved, move, rfl, -⟩
  · exact start
  · have stands := leads_move_stands start now.label options.config.device
    rw [leads_of_ok move] at stands
    exact ⟨stands.idle, stands.ready, stands.dirty⟩

theorem Session.fits {ws : Workspace} {terminals : List Value} {options : NetOptions}
    (session : Session ws terminals options history net) : net.Fits history := by
  induction session with
  | built run => exact fits_built run
  | call c code depth silent _ ih => exact c.fits (silent.calm depth) ih
  | renew reactions transfer _ ih => exact ⟨ih.idle, ih.ready, ih.dirty⟩

end Net

end Backprop
