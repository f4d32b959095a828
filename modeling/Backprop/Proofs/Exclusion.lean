import Mathlib
import Backprop.Proofs.Agreement
import Backprop.Proofs.Outside
import Backprop.Proofs.Nets
/-!
# Evaluations exclude each other

While a pass runs, what its kernels and its observers call is refused if it would start a pass or
move the net, and otherwise nothing comes of it. Between the two halves of an evaluation the net is
open: an observer that is told of the end of the first half can run passes of its own.

* `Net.Outside.guarded`: code from outside that is kept from such calls during passes.
* `Net.told_guarded`: what it does agrees with what the code does without the guard.
* `Net.Outside.exclusive`: so an evaluation ends in the same way.
* `Net.exclusive_not_between_halves`: between the halves it does not.
-/

namespace Backprop

namespace Net

variable {E : Error → Error → Prop} {s : Schedule} {I : Net → Prop}

/-! ### Nets with different records -/

/-- Nets with a property that run a schedule and differ in their records at most. -/
structure Mirror (s : Schedule) (I : Net → Prop) (net net' : Net) : Prop where
  schedule : net.schedule = s
  holds : I net
  noted : net.Noted net'

theorem kin_mirror (lax : Lax I) : Kin Eq (Mirror s I) where
  refl _ := rfl
  same := by
    rintro _ _ ⟨-, -, journal, rfl⟩
    exact ⟨_, _, _, _, _, rfl⟩
  table := by
    rintro net _ table ⟨schedule, holds, journal, rfl⟩ same
    exact ⟨schedule, lax.table holds same, journal, rfl⟩
  records := by
    rintro net _ j j' f ⟨schedule, holds, journal, rfl⟩
    exact ⟨schedule, lax.records holds ⟨_, _, rfl⟩, j', rfl⟩
  pending := by
    rintro net _ pending ⟨schedule, holds, journal, rfl⟩
    exact ⟨schedule, lax.pending holds, journal, rfl⟩

theorem agree_constants_mirror (aloof : Aloof I) (i : Instruction) :
    Agree Eq (Mirror s I) (constants i) (constants i) (Mirror s I) (Mirror s I) := by
  have kin := kin_mirror (s := s) aloof.toLax
  refine .bind_get fun net net' rel => ?_
  obtain ⟨journal, rfl⟩ := rel.noted
  refine .ite (fun _ => ?_) fun _ => .pure _
  cases net.placed.lookup i.index with
  | some placed => exact .pure _
  | none =>
    refine .bind (.mapM fun v _ => agree_place kin v) fun args => ?_
    refine .bind (.mapM fun p _ => .bind (agree_place kin p.2) fun _ => .pure _) fun kwargs => ?_
    refine .bind (.modify ?_) fun _ => .pure _
    rintro net _ ⟨schedule, holds, journal, rfl⟩
    exact ⟨schedule, aloof.placed holds, journal, rfl⟩

/-- What always holds does not depend on anything. -/
theorem aloof_true : Aloof fun _ => True := by
  constructor
  · constructor <;> intros <;> trivial
  · intros
    trivial

/-- Records do not show in passes. -/
theorem twins_mirror : Twins s Eq (Mirror s fun _ => True) (Mirror s (Busy fun _ => True)) where
  out := kin_mirror aloof_true.toLax
  inside := kin_mirror aloof_busy.toLax
  schedule mirror := mirror.schedule
  constants _ := agree_constants_mirror aloof_busy _
  enter := by
    rintro net _ ⟨schedule, -, journal, rfl⟩ -
    exact ⟨schedule, ⟨rfl, rfl, trivial⟩, journal, rfl⟩
  leave := by
    rintro net _ ready ⟨schedule, -, journal, rfl⟩
    exact ⟨schedule, trivial, journal, rfl⟩
  abort := by
    rintro net _ ⟨schedule, -, journal, rfl⟩
    exact ⟨schedule, trivial, journal, rfl⟩
  clean := by
    rintro net _ ⟨schedule, busy, journal, rfl⟩
    exact ⟨schedule, ⟨busy.evaluating, busy.unready, trivial⟩, journal, rfl⟩
  device := by
    rintro net _ device ⟨schedule, -, journal, rfl⟩
    exact ⟨schedule, trivial, journal, rfl⟩

/-! ### Code from outside in two runs -/

theorem agree_caught {R : Net → Net → Prop} {m n : NetM Unit} (h : Agree Eq R m n R R) :
    Agree Eq R (caught m) (caught n) R R := by
  intro net net' rel
  have ends := h net net' rel
  simp only [caught]
  cases x : m net <;> cases y : n net' <;> rw [x, y] at ends
  · exact ⟨rfl, ends.2⟩
  · exact ends.elim
  · exact ends.elim
  · exact ⟨congrArg some ends.1, ends.2⟩

/-- A script ends alike in two runs if the calls in it do. It does not see records. -/
theorem Script.agree {act act' : Call → NetM Unit}
    (renew : ∀ {net : Net} {reactions : Array Reaction} {transfer : Transfer}, I net →
      I { net with reactions, transfer })
    (acts : ∀ c, Agree Eq (Mirror s I) (act c) (act' c) (Mirror s I) (Mirror s I))
    (script : Script) :
    Agree Eq (Mirror s I) (script.run act) (script.run act') (Mirror s I) (Mirror s I) := by
  induction script with
  | done => exact .pure _
  | fail e => exact .throw rfl
  | renew reactions transfer next ih =>
    refine .bind (.modify ?_) fun _ => ih
    rintro net _ ⟨schedule, holds, journal, rfl⟩
    exact ⟨schedule, renew holds, journal, rfl⟩
  | call c next ih =>
    refine .bind (agree_caught (acts c)) fun failure => .bind_get fun net net' rel => ?_
    obtain ⟨journal, rfl⟩ := rel.noted
    exact ih failure net.unlogged

theorem alike_refl {In : Net → Net → Prop} (refl : ∀ e, E e e) (ws : Workspace) :
    Alike E In ws ws := ⟨fun _ _ _ => rfl, fun _ => refl _⟩

theorem Call.agree_of_unrefused {R : Net → Net → Prop} (kin : Kin E R) {c : Call}
    (unrefused : c.refusal = none) : Agree E R c.run c.run R R := by
  cases c with
  | getValue key => exact .bind (agree_getValue kin key) fun _ => .pure _
  | setValue key v => exact agree_setValue kin key v
  | getDer key => exact .bind (agree_getDer kin key) fun _ => .pure _
  | setDer key der => exact agree_setDer kin key der
  | setInputs values => exact agree_setInputs kin values
  | describe => exact .bind (agree_describe kin) fun _ => .pure _
  | descend rate => exact .bind (agree_descend kin rate) fun _ => .pure _
  | _ => cases unrefused

/-- Outside of a pass, calls agree if what they tell of does. -/
theorem Call.agree {Out In : Net → Net → Prop} (twins : Twins s E Out In) (wf : s.WellFormed)
    {notify notify' : Notify} (told : Told E Out In notify notify') (c : Call) :
    Agree E Out (c.runWith fun _ => notify) (c.runWith fun _ => notify') Out Out := by
  have alike : ∀ ws, Alike E In ws ws := alike_refl twins.out.refl
  have other : ∀ {c : Call}, c.refusal = none →
      Agree E Out (c.runWith fun _ => notify) (c.runWith fun _ => notify') Out Out := by
    intro c unrefused
    rw [Call.runWith_of_unrefused unrefused, Call.runWith_of_unrefused unrefused]
    exact Call.agree_of_unrefused twins.out unrefused
  cases c with
  | evaluate ws options seed => exact agree_evaluatePass twins told wf (alike ws) options seed
  | forward ws options => exact agree_forwardPass twins told (alike ws) options
  | backward ws seed => exact agree_backwardPass twins told wf (alike ws) seed
  | move label device => exact agree_move twins rfl
  | _ => exact other rfl

/-! ### The guard -/

/-- A call that is not carried out if it would start a pass or move the net. -/
def Call.barred (c : Call) : NetM Unit :=
  match c.refusal with
  | some e => throw e
  | none => c.run

/-- Code from outside whose calls are barred during passes. At the end of a pass it is free, and its
calls are guarded in the same way. -/
def Outside.guarded (code : Outside) : Nat → Notify
  | 0, _ => return
  | depth + 1, signal => do
    let net ← get
    let act : Call → NetM Unit :=
      match signal with
      | .event .finished => Call.runWith fun _ => code.guarded depth
      | _ => Call.barred
    (code signal net.unlogged).run act

/-- A pass bars the calls that it refuses by itself. -/
theorem Call.agree_barred {P : Bool → Prop} {notify : Workspace → Notify} (c : Call) :
    Agree Eq (Mirror s (Busy P)) (c.runWith notify) c.barred (Mirror s (Busy P))
      (Mirror s (Busy P)) := by
  unfold Call.barred
  cases refusal : c.refusal with
  | none =>
    rw [Call.runWith_of_unrefused refusal]
    exact Call.agree_of_unrefused (kin_mirror aloof_busy.toLax) refusal
  | some e =>
    rintro net _ ⟨schedule, busy, journal, rfl⟩
    refine Meet.of_leads (Call.refused busy refusal)
      ((leads_throw e _ (fun _ _ => False) fun e' t => e' = e ∧ t = { net with journal }).mpr ⟨rfl, rfl⟩)
      (fun _ _ _ _ h _ => h.elim) ?_ (fun _ _ _ _ h _ => h.elim) fun _ _ _ _ _ h => h.elim
    rintro _ _ _ _ ⟨rfl, messages, rfl⟩ ⟨rfl, rfl⟩
    exact ⟨rfl, schedule, aloof_busy.records busy ⟨_, _, rfl⟩, journal, rfl⟩

theorem told_guarded (wf : s.WellFormed) (code : Outside) : ∀ depth,
    Told Eq (Mirror s fun _ => True) (Mirror s (Busy fun _ => True)) (code.notify depth)
      (code.guarded depth) := by
  intro depth
  induction depth with
  | zero => exact ⟨fun _ _ => .pure _, .pure _⟩
  | succ depth ih =>
    constructor
    · intro signal inside
      refine .bind_get fun net net' rel => ?_
      obtain ⟨journal, rfl⟩ := rel.noted
      refine Script.agree (fun ⟨a, b, c⟩ => ⟨a, b, c⟩) (fun c => ?_) (code signal net.unlogged)
      cases signal with
      | kernel instruction args kwargs => exact c.agree_barred
      | event e =>
        cases e with
        | forward name outputs => exact c.agree_barred
        | backward name ders => exact c.agree_barred
        | finished => exact absurd rfl inside
    · refine .bind_get fun net net' rel => ?_
      obtain ⟨journal, rfl⟩ := rel.noted
      refine Script.agree (fun _ => trivial) (fun c => ?_) (code (.event .finished) net.unlogged)
      exact c.agree twins_mirror wf ih

/-- What kernels and observers do during the passes of an evaluation cannot start another pass or
move the net: the evaluation ends as if such calls had failed at once, because of the state of the net
or for a mode that does not exist. This holds in whatever state the net is, and also for the
evaluations that observers run between passes. -/
theorem Outside.exclusive {ws ws' : Workspace} {terminals : List Value} {options : NetOptions}
    (built : ws.Built) (exist : ∀ n ∈ terminalNodes terminals, ws.Exists n) {base : Net}
    (run : ws.buildNet terminals options = (.ok base, ws')) (code : Outside) (depth : Nat)
    (now : Workspace) (pass : PassOptions) (seed : Value) (net : Net)
    (same : net.schedule = base.schedule) :
    (∀ (c : Call) (e : Error), c.refusal = some e →
      e.kind = .evaluationState ∨ ∃ mode, e = .unknownMode mode) ∧
    Meet Eq Noted Noted (evaluatePass now (code.notify depth) pass seed net)
      (evaluatePass now (code.guarded depth) pass seed net) := by
  obtain ⟨⟨id, order, marks, sched⟩, _⟩ := built_spec built exist run
  have wf : net.schedule.WellFormed := by
    rw [same]
    exact sched.wellFormed
  have mirror : Mirror net.schedule (fun _ => True) net net := ⟨rfl, trivial, .refl net⟩
  have ends := agree_evaluatePass twins_mirror (told_guarded wf code depth) wf
    (alike_refl (fun _ => rfl) now) pass seed net net mirror
  exact ⟨fun _ _ => Call.refusal_kind, ends.mono (fun _ _ h => h.noted) fun _ _ h => h.noted⟩

/-- Code that evaluates the first half for `x` as 7 whenever it is time. -/
def Sample.intruder (now : Workspace) (time : Signal → Net → Bool) : Outside := fun signal net =>
  if time signal net then .call (.forward now { inputs := [("x", .int 7)] }) fun _ _ => .done
  else .done

/-- The kernels and the steps of passes. -/
def Sample.within : Signal → Net → Bool
  | .event .finished, _ => false
  | _, _ => true

/-- The end of a half that another one can follow. -/
def Sample.halfway : Signal → Net → Bool
  | .event .finished, net => net.backwardReady
  | _, _ => false

/-- The value that a pass leaves for the sum of the sample. -/
def Sample.total (net : Net) : Value := net.table.valueAt (net.schedule.slotFor Sample.graph ⟨0, 3⟩)

theorem exclusive_sample : ∃ net now done,
    Sample.graph.buildNet Sample.terminals Sample.options = (.ok net, now) ∧
      evaluatePass now ((Sample.intruder now Sample.within).notify 1) Sample.pass .none net =
        .ok ⟨⟩ done ∧ Sample.total done = .int 20 ∧
      Meet Eq Noted Noted
        (evaluatePass now ((Sample.intruder now Sample.within).notify 1) Sample.pass .none net)
        (evaluatePass now ((Sample.intruder now Sample.within).guarded 1) Sample.pass .none net) := by
  have check : Sample.graph.builds Sample.terminals Sample.options (fun now net =>
      net.succeeds
        (evaluatePass now ((Sample.intruder now Sample.within).notify 1) Sample.pass .none)
        fun done => isWhole 20 (Sample.total done)) = true := by cbv
  obtain ⟨net, now, run, check⟩ := Workspace.of_builds check
  obtain ⟨done, ends, total⟩ := succeeds_iff.mp check
  exact ⟨net, now, done, run, ends, eq_of_isWhole total,
    (Outside.exclusive Sample.graph_built Sample.terminals_exist run _ 1 now Sample.pass .none net
      rfl).2⟩

/-- Between its halves an evaluation is open: an observer can run a first half for another input, and
the second half goes on from there. -/
theorem exclusive_not_between_halves : ∃ net now done done',
    Sample.graph.buildNet Sample.terminals Sample.options = (.ok net, now) ∧
      evaluatePass now (Outside.notify (fun _ _ => .done) 1) Sample.pass .none net = .ok ⟨⟩ done ∧
      Sample.total done = .int 20 ∧
      evaluatePass now ((Sample.intruder now Sample.halfway).notify 1) Sample.pass .none net =
        .ok ⟨⟩ done' ∧
      Sample.total done' = .int 28 := by
  have check : Sample.graph.builds Sample.terminals Sample.options (fun now net =>
      net.succeeds (evaluatePass now (Outside.notify (fun _ _ => .done) 1) Sample.pass .none)
        (fun done => isWhole 20 (Sample.total done)) &&
      net.succeeds
        (evaluatePass now ((Sample.intruder now Sample.halfway).notify 1) Sample.pass .none)
        fun done => isWhole 28 (Sample.total done)) = true := by cbv
  obtain ⟨net, now, run, check⟩ := Workspace.of_builds check
  obtain ⟨alone, disturbed⟩ := (Bool.and_eq_true _ _).mp check
  obtain ⟨done, ends, total⟩ := succeeds_iff.mp alone
  obtain ⟨done', ends', total'⟩ := succeeds_iff.mp disturbed
  exact ⟨net, now, done, done', run, ends, eq_of_isWhole total, ends', eq_of_isWhole total'⟩

end Net

end Backprop
