import Backprop.Proofs.Calls
/-!
# Code from outside

A pass lets code from outside act: kernels, and the observers of its steps. What such code can do to
the net is call it, so it is a tree of calls, each chosen by how the ones before it ended and by what
the net was like then.

* `Net.Outside.notify`: the changes that such code makes. It acts again in the passes that it starts.
* `Net.Call.refused`: a pass refuses other passes and moves, and they leave the net as it is.
* `Net.Outside.keeps_busy`: so nothing that is done during a pass ends it or prepares another one.
-/

namespace Backprop

namespace Net

/-- A call whose passes let this code act, and not the observers that wait. -/
def Call.runWith (notify : Workspace → Notify) : Call → NetM Unit
  | evaluate ws options seed => evaluatePass ws (notify ws) options seed
  | forward ws options => forwardPass ws (notify ws) options
  | backward ws seed => backwardPass ws (notify ws) seed
  | call => call.run

theorem Call.run_eq_runWith (c : Call) : c.run = c.runWith notifyObservers := by cases c <;> rfl

/-- What code from outside does when it is let act. -/
inductive Script where
  | done
  | fail (e : Error)
  /-- Changes what lies outside of the net: what observers wait for and how values are moved. -/
  | renew (reactions : Array Reaction) (transfer : Transfer) (next : Script)
  /-- Calls the net. How it goes on can depend on the failure, if there was one, and on the net. -/
  | call (c : Call) (next : Option Error → Net → Script)

/-- A change whose failure is caught. -/
def caught (m : NetM Unit) : NetM (Option Error) := fun net =>
  match m net with
  | .ok _ net => .ok none net
  | .error e net => .ok (some e) net

/-- A net without the records of what was done to it. -/
def unlogged (net : Net) : Net := { net with journal := {} }

/-- Whether nets differ in what was recorded of them at most. -/
def Noted (net net' : Net) : Prop := ∃ journal, net' = { net with journal }

theorem Noted.refl (net : Net) : net.Noted net := ⟨net.journal, rfl⟩

/-- Whether nets differ in their messages at most. -/
def Reported (net net' : Net) : Prop :=
  ∃ messages, net' = { net with journal := { net.journal with messages } }

theorem Reported.refl (net : Net) : net.Reported net := ⟨net.journal.messages, rfl⟩

/-- The changes that a script makes, if a call makes the changes `act`. -/
def Script.run (act : Call → NetM Unit) : Script → NetM Unit
  | done => return
  | fail e => throw e
  | renew reactions transfer next => do
    modify fun net => { net with reactions, transfer }
    next.run act
  | call c next => do
    let failure ← caught (act c)
    let net ← get
    (next failure net.unlogged).run act

/-- Code from outside: what is done at a signal, depending on the net. -/
abbrev Outside := Signal → Net → Script

/-- Lets the code act. In the passes that it starts it acts again, at most `depth` deep. -/
def Outside.notify (code : Outside) : Nat → Notify
  | 0, _ => return
  | depth + 1, signal => do
    let net ← get
    (code signal net.unlogged).run (Call.runWith fun _ => code.notify depth)

/-! ### During a pass -/

/-- Whether a pass is running, with a given property of the flag that tells of aborted passes. -/
structure Busy (P : Bool → Prop) (net : Net) : Prop where
  evaluating : net.evaluating = true
  unready : net.backwardReady = false
  dirty : P net.dirty

variable {P : Bool → Prop} {net : Net} {notify : Workspace → Notify}

theorem aloof_busy : Aloof (Busy P) where
  table := fun ⟨a, b, c⟩ _ => ⟨a, b, c⟩
  records := by
    rintro _ _ ⟨a, b, c⟩ ⟨journal, profile, rfl⟩
    exact ⟨a, b, c⟩
  pending := fun ⟨a, b, c⟩ => ⟨a, b, c⟩
  placed := fun ⟨a, b, c⟩ => ⟨a, b, c⟩

/-- A refusal says that the state of the net does not allow the call, unless the call names a mode
that does not exist. -/
theorem Call.refusal_kind {c : Call} {e : Error} (refusal : c.refusal = some e) :
    e.kind = .evaluationState ∨ ∃ mode, e = .unknownMode mode := by
  have start : ∀ options, (startRefusal options).kind = .evaluationState ∨
      ∃ mode, startRefusal options = .unknownMode mode := by
    intro options
    unfold startRefusal Mode.ofName
    split_ifs
    · exact .inl rfl
    · exact .inl rfl
    · exact .inl rfl
    · exact .inr ⟨options.mode, rfl⟩
  cases c with
  | evaluate ws options seed =>
    cases refusal
    exact start options
  | forward ws options =>
    cases refusal
    exact start options
  | backward ws seed =>
    cases refusal
    exact .inl rfl
  | move label device =>
    cases refusal
    exact .inl rfl
  | _ => cases refusal

theorem refuses_forwardPass (busy : net.Busy P) (ws : Workspace) (act : Notify)
    (options : PassOptions) :
    Leads (forwardPass ws act options) net (fun _ _ => False)
      fun e net' => e = startRefusal options ∧ net' = net := by
  rw [forwardPass, leads_bind, leads_ofExcept, startRefusal]
  cases Mode.ofName options.mode with
  | error e => exact ⟨rfl, rfl⟩
  | ok mode =>
    dsimp only
    rw [leads_bind, enter, leads_bind, leads_get, busy.evaluating]
    exact ⟨rfl, rfl⟩

/-- What a pass refuses leaves nothing but a message. -/
theorem Call.refused (busy : net.Busy P) {c : Call} {e : Error} (refusal : c.refusal = some e) :
    Leads (c.runWith notify) net (fun _ _ => False) fun e' net' => e' = e ∧ net.Reported net' := by
  cases c with
  | evaluate ws options seed =>
    cases refusal
    rw [Call.runWith, evaluatePass, leads_bind, leads_ofExcept]
    cases named : Mode.ofName options.mode with
    | error e =>
      have unnamed : startRefusal options = e := by rw [startRefusal, named]
      exact ⟨unnamed.symm, .refl net⟩
    | ok mode =>
      have later : ∀ journal, { net with journal }.Busy P := fun _ =>
        aloof_busy.records busy ⟨_, _, rfl⟩
      dsimp only
      rw [leads_bind, report, leads_modify, leads_bind]
      refine (refuses_forwardPass (later _) ws _ _).mono (fun _ _ h => h.elim) ?_
      rintro _ _ ⟨rfl, rfl⟩
      exact ⟨rfl, _, rfl⟩
  | forward ws options =>
    cases refusal
    refine (refuses_forwardPass busy ws _ options).mono (fun _ _ h => h) ?_
    rintro _ _ ⟨rfl, rfl⟩
    exact ⟨rfl, .refl _⟩
  | backward ws seed =>
    cases refusal
    rw [Call.runWith, backwardPass, leads_bind, leads_get, busy.unready]
    exact ⟨rfl, .refl _⟩
  | move label device =>
    cases refusal
    change Leads (Net.move label device) net _ _
    rw [Net.move, leads_bind, leads_get, busy.evaluating]
    exact ⟨rfl, .refl _⟩
  | _ => cases refusal

/-! ### What code from outside keeps -/

/-- A call that starts no pass lets nobody act. -/
theorem Call.runWith_of_unrefused {c : Call} (unrefused : c.refusal = none) :
    c.runWith notify = c.run := by
  cases c with
  | evaluate ws options seed => cases unrefused
  | forward ws options => cases unrefused
  | backward ws seed => cases unrefused
  | _ => rfl

theorem Call.keeps_busy (c : Call) : Keeps (Busy P) (c.runWith notify) := by
  cases refusal : c.refusal with
  | none =>
    rw [Call.runWith_of_unrefused refusal]
    exact Call.keeps_of_unrefused aloof_busy.loose refusal
  | some e =>
    intro net busy
    refine (Call.refused busy refusal).mono (fun _ _ h => h.elim) ?_
    rintro _ _ ⟨-, messages, rfl⟩
    exact aloof_busy.records busy ⟨_, _, rfl⟩

/-- What is kept is kept when the error is caught, and then nothing fails. -/
theorem leads_caught {I : Net → Prop} {m : NetM Unit} {net : Net} (h : Keeps I m) (holds : I net) :
    Leads (caught m) net (fun _ net' => I net') fun _ _ => False := by
  have run := h net holds
  unfold Leads at run ⊢
  simp only [caught]
  cases x : m net <;> rw [x] at run <;> exact run

theorem keeps_caught {I : Net → Prop} {m : NetM Unit} (h : Keeps I m) : Keeps I (caught m) :=
  fun _ holds => (leads_caught h holds).mono (fun _ _ kept => kept) fun _ _ never => never.elim

theorem Script.keeps {I : Net → Prop}
    (renew : ∀ {net : Net} {reactions : Array Reaction} {transfer : Transfer}, I net →
      I { net with reactions, transfer })
    {act : Call → NetM Unit} (acts : ∀ c, Keeps I (act c)) (script : Script) :
    Keeps I (script.run act) := by
  induction script with
  | done => exact .pure _
  | fail e => exact .throw e
  | renew reactions transfer next ih => exact .bind (.modify fun _ holds => renew holds) fun _ => ih
  | call c next ih => exact .bind (keeps_caught (acts c)) fun failure => .bind .get fun net => ih _ _

/-- Whatever code from outside does during a pass, the pass goes on. -/
theorem Outside.keeps_busy (code : Outside) : ∀ (depth : Nat) (signal : Signal),
    Keeps (Busy P) (code.notify depth signal) := by
  intro depth
  cases depth with
  | zero => exact fun _ => .pure _
  | succ depth =>
    intro signal
    refine .bind .get fun net => Script.keeps (fun ⟨a, b, c⟩ => ⟨a, b, c⟩) (fun c => ?_) _
    exact c.keeps_busy

end Net

end Backprop
