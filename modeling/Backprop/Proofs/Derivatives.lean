import Mathlib
import Backprop.Proofs.Evaluation
import Backprop.Proofs.Nets
/-!
# The derivatives that an evaluation leaves

* `outcome_getDer`: reading a derivative adds what waits for it.
* `IsAdjoint.congr`: the equations of derivatives depend on what instructions read.
* `Evaluated.outcome_getDer`: an evaluation leaves what was sent, added up.
* `Reached.derivatives`: after a normal evaluation the derivatives of leaves and of slots that are
  kept are those of the equations.
-/

namespace Backprop

namespace Net

variable {ws : Workspace} {terminals : List Value} {options : NetOptions} {s : Schedule}
  {net net' : Net} {val val' : Valuation} {start adj : Cotangent} {r : Slot}

/-- Reading a derivative adds what waits for it. -/
theorem outcome_getDer (has : net.table.Has r) {key : Value} (slot : net.slotOfKey key = .ok r) :
    outcome (getDer key) net = net.table.readDer r := by
  apply outcome_of_leads
  simp only [getDer, leads_bind, leads_get, leads_ofExcept, slot, leads_onTable]
  rw [VariableTable.leads_getDer has]
  cases net.table.readDer r <;> rfl

/-- What instructions send depends on what they read. -/
theorem sentByAll_congr {l : List Instruction} (same : ∀ i ∈ l, ∀ o ∈ i.reads, val o = val' o) :
    net.sentByAll val adj r l = net.sentByAll val' adj r l := by
  induction l with
  | nil => rfl
  | cons i l ih =>
    have here : net.sent val adj i r = net.sent val' adj i r := by
      simp only [sent, reaction, dersOf_congr (same i (by simp))]
    simp only [sentByAll, here, ih fun j hj => same j (by simp [hj])]

theorem IsAdjoint.congr (wf : net.schedule.WellFormed)
    (same : ∀ r, net.schedule.HasSlot r → val r = val' r) (h : net.IsAdjoint start val' adj) :
    net.IsAdjoint start val adj := by
  intro r has
  rw [h r has, sentByAll_congr fun i hi o ho => (same o (wf.reads_hasSlot hi ho)).symm]

/-- Two valuations that continue the same leaves agree. -/
theorem IsForward.unique (wf : net.schedule.WellFormed) (runs : Runs net.schedule net)
    {inputs : Keywords} {testing : Bool} (h : net.IsForward inputs testing val)
    (h' : net.IsForward inputs testing val') (has : net.schedule.HasSlot r) : val r = val' r := by
  obtain ⟨v, run, agrees⟩ := valuesAfter_of_isForward wf runs h net.schedule.forward [] (by simp)
  obtain ⟨v', run', agrees'⟩ :=
    valuesAfter_of_isForward wf runs h' net.schedule.forward [] (by simp)
  obtain rfl : v = v' := Except.ok.inj (run.symm.trans run')
  rw [← agrees r (wf.available has), ← agrees' r (wf.available has)]

theorem Evaluated.follows {pass : PassOptions} {seed : Value}
    (evaluated : Evaluated pass s seed net net') : Follows s net net' := by
  obtain ⟨val, last, _, returned, rfl⟩ := evaluated
  obtain ⟨⟨schedule, infos, placed⟩, addition, config, device, transfer, quiet⟩ := returned.follows
  exact ⟨⟨schedule, infos, placed⟩, addition, config, device, transfer, quiet⟩

/-- What an evaluation leaves at leaves and slots that are kept is what instructions have sent to them,
added up. -/
theorem Evaluated.outcome_getDer (wf : net.schedule.WellFormed) {pass : PassOptions} {seed : Value}
    (evaluated : Evaluated pass net.schedule seed net net') :
    ∃ val, net.valuesAfter false (net.boundValuation pass.inputs) net.schedule.forward = .ok val ∧
      ∀ r, net.schedule.IsLeaf r ∨ net.schedule.IsRetained r →
        ∀ key, net'.slotOfKey key = .ok r → outcome (getDer key) net' =
          net.adjointAfter (net.startAdjoint pass.accumulate seed) val net.schedule.forward r := by
  have runs := evaluated.follows.runs
  obtain ⟨val, last, values, returned, rfl⟩ := evaluated
  refine ⟨val, values, fun r kept key slot => ?_⟩
  have has : net.schedule.HasSlot r := by
    rcases kept with ⟨info, mem, index, _⟩ | ⟨info, mem, index, _⟩ <;> exact ⟨info, mem, index⟩
  rw [Net.outcome_getDer ((runs.has wf r).mpr has) slot]
  refine returned.readDer_eq wf has (kept.imp_right fun retained => ?_)
  exact .inr (.inr (.inl retained))

/-- After a normal evaluation of a net that calls led to, the derivative of every leaf and of every
slot that is kept is that of the equations: they have a solution, and reading the derivative gives
what any solution has. The equations start with the previous derivative of a parameter if it is
accumulated, and with nothing otherwise, and with the seeds. -/
theorem Reached.derivatives (built : ws.Built) (exist : ∀ n ∈ terminalNodes terminals, ws.Exists n)
    (reached : Reached ws terminals options net) (quiet : net.Quiet) (now : Workspace)
    (pass : PassOptions) (normal : pass.mode = "normal") (seed : Value)
    (run : Net.evaluate now pass seed net = .ok ⟨⟩ net') :
    (∃ val adj, net.IsForward pass.inputs false val ∧
      net.IsAdjoint (net.startAdjoint pass.accumulate seed) val adj) ∧
    ∀ val adj, net.IsForward pass.inputs false val →
      net.IsAdjoint (net.startAdjoint pass.accumulate seed) val adj →
      ∀ r, net.schedule.IsLeaf r ∨ net.schedule.IsRetained r →
      ∀ key, net'.slotOfKey key = .ok r → outcome (getDer key) net' = adj r := by
  obtain ⟨⟨id, order, marks, sched⟩, runs, _⟩ := reached.spec built exist
  have wf := sched.wellFormed
  have evaluated : Evaluated pass net.schedule seed net net' :=
    (leads_of_ok run).mp
      (leads_evaluatePass wf runs (silent_notifyObservers now) quiet now pass normal seed)
  obtain ⟨val, values, read⟩ := evaluated.outcome_getDer wf
  have forward := isForward_of_valuesAfter wf runs values
  refine ⟨⟨val, _, forward, isAdjoint_adjointAfter wf rfl⟩, ?_⟩
  intro val' adj forward' adjoint r kept key slot
  have has : net.schedule.HasSlot r := by
    rcases kept with ⟨info, mem, index, _⟩ | ⟨info, mem, index, _⟩ <;> exact ⟨info, mem, index⟩
  have adjoint' : net.IsAdjoint (net.startAdjoint pass.accumulate seed) val adj :=
    adjoint.congr wf fun r hr => forward.unique wf runs forward' hr
  rw [read r kept key slot, adjointAfter_of_isAdjoint wf rfl adjoint' has]

/-- The second of two evaluations of `x * p + x`, with the derivative of `p` from the first added. -/
theorem derivatives_sample : ∃ now net net' val adj,
    Reached Sample.graph Sample.terminals Sample.options net ∧
      Net.evaluate now { Sample.pass with accumulate := true } (.int 1) net = .ok ⟨⟩ net' ∧
      net.IsForward Sample.pass.inputs false val ∧
      net.IsAdjoint (net.startAdjoint true (.int 1)) val adj ∧
      ∀ r, net.schedule.IsLeaf r ∨ net.schedule.IsRetained r →
        ∀ key, net'.slotOfKey key = .ok r → outcome (getDer key) net' = adj r := by
  have check : Sample.graph.builds Sample.terminals Sample.options (fun now net =>
      let net := ends (Call.evaluate now Sample.pass (.int 1)).run net
      !net.observed && net.succeeds
        (Net.evaluate now { Sample.pass with accumulate := true } (.int 1)) fun _ => true) = true := by
    cbv
  obtain ⟨now, net, first, check⟩ := Reached.of_builds check
  simp only [Bool.and_eq_true, Bool.not_eq_true'] at check
  obtain ⟨alone, run⟩ := check
  obtain ⟨net', run, _⟩ := succeeds_iff.mp run
  have reached := Reached.call (.evaluate now Sample.pass (.int 1)) first
  obtain ⟨⟨val, adj, forward, adjoint⟩, read⟩ := reached.derivatives Sample.graph_built
    Sample.terminals_exist (fun observed => by rw [alone] at observed; cases observed) now _ rfl _ run
  exact ⟨now, _, net', val, adj, reached, run, forward, adjoint, read val adj forward adjoint⟩

end Net

end Backprop
