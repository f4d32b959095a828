import Backprop.Proofs.BackwardPass
/-!
# Evaluations

A normal evaluation is a forward pass and a backward pass after it.

* `After.kept`: what the forward pass leaves is what the backward pass needs.
* `leads_evaluatePass`: the derivatives that an evaluation leaves are those that its valuation
  defines, and it fails only where a kernel, a seed or the preparation does.
-/

namespace Backprop

namespace Net

variable {s : Schedule} {net net' base last : Net} {notify : Notify} {val : Valuation}
variable {ws : Workspace} {options : PassOptions} {mode : Mode}

/-- A forward pass that keeps what a backward pass needs leaves it. -/
theorem After.kept (wf : s.WellFormed) (after : After ws options s mode s.forward.length net last)
    (keeps : keeps options mode = true) :
    ∃ val, net.valuesAfter (mode == Mode.test) (net.boundValuation options.inputs) s.forward =
        .ok val ∧ Follows s net last ∧
      (∀ r, s.HasSlot r → net.table.startDer options.accumulate r = .ok (last.table.derAt r)) ∧
      Kept s val { last with evaluating := false, backwardReady := true } := by
  obtain ⟨base, val, prepared, values, between⟩ := after.state
  rw [List.take_length] at values between
  rw [List.drop_length, keeps] at between
  have follows := prepared.follows.trans between.follows
  refine ⟨val, values, follows, fun r hr => ?_, ?_, rfl, rfl, fun r hr => ?_, fun r hr => ?_⟩
  · rw [between.ders r hr]
    exact prepared.ders r hr
  · exact ⟨follows.runs.schedule, follows.runs.infos, follows.runs.placed⟩
  · obtain ⟨held, gone⟩ := between.values r hr
    have conserve : last.config.conserveMemory = base.config.conserveMemory :=
      congrArg Config.conserveMemory between.follows.config
    refine ⟨fun wanted => held ⟨wf.available hr, ?_⟩, fun unwanted => gone fun h => unwanted ?_⟩
    · rw [← conserve]
      exact wanted
    · rw [conserve]
      exact h.2
  · exact (between.parts r hr).trans (prepared.parts r hr)

/-- The derivatives that a pass computes depend on the surroundings of its net only. -/
theorem Returning.rebase (wf : s.WellFormed) {start start' : Cotangent}
    {done rest : List Instruction} (follows : Follows s net base)
    (same : ∀ r, s.HasSlot r → start r = start' r) (sub : ∀ i ∈ done, i ∈ s.forward)
    (state : Returning s start val base last done rest) :
    Returning s start' val net last done rest := by
  have received : ∀ l : List Instruction, (∀ i ∈ l, i ∈ s.forward) →
      base.received start val l = net.received start' val l := by
    intro l sub
    rw [received_eq follows.argumentsOf follows.addition]
    exact received_congr wf same l sub
  have adjoint : ∀ l : List Instruction, (∀ i ∈ l, i ∈ s.forward) → ∀ r, s.HasSlot r →
      base.adjointAfter start val l r = net.adjointAfter start' val l r := by
    intro l sub r hr
    simp only [adjointAfter, received l sub, totalOf_eq follows.addition, same r hr]
  have conserve : base.config.conserveMemory = net.config.conserveMemory :=
    congrArg Config.conserveMemory follows.config
  refine ⟨follows.trans state.follows, ?_, fun r hr unwritten => ?_, ?_, ?_, state.read, ?_⟩
  · rw [← conserve]
    exact state.values
  · rw [← same r hr, ← received done sub]
    exact state.waits r hr unwritten
  · intro r hr written wanted
    rw [← adjoint done sub r hr]
    rw [← conserve] at wanted
    exact state.kept r hr written wanted
  · rw [← conserve]
    exact state.dropped
  · intro i l suffix
    have hi : ∀ j ∈ i :: l, j ∈ s.forward := fun j hj => sub j (suffix.subset hj)
    obtain ⟨ders, reacts⟩ := state.reacts i l suffix
    refine ⟨ders, ?_⟩
    rw [← reacts, reaction_eq follows.argumentsOf]
    exact reaction_congr fun o ho =>
      (adjoint l (fun j hj => hi j (by simp [hj])) o (wf.outputs_hasSlot (hi i (by simp)) ho)).symm

/-- What a pass asks of a net depends neither on its records nor on what the pass is kept for. -/
theorem ready_reported {journal : Journal} {keepForBackward : Bool} :
    Ready ws { options with keepForBackward } { net with journal } ↔ Ready ws options net :=
  ⟨fun h => ⟨h.named, h.known, h.fillable.readable, h.fillable.bound⟩,
    fun h => ⟨h.named, h.known, h.fillable.readable, h.fillable.bound⟩⟩

theorem Stopped.of_reported {journal : Journal} {keepForBackward : Bool} {e : Error} (runs : Runs s net)
    (stopped : Stopped ws { options with keepForBackward } { net with journal } s.forward e) :
    Stopped ws options net s.forward e := by
  have reported : Follows s net { net with journal } := .of_recorded runs ⟨journal, net.profile, rfl⟩
  cases stopped with
  | mode failed => exact .mode failed
  | busy busy => exact .busy busy
  | unready bad => exact .unready fun ready => bad (ready_reported.mpr ready)
  | kernel mode' failed =>
    rw [reported.valuesAfter] at failed
    exact .kernel mode' failed

/-- Why a normal evaluation fails. -/
inductive Failed (ws : Workspace) (options : PassOptions) (s : Schedule) (seed : Value) (net : Net)
    (e : Error) : Prop where
  | forward : Stopped ws options net s.forward e → Failed ws options s seed net e
  | seeds : ¬ net.Seedable seed → Failed ws options s seed net e
  | start {r : Slot} {e' : Error} : s.HasSlot r →
      net.startAdjoint options.accumulate seed r = .error e' → Failed ws options s seed net e
  | backward {val : Valuation} :
      net.valuesAfter false (net.boundValuation options.inputs) s.forward = .ok val →
      Fails s (net.startAdjoint options.accumulate seed) val net e → Failed ws options s seed net e

/-- What a normal evaluation leaves. -/
def Evaluated (options : PassOptions) (s : Schedule) (seed : Value) (net net' : Net) : Prop :=
  ∃ val last, net.valuesAfter false (net.boundValuation options.inputs) s.forward = .ok val ∧
    Returning s (net.startAdjoint options.accumulate seed) val net last
      (s.forward.filter (·.requiresGradient)) [] ∧
    net' = { last with evaluating := false, backwardReady := false }

theorem leads_evaluatePass (wf : s.WellFormed) (runs : Runs s net) (silent : Silent notify)
    (quiet : net.Quiet) (ws : Workspace) (options : PassOptions)
    (normal : options.mode = "normal") (seed : Value) :
    Leads (evaluatePass ws notify options seed) net
      (fun _ net' => Evaluated options s seed net net')
      (fun e _ => Failed ws options s seed net e) := by
  have mode : Mode.ofName options.mode = .ok .normal := by rw [normal]; rfl
  have recorded : Recorded net { net with journal := { net.journal with
      messages := net.journal.messages.push ("Evaluating Net in `" ++ options.mode ++ "` mode.") } } :=
    ⟨_, _, rfl⟩
  have reported := Follows.of_recorded runs recorded
  simp only [evaluatePass, report, leads_bind, leads_ofExcept, mode, leads_modify]
  apply (leads_forwardPass wf reported.runs silent quiet ws
    { options with keepForBackward := Mode.normal == Mode.normal }).mono
  · rintro _ _ ⟨mode', last, after, rfl⟩
    obtain rfl : Mode.normal = mode' := Except.ok.inj (mode.symm.trans after.named)
    obtain ⟨val, values, follows, ders, kept⟩ := after.kept wf rfl
    rw [reported.valuesAfter] at values
    have after' : Follows s net { last with evaluating := false, backwardReady := true } :=
      reported.trans (follows.trans ⟨kept.runs, rfl, rfl, rfl, rfl, id⟩)
    have schedule := after'.runs.schedule.trans runs.schedule.symm
    have start : ∀ r, s.HasSlot r →
        ({ last with evaluating := false, backwardReady := true } : Net).seeded seed r =
          net.startAdjoint options.accumulate seed r := by
      intro r hr
      have der : net.table.startDer options.accumulate r = .ok (last.table.derAt r) := ders r hr
      simp only [seeded, startAdjoint, der, totalOf_eq after'.addition,
        seedsAt_eq after'.config schedule]
      rfl
    have sub : ∀ i ∈ s.forward.filter (·.requiresGradient), i ∈ s.forward := fun i hi =>
      List.mem_of_mem_filter hi
    simp only [if_true]
    apply (leads_backwardPass wf kept silent (after'.quiet quiet) ws seed).mono
    · rintro _ net' ⟨end', returned, rfl⟩
      exact ⟨val, end', values, returned.rebase wf after' start sub, rfl⟩
    · rintro e _ ((unknown | ⟨r, e', hr, failed⟩) | ⟨done, i, rest, split, failed⟩)
      · rw [seedable_eq after'.config schedule] at unknown
        exact .seeds unknown
      · exact .start hr ((start r hr).symm.trans failed)
      · refine .backward values ⟨done, i, rest, split, ?_⟩
        have run : ∀ j ∈ done, j ∈ s.forward := fun j hj =>
          wf.mem_forward_of_backward (by rw [split]; simp [hj])
        have adjoint : ∀ o ∈ i.outputs,
            ({ last with evaluating := false, backwardReady := true } : Net).adjointAfter
              (({ last with evaluating := false, backwardReady := true } : Net).seeded seed) val
              done o = net.adjointAfter (net.startAdjoint options.accumulate seed) val done o := by
          intro o ho
          have hr := wf.outputs_hasSlot (wf.mem_forward_of_backward (by rw [split]; simp)) ho
          rw [adjointAfter_eq after'.argumentsOf after'.addition]
          simp only [adjointAfter, received_congr wf start done run, start o hr]
        rw [← failed, reaction_eq after'.argumentsOf]
        exact (reaction_congr adjoint).symm
  · exact fun e _ stopped => .forward (stopped.of_reported runs)

end Net

end Backprop
