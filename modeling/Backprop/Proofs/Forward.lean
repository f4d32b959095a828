import Backprop.Proofs.Valuation
/-!
# Forward passes

A forward pass computes the valuation of its instructions, whatever it gives back on the way.

* `leads_forwardStep`: one instruction writes what it computes from the table, and fails as its
  kernel does.
* `leads_forwardSteps`: between two parts of the forward list, a slot holds its value of the
  valuation if it was written and is still wanted, and nothing otherwise.
-/

namespace Backprop

/-- A table that differs from another one in its values. -/
abbrev VariableTable.Revalued (t t' : VariableTable) (val : Valuation) : Prop :=
  t.Becomes t' val t.derAt t.partsAt

namespace VariableTable.Revalued

variable {t t' t'' : VariableTable} {val val' : Valuation}

theorem refl (t : VariableTable) : t.Revalued t t.valueAt := Becomes.refl t

theorem setValue {q : Slot} (h : t.Has q) (x : Value) :
    t.Revalued (t.setValue q x) fun r => if r = q then x else t.valueAt r := Becomes.setValue h x

theorem trans (h : t.Revalued t' val) (h' : t'.Revalued t'' val') : t.Revalued t'' val' :=
  (Becomes.trans h h').congr (fun _ _ => rfl) h.ders h.parts

theorem congr (h : t.Revalued t' val) (eq : ∀ r, t.Has r → val r = val' r) : t.Revalued t' val' :=
  Becomes.congr h eq (fun _ _ => rfl) fun _ _ => rfl

end VariableTable.Revalued

namespace Net

variable {s : Schedule} {net net' : Net} {i : Instruction} {notify : Notify}

/-- Whether code from outside only makes a record while no observer acts. -/
def Silent (notify : Notify) : Prop :=
  ∀ s net, net.Quiet → Leads (notify s) net (fun _ net' => Recorded net net') fun _ _ => False

theorem leads_reactOnce (quiet : ∀ r ∈ net.reactions.toList, r.waiting = false) (ws : Workspace)
    (e : Event) (k : Nat) : Leads (reactOnce ws notify e k) net (fun _ net' => net = net')
      fun _ _ => False := by
  simp only [reactOnce, leads_bind, leads_get]
  split
  next r found =>
    have taken := quiet r (Array.mem_toList_iff.mpr (Array.mem_of_getElem? found))
    simp [Reaction.isDue, taken]
  next => rfl

theorem silent_notifyObservers (ws : Workspace) : Silent (notifyObservers ws) := by
  intro s net quiet
  simp only [notifyObservers, leads_bind, leads_get]
  cases s with
  | kernel instruction args kwargs =>
    simp only [react, leads_pure]
    exact .refl net
  | event e =>
    cases net.reactions.size with
    | zero =>
      simp only [react, leads_bind, leads_get]
      split
      · exact ⟨_, _, rfl⟩
      · exact .refl net
    | succ depth =>
      simp only [react, leads_bind, leads_get]
      split
      next observed =>
        simp only [leads_bind, leads_set]
        refine Leads.forM (fun _ net' => Recorded net net') ⟨_, _, rfl⟩ ?_
        rintro _ k _ _ _ ⟨journal, profile, rfl⟩
        apply (leads_reactOnce ?_ ws e k).mono _ fun _ _ h => h
        · exact quiet observed
        · rintro _ _ rfl
          exact ⟨_, _, rfl⟩
      · exact .refl net

theorem leads_attempt {α : Type} (pass place : String) (m : NetM α) {ok : α → Net → Prop}
    {err : Error → Net → Prop} : Leads (attempt pass place m) net ok err ↔
      Leads m net ok fun e t => err e (aborted pass place t) := by
  simp only [Leads, attempt]
  cases m net <;> rfl

theorem leads_silent (silent : Silent notify) (quiet : net.Quiet) (s : Signal)
    {ok : PUnit → Net → Prop} {err : Error → Net → Prop}
    (h : ∀ net', Recorded net net' → ok ⟨⟩ net') : Leads (notify s) net ok err :=
  (silent s net quiet).mono (fun _ net' recorded => h net' recorded) fun _ _ h => h.elim

theorem leads_putValues : ∀ (slots : List Slot) (vs : List Value) (net : Net),
    (∀ r ∈ slots, net.table.Has r) →
    Leads ((slots.zip vs).forM fun (s, v) => onTable (VariableTable.putValue s v)) net
      (fun _ net' => ∃ table, net' = { net with table } ∧
        net.table.Revalued table (Valuation.write net.table.valueAt slots vs))
      (fun _ _ => False) := by
  intro slots
  induction slots with
  | nil =>
    intro vs net _
    exact ⟨net.table, rfl, .refl _⟩
  | cons r slots ih =>
    intro vs net has
    cases vs with
    | nil => exact ⟨net.table, rfl, .refl _⟩
    | cons v vs =>
      have here := has r (by simp)
      have step := VariableTable.Revalued.setValue here v
      simp only [List.zip_cons_cons, leads_forM_cons, leads_onTable,
        VariableTable.leads_putValue here]
      have later : ∀ q ∈ slots, (net.table.setValue r v).Has q := fun q hq =>
        (step.same.has q).mpr (has q (by simp [hq]))
      apply (ih vs { net with table := net.table.setValue r v } later).mono _ fun _ _ h => h
      rintro _ _ ⟨table, rfl, rest⟩
      refine ⟨table, rfl, (step.trans rest).congr fun q hq => ?_⟩
      exact Valuation.write_congr (step.values q hq) slots vs

theorem leads_releaseEach (slots : List Slot) (net : Net) (has : ∀ r ∈ slots, net.table.Has r) :
    Leads (slots.forM fun r => onTable (VariableTable.release r)) net
      (fun _ net' => ∃ table, net' = { net with table } ∧
        net.table.Revalued table fun r => if r ∈ slots then .none else net.table.valueAt r)
      (fun _ _ => False) := by
  refine Leads.forM (fun seen net' => ∃ table, net' = { net with table } ∧
    net.table.Revalued table fun r => if r ∈ seen then .none else net.table.valueAt r) ?_ ?_
  · exact ⟨net.table, rfl, (VariableTable.Revalued.refl _).congr fun _ _ => by simp⟩
  · rintro seen q rest _ split ⟨table, rfl, so⟩
    have here : table.Has q := (so.same.has q).mpr (has q (by simp [split]))
    simp only [leads_onTable, VariableTable.release, VariableTable.leads_putValue here]
    refine ⟨_, rfl, (so.trans (VariableTable.Revalued.setValue here .none)).congr fun r hr => ?_⟩
    by_cases eq : r = q
    · simp [eq]
    · simp [eq, so.values r hr]

theorem leads_releaseValues (slots : List Slot) (net : Net)
    (has : net.config.conserveMemory = true → ∀ r ∈ slots, net.table.Has r) :
    Leads (releaseValues slots) net
      (fun _ net' => ∃ table, net' = { net with table } ∧ net.table.Revalued table fun r =>
        if net.config.conserveMemory = true ∧ r ∈ slots then .none else net.table.valueAt r)
      (fun _ _ => False) := by
  simp only [releaseValues, leads_bind, leads_get]
  split
  next conserve =>
    apply (leads_releaseEach slots net (has conserve)).mono _ fun _ _ h => h
    rintro _ _ ⟨table, rfl, so⟩
    exact ⟨table, rfl, so.congr fun r _ => by simp [conserve]⟩
  next conserve =>
    exact ⟨net.table, rfl, (VariableTable.Revalued.refl _).congr fun r _ => by simp [conserve]⟩

/-- Running an instruction writes what it computes, and then gives back what is listed. -/
theorem leads_forwardStep (inPlace : s.InPlace) (runs : Runs s net) (hi : i ∈ s.forward)
    (silent : Silent notify) (quiet : net.Quiet) (testing : Bool) {released : List Slot}
    (has : net.config.conserveMemory = true → ∀ r ∈ released, s.HasSlot r) :
    Leads (forwardStep notify testing released i) net
      (fun _ net' => Follows s net net' ∧
        ∃ outs, net.outputsOf testing net.table.valueAt i = .ok outs ∧
          net.table.Revalued net'.table fun r =>
            if net.config.conserveMemory = true ∧ r ∈ released then .none
            else Valuation.write net.table.valueAt i.outputs outs r)
      (fun e _ => net.outputsOf testing net.table.valueAt i = .error e) := by
  simp only [forwardStep, leads_bind]
  apply (leads_gather inPlace runs hi).mono
  · rintro ⟨args, kwargs⟩ u ⟨gathered, gathers, table⟩
    refine leads_silent silent (gathers.quiet quiet) _ fun t calls => ?_
    have follows := gathers.trans (.of_recorded gathers.runs calls)
    rw [← calls.table] at table
    simp only [leads_ofExcept]
    have outputs : net.outputsOf testing net.table.valueAt i =
        (i.operation.forwardKernel testing args kwargs).bind (splitOutputs i) := by
      simp only [outputsOf, gathered]
      rfl
    cases run : i.operation.forwardKernel testing args kwargs with
    | error e => simp only [outputs, run, Except.bind]
    | ok result =>
      simp only [leads_modify]
      cases parts : splitOutputs i result with
      | error e => simp only [outputs, run, Except.bind, parts]
      | ok outs =>
        dsimp only
        have hasT : ∀ r, t.table.Has r ↔ s.HasSlot r := follows.runs.has_inPlace inPlace
        apply (leads_putValues i.outputs outs
          { t with profile := (t.profile.recordEvent i.kind 0).recordForwardStep } fun r hr =>
          (hasT r).mpr (inPlace.outputs_hasSlot hi hr)).mono _ fun _ _ h => h.elim
        rintro _ _ ⟨written, rfl, wrote⟩
        refine leads_silent silent ?_ _ ?_
        · exact follows.quiet quiet
        rintro _ ⟨journal, profile, rfl⟩
        simp only [recordLive, leads_modify]
        have there (conserve : net.config.conserveMemory = true) : ∀ r ∈ released, written.Has r :=
          fun r hr => (wrote.same.has r).mpr ((hasT r).mpr (has conserve r hr))
        rw [← follows.config] at there
        apply (leads_releaseValues released _ there).mono _ fun _ _ h => h.elim
        rintro _ _ ⟨last, rfl, gave⟩
        have both := wrote.trans gave
        refine ⟨?_, outs, by simp only [outputs, run, Except.bind, parts], ?_⟩
        · exact follows.trans ((Follows.of_table follows.runs both.same).trans
            (Follows.of_recorded (Follows.of_table follows.runs both.same).runs ⟨_, _, rfl⟩))
        · rw [← table]
          refine both.congr fun r hr => ?_
          rw [follows.config, wrote.values r hr]
  · intro e t failed
    simp only [outputsOf, failed]
    rfl

/-! ### A run of instructions -/

/-- Whether a slot holds a value as long as a condition holds, and nothing otherwise. -/
def HoldsWhile (net : Net) (r : Slot) (v : Value) (p : Prop) : Prop :=
  (p → net.table.valueAt r = v) ∧ (¬ p → net.table.valueAt r = .none)

/-- The state between two parts of the forward list, in a pass that started from `base`. -/
structure Between (s : Schedule) (keep : Bool) (base net : Net) (val : Valuation)
    (pre post : List Instruction) : Prop where
  follows : Follows s base net
  values : ∀ r, s.HasSlot r → net.HoldsWhile r (val r) ((s.IsLeaf r ∨ Written pre r) ∧
    s.Wanted base.config.conserveMemory (s.readersAfter keep post) r)
  ders : ∀ r, s.HasSlot r → net.table.derAt r = base.table.derAt r
  parts : ∀ r, s.HasSlot r → net.table.partsAt r = base.table.partsAt r

variable {base : Net} {val : Valuation} {pre post mid : List Instruction} {keep : Bool}

theorem Between.recorded (state : Between s keep base net val pre post) (h : Recorded net net') :
    Between s keep base net' val pre post := by
  have follows := state.follows.trans (.of_recorded state.follows.runs h)
  obtain ⟨_, _, rfl⟩ := h
  exact ⟨follows, state.values, state.ders, state.parts⟩

/-- What the next instruction reads is there. -/
theorem Between.reads (wf : s.WellFormed) (state : Between s keep base net val pre (i :: post))
    (split : s.forward = pre ++ i :: post) {r : Slot} (h : r ∈ i.reads) :
    net.table.valueAt r = val r := by
  have hi : i ∈ s.forward := by rw [split]; simp
  refine (state.values r (wf.reads_hasSlot hi h)).1 ⟨wf.readsBefore pre i post split r h, ?_⟩
  cases keep <;> simp [Schedule.Wanted, Schedule.readersAfter, Read, h]

/-- One instruction carries the state on. -/
theorem Between.next (wf : s.WellFormed) (state : Between s keep base net val pre (i :: post))
    (split : s.forward = pre ++ i :: post) (silent : Silent notify)
    (quiet : base.Quiet) (testing : Bool) :
    Leads (forwardStep notify testing ((s.releasedForward keep).getD i.index []) i) net
      (fun _ net' => ∃ outs, base.outputsOf testing val i = .ok outs ∧
        Between s keep base net' (val.write i.outputs outs) (pre ++ [i]) post)
      (fun e _ => base.outputsOf testing val i = .error e) := by
  have hi : i ∈ s.forward := by rw [split]; simp
  have computed : net.outputsOf testing net.table.valueAt i = base.outputsOf testing val i := by
    rw [state.follows.outputsOf]
    exact outputsOf_congr (fun r hr => state.reads wf split hr) testing
  have released : ∀ r ∈ (s.releasedForward keep).getD i.index [], s.HasSlot r := fun r hr =>
    ((wf.mem_releasedForward keep split r).mp hr).1
  have runs := state.follows.runs
  apply (leads_forwardStep wf.inPlace runs hi silent (state.follows.quiet quiet) testing
    fun _ => released).mono
  · rintro _ net' ⟨follows, outs, run, so⟩
    rw [computed] at run
    refine ⟨outs, run, state.follows.trans follows, ?_, ?_, ?_⟩
    · intro r has
      have value := so.values r ((runs.has wf r).mpr has)
      rw [state.follows.config] at value
      have wanted := wf.wanted_forward base.config.conserveMemory keep split has
      obtain ⟨held, gone⟩ := state.values r has
      have outside : r ∉ i.outputs → Valuation.write net.table.valueAt i.outputs outs r =
          net.table.valueAt r := Valuation.write_of_not_mem _ _
      unfold HoldsWhile
      rw [value, wanted]
      split
      next released => exact ⟨fun h => absurd released h.1, fun _ => rfl⟩
      next stays =>
        by_cases out : r ∈ i.outputs
        · have len := length_of_outputsOf run
          exact ⟨fun _ => Valuation.write_of_mem _ _ out len,
            fun h => absurd ⟨stays, .inl out⟩ h⟩
        · rw [outside out, Valuation.write_of_not_mem _ _ out]
          exact ⟨fun h => held (h.2.resolve_left out), fun h => gone fun p => h ⟨stays, .inr p⟩⟩
    · intro r has
      rw [so.ders r ((runs.has wf r).mpr has), state.ders r has]
    · intro r has
      rw [so.parts r ((runs.has wf r).mpr has), state.parts r has]
  · intro e _ failed
    rw [← computed]
    exact failed

/-- A part of the forward list computes its valuation, and fails where the valuation fails. -/
theorem leads_forwardSteps (wf : s.WellFormed) (silent : Silent notify)
    (quiet : base.Quiet) (testing : Bool) :
    ∀ (mid pre : List Instruction) (val : Valuation) (net : Net),
      s.forward = pre ++ (mid ++ post) → Between s keep base net val pre (mid ++ post) →
      Leads (forwardSteps notify testing (s.releasedForward keep) mid) net
        (fun _ net' => ∃ val', base.valuesAfter testing val mid = .ok val' ∧
          Between s keep base net' val' (pre ++ mid) post)
        (fun e _ => base.valuesAfter testing val mid = .error e) := by
  intro mid
  induction mid with
  | nil =>
    intro pre val net _ state
    exact ⟨val, rfl, by simpa using state⟩
  | cons i mid ih =>
    intro pre val net split state
    simp only [forwardSteps, leads_bind, leads_attempt]
    apply (Between.next wf state split silent quiet testing).mono
    · rintro _ net' ⟨outs, run, state'⟩
      have rest := ih (pre ++ [i]) _ net' (by simpa using split) state'
      rw [valuesAfter_cons, run]
      simpa [Except.bind] using rest
    · intro e _ failed
      rw [valuesAfter_cons, failed]
      rfl

end Net

end Backprop
