import Mathlib
import Backprop.Proofs.Checked
import Backprop.Proofs.ForwardPass
/-!
# Running accepted schedules

What the check of schedules promises to whoever runs one, however the schedule came about.

* `Holding.next`, `leads_forwardSteps_holding`: without reclamation a pass computes the valuation of its
  instructions, and all slots keep what they hold.
* `Net.ReadsSettled` says of a run that it reads leaves and what it has written itself.
* `Schedule.accepted_reads_settled`: the check accepts lawful schedules and no others, and all runs of
  these are such.
-/

namespace Backprop

/-- A slot that some instructions write has a last one to do so. -/
theorem Written.last {l : List Instruction} {r : Slot} (written : Written l r) :
    ∃ before i after, l = before ++ i :: after ∧ r ∈ i.outputs ∧ ¬ Written after r := by
  induction l with
  | nil => exact absurd written (written_nil r)
  | cons j l ih =>
    by_cases later : Written l r
    · obtain ⟨before, i, after, rfl, output, last⟩ := ih later
      exact ⟨j :: before, i, after, rfl, output, last⟩
    · exact ⟨[], j, l, rfl, ((written_cons j l r).mp written).resolve_right later, later⟩

namespace Schedule

variable {s : Schedule} {ws : Workspace}

theorem Lawful.inPlace (lawful : s.Lawful ws) : s.InPlace where
  slotIndex := lawful.slots
  instructionIndex := lawful.steps
  slotsExist i hi r hr := (hasSlot_iff lawful.slots r).mpr (lawful.references i hi r hr)

end Schedule

namespace Net

variable {s : Schedule} {base net net' : Net} {val : Valuation} {i : Instruction} {notify : Notify}
  {testing : Bool}

/-! ### Passes without reclamation -/

/-- A state of a pass that started from `base` and gives nothing back. -/
structure Holding (s : Schedule) (base net : Net) (val : Valuation) : Prop where
  follows : Follows s base net
  values : ∀ r, s.HasSlot r → net.table.valueAt r = val r

theorem Holding.start (runs : Runs s net) : Holding s net net net.table.valueAt :=
  ⟨.refl runs, fun _ _ => rfl⟩

section
variable (inPlace : s.InPlace) (kept : base.config.conserveMemory = false)
include inPlace

theorem Holding.outputsOf (state : Holding s base net val) (hi : i ∈ s.forward) :
    net.outputsOf testing net.table.valueAt i = base.outputsOf testing val i := by
  rw [state.follows.outputsOf]
  exact outputsOf_congr (fun r hr => state.values r (inPlace.reads_hasSlot hi hr)) testing

variable (silent : Silent notify) (quiet : base.Quiet)
include kept silent quiet

/-- One instruction carries the state on, whatever is listed to be given back. -/
theorem Holding.next (state : Holding s base net val) (hi : i ∈ s.forward) (released : List Slot) :
    Leads (forwardStep notify testing released i) net
      (fun _ net' => ∃ outs, base.outputsOf testing val i = .ok outs ∧
        Holding s base net' (val.write i.outputs outs))
      (fun e _ => base.outputsOf testing val i = .error e) := by
  have config : net.config.conserveMemory ≠ true := by simp [state.follows.config, kept]
  have runs := state.follows.runs
  apply (leads_forwardStep inPlace runs hi silent (state.follows.quiet quiet) testing
    fun conserve => absurd conserve config).mono
  · rintro _ net' ⟨follows, outs, computed, so⟩
    rw [state.outputsOf inPlace hi] at computed
    refine ⟨outs, computed, state.follows.trans follows, fun r has => ?_⟩
    rw [so.values r ((runs.has_inPlace inPlace r).mpr has), if_neg fun h => config h.1]
    exact Valuation.write_congr (state.values r has) _ _
  · intro e _ failed
    rwa [state.outputsOf inPlace hi] at failed

/-- Instructions compute their valuation, and fail where it fails. -/
theorem leads_forwardSteps_holding (testing : Bool) (released : List (List Slot)) :
    ∀ (l : List Instruction) (val : Valuation) (net : Net), (∀ i ∈ l, i ∈ s.forward) →
      Holding s base net val → Leads (forwardSteps notify testing released l) net
        (fun _ net' => ∃ val', base.valuesAfter testing val l = .ok val' ∧ Holding s base net' val')
        (fun e _ => base.valuesAfter testing val l = .error e) := by
  intro l
  induction l with
  | nil => exact fun val net _ state => ⟨val, rfl, state⟩
  | cons i l ih =>
    intro val net members state
    simp only [forwardSteps, leads_bind, leads_attempt, valuesAfter_cons]
    apply (state.next inPlace kept silent quiet (members i (by simp)) _).mono
    · rintro _ net' ⟨outs, computed, state'⟩
      rw [computed]
      exact ih _ net' (fun j hj => members j (by simp [hj])) state'
    · rintro e _ failed
      rw [failed]
      rfl

/-- So a run from some state leaves the valuation that it computes from there. -/
theorem Holding.through {released : List (List Slot)} {l : List Instruction}
    (state : Holding s base net val) (members : ∀ i ∈ l, i ∈ s.forward)
    (run : forwardSteps notify testing released l net = .ok ⟨⟩ net') :
    ∃ val', base.valuesAfter testing val l = .ok val' ∧ Holding s base net' val' :=
  (leads_of_ok run).mp
    (leads_forwardSteps_holding inPlace kept silent quiet testing released l val net members state)

theorem outcome_forwardSteps (runs : Runs s base) {released : List (List Slot)}
    {l : List Instruction} (members : ∀ i ∈ l, i ∈ s.forward) :
    outcome (forwardSteps notify testing released l) base =
      (base.valuesAfter testing base.table.valueAt l).map fun _ => ⟨⟩ := by
  refine outcome_of_leads ((leads_forwardSteps_holding inPlace kept silent quiet testing released l _
    base members (.start runs)).mono ?_ ?_)
  · rintro _ _ ⟨val, computed, -⟩
    rw [computed]
    rfl
  · rintro e _ failed
    rw [failed]
    rfl

end

/-! ### What runs read -/

/-- What a slot holds after some instructions of a run from `net` to `net'`, if they have settled it. -/
inductive Settled (s : Schedule) (notify : Notify) (testing : Bool) (released : List (List Slot))
    (net net' : Net) (pre : List Instruction) (r : Slot) : Prop where
  /-- It is a leaf, and bound as at the start. -/
  | bound : s.IsLeaf r → ¬ Written pre r → net'.table.valueAt r = net.table.valueAt r →
      net'.table.valueAt r ≠ .none → Settled s notify testing released net net' pre r
  /-- It holds what the last instruction to write it has computed. -/
  | written {before after : List Instruction} {j : Instruction} {earlier : Net} {outs : List Value} :
      pre = before ++ j :: after → ¬ Written after r →
      forwardSteps notify testing released before net = .ok ⟨⟩ earlier →
      earlier.outputsOf testing earlier.table.valueAt j = .ok outs →
      (r, net'.table.valueAt r) ∈ j.outputs.zip outs →
      Settled s notify testing released net net' pre r

/-- Running the forward list of a schedule reads leaves, and slots that the run itself has written. -/
structure ReadsSettled (s : Schedule) (notify : Notify) (testing : Bool) (released : List (List Slot))
    (net : Net) : Prop where
  /-- When an instruction is reached, every slot that it reads is settled. -/
  reads : ∀ pre i post net', s.forward = pre ++ i :: post →
    forwardSteps notify testing released pre net = .ok ⟨⟩ net' →
    ∀ r ∈ i.reads, Settled s notify testing released net net' pre r
  /-- Whatever the slots of operations hold at the start, every part of the run ends alike. -/
  outcome_eq : ∀ table, net.table.SameSlots table →
    (∀ r, s.IsLeaf r → table.valueAt r = net.table.valueAt r) →
    ∀ pre post, s.forward = pre ++ post →
      outcome (forwardSteps notify testing released pre) { net with table } =
        outcome (forwardSteps notify testing released pre) net
  /-- So do the leaves and what was written. -/
  values_eq : ∀ table, net.table.SameSlots table →
    (∀ r, s.IsLeaf r → table.valueAt r = net.table.valueAt r) →
    ∀ pre post net₁ net₂, s.forward = pre ++ post →
      forwardSteps notify testing released pre { net with table } = .ok ⟨⟩ net₁ →
      forwardSteps notify testing released pre net = .ok ⟨⟩ net₂ →
      ∀ r, s.IsLeaf r ∨ Written pre r → net₁.table.valueAt r = net₂.table.valueAt r

section
variable {ws : Workspace} {released : List (List Slot)} {pre post : List Instruction}

theorem mem_of_split (split : s.forward = pre ++ post) : ∀ i ∈ pre, i ∈ s.forward := fun i hi => by
  rw [split]
  exact List.mem_append_left _ hi

variable (lawful : s.Lawful ws)
include lawful

/-- The part of a lawful schedule that is run depends on the leaves only. -/
theorem valuesAfter_of_lawful (split : s.forward = pre ++ post) {val val' : Valuation}
    (leaves : ∀ r, s.IsLeaf r → val r = val' r) :
    (∃ e, net.valuesAfter testing val pre = .error e ∧ net.valuesAfter testing val' pre = .error e) ∨
    ∃ w w', net.valuesAfter testing val pre = .ok w ∧ net.valuesAfter testing val' pre = .ok w' ∧
      ∀ r, s.IsLeaf r ∨ Written pre r → w r = w' r := by
  refine valuesAfter_congr (fun before i after eq => ?_) leaves
  exact lawful.reads before i (after ++ post) (by rw [split, eq]; simp)

variable (runs : Runs s net) (kept : net.config.conserveMemory = false) (silent : Silent notify)
  (quiet : net.Quiet)
include runs kept silent quiet

theorem settled_of_lawful (bound : ∀ r, s.IsLeaf r → net.table.valueAt r ≠ .none)
    (split : s.forward = pre ++ i :: post)
    (run : forwardSteps notify testing released pre net = .ok ⟨⟩ net') {r : Slot} (hr : r ∈ i.reads) :
    Settled s notify testing released net net' pre r := by
  have inPlace := lawful.inPlace
  have has : s.HasSlot r := inPlace.reads_hasSlot (by rw [split]; simp) hr
  have members := mem_of_split split
  by_cases written : Written pre r
  case neg =>
    have leaf := (lawful.reads pre i post split r hr).resolve_right written
    obtain ⟨val', values, state⟩ :=
      (Holding.start runs).through inPlace kept silent quiet members run
    have same : net'.table.valueAt r = net.table.valueAt r :=
      (state.values r has).trans (valuesAfter_of_not_written values written)
    exact .bound leaf written same (same ▸ bound r leaf)
  case pos =>
    -- The last instruction to write the slot splits the run, and what follows leaves the slot alone.
    obtain ⟨before, j, after, rfl, output, last⟩ := written.last
    rw [forwardSteps_append] at run
    obtain ⟨⟨⟩, earlier, first, rest⟩ := bind_of_ok run
    obtain ⟨val, -, state⟩ := (Holding.start runs).through inPlace kept silent quiet
      (fun k hk => members k (by simp [hk])) first
    obtain ⟨val', values, state'⟩ := state.through inPlace kept silent quiet
      (fun k hk => members k (by simp [hk])) rest
    rw [valuesAfter_cons] at values
    obtain ⟨outs, computed, values⟩ := ok_of_bind values
    have value : net'.table.valueAt r = val.write j.outputs outs r :=
      (state'.values r has).trans (valuesAfter_of_not_written values last)
    refine .written rfl last first
      ((state.outputsOf inPlace (members j (by simp))).trans computed) ?_
    rw [value]
    exact Valuation.mem_zip_write _ output (length_of_outputsOf computed)

section
variable {table : VariableTable} (same : net.table.SameSlots table)
  (leaves : ∀ r, s.IsLeaf r → table.valueAt r = net.table.valueAt r)
include same leaves

theorem outcome_of_lawful (split : s.forward = pre ++ post) :
    outcome (forwardSteps notify testing released pre) { net with table } =
      outcome (forwardSteps notify testing released pre) net := by
  have members := mem_of_split split
  have other := Follows.of_table runs same
  rw [outcome_forwardSteps lawful.inPlace kept silent quiet runs members,
    outcome_forwardSteps lawful.inPlace (other.config ▸ kept) silent (other.quiet quiet) other.runs
      members, other.valuesAfter]
  rcases valuesAfter_of_lawful lawful split leaves with ⟨e, failed', failed⟩ | ⟨_, _, ran', ran, -⟩
  · rw [failed, failed']
  · rw [ran, ran']
    rfl

theorem values_of_lawful (split : s.forward = pre ++ post) {net₁ net₂ : Net}
    (run₁ : forwardSteps notify testing released pre { net with table } = .ok ⟨⟩ net₁)
    (run₂ : forwardSteps notify testing released pre net = .ok ⟨⟩ net₂) {r : Slot}
    (hr : s.IsLeaf r ∨ Written pre r) : net₁.table.valueAt r = net₂.table.valueAt r := by
  have inPlace := lawful.inPlace
  have members := mem_of_split split
  have other := Follows.of_table runs same
  obtain ⟨w₁, ran₁, state₁⟩ := (Holding.start other.runs).through inPlace (other.config ▸ kept) silent
    (other.quiet quiet) members run₁
  obtain ⟨w₂, ran₂, state₂⟩ := (Holding.start runs).through inPlace kept silent quiet members run₂
  have has : s.HasSlot r := by
    rcases hr with ⟨info, mem, index, -⟩ | ⟨j, hj, output⟩
    · exact ⟨info, mem, index⟩
    · exact inPlace.outputs_hasSlot (members j hj) output
  rw [other.valuesAfter] at ran₁
  rw [state₁.values r has, state₂.values r has]
  rcases valuesAfter_of_lawful lawful split leaves with ⟨e, failed, -⟩ | ⟨_, _, ran', ran, agree⟩
  · rw [ran₁] at failed
    cases failed
  · rw [ran₁] at ran'
    rw [ran₂] at ran
    cases ran'
    cases ran
    exact agree r hr

end

theorem readsSettled_of_lawful (bound : ∀ r, s.IsLeaf r → net.table.valueAt r ≠ .none) :
    ReadsSettled s notify testing released net where
  reads _ _ _ _ split run _ hr := settled_of_lawful lawful runs kept silent quiet bound split run hr
  outcome_eq _ same leaves _ _ split := outcome_of_lawful lawful runs kept silent quiet same leaves split
  values_eq _ same leaves _ _ _ _ split run₁ run₂ _ hr :=
    values_of_lawful lawful runs kept silent quiet same leaves split run₁ run₂ hr

end

end Net

/-- The check accepts the schedules that keep the laws, and no others. Whoever runs the forward list of
one that is accepted, with the leaves bound and without giving values back, reads nothing that the run
has not written, the leaves apart. -/
theorem Schedule.accepted_reads_settled (s : Schedule) (ws : Workspace) :
    (s.check ws = .ok () ↔ s.Lawful ws) ∧
    (s.check ws = .ok () → ∀ (notify : Net.Notify) (testing : Bool) (released : List (List Slot))
      (net : Net), Net.Silent notify → net.Quiet → Net.Runs s net →
      net.config.conserveMemory = false → (∀ r, s.IsLeaf r → net.table.valueAt r ≠ .none) →
      Net.ReadsSettled s notify testing released net) :=
  ⟨check_eq_ok_iff, fun accepted _ _ _ _ silent quiet runs kept bound =>
    Net.readsSettled_of_lawful (check_eq_ok_iff.mp accepted) runs kept silent quiet bound⟩

namespace Sample

open Net

/-- The net of `x * p + x` with `x` as 5, after its schedule was altered so that the product and the sum
are written to the same slot. -/
def crowded (net : Net) : Net :=
  { net with
    config := { net.config with conserveMemory := false }
    schedule := { net.schedule with forward := net.schedule.forward.map ({ · with outputs := [2] }) }
    table := net.table.setValue 0 (.int 5) }

theorem accepted_reads_settled_crowded : ∃ now net net',
    net.schedule.check now = .ok () ∧ net.schedule.forward.flatMap (·.outputs) = [2, 2] ∧
      forwardSteps (notifyObservers now) false [] net.schedule.forward net = .ok ⟨⟩ net' ∧
      net'.table.valueAt 2 = .int 20 ∧
      ReadsSettled net.schedule (notifyObservers now) false [] net := by
  have check : graph.builds terminals options (fun now net =>
      !net.observed && net.placed.isEmpty && ((crowded net).schedule.check now).isOk &&
        (crowded net).schedule.forward.flatMap (·.outputs) == [2, 2] &&
        (crowded net).schedule.leafSlots.all (fun r => !((crowded net).table.valueAt r).isNone) &&
        (crowded net).succeeds
          (forwardSteps (notifyObservers now) false [] (crowded net).schedule.forward) fun net' =>
            Net.isWhole 20 (net'.table.valueAt 2)) = true := by cbv
  obtain ⟨now, net, reached, check⟩ := Reached.of_builds check
  simp only [Bool.and_eq_true, Bool.not_eq_true', List.isEmpty_iff, beq_iff_eq, List.all_eq_true]
    at check
  obtain ⟨⟨⟨⟨⟨alone, unplaced⟩, accepted⟩, outputs⟩, bound⟩, run⟩ := check
  obtain ⟨net', run, sum⟩ := succeeds_iff.mp run
  have accepted : (crowded net).schedule.check now = .ok () := by
    cases result : (crowded net).schedule.check now with
    | ok _ => rfl
    | error e => rw [result] at accepted; cases accepted
  have runs : Runs net.schedule net := (reached.spec graph_built terminals_exist).2.1
  have runs' : Runs (crowded net).schedule (crowded net) := by
    have bind := Follows.of_table runs (VariableTable.sameSlots_setValue (s := 0) (.int 5))
    refine ⟨rfl, bind.runs.infos, fun i _ c _ found => ?_⟩
    rw [show (crowded net).placed = [] from unplaced] at found
    cases found
  refine ⟨now, crowded net, net', accepted, outputs, run, Net.eq_of_isWhole sum, ?_⟩
  refine ((crowded net).schedule.accepted_reads_settled now).2 accepted _ _ _ _
    (silent_notifyObservers now) (fun observed => ?_) runs' rfl fun r leaf none => ?_
  · rw [show (crowded net).observed = false from alone] at observed
    cases observed
  · have some := bound r (Schedule.mem_leafSlots.mpr leaf)
    rw [none] at some
    cases some

end Sample

end Backprop
