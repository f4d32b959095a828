import Backprop.Proofs.Evaluation
/-!
# What a backward pass keeps

* `Net.Sweeps` says that sums of what is sent to a slot, and the reactions of instructions, stay within
  some sets of values.
* `Sweeps.received`, `Sweeps.adjointAfter`: then so does a whole list, and it fails nowhere.
* `Sweeps.not_failed`: an evaluation that can start, and whose seeds are in the sets, succeeds.
-/

namespace Backprop

namespace Net

variable {net : Net} {val : Valuation} {Sent Held : Slot → Value → Prop} {start : Cotangent}
  {r : Slot} {i : Instruction} {l : List Instruction}

/-- What a slot holds is one of its values `Held`, and what is sent to it one of its values `Sent`: sums
of these stay there, and instructions that take such derivatives of their outputs send such. -/
structure Sweeps (net : Net) (val : Valuation) (Sent Held : Slot → Value → Prop) : Prop where
  total : ∀ r d l, Held r d → (∀ x ∈ l, Sent r x) → ∃ t, net.totalOf d l = .ok t ∧ Held r t
  reacts : ∀ i ∈ net.schedule.forward, i.requiresGradient = true → ∀ adj : Cotangent,
    (∀ o ∈ i.outputs, ∃ d, adj o = .ok d ∧ Held o d) →
      ∃ ders, net.reaction val adj i = .ok ders ∧ ∀ r, ∀ p ∈ i.entriesFor ders r, Sent r p.2

/-- A forward pass is not stopped if it can start and no kernel fails. -/
theorem not_stopped_of_named {now : Workspace} {pass : PassOptions} {mode : Mode} {e : Error}
    (named : Mode.ofName pass.mode = .ok mode) (idle : net.evaluating = false) (ready : Ready now pass net)
    (values : net.valuesAfter (mode == .test) (net.boundValuation pass.inputs) net.schedule.forward =
      .ok val) :
    ¬ Stopped now pass net net.schedule.forward e := by
  intro stopped
  cases stopped with
  | mode unnamed => cases named.symm.trans unnamed
  | busy busy => cases idle.symm.trans busy
  | unready bad => exact bad ready
  | kernel named' failed =>
    cases named.symm.trans named'
    cases values.symm.trans failed

theorem not_stopped {now : Workspace} {pass : PassOptions} {e : Error} (normal : pass.mode = "normal")
    (idle : net.evaluating = false) (ready : Ready now pass net)
    (values : net.valuesAfter false (net.boundValuation pass.inputs) net.schedule.forward = .ok val) :
    ¬ Stopped now pass net net.schedule.forward e := by
  have named : Mode.ofName pass.mode = .ok .normal := by rw [normal]; rfl
  exact not_stopped_of_named named idle ready values

section
variable (sweeps : Sweeps net val Sent Held) (wf : net.schedule.WellFormed)
  (starts : ∀ r, net.schedule.HasSlot r → ∃ d, start r = .ok d ∧ Held r d)
include sweeps starts

theorem Sweeps.adjointAfter_of_received {parts : List (Position × Value)} (has : net.schedule.HasSlot r)
    (received : net.received start val l r = .ok parts) (sent : ∀ p ∈ parts, Sent r p.2) :
    ∃ d, net.adjointAfter start val l r = .ok d ∧ Held r d := by
  obtain ⟨d, begin, hd⟩ := starts r has
  obtain ⟨t, total, ht⟩ := sweeps.total r d (parts.map (·.2)) hd (List.forall_mem_map.mpr sent)
  refine ⟨t, ?_, ht⟩
  unfold Net.adjointAfter
  rw [received, begin]
  exact total

include wf

/-- What a list of instructions sends to a slot. -/
theorem Sweeps.received : ∀ {l : List Instruction}, l ⊆ net.schedule.forward → ∀ r,
    net.schedule.HasSlot r →
      ∃ parts, net.received start val l r = .ok parts ∧ ∀ p ∈ parts, Sent r p.2 := by
  intro l
  induction l with
  | nil => exact fun _ r _ => ⟨[], rfl, by simp⟩
  | cons i l ih =>
    intro sub r has
    obtain ⟨hi, sub⟩ := List.cons_subset.mp sub
    obtain ⟨parts, received, sent⟩ := ih sub r has
    rw [received_cons, received]
    by_cases sends : i.sendsTo r = true
    · have gradient : i.requiresGradient = true := by
        simp only [Instruction.sendsTo, Bool.and_eq_true] at sends
        exact sends.1
      have held : ∀ o ∈ i.outputs, ∃ d, net.adjointAfter start val l o = .ok d ∧ Held o d := by
        intro o ho
        have there := wf.outputs_hasSlot hi ho
        obtain ⟨parts, received, sent⟩ := ih sub o there
        exact sweeps.adjointAfter_of_received starts there received sent
      obtain ⟨ders, reacts, own⟩ := sweeps.reacts i hi gradient _ held
      rw [sent_of_reaction gradient reacts]
      exact ⟨_, rfl, List.forall_mem_append.mpr ⟨own r, sent⟩⟩
    · rw [sent_of_not_sendsTo (by simpa using sends)]
      exact ⟨_, rfl, sent⟩

/-- What has reached a slot once a list of instructions has sent its derivatives. -/
theorem Sweeps.adjointAfter (sub : l ⊆ net.schedule.forward) (has : net.schedule.HasSlot r) :
    ∃ d, net.adjointAfter start val l r = .ok d ∧ Held r d := by
  obtain ⟨parts, received, sent⟩ := sweeps.received wf starts sub r has
  exact sweeps.adjointAfter_of_received starts has received sent

/-- No instruction of the backward pass fails. -/
theorem Sweeps.reaction_of_split {done rest : List Instruction}
    (split : net.schedule.backward = done.reverse ++ i :: rest) :
    ∃ ders, net.reaction val (net.adjointAfter start val done) i = .ok ders := by
  have member : ∀ j ∈ i :: done, j ∈ net.schedule.backward := by
    intro j hj
    rw [split]
    rcases List.mem_cons.mp hj with rfl | hj <;> simp [*]
  have sub : done ⊆ net.schedule.forward := fun j hj =>
    wf.mem_forward_of_backward (member j (List.mem_cons_of_mem _ hj))
  have hi := wf.mem_forward_of_backward (member i List.mem_cons_self)
  have gradient : i.requiresGradient = true := by
    have among := member i List.mem_cons_self
    rw [wf.backwardList, List.mem_reverse] at among
    exact (List.mem_filter.mp among).2
  obtain ⟨ders, reacts, -⟩ := sweeps.reacts i hi gradient _ fun o ho =>
    sweeps.adjointAfter wf starts sub (wf.outputs_hasSlot hi ho)
  exact ⟨ders, reacts⟩

end

/-- A normal evaluation succeeds if it can start and no kernel fails. -/
theorem not_failed {now : Workspace} {pass : PassOptions} {seed : Value} {e : Error}
    (normal : pass.mode = "normal") (idle : net.evaluating = false) (ready : Ready now pass net)
    (seedable : net.Seedable seed)
    (values : net.valuesAfter false (net.boundValuation pass.inputs) net.schedule.forward = .ok val)
    (starts : ∀ r, net.schedule.HasSlot r → ∃ d, net.startAdjoint pass.accumulate seed r = .ok d)
    (reacts : ∀ done i rest, net.schedule.backward = done.reverse ++ i :: rest →
      ∃ ders, net.reaction val (net.adjointAfter (net.startAdjoint pass.accumulate seed) val done) i =
        .ok ders) :
    ¬ Failed now pass net.schedule seed net e := by
  intro failed
  cases failed with
  | forward stopped => exact not_stopped normal idle ready values stopped
  | seeds bad => exact bad seedable
  | start has failed =>
    obtain ⟨d, begun⟩ := starts _ has
    cases begun.symm.trans failed
  | backward values' failed =>
    cases values.symm.trans values'
    obtain ⟨done, i, rest, split, failed⟩ := failed
    obtain ⟨ders, reacts⟩ := reacts done i rest split
    cases reacts.symm.trans failed

/-- So it does if it begins with derivatives that the backward pass keeps. -/
theorem Sweeps.not_failed {now : Workspace} {pass : PassOptions} {seed : Value} {e : Error}
    (sweeps : Sweeps net val Sent Held) (wf : net.schedule.WellFormed) (normal : pass.mode = "normal")
    (idle : net.evaluating = false) (ready : Ready now pass net) (seedable : net.Seedable seed)
    (values : net.valuesAfter false (net.boundValuation pass.inputs) net.schedule.forward = .ok val)
    (starts : ∀ r, net.schedule.HasSlot r →
      ∃ d, net.startAdjoint pass.accumulate seed r = .ok d ∧ Held r d) :
    ¬ Failed now pass net.schedule seed net e :=
  Net.not_failed normal idle ready seedable values
    (fun r has => (starts r has).imp fun _ begun => begun.1)
    fun _ _ _ split => sweeps.reaction_of_split wf starts split

end Net

end Backprop
