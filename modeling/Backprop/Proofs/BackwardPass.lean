import Backprop.Proofs.Backward
import Backprop.Proofs.ForwardPass
/-!
# Backward passes as a whole

* `Net.seedsAt` are the seeds of a slot, `Net.startAdjoint` the derivative that it has before any
  instruction has sent something.
* `Net.backwardTo` is a pass that stops after some instructions; `leads_backwardTo` says what it
  leaves and why it fails.
-/

namespace Backprop

namespace Net

variable {s : Schedule} {net net' base : Net} {notify : Notify} {val : Valuation}

/-- The seed of a pass: the given one or the usual one. -/
def seedOf (net : Net) (seed : Value) : Value := if seed.isNone then net.config.defaultSeed else seed

/-- The entries of a dictionary whose keys name a slot. -/
def entriesAt (names : List (String × Slot)) (r : Slot) (entries : List (Value × Value)) :
    List Value :=
  entries.filterMap fun (key, v) =>
    match key with
    | .text name => if names.lookup name = some r then some v else none
    | _ => none

/-- The seeds of a slot, in the order in which they are given. -/
def seedsAt (net : Net) (seed : Value) (r : Slot) : List Value :=
  match net.seedOf seed with
  | .dict entries => entriesAt net.schedule.names r entries
  | v => if net.schedule.terminals.getLast? = some r then [v] else []

/-- Whether every seed is meant for a slot. -/
def Seedable (net : Net) (seed : Value) : Prop :=
  match net.seedOf seed with
  | .dict entries => ∀ e ∈ entries, ∃ name r, e.1 = .text name ∧ net.schedule.names.lookup name = some r
  | _ => net.schedule.terminals ≠ []

/-- The derivative of a slot before any instruction has sent something to it. -/
def startAdjoint (net : Net) (accumulate : Bool) (seed : Value) : Cotangent := fun r => do
  net.totalOf (← net.table.startDer accumulate r) (net.seedsAt seed r)

/-- The derivatives of a net with the seeds added to them. -/
def seeded (net : Net) (seed : Value) : Cotangent := fun r =>
  net.totalOf (net.table.derAt r) (net.seedsAt seed r)

theorem seedOf_eq (config : net'.config = net.config) : net'.seedOf = net.seedOf := by
  funext seed
  simp only [seedOf, config]

theorem seedsAt_eq (config : net'.config = net.config) (schedule : net'.schedule = net.schedule) :
    net'.seedsAt = net.seedsAt := by
  funext seed r
  simp only [seedsAt, seedOf_eq config, schedule]

theorem seedable_eq (config : net'.config = net.config) (schedule : net'.schedule = net.schedule) :
    net'.Seedable = net.Seedable := by
  funext seed
  simp only [Seedable, seedOf_eq config, schedule]

theorem totalOf_append (total : Value) (l m : List Value) :
    net.totalOf total (l ++ m) = (net.totalOf total l).bind fun total => net.totalOf total m := by
  simp only [totalOf, List.foldlM_append]
  rfl

theorem totalOf_singleton (total v : Value) :
    net.totalOf total [v] = VariableTable.accumulated net.table.addition total v := by
  simp [totalOf]

/-! ### Seeds -/

/-- A net whose derivatives are these, with nothing waiting, and that is otherwise as before. -/
def Redone (s : Schedule) (net net' : Net) (der : Cotangent) : Prop :=
  ∃ table, net' = { net with table } ∧ net.table.SameSlots table ∧
    ∀ r, s.HasSlot r → table.valueAt r = net.table.valueAt r ∧ der r = .ok (table.derAt r) ∧
      table.partsAt r = []

theorem leads_seed {seeds : Slot → List Value} {q : Slot} {table : VariableTable} (v : Value)
    (has : ∀ r, net.table.Has r ↔ s.HasSlot r) (hq : s.HasSlot q)
    (so : Redone s net { net with table } fun r => net.totalOf (net.table.derAt r) (seeds r)) :
    Leads (onTable (VariableTable.accumulate q v none)) { net with table }
      (fun _ net' => Redone s net net' fun r =>
        net.totalOf (net.table.derAt r) (seeds r ++ if r = q then [v] else []))
      (fun _ _ => ∃ e, net.totalOf (net.table.derAt q) (seeds q ++ [v]) = .error e) := by
  obtain ⟨_, eq, same, slots⟩ := so
  cases eq
  have hasT : ∀ r, s.HasSlot r → table.Has r := fun r hr => (same.has r).mpr ((has r).mpr hr)
  have before : ∀ r, s.HasSlot r →
      net.totalOf (net.table.derAt r) (seeds r) = .ok (table.derAt r) := fun r hr => (slots r hr).2.1
  rw [leads_onTable, VariableTable.leads_accumulate (hasT q hq),
    VariableTable.readDer_of_partsAt (slots q hq).2.2]
  have total : net.totalOf (net.table.derAt q) (seeds q ++ [v]) =
      VariableTable.accumulated table.addition (table.derAt q) v := by
    rw [totalOf_append, before q hq, Except.bind, totalOf_singleton, same.addition]
  dsimp only
  cases sum : VariableTable.accumulated table.addition (table.derAt q) v with
  | error e => exact ⟨e, total.trans sum⟩
  | ok d =>
    have set := VariableTable.Becomes.setDerAt (hasT q hq) d
    refine ⟨_, rfl, same.trans set.same, fun r hr => ⟨?_, ?_, ?_⟩⟩
    · rw [set.values r (hasT r hr), (slots r hr).1]
    · rw [set.ders r (hasT r hr)]
      by_cases at' : r = q
      · simp only [at', if_true, total, sum]
      · simp only [at', if_false, List.append_nil, before r hr]
    · rw [set.parts r (hasT r hr), (slots r hr).2.2]
      split <;> rfl

theorem entriesAt_append (names : List (String × Slot)) (r : Slot) (l m : List (Value × Value)) :
    entriesAt names r (l ++ m) = entriesAt names r l ++ entriesAt names r m :=
  List.filterMap_append

theorem entriesAt_text {names : List (String × Slot)} {name : String} {q : Slot}
    (found : names.lookup name = some q) (r : Slot) (v : Value) :
    entriesAt names r [(.text name, v)] = if r = q then [v] else [] := by
  by_cases eq : r = q
  · simp [entriesAt, found, eq]
  · simp [entriesAt, found, eq, Ne.symm eq]

/-- Why no derivatives could be seeded. -/
def Unseeded (s : Schedule) (net : Net) (seed : Value) : Prop :=
  ¬ net.Seedable seed ∨ ∃ r e, s.HasSlot r ∧ net.seeded seed r = .error e

theorem leads_seedEach (wf : s.WellFormed) (runs : Runs s net) (ws : Workspace) {seed : Value}
    {entries : List (Value × Value)} (dict : net.seedOf seed = .dict entries)
    (start : Redone s net net fun r => .ok (net.table.derAt r)) :
    Leads (entries.forM fun (key, v) => do
        let slot ←
          match key with
          | .text name => ofExcept (net.schedule.slotOf name)
          | _ => throw (.noVariable (key.plainText ws.label))
        onTable (VariableTable.accumulate slot v none)) net
      (fun _ net' => Redone s net net' (net.seeded seed)) (fun _ _ => Unseeded s net seed) := by
  obtain rfl : net.schedule = s := runs.schedule
  have has := runs.has wf
  have seeds : net.seeded seed = fun r => net.totalOf (net.table.derAt r)
      (entriesAt net.schedule.names r entries) := by
    funext r
    simp only [seeded, seedsAt, dict]
  rw [seeds]
  refine Leads.forM (fun seen net' => Redone net.schedule net net' fun r =>
    net.totalOf (net.table.derAt r) (entriesAt net.schedule.names r seen)) start ?_
  rintro seen ⟨key, v⟩ rest net' split so
  have bad : (¬ ∃ name r, key = .text name ∧ net.schedule.names.lookup name = some r) →
      Unseeded net.schedule net seed := by
    intro unknown
    refine .inl fun seedable => unknown ?_
    simp only [Seedable, dict] at seedable
    exact seedable (key, v) (by simp [split])
  dsimp only
  split
  next name =>
    simp only [leads_bind, leads_ofExcept, Schedule.slotOf]
    cases found : net.schedule.names.lookup name with
    | none =>
      refine bad ?_
      rintro ⟨name', r, eq, found'⟩
      cases eq
      rw [found] at found'
      cases found'
    | some q =>
      dsimp only
      obtain ⟨table, eq, slots⟩ := so
      subst eq
      have member : (name, q) ∈ net.schedule.names := by
        obtain ⟨l, m, split, _⟩ := List.lookup_eq_some_iff.mp found
        rw [split]
        simp
      apply (leads_seed v has (wf.nameSlots _ member) ⟨table, rfl, slots⟩).mono
      · intro _ net' done
        simpa only [entriesAt_append, entriesAt_text found] using done
      · rintro _ _ ⟨e, failed⟩
        refine .inr ⟨q, e, wf.nameSlots _ member, ?_⟩
        rw [seeds, split]
        have whole : entriesAt net.schedule.names q (seen ++ (.text name, v) :: rest) =
            (entriesAt net.schedule.names q seen ++ [v]) ++ entriesAt net.schedule.names q rest := by
          rw [show seen ++ (Value.text name, v) :: rest = seen ++ [(.text name, v)] ++ rest by simp,
            entriesAt_append, entriesAt_append, entriesAt_text found, if_pos rfl]
        simp only [whole, totalOf_append _ (_ ++ _), failed]
        rfl
  next other =>
    refine bad ?_
    rintro ⟨name, r, rfl, _⟩
    exact other name rfl

/-- Seeding adds each seed to the derivative of its slot. -/
theorem leads_seedDers (wf : s.WellFormed) (runs : Runs s net) (ws : Workspace) (seed : Value)
    (empty : ∀ r, s.HasSlot r → net.table.partsAt r = []) :
    Leads (seedDers ws seed) net (fun _ net' => Redone s net net' (net.seeded seed))
      (fun _ _ => Unseeded s net seed) := by
  have start : Redone s net net fun r => .ok (net.table.derAt r) :=
    ⟨net.table, rfl, .refl _, fun r hr => ⟨rfl, rfl, empty r hr⟩⟩
  simp only [seedDers, leads_bind, leads_get]
  have same : (if seed.isNone = true then net.config.defaultSeed else seed) = net.seedOf seed := rfl
  rw [same]
  split
  next entries dict => exact leads_seedEach wf runs ws dict start
  next v plain =>
    have seeds : ∀ r, net.seedsAt seed r =
        if net.schedule.terminals.getLast? = some r then [net.seedOf seed] else [] := by
      intro r
      unfold seedsAt
      split
      next entries dict => exact (plain entries dict).elim
      next => rfl
    split
    next q last =>
      have hq : s.HasSlot q := by
        have member := List.mem_of_getLast? last
        rw [runs.schedule] at member
        obtain ⟨info, mem, index, _⟩ := wf.terminalSlots q member
        exact ⟨info, mem, index⟩
      have none : Redone s net net fun r => net.totalOf (net.table.derAt r) [] := start
      apply (leads_seed (net.seedOf seed) (runs.has wf) hq none).mono
      · rintro _ net' ⟨table, rfl, same', slots⟩
        refine ⟨table, rfl, same', fun r hr => ?_⟩
        have slot := slots r hr
        simp only [List.nil_append] at slot
        simp only [seeded, seeds, last, Option.some.injEq, @eq_comm _ q r]
        exact slot
      · rintro _ _ ⟨e, failed⟩
        refine .inr ⟨q, e, hq, ?_⟩
        simpa only [seeded, seeds, last, if_true, List.nil_append] using failed
    next none =>
      refine .inl fun seedable => ?_
      unfold Seedable at seedable
      split at seedable
      next entries dict => exact (plain entries dict).elim
      next => exact seedable (List.getLast?_eq_none_iff.mp none)

/-! ### Passes that stop early -/

/-- A backward pass that stops after a number of instructions. The result is what its rest needs. -/
def backwardTo (ws : Workspace) (notify : Notify) (seed : Value) (k : Nat) : NetM Schedule := do
  if !(← get).backwardReady then throw .notReady
  enter
  attempt "Backward" "<seed>" (seedDers ws seed)
  let schedule := (← get).schedule
  backwardSteps notify schedule.release 0 (schedule.backward.take k)
  return schedule

theorem backwardSteps_append (notify : Notify) (release : ReleasePlan) (l m : List Instruction) (step : Nat) :
    backwardSteps notify release step (l ++ m) = (do
      backwardSteps notify release step l
      backwardSteps notify release (step + l.length) m) := by
  induction l generalizing step with
  | nil => simp [backwardSteps]
  | cons i l ih =>
    have places : step + 1 + l.length = step + (l.length + 1) := by omega
    simp [backwardSteps, ih, places]

/-- A backward pass that stops one instruction later. -/
theorem backwardTo_succ (ws : Workspace) (seed : Value) (k : Nat) :
    backwardTo ws notify seed (k + 1) = (do
      let schedule ← backwardTo ws notify seed k
      backwardSteps notify schedule.release (schedule.backward.take k).length
        ((schedule.backward.drop k).take 1)
      return schedule) := by
  simp only [backwardTo, bind_assoc, List.take_add, backwardSteps_append, Nat.zero_add]
  refine bind_congr fun net => ?_
  split <;> simp only [bind_assoc, pure_bind]

/-- A pass goes on from where the one that stops early is. -/
theorem backwardPass_eq (ws : Workspace) (seed : Value) (k : Nat) :
    backwardPass ws notify seed = (do
      let schedule ← backwardTo ws notify seed k
      backwardSteps notify schedule.release (schedule.backward.take k).length
        (schedule.backward.drop k)
      leave false
      notify (.event .finished)) := by
  have whole : ∀ (release : ReleasePlan) (l : List Instruction),
      backwardSteps notify release 0 l = (do
        backwardSteps notify release 0 (l.take k)
        backwardSteps notify release (l.take k).length (l.drop k)) := by
    intro release l
    have parts := backwardSteps_append notify release (l.take k) (l.drop k) 0
    rwa [List.take_append_drop, Nat.zero_add] at parts
  simp only [backwardPass, backwardTo, bind_assoc]
  refine bind_congr fun net => ?_
  split
  · simp only [bind_assoc]
    refine bind_congr fun _ => bind_congr fun _ => bind_congr fun _ => bind_congr fun net => ?_
    rw [whole, bind_assoc]
    rfl
  · simp only [bind_assoc]
    refine bind_congr fun _ => bind_congr fun _ => bind_congr fun net => ?_
    rw [whole, bind_assoc]
    rfl

/-- Why a backward pass that may start fails. -/
def Refused (s : Schedule) (val : Valuation) (net : Net) (seed : Value) (e : Error) : Prop :=
  Unseeded s net seed ∨ Fails s (net.seeded seed) val net e

/-- What a forward pass leaves that was kept for a backward pass. -/
structure Kept (s : Schedule) (val : Valuation) (net : Net) : Prop where
  runs : Runs s net
  ready : net.backwardReady = true
  idle : net.evaluating = false
  values : ∀ r, s.HasSlot r →
    net.HoldsWhile r (val r) (s.Wanted net.config.conserveMemory s.backward r)
  parts : ∀ r, s.HasSlot r → net.table.partsAt r = []

/-- The first instructions of a backward pass leave behind the derivatives that they define. -/
theorem leads_backwardTo (wf : s.WellFormed) (kept : Kept s val net) (silent : Silent notify)
    (quiet : net.Quiet) (ws : Workspace) (seed : Value) (k : Nat) :
    Leads (backwardTo ws notify seed k) net
      (fun r net' => r = s ∧ Returning s (net.seeded seed) val net net'
        (s.backward.take k).reverse (s.backward.drop k))
      (fun e _ => Refused s val net seed e) := by
  obtain rfl : net.schedule = s := kept.runs.schedule
  have entered : Follows net.schedule net { net with evaluating := true, backwardReady := false } :=
    ⟨⟨kept.runs.schedule, kept.runs.infos, kept.runs.placed⟩, rfl, rfl, rfl, rfl, id⟩
  simp only [backwardTo, enter, leads_bind, leads_get, kept.ready, kept.idle, Bool.not_true,
    Bool.false_eq_true, if_false, leads_pure, leads_modify, leads_attempt]
  apply (leads_seedDers wf entered.runs ws seed kept.parts).mono
  · rintro _ _ ⟨table, rfl, same, slots⟩
    have begun := entered.trans (Follows.of_table entered.runs same)
    have state : Returning net.schedule (net.seeded seed) val net
        { net with evaluating := true, backwardReady := false, table } [] net.schedule.backward := by
      refine ⟨begun, ?_, ?_, ?_, ?_, ?_, fun _ _ suffix => by simp at suffix⟩
      · intro r hr
        unfold HoldsWhile
        rw [show table.valueAt r = net.table.valueAt r from (slots r hr).1]
        exact kept.values r hr
      · intro r hr _
        refine ⟨(slots r hr).2.1, ?_⟩
        rw [show table.partsAt r = [] from (slots r hr).2.2]
        rfl
      · exact fun r _ written => absurd written (written_nil r)
      · exact fun r _ written => absurd written (written_nil r)
      · exact fun r _ written => absurd written (written_nil r)
    have split : net.schedule.backward = ([] : List Instruction).reverse ++
        (net.schedule.backward.take k ++ net.schedule.backward.drop k) := by simp
    apply (leads_backwardSteps wf silent quiet (net.schedule.backward.take k) [] _ split
      (by rw [List.take_append_drop]; exact state)).mono
    · intro _ net' returned
      exact ⟨rfl, by simpa using returned⟩
    · exact fun _ _ fails => .inr fails
  · rintro _ _ (unknown | ⟨r, e, hr, failed⟩)
    · exact .inl (.inl unknown)
    · exact .inl (.inr ⟨r, e, hr, failed⟩)

theorem leads_backwardPass (wf : s.WellFormed) (kept : Kept s val net) (silent : Silent notify)
    (quiet : net.Quiet) (ws : Workspace) (seed : Value) :
    Leads (backwardPass ws notify seed) net
      (fun _ net' => ∃ last, Returning s (net.seeded seed) val net last
          (s.forward.filter (·.requiresGradient)) [] ∧
        net' = { last with evaluating := false, backwardReady := false })
      (fun e _ => Refused s val net seed e) := by
  rw [backwardPass_eq ws seed s.backward.length, leads_bind]
  have whole := leads_backwardTo wf kept silent quiet ws seed s.backward.length
  apply whole.mono _ fun _ _ h => h
  rintro _ last ⟨rfl, returned⟩
  simp only [List.drop_length, backwardSteps, leads_bind, leads_pure, leave, leads_modify]
  refine leads_silent silent ?_ _ ?_
  · exact returned.follows.quiet quiet
  · rintro _ ⟨journal, profile, rfl⟩
    refine ⟨{ last with journal, profile }, ?_, rfl⟩
    have returned' := returned.recorded ⟨journal, profile, rfl⟩
    simpa only [List.take_length, List.drop_length, wf.backwardList, List.reverse_reverse]
      using returned'

end Net

end Backprop
