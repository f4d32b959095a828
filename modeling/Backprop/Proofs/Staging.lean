import Mathlib
import Backprop.Proofs.Binding
import Backprop.Proofs.Exclusion
/-!
# Inputs that are refused

The values given for inputs are left waiting one after the other, so what stands before a name that no
input has waits for the next evaluation although the request fails.

* `Net.Left`: what waits when some entries were given before.
* `Net.leads_setInputs_refused`: a request fails at the first name that no input has.
* `Net.inputs_refused`: so does a pass, if it gets as far as its inputs.
* `Net.inputs_refused_waiting`: the next evaluation runs on what is left.
-/

namespace Backprop

section
variable {α β : Type} [BEq α] {k : α} {l m : List (α × β)} {p : α × β}

/-- Entries with one more, which takes the place of one with the same key. -/
def entered (m : List (α × β)) (p : α × β) : List (α × β) :=
  if m.any (·.1 == p.1) then m.map fun q => if q.1 == p.1 then (q.1, p.2) else q else m ++ [p]

theorem lastOfEach_eq (l : List (α × β)) : lastOfEach (· == ·) l = l.foldl entered [] := rfl

variable [LawfulBEq α]

theorem mem_entered : k ∈ (entered m p).map (·.1) ↔ k ∈ m.map (·.1) ∨ k = p.1 := by
  unfold entered
  split
  next there =>
    have keys : (m.map fun q => if q.1 == p.1 then (q.1, p.2) else q).map (·.1) = m.map (·.1) := by
      rw [List.map_map]
      refine List.map_congr_left fun q _ => ?_
      dsimp only [Function.comp]
      split <;> rfl
    have among : p.1 ∈ m.map (·.1) := by
      obtain ⟨q, mem, eq⟩ := List.any_eq_true.mp there
      exact List.mem_map.mpr ⟨q, mem, eq_of_beq eq⟩
    rw [keys]
    constructor
    · exact .inl
    · rintro (h | rfl)
      · exact h
      · exact among
  next =>
    rw [List.map_append, List.mem_append]
    simp

theorem mem_foldl_entered :
    k ∈ (l.foldl entered m).map (·.1) ↔ k ∈ m.map (·.1) ∨ k ∈ l.map (·.1) := by
  induction l generalizing m with
  | nil => simp
  | cons p l ih => rw [List.foldl_cons, ih, mem_entered, List.map_cons, List.mem_cons, or_assoc]

theorem mem_lastOfEach : k ∈ (lastOfEach (· == ·) l).map (·.1) ↔ k ∈ l.map (·.1) := by
  rw [lastOfEach_eq, mem_foldl_entered]
  simp

end

namespace Net

/-- What a net is asked to take for its inputs, by values and by keywords. A keyword takes the place
of the value for its name. -/
def asked (values keywords : Keywords) : Keywords := lastOfEach (· == ·) (values ++ keywords)

/-- The first net is left as if these entries had been given to the second one: together with later
ones, they make up what waits for its inputs. -/
def Left (net net' : Net) (entries : Keywords) : Prop :=
  ∀ later r, net'.stagedValue later r = net.stagedValue (entries ++ later) r

/-- Whether a pass gets as far as the inputs that it is given. -/
structure Admits (ws : Workspace) (options : PassOptions) (net : Net) : Prop where
  mode : ∃ mode, Mode.ofName options.mode = .ok mode
  idle : net.evaluating = false
  named : net.config.checkStructure = true → ∀ p ∈ net.compiledNames, ws.name p.1 = p.2

/-- A request whose first name that no input has is this one. -/
structure Strays (net : Net) (inputs before : Keywords) (name : String) : Prop where
  split : ∃ v after, inputs = before ++ (name, v) :: after
  known : ∀ p ∈ before, net.schedule.inputSlots.lookup p.1 ≠ none
  unknown : net.schedule.inputSlots.lookup name = none

variable {net net' : Net} {inputs before : Keywords} {name : String} {ws : Workspace}
  {options : PassOptions}

theorem exists_strays (strange : ∃ p ∈ inputs, net.schedule.inputSlots.lookup p.1 = none) :
    ∃ before name, net.Strays inputs before name := by
  obtain ⟨p, mem, unknown⟩ := strange
  have found : (inputs.find? fun p => (net.schedule.inputSlots.lookup p.1).isNone).isSome = true :=
    List.find?_isSome.mpr ⟨p, mem, by rw [unknown]; rfl⟩
  obtain ⟨⟨name, v⟩, first⟩ := Option.isSome_iff_exists.mp found
  obtain ⟨here, before, after, split, others⟩ := List.find?_eq_some_iff_append.mp first
  refine ⟨before, name, ⟨v, after, split⟩, fun p hp none => ?_, Option.isNone_iff_eq_none.mp here⟩
  have known := others p hp
  rw [none] at known
  cases known

theorem stagedValue_append (net : Net) (inputs later : Keywords) (r : Slot) :
    net.stagedValue (inputs ++ later) r =
      ((later.reverse.find? fun p => net.schedule.inputSlots.lookup p.1 == some r).map (·.2)).or
        (net.stagedValue inputs r) := by
  rw [stagedValue, List.reverse_append, List.find?_append, Option.map_or, Option.or_assoc]
  rfl

theorem Left.of_waiting (schedule : net'.schedule = net.schedule)
    (waits : ∀ r, net'.pending.lookup r = net.stagedValue inputs r) : net.Left net' inputs := by
  intro later r
  rw [stagedValue_append, ← waits, stagedValue, schedule]

/-- The entries before the first name that no input has are left waiting. -/
theorem leads_setInputs_refused (strays : net.Strays inputs before name) :
    Leads (setInputs inputs) net (fun _ _ => False) fun e net' =>
      e = .notAnInput name ∧ (∃ pending, net' = { net with pending }) ∧ net.Left net' before := by
  obtain ⟨⟨v, after, rfl⟩, known, unknown⟩ := strays
  have first := leads_setInputs before net
  simp only [setInputs, leads_bind, leads_get] at first ⊢
  rw [leads_forM_append]
  refine first.mono ?_ ?_
  · rintro _ net' ⟨⟨pending, rfl⟩, waits, -⟩
    rw [leads_forM_cons]
    dsimp only
    rw [unknown]
    exact ⟨rfl, ⟨pending, rfl⟩, .of_waiting rfl waits⟩
  · rintro e _ ⟨p, hp, none⟩
    exact absurd none (known p hp)

/-! ### Passes -/

theorem leads_checkStructure_fails (ws : Workspace) (net : Net) :
    Leads (checkStructure ws) net (fun _ _ => True) fun e _ => e.kind = .structural := by
  simp only [checkStructure, leads_bind, leads_get]
  split
  · refine Leads.forM (fun _ _ => True) trivial fun _ p _ _ _ _ => ?_
    split
    · trivial
    · rfl
  · trivial

/-- The table is as it was when the inputs are refused. -/
theorem leads_prepare_refused (strays : net.Strays options.inputs before name) :
    Leads (prepare ws options) net (fun _ _ => False) fun e net' =>
      net'.table = net.table ∧
      if net.config.checkStructure = true → ∀ p ∈ net.compiledNames, ws.name p.1 = p.2 then
        e = .notAnInput name ∧ net.Left net' before
      else e.kind = .structural ∧ net'.pending = net.pending := by
  have some : options.inputs.isEmpty = false := by
    obtain ⟨v, after, split⟩ := strays.split
    rw [split]
    cases before <;> rfl
  have kept : Keeps (· = net) (checkStructure ws) := keeps_checkStructure ws
  rw [prepare, leads_bind]
  refine (((leads_checkStructure ws net).and (leads_checkStructure_fails ws net)).and
    (kept net rfl)).mono ?_ ?_
  · rintro _ _ ⟨⟨⟨rfl, named⟩, -⟩, -⟩
    rw [some, Bool.not_false, if_pos rfl, leads_bind]
    refine (leads_setInputs_refused strays).mono (fun _ _ h => h.elim) ?_
    rintro e _ ⟨rfl, ⟨pending, rfl⟩, left⟩
    rw [if_pos named]
    exact ⟨rfl, rfl, left⟩
  · rintro e _ ⟨⟨unnamed, kind⟩, rfl⟩
    rw [if_neg unnamed]
    exact ⟨rfl, kind, rfl⟩

/-- How a pass ends that is given inputs which are refused: it fails, and the table stays. If it gets as
far as its inputs, then the entries before the name that no input has are left waiting; otherwise what
waited before. -/
def Turned (ws : Workspace) (options : PassOptions) (net : Net) (before : Keywords) (name : String)
    (e : Error) (net' : Net) : Prop :=
  net'.table = net.table ∧
    (Admits ws options net → e = .notAnInput name ∧ net.Left net' before) ∧
    (¬ Admits ws options net → e.kind ≠ .unknownVariable ∧ net'.pending = net.pending)

/-- A mode that does not exist is refused before anything else. -/
theorem turned_of_unknownMode {e : Error} (mode : Mode.ofName options.mode = .error e) :
    Turned ws options net before name e net := by
  refine ⟨rfl, fun admits => ?_, fun _ => ⟨?_, rfl⟩⟩
  · obtain ⟨_, named⟩ := admits.mode
    rw [mode] at named
    cases named
  · unfold Mode.ofName at mode
    split_ifs at mode
    cases mode
    simp [Error.kind]

theorem leads_forwardPass_refused (strays : net.Strays options.inputs before name) (notify : Notify) :
    Leads (forwardPass ws notify options) net (fun _ _ => False) (Turned ws options net before name) := by
  simp only [forwardPass, leads_bind, leads_ofExcept, enter, leads_get]
  cases mode : Mode.ofName options.mode with
  | error e => exact turned_of_unknownMode mode
  | ok m =>
    dsimp only
    split
    next busy =>
      refine ⟨rfl, fun admits => ?_, fun _ => ⟨by simp [Error.kind], rfl⟩⟩
      rw [admits.idle] at busy
      cases busy
    next idle =>
      have idle : net.evaluating = false := by simpa using idle
      rw [leads_modify, leads_attempt]
      have strays' : ({ net with evaluating := true, backwardReady := false } : Net).Strays
          options.inputs before name := ⟨strays.split, strays.known, strays.unknown⟩
      refine (leads_prepare_refused strays').mono (fun _ _ h => h.elim) ?_
      rintro e net' ⟨table, ends⟩
      refine ⟨table, fun admits => ?_, fun turned => ?_⟩
      · rw [if_pos admits.named] at ends
        exact ends
      · rw [if_neg fun named => turned ⟨⟨m, mode⟩, idle, named⟩] at ends
        exact ⟨by rw [ends.1]; decide, ends.2⟩

/-- An evaluation ends like its first half. -/
theorem leads_evaluatePass_refused (strays : net.Strays options.inputs before name) (notify : Notify)
    (seed : Value) : Leads (evaluatePass ws notify options seed) net (fun _ _ => False)
      (Turned ws options net before name) := by
  simp only [evaluatePass, leads_bind, leads_ofExcept, report]
  cases mode : Mode.ofName options.mode with
  | error e => exact turned_of_unknownMode mode
  | ok m =>
    let first : PassOptions := { options with keepForBackward := m == .normal }
    have half : ∀ journal, Leads (forwardPass ws notify first) { net with journal }
        (fun _ _ => False) (Turned ws options net before name) := by
      intro journal
      let base : Net := { net with journal }
      have strays' : base.Strays first.inputs before name := ⟨strays.split, strays.known, strays.unknown⟩
      have run : Leads (forwardPass ws notify first) base (fun _ _ => False)
          (Turned ws first base before name) := leads_forwardPass_refused strays' notify
      refine run.mono (fun _ _ h => h) ?_
      rintro e net' ⟨table, on, off⟩
      exact ⟨table, fun admits => on ⟨admits.mode, admits.idle, admits.named⟩,
        fun turned => off fun admits => turned ⟨admits.mode, admits.idle, admits.named⟩⟩
    dsimp only
    rw [leads_modify]
    exact (half _).mono (fun _ _ h => h.elim) fun _ _ h => h

/-! ### Requests -/

/-- A request with a name that no input has is refused at the first such name, and what stands before it
is left waiting for the next evaluation. A pass that is given it fails: if it gets as far as its inputs,
in the same way and with the same left waiting. -/
theorem inputs_refused {values keywords : Keywords}
    (strange : ∃ p ∈ values ++ keywords, net.schedule.inputSlots.lookup p.1 = none) :
    ∃ before name, net.Strays (asked values keywords) before name ∧
      (Error.notAnInput name).kind = .unknownVariable ∧
      Leads (setInputs (asked values keywords)) net (fun _ _ => False) (fun e net' =>
        e = .notAnInput name ∧ (∃ pending, net' = { net with pending }) ∧ net.Left net' before) ∧
      ∀ (ws : Workspace) (notify : Notify) (options : PassOptions) (seed : Value),
        options.inputs = asked values keywords →
          Leads (forwardPass ws notify options) net (fun _ _ => False)
            (Turned ws options net before name) ∧
          Leads (evaluatePass ws notify options seed) net (fun _ _ => False)
            (Turned ws options net before name) := by
  obtain ⟨p, mem, unknown⟩ := strange
  obtain ⟨q, there, eq⟩ := List.mem_map.mp
    (mem_lastOfEach.mpr (List.mem_map_of_mem (f := fun p : String × Value => p.1) mem))
  have strange : ∃ p ∈ asked values keywords, net.schedule.inputSlots.lookup p.1 = none :=
    ⟨q, there, by rw [eq]; exact unknown⟩
  obtain ⟨before, name, strays⟩ := exists_strays strange
  refine ⟨before, name, strays, rfl, leads_setInputs_refused strays,
    fun ws notify options seed given => ?_⟩
  rw [← given] at strays
  exact ⟨leads_forwardPass_refused strays notify, leads_evaluatePass_refused strays notify seed⟩

/-- Seven for `x`, and then a name that the sample does not have. -/
def Sample.request : Keywords := [("x", .int 7), ("nope", .int 1)]

theorem inputs_refused_sample : ∃ base now before name net,
    Sample.graph.buildNet Sample.terminals Sample.options = (.ok base, now) ∧
      (∃ p ∈ Sample.request ++ [], base.schedule.inputSlots.lookup p.1 = none) ∧
      base.Strays (asked Sample.request []) before name ∧
      setInputs (asked Sample.request []) base = .error (.notAnInput name) net ∧
      base.Left net before := by
  have check : Sample.graph.builds Sample.terminals Sample.options (fun _ base =>
      (base.schedule.inputSlots.lookup "nope").isNone) = true := by cbv
  obtain ⟨base, now, run, unknown⟩ := Workspace.of_builds check
  have strange : ∃ p ∈ Sample.request ++ [], base.schedule.inputSlots.lookup p.1 = none :=
    ⟨("nope", .int 1), by simp [Sample.request], Option.isNone_iff_eq_none.mp unknown⟩
  obtain ⟨before, name, strays, -, refused, -⟩ := inputs_refused strange
  unfold Leads at refused
  split at refused
  next => exact refused.elim
  next e net ends =>
    obtain ⟨rfl, -, left⟩ := refused
    exact ⟨base, now, before, name, net, run, strange, strays, ends, left⟩

/-- A value that stands before such a name is what the next evaluation runs on. Without the request that
was refused, it would have found no value. -/
theorem inputs_refused_waiting : ∃ base now e net done,
    Sample.graph.buildNet Sample.terminals Sample.options = (.ok base, now) ∧
      base.succeeds (evaluate now {}) (fun _ => true) = false ∧
      setInputs Sample.request base = .error e net ∧ e.kind = .unknownVariable ∧
      evaluate now {} .none net = .ok ⟨⟩ done ∧ Sample.total done = .int 28 := by
  have check : Sample.graph.builds Sample.terminals Sample.options (fun now base =>
      !base.succeeds (evaluate now {}) (fun _ => true) &&
        base.fails (setInputs Sample.request) fun e net =>
          e.kind == .unknownVariable &&
            net.succeeds (evaluate now {}) fun done => isWhole 28 (Sample.total done)) = true := by cbv
  obtain ⟨base, now, run, check⟩ := Workspace.of_builds check
  rw [Bool.and_eq_true, Bool.not_eq_true', fails_iff] at check
  obtain ⟨unbound, e, net, refused, check⟩ := check
  rw [Bool.and_eq_true, succeeds_iff] at check
  obtain ⟨kind, done, ends, total⟩ := check
  exact ⟨base, now, e, net, done, run, unbound, refused, eq_of_beq kind, ends, eq_of_isWhole total⟩

end Net

end Backprop
