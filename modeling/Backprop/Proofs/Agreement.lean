import Backprop.Proofs.Calls
/-!
# Two runs that agree

* `Agree E P m n Q F`: from states related by `P`, running `m` and `n` ends in the same result and
  states related by `Q`, or in failures related by `E` and states related by `F`.
* `Net.Kin` are relations between nets that differ only in what no operation reads. Every operation
  agrees with itself for them.
* `Net.Twins` adds that a relation survives the passes of a schedule, one relation holding between
  passes and one inside.
-/

namespace Backprop

section
variable {ε σ α β : Type} {E : ε → ε → Prop} {P Q R F : σ → σ → Prop}

/-- The ends of two runs: the same result, or failures that count as the same. -/
def Meet (E : ε → ε → Prop) (Q F : σ → σ → Prop) :
    EStateM.Result ε σ α → EStateM.Result ε σ α → Prop
  | .ok a s, .ok b t => a = b ∧ Q s t
  | .error e s, .error f t => E e f ∧ F s t
  | _, _ => False

def Agree (E : ε → ε → Prop) (P : σ → σ → Prop) (m n : EStateM ε σ α) (Q F : σ → σ → Prop) : Prop :=
  ∀ s t, P s t → Meet E Q F (m s) (n t)

theorem Meet.mono {Q' F' : σ → σ → Prop} {x y : EStateM.Result ε σ α} (h : Meet E Q F x y)
    (hQ : ∀ s t, Q s t → Q' s t) (hF : ∀ s t, F s t → F' s t) : Meet E Q' F' x y := by
  cases x <;> cases y
  · exact ⟨h.1, hQ _ _ h.2⟩
  · exact h
  · exact h
  · exact ⟨h.1, hF _ _ h.2⟩

/-- What is known of each of two runs by itself can say that they agree. -/
theorem Meet.of_leads {m n : EStateM ε σ α} {s t : σ} {ok ok' : α → σ → Prop}
    {err err' : ε → σ → Prop} (hm : Leads m s ok err) (hn : Leads n t ok' err')
    (both : ∀ a u b v, ok a u → ok' b v → a = b ∧ Q u v)
    (neither : ∀ e u f v, err e u → err' f v → E e f ∧ F u v)
    (left : ∀ a u f v, ok a u → err' f v → False) (right : ∀ e u b v, err e u → ok' b v → False) :
    Meet E Q F (m s) (n t) := by
  unfold Leads at hm hn
  cases x : m s <;> cases y : n t <;> rw [x] at hm <;> rw [y] at hn
  · exact both _ _ _ _ hm hn
  · exact left _ _ _ _ hm hn
  · exact right _ _ _ _ hm hn
  · exact neither _ _ _ _ hm hn

/-- What is known of the results of each run is known of results that agree. -/
theorem Meet.and_leads {m n : EStateM ε σ α} {s t : σ} {ok ok' : α → σ → Prop}
    {err err' : ε → σ → Prop} (h : Meet E Q F (m s) (n t)) (hm : Leads m s ok err)
    (hn : Leads n t ok' err') :
    Meet E (fun u v => Q u v ∧ ∃ a, ok a u ∧ ok' a v) F (m s) (n t) := by
  unfold Leads at hm hn
  cases x : m s <;> cases y : n t <;> rw [x, y] at h <;> rw [x] at hm <;> rw [y] at hn
  · obtain ⟨rfl, rel⟩ := h
    exact ⟨rfl, rel, _, hm, hn⟩
  · exact h
  · exact h
  · exact h

namespace Agree

theorem mono {m n : EStateM ε σ α} {P' Q' F' : σ → σ → Prop} (h : Agree E P m n Q F)
    (hP : ∀ s t, P' s t → P s t) (hQ : ∀ s t, Q s t → Q' s t) (hF : ∀ s t, F s t → F' s t) :
    Agree E P' m n Q' F' := fun s t hst => (h s t (hP s t hst)).mono hQ hF

/-- Agreement on failures alone, whatever states they leave. -/
theorem lenient {m n : EStateM ε σ α} (h : Agree E P m n Q F) :
    Agree E P m n Q fun _ _ => True := h.mono (fun _ _ h => h) (fun _ _ h => h) fun _ _ _ => trivial

theorem pure (a : α) : Agree E P (pure a) (pure a) P F := fun _ _ h => ⟨rfl, h⟩

theorem throw {e f : ε} (same : E e f) : Agree E P (throw e : EStateM ε σ α) (throw f) Q P :=
  fun _ _ h => ⟨same, h⟩

theorem modify {f g : σ → σ} (h : ∀ s t, P s t → Q (f s) (g t)) :
    Agree E P (modify f : EStateM ε σ PUnit) (modify g) Q F := fun s t hst => ⟨rfl, h s t hst⟩

theorem bind {m n : EStateM ε σ α} {f g : α → EStateM ε σ β} (h : Agree E P m n Q F)
    (h' : ∀ a, Agree E Q (f a) (g a) R F) : Agree E P (m >>= f) (n >>= g) R F := by
  intro s t hst
  have first := h s t hst
  simp only [Bind.bind, EStateM.bind]
  cases x : m s <;> cases y : n t <;> rw [x, y] at first
  · obtain ⟨rfl, later⟩ := first
    exact h' _ _ _ later
  · exact first.elim
  · exact first.elim
  · exact first

/-- What comes after a failure does not matter. -/
theorem throw_bind {e f : ε} (same : E e f) (m n : α → EStateM ε σ β) :
    Agree E P (MonadExcept.throw e >>= m) (MonadExcept.throw f >>= n) Q P := fun _ _ h => ⟨same, h⟩

/-- The states that two runs read are related, not the same. -/
theorem bind_get {f g : σ → EStateM ε σ β} (h : ∀ s t, P s t → Agree E P (f s) (g t) R F) :
    Agree E P (get >>= f) (get >>= g) R F := fun s t hst => h s t hst s t hst

theorem ite {c : Prop} [Decidable c] {m m' n n' : EStateM ε σ α} (yes : c → Agree E P m n Q F)
    (no : ¬ c → Agree E P m' n' Q F) :
    Agree E P (if c then m else m') (if c then n else n') Q F := by
  by_cases h : c
  · rw [if_pos h, if_pos h]
    exact yes h
  · rw [if_neg h, if_neg h]
    exact no h

theorem forM {f g : α → EStateM ε σ PUnit} : ∀ {l : List α}, (∀ a ∈ l, Agree E P (f a) (g a) P F) →
    Agree E P (l.forM f) (l.forM g) P F := by
  intro l
  induction l with
  | nil => exact fun _ => .pure _
  | cons a l ih =>
    intro each
    exact .bind (f := fun _ => l.forM f) (g := fun _ => l.forM g) (each a (by simp))
      fun _ => ih fun b hb => each b (by simp [hb])

theorem mapM {f g : α → EStateM ε σ β} : ∀ {l : List α}, (∀ a ∈ l, Agree E P (f a) (g a) P F) →
    Agree E P (l.mapM f) (l.mapM g) P F := by
  intro l
  induction l with
  | nil =>
    intro _
    rw [List.mapM_nil, List.mapM_nil]
    exact .pure []
  | cons a l ih =>
    intro each
    rw [List.mapM_cons, List.mapM_cons]
    refine .bind (each a (by simp)) fun b => .bind (ih fun c hc => each c (by simp [hc])) fun bs => ?_
    exact .pure _

end Agree

end

namespace Net

variable {E : Error → Error → Prop} {s : Schedule} {i : Instruction}

/-- A relation between nets that differ at most in what no step of a pass reads: their records, what
their observers wait for and whether the last pass was aborted; and in what they keep of moved
constants. It does not depend on what calls change without running a pass. Failures are compared by a
relation of their own. -/
structure Kin (E : Error → Error → Prop) (R : Net → Net → Prop) : Prop where
  refl : ∀ e, E e e
  same : ∀ {net net' : Net}, R net net' → ∃ journal profile placed reactions dirty,
    net' = { net with journal, profile, placed, reactions, dirty }
  table : ∀ {net net' : Net} {table : VariableTable}, R net net' → net.table.SameSlots table →
    R { net with table } { net' with table }
  records : ∀ {net net' : Net} {j j' : Journal} (f : Profile → Profile), R net net' →
    R { net with journal := j, profile := f net.profile }
      { net' with journal := j', profile := f net'.profile }
  pending : ∀ {net net' : Net} {pending : List (Slot × Value)}, R net net' →
    R { net with pending } { net' with pending }

/-- The check for renamed nodes reads the names that nodes had and have. -/
theorem agree_checkStructure {P : Net → Net → Prop} (refl : ∀ e, E e e) {ws ws' : Workspace}
    (config : ∀ {net net'}, P net net' → net'.config = net.config)
    (compiled : ∀ {net net'}, P net net' → net'.compiledNames = net.compiledNames)
    (named : ∀ {net net'}, P net net' → ∀ p ∈ net.compiledNames, ws.name p.1 = ws'.name p.1) :
    Agree E P (checkStructure ws) (checkStructure ws') P P := by
  refine .bind_get fun net net' rel => ?_
  rw [config rel, compiled rel]
  refine .ite (fun _ => .forM fun p hp => ?_) fun _ => .pure _
  dsimp only
  rw [named rel p hp]
  exact .ite (fun _ => .pure _) fun _ => .throw (refl _)

theorem agree_ofExcept {P : Net → Net → Prop} (refl : ∀ e, E e e) {α : Type} (x : Except Error α) :
    Agree E P (ofExcept x) (ofExcept x) P P := by
  cases x with
  | ok a => exact .pure a
  | error e => exact .throw (refl e)

section
variable {R : Net → Net → Prop} (kin : Kin E R)
include kin

theorem agree_onTable {α : Type} {m : TableM α} (h : ∀ t : VariableTable, Keeps t.SameSlots m) :
    Agree E R (onTable m) (onTable m) R R := by
  intro net net' rel
  obtain ⟨_, _, _, _, _, rfl⟩ := kin.same rel
  have kept := h net.table net.table (.refl _)
  unfold Leads at kept
  simp only [onTable]
  cases x : m net.table <;> rw [x] at kept
  · exact ⟨rfl, kin.table rel kept⟩
  · exact ⟨kin.refl _, kin.table rel kept⟩

/-- Records are kept alike, whatever was recorded before. -/
theorem agree_records {f g : Net → Net} (p : Net → Profile → Profile)
    (hf : ∀ net, ∃ j, f net = { net with journal := j, profile := p net net.profile })
    (hg : ∀ net, ∃ j, g net = { net with journal := j, profile := p net net.profile })
    (blind : ∀ net net', R net net' → p net = p net') :
    Agree E R (modify f : NetM PUnit) (modify g) R R := by
  refine .modify fun net net' rel => ?_
  obtain ⟨j, eq⟩ := hf net
  obtain ⟨j', eq'⟩ := hg net'
  rw [eq, eq', ← blind net net' rel]
  exact kin.records (p net) rel

theorem agree_report (message message' : String) :
    Agree E R (report message) (report message') R R :=
  agree_records kin (fun _ p => p) (fun _ => ⟨_, rfl⟩) (fun _ => ⟨_, rfl⟩) fun _ _ _ => rfl

theorem agree_recordTransfer : Agree E R recordTransfer recordTransfer R R :=
  agree_records kin (fun _ p => p.recordTransfer) (fun _ => ⟨_, rfl⟩) (fun _ => ⟨_, rfl⟩)
    fun _ _ _ => rfl

theorem agree_callTransfer (v : Value) (device : String) :
    Agree E R (callTransfer v device) (callTransfer v device) R R := by
  refine .bind (agree_records kin (fun _ p => p) (fun _ => ⟨_, rfl⟩) (fun _ => ⟨_, rfl⟩)
    fun _ _ _ => rfl) fun _ => .bind_get fun net net' rel => ?_
  obtain ⟨_, _, _, _, _, rfl⟩ := kin.same rel
  exact agree_ofExcept kin.refl _

theorem agree_stage (slot : Slot) (v : Value) : Agree E R (stage slot v) (stage slot v) R R := by
  refine .modify fun net net' rel => ?_
  obtain ⟨_, _, _, _, _, rfl⟩ := kin.same rel
  exact kin.pending rel

theorem agree_slotOfKey (key : Value) {α : Type} {f g : Slot → NetM α}
    (rest : ∀ slot, Agree E R (f slot) (g slot) R R) :
    Agree E R (do f (← ofExcept ((← get).slotOfKey key)))
      (do g (← ofExcept ((← get).slotOfKey key))) R R := by
  refine .bind_get fun net net' rel => ?_
  obtain ⟨_, _, _, _, _, rfl⟩ := kin.same rel
  exact .bind (agree_ofExcept kin.refl _) rest

theorem agree_getValue (key : Value) : Agree E R (getValue key) (getValue key) R R :=
  agree_slotOfKey kin key fun _ => agree_onTable kin fun _ => VariableTable.keeps_getValue

theorem agree_setValue (key v : Value) : Agree E R (setValue key v) (setValue key v) R R := by
  refine agree_slotOfKey kin key fun slot => ?_
  refine .bind (agree_onTable kin fun _ => VariableTable.keeps_lookup slot) fun x => ?_
  refine .ite (fun _ => agree_stage kin slot v) fun _ => ?_
  exact agree_onTable kin fun _ => VariableTable.keeps_putValue v

theorem agree_getDer (key : Value) : Agree E R (getDer key) (getDer key) R R :=
  agree_slotOfKey kin key fun _ => agree_onTable kin fun _ => VariableTable.keeps_getDer

theorem agree_setDer (key der : Value) : Agree E R (setDer key der) (setDer key der) R R :=
  agree_slotOfKey kin key fun _ => agree_onTable kin fun _ => VariableTable.keeps_setDer der

theorem agree_setInputs (values : Keywords) : Agree E R (setInputs values) (setInputs values) R R := by
  refine .bind_get fun net net' rel => ?_
  obtain ⟨_, _, _, _, _, rfl⟩ := kin.same rel
  refine .forM fun entry _ => ?_
  dsimp only
  split
  · exact agree_stage kin _ _
  · exact .throw (kin.refl _)

theorem agree_describe : Agree E R describe describe R R := by
  refine .bind_get fun net net' rel => ?_
  obtain ⟨_, _, _, _, _, rfl⟩ := kin.same rel
  refine .mapM fun v _ => ?_
  exact .bind (agree_onTable kin fun _ => VariableTable.keeps_getDer) fun _ => .pure _

theorem agree_descend (rate : Value) : Agree E R (descend rate) (descend rate) R R := by
  refine .bind_get fun net net' rel => ?_
  obtain ⟨_, _, _, _, _, rfl⟩ := kin.same rel
  refine .mapM fun p _ => ?_
  refine .bind (agree_onTable kin fun _ => VariableTable.keeps_getValue) fun x => ?_
  refine .ite (fun _ => .pure _) fun _ => ?_
  refine .bind (agree_onTable kin fun _ => VariableTable.keeps_getDer) fun der => ?_
  refine .bind (agree_ofExcept kin.refl _) fun _ => .bind (agree_ofExcept kin.refl _) fun new => ?_
  exact .bind (agree_onTable kin fun _ => VariableTable.keeps_putValue new) fun _ => .pure _

theorem agree_moveParam (device : String) (slot : Slot) :
    Agree E R (moveParam device slot) (moveParam device slot) R R := by
  refine .bind (agree_onTable kin fun _ => VariableTable.keeps_lookup slot) fun v => ?_
  have moveDer : Agree E R (do
      let der ← onTable (VariableTable.getDer v.info.index)
      if !der.isZero then
        let x ← callTransfer der device
        onTable (VariableTable.setDer v.info.index x)) (do
      let der ← onTable (VariableTable.getDer v.info.index)
      if !der.isZero then
        let x ← callTransfer der device
        onTable (VariableTable.setDer v.info.index x)) R R := by
    refine .bind (agree_onTable kin fun _ => VariableTable.keeps_getDer) fun der => ?_
    refine .ite (fun _ => ?_) fun _ => .pure _
    exact .bind (agree_callTransfer kin der device) fun x =>
      agree_onTable kin fun _ => VariableTable.keeps_setDer x
  refine .ite (fun _ => .ite (fun _ => ?_) fun _ => moveDer) fun _ => .pure _
  refine .bind (agree_callTransfer kin v.value device) fun x => ?_
  refine .bind (agree_onTable kin fun _ => VariableTable.keeps_putValue x) fun _ => ?_
  exact .bind (agree_recordTransfer kin) fun _ => moveDer

/-! ### Parts of a pass -/

theorem agree_bindInput (slot : Slot) (v : Value) :
    Agree E R (bindInput slot v) (bindInput slot v) R R := by
  refine .bind (agree_onTable kin fun _ => VariableTable.keeps_lookup slot) fun x => ?_
  have put : ∀ v, Agree E R (onTable (VariableTable.putValue slot v))
      (onTable (VariableTable.putValue slot v)) R R := fun v =>
    agree_onTable kin fun _ => VariableTable.keeps_putValue v
  refine .bind_get fun net net' rel => ?_
  obtain ⟨_, _, _, _, _, rfl⟩ := kin.same rel
  refine .ite (fun _ => ?_) fun _ => .bind (.pure v) put
  exact .bind (agree_callTransfer kin v _) fun v =>
    .bind (agree_recordTransfer kin) fun _ => .bind (.pure v) put

/-- What is bound depends on what waits for the inputs. -/
theorem agree_bindEach {pending pending' : List (Slot × Value)} : ∀ {l : List (String × Slot)},
    (∀ p ∈ l, pending.lookup p.2 = pending'.lookup p.2) →
      Agree E R (bindEach pending l) (bindEach pending' l) R R := by
  intro l
  induction l with
  | nil => exact fun _ => .pure []
  | cons p l ih =>
    intro waits
    have rest := ih fun q hq => waits q (by simp [hq])
    unfold bindEach
    rw [← waits p (by simp)]
    split
    · exact .bind rest fun _ => .pure _
    · exact .bind rest fun _ => .pure _
    · exact .bind (agree_bindInput kin _ _) fun _ => rest

theorem agree_place (v : Value) : Agree E R (place v) (place v) R R := by
  refine .ite (fun _ => ?_) fun _ => .pure v
  refine .bind (agree_recordTransfer kin) fun _ => .bind_get fun net net' rel => ?_
  obtain ⟨_, _, _, _, _, rfl⟩ := kin.same rel
  exact agree_callTransfer kin v _

theorem agree_valueOf (a : Arg) (v : Value) : Agree E R (valueOf a v) (valueOf a v) R R := by
  cases a with
  | slot r => exact agree_onTable kin fun _ => VariableTable.keeps_getValue
  | const c => exact .pure v

theorem agree_releaseValues (slots : List Slot) :
    Agree E R (releaseValues slots) (releaseValues slots) R R := by
  refine .bind_get fun net net' rel => ?_
  obtain ⟨_, _, _, _, _, rfl⟩ := kin.same rel
  refine .ite (fun _ => .forM fun _ _ => ?_) fun _ => .pure _
  exact agree_onTable kin fun _ => VariableTable.keeps_putValue _

theorem agree_releaseDers (slots : List Slot) :
    Agree E R (releaseDers slots) (releaseDers slots) R R := by
  refine .bind_get fun net net' rel => ?_
  obtain ⟨_, _, _, _, _, rfl⟩ := kin.same rel
  refine .ite (fun _ => .forM fun _ _ => ?_) fun _ => .pure _
  exact agree_onTable kin fun _ => VariableTable.keeps_setDer _

theorem agree_recordLive : Agree E R recordLive recordLive R R := by
  refine agree_records kin
    (fun net p => p.recordLive net.table.liveSlots.length net.table.liveBytes)
    (fun _ => ⟨_, rfl⟩) (fun _ => ⟨_, rfl⟩) fun net net' rel => ?_
  obtain ⟨_, _, _, _, _, rfl⟩ := kin.same rel
  rfl

theorem agree_seedDers {ws ws' : Workspace} (seed : Value)
    (unknown : ∀ key : Value, E (.noVariable (key.plainText ws.label))
      (.noVariable (key.plainText ws'.label))) :
    Agree E R (seedDers ws seed) (seedDers ws' seed) R R := by
  refine .bind_get fun net net' rel => ?_
  obtain ⟨_, _, _, _, _, rfl⟩ := kin.same rel
  dsimp only
  split
  · refine .forM fun p _ => ?_
    split
    · exact .bind (agree_ofExcept kin.refl _) fun slot =>
        agree_onTable kin fun _ => VariableTable.keeps_accumulate _ _
    · exact .throw_bind (unknown _) _ _
  · split
    · exact agree_onTable kin fun _ => VariableTable.keeps_accumulate _ _
    · exact .throw (kin.refl _)

/-- All that matters of the waiting values is what is bound. -/
theorem agree_bindInputs {P : Net → Net → Prop}
    (cleared : ∀ {net net'}, P net net' → R { net with pending := [] } { net' with pending := [] })
    (waits : ∀ {net net'}, P net net' → ∀ p ∈ net.schedule.inputSlots,
      net.pending.lookup p.2 = net'.pending.lookup p.2) :
    Agree E P bindInputs bindInputs R R := by
  intro net net' rel
  have start := cleared rel
  have schedule : net'.schedule = net.schedule := by
    obtain ⟨_, _, _, _, _, eq⟩ := kin.same start
    have same := congrArg Net.schedule eq
    exact same
  have bound : Agree E R
      (do
        let missing ← bindEach net.pending net.schedule.inputSlots
        if !missing.isEmpty then throw (.unboundInputs missing))
      (do
        let missing ← bindEach net'.pending net'.schedule.inputSlots
        if !missing.isEmpty then throw (.unboundInputs missing)) R R := by
    rw [schedule]
    refine .bind (agree_bindEach kin (waits rel)) fun missing => ?_
    exact .ite (fun _ => .throw (kin.refl _)) fun _ => .pure _
  exact bound _ _ start

end

/-! ### Passes -/

/-- A relation between nets outside of passes, and one inside, that the passes of a schedule keep. -/
structure Twins (s : Schedule) (E : Error → Error → Prop) (Out In : Net → Net → Prop) : Prop where
  out : Kin E Out
  inside : Kin E In
  schedule : ∀ {net net' : Net}, In net net' → net.schedule = s
  constants : ∀ {i : Instruction}, i ∈ s.forward → Agree E In (constants i) (constants i) In In
  enter : ∀ {net net' : Net}, Out net net' → net.evaluating = false →
    In { net with evaluating := true, backwardReady := false }
      { net' with evaluating := true, backwardReady := false }
  leave : ∀ {net net' : Net} {backwardReady : Bool}, In net net' →
    Out { net with evaluating := false, backwardReady } { net' with evaluating := false, backwardReady }
  abort : ∀ {net net' : Net}, In net net' →
    Out { net with dirty := true, evaluating := false } { net' with dirty := true, evaluating := false }
  clean : ∀ {net net' : Net}, In net net' → In { net with dirty := false } { net' with dirty := false }
  device : ∀ {net net' : Net} {device : String}, Out net net' →
    Out { net with device, placed := [], backwardReady := false }
      { net' with device, placed := [], backwardReady := false }

/-- What is told of a pass has effects that agree. -/
structure Told (E : Error → Error → Prop) (Out In : Net → Net → Prop) (notify notify' : Notify) :
    Prop where
  inside : ∀ signal, signal ≠ .event .finished →
    Agree E In (notify signal) (notify' signal) In In
  finished : Agree E Out (notify (.event .finished)) (notify' (.event .finished)) Out Out

/-- Two workspaces in which compiled nodes have the same names. Other nodes show only in the wording
of a failure. -/
structure Alike (E : Error → Error → Prop) (In : Net → Net → Prop) (ws ws' : Workspace) : Prop where
  names : ∀ {net net' : Net}, In net net' →
    ∀ p ∈ net.compiledNames, ws.name p.1 = ws'.name p.1
  unknown : ∀ key : Value,
    E (.noVariable (key.plainText ws.label)) (.noVariable (key.plainText ws'.label))

theorem agree_attempt {P Q F F' : Net → Net → Prop} {α : Type} {m n : NetM α} {pass place : String}
    (h : Agree E P m n Q F)
    (abort : ∀ net net', F net net' → F' (aborted pass place net) (aborted pass place net')) :
    Agree E P (attempt pass place m) (attempt pass place n) Q F' := by
  intro net net' rel
  have ends := h net net' rel
  simp only [attempt]
  cases x : m net <;> cases y : n net' <;> rw [x, y] at ends
  · exact ends
  · exact ends.elim
  · exact ends.elim
  · exact ⟨ends.1, abort _ _ ends.2⟩

section
variable {Out In : Net → Net → Prop} (twins : Twins s E Out In)
include twins

theorem Twins.aborted {net net' : Net} (pass place : String) (rel : In net net') :
    Out (aborted pass place net) (aborted pass place net') :=
  twins.out.records (fun p => p) (twins.abort rel)

theorem agree_enter : Agree E Out enter enter In Out := by
  intro net net' rel
  have entered := twins.enter rel
  have evaluating : net'.evaluating = net.evaluating := by
    obtain ⟨_, _, _, _, _, rfl⟩ := twins.out.same rel
    rfl
  change Meet E In Out ((if net.evaluating then _ else _ : NetM PUnit) net)
    ((if net'.evaluating then _ else _ : NetM PUnit) net')
  rw [evaluating]
  cases running : net.evaluating with
  | true => exact ⟨twins.out.refl _, rel⟩
  | false => exact ⟨rfl, entered running⟩

theorem agree_leave (backwardReady : Bool) :
    Agree E In (leave backwardReady) (leave backwardReady) Out Out :=
  .modify fun _ _ rel => twins.leave rel

theorem agree_gather (hi : i ∈ s.forward) : Agree E In (gather i) (gather i) In In := by
  have kin := twins.inside
  refine .bind (twins.constants hi) fun c => ?_
  refine .bind (.mapM fun p _ => agree_valueOf kin p.1 p.2) fun args =>
    .bind (.mapM fun p _ => ?_) fun kwargs => .pure _
  exact .bind (agree_valueOf kin p.1.2 p.2.2) fun _ => .pure _

theorem agree_prepare {ws ws' : Workspace} (alike : Alike E In ws ws') (options : PassOptions) :
    Agree E In (prepare ws options) (prepare ws' options) In In := by
  have kin := twins.inside
  have rest : Agree E In
      (do
        onTable (VariableTable.reset options.accumulate)
        bindInputs
        modify fun net => { net with dirty := false })
      (do
        onTable (VariableTable.reset options.accumulate)
        bindInputs
        modify fun net => { net with dirty := false }) In In := by
    refine .bind (agree_onTable kin fun _ => VariableTable.keeps_reset _) fun _ => ?_
    refine .bind (agree_bindInputs kin kin.pending fun rel _ _ => ?_) fun _ => ?_
    · obtain ⟨_, _, _, _, _, rfl⟩ := kin.same rel
      rfl
    · exact .modify fun _ _ rel => twins.clean rel
  refine .bind (agree_checkStructure kin.refl (fun rel => ?_) (fun rel => ?_) alike.names) fun _ => ?_
  · obtain ⟨_, _, _, _, _, rfl⟩ := kin.same rel
    rfl
  · obtain ⟨_, _, _, _, _, rfl⟩ := kin.same rel
    rfl
  · exact .ite (fun _ => .bind (agree_setInputs kin _) fun _ => rest) fun _ => rest

theorem agree_move {label label' : NodeRef → String} {device : Value}
    (named : Device.normalize label device = Device.normalize label' device) :
    Agree E Out (move label device) (move label' device) Out Out := by
  have kin := twins.out
  unfold move
  rw [← named]
  refine .bind_get fun net net' rel => ?_
  obtain ⟨_, _, _, _, _, rfl⟩ := kin.same rel
  refine .ite (fun _ => .throw_bind (kin.refl _) _ _) fun _ => .bind_get fun net net' rel => ?_
  obtain ⟨_, _, _, _, _, rfl⟩ := kin.same rel
  refine .bind (.forM fun _ _ => agree_moveParam kin _ _) fun _ => ?_
  exact .bind (.modify fun _ _ rel => twins.device rel) fun _ => agree_report kin _ _

variable {notify notify' : Notify} (told : Told E Out In notify notify')

section
include told

theorem agree_forwardStep (hi : i ∈ s.forward) (testing : Bool) (released : List Slot) :
    Agree E In (forwardStep notify testing released i) (forwardStep notify' testing released i)
      In In := by
  have kin := twins.inside
  refine .bind (agree_gather twins hi) fun c => .bind (told.inside _ (by simp)) fun _ =>
    .bind (agree_ofExcept kin.refl _) fun result => ?_
  refine .bind (agree_records kin (fun _ p => (p.recordEvent i.kind 0).recordForwardStep)
    (fun _ => ⟨_, rfl⟩) (fun _ => ⟨_, rfl⟩) fun _ _ _ => rfl) fun _ => ?_
  refine .bind (agree_ofExcept kin.refl _) fun outs => ?_
  refine .bind (.forM fun p _ => agree_onTable kin fun _ => VariableTable.keeps_putValue p.2)
    fun _ => ?_
  exact .bind (told.inside _ (by simp)) fun _ => .bind (agree_recordLive kin) fun _ =>
    agree_releaseValues kin released

theorem agree_forwardSteps (testing : Bool) (released : List (List Slot)) : ∀ {l : List Instruction},
    (∀ i ∈ l, i ∈ s.forward) → Agree E In (forwardSteps notify testing released l)
      (forwardSteps notify' testing released l) In Out := by
  intro l
  induction l with
  | nil => exact fun _ => .pure _
  | cons i l ih =>
    intro sub
    have step := agree_forwardStep twins told (sub i (by simp)) testing (released.getD i.index [])
    exact .bind (agree_attempt step fun _ _ => twins.aborted _ _) fun _ => ih fun j hj => sub j (by simp [hj])

/-- A forward pass from its first instruction on. -/
theorem agree_runForward (keep testing : Bool) : Agree E In
    (do
      let schedule := (← get).schedule
      let released := if keep then schedule.release.forward else schedule.release.forwardOnly
      forwardSteps notify testing released schedule.forward
      leave keep
      notify (.event .finished))
    (do
      let schedule := (← get).schedule
      let released := if keep then schedule.release.forward else schedule.release.forwardOnly
      forwardSteps notify' testing released schedule.forward
      leave keep
      notify' (.event .finished)) Out Out := by
  refine .bind_get fun net net' rel => ?_
  have schedule := twins.schedule rel
  obtain ⟨_, _, _, _, _, rfl⟩ := twins.inside.same rel
  refine .bind (agree_forwardSteps twins told _ _ fun i hi => schedule ▸ hi) fun _ => ?_
  exact .bind (agree_leave twins _) fun _ => told.finished

theorem agree_forwardPass {ws ws' : Workspace} (alike : Alike E In ws ws') (options : PassOptions) :
    Agree E Out (forwardPass ws notify options) (forwardPass ws' notify' options) Out Out := by
  refine .bind (agree_ofExcept twins.out.refl _) fun mode => .bind (agree_enter twins) fun _ => ?_
  refine .bind (agree_attempt (agree_prepare twins alike options) fun _ _ => twins.aborted _ _)
    fun _ => ?_
  exact agree_runForward twins told _ _

theorem agree_propagate (hi : i ∈ s.forward) (dy : Value) :
    Agree E In (propagate notify i dy) (propagate notify' i dy) In In := by
  have kin := twins.inside
  refine .bind (agree_gather twins hi) fun c => ?_
  dsimp only
  split
  · refine .bind (.pure _) fun kernel => .bind (told.inside _ (by simp)) fun _ =>
      .bind (agree_ofExcept kin.refl _) fun result => ?_
    refine .bind (agree_records kin
      (fun _ p => (p.recordEvent (i.kind ++ ".backward") 0).recordBackwardStep)
      (fun _ => ⟨_, rfl⟩) (fun _ => ⟨_, rfl⟩) fun _ _ _ => rfl) fun _ => ?_
    refine .bind (.forM fun p _ => ?_) fun _ => told.inside _ (by simp)
    split
    · exact .pure _
    · exact .pure _
    · exact agree_onTable kin fun _ => VariableTable.keeps_accumulate _ _
  · exact .throw_bind (kin.refl _) _ _

theorem agree_backwardStep (hi : i ∈ s.forward) (values ders : List Slot) :
    Agree E In (backwardStep notify values ders i) (backwardStep notify' values ders i) In In := by
  have kin := twins.inside
  have rest : Agree E In (do recordLive; releaseValues values; releaseDers ders)
      (do recordLive; releaseValues values; releaseDers ders) In In :=
    .bind (agree_recordLive kin) fun _ => .bind (agree_releaseValues kin values) fun _ =>
      agree_releaseDers kin ders
  refine .bind (.mapM fun o _ => agree_onTable kin fun _ => VariableTable.keeps_getDer)
    fun douts => ?_
  exact .ite (fun _ => .bind (agree_propagate twins told hi _) fun _ => rest) fun _ => rest

theorem agree_backwardSteps (release : ReleasePlan) : ∀ {l : List Instruction} {step : Nat},
    (∀ i ∈ l, i ∈ s.forward) → Agree E In (backwardSteps notify release step l)
      (backwardSteps notify' release step l) In Out := by
  intro l
  induction l with
  | nil => exact fun _ => .pure _
  | cons i l ih =>
    intro step sub
    have one := agree_backwardStep twins told (sub i (by simp))
      (release.backwardValues.getD step []) (release.backwardDers.getD step [])
    exact .bind (agree_attempt one fun _ _ => twins.aborted _ _) fun _ => ih fun j hj => sub j (by simp [hj])

theorem agree_backwardPass (wf : s.WellFormed) {ws ws' : Workspace} (alike : Alike E In ws ws')
    (seed : Value) :
    Agree E Out (backwardPass ws notify seed) (backwardPass ws' notify' seed) Out Out := by
  have kin := twins.out
  refine .bind_get fun net net' rel => ?_
  obtain ⟨_, _, _, _, _, rfl⟩ := kin.same rel
  refine .ite (fun _ => .throw_bind (kin.refl _) _ _) fun _ => .bind (agree_enter twins) fun _ => ?_
  have seeded := agree_seedDers twins.inside seed alike.unknown
  refine .bind (agree_attempt seeded fun _ _ => twins.aborted _ _) fun _ => .bind_get fun net net' rel => ?_
  have schedule := twins.schedule rel
  obtain ⟨_, _, _, _, _, rfl⟩ := twins.inside.same rel
  refine .bind (agree_backwardSteps twins told _ fun i hi => ?_) fun _ => ?_
  · exact wf.mem_forward_of_backward (schedule ▸ hi)
  · exact .bind (agree_leave twins _) fun _ => told.finished

theorem agree_evaluatePass (wf : s.WellFormed) {ws ws' : Workspace} (alike : Alike E In ws ws')
    (options : PassOptions) (seed : Value) :
    Agree E Out (evaluatePass ws notify options seed) (evaluatePass ws' notify' options seed)
      Out Out := by
  refine .bind (agree_ofExcept twins.out.refl _) fun mode => .bind (agree_report twins.out _ _) fun _ => ?_
  refine .bind (agree_forwardPass twins told alike _) fun _ => ?_
  exact .ite (fun _ => agree_backwardPass twins told wf alike seed) fun _ => .pure _

end

end

end Net

end Backprop
