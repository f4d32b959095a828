import Mathlib
import Backprop.Proofs.Occasions
import Backprop.Proofs.Overlay
import Backprop.Proofs.Seeding
/-!
# What is moved over a run

* `Net.Tour`: the occasions of building a net and calling it.
* `Net.Tour.books`: the records of a net are those of the account of its occasions.
* `Net.Tour.transfers_due`: what is moved. `Net.Tour.transfer_count`: how much of it is counted.
-/

namespace Backprop

namespace Net

/-! ### Accounts -/

/-- What is to be moved on some occasions one after the other. -/
def owed (s : Schedule) (now : Standing) : List Occasion → List Shipment
  | [] => []
  | o :: occasions => o.due s now ++ owed s (o.next s now) occasions

/-- Whether no call of the transfer fails that is made on some occasions. -/
def reliable (s : Schedule) (now : Standing) : List Occasion → Bool
  | [] => true
  | o :: occasions => (carried o.transfer (o.due s now)).all (·.arrives o.transfer) &&
      reliable s (o.next s now) occasions

/-- The derivative of a parameter. -/
def Shipment.isDer (x : Shipment) : Bool :=
  match x.freight with
  | .der _ => true
  | _ => false

variable {s : Schedule} {occasions : List Occasion}

/-- Unless a transfer fails, what is due is moved. -/
theorem sent_of_reliable {a : Account} (smooth : reliable s a.standing occasions = true) :
    (occasions.foldl (Account.after s) a).sent = a.sent ++ owed s a.standing occasions := by
  induction occasions generalizing a with
  | nil => exact (List.append_nil _).symm
  | cons o occasions ih =>
    obtain ⟨here, rest⟩ := (Bool.and_eq_true _ _).mp smooth
    have first : (a.after s o).sent = a.sent ++ o.due s a.standing :=
      congrArg (a.sent ++ ·) (carried_of_arrive here)
    rw [List.foldl_cons, ih (a := a.after s o) rest, first, owed, List.append_assoc]
    rfl

/-- Whatever is moved successfully is counted, except derivatives. -/
theorem countP_counted {via : Transfer} {l : List Shipment}
    (arrive : l.all (·.arrives via) = true) :
    l.countP (·.counted via) + l.countP Shipment.isDer = l.length := by
  have either : ∀ x ∈ l, x.counted via = !x.isDer := by
    intro x mem
    unfold Shipment.counted Shipment.isDer
    have arrives := List.all_eq_true.mp arrive x mem
    cases x.freight <;> simp [arrives]
  have counted : l.countP (·.counted via) = l.countP fun x => !x.isDer :=
    List.countP_congr fun x mem => by rw [either x mem]
  rw [counted, List.length_eq_countP_add_countP Shipment.isDer, Nat.add_comm]
  simp

/-- Unless a transfer fails, all calls of it are counted that do not move a derivative. -/
theorem count_of_reliable {a : Account} (smooth : reliable s a.standing occasions = true)
    (start : a.count + a.sent.countP Shipment.isDer = a.sent.length) :
    let a' := occasions.foldl (Account.after s) a
    a'.count + a'.sent.countP Shipment.isDer = a'.sent.length := by
  induction occasions generalizing a with
  | nil => exact start
  | cons o occasions ih =>
    obtain ⟨here, rest⟩ := (Bool.and_eq_true _ _).mp smooth
    refine ih (a := a.after s o) rest ?_
    have calls := countP_counted here
    simp only [Account.after, List.countP_append, List.length_append]
    omega

/-! ### Tours -/

/-- The occasion of building a net for another device than the host. -/
def buildTrail (now : Workspace) (options : NetOptions) (s : Schedule) : List Occasion :=
  let device := Device.normalize now.label options.config.device
  if device = Device.host then []
  else [.move (options.transfer.getD .standard) device (initialTable now s)]

/-- The nets that building one and calling it lead to, with the transfers that were recorded in building
it and the occasions on the way. Code from outside can be another one at each call, and what lies outside
of the net can change between calls. -/
inductive Tour (ws : Workspace) (terminals : List Value) (options : NetOptions) :
    List (String × Value) → List Occasion → Net → Prop where
  | built {net : Net} {now : Workspace} {earlier : List (String × Value)} :
      ws.buildNet terminals options = (.ok net, now) →
      now.journal.transfers.toList = ws.journal.transfers.toList ++ earlier →
        Tour ws terminals options earlier (buildTrail now options net.schedule) net
  | call {earlier : List (String × Value)} {occasions : List Occasion} {net : Net} (c : Call)
      (code : Outside) (depth : Nat) : Tour ws terminals options earlier occasions net →
        Tour ws terminals options earlier
          (occasions ++ c.trail (code.notify depth) (code.atEnd depth) net)
          (ends (c.runWith fun _ => code.notify depth) net)
  | renew {earlier : List (String × Value)} {occasions : List Occasion} {net : Net}
      (reactions : Array Reaction) (transfer : Transfer) :
      Tour ws terminals options earlier occasions net →
        Tour ws terminals options earlier occasions { net with reactions, transfer }

variable {ws : Workspace} {terminals : List Value} {options : NetOptions}
  {earlier : List (String × Value)} {on : Bool} {a : Account} {net : Net}

/-- A net on the host has nothing to account for at first. -/
theorem books_ofSchedule (now : Workspace) (s : Schedule) (options : NetOptions) :
    Books s [] options.config.profile {} (ofSchedule now s options) where
  schedule := rfl
  infos := (runs_ofSchedule now s options).infos
  device := rfl
  placed i _ places := by
    exfalso
    simp [Net.places, ofSchedule] at places
  calls := rfl
  enabled := rfl
  count _ := rfl
  belong x mem := by cases mem

/-- The records of a net can be put aside. -/
theorem Books.settle (books : Books s [] on a net) :
    Books s net.journal.transfers.toList on a { net with journal := {} } where
  schedule := books.schedule
  infos := books.infos
  device := books.device
  placed := books.placed
  calls := (List.append_nil _).trans books.calls
  enabled := books.enabled
  count := books.count
  belong := books.belong

theorem books_built {now : Workspace} (built : ws.Built)
    (exist : ∀ n ∈ terminalNodes terminals, ws.Exists n)
    (run : ws.buildNet terminals options = (.ok net, now))
    (recorded : now.journal.transfers.toList = ws.journal.transfers.toList ++ earlier) :
    net.schedule.WellFormed ∧ Books net.schedule earlier options.config.profile
      (Account.of net.schedule (buildTrail now options net.schedule)) net := by
  obtain ⟨⟨_, _, _, sched⟩, _⟩ := built_spec built exist run
  have wf := sched.wellFormed
  refine ⟨wf, ?_⟩
  obtain ⟨vs, verbose, s, compiled, -, compile, site⟩ := buildNet_steps run
  have still : compiled.journal.transfers = ws.journal.transfers := by
    have kept := Workspace.compile_transfers { ws with verbose } vs
      { keep := options.keep, naming := options.config.naming.name, registry := options.registry }
    rwa [compile] at kept
  rcases site with ⟨host, rfl, rfl⟩ | ⟨away, moved, move, rfl, rfl⟩
  · have nothing : earlier = [] := by
      rw [still] at recorded
      exact List.self_eq_append_right.mp recorded
    rw [nothing, buildTrail, if_pos host]
    exact books_ofSchedule now s options
  · have start := books_ofSchedule compiled s options
    have same : moved.schedule = s := by
      have kept := keeps_move movable_serves compiled.label options.config.device _
        (⟨runs_ofSchedule compiled s options, rfl, rfl⟩ :
          Serves s (ofSchedule compiled s options) (ofSchedule compiled s options))
      rw [leads_of_ok move] at kept
      exact kept.runs.schedule
    obtain rfl : s = moved.schedule := same.symm
    have books := books_move wf start rfl compiled.label options.config.device
    rw [leads_of_ok move] at books
    have sent : earlier = moved.journal.transfers.toList := by
      have both : (compiled.absorb moved.journal).journal.transfers.toList =
          compiled.journal.transfers.toList ++ moved.journal.transfers.toList := Array.toList_append
      rw [both, still] at recorded
      exact (List.append_cancel_left recorded).symm
    have trail : buildTrail (compiled.absorb moved.journal) options moved.schedule =
        [.move (options.transfer.getD .standard)
          (Device.normalize compiled.label options.config.device)
          (initialTable compiled moved.schedule)] := if_neg away
    rw [sent, trail]
    exact books.settle

/-- The records of a net, and where it stands, are those of the account of its occasions. -/
theorem Tour.books (built : ws.Built) (exist : ∀ n ∈ terminalNodes terminals, ws.Exists n)
    (tour : Tour ws terminals options earlier occasions net) :
    net.schedule.WellFormed ∧ Books net.schedule earlier options.config.profile
      (Account.of net.schedule occasions) net := by
  induction tour with
  | built run recorded => exact books_built built exist run recorded
  | @call earlier occasions net c code depth _ ih =>
    obtain ⟨wf, books⟩ := ih
    have charged : ∀ net', Books net.schedule earlier options.config.profile
        ((c.trail (code.notify depth) (code.atEnd depth) net).foldl (Account.after net.schedule)
          (Account.of net.schedule occasions)) net' →
        net'.schedule.WellFormed ∧ Books net'.schedule earlier options.config.profile (Account.of
          net'.schedule (occasions ++ c.trail (code.notify depth) (code.atEnd depth) net)) net' := by
      intro net' books
      rw [books.schedule, Account.of_append]
      exact ⟨wf, books⟩
    rcases ends_of_leads (c.charges wf (code.tells wf depth) earlier _ _ net books trivial) with
      ⟨-, books, -⟩ | ⟨-, _, books⟩
    · exact charged _ books
    · exact charged _ books
  | renew reactions transfer _ ih => exact ⟨ih.1, ih.2.congr rfl rfl rfl rfl rfl rfl⟩

section
variable (built : ws.Built) (exist : ∀ n ∈ terminalNodes terminals, ws.Exists n)
  (tour : Tour ws terminals options earlier occasions net)
include built exist tour

/-- The transfer is called for what is due on the occasions of a run, in this order, up to the first call
on each occasion that fails; and for nothing that does not belong on the device. -/
theorem Tour.transfers_due :
    earlier ++ net.journal.transfers.toList =
        (Account.of net.schedule occasions).sent.map Shipment.entry ∧
      (∀ x ∈ (Account.of net.schedule occasions).sent, x.Belongs net.schedule) ∧
      (reliable net.schedule {} occasions = true →
        (Account.of net.schedule occasions).sent = owed net.schedule {} occasions) := by
  obtain ⟨-, books⟩ := tour.books built exist
  exact ⟨books.calls, books.belong, fun smooth => sent_of_reliable (a := {}) smooth⟩

end

/-! ### A parameter, an input and an array -/

end Net

namespace Sample

open Net

/-- The graph of a parameter `p`, and of the product of an input `x` with an array, which is computed where
it is placed. All are flagged. -/
def shipped : Workspace :=
  let ws := flagging ({} : Workspace).addGraph.1 "p" (.int 1)
  let ws := ws.setGraph ((ws.graph 0).input (some "x") false true).1
  match ws.applyIn 0 "mul" [.node ⟨0, 1⟩, .counting [2]] [] { devicePlacement := true } with
  | .ok (ws, _) => ws
  | .error _ => ws

theorem shipped_built : shipped.Built := by
  have parameter : (flagging ({} : Workspace).addGraph.1 "p" (.int 1)).Built :=
    flagging_built Workspace.Built.empty.addGraph
  have start := parameter.input 0 (some "x") false true
  unfold shipped
  dsimp only
  split
  next call =>
    refine start.apply (fun n mem => ?_) call
    obtain rfl : n = ⟨0, 1⟩ := by simpa [Value.counting] using mem
    exact ⟨_, rfl, by decide⟩
  next => exact start

def shippedEnds : List Value := [.node ⟨0, 0⟩, .node ⟨0, 2⟩]

theorem shipped_exist : ∀ n ∈ terminalNodes shippedEnds, shipped.Exists n := by
  intro n mem
  have two : n = ⟨0, 0⟩ ∨ n = ⟨0, 2⟩ := by
    simpa [terminalNodes, shippedEnds, spread, nodesIn, Value.node?] using mem
  have found : (shipped.graph? 0).any (fun g => 2 < g.nodes.size) = true := by cbv
  obtain ⟨g, found, bound⟩ := (Option.any_eq_true _ _).mp found
  have bound := of_decide_eq_true bound
  rcases two with rfl | rfl
  · exact ⟨g, found, Nat.zero_lt_of_lt bound⟩
  · exact ⟨g, found, bound⟩

/-- Values are the same on every device. -/
def freely (profile : Bool) : NetOptions :=
  { config := { defaultSeed := .int 1, profile }, transfer := some fun v _ => .ok v }

/-- The graph of a flagged parameter. -/
def single : Workspace := flagging ({} : Workspace).addGraph.1 "p" (.int 1)

def singleEnds : List Value := [.node ⟨0, 0⟩]

theorem single_built : single.Built := flagging_built Workspace.Built.empty.addGraph

theorem single_exist : ∀ n ∈ terminalNodes singleEnds, single.Exists n := by
  intro n mem
  obtain rfl : n = ⟨0, 0⟩ := by simpa [terminalNodes, singleEnds, spread, nodesIn, Value.node?] using mem
  exact ⟨_, rfl, by decide⟩

/-- Code that does nothing. -/
def passive : Outside := fun _ _ => .done

/-- The graph of the sum of two flagged parameters, `p` and `q`. -/
def pair : Workspace :=
  recorded (flagging (flagging ({} : Workspace).addGraph.1 "p" (.int 1)) "q" (.int 2)) "add"
    [.node ⟨0, 0⟩, .node ⟨0, 1⟩]

def pairEnds : List Value := [.node ⟨0, 2⟩]

/-- A list for the derivative of `p`, to which a number cannot be added. -/
def mixed : Value := .dict [(.text "p", .list []), (.text "add1", .int 1)]

/-- A dictionary for `x`, which cannot be multiplied. -/
def unfit : PassOptions := { inputs := [("x", .dict [])] }

end Sample

namespace Net

variable {ws : Workspace} {terminals : List Value} {options : NetOptions}
  {earlier : List (String × Value)} {occasions : List Occasion} {net : Net}

/-- Whether only this whole number was moved. -/
def movedOnly (device : String) (k : Int) (net : Net) : Bool :=
  match net.journal.transfers.toList with
  | [(device', v)] => device' == device && isWhole k v
  | _ => false

theorem transfers_of_movedOnly {device : String} {k : Int} (h : net.movedOnly device k = true) :
    net.journal.transfers.toList = [(device, .int k)] := by
  unfold movedOnly at h
  split at h
  next device' v eq =>
    rw [Bool.and_eq_true, beq_iff_eq] at h
    rw [eq, h.1, eq_of_isWhole h.2]
  next => cases h

/-- The parameter is moved with the net, the input in both passes and the array in the first of them,
though the multiplication fails in both. -/
theorem transfers_due_sample : ∃ occasions net,
    Tour Sample.shipped Sample.shippedEnds (Sample.freely false) [] occasions net ∧
      reliable net.schedule {} occasions = true ∧
      net.journal.transfers.toList.map (·.1) = ["cuda", "cuda", "cuda", "cuda"] ∧
      net.journal.transfers.toList = (owed net.schedule {} occasions).map Shipment.entry := by
  have check : Sample.shipped.builds Sample.shippedEnds (Sample.freely false) (fun now net =>
      let moved := ends (move now.label (.text "gpu")) net
      let forward := Call.forward now Sample.unfit
      let once := ends (forward.runWith fun _ => Sample.passive.notify 0) moved
      let twice := ends (forward.runWith fun _ => Sample.passive.notify 0) once
      let trail := forward.trail (Sample.passive.notify 0) (Sample.passive.atEnd 0)
      now.journal.transfers.toList.isEmpty &&
        twice.journal.transfers.toList.map (·.1) == ["cuda", "cuda", "cuda", "cuda"] &&
          reliable twice.schedule {} (buildTrail now (Sample.freely false) net.schedule ++
            (Call.move now.label (.text "gpu")).trail (Sample.passive.notify 0)
              (Sample.passive.atEnd 0) net ++ trail moved ++ trail once)) = true := by cbv
  obtain ⟨net, now, built, check⟩ := Workspace.of_builds check
  simp only [Bool.and_eq_true, List.isEmpty_iff, beq_iff_eq] at check
  obtain ⟨⟨none, devices⟩, reliable⟩ := check
  have before : Sample.shipped.journal.transfers.toList = [] := by cbv
  have start : Tour Sample.shipped Sample.shippedEnds (Sample.freely false) [] _ net :=
    .built built (by rw [none, before]; rfl)
  have tour := ((start.call (.move now.label (.text "gpu")) Sample.passive 0).call
    (.forward now Sample.unfit) Sample.passive 0).call (.forward now Sample.unfit) Sample.passive 0
  obtain ⟨calls, -, due⟩ := Tour.transfers_due Sample.shipped_built Sample.shipped_exist tour
  rw [due reliable] at calls
  exact ⟨_, _, tour, reliable, devices, calls⟩

/-- Where contributions to a derivative cannot be added, a move stops: the value of the parameter is
moved by then, but not that of the next one. -/
theorem transfers_stop : ∃ now base net e net',
    Sample.pair.buildNet Sample.pairEnds (Sample.freely false) = (.ok base, now) ∧
      evaluate now {} Sample.mixed base = .ok ⟨⟩ net ∧
      move now.label (.text "gpu") net = .error e net' ∧
      net.schedule.flagged .param = [0, 1] ∧ net.table.valueAt 1 = .int 2 ∧
      net'.journal.transfers.toList = [("cuda", .int 1)] := by
  have check : Sample.pair.builds Sample.pairEnds (Sample.freely false) (fun now base =>
      base.succeeds (evaluate now {} Sample.mixed) fun net =>
        net.schedule.flagged .param == [0, 1] && isWhole 2 (net.table.valueAt 1) &&
          net.fails (move now.label (.text "gpu")) fun _ net' =>
            net'.movedOnly "cuda" 1) = true := by cbv
  obtain ⟨base, now, built, check⟩ := Workspace.of_builds check
  obtain ⟨net, evaluated, check⟩ := succeeds_iff.mp check
  simp only [Bool.and_eq_true, beq_iff_eq] at check
  obtain ⟨⟨flagged, two⟩, check⟩ := check
  obtain ⟨e, net', moved, only⟩ := fails_iff.mp check
  exact ⟨now, base, net, e, net', built, evaluated, moved, flagged, eq_of_isWhole two,
    transfers_of_movedOnly only⟩

section
variable (built : ws.Built) (exist : ∀ n ∈ terminalNodes terminals, ws.Exists n)
  (tour : Tour ws terminals options earlier occasions net)
include built exist tour

/-- A profile counts the calls of the transfer, apart from those that move the derivative of a
parameter. -/
theorem Tour.transfer_count (profiled : options.config.profile = true)
    (smooth : reliable net.schedule {} occasions = true) :
    net.profile.stats.transfers + (owed net.schedule {} occasions).countP Shipment.isDer =
      (earlier ++ net.journal.transfers.toList).length := by
  obtain ⟨-, books⟩ := tour.books built exist
  have sent : (Account.of net.schedule occasions).sent = owed net.schedule {} occasions :=
    sent_of_reliable (a := {}) smooth
  rw [books.count profiled, books.calls, List.length_map, ← sent]
  exact count_of_reliable (a := {}) smooth rfl

end

/-- A parameter whose derivative was set is moved with it: that is counted once, and the transfer is called
twice. -/
theorem transfer_count_sample : ∃ occasions net,
    Tour Sample.single Sample.singleEnds (Sample.freely true) [] occasions net ∧
      reliable net.schedule {} occasions = true ∧ net.journal.transfers.toList.length = 2 ∧
      net.profile.stats.transfers + (owed net.schedule {} occasions).countP Shipment.isDer = 2 := by
  have check : Sample.single.builds Sample.singleEnds (Sample.freely true) (fun now net =>
      let ready := ends (setDer (.text "p") (.int 2)) net
      let moved := ends (move now.label (.text "gpu")) ready
      now.journal.transfers.toList.isEmpty && moved.journal.transfers.toList.length == 2 &&
        reliable moved.schedule {} (buildTrail now (Sample.freely true) net.schedule ++ [] ++
          (Call.move now.label (.text "gpu")).trail (Sample.passive.notify 0)
            (Sample.passive.atEnd 0) ready)) = true := by cbv
  obtain ⟨net, now, built, check⟩ := Workspace.of_builds check
  simp only [Bool.and_eq_true, List.isEmpty_iff, beq_iff_eq] at check
  obtain ⟨⟨none, two⟩, reliable⟩ := check
  have before : Sample.single.journal.transfers.toList = [] := by cbv
  have start : Tour Sample.single Sample.singleEnds (Sample.freely true) [] _ net :=
    .built built (by rw [none, before]; rfl)
  have tour := (start.call (.setDer (.text "p") (.int 2)) Sample.passive 0).call
    (.move now.label (.text "gpu")) Sample.passive 0
  have count := tour.transfer_count Sample.single_built Sample.single_exist rfl reliable
  exact ⟨_, _, tour, reliable, two, count.trans two⟩

/-- After an evaluation, the derivative of the parameter is moved as well. A profile that was switched on
from the start counts one transfer. -/
theorem transfers_uncounted : ∃ now base net net',
    Sample.single.buildNet Sample.singleEnds (Sample.freely true) = (.ok base, now) ∧
      evaluate now {} .none base = .ok ⟨⟩ net ∧ move now.label (.text "gpu") net = .ok ⟨⟩ net' ∧
      net'.profile.stats.transfers = 1 ∧ net'.journal.transfers.toList.length = 2 := by
  have check : Sample.single.builds Sample.singleEnds (Sample.freely true) (fun now base =>
      base.succeeds (evaluate now {}) fun net =>
        net.succeeds (move now.label (.text "gpu")) fun net' =>
          net'.profile.stats.transfers == 1 && net'.journal.transfers.toList.length == 2) = true := by
    cbv
  obtain ⟨base, now, built, check⟩ := Workspace.of_builds check
  obtain ⟨net, evaluated, check⟩ := succeeds_iff.mp check
  obtain ⟨net', moved, check⟩ := succeeds_iff.mp check
  rw [Bool.and_eq_true, beq_iff_eq, beq_iff_eq] at check
  exact ⟨now, base, net, net', built, evaluated, moved, check⟩

end Net

end Backprop
