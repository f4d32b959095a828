import Mathlib.Data.List.Nodup
import Backprop.Proofs.Arena
/-!
# The order of evaluation

In an arena that calls have built, the order in which nodes are evaluated is that of their handles.

* `Workspace.Reaches` says of a node that the roots depend on it.
* `Workspace.Orders`: a list holds exactly what the roots depend on, by ascending handle.
* `Sound.topologicalOrder`: such an order is found, and no cycle.
-/

namespace Backprop

namespace Workspace

/-- The nodes that roots depend on, the roots included. -/
inductive Reaches (ws : Workspace) (roots : List NodeRef) : NodeRef → Prop where
  | root {n : NodeRef} : n ∈ roots → Reaches ws roots n
  | input {n i : NodeRef} : Reaches ws roots n → i ∈ ws.inputs n → Reaches ws roots i

/-- An order of everything that roots of a graph depend on. -/
structure Orders (ws : Workspace) (id : Nat) (roots order : List NodeRef) : Prop where
  sorted : order.Pairwise fun a b => a.handle < b.handle
  mem_iff : ∀ n, n ∈ order ↔ ws.Reaches roots n
  exist : ∀ n ∈ order, ws.Exists n
  graph : ∀ n ∈ order, n.graph = id

variable {ws : Workspace} {id : Nat} {roots order : List NodeRef}

theorem Reaches.mono {roots' : List NodeRef} {n : NodeRef} (h : ws.Reaches roots n)
    (sub : ∀ r ∈ roots, ws.Reaches roots' r) : ws.Reaches roots' n := by
  induction h with
  | root mem => exact sub _ mem
  | input _ mem ih => exact ih.input mem

/-- Whatever existing roots of a graph depend on exists in that graph. -/
theorem Reaches.exists (h : ws.Sound) (exist : ∀ r ∈ roots, ws.Exists r ∧ r.graph = id)
    {n : NodeRef} (reaches : ws.Reaches roots n) : ws.Exists n ∧ n.graph = id := by
  induction reaches with
  | root mem => exact exist _ mem
  | input _ mem ih =>
    obtain ⟨graph, _, there⟩ := h.input_lt mem
    exact ⟨there, graph.trans ih.2⟩

/-! ### The search -/

/-- A handle is visited at most once, and only if it was not met. -/
theorem nodup_visit {unmet : List Nat} {stack : List NodeRef} (nodup : unmet.Nodup) :
    (∀ n ∈ ws.visit unmet stack, n.handle ∈ unmet) ∧
      ((ws.visit unmet stack).map (·.handle)).Nodup := by
  induction unmet, stack using visit.induct ws with
  | case1 unmet => simp [visit]
  | case2 unmet n stack unseen ih =>
    obtain ⟨inside, distinct⟩ := ih (nodup.erase n.handle)
    rw [visit, if_pos unseen]
    constructor
    · intro m hm
      rcases List.mem_cons.mp hm with rfl | hm
      · exact unseen
      · exact List.mem_of_mem_erase (inside m hm)
    · rw [List.map_cons, List.nodup_cons]
      refine ⟨fun again => ?_, distinct⟩
      obtain ⟨m, hm, same⟩ := List.mem_map.mp again
      exact (nodup.mem_erase_iff.mp (inside m hm)).1 same
  | case3 unmet n stack seen ih =>
    rw [visit, if_neg seen]
    exact ih nodup

theorem reaches_of_mem_visit {unmet : List Nat} {stack : List NodeRef} :
    ∀ n ∈ ws.visit unmet stack, ws.Reaches stack n := by
  induction unmet, stack using visit.induct ws with
  | case1 unmet => simp [visit]
  | case2 unmet n stack unseen ih =>
    rw [visit, if_pos unseen]
    intro m hm
    rcases List.mem_cons.mp hm with rfl | hm
    · exact .root (by simp)
    · refine (ih m hm).mono fun r hr => ?_
      rcases List.mem_append.mp hr with hr | hr
      · exact .input (.root (by simp)) hr
      · exact .root (by simp [hr])
  | case3 unmet n stack seen ih =>
    rw [visit, if_neg seen]
    exact fun m hm => (ih m hm).mono fun r hr => .root (by simp [hr])

/-- Whatever waits on the stack is visited, if its handle was not met. -/
theorem visit_covers {unmet : List Nat} {stack : List NodeRef} {n : NodeRef} (mem : n ∈ stack)
    (unseen : n.handle ∈ unmet) : n.handle ∈ (ws.visit unmet stack).map (·.handle) := by
  induction unmet, stack using visit.induct ws with
  | case1 unmet => cases mem
  | case2 unmet m stack first ih =>
    rw [visit, if_pos first, List.map_cons]
    by_cases same : n.handle = m.handle
    · rw [same]
      exact List.mem_cons_self
    · have later : n ∈ stack := (List.mem_cons.mp mem).resolve_left fun eq => same (by rw [eq])
      exact List.mem_cons_of_mem _
        (ih (List.mem_append_right _ later) ((List.mem_erase_of_ne same).mpr unseen))
  | case3 unmet m stack seen ih =>
    rw [visit, if_neg seen]
    refine ih ((List.mem_cons.mp mem).resolve_left fun eq => ?_) unseen
    rw [eq] at unseen
    exact seen unseen

/-- So are the inputs of what is visited. -/
theorem visit_closed {unmet : List Nat} {stack : List NodeRef} {n i : NodeRef}
    (mem : n ∈ ws.visit unmet stack) (input : i ∈ ws.inputs n) (unseen : i.handle ∈ unmet) :
    i.handle ∈ (ws.visit unmet stack).map (·.handle) := by
  induction unmet, stack using visit.induct ws with
  | case1 unmet => simp [visit] at mem
  | case2 unmet m stack first ih =>
    rw [visit, if_pos first] at mem ⊢
    rw [List.map_cons]
    by_cases same : i.handle = m.handle
    · rw [same]
      exact List.mem_cons_self
    · have unseen' := (List.mem_erase_of_ne same).mpr unseen
      refine List.mem_cons_of_mem _ ?_
      rcases List.mem_cons.mp mem with rfl | mem
      · exact visit_covers (List.mem_append_left _ input) unseen'
      · exact ih mem unseen'
  | case3 unmet m stack seen ih =>
    rw [visit, if_neg seen] at mem ⊢
    exact ih mem unseen

/-! ### The order -/

theorem eq_of_handle {a b : NodeRef} (graph : a.graph = b.graph) (handle : a.handle = b.handle) :
    a = b := by
  cases a
  cases b
  cases graph
  cases handle
  rfl

theorem mem_reachable (there : ∀ n, ws.Reaches roots n → ws.Exists n ∧ n.graph = id) (n : NodeRef) :
    n ∈ ws.reachable roots ↔ ws.Reaches roots n := by
  refine ⟨fun mem => reaches_of_mem_visit n mem, fun reaches => ?_⟩
  have found : ∀ m, ws.Reaches roots m → m.handle ∈ (ws.reachable roots).map (·.handle) →
      m ∈ ws.reachable roots := by
    intro m reaches' mem
    obtain ⟨m', mem', handle⟩ := List.mem_map.mp mem
    have graph : m'.graph = m.graph :=
      (there m' (reaches_of_mem_visit m' mem')).2.trans (there m reaches').2.symm
    exact eq_of_handle graph handle ▸ mem'
  have unmet : ∀ m, ws.Reaches roots m → m.handle ∈ List.range ws.handleBound := fun m reaches' =>
    List.mem_range.mpr (there m reaches').1.handle_lt
  induction reaches with
  | root mem => exact found _ (.root mem) (visit_covers mem (unmet _ (.root mem)))
  | input reaches' mem ih =>
    exact found _ (reaches'.input mem) (visit_closed ih mem (unmet _ (reaches'.input mem)))

/-- What is reached in one graph, each node once and by ascending handle. -/
theorem byHandle_reachable (there : ∀ n, ws.Reaches roots n → ws.Exists n ∧ n.graph = id) :
    (∀ n, n ∈ byHandle (ws.reachable roots) ↔ ws.Reaches roots n) ∧
      (byHandle (ws.reachable roots)).Pairwise fun a b => a.handle < b.handle := by
  have perm : (byHandle (ws.reachable roots)).Perm (ws.reachable roots) := List.mergeSort_perm _ _
  refine ⟨fun n => perm.mem_iff.trans (mem_reachable there n), ?_⟩
  have weak : (byHandle (ws.reachable roots)).Pairwise fun a b => a.handle ≤ b.handle := by
    refine (List.pairwise_mergeSort ?_ ?_ _).imp fun le => by simpa using le
    · intro a b c
      simp only [decide_eq_true_eq]
      omega
    · intro a b
      simp only [Bool.or_eq_true, decide_eq_true_eq]
      omega
  have distinct : (byHandle (ws.reachable roots)).Pairwise fun a b => a.handle ≠ b.handle := by
    have := (perm.map (·.handle)).nodup_iff.mpr (nodup_visit List.nodup_range).2
    exact List.pairwise_map.mp this
  exact weak.imp₂ (fun _ _ le ne => Nat.lt_of_le_of_ne le ne) distinct

theorem listReady_of_some {listed : List Nat} {waiting : List NodeRef} {n : NodeRef}
    (found : waiting.find? (ws.isReady listed) = some n) : ws.listReady listed waiting = (do
      return n :: (← ws.listReady (n.handle :: listed) (waiting.erase n))) := by
  rw [listReady]
  split
  next m found' =>
    obtain rfl : n = m := Option.some.inj (found.symm.trans found')
    rfl
  next none =>
    rw [found] at none
    cases none

theorem listReady_of_none {listed : List Nat} {waiting : List NodeRef}
    (none : waiting.find? (ws.isReady listed) = none) :
    ws.listReady listed waiting = if waiting.isEmpty then .ok [] else .error .cycle := by
  rw [listReady]
  split
  next found =>
    rw [found] at none
    cases none
  next => rfl

/-- Among nodes by ascending handle the first is always ready. -/
theorem listReady_eq (h : ws.Sound) {waiting : List NodeRef} :
    ∀ {listed : List Nat}, (waiting.Pairwise fun a b => a.handle < b.handle) →
      (∀ n ∈ waiting, ∀ i ∈ ws.inputs n, i.handle ∈ listed ∨ ∃ m ∈ waiting, m.handle = i.handle) →
      ws.listReady listed waiting = .ok waiting := by
  induction waiting with
  | nil =>
    intro listed _ _
    unfold listReady
    rfl
  | cons n rest ih =>
    intro listed sorted closed
    obtain ⟨least, sorted'⟩ := List.pairwise_cons.mp sorted
    have ready : ws.isReady listed n = true := by
      refine List.all_eq_true.mpr fun i hi => ?_
      rcases closed n (by simp) i hi with known | ⟨m, hm, same⟩
      · simpa using known
      · have earlier := (h.input_lt hi).2.1
        rcases List.mem_cons.mp hm with rfl | hm
        · omega
        · have := least m hm
          omega
    have first : (n :: rest).find? (ws.isReady listed) = some n := by simp [ready]
    have next : ws.listReady (n.handle :: listed) rest = .ok rest := by
      refine ih sorted' fun m hm i hi => ?_
      rcases closed m (by simp [hm]) i hi with known | ⟨k, hk, same⟩
      · exact .inl (by simp [known])
      · rcases List.mem_cons.mp hk with rfl | hk
        · exact .inl (by simp [same])
        · exact .inr ⟨k, hk, same⟩
    rw [listReady_of_some first, List.erase_cons_head, next]
    rfl

/-- What existing roots depend on is ordered by handle. -/
theorem Sound.topologicalOrder (h : ws.Sound)
    (exist : ∀ r ∈ roots, ws.Exists r ∧ r.graph = id) :
    ∃ order, ws.topologicalOrder roots = .ok order ∧ ws.Orders id roots order := by
  have there := fun n (reaches : ws.Reaches roots n) => reaches.exists h exist
  obtain ⟨mem, sorted⟩ := byHandle_reachable there
  refine ⟨_, listReady_eq h sorted fun n hn i hi => .inr ⟨i, ?_, rfl⟩, sorted, mem,
    fun n hn => (there n ((mem n).mp hn)).1, fun n hn => (there n ((mem n).mp hn)).2⟩
  exact (mem i).mpr (((mem n).mp hn).input hi)

/-- Of nodes by ascending handle, those with a smaller handle stand before. -/
theorem mem_before {pre post : List NodeRef} {n m : NodeRef}
    (sorted : (pre ++ n :: post).Pairwise fun a b => a.handle < b.handle)
    (mem : m ∈ pre ++ n :: post) (less : m.handle < n.handle) : m ∈ pre := by
  rcases List.mem_append.mp mem with before | after
  · exact before
  · rcases List.mem_cons.mp after with rfl | after
    · omega
    · have := (List.pairwise_cons.mp (List.pairwise_append.mp sorted).2.1).1 m after
      omega

namespace Orders

variable (ord : ws.Orders id roots order) {n i : NodeRef}
include ord

theorem root_mem (hn : n ∈ roots) : n ∈ order := (ord.mem_iff n).mpr (.root hn)

theorem input_mem (hn : n ∈ order) (hi : i ∈ ws.inputs n) : i ∈ order :=
  (ord.mem_iff i).mpr (((ord.mem_iff n).mp hn).input hi)

/-- Every node stands after its inputs. -/
theorem input_before (h : ws.Sound) {pre post : List NodeRef} (split : order = pre ++ n :: post)
    (hi : i ∈ ws.inputs n) : i ∈ pre := by
  have mem : i ∈ order := ord.input_mem (by rw [split]; simp) hi
  have sorted := ord.sorted
  rw [split] at mem sorted
  exact mem_before sorted mem (h.input_lt hi).2.1

/-- A handle stands for one node of the order. -/
theorem handle_inj {m : NodeRef} (hn : n ∈ order) (hm : m ∈ order) (same : n.handle = m.handle) :
    n = m :=
  eq_of_handle ((ord.graph n hn).trans (ord.graph m hm).symm) same

theorem nodup_handles : (order.map (·.handle)).Nodup :=
  List.pairwise_map.mpr (ord.sorted.imp fun lt => Nat.ne_of_lt lt)

theorem nodup : order.Nodup := ord.sorted.imp fun lt eq => by
  rw [eq] at lt
  omega

/-- What roots depend on has one order. -/
theorem unique {order' : List NodeRef} (ord' : ws.Orders id roots order') : order = order' := by
  have perm := (List.perm_ext_iff_of_nodup ord.nodup ord'.nodup).mpr fun n =>
    (ord.mem_iff n).trans (ord'.mem_iff n).symm
  exact perm.eq_of_pairwise (fun _ _ _ _ lt gt => absurd lt (Nat.lt_asymm gt)) ord.sorted ord'.sorted

/-- It is the one that is found. -/
theorem topologicalOrder (h : ws.Sound) : ws.topologicalOrder roots = .ok order := by
  obtain ⟨order', found, ord'⟩ := h.topologicalOrder fun r hr =>
    ⟨ord.exist r (ord.root_mem hr), ord.graph r (ord.root_mem hr)⟩
  rw [found, ord.unique ord']

end Orders

end Workspace

end Backprop
