import Backprop.Net.Basic
/-!
What a change of state leads to. `Leads m s ok err` holds when running `m` from `s` ends in a result
and a state with the property `ok`, or in an error and a state with the property `err`, so a change
made of several steps is followed by rewriting with one lemma for each kind of step.
-/

namespace Backprop

section
variable {ε σ α β : Type}

def Leads (m : EStateM ε σ α) (s : σ) (ok : α → σ → Prop) (err : ε → σ → Prop) : Prop :=
  match m s with
  | .ok a t => ok a t
  | .error e t => err e t

/-- What a change yields, without the state it leaves. -/
def outcome (m : EStateM ε σ α) (s : σ) : Except ε α :=
  match m s with
  | .ok a _ => .ok a
  | .error e _ => .error e

/-- The state that a change leaves, whether it fails or not. -/
def remains (m : EStateM ε σ α) (s : σ) : σ :=
  match m s with
  | .ok _ t | .error _ t => t

theorem leads_self (m : EStateM ε σ α) (s : σ) :
    Leads m s (fun a t => m s = .ok a t) fun e t => m s = .error e t := by
  unfold Leads
  cases m s <;> rfl

theorem outcome_of_leads {m : EStateM ε σ α} {s : σ} {x : Except ε α}
    (h : Leads m s (fun a _ => x = .ok a) fun e _ => x = .error e) : outcome m s = x := by
  unfold Leads at h
  unfold outcome
  cases run : m s <;> rw [run] at h <;> exact h.symm

theorem leads_of_ok {m : EStateM ε σ α} {s t : σ} {a : α} {ok : α → σ → Prop}
    {err : ε → σ → Prop} (h : m s = .ok a t) : Leads m s ok err ↔ ok a t := by
  simp only [Leads, h]

theorem leads_of_error {m : EStateM ε σ α} {s t : σ} {e : ε} {ok : α → σ → Prop}
    {err : ε → σ → Prop} (h : m s = .error e t) : Leads m s ok err ↔ err e t := by
  simp only [Leads, h]

/-- Changes one after the other succeed if each does. -/
theorem bind_of_ok {m : EStateM ε σ α} {f : α → EStateM ε σ β} {s u : σ} {b : β}
    (run : (m >>= f) s = .ok b u) : ∃ a t, m s = .ok a t ∧ f a t = .ok b u := by
  simp only [bind, EStateM.bind] at run
  cases first : m s with
  | ok a t =>
    rw [first] at run
    exact ⟨a, t, rfl, run⟩
  | error e t =>
    rw [first] at run
    cases run

theorem Leads.mono {m : EStateM ε σ α} {s : σ} {ok ok' : α → σ → Prop} {err err' : ε → σ → Prop}
    (h : Leads m s ok err) (hok : ∀ a t, ok a t → ok' a t) (herr : ∀ e t, err e t → err' e t) :
    Leads m s ok' err' := by
  unfold Leads at h ⊢
  split
  next a t run => rw [run] at h; exact hok a t h
  next e t run => rw [run] at h; exact herr e t h

/-- Two facts about one run hold together. -/
theorem Leads.and {m : EStateM ε σ α} {s : σ} {ok ok' : α → σ → Prop} {err err' : ε → σ → Prop}
    (h : Leads m s ok err) (h' : Leads m s ok' err') :
    Leads m s (fun a t => ok a t ∧ ok' a t) (fun e t => err e t ∧ err' e t) := by
  unfold Leads at h h' ⊢
  cases run : m s <;> simp only [run] at h h' ⊢ <;> exact ⟨h, h'⟩

@[simp] theorem leads_pure (a : α) (s : σ) (ok : α → σ → Prop) (err : ε → σ → Prop) :
    Leads (pure a) s ok err ↔ ok a s := Iff.rfl

@[simp] theorem leads_bind (m : EStateM ε σ α) (f : α → EStateM ε σ β) (s : σ)
    (ok : β → σ → Prop) (err : ε → σ → Prop) :
    Leads (m >>= f) s ok err ↔ Leads m s (fun a t => Leads (f a) t ok err) err := by
  simp only [Leads, bind, EStateM.bind]
  cases m s <;> rfl

@[simp] theorem leads_map (f : α → β) (m : EStateM ε σ α) (s : σ) (ok : β → σ → Prop)
    (err : ε → σ → Prop) : Leads (f <$> m) s ok err ↔ Leads m s (fun a t => ok (f a) t) err := by
  simp only [Leads, Functor.map, EStateM.map]
  cases m s <;> rfl

@[simp] theorem leads_throw (e : ε) (s : σ) (ok : α → σ → Prop) (err : ε → σ → Prop) :
    Leads (throw e : EStateM ε σ α) s ok err ↔ err e s := Iff.rfl

@[simp] theorem leads_get (s : σ) (ok : σ → σ → Prop) (err : ε → σ → Prop) :
    Leads (get : EStateM ε σ σ) s ok err ↔ ok s s := Iff.rfl

@[simp] theorem leads_set (s t : σ) (ok : PUnit → σ → Prop) (err : ε → σ → Prop) :
    Leads (set t : EStateM ε σ PUnit) s ok err ↔ ok ⟨⟩ t := Iff.rfl

@[simp] theorem leads_modify (f : σ → σ) (s : σ) (ok : PUnit → σ → Prop) (err : ε → σ → Prop) :
    Leads (modify f : EStateM ε σ PUnit) s ok err ↔ ok ⟨⟩ (f s) := Iff.rfl

@[simp] theorem leads_modifyGet (f : σ → α × σ) (s : σ) (ok : α → σ → Prop) (err : ε → σ → Prop) :
    Leads (modifyGet f : EStateM ε σ α) s ok err ↔ ok (f s).1 (f s).2 := Iff.rfl

@[simp] theorem leads_forM_cons {ι : Type} (i : ι) (l : List ι) (f : ι → EStateM ε σ PUnit) (s : σ)
    (ok : PUnit → σ → Prop) (err : ε → σ → Prop) :
    Leads ((i :: l).forM f) s ok err ↔
      Leads (f i) s (fun _ t => Leads (l.forM f) t ok err) err :=
  leads_bind (f i) (fun _ => l.forM f) s ok err

theorem leads_forM_append {ι : Type} (l l' : List ι) (f : ι → EStateM ε σ PUnit) (s : σ)
    (ok : PUnit → σ → Prop) (err : ε → σ → Prop) :
    Leads ((l ++ l').forM f) s ok err ↔
      Leads (l.forM f) s (fun _ t => Leads (l'.forM f) t ok err) err := by
  induction l generalizing s with
  | nil => exact Iff.rfl
  | cons i l ih => simp only [List.cons_append, leads_forM_cons, ih]

/-- A loop over a list keeps what every round keeps. -/
theorem Leads.forM {ι : Type} {l : List ι} {f : ι → EStateM ε σ PUnit} {s : σ}
    (inv : List ι → σ → Prop) {E : ε → σ → Prop} (start : inv [] s)
    (round : ∀ seen i rest t, l = seen ++ i :: rest → inv seen t →
      Leads (f i) t (fun _ t' => inv (seen ++ [i]) t') E) :
    Leads (l.forM f) s (fun _ t => inv l t) E := by
  have run : ∀ rest seen t, l = seen ++ rest → inv seen t →
      Leads (rest.forM f) t (fun _ t' => inv l t') E := by
    intro rest
    induction rest with
    | nil =>
      intro seen t split h
      rw [split, List.append_nil]
      simpa using h
    | cons i rest ih =>
      intro seen t split h
      rw [leads_forM_cons]
      apply (round seen i rest t split h).mono _ (fun _ _ h => h)
      intro _ t' h'
      exact ih (seen ++ [i]) t' (by simpa using split) h'
  exact run l [] s rfl start

/-- A loop that collects results agrees with a function of the elements if every round does. -/
theorem Leads.mapM {ι : Type} {f : ι → EStateM ε σ α} {g : ι → Except ε α} {R : σ → σ → Prop}
    (refl : ∀ s, R s s) (trans : ∀ {s t u}, R s t → R t u → R s u) :
    ∀ (l : List ι) (s : σ),
      (∀ i ∈ l, ∀ t, R s t →
        Leads (f i) t (fun a t' => g i = .ok a ∧ R t t') (fun e _ => g i = .error e)) →
      Leads (l.mapM f) s (fun as t => l.mapM g = .ok as ∧ R s t)
        (fun e _ => l.mapM g = .error e) := by
  intro l
  induction l with
  | nil =>
    intro s _
    simp only [List.mapM_nil, leads_pure]
    exact ⟨rfl, refl s⟩
  | cons i l ih =>
    intro s round
    simp only [List.mapM_cons, leads_bind, leads_pure]
    apply (round i (by simp) s (refl s)).mono
    · rintro a t ⟨found, st⟩
      apply (ih t fun j hj u tu => round j (by simp [hj]) u (trans st tu)).mono
      · rintro as u ⟨rest, tu⟩
        simp only [found, rest]
        exact ⟨rfl, trans st tu⟩
      · intro e u failed
        simp only [found, failed]
        rfl
    · intro e t failed
      simp only [failed]
      rfl

end

section
variable {α : Type} {ok : α → Net → Prop} {err : Error → Net → Prop}

@[simp] theorem Net.leads_onTable (m : TableM α) (net : Net) :
    Leads (Net.onTable m) net ok err ↔
      Leads m net.table (fun a t => ok a { net with table := t })
        (fun e t => err e { net with table := t }) := by
  simp only [Leads, Net.onTable]
  cases m net.table <;> rfl

@[simp] theorem Net.leads_ofExcept (x : Except Error α) (net : Net) :
    Leads (Net.ofExcept x) net ok err ↔
      match x with
      | .ok a => ok a net
      | .error e => err e net := by
  cases x <;> rfl

end

end Backprop
