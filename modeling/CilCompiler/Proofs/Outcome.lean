import CilCompiler.Journal

/-!
What a computation that succeeded went through: a sequence of steps succeeds when each step does, with the
result of the one before. Work that keeps a journal is taken apart in the same way, whatever it notes. Work that ends its
spans itself looks at an outcome first (`Logged.attempt`), and then goes on with it.

Agreement of two pieces of work: both succeed with results that are related, or both fail with one code, or both crash.
-/

namespace CilCompiler

theorem bind_eq_ok {ε α β : Type} {x : Except ε α} {f : α → Except ε β} {b : β} :
    (x >>= f) = .ok b ↔ ∃ a, x = .ok a ∧ f a = .ok b := by
  cases x with
  | error e => exact ⟨fun h => (by cases h), fun ⟨_, h, _⟩ => (by cases h)⟩
  | ok a => exact ⟨fun h => ⟨a, rfl, h⟩, fun ⟨_, h, h'⟩ => by cases h; exact h'⟩

theorem map_eq_ok {ε α β : Type} {x : Except ε α} {f : α → β} {b : β} :
    x.map f = .ok b ↔ ∃ a, x = .ok a ∧ f a = b := by
  cases x with
  | error e => exact ⟨fun h => (by cases h), fun ⟨_, h, _⟩ => (by cases h)⟩
  | ok a => exact ⟨fun h => ⟨a, rfl, by injection h⟩, fun ⟨_, h, h'⟩ => by cases h; cases h'; rfl⟩

/-- The result of the last of several steps. -/
theorem foldlM_cons_ok {ε σ α : Type} {f : σ → α → Except ε σ} {s t : σ} {a : α} {l : List α}
    (h : (a :: l).foldlM f s = .ok t) : ∃ s', f s a = .ok s' ∧ l.foldlM f s' = .ok t := by
  rw [List.foldlM_cons] at h
  exact bind_eq_ok.mp h

namespace Logged
variable {α β : Type}

/-- The work succeeds with a result; what it notes is left open. -/
def Gives (x : Logged α) (a : α) : Prop := ∃ j j', x j = (.ok a, j')

/-- One piece of work after another. -/
theorem bind_run (x : Logged α) (f : α → Logged β) (j : Journal) :
    (x >>= f) j = match x j with
      | (.ok a, j) => f a j
      | (.error e, j) => (.error e, j) := by
  have hbind : (x >>= f) j = StateT.bind x (ExceptT.bindCont f) j := rfl
  rw [hbind]
  simp only [StateT.bind, bind]
  cases x j with
  | mk r j₁ => cases r <;> rfl

/-- Work that goes on with the outcome of other work. -/
theorem attempt_run (x : Logged α) (f : Except Fault α → Logged β) (j : Journal) :
    (attempt x >>= f) j = match x j with
      | (.error .crash, j) => (.error .crash, j)
      | (r, j) => f r j := by
  rw [bind_run, attempt]
  cases x j with
  | mk r j₁ =>
    cases r with
    | ok a => rfl
    | error f => cases f <;> rfl

theorem Gives.of_bind {x : Logged α} {f : α → Logged β} {b : β} (h : (x >>= f).Gives b) :
    ∃ a, Gives x a ∧ (f a).Gives b := by
  obtain ⟨j, j', h⟩ := h
  rw [bind_run] at h
  cases hx : x j with
  | mk r j₁ =>
    rw [hx] at h
    cases r with
    | error e => cases h
    | ok a => exact ⟨a, ⟨j, j₁, hx⟩, ⟨j₁, j', h⟩⟩

theorem gives_of_any {x : Logged α} {j : Journal} {p : α → Bool} (h : (x j).1.toOption.any p = true) :
    ∃ a, x.Gives a ∧ p a = true := by
  cases hx : x j with
  | mk r j' =>
    rw [hx] at h
    cases r with
    | error e => cases h
    | ok a => exact ⟨a, ⟨j, j', hx⟩, h⟩

theorem gives_of_isOk {x : Logged α} {j : Journal} (h : (x j).1.isOk = true) : ∃ a, x.Gives a := by
  cases hx : x j with
  | mk r j' =>
    rw [hx] at h
    cases r with
    | error e => cases h
    | ok a => exact ⟨a, j, j', hx⟩

/-- The work fails with a fault. -/
def Fails (x : Logged α) (f : Fault) : Prop := ∃ j j', x j = (.error f, j')

theorem fails_of_code {x : Logged α} {j : Journal} {code : Code}
    (h : (match (x j).1 with | .error f => decide (f.code? = some code) | .ok _ => false) = true) :
    ∃ f, x.Fails f ∧ f.code? = some code := by
  cases hx : x j with
  | mk r j' =>
    rw [hx] at h
    cases r with
    | error f => exact ⟨f, ⟨j, j', hx⟩, of_decide_eq_true h⟩
    | ok a => cases h

theorem Gives.of_pure {a b : α} (h : (pure a : Logged α).Gives b) : a = b := by
  obtain ⟨j, j', h⟩ := h
  cases h
  rfl

theorem Gives.of_except {x : Except Fault α} {a : α} (h : (ofExcept x).Gives a) : x = .ok a := by
  obtain ⟨j, j', h⟩ := h
  cases h
  rfl

/-! ### Work that ends in the same way whenever it is done -/

/-- The outcome of the work, whatever has been noted before. -/
def Runs (x : Logged α) (r : Except Fault α) : Prop := ∀ j, (x j).1 = r

theorem Runs.gives {x : Logged α} {a : α} (h : x.Runs (.ok a)) : x.Gives a := ⟨{}, (x {}).2, Prod.ext (h {}) rfl⟩

theorem Runs.of_gives {x : Logged α} {r : Except Fault α} {a : α} (h : x.Runs r) (hx : x.Gives a) : r = .ok a := by
  obtain ⟨j, j', hx⟩ := hx
  rw [← h j, hx]

theorem Runs.pure (a : α) : (Pure.pure a : Logged α).Runs (.ok a) := fun _ => rfl

theorem Runs.ofExcept (r : Except Fault α) : (Logged.ofExcept r).Runs r := fun _ => rfl

theorem Runs.fail (f : Fault) : (Logged.fail f : Logged α).Runs (.error f) := fun _ => rfl

theorem Runs.bind {x : Logged α} {r : Except Fault α} {f : α → Logged β} {g : α → Except Fault β} (h : x.Runs r)
    (hf : ∀ a, r = .ok a → (f a).Runs (g a)) : (x >>= f).Runs (r >>= g) := by
  intro j
  have hx := h j
  rw [bind_run]
  cases hxj : x j with
  | mk s k =>
    rw [hxj] at hx
    subst hx
    cases s with
    | error e => rfl
    | ok a => exact hf a rfl k

/-- What is done after work that succeeds. -/
theorem Runs.after {x : Logged α} {a : α} {f : α → Logged β} {r : Except Fault β} (h : x.Runs (.ok a)) (hf : (f a).Runs r) :
    (x >>= f).Runs r :=
  Runs.bind (g := fun _ => r) h fun _ ha => by
    cases ha
    exact hf

/-- Work that cannot fail: it looks something up or writes it down. -/
def Total (x : Logged α) : Prop := ∀ j, ∃ a k, x j = (.ok a, k)

theorem Total.note (f : Journal → Journal) : Total (Logged.note f) := fun _ => ⟨_, _, rfl⟩

theorem Total.context : Total Logged.context := fun _ => ⟨_, _, rfl⟩

theorem Total.start (scale : Scale) (name : Text) (parent : Nat) : Total (Logged.start scale name parent) :=
  fun _ => ⟨_, _, rfl⟩

theorem Total.startIn (ctx : Context) (scale : Scale) (name : Text) : Total (Logged.startIn ctx scale name) :=
  fun _ => ⟨_, _, rfl⟩

theorem Total.startPhase (name : Text) : Total (Logged.startPhase name) := fun _ => ⟨_, _, rfl⟩

/-- What is done after work that cannot fail, whatever that answers. -/
theorem Runs.behind {x : Logged α} {f : α → Logged β} {r : Except Fault β} (h : x.Total) (hf : ∀ a, (f a).Runs r) :
    (x >>= f).Runs r := by
  intro j
  obtain ⟨a, k, hx⟩ := h j
  rw [bind_run, hx]
  exact hf a k

/-- Work that goes on with the outcome of other work; a crash it does not see. -/
theorem Runs.attempt {x : Logged α} {r : Except Fault α} {f : Except Fault α → Logged β} {s : Except Fault β} (h : x.Runs r)
    (hok : ∀ a, r = .ok a → (f (.ok a)).Runs s) (herror : ∀ e, r = .error e → e ≠ .crash → (f (.error e)).Runs s)
    (hcrash : r = .error .crash → s = .error .crash) : (Logged.attempt x >>= f).Runs s := by
  intro j
  have hx := h j
  rw [attempt_run]
  cases hxj : x j with
  | mk t k =>
    rw [hxj] at hx
    subst hx
    cases t with
    | ok a => exact hok a rfl k
    | error e =>
      by_cases he : e = .crash
      · subst he
        exact (hcrash rfl).symm
      · have hrun := herror e rfl he k
        split
        · rename_i heq
          cases heq
          exact absurd rfl he
        · rename_i heq
          cases heq
          exact hrun

/-- Whatever one piece of work comes to, another one may come to. -/
def Echoes (x y : Logged α) : Prop := ∀ j, ∃ k, (x j).1 = (y k).1

theorem Echoes.behind {x : Logged β} {f : β → Logged α} {y : Logged α} (h : x.Total) (hf : ∀ a, (f a).Echoes y) :
    (x >>= f).Echoes y := by
  intro j
  obtain ⟨a, k, hx⟩ := h j
  rw [bind_run, hx]
  exact hf a k

/-- Work that comes to the outcome of other work that it has looked at. -/
theorem Echoes.attempt {f : Except Fault α → Logged α} {y : Logged α} (h : ∀ r, (f r).Runs r) :
    (Logged.attempt y >>= f).Echoes y := by
  intro j
  refine ⟨j, ?_⟩
  rw [attempt_run]
  split
  · rename_i hy
    rw [hy]
  · rename_i r k _ hy
    rw [hy]
    exact h r k

theorem Gives.of_echoes {x y : Logged α} {a : α} (hx : x.Gives a) (h : x.Echoes y) : y.Gives a := by
  obtain ⟨j, j', hx⟩ := hx
  obtain ⟨k, hk⟩ := h j
  rw [hx] at hk
  exact ⟨k, (y k).2, Prod.ext hk.symm rfl⟩

theorem Runs.of_echoes {x y : Logged α} {r : Except Fault α} (hy : y.Runs r) (h : x.Echoes y) : x.Runs r := by
  intro j
  obtain ⟨k, hk⟩ := h j
  rw [hk, hy]

end Logged

/-! ### Steps in another order -/

section Order

variable {ε σ τ α β : Type}

/-- Steps that lead from related states to related states. -/
theorem foldlM_simulates {f : σ → α → Except ε σ} {g : τ → β → Except ε τ} {R : σ → τ → Prop} {m : α → β} {l : List α}
    {s s' : σ} {t : τ}
    (step : ∀ a ∈ l, ∀ {s s' : σ} {t : τ}, R s t → f s a = .ok s' → ∃ t', g t (m a) = .ok t' ∧ R s' t') (h : R s t)
    (hf : l.foldlM f s = .ok s') : ∃ t', (l.map m).foldlM g t = .ok t' ∧ R s' t' := by
  induction l generalizing s t with
  | nil =>
    cases hf
    exact ⟨t, rfl, h⟩
  | cons a l ih =>
    obtain ⟨s₁, h1, h2⟩ := foldlM_cons_ok hf
    obtain ⟨t₁, h1', hr⟩ := step a List.mem_cons_self h h1
    obtain ⟨t', h2', hr'⟩ := ih (fun b hb => step b (List.mem_cons_of_mem _ hb)) hr h2
    exact ⟨t', by rw [List.map_cons, List.foldlM_cons, h1']; exact h2', hr'⟩

/-- Steps succeed in any order, with related states, if they do so two by two. -/
theorem foldlM_perm {f : σ → α → Except ε σ} {R : σ → σ → Prop} {D : α → α → Prop} {l l' : List α} {s s' t : σ}
    (right : ∀ {s t : σ}, R s t → R t t) (trans : ∀ {s t u : σ}, R s t → R t u → R s u)
    (step : ∀ {a : α} {s s' t : σ}, R s t → f s a = .ok s' → ∃ t', f t a = .ok t' ∧ R s' t')
    (swap : ∀ {a b : α} {s s₁ s₂ : σ}, D a b → R s s → f s a = .ok s₁ → f s₁ b = .ok s₂ →
      ∃ t₁ t₂, f s b = .ok t₁ ∧ f t₁ a = .ok t₂ ∧ R s₂ t₂)
    (symm : ∀ {a b : α}, D a b → D b a) (hp : l.Perm l') (hD : l.Pairwise D) (h : R s t) (hf : l.foldlM f s = .ok s') :
    ∃ t', l'.foldlM f t = .ok t' ∧ R s' t' := by
  induction hp generalizing s t s' with
  | nil =>
    cases hf
    exact ⟨t, rfl, h⟩
  | cons a _ ih =>
    obtain ⟨s₁, h1, h2⟩ := foldlM_cons_ok hf
    obtain ⟨t₁, h1', hr⟩ := step h h1
    obtain ⟨t', h2', hr'⟩ := ih (List.pairwise_cons.mp hD).2 hr h2
    exact ⟨t', by rw [List.foldlM_cons, h1']; exact h2', hr'⟩
  | swap b a l =>
    obtain ⟨s₁, h1, hf⟩ := foldlM_cons_ok hf
    obtain ⟨s₂, h2, h3⟩ := foldlM_cons_ok hf
    obtain ⟨t₁, h1', hr₁⟩ := step h h1
    obtain ⟨t₂, h2', hr₂⟩ := step hr₁ h2
    obtain ⟨u₁, u₂, hb, ha, hu⟩ := swap ((List.pairwise_cons.mp hD).1 b List.mem_cons_self) (right h) h1' h2'
    have rest := foldlM_simulates (m := fun x : α => x) (l := l) (fun _ _ => step) (trans hr₂ hu) h3
    rw [List.map_id'] at rest
    obtain ⟨t', h3', hr'⟩ := rest
    exact ⟨t', by rw [List.foldlM_cons, hb]; show List.foldlM f u₁ (a :: l) = _; rw [List.foldlM_cons, ha]; exact h3', hr'⟩
  | trans hp _ ih₁ ih₂ =>
    obtain ⟨u, h1, hr⟩ := ih₁ hD h hf
    obtain ⟨t', h2, hr'⟩ := ih₂ ((hp.pairwise_iff symm).mp hD) (right h) h1
    exact ⟨t', h2, trans hr hr'⟩

end Order

/-- Both succeed with related results, or both fail with the same code, or both crash. -/
inductive Agree {α β : Type} (R : α → β → Prop) : Except Fault α → Except Fault β → Prop where
  | ok {a : α} {b : β} (h : R a b) : Agree R (.ok a) (.ok b)
  | error {f g : Fault} (h : f.answer? = g.answer?) : Agree R (.error f) (.error g)

namespace Agree

variable {α β γ δ : Type} {R : α → β → Prop} {S : γ → δ → Prop} {x : Except Fault α} {y : Except Fault β}

theorem refl (x : Except Fault α) : Agree (fun a b => b = a) x x := by
  cases x with
  | ok a => exact .ok rfl
  | error f => exact .error rfl

theorem mono {R' : α → β → Prop} (h : Agree R x y) (hr : ∀ a b, R a b → R' a b) : Agree R' x y := by
  cases h with
  | ok h => exact .ok (hr _ _ h)
  | error h => exact .error h

/-- What holds of both results where there are any. -/
theorem mono_ok {R' : α → β → Prop} (h : Agree R x y) (hr : ∀ a b, R a b → x = .ok a → y = .ok b → R' a b) :
    Agree R' x y := by
  cases h with
  | ok h => exact .ok (hr _ _ h rfl rfl)
  | error h => exact .error h

theorem bind {f : α → Except Fault γ} {g : β → Except Fault δ} (h : Agree R x y)
    (hf : ∀ a b, R a b → Agree S (f a) (g b)) : Agree S (x >>= f) (y >>= g) := by
  cases h with
  | ok h => exact hf _ _ h
  | error h => exact .error h

/-- What follows starts from what both have come to. -/
theorem bind_ok {f : α → Except Fault γ} {g : β → Except Fault δ} (h : Agree R x y)
    (hf : ∀ a b, R a b → x = .ok a → y = .ok b → Agree S (f a) (g b)) : Agree S (x >>= f) (y >>= g) := by
  cases h with
  | ok h => exact hf _ _ h rfl rfl
  | error h => exact .error h

theorem map {f : α → γ} {g : β → δ} (h : Agree R x y) (hf : ∀ a b, R a b → S (f a) (g b)) :
    Agree S (x.map f) (y.map g) := by
  cases h with
  | ok h => exact .ok (hf _ _ h)
  | error h => exact .error h

/-- Faults are placed in what was done. -/
theorem inside (h : Agree R x y) (context context' : Text) :
    Agree R (x.mapError (Fault.inside context)) (y.mapError (Fault.inside context')) := by
  cases h with
  | ok h => exact .ok h
  | error h => exact .error (by rw [Fault.answer?_inside, Fault.answer?_inside, h])

/-- What agrees with what agrees with a third. -/
theorem trans {T : β → γ → Prop} {z : Except Fault γ} (h : Agree R x y) (h' : Agree T y z) :
    Agree (fun a c => ∃ b, R a b ∧ T b c) x z := by
  cases h with
  | ok h =>
    cases h' with
    | ok h' => exact .ok ⟨_, h, h'⟩
  | error h =>
    cases h' with
    | error h' => exact .error (h.trans h')

/-- Where one succeeds, so does the other. -/
theorem of_ok (h : Agree R x y) {a : α} (hx : x = .ok a) : ∃ b, y = .ok b ∧ R a b := by
  subst hx
  cases h with
  | ok h => exact ⟨_, rfl, h⟩

theorem of_ok_right (h : Agree R x y) {b : β} (hy : y = .ok b) : ∃ a, x = .ok a ∧ R a b := by
  subst hy
  cases h with
  | ok h => exact ⟨_, rfl, h⟩

theorem of_error (h : Agree R x y) {f : Fault} (hx : x = .error f) : ∃ g, y = .error g ∧ f.answer? = g.answer? := by
  subst hx
  cases h with
  | error h => exact ⟨_, rfl, h⟩

/-- One test decides both. -/
theorem ite {c c' : Prop} [Decidable c] [Decidable c'] (hc : c ↔ c') {x' : Except Fault α} {y' : Except Fault β}
    (ht : c → Agree R x y) (he : ¬c → Agree R x' y') : Agree R (if c then x else x') (if c' then y else y') := by
  by_cases h : c
  · rw [if_pos h, if_pos (hc.1 h)]
    exact ht h
  · rw [if_neg h, if_neg (mt hc.2 h)]
    exact he h

/-- Steps that agree one by one. -/
theorem foldlM {σ τ ι : Type} {R : σ → τ → Prop} {f : σ → ι → Except Fault σ} {g : τ → ι → Except Fault τ}
    {l : List ι} {s : σ} {t : τ}
    (step : ∀ i ∈ l, ∀ s t, R s t → Agree R (f s i) (g t i)) (h : R s t) : Agree R (l.foldlM f s) (l.foldlM g t) := by
  induction l generalizing s t with
  | nil => exact .ok h
  | cons i l ih =>
    rw [List.foldlM_cons, List.foldlM_cons]
    exact (step i List.mem_cons_self s t h).bind fun s t h => ih (fun j hj => step j (List.mem_cons_of_mem _ hj)) h

end Agree

/-- Two pieces of work agree, whatever journals they add to. -/
def Logged.Agrees {α β : Type} (R : α → β → Prop) (x : Logged α) (y : Logged β) : Prop :=
  ∀ j j' : Journal, Agree R (x j).1 (y j').1

namespace Logged.Agrees

variable {α β γ δ σ τ : Type} {R : α → β → Prop} {S : γ → δ → Prop} {x : Logged α} {y : Logged β}

theorem pure {a : α} {b : β} (h : R a b) : Agrees R (Pure.pure a) (Pure.pure b) := fun _ _ => .ok h

theorem ofExcept {r : Except Fault α} {s : Except Fault β} (h : Agree R r s) :
    Agrees R (Logged.ofExcept r) (Logged.ofExcept s) :=
  fun _ _ => h

/-- What follows starts from what both have given. -/
theorem bind_gives {f : α → Logged γ} {g : β → Logged δ} (h : Agrees R x y)
    (hf : ∀ a b, R a b → x.Gives a → y.Gives b → Agrees S (f a) (g b)) : Agrees S (x >>= f) (y >>= g) := by
  intro j j'
  have hxy := h j j'
  rw [bind_run, bind_run]
  cases hx : x j with
  | mk r k =>
    cases hy : y j' with
    | mk s k' =>
      rw [hx, hy] at hxy
      cases hxy with
      | ok hr => exact hf _ _ hr ⟨j, k, hx⟩ ⟨j', k', hy⟩ k k'
      | error he => exact .error he

theorem bind {f : α → Logged γ} {g : β → Logged δ} (h : Agrees R x y) (hf : ∀ a b, R a b → Agrees S (f a) (g b)) :
    Agrees S (x >>= f) (y >>= g) :=
  h.bind_gives fun a b hr _ _ => hf a b hr

/-- Work that comes to outcomes that agree. -/
theorem of_runs {r : Except Fault α} {s : Except Fault β} (hx : x.Runs r) (hy : y.Runs s)
    (h : Agree R r s) : Agrees R x y :=
  fun j j' => by rw [hx j, hy j']; exact h

theorem of_echoes {x' : Logged α} {y' : Logged β} (h : Agrees R x y) (hx : x'.Echoes x) (hy : y'.Echoes y) :
    Agrees R x' y' := by
  intro j j'
  obtain ⟨k, hk⟩ := hx j
  obtain ⟨k', hk'⟩ := hy j'
  rw [hk, hk']
  exact h k k'

/-- What is done after work that cannot fail. -/
theorem behind {z : Logged α} {u : Logged β} {f : α → Logged γ} {g : β → Logged δ} (hz : z.Total) (hu : u.Total)
    (h : ∀ a b, Agrees S (f a) (g b)) : Agrees S (z >>= f) (u >>= g) := by
  intro j j'
  obtain ⟨a, k, hz⟩ := hz j
  obtain ⟨b, k', hu⟩ := hu j'
  rw [bind_run, bind_run, hz, hu]
  exact h a b k k'

/-- Where one succeeds, so does the other. -/
theorem gives (h : Agrees R x y) {a : α} (hx : x.Gives a) : ∃ b, y.Gives b ∧ R a b := by
  obtain ⟨j, k, hx⟩ := hx
  obtain ⟨b, hb, hr⟩ := (h j {}).of_ok (by rw [hx])
  exact ⟨b, ⟨{}, (y {}).2, Prod.ext hb rfl⟩, hr⟩

theorem gives_right (h : Agrees R x y) {b : β} (hy : y.Gives b) : ∃ a, x.Gives a ∧ R a b := by
  obtain ⟨j, k, hy⟩ := hy
  obtain ⟨a, ha, hr⟩ := (h {} j).of_ok_right (by rw [hy])
  exact ⟨a, ⟨{}, (x {}).2, Prod.ext ha rfl⟩, hr⟩

end Logged.Agrees
end CilCompiler
