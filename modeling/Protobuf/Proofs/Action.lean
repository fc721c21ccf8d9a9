import Mathlib.Tactic.Common

/-!
# Laws of actions

Two kinds of actions occur. Reading schemas and messages is refused without a trace, so all that is
to be said is what an action gives when it is not refused. Adding definitions leaves behind what was
done before a refusal, so there it is the state that has to be watched, on either way out.

## Main definitions

* `Yields` — what an action gives whenever it gives something.
* `Leads` — from which states an action leads to which, whether it is refused or not.

Each comes with the laws of the monad, and the second one with a law of loops over lists.
-/

namespace Protobuf

/-! ### Refusals -/

/-- A sequence of two steps succeeds if both do. -/
theorem bind_eq_ok {ε α β : Type} {x : Except ε α} {f : α → Except ε β} {b : β} :
    x >>= f = .ok b ↔ ∃ a, x = .ok a ∧ f a = .ok b := by
  cases x with
  | error e => exact ⟨fun h => (by cases h), fun ⟨a, h, _⟩ => (by cases h)⟩
  | ok a => exact ⟨fun h => ⟨a, rfl, h⟩, fun ⟨_, h, h'⟩ => (by cases h; exact h')⟩

theorem map_eq_ok {ε α β : Type} {x : Except ε α} {f : α → β} {b : β} :
    x.map f = .ok b ↔ ∃ a, x = .ok a ∧ f a = b := by
  cases x <;> simp [Except.map]

theorem mapM_cons_eq_ok {ε α β : Type} {f : α → Except ε β} {a : α} {more : List α} {bs : List β} :
    (a :: more).mapM f = .ok bs ↔ ∃ b bs', f a = .ok b ∧ more.mapM f = .ok bs' ∧ bs = b :: bs' := by
  rw [List.mapM_cons, bind_eq_ok]
  constructor
  · rintro ⟨b, hb, h⟩
    obtain ⟨bs', hbs', h⟩ := bind_eq_ok.mp h
    cases h
    exact ⟨b, bs', hb, hbs', rfl⟩
  · rintro ⟨b, bs', hb, hbs', rfl⟩
    exact ⟨b, hb, bind_eq_ok.mpr ⟨bs', hbs', rfl⟩⟩

/-- A loop goes the same way over states that correspond. -/
theorem foldlM_of_map {m : Type → Type} [Monad m] [LawfulMonad m] {α β γ : Type} {φ : β → γ}
    {step : β → α → m β} {step' : γ → α → m γ} (h : ∀ x a, step' (φ x) a = φ <$> step x a)
    (items : List α) (x : β) : items.foldlM step' (φ x) = φ <$> items.foldlM step x := by
  induction items generalizing x with
  | nil => simp
  | cons a more ih => simp only [List.foldlM_cons, h, bind_map_left, ih, map_bind]

theorem mapM_of_map {m : Type → Type} [Monad m] [LawfulMonad m] {α β γ : Type} {φ : β → γ}
    {step : α → m β} {step' : α → m γ} (h : ∀ a, step' a = φ <$> step a) (items : List α) :
    items.mapM step' = List.map φ <$> items.mapM step := by
  induction items with
  | nil => simp
  | cons a more ih =>
    simp only [List.mapM_cons, h, bind_map_left, ih, map_bind, map_pure, List.map_cons]

/-- A loop succeeds if it does so at each element. -/
theorem exists_mapM_eq_ok {ε α β : Type} {f : α → Except ε β} {as : List α}
    (h : ∀ a ∈ as, ∃ b, f a = .ok b) : ∃ bs, as.mapM f = .ok bs := by
  induction as with
  | nil => exact ⟨[], rfl⟩
  | cons a more ih =>
    obtain ⟨b, hb⟩ := h a List.mem_cons_self
    obtain ⟨bs, hbs⟩ := ih fun a ha => h a (List.mem_cons_of_mem _ ha)
    exact ⟨b :: bs, mapM_cons_eq_ok.mpr ⟨b, bs, hb, hbs, rfl⟩⟩

theorem exists_foldlM_eq_ok {ε α β : Type} {f : β → α → Except ε β} {as : List α}
    (h : ∀ b, ∀ a ∈ as, ∃ b', f b a = .ok b') (b : β) : ∃ b', as.foldlM f b = .ok b' := by
  induction as generalizing b with
  | nil => exact ⟨b, rfl⟩
  | cons a more ih =>
    obtain ⟨b', hb'⟩ := h b a List.mem_cons_self
    rw [List.foldlM_cons, hb']
    exact ih (fun b a ha => h b a (List.mem_cons_of_mem _ ha)) b'

/-- A loop over elements any two of which may change places gives the same in any order. `Inv` is
what holds of whatever is looped over. -/
theorem foldlM_eq_ok_of_perm {ε α β : Type} {f : β → α → Except ε β} {Inv : β → Prop}
    {R : α → α → Prop} (hsymm : ∀ a a', R a a' → R a' a)
    (hstep : ∀ b a b', Inv b → f b a = .ok b' → Inv b')
    (hswap : ∀ b a a' b₁ b₂, Inv b → R a a' → f b a = .ok b₁ → f b₁ a' = .ok b₂ →
      ∃ b₃, f b a' = .ok b₃ ∧ f b₃ a = .ok b₂)
    {xs ys : List α} (h : xs.Perm ys) (hR : xs.Pairwise R) {b b' : β} (hb : Inv b)
    (hrun : xs.foldlM f b = .ok b') : ys.foldlM f b = .ok b' := by
  induction h generalizing b with
  | nil => exact hrun
  | cons a _ ih =>
    rw [List.foldlM_cons] at hrun ⊢
    obtain ⟨b₁, hfirst, hrun⟩ := bind_eq_ok.mp hrun
    exact bind_eq_ok.mpr ⟨b₁, hfirst, ih (List.pairwise_cons.mp hR).2 (hstep b a b₁ hb hfirst) hrun⟩
  | swap a a' more =>
    simp only [List.foldlM_cons] at hrun ⊢
    obtain ⟨b₁, hfirst, hrun⟩ := bind_eq_ok.mp hrun
    obtain ⟨b₂, hsecond, hrun⟩ := bind_eq_ok.mp hrun
    have hrel := (List.pairwise_cons.mp hR).1 a List.mem_cons_self
    obtain ⟨b₃, hfirst', hsecond'⟩ := hswap b a' a b₁ b₂ hb hrel hfirst hsecond
    exact bind_eq_ok.mpr ⟨b₃, hfirst', bind_eq_ok.mpr ⟨b₂, hsecond', hrun⟩⟩
  | trans h _ ih ih' => exact ih' (h.pairwise hR fun hR => hsymm _ _ hR) hb (ih hR hb hrun)

/-- What comes out of a loop comes from one of the elements. -/
theorem exists_of_mem_mapM {ε α β : Type} {f : α → Except ε β} {as : List α} {bs : List β}
    (h : as.mapM f = .ok bs) {b : β} (hb : b ∈ bs) : ∃ a ∈ as, f a = .ok b := by
  induction as generalizing bs with
  | nil =>
    cases h
    cases hb
  | cons a more ih =>
    obtain ⟨b', bs', hb', hbs', rfl⟩ := mapM_cons_eq_ok.mp h
    rcases List.mem_cons.mp hb with rfl | hb
    · exact ⟨a, List.mem_cons_self, hb'⟩
    · obtain ⟨a', ha', hfa'⟩ := ih hbs' hb
      exact ⟨a', List.mem_cons_of_mem _ ha', hfa'⟩

/-- A loop over elements that stay as they are, if they are let in at all. -/
theorem mapM_eq_ok_of_self {ε α : Type} {f : α → Except ε α} {P : α → Prop} {as bs : List α}
    (h : ∀ a ∈ as, ∀ b, f a = .ok b ↔ b = a ∧ P a) :
    as.mapM f = .ok bs ↔ bs = as ∧ ∀ a ∈ as, P a := by
  induction as generalizing bs with
  | nil =>
    show Except.ok [] = Except.ok bs ↔ _
    simp [eq_comm]
  | cons a more ih =>
    have hmore : ∀ bs, more.mapM f = .ok bs ↔ bs = more ∧ ∀ a ∈ more, P a :=
      fun bs => ih fun a ha => h a (List.mem_cons_of_mem _ ha)
    have ha := h a List.mem_cons_self
    rw [mapM_cons_eq_ok]
    constructor
    · rintro ⟨b, bs', hb, hbs', rfl⟩
      obtain ⟨rfl, hP⟩ := (ha b).mp hb
      obtain ⟨rfl, hall⟩ := (hmore bs').mp hbs'
      exact ⟨rfl, List.forall_mem_cons.mpr ⟨hP, hall⟩⟩
    · rintro ⟨rfl, hall⟩
      obtain ⟨hP, hall⟩ := List.forall_mem_cons.mp hall
      exact ⟨a, more, (ha a).mpr ⟨rfl, hP⟩, (hmore more).mpr ⟨rfl, hall⟩, rfl⟩

/-- What a step keeps, a loop keeps in order. -/
theorem map_eq_of_mapM {ε α β γ : Type} {f : α → Except ε β} {g : α → γ} {g' : β → γ}
    (hf : ∀ a b, f a = .ok b → g' b = g a) {as : List α} {bs : List β} (h : as.mapM f = .ok bs) :
    bs.map g' = as.map g := by
  induction as generalizing bs with
  | nil =>
    cases h
    rfl
  | cons a more ih =>
    obtain ⟨b, bs', hb, hbs', rfl⟩ := mapM_cons_eq_ok.mp h
    rw [List.map_cons, List.map_cons, hf a b hb, ih hbs']

theorem mapError_eq_ok {ε ε' α : Type} {x : Except ε α} {f : ε → ε'} {a : α} :
    x.mapError f = .ok a ↔ x = .ok a := by
  cases x <;> simp [Except.mapError]

theorem mapError_eq_error {ε ε' α : Type} {x : Except ε α} {f : ε → ε'} {e : ε'} :
    x.mapError f = .error e ↔ ∃ e', x = .error e' ∧ f e' = e := by
  cases x <;> simp [Except.mapError]

/-! ### Results -/

section Yields

variable {σ ε α β : Type}

/-- Whatever the action gives has the property `Q`. -/
def Yields (p : StateT σ (Except ε) α) (Q : α → Prop) : Prop :=
  ∀ s a s', p.run s = .ok (a, s') → Q a

namespace Yields

variable {p : StateT σ (Except ε) α} {f : α → StateT σ (Except ε) β} {P Q : α → Prop}
  {R : β → Prop}

theorem pure {a : α} (h : Q a) : Yields (Pure.pure a : StateT σ (Except ε) α) Q := by
  intro s b s' hrun
  cases hrun
  exact h

theorem throw (e : ε) : Yields (MonadExcept.throw e : StateT σ (Except ε) α) Q := by
  intro s a s' hrun
  cases hrun

theorem trivial : Yields p fun _ => True :=
  fun _ _ _ _ => True.intro

theorem mono (hp : Yields p P) (h : ∀ a, P a → Q a) : Yields p Q :=
  fun s a s' hrun => h a (hp s a s' hrun)

theorem bind (hp : Yields p P) (hf : ∀ a, P a → Yields (f a) R) : Yields (p >>= f) R := by
  intro s b s'' hrun
  rw [StateT.run_bind] at hrun
  cases hfirst : p.run s with
  | error e =>
    rw [hfirst] at hrun
    cases hrun
  | ok r =>
    rw [hfirst] at hrun
    exact hf r.1 (hp s r.1 r.2 hfirst) r.2 b s'' hrun

/-- The result of the first action does not matter. -/
theorem andThen (hf : ∀ a, Yields (f a) R) : Yields (p >>= f) R :=
  trivial.bind fun a _ => hf a

theorem map {g : α → β} (hp : Yields p fun a => R (g a)) : Yields (g <$> p) R := by
  rw [map_eq_pure_bind]
  exact hp.bind fun a ha => Yields.pure ha

theorem mapM {step : α → StateT σ (Except ε) β} {items : List α}
    (hstep : ∀ a ∈ items, Yields (step a) R) :
    Yields (items.mapM step) fun bs => ∀ b ∈ bs, R b := by
  induction items with
  | nil => exact Yields.pure (by simp)
  | cons a more ih =>
    rw [List.mapM_cons]
    refine (hstep a List.mem_cons_self).bind fun b hb => ?_
    refine (ih fun a ha => hstep a (List.mem_cons_of_mem _ ha)).bind fun bs hbs => ?_
    exact Yields.pure (List.forall_mem_cons.mpr ⟨hb, hbs⟩)

theorem foldlM {step : β → α → StateT σ (Except ε) β} {items : List α}
    (hstep : ∀ b, R b → ∀ a ∈ items, Yields (step b a) R) {b : β} (hb : R b) :
    Yields (items.foldlM step b) R := by
  induction items generalizing b with
  | nil => exact Yields.pure hb
  | cons a more ih =>
    rw [List.foldlM_cons]
    refine (hstep b hb a List.mem_cons_self).bind fun b' hb' => ?_
    exact ih (fun b hb a ha => hstep b hb a (List.mem_cons_of_mem _ ha)) hb'

/-- Two ways to look at what an action gives may be exchanged if they agree on that. -/
theorem map_congr {f g : α → β} (h : Yields p fun a => f a = g a) : f <$> p = g <$> p := by
  funext s
  show (f <$> p).run s = (g <$> p).run s
  rw [StateT.run_map, StateT.run_map]
  cases hrun : p.run s with
  | error e => rfl
  | ok r =>
    show Except.ok (f r.1, r.2) = Except.ok (g r.1, r.2)
    rw [h s r.1 r.2 hrun]

end Yields

end Yields

/-! ### States -/

section Leads

variable {σ ε ε' α β : Type}

theorem run_bind_eq (x : ExceptT ε (StateM σ) α) (f : α → ExceptT ε (StateM σ) β) (s : σ) :
    (ExceptT.run (x >>= f)).run s = match (ExceptT.run x).run s with
      | (.ok a, s') => (ExceptT.run (f a)).run s'
      | (.error e, s') => (.error e, s') := by
  simp only [Bind.bind, ExceptT.bind, ExceptT.run, ExceptT.mk, StateT.bind, StateT.run,
    ExceptT.bindCont]
  rcases x s with ⟨a | e, s'⟩ <;> rfl

/-- A sequence of two actions gives something if both do. -/
theorem run_bind_eq_ok {x : ExceptT ε (StateM σ) α} {f : α → ExceptT ε (StateM σ) β} {s t : σ} {b : β} :
    (ExceptT.run (x >>= f)).run s = (.ok b, t) ↔
      ∃ a s', (ExceptT.run x).run s = (.ok a, s') ∧ (ExceptT.run (f a)).run s' = (.ok b, t) := by
  rw [run_bind_eq]
  rcases (ExceptT.run x).run s with ⟨e | a, s'⟩
  · exact ⟨fun h => (by cases h), fun ⟨_, _, h, _⟩ => (by cases h)⟩
  · exact ⟨fun h => ⟨a, s', rfl, h⟩, fun ⟨_, _, h, h'⟩ => (by cases h; exact h')⟩

theorem run_get_bind (f : σ → ExceptT ε (StateM σ) β) (s : σ) :
    (ExceptT.run (get >>= f)).run s = (ExceptT.run (f s)).run s :=
  rfl

/-- From a state in `P` the action leads to one in `Q`, given the result, or is refused in one in
`I`. -/
def Leads (P : σ → Prop) (x : ExceptT ε (StateM σ) α) (Q : α → σ → Prop) (I : σ → Prop) : Prop :=
  ∀ s, P s → match (ExceptT.run x).run s with
    | (.ok a, s') => Q a s'
    | (.error _, s') => I s'

/-- The action never leads out of `I`. -/
abbrev Keeps (I : σ → Prop) (x : ExceptT ε (StateM σ) α) : Prop :=
  Leads I x (fun _ => I) I

namespace Leads

variable {P I : σ → Prop} {Q : α → σ → Prop} {R : β → σ → Prop} {x : ExceptT ε (StateM σ) α}
  {f : α → ExceptT ε (StateM σ) β}

theorem pure {a : α} (h : ∀ s, P s → Q a s) :
    Leads P (Pure.pure a : ExceptT ε (StateM σ) α) Q I :=
  fun s hs => h s hs

theorem throw {e : ε} (h : ∀ s, P s → I s) :
    Leads P (MonadExcept.throw e : ExceptT ε (StateM σ) α) Q I :=
  fun s hs => h s hs

theorem get {Q : σ → σ → Prop} (h : ∀ s, P s → Q s s) :
    Leads P (MonadState.get : ExceptT ε (StateM σ) σ) Q I :=
  fun s hs => h s hs

/-- What holds of everything holds wherever an action leads. -/
theorem always (hQ : ∀ a s, Q a s) (hI : ∀ s, I s) : Leads P x Q I := by
  intro s _
  rcases (ExceptT.run x).run s with ⟨e | a, s'⟩
  · exact hI s'
  · exact hQ a s'

theorem set {t : σ} {Q : PUnit → σ → Prop} (h : ∀ s, P s → Q ⟨⟩ t) :
    Leads P (MonadStateOf.set t : ExceptT ε (StateM σ) PUnit) Q I :=
  fun s hs => h s hs

theorem modify {g : σ → σ} {Q : PUnit → σ → Prop} (h : ∀ s, P s → Q ⟨⟩ (g s)) :
    Leads P (modify g : ExceptT ε (StateM σ) PUnit) Q I :=
  fun s hs => h s hs

theorem bind (hx : Leads P x Q I) (hf : ∀ a, Leads (Q a) (f a) R I) : Leads P (x >>= f) R I := by
  intro s hs
  have hfirst := hx s hs
  rw [run_bind_eq]
  rcases hx' : (ExceptT.run x).run s with ⟨e | a, s'⟩
  · rw [hx'] at hfirst
    exact hfirst
  · rw [hx'] at hfirst
    exact hf a s' hfirst

theorem mono {Q' : α → σ → Prop} {I' : σ → Prop} (hx : Leads P x Q I) (hQ : ∀ a s, Q a s → Q' a s)
    (hI : ∀ s, I s → I' s) : Leads P x Q' I' := by
  intro s hs
  have hrun := hx s hs
  rcases hx' : (ExceptT.run x).run s with ⟨e | a, s'⟩
  · rw [hx'] at hrun
    exact hI s' hrun
  · rw [hx'] at hrun
    exact hQ a s' hrun

/-- What is known of an action in two ways is known together. -/
theorem and {P' I' : σ → Prop} {Q' : α → σ → Prop} (hx : Leads P x Q I) (hx' : Leads P' x Q' I') :
    Leads (fun s => P s ∧ P' s) x (fun a s => Q a s ∧ Q' a s) fun s => I s ∧ I' s := by
  intro s hs
  have hrun := hx s hs.1
  have hrun' := hx' s hs.2
  rcases hx'' : (ExceptT.run x).run s with ⟨e | a, s'⟩ <;> rw [hx''] at hrun hrun' <;>
    exact ⟨hrun, hrun'⟩

theorem weaken {P' : σ → Prop} (hx : Leads P x Q I) (h : ∀ s, P' s → P s) : Leads P' x Q I :=
  fun s hs => hx s (h s hs)

/-- A refusal under a condition, after which the condition is known to fail. -/
theorem refuseIf {c : Prop} [Decidable c] {e : ε} {rest : PUnit → ExceptT ε (StateM σ) β}
    (hI : ∀ s, P s → I s) (h : ¬c → Leads P (rest ⟨⟩) R I) :
    Leads P (if c then MonadExcept.throw e >>= rest else rest ⟨⟩) R I := by
  split
  · exact bind (Q := fun _ _ => False) (throw hI) fun _ _ hs => hs.elim
  · exact h ‹_›

/-- An action either gives something or is refused. -/
theorem outcome (hx : Leads P x Q I) {s : σ} (hs : P s) :
    (∃ a, ((ExceptT.run x).run s).1 = .ok a ∧ Q a ((ExceptT.run x).run s).2) ∨
      ∃ e, ((ExceptT.run x).run s).1 = .error e ∧ I ((ExceptT.run x).run s).2 := by
  have hrun := hx s hs
  rcases hx' : (ExceptT.run x).run s with ⟨e | a, s'⟩
  · rw [hx'] at hrun
    exact .inr ⟨e, rfl, hrun⟩
  · rw [hx'] at hrun
    exact .inl ⟨a, rfl, hrun⟩

/-- An action that is not refused and leads back to where it started has no effect. -/
theorem run_eq {x : ExceptT ε (StateM σ) PUnit} {s : σ}
    (hx : Leads (· = s) x (fun _ t => t = s) fun _ => False) :
    (ExceptT.run x).run s = (.ok ⟨⟩, s) := by
  have hrun := hx s rfl
  rcases hx' : (ExceptT.run x).run s with ⟨e | a, t⟩
  · rw [hx'] at hrun
    exact hrun.elim
  · rw [hx'] at hrun
    rw [hrun]

/-- What is reached either way holds of what an action leaves behind. -/
theorem left (hx : Leads P x (fun _ => I) I) {s : σ} (hs : P s) :
    I ((ExceptT.run x).run s).2 := by
  have hrun := hx s hs
  rcases hx' : (ExceptT.run x).run s with ⟨e | a, s'⟩ <;> rw [hx'] at hrun <;> exact hrun

/-- What is known apart from the state may be used throughout. -/
theorem given {p : Prop} (h : p → Leads P x Q I) : Leads (fun s => P s ∧ p) x Q I :=
  fun s hs => h hs.2 s hs.1

/-- An action may be followed from one state at a time. -/
theorem each (h : ∀ s, P s → Leads (· = s) x Q I) : Leads P x Q I :=
  fun s hs => h s hs s rfl

/-- The state that is looked at is the one that is known. -/
theorem bindGet {s : σ} {f : σ → ExceptT ε (StateM σ) β} (h : Leads (· = s) (f s) R I) :
    Leads (· = s) (MonadState.get >>= f) R I := by
  refine bind (Q := fun t s' => s' = s ∧ t = s) (get fun t ht => ⟨ht, ht⟩) fun t => ?_
  refine given fun ht => ?_
  rw [ht]
  exact h

theorem adapt {g : ε → ε'} (hx : Leads P x Q I) : Leads P (ExceptT.adapt g x) Q I := by
  intro s hs
  have hrun := hx s hs
  have hadapt : (ExceptT.run (ExceptT.adapt g x)).run s = match (ExceptT.run x).run s with
      | (.ok a, s') => (.ok a, s')
      | (.error e, s') => (.error (g e), s') := by
    show (Except.mapError g (x s).1, (x s).2) = match x s with
      | (.ok a, s') => (.ok a, s')
      | (.error e, s') => (.error (g e), s')
    rcases x s with ⟨a | e, s'⟩
    · rfl
    · rfl
  rw [hadapt]
  rcases hx' : (ExceptT.run x).run s with ⟨e | a, s'⟩
  · rw [hx'] at hrun
    exact hrun
  · rw [hx'] at hrun
    exact hrun

/-- A loop keeps what its steps keep. -/
theorem forM {step : α → ExceptT ε (StateM σ) PUnit} {items : List α}
    (hstep : ∀ a ∈ items, Leads P (step a) (fun _ => P) I) :
    Leads P (items.forM step) (fun _ => P) I := by
  induction items with
  | nil => exact Leads.pure fun s hs => hs
  | cons a more ih =>
    show Leads P (step a >>= fun _ => more.forM step) (fun _ => P) I
    exact (hstep a List.mem_cons_self).bind fun _ =>
      ih fun a ha => hstep a (List.mem_cons_of_mem _ ha)

end Leads

end Leads

end Protobuf
