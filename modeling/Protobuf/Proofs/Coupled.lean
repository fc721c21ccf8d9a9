import Protobuf.Proofs.Action

/-!
# Actions side by side

An action may be run on two states that resemble each other, or two actions that resemble each other
may be run. They go the same way if both give something or both are refused, and what they leave
behind resembles each other again.

## Main definitions

* `Matched` — two runs have ended in the same way.
* `Coupled` — two actions go the same way.

Coupling comes with the laws of the monad, and with one of loops over lists.
-/

namespace Protobuf

variable {σ τ ε ε' α β γ δ : Type}

/-- Two runs have ended in the same way: both have given something, or both have been refused. The
states that they leave are related by `R`, the errors by `E`, and the results by `V`. -/
inductive Matched (R : σ → τ → Prop) (E : ε → ε → Prop) (V : α → β → Prop) :
    Except ε α × σ → Except ε β × τ → Prop
  | ok {a : α} {b : β} {s : σ} {t : τ} (hV : V a b) (hR : R s t) :
      Matched R E V (.ok a, s) (.ok b, t)
  | error {e e' : ε} {s : σ} {t : τ} (hE : E e e') (hR : R s t) :
      Matched R E V (.error e, s) (.error e', t)

/-- From these states the two actions go the same way. -/
def Coupled (R : σ → τ → Prop) (E : ε → ε → Prop) (V : α → β → Prop) (s : σ) (t : τ)
    (x : ExceptT ε (StateM σ) α) (y : ExceptT ε (StateM τ) β) : Prop :=
  Matched R E V ((ExceptT.run x).run s) ((ExceptT.run y).run t)

namespace Coupled

variable {R : σ → τ → Prop} {E : ε → ε → Prop} {V : α → β → Prop} {W : γ → δ → Prop} {s : σ} {t : τ}
  {x : ExceptT ε (StateM σ) α} {y : ExceptT ε (StateM τ) β}

theorem pure {a : α} {b : β} (hV : V a b) (hR : R s t) :
    Coupled R E V s t (Pure.pure a) (Pure.pure b) :=
  .ok hV hR

theorem throw {e e' : ε} (hE : E e e') (hR : R s t) :
    Coupled R E V s t (MonadExcept.throw e) (MonadExcept.throw e') :=
  .error hE hR

theorem set {s' : σ} {t' : τ} {V : PUnit → PUnit → Prop} (hV : V ⟨⟩ ⟨⟩) (hR : R s' t') :
    Coupled R E V s t (MonadStateOf.set s') (MonadStateOf.set t') :=
  .ok hV hR

theorem modify {f : σ → σ} {g : τ → τ} {V : PUnit → PUnit → Prop} (hV : V ⟨⟩ ⟨⟩)
    (hR : R (f s) (g t)) : Coupled R E V s t (modify f) (modify g) :=
  .ok hV hR

/-- What is coupled one after the other is coupled. The second actions may ask for a closer relation
than is left in the end. -/
theorem andThen {R' : σ → τ → Prop} {f : α → ExceptT ε (StateM σ) γ} {g : β → ExceptT ε (StateM τ) δ}
    (hR : ∀ s t, R s t → R' s t) (hx : Coupled R E V s t x y)
    (hf : ∀ a b s t, V a b → R s t → Coupled R' E W s t (f a) (g b)) :
    Coupled R' E W s t (x >>= f) (y >>= g) := by
  rw [Coupled, run_bind_eq, run_bind_eq]
  rw [Coupled] at hx
  generalize (ExceptT.run x).run s = r at hx
  generalize (ExceptT.run y).run t = r' at hx
  cases hx with
  | ok hV hR => exact hf _ _ _ _ hV hR
  | error hE h => exact .error hE (hR _ _ h)

theorem bind {f : α → ExceptT ε (StateM σ) γ} {g : β → ExceptT ε (StateM τ) δ}
    (hx : Coupled R E V s t x y)
    (hf : ∀ a b s t, V a b → R s t → Coupled R E W s t (f a) (g b)) :
    Coupled R E W s t (x >>= f) (y >>= g) :=
  andThen (fun _ _ h => h) hx hf

/-- Each action looks at its own state. -/
theorem bindGet {f : σ → ExceptT ε (StateM σ) γ} {g : τ → ExceptT ε (StateM τ) δ}
    (h : Coupled R E W s t (f s) (g t)) : Coupled R E W s t (get >>= f) (get >>= g) :=
  h

theorem mono {R' : σ → τ → Prop} {E' : ε → ε → Prop} {V' : α → β → Prop}
    (hx : Coupled R E V s t x y)
    (hR : ∀ s t, R s t → R' s t) (hE : ∀ e e', E e e' → E' e e') (hV : ∀ a b, V a b → V' a b) :
    Coupled R' E' V' s t x y := by
  rw [Coupled] at hx ⊢
  generalize (ExceptT.run x).run s = r at hx
  generalize (ExceptT.run y).run t = r' at hx
  cases hx with
  | ok h hR' => exact .ok (hV _ _ h) (hR _ _ hR')
  | error h hR' => exact .error (hE _ _ h) (hR _ _ hR')

/-- Both are refused under the same condition. -/
theorem refuseIf {c c' : Prop} [Decidable c] [Decidable c'] {e e' : ε}
    {rest : PUnit → ExceptT ε (StateM σ) γ} {rest' : PUnit → ExceptT ε (StateM τ) δ}
    (hc : c ↔ c') (hE : E e e') (hR : R s t)
    (h : ¬c → Coupled R E W s t (rest ⟨⟩) (rest' ⟨⟩)) :
    Coupled R E W s t (if c then MonadExcept.throw e >>= rest else rest ⟨⟩)
      (if c' then MonadExcept.throw e' >>= rest' else rest' ⟨⟩) := by
  by_cases hif : c
  · rw [if_pos hif, if_pos (hc.mp hif)]
    exact bind (V := fun _ _ => False) (throw hE hR) fun _ _ _ _ h => h.elim
  · rw [if_neg hif, if_neg (mt hc.mpr hif)]
    exact h hif

/-- What every step of a loop couples, the loop couples. -/
theorem forM {step : γ → ExceptT ε (StateM σ) PUnit} {step' : γ → ExceptT ε (StateM τ) PUnit}
    {items : List γ} (hR : R s t) (hstep : ∀ a ∈ items, ∀ s t, R s t →
      Coupled R E (fun _ _ => True) s t (step a) (step' a)) :
    Coupled R E (fun _ _ => True) s t (items.forM step) (items.forM step') := by
  induction items generalizing s t with
  | nil => exact pure trivial hR
  | cons a more ih =>
    exact bind (hstep a List.mem_cons_self s t hR) fun _ _ _ _ _ hR =>
      ih hR fun a ha => hstep a (List.mem_cons_of_mem _ ha)

/-- Actions that are coupled stay so when their errors are seen as others. -/
theorem adapt {E' : ε' → ε' → Prop} {g : ε → ε'} (hE : ∀ e e', E e e' → E' (g e) (g e'))
    (hx : Coupled R E V s t x y) : Coupled R E' V s t (ExceptT.adapt g x) (ExceptT.adapt g y) := by
  have hrun : ∀ {σ α : Type} (x : ExceptT ε (StateM σ) α) (s : σ),
      (ExceptT.run (ExceptT.adapt g x)).run s =
        (((ExceptT.run x).run s).1.mapError g, ((ExceptT.run x).run s).2) := fun _ _ => rfl
  rw [Coupled, hrun, hrun]
  rw [Coupled] at hx
  generalize (ExceptT.run x).run s = r at hx
  generalize (ExceptT.run y).run t = r' at hx
  cases hx with
  | ok h hR => exact .ok h hR
  | error h hR => exact .error (hE _ _ h) hR

/-- Actions that are coupled leave related states behind. -/
theorem left (hx : Coupled R E V s t x y) :
    R ((ExceptT.run x).run s).2 ((ExceptT.run y).run t).2 := by
  rw [Coupled] at hx
  generalize (ExceptT.run x).run s = r at hx ⊢
  generalize (ExceptT.run y).run t = r' at hx ⊢
  cases hx with
  | ok _ hR => exact hR
  | error _ hR => exact hR

/-- Actions that are coupled give the same if their results and errors are the same. -/
theorem fst_eq {V : α → α → Prop} {x : ExceptT ε (StateM σ) α} {y : ExceptT ε (StateM τ) α}
    (hx : Coupled R Eq V s t x y) (hV : ∀ a b, V a b → a = b) :
    ((ExceptT.run x).run s).1 = ((ExceptT.run y).run t).1 := by
  rw [Coupled] at hx
  generalize (ExceptT.run x).run s = r at hx ⊢
  generalize (ExceptT.run y).run t = r' at hx ⊢
  cases hx with
  | ok h _ => exact congrArg _ (hV _ _ h)
  | error h _ => exact congrArg _ h

end Coupled

end Protobuf
