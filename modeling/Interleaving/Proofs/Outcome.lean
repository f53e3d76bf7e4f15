import Interleaving.Engine

/-!
# What an operation ends in

`Ends m s Q E` says of an operation started in `s` that it ends with an answer and a state that
satisfy `Q`, or halts in a state that satisfies `E`. Where only answers count, `Yields m s Q` is the
same without the last part; where the operation does not halt, `Succeeds m s Q`; and where it does not
matter which of the two it does, `EndsIn m s I`. There is one rule for each way to build an operation;
the rules for the operations of an exploration and of an engine follow from them.
-/

namespace Interleaving

variable {ε σ β γ : Type} {m : EStateM ε σ β} {f : β → EStateM ε σ γ} {s : σ}
  {Q Q' : β → σ → Prop} {R : γ → σ → Prop} {E E' : σ → Prop}

/-- The operation ends with an answer and a state that satisfy `Q`, or halts in a state that
satisfies `E`. -/
def Ends (m : EStateM ε σ β) (s : σ) (Q : β → σ → Prop) (E : σ → Prop) : Prop :=
  match m s with
  | .ok b s' => Q b s'
  | .error _ s' => E s'

/-- If the operation ends with an answer, that and the state satisfy `Q`. -/
abbrev Yields (m : EStateM ε σ β) (s : σ) (Q : β → σ → Prop) : Prop := Ends m s Q fun _ => True

/-- The operation ends with an answer; that and the state satisfy `Q`. -/
abbrev Succeeds (m : EStateM ε σ β) (s : σ) (Q : β → σ → Prop) : Prop := Ends m s Q fun _ => False

/-- The operation ends in a state that satisfies `I`, whether it comes to an answer or halts. -/
abbrev EndsIn (m : EStateM ε σ β) (s : σ) (I : σ → Prop) : Prop := Ends m s (fun _ => I) I

/-- The operation has ended with an answer and a state that pass a test. -/
def endedWith (f : β → σ → Bool) : EStateM.Result ε σ β → Bool
  | .ok b s => f b s
  | .error _ _ => false

/-- What follows an operation goes on from where the operation has led. -/
theorem bind_of_ok {b : β} {s' : σ} (h : m s = .ok b s') : (m >>= f) s = f b s' := by
  show EStateM.bind m f s = _
  unfold EStateM.bind
  rw [h]

theorem exists_of_endedWith {f : β → σ → Bool} {r : EStateM.Result ε σ β} (h : endedWith f r) :
    ∃ b s, r = .ok b s ∧ f b s := by
  cases r with
  | ok b s => exact ⟨b, s, rfl, h⟩
  | error e s => cases h

namespace Ends

theorem of_ok (h : Ends m s Q E) {b : β} {s' : σ} (hm : m s = .ok b s') : Q b s' := by
  unfold Ends at h
  rwa [hm] at h

theorem of_error (h : Ends m s Q E) {e : ε} {s' : σ} (hm : m s = .error e s') : E s' := by
  unfold Ends at h
  rwa [hm] at h

theorem mono (h : Ends m s Q E) (hQ : ∀ b s', Q b s' → Q' b s') (hE : ∀ s', E s' → E' s') :
    Ends m s Q' E' := by
  unfold Ends at h ⊢
  cases hm : m s with
  | ok b s' =>
    rw [hm] at h
    exact hQ b s' h
  | error e s' =>
    rw [hm] at h
    exact hE s' h

/-- A weaker claim about the answer. -/
theorem imp (h : Ends m s Q E) (hQ : ∀ b s', Q b s' → Q' b s') : Ends m s Q' E :=
  h.mono hQ fun _ h => h

theorem yields (h : Succeeds m s Q) : Yields m s Q := h.mono (fun _ _ h => h) fun _ _ => trivial

/-- Two claims about the same operation. -/
theorem and (h : Ends m s Q E) (h' : Ends m s Q' E') :
    Ends m s (fun b s' => Q b s' ∧ Q' b s') fun s' => E s' ∧ E' s' := by
  unfold Ends at h h' ⊢
  cases hm : m s with
  | ok b s' =>
    rw [hm] at h h'
    exact ⟨h, h'⟩
  | error e s' =>
    rw [hm] at h h'
    exact ⟨h, h'⟩

/-- An operation that does not halt ends with the answer that it yields. -/
theorem both (h : Succeeds m s Q) (h' : Yields m s Q') :
    Succeeds m s fun b s' => Q b s' ∧ Q' b s' :=
  (h.and h').mono (fun _ _ h => h) fun _ h => h.1

/-- The operation ends with the answer and the state that are spoken of. -/
theorem and_ok (h : Ends m s Q E) : Ends m s (fun b s' => Q b s' ∧ m s = .ok b s') E := by
  unfold Ends at h ⊢
  cases hm : m s with
  | ok b s' =>
    rw [hm] at h
    exact ⟨h, rfl⟩
  | error e s' =>
    rw [hm] at h
    exact h

theorem exists_ok (h : Succeeds m s Q) : ∃ b s', m s = .ok b s' ∧ Q b s' := by
  unfold Succeeds Ends at h
  cases hm : m s with
  | ok b s' =>
    rw [hm] at h
    exact ⟨b, s', rfl, h⟩
  | error e s' =>
    rw [hm] at h
    cases h

theorem of_forall (hQ : ∀ b s', Q b s') (hE : ∀ s', E s') : Ends m s Q E := by
  unfold Ends
  cases m s with
  | ok b s' => exact hQ b s'
  | error e s' => exact hE s'

/-- Operations that come to the same end alike. -/
theorem of_run_eq {m' : EStateM ε σ β} {s₁ : σ} (heq : m s = m' s₁) (h : Ends m' s₁ Q E) :
    Ends m s Q E := by
  unfold Ends at h ⊢
  rwa [heq]

theorem any : Yields m s fun _ _ => True := of_forall (fun _ _ => trivial) fun _ => trivial

theorem pure {b : β} (h : Q b s) : Ends (pure b : EStateM ε σ β) s Q E := h

theorem throw {e : ε} (h : E s) : Ends (throw e : EStateM ε σ β) s Q E := h

theorem bind_iff : Ends (m >>= f) s R E ↔ Ends m s (fun b s' => Ends (f b) s' R E) E := by
  unfold Ends
  show (match EStateM.bind m f s with
    | .ok b s' => R b s'
    | .error _ s' => E s') ↔ _
  unfold EStateM.bind
  cases m s <;> exact .rfl

theorem bind (h : Ends m s (fun b s' => Ends (f b) s' R E) E) : Ends (m >>= f) s R E := bind_iff.2 h

theorem get {Q : σ → σ → Prop} (h : Q s s) : Ends (MonadState.get : EStateM ε σ σ) s Q E := h

theorem modify {Q : Unit → σ → Prop} {g : σ → σ} (h : Q () (g s)) :
    Ends (modify g : EStateM ε σ Unit) s Q E := h

theorem modifyGet {g : σ → β × σ} (h : Q (g s).1 (g s).2) :
    Ends (modifyGet g : EStateM ε σ β) s Q E := h

/-- What one pass of a loop preserves, the loop preserves. -/
theorem forM {α : Type} {l : List α} {g : α → EStateM ε σ Unit} {I : σ → Prop} (hs : I s)
    (h : ∀ a ∈ l, ∀ s, I s → Ends (g a) s (fun _ => I) E) : Ends (l.forM g) s (fun _ => I) E := by
  induction l generalizing s with
  | nil => exact .pure hs
  | cons a l ih =>
    refine .bind ((h a (by simp) s hs).imp fun _ s' hs' => ?_)
    exact ih hs' fun b hb => h b (by simp [hb])

end Ends

/-- The state in which the operation ends. -/
theorem EndsIn.of_ends {I : σ → Prop} {s' : σ} (h : EndsIn m s I)
    (hends : Ends m s (fun _ s₁ => s₁ = s') (· = s')) : I s' := by
  have hboth := h.and hends
  unfold Ends at hboth
  split at hboth <;> exact hboth.2 ▸ hboth.1

end Interleaving
