import Interleaving.Proofs.Reports

/-!
# Rounds that cover no node

Covering is looked at in one place, where a node may be covered instead of expanded. So a round that
covers no node is the same round with covering off (`Engine.runRound_withoutCovering`), and what holds
of such rounds holds of it.
-/

namespace Interleaving

namespace Engine

variable {β γ : Type} {p : Program} {e e' : Engine} {n : NodeId} {progress progress' : Progress}

/-- The engine with covering turned off. -/
def withoutCovering (e : Engine) : Engine :=
  { e with settings := { e.settings with covering := false } }

/-! ## Operations that do not look at covering -/

/-- With covering turned off, the operation gives the same answers, and leads to the same states. -/
def IgnoresCovering (op : EngineM β) : Prop :=
  ∀ e b e', op e = .ok b e' → op e.withoutCovering = .ok b e'.withoutCovering

/-- An operation that is followed by another one has ended, and the other one goes on from there. -/
theorem bind_eq_ok_iff {op : EngineM β} {f : β → EngineM γ} {c : γ} :
    (op >>= f) e = .ok c e' ↔ ∃ b e₁, op e = .ok b e₁ ∧ f b e₁ = .ok c e' := by
  show EStateM.bind op f e = .ok c e' ↔ _
  unfold EStateM.bind
  cases hop : op e with
  | ok b e₁ => simp
  | error h e₁ => simp

namespace IgnoresCovering

theorem pure (b : β) : IgnoresCovering (pure b : EngineM β) := by
  intro e b' e' h
  cases h
  rfl

theorem bind {op : EngineM β} {f : β → EngineM γ} (h : IgnoresCovering op)
    (hf : ∀ b, IgnoresCovering (f b)) : IgnoresCovering (op >>= f) := by
  intro e c e' hc
  obtain ⟨b, e₁, hb, hc⟩ := bind_eq_ok_iff.1 hc
  exact bind_eq_ok_iff.2 ⟨b, e₁.withoutCovering, h e b e₁ hb, hf b e₁ c e' hc⟩

/-- What is read of the engine is not whether covering is on. -/
theorem get_bind {f : Engine → EngineM β} (h : ∀ e, f e.withoutCovering = f e)
    (hf : ∀ e, IgnoresCovering (f e)) : IgnoresCovering (get >>= f) := by
  intro e b e' hb
  show f e.withoutCovering e.withoutCovering = _
  rw [h]
  exact hf e e b e' hb

theorem modify {f : Engine → Engine} (h : ∀ e, f e.withoutCovering = (f e).withoutCovering) :
    IgnoresCovering (modify f) := by
  intro e b e' hb
  cases hb
  show EStateM.Result.ok () (f e.withoutCovering) = _
  rw [h]

theorem onSearch (op : SearchM ProgramState Step Seeded Empty β) :
    IgnoresCovering (Engine.onSearch op) := by
  intro e b e' h
  obtain ⟨program, precision, settings, search, executed⟩ := e
  unfold Engine.onSearch at h ⊢
  dsimp only [withoutCovering] at h ⊢
  cases hop : op search with
  | ok b₁ search' =>
    rw [hop] at h
    cases h
    rfl
  | error halt search' =>
    rw [hop] at h
    cases h

theorem explore (op : Context ProgramState Step Empty → ExploreM Step Seeded Empty β) :
    IgnoresCovering (Engine.explore op) :=
  .get_bind (fun _ => rfl) fun _ => .onSearch _

theorem startRound : IgnoresCovering startRound := by
  unfold Engine.startRound
  refine .bind (.modify fun _ => rfl) fun _ => ?_
  exact .bind (.explore _) fun _ => .pure ()

theorem childFor (entry : SearchTree.Node ProgramState Step) (a : Step) :
    IgnoresCovering (childFor n entry a progress) := by
  unfold Engine.childFor
  refine .get_bind (fun _ => rfl) fun e => ?_
  split
  · exact .pure _
  · exact .bind (.onSearch _) fun _ => .pure _

theorem expand : IgnoresCovering (expand n progress) := by
  unfold Engine.expand
  refine .bind (.onSearch _) fun entry => .bind (.explore _) fun answer => ?_
  cases answer with
  | none =>
    refine .bind (.onSearch _) fun _ => .get_bind (fun _ => rfl) fun e => ?_
    split
    · exact .pure _
    · exact .pure _
  | some a =>
    refine .bind (.childFor entry a) fun (c, progress) => .bind (.onSearch _) fun _ => ?_
    refine .bind (.modify fun _ => rfl) fun _ => ?_
    exact .bind (.explore _) fun _ => .pure _

end IgnoresCovering

/-! ## Rounds that cover nothing -/

/-- Where a step is performed, no node gets covered. -/
theorem covered_of_expand (h : expand n progress e = .ok progress' e') :
    progress'.covered = progress.covered := by
  -- an old child and a new one are entered alike
  have henter : ∀ (c : NodeId) (a : Step) (p : Progress) (e : Engine),
      p.covered = progress.covered → Ends (do
        updateTree (·.setExpanded n true)
        modify fun e => { e with executed := e.executed.push a }
        let _ ← Engine.explore (Exploration.add · c)
        pure p) e (fun r _ => r.covered = progress.covered) fun _ => True := by
    intro c a p e hp
    refine .bind (.updateTree (.bind (.modify (.bind (.explore ?_ fun _ => trivial)))))
    exact .of_forall (fun _ _ => .pure hp) fun _ => trivial
  have hexpand : Ends (expand n progress) e (fun r _ => r.covered = progress.covered)
      fun _ => True := by
    unfold expand
    refine .bind (.lookUpEntry (fun entry _ => .bind (.explore ?_ fun _ => trivial)) trivial)
    refine .of_forall (fun answer x => ?_) fun _ => trivial
    cases answer with
    | none =>
      refine .bind (.updateTree (.bind (.get ?_)))
      split
      · exact .pure rfl
      · exact .pure rfl
    | some a => exact .bind (.childFor (fun c _ => henter c a _ _ rfl) fun _ => henter _ a _ _ rfl)
  exact hexpand.of_ok h

/-- A turn covers a node, or it is the same turn with covering turned off. -/
theorem roundTurn_withoutCovering {goesOn : Bool}
    (h : roundTurn progress e = .ok (goesOn, progress') e') :
    progress.covered < progress'.covered ∨ progress'.covered = progress.covered ∧
      roundTurn progress e.withoutCovering = .ok (goesOn, progress') e'.withoutCovering := by
  unfold roundTurn at h ⊢
  obtain ⟨empty, e₁, hempty, h⟩ := bind_eq_ok_iff.1 h
  rw [bind_eq_ok_iff]
  have hempty' := IgnoresCovering.explore _ e empty e₁ hempty
  cases empty with
  | true =>
    cases h
    exact .inr ⟨rfl, true, e'.withoutCovering, hempty', rfl⟩
  | false =>
    obtain ⟨_, _, hget, h⟩ := bind_eq_ok_iff.1 h
    cases hget
    by_cases hlimit : e₁.settings.maxExpansions ≤ progress.expansions
    · rw [if_pos hlimit] at h
      cases h
      refine .inr ⟨rfl, false, e'.withoutCovering, hempty', ?_⟩
      refine bind_eq_ok_iff.2 ⟨_, _, rfl, ?_⟩
      rw [if_pos (show e'.withoutCovering.settings.maxExpansions ≤ progress.expansions from hlimit)]
      rfl
    rw [if_neg hlimit] at h
    obtain ⟨n, e₂, hn, h⟩ := bind_eq_ok_iff.1 h
    obtain ⟨entry, e₃, hentry, h⟩ := bind_eq_ok_iff.1 h
    obtain ⟨_, _, hget, h⟩ := bind_eq_ok_iff.1 h
    cases hget
    cases hcovering : e₃.coveringFor n entry with
    | some c =>
      rw [hcovering] at h
      obtain ⟨_, _, -, h⟩ := bind_eq_ok_iff.1 h
      cases h
      exact .inl (Nat.lt_succ_self _)
    | none =>
      rw [hcovering] at h
      obtain ⟨progress₁, e₄, hexpand, h⟩ := bind_eq_ok_iff.1 h
      cases h
      have hkeeps := covered_of_expand hexpand
      -- the other turn does the same, and where it asks for a covering node there is none
      refine .inr ⟨hkeeps, false, _, hempty', ?_⟩
      refine bind_eq_ok_iff.2 ⟨_, _, rfl, ?_⟩
      rw [if_neg (show ¬e₁.withoutCovering.settings.maxExpansions ≤ progress.expansions from hlimit)]
      refine bind_eq_ok_iff.2 ⟨n, _, IgnoresCovering.explore _ _ _ _ hn, ?_⟩
      refine bind_eq_ok_iff.2 ⟨entry, _, IgnoresCovering.onSearch _ _ _ _ hentry, ?_⟩
      refine bind_eq_ok_iff.2 ⟨_, _, rfl, ?_⟩
      have hnone : e₃.withoutCovering.coveringFor n entry = none := by
        simp [coveringFor, withoutCovering]
      rw [hnone]
      exact bind_eq_ok_iff.2 ⟨_, _, IgnoresCovering.expand _ _ _ hexpand, rfl⟩

/-- The same of all turns together. -/
theorem continueRound_withoutCovering {turns : Nat}
    (h : continueRound turns progress e = .ok progress' e') :
    progress.covered < progress'.covered ∨ progress'.covered = progress.covered ∧
      continueRound turns progress e.withoutCovering = .ok progress' e'.withoutCovering := by
  induction turns generalizing progress e with
  | zero => cases h
  | succ turns ih =>
    unfold continueRound at h ⊢
    obtain ⟨⟨goesOn, progress₁⟩, e₁, hturn, h⟩ := bind_eq_ok_iff.1 h
    rw [bind_eq_ok_iff]
    have hturn' := roundTurn_withoutCovering hturn
    cases goesOn with
    | false =>
      cases h
      exact hturn'.imp_right fun hsame => ⟨hsame.1, _, _, hsame.2, rfl⟩
    | true =>
      rcases hturn' with hlt | ⟨heq, hturn'⟩
      · rcases ih h with hlt' | ⟨heq', -⟩
        · exact .inl (by omega)
        · exact .inl (by omega)
      · rcases ih h with hlt' | ⟨heq', h'⟩
        · exact .inl (by omega)
        · exact .inr ⟨heq'.trans heq, _, _, hturn', h'⟩

/-- A round that covers no node is the same round with covering turned off. -/
theorem runRound_withoutCovering {report : RoundReport} (h : runRound e = .ok report e')
    (hcovered : report.covered = 0) :
    runRound e.withoutCovering = .ok report e'.withoutCovering := by
  unfold runRound at h ⊢
  obtain ⟨_, e₁, hstart, h⟩ := bind_eq_ok_iff.1 h
  obtain ⟨_, _, hget, h⟩ := bind_eq_ok_iff.1 h
  cases hget
  obtain ⟨progress, e₂, hcontinue, h⟩ := bind_eq_ok_iff.1 h
  obtain ⟨_, _, hget, h⟩ := bind_eq_ok_iff.1 h
  cases hget
  cases h
  have hcovered : progress.covered = 0 := hcovered
  have hcontinue' := (continueRound_withoutCovering hcontinue).resolve_left (by omega)
  refine bind_eq_ok_iff.2 ⟨_, _, IgnoresCovering.startRound _ _ _ hstart, ?_⟩
  refine bind_eq_ok_iff.2 ⟨_, _, rfl, ?_⟩
  refine bind_eq_ok_iff.2 ⟨progress, _, hcontinue'.2, ?_⟩
  exact bind_eq_ok_iff.2 ⟨_, _, rfl, rfl⟩

end Engine

end Interleaving
