import Mathlib.Data.List.Nodup
import Mathlib.Logic.Relation

/-!
# Runs up to the order of independent actions

Two runs count as the same if one is a reordering of the other that keeps the order of every two
dependent actions. Three notions carry the theory:

* `Precedes w a b`: the action `a` stands before `b` in the run `w`;
* `Starts D b w`: the action `b` occurs in `w`, and nothing that `b` depends on stands before it, so
  some reordering of `w` begins with `b` (`Starts.reorders`);
* `HappensBefore D w a b`: a chain of dependent actions leads from `a` to `b` in `w`.

No action occurs twice in a run of a program, so most statements are about lists without duplicates.
-/

namespace Interleaving

variable {α : Type}

/-! ## Splitting a list -/

/-- Of the members of a list with a property, one comes first. -/
theorem exists_first {w : List α} {P : α → Prop} (h : ∃ a ∈ w, P a) :
    ∃ x a y, w = x ++ a :: y ∧ P a ∧ ∀ c ∈ x, ¬P c := by
  induction w with
  | nil => simp at h
  | cons b w ih =>
    by_cases hb : P b
    · exact ⟨[], b, w, rfl, hb, by simp⟩
    · obtain ⟨a, ha, hPa⟩ := h
      have haw : a ∈ w := by
        rcases List.mem_cons.1 ha with rfl | ha
        · exact absurd hPa hb
        · exact ha
      obtain ⟨x, a, y, rfl, hPa, hx⟩ := ih ⟨a, haw, hPa⟩
      refine ⟨b :: x, a, y, rfl, hPa, fun c hc => ?_⟩
      rcases List.mem_cons.1 hc with rfl | hc
      · exact hb
      · exact hx c hc

/-- And one comes last. -/
theorem exists_final {w : List α} {P : α → Prop} (h : ∃ a ∈ w, P a) :
    ∃ x a y, w = x ++ a :: y ∧ P a ∧ ∀ c ∈ y, ¬P c := by
  obtain ⟨y, a, x, hsplit, ha, hy⟩ := exists_first (w := w.reverse) (by simpa using h)
  refine ⟨x.reverse, a, y.reverse, ?_, ha, fun c hc => hy c (List.mem_reverse.1 hc)⟩
  rw [← List.reverse_reverse w, hsplit]
  simp

/-- Of the beginnings of a list with a property, one is shortest. -/
theorem exists_shortest {w : List α} {P : List α → Prop} (h : P w) :
    ∃ x y, w = x ++ y ∧ P x ∧ ∀ x₁ c x₂, x = x₁ ++ c :: x₂ → ¬P x₁ := by
  induction w generalizing P with
  | nil => exact ⟨[], [], rfl, h, by simp⟩
  | cons b w ih =>
    by_cases hnil : P []
    · exact ⟨[], b :: w, rfl, hnil, by simp⟩
    · obtain ⟨x, y, rfl, hx, hshorter⟩ := ih (P := fun x => P (b :: x)) h
      refine ⟨b :: x, y, rfl, hx, fun x₁ c x₂ hsplit => ?_⟩
      cases x₁ with
      | nil => exact hnil
      | cons d x₁ =>
        rw [List.cons_append, List.cons.injEq] at hsplit
        obtain ⟨rfl, hsplit⟩ := hsplit
        exact hshorter x₁ c x₂ hsplit

/-- A list splits at each of its members. -/
theorem eq_take_append_cons_drop {w : List α} {a : α} {i : Nat} (h : w[i]? = some a) :
    w = w.take i ++ a :: w.drop (i + 1) := by
  obtain ⟨hlt, hget⟩ := List.getElem?_eq_some_iff.1 h
  conv_lhs => rw [← List.take_append_drop i w, List.drop_eq_getElem_cons hlt, hget]

/-- Where a list ends in `a`, each of its members is this end or stands before it. -/
theorem end_or_inner_of_split {l x y : List α} {a b : α} (h : l ++ [a] = x ++ b :: y) :
    l = x ∧ a = b ∧ y = [] ∨ ∃ y', y = y' ++ [a] ∧ l = x ++ b :: y' := by
  rcases List.eq_nil_or_concat y with rfl | ⟨y', c, rfl⟩
  · obtain ⟨hl, hab⟩ := List.append_inj' h rfl
    exact .inl ⟨hl, List.singleton_inj.1 hab, rfl⟩
  · rw [List.concat_eq_append, ← List.cons_append, ← List.append_assoc] at h
    obtain ⟨hl, hac⟩ := List.append_inj' h rfl
    exact .inr ⟨y', by rw [List.concat_eq_append, List.singleton_inj.1 hac], hl⟩

/-- Where two lists come together in a split of which the middle is not in the first one, the split is
one of the second. -/
theorem exists_split_right {u v x y : List α} {b : α} (h : u ++ v = x ++ b :: y) (hb : b ∉ u) :
    ∃ z, x = u ++ z ∧ v = z ++ b :: y := by
  rcases List.append_eq_append_iff.1 h with ⟨z, hx, hv⟩ | ⟨z, hu, hv⟩
  · exact ⟨z, hx, hv⟩
  · cases z with
    | nil => exact ⟨[], by simpa using hu.symm, by simpa using hv.symm⟩
    | cons c z =>
      obtain ⟨rfl, -⟩ := List.cons.inj hv
      exact absurd (by simp [hu]) hb

/-! ## Which of two actions comes first -/

/-- `a` stands before `b` in a list. -/
def Precedes (w : List α) (a b : α) : Prop := [a, b].Sublist w

namespace Precedes

variable {w w' x y : List α} {a b c e : α}

instance [DecidableEq α] : Decidable (Precedes w a b) := inferInstanceAs (Decidable ([a, b].Sublist w))

theorem mem_left (h : Precedes w a b) : a ∈ w := h.subset (by simp)

theorem mem_right (h : Precedes w a b) : b ∈ w := h.subset (by simp)

theorem of_sublist (h : Precedes w a b) (hw : w.Sublist w') : Precedes w' a b := h.trans hw

@[simp] theorem not_nil : ¬Precedes [] a b := by
  intro h
  simpa using h.mem_left

theorem cons_iff : Precedes (c :: w) a b ↔ a = c ∧ b ∈ w ∨ Precedes w a b := by
  unfold Precedes
  rw [List.sublist_cons_iff]
  constructor
  · rintro (h | ⟨r, hr, h⟩)
    · exact .inr h
    · simp only [List.cons.injEq] at hr
      obtain ⟨rfl, rfl⟩ := hr
      exact .inl ⟨rfl, by simpa using h⟩
  · rintro (⟨rfl, h⟩ | h)
    · exact .inr ⟨[b], rfl, by simpa using h⟩
    · exact .inl h

theorem append_iff :
    Precedes (x ++ y) a b ↔ Precedes x a b ∨ Precedes y a b ∨ a ∈ x ∧ b ∈ y := by
  induction x with
  | nil => simp
  | cons c x ih =>
    rw [List.cons_append, cons_iff, cons_iff, ih, List.mem_append, List.mem_cons]
    constructor
    · rintro (⟨rfl, hb | hb⟩ | h | h | ⟨ha, hb⟩)
      · exact .inl (.inl ⟨rfl, hb⟩)
      · exact .inr (.inr ⟨.inl rfl, hb⟩)
      · exact .inl (.inr h)
      · exact .inr (.inl h)
      · exact .inr (.inr ⟨.inr ha, hb⟩)
    · rintro ((⟨rfl, hb⟩ | h) | h | ⟨rfl | ha, hb⟩)
      · exact .inl ⟨rfl, .inl hb⟩
      · exact .inr (.inl h)
      · exact .inr (.inr (.inl h))
      · exact .inl ⟨rfl, .inr hb⟩
      · exact .inr (.inr (.inr ⟨ha, hb⟩))

/-- In a list without duplicates, no action stands before itself. -/
theorem ne (h : Precedes w a b) (hw : w.Nodup) : a ≠ b := by
  rintro rfl
  exact List.nodup_iff_sublist.1 hw a h

/-- Of two different actions of a list, one stands before the other. -/
theorem total (ha : a ∈ w) (hb : b ∈ w) (hab : a ≠ b) : Precedes w a b ∨ Precedes w b a := by
  induction w with
  | nil => simp at ha
  | cons c w ih =>
    rw [cons_iff, cons_iff]
    rcases List.mem_cons.1 ha with rfl | ha' <;> rcases List.mem_cons.1 hb with rfl | hb'
    · exact absurd rfl hab
    · exact .inl (.inl ⟨rfl, hb'⟩)
    · exact .inr (.inl ⟨rfl, ha'⟩)
    · rcases ih ha' hb' with h | h
      · exact .inl (.inr h)
      · exact .inr (.inr h)

theorem asymm (hw : w.Nodup) (h : Precedes w a b) : ¬Precedes w b a := by
  induction w with
  | nil => simp at h
  | cons c w ih =>
    obtain ⟨hc, hw⟩ := List.nodup_cons.1 hw
    intro h'
    rcases cons_iff.1 h with ⟨rfl, hb⟩ | h₁ <;> rcases cons_iff.1 h' with ⟨rfl, ha⟩ | h₂
    · exact hc hb
    · exact hc h₂.mem_right
    · exact hc h₁.mem_right
    · exact ih hw h₁ h₂

/-- What stands before a member of the first part stands in the first part. -/
theorem mem_of_mem_left (hw : (x ++ y).Nodup) (h : Precedes (x ++ y) a b) (hb : b ∈ x) : a ∈ x := by
  rcases append_iff.1 h with h | h | ⟨h, _⟩
  · exact h.mem_left
  · exact absurd rfl ((List.nodup_append.1 hw).2.2 b hb b h.mem_right)
  · exact h

/-- What stands after a member of the last part stands in that part, in the same order. -/
theorem of_append_right (hw : (x ++ y).Nodup) (h : Precedes (x ++ y) a b) (ha : a ∈ y) :
    Precedes y a b := by
  have hax : a ∉ x := fun hax => (List.nodup_append.1 hw).2.2 a hax a ha rfl
  rcases append_iff.1 h with h | h | ⟨h, -⟩
  · exact absurd h.mem_left hax
  · exact h
  · exact absurd h hax

/-- What stands after a member stands on the right of it, if that member is on the right or the member
itself. -/
theorem mem_right_of_cons (h : Precedes (e :: w) a b) : b ∈ w := by
  rcases cons_iff.1 h with ⟨-, hb⟩ | h
  · exact hb
  · exact h.mem_right

/-- Two members of a part stand in the same order in the part as in the whole. -/
theorem of_precedes_of_sublist (hw : w'.Nodup) (h : Precedes w' a b) (hsub : w.Sublist w')
    (ha : a ∈ w) (hb : b ∈ w) : Precedes w a b := by
  rcases total ha hb (h.ne hw) with h' | h'
  · exact h'
  · exact absurd (h'.of_sublist hsub) (h.asymm hw)

/-- What stands before a member is what the list has on its left. -/
theorem split_left_iff (hw : (x ++ e :: y).Nodup) : Precedes (x ++ e :: y) a e ↔ a ∈ x := by
  have he : e ∉ x ∧ e ∉ y := by
    have := List.nodup_middle.1 hw
    rw [List.nodup_cons, List.mem_append] at this
    exact not_or.1 this.1
  rw [append_iff, cons_iff]
  constructor
  · rintro (h | (⟨rfl, h⟩ | h) | ⟨h, _⟩)
    · exact absurd h.mem_right he.1
    · exact absurd h he.2
    · exact absurd h.mem_right he.2
    · exact h
  · exact fun h => .inr (.inr ⟨h, by simp⟩)

end Precedes

/-! ## What a run can be reordered to start with -/

/-- `b` occurs in `w`, and `b` depends on nothing that stands before it. -/
def Starts (D : α → α → Prop) (b : α) (w : List α) : Prop :=
  ∃ x y, w = x ++ b :: y ∧ ∀ c ∈ x, ¬D b c

namespace Starts

variable {D : α → α → Prop} {a b c : α} {w x y : List α}

theorem mem (h : Starts D b w) : b ∈ w := by
  obtain ⟨x, y, rfl, -⟩ := h
  simp

theorem head : Starts D b (b :: w) := ⟨[], w, rfl, by simp⟩

@[simp] theorem not_nil : ¬Starts D b [] := fun h => by simpa using h.mem

/-- The first action of a run decides, unless `b` depends on it. -/
theorem cons_iff : Starts D b (c :: w) ↔ b = c ∨ ¬D b c ∧ Starts D b w := by
  constructor
  · rintro ⟨_ | ⟨d, x⟩, y, hw, hx⟩
    · simp only [List.nil_append, List.cons.injEq] at hw
      exact .inl hw.1.symm
    · simp only [List.cons_append, List.cons.injEq] at hw
      obtain ⟨rfl, rfl⟩ := hw
      exact .inr ⟨hx c (by simp), x, y, rfl, fun d hd => hx d (by simp [hd])⟩
  · rintro (rfl | ⟨hc, x, y, rfl, hx⟩)
    · exact head
    · refine ⟨c :: x, y, rfl, fun d hd => ?_⟩
      rcases List.mem_cons.1 hd with rfl | hd
      · exact hc
      · exact hx d hd

/-- What starts a run also starts every run that extends it. -/
theorem append (h : Starts D b x) : Starts D b (x ++ y) := by
  obtain ⟨u, v, rfl, hu⟩ := h
  exact ⟨u, v ++ y, by simp, hu⟩

/-- If `b` starts a run, it does so without the last action, or is the last action itself. -/
theorem of_snoc (h : Starts D b (x ++ [a])) : Starts D b x ∨ b = a ∧ ∀ c ∈ x, ¬D b c := by
  obtain ⟨u, v, hsplit, hu⟩ := h
  rcases end_or_inner_of_split hsplit with ⟨rfl, rfl, -⟩ | ⟨v', -, hx⟩
  · exact .inr ⟨rfl, hu⟩
  · exact .inl ⟨u, v', hx, hu⟩

/-- What starts a run starts its first part, or occurs in the rest. -/
theorem of_append (h : Starts D b (x ++ y)) : Starts D b x ∨ b ∈ y := by
  obtain ⟨u, v, hsplit, hu⟩ := h
  rcases List.append_eq_append_iff.1 hsplit with ⟨u', -, rfl⟩ | ⟨v', rfl, hv⟩
  · simp
  · cases v' with
    | nil => exact .inr (by simp [← show b :: v = y from hv])
    | cons c v' =>
      obtain ⟨rfl, rfl⟩ := List.cons.inj hv
      exact .inl ⟨u, v', rfl, hu⟩

/-- What starts a run also starts it without other actions. -/
theorem filter {P : α → Bool} (h : Starts D b w) (hb : P b) : Starts D b (w.filter P) := by
  induction w with
  | nil => exact absurd h not_nil
  | cons c w ih =>
    rcases cons_iff.1 h with rfl | ⟨hc, h⟩
    · rw [List.filter_cons_of_pos hb]
      exact head
    · by_cases hP : P c
      · rw [List.filter_cons_of_pos hP]
        exact cons_iff.2 (.inr ⟨hc, ih h⟩)
      · rw [List.filter_cons_of_neg hP]
        exact ih h

/-- Actions may be put in that nothing after them depends on. -/
theorem of_filter {P : α → Bool} (hP : ∀ c ∈ w, P c = false → ∀ d, Precedes w c d → ¬D d c)
    (h : Starts D b (w.filter P)) : Starts D b w := by
  induction w with
  | nil => exact absurd h not_nil
  | cons c w ih =>
    have hw : ∀ d ∈ w, P d = false → ∀ a, Precedes w d a → ¬D a d := fun d hd hPd a hda =>
      hP d (List.mem_cons_of_mem c hd) hPd a (Precedes.cons_iff.2 (.inr hda))
    by_cases hc : P c
    · rw [List.filter_cons_of_pos hc] at h
      exact cons_iff.2 ((cons_iff.1 h).imp_right fun h => ⟨h.1, ih hw h.2⟩)
    · rw [List.filter_cons_of_neg hc] at h
      have hb := ih hw h
      refine cons_iff.2 (.inr ⟨?_, hb⟩)
      exact hP c List.mem_cons_self (Bool.eq_false_iff.2 hc) b (Precedes.cons_iff.2 (.inl ⟨rfl, hb.mem⟩))

/-- In a run without duplicates, `b` starts the run if nothing that it depends on stands before. -/
theorem iff_of_nodup (hw : w.Nodup) :
    Starts D b w ↔ b ∈ w ∧ ∀ c, Precedes w c b → ¬D b c := by
  constructor
  · rintro ⟨x, y, rfl, hx⟩
    exact ⟨by simp, fun c hc => hx c ((Precedes.split_left_iff hw).1 hc)⟩
  · rintro ⟨hb, h⟩
    obtain ⟨x, y, rfl⟩ := List.append_of_mem hb
    exact ⟨x, y, rfl, fun c hc => h c ((Precedes.split_left_iff hw).2 hc)⟩

end Starts

/-- The first action of `w` that `a` depends on is `e`, which is another one, and `v` comes before
it. -/
structure Meets (D : α → α → Prop) (a : α) (w v : List α) (e : α) : Prop where
  split : ∃ x, w = v ++ e :: x
  independent : ∀ c ∈ v, ¬D a c
  depends : D a e
  ne : e ≠ a

/-- An action starts a run, or depends on nothing in it, or meets another one. -/
theorem exists_meets {D : α → α → Prop} {a : α} {w : List α} (h : ¬Starts D a w)
    (h' : ¬∀ c ∈ w, ¬D a c) : ∃ v e, Meets D a w v e := by
  simp only [not_forall, not_not] at h'
  obtain ⟨c, hc, hac⟩ := h'
  obtain ⟨v, e, x, rfl, he, hv⟩ := exists_first ⟨c, hc, hac⟩
  refine ⟨v, e, ⟨x, rfl⟩, hv, he, ?_⟩
  rintro rfl
  exact h ⟨v, x, rfl, hv⟩

/-! ## Reorderings -/

/-- `w'` has the actions of `w`, those that depend on each other in the same order. -/
structure Reorders (D : α → α → Prop) (w w' : List α) : Prop where
  perm : w.Perm w'
  keeps : ∀ a b, D a b → Precedes w a b → Precedes w' a b

namespace Reorders

variable {D : α → α → Prop} {a b : α} {w w' w'' x y : List α}

theorem refl (w : List α) : Reorders D w w := ⟨.refl w, fun _ _ _ h => h⟩

theorem trans (h : Reorders D w w') (h' : Reorders D w' w'') : Reorders D w w'' :=
  ⟨h.perm.trans h'.perm, fun a b hab hw => h'.keeps a b hab (h.keeps a b hab hw)⟩

theorem nodup (h : Reorders D w w') (hw : w.Nodup) : w'.Nodup := h.perm.nodup_iff.1 hw

theorem mem_iff (h : Reorders D w w') : a ∈ w ↔ a ∈ w' := h.perm.mem_iff

theorem cons (h : Reorders D w w') : Reorders D (a :: w) (a :: w') where
  perm := h.perm.cons a
  keeps b c hbc hw := by
    rcases Precedes.cons_iff.1 hw with ⟨rfl, hc⟩ | hw
    · exact Precedes.cons_iff.2 (.inl ⟨rfl, h.mem_iff.1 hc⟩)
    · exact Precedes.cons_iff.2 (.inr (h.keeps b c hbc hw))

theorem append_right (h : Reorders D w w') (x : List α) : Reorders D (w ++ x) (w' ++ x) where
  perm := h.perm.append_right x
  keeps a b hab hw := by
    rw [Precedes.append_iff] at hw ⊢
    rw [← h.mem_iff]
    exact hw.imp_left (h.keeps a b hab)

/-- Two reorderings with the same first action are reorderings without it. -/
theorem of_cons (h : Reorders D (a :: w) (a :: w')) (hw : (a :: w).Nodup) : Reorders D w w' where
  perm := h.perm.cons_inv
  keeps b c hbc hb := by
    rcases Precedes.cons_iff.1 (h.keeps b c hbc (Precedes.cons_iff.2 (.inr hb))) with ⟨rfl, -⟩ | hb'
    · exact absurd hb.mem_left (List.nodup_cons.1 hw).1
    · exact hb'

/-- The order of two dependent actions is the same in both runs. -/
theorem precedes_iff (h : Reorders D w w') (hw : w.Nodup) (hab : D a b) (hba : D b a) :
    Precedes w a b ↔ Precedes w' a b := by
  refine ⟨h.keeps a b hab, fun h' => ?_⟩
  have hne := h'.ne (h.nodup hw)
  rcases Precedes.total (h.mem_iff.2 h'.mem_left) (h.mem_iff.2 h'.mem_right) hne with h₁ | h₁
  · exact h₁
  · exact absurd (h.keeps b a hba h₁) (h'.asymm (h.nodup hw))

/-- If an action comes before another one that it is dependent with in one run, then in the other
too. -/
theorem mem_of_split {u v : List α} (h : Reorders D (x ++ b :: u) (y ++ b :: v))
    (hw : (x ++ b :: u).Nodup) (hab : D a b) (hba : D b a) : a ∈ x ↔ a ∈ y := by
  rw [← Precedes.split_left_iff hw, ← Precedes.split_left_iff (h.nodup hw)]
  exact h.precedes_iff hw hab hba

theorem symm (h : Reorders D w w') (hw : w.Nodup) (hD : ∀ a b, D a b → D b a) :
    Reorders D w' w :=
  ⟨h.perm.symm, fun _ _ hab h' => (h.precedes_iff hw hab (hD _ _ hab)).2 h'⟩

end Reorders

/-- A run can be reordered to begin with an action that starts it. -/
theorem Starts.reorders {D : α → α → Prop} {b : α} {x y : List α} (hx : ∀ c ∈ x, ¬D c b) :
    Reorders D (x ++ b :: y) (b :: (x ++ y)) where
  perm := List.perm_middle
  keeps a c hac h := by
    rw [Precedes.append_iff, Precedes.cons_iff] at h
    rw [Precedes.cons_iff, Precedes.append_iff, List.mem_append]
    rcases h with h | (h | h) | ⟨ha, hc⟩
    · exact .inr (.inl h)
    · exact .inl ⟨h.1, .inr h.2⟩
    · exact .inr (.inr (.inl h))
    · rcases List.mem_cons.1 hc with rfl | hc
      · exact absurd hac (hx a ha)
      · exact .inr (.inr (.inr ⟨ha, hc⟩))

/-- Reordering does not change what starts a run. -/
theorem Starts.of_reorders {D : α → α → Prop} {b : α} {w w' : List α} (h : Starts D b w)
    (hw : w.Nodup) (hD : ∀ a b, D a b → D b a) (hr : Reorders D w w') : Starts D b w' := by
  obtain ⟨hb, hbefore⟩ := (Starts.iff_of_nodup hw).1 h
  refine (Starts.iff_of_nodup (hr.nodup hw)).2 ⟨hr.mem_iff.1 hb, fun c hc hbc => ?_⟩
  exact hbefore c ((hr.precedes_iff hw (hD b c hbc) hbc).2 hc) hbc

/-! ## Chains of dependent actions -/

/-- A chain of dependent actions, each before the next in `w`, leads from `a` to `b`. -/
def HappensBefore (D : α → α → Prop) (w : List α) : α → α → Prop :=
  Relation.TransGen fun a b => Precedes w a b ∧ D a b

namespace HappensBefore

variable {D : α → α → Prop} {w l : List α} {a b : α}

theorem mem_right (h : HappensBefore D w a b) : b ∈ w := by
  obtain ⟨c, -, hcb⟩ := Relation.TransGen.tail'_iff.1 h
  exact hcb.1.mem_right

/-- What `a` happens before is in every list that chains from `a` do not leave. -/
theorem mem_of_closed (h : HappensBefore D w a b)
    (hclosed : ∀ c ∈ w, ∀ d ∈ w, Precedes w c d → D c d → c ∈ a :: l → d ∈ l) : b ∈ l := by
  have hstep : ∀ c d, Precedes w c d ∧ D c d → c ∈ a :: l → d ∈ l := fun c d hcd =>
    hclosed c hcd.1.mem_left d hcd.1.mem_right hcd.1 hcd.2
  induction h with
  | single hab => exact hstep _ _ hab List.mem_cons_self
  | tail _ hcd ih => exact hstep _ _ hcd (List.mem_cons_of_mem a ih)

/-- What happens before `b` is in every list that chains to `b` do not enter from outside. -/
theorem mem_of_closed_left (h : HappensBefore D w a b)
    (hclosed : ∀ c ∈ w, ∀ d ∈ w, Precedes w c d → D c d → d ∈ b :: l → c ∈ l) : a ∈ l := by
  have hstep : ∀ c d, Precedes w c d ∧ D c d → d ∈ b :: l → c ∈ l := fun c d hcd =>
    hclosed c hcd.1.mem_left d hcd.1.mem_right hcd.1 hcd.2
  induction h using Relation.TransGen.head_induction_on with
  | single hab => exact hstep _ _ hab List.mem_cons_self
  | head hcd _ ih => exact hstep _ _ hcd (List.mem_cons_of_mem b ih)

/-- A chain leads to what stands on the right. -/
theorem mem_of_append {x y : List α} (h : HappensBefore D (x ++ a :: y) a b)
    (hw : (x ++ a :: y).Nodup) : b ∈ y :=
  h.mem_of_closed fun _ _ _ _ hcd _ hc => (hcd.of_append_right hw hc).mem_right_of_cons

/-- The last link of a chain to the end of a list. -/
theorem exists_last {e : α} (h : HappensBefore D (w ++ [e]) a e) (hw : (w ++ [e]).Nodup) :
    ∃ c ∈ w, D c e ∧ (c = a ∨ HappensBefore D w a c) := by
  obtain ⟨c, hac, hce, hD⟩ := Relation.TransGen.tail'_iff.1 h
  have hmem : ∀ {b d}, Precedes (w ++ [e]) b d → b ∈ w := by
    intro b d hbd
    rcases Precedes.append_iff.1 hbd with hbd | hbd | ⟨hb, -⟩
    · exact hbd.mem_left
    · simp [Precedes.cons_iff] at hbd
    · exact hb
  refine ⟨c, hmem hce, hD, ?_⟩
  rcases Relation.reflTransGen_iff_eq_or_transGen.1 hac with heq | hac
  · exact .inl heq
  · refine .inr ?_
    -- the chain does not come to the end before
    have hinner : ∀ {d}, HappensBefore D (w ++ [e]) a d → d ∈ w → HappensBefore D w a d := by
      intro d had
      induction had with
      | single had =>
        exact fun hd => .single ⟨had.1.of_precedes_of_sublist hw (List.sublist_append_left w _)
          (hmem had.1) hd, had.2⟩
      | tail _ hbd ih =>
        exact fun hd => (ih (hmem hbd.1)).tail ⟨hbd.1.of_precedes_of_sublist hw
          (List.sublist_append_left w _) (hmem hbd.1) hd, hbd.2⟩
    exact hinner hac (hmem hce)

end HappensBefore

end Interleaving
