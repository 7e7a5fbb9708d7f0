/-!
# Paths of a step function

A system is a function `step : σ → α → Option σ`: in state `s` the action `x` is not possible
(`none`) or leads to one state. `StepPath step ok s acts s'` is a run: from `s` by the actions
`acts` to `s'`, each of them possible and allowed by the guard `ok` in the state it is taken
in. What one step preserves holds along a whole path (`StepPath.invariant`), and a step-by-step
correspondence with states of another system carries over to paths (`StepPath.simulate`).

A correspondence may also be kept along the path (`TracedPath`): every state then carries a note,
and whatever is shown of a part of the path speaks of the notes that the whole path has.

`exec` runs a list of actions; a successful execution is a path, for a guard that does not depend on
the state (`StepPath.of_exec`) or that a test establishes on the way (`StepPath.of_checked`).
-/

variable {σ α χ : Type}

/-- From `s` by `acts` to `s'`, every step possible and allowed. -/
inductive StepPath (step : σ → α → Option σ) (ok : σ → α → Prop) : σ → List α → σ → Prop
  | nil (s : σ) : StepPath step ok s [] s
  | cons {s s' t : σ} {x : α} {acts : List α} (hok : ok s x) (hstep : step s x = some s')
      (rest : StepPath step ok s' acts t) : StepPath step ok s (x :: acts) t

namespace StepPath

variable {step : σ → α → Option σ} {ok ok' : σ → α → Prop} {s t u : σ} {acts acts' : List α}

theorem append (h : StepPath step ok s acts t) (h' : StepPath step ok t acts' u) :
    StepPath step ok s (acts ++ acts') u := by
  induction h with
  | nil _ => exact h'
  | cons hok hstep _ ih => exact StepPath.cons hok hstep (ih h')

/-- A guard that allows more. -/
theorem mono (h : StepPath step ok s acts t) (himp : ∀ s x, ok s x → ok' s x) :
    StepPath step ok' s acts t := by
  induction h with
  | nil s => exact StepPath.nil s
  | cons hok hstep _ ih => exact StepPath.cons (himp _ _ hok) hstep ih

/-- What holds of every action may be added to the guard. -/
theorem restrict {q : α → Prop} (h : StepPath step ok s acts t) (hq : ∀ x ∈ acts, q x) :
    StepPath step (fun s x => ok s x ∧ q x) s acts t := by
  induction h with
  | nil s => exact StepPath.nil s
  | cons hok hstep _ ih =>
    refine StepPath.cons ⟨hok, hq _ List.mem_cons_self⟩ hstep (ih fun x hx => hq x ?_)
    exact List.mem_cons_of_mem _ hx

/-- **The invariant rule.** -/
theorem invariant {inv : σ → Prop}
    (hpres : ∀ s x s', inv s → ok s x → step s x = some s' → inv s')
    (h : StepPath step ok s acts t) (hs : inv s) : inv t := by
  induction h with
  | nil _ => exact hs
  | cons hok hstep _ ih => exact ih (hpres _ _ _ hs hok hstep)

/-- The invariant rule, for what is also known of the actions so far. -/
theorem invariant_along {I : List α → σ → Prop}
    (hpres : ∀ acts s x s', I acts s → ok s x → step s x = some s' → I (acts ++ [x]) s')
    (h : StepPath step ok s acts t) (hs : I [] s) : I acts t := by
  suffices hall : ∀ past, I past s → I (past ++ acts) t from hall [] hs
  clear hs
  induction h with
  | nil _ =>
    intro past hpast
    rwa [List.append_nil]
  | @cons s s' t x acts hok hstep _ ih =>
    intro past hpast
    rw [show past ++ x :: acts = (past ++ [x]) ++ acts from by simp]
    exact ih (past ++ [x]) (hpres past s x s' hpast hok hstep)

/-- **The simulation rule.** `le` relates the states of the other system before and after. -/
theorem simulate {R : χ → σ → Prop} {le : χ → χ → Prop} (hrefl : ∀ c, le c c)
    (htrans : ∀ {c d e}, le c d → le d e → le c e)
    (hpres : ∀ c s x s', R c s → ok s x → step s x = some s' → ∃ c', R c' s' ∧ le c c')
    (h : StepPath step ok s acts t) {c : χ} (hc : R c s) : ∃ c', R c' t ∧ le c c' := by
  induction h generalizing c with
  | nil _ => exact ⟨c, hc, hrefl c⟩
  | cons hok hstep _ ih =>
    obtain ⟨d, hd, hcd⟩ := hpres _ _ _ _ hc hok hstep
    obtain ⟨e, he, hde⟩ := ih hd
    exact ⟨e, he, htrans hcd hde⟩

end StepPath

/-! ## Paths with notes -/

/-- A path on which every state `s` carries a note `c`. -/
inductive TracedPath (T : χ → σ → α → χ → σ → Prop) : χ → σ → List α → χ → σ → Prop
  | nil (c : χ) (s : σ) : TracedPath T c s [] c s
  | cons {c c' d : χ} {s s' t : σ} {x : α} {acts : List α} (h : T c s x c' s')
      (rest : TracedPath T c' s' acts d t) : TracedPath T c s (x :: acts) d t

namespace TracedPath

variable {T : χ → σ → α → χ → σ → Prop} {c d : χ} {s t : σ} {acts acts' : List α}

theorem split (h : TracedPath T c s (acts ++ acts') d t) :
    ∃ b u, TracedPath T c s acts b u ∧ TracedPath T b u acts' d t := by
  induction acts generalizing c s with
  | nil => exact ⟨c, s, .nil c s, h⟩
  | cons x acts ih =>
    cases h with
    | cons hx rest =>
      obtain ⟨b, u, hfst, hsnd⟩ := ih rest
      exact ⟨b, u, .cons hx hfst, hsnd⟩

/-- The invariant rule, for states with their notes. -/
theorem invariant {I : χ → σ → Prop} (hpres : ∀ c s x c' s', I c s → T c s x c' s' → I c' s')
    (h : TracedPath T c s acts d t) (hs : I c s) : I d t := by
  induction h with
  | nil _ _ => exact hs
  | cons hx _ ih => exact ih (hpres _ _ _ _ _ hs hx)

theorem append (h : TracedPath T c s acts d t) {e : χ} {u : σ} (h' : TracedPath T d t acts' e u) :
    TracedPath T c s (acts ++ acts') e u := by
  induction h with
  | nil _ _ => exact h'
  | cons hx _ ih => exact .cons hx (ih h')

/-- The same, for what is also known of the actions so far. -/
theorem invariant_along {I : List α → χ → σ → Prop}
    (hpres : ∀ acts c s x c' s', I acts c s → T c s x c' s' → I (acts ++ [x]) c' s')
    (h : TracedPath T c s acts d t) (hs : I [] c s) : I acts d t := by
  suffices hall : ∀ past, I past c s → I (past ++ acts) d t from hall [] hs
  clear hs
  induction h with
  | nil _ _ =>
    intro past hpast
    rwa [List.append_nil]
  | @cons c c' d s s' t x acts hx _ ih =>
    intro past hpast
    rw [show past ++ x :: acts = (past ++ [x]) ++ acts from by simp]
    exact ih (past ++ [x]) (hpres past c s x c' s' hpast hx)

end TracedPath

/-- **Notes along a path.** -/
theorem StepPath.traced {step : σ → α → Option σ} {ok : σ → α → Prop} {s t : σ} {acts : List α}
    {R : χ → σ → Prop} {T : χ → σ → α → χ → σ → Prop}
    (hpres : ∀ c s x s', R c s → ok s x → step s x = some s' → ∃ c', R c' s' ∧ T c s x c' s')
    (h : StepPath step ok s acts t) {c : χ} (hc : R c s) :
    ∃ d, R d t ∧ TracedPath T c s acts d t := by
  induction h generalizing c with
  | nil s => exact ⟨c, hc, .nil c s⟩
  | cons hok hstep _ ih =>
    obtain ⟨c', hc', hT⟩ := hpres _ _ _ _ hc hok hstep
    obtain ⟨d, hd, hrest⟩ := ih hc'
    exact ⟨d, hd, .cons hT hrest⟩

/-! ## Paths of a relation -/

/-- From `s` to `t` by steps of a relation with the labels `acts`. -/
inductive RelPath (T : σ → α → σ → Prop) : σ → List α → σ → Prop
  | nil (s : σ) : RelPath T s [] s
  | cons {s s' t : σ} {x : α} {acts : List α} (h : T s x s') (rest : RelPath T s' acts t) :
      RelPath T s (x :: acts) t

/-- **The simulation rule** for labelled steps. -/
theorem RelPath.simulate {T : σ → α → σ → Prop} {T' : χ → α → χ → Prop} {R : σ → χ → Prop}
    (hpres : ∀ s x s' c, R s c → T s x s' → ∃ c', T' c x c' ∧ R s' c') {s t : σ} {acts : List α}
    (h : RelPath T s acts t) {c : χ} (hc : R s c) : ∃ d, RelPath T' c acts d ∧ R t d := by
  induction h generalizing c with
  | nil s => exact ⟨c, .nil c, hc⟩
  | cons hx _ ih =>
    obtain ⟨c', hT', hc'⟩ := hpres _ _ _ _ hc hx
    obtain ⟨d, hpath, hd⟩ := ih hc'
    exact ⟨d, .cons hT' hpath, hd⟩

/-! ## States that can be reached -/

/-- Some path leads from `s` to a state with `P`. -/
def Leads (step : σ → α → Option σ) (ok : σ → α → Prop) (s : σ) (P : σ → Prop) : Prop :=
  ∃ acts t, StepPath step ok s acts t ∧ P t

namespace Leads

variable {step : σ → α → Option σ} {ok ok' : σ → α → Prop} {s s' : σ} {x : α} {P Q I : σ → Prop}

theorem here (h : P s) : Leads step ok s P := ⟨[], s, .nil s, h⟩

/-- One step first. -/
theorem cons (hok : ok s x) (hstep : step s x = some s') (h : Leads step ok s' P) :
    Leads step ok s P := by
  obtain ⟨acts, t, hpath, ht⟩ := h
  exact ⟨x :: acts, t, .cons hok hstep hpath, ht⟩

/-- One path after the other. -/
theorem bind (h : Leads step ok s P) (hnext : ∀ t, P t → Leads step ok t Q) :
    Leads step ok s Q := by
  obtain ⟨acts, t, hpath, ht⟩ := h
  obtain ⟨acts', u, hpath', hu⟩ := hnext t ht
  exact ⟨acts ++ acts', u, hpath.append hpath', hu⟩

theorem imp (h : Leads step ok s P) (himp : ∀ t, P t → Q t) : Leads step ok s Q :=
  h.bind (fun t ht => here (himp t ht))

/-- An invariant of the steps holds in the end as well. -/
theorem keeping (h : Leads step ok s P)
    (hpres : ∀ s x s', I s → ok s x → step s x = some s' → I s') (hs : I s) :
    Leads step ok s (fun t => I t ∧ P t) := by
  obtain ⟨acts, t, hpath, ht⟩ := h
  exact ⟨acts, t, hpath, hpath.invariant hpres hs, ht⟩

/-- **One after the other**: what can be achieved for each element can be achieved for all, if
achieving it for one undoes it for none. -/
theorem each {β : Type} {P : β → σ → Prop} (l : List β)
    (hone : ∀ x ∈ l, ∀ s, I s → Leads step ok s (fun t => I t ∧ P x t ∧ ∀ y, P y s → P y t))
    (hs : I s) : Leads step ok s (fun t => I t ∧ (∀ y, P y s → P y t) ∧ ∀ x ∈ l, P x t) := by
  induction l generalizing s with
  | nil => exact here ⟨hs, fun _ hy => hy, fun x hx => by cases hx⟩
  | cons x rest ih =>
    refine (hone x List.mem_cons_self s hs).bind ?_
    rintro t ⟨ht, hx, hkeep⟩
    refine (ih (fun y hy => hone y (List.mem_cons_of_mem x hy)) ht).imp ?_
    rintro u ⟨hu, hkeep', hrest⟩
    refine ⟨hu, fun y hy => hkeep' y (hkeep y hy), fun y hy => ?_⟩
    rcases List.mem_cons.mp hy with rfl | hy
    · exact hkeep' _ hx
    · exact hrest y hy

end Leads

/-! ## Executions -/

/-- Run a list of actions. -/
def exec (step : σ → α → Option σ) (s : σ) : List α → Option σ
  | [] => some s
  | x :: acts => (step s x).bind (fun s' => exec step s' acts)

theorem StepPath.of_exec {step : σ → α → Option σ} {ok : σ → α → Prop} {s t : σ} {acts : List α}
    (hok : ∀ x ∈ acts, ∀ s, ok s x) (h : exec step s acts = some t) :
    StepPath step ok s acts t := by
  induction acts generalizing s with
  | nil =>
    cases h
    exact StepPath.nil _
  | cons x acts ih =>
    obtain ⟨s', hstep, hrest⟩ := Option.bind_eq_some_iff.mp h
    exact StepPath.cons (hok x (by simp) s) hstep (ih (fun y hy => hok y (by simp [hy])) hrest)

/-- A path is an execution. -/
theorem StepPath.exec_eq {step : σ → α → Option σ} {ok : σ → α → Prop} {s t : σ} {acts : List α}
    (h : StepPath step ok s acts t) : exec step s acts = some t := by
  induction h with
  | nil _ => rfl
  | cons _ hstep _ ih =>
    show (step _ _).bind _ = _
    rw [hstep]
    exact ih

/-- Every action passes the test in the state it is taken in. -/
def checked (step : σ → α → Option σ) (g : σ → α → Bool) (s : σ) : List α → Bool
  | [] => true
  | x :: acts => g s x && (step s x).all (fun s' => checked step g s' acts)

theorem StepPath.of_checked {step : σ → α → Option σ} {ok : σ → α → Prop} {g : σ → α → Bool}
    (hg : ∀ s x, g s x = true → ok s x) {s t : σ} {acts : List α}
    (hc : checked step g s acts = true) (h : exec step s acts = some t) :
    StepPath step ok s acts t := by
  induction acts generalizing s with
  | nil =>
    cases h
    exact StepPath.nil _
  | cons x acts ih =>
    obtain ⟨s', hstep, hrest⟩ := Option.bind_eq_some_iff.mp h
    unfold checked at hc
    rw [hstep, Bool.and_eq_true] at hc
    exact StepPath.cons (hg s x hc.1) hstep (ih hc.2 hrest)

/-- The states of a traced path are those of the execution. -/
theorem TracedPath.exec_eq {step : σ → α → Option σ} {T : χ → σ → α → χ → σ → Prop}
    (hT : ∀ {c s x c' s'}, T c s x c' s' → step s x = some s') {c d : χ} {s t : σ} {acts : List α}
    (h : TracedPath T c s acts d t) : exec step s acts = some t := by
  induction h with
  | nil _ _ => rfl
  | cons hx _ ih =>
    show (step _ _).bind _ = _
    rw [hT hx]
    exact ih
