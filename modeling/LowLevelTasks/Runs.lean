import Mathlib.Algebra.Order.Group.Defs
import Mathlib.Tactic.Abel
import Mathlib.Tactic.Common

/-!
Runs of a system whose step is a partial function of the state and a label.

The label carries every choice the scheduler or the environment makes, so a list of labels
is a schedule, and a property of all interleavings is a property of all lists of labels.
-/

namespace LowLevelTasks.Runs

variable {σ ι : Type*} (step : σ → ι → Option σ)

/-- The state after the labels `as`, if every one of them is enabled in its turn. -/
def run : σ → List ι → Option σ
  | s, [] => some s
  | s, a :: as => (step s a).bind fun s' => run s' as

/-- Every step of the run along `as` is taken in a state that meets the condition `ok`. -/
def Always (ok : σ → ι → Prop) : σ → List ι → Prop
  | _, [] => True
  | s, a :: as => ok s a ∧ ∀ s', step s a = some s' → Always ok s' as

/-- The sum of the weights of the steps of the run along `as`. -/
def total {M : Type*} [AddCommGroup M] (w : σ → ι → M) : σ → List ι → M
  | _, [] => 0
  | s, a :: as => w s a + (step s a).elim 0 fun s' => total w s' as

variable {step}

@[simp] lemma run_nil (s : σ) : run step s [] = some s := rfl

lemma run_cons (s : σ) (a : ι) (as : List ι) :
    run step s (a :: as) = (step s a).bind fun s' => run step s' as := rfl

lemma run_cons_some {s t : σ} {a : ι} {as : List ι} (h : run step s (a :: as) = some t) :
    ∃ s', step s a = some s' ∧ run step s' as = some t := by
  rw [run_cons, Option.bind_eq_some_iff] at h
  exact h

lemma run_cons_of_step {s s' : σ} {a : ι} (h : step s a = some s') (as : List ι) :
    run step s (a :: as) = run step s' as := by
  rw [run_cons, h]; rfl

lemma run_append (s : σ) (as bs : List ι) :
    run step s (as ++ bs) = (run step s as).bind fun s' => run step s' bs := by
  induction as generalizing s with
  | nil => rfl
  | cons a as ih =>
    rw [List.cons_append, run_cons, run_cons, Option.bind_assoc]
    congr 1
    funext s'
    exact ih s'

lemma run_append_of_run {s s' : σ} {as : List ι} (h : run step s as = some s') (bs : List ι) :
    run step s (as ++ bs) = run step s' bs := by
  rw [run_append, h]; rfl

/-- A queue is worked off from its front if its elements can be taken there one by one. -/
lemma run_queue {κ : Type*} (queue : List κ → σ) (label : κ → ι) {good : κ → Prop}
    (h : ∀ c rest, good c → step (queue (c :: rest)) (label c) = some (queue rest)) {cs : List κ}
    (hcs : ∀ c ∈ cs, good c) (rest : List κ) :
    run step (queue (cs ++ rest)) (cs.map label) = some (queue rest) := by
  induction cs with
  | nil => rfl
  | cons c cs ih =>
    rw [List.forall_mem_cons] at hcs
    rw [List.cons_append, List.map_cons, run_cons_of_step (h c _ hcs.1), ih hcs.2]

lemma Always.imp {ok ok' : σ → ι → Prop} (h : ∀ s a, ok s a → ok' s a) {s : σ} {as : List ι}
    (hok : Always step ok s as) : Always step ok' s as := by
  induction as generalizing s with
  | nil => trivial
  | cons a as ih => exact ⟨h s a hok.1, fun s' hs' => ih (hok.2 s' hs')⟩

lemma always_of_forall {ok : σ → ι → Prop} (h : ∀ s a, ok s a) (s : σ) (as : List ι) :
    Always step ok s as := by
  induction as generalizing s with
  | nil => trivial
  | cons a as ih => exact ⟨h s a, fun s' _ => ih s'⟩

instance decidableAlways {ok : σ → ι → Prop} [∀ s a, Decidable (ok s a)] :
    ∀ (s : σ) (as : List ι), Decidable (Always step ok s as)
  | _, [] => isTrue trivial
  | s, a :: as =>
    match h : step s a with
    | none =>
      decidable_of_iff (ok s a) ⟨fun hok => ⟨hok, fun _ hs' => by simp [h] at hs'⟩, And.left⟩
    | some s' =>
      have : Decidable (Always step ok s' as) := decidableAlways s' as
      decidable_of_iff (ok s a ∧ Always step ok s' as)
        ⟨fun hok => ⟨hok.1, fun t ht => by
            obtain rfl : s' = t := Option.some.inj (h.symm.trans ht)
            exact hok.2⟩,
          fun hok => ⟨hok.1, hok.2 s' h⟩⟩

section Invariants

variable {ok : σ → ι → Prop} {P : σ → Prop}

/-- **The conditional invariant rule.** What every step that meets the condition preserves
holds at the end of every run all of whose steps meet it. -/
theorem invariant_of_always
    (hstep : ∀ s a s', P s → ok s a → step s a = some s' → P s')
    {s t : σ} {as : List ι} (hs : P s) (hok : Always step ok s as)
    (hrun : run step s as = some t) : P t := by
  induction as generalizing s with
  | nil =>
    rw [run_nil, Option.some.injEq] at hrun
    exact hrun ▸ hs
  | cons a as ih =>
    obtain ⟨s', hs', hrest⟩ := run_cons_some hrun
    exact ih (hstep s a s' hs hok.1 hs') (hok.2 s' hs') hrest

/-- **The invariant rule.** What every step preserves holds at the end of every run. -/
theorem invariant
    (hstep : ∀ s a s', P s → step s a = some s' → P s')
    {s t : σ} {as : List ι} (hs : P s) (hrun : run step s as = some t) : P t := by
  induction as generalizing s with
  | nil =>
    rw [run_nil, Option.some.injEq] at hrun
    exact hrun ▸ hs
  | cons a as ih =>
    obtain ⟨s', hs', hrest⟩ := run_cons_some hrun
    exact ih (hstep s a s' hs hs') hrest

/-- **The history rule.** What every step preserves, with its label behind those before it,
holds of a run and its labels. -/
theorem history {H : List ι → σ → Prop}
    (hstep : ∀ pre s a s', H pre s → step s a = some s' → H (pre ++ [a]) s')
    {s t : σ} {pre as : List ι} (hs : H pre s) (hrun : run step s as = some t) :
    H (pre ++ as) t := by
  induction as generalizing s pre with
  | nil =>
    rw [run_nil, Option.some.injEq] at hrun
    rwa [List.append_nil, ← hrun]
  | cons a as ih =>
    obtain ⟨s', hs', hrest⟩ := run_cons_some hrun
    have hall := ih (hstep pre s a s' hs hs') hrest
    rwa [List.append_assoc, List.singleton_append] at hall

/-- **The simulation rule.** If every step is matched by a run between related states, so is
every run. -/
theorem simulation {σ' ι' : Type*} {step' : σ' → ι' → Option σ'} {R : σ → σ' → Prop}
    (hstep : ∀ s t a s', R s t → step s a = some s' → ∃ bs t', run step' t bs = some t' ∧ R s' t')
    {s s' : σ} {t : σ'} {as : List ι} (hs : R s t) (hrun : run step s as = some s') :
    ∃ bs t', run step' t bs = some t' ∧ R s' t' := by
  induction as generalizing s t with
  | nil =>
    rw [run_nil, Option.some.injEq] at hrun
    exact ⟨[], t, rfl, hrun ▸ hs⟩
  | cons a as ih =>
    obtain ⟨s₁, hs₁, hrest⟩ := run_cons_some hrun
    obtain ⟨bs₁, t₁, ht₁, hR⟩ := hstep s t a s₁ hs hs₁
    obtain ⟨bs, t', ht', hR'⟩ := ih hR hrest
    exact ⟨bs₁ ++ bs, t', (run_append_of_run ht₁ bs).trans ht', hR'⟩

/-- **The label rule.** If every step with an allowed label preserves an invariant and has a
property, all labels of a run along allowed ones have it. -/
theorem forall_of_allowed {allowed Q : ι → Prop}
    (hstep : ∀ s a s', P s → allowed a → step s a = some s' → P s' ∧ Q a)
    {s t : σ} {as : List ι} (hs : P s) (hall : ∀ a ∈ as, allowed a)
    (hrun : run step s as = some t) : P t ∧ ∀ a ∈ as, Q a := by
  induction as generalizing s with
  | nil =>
    rw [run_nil, Option.some.injEq] at hrun
    exact ⟨hrun ▸ hs, by simp⟩
  | cons a as ih =>
    rw [List.forall_mem_cons] at hall ⊢
    obtain ⟨s', hs', hrest⟩ := run_cons_some hrun
    obtain ⟨hP, hQ⟩ := hstep s a s' hs hall.1 hs'
    obtain ⟨ht, hlabels⟩ := ih hP hall.2 hrest
    exact ⟨ht, hQ, hlabels⟩

/-- **The rule of the lasting defect.** If a step leads to the defect exactly when it is there
already or the step breaks the condition, a run is free of it exactly if all steps meet the
condition. -/
theorem always_iff_of_lasting {bad : σ → Prop}
    (hstep : ∀ s a s', P s → step s a = some s' → P s' ∧ (bad s' ↔ bad s ∨ ¬ ok s a))
    {s t : σ} {as : List ι} (hs : P s) (hbad : ¬ bad s) (hrun : run step s as = some t) :
    Always step ok s as ↔ ¬ bad t := by
  suffices ∀ s, P s → run step s as = some t → (bad t ↔ bad s ∨ ¬ Always step ok s as) by
    rw [this s hs hrun, or_iff_right hbad, not_not]
  clear hs hbad hrun
  induction as with
  | nil =>
    intro s _ hrun
    rw [run_nil, Option.some.injEq] at hrun
    subst hrun
    simp [Always]
  | cons a as ih =>
    intro s hs hrun
    obtain ⟨s', hs', hrest⟩ := run_cons_some hrun
    obtain ⟨hP, hbad⟩ := hstep s a s' hs hs'
    have hcons : Always step ok s (a :: as) ↔ ok s a ∧ Always step ok s' as :=
      and_congr_right fun _ => ⟨fun h => h s' hs', fun h t ht => by
        obtain rfl : s' = t := Option.some.inj (hs'.symm.trans ht)
        exact h⟩
    rw [ih s' hP hrest, hbad, hcons, not_and_or, or_assoc]

end Invariants

section Totals

variable {M : Type*} [AddCommGroup M] {w : σ → ι → M}

lemma total_cons_of_step {s s' : σ} {a : ι} (h : step s a = some s') (as : List ι) :
    total step w s (a :: as) = w s a + total step w s' as := by
  rw [total, h]; rfl

/-- **The accounting rule.** If every step changes the potential by its weight, a run changes
it by the total. What is assumed of the states holds at the end of the run, and so before. -/
theorem potential_eq_add_total {P : σ → Prop} {φ : σ → M}
    (hstep : ∀ s a s', step s a = some s' → P s' → P s ∧ φ s' = φ s + w s a)
    {s t : σ} {as : List ι} (ht : P t) (hrun : run step s as = some t) :
    P s ∧ φ t = φ s + total step w s as := by
  induction as generalizing s with
  | nil =>
    rw [run_nil, Option.some.injEq] at hrun
    subst hrun
    exact ⟨ht, (add_zero _).symm⟩
  | cons a as ih =>
    obtain ⟨s', hs', hrest⟩ := run_cons_some hrun
    obtain ⟨hP, hpot⟩ := ih hrest
    obtain ⟨hPs, hone⟩ := hstep s a s' hs' hP
    refine ⟨hPs, ?_⟩
    rw [hpot, hone, total_cons_of_step hs', add_assoc]

lemma total_sub (w w' : σ → ι → M) (s : σ) (as : List ι) :
    total step (fun s a => w s a - w' s a) s as = total step w s as - total step w' s as := by
  induction as generalizing s with
  | nil => exact (sub_zero 0).symm
  | cons a as ih =>
    rw [total, total, total]
    cases step s a with
    | none => simp only [Option.elim]; abel
    | some s' => simp only [Option.elim, ih]; abel

lemma total_eq_zero_of_always {s : σ} {as : List ι}
    (h : Always step (fun s a => w s a = 0) s as) : total step w s as = 0 := by
  induction as generalizing s with
  | nil => rfl
  | cons a as ih =>
    rw [total, h.1, zero_add]
    cases hs : step s a with
    | none => rfl
    | some s' => exact ih (h.2 s' hs)

variable [PartialOrder M] [IsOrderedAddMonoid M]

lemma total_nonneg {s : σ} {as : List ι} (hw : ∀ a ∈ as, ∀ s, 0 ≤ w s a) :
    0 ≤ total step w s as := by
  induction as generalizing s with
  | nil => exact le_rfl
  | cons a as ih =>
    refine add_nonneg (hw a List.mem_cons_self s) ?_
    cases step s a with
    | none => exact le_rfl
    | some s' => exact ih fun a' ha' => hw a' (List.mem_cons_of_mem a ha')

/-- A total of weights that are not negative is zero only if every one of them is. -/
lemma always_of_total_eq_zero {s : σ} {as : List ι} (hw : ∀ a ∈ as, ∀ s, 0 ≤ w s a)
    (h : total step w s as = 0) : Always step (fun s a => w s a = 0) s as := by
  induction as generalizing s with
  | nil => trivial
  | cons a as ih =>
    have hrest : ∀ a' ∈ as, ∀ s, 0 ≤ w s a' := fun a' ha' => hw a' (List.mem_cons_of_mem a ha')
    have hhead := hw a List.mem_cons_self s
    refine ⟨?_, fun s' hs' => ih hrest ?_⟩
    · refine le_antisymm (le_of_le_of_eq (le_add_of_nonneg_right ?_) h) hhead
      cases step s a with
      | none => exact le_rfl
      | some s' => exact total_nonneg hrest
    · rw [total_cons_of_step hs'] at h
      exact le_antisymm (le_of_le_of_eq (le_add_of_nonneg_left hhead) h) (total_nonneg hrest)

lemma total_one {s t : σ} {as : List ι} (hrun : run step s as = some t) :
    total step (fun _ _ => (1 : ℤ)) s as = as.length := by
  induction as generalizing s with
  | nil => rfl
  | cons a as ih =>
    obtain ⟨s', hs', hrest⟩ := run_cons_some hrun
    rw [total_cons_of_step hs', ih hrest, List.length_cons, Nat.cast_succ, add_comm]

lemma total_mul_left (k : ℤ) (w : σ → ι → ℤ) (s : σ) (as : List ι) :
    total step (fun s a => k * w s a) s as = k * total step w s as := by
  induction as generalizing s with
  | nil => exact (mul_zero k).symm
  | cons a as ih =>
    rw [total, total, mul_add]
    cases step s a with
    | none => simp only [Option.elim, mul_zero]
    | some s' => simp only [Option.elim, ih]

end Totals

section Measures

variable {P final : σ → Prop}

/-- **The measure rule.** If every step lowers the measure by its weight at least, so does a
run by the total. -/
theorem total_add_le {M : Type*} [AddCommGroup M] [PartialOrder M] [IsOrderedAddMonoid M]
    {w : σ → ι → M} {μ : σ → M}
    (hstep : ∀ s a s', P s → step s a = some s' → P s' ∧ w s a + μ s' ≤ μ s)
    {s t : σ} {as : List ι} (hs : P s) (hrun : run step s as = some t) :
    total step w s as + μ t ≤ μ s := by
  induction as generalizing s with
  | nil =>
    rw [run_nil, Option.some.injEq] at hrun
    rw [total, zero_add, hrun]
  | cons a as ih =>
    obtain ⟨s', hs', hrest⟩ := run_cons_some hrun
    obtain ⟨hP, hle⟩ := hstep s a s' hs hs'
    calc total step w s (a :: as) + μ t = w s a + (total step w s' as + μ t) := by
          rw [total_cons_of_step hs', add_assoc]
      _ ≤ w s a + μ s' := add_le_add_right (ih hP hrest) (w s a)
      _ ≤ μ s := hle

/-- **The accounting rule under an invariant.** -/
theorem eq_add_total {M : Type*} [AddCommGroup M] {w : σ → ι → M} {φ : σ → M}
    (hstep : ∀ s a s', P s → step s a = some s' → P s' ∧ φ s' = φ s + w s a)
    {s t : σ} {as : List ι} (hs : P s) (hrun : run step s as = some t) :
    φ t = φ s + total step w s as := by
  induction as generalizing s with
  | nil =>
    rw [run_nil, Option.some.injEq] at hrun
    rw [total, add_zero, hrun]
  | cons a as ih =>
    obtain ⟨s', hs', hrest⟩ := run_cons_some hrun
    obtain ⟨hP, hone⟩ := hstep s a s' hs hs'
    rw [ih hP hrest, hone, total_cons_of_step hs', add_assoc]

/-- **The completion rule.** If wherever the end is not reached some step lowers the measure,
every run can be continued to the end. -/
theorem exists_run_final {μ : σ → ℕ}
    (hstep : ∀ s, P s → ¬ final s → ∃ a s', step s a = some s' ∧ P s' ∧ μ s' < μ s)
    {s : σ} (hs : P s) : ∃ as t, run step s as = some t ∧ P t ∧ final t := by
  induction hμ : μ s using Nat.strong_induction_on generalizing s with
  | _ m ih =>
    by_cases hfinal : final s
    · exact ⟨[], s, rfl, hs, hfinal⟩
    · obtain ⟨a, s', hs', hP, hlt⟩ := hstep s hs hfinal
      obtain ⟨as, t, hrun, ht⟩ := ih (μ s') (hμ ▸ hlt) hP rfl
      exact ⟨a :: as, t, (run_cons_of_step hs' as).trans hrun, ht⟩

end Measures

end LowLevelTasks.Runs
