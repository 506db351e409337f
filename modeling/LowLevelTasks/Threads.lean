import LowLevelTasks.Runs
import Mathlib.Algebra.BigOperators.Fin
import Mathlib.Algebra.BigOperators.Group.Finset.Piecewise
import Mathlib.Tactic.Abel

/-!
Threads over shared memory.

Every thread has its own local state and takes atomic steps on it and on the shared state; a
schedule names the thread of each step, together with whatever else the step leaves open.
-/

namespace LowLevelTasks.Threads


structure State (ι σ τ : Type*) where
  shared : σ
  locals : ι → τ

variable {ι σ τ γ : Type*} [DecidableEq ι]

/-- One atomic step of the thread `a.1`, with the choice `a.2`. -/
def step (act : ι → γ → σ → τ → Option (σ × τ)) (s : State ι σ τ) (a : ι × γ) :
    Option (State ι σ τ) :=
  (act a.1 a.2 s.shared (s.locals a.1)).map fun r => ⟨r.1, Function.update s.locals a.1 r.2⟩

/-- One of two threads. -/
def ofTwo (n : ℕ) : Fin 2 := Fin.ofNat 2 n

variable {act : ι → γ → σ → τ → Option (σ × τ)} {s s' : State ι σ τ}

lemma step_cases {t : ι} {c : γ} (h : step act s (t, c) = some s') :
    ∃ g l, act t c s.shared (s.locals t) = some (g, l) ∧
      s' = ⟨g, Function.update s.locals t l⟩ := by
  rw [step, Option.map_eq_some_iff] at h
  obtain ⟨⟨g, l⟩, hact, rfl⟩ := h
  exact ⟨g, l, hact, rfl⟩

lemma step_of_act {t : ι} {c : γ} {g : σ} {l : τ}
    (h : act t c s.shared (s.locals t) = some (g, l)) :
    step act s (t, c) = some ⟨g, Function.update s.locals t l⟩ := by
  simp [step, h]

/-- A property of all threads after a step: of the one that moved and of the others. -/
lemma forall_update {P : ι → τ → Prop} {f : ι → τ} {t : ι} {l : τ} (hl : P t l)
    (hf : ∀ u, u ≠ t → P u (f u)) (u : ι) : P u (Function.update f t l u) := by
  by_cases hu : u = t
  · subst hu; rwa [Function.update_self]
  · rw [Function.update_of_ne hu]; exact hf u hu

/-- A property of all pairs of threads that is symmetric, after a step. -/
lemma forall_pair_update {P : τ → τ → Prop} {f : ι → τ} {t : ι} {l : τ}
    (hsymm : ∀ a b, P a b → P b a) (hl : ∀ u, u ≠ t → P l (f u))
    (hf : ∀ u v, u ≠ v → P (f u) (f v)) (u v : ι) (huv : u ≠ v) :
    P (Function.update f t l u) (Function.update f t l v) := by
  by_cases hu : u = t
  · subst hu
    rw [Function.update_self, Function.update_of_ne huv.symm]
    exact hl v huv.symm
  · rw [Function.update_of_ne hu]
    by_cases hv : v = t
    · subst hv
      rw [Function.update_self]
      exact hsymm _ _ (hl u hu)
    · rw [Function.update_of_ne hv]
      exact hf u v huv

/-- A sum over the threads, after a step of one of them. -/
lemma sum_update [Fintype ι] {M : Type*} [AddCommGroup M] (w : ι → τ → M) (f : ι → τ) (t : ι)
    (l : τ) : ∑ u, w u (Function.update f t l u) = ∑ u, w u (f u) + (w t l - w t (f t)) := by
  have h : (fun u => w u (Function.update f t l u)) =
      Function.update (fun u => w u (f u)) t (w t l) :=
    funext fun u => Function.apply_update w f t l u
  rw [h, Finset.sum_update_of_mem (Finset.mem_univ t),
    ← Finset.sum_sdiff (Finset.subset_univ {t}), Finset.sum_singleton]
  abel

end LowLevelTasks.Threads
