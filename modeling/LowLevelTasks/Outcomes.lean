import Mathlib.Data.List.Basic

/-!
Computations that may stop early. `Ends p q x` says that `x` either yields a value with `p` or
stops for a reason with `q`; the rules follow the way a computation is built.
-/

namespace LowLevelTasks.Outcomes

variable {ε α β σ : Type}

def Ends (p : α → Prop) (q : ε → Prop) : Except ε α → Prop
  | .ok a => p a
  | .error e => q e

variable {p p' : α → Prop} {q q' : ε → Prop} {x : Except ε α}

lemma Ends.mono (h : Ends p q x) (hp : ∀ a, p a → p' a) (hq : ∀ e, q e → q' e) : Ends p' q' x := by
  cases x with
  | ok a => exact hp a h
  | error e => exact hq e h

lemma Ends.and (h : Ends p q x) (h' : Ends p' q' x) :
    Ends (fun a => p a ∧ p' a) (fun e => q e ∧ q' e) x := by
  cases x with
  | ok a => exact ⟨h, h'⟩
  | error e => exact ⟨h, h'⟩

lemma Ends.bind {r : β → Prop} {g : α → Except ε β} (h : Ends p q x)
    (hg : ∀ a, p a → Ends r q (g a)) : Ends r q (x >>= g) := by
  cases x with
  | ok a => exact hg a h
  | error e => exact h

lemma Ends.ite {c : Prop} [Decidable c] {y : Except ε α} (hx : c → Ends p q x)
    (hy : ¬ c → Ends p q y) : Ends p q (if c then x else y) := by
  split
  · exact hx ‹_›
  · exact hy ‹_›

lemma ends_iff : Ends p q x ↔ (∀ a, x = .ok a → p a) ∧ ∀ e, x = .error e → q e := by
  cases x <;> simp [Ends]

/-- A loop keeps what each of its rounds keeps; `p` may speak of the rounds that are done. -/
theorem ends_foldlM {f : σ → α → Except ε σ} {p : List α → σ → Prop} {as : List α} {s : σ}
    (hstep : ∀ done a rest, as = done ++ a :: rest → ∀ s, p done s →
      Ends (p (done ++ [a])) q (f s a)) (hs : p [] s) : Ends (p as) q (as.foldlM f s) := by
  suffices ∀ done rest s, as = done ++ rest → p done s → Ends (p as) q (rest.foldlM f s) from
    this [] as s rfl hs
  intro done rest
  induction rest generalizing done with
  | nil =>
    intro s has hp
    rw [List.append_nil] at has
    exact has ▸ hp
  | cons a rest ih =>
    intro s has hp
    rw [List.foldlM_cons]
    exact (hstep done a rest has s hp).bind fun s' hp' => ih (done ++ [a]) s' (by simp [has]) hp'

end LowLevelTasks.Outcomes
