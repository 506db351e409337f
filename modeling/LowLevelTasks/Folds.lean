import Mathlib.Data.List.Induction

/-!
Loops over a list that may fail: what every round keeps and what no round can undo.
-/

namespace LowLevelTasks.Folds

variable {σ α : Type} {f f' : σ → α → Option σ} {xs : List α} {s s' : σ}

lemma foldlM_congr (hf : ∀ a ∈ xs, ∀ s, f s a = f' s a) (s : σ) :
    xs.foldlM f s = xs.foldlM f' s := by
  induction xs generalizing s with
  | nil => rfl
  | cons a xs ih =>
    rw [List.forall_mem_cons] at hf
    rw [List.foldlM_cons, List.foldlM_cons, hf.1]
    exact Option.bind_congr fun s' _ => ih hf.2 s'

lemma foldlM_from {p : List α → σ → Prop} {done : List α}
    (hstep : ∀ u a v s, done ++ xs = u ++ a :: v → p u s → ∃ s', f s a = some s' ∧ p (u ++ [a]) s')
    (h : p done s) : ∃ s', xs.foldlM f s = some s' ∧ p (done ++ xs) s' := by
  induction xs generalizing done s with
  | nil => exact ⟨s, rfl, by simpa using h⟩
  | cons a xs ih =>
    obtain ⟨s', hs', hp⟩ := hstep done a xs s rfl h
    rw [List.append_cons] at hstep ⊢
    obtain ⟨s'', hs'', hp'⟩ := ih hstep hp
    refine ⟨s'', ?_, hp'⟩
    rw [List.foldlM_cons, hs']
    exact hs''

/-- A loop whose rounds succeed and extend what holds of the elements so far. -/
theorem foldlM_inv {p : List α → σ → Prop}
    (hstep : ∀ u a v s, xs = u ++ a :: v → p u s → ∃ s', f s a = some s' ∧ p (u ++ [a]) s')
    (h : p [] s) : ∃ s', xs.foldlM f s = some s' ∧ p xs s' :=
  foldlM_from hstep h

/-- What no round can undo. -/
theorem foldlM_keeps {p : σ → Prop} (hstep : ∀ a ∈ xs, ∀ s s', f s a = some s' → p s → p s')
    (hrun : xs.foldlM f s = some s') (h : p s) : p s' := by
  induction xs generalizing s with
  | nil => exact Option.some.inj hrun ▸ h
  | cons a xs ih =>
    rw [List.forall_mem_cons] at hstep
    rw [List.foldlM_cons] at hrun
    obtain ⟨s'', hs'', hrun⟩ := Option.bind_eq_some_iff.mp hrun
    exact ih hstep.2 hrun (hstep.1 s s'' hs'' h)

/-- What every round that succeeds extends. -/
theorem foldlM_extends {p : List α → σ → Prop}
    (hstep : ∀ u a s s', f s a = some s' → p u s → p (u ++ [a]) s')
    (hrun : xs.foldlM f s = some s') (h : p [] s) : p xs s' := by
  induction xs using List.reverseRecOn generalizing s' with
  | nil => exact Option.some.inj hrun ▸ h
  | append_singleton xs a ih =>
    rw [List.foldlM_append] at hrun
    obtain ⟨s₁, hs₁, hrun⟩ := Option.bind_eq_some_iff.mp hrun
    rw [List.foldlM_cons] at hrun
    obtain ⟨s₂, hs₂, hrun⟩ := Option.bind_eq_some_iff.mp hrun
    obtain rfl := Option.some.inj hrun
    exact hstep xs a s₁ s₂ hs₂ (ih hs₁)

lemma foldl_keeps {g : σ → α → σ} {p : σ → Prop} (hstep : ∀ a ∈ xs, ∀ s, p s → p (g s a))
    (h : p s) : p (xs.foldl g s) := by
  induction xs generalizing s with
  | nil => exact h
  | cons a xs ih =>
    rw [List.forall_mem_cons] at hstep
    exact ih hstep.2 (hstep.1 s h)

/-! ### Rounds -/

/-- A property of an element and of those before it holds at some place of a list. -/
def Somewhere (P : List α → α → Prop) (l : List α) : Prop := ∃ u a v, l = u ++ a :: v ∧ P u a

section

variable {P Q : List α → α → Prop} {l l' : List α} {a : α}

@[simp] lemma somewhere_nil : ¬ Somewhere P [] := by
  rintro ⟨u, a, v, h, -⟩
  simp at h

lemma somewhere_append :
    Somewhere P (l ++ l') ↔ Somewhere P l ∨ Somewhere (fun u => P (l ++ u)) l' := by
  constructor
  · rintro ⟨u, a, v, heq, hP⟩
    rcases List.append_eq_append_iff.mp heq with ⟨w, rfl, rfl⟩ | ⟨w, rfl, hw⟩
    · exact Or.inr ⟨w, a, v, rfl, hP⟩
    · cases w with
      | nil =>
        obtain rfl := hw
        exact Or.inr ⟨[], a, v, rfl, by simpa using hP⟩
      | cons c w =>
        obtain ⟨rfl, rfl⟩ := List.cons.inj hw
        exact Or.inl ⟨u, a, w, rfl, hP⟩
  · rintro (⟨u, a, v, rfl, hP⟩ | ⟨u, a, v, rfl, hP⟩)
    · exact ⟨u, a, v ++ l', by simp, hP⟩
    · exact ⟨l ++ u, a, v, by simp, hP⟩

@[simp] lemma somewhere_singleton : Somewhere P [a] ↔ P [] a := by
  constructor
  · rintro ⟨u, b, v, heq, hP⟩
    rcases List.append_eq_cons_iff.mp heq.symm with ⟨rfl, hb⟩ | ⟨u, rfl, hb⟩
    · obtain ⟨rfl, -⟩ := List.cons.inj hb
      exact hP
    · simp at hb
  · exact fun hP => ⟨[], a, [], rfl, hP⟩

lemma somewhere_concat : Somewhere P (l ++ [a]) ↔ Somewhere P l ∨ P l a := by
  rw [somewhere_append, somewhere_singleton, List.append_nil]

lemma somewhere_map {β : Type} {g : β → α} {l : List β} :
    Somewhere P (l.map g) ↔ Somewhere (fun u b => P (u.map g) (g b)) l := by
  constructor
  · rintro ⟨u, a, v, heq, hP⟩
    obtain ⟨u, v, rfl, rfl, hv⟩ := List.map_eq_append_iff.mp heq
    obtain ⟨b, v, rfl, rfl, rfl⟩ := List.map_eq_cons_iff.mp hv
    exact ⟨u, b, v, rfl, hP⟩
  · rintro ⟨u, b, v, rfl, hP⟩
    exact ⟨u.map g, g b, v.map g, by simp, hP⟩

lemma somewhere_flatMap {β : Type} {g : β → List α} {l : List β} :
    Somewhere P (l.flatMap g) ↔
      Somewhere (fun u b => Somewhere (fun v => P (u.flatMap g ++ v)) (g b)) l := by
  induction l using List.reverseRecOn with
  | nil => simp
  | append_singleton l b ih =>
    rw [List.flatMap_append, List.flatMap_singleton, somewhere_append, ih, somewhere_concat]

lemma somewhere_congr (h : ∀ u a v, l = u ++ a :: v → (P u a ↔ Q u a)) :
    Somewhere P l ↔ Somewhere Q l := by
  constructor
  · rintro ⟨u, a, v, heq, hP⟩
    exact ⟨u, a, v, heq, (h u a v heq).mp hP⟩
  · rintro ⟨u, a, v, heq, hQ⟩
    exact ⟨u, a, v, heq, (h u a v heq).mpr hQ⟩

lemma somewhere_const {p : α → Prop} : Somewhere (fun _ a => p a) l ↔ ∃ a ∈ l, p a := by
  constructor
  · rintro ⟨u, a, v, rfl, ha⟩
    exact ⟨a, by simp, ha⟩
  · rintro ⟨a, hmem, ha⟩
    obtain ⟨u, v, rfl⟩ := List.append_of_mem hmem
    exact ⟨u, a, v, rfl, ha⟩

lemma somewhere_or : Somewhere (fun u a => P u a ∨ Q u a) l ↔ Somewhere P l ∨ Somewhere Q l := by
  constructor
  · rintro ⟨u, a, v, heq, hP | hQ⟩
    · exact Or.inl ⟨u, a, v, heq, hP⟩
    · exact Or.inr ⟨u, a, v, heq, hQ⟩
  · rintro (⟨u, a, v, heq, hP⟩ | ⟨u, a, v, heq, hQ⟩)
    · exact ⟨u, a, v, heq, Or.inl hP⟩
    · exact ⟨u, a, v, heq, Or.inr hQ⟩

/-- Every place of a list, by its number. -/
lemma forall_splits :
    (∀ u a v, l = u ++ a :: v → P u a) ↔ ∀ i (hi : i < l.length), P (l.take i) (l[i]) := by
  constructor
  · intro h i hi
    exact h _ _ (l.drop (i + 1)) (by rw [List.getElem_cons_drop, List.take_append_drop])
  · rintro h u a v rfl
    simpa using h u.length (by simp)

/-- Some element is the first of its kind. -/
lemma somewhere_first {p : α → Prop} :
    Somewhere (fun u a => (∀ b ∈ u, ¬ p b) ∧ p a) l ↔ ∃ a ∈ l, p a := by
  induction l using List.reverseRecOn with
  | nil => simp
  | append_singleton l a ih =>
    rw [somewhere_concat, ih]
    by_cases hl : ∃ b ∈ l, p b
    · obtain ⟨b, hb, hpb⟩ := hl
      exact ⟨fun _ => ⟨b, by simp [hb], hpb⟩, fun _ => Or.inl ⟨b, hb, hpb⟩⟩
    · have hnone : ∀ b ∈ l, ¬ p b := fun b hb hpb => hl ⟨b, hb, hpb⟩
      simp only [List.mem_append, List.mem_singleton]
      constructor
      · rintro (hl' | ⟨-, ha⟩)
        · exact absurd hl' hl
        · exact ⟨a, Or.inr rfl, ha⟩
      · rintro ⟨b, hb | rfl, hpb⟩
        · exact absurd hpb (hnone b hb)
        · exact Or.inr ⟨hnone, hpb⟩

lemma somewhere_filter {p : α → Bool} :
    Somewhere P (l.filter p) ↔ Somewhere (fun u a => p a ∧ P (u.filter p) a) l := by
  induction l using List.reverseRecOn with
  | nil => simp
  | append_singleton l a ih =>
    rw [List.filter_append, somewhere_concat, ← ih]
    by_cases hp : p a
    · rw [List.filter_cons_of_pos hp, List.filter_nil, somewhere_concat]
      simp [hp]
    · rw [List.filter_cons_of_neg hp, List.filter_nil, List.append_nil]
      simp [hp]

lemma somewhere_filterMap {β : Type} {g : β → Option α} {l : List β} :
    Somewhere P (l.filterMap g) ↔
      Somewhere (fun u b => ∃ a, g b = some a ∧ P (u.filterMap g) a) l := by
  induction l using List.reverseRecOn with
  | nil => simp
  | append_singleton l b ih =>
    rw [List.filterMap_append, somewhere_concat, ← ih]
    cases hb : g b with
    | none => simp [hb]
    | some a => simp [hb, somewhere_concat]

/-- Of the elements of a list with more than one each stands next to another. -/
lemma somewhere_pairs {q : α → Prop} :
    Somewhere (fun u a => ∃ b, u.getLast? = some b ∧ (q a ∨ q b)) l ↔
      2 ≤ l.length ∧ ∃ a ∈ l, q a := by
  induction l using List.reverseRecOn with
  | nil => simp
  | append_singleton l a ih =>
    rw [somewhere_concat, ih]
    cases l using List.reverseRecOn with
    | nil => simp
    | append_singleton l b =>
      simp only [List.getLast?_concat, Option.some.injEq, exists_eq_left', List.length_append,
        List.length_singleton, List.mem_append, List.mem_singleton]
      constructor
      · rintro (⟨hlength, c, hc, hq⟩ | hq | hq)
        · exact ⟨by omega, c, Or.inl hc, hq⟩
        · exact ⟨by omega, a, Or.inr rfl, hq⟩
        · exact ⟨by omega, b, Or.inl (Or.inr rfl), hq⟩
      · rintro ⟨-, c, (hc | rfl) | rfl, hq⟩
        · have := List.length_pos_of_mem hc
          exact Or.inl ⟨by omega, c, Or.inl hc, hq⟩
        · exact Or.inr (Or.inr hq)
        · exact Or.inr (Or.inl hq)

lemma somewhere_tail {q : α → Prop} :
    Somewhere (fun u a => u ≠ [] ∧ q a) l ↔ ∃ a ∈ l.tail, q a := by
  cases l with
  | nil => simp
  | cons a l =>
    rw [← List.singleton_append, somewhere_append, somewhere_singleton]
    simp [somewhere_const]

end

/-- A loop of which it is known which rounds fail: it fails if there is such a round, and else
extends what holds of the elements so far. -/
theorem foldlM_rounds {p : List α → σ → Prop} {fails : List α → α → Prop}
    (hstep : ∀ u a v s, xs = u ++ a :: v → p u s → (fails u a → f s a = none) ∧
      (¬ fails u a → ∃ s', f s a = some s' ∧ p (u ++ [a]) s')) (h : p [] s) :
    (Somewhere fails xs → xs.foldlM f s = none) ∧
      (¬ Somewhere fails xs → ∃ s', xs.foldlM f s = some s' ∧ p xs s') := by
  induction xs using List.reverseRecOn with
  | nil => exact ⟨fun hf => absurd hf somewhere_nil, fun _ => ⟨s, rfl, h⟩⟩
  | append_singleton xs a ih =>
    have ih := ih fun u b v s heq => hstep u b (v ++ [a]) s (by rw [heq]; simp)
    rw [somewhere_concat, List.foldlM_append]
    by_cases hxs : Somewhere fails xs
    · refine ⟨fun _ => ?_, fun hnot => absurd (Or.inl hxs) hnot⟩
      rw [ih.1 hxs]
      rfl
    · obtain ⟨s₁, hs₁, hp₁⟩ := ih.2 hxs
      obtain ⟨hnone, hsome⟩ := hstep xs a [] s₁ rfl hp₁
      rw [hs₁]
      refine ⟨fun hf => ?_, fun hnot => ?_⟩
      · change [a].foldlM f s₁ = none
        rw [List.foldlM_cons, hnone (hf.resolve_left hxs)]
        rfl
      · obtain ⟨s', hs', hp'⟩ := hsome fun ha => hnot (Or.inr ha)
        refine ⟨s', ?_, hp'⟩
        change [a].foldlM f s₁ = some s'
        rw [List.foldlM_cons, hs']
        rfl

end LowLevelTasks.Folds
