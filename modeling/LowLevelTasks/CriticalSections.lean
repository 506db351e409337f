import LowLevelTasks.MemoryPrograms
import LowLevelTasks.Threads

/-!
Threads whose steps are programs over a shared memory, under locks.

A step of a thread is the program of its accesses and what follows from their result. In the
atomic system it is taken at once. In the system of the accesses a thread takes its lock, makes
its accesses one by one, between those of the others, and gives the lock back. If threads under
different locks keep out of each other's footprints, every run of accesses comes from a run of
atomic steps.
-/

namespace LowLevelTasks.CriticalSections

open LowLevelTasks.Runs LowLevelTasks.Threads LowLevelTasks.MemoryPrograms

structure Sections (ι γ σ τ κ R : Type) {Loc : Type} (V : Loc → Type) where
  memory : σ → Memory V
  store : σ → Memory V → σ
  /-- Whether the process has come to its end. -/
  stopped : σ → Bool
  /-- The accesses of the next step of a thread, if it has one. -/
  body : ι → τ → Option (Prog V R)
  /-- The lock that step takes. -/
  lock : τ → Option κ
  /-- Whether a thread tries again and again to take a lock, or waits for it. -/
  spins : Bool
  /-- What follows from the result of the accesses, apart from the memory. -/
  finish : ι → γ → Option R → σ → τ → σ × τ
  /-- Whether the lock is given back. -/
  releases : τ → Option R → Bool
  memory_store : ∀ g m, memory (store g m) = m
  store_memory : ∀ g, store g (memory g) = g
  store_store : ∀ g m m', store (store g m) m' = store g m'
  stopped_store : ∀ g m, stopped (store g m) = stopped g
  finish_store : ∀ i c r g m l,
    finish i c r (store g m) l = (store (finish i c r g l).1 m, (finish i c r g l).2)

/-- A thread in the system of the accesses: what is left of its accesses while it makes them. -/
structure Thread (γ τ R : Type) {Loc : Type} (V : Loc → Type) where
  outer : τ
  inside : Option (γ × Prog V R)

/-- The shared state, and which locks are held. -/
structure Store (σ κ : Type) where
  shared : σ
  held : κ → Bool

variable {ι γ σ τ κ R Loc : Type} {V : Loc → Type} [DecidableEq Loc] (P : Sections ι γ σ τ κ R V)

namespace Sections

/-- A step of the atomic system. -/
def atomic (i : ι) (c : γ) (g : σ) (l : τ) : Option (σ × τ) :=
  if P.stopped g then none
  else (P.body i l).map fun p =>
    P.finish i c (p.exec (P.memory g)).2 (P.store g (p.exec (P.memory g)).1) l

section

variable [DecidableEq κ]

/-- Taking the lock of a step. -/
def acquire (c : γ) (g : Store σ κ) (t : Thread γ τ R V) (p : Prog V R) :
    Option (Store σ κ × Thread γ τ R V) :=
  match P.lock t.outer with
  | none => some (g, { t with inside := some (c, p) })
  | some k =>
    if g.held k then if P.spins then some (g, t) else none
    else some ({ g with held := Function.update g.held k true }, { t with inside := some (c, p) })

/-- Giving the lock of a step back. -/
def unlock (l : τ) (r : Option R) (held : κ → Bool) : κ → Bool :=
  match P.lock l with
  | none => held
  | some k => if P.releases l r then Function.update held k false else held

/-- The end of a step. -/
def release (i : ι) (c : γ) (g : Store σ κ) (t : Thread γ τ R V) (r : Option R) :
    Store σ κ × Thread γ τ R V :=
  (⟨(P.finish i c r g.shared t.outer).1, P.unlock t.outer r g.held⟩,
    ⟨(P.finish i c r g.shared t.outer).2, none⟩)

/-- A step of the system of the accesses. -/
def single (i : ι) (c : γ) (g : Store σ κ) (t : Thread γ τ R V) :
    Option (Store σ κ × Thread γ τ R V) :=
  if P.stopped g.shared then none
  else
    match t.inside with
    | none => (P.body i t.outer).bind (P.acquire c g t)
    | some (c', p) =>
      match p.access (P.memory g.shared) with
      | some (p', m) =>
        some ({ g with shared := P.store g.shared m }, { t with inside := some (c', p') })
      | none => some (P.release i c' g t p.result)

end

/-- The steps of the threads do not ask for the same lock. -/
def Apart (l l' : τ) : Prop := ∀ k, P.lock l = some k → P.lock l' ≠ some k

variable {P} in
omit [DecidableEq Loc] in
lemma Apart.symm {l l' : τ} (h : P.Apart l l') : P.Apart l' l := fun k h1 h2 => h k h2 h1

omit [DecidableEq Loc] in
/-- The other locks stay as they are. -/
lemma unlock_of_ne [DecidableEq κ] {l : τ} {k : κ} (hk : P.lock l ≠ some k) (r : Option R)
    (held : κ → Bool) : P.unlock l r held k = held k := by
  unfold unlock
  cases hl : P.lock l with
  | none => rfl
  | some k' =>
    have hne : k ≠ k' := by
      rintro rfl
      exact hk hl
    dsimp only
    split
    · exact Function.update_of_ne hne _ _
    · rfl

omit [DecidableEq Loc] in
lemma unlock_self [DecidableEq κ] {l : τ} {r : Option R} (hr : P.releases l r = true) {k : κ}
    (hk : P.lock l = some k) (held : κ → Bool) : P.unlock l r held k = false := by
  simp [unlock, hk, hr]

omit [DecidableEq Loc] in
lemma memory_finish (i : ι) (c : γ) (r : Option R) (g : σ) (l : τ) :
    P.memory (P.finish i c r g l).1 = P.memory g := by
  have h := P.finish_store i c r g (P.memory g) l
  rw [P.store_memory] at h
  rw [h, P.memory_store]

end Sections

abbrev Atomic (ι σ τ : Type) := State ι σ τ

abbrev Single (ι γ σ τ κ R : Type) {Loc : Type} (V : Loc → Type) :=
  State ι (Store σ κ) (Thread γ τ R V)

/-- All threads between their steps, and all locks free. -/
def quiet (S : Atomic ι σ τ) : Single ι γ σ τ κ R V :=
  ⟨⟨S.shared, fun _ => false⟩, fun i => ⟨S.locals i, none⟩⟩

/-- What is left of the accesses of a thread leads to what all of them lead to at once. -/
structure Underway (F : Footprint Loc) (m m₀ : Memory V) (p p₀ : Prog V R) : Prop where
  within : p.Within F m
  result : (p.exec m).2 = (p₀.exec m₀).2
  agree : Agree F.reads (p.exec m).1 (p₀.exec m₀).1

/-- The threads that make accesses have not taken their steps yet in the atomic system. Their
footprints apart, the memories are the same. -/
structure Simulates (foot : Atomic ι σ τ → ι → Footprint Loc) (s : Single ι γ σ τ κ R V)
    (S : Atomic ι σ τ) : Prop where
  rest : S.shared = P.store s.shared.shared (P.memory S.shared)
  outer : ∀ i, (s.locals i).outer = S.locals i
  outside : ∀ l, (∀ i, (s.locals i).inside ≠ none → l ∉ (foot S i).writes) →
    P.memory s.shared.shared l = P.memory S.shared l
  inside : ∀ i c p, (s.locals i).inside = some (c, p) → ∃ p₀, P.body i (S.locals i) = some p₀ ∧
    Underway (foot S i) (P.memory s.shared.shared) (P.memory S.shared) p p₀
  held_iff : ∀ k, s.shared.held k = true ↔
    ∃ i, (s.locals i).inside ≠ none ∧ P.lock (S.locals i) = some k
  apart : ∀ i j, i ≠ j → (s.locals i).inside ≠ none → (s.locals j).inside ≠ none →
    P.Apart (S.locals i) (S.locals j)

variable {P} {Inv : Atomic ι σ τ → Prop} {foot : Atomic ι σ τ → ι → Footprint Loc}
  {s : Single ι γ σ τ κ R V} {S : Atomic ι σ τ} {F : Footprint Loc} {m m' m₀ m₀' : Memory V}
  {p p' p₀ : Prog V R} {i j : ι} {c : γ}

/-- Others may write outside the footprint. -/
lemma Underway.frame (h : Underway F m m₀ p p₀) (hm : Agree F.reads m m')
    (h₀ : p₀.Within F m₀) (hm₀ : Agree F.reads m₀ m₀') : Underway F m' m₀' p p₀ := by
  obtain ⟨hwithin, hresult, hagree⟩ := h
  obtain ⟨hw, hr, ha⟩ := hwithin.frame hm
  obtain ⟨-, hr₀, ha₀⟩ := h₀.frame hm₀
  refine ⟨hw, by rw [hr, hresult, hr₀], fun l hl => ?_⟩
  calc (p.exec m').1 l = (p.exec m).1 l := (ha l hl).symm
    _ = (p₀.exec m₀).1 l := hagree l hl
    _ = (p₀.exec m₀').1 l := ha₀ l hl

lemma Underway.access (h : Underway F m m₀ p p₀) (hp : p.access m = some (p', m')) :
    Underway F m' m₀ p' p₀ := by
  have hexec := Prog.exec_access hp
  exact ⟨(h.within.access hp).1, by rw [hexec, h.result], by rw [hexec]; exact h.agree⟩

/-- A thread that takes a lock that is free, or none, is apart from those inside. -/
lemma Simulates.apart_of_free (h : Simulates P foot s S)
    (hfree : ∀ k, P.lock (S.locals i) = some k → s.shared.held k = false)
    (hj : (s.locals j).inside ≠ none) : P.Apart (S.locals i) (S.locals j) := by
  intro k hk hk'
  have := (h.held_iff k).mpr ⟨j, hj, hk'⟩
  simp [hfree k hk] at this

lemma Simulates.stopped_eq (h : Simulates P foot s S) :
    P.stopped S.shared = P.stopped s.shared.shared := by
  rw [h.rest, P.stopped_store]

lemma simulates_quiet (S : Atomic ι σ τ) :
    Simulates P foot (quiet S : Single ι γ σ τ κ R V) S where
  rest := (P.store_memory _).symm
  outer _ := rfl
  outside _ _ := rfl
  inside _ _ _ := nofun
  held_iff k := by simp [quiet]
  apart _ _ _ h := absurd rfl h

lemma Simulates.eq_quiet (h : Simulates P foot s S) (hall : ∀ i, (s.locals i).inside = none) :
    s = quiet S := by
  obtain ⟨⟨g, held⟩, t⟩ := s
  have hmem : P.memory S.shared = P.memory g :=
    funext fun l => (h.outside l fun i hi => absurd (hall i) hi).symm
  have hshared : g = S.shared := by
    rw [h.rest, hmem, P.store_memory]
  have hheld : held = fun _ => false := by
    funext k
    refine Bool.eq_false_iff.mpr fun hk => ?_
    obtain ⟨i, hi, -⟩ := (h.held_iff k).mp hk
    exact hi (hall i)
  have hlocals : t = fun i => ⟨S.locals i, none⟩ := by
    funext i
    rw [← h.outer i, ← hall i]
  rw [hshared, hheld, hlocals]
  rfl

/-- No two threads make accesses under the same lock. -/
lemma Simulates.exclusive (h : Simulates P foot s S) (hij : i ≠ j)
    (hi : (s.locals i).inside ≠ none) (hj : (s.locals j).inside ≠ none) {k : κ}
    (hk : P.lock (s.locals i).outer = some k) : P.lock (s.locals j).outer ≠ some k := by
  rw [h.outer] at hk ⊢
  exact h.apart i j hij hi hj k hk

/-! ### The step lemma -/

variable [DecidableEq ι]

/-- The footprints of the steps that come next keep threads under different locks apart. -/
structure Separated (P : Sections ι γ σ τ κ R V) (Inv : Atomic ι σ τ → Prop)
    (foot : Atomic ι σ τ → ι → Footprint Loc) : Prop where
  keeps : ∀ S a S', Inv S → step P.atomic S a = some S' → Inv S'
  within : ∀ S i p, Inv S → P.body i (S.locals i) = some p → p.Within (foot S i) (P.memory S.shared)
  disjoint : ∀ S i j, Inv S → i ≠ j → P.Apart (S.locals i) (S.locals j) →
    ∀ l ∈ (foot S i).writes, l ∉ (foot S j).reads
  stable : ∀ S i j c S', Inv S → i ≠ j → P.Apart (S.locals i) (S.locals j) →
    step P.atomic S (i, c) = some S' → foot S' j = foot S j
  running : ∀ S, Inv S → P.stopped S.shared = false
  releases : ∀ S i p, Inv S → P.body i (S.locals i) = some p →
    P.releases (S.locals i) (p.exec (P.memory S.shared)).2 = true

/-- Where the threads inside have not written, the memories are the same. -/
lemma Simulates.agree (hsep : Separated P Inv foot) (hI : Inv S) (h : Simulates P foot s S)
    (hout : ∀ j, (s.locals j).inside ≠ none → j ≠ i ∧ P.Apart (S.locals j) (S.locals i)) :
    Agree (foot S i).reads (P.memory S.shared) (P.memory s.shared.shared) := by
  intro l hl
  refine (h.outside l fun j hj hw => ?_).symm
  obtain ⟨hne, hapart⟩ := hout j hj
  exact hsep.disjoint S j i hI hne hapart l hw hl

/-- A thread begins its accesses: those of the others have left its footprint alone. -/
lemma Simulates.enter (hsep : Separated P Inv foot) (hI : Inv S) (h : Simulates P foot s S)
    (hi : (s.locals i).inside = none) (hbody : P.body i (S.locals i) = some p)
    (hfree : ∀ k, P.lock (S.locals i) = some k → s.shared.held k = false)
    {held : κ → Bool}
    (hheld : ∀ k, held k = true ↔ s.shared.held k = true ∨ P.lock (S.locals i) = some k) :
    Simulates P foot ⟨⟨s.shared.shared, held⟩,
      Function.update s.locals i ⟨S.locals i, some (c, p)⟩⟩ S := by
  have hinside : ∀ j, (s.locals j).inside ≠ none → j ≠ i ∧ P.Apart (S.locals j) (S.locals i) :=
    fun j hj => ⟨by rintro rfl; exact hj hi, (h.apart_of_free hfree hj).symm⟩
  have hother : ∀ j, j ≠ i → Function.update s.locals i ⟨S.locals i, some (c, p)⟩ j = s.locals j :=
    fun j hj => Function.update_of_ne hj _ _
  constructor
  case rest => exact h.rest
  case outer =>
    exact forall_update (P := fun i (t : Thread γ τ R V) => t.outer = S.locals i) rfl
      fun j _ => h.outer j
  case outside =>
    refine fun l hl => h.outside l fun j hj => hl j ?_
    dsimp only
    rwa [hother j (hinside j hj).1]
  case inside =>
    intro j c' q hq
    dsimp only at hq ⊢
    by_cases hj : j = i
    · subst hj
      rw [Function.update_self] at hq
      cases hq
      obtain ⟨hw, hr, ha⟩ := (hsep.within S j p hI hbody).frame (h.agree hsep hI hinside)
      exact ⟨p, hbody, hw, hr, fun l hl => (ha l hl).symm⟩
    · rw [hother j hj] at hq
      exact h.inside j c' q hq
  case held_iff =>
    intro k
    rw [hheld, h.held_iff k]
    constructor
    · rintro (⟨j, hj, hk⟩ | hk)
      · refine ⟨j, ?_, hk⟩
        dsimp only
        rwa [hother j (hinside j hj).1]
      · exact ⟨i, by simp, hk⟩
    · rintro ⟨j, hj, hk⟩
      dsimp only at hj
      by_cases hji : j = i
      · exact Or.inr (hji ▸ hk)
      · rw [hother j hji] at hj
        exact Or.inl ⟨j, hj, hk⟩
  case apart =>
    intro j j' hne hj hj'
    dsimp only at hj hj'
    by_cases hji : j = i
    · subst hji
      rw [hother j' hne.symm] at hj'
      exact (hinside j' hj').2.symm
    · rw [hother j hji] at hj
      by_cases hji' : j' = i
      · subst hji'
        exact (hinside j hj).2
      · rw [hother j' hji'] at hj'
        exact h.apart j j' hne hj hj'

/-- A thread makes an access: it stays in its footprint. -/
lemma Simulates.access (hsep : Separated P Inv foot) (hI : Inv S) (h : Simulates P foot s S)
    (hi : (s.locals i).inside = some (c, p))
    (hp : p.access (P.memory s.shared.shared) = some (p', m')) :
    Simulates P foot ⟨⟨P.store s.shared.shared m', s.shared.held⟩,
      Function.update s.locals i ⟨S.locals i, some (c, p')⟩⟩ S := by
  obtain ⟨p₀, hbody, hunder⟩ := h.inside i c p hi
  have hin : (s.locals i).inside ≠ none := by rw [hi]; exact nofun
  have hkeep := (hunder.within.access hp).2
  have hother : ∀ j, j ≠ i → Function.update s.locals i ⟨S.locals i, some (c, p')⟩ j = s.locals j :=
    fun j hj => Function.update_of_ne hj _ _
  have hsame : ∀ j, (Function.update s.locals i ⟨S.locals i, some (c, p')⟩ j).inside ≠ none ↔
      (s.locals j).inside ≠ none := by
    intro j
    by_cases hj : j = i
    · subst hj; simp [hin]
    · rw [hother j hj]
  constructor
  case rest => rw [P.store_store]; exact h.rest
  case outer =>
    exact forall_update (P := fun i (t : Thread γ τ R V) => t.outer = S.locals i) rfl
      fun j _ => h.outer j
  case outside =>
    intro l hl
    rw [P.memory_store, hkeep l (hl i ((hsame i).mpr hin))]
    exact h.outside l fun j hj => hl j ((hsame j).mpr hj)
  case inside =>
    intro j c' q hq
    rw [P.memory_store]
    dsimp only at hq
    by_cases hj : j = i
    · subst hj
      rw [Function.update_self] at hq
      cases hq
      exact ⟨p₀, hbody, hunder.access hp⟩
    · rw [hother j hj] at hq
      obtain ⟨q₀, hq₀, hunder⟩ := h.inside j c' q hq
      have hapart := h.apart i j (Ne.symm hj) hin (by rw [hq]; exact nofun)
      refine ⟨q₀, hq₀, hunder.frame (fun l hl => ?_) (hsep.within S j q₀ hI hq₀) fun l _ => rfl⟩
      -- the access is outside what the other thread reads
      refine (hkeep l fun hw => ?_).symm
      exact hsep.disjoint S i j hI (Ne.symm hj) hapart l hw hl
  case held_iff =>
    exact fun k => (h.held_iff k).trans
      (exists_congr fun j => and_congr_left fun _ => (hsame j).symm)
  case apart => exact fun j j' hne hj hj' => h.apart j j' hne ((hsame j).mp hj) ((hsame j').mp hj')

omit [DecidableEq ι] in
/-- What the step of a thread does in the atomic system is seen from what its accesses come to. -/
lemma Simulates.atomic_eq (h : Simulates P foot s S) (hgo : P.stopped s.shared.shared = false)
    (hbody : P.body i (S.locals i) = some p₀) {r : Option R}
    (hresult : (p₀.exec (P.memory S.shared)).2 = r) :
    P.atomic i c S.shared (S.locals i) =
      some (P.store (P.finish i c r s.shared.shared (S.locals i)).1
          (p₀.exec (P.memory S.shared)).1,
        (P.finish i c r s.shared.shared (S.locals i)).2) := by
  rw [Sections.atomic, h.stopped_eq, hgo, if_neg Bool.false_ne_true, hbody, Option.map_some,
    hresult, ← P.finish_store]
  congr 2
  generalize (p₀.exec (P.memory S.shared)).1 = m
  rw [h.rest, P.store_store]

omit [DecidableEq ι] in
/-- The locks that are left are those of the others inside. -/
lemma Simulates.unlock_iff [DecidableEq κ] (h : Simulates P foot s S)
    (hin : (s.locals i).inside ≠ none) {r : Option R}
    (hrel : P.releases (S.locals i) r = true) (k : κ) :
    P.unlock (S.locals i) r s.shared.held k = true ↔
      ∃ j, j ≠ i ∧ (s.locals j).inside ≠ none ∧ P.lock (S.locals j) = some k := by
  constructor
  · intro hk
    have hne : P.lock (S.locals i) ≠ some k := by
      intro hki
      rw [P.unlock_self hrel hki] at hk
      cases hk
    rw [P.unlock_of_ne hne, h.held_iff k] at hk
    obtain ⟨j, hj, hk⟩ := hk
    refine ⟨j, ?_, hj, hk⟩
    rintro rfl
    exact hne hk
  · rintro ⟨j, hji, hj, hk⟩
    rw [P.unlock_of_ne fun hki => h.apart i j hji.symm hin hj k hki hk, h.held_iff k]
    exact ⟨j, hj, hk⟩

/-- A thread has made its accesses: now it takes its step in the atomic system. -/
lemma Simulates.leave [DecidableEq κ] (hsep : Separated P Inv foot) (hI : Inv S)
    (h : Simulates P foot s S) (hgo : P.stopped s.shared.shared = false)
    (hi : (s.locals i).inside = some (c, p)) (hp : p.access (P.memory s.shared.shared) = none) :
    ∃ S', step P.atomic S (i, c) = some S' ∧
      Simulates P foot ⟨(P.release i c s.shared (s.locals i) p.result).1,
        Function.update s.locals i (P.release i c s.shared (s.locals i) p.result).2⟩ S' := by
  obtain ⟨p₀, hbody, hunder⟩ := h.inside i c p hi
  have hwithin := hsep.within S i p₀ hI hbody
  have hin : (s.locals i).inside ≠ none := by rw [hi]; exact nofun
  have hend := Prog.exec_of_end hp
  have hresult : (p₀.exec (P.memory S.shared)).2 = p.result := by
    rw [← hunder.result, hend]
  obtain ⟨m, hm⟩ : ∃ m, (p₀.exec (P.memory S.shared)).1 = m := ⟨_, rfl⟩
  have hact := h.atomic_eq (c := c) hgo hbody hresult
  rw [hm] at hact
  have hstep : step P.atomic S (i, c) = some _ := step_of_act hact
  refine ⟨_, hstep, ?_⟩
  have hother : ∀ {α : Type} (f : ι → α) (a : α) (j : ι), j ≠ i → Function.update f i a j = f j :=
    fun f a j hj => Function.update_of_ne hj a f
  have hout : ∀ j, (Function.update s.locals i
      (P.release i c s.shared (s.locals i) p.result).2 j).inside ≠ none →
        j ≠ i ∧ (s.locals j).inside ≠ none := by
    intro j hj
    by_cases hji : j = i
    · subst hji
      rw [Function.update_self] at hj
      exact absurd rfl hj
    · rw [hother _ _ j hji] at hj
      exact ⟨hji, hj⟩
  have hapart : ∀ j, j ≠ i → (s.locals j).inside ≠ none → P.Apart (S.locals i) (S.locals j) :=
    fun j hji hj => h.apart i j (Ne.symm hji) hin hj
  have hfoot : ∀ j, j ≠ i → (s.locals j).inside ≠ none → foot _ j = foot S j :=
    fun j hji hj => hsep.stable S i j c _ hI (Ne.symm hji) (hapart j hji hj) hstep
  have hmem : P.memory (P.release i c s.shared (s.locals i) p.result).1.shared =
      P.memory s.shared.shared := P.memory_finish _ _ _ _ _
  constructor
  case rest =>
    dsimp only [Sections.release]
    rw [P.memory_store, h.outer i]
  case outer =>
    intro j
    dsimp only
    by_cases hji : j = i
    · subst hji
      rw [Function.update_self, Function.update_self, Sections.release, h.outer j]
    · rw [hother _ _ j hji, hother _ _ j hji, h.outer j]
  case outside =>
    intro l hl
    rw [hmem, P.memory_store]
    by_cases hw : l ∈ (foot S i).writes
    · have := hunder.agree l ((foot S i).writes_subset hw)
      rwa [hend, hm] at this
    · rw [h.outside l fun j hj => ?_, ← hm, hwithin.exec_eq l hw]
      by_cases hji : j = i
      · exact hji ▸ hw
      · rw [← hfoot j hji hj]
        refine hl j ?_
        dsimp only
        rwa [hother _ _ j hji]
  case inside =>
    intro j c' q hq
    obtain ⟨hji, hj⟩ := hout j (by rw [hq]; exact nofun)
    dsimp only at hq ⊢
    rw [hother _ _ j hji] at hq
    obtain ⟨q₀, hq₀, hunderq⟩ := h.inside j c' q hq
    rw [hother _ _ j hji, hfoot j hji hj, hmem, P.memory_store]
    refine ⟨q₀, hq₀, hunderq.frame (fun l _ => rfl) (hsep.within S j q₀ hI hq₀) fun l hl => ?_⟩
    -- the step is outside what the other thread reads
    rw [← hm, hwithin.exec_eq l fun hw => ?_]
    exact hsep.disjoint S i j hI (Ne.symm hji) (hapart j hji hj) l hw hl
  case held_iff =>
    intro k
    dsimp only
    have hrel := hsep.releases S i p₀ hI hbody
    rw [hresult] at hrel
    rw [show (P.release i c s.shared (s.locals i) p.result).1.held =
      P.unlock (S.locals i) p.result s.shared.held by rw [Sections.release, h.outer i]]
    rw [h.unlock_iff hin hrel]
    refine exists_congr fun j => ⟨fun ⟨hji, hj, hk⟩ => ?_, fun ⟨hj, hk⟩ => ?_⟩
    · rw [hother _ _ j hji, hother _ _ j hji]
      exact ⟨hj, hk⟩
    · obtain ⟨hji, hj⟩ := hout j hj
      rw [hother _ _ j hji] at hk
      exact ⟨hji, hj, hk⟩
  case apart =>
    intro j j' hne hj hj'
    obtain ⟨hji, hj⟩ := hout j hj
    obtain ⟨hji', hj'⟩ := hout j' hj'
    dsimp only
    rw [hother _ _ j hji, hother _ _ j' hji']
    exact h.apart j j' hne hj hj'

/-- **One step** of the accesses is no step of the atomic system, or the step of that thread. -/
lemma Simulates.of_step [DecidableEq κ] (hsep : Separated P Inv foot) (hI : Inv S)
    (h : Simulates P foot s S) {a : ι × γ} {s' : Single ι γ σ τ κ R V}
    (hs : step P.single s a = some s') :
    ∃ bs S', run (step P.atomic) S bs = some S' ∧ Inv S' ∧ Simulates P foot s' S' := by
  obtain ⟨i, c⟩ := a
  obtain ⟨g, t, hact, rfl⟩ := step_cases hs
  have hgo : P.stopped s.shared.shared = false := by
    rw [← h.stopped_eq]
    exact hsep.running S hI
  have houter := h.outer i
  rw [Sections.single, hgo, if_neg Bool.false_ne_true] at hact
  cases hi : (s.locals i).inside with
  | none =>
    simp only [hi, houter, Option.bind_eq_some_iff] at hact
    obtain ⟨p, hbody, hact⟩ := hact
    refine ⟨[], S, rfl, hI, ?_⟩
    unfold Sections.acquire at hact
    rw [houter] at hact
    split at hact
    · next hlock =>
      obtain ⟨rfl, rfl⟩ := by simpa using hact
      exact h.enter hsep hI hi hbody (by simp [hlock]) (by simp [hlock])
    · next k hlock =>
      split at hact
      · split at hact
        · obtain ⟨rfl, rfl⟩ := by simpa using hact
          rwa [Function.update_eq_self]
        · cases hact
      · next hfree =>
        obtain ⟨rfl, rfl⟩ := by simpa using hact
        refine h.enter hsep hI hi hbody ?_ fun k' => ?_
        · intro k' hk'
          obtain rfl : k = k' := Option.some.inj (hlock.symm.trans hk')
          simpa using hfree
        · rw [hlock, Option.some.injEq]
          by_cases hk : k' = k
          · simp [hk]
          · simp [hk, Ne.symm hk]
  | some r =>
    obtain ⟨c', p⟩ := r
    simp only [hi] at hact
    cases hp : p.access (P.memory s.shared.shared) with
    | some r =>
      obtain ⟨p', m⟩ := r
      obtain ⟨rfl, rfl⟩ := by simpa [hp] using hact
      rw [houter]
      exact ⟨[], S, rfl, hI, h.access hsep hI hi hp⟩
    | none =>
      obtain ⟨S', hstep, hsim⟩ := h.leave hsep hI hgo hi hp
      obtain ⟨rfl, rfl⟩ := by simpa [hp] using hact
      exact ⟨[(i, c')], S', by rw [run_cons_of_step hstep, run_nil], hsep.keeps S _ S' hI hstep,
        hsim⟩

/-! ### Runs -/

/-- **Reduction.** Every run of accesses comes from a run of the atomic system. -/
theorem simulates_of_run [DecidableEq κ] (hsep : Separated P Inv foot) (hI : Inv S)
    {as : List (ι × γ)} (hrun : run (step P.single) (quiet S) as = some s) :
    ∃ bs S', run (step P.atomic) S bs = some S' ∧ Inv S' ∧ Simulates P foot s S' := by
  have hstep : ∀ (s : Single ι γ σ τ κ R V) S a s', (Inv S ∧ Simulates P foot s S) →
      step P.single s a = some s' →
        ∃ bs S', run (step P.atomic) S bs = some S' ∧ Inv S' ∧ Simulates P foot s' S' :=
    fun s S a s' h hs => h.2.of_step hsep h.1 hs
  exact simulation hstep ⟨hI, simulates_quiet S⟩ hrun

/-- The next accesses of two threads are no race: none writes what the other accesses. -/
lemma Simulates.race_free (hsep : Separated P Inv foot) (hI : Inv S) (h : Simulates P foot s S)
    (hij : i ≠ j) {c c' : γ} (hi : (s.locals i).inside = some (c, p))
    (hj : (s.locals j).inside = some (c', p')) {l l' : Loc} {w : Bool}
    (hp : p.target = some (l, true)) (hp' : p'.target = some (l', w)) : l ≠ l' := by
  rintro rfl
  obtain ⟨_, -, hunder⟩ := h.inside i c p hi
  obtain ⟨_, -, hunder'⟩ := h.inside j c' p' hj
  have hapart := h.apart i j hij (by rw [hi]; exact nofun) (by rw [hj]; exact nofun)
  exact hsep.disjoint S i j hI hij hapart l ((hunder.within.target_mem hp).2 rfl)
    (hunder'.within.target_mem hp').1

/-! ### To the end -/

section

variable [DecidableEq κ]

lemma single_access (hgo : P.stopped s.shared.shared = false)
    (hi : (s.locals i).inside = some (c, p))
    (hp : p.access (P.memory s.shared.shared) = some (p', m')) (c' : γ) :
    step P.single s (i, c') = some ⟨⟨P.store s.shared.shared m', s.shared.held⟩,
      Function.update s.locals i ⟨(s.locals i).outer, some (c, p')⟩⟩ := by
  simp [step, Sections.single, hgo, hi, hp]

lemma single_leave (hgo : P.stopped s.shared.shared = false)
    (hi : (s.locals i).inside = some (c, p))
    (hp : p.access (P.memory s.shared.shared) = none) (c' : γ) :
    step P.single s (i, c') = some ⟨(P.release i c s.shared (s.locals i) p.result).1,
      Function.update s.locals i (P.release i c s.shared (s.locals i) p.result).2⟩ := by
  simp [step, Sections.single, hgo, hi, hp]

/-- A thread can begin its accesses if its lock is free. -/
lemma Simulates.exists_enter (hsep : Separated P Inv foot) (hI : Inv S) (h : Simulates P foot s S)
    (hi : (s.locals i).inside = none) (hbody : P.body i (S.locals i) = some p)
    (hfree : ∀ k, P.lock (S.locals i) = some k → s.shared.held k = false) (c : γ) :
    ∃ s', step P.single s (i, c) = some s' ∧ Simulates P foot s' S ∧
      s'.locals = Function.update s.locals i ⟨S.locals i, some (c, p)⟩ := by
  have hgo : P.stopped s.shared.shared = false := h.stopped_eq ▸ hsep.running S hI
  have houter := h.outer i
  cases hlock : P.lock (S.locals i) with
  | none =>
    refine ⟨⟨s.shared, Function.update s.locals i ⟨S.locals i, some (c, p)⟩⟩, ?_, ?_, rfl⟩
    · simp [step, Sections.single, Sections.acquire, hgo, hi, houter, hbody, hlock]
    · exact h.enter hsep hI hi hbody hfree fun k => by simp [hlock]
  | some k =>
    have hk := hfree k hlock
    refine ⟨⟨⟨s.shared.shared, Function.update s.shared.held k true⟩,
      Function.update s.locals i ⟨S.locals i, some (c, p)⟩⟩, ?_, ?_, rfl⟩
    · simp [step, Sections.single, Sections.acquire, hgo, hi, houter, hbody, hlock, hk]
    · refine h.enter hsep hI hi hbody hfree fun k' => ?_
      rw [hlock, Option.some.injEq]
      by_cases hk' : k' = k
      · simp [hk']
      · simp [hk', Ne.symm hk']

variable (P foot) in
/-- The thread can take its step to the end, as one step of the atomic system. -/
def CanLeave (s : Single ι γ σ τ κ R V) (S : Atomic ι σ τ) (i : ι) (c : γ) : Prop :=
  ∃ as s' S', run (step P.single) s as = some s' ∧ step P.atomic S (i, c) = some S' ∧
    Simulates P foot s' S' ∧
    ∀ j, (s'.locals j).inside ≠ none → j ≠ i ∧ (s.locals j).inside ≠ none

lemma Simulates.leave_of_end (hsep : Separated P Inv foot) (hI : Inv S) (h : Simulates P foot s S)
    (hi : (s.locals i).inside = some (c, p))
    (hp : p.access (P.memory s.shared.shared) = none) : CanLeave P foot s S i c := by
  have hgo : P.stopped s.shared.shared = false := h.stopped_eq ▸ hsep.running S hI
  obtain ⟨S', hS', hsim⟩ := h.leave hsep hI hgo hi hp
  refine ⟨[(i, c)], _, S', run_cons_of_step (single_leave hgo hi hp c) [], hS', hsim, ?_⟩
  intro j hj
  by_cases hji : j = i
  · subst hji
    simp [Sections.release] at hj
  · exact ⟨hji, by simpa [hji] using hj⟩

lemma Simulates.leave_of_access (hsep : Separated P Inv foot) (hI : Inv S)
    (h : Simulates P foot s S) (hi : (s.locals i).inside = some (c, p))
    (hp : p.access (P.memory s.shared.shared) = some (p', m'))
    (hrest : ∀ s' : Single ι γ σ τ κ R V, Simulates P foot s' S →
      (s'.locals i).inside = some (c, p') → CanLeave P foot s' S i c) :
    CanLeave P foot s S i c := by
  have hgo : P.stopped s.shared.shared = false := h.stopped_eq ▸ hsep.running S hI
  have hstep := single_access hgo hi hp c
  rw [h.outer i] at hstep
  obtain ⟨as, s', S', hrun, hS', hsim, hin⟩ := hrest _ (h.access hsep hI hi hp) (by simp)
  refine ⟨(i, c) :: as, s', S', (run_cons_of_step hstep as).trans hrun, hS', hsim, ?_⟩
  intro j hj
  obtain ⟨hji, hj⟩ := hin j hj
  exact ⟨hji, by simpa [hji] using hj⟩

/-- A thread that makes accesses can come to their end. -/
lemma Simulates.exists_leave (hsep : Separated P Inv foot) (hI : Inv S) (h : Simulates P foot s S)
    (hi : (s.locals i).inside = some (c, p)) : CanLeave P foot s S i c := by
  induction p generalizing s with
  | ret r | fault => exact h.leave_of_end hsep hI hi rfl
  | read l next ih => exact h.leave_of_access hsep hI hi rfl fun s' hs' hi' => ih _ hs' hi'
  | write l v next ih => exact h.leave_of_access hsep hI hi rfl fun s' hs' hi' => ih hs' hi'

/-- What the atomic system can do, the system of the accesses can. -/
lemma exists_run_of_step (hsep : Separated P Inv foot) (hI : Inv S) {a : ι × γ}
    {S' : Atomic ι σ τ} (hS : step P.atomic S a = some S') :
    ∃ as, run (step P.single) (quiet S) as = some (quiet S') := by
  obtain ⟨i, c⟩ := a
  obtain ⟨p, hbody⟩ : ∃ p, P.body i (S.locals i) = some p := by
    obtain ⟨_, _, hact, -⟩ := step_cases hS
    rw [Sections.atomic, hsep.running S hI, if_neg Bool.false_ne_true,
      Option.map_eq_some_iff] at hact
    exact ⟨_, hact.choose_spec.1⟩
  have hquiet : Simulates P foot (quiet S) S := simulates_quiet S
  obtain ⟨s, hs, hsim, hlocals⟩ := hquiet.exists_enter hsep hI rfl hbody (fun _ _ => rfl) c
  have hi : (s.locals i).inside = some (c, p) := by rw [hlocals, Function.update_self]
  obtain ⟨as, s', T, hrun, hT, hsim', hin⟩ := hsim.exists_leave hsep hI hi
  obtain rfl : S' = T := Option.some.inj (hS.symm.trans hT)
  refine ⟨(i, c) :: as, (run_cons_of_step hs as).trans (hrun.trans (congrArg some ?_))⟩
  refine hsim'.eq_quiet fun j => ?_
  by_contra hj
  obtain ⟨hji, hj⟩ := hin j hj
  rw [hlocals, Function.update_of_ne hji] at hj
  exact hj rfl

/-- All threads can come to the end of their accesses. -/
lemma Simulates.exists_quiet [Fintype ι] (hsep : Separated P Inv foot) (hI : Inv S)
    (h : Simulates P foot s S) :
    ∃ as S', run (step P.single) s as = some (quiet S') ∧ Inv S' := by
  classical
  induction hn : (Finset.univ.filter fun i => (s.locals i).inside ≠ none).card
    using Nat.strong_induction_on generalizing s S with
  | _ n ih =>
    by_cases hall : ∀ i, (s.locals i).inside = none
    · exact ⟨[], S, by rw [run_nil, h.eq_quiet hall], hI⟩
    · obtain ⟨i, hi⟩ := not_forall.mp hall
      obtain ⟨⟨c, p⟩, hcp⟩ := Option.ne_none_iff_exists'.mp hi
      obtain ⟨as, s', S', hrun, hstep, hsim, hin⟩ := h.exists_leave hsep hI hcp
      have hlt : (Finset.univ.filter fun j => (s'.locals j).inside ≠ none).card < n := by
        rw [← hn]
        refine Finset.card_lt_card
          ((Finset.ssubset_iff_of_subset fun j hj => ?_).mpr ⟨i, ?_, ?_⟩)
        · simpa using (hin j (by simpa using hj)).2
        · simpa using hi
        · exact fun hmem => (hin i (by simpa using hmem)).1 rfl
      obtain ⟨bs, T, hbs, hT⟩ := ih _ hlt (hsep.keeps S _ S' hI hstep) hsim rfl
      exact ⟨as ++ bs, T, (run_append_of_run hrun bs).trans hbs, hT⟩

/-- **Completion.** If every run of the atomic system can be continued to the end, so can every
run of accesses. -/
theorem Simulates.exists_end [Fintype ι] (hsep : Separated P Inv foot) (hI : Inv S)
    (h : Simulates P foot s S) {final : Atomic ι σ τ → Prop}
    (hend : ∀ S, Inv S → ∃ bs T, run (step P.atomic) S bs = some T ∧ final T) :
    ∃ as T, run (step P.single) s as = some (quiet T) ∧ final T := by
  obtain ⟨as, S', hrun, hI'⟩ := h.exists_quiet hsep hI
  obtain ⟨bs, T, hbs, hT⟩ := hend S' hI'
  have hfollow : ∀ S (s : Single ι γ σ τ κ R V) a S', (s = quiet S ∧ Inv S) →
      step P.atomic S a = some S' →
        ∃ as s', run (step P.single) s as = some s' ∧ s' = quiet S' ∧ Inv S' := by
    rintro S _ a S' ⟨rfl, hI⟩ hstep
    obtain ⟨as, has⟩ := exists_run_of_step hsep hI hstep
    exact ⟨as, _, has, rfl, hsep.keeps S a S' hI hstep⟩
  obtain ⟨cs, t, hcs, ht, -⟩ := simulation hfollow ⟨rfl, hI'⟩ hbs
  exact ⟨as ++ cs, T, by rw [run_append_of_run hrun, hcs, ht], hT⟩

end

end LowLevelTasks.CriticalSections
