import Mathlib.Data.Set.Basic
import Mathlib.Tactic.Common

/-!
Programs over a memory, one access at a time.

A program is the tree of its accesses: it reads a location and goes on with what it has read, or
writes one, and it ends with a result or with a fault. A program whose accesses stay inside a
footprint does the same on every memory that agrees there, and it leaves the rest as it is.
-/

namespace LowLevelTasks.MemoryPrograms

variable {Loc : Type} {V : Loc → Type} {R R' : Type}

abbrev Memory (V : Loc → Type) := (l : Loc) → V l

inductive Prog (V : Loc → Type) (R : Type) : Type
  | ret (r : R)
  | fault
  | read (l : Loc) (next : V l → Prog V R)
  | write (l : Loc) (v : V l) (next : Prog V R)

namespace Prog

protected def bind : Prog V R → (R → Prog V R') → Prog V R'
  | ret r, f => f r
  | fault, _ => fault
  | read l next, f => read l fun v => (next v).bind f
  | write l v next, f => write l v (next.bind f)

instance : Monad (Prog V) where
  pure := ret
  bind := Prog.bind

/-- A value that has to be there. -/
def check : Option R → Prog V R
  | some r => ret r
  | none => fault

@[simp] lemma pure_eq (r : R) : (pure r : Prog V R) = ret r := rfl

@[simp] lemma check_some_bind (r : R) (f : R → Prog V R') : check (some r) >>= f = f r := rfl

@[simp] lemma check_none_bind (f : R → Prog V R') : check none >>= f = fault := rfl

variable [DecidableEq Loc]

/-- The whole program on a memory of its own. -/
def exec : Prog V R → Memory V → Memory V × Option R
  | ret r, m => (m, some r)
  | fault, m => (m, none)
  | read l next, m => (next (m l)).exec m
  | write l v next, m => next.exec (Function.update m l v)

/-- Its next access. -/
def access : Prog V R → Memory V → Option (Prog V R × Memory V)
  | ret _, _ => none
  | fault, _ => none
  | read l next, m => some (next (m l), m)
  | write l v next, m => some (next, Function.update m l v)

omit [DecidableEq Loc] in
/-- What a program that has come to its end has for a result. -/
def result : Prog V R → Option R
  | ret r => some r
  | _ => none

omit [DecidableEq Loc] in
/-- The location of the next access, and whether it is written. -/
def target : Prog V R → Option (Loc × Bool)
  | read l _ => some (l, false)
  | write l _ _ => some (l, true)
  | _ => none

/-! ### Composition -/

variable {p p' : Prog V R} {m m' : Memory V}

@[simp] lemma exec_ret (r : R) : (ret r : Prog V R).exec m = (m, some r) := rfl

@[simp] lemma exec_fault : (fault : Prog V R).exec m = (m, none) := rfl

lemma exec_bind (p : Prog V R) (f : R → Prog V R') (m : Memory V) :
    (p >>= f).exec m =
      match (p.exec m).2 with
      | some r => (f r).exec (p.exec m).1
      | none => ((p.exec m).1, none) := by
  induction p generalizing m with
  | ret r => rfl
  | fault => rfl
  | read l next ih => exact ih (m l) m
  | write l v next ih => exact ih (Function.update m l v)

lemma exec_bind_some {r : R} (hp : p.exec m = (m', some r)) (f : R → Prog V R') :
    (p >>= f).exec m = (f r).exec m' := by
  rw [exec_bind, hp]

lemma exec_bind_none (hp : p.exec m = (m', none)) (f : R → Prog V R') :
    (p >>= f).exec m = (m', none) := by
  rw [exec_bind, hp]

/-! ### Accesses one by one -/

lemma exec_access (h : p.access m = some (p', m')) : p'.exec m' = p.exec m := by
  cases p with
  | ret r => cases h
  | fault => cases h
  | read l next => cases h; rfl
  | write l v next => cases h; rfl

lemma exec_of_end (h : p.access m = none) : p.exec m = (m, p.result) := by
  cases p with
  | ret r => rfl
  | fault => rfl
  | read l next => cases h
  | write l v next => cases h

/-! ### Footprints -/

end Prog

/-- The locations a program may read, and those it may write. -/
structure Footprint (Loc : Type) where
  reads : Set Loc
  writes : Set Loc
  writes_subset : writes ⊆ reads

def Agree (A : Set Loc) (m m' : Memory V) : Prop := ∀ l ∈ A, m l = m' l

namespace Prog

variable [DecidableEq Loc]

/-- The accesses of the program, from this memory on, are in the footprint. -/
def Within (F : Footprint Loc) : Prog V R → Memory V → Prop
  | ret _, _ => True
  | fault, _ => True
  | read l next, m => l ∈ F.reads ∧ (next (m l)).Within F m
  | write l v next, m => l ∈ F.writes ∧ next.Within F (Function.update m l v)

variable {F : Footprint Loc} {p p' : Prog V R} {m m' : Memory V}

lemma within_bind {f : R → Prog V R'} (hp : p.Within F m)
    (hf : ∀ r, (p.exec m).2 = some r → (f r).Within F (p.exec m).1) : (p >>= f).Within F m := by
  induction p generalizing m with
  | ret r => exact hf r rfl
  | fault => trivial
  | read l next ih => exact ⟨hp.1, ih (m l) hp.2 hf⟩
  | write l v next ih => exact ⟨hp.1, ih hp.2 hf⟩

lemma Within.mono {F' : Footprint Loc} (hp : p.Within F m) (hr : F.reads ⊆ F'.reads)
    (hw : F.writes ⊆ F'.writes) : p.Within F' m := by
  induction p generalizing m with
  | ret r | fault => trivial
  | read l next ih => exact ⟨hr hp.1, ih (m l) hp.2⟩
  | write l v next ih => exact ⟨hw hp.1, ih hp.2⟩

lemma Within.access (hp : p.Within F m) (h : p.access m = some (p', m')) :
    p'.Within F m' ∧ ∀ l ∉ F.writes, m' l = m l := by
  cases p with
  | ret r => cases h
  | fault => cases h
  | read l next => cases h; exact ⟨hp.2, fun _ _ => rfl⟩
  | write l v next =>
    cases h
    refine ⟨hp.2, fun a ha => Function.update_of_ne ?_ _ _⟩
    rintro rfl
    exact ha hp.1

lemma Within.exec_eq (hp : p.Within F m) : ∀ l ∉ F.writes, (p.exec m).1 l = m l := by
  induction p generalizing m with
  | ret r => exact fun _ _ => rfl
  | fault => exact fun _ _ => rfl
  | read l next ih => exact ih (m l) hp.2
  | write l v next ih =>
    intro a ha
    refine (ih hp.2 a ha).trans (Function.update_of_ne ?_ _ _)
    rintro rfl
    exact ha hp.1

/-- **The frame rule.** On a memory that agrees on what it reads, a program reads and writes the
same, and ends with the same result. -/
theorem Within.frame (hp : p.Within F m) (hm : Agree F.reads m m') :
    p.Within F m' ∧ (p.exec m').2 = (p.exec m).2 ∧
      Agree F.reads (p.exec m).1 (p.exec m').1 := by
  induction p generalizing m m' with
  | ret r => exact ⟨trivial, rfl, hm⟩
  | fault => exact ⟨trivial, rfl, hm⟩
  | read l next ih =>
    obtain ⟨hl, hnext⟩ := hp
    obtain ⟨hw, hr, ha⟩ := ih (m l) hnext hm
    have hv : m' l = m l := (hm l hl).symm
    simp only [Within, exec, hv]
    exact ⟨⟨hl, hw⟩, hr, ha⟩
  | write l v next ih =>
    obtain ⟨hl, hnext⟩ := hp
    have hup : Agree F.reads (Function.update m l v) (Function.update m' l v) := by
      intro a ha
      by_cases hal : a = l
      · subst hal
        rw [Function.update_self, Function.update_self]
      · rw [Function.update_of_ne hal, Function.update_of_ne hal]
        exact hm a ha
    obtain ⟨hw, hr, ha⟩ := ih hnext hup
    exact ⟨⟨hl, hw⟩, hr, ha⟩

lemma Within.target_mem {l : Loc} {w : Bool} (hp : p.Within F m) (h : p.target = some (l, w)) :
    l ∈ F.reads ∧ (w = true → l ∈ F.writes) := by
  cases p with
  | ret r => cases h
  | fault => cases h
  | read a next => cases h; exact ⟨hp.1, nofun⟩
  | write a v next => cases h; exact ⟨F.writes_subset hp.1, fun _ => hp.1⟩

end Prog

end LowLevelTasks.MemoryPrograms
