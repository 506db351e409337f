import LowLevelTasks.Folds
import LowLevelTasks.ParentTable
import Mathlib.Logic.Function.Basic

/-!
Reports about the parents of directories. A table that learns parents from entries goes on
after a conflict, so that later reports depend on what earlier ones have left in it. As long as
no entry is taken for one of another kind, the table holds the last parent that was said, and
the reports are about the `..` that name another place than the parent.
-/

namespace LowLevelTasks.ParentReports

open LowLevelTasks.Folds LowLevelTasks.ParentTable

/-- A report: the `..` of this place names one that is not its parent. -/
structure Conflict where
  place : ℕ
  named : ℕ
  parent : ℕ
deriving DecidableEq

def childConflict (t : ℕ → ℕ) (e : Entry) : Option Conflict :=
  if t e.inode = 0 ∨ t e.inode = e.dir then none else some ⟨e.inode, t e.inode, e.dir⟩

/-- What is reported about an entry. -/
def conflict (t : ℕ → ℕ) (e : Entry) : Option Conflict :=
  match e.name with
  | .self => none
  | .up =>
    if e.inode ≠ t e.dir then
      if t e.dir = 0 then none else some ⟨e.dir, e.inode, t e.inode⟩
    else childConflict t e
  | .other => childConflict t e

/-- The table after an entry. -/
def next (t : ℕ → ℕ) (e : Entry) : ℕ → ℕ :=
  match e.name with
  | .self => t
  | .up =>
    if e.inode ≠ t e.dir then Function.update t e.dir e.inode
    else Function.update t e.inode e.dir
  | .other => Function.update t e.inode e.dir

variable (root : ℕ)

def table (u : List Entry) : ℕ → ℕ := u.foldl next (initial root)

/-- Some entry is reported in this way. -/
def Emitted (es : List Entry) (c : Conflict) : Prop :=
  Somewhere (fun u e => conflict (table root u) e = some c) es

/-! ### What was said -/

/-- The parent of `x` as the entry says it. -/
def parentSaid (x : ℕ) (e : Entry) : Option ℕ :=
  match e.name with
  | .self => none
  | .up => if e.dir = x then some e.inode else none
  | .other => if e.inode = x then some e.dir else none

/-- The parent of `x` as the last entry says it that speaks of it. -/
def told (u : List Entry) (x : ℕ) : ℕ :=
  (u.filterMap (parentSaid x)).getLast?.getD (if x = root then root else 0)

variable {root} {u v es : List Entry} {e : Entry} {x p : ℕ}

lemma told_nil : told root [] = initial root := by
  ext x
  unfold initial
  rw [Function.update_apply]
  rfl

lemma told_concat : told root (u ++ [e]) x = (parentSaid x e).getD (told root u x) := by
  unfold told
  rw [List.filterMap_append]
  cases hsaid : parentSaid x e with
  | none => simp [hsaid]
  | some p => simp [hsaid]

/-- Something was said, or nothing is known. -/
lemma told_cases (u : List Entry) (x : ℕ) :
    (∃ e ∈ u, parentSaid x e = some (told root u x)) ∨
      told root u x = if x = root then root else 0 := by
  unfold told
  cases hlast : (u.filterMap (parentSaid x)).getLast? with
  | none => exact Or.inr rfl
  | some p =>
    obtain ⟨e, he, hsaid⟩ := List.mem_filterMap.mp (List.mem_of_getLast? hlast)
    exact Or.inl ⟨e, he, hsaid⟩

/-! ### Entries that are taken for what they are -/

variable (root) in
/-- No `..` that agrees with what was said changes the table for the directory it names. -/
def Agrees (es : List Entry) : Prop :=
  ∀ u e v, es = u ++ e :: v → e.name = .up → e.inode = told root u e.dir →
    told root u e.inode = e.dir

lemma next_told (hup : e.name = .up → e.inode = told root u e.dir → told root u e.inode = e.dir) :
    next (told root u) e = told root (u ++ [e]) := by
  ext x
  rw [told_concat]
  unfold next parentSaid
  cases hname : e.name with
  | self => rfl
  | other =>
    dsimp only
    rw [Function.update_apply]
    by_cases hx : e.inode = x
    · rw [if_pos hx.symm, if_pos hx, Option.getD_some]
    · rw [if_neg (Ne.symm hx), if_neg hx, Option.getD_none]
  | up =>
    dsimp only
    by_cases hagree : e.inode = told root u e.dir
    · -- what the entry says is known already, and what is written too
      have hwrite : Function.update (told root u) e.inode e.dir = told root u :=
        Function.update_eq_self_iff.mpr (hup hname hagree).symm
      rw [if_neg (not_not.mpr hagree), hwrite]
      by_cases hx : e.dir = x
      · rw [if_pos hx, Option.getD_some, ← hx, hagree]
      · rw [if_neg hx, Option.getD_none]
    · rw [if_pos hagree, Function.update_apply]
      by_cases hx : e.dir = x
      · rw [if_pos hx.symm, if_pos hx, Option.getD_some]
      · rw [if_neg (Ne.symm hx), if_neg hx, Option.getD_none]

lemma Agrees.left (h : Agrees root (u ++ v)) : Agrees root u := fun w e z heq =>
  h w e (z ++ v) (by rw [heq]; simp)

lemma table_concat : table root (u ++ [e]) = next (table root u) e := by
  unfold table
  rw [List.foldl_append]
  rfl

/-- **The table holds what was said last.** -/
theorem table_eq_told (h : Agrees root es) : table root es = told root es := by
  induction es using List.reverseRecOn with
  | nil => exact told_nil.symm
  | append_singleton u e ih =>
    rw [table_concat, ih h.left]
    exact next_told (h u e [] rfl)

/-! ### Exact reports -/

/-- There is such a `..`, and the parent of its directory is another one. -/
structure Due (parent : ℕ → ℕ) (es : List Entry) (c : Conflict) : Prop where
  up : ⟨c.place, c.named, .up⟩ ∈ es
  wrong : c.named ≠ parent c.place
  right : c.parent = parent c.place

variable (root) in
def Exact (parent : ℕ → ℕ) (es : List Entry) : Prop := ∀ c, Emitted root es c ↔ Due parent es c

/-- The entry is handled like one for an ordinary child: so is a `..` that names the parent that
is known. -/
def TakenForChild (t : ℕ → ℕ) (e : Entry) : Prop :=
  e.name = .other ∨ e.name = .up ∧ e.inode = t e.dir

variable (root) in
/-- What makes the reports exact, in terms of the parents that are known before an entry. -/
structure Coherent (parent : ℕ → ℕ) (es : List Entry) : Prop where
  /-- A `..` for whose directory another parent is known is wrong, and what is known of the one
  it names is the parent of the directory. -/
  differs : ∀ u e v, es = u ++ e :: v → e.name = .up → table root u e.dir ≠ 0 →
    e.inode ≠ table root u e.dir → e.inode ≠ parent e.dir ∧ table root u e.inode = parent e.dir
  /-- What is taken for a child is known to be in this directory or not known, or stands in its
  parent while its own `..` names the one that is known. -/
  children : ∀ u e v, es = u ++ e :: v → TakenForChild (table root u) e →
    table root u e.inode = 0 ∨ table root u e.inode = e.dir ∨
    ⟨e.inode, table root u e.inode, .up⟩ ∈ es ∧ e.dir = parent e.inode
  /-- A wrong `..` comes when another parent is known, or is what is known when the directory is
  read as a child of its parent. -/
  heard : ∀ e ∈ es, e.name = .up → e.inode ≠ parent e.dir → Somewhere (fun u d =>
    d = e ∧ table root u e.dir ≠ 0 ∧ e.inode ≠ table root u e.dir ∨
    TakenForChild (table root u) d ∧ d.inode = e.dir ∧ d.dir = parent e.dir ∧
      table root u e.dir = e.inode ∧ e.inode ≠ 0) es

variable {t parent : ℕ → ℕ} {c : Conflict}

/-- What is reported at a `..`. -/
def UpSays (t : ℕ → ℕ) (e : Entry) (c : Conflict) : Prop :=
  e = ⟨c.place, c.named, .up⟩ ∧ t c.place ≠ 0 ∧ c.named ≠ t c.place ∧ t c.named = c.parent

/-- What is reported at an entry for a child. -/
def ChildSays (t : ℕ → ℕ) (e : Entry) (c : Conflict) : Prop :=
  e.inode = c.place ∧ e.dir = c.parent ∧ t c.place = c.named ∧ c.named ≠ 0 ∧ c.named ≠ c.parent

lemma childConflict_eq_some : childConflict t e = some c ↔ ChildSays t e c := by
  obtain ⟨place, named, parent⟩ := c
  unfold childConflict ChildSays
  split
  · next hsame =>
    refine iff_of_false (by simp) ?_
    rintro ⟨hinode, hdir, ht, h0, hne⟩
    rw [hinode, ht, hdir] at hsame
    exact hsame.elim h0 hne
  · next hother =>
    rw [not_or] at hother
    rw [Option.some.injEq, Conflict.mk.injEq]
    constructor
    · rintro ⟨hinode, ht, hdir⟩
      rw [hinode] at ht hother
      rw [ht, hdir] at hother
      exact ⟨hinode, hdir, ht, hother⟩
    · rintro ⟨hinode, hdir, ht, -⟩
      exact ⟨hinode, by rw [hinode, ht], hdir⟩

lemma conflict_eq_some :
    conflict t e = some c ↔ UpSays t e c ∨ TakenForChild t e ∧ ChildSays t e c := by
  obtain ⟨dir, inode, name⟩ := e
  obtain ⟨place, named, parent⟩ := c
  unfold conflict UpSays TakenForChild
  cases name with
  | self => simp
  | other => simp [childConflict_eq_some]
  | up =>
    simp only [Entry.mk.injEq, reduceCtorEq, and_true, true_and, false_or]
    by_cases hagree : inode = t dir
    · rw [if_neg (not_not.mpr hagree), childConflict_eq_some]
      refine ⟨fun hc => Or.inr ⟨hagree, hc⟩, ?_⟩
      rintro (⟨⟨rfl, rfl⟩, -, hne, -⟩ | ⟨-, hc⟩)
      · exact absurd hagree hne
      · exact hc
    · rw [if_pos hagree, or_iff_left fun hchild => hagree hchild.1]
      split
      · next h0 =>
        refine iff_of_false (by simp) ?_
        rintro ⟨⟨rfl, -⟩, hne, -⟩
        exact hne h0
      · next h0 =>
        rw [Option.some.injEq, Conflict.mk.injEq]
        constructor
        · rintro ⟨rfl, rfl, rfl⟩
          exact ⟨⟨rfl, rfl⟩, h0, hagree, rfl⟩
        · rintro ⟨⟨rfl, rfl⟩, -, -, rfl⟩
          exact ⟨rfl, rfl, rfl⟩

lemma Coherent.due (hr : Coherent root parent (u ++ e :: v))
    (hc : conflict (table root u) e = some c) : Due parent (u ++ e :: v) c := by
  rcases conflict_eq_some.mp hc with hup | ⟨htaken, hinode, hdir, hnamed, h0, hne⟩
  · obtain ⟨rfl, h0, hne, hright⟩ := hup
    obtain ⟨hwrong, hparent⟩ := hr.differs u _ v rfl rfl h0 hne
    exact ⟨by simp, hwrong, hright.symm.trans hparent⟩
  · rcases hr.children u _ v rfl htaken with hzero | hsame | ⟨hup, hright⟩
    · rw [hinode, hnamed] at hzero
      exact absurd hzero h0
    · rw [hinode, hnamed, hdir] at hsame
      exact absurd hsame hne
    · rw [hinode, hnamed] at hup
      rw [hinode, hdir] at hright
      exact ⟨hup, hright ▸ hne, hright⟩

lemma Coherent.emitted (hr : Coherent root parent es) (hdue : Due parent es c) :
    Emitted root es c := by
  obtain ⟨place, named, q⟩ := c
  obtain ⟨hup, hwrong, hq⟩ := hdue
  dsimp only at hup hwrong hq
  subst hq
  obtain ⟨u, d, v, rfl, ⟨rfl, h0, hne⟩ | ⟨htaken, hinode, hdir, htold, h0⟩⟩ :=
    hr.heard _ hup rfl hwrong
  · have hright := (hr.differs u _ v rfl rfl h0 hne).2
    exact ⟨u, _, v, rfl, conflict_eq_some.mpr (Or.inl ⟨rfl, h0, hne, hright⟩)⟩
  · exact ⟨u, d, v, rfl,
      conflict_eq_some.mpr (Or.inr ⟨htaken, hinode, hdir, htold, h0, hwrong⟩)⟩

lemma Exact.coherent (hexact : Exact root parent es) : Coherent root parent es := by
  have hdue : ∀ u e v, es = u ++ e :: v → ∀ c, UpSays (table root u) e c ∨
      TakenForChild (table root u) e ∧ ChildSays (table root u) e c → Due parent es c :=
    fun u e v heq c hc => (hexact c).mp ⟨u, e, v, heq, conflict_eq_some.mpr hc⟩
  constructor
  · rintro u ⟨dir, inode, name⟩ v heq rfl h0 hne
    have hc := hdue u _ v heq ⟨dir, inode, table root u inode⟩ (Or.inl ⟨rfl, h0, hne, rfl⟩)
    exact ⟨hc.wrong, hc.right⟩
  · intro u e v heq htaken
    by_cases h0 : table root u e.inode = 0
    · exact Or.inl h0
    by_cases hsame : table root u e.inode = e.dir
    · exact Or.inr (Or.inl hsame)
    have hc := hdue u _ v heq ⟨e.inode, table root u e.inode, e.dir⟩
      (Or.inr ⟨htaken, rfl, rfl, rfl, h0, hsame⟩)
    exact Or.inr (Or.inr ⟨hc.up, hc.right⟩)
  · rintro ⟨dir, inode, name⟩ hmem rfl hwrong
    obtain ⟨u, d, v, heq, hc⟩ := (hexact ⟨dir, inode, parent dir⟩).mpr ⟨hmem, hwrong, rfl⟩
    refine ⟨u, d, v, heq, ?_⟩
    rcases conflict_eq_some.mp hc with ⟨hd, h0, hne, -⟩ | ⟨htaken, hinode, hdir, hnamed, h0, -⟩
    · exact Or.inl ⟨hd, h0, hne⟩
    · exact Or.inr ⟨htaken, hinode, hdir, hnamed, h0⟩

/-- **Exactly when the reports are exact.** -/
theorem exact_iff : Exact root parent es ↔ Coherent root parent es := by
  refine ⟨Exact.coherent, fun hr c => ⟨?_, hr.emitted⟩⟩
  rintro ⟨u, e, v, rfl, hc⟩
  exact hr.due hc

/-! ### Exact reports, in terms of what was said -/

variable (root) in
/-- Each place below the root that has entries is named by at most one ordinary entry, which
stands in its parent. -/
structure Homed (isDir : ℕ → Prop) (parent : ℕ → ℕ) (es : List Entry) : Prop where
  parent_root : parent root = root
  dir : ∀ e ∈ es, isDir e.dir
  once : ∀ x, isDir x → x ≠ root → (holders es x).length ≤ 1
  home : ∀ x, isDir x → x ≠ root → ∀ p ∈ holders es x, p = parent x

variable (root) in
/-- What makes the reports exact as long as no `..` changes what is known of the directory it
names. -/
structure Regular (isDir : ℕ → Prop) (parent : ℕ → ℕ) (es : List Entry) : Prop where
  /-- A `..` for whose directory another parent was told is wrong, and what was told of the one
  it names is the parent of the directory. -/
  differs : ∀ u e v, es = u ++ e :: v → e.name = .up → told root u e.dir ≠ 0 →
    e.inode ≠ told root u e.dir → e.inode ≠ parent e.dir ∧ told root u e.inode = parent e.dir
  /-- Only for directories below the root another parent may have been told before their name is
  read, or for a root that is named in the root. -/
  homes : ∀ u e v, es = u ++ e :: v → e.name = .other → (isDir e.inode ∧ e.inode ≠ root) ∨
    told root u e.inode = 0 ∨ told root u e.inode = e.dir ∨
    e.inode = root ∧ e.dir = root ∧ ⟨e.inode, told root u e.inode, .up⟩ ∈ es
  /-- A wrong `..` is read when another parent has been told, or is what was told last when the
  name of its directory is read. -/
  heard : ∀ e ∈ es, e.name = .up → e.inode ≠ parent e.dir → Somewhere (fun u d =>
    d = e ∧ told root u e.dir ≠ 0 ∧ e.inode ≠ told root u e.dir ∨
    d = ⟨parent e.dir, e.dir, .other⟩ ∧ told root u e.dir = e.inode ∧ e.inode ≠ 0) es

variable {isDir : ℕ → Prop}

/-- What was told of a place that is named but once was told by a `..` of it. -/
lemma Homed.told_up (hh : Homed root isDir parent (u ++ e :: v)) (hname : e.name = .other)
    (hdir : isDir e.inode) (hroot : e.inode ≠ root) (h0 : told root u e.inode ≠ 0) :
    ⟨e.inode, told root u e.inode, .up⟩ ∈ u := by
  obtain ⟨⟨dir, inode, name⟩, hmem, hsaid⟩ : ∃ d ∈ u, parentSaid e.inode d = some _ :=
    (told_cases u e.inode).resolve_right (by rwa [if_neg hroot])
  unfold parentSaid at hsaid
  cases name with
  | self => cases hsaid
  | up =>
    obtain ⟨rfl, hp⟩ := Option.ite_none_right_eq_some.mp hsaid
    rwa [← Option.some.inj hp]
  | other =>
    -- the two entries are two homes
    obtain ⟨hinode, -⟩ := Option.ite_none_right_eq_some.mp hsaid
    have honce := hh.once e.inode hdir hroot
    have hmem : dir ∈ holders u e.inode := mem_holders.mpr ⟨_, hmem, rfl, hinode, rfl⟩
    have hpos := List.length_pos_of_mem hmem
    unfold holders at honce hpos
    rw [List.filter_append, List.filter_cons_of_pos (by simp [hname]), List.map_append,
      List.length_append, List.map_cons, List.length_cons] at honce
    omega

lemma Homed.home_eq (hh : Homed root isDir parent es) (he : e ∈ es) (hname : e.name = .other)
    (hdir : isDir e.inode) (hroot : e.inode ≠ root) : e.dir = parent e.inode :=
  hh.home e.inode hdir hroot e.dir (mem_holders.mpr ⟨e, he, hname, rfl, rfl⟩)

/-- What was told before an entry is what is known there. -/
lemma Agrees.known (h : Agrees root es) (heq : es = u ++ e :: v) : table root u = told root u :=
  table_eq_told (heq ▸ h).left

lemma Agrees.coherent (h : Agrees root es) (hh : Homed root isDir parent es)
    (hr : Regular root isDir parent es) : Coherent root parent es := by
  constructor
  · intro u e v heq
    rw [h.known heq]
    exact hr.differs u e v heq
  · intro u e v heq htaken
    rw [h.known heq] at htaken ⊢
    rcases htaken with hname | ⟨hname, hagree⟩
    · rcases hr.homes u e v heq hname with ⟨hdir, hroot⟩ | hzero | hsame | ⟨hroot, hparent, hup⟩
      · by_cases h0 : told root u e.inode = 0
        · exact Or.inl h0
        · subst heq
          exact Or.inr (Or.inr ⟨List.mem_append_left _ (hh.told_up hname hdir hroot h0),
            hh.home_eq (by simp) hname hdir hroot⟩)
      · exact Or.inl hzero
      · exact Or.inr (Or.inl hsame)
      · exact Or.inr (Or.inr ⟨hup, by rw [hparent, hroot, hh.parent_root]⟩)
    · exact Or.inr (Or.inl (h u e v heq hname hagree))
  · intro e he hname hwrong
    obtain ⟨u, d, v, heq, hd⟩ := hr.heard e he hname hwrong
    refine ⟨u, d, v, heq, ?_⟩
    dsimp only
    rw [h.known heq]
    rcases hd with hd | ⟨rfl, htold⟩
    · exact Or.inl hd
    · exact Or.inr ⟨Or.inl rfl, rfl, rfl, htold⟩

lemma Agrees.regular (h : Agrees root es) (hh : Homed root isDir parent es)
    (hc : Coherent root parent es) : Regular root isDir parent es := by
  constructor
  · intro u e v heq
    rw [← h.known heq]
    exact hc.differs u e v heq
  · intro u e v heq hname
    rcases hc.children u e v heq (Or.inl hname) with hzero | hsame | ⟨hup, hright⟩
    · exact Or.inr (Or.inl (h.known heq ▸ hzero))
    · exact Or.inr (Or.inr (Or.inl (h.known heq ▸ hsame)))
    · by_cases hroot : e.inode = root
      · refine Or.inr (Or.inr (Or.inr ⟨hroot, ?_, h.known heq ▸ hup⟩))
        rw [hright, hroot, hh.parent_root]
      · exact Or.inl ⟨hh.dir _ hup, hroot⟩
  · intro e he hname hwrong
    obtain ⟨u, d, v, heq, hd⟩ := hc.heard e he hname hwrong
    refine ⟨u, d, v, heq, ?_⟩
    rw [h.known heq] at hd
    rcases hd with hd | ⟨hup | ⟨hup, hagree⟩, hinode, hdir, htold, h0⟩
    · exact Or.inl hd
    · obtain ⟨dir, inode, name⟩ := d
      dsimp only at hup hinode hdir
      subst hup hinode hdir
      exact Or.inr ⟨rfl, htold, h0⟩
    · -- the `..` that agrees would make the wrong one right
      have hback := h u d v heq hup hagree
      rw [hinode, htold, hdir] at hback
      exact absurd hback hwrong

/-- **What was said instead of what is known**: as long as no `..` changes what is known of the
directory it names, the reports are exact for regular entries. -/
theorem coherent_iff_regular (hh : Homed root isDir parent es) (hagrees : Agrees root es) :
    Coherent root parent es ↔ Regular root isDir parent es :=
  ⟨hagrees.regular hh, hagrees.coherent hh⟩

end LowLevelTasks.ParentReports
