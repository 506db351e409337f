import Mathlib.Data.List.Pairwise
import Mathlib.Data.Option.Basic
import Mathlib.Order.Lattice
import Mathlib.Tactic.Common

/-!
Learning the parents of directories from their entries. An entry says that one place is the
parent of another: `..` of the directory it stands in, and any other name of the place that it
names. A table keeps the last parent that was said, and an entry that says another one is
reported. One slip makes the outcome depend on the order of the entries: a `..` that agrees
with the table is taken for the name of an ordinary child.
-/

namespace LowLevelTasks.ParentTable

inductive Name where
  | self | up | other
deriving DecidableEq

structure Entry where
  dir : ℕ
  inode : ℕ
  name : Name
deriving DecidableEq

/-- The entry says that `p` is the parent of `x`. -/
def Entry.Says (e : Entry) (x p : ℕ) : Prop :=
  (e.name = .up ∧ e.dir = x ∧ e.inode = p) ∨ (e.name = .other ∧ e.inode = x ∧ e.dir = p)

/-- The parent of the inode is compared with the directory; `none` is a report. -/
def learnChild (t : ℕ → ℕ) (e : Entry) : Option (ℕ → ℕ) :=
  if t e.inode = 0 ∨ t e.inode = e.dir then some (Function.update t e.inode e.dir) else none

def learn (t : ℕ → ℕ) (e : Entry) : Option (ℕ → ℕ) :=
  match e.name with
  | .self => if e.inode = e.dir then some t else none
  | .up =>
    if e.inode ≠ t e.dir then
      if t e.dir = 0 then some (Function.update t e.dir e.inode) else none
    else learnChild t e
  | .other => learnChild t e

/-- The table before the first entry. -/
def initial (root : ℕ) : ℕ → ℕ := Function.update (fun _ => 0) root root

/-- What the `..` entries of a directory name. -/
def ups (es : List Entry) (x : ℕ) : List ℕ :=
  (es.filter fun e => e.name = .up ∧ e.dir = x).map Entry.inode

/-- The directories that hold the other entries for `x`. -/
def holders (es : List Entry) (x : ℕ) : List ℕ :=
  (es.filter fun e => e.name = .other ∧ e.inode = x).map Entry.dir

section

variable {κ : Type} [LinearOrder κ] (key : ℕ → κ) (root : ℕ) (isDir : ℕ → Prop)

/-- Every directory but the root has one `..`, and one other entry in the directory that its
`..` names. -/
structure Rooted (es : List Entry) : Prop where
  dir : ∀ e ∈ es, isDir e.dir
  inode_ne : ∀ e ∈ es, e.inode ≠ 0
  dir_ne : ∀ x, isDir x → x ≠ 0
  self : ∀ e ∈ es, e.name = .self → e.inode = e.dir
  root_up : ups es root = [root]
  root_holders : holders es root = []
  parent : ∀ x, isDir x → x ≠ root → ∃ p, ups es x = [p] ∧ holders es x = [p]

/-- The entries stand in the order of the directories. -/
def Sorted (es : List Entry) : Prop :=
  es.Pairwise fun e e' => e.dir ≠ e'.dir → key e.dir < key e'.dir

/-- The directory with this `..` comes before its parent, or is itself its parent's parent. -/
def UpOk (es : List Entry) (e : Entry) : Prop :=
  e.name = .up → key e.dir < key e.inode ∨
    ∀ e' ∈ es, e'.name = .up → e'.dir = e.inode → e'.inode = e.dir

/-- The two entries do not name one place in two directories. -/
def SameHolder (e e' : Entry) : Prop :=
  e.name = .other → e'.name = .other → e.inode = e'.inode → e.dir = e'.dir

/-- What keeps the table silent. -/
def Orderly (es : List Entry) : Prop :=
  (∀ e ∈ es, UpOk key es e) ∧ ∀ e ∈ es, ∀ e' ∈ es, SameHolder e e'

/-- The table holds what the entries so far have said. -/
structure Inv (done : List Entry) (t : ℕ → ℕ) : Prop where
  told : ∀ e ∈ done, ∀ x p, e.Says x p → t x = p
  untold : ∀ x, (∀ e ∈ done, ∀ p, ¬ e.Says x p) → t x = if x = root then root else 0

variable {key root isDir} {es done rest : List Entry} {e e' : Entry} {t t' : ℕ → ℕ} {x p : ℕ}

lemma mem_ups : p ∈ ups es x ↔ ∃ e ∈ es, e.name = .up ∧ e.dir = x ∧ e.inode = p := by
  simp [ups, and_assoc]

lemma mem_holders : p ∈ holders es x ↔ ∃ e ∈ es, e.name = .other ∧ e.inode = x ∧ e.dir = p := by
  simp [holders, and_assoc]

lemma inv_initial : Inv root [] (initial root) := by
  refine ⟨by simp, fun x _ => ?_⟩
  unfold initial
  rw [Function.update_apply]

/-- An entry that says what the table is changed to keeps the invariant. -/
lemma Inv.snoc (hi : Inv root done t) (hsaid : e.Says x p)
    (honly : ∀ y q, e.Says y q → y = x ∧ q = p) (hagree : t x = p ∨ ∀ d ∈ done, ∀ q, ¬ d.Says x q) :
    Inv root (done ++ [e]) (Function.update t x p) := by
  constructor
  · intro d hd y q hq
    rcases List.mem_append.mp hd with hd | hd
    · by_cases hy : y = x
      · subst hy
        rw [Function.update_self]
        rcases hagree with h | h
        · rw [← h, hi.told d hd y q hq]
        · exact absurd hq (h d hd q)
      · rw [Function.update_of_ne hy, hi.told d hd y q hq]
    · obtain rfl := List.mem_singleton.mp hd
      obtain ⟨rfl, rfl⟩ := honly y q hq
      exact Function.update_self _ _ _
  · intro y hy
    have hyx : y ≠ x := fun h => hy e (by simp) p (h ▸ hsaid)
    rw [Function.update_of_ne hyx]
    exact hi.untold y fun d hd => hy d (by simp [hd])

/-- An entry that says nothing keeps the invariant. -/
lemma Inv.snoc_self (hi : Inv root done t) (he : e.name = .self) : Inv root (done ++ [e]) t := by
  have hnone : ∀ x p, ¬ e.Says x p := fun x p h => by
    rcases h with ⟨h, -⟩ | ⟨h, -⟩ <;> simp [he] at h
  constructor
  · intro d hd y q hq
    rcases List.mem_append.mp hd with hd | hd
    · exact hi.told d hd y q hq
    · exact absurd hq (List.mem_singleton.mp hd ▸ hnone y q)
  · exact fun y hy => hi.untold y fun d hd => hy d (by simp [hd])

lemma says_up (he : e.name = .up) : e.Says x p ↔ e.dir = x ∧ e.inode = p := by
  simp [Entry.Says, he]

lemma says_other (he : e.name = .other) : e.Says x p ↔ e.inode = x ∧ e.dir = p := by
  simp [Entry.Says, he]

/-! ### What the entries of a tree say -/

lemma Rooted.says_ne_zero (h : Rooted root isDir es) (he : e ∈ es) (hs : e.Says x p) : p ≠ 0 := by
  rcases hs with ⟨-, -, rfl⟩ | ⟨-, -, rfl⟩
  · exact h.inode_ne e he
  · exact h.dir_ne _ (h.dir e he)

lemma Rooted.ups_eq (h : Rooted root isDir es) (hx : isDir x) : ∃ p, ups es x = [p] := by
  by_cases hroot : x = root
  · exact ⟨root, hroot ▸ h.root_up⟩
  · obtain ⟨p, hp, -⟩ := h.parent x hx hroot
    exact ⟨p, hp⟩

/-- A directory has one `..`. -/
lemma Rooted.up_unique (h : Rooted root isDir (done ++ e :: rest)) (he : e.name = .up) :
    ∀ d ∈ done, d.name = .up → d.dir ≠ e.dir := by
  intro d hd hup hdir
  obtain ⟨p, hp⟩ := h.ups_eq (h.dir e (by simp))
  have hmem : d.inode ∈ ups done e.dir := mem_ups.mpr ⟨d, hd, hup, hdir, rfl⟩
  have hlen := congrArg List.length hp
  have hpos := List.length_pos_of_mem hmem
  simp only [ups, List.filter_append, List.filter_cons, he, decide_true, and_self, if_true,
    List.map_append, List.length_append, List.map_cons, List.length_cons] at hlen hpos
  simp only [List.length_nil] at hlen
  omega

lemma Rooted.says_root (h : Rooted root isDir es) (he : e ∈ es) (hs : e.Says root p) :
    p = root := by
  rcases hs with ⟨hn, hd, rfl⟩ | ⟨hn, hi, -⟩
  · have : e.inode ∈ ups es root := mem_ups.mpr ⟨e, he, hn, hd, rfl⟩
    simpa [h.root_up] using this
  · have : e.dir ∈ holders es root := mem_holders.mpr ⟨e, he, hn, hi, rfl⟩
    simp [h.root_holders] at this

/-- What is said of a directory below the root is its one parent. -/
lemma Rooted.says_eq (h : Rooted root isDir es) (hx : isDir x) (hroot : x ≠ root)
    (he : e ∈ es) (hs : e.Says x p) : ups es x = [p] ∧ holders es x = [p] := by
  obtain ⟨q, hup, hh⟩ := h.parent x hx hroot
  suffices p = q by rw [this]; exact ⟨hup, hh⟩
  rcases hs with ⟨hn, hd, hp⟩ | ⟨hn, hi, hp⟩
  · simpa [hup] using mem_ups.mpr ⟨e, he, hn, hd, hp⟩
  · simpa [hh] using mem_holders.mpr ⟨e, he, hn, hi, hp⟩

lemma Sorted.before (hs : Sorted key (done ++ e :: rest)) {d : Entry} (hd : d ∈ done)
    (hne : d.dir ≠ e.dir) : key d.dir < key e.dir :=
  (List.pairwise_append.mp hs).2.2 d hd e (by simp) hne

lemma Sorted.after (hs : Sorted key (done ++ e :: rest)) {d : Entry} (hd : d ∈ rest)
    (hne : e.dir ≠ d.dir) : key e.dir < key d.dir :=
  List.rel_of_pairwise_cons (List.pairwise_append.mp hs).2.1 hd hne

lemma Inv.untold_of_zero (h : Rooted root isDir (done ++ rest)) (hi : Inv root done t)
    (hx : t x = 0) : ∀ d ∈ done, ∀ q, ¬ d.Says x q := fun d hd q hq =>
  h.says_ne_zero (List.mem_append_left _ hd) hq (by rw [← hi.told d hd x q hq, hx])

/-! ### One entry -/

/-- **One ordinary entry** is silent if the entries before it name its place in no other
directory. -/
lemma learn_other (h : Rooted root isDir (done ++ e :: rest)) (hi : Inv root done t)
    (he : e.name = .other) :
    ((learn t e).isSome ↔ ∀ d ∈ done, SameHolder d e) ∧
      ∀ t', learn t e = some t' → Inv root (done ++ [e]) t' := by
  have hmem : e ∈ done ++ e :: rest := by simp
  have hroot : e.inode ≠ root := fun hr => by
    have : e.dir ∈ holders (done ++ e :: rest) root := mem_holders.mpr ⟨e, hmem, he, hr, rfl⟩
    simp [h.root_holders] at this
  have hsaid : e.Says e.inode e.dir := (says_other he).mpr ⟨rfl, rfl⟩
  have hlearn : learn t e = learnChild t e := by simp [learn, he]
  rw [hlearn]
  unfold learnChild
  refine ⟨?_, fun t' ht' => ?_⟩
  · rw [Option.isSome_ite]
    constructor
    · intro hq d hd hn _ hinode
      have hds : d.Says e.inode d.dir := (says_other hn).mpr ⟨hinode, rfl⟩
      have hne := h.says_ne_zero (List.mem_append_left _ hd) hds
      rw [hi.told d hd _ _ hds] at hq
      exact hq.resolve_left hne
    · intro hsame
      by_cases htold : ∃ d ∈ done, ∃ q, d.Says e.inode q
      · right
        obtain ⟨d, hd, q, hq⟩ := htold
        rw [hi.told d hd _ _ hq]
        have hd' : d ∈ done ++ e :: rest := List.mem_append_left _ hd
        rcases hq with ⟨hn, hdir, rfl⟩ | ⟨hn, hinode, rfl⟩
        · -- `..` of a directory and its ordinary entry name the same parent
          have hx : isDir e.inode := hdir ▸ h.dir d hd'
          have h1 := (h.says_eq hx hroot hd' ((says_up hn).mpr ⟨hdir, rfl⟩)).1
          have h2 := (h.says_eq hx hroot hmem hsaid).1
          simpa using h1.symm.trans h2
        · exact hsame d hd hn he hinode
      · left
        push Not at htold
        rw [hi.untold _ htold, if_neg hroot]
  · obtain ⟨hq, heq⟩ := Option.ite_none_right_eq_some.mp ht'
    obtain rfl := Option.some.inj heq
    refine hi.snoc hsaid (fun y q hyq => ?_) ?_
    · obtain ⟨rfl, rfl⟩ := (says_other he).mp hyq
      exact ⟨rfl, rfl⟩
    · rcases hq with hq | hq
      · exact Or.inr (hi.untold_of_zero h hq)
      · exact Or.inl hq

lemma learn_up_agree (he : e.name = .up) (h : t e.dir = e.inode) :
    learn t e = learnChild t e := by
  simp [learn, he, h]

/-- `..` of the root is silent. -/
lemma learn_up_root (h : Rooted root isDir (done ++ e :: rest)) (hi : Inv root done t)
    (he : e.name = .up) (hdir : e.dir = root) :
    learn t e = some t ∧ Inv root (done ++ [e]) t ∧ UpOk key (done ++ e :: rest) e := by
  have hsaid : e.Says root e.inode := (says_up he).mpr ⟨hdir, rfl⟩
  have hinode : e.inode = root := h.says_root (by simp) hsaid
  have ht : t root = root := by
    by_cases htold : ∃ d ∈ done, ∃ q, d.Says root q
    · obtain ⟨d, hd, q, hq⟩ := htold
      rw [hi.told d hd _ _ hq, h.says_root (List.mem_append_left _ hd) hq]
    · push Not at htold
      rw [hi.untold _ htold, if_pos rfl]
  have hupd : Function.update t root root = t := by
    conv_lhs => rw [← ht]
    rw [ht, Function.update_eq_self_iff, ht]
  refine ⟨?_, ?_, fun _ => Or.inr fun d hd hn hdi => ?_⟩
  · rw [learn_up_agree he (by rw [hdir, hinode, ht])]
    simp [learnChild, hdir, hinode, ht, hupd]
  · rw [← hupd]
    refine hi.snoc (hinode ▸ hsaid) (fun y q hyq => ?_) (Or.inl ht)
    obtain ⟨rfl, rfl⟩ := (says_up he).mp hyq
    exact ⟨hdir, hinode⟩
  · rw [hdir]
    exact h.says_root hd ((says_up hn).mpr ⟨hdi.trans hinode, rfl⟩)

/-- `..` before the ordinary entry of its directory is silent. -/
lemma learn_up_untold (h : Rooted root isDir (done ++ e :: rest))
    (hs : Sorted key (done ++ e :: rest)) (hi : Inv root done t) (he : e.name = .up)
    (hroot : e.dir ≠ root) (htold : ∀ d ∈ done, ∀ q, ¬ d.Says e.dir q) :
    learn t e = some (Function.update t e.dir e.inode) ∧
      Inv root (done ++ [e]) (Function.update t e.dir e.inode) ∧
      UpOk key (done ++ e :: rest) e := by
  have hmem : e ∈ done ++ e :: rest := by simp
  have hsaid : e.Says e.dir e.inode := (says_up he).mpr ⟨rfl, rfl⟩
  obtain ⟨hups, hholders⟩ := h.says_eq (h.dir e hmem) hroot hmem hsaid
  have ht : t e.dir = 0 := by rw [hi.untold _ htold, if_neg hroot]
  refine ⟨?_, ?_, fun _ => ?_⟩
  · simp [learn, he, ht, h.inode_ne e hmem]
  · refine hi.snoc hsaid (fun y q hyq => ?_) (Or.inr htold)
    obtain ⟨rfl, rfl⟩ := (says_up he).mp hyq
    exact ⟨rfl, rfl⟩
  · by_cases hself : e.inode = e.dir
    · -- the directory is its own parent
      refine Or.inr fun d hd hn hdi => ?_
      have : d.inode ∈ ups (done ++ e :: rest) e.dir :=
        mem_ups.mpr ⟨d, hd, hn, hdi.trans hself, rfl⟩
      rw [hups, List.mem_singleton] at this
      rw [this, hself]
    · left
      have hd : e.inode ∈ holders (done ++ e :: rest) e.dir := by simp [hholders]
      obtain ⟨d, hd, hn, hdi, hdd⟩ := mem_holders.mp hd
      rw [← hdd] at hself ⊢
      rcases List.mem_append.mp hd with hd | hd
      · exact absurd ((says_other hn).mpr ⟨hdi, rfl⟩) (htold d hd _)
      · rcases List.mem_cons.mp hd with rfl | hd
        · simp [he] at hn
        · exact hs.after hd (Ne.symm hself)

/-- `..` behind the ordinary entry of its directory is compared with the parent's parent. -/
lemma learn_up_told (h : Rooted root isDir (done ++ e :: rest))
    (hs : Sorted key (done ++ e :: rest)) (hi : Inv root done t) (he : e.name = .up)
    (hroot : e.dir ≠ root) {d : Entry} (hd : d ∈ done) (hds : d.Says e.dir p) :
    ((learn t e).isSome ↔ UpOk key (done ++ e :: rest) e) ∧
      ∀ t', learn t e = some t' → Inv root (done ++ [e]) t' := by
  have hmem : e ∈ done ++ e :: rest := by simp
  have hmemd : d ∈ done ++ e :: rest := List.mem_append_left _ hd
  have hsaid : e.Says e.dir e.inode := (says_up he).mpr ⟨rfl, rfl⟩
  have hp : p = e.inode := by
    have h1 := (h.says_eq (h.dir e hmem) hroot hmemd hds).1
    have h2 := (h.says_eq (h.dir e hmem) hroot hmem hsaid).1
    simpa using h1.symm.trans h2
  subst hp
  have ht : t e.dir = e.inode := hi.told d hd _ _ hds
  obtain ⟨hdn, hdi, hdd⟩ : d.name = .other ∧ d.inode = e.dir ∧ d.dir = e.inode := by
    rcases hds with ⟨hn, hdir, -⟩ | hds
    · exact absurd hdir (h.up_unique he d hd hn)
    · exact hds
  rw [learn_up_agree he ht]
  unfold learnChild
  -- the entries of the parent are all behind, so that its own `..` has been told
  have hup : ∀ u ∈ done ++ e :: rest, u.name = .up → u.dir = e.inode →
      t e.inode = u.inode ∧ u.inode ≠ 0 := by
    intro u hu hn hdir
    refine ⟨?_, h.inode_ne u hu⟩
    by_cases hself : e.inode = e.dir
    · have hsu : u.Says e.dir u.inode := (says_up hn).mpr ⟨hdir.trans hself, rfl⟩
      have h1 := (h.says_eq (h.dir e hmem) hroot hu hsu).1
      have h2 := (h.says_eq (h.dir e hmem) hroot hmem hsaid).1
      rw [hself, ht]
      simpa using h2.symm.trans h1
    · have hbefore : key e.inode < key e.dir := hdd ▸ hs.before hd (by rwa [hdd])
      rcases List.mem_append.mp hu with hu | hu
      · exact hi.told u hu _ _ ((says_up hn).mpr ⟨hdir, rfl⟩)
      · rcases List.mem_cons.mp hu with rfl | hu
        · exact absurd hdir.symm hself
        · have hafter := hs.after hu (by rw [hdir]; exact Ne.symm hself)
          rw [hdir] at hafter
          exact absurd hafter hbefore.not_gt
  obtain ⟨q, hq⟩ : ∃ q, ups (done ++ e :: rest) e.inode = [q] :=
    h.ups_eq (hdd ▸ h.dir d hmemd)
  obtain ⟨u, hu, hun, hud, -⟩ := mem_ups.mp (by rw [hq]; exact List.mem_singleton_self q)
  obtain ⟨htu, hune⟩ := hup u hu hun hud
  refine ⟨?_, fun t' ht' => ?_⟩
  · rw [Option.isSome_ite]
    constructor
    · intro hquiet _
      right
      intro u' hu' hn' hdir'
      obtain ⟨htu', hne'⟩ := hup u' hu' hn' hdir'
      rw [htu'] at hquiet
      exact hquiet.resolve_left hne'
    · intro hok
      right
      rcases hok he with hlt | hall
      · have hne : d.dir ≠ e.dir := fun hh => by
          rw [← hdd, hh] at hlt
          exact hlt.false
        exact absurd hlt (hdd ▸ hs.before hd hne).not_gt
      · rw [htu, hall u hu hun hud]
  · obtain ⟨hq, heq⟩ := Option.ite_none_right_eq_some.mp ht'
    obtain rfl := Option.some.inj heq
    have hagain : t e.inode = e.dir := hq.resolve_left (by rw [htu]; exact hune)
    rw [Function.update_eq_self_iff.mpr hagain.symm]
    have := hi.snoc (e := e) hsaid (fun y q hyq => ?_) (Or.inl ht)
    · rwa [Function.update_eq_self_iff.mpr ht.symm] at this
    · obtain ⟨rfl, rfl⟩ := (says_up he).mp hyq
      exact ⟨rfl, rfl⟩

/-- **One entry** is silent if its `..` is in order and no entry before it names its place in
another directory. -/
theorem learn_iff (h : Rooted root isDir (done ++ e :: rest))
    (hs : Sorted key (done ++ e :: rest)) (hi : Inv root done t) :
    ((learn t e).isSome ↔ UpOk key (done ++ e :: rest) e ∧ ∀ d ∈ done, SameHolder d e) ∧
      ∀ t', learn t e = some t' → Inv root (done ++ [e]) t' := by
  cases he : e.name with
  | self =>
    have hlearn : learn t e = some t := by simp [learn, he, h.self e (by simp) he]
    rw [hlearn]
    refine ⟨by simp [UpOk, SameHolder, he], fun t' ht' => ?_⟩
    rw [← Option.some.inj ht']
    exact hi.snoc_self he
  | up =>
    have hsame : (∀ d ∈ done, SameHolder d e) ↔ True := by simp [SameHolder, he]
    rw [hsame, and_true]
    by_cases hroot : e.dir = root
    · obtain ⟨hlearn, hinv, hok⟩ : learn t e = some t ∧ Inv root (done ++ [e]) t ∧
          UpOk key (done ++ e :: rest) e := learn_up_root h hi he hroot
      rw [hlearn]
      exact ⟨by simp [hok], fun t' ht' => Option.some.inj ht' ▸ hinv⟩
    · by_cases htold : ∃ d ∈ done, ∃ q, d.Says e.dir q
      · obtain ⟨d, hd, q, hq⟩ := htold
        exact learn_up_told h hs hi he hroot hd hq
      · push Not at htold
        obtain ⟨hlearn, hinv, hok⟩ := learn_up_untold h hs hi he hroot htold
        rw [hlearn]
        exact ⟨by simp [hok], fun t' ht' => Option.some.inj ht' ▸ hinv⟩
  | other =>
    obtain ⟨hiff, hinv⟩ := learn_other h hi he
    refine ⟨?_, hinv⟩
    rw [hiff]
    simp [UpOk, he]

lemma learned_run_iff (h : Rooted root isDir (done ++ rest)) (hs : Sorted key (done ++ rest))
    (hi : Inv root done t) :
    (rest.foldlM learn t).isSome ↔ (∀ e ∈ rest, UpOk key (done ++ rest) e) ∧
      (∀ d ∈ done, ∀ e ∈ rest, SameHolder d e) ∧ rest.Pairwise SameHolder := by
  induction rest generalizing done t with
  | nil => simp
  | cons e rest ih =>
    obtain ⟨hiff, hinv⟩ := learn_iff h hs hi
    rw [List.foldlM_cons, List.forall_mem_cons, List.pairwise_cons]
    cases hl : learn t e with
    | none =>
      rw [hl] at hiff
      simp only [Option.isSome_none, Bool.false_eq_true, false_iff] at hiff
      refine iff_of_false (by simp) fun hall => hiff ⟨hall.1.1, fun d hd => ?_⟩
      exact hall.2.1 d hd e (by simp)
    | some t' =>
      rw [hl] at hiff
      obtain ⟨hok, hsame⟩ := hiff.mp rfl
      rw [List.append_cons] at h hs hok ⊢
      have := ih h hs (hinv t' hl)
      simp only [Option.bind_eq_bind, Option.bind_some, this, List.forall_mem_append,
        List.forall_mem_singleton, List.forall_mem_cons]
      constructor
      · rintro ⟨hall, ⟨hdone, he⟩, hpair⟩
        exact ⟨⟨hok, hall⟩, fun d hd => ⟨hsame d hd, hdone d hd⟩, he, hpair⟩
      · rintro ⟨⟨-, hall⟩, hdone, he, hpair⟩
        exact ⟨hall, ⟨fun d hd => (hdone d hd).2, he⟩, hpair⟩

instance : Std.Symm SameHolder := ⟨fun _ _ h hn hn' hi => (h hn' hn hi.symm).symm⟩

lemma pairwise_sameHolder_iff :
    es.Pairwise SameHolder ↔ ∀ e ∈ es, ∀ e' ∈ es, SameHolder e e' := by
  constructor
  · intro hp e he e' he'
    by_cases hee : e = e'
    · exact fun _ _ _ => by rw [hee]
    · exact hp.forall he he' hee
  · exact fun hall => List.pairwise_of_forall_mem_list hall

/-- **A tree is learned in silence** if and only if its entries are orderly. -/
theorem learned_iff_orderly (h : Rooted root isDir es) (hs : Sorted key es) :
    (es.foldlM learn (initial root)).isSome ↔ Orderly key es := by
  have hrun : (es.foldlM learn (initial root)).isSome ↔ (∀ e ∈ es, UpOk key ([] ++ es) e) ∧
      (∀ d ∈ ([] : List Entry), ∀ e ∈ es, SameHolder d e) ∧ es.Pairwise SameHolder :=
    learned_run_iff h hs inv_initial
  rw [hrun, pairwise_sameHolder_iff]
  simp [Orderly]

/-- Whether entries are orderly does not depend on where they stand. -/
lemma orderly_perm {es' : List Entry} (hp : es.Perm es') : Orderly key es ↔ Orderly key es' := by
  simp only [Orderly, UpOk, hp.mem_iff]

end

end LowLevelTasks.ParentTable
