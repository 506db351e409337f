import LowLevelTasks.SortedListSpec
import LowLevelTasks.Sublists

/-!
Partitioning the list into sublists does not change it.

One thread inserts elements, and looks elements up by key and deletes what it finds, each
time in the sublist that `get_bin` names. The sublists in order, node for node, are the list
that the same operations build when there is only one.
-/

namespace LowLevelTasks.Partition

open LowLevelTasks.Strings LowLevelTasks.SortedList LowLevelTasks.SortedSeq
open LowLevelTasks.SortedListSpec LowLevelTasks.Sublists

/-- The operations of `list_operations`, each on the element with the given index. -/
inductive Op
  | insert (n : ℕ)
  | lookupDelete (n : ℕ)

/-- How the program ends before its time: no sublist for a key, a lookup without a match, a
deletion that reports corruption, or a NULL key. -/
inductive Exit
  | invalidKey | noMatch | corrupted | nullKey
  deriving DecidableEq

def Op.index : Op → ℕ
  | .insert n => n
  | .lookupDelete n => n

/-- The sublist an operation works on. -/
def binOf (numLists : ℕ) (h : Heap Addr) (n : ℕ) : Except Exit (CString × ℕ) :=
  match (h (.elem n)).key with
  | none => .error .nullKey
  | some key =>
    match getBin numLists key with
    | none => .error .invalidKey
    | some bin => .ok (key, bin)

/-- One pass through a loop of `list_operations`. -/
def exec (numLists numElements : ℕ) (h : Heap Addr) : Op → Except Exit (Heap Addr)
  | .insert n => do
    let (_, bin) ← binOf numLists h n
    match sortedListInsert numElements h (.list bin) (.elem n) with
    | none => .error .nullKey
    | some h' => .ok h'
  | .lookupDelete n => do
    let (key, bin) ← binOf numLists h n
    match sortedListLookup numElements h (.list bin) key with
    | none => .error .nullKey
    | some none => .error .noMatch
    | some (some matching) =>
      let (h', code) := sortedListDelete h matching
      if code = 1 then .error .corrupted else .ok h'

def execAll (numLists numElements : ℕ) : Heap Addr → List Op → Except Exit (Heap Addr)
  | h, [] => .ok h
  | h, op :: ops => do
    let h' ← exec numLists numElements h op
    execAll numLists numElements h' ops

/-! ### The one sequence behind all the lists -/

/-- The sequence of the indices of the elements; `none` when a lookup finds nothing. -/
def absExec (κ : ℕ → CString) (xs : List ℕ) : Op → Option (List ℕ)
  | .insert n => some (insertSorted κ n xs)
  | .lookupDelete n => (xs.find? fun x => decide (κ x = κ n)).map xs.erase

/-- An element to insert is not in the list, which has room for it. -/
def Legal (numElements : ℕ) (xs : List ℕ) : Op → Prop
  | .insert n => n ∉ xs ∧ xs.length < numElements
  | .lookupDelete _ => True

def LegalRun (numElements : ℕ) (κ : ℕ → CString) : List ℕ → List Op → Prop
  | _, [] => True
  | xs, op :: ops => Legal numElements xs op ∧
      match absExec κ xs op with
      | none => True
      | some xs' => LegalRun numElements κ xs' ops

instance instDecidableLegal (numElements : ℕ) (xs : List ℕ) :
    ∀ op, Decidable (Legal numElements xs op)
  | .insert n => inferInstanceAs (Decidable (n ∉ xs ∧ xs.length < numElements))
  | .lookupDelete _ => inferInstanceAs (Decidable True)

instance instDecidableLegalRun (numElements : ℕ) (κ : ℕ → CString) :
    ∀ xs ops, Decidable (LegalRun numElements κ xs ops)
  | _, [] => inferInstanceAs (Decidable True)
  | xs, op :: ops =>
    match hx : absExec κ xs op with
    | none => decidable_of_iff (Legal numElements xs op) (by simp [LegalRun, hx])
    | some xs' =>
      have := instDecidableLegalRun numElements κ xs' ops
      decidable_of_iff (Legal numElements xs op ∧ LegalRun numElements κ xs' ops)
        (by simp [LegalRun, hx])

/-- The abstract run. -/
def absAll (κ : ℕ → CString) : List ℕ → List Op → Option (List ℕ)
  | xs, [] => some xs
  | xs, op :: ops => (absExec κ xs op).bind fun xs' => absAll κ xs' ops

/-- The element keys of a heap, as a function of the index. -/
def elemKey (h : Heap Addr) (n : ℕ) : CString := h.keyOf (.elem n)

/-- Memory at the start: empty heads, and elements with visible keys. -/
structure Initial (h : Heap Addr) : Prop where
  heads : ∀ b, h (.list b) = ⟨none, none, none⟩
  keys : ∀ n, (h (.elem n)).key = some (elemKey h n)
  visible : ∀ n, Visible (elemKey h n)

/-- `bin` is the sublist of every element. -/
def Bins (numLists : ℕ) (h : Heap Addr) (bin : ℕ → ℕ) : Prop :=
  ∀ n, getBin numLists (elemKey h n) = some (bin n) ∧ bin n < numLists

/-- The nodes of one sublist, without the head. -/
def nodes (bin : ℕ → ℕ) (b : ℕ) (xs : List ℕ) : List Addr := (binPart bin b xs).map .elem

/-- The heap holds the sequence `xs`, cut into `numLists` sublists. -/
structure Inv (numLists numElements : ℕ) (bin : ℕ → ℕ) (h₀ h : Heap Addr) (xs : List ℕ) :
    Prop where
  repr : ∀ b < numLists, Represents h (.list b) (nodes bin b xs)
  asc : Ascending (elemKey h₀) xs
  bound : xs.length ≤ numElements
  key : ∀ a, (h a).key = (h₀ a).key

section

variable {numLists numElements : ℕ} {bin : ℕ → ℕ} {h₀ h : Heap Addr} {xs : List ℕ}

lemma exists_bins (h0 : Initial h₀) (hpos : 0 < numLists) : ∃ bin, Bins numLists h₀ bin := by
  refine ⟨fun n => (getBin numLists (elemKey h₀ n)).getD 0, fun n => ?_⟩
  obtain ⟨b, hb, hlt⟩ := getBin_isSome hpos (h0.visible n).deref_le
  simp [hb, hlt]

lemma Inv.keyOf (hi : Inv numLists numElements bin h₀ h xs) : h.keyOf = h₀.keyOf :=
  Heap.keyOf_congr hi.key

lemma binOf_eq (h0 : Initial h₀) (hb : Bins numLists h₀ bin)
    (hi : Inv numLists numElements bin h₀ h xs) (n : ℕ) :
    binOf numLists h n = .ok (elemKey h₀ n, bin n) := by
  simp [binOf, hi.key, h0.keys n, (hb n).1]

lemma nodes_length_le (bin : ℕ → ℕ) (b : ℕ) (xs : List ℕ) :
    (nodes bin b xs).length ≤ xs.length := by
  rw [nodes, List.length_map]
  exact List.length_filter_le _ xs

lemma elem_mem_nodes {b n : ℕ} : Addr.elem n ∈ nodes bin b xs ↔ n ∈ xs ∧ bin n = b := by
  simp [nodes, Addr.elem_injective.eq_iff]

lemma list_notMem_nodes {b c : ℕ} : Addr.list c ∉ nodes bin b xs := by
  simp [nodes]

/-- Two sublists have no cell in common. -/
lemma cells_disjoint {b c : ℕ} (hbc : b ≠ c) {a : Addr} (ha : a ∈ .list b :: nodes bin b xs) :
    a ∉ .list c :: nodes bin c xs := by
  cases a with
  | list d =>
    simp only [List.mem_cons, Addr.list.injEq, list_notMem_nodes, or_false] at ha ⊢
    omega
  | elem n =>
    simp only [List.mem_cons, reduceCtorEq, elem_mem_nodes, false_or] at ha ⊢
    omega

/-- The sublists after an insertion. -/
lemma nodes_insertSorted (h : Ascending (elemKey h₀) xs) (n b : ℕ) :
    nodes bin b (insertSorted (elemKey h₀) n xs) =
      if b = bin n then insertSorted h₀.keyOf (.elem n) (nodes bin b xs) else nodes bin b xs := by
  rw [nodes, binPart, filter_insertSorted h]
  by_cases hb : b = bin n
  · rw [if_pos (by simp [hb]), if_pos hb, nodes, insertSorted_map]; rfl
  · rw [if_neg (by simpa using Ne.symm hb), if_neg hb]; rfl

/-- The sublists after a removal. -/
lemma nodes_erase (hnd : xs.Nodup) (m b : ℕ) :
    nodes bin b (xs.erase m) =
      if b = bin m then (nodes bin b xs).erase (.elem m) else nodes bin b xs := by
  rw [nodes, binPart, hnd.erase_eq_filter, List.filter_filter]
  by_cases hb : b = bin m
  · have hndb : (binPart bin b xs).Nodup := hnd.filter _
    rw [if_pos hb, nodes, ← List.map_erase Addr.elem_injective, hndb.erase_eq_filter, binPart,
      List.filter_filter]
    congr 1
    exact List.filter_congr fun x _ => Bool.and_comm _ _
  · rw [if_neg hb, nodes, binPart]
    congr 1
    refine List.filter_congr fun x _ => ?_
    by_cases hx : x = m
    · subst hx; simp [Ne.symm hb]
    · simp [hx]

/-- Looking for a key in its sublist is looking for it in the sequence. -/
lemma find?_nodes (hbin : ∀ m n, elemKey h₀ m = elemKey h₀ n → bin m = bin n) (n : ℕ) :
    (nodes bin (bin n) xs).find? (fun a => decide (h₀.keyOf a = elemKey h₀ n)) =
      (xs.find? fun x => decide (elemKey h₀ x = elemKey h₀ n)).map .elem := by
  rw [nodes, List.find?_map, binPart, List.find?_filter]
  congr 2
  funext x
  have hx : h₀.keyOf (.elem x) = elemKey h₀ x := rfl
  by_cases he : elemKey h₀ x = elemKey h₀ n
  · simp [hx, he, hbin x n he]
  · simp [hx, he]

/-- What an operation on the element `n` may not touch. -/
def Framed (bin : ℕ → ℕ) (xs : List ℕ) (n : ℕ) (h h' : Heap Addr) : Prop :=
  ∀ b, b ≠ bin n → ∀ a ∈ Addr.list b :: nodes bin b xs, h' a = h a

/-- **Insertion** works on one sublist and leaves the others alone. -/
lemma inv_insert (h0 : Initial h₀) (hb : Bins numLists h₀ bin)
    (hi : Inv numLists numElements bin h₀ h xs) {n : ℕ} (hl : Legal numElements xs (.insert n)) :
    ∃ h', exec numLists numElements h (.insert n) = .ok h' ∧
      Inv numLists numElements bin h₀ h' (insertSorted (elemKey h₀) n xs) ∧
      Framed bin xs n h h' := by
  obtain ⟨hn, hroom⟩ := hl
  obtain ⟨h', hins, hrep, hkeys, hframe⟩ := insert_spec (x := .elem n) (hi.repr _ (hb n).2)
    (by simp [elem_mem_nodes, hn]) ((hi.key _).trans (h0.keys n))
    ((nodes_length_le bin (bin n) xs).trans_lt hroom)
  have hother : Framed bin xs n h h' := by
    intro b hbn a ha
    refine hframe a fun hm => ?_
    rcases List.mem_cons.mp hm with rfl | hm
    · simp [elem_mem_nodes, hn] at ha
    · exact cells_disjoint hbn ha hm
  refine ⟨h', ?_, ⟨fun b hlt => ?_, hi.asc.insertSorted n, ?_, fun a => ?_⟩, hother⟩
  · simp [exec, binOf_eq h0 hb hi n, hins, bind, Except.bind]
  · rw [nodes_insertSorted hi.asc]
    by_cases hbn : b = bin n
    · rw [if_pos hbn, ← hi.keyOf, hbn]
      exact hrep
    · rw [if_neg hbn]
      exact (hi.repr b hlt).frame (hother b hbn)
  · rw [length_insertSorted]; omega
  · exact (hkeys a).trans (hi.key a)

lemma Inv.nodup (hb : Bins numLists h₀ bin) (hi : Inv numLists numElements bin h₀ h xs) :
    xs.Nodup := by
  rw [List.nodup_iff_count_le_one]
  intro n
  have hnd := (List.nodup_cons.mp (hi.repr _ (hb n).2).nodup).2
  have hc := List.nodup_iff_count_le_one.mp (List.Nodup.of_map _ hnd) n
  rwa [binPart, List.count_filter (by simp)] at hc

/-- **Lookup and deletion** work on one sublist and leave the others alone. -/
lemma inv_lookupDelete (h0 : Initial h₀) (hb : Bins numLists h₀ bin)
    (hi : Inv numLists numElements bin h₀ h xs) (n : ℕ) :
    match absExec (elemKey h₀) xs (.lookupDelete n) with
    | none => exec numLists numElements h (.lookupDelete n) = .error .noMatch
    | some xs' => ∃ h', exec numLists numElements h (.lookupDelete n) = .ok h' ∧
        Inv numLists numElements bin h₀ h' xs' ∧ Framed bin xs n h h' := by
  have hsame : ∀ m n, elemKey h₀ m = elemKey h₀ n → bin m = bin n := fun m n e => by
    have hm := (hb m).1
    rw [e, (hb n).1] at hm
    exact (Option.some.inj hm).symm
  have hrep := hi.repr _ (hb n).2
  have hlook := lookup_spec hrep ((nodes_length_le _ _ _).trans hi.bound) (elemKey h₀ n)
  rw [hi.keyOf, find?_nodes hsame] at hlook
  simp only [absExec]
  cases hm : xs.find? (fun x => decide (elemKey h₀ x = elemKey h₀ n)) with
  | none =>
    rw [hm] at hlook
    simp [exec, binOf_eq h0 hb hi n, hlook, bind, Except.bind]
  | some m =>
    rw [hm] at hlook
    have hmx : m ∈ xs := List.mem_of_find?_eq_some hm
    have hmb : bin m = bin n := hsame m n (by simpa using List.find?_some hm)
    obtain ⟨h', hdel, hrep', hkeys, -, -, hframe⟩ :=
      sortedListDelete_spec hrep (elem_mem_nodes.mpr ⟨hmx, hmb⟩)
    have hother : Framed bin xs n h h' := fun b hbn a ha => hframe a (cells_disjoint hbn ha)
    refine ⟨h', ?_, ⟨fun b hlt => ?_, hi.asc.sublist List.erase_sublist, ?_, fun a => ?_⟩, hother⟩
    · simp [exec, binOf_eq h0 hb hi n, hlook, hdel, bind, Except.bind]
    · rw [nodes_erase (hi.nodup hb), hmb]
      by_cases hbn : b = bin n
      · rw [if_pos hbn, hbn]
        exact hrep'
      · rw [if_neg hbn]
        exact (hi.repr b hlt).frame (hother b hbn)
    · have := List.length_erase_le (a := m) (l := xs)
      have := hi.bound
      omega
    · exact (hkeys a).trans (hi.key a)

/-- One operation, as the sequence sees it. -/
lemma inv_step (h0 : Initial h₀) (hb : Bins numLists h₀ bin)
    (hi : Inv numLists numElements bin h₀ h xs) {op : Op} (hl : Legal numElements xs op) :
    match absExec (elemKey h₀) xs op with
    | none => exec numLists numElements h op = .error .noMatch
    | some xs' => ∃ h', exec numLists numElements h op = .ok h' ∧
        Inv numLists numElements bin h₀ h' xs' ∧ Framed bin xs op.index h h' := by
  cases op with
  | insert n => exact inv_insert h0 hb hi hl
  | lookupDelete n => exact inv_lookupDelete h0 hb hi n

/-- **The run lemma.** The sublists follow the sequence through every legal run. -/
lemma inv_run (h0 : Initial h₀) (hb : Bins numLists h₀ bin)
    (hi : Inv numLists numElements bin h₀ h xs) {ops : List Op}
    (hl : LegalRun numElements (elemKey h₀) xs ops) :
    match absAll (elemKey h₀) xs ops with
    | none => execAll numLists numElements h ops = .error .noMatch
    | some xs' => ∃ h', execAll numLists numElements h ops = .ok h' ∧
        Inv numLists numElements bin h₀ h' xs' := by
  induction ops generalizing h xs with
  | nil => exact ⟨h, rfl, hi⟩
  | cons op ops ih =>
    have hstep := inv_step h0 hb hi hl.1
    have hrest := hl.2
    cases hx : absExec (elemKey h₀) xs op with
    | none =>
      rw [hx] at hstep
      simp [absAll, hx, execAll, hstep, bind, Except.bind]
    | some xs' =>
      rw [hx] at hstep hrest
      obtain ⟨h', he, hi', -⟩ := hstep
      have := ih hi' hrest
      simpa [absAll, hx, execAll, he, bind, Except.bind] using this

lemma inv_init (h0 : Initial h₀) : Inv numLists numElements bin h₀ h₀ [] where
  repr b _ := ⟨by simp [nodes, binPart, Chain.Linked, Heap.links, h0.heads b],
    by simp [nodes, binPart],
    by simp [nodes, binPart], List.Pairwise.nil⟩
  asc := List.Pairwise.nil
  bound := Nat.zero_le _
  key _ := rfl

/-- The sublists one after the other are the sequence. -/
lemma flatMap_nodes (h0 : Initial h₀) (hb : Bins numLists h₀ bin)
    (hi : Inv numLists numElements bin h₀ h xs) :
    (List.range numLists).flatMap (fun b => nodes bin b xs) = xs.map .elem := by
  have hmono : ∀ x ∈ xs, ∀ y ∈ xs, elemKey h₀ x ≤ elemKey h₀ y → bin x ≤ bin y :=
    fun x _ y _ hle => getBin_mono ((h0.visible x).deref_mono (h0.visible y) hle) (hb x).1 (hb y).1
  conv_rhs => rw [← flatMap_binPart hi.asc hmono fun x _ => (hb x).2]
  rw [List.map_flatMap]
  rfl

lemma legal_of_legalRun_append {κ : ℕ → CString} {ops : List Op} {op : Op} {xs' : List ℕ}
    (hl : LegalRun numElements κ xs (ops ++ [op])) (ha : absAll κ xs ops = some xs') :
    Legal numElements xs' op := by
  induction ops generalizing xs with
  | nil =>
    obtain rfl : xs = xs' := by simpa [absAll] using ha
    exact hl.1
  | cons o ops ih =>
    have hrest := hl.2
    rw [absAll, Option.bind_eq_some_iff] at ha
    obtain ⟨ys, hys, ha⟩ := ha
    rw [hys] at hrest
    exact ih hrest ha

end

/-- **Partitioning does not change the list.** After any legal sequence of insertions and of
lookups with deletion, either the program has ended with the same exit for one list and for
`numLists` sublists, a lookup without a match; or the sublists in order are, node for node,
the single list, and the next operation, which works on some sublist `bin`, leaves every cell
of every other sublist as it is. -/
theorem sublists_eq_list {numLists : ℕ} (hpos : 0 < numLists) (numElements : ℕ) (h₀ : Heap Addr)
    (h0 : Initial h₀) (ops : List Op) (hl : LegalRun numElements (elemKey h₀) [] ops) :
    (execAll numLists numElements h₀ ops = .error .noMatch ∧
      execAll 1 numElements h₀ ops = .error .noMatch) ∨
    ∃ (h h₁ : Heap Addr) (sublist : ℕ → List Addr) (single : List Addr),
      execAll numLists numElements h₀ ops = .ok h ∧ execAll 1 numElements h₀ ops = .ok h₁ ∧
      (∀ b < numLists, Represents h (.list b) (sublist b)) ∧ Represents h₁ (.list 0) single ∧
      (List.range numLists).flatMap sublist = single ∧
      ∀ op key bin h', LegalRun numElements (elemKey h₀) [] (ops ++ [op]) →
        binOf numLists h op.index = .ok (key, bin) → exec numLists numElements h op = .ok h' →
        ∀ b < numLists, b ≠ bin →
          (∀ a ∈ Addr.list b :: sublist b, h' a = h a) ∧ Represents h' (.list b) (sublist b) := by
  obtain ⟨bin, hb⟩ := exists_bins h0 hpos
  obtain ⟨bin₁, hb₁⟩ := exists_bins h0 (Nat.one_pos)
  have hrun := inv_run h0 hb (inv_init h0) hl
  have hrun₁ := inv_run h0 hb₁ (inv_init h0) hl
  cases ha : absAll (elemKey h₀) [] ops with
  | none =>
    rw [ha] at hrun hrun₁
    exact Or.inl ⟨hrun, hrun₁⟩
  | some xs =>
    rw [ha] at hrun hrun₁
    obtain ⟨h, he, hi⟩ := hrun
    obtain ⟨h₁, he₁, hi₁⟩ := hrun₁
    have hall : nodes bin₁ 0 xs = xs.map .elem := by simpa using flatMap_nodes h0 hb₁ hi₁
    refine Or.inr ⟨h, h₁, fun b => nodes bin b xs, nodes bin₁ 0 xs, he, he₁, hi.repr,
      hi₁.repr 0 Nat.one_pos, (flatMap_nodes h0 hb hi).trans hall.symm, ?_⟩
    intro op key c h' hl' hbin hexec b hlt hbc
    have hstep := inv_step h0 hb hi (legal_of_legalRun_append hl' ha)
    rw [binOf_eq h0 hb hi] at hbin
    obtain ⟨rfl, rfl⟩ : elemKey h₀ op.index = key ∧ bin op.index = c := by simpa using hbin
    have hframe : Framed bin xs op.index h h' := by
      cases hx : absExec (elemKey h₀) xs op with
      | none => rw [hx, hexec] at hstep; cases hstep
      | some xs' =>
        rw [hx] at hstep
        obtain ⟨h'', he'', -, hf⟩ := hstep
        obtain rfl : h'' = h' := by rw [he''] at hexec; exact Except.ok.inj hexec
        exact hf
    exact ⟨hframe b hbc, (hi.repr b hlt).frame (hframe b hbc)⟩

/-- Empty heads, and elements whose keys are `~`, `!` and `a` in turn. -/
def sampleHeap : Heap Addr
  | .list _ => ⟨none, none, none⟩
  | .elem n => ⟨none, none, some (if n % 3 = 0 then .ofBuffer [126]
      else if n % 3 = 1 then .ofBuffer [33] else .ofBuffer [97])⟩

lemma sampleHeap_initial : Initial sampleHeap where
  heads _ := rfl
  keys _ := rfl
  visible n := by
    simp only [elemKey, Heap.keyOf, sampleHeap, Option.getD_some]
    split_ifs <;> simp [Visible, CString.ofBuffer]

/-- Three sublists, a tie between two elements, and one of the two looked up and deleted. -/
theorem sublists_eq_list_sample :
    ∃ (h h₁ : Heap Addr) (sublist : ℕ → List Addr),
      execAll 3 4 sampleHeap
        [.insert 0, .insert 1, .insert 2, .insert 4, .lookupDelete 1] = .ok h ∧
      execAll 1 4 sampleHeap
        [.insert 0, .insert 1, .insert 2, .insert 4, .lookupDelete 1] = .ok h₁ ∧
      (∀ b < 3, Represents h (.list b) (sublist b)) ∧
      Represents h₁ (.list 0) ((List.range 3).flatMap sublist) := by
  have hok : (execAll 3 4 sampleHeap
      [.insert 0, .insert 1, .insert 2, .insert 4, .lookupDelete 1]).toBool = true := by decide
  rcases @sublists_eq_list 3 (by decide) 4 sampleHeap sampleHeap_initial
      [.insert 0, .insert 1, .insert 2, .insert 4, .lookupDelete 1] (by decide) with
    ⟨he, -⟩ | ⟨h, h₁, sublist, single, he, he₁, hrep, hrep₁, rfl, -⟩
  · rw [he] at hok
    simp [Except.toBool] at hok
  · exact ⟨h, h₁, sublist, he, he₁, hrep, hrep₁⟩

end LowLevelTasks.Partition
