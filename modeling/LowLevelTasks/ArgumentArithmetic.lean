import LowLevelTasks.Lab2Args
import Mathlib.Algebra.Order.Ring.Int
import Mathlib.Tactic.Linarith

/-!
What the list programs and `lab2_add` compute from the numbers of their command line: products of
`int` and `long`, quotients, and loops with an `int` counter up to a `long`.

Nothing is checked before, so that all of this is right for some command lines only. A program
that gives up, for want of memory or threads or because its list is broken, computes less; those
ends are left out.
-/

namespace LowLevelTasks.ArgumentArithmetic

open LowLevelTasks.ImgReader LowLevelTasks.Lab2Args LowLevelTasks.Loops LowLevelTasks.Strings

/-! ### Operations -/

/-- The values of a `long`. -/
def IsLong (x : ℤ) : Prop := -2 ^ 63 ≤ x ∧ x < 2 ^ 63

instance (x : ℤ) : Decidable (IsLong x) := inferInstanceAs (Decidable (_ ∧ _))

def long (x : ℤ) : Except Stop ℤ := if IsLong x then .ok x else .error .undefined

/-- `/`, which rounds towards zero. -/
def divide (x y : ℤ) : Except Stop ℤ := if y = 0 then .error .undefined else long (x.tdiv y)

/-- `%` -/
def remainder (x y : ℤ) : Except Stop ℤ := if y = 0 then .error .undefined else .ok (x.tmod y)

/-- `for (n = 0; n < bound; n++)` with an `int` counter: a round, and the loop. -/
def countRound (bound n : ℤ) : Except Stop (ForInStep ℤ) :=
  if n < bound then do .ok (.yield (← int (n + 1))) else .ok (.done n)

def count (bound : ℤ) : Except Stop ℤ := whileLoop (countRound bound) .running (bound.toNat + 1) 0

/-- The loops of `SortedList.c`, from some value of their counter on, along a list that has so
many nodes to pass. -/
def walk (numElements : ℤ) : ℕ → ℤ → Except Stop ℤ
  | 0, limiter => .ok limiter
  | nodes + 1, limiter =>
    if numElements ≤ limiter then .ok limiter
    else do walk numElements nodes (← int (limiter + 1))

def walks (numElements : ℤ) (lists : List ℕ) : Except Stop Unit :=
  lists.forM fun nodes => do
    let _ ← walk numElements nodes 0
    .ok ()

/-- The threads, by their numbers. -/
def createThreads (numThreads : Int32) (thread : ℕ → Except Stop Unit) : Except Stop Unit :=
  (List.range numThreads.toInt.toNat).forM thread

/-! ### The programs -/

namespace Add

variable (a : Add.Args)

def addWrapper : Except Stop Unit := do
  let _ ← count a.numIterations.toInt
  let _ ← count a.numIterations.toInt
  .ok ()

/-- The number of operations and the average time of one. -/
def appendCsv (runTime : Int64) : Except Stop (ℤ × ℤ) := do
  let numOperations ← long ((← int (2 * a.numThreads.toInt)) * a.numIterations.toInt)
  .ok (numOperations, ← divide runTime.toInt numOperations)

def run (runTime : Int64) : Except Stop (ℤ × ℤ) := do
  createThreads a.numThreads fun _ => addWrapper a
  appendCsv a runTime

end Add

/-- What the list programs come across: the keys they draw, the lists that every thread and the
last check walk along, and the times they measure. -/
structure Env where
  key : ℤ → CString
  threadLists : ℕ → List ℕ
  lastLists : List ℕ
  runTime : Int64
  waitForTime : Int64

/-- The elements of a thread. -/
def elements (numIterations : Int64) (id : ℕ) : Except Stop (List ℤ) := do
  let startIndex ← long (id * numIterations.toInt)
  let next ← long ((id + 1) * numIterations.toInt)
  let endIndex ← long (next - 1)
  .ok ((List.range (endIndex + 1 - startIndex).toNat).map fun k : ℕ => startIndex + k)

def numOperations (a : ListA.Args) : Except Stop ℤ := do
  long ((← int (3 * a.numThreads.toInt)) * a.numIterations.toInt)

namespace ListA

variable (a : ListA.Args) (env : Env)

def listOperations (numElements : ℤ) (id : ℕ) : Except Stop Unit := do
  let _ ← elements a.numIterations id
  walks numElements (env.threadLists id)

def appendCsv : Except Stop (ℤ × ℤ) := do
  let numOperations ← numOperations a
  .ok (numOperations, ← divide env.runTime.toInt numOperations)

/-- The loops of `randomize_list_elements` and `delete_list` run over all elements. -/
def run : Except Stop (ℤ × ℤ) := do
  let numElements ← long (a.numThreads.toInt * a.numIterations.toInt)
  let _ ← count numElements
  createThreads a.numThreads (listOperations a env numElements)
  walks numElements env.lastLists
  let _ ← count numElements
  appendCsv a env

end ListA

namespace ListB

variable (a : ListB.Args) (env : Env)

/-- `get_bin`, whose loop has no round unless the number of lists is positive. -/
def getBin (key : CString) : Except Stop ℕ := do
  let quotient ← divide Sublists.visibleAsciiChars a.numLists.toInt
  let rest ← remainder Sublists.visibleAsciiChars a.numLists.toInt
  let binSize := if rest ≠ 0 then quotient + 1 else quotient
  match Sublists.getBinLoop (deref key) binSize.toNat a.numLists.toInt.toNat 0 with
  | some bin => .ok bin
  | none => .error (.exit 2)

/-- The elements are inserted, and then looked up and deleted. -/
def listOperations (numElements : ℤ) (id : ℕ) : Except Stop Unit := do
  let elements ← elements a.numIterations id
  elements.forM fun n => do
    let _ ← getBin a (env.key n)
    .ok ()
  walks numElements (env.threadLists id)
  elements.forM fun n => do
    let _ ← getBin a (env.key n)
    .ok ()

def appendCsv : Except Stop (ℤ × ℤ × ℤ) := do
  let numOperations ← numOperations a.toArgs
  .ok (numOperations, ← divide env.runTime.toInt numOperations,
    ← divide env.waitForTime.toInt numOperations)

/-- `memset(list_count, 0, num_lists)`. There is no memory for a negative number of flags, and the
handler of the signal ends the program. -/
def clearListCount : Except Stop Unit :=
  if a.numLists.toInt < 0 then .error (.exit 2) else .ok ()

/-- `dummy` says whether the pointer for the time of the last check, which is not initialised, can
be written through; else the handler of the signal ends the program. -/
def run (dummy : Bool) : Except Stop (ℤ × ℤ × ℤ) := do
  let numElements ← long (a.numThreads.toInt * a.numIterations.toInt)
  let _ ← count numElements
  createThreads a.numThreads (listOperations a env numElements)
  clearListCount a
  walks numElements env.lastLists
  if dummy then .ok () else .error (.exit 2)
  let _ ← count numElements
  appendCsv a env

end ListB

/-! ### What is defined -/

/-- The program may end early, but nothing it computes is undefined. -/
def Defined {α : Type} (r : Except Stop α) : Prop := r ≠ .error .undefined

section

variable {α β σ : Type} {x y n bound numElements : ℤ} {r : Except Stop α} {f : α → Except Stop β}

lemma defined_ok (a : α) : Defined (.ok a : Except Stop α) := nofun

lemma defined_bind_iff : Defined (r >>= f) ↔ Defined r ∧ ∀ a, r = .ok a → Defined (f a) := by
  cases r with
  | error e => exact ⟨fun h => ⟨fun he => h (by rw [he]; rfl), nofun⟩, fun h he => h.1 (by
      obtain rfl : e = .undefined := by injection he
      rfl)⟩
  | ok a =>
    refine ⟨fun h => ⟨defined_ok a, ?_⟩, fun h => h.2 a rfl⟩
    rintro _ ⟨⟩
    exact h

lemma long_ok (h : IsLong x) : long x = .ok x := if_pos h

lemma long_cases (x : ℤ) : long x = .ok x ∨ long x = .error .undefined := by
  unfold long
  split <;> simp

lemma defined_long_iff : Defined (long x) ↔ IsLong x := by
  unfold long Defined
  split <;> simp_all

lemma defined_int_iff : Defined (int x) ↔ IsInt x := by
  unfold int Defined
  split <;> simp_all

/-- A quotient is a `long` unless the divisor is 0, 1 or -1. -/
lemma divide_ok (x : Int64) (hy : 2 ≤ y.natAbs) : divide x.toInt y = .ok (x.toInt.tdiv y) := by
  unfold divide
  rw [if_neg (by omega)]
  have hlow := x.le_toInt
  have hhigh := x.toInt_lt
  have habs : (x.toInt.tdiv y).natAbs ≤ x.toInt.natAbs / 2 := by
    rw [Int.natAbs_tdiv]
    exact Nat.div_le_div_left hy (by omega)
  refine long_ok ?_
  unfold IsLong
  omega

lemma defined_divide_iff (x : Int64) (hy : y ≠ 1 ∧ y ≠ -1) :
    Defined (divide x.toInt y) ↔ y ≠ 0 := by
  constructor
  · rintro h rfl
    exact h (if_pos rfl)
  · intro h
    rw [divide_ok x (by omega)]
    exact defined_ok _

/-- **The loop** comes to its end if the counter can get there. -/
lemma whileLoop_countRound {fuel : ℕ} (hn : 0 ≤ n) (hint : n < 2 ^ 31)
    (hfuel : (bound - n).toNat < fuel) : whileLoop (countRound bound) .running fuel n =
      if bound < 2 ^ 31 then .ok (max n bound) else .error .undefined := by
  induction fuel generalizing n with
  | zero => omega
  | succ fuel ih =>
    by_cases hlt : n < bound
    · by_cases hnext : n + 1 < 2 ^ 31
      · have hround : countRound bound n = .ok (.yield (n + 1)) := by
          rw [countRound, if_pos hlt, int_ok (by unfold IsInt; omega)]
          rfl
        rw [whileLoop_succ_yield hround, ih (by omega) hnext (by omega), max_eq_right hlt.le,
          max_eq_right (by omega)]
      · have hround : countRound bound n = .error .undefined := by
          rw [countRound, if_pos hlt, int, if_neg (by unfold IsInt; omega)]
          rfl
        rw [whileLoop_succ_error hround, if_neg (by omega)]
    · have hround : countRound bound n = .ok (.done n) := by rw [countRound, if_neg hlt]
      rw [whileLoop_succ_done hround, if_pos (by omega), max_eq_left (by omega)]

lemma count_eq : count bound = if bound < 2 ^ 31 then .ok (max 0 bound) else .error .undefined :=
  whileLoop_countRound le_rfl (by omega) (by omega)

lemma count_ok (h : bound < 2 ^ 31) : count bound = .ok (max 0 bound) := by rw [count_eq, if_pos h]

/-- The counter of a walk stays below the number of elements. -/
lemma exists_walk (hbound : numElements < 2 ^ 31) (nodes : ℕ) (hn : 0 ≤ n) :
    ∃ limiter, walk numElements nodes n = .ok limiter := by
  induction nodes generalizing n with
  | zero => exact ⟨n, rfl⟩
  | succ nodes ih =>
    by_cases hle : numElements ≤ n
    · exact ⟨n, by rw [walk, if_pos hle]⟩
    · obtain ⟨limiter, h⟩ := ih (n := n + 1) (by omega)
      refine ⟨limiter, ?_⟩
      rw [walk, if_neg hle, int_ok (by unfold IsInt; omega)]
      exact h

lemma forM_eq_ok_iff {l : List σ} {f : σ → Except Stop Unit} :
    l.forM f = .ok () ↔ ∀ a ∈ l, f a = .ok () := by
  induction l with
  | nil => exact iff_of_true rfl (by simp)
  | cons a l ih =>
    change (f a >>= fun _ => l.forM f) = .ok () ↔ _
    rw [List.forall_mem_cons, ← ih]
    cases hf : f a with
    | error e => exact iff_of_false nofun nofun
    | ok _ => exact (and_iff_right rfl).symm

lemma forM_cons_error {l : List σ} {f : σ → Except Stop Unit} {a : σ} {e : Stop}
    (h : f a = .error e) : (a :: l).forM f = .error e := by
  change (f a >>= fun _ => l.forM f) = .error e
  rw [h]
  rfl

lemma walks_ok (hbound : numElements < 2 ^ 31) (lists : List ℕ) :
    walks numElements lists = .ok () :=
  forM_eq_ok_iff.mpr fun nodes _ => by
    obtain ⟨limiter, h⟩ := exists_walk hbound nodes le_rfl
    rw [h]
    rfl

lemma createThreads_eq_ok_iff {numThreads : Int32} {thread : ℕ → Except Stop Unit} :
    createThreads numThreads thread = .ok () ↔
      ∀ id : ℕ, id < numThreads.toInt → thread id = .ok () := by
  unfold createThreads
  rw [forM_eq_ok_iff]
  exact forall_congr' fun id => by rw [List.mem_range, Int.lt_toNat]

lemma createThreads_ok {numThreads : Int32} {thread : ℕ → Except Stop Unit}
    (h : ∀ id : ℕ, id < numThreads.toInt → thread id = .ok ()) :
    createThreads numThreads thread = .ok () := createThreads_eq_ok_iff.mpr h

/-- If they do the same, the first thread decides what the threads come to. -/
lemma createThreads_error {numThreads : Int32} {thread : ℕ → Except Stop Unit} {e : Stop}
    (hpos : 0 < numThreads.toInt) (h : thread 0 = .error e) :
    createThreads numThreads thread = .error e := by
  obtain ⟨n, hn⟩ : ∃ n, numThreads.toInt.toNat = n + 1 := ⟨numThreads.toInt.toNat - 1, by omega⟩
  unfold createThreads
  rw [hn, List.range_succ_eq_map, forM_cons_error h]

end

/-! ### The options -/

lemma defined_process {σ : Type} {step : σ → Opt → Except Stop σ} {s : σ} {opts : List Opt}
    {operands : ℕ} (hstep : ∀ s o, Defined (step s o)) :
    Defined (process step s opts operands) := by
  refine defined_bind_iff.mpr ⟨?_, fun s _ => ?_⟩
  · induction opts generalizing s with
    | nil => exact defined_ok s
    | cons o opts ih => exact defined_bind_iff.mpr ⟨hstep s o, fun s' _ => ih⟩
  · split
    · rintro ⟨⟩
    · exact defined_ok s

lemma Add.defined_switch (a : Add.Args) (o : Opt) : Defined (Add.switch a o) := by
  unfold Add.switch
  split
  case h_4 => split_ifs <;> rintro ⟨⟩
  all_goals rintro ⟨⟩

lemma ListA.defined_switch (a : ListA.Args) (o : Opt) : Defined (ListA.switch a o) := by
  unfold ListA.switch
  split
  case h_3 =>
    dsimp only
    split_ifs <;> rintro ⟨⟩
  case h_4 => split <;> rintro ⟨⟩
  all_goals rintro ⟨⟩

lemma ListB.defined_switch (a : ListB.Args) (o : Opt) : Defined (ListB.switch a o) := by
  unfold ListB.switch
  split
  · rintro ⟨⟩
  · exact defined_bind_iff.mpr ⟨ListA.defined_switch a.toArgs o, fun b _ => defined_ok _⟩

/-! ### The numbers that are right -/

/-- Nothing that a program computes from its command line is undefined. -/
def Add.Safe (opts : List Opt) (operands : ℕ) : Prop :=
  ∀ runTime, Defined (do Add.run (← Add.processArgs opts operands) runTime)

def ListA.Safe (opts : List Opt) (operands : ℕ) : Prop :=
  ∀ env, Defined (do ListA.run (← ListA.processArgs opts operands) env)

def ListB.Safe (dummy : Bool) (opts : List Opt) (operands : ℕ) : Prop :=
  ∀ env, Defined (do ListB.run (← ListB.processArgs opts operands) env dummy)

/-- The numbers of threads and iterations that `lab2_add` can compute with. -/
structure Add.Fits (t i : ℤ) : Prop where
  threads : t ≠ 0 ∧ -2 ^ 30 ≤ t ∧ t < 2 ^ 30
  iterations : i ≠ 0 ∧ (0 < t → i < 2 ^ 31)
  product : -2 ^ 62 ≤ t * i ∧ t * i < 2 ^ 62

structure ListA.Fits (t i : ℤ) : Prop where
  threads : t ≠ 0 ∧ -2 ^ 31 ≤ 3 * t ∧ 3 * t < 2 ^ 31
  iterations : i ≠ 0
  product : -2 ^ 63 ≤ 3 * (t * i) ∧ t * i < 2 ^ 31

/-- The numbers of threads and iterations with which the threads of the list programs come to
their end. -/
structure Joins (t i : ℤ) : Prop where
  product : -2 ^ 63 ≤ t * i ∧ t * i < 2 ^ 31
  last : 0 < t → -2 ^ 63 < t * i

/-- If there are elements but fewer than no lists, the threads end the program. Else a signal does
before anything is divided, if there are fewer than no lists or the pointer cannot be written
through. -/
def ListB.Fits (dummy : Bool) (t i l : ℤ) : Prop :=
  if 0 < t ∧ 0 < i ∧ l ≤ 0 then l ≠ 0 ∧ t * i < 2 ^ 31
  else if l < 0 ∨ dummy = false then Joins t i
  else ListA.Fits t i

section

variable {k t i d : ℤ}

/-- What follows is computed with the number of operations, if there is such a number. -/
lemma defined_operations_iff {β : Type} {f : ℤ → Except Stop β} :
    Defined ((do long ((← int (k * t)) * i)) >>= f) ↔
      IsInt (k * t) ∧ IsLong (k * t * i) ∧ Defined (f (k * t * i)) := by
  rw [bind_assoc, defined_bind_iff, defined_int_iff]
  refine and_congr_right fun hint => ?_
  rw [int_ok hint]
  constructor
  · intro h
    have hlong := (defined_bind_iff.mp (h _ rfl)).1
    rw [defined_long_iff] at hlong
    refine ⟨hlong, (defined_bind_iff.mp (h _ rfl)).2 _ (long_ok hlong)⟩
  · rintro ⟨hlong, h⟩ _ ⟨⟩
    rw [long_ok hlong]
    exact h

/-- A quotient by twice or three times a product. -/
lemma defined_average_iff (hk : k = 2 ∨ k = 3) (x : Int64) :
    Defined (divide x.toInt (k * t * i)) ↔ t ≠ 0 ∧ i ≠ 0 := by
  have hunit : k * t * i ≠ 1 ∧ k * t * i ≠ -1 := by
    rw [mul_assoc]
    obtain rfl | rfl := hk <;> omega
  rw [defined_divide_iff x hunit, mul_assoc, mul_ne_zero_iff, mul_ne_zero_iff,
    and_iff_right (by omega)]

end

/-! ### `lab2_add` -/

namespace Add

variable (a : Add.Args)

lemma addWrapper_ok (h : a.numIterations.toInt < 2 ^ 31) : addWrapper a = .ok () := by
  unfold addWrapper
  rw [count_ok h]
  rfl

lemma threads_ok (h : 0 < a.numThreads.toInt → a.numIterations.toInt < 2 ^ 31) :
    (createThreads a.numThreads fun _ => addWrapper a) = .ok () :=
  createThreads_ok fun id hid => addWrapper_ok a (h (by omega))

lemma threads_error (hpos : 0 < a.numThreads.toInt) (h : ¬ a.numIterations.toInt < 2 ^ 31) :
    (createThreads a.numThreads fun _ => addWrapper a) = .error .undefined := by
  refine createThreads_error hpos ?_
  unfold addWrapper
  rw [count_eq, if_neg h]
  rfl

lemma defined_appendCsv_iff (runTime : Int64) : Defined (appendCsv a runTime) ↔
    IsInt (2 * a.numThreads.toInt) ∧ IsLong (2 * a.numThreads.toInt * a.numIterations.toInt) ∧
      a.numThreads.toInt ≠ 0 ∧ a.numIterations.toInt ≠ 0 := by
  unfold appendCsv
  rw [← bind_assoc, defined_operations_iff]
  refine and_congr_right fun _ => and_congr_right fun _ => ?_
  rw [defined_bind_iff, defined_average_iff (.inl rfl), and_iff_left fun q _ => defined_ok _]

theorem defined_run_iff (runTime : Int64) : Defined (run a runTime) ↔
    Fits a.numThreads.toInt a.numIterations.toInt := by
  unfold run
  by_cases hcount : 0 < a.numThreads.toInt → a.numIterations.toInt < 2 ^ 31
  · rw [threads_ok a hcount, ok_bind, defined_appendCsv_iff]
    unfold IsInt IsLong
    rw [mul_assoc]
    constructor
    · rintro ⟨hint, hlong, ht, hi⟩
      exact ⟨⟨ht, by omega, by omega⟩, ⟨hi, hcount⟩, by omega, by omega⟩
    · rintro ⟨⟨ht, hint⟩, ⟨hi, -⟩, hlong⟩
      exact ⟨by omega, by omega, ht, hi⟩
  · have hcount' := hcount
    push Not at hcount'
    rw [threads_error a hcount'.1 (by omega)]
    exact iff_of_false (fun h => h rfl) fun h => hcount h.iterations.2

end Add

/-! ### `lab2_list` -/

section

variable {numIterations : Int64} {t id : ℕ}

lemma mul_between {x y i : ℤ} (hx : 0 ≤ x) (hxy : x ≤ y) :
    (0 ≤ x * i ∧ x * i ≤ y * i) ∨ (y * i ≤ x * i ∧ x * i ≤ 0) := by
  rcases le_total 0 i with hi | hi
  · exact .inl ⟨mul_nonneg hx hi, mul_le_mul_of_nonneg_right hxy hi⟩
  · exact .inr ⟨mul_le_mul_of_nonpos_right hxy hi, mul_nonpos_of_nonneg_of_nonpos hx hi⟩

/-- The elements of a thread have numbers that fit, or something is undefined. -/
lemma elements_cases (numIterations : Int64) (id : ℕ) :
    elements numIterations id = .ok ((List.range numIterations.toInt.toNat).map fun k : ℕ =>
      id * numIterations.toInt + k) ∨ elements numIterations id = .error .undefined := by
  have hcount : (id + 1) * numIterations.toInt - 1 + 1 - id * numIterations.toInt =
      numIterations.toInt := by ring
  unfold elements
  rcases long_cases (id * numIterations.toInt) with h | h <;> rw [h]
  · rcases long_cases ((id + 1) * numIterations.toInt) with h | h <;> rw [ok_bind, h]
    · rcases long_cases ((id + 1) * numIterations.toInt - 1) with h | h <;> rw [ok_bind, h]
      · rw [ok_bind, hcount]
        exact .inl rfl
      · exact .inr rfl
    · exact .inr rfl
  · exact .inr rfl

/-- They fit if those of the last thread do. -/
lemma elements_ok {numThreads : ℤ} (hid : id < numThreads)
    (hlow : -2 ^ 63 < numThreads * numIterations.toInt)
    (hhigh : numThreads * numIterations.toInt < 2 ^ 63) :
    elements numIterations id = .ok ((List.range numIterations.toInt.toNat).map fun k : ℕ =>
      id * numIterations.toInt + k) := by
  have hstart : (0 ≤ id * numIterations.toInt ∧ _ ≤ _) ∨ _ :=
    mul_between (i := numIterations.toInt) (Int.natCast_nonneg id) hid.le
  have hnext := mul_between (i := numIterations.toInt)
    (show (0 : ℤ) ≤ id + 1 by omega) (show (id + 1 : ℤ) ≤ numThreads by omega)
  refine (elements_cases numIterations id).resolve_right ?_
  unfold elements
  rw [long_ok (by unfold IsLong; omega), ok_bind, long_ok (by unfold IsLong; omega), ok_bind,
    long_ok (by unfold IsLong; omega), ok_bind]
  exact nofun

/-- There is no number before the first one of a `long`. -/
lemma elements_error (h : (id + 1) * numIterations.toInt ≤ -2 ^ 63) :
    elements numIterations id = .error .undefined := by
  refine (elements_cases numIterations id).resolve_left ?_
  unfold elements
  rcases long_cases (id * numIterations.toInt) with hstart | hstart <;> rw [hstart]
  · rcases long_cases ((id + 1) * numIterations.toInt) with hnext | hnext <;> rw [ok_bind, hnext]
    · rw [ok_bind, long, if_neg (by unfold IsLong; omega)]
      exact nofun
    · exact nofun
  · exact nofun

lemma createThreads_cases {numThreads : Int32} {thread : ℕ → Except Stop Unit}
    (h : ∀ id, thread id = .ok () ∨ thread id = .error .undefined) :
    createThreads numThreads thread = .ok () ∨
      createThreads numThreads thread = .error .undefined := by
  unfold createThreads
  induction List.range numThreads.toInt.toNat with
  | nil => exact .inl rfl
  | cons id ids ih =>
    change (thread id >>= fun _ => ids.forM thread) = .ok () ∨
      (thread id >>= fun _ => ids.forM thread) = .error .undefined
    rcases h id with hid | hid <;> rw [hid]
    · exact ih
    · exact .inr rfl

end

namespace ListA

variable (a : ListA.Args) (env : Env) {numElements : ℤ}

lemma listOperations_cases (hcount : numElements < 2 ^ 31) (id : ℕ) :
    (∃ ns, elements a.numIterations id = .ok ns) ∧
        listOperations a env numElements id = .ok () ∨
      elements a.numIterations id = .error .undefined ∧
        listOperations a env numElements id = .error .undefined := by
  unfold listOperations
  rcases elements_cases a.numIterations id with h | h <;> rw [h]
  · exact .inl ⟨⟨_, rfl⟩, by rw [ok_bind, walks_ok hcount]⟩
  · exact .inr ⟨rfl, rfl⟩

/-- **The threads** come to their end if the last one has numbers for its elements. -/
lemma threads_eq_ok_iff (hcount : numElements < 2 ^ 31)
    (hhigh : a.numThreads.toInt * a.numIterations.toInt < 2 ^ 31) :
    createThreads a.numThreads (listOperations a env numElements) = .ok () ↔
      (0 < a.numThreads.toInt → -2 ^ 63 < a.numThreads.toInt * a.numIterations.toInt) := by
  rw [createThreads_eq_ok_iff]
  constructor
  · intro hthreads hpos
    by_contra hlow
    obtain ⟨last, hlast⟩ : ∃ last : ℕ, (last : ℤ) + 1 = a.numThreads.toInt :=
      ⟨(a.numThreads.toInt - 1).toNat, by omega⟩
    have herror : elements a.numIterations last = .error .undefined := by
      refine elements_error ?_
      rw [hlast]
      exact not_lt.mp hlow
    rcases listOperations_cases a env hcount last with ⟨⟨ns, hok⟩, -⟩ | ⟨-, hlist⟩
    · rw [herror] at hok
      cases hok
    · rw [hthreads last (by omega)] at hlist
      cases hlist
  · intro hlow id hid
    rcases listOperations_cases a env hcount id with ⟨-, hlist⟩ | ⟨herror, -⟩
    · exact hlist
    · rw [elements_ok hid (hlow (by omega)) (by omega)] at herror
      cases herror

/-- **What comes behind the threads** is reached if they come to their end. -/
lemma defined_joined_iff {β : Type} {f : ℤ → Except Stop β} :
    Defined (do
      let numElements ← long (a.numThreads.toInt * a.numIterations.toInt)
      let _ ← count numElements
      createThreads a.numThreads (listOperations a env numElements)
      f numElements) ↔
    Joins a.numThreads.toInt a.numIterations.toInt ∧
      Defined (f (a.numThreads.toInt * a.numIterations.toInt)) := by
  by_cases hlong : IsLong (a.numThreads.toInt * a.numIterations.toInt)
  swap
  · rw [long, if_neg hlong]
    refine iff_of_false (fun h => h rfl) fun h => hlong ?_
    have := h.1.product
    unfold IsLong
    omega
  rw [long_ok hlong, ok_bind]
  by_cases hcount : a.numThreads.toInt * a.numIterations.toInt < 2 ^ 31
  swap
  · rw [count_eq, if_neg hcount]
    exact iff_of_false (fun h => h rfl) fun h => hcount h.1.product.2
  rw [count_ok hcount, ok_bind]
  have hthreads := threads_eq_ok_iff a env hcount hcount
  have hcases := @createThreads_cases a.numThreads _ fun id =>
    (listOperations_cases a env hcount id).imp And.right And.right
  rcases hcases with h | h <;> rw [h] at hthreads ⊢
  · exact (and_iff_right ⟨⟨hlong.1, hcount⟩, hthreads.mp rfl⟩).symm
  · exact iff_of_false (fun h => h rfl) fun h => nomatch hthreads.mpr h.1.last

lemma defined_appendCsv_iff : Defined (appendCsv a env) ↔
    IsInt (3 * a.numThreads.toInt) ∧ IsLong (3 * a.numThreads.toInt * a.numIterations.toInt) ∧
      a.numThreads.toInt ≠ 0 ∧ a.numIterations.toInt ≠ 0 := by
  unfold appendCsv numOperations
  rw [defined_operations_iff]
  refine and_congr_right fun _ => and_congr_right fun _ => ?_
  rw [defined_bind_iff, defined_average_iff (.inr rfl), and_iff_left fun q _ => defined_ok _]

lemma fits_iff_joins {t i : ℤ} : Fits t i ↔
    Joins t i ∧ IsInt (3 * t) ∧ IsLong (3 * t * i) ∧ t ≠ 0 ∧ i ≠ 0 := by
  unfold IsInt IsLong
  rw [mul_assoc]
  constructor
  · rintro ⟨⟨ht, hint⟩, hi, hlow, hcount⟩
    have hne : t * i ≠ 0 := mul_ne_zero ht hi
    exact ⟨⟨⟨by omega, hcount⟩, fun _ => by omega⟩, hint, by omega, ht, hi⟩
  · rintro ⟨hjoins, hint, hlong, ht, hi⟩
    exact ⟨⟨ht, hint⟩, hi, hlong.1, hjoins.product.2⟩

theorem defined_run_iff : Defined (run a env) ↔
    Fits a.numThreads.toInt a.numIterations.toInt := by
  rw [fits_iff_joins, ← defined_appendCsv_iff a env]
  refine (defined_joined_iff a env).trans (and_congr_right fun h => ?_)
  rw [walks_ok h.product.2, ok_bind, count_ok h.product.2, ok_bind]

end ListA

namespace ListB

variable (a : ListB.Args) (env : Env) {numElements : ℤ}

lemma getBin_zero (h : a.numLists.toInt = 0) (key : CString) :
    getBin a key = .error .undefined := by
  unfold getBin
  rw [divide, if_pos h]
  rfl

lemma divide_visible {y : ℤ} (hy : y ≠ 0) :
    divide Sublists.visibleAsciiChars y = .ok ((95 : ℤ).tdiv y) := by
  have habs : ((95 : ℤ).tdiv y).natAbs ≤ 95 := by
    rw [Int.natAbs_tdiv]
    exact Nat.div_le_self 95 y.natAbs
  unfold divide
  rw [if_neg hy]
  refine long_ok ?_
  unfold Sublists.visibleAsciiChars IsLong
  push_cast
  omega

lemma getBin_neg (h : a.numLists.toInt < 0) (key : CString) : getBin a key = .error (.exit 2) := by
  have hzero : a.numLists.toInt ≠ 0 := h.ne
  unfold getBin
  rw [divide_visible hzero, ok_bind, remainder, if_neg hzero, ok_bind,
    Int.toNat_of_nonpos h.le]
  rfl

lemma deref_lt (s : CString) : deref s < 128 := by
  unfold deref
  split
  · decide
  · next b _ _ =>
    have := b.toNat_lt
    split <;> omega

/-- **With a positive number of lists** every key has a list. -/
lemma getBin_pos (h : 0 < a.numLists.toInt) (key : CString) : ∃ bin, getBin a key = .ok bin := by
  obtain ⟨n, hn⟩ : ∃ n : ℕ, a.numLists.toInt = n := ⟨_, (Int.toNat_of_nonneg h.le).symm⟩
  have hpos : 0 < n := by omega
  have hsize : (if (95 : ℤ).tmod n ≠ 0 then (95 : ℤ).tdiv n + 1 else (95 : ℤ).tdiv n) =
      Sublists.binSize n := by
    unfold Sublists.binSize Sublists.visibleAsciiChars
    rw [show (95 : ℤ) = (95 : ℕ) from rfl, ← Int.ofNat_tmod, ← Int.ofNat_tdiv]
    split_ifs <;> omega
  have hcover := Sublists.visible_le_binSize hpos
  have hlast : deref key - Sublists.visibleAsciiChars <
      ((0 + n) * Sublists.binSize n : ℕ) := by
    have hderef := deref_lt key
    rw [Nat.zero_add]
    unfold Sublists.visibleAsciiChars at hcover ⊢
    omega
  obtain ⟨bin, hbin⟩ := Option.isSome_iff_exists.mp (Sublists.getBinLoop_isSome hpos hlast)
  refine ⟨bin, ?_⟩
  unfold getBin
  rw [divide_visible h.ne', ok_bind, remainder, if_neg h.ne', ok_bind, hn]
  change (match Sublists.getBinLoop (deref key) (if (95 : ℤ).tmod n ≠ 0 then (95 : ℤ).tdiv n + 1
    else (95 : ℤ).tdiv n).toNat (n : ℤ).toNat 0 with
    | some bin => .ok bin
    | none => .error (.exit 2)) = (.ok bin : Except Stop ℕ)
  rw [hsize, Int.toNat_natCast, Int.toNat_natCast, hbin]

/-- The threads are those of the other program if no key is without a list. -/
lemma listOperations_eq (h : 0 < a.numLists.toInt ∨ a.numIterations.toInt ≤ 0) (id : ℕ) :
    listOperations a env numElements id = ListA.listOperations a.toArgs env numElements id := by
  unfold listOperations ListA.listOperations
  rcases elements_cases a.numIterations id with he | he <;> rw [he]
  · have hbins : ((List.range a.numIterations.toInt.toNat).map fun k : ℕ =>
        id * a.numIterations.toInt + (k : ℤ)).forM (fun n => do
          let _ ← getBin a (env.key n)
          .ok ()) = .ok () := by
      refine forM_eq_ok_iff.mpr fun n hn => ?_
      rcases h with hlists | hnone
      · obtain ⟨bin, hbin⟩ := getBin_pos a hlists (env.key n)
        rw [hbin]
        rfl
      · simp [Int.toNat_of_nonpos hnone] at hn
    rw [ok_bind, ok_bind, hbins, ok_bind]
    cases walks numElements (env.threadLists id) <;> rfl
  · rfl

lemma defined_appendCsv_iff : Defined (appendCsv a env) ↔
    Defined (ListA.appendCsv a.toArgs env) := by
  rw [ListA.defined_appendCsv_iff]
  unfold appendCsv numOperations
  rw [defined_operations_iff]
  refine and_congr_right fun _ => and_congr_right fun _ => ?_
  rw [defined_bind_iff, defined_average_iff (.inr rfl)]
  refine and_iff_left_of_imp fun h q _ => defined_bind_iff.mpr ⟨?_, fun w _ => defined_ok _⟩
  exact (defined_average_iff (.inr rfl) env.waitForTime).mpr h

/-- Where the threads do the same, what comes behind them decides. -/
lemma defined_run_iff_of_threads (dummy : Bool) (h : ∀ numElements,
    createThreads a.numThreads (listOperations a env numElements) =
      createThreads a.numThreads (ListA.listOperations a.toArgs env numElements)) :
    Defined (run a env dummy) ↔
      if a.numLists.toInt < 0 ∨ dummy = false then
        Joins a.numThreads.toInt a.numIterations.toInt
      else ListA.Fits a.numThreads.toInt a.numIterations.toInt := by
  have hjoined := @ListA.defined_joined_iff a.toArgs env
  unfold run
  simp only [h]
  rw [hjoined]
  unfold clearListCount
  by_cases hlists : a.numLists.toInt < 0
  · rw [if_pos hlists, if_pos (Or.inl hlists)]
    exact and_iff_left nofun
  rw [if_neg hlists]
  cases dummy with
  | false =>
    rw [if_pos (Or.inr rfl)]
    refine and_iff_left_of_imp fun hj => ?_
    rw [ok_bind, walks_ok hj.product.2]
    exact nofun
  | true =>
    have hgoes : ¬ (a.numLists.toInt < 0 ∨ true = false) := by simpa using hlists
    rw [if_neg hgoes, ListA.fits_iff_joins, ← ListA.defined_appendCsv_iff a.toArgs env]
    refine and_congr_right fun hj => ?_
    rw [ok_bind, walks_ok hj.product.2, ok_bind, if_pos rfl, ok_bind, count_ok hj.product.2,
      ok_bind]
    exact defined_appendCsv_iff a env

/-- Where a thread cannot assign its first element, it ends the program. -/
lemma defined_run_iff_of_error {e : Stop} (dummy : Bool) (ht : 0 < a.numThreads.toInt)
    (hi : 0 < a.numIterations.toInt) (h : ∀ key, getBin a key = .error e) :
    Defined (run a env dummy) ↔
      e ≠ .undefined ∧ a.numThreads.toInt * a.numIterations.toInt < 2 ^ 31 := by
  have hpos : 0 < a.numThreads.toInt * a.numIterations.toInt := mul_pos ht hi
  unfold run
  by_cases hcount : a.numThreads.toInt * a.numIterations.toInt < 2 ^ 31
  · rw [long_ok (by unfold IsLong; omega), ok_bind, count_ok hcount, ok_bind]
    have hfirst : listOperations a env (a.numThreads.toInt * a.numIterations.toInt) 0 =
        .error e := by
      obtain ⟨n, hn⟩ : ∃ n, a.numIterations.toInt.toNat = n + 1 :=
        ⟨a.numIterations.toInt.toNat - 1, by omega⟩
      have helements := @elements_ok a.numIterations 0 _ ht
        (by omega) (by omega)
      unfold listOperations
      rw [helements, ok_bind, hn, List.range_succ_eq_map, List.map_cons,
        forM_cons_error (by rw [h]; rfl)]
      rfl
    rw [createThreads_error ht hfirst, and_iff_left hcount]
    change Defined (.error e) ↔ e ≠ .undefined
    simp [Defined]
  · refine iff_of_false ?_ fun h => hcount h.2
    rcases long_cases (a.numThreads.toInt * a.numIterations.toInt) with hlong | hlong <;> rw [hlong]
    · rw [ok_bind, count_eq, if_neg hcount]
      exact fun h => h rfl
    · exact fun h => h rfl

theorem defined_run_iff (dummy : Bool) : Defined (run a env dummy) ↔
    Fits dummy a.numThreads.toInt a.numIterations.toInt a.numLists.toInt := by
  unfold Fits
  by_cases hends : 0 < a.numThreads.toInt ∧ 0 < a.numIterations.toInt ∧ a.numLists.toInt ≤ 0
  · rw [if_pos hends]
    obtain ⟨ht, hi, hl⟩ := hends
    rcases hl.lt_or_eq with hneg | hzero
    · rw [defined_run_iff_of_error a env dummy ht hi (getBin_neg a hneg)]
      exact and_congr_left fun _ => iff_of_true nofun hneg.ne
    · rw [defined_run_iff_of_error a env dummy ht hi (getBin_zero a hzero)]
      exact iff_of_false (fun h => h.1 rfl) fun h => h.1 hzero
  · rw [if_neg hends]
    refine defined_run_iff_of_threads a env dummy fun numElements => ?_
    by_cases ht : 0 < a.numThreads.toInt
    · rw [funext (@listOperations_eq a env numElements (by omega))]
    · rw [createThreads_ok fun id hid => absurd hid (by omega),
        createThreads_ok fun id hid => absurd hid (by omega)]

end ListB

/-! ### Command lines -/

lemma forall_defined_iff {α β ρ : Type} {args : Except Stop α} {run : ρ → α → Except Stop β}
    {fits : α → Prop} (hargs : Defined args) (h : ∀ env a, Defined (run env a) ↔ fits a) (env : ρ) :
    (∀ env, Defined (args >>= run env)) ↔ ∀ a, args = .ok a → fits a := by
  constructor
  · intro hs a ha
    exact (h env a).mp ((defined_bind_iff.mp (hs env)).2 a ha)
  · intro hfits env
    exact defined_bind_iff.mpr ⟨hargs, fun a ha => (h env a).mpr (hfits a ha)⟩

def emptyEnv : Env := ⟨fun _ => .ofBuffer [], fun _ => [], [], 0, 0⟩

/-- **The numbers that fit.** Of the accepted command lines of the three programs, those whose
numbers fit are the ones that nothing undefined is computed for. -/
theorem safe_iff (opts : List Opt) (operands : ℕ) :
    (Add.Safe opts operands ↔ ∀ a, Add.processArgs opts operands = .ok a →
      Add.Fits a.numThreads.toInt a.numIterations.toInt) ∧
    (ListA.Safe opts operands ↔ ∀ a, ListA.processArgs opts operands = .ok a →
      ListA.Fits a.numThreads.toInt a.numIterations.toInt) ∧
    ∀ dummy, ListB.Safe dummy opts operands ↔ ∀ a, ListB.processArgs opts operands = .ok a →
      ListB.Fits dummy a.numThreads.toInt a.numIterations.toInt a.numLists.toInt := by
  refine ⟨?_, ?_, fun dummy => ?_⟩
  · exact forall_defined_iff (defined_process Add.defined_switch)
      (fun runTime a => Add.defined_run_iff a runTime) 0
  · exact forall_defined_iff (defined_process ListA.defined_switch)
      (fun env a => ListA.defined_run_iff a env) emptyEnv
  · exact forall_defined_iff (defined_process ListB.defined_switch)
      (fun env a => ListB.defined_run_iff a env dummy) emptyEnv

/-- Without threads there is nothing to divide by, and without lists nothing to divide into. -/
theorem zero_divisors :
    ¬ Add.Safe [.threads (.ofBuffer [48])] 0 ∧ ¬ ListA.Safe [.threads (.ofBuffer [48])] 0 ∧
      ¬ ListB.Safe true [.threads (.ofBuffer [48])] 0 ∧
      ∀ dummy, ¬ ListB.Safe dummy [.lists (.ofBuffer [48])] 0 := by
  refine ⟨fun h => h 0 ?_, fun h => h emptyEnv ?_, fun h => h emptyEnv ?_,
    fun dummy h => h emptyEnv ?_⟩
  · decide +kernel
  · decide +kernel
  · decide +kernel
  · cases dummy <;> decide +kernel

end LowLevelTasks.ArgumentArithmetic
