import LowLevelTasks.AddRuns
import LowLevelTasks.ArgumentArithmetic
import LowLevelTasks.CsvFiles
import LowLevelTasks.Outcomes

/-!
What the thread programs report of a run. The name of the test comes from the options, and the
numbers from the run.

Nothing is checked. An argument of `--sync` that fills its array is printed beyond the end of it,
the line may be longer than its buffer, and what is shown is printed as a format.
-/

namespace LowLevelTasks.AppendCsv

open LowLevelTasks.ArgumentArithmetic LowLevelTasks.Buffers LowLevelTasks.CsvFiles
open LowLevelTasks.ImgReader LowLevelTasks.Lab2Args LowLevelTasks.LineWidths LowLevelTasks.Loops
open LowLevelTasks.RubyText LowLevelTasks.Strings

/-! ### The programs -/

namespace Add

variable (a : Add.Args)

def testName : List UInt8 :=
  match a.optYield, a.syncOpt with
  | false, .unsynced => encode "add-none".toList
  | false, .mutex => encode "add-m".toList
  | false, .spinLock => encode "add-s".toList
  | false, .compareSwap => encode "add-c".toList
  | true, .unsynced => encode "add-yield-none".toList
  | true, .mutex => encode "add-yield-m".toList
  | true, .spinLock => encode "add-yield-s".toList
  | true, .compareSwap => encode "add-yield-c".toList

def computeTestName : Except Stop (List UInt8) := sprintf 16 (testName a)

def appendCsv (runTime : Int64) (counter : ℤ) : Except Stop (List UInt8 × List UInt8) := do
  let testName ← computeTestName a
  let (numOperations, averageTimePerOp) ← ArgumentArithmetic.Add.appendCsv a runTime
  append 64 (row testName [a.numThreads.toInt, a.numIterations.toInt, numOperations,
    runTime.toInt, averageTimePerOp, counter])

/-- What there is to report. -/
def numbers (runTime : Int64) (counter : ℤ) : List ℤ :=
  let numOperations := 2 * a.numThreads.toInt * a.numIterations.toInt
  [a.numThreads.toInt, a.numIterations.toInt, numOperations, runTime.toInt,
    runTime.toInt.tdiv numOperations, counter]

end Add

def computeTestName (a : ListA.Args) : Except Stop (List UInt8) := do
  let strYield ← printed a.strYield
  let strSync ← printed a.strSync
  sprintf 16 (encode "list-".toList ++ strYield ++ 45 :: strSync)

namespace ListA

variable (a : ListA.Args) (env : Env)

def appendCsv : Except Stop (List UInt8 × List UInt8) := do
  let testName ← computeTestName a
  let (numOperations, averageTimePerOp) ← ArgumentArithmetic.ListA.appendCsv a env
  append 80 (row testName [a.numThreads.toInt, a.numIterations.toInt, 1, numOperations,
    env.runTime.toInt, averageTimePerOp])

def numbers : List ℤ :=
  let numOperations := 3 * a.numThreads.toInt * a.numIterations.toInt
  [a.numThreads.toInt, a.numIterations.toInt, 1, numOperations, env.runTime.toInt,
    env.runTime.toInt.tdiv numOperations]

end ListA

namespace ListB

variable (a : ListB.Args) (env : Env)

def appendCsv : Except Stop (List UInt8 × List UInt8) := do
  let testName ← computeTestName a.toArgs
  let (numOperations, averageTimePerOp, waitTime) ← ArgumentArithmetic.ListB.appendCsv a env
  append 80 (row testName [a.numThreads.toInt, a.numIterations.toInt, a.numLists.toInt,
    numOperations, env.runTime.toInt, averageTimePerOp, waitTime])

def numbers : List ℤ :=
  let numOperations := 3 * a.numThreads.toInt * a.numIterations.toInt
  [a.numThreads.toInt, a.numIterations.toInt, a.numLists.toInt, numOperations, env.runTime.toInt,
    env.runTime.toInt.tdiv numOperations, env.waitForTime.toInt.tdiv numOperations]

end ListB

/-! ### Options -/

def yields (opts : List Opt) : List CString :=
  opts.filterMap fun
    | .yield optarg => some optarg
    | _ => none

def syncs (opts : List Opt) : List CString :=
  opts.filterMap fun
    | .sync optarg => some optarg
    | _ => none

/-- The last argument of an option, or the text that stands for none. -/
def shown (args : List CString) : List UInt8 :=
  match args.getLast? with
  | some optarg => optarg.bytes
  | none => encode "none".toList

def testName (yields syncs : List CString) : List UInt8 :=
  encode "list-".toList ++ shown yields ++ 45 :: shown syncs

/-- The synchronisation that a text stands for. -/
def syncOf (text : List UInt8) : Lab2ListB.SyncOptions :=
  if text.head? = some 109 then .mutex
  else if text.head? = some 115 then .spinlock
  else .unsynced

/-- The arguments that are accepted. -/
def Accepted (yields syncs : List CString) : Prop :=
  (∀ s ∈ yields, ∀ c ∈ s.bytes.take 3, c ∈ YieldOptions.letters) ∧
    ∀ s ∈ syncs, syncOf s.bytes ≠ .unsynced

/-- What the options leave. -/
structure Parsed (yields syncs : List CString) (a : ListA.Args) : Prop where
  accepted : Accepted yields syncs
  strYield : a.strYield = strncpy 5 (shown yields)
  strSync : a.strSync = strncpy 5 (shown syncs)
  syncOpt : a.syncOpt = syncOf (shown syncs)
  optYield : yields.length ≤ 1 → a.optYield = YieldOptions.bitsOf ((shown yields).take 3)

variable {opts : List Opt} {operands : ℕ} {a : ListA.Args} {s : CString}
variable {ys ss : List CString}

@[simp] lemma shown_concat : shown (ys ++ [s]) = s.bytes := by simp [shown]

lemma syncOf_of_syncBy {opt : Lab2ListB.SyncOptions} (h : ListA.syncBy (deref s) = some opt) :
    syncOf s.bytes = opt ∧ opt ≠ .unsynced := by
  have hhead : ∀ b : UInt8, b.toNat < 128 → deref s = b.toNat → b ≠ 0 →
      s.bytes.head? = some b := by
    intro b hb hderef hne
    unfold deref at hderef
    split at hderef
    · exact absurd (UInt8.toNat_inj.mp (by exact_mod_cast hderef.symm)) hne
    · next c rest hbytes =>
      have hc := c.toNat_lt
      rw [hbytes, List.head?_cons, Option.some.injEq, ← UInt8.toNat_inj]
      split at hderef <;> omega
  unfold ListA.syncBy at h
  unfold syncOf
  split_ifs at h with hm hs
  · rw [hhead 109 (by decide) hm (by decide), if_pos rfl]
    exact ⟨Option.some.inj h, by rw [← Option.some.inj h]; decide⟩
  · rw [hhead 115 (by decide) hs (by decide), if_neg (by decide), if_pos rfl]
    exact ⟨Option.some.inj h, by rw [← Option.some.inj h]; decide⟩

lemma parsed_defaults : Parsed [] [] ListA.defaults :=
  ⟨⟨nofun, nofun⟩, by decide, by decide, by decide, fun _ => by decide⟩

/-- An argument of `--yield`. -/
lemma Parsed.yield (h : Parsed ys ss a) (s : CString) :
    Outcomes.Ends (Parsed (ys ++ [s]) ss) (fun _ => True) (ListA.switch a (.yield s)) := by
  by_cases hletters : ∀ c ∈ s.bytes.take 3, c ∈ YieldOptions.letters
  · simp only [ListA.switch, YieldOptions.yieldBy_eq a.optYield s hletters]
    refine ⟨⟨?_, h.accepted.2⟩, by rw [shown_concat], h.strSync, h.syncOpt, fun hone => ?_⟩
    · rw [List.forall_mem_append, List.forall_mem_singleton]
      exact ⟨h.accepted.1, hletters⟩
    · obtain rfl : ys = [] := by simpa using hone
      rw [shown_concat, h.optYield (Nat.zero_le 1)]
      exact BitVec.zero_or
  · have hone := YieldOptions.yieldBy_fst a.optYield s hletters
    simp only [ListA.switch, hone]
    trivial

/-- An argument of `--sync`. -/
lemma Parsed.sync (h : Parsed ys ss a) (s : CString) :
    Outcomes.Ends (Parsed ys (ss ++ [s])) (fun _ => True) (ListA.switch a (.sync s)) := by
  cases hsync : ListA.syncBy (deref s) with
  | none =>
    simp only [ListA.switch, hsync]
    trivial
  | some opt =>
    obtain ⟨hopt, hne⟩ := syncOf_of_syncBy hsync
    simp only [ListA.switch, hsync]
    refine ⟨⟨h.accepted.1, ?_⟩, h.strYield, by rw [shown_concat], by rw [shown_concat, hopt],
      h.optYield⟩
    rw [List.forall_mem_append, List.forall_mem_singleton]
    exact ⟨h.accepted.2, hopt ▸ hne⟩

/-- One option. -/
lemma Parsed.switch {done : List Opt} (h : Parsed (yields done) (syncs done) a) (o : Opt) :
    Outcomes.Ends (Parsed (yields (done ++ [o])) (syncs (done ++ [o]))) (fun _ => True)
      (ListA.switch a o) := by
  unfold yields syncs at h ⊢
  rw [List.filterMap_append, List.filterMap_append]
  cases o with
  | threads optarg | iterations optarg =>
    refine ⟨?_, ?_, ?_, ?_, ?_⟩ <;> simp only [List.filterMap_cons_none, List.filterMap_nil,
      List.append_nil]
    exacts [h.accepted, h.strYield, h.strSync, h.syncOpt, h.optYield]
  | lists optarg | unknown => trivial
  | yield optarg => simpa using h.yield optarg
  | sync optarg => simpa using h.sync optarg

lemma parsed_of_foldlM {σ : Type} {step : σ → Opt → Except Stop σ} {init s : σ} {f : σ → ListA.Args}
    (hinit : f init = ListA.defaults)
    (hstep : ∀ done s o, Parsed (yields done) (syncs done) (f s) → Outcomes.Ends
      (fun s' => Parsed (yields (done ++ [o])) (syncs (done ++ [o])) (f s')) (fun _ => True)
      (step s o)) (h : process step init opts operands = .ok s) :
    Parsed (yields opts) (syncs opts) (f s) := by
  obtain ⟨s', hloop, hend⟩ := bind_eq_ok_iff.mp h
  have hs : s' = s := by
    split at hend
    · cases hend
    · exact Except.ok.inj hend
  have hstart : Parsed (yields []) (syncs []) (f init) := hinit ▸ parsed_defaults
  have hends : Outcomes.Ends (fun s => Parsed (yields opts) (syncs opts) (f s)) (fun _ => True)
      (opts.foldlM step init) :=
    Outcomes.ends_foldlM (p := fun done s => Parsed (yields done) (syncs done) (f s))
      (fun done o _ _ s hs => hstep done s o hs) hstart
  rw [hloop, hs] at hends
  exact hends

/-- What the options of project 2a leave. -/
lemma parsed_listA (h : ListA.processArgs opts operands = .ok a) :
    Parsed (yields opts) (syncs opts) a :=
  parsed_of_foldlM (f := id) rfl (fun _ _ o hs => hs.switch o) h

/-- What the options of project 2b leave. -/
lemma parsed_listB {b : ListB.Args} (h : ListB.processArgs opts operands = .ok b) :
    Parsed (yields opts) (syncs opts) b.toArgs := by
  refine parsed_of_foldlM (f := ListB.Args.toArgs) rfl (fun done s o hs => ?_) h
  cases o with
  | lists optarg =>
    change Parsed (yields (done ++ [.lists optarg])) (syncs (done ++ [.lists optarg])) s.toArgs
    simpa [yields, syncs] using hs
  | threads _ | iterations _ | yield _ | sync _ | unknown =>
    exact (hs.switch _).bind fun _ hs' => hs'

/-! ### Names -/

/-- The text fits into its array, and is read back from the file. -/
def Readable (text : List UInt8) : Prop := text.length ≤ 4 ∧ Plain text

lemma zero_notMem_shown (args : List CString) : 0 ∉ shown args := by
  unfold shown
  split
  · exact CString.noNul _
  · decide

/-- A text that fills its array is printed beyond the end. -/
lemma printed_strncpy {text : List UInt8} (h : 0 ∉ text) :
    printed (strncpy 5 text) = if text.length ≤ 4 then .ok text else .error .undefined := by
  have hnul : ∀ b ∈ text.take 5, b ≠ 0 := fun b hb =>
    ne_of_mem_of_not_mem (List.mem_of_mem_take hb) h
  rw [strncpy_of_noNul hnul, printed]
  split_ifs with hzero hlength hlength
  · rw [List.take_of_length_le (by omega), List.takeWhile_append_of_pos fun b hb => by
      simpa using ne_of_mem_of_not_mem hb h]
    obtain ⟨k, hk⟩ : ∃ k, 5 - text.length = k + 1 := ⟨4 - text.length, by omega⟩
    rw [hk, List.replicate_succ, List.takeWhile_cons_of_neg (by simp), List.append_nil]
  · rw [List.length_take, Nat.min_eq_left (by omega)] at hzero
    exact absurd (List.mem_of_mem_take (by simpa using hzero)) h
  · exact absurd (List.mem_append_right _ (List.mem_replicate.mpr ⟨by simp; omega, rfl⟩)) hzero
  · rfl

lemma computeTestName_eq (h : Parsed ys ss a) : computeTestName a =
    if (shown ys).length ≤ 4 ∧ (shown ss).length ≤ 4 then .ok (testName ys ss)
    else .error .undefined := by
  unfold computeTestName
  rw [h.strYield, h.strSync, printed_strncpy (zero_notMem_shown ys),
    printed_strncpy (zero_notMem_shown ss)]
  by_cases hy : (shown ys).length ≤ 4
  · by_cases hs : (shown ss).length ≤ 4
    · rw [if_pos hy, if_pos hs, if_pos ⟨hy, hs⟩]
      refine if_pos ?_
      have hword : (encode "list-".toList).length = 5 := rfl
      rw [List.length_append, List.length_append, List.length_cons, hword]
      omega
    · have hboth : ¬ ((shown ys).length ≤ 4 ∧ (shown ss).length ≤ 4) := fun h => hs h.2
      rw [if_pos hy, if_neg hs, if_neg hboth]
      rfl
  · have hboth : ¬ ((shown ys).length ≤ 4 ∧ (shown ss).length ≤ 4) := fun h => hy h.1
    rw [if_neg hy, if_neg hboth]
    rfl

lemma plain_testName_iff : Plain (testName ys ss) ↔ Plain (shown ys) ∧ Plain (shown ss) := by
  have hword : Plain (encode "list-".toList) := by decide
  unfold Plain at hword ⊢
  unfold testName
  rw [List.forall_mem_append, List.forall_mem_append, List.forall_mem_cons, and_iff_right hword,
    and_iff_right (⟨by decide, by decide, by decide⟩ : (45 : UInt8) ≠ 10 ∧ _)]

/-- The name and the numbers are recorded if all of it is plain and fits. -/
lemma recorded_testName_iff (h : Parsed ys ss a) (size : ℕ) (ns : List ℤ) :
    Recorded (do append size (row (← computeTestName a) ns)) (testName ys ss) ns ↔
      Readable (shown ys) ∧ Readable (shown ss) ∧
        (testName ys ss).length + widths ns + ns.length + 2 ≤ size := by
  rw [computeTestName_eq h]
  split_ifs with hlength
  · rw [ok_bind, recorded_iff, plain_testName_iff]
    unfold Readable
    tauto
  · refine iff_of_false ?_ fun hreadable => hlength ⟨hreadable.1.1, hreadable.2.1.1⟩
    rintro ⟨line, hline, -⟩
    cases hline

/-! ### The list programs -/

section

variable {t i : ℤ}

lemma numOperations_ok (h : ListA.Fits a.numThreads.toInt a.numIterations.toInt) :
    numOperations a = .ok (3 * a.numThreads.toInt * a.numIterations.toInt) := by
  have hint : IsInt (3 * a.numThreads.toInt) := h.threads.2
  have hlong : IsLong (3 * a.numThreads.toInt * a.numIterations.toInt) := by
    have := h.product
    unfold IsLong
    rw [mul_assoc]
    omega
  unfold numOperations
  rw [int_ok hint, ok_bind, long_ok hlong]

lemma divide_numOperations (h : ListA.Fits t i) (x : Int64) :
    divide x.toInt (3 * t * i) = .ok (x.toInt.tdiv (3 * t * i)) := by
  have hne : t * i ≠ 0 := mul_ne_zero h.threads.1 h.iterations
  refine divide_ok x ?_
  rw [mul_assoc]
  omega

end

/-- **What the list programs record.** If an argument fills its array, is not plain, or the line
does not fit, the file is not what it should be; there are no other reasons. -/
theorem list_recorded (opts : List Opt) (operands : ℕ) (env : Env) :
    (∀ a, ListA.processArgs opts operands = .ok a →
      ListA.Fits a.numThreads.toInt a.numIterations.toInt →
      (Recorded (ListA.appendCsv a env) (testName (yields opts) (syncs opts))
          (ListA.numbers a env) ↔
        Readable (shown (yields opts)) ∧ Readable (shown (syncs opts)) ∧
          (testName (yields opts) (syncs opts)).length + widths (ListA.numbers a env) ≤ 72)) ∧
    ∀ b, ListB.processArgs opts operands = .ok b →
      ListA.Fits b.numThreads.toInt b.numIterations.toInt →
      (Recorded (ListB.appendCsv b env) (testName (yields opts) (syncs opts))
          (ListB.numbers b env) ↔
        Readable (shown (yields opts)) ∧ Readable (shown (syncs opts)) ∧
          (testName (yields opts) (syncs opts)).length + widths (ListB.numbers b env) ≤ 71) := by
  constructor
  · intro a ha hfits
    have hline : ListA.appendCsv a env =
        (do append 80 (row (← computeTestName a) (ListA.numbers a env))) := by
      unfold ListA.appendCsv ArgumentArithmetic.ListA.appendCsv
      rw [numOperations_ok hfits, ok_bind, divide_numOperations hfits]
      rfl
    rw [hline, recorded_testName_iff (parsed_listA ha)]
    have hlength : (ListA.numbers a env).length = 6 := rfl
    rw [hlength]
    refine and_congr_right fun _ => and_congr_right fun _ => ?_
    omega
  · intro b hb hfits
    have hline : ListB.appendCsv b env =
        (do append 80 (row (← computeTestName b.toArgs) (ListB.numbers b env))) := by
      unfold ListB.appendCsv ArgumentArithmetic.ListB.appendCsv
      rw [numOperations_ok hfits, ok_bind, divide_numOperations hfits,
        divide_numOperations hfits]
      rfl
    rw [hline, recorded_testName_iff (parsed_listB hb)]
    have hlength : (ListB.numbers b env).length = 7 := rfl
    rw [hlength]
    refine and_congr_right fun _ => and_congr_right fun _ => ?_
    omega

/-- A run of three threads under a mutex, which insert and delete with yields. -/
def listOptions : List Opt :=
  [.threads (numeral 3), .iterations (numeral 100), .yield (.ofBuffer [105, 100]),
    .sync (.ofBuffer [109])]

def listEnv : Env := { emptyEnv with runTime := 123456789, waitForTime := 90000 }

theorem list_recorded_mutex :
    (∃ a, ListA.processArgs listOptions 0 = .ok a ∧
      Recorded (ListA.appendCsv a listEnv) (testName (yields listOptions) (syncs listOptions))
        (ListA.numbers a listEnv)) ∧
    ∃ b, ListB.processArgs listOptions 0 = .ok b ∧
      Recorded (ListB.appendCsv b listEnv) (testName (yields listOptions) (syncs listOptions))
        (ListB.numbers b listEnv) := by
  have hreadable : Readable (shown (yields listOptions)) ∧
      Readable (shown (syncs listOptions)) := by
    unfold Readable
    decide
  refine ⟨⟨_, rfl, ((list_recorded listOptions 0 listEnv).1 _ rfl
      ⟨by decide, by decide, by decide⟩).mpr ⟨hreadable.1, hreadable.2, by decide⟩⟩,
    ⟨_, rfl, ((list_recorded listOptions 0 listEnv).2 _ rfl
      ⟨by decide, by decide, by decide⟩).mpr ⟨hreadable.1, hreadable.2, by decide⟩⟩⟩

/-- An argument of five characters fills its array. -/
example : (do computeTestName (← ListA.processArgs [.sync (.ofBuffer (encode "mutex".toList))] 0)) =
    .error .undefined := by decide +kernel

/-! ### Names and options -/

lemma minus_notMem_shown (h : Accepted ys ss) : 45 ∉ (shown ys).take 3 := by
  unfold shown
  split
  · next s hlast =>
    exact fun hmem => absurd (h.1 s (List.mem_of_getLast? hlast) 45 hmem) (by decide)
  · decide

lemma head?_shown_ne (h : Accepted ys ss) : (shown ss).head? ≠ some 45 := by
  unfold shown
  split
  · next s hlast =>
    intro hhead
    exact h.2 s (List.mem_of_getLast? hlast) (by rw [syncOf, hhead]; rfl)
  · decide

/-- The text of a longer argument of `--yield` cannot be read where a shorter one stands. -/
lemma eq_of_append {y s z s' : List UInt8} (hlength : (y ++ z).length ≤ 4)
    (hy : 45 ∉ (y ++ z).take 3) (hs : s.head? ≠ some 45) (h : 45 :: s = z ++ 45 :: s') :
    z = [] ∧ s = s' := by
  rcases z with _ | ⟨c, z⟩
  · exact ⟨rfl, (List.cons.inj h).2⟩
  · obtain ⟨hc, hrest⟩ := List.cons.inj h
    rcases z with _ | ⟨c', z⟩
    · rw [hrest] at hs
      exact absurd rfl hs
    · rw [List.length_append, List.length_cons, List.length_cons] at hlength
      have hbegin : y ++ [c] <+: (y ++ c :: c' :: z).take 3 :=
        List.prefix_take_iff.mpr ⟨⟨c' :: z, by simp⟩, by simp; omega⟩
      exact absurd (hbegin.subset (by simp [← hc])) hy

lemma testName_inj {ys' ss' : List CString} (h : Accepted ys ss) (h' : Accepted ys' ss')
    (hlength : (shown ys).length ≤ 4) (hlength' : (shown ys').length ≤ 4)
    (hname : testName ys ss = testName ys' ss') : shown ys = shown ys' ∧ shown ss = shown ss' := by
  unfold testName at hname
  rw [List.append_assoc, List.append_assoc, List.append_cancel_left_eq,
    List.append_eq_append_iff] at hname
  rcases hname with ⟨z, hys, hss⟩ | ⟨z, hys, hss⟩
  · obtain ⟨rfl, heq⟩ := eq_of_append (hys ▸ hlength') (hys ▸ minus_notMem_shown h')
      (head?_shown_ne h) hss
    exact ⟨by rw [hys, List.append_nil], heq⟩
  · obtain ⟨rfl, heq⟩ := eq_of_append (hys ▸ hlength) (hys ▸ minus_notMem_shown h)
      (head?_shown_ne h') hss
    exact ⟨by rw [hys, List.append_nil], heq.symm⟩

/-- The options that a name stands for. -/
lemma Parsed.eq_of_testName {ys' ss' : List CString} {a' : ListA.Args} {name : List UInt8}
    (h : Parsed ys ss a) (h' : Parsed ys' ss' a') (hname : computeTestName a = .ok name)
    (hname' : computeTestName a' = .ok name) : a.syncOpt = a'.syncOpt ∧
      (ys.length ≤ 1 → ys'.length ≤ 1 → a.optYield = a'.optYield) := by
  rw [computeTestName_eq h] at hname
  rw [computeTestName_eq h'] at hname'
  split at hname
  · split at hname'
    · next hlength hlength' =>
      obtain ⟨hy, hs⟩ := testName_inj h.accepted h'.accepted hlength.1 hlength'.1
        ((Except.ok.inj hname).trans (Except.ok.inj hname').symm)
      refine ⟨by rw [h.syncOpt, h'.syncOpt, hs], fun hone hone' => ?_⟩
      rw [h.optYield hone, h'.optYield hone', hy]
    · cases hname'
  · cases hname

/-- **A name tells the options.** Runs with the same name have the same synchronisation, and the
same yields unless `--yield` was given more than once: then the name has only the last of its
arguments, while the program has the bits of them all. -/
theorem names_tell (opts opts' : List Opt) (operands operands' : ℕ) (name : List UInt8) :
    (∀ a a', ListA.processArgs opts operands = .ok a →
      ListA.processArgs opts' operands' = .ok a' → computeTestName a = .ok name →
      computeTestName a' = .ok name → a.syncOpt = a'.syncOpt ∧
        ((yields opts).length ≤ 1 → (yields opts').length ≤ 1 → a.optYield = a'.optYield)) ∧
    ∀ b b', ListB.processArgs opts operands = .ok b →
      ListB.processArgs opts' operands' = .ok b' → computeTestName b.toArgs = .ok name →
      computeTestName b'.toArgs = .ok name → b.syncOpt = b'.syncOpt ∧
        ((yields opts).length ≤ 1 → (yields opts').length ≤ 1 → b.optYield = b'.optYield) :=
  ⟨fun _ _ ha ha' => (parsed_listA ha).eq_of_testName (parsed_listA ha'),
    fun _ _ hb hb' => (parsed_listB hb).eq_of_testName (parsed_listB hb')⟩

/-- With the other program arguments, and a `--sync` that does not count. -/
def otherOptions : List Opt :=
  [.sync (.ofBuffer [115, 112, 105, 110]), .sync (.ofBuffer [109]), .yield (.ofBuffer [105, 100])]

theorem names_tell_mutex :
    (∃ a a', ListA.processArgs listOptions 0 = .ok a ∧ ListA.processArgs otherOptions 0 = .ok a' ∧
      a.syncOpt = a'.syncOpt ∧ a.optYield = a'.optYield) ∧
    ∃ b b', ListB.processArgs listOptions 0 = .ok b ∧ ListB.processArgs otherOptions 0 = .ok b' ∧
      b.syncOpt = b'.syncOpt ∧ b.optYield = b'.optYield := by
  have hA := (names_tell listOptions otherOptions 0 0 (encode "list-id-m".toList)).1 _ _ rfl rfl
    (by decide) (by decide)
  have hB := (names_tell listOptions otherOptions 0 0 (encode "list-id-m".toList)).2 _ _ rfl rfl
    (by decide) (by decide)
  exact ⟨⟨_, _, rfl, rfl, hA.1, hA.2 (by decide) (by decide)⟩,
    ⟨_, _, rfl, rfl, hB.1, hB.2 (by decide) (by decide)⟩⟩

/-! ### `lab2_add` -/

section

variable {x y : ℤ}

lemma pow_le_of_width (hx : 0 < x) : 10 ^ (width x - 1) ≤ x.natAbs := by
  by_contra hlt
  rw [Nat.not_le] at hlt
  rcases Nat.eq_zero_or_pos (width x - 1) with hzero | hpos
  · rw [hzero] at hlt
    omega
  · have := width_le hpos hlt
    rw [if_neg (by omega)] at this
    omega

/-- A product is nearly as wide as its factors. -/
lemma width_mul (hx : 0 < x) (hy : 0 < y) : width x + width y ≤ width (x * y) + 1 := by
  have hprod : 10 ^ (width x - 1 + (width y - 1)) ≤ (x * y).natAbs := by
    rw [pow_add, Int.natAbs_mul]
    exact Nat.mul_le_mul (pow_le_of_width hx) (pow_le_of_width hy)
  have hlt : (x * y).natAbs < 10 ^ width (x * y) := by
    have hpos : 0 < width (x * y) := Nat.add_pos_left Nat.length_toDigits_pos _
    rw [← Nat.length_toDigits_le_iff (by omega) hpos]
    exact Nat.le_add_right _ _
  have := (Nat.pow_lt_pow_iff_right (by omega : 1 < 10)).mp (hprod.trans_lt hlt)
  omega

lemma width_nonneg_le {k : ℕ} (hk : 0 < k) (hx : 0 ≤ x) (h : x < 10 ^ k) : width x ≤ k := by
  have hlt : x.natAbs < 10 ^ k := by
    zify
    rwa [abs_of_nonneg hx]
  have := width_le hk hlt
  rwa [if_neg (by omega), Nat.add_zero] at this

end

lemma Add.appendCsv_eq {a : Add.Args} (h : Add.Fits a.numThreads.toInt a.numIterations.toInt)
    (runTime : Int64) (counter : ℤ) : Add.appendCsv a runTime counter =
      append 64 (row (Add.testName a) (Add.numbers a runTime counter)) := by
  have hname : Add.computeTestName a = .ok (Add.testName a) := by
    unfold Add.computeTestName Add.testName
    cases a.optYield <;> cases a.syncOpt <;> rfl
  have hint : IsInt (2 * a.numThreads.toInt) := by
    have := h.threads
    unfold IsInt
    omega
  have hlong : IsLong (2 * a.numThreads.toInt * a.numIterations.toInt) := by
    have := h.product
    unfold IsLong
    rw [mul_assoc]
    omega
  have hdivide : divide runTime.toInt (2 * a.numThreads.toInt * a.numIterations.toInt) =
      .ok (runTime.toInt.tdiv (2 * a.numThreads.toInt * a.numIterations.toInt)) := by
    have hne := mul_ne_zero h.threads.1 h.iterations.1
    refine divide_ok runTime ?_
    rw [mul_assoc]
    omega
  unfold Add.appendCsv ArgumentArithmetic.Add.appendCsv
  rw [hname, ok_bind, int_ok hint, ok_bind, long_ok hlong, ok_bind, hdivide]
  rfl

lemma Add.plain_testName (a : Add.Args) :
    Plain (Add.testName a) ∧ (Add.testName a).length ≤ 14 := by
  unfold Add.testName
  cases a.optYield <;> cases a.syncOpt <;> decide

lemma Add.testName_inj {a a' : Add.Args} (h : Add.testName a' = Add.testName a) :
    a'.optYield = a.optYield ∧ a'.syncOpt = a.syncOpt := by
  unfold Add.testName at h
  cases hyield : a.optYield <;> cases hsync : a.syncOpt <;> cases hyield' : a'.optYield <;>
    cases hsync' : a'.syncOpt <;> simp only [hyield, hsync, hyield', hsync'] at h <;>
      first | exact ⟨rfl, rfl⟩ | exact absurd h (by decide)

/-- The numbers of a short run are not too wide. -/
lemma Add.widths_le {a : Add.Args} {runTime : Int64} {counter : ℤ} (ht : 0 < a.numThreads.toInt)
    (hi : 0 < a.numIterations.toInt)
    (hcounter : |counter| ≤ a.numThreads.toInt * a.numIterations.toInt)
    (hn : a.numThreads.toInt * a.numIterations.toInt < 10 ^ 8) (hzero : 0 ≤ runTime.toInt)
    (htime : runTime.toInt < 10 ^ 11) : widths (Add.numbers a runTime counter) ≤ 42 := by
  have hpos := mul_pos ht hi
  have hoperations : 0 < 2 * a.numThreads.toInt * a.numIterations.toInt := by
    rw [mul_assoc]
    omega
  have hfactors : width a.numThreads.toInt + width a.numIterations.toInt ≤ 9 := by
    have := width_mul ht hi
    have := width_nonneg_le (k := 8) (by omega) hpos.le hn
    omega
  have hrun : width runTime.toInt ≤ 11 := width_nonneg_le (by omega) hzero htime
  -- the average is the narrower the more operations there are
  have haverage : width (2 * a.numThreads.toInt * a.numIterations.toInt) +
      width (runTime.toInt.tdiv (2 * a.numThreads.toInt * a.numIterations.toInt)) ≤ 12 := by
    have hbound : 2 * a.numThreads.toInt * a.numIterations.toInt < 10 ^ 9 := by
      rw [mul_assoc]
      omega
    generalize 2 * a.numThreads.toInt * a.numIterations.toInt = m at hoperations hbound ⊢
    rw [Int.tdiv_eq_ediv_of_nonneg hzero]
    rcases (Int.ediv_nonneg hzero hoperations.le).eq_or_lt with hnone | hsome
    · have hone : width 0 = 1 := by decide
      have := width_nonneg_le (k := 9) (by omega) hoperations.le hbound
      rw [← hnone, hone]
      omega
    · have hle : runTime.toInt / m * m ≤ runTime.toInt := Int.ediv_mul_le _ hoperations.ne'
      have := width_nonneg_le (k := 11) (by omega) (mul_pos hsome hoperations).le
        (hle.trans_lt htime)
      have := width_mul hsome hoperations
      omega
  have hcount : width counter ≤ 9 := by
    have hlt : counter.natAbs < 10 ^ 8 := by
      zify
      omega
    have := width_le (by omega) hlt
    split at this <;> omega
  simp only [Add.numbers, widths, List.map_cons, List.map_nil, List.sum_cons, List.sum_nil]
  omega

/-- The program with these arguments. -/
def Add.config (a : Add.Args) : Lab2Add.Config :=
  ⟨a.numThreads.toInt.toNat, a.numIterations.toInt.toNat, a.syncOpt, a.optYield⟩

open Runs Threads Lab2Add in
/-- **What `lab2_add` records.** A line that fits, for which a run without long numbers is enough;
behind any synchronisation its last number is zero, whatever the schedule was. -/
theorem add_recorded (a : Add.Args) (ht : 0 < a.numThreads.toInt) (hi : 0 < a.numIterations.toInt)
    (hfits : Add.Fits a.numThreads.toInt a.numIterations.toInt)
    (schedule : List (Fin (Add.config a).numThreads × Unit)) (s : St (Add.config a))
    (hrun : run (step (act (Add.config a))) (init (Add.config a)) schedule = some s)
    (hend : ∀ t, (s.locals t).pc = .returned) (runTime : Int64) :
    (Recorded (Add.appendCsv a runTime s.shared.counter) (Add.testName a)
        (Add.numbers a runTime s.shared.counter) ↔
      (Add.testName a).length + widths (Add.numbers a runTime s.shared.counter) ≤ 56) ∧
    (a.numThreads.toInt * a.numIterations.toInt < 10 ^ 8 → 0 ≤ runTime.toInt →
      runTime.toInt < 10 ^ 11 → Recorded (Add.appendCsv a runTime s.shared.counter)
        (Add.testName a) (Add.numbers a runTime s.shared.counter)) ∧
    (a.syncOpt ≠ .unsynced → s.shared.counter = 0) ∧
    ∀ a', Add.testName a' = Add.testName a → a'.optYield = a.optYield ∧ a'.syncOpt = a.syncOpt := by
  obtain ⟨hplain, hname⟩ := Add.plain_testName a
  have hiff : Recorded (Add.appendCsv a runTime s.shared.counter) (Add.testName a)
      (Add.numbers a runTime s.shared.counter) ↔
        (Add.testName a).length + widths (Add.numbers a runTime s.shared.counter) ≤ 56 := by
    have hlength : (Add.numbers a runTime s.shared.counter).length = 6 := rfl
    rw [Add.appendCsv_eq hfits, recorded_iff, and_iff_right hplain, hlength]
    omega
  refine ⟨hiff, fun hn hzero htime => hiff.mpr ?_, fun hs => ?_, fun a' => Add.testName_inj⟩
  · have hrange : AddRuns.InRange s := invariant AddRuns.inRange_step AddRuns.inRange_init hrun
    have hcounter := hrange.abs_counter_le
    change _ ≤ (a.numThreads.toInt.toNat : ℤ) * (a.numIterations.toInt.toNat : ℤ) at hcounter
    rw [Int.toNat_of_nonneg ht.le, Int.toNat_of_nonneg hi.le] at hcounter
    have := Add.widths_le ht hi hcounter hn hzero htime
    omega
  · have hinv : Inv (Add.config a) s := invariant (inv_step hs) inv_init hrun
    rw [hinv.total]
    exact Finset.sum_eq_zero fun t _ => (hinv.good t).committed_returned (hend t)

/-- Two threads that add once each. -/
def addArgs : Add.Args := ⟨2, 1, false, .compareSwap⟩

open Runs Threads Lab2Add in
theorem add_recorded_sample :
    ∃ s, run (step (act (Add.config addArgs))) (init (Add.config addArgs)) sampleSchedule = some s ∧
      s.shared.counter = 0 ∧ Recorded (Add.appendCsv addArgs 1000000 s.shared.counter)
        (Add.testName addArgs) (Add.numbers addArgs 1000000 s.shared.counter) := by
  have hall : ((run (step (act sampleConfig)) (init sampleConfig) sampleSchedule).map
      fun s => decide (∀ t : Fin 2, (s.locals t).pc = .returned)) = some true := by decide
  rw [Option.map_eq_some_iff] at hall
  obtain ⟨s, hs, hret⟩ := hall
  obtain ⟨-, hshort, hzero, -⟩ := add_recorded addArgs (by decide) (by decide)
    ⟨by decide, by decide, by decide⟩ sampleSchedule s hs (of_decide_eq_true hret) 1000000
  exact ⟨s, hs, hzero (by decide), hshort (by decide) (by decide) (by decide)⟩

/-- A long run without synchronisation writes behind its buffer. -/
example : Add.appendCsv ⟨100, 1000000, true, .unsynced⟩ 123456789012 (-12345678) =
    .error .undefined := by decide +kernel

end LowLevelTasks.AppendCsv
