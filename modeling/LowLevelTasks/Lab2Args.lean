import LowLevelTasks.ImgReader
import LowLevelTasks.Lab2Add
import LowLevelTasks.Lab2ListB
import LowLevelTasks.RubyText
import LowLevelTasks.YieldOptions

/-!
The command lines of projects 2a and 2b. The numbers are read with `atoi` and `atol` and stored
as they are, while a wrong argument of the other options ends the program.
-/

namespace LowLevelTasks.Lab2Args

open LowLevelTasks.Buffers LowLevelTasks.ImgReader LowLevelTasks.RubyText LowLevelTasks.Strings
open LowLevelTasks.YieldOptions

/-! ### Numbers -/

/-- The value of the digits at the start. -/
def magnitude (s : Text) : ℕ := Nat.ofDigitChars 10 (s.takeWhile Char.isDigit) 0

/-- The number a text begins with, behind space and a sign. -/
def leadingInt (s : Text) : ℤ :=
  match s.dropWhile isSpace with
  | '-' :: s => -(magnitude s : ℤ)
  | '+' :: s => magnitude s
  | s => magnitude s

/-- `atol` is `strtol`, which returns the closest `long` for a number that is none. -/
def atol (s : CString) : Int64 := .ofIntClamp (leadingInt (s.bytes.map Char.ofUInt8))

/-- `atoi` converts the result of `strtol`. -/
def atoi (s : CString) : Int32 := (atol s).toInt32

/-! ### Options -/

/-- What `getopt_long` returns for an option, with the argument where one is required. Options
that are not in the table, or without their argument, are `unknown`. -/
inductive Opt
  | threads (optarg : CString) | iterations (optarg : CString) | lists (optarg : CString)
  | yield (optarg : CString) | sync (optarg : CString) | unknown

/-- The loop over the options, and the check that nothing is left behind them. -/
def process {σ : Type} (step : σ → Opt → Except Stop σ) (s : σ) (opts : List Opt)
    (operands : ℕ) : Except Stop σ := do
  let s ← opts.foldlM step s
  if 0 < operands then .error (.exit 1) else .ok s

namespace Add

structure Args where
  numThreads : Int32
  numIterations : Int64
  optYield : Bool
  syncOpt : Lab2Add.SyncOption

/-- `switch (opt)` of `lab2_add`, whose `--yield` has no argument. -/
def switch (a : Args) : Opt → Except Stop Args
  | .threads optarg => .ok { a with numThreads := atoi optarg }
  | .iterations optarg => .ok { a with numIterations := atol optarg }
  | .yield _ => .ok { a with optYield := true }
  | .sync optarg =>
    if deref optarg = 109 then .ok { a with syncOpt := .mutex }
    else if deref optarg = 115 then .ok { a with syncOpt := .spinLock }
    else if deref optarg = 99 then .ok { a with syncOpt := .compareSwap }
    else .error (.exit 1)
  | .lists _ | .unknown => .error (.exit 1)

def processArgs (opts : List Opt) (operands : ℕ) : Except Stop Args :=
  process switch ⟨1, 1, false, .unsynced⟩ opts operands

end Add

namespace ListA

/-- The parameters of both list programs. -/
structure Args where
  numThreads : Int32
  numIterations : Int64
  optYield : BitVec 32
  syncOpt : Lab2ListB.SyncOptions
  strYield : List UInt8
  strSync : List UInt8

/-- The parameters that are set before the options are read. -/
def defaults : Args where
  numThreads := 1
  numIterations := 1
  optYield := 0
  syncOpt := .unsynced
  strYield := [110, 111, 110, 101, 0]
  strSync := [110, 111, 110, 101, 0]

/-- `sync_by`, where `none` is its error. -/
def syncBy (sync : ℤ) : Option Lab2ListB.SyncOptions :=
  if sync = 109 then some .mutex else if sync = 115 then some .spinlock else none

/-- `switch (opt)` of `lab2_list` in project 2a. -/
def switch (a : Args) : Opt → Except Stop Args
  | .threads optarg => .ok { a with numThreads := atoi optarg }
  | .iterations optarg => .ok { a with numIterations := atol optarg }
  | .yield optarg =>
    match yieldBy a.optYield optarg with
    | (result, optYield) =>
      if result = 1 then .error (.exit 1)
      else .ok { a with optYield := optYield, strYield := strncpy 5 optarg.bytes }
  | .sync optarg =>
    match syncBy (deref optarg) with
    | none => .error (.exit 1)
    | some opt => .ok { a with syncOpt := opt, strSync := strncpy 5 optarg.bytes }
  | .lists _ | .unknown => .error (.exit 1)

def processArgs (opts : List Opt) (operands : ℕ) : Except Stop Args :=
  process switch defaults opts operands

end ListA

namespace ListB

structure Args extends ListA.Args where
  numLists : Int32

/-- `switch (opt)` of `lab2_list` in project 2b, which has one option more. -/
def switch (a : Args) : Opt → Except Stop Args
  | .lists optarg => .ok { a with numLists := atoi optarg }
  | opt => do .ok { a with toArgs := ← ListA.switch a.toArgs opt }

def processArgs (opts : List Opt) (operands : ℕ) : Except Stop Args :=
  process switch ⟨ListA.defaults, 1⟩ opts operands

end ListB

/-! ### Every number is read -/

/-- The argument that is a number as it is written. -/
def numeral (n : ℤ) : CString := .ofBuffer ((intText n).map Char.toUInt8)

lemma ofUInt8_toUInt8 {c : Char} (h : c.toNat < 128) : Char.ofUInt8 c.toUInt8 = c := by
  refine Char.toNat_inj.mp ?_
  change (UInt8.ofNat c.toNat).toUInt32.toNat = c.toNat
  rw [UInt8.toNat_toUInt32, UInt8.toNat_ofNat', Nat.mod_eq_of_lt (by omega)]

lemma isAscii_of_mem_intText {n : ℤ} {c : Char} (h : c ∈ intText n) :
    0 < c.toNat ∧ c.toNat < 128 := by
  have hdecimal : ∀ {m : ℕ}, c ∈ decimal m → 0 < c.toNat ∧ c.toNat < 128 := fun {m} hc => by
    have := Char.isDigit_iff_toNat.mp (isDigit_of_mem_decimal hc)
    simp only [Char.reduceToNat] at this
    omega
  cases n with
  | ofNat m => exact hdecimal h
  | negSucc m =>
    obtain rfl | h := List.mem_cons.mp h
    · decide
    · exact hdecimal h

lemma chars_numeral (n : ℤ) : (numeral n).bytes.map Char.ofUInt8 = intText n := by
  have hnul : ∀ b ∈ (intText n).map Char.toUInt8, decide (b ≠ 0) := by
    intro b hb
    obtain ⟨c, hc, rfl⟩ := List.mem_map.mp hb
    have hascii := isAscii_of_mem_intText hc
    rw [decide_eq_true_eq]
    intro hzero
    have hc' : c = Char.ofUInt8 0 := by rw [← hzero, ofUInt8_toUInt8 hascii.2]
    exact absurd hascii.1 (by rw [hc']; decide)
  change (((intText n).map Char.toUInt8).takeWhile (· ≠ 0)).map Char.ofUInt8 = intText n
  rw [List.takeWhile_eq_self_iff.mpr hnul, List.map_map]
  calc (intText n).map (Char.ofUInt8 ∘ Char.toUInt8) = (intText n).map id :=
        List.map_congr_left fun c hc => ofUInt8_toUInt8 (isAscii_of_mem_intText hc).2
    _ = intText n := List.map_id _

lemma magnitude_decimal (n : ℕ) : magnitude (decimal n) = n := by
  unfold magnitude
  rw [List.takeWhile_eq_self_iff.mpr fun c hc => isDigit_of_mem_decimal hc]
  exact Nat.ofDigitChars_ten_toDigits

lemma leadingInt_intText (n : ℤ) : leadingInt (intText n) = n := by
  cases n with
  | ofNat n =>
    obtain ⟨c, s, hs⟩ := List.exists_cons_of_ne_nil (decimal_ne_nil (n := n))
    have hc : c.isDigit := isDigit_of_mem_decimal (n := n) (by simp [hs])
    have hvalue := magnitude_decimal n
    change leadingInt (decimal n) = n
    rw [hs] at hvalue ⊢
    rw [leadingInt, List.dropWhile_cons_of_neg (by simp [isSpace_eq_false hc])]
    split
    · next heq => exact absurd hc (by rw [(List.cons.inj heq).1]; decide)
    · next heq => exact absurd hc (by rw [(List.cons.inj heq).1]; decide)
    · rw [hvalue]
  | negSucc n =>
    change -(magnitude (decimal (n + 1)) : ℤ) = _
    rw [magnitude_decimal, Int.negSucc_eq, Int.natCast_add, Int.natCast_one]

/-- **Every `long`** is what `atol` makes of some argument. -/
theorem atol_numeral (n : Int64) : atol (numeral n.toInt) = n := by
  unfold atol
  rw [chars_numeral, leadingInt_intText,
    ← @Int64.ofIntLE_eq_ofIntClamp n.toInt n.minValue_le_toInt n.toInt_le]
  exact n.ofIntLE_toInt

theorem atoi_numeral (n : Int32) : atoi (numeral n.toInt) = n := by
  unfold atoi
  rw [← Int32.toInt_toInt64, atol_numeral]
  exact n.toInt32_toInt64

/-- **Every triple of numbers** is the one of an accepted command line. -/
theorem exists_processArgs (numThreads numLists : Int32) (numIterations : Int64) :
    ∃ opts a, ListB.processArgs opts 0 = .ok a ∧ a.numThreads = numThreads ∧
      a.numIterations = numIterations ∧ a.numLists = numLists := by
  refine ⟨[.threads (numeral numThreads.toInt), .iterations (numeral numIterations.toInt),
    .lists (numeral numLists.toInt)], _, rfl, ?_, ?_, ?_⟩
  · exact atoi_numeral numThreads
  · exact atol_numeral numIterations
  · exact atoi_numeral numLists

end LowLevelTasks.Lab2Args
