import LowLevelTasks.RubyText
import LowLevelTasks.SensorProgram

/-!
The log of the client of project 1b.

A record is written in five pieces. The count is printed into an array of three bytes, of which
as many are written as dividing by ten counts digits; the data is copied as a string, and as
many bytes are written from the copy as were to be logged.
-/

namespace LowLevelTasks.LogRecords

open LowLevelTasks.RubyText
open LowLevelTasks.SensorProgram (ascii)

def numDigits (num : ℕ) : ℕ := if 0 < num then numDigits (num / 10) + 1 else 0

/-- The bytes of the copy, without its terminator. -/
def strndup (buf : List UInt8) (n : ℕ) : List UInt8 := (buf.take n).takeWhile (· ≠ 0)

/-- The copy, or a text in the place of one that begins with a special character. -/
def showSpecial (bufCopy : List UInt8) : List UInt8 :=
  if bufCopy.head? = some 3 then ascii "^C"
  else if bufCopy.head? = some 4 then ascii "^D"
  else bufCopy

/-- The bytes from the start of a string on: its own, the terminator, and what stands behind it
in memory. -/
def readFrom (behind : ℕ → UInt8) : List UInt8 → ℕ → List UInt8
  | _, 0 => []
  | [], n + 1 => 0 :: (List.range n).map behind
  | b :: s, n + 1 => b :: readFrom behind s n

def direction (isSent : Bool) : List UInt8 := if isSent then ascii "SENT " else ascii "RECEIVED "

/-- The size of `str_bytes`. -/
def strBytesSize : ℕ := 3

/-- What is appended to the log, or `none` if `sprintf` writes behind `str_bytes`. -/
def writeLog (behind : ℕ → UInt8) (buf : List UInt8) (bytes : ℕ) (isSent : Bool) :
    Option (List UInt8) :=
  let bufCopy := showSpecial (strndup buf bytes)
  let digits := numDigits bytes
  let strBytes := encode (decimal bytes) ++ [0]
  if strBytes.length ≤ strBytesSize then
    some (direction isSent ++ strBytes.take digits ++ ascii " bytes: " ++
      readFrom behind bufCopy bytes ++ ascii "\n")
  else none

/-- The record that the data is to have. -/
def record (buf : List UInt8) (isSent : Bool) : List UInt8 :=
  direction isSent ++ encode (decimal buf.length) ++ ascii " bytes: " ++ buf ++ ascii "\n"

/-- Whatever lies behind the copy in memory, the record is the one of the data. -/
def Records (buf : List UInt8) (isSent : Bool) : Prop :=
  ∀ behind, writeLog behind buf buf.length isSent = some (record buf isSent)

/-- A count of one or two digits, data that does not begin with ^C or ^D, and no zero in it but
at its end. -/
structure Loggable (buf : List UInt8) : Prop where
  pos : 0 < buf.length
  short : buf.length < 100
  plain : buf.head? ≠ some 3 ∧ buf.head? ≠ some 4
  noNul : 0 ∉ buf.dropLast

variable {n : ℕ} {buf : List UInt8} {isSent : Bool}

/-! ### The count -/

/-- Dividing by ten counts the digits that are printed, unless the count is zero. -/
lemma numDigits_eq_length (hn : 0 < n) : numDigits n = (Nat.toDigits 10 n).length := by
  induction n using Nat.strong_induction_on with
  | _ n ih =>
    rw [numDigits, if_pos hn, Nat.toDigits_eq_if (by omega)]
    by_cases hlt : n < 10
    · rw [if_pos hlt, Nat.div_eq_of_lt hlt, numDigits]
      rfl
    · rw [if_neg hlt, ih (n / 10) (by omega) (by omega), List.length_append]
      rfl

lemma length_strBytes_le (n : ℕ) :
    (encode (decimal n) ++ [0]).length ≤ strBytesSize ↔ n < 100 := by
  rw [List.length_append, length_encode_decimal, strBytesSize]
  exact Nat.succ_le_succ_iff.trans (Nat.length_toDigits_le_iff (by omega) (by omega))

/-! ### The copy -/

lemma readFrom_takeWhile_iff :
    (∀ behind, readFrom behind (buf.takeWhile (· ≠ 0)) buf.length = buf) ↔ 0 ∉ buf.dropLast := by
  induction buf with
  | nil => simp [readFrom]
  | cons b buf ih =>
    by_cases hb : b = 0
    · subst hb
      rw [List.takeWhile_cons_of_neg (by simp)]
      cases buf with
      | nil => simp [readFrom]
      | cons c buf =>
        refine iff_of_false (fun h => ?_) (by simp)
        -- another byte than the next one may stand behind the copy
        have hnext := h fun _ => c + 1
        simp [readFrom, List.range_succ_eq_map] at hnext
    · rw [List.takeWhile_cons_of_pos (by simpa using hb), List.length_cons]
      simp only [readFrom, List.cons_eq_cons, true_and]
      rw [ih]
      cases buf with
      | nil => simp
      | cons c buf => simp [Ne.symm hb]

/-- The text in the place of a special character begins with a caret. -/
lemma readFrom_showSpecial {b : UInt8} (hb : b = 3 ∨ b = 4) (behind : ℕ → UInt8) (n : ℕ) :
    readFrom behind (showSpecial (strndup (b :: buf) (n + 1))) (n + 1) ≠ b :: buf := by
  have hcaret : ∃ s, showSpecial (strndup (b :: buf) (n + 1)) = 94 :: s := by
    obtain rfl | rfl := hb
    · exact ⟨[67], by simp [showSpecial, strndup, ascii]⟩
    · exact ⟨[68], by simp [showSpecial, strndup, ascii]⟩
  obtain ⟨s, hs⟩ := hcaret
  rw [hs, readFrom]
  intro h
  obtain ⟨rfl, -⟩ := List.cons_eq_cons.mp h
  exact absurd hb (by decide)

lemma showSpecial_strndup (h : buf.head? ≠ some 3 ∧ buf.head? ≠ some 4) :
    showSpecial (strndup buf buf.length) = buf.takeWhile (· ≠ 0) := by
  rw [strndup, List.take_length, showSpecial]
  have hhead : ∀ c, (buf.takeWhile (· ≠ 0)).head? = some c → buf.head? = some c := fun c hc => by
    cases buf with
    | nil => exact hc
    | cons b buf =>
      by_cases hb : b = 0
      · simp [hb] at hc
      · simpa [hb] using hc
  rw [if_neg fun h3 => h.1 (hhead 3 h3), if_neg fun h4 => h.2 (hhead 4 h4)]

lemma copy_iff (hne : buf ≠ []) :
    (∀ behind, readFrom behind (showSpecial (strndup buf buf.length)) buf.length = buf) ↔
      (buf.head? ≠ some 3 ∧ buf.head? ≠ some 4) ∧ 0 ∉ buf.dropLast := by
  by_cases hplain : buf.head? ≠ some 3 ∧ buf.head? ≠ some 4
  · rw [showSpecial_strndup hplain, readFrom_takeWhile_iff, and_iff_right hplain]
  · refine iff_of_false (fun h => ?_) fun h => hplain h.1
    obtain ⟨b, buf, rfl⟩ := List.exists_cons_of_ne_nil hne
    have hb : b = 3 ∨ b = 4 := by
      rwa [List.head?_cons, not_and_or, not_not, not_not, Option.some.injEq,
        Option.some.injEq] at hplain
    exact readFrom_showSpecial hb (fun _ => 0) _ (h _)

/-! ### The result -/

/-- The pieces of the record, one by one. -/
lemma writeLog_eq_record_iff (behind : ℕ → UInt8) :
    writeLog behind buf buf.length isSent = some (record buf isSent) ↔
      (0 < buf.length ∧ buf.length < 100) ∧
        readFrom behind (showSpecial (strndup buf buf.length)) buf.length = buf := by
  rw [writeLog]
  by_cases hshort : buf.length < 100
  · rw [if_pos ((length_strBytes_le _).mpr hshort), Option.some.injEq, record,
      and_iff_left hshort, List.append_assoc, List.append_assoc, List.append_assoc,
      List.append_assoc, List.append_assoc, List.append_assoc, List.append_cancel_left_eq]
    by_cases hpos : 0 < buf.length
    · have hcount : (encode (decimal buf.length) ++ [0]).take (numDigits buf.length) =
          encode (decimal buf.length) := by
        rw [numDigits_eq_length hpos, ← length_encode_decimal, List.take_left]
      rw [hcount, List.append_cancel_left_eq, List.append_cancel_left_eq,
        List.append_cancel_right_eq, and_iff_right hpos]
    · -- no digit is counted for zero
      obtain rfl : buf = [] := by simpa using hpos
      refine iff_of_false (fun h => ?_) (by simp)
      have hlen := congrArg List.length h
      simp [numDigits, readFrom, length_encode_decimal] at hlen
  · rw [if_neg fun h => hshort ((length_strBytes_le _).mp h)]
    exact iff_of_false (by simp) fun h => hshort h.1.2

/-- **When the log shows the data.** Exactly if the count has one or two digits and the data
neither begins with a special character nor holds a zero before its last byte. -/
theorem records_iff (buf : List UInt8) (isSent : Bool) : Records buf isSent ↔ Loggable buf := by
  unfold Records
  simp only [writeLog_eq_record_iff, forall_and, forall_const]
  constructor
  · rintro ⟨⟨hpos, hshort⟩, h⟩
    obtain ⟨hplain, hnul⟩ := (copy_iff (List.ne_nil_of_length_pos hpos)).mp h
    exact ⟨hpos, hshort, hplain, hnul⟩
  · rintro ⟨hpos, hshort, hplain, hnul⟩
    exact ⟨⟨hpos, hshort⟩, (copy_iff (List.ne_nil_of_length_pos hpos)).mpr ⟨hplain, hnul⟩⟩

/-- The terminator of a count of three digits falls behind `str_bytes`; of a message ^C one
byte of the text is written, which is the caret. -/
theorem hundred_letters_overflow :
    ¬ Records (List.replicate 100 97) false ∧ ¬ Records [3] true :=
  ⟨fun h => absurd ((writeLog_eq_record_iff _).mp (h fun _ => 0)).1.2 (by simp),
    fun h => readFrom_showSpecial (.inl rfl) (fun _ => 0) 0
      ((writeLog_eq_record_iff _).mp (h fun _ => 0)).2⟩

end LowLevelTasks.LogRecords
