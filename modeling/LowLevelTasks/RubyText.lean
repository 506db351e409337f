import Mathlib.Data.Char
import Mathlib.Data.List.DropRight
import Mathlib.Data.List.GetD
import Mathlib.Data.List.Lex
import Mathlib.Data.List.Sort

/-!
Text as the string methods of Ruby see it: the lines that begin with a word, the fields
between commas, the number a field begins with, first-match substitution, and the order of
strings. A report is written with the same pieces the other way round, and reading it back
recovers them.
-/

namespace LowLevelTasks.RubyText

abbrev Text := List Char

/-- `scan(/^word.*/)`: the lines that begin with a word. -/
def scan (word contents : Text) : List Text :=
  (contents.splitOn '\n').filter fun line => word.isPrefixOf line

/-- `split(",")`, which drops the empty fields at the end. -/
def split (line : Text) : List Text := (line.splitOn ',').rdropWhile List.isEmpty

/-- A field, or `nil`, which reads as the number zero like an empty field. -/
def field (fields : List Text) (k : ℕ) : Text := fields.getD k []

def isSpace (c : Char) : Bool := c ∈ [' ', '\t', '\n', '\x0b', '\x0c', '\r']

/-- The digits a text begins with. A single underscore may stand between two of them, so it
is skipped where `gap` says that a digit stands before it. -/
def leadingDigits (gap : Bool) : Text → Text
  | [] => []
  | c :: s =>
    if c.isDigit then c :: leadingDigits true s
    else if c = '_' ∧ gap then leadingDigits false s
    else []

/-- A decimal number may begin with `0d`. -/
def dropRadix : Text → Text
  | '0' :: 'd' :: s | '0' :: 'D' :: s => s
  | s => s

def unsigned (s : Text) : ℕ := Nat.ofDigitChars 10 (leadingDigits false (dropRadix s)) 0

/-- `to_i`: leading space and a sign are allowed, and what follows the digits is ignored. -/
def toI (s : Text) : ℤ :=
  match s.dropWhile isSpace with
  | '-' :: s => -(unsigned s : ℤ)
  | '+' :: s => unsigned s
  | s => unsigned s

/-- `line[/\d+/]`, with the empty text for `nil`. -/
def firstDigits (line : Text) : Text :=
  (line.dropWhile fun c => !c.isDigit).takeWhile Char.isDigit

/-- `sub(pattern, replacement)` for a plain pattern: its first occurrence is replaced. -/
def sub (pattern replacement : Text) : Text → Text
  | [] => []
  | c :: s =>
    if pattern.isPrefixOf (c :: s) then replacement ++ (c :: s).drop pattern.length
    else c :: sub pattern replacement s

def tr (a b : Char) (s : Text) : Text := s.map fun c => if c = a then b else c

def upcase (s : Text) : Text := s.map Char.toUpper

/-- `gsub` of one character by nothing. -/
def remove (a : Char) (s : Text) : Text := s.filter (· ≠ a)

def sort (ls : List Text) : List Text := ls.insertionSort (· ≤ ·)

/-- A number as it is written, in decimal. -/
def decimal (n : ℕ) : Text := Nat.toDigits 10 n

def intText : ℤ → Text
  | .ofNat n => decimal n
  | .negSucc n => '-' :: decimal (n + 1)

/-- A line of fields. -/
def csv (fields : List Text) : Text := [','].intercalate fields

/-- A text of lines, each with its newline. -/
def unlines (ls : List Text) : Text := ls.flatMap fun line => line ++ ['\n']

/-- The bytes of a text in a file. -/
def encode (s : Text) : List UInt8 := s.flatMap String.utf8EncodeChar

/-- A file read as text; there is none if its bytes are not valid. -/
def decode (bytes : List UInt8) : Option Text := bytes.toByteArray.utf8Decode?.map Array.toList

/-! ### Bytes -/

lemma encode_append (s t : Text) : encode (s ++ t) = encode s ++ encode t := List.flatMap_append

lemma encode_unlines (ls : List Text) :
    encode (unlines ls) = ls.flatMap fun line => encode (line ++ ['\n']) := List.flatMap_assoc

/-- A character of seven bits is one byte. -/
lemma length_encode {s : Text} (h : ∀ c ∈ s, c.toNat < 128) : (encode s).length = s.length := by
  induction s with
  | nil => rfl
  | cons c s ih =>
    obtain ⟨hc, hs⟩ := List.forall_mem_cons.mp h
    have hone : (String.utf8EncodeChar c).length = 1 := by
      rw [String.length_utf8EncodeChar, Char.utf8Size_eq_one_iff, UInt32.le_iff_toNat_le]
      exact Nat.le_of_lt_succ hc
    rw [encode, List.flatMap_cons, List.length_append, hone, ← encode, ih hs, List.length_cons,
      Nat.add_comm]

/-- A text is read back from its bytes. -/
@[simp] theorem decode_encode (s : Text) : decode (encode s) = some s := by
  have h : s.utf8Encode.utf8Decode? = some s.toArray := List.utf8Decode?_utf8Encode
  unfold decode encode
  unfold List.utf8Encode at h
  rw [h]
  rfl

lemma encode_of_decode {bytes : List UInt8} {s : Text} (h : decode bytes = some s) :
    encode s = bytes := by
  obtain ⟨chars, hchars, rfl⟩ := Option.map_eq_some_iff.mp h
  have hsome : bytes.toByteArray.utf8Decode?.isSome := by rw [hchars]; rfl
  have hback := ByteArray.utf8Encode_get_utf8Decode? (h := hsome)
  unfold List.utf8Encode at hback
  rw [List.toByteArray_inj] at hback
  simp only [hchars, Option.get_some] at hback
  exact hback

/-- Text with the bytes of another text in front begins with that text. -/
lemma eq_append_of_encode {s t : Text} {rest : List UInt8} (h : encode s = encode t ++ rest) :
    ∃ u, s = t ++ u := by
  induction t generalizing s with
  | nil => exact ⟨s, rfl⟩
  | cons c t ih =>
    have hcons : ∀ c s, encode (c :: s) = String.utf8EncodeChar c ++ encode s := fun c s =>
      List.flatMap_cons
    rw [hcons, List.append_assoc] at h
    cases s with
    | nil =>
      have hlength := congrArg List.length h
      have hpos := c.utf8Size_pos
      rw [List.length_append, String.length_utf8EncodeChar] at hlength
      simp only [encode, List.flatMap_nil, List.length_nil] at hlength
      omega
    | cons c' s =>
      rw [hcons] at h
      have hfirst : c' = c := by
        have hdecode := congrArg (fun l : List UInt8 => l.toByteArray.utf8DecodeChar? 0) h
        simp only [List.toByteArray_append, ByteArray.utf8DecodeChar?_utf8EncodeChar_append,
          Option.some.injEq] at hdecode
        exact hdecode
      rw [hfirst, List.append_cancel_left_eq] at h
      obtain ⟨u, rfl⟩ := ih h
      exact ⟨u, by rw [hfirst, List.cons_append]⟩
/-! ### Lines and fields -/

lemma splitOn_unlines {ls : List Text} (h : ∀ l ∈ ls, '\n' ∉ l) :
    (unlines ls).splitOn '\n' = ls ++ [[]] := by
  induction ls with
  | nil => rfl
  | cons l ls ih =>
    rw [List.forall_mem_cons] at h
    rw [unlines, List.flatMap_cons, List.append_assoc, List.singleton_append,
      List.splitOn_append_cons_self_of_not_mem h.1]
    exact congrArg (l :: ·) (ih h.2)

/-- Scanning a text of lines finds those of them that begin with the word. -/
theorem scan_unlines {word : Text} {ls : List Text} (hw : word ≠ []) (h : ∀ l ∈ ls, '\n' ∉ l) :
    scan word (unlines ls) = ls.filter fun line => word.isPrefixOf line := by
  unfold scan
  rw [splitOn_unlines h, List.filter_append]
  obtain ⟨c, word, rfl⟩ := List.exists_cons_of_ne_nil hw
  simp

/-- Behind a newline the scan starts anew. -/
lemma scan_append_newline (word before rest : Text) :
    scan word (before ++ '\n' :: rest) = scan word before ++ scan word rest := by
  unfold scan
  rw [List.splitOn_append_cons_self, List.filter_append]

/-- A line that goes to the next newline is found as it is. -/
lemma scan_line {word line after : Text} (hline : '\n' ∉ line) :
    scan word (line ++ '\n' :: after) =
      (if word.isPrefixOf line then [line] else []) ++ scan word after := by
  rw [scan_append_newline]
  unfold scan
  rw [List.splitOn_eq_singleton hline, List.filter_singleton, cond_eq_ite]

/-- What stands between two separators has none. -/
lemma notMem_of_mem_splitOn {c : Char} {s f : Text} (h : f ∈ s.splitOn c) : c ∉ f := by
  induction hn : s.length using Nat.strong_induction_on generalizing s with
  | _ n ih =>
    by_cases hc : c ∈ s
    · obtain ⟨u, v, rfl, hu⟩ := List.eq_append_cons_of_mem hc
      rw [List.splitOn_append_cons_self_of_not_mem hu, List.mem_cons] at h
      rcases h with rfl | h
      · exact hu
      · exact ih v.length (by rw [← hn, List.length_append, List.length_cons]; omega) h rfl
    · rw [List.splitOn_eq_singleton hc, List.mem_singleton] at h
      exact h ▸ hc

/-- The last field is what stands behind the last separator. -/
lemma getLast?_splitOn (c : Char) (s : Text) :
    (s.splitOn c).getLast? = some (s.rtakeWhile (· ≠ c)) := by
  by_cases hc : c ∈ s
  · obtain ⟨v, u, hsplit, hv⟩ := List.eq_append_cons_of_mem (List.mem_reverse.mpr hc)
    have hs : s = u.reverse ++ c :: v.reverse := by
      rw [← List.reverse_reverse s, hsplit]
      simp
    have htake : s.rtakeWhile (· ≠ c) = v.reverse := by
      unfold List.rtakeWhile
      rw [hsplit, List.takeWhile_append_of_pos fun x hx => by
        simpa using fun heq : x = c => hv (heq ▸ hx)]
      simp
    have hlast : v.reverse.splitOn c = [v.reverse] := List.splitOn_eq_singleton (by simpa using hv)
    rw [htake, hs, List.splitOn_append_cons_self, hlast, List.getLast?_concat]
  · rw [List.splitOn_eq_singleton hc, List.getLast?_singleton, Option.some.injEq, eq_comm,
      List.rtakeWhile_eq_self_iff]
    exact fun x hx => by simpa using fun heq : x = c => hc (heq ▸ hx)

lemma csv_cons_cons (f f' : Text) (fields : List Text) :
    csv (f :: f' :: fields) = f ++ ',' :: csv (f' :: fields) := by
  unfold csv
  rw [List.intercalate_cons_cons, List.append_assoc, List.singleton_append]

lemma csv_concat {fields : List Text} (h : fields ≠ []) (last : Text) :
    csv (fields ++ [last]) = csv fields ++ ',' :: last := by
  induction fields with
  | nil => exact absurd rfl h
  | cons f fields ih =>
    cases fields with
    | nil => simp [csv]
    | cons f' fields =>
      rw [List.cons_append, List.cons_append, csv_cons_cons, csv_cons_cons, List.append_assoc]
      exact congrArg (fun s => f ++ ',' :: s) (ih (by simp))

lemma notMem_csv {c : Char} {fields : List Text} (hc : c ≠ ',') (h : ∀ f ∈ fields, c ∉ f) :
    c ∉ csv fields := by
  induction fields with
  | nil => simp [csv]
  | cons f fields ih =>
    rw [List.forall_mem_cons] at h
    rcases fields with _ | ⟨f', fields⟩
    · simpa [csv] using h.1
    · rw [csv_cons_cons, List.mem_append, List.mem_cons, not_or, not_or]
      exact ⟨h.1, hc, ih h.2⟩

/-- Splitting a line of fields recovers them, if the last is not empty. -/
theorem split_csv {fields : List Text} {last : Text} (h : ∀ f ∈ fields, ',' ∉ f)
    (hlast : fields.getLast? = some last) (hne : last ≠ []) : split (csv fields) = fields := by
  obtain ⟨init, rfl⟩ := List.getLast?_eq_some_iff.mp hlast
  unfold split csv
  rw [List.splitOn_intercalate _ h (by simp)]
  exact List.rdropWhile_concat_neg _ _ _ (by simpa using hne)

/-- The last field of a line may have commas itself. -/
lemma splitOn_csv_concat {fields : List Text} (last : Text) (h : ∀ f ∈ fields, ',' ∉ f) :
    (csv (fields ++ [last])).splitOn ',' = fields ++ last.splitOn ',' := by
  induction fields with
  | nil => simp [csv]
  | cons f fields ih =>
    rw [List.forall_mem_cons] at h
    obtain ⟨f', fields', hcons⟩ : ∃ f' fields', fields ++ [last] = f' :: fields' :=
      List.exists_cons_of_ne_nil (by simp)
    rw [List.cons_append, hcons, csv_cons_cons, List.splitOn_append_cons_self_of_not_mem h.1,
      ← hcons, ih h.2, List.cons_append]

/-- Dropping empty fields at the end does not change what is read in a field. -/
lemma field_rdropWhile (fields : List Text) (k : ℕ) :
    field (fields.rdropWhile List.isEmpty) k = field fields k := by
  unfold field
  induction fields using List.reverseRecOn with
  | nil => rfl
  | append_singleton fields f ih =>
    cases f with
    | cons c f => rw [List.rdropWhile_concat_neg _ _ _ (by simp)]
    | nil =>
      rw [List.rdropWhile_concat_pos _ _ _ (by rfl), ih]
      rcases Nat.lt_trichotomy k fields.length with hk | rfl | hk
      · rw [List.getD_append _ _ _ _ hk]
      · simp
      · have hlength : (fields ++ [[]]).length ≤ k := by
          rw [List.length_append, List.length_singleton]
          exact hk
        rw [List.getD_eq_default _ _ hk.le, List.getD_eq_default _ _ hlength]

/-! ### Numbers -/

lemma isDigit_of_mem_decimal {n : ℕ} {c : Char} (h : c ∈ decimal n) : c.isDigit :=
  Nat.isDigit_of_mem_toDigits (by omega) (by omega) h

lemma toNat_lt_of_mem_decimal {n : ℕ} {c : Char} (h : c ∈ decimal n) : c.toNat < 128 :=
  (Char.isDigit_iff_toNat.mp (isDigit_of_mem_decimal h)).2.trans_lt (by decide)

/-- A number has as many bytes as digits. -/
lemma length_encode_decimal (n : ℕ) : (encode (decimal n)).length = (Nat.toDigits 10 n).length :=
  length_encode fun _ h => toNat_lt_of_mem_decimal h

lemma decimal_ne_nil {n : ℕ} : decimal n ≠ [] := Nat.toDigits_ne_nil

lemma notMem_intText {c : Char} (hdigit : ¬ c.isDigit) (hminus : c ≠ '-') (n : ℤ) :
    c ∉ intText n := by
  have hdecimal : ∀ m, c ∉ decimal m := fun m h => hdigit (isDigit_of_mem_decimal h)
  cases n with
  | ofNat m => exact hdecimal m
  | negSucc m => exact List.not_mem_cons_of_ne_of_not_mem hminus (hdecimal (m + 1))

lemma intText_ne_nil {n : ℤ} : intText n ≠ [] := by
  cases n with
  | ofNat m => exact decimal_ne_nil
  | negSucc m => exact List.cons_ne_nil _ _

lemma leadingDigits_eq_self {s : Text} (gap : Bool) (h : ∀ c ∈ s, c.isDigit) :
    leadingDigits gap s = s := by
  induction s generalizing gap with
  | nil => rfl
  | cons c s ih =>
    rw [List.forall_mem_cons] at h
    rw [leadingDigits, if_pos h.1, ih _ h.2]

lemma isSpace_eq_false {c : Char} (h : c.isDigit) : isSpace c = false := by
  rw [Bool.eq_false_iff]
  intro hc
  simp only [isSpace, List.mem_cons, List.not_mem_nil, or_false, decide_eq_true_eq] at hc
  rcases hc with rfl | rfl | rfl | rfl | rfl | rfl <;> revert h <;> decide

lemma dropRadix_eq_self {s : Text} (h : ∀ c ∈ s, c.isDigit) : dropRadix s = s := by
  unfold dropRadix
  split
  · exact absurd (h 'd' (by simp)) (by decide)
  · exact absurd (h 'D' (by simp)) (by decide)
  · rfl

lemma unsigned_decimal (n : ℕ) : unsigned (decimal n) = n := by
  have hdigit : ∀ c ∈ decimal n, c.isDigit := fun c => isDigit_of_mem_decimal
  unfold unsigned
  rw [dropRadix_eq_self hdigit, leadingDigits_eq_self _ hdigit]
  exact Nat.ofDigitChars_ten_toDigits

/-- A written number is read back. -/
@[simp] theorem toI_decimal (n : ℕ) : toI (decimal n) = n := by
  obtain ⟨c, s, hs⟩ := List.exists_cons_of_ne_nil (decimal_ne_nil (n := n))
  have hdigit : ∀ c ∈ decimal n, c.isDigit := fun c => isDigit_of_mem_decimal
  have hc : c.isDigit := hdigit c (by simp [hs])
  have hvalue := unsigned_decimal n
  unfold toI
  rw [List.dropWhile_eq_self_iff.mpr]
  · rw [hs] at hvalue ⊢
    split
    · next heq =>
      obtain ⟨rfl, -⟩ := List.cons.inj heq
      exact absurd hc (by decide)
    · next heq =>
      obtain ⟨rfl, -⟩ := List.cons.inj heq
      exact absurd hc (by decide)
    · rw [hvalue]
  · intro hl
    simp [hs, isSpace_eq_false hc]

@[simp] theorem toI_intText (n : ℤ) : toI (intText n) = n := by
  cases n with
  | ofNat n => exact toI_decimal n
  | negSucc n =>
    change -(unsigned (decimal (n + 1)) : ℤ) = _
    rw [unsigned_decimal, Int.negSucc_eq, Int.natCast_add, Int.natCast_one]

example : toI " -0d1_2,3".toList = -12 := by decide

lemma decimal_injective : Function.Injective decimal := fun m n h => by
  have h' := congrArg toI h
  rw [toI_decimal, toI_decimal] at h'
  exact_mod_cast h'

/-- The first digits of a line that begins with a word without digits. -/
lemma firstDigits_append {word : Text} (n : ℕ) (h : word.all fun c => !c.isDigit) :
    firstDigits (word ++ decimal n) = decimal n := by
  have hdigit : ∀ c ∈ decimal n, c.isDigit := fun c => isDigit_of_mem_decimal
  unfold firstDigits
  rw [List.dropWhile_append_of_pos (List.all_eq_true.mp h)]
  obtain ⟨c, s, hs⟩ := List.exists_cons_of_ne_nil (decimal_ne_nil (n := n))
  rw [hs] at hdigit ⊢
  rw [List.dropWhile_cons_of_neg (by simp [hdigit c]), List.takeWhile_eq_self_iff.mpr hdigit]

/-! ### The order of lines -/

lemma append_lt_append_left {w a b : Text} : w ++ a < w ++ b ↔ a < b := by
  induction w with
  | nil => rfl
  | cons c w ih => rw [List.cons_append, List.cons_append, List.cons_lt_cons_iff]; simp [ih]

lemma comma_lt_of_isDigit {c : Char} (h : c.isDigit) : ',' < c := by
  simp only [Char.isDigit, Bool.and_eq_true, decide_eq_true_eq] at h
  exact lt_of_lt_of_le (by decide) h.1

/-- Lines with different numbers in a field are ordered as the numbers are written. -/
lemma lt_of_digits {u v s t : Text} (hu : ∀ c ∈ u, c.isDigit) (hv : ∀ c ∈ v, c.isDigit)
    (hne : u ≠ v) : u ++ ',' :: s < v ++ ',' :: t ↔ u < v := by
  induction u generalizing v with
  | nil =>
    obtain ⟨c, v, rfl⟩ := List.exists_cons_of_ne_nil hne.symm
    have : ',' < c := comma_lt_of_isDigit (hv c (by simp))
    simp [List.cons_lt_cons_iff, this]
  | cons c u ih =>
    rw [List.forall_mem_cons] at hu
    cases v with
    | nil =>
      have : ',' < c := comma_lt_of_isDigit hu.1
      simp [List.cons_lt_cons_iff, this.not_gt, this.ne']
    | cons d v =>
      rw [List.forall_mem_cons] at hv
      rw [List.cons_append, List.cons_append, List.cons_lt_cons_iff, List.cons_lt_cons_iff]
      refine or_congr_right (and_congr_right fun hcd => ih hu.2 hv.2 fun h => hne ?_)
      rw [hcd, h]

lemma pairwise_sort (ls : List Text) : (sort ls).Pairwise (· ≤ ·) :=
  List.pairwise_insertionSort _ ls

end LowLevelTasks.RubyText
