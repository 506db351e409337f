import LowLevelTasks.Lab2Args
import LowLevelTasks.LineWidths

/-!
The files that the thread programs append their results to: a name and numbers on each line, with
commas between them. A file is read at its newlines and commas.
-/

namespace LowLevelTasks.CsvFiles

open LowLevelTasks.ImgReader LowLevelTasks.Lab2Args LowLevelTasks.LineWidths LowLevelTasks.Loops
open LowLevelTasks.RubyText

/-! ### Writing -/

/-- A line of a name and numbers. -/
def row (name : List UInt8) (ns : List ℤ) : List UInt8 :=
  [44].intercalate (name :: ns.map fun n => (numeral n).bytes) ++ [10]

/-- `sprintf` or `strcpy` into an array of so many characters. -/
def sprintf (size : ℕ) (text : List UInt8) : Except Stop (List UInt8) :=
  if text.length + 1 ≤ size then .ok text else .error .undefined

/-- `%s` of an array of characters, which has to hold a zero. -/
def printed (array : List UInt8) : Except Stop (List UInt8) :=
  if 0 ∈ array then .ok (array.takeWhile (· ≠ 0)) else .error .undefined

/-- `fprintf` with nothing behind its format. -/
def fprintf : List UInt8 → Except Stop (List UInt8)
  | [] => .ok []
  | 37 :: 37 :: format => do .ok (37 :: (← fprintf format))
  | 37 :: _ => .error .undefined
  | c :: format => do .ok (c :: (← fprintf format))

/-- What is written to the file, and what is shown. -/
def append (size : ℕ) (text : List UInt8) : Except Stop (List UInt8 × List UInt8) := do
  let output ← sprintf size text
  .ok (output, ← fprintf output)

/-! ### Reading -/

def readNumber (field : List UInt8) : ℤ := leadingInt (field.map Char.ofUInt8)

def readRow (line : List UInt8) : List UInt8 × List ℤ :=
  ((line.splitOn 44).headD [], (line.splitOn 44).tail.map readNumber)

/-- The lines of a file. What stands behind the last newline is none. -/
def readFile (file : List UInt8) : List (List UInt8 × List ℤ) :=
  (file.splitOn 10).dropLast.map readRow

/-- There is nothing behind the last newline. -/
def Complete (file : List UInt8) : Prop := file = [] ∨ file.getLast? = some 10

/-- What is written and shown is the same line, and whoever reads the file finds there, behind all
that was there before, the name and the numbers. -/
def Recorded (result : Except Stop (List UInt8 × List UInt8)) (name : List UInt8) (ns : List ℤ) :
    Prop :=
  ∃ line, result = .ok (line, line) ∧
    ∀ old, Complete old → readFile (old ++ line) = readFile old ++ [(name, ns)]

/-- No newline, no percent sign and no comma. -/
def Plain (text : List UInt8) : Prop := ∀ b ∈ text, b ≠ 10 ∧ b ≠ 37 ∧ b ≠ 44

instance (text : List UInt8) : Decidable (Plain text) :=
  decidable_of_iff (text.all fun b => b != 10 && b != 37 && b != 44) (by simp [Plain, and_assoc])

variable {name : List UInt8} {ns : List ℤ} {n : ℤ} {b : UInt8} {size : ℕ} {text : List UInt8}

/-! ### Numbers -/

lemma digit_or_sign {c : Char} (h : c ∈ intText n) : c.isDigit ∨ c = '-' := by
  cases n with
  | ofNat n => exact .inl (isDigit_of_mem_decimal h)
  | negSucc n => exact (List.mem_cons.mp h).symm.imp_left isDigit_of_mem_decimal

/-- A number is digits, and perhaps a sign. -/
lemma mem_numeral (h : b ∈ (numeral n).bytes) : 48 ≤ b.toNat ∧ b.toNat ≤ 57 ∨ b = 45 := by
  have hb : Char.ofUInt8 b ∈ intText n := chars_numeral n ▸ List.mem_map_of_mem h
  have hval : (Char.ofUInt8 b).toNat = b.toNat := rfl
  refine (digit_or_sign hb).imp (fun hdigit => ?_) fun hsign => ?_
  · rw [Char.isDigit_iff_toNat, hval] at hdigit
    simpa using hdigit
  · rw [← UInt8.toNat_inj, ← hval, hsign]
    rfl

lemma notMem_numeral (hb : b = 10 ∨ b = 37 ∨ b = 44) : b ∉ (numeral n).bytes := fun h => by
  rcases hb with rfl | rfl | rfl <;> exact absurd (mem_numeral h) (by decide)

lemma readNumber_numeral (n : ℤ) : readNumber (numeral n).bytes = n := by
  rw [readNumber, chars_numeral, leadingInt_intText]

lemma length_numeral (n : ℤ) : (numeral n).bytes.length = width n := by
  rw [← length_encode_intText, length_encode fun c hc => (isAscii_of_mem_intText hc).2,
    ← chars_numeral, List.length_map]

/-! ### Lines -/

/-- A line begins with its name. -/
lemma row_eq (name : List UInt8) (ns : List ℤ) :
    row name ns = name ++ (ns.flatMap fun n => 44 :: (numeral n).bytes) ++ [10] := by
  have hfields : ∀ (name : List UInt8) (fields : List (List UInt8)),
      [44].intercalate (name :: fields) = name ++ fields.flatMap fun f => 44 :: f := by
    intro name fields
    induction fields generalizing name with
    | nil => simp
    | cons f fields ih =>
      rw [List.intercalate_cons_cons, ih, List.flatMap_cons, List.append_assoc]
      rfl
  rw [row, hfields, List.flatMap_map]

lemma length_row (name : List UInt8) (ns : List ℤ) :
    (row name ns).length = name.length + widths ns + ns.length + 1 := by
  have hnumbers : (ns.flatMap fun n => 44 :: (numeral n).bytes).length = widths ns + ns.length := by
    induction ns with
    | nil => rfl
    | cons n ns ih =>
      rw [List.flatMap_cons, List.length_append, ih, List.length_cons, length_numeral]
      simp only [widths, List.map_cons, List.sum_cons, List.length_cons]
      omega
  rw [row_eq, List.length_append, List.length_append, hnumbers, List.length_singleton]
  omega

lemma notMem_numbers (hb : b = 10 ∨ b = 37) : b ∉ ns.flatMap fun n => 44 :: (numeral n).bytes := by
  intro h
  obtain ⟨n, -, hn⟩ := List.mem_flatMap.mp h
  rcases List.mem_cons.mp hn with rfl | hn
  · exact absurd hb (by decide)
  · exact notMem_numeral (by rcases hb with rfl | rfl <;> simp) hn

/-- A file is read line by line, so that it can be appended to. -/
lemma readFile_append {old : List UInt8} (h : Complete old) (new : List UInt8) :
    readFile (old ++ new) = readFile old ++ readFile new := by
  rcases h with rfl | h
  · rfl
  · obtain ⟨lines, rfl⟩ := List.getLast?_eq_some_iff.mp h
    unfold readFile
    rw [List.append_assoc, List.singleton_append, List.splitOn_append_cons_self,
      List.splitOn_append_cons_self, List.splitOn_nil, List.dropLast_concat,
      List.dropLast_append_of_ne_nil (List.splitOn_ne_nil 10 new), List.map_append]

/-- A line is read as it was meant if there is no comma and no newline in its name. -/
lemma readFile_row_iff (name : List UInt8) (ns : List ℤ) :
    readFile (row name ns) = [(name, ns)] ↔ 44 ∉ name ∧ 10 ∉ name := by
  have hread : readFile (row name ns) =
      (([44].intercalate (name :: ns.map fun n => (numeral n).bytes)).splitOn 10).map readRow := by
    unfold readFile row
    rw [List.splitOn_append_cons_self, List.splitOn_nil, List.dropLast_concat]
  have hbody : [44].intercalate (name :: ns.map fun n => (numeral n).bytes) =
      name ++ ns.flatMap fun n => 44 :: (numeral n).bytes :=
    List.append_left_injective [10] (row_eq name ns)
  have hsingle (hname : 10 ∉ name) :
      readFile (row name ns) = [readRow (name ++ ns.flatMap fun n => 44 :: (numeral n).bytes)] := by
    have hnone : 10 ∉ name ++ ns.flatMap fun n => 44 :: (numeral n).bytes := fun h =>
      (List.mem_append.mp h).elim hname (notMem_numbers (.inl rfl))
    rw [hread, hbody, List.splitOn_eq_singleton hnone]
    rfl
  constructor
  · intro h
    have hname : 10 ∉ name := fun hmem => by
      obtain ⟨u, v, rfl⟩ := List.append_of_mem hmem
      have hlength := congrArg List.length (hread.symm.trans h)
      have hu := List.length_pos_iff.mpr (List.splitOn_ne_nil 10 u)
      have hv := List.length_pos_iff.mpr (List.splitOn_ne_nil 10
        (v ++ ns.flatMap fun n => 44 :: (numeral n).bytes))
      rw [hbody, List.append_assoc, List.cons_append, List.splitOn_append_cons_self,
        List.length_map, List.length_append, List.length_singleton] at hlength
      omega
    refine ⟨fun hmem => ?_, hname⟩
    obtain ⟨u, v, rfl, hu⟩ := List.eq_append_cons_of_mem hmem
    have hfirst := congrArg Prod.fst (List.singleton_inj.mp ((hsingle hname).symm.trans h))
    unfold readRow at hfirst
    rw [List.append_assoc, List.cons_append, List.splitOn_append_cons_self_of_not_mem hu] at hfirst
    exact absurd (congrArg List.length hfirst) (by simp)
  · rintro ⟨hcomma, hname⟩
    have hfields : ∀ f ∈ name :: ns.map (fun n => (numeral n).bytes), 44 ∉ f := by
      rw [List.forall_mem_cons, List.forall_mem_map]
      exact ⟨hcomma, fun n _ => notMem_numeral (by simp)⟩
    have hnumbers : (ns.map fun n => (numeral n).bytes).map readNumber = ns := by
      rw [List.map_map]
      exact (List.map_congr_left fun n _ => readNumber_numeral n).trans (List.map_id ns)
    rw [hsingle hname, ← hbody, readRow, List.splitOn_intercalate _ hfields (List.cons_ne_nil _ _),
      List.tail_cons, hnumbers]
    rfl

/-! ### Formats -/

lemma length_fprintf {shown : List UInt8} (h : fprintf text = .ok shown) :
    shown.length ≤ text.length ∧ (37 ∈ text → shown.length < text.length) := by
  induction text using fprintf.induct generalizing shown with
  | case1 =>
    obtain rfl := Except.ok.inj h
    simp
  | case2 format ih =>
    obtain ⟨rest, hrest, hshown⟩ := bind_eq_ok_iff.mp h
    obtain rfl := Except.ok.inj hshown
    have := (ih hrest).1
    simp only [List.length_cons]
    omega
  | case3 format hpair => simp [fprintf] at h
  | case4 c format hpair hc ih =>
    rw [fprintf.eq_4 _ _ hpair hc] at h
    obtain ⟨rest, hrest, hshown⟩ := bind_eq_ok_iff.mp h
    obtain rfl := Except.ok.inj hshown
    obtain ⟨hle, hlt⟩ := ih hrest
    refine ⟨Nat.succ_le_succ hle, fun hmem => Nat.succ_lt_succ (hlt ?_)⟩
    exact (List.mem_cons.mp hmem).resolve_left fun heq => hc heq.symm

/-- A format is shown as it is if there is no percent sign in it. -/
lemma fprintf_eq_self_iff (text : List UInt8) : fprintf text = .ok text ↔ 37 ∉ text := by
  constructor
  · exact fun h hmem => absurd ((length_fprintf h).2 hmem) (by omega)
  · intro h
    induction text with
    | nil => rfl
    | cons c text ih =>
      rw [List.mem_cons, not_or] at h
      rw [fprintf.eq_4 _ _ (fun _ hc _ => h.1 hc.symm) (Ne.symm h.1), ih h.2]
      rfl

/-- Both outputs are the line itself, if there is room for it. -/
lemma append_row_iff (size : ℕ) (name : List UInt8) (ns : List ℤ) :
    append size (row name ns) = .ok (row name ns, row name ns) ↔
      37 ∉ name ∧ name.length + widths ns + ns.length + 2 ≤ size := by
  have hpercent : 37 ∈ row name ns ↔ 37 ∈ name := by
    rw [row_eq, List.mem_append, List.mem_append, or_iff_left (notMem_numbers (.inr rfl)),
      or_iff_left (by decide)]
  have hroom : (row name ns).length + 1 ≤ size ↔
      name.length + widths ns + ns.length + 2 ≤ size := by rw [length_row]
  unfold append sprintf
  rw [← hroom, ← hpercent, ← fprintf_eq_self_iff]
  split
  · rw [and_iff_left ‹_›]
    cases hshown : fprintf (row name ns) with
    | ok shown =>
      rw [ok_bind, hshown, ok_bind, Except.ok.injEq, Except.ok.injEq, Prod.mk.injEq,
        and_iff_right rfl]
    | error e =>
      rw [ok_bind, hshown]
      exact iff_of_false (fun h => by cases h) (fun h => by cases h)
  · exact iff_of_false (fun h => by cases h) fun h => absurd h.2 ‹_›

/-- **When a line is recorded.** Its name has to be plain, and the line has to fit. -/
theorem recorded_iff (size : ℕ) (name : List UInt8) (ns : List ℤ) :
    Recorded (append size (row name ns)) name ns ↔
      Plain name ∧ name.length + widths ns + ns.length + 2 ≤ size := by
  have hplain : Plain name ↔ 37 ∉ name ∧ 44 ∉ name ∧ 10 ∉ name := by
    constructor
    · exact fun h => ⟨fun hb => (h 37 hb).2.1 rfl, fun hb => (h 44 hb).2.2 rfl,
        fun hb => (h 10 hb).1 rfl⟩
    · rintro ⟨hpercent, hcomma, hnewline⟩ b hb
      exact ⟨ne_of_mem_of_not_mem hb hnewline, ne_of_mem_of_not_mem hb hpercent,
        ne_of_mem_of_not_mem hb hcomma⟩
  have hread : (∀ old, Complete old →
      readFile (old ++ row name ns) = readFile old ++ [(name, ns)]) ↔ 44 ∉ name ∧ 10 ∉ name := by
    rw [← readFile_row_iff name ns]
    constructor
    · exact fun h => h [] (.inl rfl)
    · intro h old hold
      rw [readFile_append hold, h]
  have hline : ∀ line, append size (row name ns) = .ok (line, line) → line = row name ns := by
    intro line hline
    obtain ⟨output, houtput, hline⟩ := bind_eq_ok_iff.mp hline
    obtain ⟨shown, -, hpair⟩ := bind_eq_ok_iff.mp hline
    unfold sprintf at houtput
    split at houtput
    · rw [← (Prod.mk.inj (Except.ok.inj hpair)).1, ← Except.ok.inj houtput]
    · cases houtput
  rw [hplain, ← hread, and_right_comm, ← append_row_iff]
  constructor
  · rintro ⟨line, hline', h⟩
    obtain rfl := hline line hline'
    exact ⟨hline', h⟩
  · exact fun h => ⟨_, h.1, h.2⟩

end LowLevelTasks.CsvFiles
