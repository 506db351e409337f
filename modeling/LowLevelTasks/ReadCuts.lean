import LowLevelTasks.Display

/-!
How the reads of project 1b cut the stream. The loop looks for the newline behind a carriage
return in the buffer of one read only, so that a pair in two reads makes two newlines. Where
the newlines stand shows at the bytes between them.
-/

namespace LowLevelTasks.ReadCuts

open LowLevelTasks.Encryption LowLevelTasks.PollInputs LowLevelTasks.Display

/-- The bytes that the loop writes to `fd` for its reads from `n`, without a key. Every read
comes with the state of `exit_triggered` at that moment. -/
def outputs (role : Role) (n : Input) (reads : List (Bool × List UInt8)) (fd : Output) :
    List UInt8 :=
  reads.flatMap fun read => written fd (readActions (noKey : Key 7) role n read.1 read.2).1

/-- The bytes of a read, the first one with a mark. -/
def marked : List UInt8 → List (UInt8 × Bool)
  | [] => []
  | b :: buf => (b, true) :: buf.map fun b => (b, false)

/-- The stream, with marks where the reads begin. -/
def markedReads (reads : List (Bool × List UInt8)) : List (UInt8 × Bool) :=
  reads.flatMap fun read => marked read.2

/-- The byte is written to an output that newlines are written to as well. -/
def Shows (role : Role) (n : Input) (b : UInt8) : Prop :=
  b ≠ 13 ∧ b ≠ 10 ∧ (b = 127 → ¬ (role = .server ∧ n = .initial))

instance (role : Role) (n : Input) (b : UInt8) : Decidable (Shows role n b) :=
  inferInstanceAs (Decidable (_ ∧ _))

/-- The numbers of the pairs of a carriage return and a newline that the reads cut, in each
part of the stream that ends with a byte at which the newlines show, and at the end. `cr` tells
of a carriage return before the first byte, `k` counts the pairs before it. -/
def cutPairs (shows : UInt8 → Prop) [DecidablePred shows] :
    Bool → ℕ → List (UInt8 × Bool) → List ℕ
  | _, k, [] => [k]
  | cr, k, (b, first) :: rest =>
    if shows b then k :: cutPairs shows false 0 rest
    else cutPairs shows (b = 13) (if cr ∧ first ∧ b = 10 then k + 1 else k) rest

/-- The bytes that the loop handles: not a newline that a carriage return takes along. -/
def handled : Bool → List (UInt8 × Bool) → List UInt8
  | _, [] => []
  | cr, (b, first) :: rest =>
    if cr ∧ b = 10 ∧ ¬ first then handled false rest else b :: handled (b = 13) rest

/-! ### The loop on a marked stream -/

lemma handled_false_cons (b : UInt8) (first : Bool) (rest : List (UInt8 × Bool)) :
    handled false ((b, first) :: rest) = b :: handled (b = 13) rest := by
  simp [handled]

/-- A carriage return before the stream matters only to a newline of the same read. -/
lemma handled_cons_of_not {cr first : Bool} {b : UInt8} (h : ¬ (cr ∧ b = 10 ∧ ¬ first))
    (rest : List (UInt8 × Bool)) :
    handled cr ((b, first) :: rest) = b :: handled (b = 13) rest := by
  rw [handled, if_neg h]

lemma inputLoop_eq_handled {m : ℕ} {key : Key m} {role : Role} {n : Input} {et : Bool}
    {g : UInt8 → List Action} (buf : List UInt8)
    (h : ∀ b ∈ buf, handleInput key role n et b = (g b, et)) :
    inputLoop key role n et buf =
      ((handled false (buf.map fun b => (b, false))).flatMap g, et) := by
  match buf with
  | [] => rfl
  | [b] => simp [inputLoop, handled, h b]
  | b :: b' :: buf =>
    have hb := h b List.mem_cons_self
    have hrest : ∀ c ∈ b' :: buf, handleInput key role n et c = (g c, et) :=
      fun c hc => h c (List.mem_cons_of_mem b hc)
    rw [inputLoop, hb, List.map_cons, handled_false_cons, List.flatMap_cons]
    by_cases hpair : b = 13 ∧ b' = 10
    · have hloop := inputLoop_eq_handled buf fun c hc => hrest c (List.mem_cons_of_mem b' hc)
      simp only [hloop, hpair.1, hpair.2, List.map_cons, decide_true, handled]
      rfl
    · have hloop := inputLoop_eq_handled (b' :: buf) hrest
      have hskip : ¬ (decide (b = 13) = true ∧ b' = 10 ∧ ¬ (false = true)) := by
        simpa using hpair
      simp only [if_neg hpair, hloop, List.map_cons, handled_false_cons,
        handled_cons_of_not hskip]

/-- A read begins afresh. -/
lemma handled_marked (cr : Bool) (buf : List UInt8) :
    handled cr (marked buf) = handled false (buf.map fun b => (b, false)) := by
  cases buf with
  | nil => rfl
  | cons b buf =>
    rw [marked, List.map_cons, handled_false_cons, handled_cons_of_not (by simp)]

lemma handled_append {ys : List (UInt8 × Bool)} (hys : ∀ cr, handled cr ys = handled false ys)
    (cr : Bool) (xs : List (UInt8 × Bool)) :
    handled cr (xs ++ ys) = handled cr xs ++ handled false ys := by
  induction xs generalizing cr with
  | nil => exact hys cr
  | cons x xs ih =>
    obtain ⟨b, first⟩ := x
    rw [List.cons_append, handled, handled]
    split
    · exact ih false
    · rw [ih, List.cons_append]

lemma markedReads_cons (read : Bool × List UInt8) (reads : List (Bool × List UInt8)) :
    markedReads (read :: reads) = marked read.2 ++ markedReads reads :=
  List.flatMap_cons

lemma handled_markedReads (reads : List (Bool × List UInt8)) (cr : Bool) :
    handled cr (markedReads reads) = handled false (markedReads reads) := by
  induction reads generalizing cr with
  | nil => rfl
  | cons read reads ih =>
    rw [markedReads_cons, handled_append ih, handled_append ih, handled_marked, handled_marked]

/-- What the loop writes to `fd` for one byte. -/
def byteOutput (role : Role) (n : Input) (fd : Output) (b : UInt8) : List UInt8 :=
  written fd (handleInput (noKey : Key 7) role n false b).1

lemma handleInput_plain (role : Role) (n : Input) (et : Bool) {b : UInt8}
    (hb : b ≠ 3 ∧ b ≠ 4) : handleInput (noKey : Key 7) role n et b =
      ((handleInput (noKey : Key 7) role n false b).1, et) := by
  unfold handleInput
  rw [if_neg hb.1, if_neg hb.2, if_neg hb.1, if_neg hb.2]
  split_ifs <;> cases role <;> cases n <;> rfl

lemma outputs_eq (role : Role) (n : Input) (fd : Output) (reads : List (Bool × List UInt8))
    (hplain : ∀ read ∈ reads, ∀ b ∈ read.2, b ≠ 3 ∧ b ≠ 4) :
    outputs role n reads fd =
      (handled false (markedReads reads)).flatMap (byteOutput role n fd) := by
  induction reads with
  | nil => rfl
  | cons read reads ih =>
    obtain ⟨hread, hreads⟩ := List.forall_mem_cons.mp hplain
    have hbuf : readBuffer (noKey : Key 7) role n read.2 = read.2 := by
      cases role <;> cases n <;> rfl
    have hloop := inputLoop_eq_handled read.2 fun b hb =>
      handleInput_plain role n read.1 (hread b hb)
    have hrec := ih hreads
    rw [outputs] at hrec
    rw [outputs, List.flatMap_cons, hrec, markedReads_cons,
      handled_append (handled_markedReads reads), List.flatMap_append, handled_marked, readActions,
      hbuf, hloop, written, List.flatMap_assoc]
    rfl

/-! ### Newlines that are too many -/

/-- Newlines in a row. -/
def repeated (nl : List UInt8) (k : ℕ) : List UInt8 := (List.replicate k nl).flatten

lemma repeated_zero (nl : List UInt8) : repeated nl 0 = [] := rfl

lemma repeated_succ (nl : List UInt8) (k : ℕ) : repeated nl (k + 1) = nl ++ repeated nl k := by
  rw [repeated, List.replicate_succ, List.flatten_cons, ← repeated]

lemma repeated_comm (nl : List UInt8) (k : ℕ) : repeated nl k ++ nl = nl ++ repeated nl k := by
  induction k with
  | zero => simp [repeated_zero]
  | succ k ih => rw [repeated_succ, List.append_assoc, ih]

/-- The byte behind the newlines tells how many there are. -/
lemma repeated_append_cons_inj {x b : UInt8} {nl xs ys : List UInt8} (hne : b ≠ x) {k k' : ℕ} :
    repeated (x :: nl) k ++ b :: xs = repeated (x :: nl) k' ++ b :: ys ↔ k = k' ∧ xs = ys := by
  induction k generalizing k' with
  | zero =>
    cases k' with
    | zero => simp [repeated_zero]
    | succ k' => simp [repeated_zero, repeated_succ, hne]
  | succ k ih =>
    cases k' with
    | zero => simp [repeated_zero, repeated_succ, hne.symm]
    | succ k' =>
      rw [repeated_succ, repeated_succ, List.append_assoc, List.append_assoc,
        List.append_cancel_left_eq, ih, Nat.add_right_cancel_iff]

lemma repeated_inj {x : UInt8} {nl : List UInt8} {k k' : ℕ} :
    repeated (x :: nl) k = repeated (x :: nl) k' ↔ k = k' := by
  induction k generalizing k' with
  | zero =>
    cases k' with
    | zero => simp
    | succ k' => simp [repeated_zero, repeated_succ]
  | succ k ih =>
    cases k' with
    | zero => simp [repeated_zero, repeated_succ]
    | succ k' => rw [repeated_succ, repeated_succ, List.append_cancel_left_eq, ih,
        Nat.add_right_cancel_iff]

variable {shows : UInt8 → Prop} {out : UInt8 → List UInt8} {nl : List UInt8}

/-- What is written after `k` surplus newlines. -/
def pending (out : UInt8 → List UInt8) (nl : List UInt8) (cr : Bool) (k : ℕ)
    (stream : List (UInt8 × Bool)) : List UInt8 :=
  repeated nl k ++ (handled cr stream).flatMap out

/-- An output gets the newlines as `nl`; of the other bytes those that do not show are not
written to it, or there are no newlines on it. -/
structure Written (shows : UInt8 → Prop) (out : UInt8 → List UInt8) (nl : List UInt8)
    (b : UInt8) : Prop where
  newline : b = 13 ∨ b = 10 → out b = nl
  other : shows b → b ≠ 13 ∧ b ≠ 10
  silent : ¬ shows b → b ≠ 13 → b ≠ 10 → out b = [] ∨ nl = []

/-- Before a byte that does not show, one more newline may be there; the rest is common. -/
lemma pending_cons {cr first : Bool} {k : ℕ} {b : UInt8} {rest : List (UInt8 × Bool)}
    (hb : Written shows out nl b) (hshows : ¬ shows b) :
    pending out nl cr k ((b, first) :: rest) = (if cr ∧ b = 10 then [] else out b) ++
      pending out nl (b = 13) (if cr ∧ first ∧ b = 10 then k + 1 else k) rest := by
  have hcomm : repeated nl k ++ out b = out b ++ repeated nl k := by
    by_cases h : b = 13 ∨ b = 10
    · rw [hb.newline h, repeated_comm]
    · rw [not_or] at h
      rcases hb.silent hshows h.1 h.2 with h | h
      · rw [h, List.append_nil, List.nil_append]
      · have hnone : repeated nl k = [] := by simp [repeated, h]
        rw [hnone, List.append_nil, List.nil_append]
  unfold pending
  by_cases hpair : cr = true ∧ b = 10
  · obtain ⟨rfl, rfl⟩ := hpair
    have hout := hb.newline (.inr rfl)
    cases first with
    | false => simp [handled]
    | true => simp [handled, hout, repeated_succ, ← repeated_comm]
  · have hskip : ¬ (cr = true ∧ b = 10 ∧ ¬ (first = true)) := fun h => hpair ⟨h.1, h.2.1⟩
    have hcut : ¬ (cr = true ∧ first = true ∧ b = 10) := fun h => hpair ⟨h.1, h.2.2⟩
    rw [if_neg hpair, if_neg hcut, handled_cons_of_not hskip, List.flatMap_cons,
      ← List.append_assoc, hcomm, List.append_assoc]

/-- A byte that shows is written behind the newlines. -/
lemma pending_cons_of_shows {cr first : Bool} {k : ℕ} {b : UInt8} {rest : List (UInt8 × Bool)}
    (hb : Written shows out nl b) (hshows : shows b) :
    pending out nl cr k ((b, first) :: rest) =
      repeated nl k ++ (out b ++ pending out nl false 0 rest) := by
  obtain ⟨h13, h10⟩ := hb.other hshows
  have hskip : ¬ (cr = true ∧ b = 10 ∧ ¬ (first = true)) := fun h => h10 h.2.1
  rw [pending, handled_cons_of_not hskip, List.flatMap_cons, decide_eq_false h13, pending,
    repeated_zero, List.nil_append]

variable [DecidablePred shows]

lemma exists_cons_of_map_eq {b : UInt8} {first : Bool} {xs ys : List (UInt8 × Bool)}
    (h : ((b, first) :: xs).map Prod.fst = ys.map Prod.fst) :
    ∃ first' ys', ys = (b, first') :: ys' ∧ xs.map Prod.fst = ys'.map Prod.fst := by
  cases ys with
  | nil => cases h
  | cons y ys =>
    obtain ⟨b', first'⟩ := y
    obtain ⟨hb, hrest⟩ := List.cons.inj h
    obtain rfl : b = b' := hb
    exact ⟨first', ys, rfl, hrest⟩

/-- Where the newlines do not show otherwise, both ways to cut write the same. -/
lemma pending_eq_of_cutPairs_eq {cr : Bool} {k k' : ℕ} {xs ys : List (UInt8 × Bool)}
    (hsame : xs.map Prod.fst = ys.map Prod.fst) (hw : ∀ x ∈ xs, Written shows out nl x.1)
    (h : cutPairs shows cr k xs = cutPairs shows cr k' ys) :
    pending out nl cr k xs = pending out nl cr k' ys := by
  induction xs generalizing ys cr k k' with
  | nil =>
    obtain rfl : ys = [] := by simpa using hsame.symm
    obtain rfl : k = k' := by simpa [cutPairs] using h
    rfl
  | cons x xs ih =>
    obtain ⟨b, first⟩ := x
    obtain ⟨first', ys, rfl, hrest⟩ := exists_cons_of_map_eq hsame
    obtain ⟨hb, hw⟩ := List.forall_mem_cons.mp hw
    rw [cutPairs, cutPairs] at h
    split at h
    · next hshows =>
      obtain ⟨rfl, hcuts⟩ := List.cons.inj h
      rw [pending_cons_of_shows hb hshows, pending_cons_of_shows hb hshows, ih hrest hw hcuts]
    · next hshows =>
      rw [pending_cons hb hshows, pending_cons hb hshows, ih hrest hw h]

/-- Where they do show, the cut pairs can be told from what is written. -/
lemma cutPairs_eq_of_pending_eq {cr : Bool} {k k' : ℕ} {c : UInt8} {xs ys : List (UInt8 × Bool)}
    (hsame : xs.map Prod.fst = ys.map Prod.fst) (hw : ∀ x ∈ xs, Written shows out (c :: nl) x.1)
    (hc : c = 13 ∨ c = 10) (hout : ∀ x ∈ xs, shows x.1 → out x.1 = [x.1])
    (h : pending out (c :: nl) cr k xs = pending out (c :: nl) cr k' ys) :
    cutPairs shows cr k xs = cutPairs shows cr k' ys := by
  induction xs generalizing ys cr k k' with
  | nil =>
    obtain rfl : ys = [] := by simpa using hsame.symm
    rw [pending, pending, handled, List.flatMap_nil, List.append_nil, List.append_nil,
      repeated_inj] at h
    rw [h]
  | cons x xs ih =>
    obtain ⟨b, first⟩ := x
    obtain ⟨first', ys, rfl, hrest⟩ := exists_cons_of_map_eq hsame
    obtain ⟨hb, hw⟩ := List.forall_mem_cons.mp hw
    obtain ⟨hself, hout⟩ := List.forall_mem_cons.mp hout
    rw [cutPairs, cutPairs]
    split
    · next hshows =>
      have hne : b ≠ c := by
        obtain ⟨h13, h10⟩ := hb.other hshows
        rcases hc with rfl | rfl
        · exact h13
        · exact h10
      rw [pending_cons_of_shows hb hshows, pending_cons_of_shows hb hshows, hself hshows,
        List.singleton_append, List.singleton_append, repeated_append_cons_inj hne] at h
      rw [h.1, ih hrest hw hout h.2]
    · next hshows =>
      rw [pending_cons hb hshows, pending_cons hb hshows, List.append_cancel_left_eq] at h
      exact ih hrest hw hout h

/-! ### The result -/

/-- The output on which the newlines show. -/
def newlineOutput : Role → Input → Output
  | .server, .initial => .out2
  | _, _ => .out1

lemma written_byteOutput (role : Role) (n : Input) (fd : Output) {b : UInt8}
    (hb : b ≠ 3 ∧ b ≠ 4) :
    Written (Shows role n) (byteOutput role n fd) (byteOutput role n fd 10) b where
  newline h := by rcases h with rfl | rfl <;> cases role <;> cases n <;> cases fd <;> rfl
  other h := ⟨h.1, h.2.1⟩
  silent hshows h13 h10 := by
    -- only the server keeps one byte from the output of the newlines
    obtain ⟨rfl, rfl, rfl⟩ : b = 127 ∧ role = .server ∧ n = .initial := by
      simpa [Shows, h13, h10] using hshows
    cases fd with
    | out1 => exact .inr rfl
    | out2 => exact .inl rfl

lemma byteOutput_newlineOutput {role : Role} {n : Input} {b : UInt8} (hb : b ≠ 3 ∧ b ≠ 4)
    (hshows : Shows role n b) : byteOutput role n (newlineOutput role n) b = [b] := by
  obtain ⟨h13, h10, h127⟩ := hshows
  have hcpy : strncpy [b] 1 = [b] := by by_cases h0 : b = 0 <;> simp [strncpy, h0]
  unfold byteOutput handleInput
  rw [if_neg (not_or.mpr ⟨h13, h10⟩), if_neg hb.1, if_neg hb.2]
  by_cases h : b = 127
  · subst h
    cases role <;> cases n <;> first | rfl | exact absurd ⟨rfl, rfl⟩ (h127 rfl)
  · cases role <;> cases n <;>
      simp [h, newlineOutput, written, Action.written, toSocket, hcpy]

lemma map_fst_marked (buf : List UInt8) : (marked buf).map Prod.fst = buf := by
  cases buf with
  | nil => rfl
  | cons b buf =>
    rw [marked, List.map_cons, List.map_map]
    exact congrArg (b :: ·) (List.map_id buf)

/-- Without the marks the stream is there. -/
lemma map_fst_markedReads {reads : List (Bool × List UInt8)} {bytes : List UInt8}
    (h : Cut reads bytes) : (markedReads reads).map Prod.fst = bytes := by
  subst h
  induction reads with
  | nil => rfl
  | cons read reads ih =>
    rw [markedReads_cons, List.map_append, ih, map_fst_marked, List.map_cons, List.flatten_cons]

lemma outputs_eq_pending (role : Role) (n : Input) (fd : Output) {bytes : List UInt8}
    {reads : List (Bool × List UInt8)} (hplain : ∀ b ∈ bytes, b ≠ 3 ∧ b ≠ 4)
    (h : Cut reads bytes) : outputs role n reads fd =
      pending (byteOutput role n fd) (byteOutput role n fd 10) false 0 (markedReads reads) := by
  rw [pending, repeated_zero, List.nil_append, outputs_eq]
  intro read hread b hb
  refine hplain b ?_
  rw [← h]
  exact List.mem_flatten.mpr ⟨read.2, List.mem_map_of_mem hread, hb⟩

/-- **Two ways to cut a stream** without the bytes 3 and 4 make the loop write the same to both
outputs if and only if they cut as many pairs in each part of the stream between the bytes at
which the newlines show. -/
theorem outputs_eq_iff (role : Role) (n : Input) (bytes : List UInt8)
    (hplain : ∀ b ∈ bytes, b ≠ 3 ∧ b ≠ 4) (reads reads' : List (Bool × List UInt8))
    (h : Cut reads bytes) (h' : Cut reads' bytes) :
    outputs role n reads = outputs role n reads' ↔
      cutPairs (Shows role n) false 0 (markedReads reads) =
        cutPairs (Shows role n) false 0 (markedReads reads') := by
  have hmap := map_fst_markedReads h
  have hsame := hmap.trans (map_fst_markedReads h').symm
  have hbytes : ∀ x ∈ markedReads reads, x.1 ≠ 3 ∧ x.1 ≠ 4 := fun x hx => by
    refine hplain x.1 ?_
    rw [← hmap]
    exact List.mem_map_of_mem hx
  constructor
  · intro hout
    have hpending := congrFun hout (newlineOutput role n)
    rw [outputs_eq_pending role n _ hplain h, outputs_eq_pending role n _ hplain h'] at hpending
    obtain ⟨c, nl, hnl, hc⟩ : ∃ c nl, byteOutput role n (newlineOutput role n) 10 = c :: nl ∧
        (c = 13 ∨ c = 10) := by
      cases role <;> cases n <;> exact ⟨_, _, rfl, by decide⟩
    rw [hnl] at hpending
    have hw : ∀ x ∈ markedReads reads,
        Written (Shows role n) (byteOutput role n (newlineOutput role n)) (c :: nl) x.1 :=
      fun x hx => hnl ▸ written_byteOutput role n _ (hbytes x hx)
    exact cutPairs_eq_of_pending_eq hsame hw hc
      (fun x hx => byteOutput_newlineOutput (hbytes x hx)) hpending
  · intro hcuts
    funext fd
    rw [outputs_eq_pending role n _ hplain h, outputs_eq_pending role n _ hplain h']
    exact pending_eq_of_cutPairs_eq hsame (fun x hx => written_byteOutput _ _ _ (hbytes x hx)) hcuts

/-- The same line in one read, and in three that do not cut the pair. -/
theorem outputs_eq_iff_line :
    outputs .server .initial [(false, [104, 105, 13, 10])] =
      outputs .server .initial [(false, [104]), (true, [105]), (false, [13, 10])] := by
  have hplain : ∀ b ∈ ([104, 105, 13, 10] : List UInt8), b ≠ 3 ∧ b ≠ 4 := by simp
  exact (outputs_eq_iff .server .initial [104, 105, 13, 10] hplain [(false, [104, 105, 13, 10])]
    [(false, [104]), (true, [105]), (false, [13, 10])] rfl rfl).mpr (by decide +kernel)

/-- A pair in two reads gives the shell two newlines. -/
theorem cutPair_doubled :
    Cut [(false, [13, 10])] [13, 10] ∧ Cut [(false, [13]), (false, [10])] [13, 10] ∧
      outputs .server .initial [(false, [13, 10])] .out2 = [10] ∧
      outputs .server .initial [(false, [13]), (false, [10])] .out2 = [10, 10] := by
  refine ⟨rfl, rfl, ?_, ?_⟩ <;> decide +kernel

end LowLevelTasks.ReadCuts
