import LowLevelTasks.PollInputs
import Mathlib.Algebra.Order.BigOperators.Group.List
import Mathlib.Algebra.Order.Group.Nat
import Mathlib.Data.List.Basic

/-!
The way of the output of the shell to the screen.

The server turns what it reads from the shell into writes to the socket, the client what it
reads from the socket into writes to the terminal. The server sends a newline with the count
2, so the zero that ends the literal goes with it.
-/

namespace LowLevelTasks.Display

open LowLevelTasks.Encryption LowLevelTasks.PollInputs

/-- The bytes a process writes to `out1` for its reads from `REDIRECT_INPUT`, without a key.
Every read comes with the state of `exit_triggered` at that moment. -/
def forwarded (role : Role) (reads : List (Bool × List UInt8)) : List UInt8 :=
  reads.flatMap fun read =>
    written .out1 (readActions (noKey : Key 7) role .redirect read.1 read.2).1

/-- The reads cut the stream `bytes`. -/
def Cut (reads : List (Bool × List UInt8)) (bytes : List UInt8) : Prop :=
  (reads.map Prod.snd).flatten = bytes

/-- The translation that is wanted. -/
def crlf (b : UInt8) : List UInt8 := if b = 10 then [13, 10] else [b]

def serverByte (b : UInt8) : List UInt8 := if b = 10 then [10, 0] else [b]

/-- The bytes the shell may write here. -/
def Plain (b : UInt8) : Prop := b ≠ 3 ∧ b ≠ 4 ∧ b ≠ 13

lemma written_redirectCall_server {b : UInt8} (hb : Plain b) :
    (redirectCall (noKey : Key 7) .server b).written .out1 = serverByte b := by
  obtain ⟨-, -, h13⟩ := hb
  by_cases h10 : b = 10
  · subst h10; rfl
  · have hcpy : strncpy [b] 1 = [b] := by by_cases h0 : b = 0 <;> simp [strncpy, h0]
    by_cases h127 : b = 127 <;> simp [redirectCall, toSocket, Action.written,
      serverByte, h13, h10, h127, hcpy]

lemma written_redirectCall_client {b : UInt8} (hb : Plain b) :
    (redirectCall (noKey : Key 7) .client b).written .out1 = crlf b := by
  obtain ⟨h3, h4, h13⟩ := hb
  by_cases h10 : b = 10 <;> simp [redirectCall, Action.written, crlf, h3, h4, h13, h10]

/-- Without carriage returns the bytes are translated one by one, and the result does not see
how the reads cut the stream. -/
lemma forwarded_eq {role : Role} {reads : List (Bool × List UInt8)} {bytes : List UInt8}
    (hcut : Cut reads bytes) (hcr : 13 ∉ bytes) : forwarded role reads =
      bytes.flatMap fun b => (redirectCall (noKey : Key 7) role b).written .out1 := by
  subst hcut
  induction reads with
  | nil => rfl
  | cons read reads ih =>
    obtain ⟨et, buf⟩ := read
    simp only [List.map_cons, List.flatten_cons, List.mem_append, not_or] at hcr
    have hloop := inputLoop_eq_flatMap (n := .redirect) (g := fun b => [redirectCall noKey role b])
      hcr.1 fun b _ => handleInput_redirect (noKey : Key 7) role et b
    have hread : readBuffer (noKey : Key 7) role .redirect buf = buf := by cases role <;> rfl
    have hrec := ih hcr.2
    rw [forwarded] at hrec ⊢
    rw [List.flatMap_cons, hrec, List.map_cons, List.flatten_cons, List.flatMap_append]
    simp only [readActions, hread, hloop, written]
    rw [List.flatMap_assoc]
    simp

/-- The bytes on the socket. -/
lemma forwarded_server {reads : List (Bool × List UInt8)} {bytes : List UInt8}
    (hcut : Cut reads bytes) (hplain : ∀ b ∈ bytes, Plain b) :
    forwarded .server reads = bytes.flatMap serverByte := by
  rw [forwarded_eq hcut fun h => (hplain 13 h).2.2 rfl]
  exact List.flatMap_congr fun b hb => written_redirectCall_server (hplain b hb)

lemma forwarded_client {reads : List (Bool × List UInt8)} {bytes : List UInt8}
    (hcut : Cut reads bytes) (hplain : ∀ b ∈ bytes, Plain b) :
    forwarded .client reads = bytes.flatMap crlf := by
  rw [forwarded_eq hcut fun h => (hplain 13 h).2.2 rfl]
  exact List.flatMap_congr fun b hb => written_redirectCall_client (hplain b hb)

lemma plain_serverByte {b c : UInt8} (hb : Plain b) (hc : c ∈ serverByte b) : Plain c := by
  rw [serverByte] at hc
  split at hc
  · have : c = 10 ∨ c = 0 := by simpa using hc
    rcases this with rfl | rfl <;> exact ⟨by decide, by decide, by decide⟩
  · rw [List.mem_singleton] at hc
    exact hc ▸ hb

/-- What arrives on the screen for a byte of the shell. -/
lemma crlf_serverByte (b : UInt8) :
    (serverByte b).flatMap crlf = if b = 10 then [13, 10, 0] else [b] := by
  by_cases h : b = 10 <;> simp [serverByte, crlf, h]

/-- Only newlines are translated to too much, and nothing makes up for it. -/
lemma flatMap_crlf_eq_iff (bytes : List UInt8) :
    bytes.flatMap (fun b => (serverByte b).flatMap crlf) = bytes.flatMap crlf ↔
      10 ∉ bytes := by
  constructor
  · intro h h10
    have hlen := congrArg List.length h
    rw [List.length_flatMap, List.length_flatMap] at hlen
    refine hlen.not_gt (List.sum_lt_sum _ _ (fun b _ => ?_) ⟨10, h10, by decide⟩)
    rw [crlf_serverByte, crlf]
    split <;> simp
  · intro h
    refine List.flatMap_congr fun b hb => ?_
    have hb10 : b ≠ 10 := fun e => h (e ▸ hb)
    rw [crlf_serverByte, crlf, if_neg hb10, if_neg hb10]

/-- **When the output is displayed exactly.** However the reads of the server cut the bytes of
the shell and those of the client the bytes on the socket, the screen shows the bytes of the
shell with a carriage return before every newline if and only if there is no newline. -/
theorem displayed_eq_crlf_iff (bytes : List UInt8) (hplain : ∀ b ∈ bytes, Plain b)
    (serverReads clientReads : List (Bool × List UInt8)) (hserver : Cut serverReads bytes)
    (hclient : Cut clientReads (forwarded .server serverReads)) :
    forwarded .client clientReads = bytes.flatMap crlf ↔ 10 ∉ bytes := by
  have hsocket := forwarded_server hserver hplain
  have hplain' : ∀ c ∈ forwarded .server serverReads, Plain c := fun c hc => by
    rw [hsocket, List.mem_flatMap] at hc
    obtain ⟨b, hb, hc⟩ := hc
    exact plain_serverByte (hplain b hb) hc
  rw [forwarded_client hclient hplain', hsocket, List.flatMap_assoc]
  exact flatMap_crlf_eq_iff bytes

theorem displayed_eq_crlf_iff_sample :
    forwarded .client [(false, [104]), (true, [105])] = [104, 105] := by
  have hplain : ∀ b ∈ ([104, 105] : List UInt8), Plain b := by simp [Plain]
  exact (displayed_eq_crlf_iff [104, 105] hplain [(false, [104, 105])]
    [(false, [104]), (true, [105])] rfl rfl).mpr (by simp)

/-- A newline of the shell reaches the screen with a zero behind it. -/
theorem newline_displayed_with_zero :
    forwarded .client [(false, forwarded .server [(false, [10])])] = [13, 10, 0] ∧
      forwarded .client [(false, forwarded .server [(false, [10])])] ≠ [10].flatMap crlf := by
  decide

end LowLevelTasks.Display
