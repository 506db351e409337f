import Mathlib.Data.List.Basic
import Mathlib.Data.List.Forall2
import Mathlib.Data.Nat.Count

/-!
Loops whose rounds may fail. A nested loop may be left from inside (`loop`), a loop may keep
what its rounds find (`collect`), and a loop without a bound runs on fuel (`whileLoop`). The
scan of a sequence of positions that stops once it has found enough is described by what
stands at the positions, without running it.
-/

namespace LowLevelTasks.Loops

variable {ε σ α β γ : Type}

lemma ok_bind (a : α) (g : α → Except ε β) : ((Except.ok a : Except ε α) >>= g) = g a := rfl

lemma bind_eq_ok_iff {x : Except ε α} {g : α → Except ε β} {b : β} :
    (x >>= g) = .ok b ↔ ∃ a, x = .ok a ∧ g a = .ok b := by
  cases x with
  | error e => simp [bind, Except.bind]
  | ok a => simp [bind, Except.bind]

lemma bind_ne_error {x : Except ε α} {g : α → Except ε β} {e : ε} (hx : x ≠ .error e)
    (hg : ∀ a, g a ≠ .error e) : (x >>= g) ≠ .error e := by
  cases x with
  | error e' => simpa [bind, Except.bind] using hx
  | ok a => exact hg a

/-! ### Loops that can be left from inside -/

/-- A round goes on with `yield`, and leaves all loops around it with `done`. -/
def loop (f : σ → α → Except ε (ForInStep σ)) : σ → List α → Except ε (ForInStep σ)
  | s, [] => .ok (.yield s)
  | s, a :: as => do
    match ← f s a with
    | .yield s => loop f s as
    | .done s => .ok (.done s)

section loop

variable {f g : σ → α → Except ε (ForInStep σ)} {s s' : σ} {a : α} {as bs : List α} {e : ε}

lemma loop_cons_yield (h : f s a = .ok (.yield s')) : loop f s (a :: as) = loop f s' as := by
  rw [loop, h]
  rfl

lemma loop_cons_done (h : f s a = .ok (.done s')) : loop f s (a :: as) = .ok (.done s') := by
  rw [loop, h]
  rfl

lemma loop_cons_error (h : f s a = .error e) : loop f s (a :: as) = .error e := by
  rw [loop, h]
  rfl

lemma loop_append_yield (h : loop f s as = .ok (.yield s')) :
    loop f s (as ++ bs) = loop f s' bs := by
  induction as generalizing s with
  | nil =>
    cases h
    rfl
  | cons a as ih =>
    rw [List.cons_append]
    cases hf : f s a with
    | error e => simp [loop_cons_error hf] at h
    | ok r =>
      cases r with
      | done u => simp [loop_cons_done hf] at h
      | yield u =>
        rw [loop_cons_yield hf] at h ⊢
        exact ih h

lemma loop_append_done (h : loop f s as = .ok (.done s')) :
    loop f s (as ++ bs) = .ok (.done s') := by
  induction as generalizing s with
  | nil => cases h
  | cons a as ih =>
    rw [List.cons_append]
    cases hf : f s a with
    | error e => simp [loop_cons_error hf] at h
    | ok r =>
      cases r with
      | done u => rwa [loop_cons_done hf] at h ⊢
      | yield u =>
        rw [loop_cons_yield hf] at h ⊢
        exact ih h

lemma loop_append_error (h : loop f s as = .error e) : loop f s (as ++ bs) = .error e := by
  induction as generalizing s with
  | nil => cases h
  | cons a as ih =>
    rw [List.cons_append]
    cases hf : f s a with
    | error e' => rwa [loop_cons_error hf] at h ⊢
    | ok r =>
      cases r with
      | done u => simp [loop_cons_done hf] at h
      | yield u =>
        rw [loop_cons_yield hf] at h ⊢
        exact ih h

lemma loop_congr (h : ∀ a ∈ as, ∀ s, f s a = g s a) (s : σ) : loop f s as = loop g s as := by
  induction as generalizing s with
  | nil => rfl
  | cons a as ih =>
    rw [List.forall_mem_cons] at h
    unfold loop
    rw [h.1]
    simp only [ih h.2]

lemma loop_map (f : σ → β → Except ε (ForInStep σ)) (h : α → β) (s : σ) (as : List α) :
    loop f s (as.map h) = loop (fun s a => f s (h a)) s as := by
  induction as generalizing s with
  | nil => rfl
  | cons a as ih =>
    rw [List.map_cons, loop, loop]
    simp only [ih]

lemma loop_range_error {f : σ → ℕ → Except ε (ForInStep σ)} {n : ℕ} (hn : 0 < n)
    (h : f s 0 = .error e) : loop f s (List.range n) = .error e := by
  obtain ⟨n, rfl⟩ := Nat.exists_eq_succ_of_ne_zero hn.ne'
  rw [List.range_succ_eq_map, loop_cons_error h]

/-- A loop whose rounds only check something. -/
lemma loop_eq_ok_iff_of_keeps {r : ForInStep σ}
    (h : ∀ a ∈ as, ∀ r, f s a = .ok r → r = .yield s) :
    loop f s as = .ok r ↔ (∀ a ∈ as, f s a = .ok (.yield s)) ∧ r = .yield s := by
  induction as with
  | nil => simp [loop, eq_comm]
  | cons a as ih =>
    rw [List.forall_mem_cons] at h ⊢
    cases ha : f s a with
    | error e => simp [loop_cons_error ha]
    | ok u =>
      obtain rfl := h.1 u ha
      rw [loop_cons_yield ha, ih h.2]
      simp

/-- What happens before a loop may as well happen in each of its rounds, if there is one. -/
lemma bind_loop {x : Except ε γ} (f : γ → σ → α → Except ε (ForInStep σ)) (s : σ)
    (h : as ≠ []) :
    (x >>= fun c => loop (f c) s as) = loop (fun s a => x >>= fun c => f c s a) s as := by
  cases x with
  | ok c => rfl
  | error e =>
    obtain ⟨a, as, rfl⟩ := List.exists_cons_of_ne_nil h
    exact (loop_cons_error rfl).symm

/-- Two nested loops over ranges are one loop. -/
theorem loop_loop (f : σ → ℕ → Except ε (ForInStep σ)) (m n : ℕ) (s : σ) :
    loop (fun s i => loop (fun s j => f s (i * m + j)) s (List.range m)) s (List.range n) =
      loop f s (List.range (n * m)) := by
  induction n generalizing s with
  | zero => simp [loop]
  | succ n ih =>
    have hinner : ∀ u, loop (fun s j => f s (n * m + j)) u (List.range m) =
        loop f u ((List.range m).map (n * m + ·)) := fun u => (loop_map f _ u _).symm
    rw [List.range_succ, Nat.add_one_mul, List.range_add]
    cases h : loop f s (List.range (n * m)) with
    | error e => rw [loop_append_error h, loop_append_error ((ih s).trans h)]
    | ok r =>
      cases r with
      | done u => rw [loop_append_done h, loop_append_done ((ih s).trans h)]
      | yield u =>
        rw [loop_append_yield h, loop_append_yield ((ih s).trans h), loop, hinner]
        cases loop f u ((List.range m).map (n * m + ·)) with
        | error e => rfl
        | ok r => cases r <;> rfl

end loop

/-! ### Scans that stop once they have found enough -/

/-- What stands at the positions of a scan: whether it can be read there, whether it is
kept, under which name, and the number of finds at which the scan stops behind it. -/
structure Scan (ε β : Type) where
  check : ℕ → Except ε Unit
  keep : ℕ → Bool
  out : ℕ → β
  limit : ℕ → ℕ

namespace Scan

variable (S : Scan ε β)

/-- The finds so far are kept with their number. -/
def round (found : List β × ℕ) (t : ℕ) : Except ε (ForInStep (List β × ℕ)) := do
  S.check t
  let found := if S.keep t then (found.1 ++ [S.out t], found.2 + 1) else found
  if S.limit t ≤ found.2 then .ok (.done found) else .ok (.yield found)

variable {S} in
lemma round_keep {t : ℕ} {l : List β × ℕ} (h : S.check t = .ok ()) (hk : S.keep t) :
    S.round l t = if S.limit t ≤ l.2 + 1 then .ok (.done (l.1 ++ [S.out t], l.2 + 1))
      else .ok (.yield (l.1 ++ [S.out t], l.2 + 1)) := by
  unfold round
  rw [h, if_pos hk]
  rfl

variable {S} in
lemma round_skip {t : ℕ} {l : List β × ℕ} (h : S.check t = .ok ()) (hk : ¬ S.keep t) :
    S.round l t = if S.limit t ≤ l.2 then .ok (.done l) else .ok (.yield l) := by
  unfold round
  rw [h, if_neg hk]
  rfl

variable {S} in
lemma round_error {t : ℕ} {l : List β × ℕ} {e : ε} (h : S.check t = .error e) :
    S.round l t = .error e := by
  unfold round
  rw [h]
  rfl

/-- No position before `t` completes the finds that are enough there. -/
def Reached (t : ℕ) : Prop := ∀ u < t, Nat.count (S.keep ·) (u + 1) < S.limit u

instance (t : ℕ) : Decidable (S.Reached t) := Nat.decidableBallLT _ _

/-- What the scan finds at the first `n` positions. -/
def found (n : ℕ) : List β :=
  ((List.range n).filter fun t => S.Reached t ∧ S.keep t).map S.out

def result (n : ℕ) : List β × ℕ := (S.found n, (S.found n).length)

variable {S} {t u n : ℕ}

lemma Reached.mono (h : S.Reached t) (hut : u ≤ t) : S.Reached u :=
  fun v hv => h v (by omega)

lemma reached_zero : S.Reached 0 := fun _ h => absurd h (by omega)

lemma reached_succ :
    S.Reached (t + 1) ↔ S.Reached t ∧ Nat.count (S.keep ·) (t + 1) < S.limit t :=
  ⟨fun h => ⟨h.mono (by omega), h t (by omega)⟩, fun ⟨h, ht⟩ u hu => by
    rcases Nat.lt_succ_iff_lt_or_eq.mp hu with hu | rfl
    · exact h u hu
    · exact ht⟩

lemma found_succ :
    S.found (t + 1) = S.found t ++ if S.Reached t ∧ S.keep t then [S.out t] else [] := by
  unfold found
  rw [List.range_succ, List.filter_append, List.map_append]
  by_cases h : S.Reached t ∧ S.keep t <;> simp [h]

lemma length_found (h : S.Reached n) : (S.found n).length = Nat.count (S.keep ·) n := by
  induction n with
  | zero => rfl
  | succ n ih =>
    have hn : S.Reached n := h.mono (by omega)
    rw [found_succ, List.length_append, ih hn, Nat.count_succ]
    by_cases hk : S.keep n <;> simp [hn, hk]

lemma round_of_check (hcheck : S.check t = .ok ()) (h : S.Reached t) :
    S.round (S.result t) t = .ok (if S.Reached (t + 1) then .yield (S.result (t + 1))
      else .done (S.result (t + 1))) := by
  have hresult : (if S.keep t then ((S.result t).1 ++ [S.out t], (S.result t).2 + 1)
      else S.result t) = S.result (t + 1) := by
    unfold result
    rw [found_succ]
    by_cases hk : S.keep t <;> simp [h, hk]
  have hlength : (S.result (t + 1)).2 = Nat.count (S.keep ·) (t + 1) := by
    rw [← hresult, Nat.count_succ]
    by_cases hk : S.keep t <;> simp [hk, result, length_found h]
  unfold round
  rw [hcheck]
  simp only [bind, Except.bind, hresult, hlength, reached_succ, h, true_and]
  by_cases hl : S.limit t ≤ Nat.count (S.keep ·) (t + 1)
  · simp [hl, not_lt.mpr hl]
  · simp [hl, not_le.mp hl]

/-- A scan that can read all it reaches. -/
theorem loop_round (h : ∀ t < n, S.Reached t → S.check t = .ok ()) :
    loop S.round ([], 0) (List.range n) =
      .ok (if S.Reached n then .yield (S.result n) else .done (S.result n)) := by
  induction n with
  | zero => simp [loop, reached_zero, result, found]
  | succ n ih =>
    replace ih := ih fun t ht => h t (by omega)
    rw [List.range_succ]
    by_cases hn : S.Reached n
    · rw [if_pos hn] at ih
      have hround := round_of_check (h n (by omega) hn) hn
      rw [loop_append_yield ih]
      by_cases hn' : S.Reached (n + 1)
      · rw [if_pos hn'] at hround ⊢
        exact loop_cons_yield hround
      · rw [if_neg hn'] at hround ⊢
        exact loop_cons_done hround
    · rw [if_neg hn] at ih
      have hn' : ¬ S.Reached (n + 1) := fun h => hn (h.mono (by omega))
      have hfound : S.found (n + 1) = S.found n := by simp [found_succ, hn]
      rw [loop_append_done ih, if_neg hn']
      unfold result
      rw [hfound]

/-- The first position that the scan reaches and cannot read ends it. -/
lemma loop_round_error {e : ε} (ht : t < n) (hr : S.Reached t) (hcheck : S.check t = .error e)
    (hbefore : ∀ u < t, S.check u = .ok ()) : loop S.round ([], 0) (List.range n) = .error e := by
  obtain ⟨k, rfl⟩ : ∃ k, n = t + (k + 1) := ⟨n - t - 1, by omega⟩
  have hyield := loop_round fun u hu _ => hbefore u hu
  rw [if_pos hr] at hyield
  rw [List.range_add, List.range_succ_eq_map, List.map_cons, loop_append_yield hyield]
  exact loop_cons_error (round_error hcheck)

/-- A scan comes to an end exactly if it can read all it reaches. -/
theorem loop_round_eq_ok_iff {r : ForInStep (List β × ℕ)} :
    loop S.round ([], 0) (List.range n) = .ok r ↔
      (∀ t < n, S.Reached t → S.check t = .ok ()) ∧
        r = if S.Reached n then .yield (S.result n) else .done (S.result n) := by
  classical
  by_cases h : ∀ t < n, S.Reached t → S.check t = .ok ()
  · rw [loop_round h, Except.ok.injEq, eq_comm]
    exact ⟨fun hr => ⟨h, hr⟩, fun hr => hr.2⟩
  · refine ⟨fun hr => ?_, fun hr => absurd hr.1 h⟩
    have hbad : ∃ t, t < n ∧ S.Reached t ∧ S.check t ≠ .ok () := by
      push Not at h
      exact h
    obtain ⟨ht, hreached, hcheck⟩ := Nat.find_spec hbad
    have hbefore : ∀ u < Nat.find hbad, S.check u = .ok () := fun u hu => by
      by_contra hu'
      exact Nat.find_min hbad hu ⟨by omega, hreached.mono (by omega), hu'⟩
    cases hc : S.check (Nat.find hbad) with
    | ok => exact absurd hc hcheck
    | error e =>
      rw [loop_round_error ht hreached hc hbefore] at hr
      cases hr

/-- What a scan returns, wherever it ends. -/
theorem value_eq_ok_iff {l : List β × ℕ} :
    (loop S.round ([], 0) (List.range n) >>= fun r => .ok r.value) = .ok l ↔
      (∀ t < n, S.Reached t → S.check t = .ok ()) ∧ l = S.result n := by
  have hvalue : (if S.Reached n then ForInStep.yield (S.result n)
      else .done (S.result n)).value = S.result n := by split <;> rfl
  constructor
  · intro h
    cases hloop : loop S.round ([], 0) (List.range n) with
    | error e =>
      rw [hloop] at h
      cases h
    | ok r =>
      obtain ⟨hall, rfl⟩ := loop_round_eq_ok_iff.mp hloop
      rw [hloop] at h
      exact ⟨hall, (Except.ok.inj h).symm.trans hvalue⟩
  · rintro ⟨hall, rfl⟩
    rw [loop_round hall]
    exact congrArg _ hvalue

end Scan

/-! ### Loops that keep what their rounds find -/

/-- The finds of all rounds, in their order. -/
def collect (g : α → Except ε (List β)) : List α → Except ε (List β)
  | [] => .ok []
  | a :: as => do
    let found ← g a
    let rest ← collect g as
    .ok (found ++ rest)

section collect

variable {g : α → Except ε (List β)} {as : List α} {out : List β}

/-- What a round finds; nothing if it fails. -/
def finds (x : Except ε (List β)) : List β :=
  match x with
  | .ok found => found
  | .error _ => []

@[simp] lemma finds_ok (found : List β) : finds (.ok found : Except ε _) = found := rfl

/-- The loop comes to its end exactly if all its rounds do. -/
theorem collect_eq_ok_iff : collect g as = .ok out ↔
    (∀ a ∈ as, ∃ found, g a = .ok found) ∧ out = as.flatMap fun a => finds (g a) := by
  induction as generalizing out with
  | nil => simp [collect, eq_comm]
  | cons a as ih =>
    rw [collect, List.forall_mem_cons, List.flatMap_cons]
    cases ha : g a with
    | error e => simp [bind, Except.bind]
    | ok found =>
      cases hrest : collect g as with
      | error e =>
        have hnot : ¬ ∀ a ∈ as, ∃ found, g a = .ok found := fun h => by
          rw [ih.mpr ⟨h, rfl⟩] at hrest
          cases hrest
        simp [bind, Except.bind, hnot]
      | ok rest =>
        obtain ⟨hall, rfl⟩ := ih.mp hrest
        simpa [bind, Except.bind, eq_comm] using fun _ => hall

lemma collect_ok {o : α → List β} (h : ∀ a ∈ as, g a = .ok (o a)) :
    collect g as = .ok (as.flatMap o) := by
  refine collect_eq_ok_iff.mpr ⟨fun a ha => ⟨o a, h a ha⟩, List.flatMap_congr fun a ha => ?_⟩
  rw [h a ha, finds_ok]

lemma exists_of_collect (h : collect g as = .ok out) {a : α} (ha : a ∈ as) :
    ∃ found, g a = .ok found := (collect_eq_ok_iff.mp h).1 a ha

end collect

/-! ### Loops that run on fuel -/

/-- `timeout` says that the fuel did not suffice. -/
def whileLoop (step : σ → Except ε (ForInStep σ)) (timeout : ε) : ℕ → σ → Except ε σ
  | 0, _ => .error timeout
  | fuel + 1, s => do
    match ← step s with
    | .yield s => whileLoop step timeout fuel s
    | .done s => .ok s

section whileLoop

variable {step : σ → Except ε (ForInStep σ)} {timeout : ε} {p : σ → Prop} {s s' : σ} {fuel : ℕ}

lemma whileLoop_succ_yield (h : step s = .ok (.yield s')) :
    whileLoop step timeout (fuel + 1) s = whileLoop step timeout fuel s' := by
  rw [whileLoop, h]
  rfl

lemma whileLoop_succ_done (h : step s = .ok (.done s')) :
    whileLoop step timeout (fuel + 1) s = .ok s' := by
  rw [whileLoop, h]
  rfl

lemma whileLoop_succ_error {e : ε} (h : step s = .error e) :
    whileLoop step timeout (fuel + 1) s = .error e := by
  rw [whileLoop, h]
  rfl

lemma whileLoop_eq_ok_iff {r : σ} : whileLoop step timeout fuel s = .ok r ↔
    ∃ n, fuel = n + 1 ∧ (step s = .ok (.done r) ∨
      ∃ s', step s = .ok (.yield s') ∧ whileLoop step timeout n s' = .ok r) := by
  cases fuel with
  | zero => simp [whileLoop]
  | succ n =>
    simp only [Nat.add_right_cancel_iff, exists_eq_left']
    cases h : step s with
    | error e => simp [whileLoop_succ_error h]
    | ok next =>
      cases next with
      | done s' => simp [whileLoop_succ_done h]
      | yield s' => simp [whileLoop_succ_yield h]

/-! What the loop comes to, however much fuel that takes. -/

lemma exists_whileLoop_done (h : step s = .ok (.done s')) {r : σ} :
    (∃ fuel, whileLoop step timeout fuel s = .ok r) ↔ r = s' := by
  constructor
  · rintro ⟨fuel, hr⟩
    obtain ⟨n, -, hdone | ⟨s'', hyield, -⟩⟩ := whileLoop_eq_ok_iff.mp hr
    · simpa [h, eq_comm] using hdone
    · simp [h] at hyield
  · rintro rfl
    exact ⟨1, whileLoop_succ_done h⟩

lemma exists_whileLoop_yield (h : step s = .ok (.yield s')) {r : σ} :
    (∃ fuel, whileLoop step timeout fuel s = .ok r) ↔
      ∃ fuel, whileLoop step timeout fuel s' = .ok r := by
  constructor
  · rintro ⟨fuel, hr⟩
    obtain ⟨n, -, hdone | ⟨s'', hs, hr⟩⟩ := whileLoop_eq_ok_iff.mp hr
    · simp [h] at hdone
    · obtain rfl : s' = s'' := by simpa [h] using hs
      exact ⟨n, hr⟩
  · rintro ⟨fuel, hr⟩
    exact ⟨fuel + 1, (whileLoop_succ_yield h).trans hr⟩

lemma not_exists_whileLoop {e : ε} (h : step s = .error e) {r : σ} :
    ¬ ∃ fuel, whileLoop step timeout fuel s = .ok r := by
  rintro ⟨fuel, hr⟩
  obtain ⟨n, -, hdone | ⟨s'', hyield, -⟩⟩ := whileLoop_eq_ok_iff.mp hr
  · simp [h] at hdone
  · simp [h] at hyield

/-- What every round keeps holds when the loop ends. -/
theorem whileLoop_keeps (hstep : ∀ s r, p s → step s = .ok r → p r.value) (hs : p s)
    (h : whileLoop step timeout fuel s = .ok s') : p s' := by
  induction fuel generalizing s with
  | zero => cases h
  | succ fuel ih =>
    obtain ⟨n, hn, hdone | ⟨u, hyield, hu⟩⟩ := whileLoop_eq_ok_iff.mp h
    · exact hstep s _ hs hdone
    · obtain rfl := Nat.succ.inj hn
      exact ih (hstep s _ hs hyield) hu

/-- One round leads to the other state. -/
def Next (step : σ → Except ε (ForInStep σ)) (s s' : σ) : Prop := step s = .ok (.yield s')

/-- A loop that comes back to its invariant in every round never ends. -/
theorem whileLoop_eq_timeout (hstep : ∀ s, p s → ∃ s', step s = .ok (.yield s') ∧ p s')
    (hs : p s) : whileLoop step timeout fuel s = .error timeout := by
  induction fuel generalizing s with
  | zero => rfl
  | succ fuel ih =>
    obtain ⟨s', hs', hp⟩ := hstep s hs
    rw [whileLoop_succ_yield hs']
    exact ih hp

/-- A loop whose rounds decrease a measure ends. -/
theorem whileLoop_ne_timeout (m : σ → ℕ)
    (hstep : ∀ s s', p s → step s = .ok (.yield s') → p s' ∧ m s' < m s)
    (herror : ∀ s, step s ≠ .error timeout) (hs : p s) (hfuel : m s < fuel) :
    whileLoop step timeout fuel s ≠ .error timeout := by
  induction fuel generalizing s with
  | zero => omega
  | succ fuel ih =>
    cases h : step s with
    | error e =>
      rw [whileLoop_succ_error h]
      rintro ⟨⟩
      exact herror s h
    | ok r =>
      cases r with
      | done s' => simp [whileLoop_succ_done h]
      | yield s' =>
        obtain ⟨hp, hm⟩ := hstep s s' hs h
        rw [whileLoop_succ_yield h]
        exact ih hp (by omega)

end whileLoop

/-! ### Loops by their rounds -/

/-- From this state the loop is left with a result, after so many rounds that go on with another
state. -/
inductive Leaves {ρ : Type} (round : σ → σ ⊕ ρ) : σ → ℕ → ρ → Prop
  | done {s : σ} {r : ρ} (h : round s = .inr r) : Leaves round s 0 r
  | more {s s' : σ} {n : ℕ} {r : ρ} (h : round s = .inl s') (hs' : Leaves round s' n r) :
    Leaves round s (n + 1) r

end LowLevelTasks.Loops
