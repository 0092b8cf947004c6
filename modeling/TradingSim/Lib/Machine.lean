import Mathlib.Logic.Function.Basic
import Mathlib.Tactic

/-!
Storage that can fault, and loops with a bound on their rounds.

An access of a C++ program that the language leaves undefined (a null pointer followed, an index
outside its array, a write past the end of a stack, a bit scan of zero) is an `Except.error` here,
so that "the program never does this" is the statement that a run ends in `Except.ok`. So is a
quotient by zero, which is no number.

A `while (true)` loop is `loop`: its body either returns (`none`) or hands on the next state. The
loop is given a number of rounds, and running out of rounds is an error as well; `loop_rule` says
that a loop whose invariant decreases a measure does not run out of them.
-/

namespace TradingSim.Lib

/-- What a program can run into where the language gives it no meaning. -/
inductive Fault where
  | nullPointer
  | outOfRange
  | stackOverrun
  | scanOfZero
  | divisionByZero
  | outOfRounds
  deriving DecidableEq, Repr

section Bind

variable {ε α β : Type}

-- `Eq.trans rfl rfl` keeps these from being used up to reduction, which would have the kernel
-- compare whole programs by unfolding them.
@[simp] theorem ok_bind (a : α) (f : α → Except ε β) : (Except.ok a >>= f) = f a :=
  Eq.trans rfl rfl

@[simp] theorem error_bind (e : ε) (f : α → Except ε β) : (Except.error e >>= f) = .error e :=
  Eq.trans rfl rfl

theorem bind_eq_ok {x : Except ε α} {f : α → Except ε β} {b : β} :
    (x >>= f) = .ok b ↔ ∃ a, x = .ok a ∧ f a = .ok b := by
  cases x <;> simp

@[simp] theorem pure_eq_ok (a : α) : (pure a : Except ε α) = .ok a := Eq.trans rfl rfl

theorem map_bind {γ : Type} (g : β → γ) (x : Except ε α) (f : α → Except ε β) :
    Except.map g (x >>= f) = x >>= fun a => Except.map g (f a) := by
  cases x <;> rfl

end Bind

/-! ### Indexed storage -/

section Storage

variable {n : ℕ} {α : Type}

/-- `v[i]` for a signed index. -/
def load (v : Fin n → α) (i : ℤ) : Except Fault α :=
  if h : 0 ≤ i ∧ i < n then .ok (v ⟨i.toNat, by omega⟩) else .error .outOfRange

/-- `v[i] = x` for a signed index. -/
def store (v : Fin n → α) (i : ℤ) (x : α) : Except Fault (Fin n → α) :=
  if h : 0 ≤ i ∧ i < n then .ok (Function.update v ⟨i.toNat, by omega⟩ x) else .error .outOfRange

/-- `*p`: the place a pointer names. -/
def deref : Option α → Except Fault α
  | some p => .ok p
  | none => .error .nullPointer

theorem load_eq (v : Fin n → α) {i : ℤ} {k : Fin n} (h : i = (k : ℕ)) : load v i = .ok (v k) := by
  have hk := k.isLt
  unfold load
  rw [dif_pos (by omega)]
  congr 2
  apply Fin.ext
  show i.toNat = k
  omega

theorem store_eq (v : Fin n → α) (x : α) {i : ℤ} {k : Fin n} (h : i = (k : ℕ)) :
    store v i x = .ok (Function.update v k x) := by
  have hk := k.isLt
  have hik : (⟨i.toNat, by omega⟩ : Fin n) = k := Fin.ext (by show i.toNat = k; omega)
  unfold store
  rw [dif_pos (by omega), hik]

@[simp] theorem deref_some (p : α) : deref (some p) = .ok p := rfl

end Storage

/-! ### Loops -/

section Loop

variable {ε σ : Type}

/-- At most `n` rounds of `while (true) body`. -/
def loop (stuck : ε) (body : σ → Except ε (Option σ)) : ℕ → σ → Except ε σ
  | 0, _ => .error stuck
  | n + 1, s => do
    match ← body s with
    | none => .ok s
    | some s' => loop stuck body n s'

variable {stuck : ε} {body : σ → Except ε (Option σ)}

theorem loop_exit {s : σ} (n : ℕ) (h : body s = .ok none) : loop stuck body (n + 1) s = .ok s := by
  simp only [loop, h, ok_bind]

theorem loop_round {s s' : σ} (n : ℕ) (h : body s = .ok (some s')) :
    loop stuck body (n + 1) s = loop stuck body n s' := by
  simp only [loop, h, ok_bind]

theorem loop_map {f : σ → σ} (h : ∀ s, body (f s) = Except.map (Option.map f) (body s)) (n : ℕ)
    (s : σ) : loop stuck body n (f s) = Except.map f (loop stuck body n s) := by
  induction n generalizing s with
  | zero => rfl
  | succ n ih =>
    simp only [loop, h]
    cases hb : body s with
    | error e => rfl
    | ok next =>
      cases next with
      | none => rfl
      | some s' => exact ih s'

/-- A loop that ends within `n` rounds ends in the same state when it is given more. -/
theorem loop_mono {n m : ℕ} {s t : σ} (h : loop stuck body n s = .ok t) (hnm : n ≤ m) :
    loop stuck body m s = .ok t := by
  induction n generalizing m s with
  | zero => cases h
  | succ n ih =>
    obtain ⟨m, rfl⟩ : ∃ k, m = k + 1 := ⟨m - 1, by omega⟩
    cases hb : body s with
    | error e => simp [loop, hb] at h
    | ok r =>
      cases r with
      | none => rw [loop_exit _ hb] at h ⊢; exact h
      | some s' => rw [loop_round _ hb] at h ⊢; exact ih h (by omega)

/-- **The loop rule.** From the invariant `I` the body either returns with `Q`, or goes round once
more, keeps `I` and makes the measure smaller: then the loop returns, with `I` and `Q`. -/
theorem loop_rule {I Q : σ → Prop} {μ : σ → ℕ}
    (step : ∀ s, I s → (body s = .ok none ∧ Q s) ∨
      ∃ s', body s = .ok (some s') ∧ I s' ∧ μ s' < μ s) :
    ∀ (n : ℕ) (s : σ), I s → μ s < n → ∃ t, loop stuck body n s = .ok t ∧ I t ∧ Q t := by
  intro n
  induction n with
  | zero => intro s _ h; omega
  | succ n ih =>
    intro s hI hμ
    rcases step s hI with ⟨hb, hQ⟩ | ⟨s', hb, hI', hlt⟩
    · exact ⟨s, loop_exit n hb, hI, hQ⟩
    · rw [loop_round n hb]
      exact ih s' hI' (by omega)

/-- **A loop that computes a value.** If every round keeps what the state is worth and makes the
measure smaller, and a state in which the body returns holds its worth in `out`, then the loop returns
with what the state was worth at the start. -/
theorem loop_value {β : Type} (worth : σ → β) {out : σ → β} {μ : σ → ℕ}
    (step : ∀ s, (body s = .ok none ∧ out s = worth s) ∨
      ∃ s', body s = .ok (some s') ∧ worth s' = worth s ∧ μ s' < μ s)
    {n : ℕ} {s : σ} (h : μ s < n) : ∃ t, loop stuck body n s = .ok t ∧ out t = worth s := by
  have hstep : ∀ t, worth t = worth s → (body t = .ok none ∧ out t = worth t) ∨
      ∃ t', body t = .ok (some t') ∧ worth t' = worth s ∧ μ t' < μ t := by
    intro t ht
    exact (step t).imp_right fun ⟨t', hb, hkeep, hlt⟩ => ⟨t', hb, hkeep.trans ht, hlt⟩
  obtain ⟨t, hrun, hkeep, hout⟩ := loop_rule hstep n s rfl h
  exact ⟨t, hrun, hout.trans hkeep⟩

/-- `n` rounds of the body lead from `s` to `t`. -/
inductive Rounds (body : σ → Except ε (Option σ)) (s : σ) : ℕ → σ → Prop
  | zero : Rounds body s 0 s
  | succ {n : ℕ} {t u : σ} : Rounds body s n t → body t = .ok (some u) → Rounds body s (n + 1) u

namespace Rounds

variable {n : ℕ} {s t u : σ}

theorem cons (hb : body s = .ok (some t)) (h : Rounds body t n u) : Rounds body s (n + 1) u := by
  induction h with
  | zero => exact zero.succ hb
  | succ _ hlast ih => exact ih.succ hlast

theorem rule {I : σ → Prop} (h : Rounds body s n t) (hI : I s)
    (step : ∀ t u, I t → body t = .ok (some u) → I u) : I t := by
  induction h with
  | zero => exact hI
  | succ _ hlast ih => exact step _ _ ih hlast

theorem loop_eq (h : Rounds body s n t) (m : ℕ) :
    loop stuck body (m + n) s = loop stuck body m t := by
  induction h generalizing m with
  | zero => rfl
  | @succ n t u _ hlast ih =>
    rw [show m + (n + 1) = (m + 1) + n by omega, ih, loop_round m hlast]

/-- **The bound on the rounds**: if every round makes the measure smaller, the body returns after at
most as many of them as the measure says at the start. -/
theorem exists_return {I : σ → Prop} {μ : σ → ℕ}
    (step : ∀ s, I s → body s = .ok none ∨ ∃ s', body s = .ok (some s') ∧ I s' ∧ μ s' < μ s)
    (hI : I s) : ∃ n t, n ≤ μ s ∧ Rounds body s n t ∧ body t = .ok none := by
  induction hμ : μ s using Nat.strong_induction_on generalizing s with
  | _ k ih =>
    subst hμ
    rcases step s hI with hb | ⟨s', hb, hI', hlt⟩
    · exact ⟨0, s, Nat.zero_le _, zero, hb⟩
    · obtain ⟨n, t, hn, hrounds, hend⟩ := ih (μ s') hlt hI' rfl
      exact ⟨n + 1, t, by omega, cons hb hrounds, hend⟩

end Rounds

end Loop

theorem toInt_sub_of_le {a b : Int64} (ha : 0 ≤ a) (hab : a ≤ b) : (b - a).toInt = b.toInt - a.toInt := by
  rw [Int64.le_iff_toInt_le] at ha hab
  rw [Int64.toInt_zero] at ha
  have hlt : b.toInt < 2 ^ 63 := Int64.toInt_lt b
  rw [Int64.toInt_sub, Int.bmod_eq_of_le] <;> omega

end TradingSim.Lib
