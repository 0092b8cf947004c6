import Mathlib.Algebra.Order.Field.Basic
import Mathlib.Tactic

/-!
Netting: an account of signed trades at average cost.

The account holds a quantity, positive when long and negative when short, the average price at which
it was entered, and the profit realised so far. A trade in the direction of the account moves the
average; one against it closes as much as there is, and what is left of it opens the account the other
way. The price of a flat account means nothing, and no trade looks at it (`Net.Agree.trade_eq`).

Four facts about it: at every mark price the account is worth what its trades are worth
(`netOf_value`), exchanging buyer and seller turns it around (`netOf_neg`), a trade may be cut into parts
(`Net.trade_trade`), and the price of an open account is between the prices of the trades that built it
(`between_leg`).
-/

namespace TradingSim.Lib

/-- An account of signed trades. -/
structure Net (K : Type*) where
  quantity : K
  price : K
  realised : K

variable {K : Type*} [Field K]

namespace Net

/-- The account of the other side of every trade. -/
def neg (n : Net K) : Net K := ⟨-n.quantity, n.price, -n.realised⟩

theorem neg_injective : Function.Injective (neg : Net K → Net K) := by
  rintro ⟨q, e, r⟩ ⟨q', e', r'⟩ h
  simpa [neg] using h

variable [LinearOrder K]

/-- What a trade of `s` closes of a holding of `q`, with the sign of the holding. -/
def closed (q s : K) : K := if 0 ≤ q * s then 0 else if 0 < s * (q + s) then q else -s

/-- A trade of the signed quantity `s` at the price `p`: it adds to the account, goes through it to
the other side, or takes from it. -/
def trade (n : Net K) (s p : K) : Net K where
  quantity := n.quantity + s
  price :=
    if 0 ≤ n.quantity * s then (n.quantity * n.price + s * p) / (n.quantity + s)
    else if 0 < s * (n.quantity + s) then p
    else n.price
  realised := n.realised + closed n.quantity s * (p - n.price)

variable {n n' : Net K} {a b s p : K}

@[simp] theorem quantity_trade : (n.trade s p).quantity = n.quantity + s := rfl

theorem trade_adds (h : 0 ≤ n.quantity * s) : n.trade s p =
    ⟨n.quantity + s, (n.quantity * n.price + s * p) / (n.quantity + s), n.realised⟩ := by
  simp only [trade, closed, if_pos h, zero_mul, add_zero]

theorem trade_flips (h : n.quantity * s < 0) (hflip : 0 < s * (n.quantity + s)) : n.trade s p =
    ⟨n.quantity + s, p, n.realised + n.quantity * (p - n.price)⟩ := by
  simp only [trade, closed, if_neg (not_le.mpr h), if_pos hflip]

theorem trade_takes (h : n.quantity * s < 0) (hflip : s * (n.quantity + s) ≤ 0) : n.trade s p =
    ⟨n.quantity + s, n.price, n.realised + -s * (p - n.price)⟩ := by
  simp only [trade, closed, if_neg (not_le.mpr h), if_neg (not_lt.mpr hflip)]

/-! ### Flat accounts -/

/-- The accounts say the same, the price of a flat one apart. -/
structure Agree (n n' : Net K) : Prop where
  quantity : n.quantity = n'.quantity
  realised : n.realised = n'.realised
  price : n.quantity ≠ 0 → n.price = n'.price

theorem trade_flat (h : n.quantity = 0) (hs : s ≠ 0) : n.trade s p = ⟨s, p, n.realised⟩ := by
  rw [trade_adds (by rw [h, zero_mul]), h, zero_mul, zero_add, zero_add, mul_div_cancel_left₀ _ hs]

/-- No trade looks at the price of a flat account. -/
theorem Agree.trade_eq (h : Agree n n') (hs : s ≠ 0) : n.trade s p = n'.trade s p := by
  by_cases hq : n.quantity = 0
  · have hq' : n'.quantity = 0 := h.quantity ▸ hq
    rw [trade_flat hq hs, trade_flat hq' hs, h.realised]
  · obtain ⟨q, e, r⟩ := n
    obtain ⟨q', e', r'⟩ := n'
    obtain rfl : q = q' := h.quantity
    obtain rfl : r = r' := h.realised
    obtain rfl : e = e' := h.price hq
    rfl

/-! ### Mark prices -/

/-- What was realised, and what the holding would bring at the price `m`. -/
def value (n : Net K) (m : K) : K := n.realised + n.quantity * (m - n.price)

theorem Agree.value_eq (h : Agree n n') (m : K) : n.value m = n'.value m := by
  rw [value, value, h.realised, ← h.quantity]
  by_cases hq : n.quantity = 0
  · rw [hq, zero_mul, zero_mul]
  · rw [h.price hq]

/-! ### The other side -/

theorem neg_trade (n : Net K) (s p : K) : (n.trade s p).neg = n.neg.trade (-s) p := by
  have hprod : -n.quantity * -s = n.quantity * s := neg_mul_neg _ _
  have hflip : -s * (-n.quantity + -s) = s * (n.quantity + s) := by ring
  have hprice : (-n.quantity * n.price + -s * p) / (-n.quantity + -s) =
      (n.quantity * n.price + s * p) / (n.quantity + s) := by
    rw [← neg_div_neg_eq]
    congr 1 <;> ring
  simp only [trade, neg, closed, hprod, hflip, hprice, Net.mk.injEq]
  refine ⟨by ring, trivial, ?_⟩
  split_ifs <;> ring

variable [IsStrictOrderedRing K]

theorem value_trade (hs : s ≠ 0) (m : K) : (n.trade s p).value m = n.value m + s * (m - p) := by
  rcases le_or_gt 0 (n.quantity * s) with hadd | hopp
  · have hsum : n.quantity + s ≠ 0 := by
      intro h
      have hsq := mul_self_pos.mpr hs
      rw [eq_neg_of_add_eq_zero_left h] at hadd
      linarith
    rw [trade_adds hadd, value, value]
    field_simp
    ring
  · rcases lt_or_ge 0 (s * (n.quantity + s)) with hflip | htake
    · rw [trade_flips hopp hflip, value, value]
      ring
    · rw [trade_takes hopp htake, value, value]
      ring

/-! ### Parts of a trade -/

/-- A purchase in two parts, by where the account stands between them. -/
theorem buy_buy (ha : 0 < a) (hb : 0 < b) : (n.trade a p).trade b p = n.trade (a + b) p := by
  obtain ⟨q, e, r⟩ := n
  rcases le_or_gt 0 q with hq | hq
  · have hqa : 0 < q + a := by linarith
    have hsum : q + a + b ≠ 0 := by linarith
    rw [trade_adds (mul_nonneg hq ha.le), trade_adds (mul_nonneg hqa.le hb.le),
      trade_adds (mul_nonneg hq (by linarith))]
    simp only [Net.mk.injEq, and_true]
    refine ⟨by ring, ?_⟩
    rw [mul_div_cancel₀ _ hqa.ne', add_assoc q a b]
    congr 1
    ring
  have hqa : q * a < 0 := mul_neg_of_neg_of_pos hq ha
  have hqab : q * (a + b) < 0 := mul_neg_of_neg_of_pos hq (by linarith)
  rcases le_or_gt (q + (a + b)) 0 with hend | hend
  · -- both parts only take
    have hmid : q + a < 0 := by linarith
    rw [trade_takes hqa (mul_nonpos_of_nonneg_of_nonpos ha.le hmid.le),
      trade_takes (mul_neg_of_neg_of_pos hmid hb)
        (mul_nonpos_of_nonneg_of_nonpos hb.le (by dsimp only; linarith)),
      trade_takes hqab (mul_nonpos_of_nonneg_of_nonpos (by linarith) hend)]
    simp only [Net.mk.injEq, true_and]
    exact ⟨by ring, by ring⟩
  have htotal : trade ⟨q, e, r⟩ (a + b) p = ⟨q + (a + b), p, r + q * (p - e)⟩ :=
    trade_flips hqab (mul_pos (by linarith) hend)
  rw [htotal]
  rcases lt_trichotomy (q + a) 0 with hmid | hmid | hmid
  · rw [trade_takes hqa (mul_nonpos_of_nonneg_of_nonpos ha.le hmid.le),
      trade_flips (mul_neg_of_neg_of_pos hmid hb) (mul_pos hb (by dsimp only; linarith))]
    simp only [Net.mk.injEq, true_and]
    exact ⟨by ring, by ring⟩
  · have hclose : a * (q + a) ≤ 0 := by rw [hmid, mul_zero]
    have hflat : trade ⟨q, e, r⟩ a p = ⟨q + a, e, r + -a * (p - e)⟩ := trade_takes hqa hclose
    rw [hflat, trade_flat hmid hb.ne']
    obtain rfl : q = -a := by linarith
    simp only [Net.mk.injEq, and_true]
    ring
  · rw [trade_flips hqa (mul_pos ha hmid), trade_adds (mul_nonneg hmid.le hb.le)]
    have hsum : q + a + b ≠ 0 := by linarith
    simp only [Net.mk.injEq, and_true]
    refine ⟨by ring, ?_⟩
    rw [← add_mul, mul_div_cancel_left₀ _ hsum]

/-- **A trade may be cut into parts** of its direction. -/
theorem trade_trade (h : 0 < a * b) : (n.trade a p).trade b p = n.trade (a + b) p := by
  rcases mul_pos_iff.mp h with ⟨ha, hb⟩ | ⟨ha, hb⟩
  · exact buy_buy ha hb
  · -- the other side of a sale is a purchase
    apply neg_injective
    rw [neg_trade, neg_trade, neg_trade, buy_buy (neg_pos.mpr ha) (neg_pos.mpr hb)]
    congr 1
    ring

end Net

/-! ### Legs -/

section Leg

variable [LinearOrder K] {α : Type*} (signed price : α → K)

/-- The account after a sequence of trades. -/
def netOf (trades : List α) : Net K :=
  trades.foldl (fun n x => n.trade (signed x) (price x)) ⟨0, 0, 0⟩

theorem netOf_snoc (trades : List α) (x : α) : netOf signed price (trades ++ [x]) =
    (netOf signed price trades).trade (signed x) (price x) := by
  rw [netOf, List.foldl_append]
  rfl

theorem netOf_quantity (trades : List α) :
    (netOf signed price trades).quantity = (trades.map signed).sum := by
  induction trades using List.reverseRecOn with
  | nil => rfl
  | append_singleton trades x ih => rw [netOf_snoc, Net.quantity_trade, ih]; simp

/-- **The other side of every trade** has the account turned around. -/
theorem netOf_neg {other : α → α} (hsigned : ∀ x, signed (other x) = -signed x)
    (hprice : ∀ x, price (other x) = price x) (trades : List α) :
    netOf signed price (trades.map other) = (netOf signed price trades).neg := by
  induction trades using List.reverseRecOn with
  | nil => simp [netOf, Net.neg]
  | append_singleton trades x ih =>
    rw [List.map_append, List.map_singleton, netOf_snoc, netOf_snoc, ih, hsigned, hprice,
      Net.neg_trade]

/-- The quantity after a trade, and the trades since it was last zero or changed its sign, with the
one that opened it. -/
def legStep : K × List α → α → K × List α
  | (q, leg), x =>
    (q + signed x,
      if q + signed x = 0 then [] else if 0 < q * (q + signed x) then leg ++ [x] else [x])

/-- The trades of the open account. -/
def legOf (trades : List α) : List α := (trades.foldl (legStep signed) (0, [])).2

theorem mem_of_mem_legOf {trades : List α} {x : α} (h : x ∈ legOf signed trades) : x ∈ trades := by
  induction trades using List.reverseRecOn with
  | nil => exact h
  | append_singleton trades y ih =>
    rw [legOf, List.foldl_append, List.foldl_cons, List.foldl_nil, legStep] at h
    rw [List.mem_append]
    split_ifs at h
    · simp at h
    · exact (List.mem_append.mp h).imp_left ih
    · exact .inr h

/-- The price is between those of trades of the account's direction. -/
def Spans (signed price : α → K) (n : Net K) (leg : List α) : Prop :=
  ∃ lo ∈ leg, ∃ hi ∈ leg, 0 < signed lo * n.quantity ∧ 0 < signed hi * n.quantity ∧
    price lo ≤ n.price ∧ n.price ≤ price hi

variable {signed price} [IsStrictOrderedRing K] {n : Net K} {leg trades : List α} {x : α} {q s e p : K}

/-- **The worth of an account** at a mark price is that of its trades. -/
theorem netOf_value (hs : ∀ x ∈ trades, signed x ≠ 0) (m : K) :
    (netOf signed price trades).value m = (trades.map fun x => signed x * (m - price x)).sum := by
  induction trades using List.reverseRecOn with
  | nil => simp [netOf, Net.value]
  | append_singleton trades x ih =>
    rw [netOf_snoc, Net.value_trade (hs x (by simp)), ih fun y hy => hs y (List.mem_append_left _ hy)]
    simp

theorem mean_between (hq : 0 < q * (q + s)) (hs : 0 < s * (q + s)) :
    min e p ≤ (q * e + s * p) / (q + s) ∧ (q * e + s * p) / (q + s) ≤ max e p := by
  have hsum : q + s ≠ 0 := fun h => by simp [h] at hq
  have hwq : 0 < q / (q + s) := div_pos_iff.mpr (mul_pos_iff.mp hq)
  have hws : 0 < s / (q + s) := div_pos_iff.mpr (mul_pos_iff.mp hs)
  have hfrom_e : (q * e + s * p) / (q + s) = e + s / (q + s) * (p - e) := by
    field_simp
    ring
  have hfrom_p : (q * e + s * p) / (q + s) = p + q / (q + s) * (e - p) := by
    field_simp
    ring
  rcases le_total e p with h | h
  · rw [min_eq_left h, max_eq_right h]
    refine ⟨?_, ?_⟩
    · rw [hfrom_e]
      nlinarith
    · rw [hfrom_p]
      nlinarith
  · rw [min_eq_right h, max_eq_left h]
    refine ⟨?_, ?_⟩
    · rw [hfrom_p]
      nlinarith
    · rw [hfrom_e]
      nlinarith

theorem mul_pos_trans {a b c : K} (hab : 0 < a * b) (hbc : 0 < b * c) : 0 < a * c := by
  rcases mul_pos_iff.mp hab with ⟨ha, hb⟩ | ⟨ha, hb⟩
  · exact mul_pos ha ((pos_iff_pos_of_mul_pos hbc).mp hb)
  · exact mul_pos_of_neg_of_neg ha ((neg_iff_neg_of_mul_pos hbc).mp hb)

theorem Spans.stay (h : Spans signed price n leg) (hx : signed x ≠ 0)
    (hsame : 0 < n.quantity * (n.quantity + signed x)) :
    Spans signed price (n.trade (signed x) (price x)) (leg ++ [x]) := by
  obtain ⟨lo, hlo, hi, hhi, hslo, hshi, hle, hge⟩ := h
  have hq : n.quantity ≠ 0 := fun e => by simp [e] at hsame
  have hmem : ∀ y ∈ leg, y ∈ leg ++ [x] := fun y hy => List.mem_append_left _ hy
  have hlast : x ∈ leg ++ [x] := by simp
  have hslo' := mul_pos_trans hslo hsame
  have hshi' := mul_pos_trans hshi hsame
  rcases lt_or_ge (n.quantity * signed x) 0 with hopp | hadd
  · -- it takes, and the price stays
    have htakes : signed x * (n.quantity + signed x) ≤ 0 := by
      by_contra hpos
      rw [mul_comm] at hsame
      have := mul_pos_trans (not_le.mp hpos) hsame
      linarith
    rw [Net.trade_takes hopp htakes]
    exact ⟨lo, hmem lo hlo, hi, hmem hi hhi, hslo', hshi', hle, hge⟩
  · have hpos : 0 < n.quantity * signed x := lt_of_le_of_ne hadd (mul_ne_zero hq hx).symm
    have hsx : 0 < signed x * (n.quantity + signed x) :=
      mul_pos_trans (by rwa [mul_comm] at hpos) hsame
    obtain ⟨hmin, hmax⟩ := mean_between (e := n.price) (p := price x) hsame hsx
    rw [Net.trade_adds hadd]
    rcases le_total n.price (price x) with hx' | hx'
    · rw [min_eq_left hx', max_eq_right hx'] at *
      exact ⟨lo, hmem lo hlo, x, hlast, hslo', hsx, hle.trans hmin, hmax⟩
    · rw [min_eq_right hx', max_eq_left hx'] at *
      exact ⟨x, hlast, hi, hmem hi hhi, hsx, hshi', hmin, hmax.trans hge⟩

theorem Spans.opens (hx : signed x ≠ 0) (hopen : n.quantity + signed x ≠ 0)
    (hother : n.quantity * (n.quantity + signed x) ≤ 0) :
    Spans signed price (n.trade (signed x) (price x)) [x] := by
  have hsq : 0 < (n.quantity + signed x) * (n.quantity + signed x) := mul_self_pos.mpr hopen
  have hsx : 0 < signed x * (n.quantity + signed x) := by linarith
  have hprice : (n.trade (signed x) (price x)).price = price x := by
    by_cases hq : n.quantity = 0
    · rw [Net.trade_flat hq hx]
    · have hopp : n.quantity * signed x < 0 := by
        have := mul_self_pos.mpr hq
        linarith
      rw [Net.trade_flips hopp hsx]
  exact ⟨x, by simp, x, by simp, hsx, hsx, hprice.ge, hprice.le⟩

/-- **The price of an open account** is between the prices of the trades of its leg that have its
direction. -/
theorem between_leg (hs : ∀ x ∈ trades, signed x ≠ 0) (hopen : (netOf signed price trades).quantity ≠ 0) :
    Spans signed price (netOf signed price trades) (legOf signed trades) := by
  have hinv : (trades.foldl (legStep signed) (0, [])).1 = (netOf signed price trades).quantity ∧
      ((netOf signed price trades).quantity ≠ 0 →
        Spans signed price (netOf signed price trades) (legOf signed trades)) := by
    clear hopen
    induction trades using List.reverseRecOn with
    | nil => exact ⟨rfl, fun h => absurd rfl h⟩
    | append_singleton trades x ih =>
      obtain ⟨hq, hspan⟩ := ih fun y hy => hs y (List.mem_append_left _ hy)
      have hx : signed x ≠ 0 := hs x (by simp)
      have hstep : (trades ++ [x]).foldl (legStep signed) (0, []) =
          legStep signed ((netOf signed price trades).quantity, legOf signed trades) x := by
        rw [List.foldl_append, ← hq]
        rfl
      rw [legOf, hstep, netOf_snoc]
      refine ⟨rfl, fun hopen => ?_⟩
      rw [Net.quantity_trade] at hopen
      simp only [legStep, if_neg hopen]
      split
      · rename_i hsame
        exact (hspan fun e => by simp [e] at hsame).stay hx hsame
      · rename_i hother
        exact Spans.opens hx hopen (not_lt.mp hother)
  exact hinv.2 hopen

end Leg

end TradingSim.Lib
