import TradingSim.Lib.Interleave
import TradingSim.OrderBook.Simulation

/-!
Symbols do not interfere. All books share one slab and one free stack, so an order of one symbol
changes the slots that the orders of another get; but not what rests in that other book, nor what it
trades (`symbol_independence`).

The relation between two runs is `View.Agree`: the same orders of a symbol in the same places, in
whatever slots. One round of the loop keeps it (`Agree.trade`), and so does a sweep; the calls for
other symbols do not touch it. `View.Restricts` is the relation between an interleaving and one of
its streams.
-/

namespace TradingSim

open Lib

namespace View

variable {v v' w w' : View} {k : UInt64} {l : Loc} {x y b a b' a' : Slot} {σ : OrderType}
  {tb ta tb' ta' : ℕ} {o : Order} {log log' : List Trade} {tr tr' : Trade}

/-! ### Contents -/

/-- The orders queued at a place, first to last. -/
def contents (v : View) (l : Loc) : List Order := (v.queue l).map v.cell

/-- The same orders of the symbol `k` in the same places, in whatever slots. -/
def Agree (k : UInt64) (v w : View) : Prop := ∀ σ t, v.contents (k, σ, t) = w.contents (k, σ, t)

/-- A queue of which the first order loses the quantity `q`, and leaves if that is all of it. -/
def fillFront (q : Int32) : List Order → List Order
  | [] => []
  | o :: os => if o.quantity = q then os else { o with quantity := o.quantity - q } :: os

theorem contents_eq_nil : v.contents l = [] ↔ v.queue l = [] := List.map_eq_nil_iff

theorem contents_congr (hq : w.queue l = v.queue l) (hc : ∀ y ∈ v.queue l, w.cell y = v.cell y) :
    w.contents l = v.contents l := by
  unfold contents
  rw [hq]
  exact List.map_congr_left hc

theorem contents_fillFront {q : Int32} (hwf : v.WF) (hx : (v.queue l).head? = some x)
    (hq : w.queue l = if (v.cell x).quantity = q then (v.queue l).tail else v.queue l)
    (hc : w.cell x = { v.cell x with quantity := (v.cell x).quantity - q })
    (ho : ∀ y ∈ v.queue l, y ≠ x → w.cell y = v.cell y) :
    w.contents l = fillFront q (v.contents l) := by
  obtain ⟨xs, hxs⟩ := List.head?_eq_some_iff.mp hx
  have hnd := hwf.nodup l
  rw [hxs] at hnd ho hq
  have hrest : xs.map w.cell = xs.map v.cell := List.map_congr_left fun y hy =>
    ho y (List.mem_cons_of_mem _ hy) fun e => (List.nodup_cons.mp hnd).1 (e ▸ hy)
  unfold contents
  rw [hq, hxs, List.map_cons, fillFront]
  split
  · exact hrest
  · rw [List.map_cons, hc, hrest]

section Trade

variable (hwf : v.WF) (hc : v.Cross k tb ta b a)
include hwf hc

theorem trade_contents_bid : (v.trade k tb ta b a).contents (bidAt k tb) =
    fillFront (v.tradeQty b a) (v.contents (bidAt k tb)) := by
  have hne := hc.ne hwf
  apply contents_fillFront hwf hc.bid (trade_queue_bid hne) (trade_cell_bid hne)
  intro y hy hyb
  refine trade_cell_other hyb fun e => ?_
  have hl := hwf.loc_unique (e ▸ hy) (List.mem_of_mem_head? hc.ask)
  simp at hl

theorem trade_contents_ask : (v.trade k tb ta b a).contents (askAt k ta) =
    fillFront (v.tradeQty b a) (v.contents (askAt k ta)) := by
  have hne := hc.ne hwf
  apply contents_fillFront hwf hc.ask (trade_queue_ask hne) (trade_cell_ask hne)
  intro y hy hya
  refine trade_cell_other (fun e => ?_) hya
  have hl := hwf.loc_unique (e ▸ hy) (List.mem_of_mem_head? hc.bid)
  simp at hl

theorem trade_contents_other (hb : l ≠ bidAt k tb) (ha : l ≠ askAt k ta) :
    (v.trade k tb ta b a).contents l = v.contents l := by
  refine contents_congr (trade_queue_other hb ha) fun y hy => trade_cell_other ?_ ?_
  · exact fun e => hb (hwf.loc_unique (e ▸ hy) (List.mem_of_mem_head? hc.bid))
  · exact fun e => ha (hwf.loc_unique (e ▸ hy) (List.mem_of_mem_head? hc.ask))

end Trade

/-! ### Two runs of one symbol -/

namespace Agree

theorem symm (h : Agree k v w) : Agree k w v := fun σ t => (h σ t).symm

theorem queue_eq_nil (h : Agree k v w) {t : ℕ} :
    v.queue (k, σ, t) = [] ↔ w.queue (k, σ, t) = [] := by
  rw [← contents_eq_nil, h σ t, contents_eq_nil]

theorem uncrossed (h : Agree k v w) (hv : v.Uncrossed k) : w.Uncrossed k := by
  intro t u ht hu
  exact hv t u (fun e => ht (h.queue_eq_nil.mp e)) fun e => hu (h.queue_eq_nil.mp e)

theorem front (h : Agree k v w) {t : ℕ} (hx : (v.queue (k, σ, t)).head? = some x)
    (hy : (w.queue (k, σ, t)).head? = some y) : v.cell x = w.cell y := by
  have hhead := congrArg List.head? (h σ t)
  unfold contents at hhead
  rw [List.head?_map, List.head?_map, hx, hy] at hhead
  exact Option.some.inj hhead

theorem cross (h : Agree k v w) (hc : v.Cross k tb ta b a) (hc' : w.Cross k tb' ta' b' a') :
    tb = tb' ∧ ta = ta' ∧ v.cell b = w.cell b' ∧ v.cell a = w.cell a' := by
  have htb : tb = tb' := by
    rcases lt_trichotomy tb tb' with hlt | heq | hgt
    · exact absurd (h.queue_eq_nil.mp (hc.bestBid _ hlt)) hc'.bid_ne_nil
    · exact heq
    · exact absurd (h.queue_eq_nil.mpr (hc'.bestBid _ hgt)) hc.bid_ne_nil
  have hta : ta = ta' := by
    rcases lt_trichotomy ta ta' with hlt | heq | hgt
    · exact absurd (h.queue_eq_nil.mpr (hc'.bestAsk _ hlt)) hc.ask_ne_nil
    · exact heq
    · exact absurd (h.queue_eq_nil.mp (hc.bestAsk _ hgt)) hc'.ask_ne_nil
  subst htb hta
  exact ⟨rfl, rfl, h.front hc.bid hc'.bid, h.front hc.ask hc'.ask⟩

/-- **One round** keeps the agreement, and reports the same. -/
theorem trade (h : Agree k v w) (hv : v.WF) (hw : w.WF) (hc : v.Cross k tb ta b a)
    (hc' : w.Cross k tb' ta' b' a') :
    Agree k (v.trade k tb ta b a) (w.trade k tb' ta' b' a') := by
  obtain ⟨rfl, rfl, hb, ha⟩ := h.cross hc hc'
  have hqty : v.tradeQty b a = w.tradeQty b' a' := by rw [tradeQty, tradeQty, hb, ha]
  intro σ t
  by_cases hbid : (k, σ, t) = bidAt k tb
  · rw [hbid, trade_contents_bid hv hc, trade_contents_bid hw hc', hqty, h]
  by_cases hask : (k, σ, t) = askAt k ta
  · rw [hask, trade_contents_ask hv hc, trade_contents_ask hw hc', hqty, h]
  · rw [trade_contents_other hv hc hbid hask, trade_contents_other hw hc' hbid hask, h]

theorem fill_eq (h : Agree k v w) (hc : v.Cross k tb ta b a) (hc' : w.Cross k tb' ta' b' a')
    (hsym : (v.cell x).symbol = (w.cell y).symbol) (htr : v.Reports x σ b a tr)
    (htr' : w.Reports y σ b' a' tr') : tr.exec.fill = tr'.exec.fill := by
  obtain ⟨-, -, hb, ha⟩ := h.cross hc hc'
  obtain ⟨-, -, -, -, now, hexec⟩ := htr
  obtain ⟨-, -, -, -, now', hexec'⟩ := htr'
  rw [hexec, hexec', tradeQty, tradeQty, hb, ha, hsym]
  rfl

/-- **A whole sweep** keeps the agreement, and reports the same. -/
theorem sweep (hs : Sweep k x σ v log v') (hs' : Sweep k y σ w log' w') (hv : v.WF) (hw : w.WF)
    (h : Agree k v w) (hsym : (v.cell x).symbol = (w.cell y).symbol) :
    Agree k v' w' ∧ log.map (fun tr => tr.exec.fill) = log'.map fun tr => tr.exec.fill := by
  induction hs generalizing w log' with
  | done hunc =>
    cases hs' with
    | done _ => exact ⟨h, rfl⟩
    | round hc' _ _ =>
      have hlt := h.uncrossed hunc _ _ hc'.bid_ne_nil hc'.ask_ne_nil
      exact absurd hc'.cross (by omega)
  | @round v v' tb ta b a tr log hc htr _ ih =>
    cases hs' with
    | done hunc =>
      have hlt := h.symm.uncrossed hunc _ _ hc.bid_ne_nil hc.ask_ne_nil
      exact absurd hc.cross (by omega)
    | @round _ _ tb' ta' b' a' tr' log' hc' htr' hs' =>
      obtain ⟨q, hq⟩ : ∃ q, (v.trade k tb ta b a).cell x = { v.cell x with quantity := q } :=
        trade_cell_terms (hc.ne hv) x
      obtain ⟨q', hq'⟩ : ∃ q, (w.trade k tb' ta' b' a').cell y = { w.cell y with quantity := q } :=
        trade_cell_terms (hc'.ne hw) y
      obtain ⟨hend, hlog⟩ := ih hs' (trade_wf hv hc) (trade_wf hw hc') (h.trade hv hw hc hc')
        (by rw [hq, hq']; exact hsym)
      refine ⟨hend, ?_⟩
      rw [List.map_cons, List.map_cons, h.fill_eq hc hc' hsym htr htr', hlog]

end Agree

/-! ### Calls -/

theorem insert_contents_other (hx : ∀ l, x ∉ v.queue l) {l' : Loc} (hl : l' ≠ l) :
    (v.insert x o l).contents l' = v.contents l' :=
  contents_congr (insert_queue_other hl) fun _ hy => insert_cell_of_mem hx hy

theorem insert_contents_self (hx : ∀ l, x ∉ v.queue l) :
    (v.insert x o l).contents l = v.contents l ++ [o] := by
  have hmap : (v.queue l).map (v.insert x o l).cell = (v.queue l).map v.cell :=
    List.map_congr_left fun y hy => insert_cell_of_mem hx hy
  have hself : (v.insert x o l).cell x = o := Function.update_self _ _ _
  have hqueue : (v.insert x o l).queue l = v.queue l ++ [x] := Function.update_self _ _ _
  simp only [contents, hqueue, List.map_append, hmap, List.map_cons, hself, List.map_nil]

theorem Accept.contents_other (h : v.Accept o log v') (hv : v.WF) (hl : l.1 ≠ symKey o.symbol) :
    v'.contents l = v.contents l := by
  cases h with
  | outOfRange _ => rfl
  | exhausted _ => rfl
  | @sweep x l' free _ _ hfree hAt hs =>
    have hx : ∀ l, x ∉ v.queue l := hv.idle x (by rw [hfree]; simp)
    have hk : l.1 ≠ l'.1 := fun e => hl (e.trans hAt.1.symm)
    obtain ⟨⟨-, hend⟩, -⟩ := hs.rule (P := fun _ => True)
      (I := fun w => w.WF ∧ w.contents l = v.contents l)
      ⟨insert_wf hv hfree hAt, insert_contents_other hx fun e => hk (by rw [e])⟩ (by
        rintro w tb ta b a tr ⟨hw, hsame⟩ hc -
        refine ⟨⟨trade_wf hw hc, ?_⟩, trivial⟩
        rw [trade_contents_other hw hc (fun e => hk (by rw [e])) fun e => hk (by rw [e]), hsame])
    exact hend

theorem Accept.length_free (h : v.Accept o log v') (hv : v.WF) :
    v.free.length ≤ v'.free.length + 1 := by
  cases h with
  | outOfRange _ => exact Nat.le_succ _
  | exhausted _ => exact Nat.le_succ _
  | @sweep x l' free _ _ hfree hAt hs =>
    obtain ⟨released, hrel⟩ := hs.free_append (insert_wf hv hfree hAt)
    rw [hrel, hfree]
    simp only [insert, hfree, List.dropLast_concat, List.length_append, List.length_cons,
      List.length_nil]
    omega

theorem Accept.key_eq (h : v.Accept o log v') (hv : v.WF) :
    ∀ tr ∈ log, symKey tr.bidOrder.symbol = symKey o.symbol := by
  cases h with
  | outOfRange _ => simp
  | exhausted _ => simp
  | @sweep x l' free _ _ hfree hAt hs =>
    refine (hs.rule (I := WF) (insert_wf hv hfree hAt) ?_).2
    intro w tb ta b a tr hw hc htr
    refine ⟨trade_wf hw hc, ?_⟩
    rw [htr.bidOrder, (hw.filed _ b (List.mem_of_mem_head? hc.bid)).1, hAt.1]

/-- **One call** for the same order, on two views that agree on its symbol. -/
theorem Agree.accept (h : Agree (symKey o.symbol) v w) (hv : v.WF) (hw : w.WF)
    (hacc : v.Accept o log v') (hacc' : w.Accept o log' w')
    (hfree : ∀ l, o.At l → v.free ≠ [] ∧ w.free ≠ []) :
    Agree (symKey o.symbol) v' w' ∧
      log.map (fun tr => tr.exec.fill) = log'.map fun tr => tr.exec.fill := by
  by_cases hat : ∃ l, o.At l
  · obtain ⟨⟨k, σ, t⟩, hAt⟩ := hat
    obtain ⟨hvfree, hwfree⟩ := hfree _ hAt
    obtain ⟨x, free, hf, hs⟩ := hacc.sweep_of_at hvfree hAt
    obtain ⟨y, free', hf', hs'⟩ := hacc'.sweep_of_at hwfree hAt
    have hx : ∀ l, x ∉ v.queue l := hv.idle x (by rw [hf]; simp)
    have hy : ∀ l, y ∉ w.queue l := hw.idle y (by rw [hf']; simp)
    obtain rfl : symKey o.symbol = k := hAt.1
    refine Agree.sweep hs hs' (insert_wf hv hf hAt) (insert_wf hw hf' hAt) ?_ (by simp [insert])
    intro σ' t'
    by_cases hl : (symKey o.symbol, σ', t') = (symKey o.symbol, σ, t)
    · rw [hl, insert_contents_self hx, insert_contents_self hy, h]
    · rw [insert_contents_other hx hl, insert_contents_other hy hl, h]
  · push Not at hat
    obtain ⟨rfl, rfl⟩ := hacc.eq_of_not_at hat
    obtain ⟨rfl, rfl⟩ := hacc'.eq_of_not_at hat
    exact ⟨h, rfl⟩

/-! ### A stream by itself -/

/-- `w` holds the orders of `v` whose symbols are in `K`, and no others. -/
structure Restricts (K : UInt64 → Bool) (v w : View) : Prop where
  wf : v.WF
  alone : w.WF
  agree : ∀ k, K k = true → Agree k v w
  empty : ∀ l : Loc, K l.1 = false → w.queue l = []

variable {K : UInt64 → Bool}

theorem Restricts.free_ne_nil (h : Restricts K v w) (hfree : v.free ≠ []) : w.free ≠ [] := by
  intro hnil
  -- every slot is queued, and stands for the slot in the same place of the other view
  have hplace : ∀ x, ∃ y l, ∃ i : ℕ, (w.queue l)[i]? = some x ∧ (v.queue l)[i]? = some y := by
    intro x
    obtain ⟨l, hx⟩ := (h.alone.cover x).resolve_left (by simp [hnil])
    have hK : K l.1 = true := by
      by_contra hK
      rw [h.empty l (by simpa using hK)] at hx
      cases hx
    obtain ⟨i, hi⟩ := List.mem_iff_getElem?.mp hx
    have hlen : (v.queue l).length = (w.queue l).length := by
      have := congrArg List.length (h.agree l.1 hK l.2.1 l.2.2)
      simpa [contents] using this
    have hilt : i < (v.queue l).length := by
      rw [hlen]
      exact (List.getElem?_eq_some_iff.mp hi).1
    exact ⟨_, l, i, hi, List.getElem?_eq_getElem hilt⟩
  choose f place index hw hv using hplace
  have hinj : Function.Injective f := by
    intro x y hxy
    have hxq := List.mem_of_getElem? (hv x)
    have hyq := List.mem_of_getElem? (hv y)
    have hl : place x = place y := h.wf.loc_unique hxq (hxy ▸ hyq)
    have hvx := hv x
    have hi : index x = index y := by
      have hlt := (List.getElem?_eq_some_iff.mp hvx).1
      refine (List.getElem?_inj hlt (h.wf.nodup _)).mp ?_
      rw [hvx, hl, hv y, hxy]
    have := hw x
    rw [hl, hi, hw y] at this
    exact (Option.some.inj this).symm
  obtain ⟨z, hz⟩ := List.exists_mem_of_ne_nil _ hfree
  obtain ⟨x, rfl⟩ := (Finite.injective_iff_surjective.mp hinj) z
  exact h.wf.idle _ hz _ (List.mem_of_getElem? (hv x))

theorem restricts_new : Restricts K new new :=
  ⟨new_settled.wf, new_settled.wf, fun _ _ _ _ => rfl, fun _ _ => rfl⟩

theorem Restricts.accept (h : Restricts K v w) (hK : K (symKey o.symbol) = true)
    (hacc : v.Accept o log v') (hacc' : w.Accept o log' w') (hv' : v'.WF) (hw' : w'.WF)
    (hfree : ∀ l, o.At l → v.free ≠ []) :
    Restricts K v' w' ∧ log.map (fun tr => tr.exec.fill) = log'.map fun tr => tr.exec.fill := by
  obtain ⟨hsame, hlog⟩ := (h.agree _ hK).accept h.wf h.alone hacc hacc' fun l hl =>
    ⟨hfree l hl, h.free_ne_nil (hfree l hl)⟩
  refine ⟨⟨hv', hw', fun k hk => ?_, fun l hl => ?_⟩, hlog⟩
  · by_cases hko : k = symKey o.symbol
    · rw [hko]
      exact hsame
    · intro σ t
      rw [hacc.contents_other h.wf hko, hacc'.contents_other h.alone hko, h.agree k hk]
  · have hne : l.1 ≠ symKey o.symbol := fun e => by rw [e, hK] at hl; cases hl
    rw [← contents_eq_nil, hacc'.contents_other h.alone hne, contents_eq_nil]
    exact h.empty l hl

theorem Restricts.skip (h : Restricts K v w) (hK : K (symKey o.symbol) = false)
    (hacc : v.Accept o log v') (hv' : v'.WF) : Restricts K v' w := by
  refine ⟨hv', h.alone, fun k hk σ t => ?_, h.empty⟩
  have hne : k ≠ symKey o.symbol := fun e => by rw [← e, hk] at hK; cases hK
  rw [hacc.contents_other h.wf hne, h.agree k hk]

end View

/-! ### Runs of the engine -/

section Best

variable {q q' : ℕ → List Slot} {best best' : ℤ}

theorem BestBid.unique (h : BestBid best q) (h' : BestBid best' q')
    (hq : ∀ t, q t = [] ↔ q' t = []) : best = best' := by
  rcases h with ⟨rfl, hnil⟩ | ⟨t, rfl, hne, htop⟩ <;>
    rcases h' with ⟨rfl, hnil'⟩ | ⟨t', rfl, hne', htop'⟩
  · rfl
  · exact absurd ((hq t').mp (hnil t')) hne'
  · exact absurd ((hq t).mpr (hnil' t)) hne
  · have h₁ : ¬ t < t' := fun hlt => hne' ((hq t').mp (htop t' hlt))
    have h₂ : ¬ t' < t := fun hlt => hne ((hq t).mpr (htop' t hlt))
    omega

theorem BestAsk.unique (h : BestAsk best q) (h' : BestAsk best' q')
    (hq : ∀ t, q t = [] ↔ q' t = []) : best = best' := by
  rcases h with ⟨rfl, hnil⟩ | ⟨t, rfl, hne, htop⟩ <;>
    rcases h' with ⟨rfl, hnil'⟩ | ⟨t', rfl, hne', htop'⟩
  · rfl
  · exact absurd ((hq t').mp (hnil t')) hne'
  · exact absurd ((hq t).mpr (hnil' t)) hne
  · have h₁ : ¬ t < t' := fun hlt => hne ((hq t).mpr (htop' t hlt))
    have h₂ : ¬ t' < t := fun hlt => hne' ((hq t').mp (htop t' hlt))
    omega

end Best

namespace OrderBook

/-- What a book holds: the orders of every level with what is left of them, first to last, and the
two best ticks. -/
structure Content where
  resting : OrderType → Fin maxTicks → List Order
  bestBidTick : ℤ
  bestAskTick : ℤ

def content (s : OrderBook) (key : UInt64) : Content :=
  ⟨s.resting key, (s.book key).bestBidTick, (s.book key).bestAskTick⟩

/-- The pool does not run out: whenever an order of the sequence is inside the range of ticks, there
is a slot for it. -/
def Fits : OrderBook → List Order → Prop
  | _, [] => True
  | s, o :: os => (0 ≤ priceToTick o.price → priceToTick o.price < maxTicks → 0 < s.poolAvailable) ∧
      ∀ s' log, s.acceptNewOrder o = .ok (s', log) → s'.Fits os

/-- The symbol key is that of an order of the stream. -/
def keyOf (os : List Order) (k : UInt64) : Bool := os.any fun o => symKey o.symbol = k

/-- The executions for the symbols of the stream, without the times at which they were built. -/
def fillsOf (os : List Order) (log : List Trade) : List Fill :=
  (log.filter fun tr => keyOf os (symKey tr.bidOrder.symbol)).map fun tr => tr.exec.fill

variable {s s₁ : OrderBook} {v w : View} {K : UInt64 → Bool} {os : List Order}

theorem content_eq_of_agree {k : UInt64} (h : Rep s.pool s.books v) (h₁ : Rep s₁.pool s₁.books w)
    (hagree : View.Agree k v w) : s.content k = s₁.content k := by
  unfold content
  congr 1
  · funext σ t
    rw [resting_eq h, resting_eq h₁]
    exact hagree σ t
  · exact BestBid.unique (h.book k).bestBid (h₁.book k).bestBid fun t => hagree.queue_eq_nil
  · exact BestAsk.unique (h.book k).bestAsk (h₁.book k).bestAsk fun t => hagree.queue_eq_nil

theorem free_ne_nil_of_available (h : Rep s.pool s.books v) (hs : 0 < s.poolAvailable) :
    v.free ≠ [] := by
  rw [poolAvailable_eq h] at hs
  exact List.ne_nil_of_length_pos hs

/-- **An interleaving and one of its streams**, run side by side from related states. -/
theorem restrict_spec (hs : Rep s.pool s.books v) (hs₁ : Rep s₁.pool s₁.books w)
    (h : View.Restricts K v w) (hfits : s.Fits os) :
    ∃ s' v' log s₁' w' log₁, s.acceptAll os = .ok (s', log) ∧
      s₁.acceptAll (os.filter fun o => K (symKey o.symbol)) = .ok (s₁', log₁) ∧
      Rep s'.pool s'.books v' ∧ Rep s₁'.pool s₁'.books w' ∧ View.Restricts K v' w' ∧
      (log.filter fun tr => K (symKey tr.bidOrder.symbol)).map (fun tr => tr.exec.fill) =
        log₁.map fun tr => tr.exec.fill := by
  induction os generalizing s v s₁ w with
  | nil => exact ⟨s, v, [], s₁, w, [], rfl, rfl, hs, hs₁, h, rfl⟩
  | cons o os ih =>
    obtain ⟨hroom, hrest⟩ := hfits
    obtain ⟨s', v', log, haccept, hacc, hs'⟩ := acceptNewOrder_spec hs o
    have hkey := hacc.key_eq hs.wf
    cases hK : K (symKey o.symbol) with
    | true =>
      obtain ⟨s₁', w', log₁, haccept₁, hacc₁, hs₁'⟩ := acceptNewOrder_spec hs₁ o
      have hfree : ∀ l, o.At l → v.free ≠ [] := by
        rintro l ⟨-, -, ht, hlt⟩
        exact free_ne_nil_of_available hs (hroom (by omega) (by omega))
      obtain ⟨h', hlog⟩ := h.accept hK hacc hacc₁ hs'.wf hs₁'.wf hfree
      obtain ⟨s'', v'', log', s₁'', w'', log₁', hall, hall₁, hend, hend₁, hrestr, hlogs⟩ :=
        ih hs' hs₁' h' (hrest s' log haccept)
      have hown : log.filter (fun tr => K (symKey tr.bidOrder.symbol)) = log :=
        List.filter_eq_self.mpr fun tr htr => by rw [hkey tr htr, hK]
      refine ⟨s'', v'', log ++ log', s₁'', w'', log₁ ++ log₁', ?_, ?_, hend, hend₁, hrestr, ?_⟩
      · simp only [acceptAll, haccept, hall, ok_bind, pure_eq_ok]
      · rw [List.filter_cons_of_pos (by simpa using hK)]
        simp only [acceptAll, haccept₁, hall₁, ok_bind, pure_eq_ok]
      · rw [List.filter_append, List.map_append, List.map_append, hown, hlog, hlogs]
    | false =>
      obtain ⟨s'', v'', log', s₁'', w'', log₁', hall, hall₁, hend, hend₁, hrestr, hlogs⟩ :=
        ih hs' hs₁ (h.skip hK hacc hs'.wf) (hrest s' log haccept)
      have hnone : log.filter (fun tr => K (symKey tr.bidOrder.symbol)) = [] :=
        List.filter_eq_nil_iff.mpr fun tr htr => by rw [hkey tr htr, hK]; simp
      refine ⟨s'', v'', log ++ log', s₁'', w'', log₁', ?_, ?_, hend, hend₁, hrestr, ?_⟩
      · simp only [acceptAll, haccept, hall, ok_bind, pure_eq_ok]
      · rw [List.filter_cons_of_neg (by simp [hK])]
        exact hall₁
      · rw [List.filter_append, hnone, List.nil_append, hlogs]

theorem fits_of_length (hs : Rep s.pool s.books v) (h : os.length ≤ s.poolAvailable) :
    s.Fits os := by
  induction os generalizing s v with
  | nil => trivial
  | cons o os ih =>
    rw [List.length_cons] at h
    refine ⟨fun _ _ => by omega, fun s' log haccept => ?_⟩
    obtain ⟨s₁, v₁, log₁, haccept₁, hacc, hs₁⟩ := acceptNewOrder_spec hs o
    obtain ⟨rfl, rfl⟩ : s₁ = s' ∧ log₁ = log := by simpa using haccept₁.symm.trans haccept
    have hlen := hacc.length_free hs.wf
    rw [← poolAvailable_eq hs, ← poolAvailable_eq hs₁] at hlen
    exact ih hs₁ (by omega)

variable {xs ys : List Order} {clock : ℕ → Int64}

theorem keyOf_eq_true {k : UInt64} : keyOf xs k = true ↔ ∃ x ∈ xs, symKey x.symbol = k := by
  simp [keyOf]

/-- **One stream of an interleaving**, next to that stream by itself. -/
theorem stream_alone (clock₁ : ℕ → Int64)
    (hdis : ∀ x ∈ xs, ∀ y ∈ ys, symKey x.symbol ≠ symKey y.symbol) (hint : Interleave xs ys os)
    (hfits : (new clock).Fits os) :
    ∃ s log s₁ log₁, (new clock).acceptAll os = .ok (s, log) ∧
      (new clock₁).acceptAll xs = .ok (s₁, log₁) ∧
      fillsOf xs log = log₁.map (fun tr => tr.exec.fill) ∧
      ∀ x ∈ xs, s.content (symKey x.symbol) = s₁.content (symKey x.symbol) := by
  have hfilter : os.filter (fun o => keyOf xs (symKey o.symbol)) = xs := by
    refine hint.filter_eq (fun x hx => keyOf_eq_true.mpr ⟨x, hx, rfl⟩) fun y hy => ?_
    rw [← Bool.not_eq_true, keyOf_eq_true]
    rintro ⟨x, hx, he⟩
    exact hdis x hx y hy he
  have hnew : Rep (new clock₁).pool (new clock₁).books View.new := Rep.new
  obtain ⟨s, v, log, s₁, w, log₁, hall, hall₁, hs, hs₁, hrestr, hlogs⟩ :=
    restrict_spec (K := keyOf xs) Rep.new hnew View.restricts_new hfits
  rw [hfilter] at hall₁
  refine ⟨s, log, s₁, log₁, hall, hall₁, hlogs, fun x hx => ?_⟩
  exact content_eq_of_agree hs hs₁ (hrestr.agree _ (keyOf_eq_true.mpr ⟨x, hx, rfl⟩))

theorem content_of_absent (hfits : (new clock).Fits os) {s : OrderBook} {log : List Trade}
    (hall : (new clock).acceptAll os = .ok (s, log)) {k : UInt64}
    (hk : ∀ o ∈ os, symKey o.symbol ≠ k) : s.content k = (new clock).content k := by
  have hnew : Rep (new clock).pool (new clock).books View.new := Rep.new
  obtain ⟨s', v, log', s₁, w, log₁, hall', hall₁, hs, hs₁, hrestr, -⟩ :=
    restrict_spec (K := fun k' => decide (k' = k)) Rep.new hnew View.restricts_new hfits
  have hnone : os.filter (fun o => decide (symKey o.symbol = k)) = [] :=
    List.filter_eq_nil_iff.mpr fun o ho => by simpa using hk o ho
  rw [hnone] at hall₁
  obtain ⟨rfl, -⟩ : s = s' ∧ log = log' := by simpa using hall.symm.trans hall'
  obtain ⟨rfl, -⟩ : new clock = s₁ ∧ [] = log₁ := by simpa [acceptAll] using hall₁
  exact content_eq_of_agree hs hs₁ (hrestr.agree k (by simp))

theorem streams_alone (clock₁ clock₂ : ℕ → Int64)
    (hdis : ∀ x ∈ xs, ∀ y ∈ ys, symKey x.symbol ≠ symKey y.symbol) (hint : Interleave xs ys os)
    (hfits : (new clock).Fits os) : ∃ s log s₁ log₁ s₂ log₂,
      (new clock).acceptAll os = .ok (s, log) ∧ (new clock₁).acceptAll xs = .ok (s₁, log₁) ∧
      (new clock₂).acceptAll ys = .ok (s₂, log₂) ∧
      fillsOf xs log = log₁.map (fun tr => tr.exec.fill) ∧
      fillsOf ys log = log₂.map (fun tr => tr.exec.fill) ∧
      (∀ x ∈ xs, s.content (symKey x.symbol) = s₁.content (symKey x.symbol)) ∧
      ∀ y ∈ ys, s.content (symKey y.symbol) = s₂.content (symKey y.symbol) := by
  obtain ⟨s, log, s₁, log₁, hall, hall₁, hfill₁, hbook₁⟩ := stream_alone clock₁ hdis hint hfits
  obtain ⟨s', log', s₂, log₂, hall', hall₂, hfill₂, hbook₂⟩ :=
    stream_alone clock₂ (fun y hy x hx => (hdis x hx y hy).symm) hint.swap hfits
  obtain ⟨rfl, rfl⟩ : s = s' ∧ log = log' := by simpa using hall.symm.trans hall'
  exact ⟨s, log, s₁, log₁, s₂, log₂, hall, hall₁, hall₂, hfill₁, hfill₂, hbook₁, hbook₂⟩

/-- **Symbol independence.** Two streams whose symbols are disjoint, interleaved in any way in which
the pool does not run out: the executions for the symbols of each stream, and what its books hold in
the end, are those of the stream by itself on a fresh engine. So any other interleaving agrees with
this one on all of them. -/
theorem symbol_independence (xs ys : List Order)
    (hdis : ∀ x ∈ xs, ∀ y ∈ ys, symKey x.symbol ≠ symKey y.symbol) (os : List Order)
    (hint : Interleave xs ys os) (clock clock₁ clock₂ : ℕ → Int64) (hfits : (new clock).Fits os) :
    ∃ s log s₁ log₁ s₂ log₂, (new clock).acceptAll os = .ok (s, log) ∧
      (new clock₁).acceptAll xs = .ok (s₁, log₁) ∧ (new clock₂).acceptAll ys = .ok (s₂, log₂) ∧
      fillsOf xs log = log₁.map (fun tr => tr.exec.fill) ∧
      fillsOf ys log = log₂.map (fun tr => tr.exec.fill) ∧
      (∀ x ∈ xs, s.content (symKey x.symbol) = s₁.content (symKey x.symbol)) ∧
      (∀ y ∈ ys, s.content (symKey y.symbol) = s₂.content (symKey y.symbol)) ∧
      ∀ os' clock', Interleave xs ys os' → (new clock').Fits os' →
        ∃ s' log', (new clock').acceptAll os' = .ok (s', log') ∧
          fillsOf xs log' = fillsOf xs log ∧ fillsOf ys log' = fillsOf ys log ∧
          ∀ key, s'.content key = s.content key := by
  obtain ⟨s, log, s₁, log₁, s₂, log₂, hall, hall₁, hall₂, hfill₁, hfill₂, hbook₁, hbook₂⟩ :=
    streams_alone clock₁ clock₂ hdis hint hfits
  refine ⟨s, log, s₁, log₁, s₂, log₂, hall, hall₁, hall₂, hfill₁, hfill₂, hbook₁, hbook₂, ?_⟩
  intro os' clock' hint' hfits'
  obtain ⟨s', log', t₁, logt₁, t₂, logt₂, hall', hrun₁, hrun₂, hfill₁', hfill₂', hbook₁', hbook₂'⟩ :=
    streams_alone clock₁ clock₂ hdis hint' hfits'
  obtain ⟨rfl, rfl⟩ : s₁ = t₁ ∧ log₁ = logt₁ := by simpa using hall₁.symm.trans hrun₁
  obtain ⟨rfl, rfl⟩ : s₂ = t₂ ∧ log₂ = logt₂ := by simpa using hall₂.symm.trans hrun₂
  refine ⟨s', log', hall', hfill₁'.trans hfill₁.symm, hfill₂'.trans hfill₂.symm, fun k => ?_⟩
  by_cases hxs : ∃ x ∈ xs, symKey x.symbol = k
  · obtain ⟨x, hx, rfl⟩ := hxs
    rw [hbook₁ x hx, hbook₁' x hx]
  by_cases hys : ∃ y ∈ ys, symKey y.symbol = k
  · obtain ⟨y, hy, rfl⟩ := hys
    rw [hbook₂ y hy, hbook₂' y hy]
  · push Not at hxs hys
    have habsent : ∀ {os}, Interleave xs ys os → ∀ o ∈ os, symKey o.symbol ≠ k := by
      intro os hint o ho
      rcases hint.mem ho with hx | hy
      · exact hxs o hx
      · exact hys o hy
    rw [content_of_absent hfits hall (habsent hint), content_of_absent hfits' hall' (habsent hint')]
    rfl

/-- A sell and a buy of one symbol that trade, and between them a buy of another symbol that would have
taken the sell as well. -/
theorem symbol_independence_between :
    let x₁ : Order := { Order.plain .sell 1 2 with symbol := fun _ => 65 }
    let x₂ : Order := { Order.plain .buy 2 3 with symbol := fun _ => 65 }
    let y : Order := { Order.plain .buy 2 10 with symbol := fun _ => 66 }
    (∀ x ∈ [x₁, x₂], ∀ z ∈ [y], symKey x.symbol ≠ symKey z.symbol) ∧
      (new fun _ => 0).Fits [x₁, y, x₂] ∧ ∃ s log s₁ log₁,
      (new fun _ => 0).acceptAll [x₁, y, x₂] = .ok (s, log) ∧
      (new fun _ => 0).acceptAll [x₁, x₂] = .ok (s₁, log₁) ∧
      fillsOf [x₁, x₂] log = [Textbook.fill x₂.limit x₁.limit 2] ∧
      s.content (symKey x₁.symbol) = s₁.content (symKey x₁.symbol) := by
  intro x₁ x₂ y
  have hne : symKey (fun _ => 65) ≠ symKey fun _ => 66 := fun e => by
    have := congrFun (symKey_injective e) 0
    simp at this
  have hdis : ∀ x ∈ [x₁, x₂], ∀ z ∈ [y], symKey x.symbol ≠ symKey z.symbol := by
    simp [x₁, x₂, y, hne]
  have hfits : (new fun _ => 0).Fits [x₁, y, x₂] := by
    apply fits_of_length Rep.new
    rw [poolAvailable_eq Rep.new]
    simp [View.new, poolCapacity]
  obtain ⟨s, log, s₁, log₁, -, -, hall, hall₁, -, hfill, -, hbook, -, -⟩ :=
    symbol_independence [x₁, x₂] [y] hdis [x₁, y, x₂] (.left (.right (.left .nil))) (fun _ => 0)
      (fun _ => 0) (fun _ => 0) hfits
  -- what the stream trades alone is what the textbook engine trades
  obtain ⟨s₁', -, log₁', hall₁', -, -, -, -, htextbook⟩ :=
    acceptAll_models (fun _ => 0) (show ∀ o ∈ [x₁, x₂], 0 < o.quantity by decide)
  obtain ⟨-, rfl⟩ : s₁ = s₁' ∧ log₁ = log₁' := by simpa using hall₁.symm.trans hall₁'
  refine ⟨hdis, hfits, s, log, s₁, log₁, hall, hall₁, ?_, hbook x₁ (by simp)⟩
  rw [hfill, htextbook]
  decide +kernel

end OrderBook

end TradingSim
