import TradingSim.Lib.Rounding
import TradingSim.System.TickPath

/-!
`udp_tick_simulator`: the tool that sends ticks to the process, as the bytes of a `Tick` in memory.

The draws of its distributions and the readings of its clock are parameters. Its arithmetic is that of
`double`s, and the bytes are those of their binary format, so that the subscriber reads back what was sent
(`Tick.ofBytes_toBytes`) as long as no price overflows. Every tick that the simulator sends finds the callback
of `main`. So however the network loses, doubles or reorders the datagrams, each one that arrives becomes the
tick it was, and the price cache never has a price but one that the simulated walk of its symbol had
(`UdpTickSimulator.sendLoop_received`).
-/

namespace TradingSim

open Lib

/-! ### The wire format -/

/-- The bytes of a number, the lowest first. -/
def leBytes : ℕ → ℕ → List UInt8
  | 0, _ => []
  | width + 1, n => UInt8.ofNat n :: leBytes width (n / 256)

theorem length_leBytes (width n : ℕ) : (leBytes width n).length = width := by
  induction width generalizing n with
  | zero => rfl
  | succ width ih => rw [leBytes, List.length_cons, ih]

theorem ofDigits_leBytes (width n : ℕ) :
    Nat.ofDigits 256 ((leBytes width n).map UInt8.toNat) = n % 256 ^ width := by
  induction width generalizing n with
  | zero => simp [leBytes, Nat.mod_one]
  | succ width ih =>
    rw [leBytes, List.map_cons, Nat.ofDigits_cons, ih, pow_succ', Nat.mod_mul, UInt8.toNat_ofNat']

theorem take_drop_append {α : Type} {l₁ l₂ l₃ : List α} {n m : ℕ} (h₁ : l₁.length = n)
    (h₂ : l₂.length = m) : ((l₁ ++ (l₂ ++ l₃)).drop n).take m = l₂ := by
  rw [List.drop_left' h₁, List.take_left' h₂]

/-- The bytes of a `double`. -/
def doubleBytes (x : ℚ) : List UInt8 := leBytes 8 (binary64 x)

/-- The `double` that has these bytes. -/
def readDouble (bytes : List UInt8) : ℚ := ofBinary64 (Nat.ofDigits 256 (bytes.map UInt8.toNat))

theorem readDouble_doubleBytes {x : ℚ} (h : Representable 53 x) (hrange : InRange x) :
    readDouble (doubleBytes x) = x := by
  obtain ⟨hlt, hread⟩ := ofBinary64_binary64 h hrange
  rw [readDouble, doubleBytes, ofDigits_leBytes, Nat.mod_eq_of_lt (by omega), hread]

namespace Tick

/-- `reinterpret_cast<const char*>(&tick)`. -/
def toBytes (tick : Tick) : List UInt8 :=
  List.ofFn tick.symbol ++ doubleBytes tick.bid ++ doubleBytes tick.ask ++ doubleBytes tick.last ++
    leBytes 8 tick.timestampNs.toUInt64.toNat

/-- The numbers of the tick are `double`s. -/
def Numeric (tick : Tick) : Prop :=
  ∀ x ∈ [tick.bid, tick.ask, tick.last], Representable 53 x ∧ InRange x

variable {tick : Tick}

theorem length_toBytes (tick : Tick) : tick.toBytes.length = sizeofTick := by
  simp [toBytes, sizeofTick, doubleBytes, length_leBytes]

/-- **The subscriber reads the tick that was sent.** -/
theorem ofBytes_toBytes (h : tick.Numeric) : ofBytes readDouble tick.toBytes = tick := by
  obtain ⟨symbol, bid, ask, last, timestampNs⟩ := tick
  have hread : ∀ x ∈ [bid, ask, last], readDouble (doubleBytes x) = x := fun x hx =>
    readDouble_doubleBytes (h x hx).1 (h x hx).2
  have hlen : ∀ x, (doubleBytes x).length = 8 := fun x => length_leBytes 8 _
  have hsymbol : (List.ofFn symbol).length = 8 := List.length_ofFn
  have hstamp : Int64.ofNat (timestampNs.toUInt64.toNat % 256 ^ 8) = timestampNs := by
    have hlt : timestampNs.toUInt64.toNat < 256 ^ 8 := timestampNs.toUInt64.toNat_lt
    rw [Nat.mod_eq_of_lt hlt]
    exact congrArg Int64.ofUInt64 UInt64.ofNat_toNat
  simp only [ofBytes, toBytes, List.append_assoc, mk.injEq]
  refine ⟨?_, ?_, ?_, ?_, ?_⟩
  · funext i
    rw [List.getD_append _ _ _ _ (by simp), List.getD_eq_getElem _ _ (by simp), List.getElem_ofFn]
  · rw [take_drop_append hsymbol (hlen bid), hread bid (by simp)]
  · rw [← List.append_assoc, take_drop_append (by simp [hlen]) (hlen ask), hread ask (by simp)]
  · rw [← List.append_assoc, ← List.append_assoc, take_drop_append (by simp [hlen]) (hlen last),
      hread last (by simp)]
  · have hfront : (List.ofFn symbol ++ doubleBytes bid ++ doubleBytes ask ++ doubleBytes last).length = 32 := by
      simp [hlen]
    have hall : ((List.ofFn symbol ++ doubleBytes bid ++ doubleBytes ask ++ doubleBytes last ++
        (leBytes 8 timestampNs.toUInt64.toNat ++ [])).drop 32).take 8 =
          leBytes 8 timestampNs.toUInt64.toNat := take_drop_append hfront (length_leBytes 8 _)
    simp only [List.append_nil, List.append_assoc] at hall
    rw [hall, ofDigits_leBytes, hstamp]

end Tick

namespace UdpTickSimulator

/-! ### The tool -/

structure SimSymbol where
  symbol : List UInt8
  basePrice : ℚ
  currentPrice : ℚ
  vol : ℚ

/-- `symbols`. -/
def symbols : Fin 6 → SimSymbol :=
  ![⟨ascii "AAPL", 150, 150, toDouble (15 / 100)⟩, ⟨ascii "MSFT", 300, 300, toDouble (20 / 100)⟩,
    ⟨ascii "GOOGL", 140, 140, toDouble (12 / 100)⟩, ⟨ascii "TSLA", 200, 200, 25 / 100⟩,
    ⟨ascii "ESZ4", 4500, 4500, 150 / 100⟩, ⟨ascii "GBPUSD", 125 / 100, 125 / 100, toDouble (2 / 1000)⟩]

/-- What the two distributions and the clock give for one tick. -/
structure Draw where
  sym : Fin 6
  noise : ℚ
  now : Int64

/-- The step of the random walk. -/
def walk (symbols : Fin 6 → SimSymbol) (d : Draw) : Fin 6 → SimSymbol :=
  let sym := symbols d.sym
  let price := toDouble (sym.currentPrice + toDouble (d.noise * sym.vol))
  Function.update symbols d.sym
    { sym with currentPrice := if price < toDouble (1 / 100) then sym.basePrice else price }

/-- The tick of a round. -/
def tickOf (sym : SimSymbol) (now : Int64) : Tick where
  symbol := sym8 sym.symbol
  bid := toDouble (sym.currentPrice - toDouble (1 / 100))
  ask := toDouble (sym.currentPrice + toDouble (1 / 100))
  last := sym.currentPrice
  timestampNs := now

/-- `sendLoop`: the ticks that are sent, one for each draw. -/
def sendLoop (symbols : Fin 6 → SimSymbol) : List Draw → List Tick
  | [] => []
  | d :: draws => tickOf (walk symbols d d.sym) d.now :: sendLoop (walk symbols d) draws

/-! ### The walk -/

variable {prices : Fin 6 → SimSymbol} {draws : List Draw}

theorem toDouble_cent : 2 ^ (-7 : ℤ) < toDouble (1 / 100) ∧ toDouble (1 / 100) ≤ 1 := by
  have herror := abs_le.mp (abs_roundTo_sub_le 53 (1 / 100))
  rw [abs_of_pos (by norm_num)] at herror
  norm_num at herror ⊢
  constructor <;> linarith

/-- The symbols and base prices stay those of the table, and the prices are `double`s of a cent or more. -/
def Sound (prices : Fin 6 → SimSymbol) : Prop :=
  ∀ k, (prices k).symbol = (symbols k).symbol ∧ (prices k).basePrice = (symbols k).basePrice ∧
    toDouble (1 / 100) ≤ (prices k).currentPrice ∧ Representable 53 (prices k).currentPrice

theorem basePrice_spec (k : Fin 6) : toDouble (1 / 100) ≤ (symbols k).basePrice ∧
    Representable 53 (symbols k).basePrice := by
  have hcent := toDouble_cent.2
  fin_cases k
  · exact ⟨hcent.trans (by norm_num [symbols]), 150, 0, by norm_num, by norm_num [symbols]⟩
  · exact ⟨hcent.trans (by norm_num [symbols]), 300, 0, by norm_num, by norm_num [symbols]⟩
  · exact ⟨hcent.trans (by norm_num [symbols]), 140, 0, by norm_num, by norm_num [symbols]⟩
  · exact ⟨hcent.trans (by norm_num [symbols]), 200, 0, by norm_num, by norm_num [symbols]⟩
  · exact ⟨hcent.trans (by norm_num [symbols]), 4500, 0, by norm_num, by norm_num [symbols]⟩
  · exact ⟨hcent.trans (by norm_num [symbols]), 5, -2, by norm_num, by norm_num [symbols]⟩

theorem sound_symbols : Sound symbols := by
  intro k
  have hcurrent : (symbols k).currentPrice = (symbols k).basePrice := by
    fin_cases k <;> rfl
  rw [hcurrent]
  exact ⟨rfl, rfl, basePrice_spec k⟩

/-- A price that would fall below a cent starts again at the base price. -/
theorem Sound.walk (h : Sound prices) (d : Draw) : Sound (walk prices d) := by
  intro k
  by_cases hk : k = d.sym
  · subst hk
    obtain ⟨hsymbol, hbase, -⟩ := h d.sym
    simp only [UdpTickSimulator.walk, Function.update_self]
    refine ⟨hsymbol, hbase, ?_⟩
    split
    · rw [hbase]
      exact basePrice_spec d.sym
    · rename_i hle
      exact ⟨not_lt.mp hle, representable_roundTo 53 _⟩
  · simp only [UdpTickSimulator.walk, Function.update_of_ne hk]
    exact h k

/-- A quote of the simulator: of a symbol of the table, around a price of at least a cent, with a cent taken
off for the bid and put on for the ask. -/
structure Quote (tick : Tick) : Prop where
  symbol : ∃ k, tick.symbol = sym8 (symbols k).symbol
  last : toDouble (1 / 100) ≤ tick.last
  bid : tick.bid = toDouble (tick.last - toDouble (1 / 100))
  ask : tick.ask = toDouble (tick.last + toDouble (1 / 100))
  double : Representable 53 tick.last

/-- **Whatever is drawn**, the simulator sends quotes. -/
theorem quote_of_mem_sendLoop (h : Sound prices) : ∀ tick ∈ sendLoop prices draws, Quote tick := by
  induction draws generalizing prices with
  | nil => simp [sendLoop]
  | cons d draws ih =>
    obtain ⟨hsymbol, -, hfloor, hdouble⟩ := (h.walk d) d.sym
    intro tick htick
    rcases List.mem_cons.mp htick with rfl | htick
    · exact ⟨⟨d.sym, congrArg sym8 hsymbol⟩, hfloor, rfl, rfl, hdouble⟩
    · exact ih (h.walk d) tick htick

theorem Quote.ordered {tick : Tick} (h : Quote tick) :
    0 ≤ tick.bid ∧ tick.bid ≤ tick.last ∧ tick.last ≤ tick.ask := by
  have hcent : (0 : ℚ) < toDouble (1 / 100) := lt_trans (zpow_pos (by norm_num) _) toDouble_cent.1
  have hlast := h.last
  refine ⟨?_, ?_, ?_⟩
  · rw [h.bid]
    exact le_roundTo (by norm_num) ⟨0, 0, by norm_num, by norm_num⟩ (by linarith)
  · rw [h.bid]
    exact roundTo_le (by norm_num) h.double (by linarith)
  · rw [h.ask]
    exact le_roundTo (by norm_num) h.double (by linarith)

/-- A bid that is not zero is not too small for a normal number: the price and the cent have a common last
digit. -/
theorem Quote.bid_zero_or_le {tick : Tick} (h : Quote tick) :
    tick.bid = 0 ∨ 2 ^ (-59 : ℤ) ≤ tick.bid := by
  have multiple : ∀ {x : ℚ}, Representable 53 x → toDouble (1 / 100) ≤ x →
      ∃ n : ℤ, x = n * 2 ^ (-59 : ℤ) := by
    intro x hx hle
    rcases hx.multiple_or_le (-7) with hmul | hsmall
    · norm_num at hmul ⊢
      exact hmul
    · exact absurd hsmall (not_le.mpr (toDouble_cent.1.trans_le (hle.trans (le_abs_self x))))
  obtain ⟨n, hn⟩ := multiple h.double h.last
  obtain ⟨m, hm⟩ := multiple (representable_roundTo 53 (1 / 100)) le_rfl
  have hpos : (0 : ℚ) < 2 ^ (-59 : ℤ) := zpow_pos (by norm_num) _
  have hdiff : tick.last - toDouble (1 / 100) = (n - m : ℤ) * 2 ^ (-59 : ℤ) := by
    rw [hn, show toDouble (1 / 100) = m * 2 ^ (-59 : ℤ) from hm]
    push_cast
    ring
  have hnonneg : 0 ≤ n - m := by
    have hle := sub_nonneg.mpr h.last
    rw [hdiff] at hle
    exact_mod_cast nonneg_of_mul_nonneg_left hle hpos
  rw [h.bid]
  rcases hnonneg.eq_or_lt with hzero | hone
  · left
    rw [hdiff, ← hzero, Int.cast_zero, zero_mul]
    exact roundTo_zero 53
  · right
    refine le_roundTo (by norm_num) (representable_zpow 53 (-59)) ?_
    rw [hdiff]
    have hcast : (1 : ℚ) ≤ (n - m : ℤ) := by exact_mod_cast hone
    exact le_mul_of_one_le_left hpos.le hcast

theorem Quote.numeric {tick : Tick} (h : Quote tick) (hask : tick.ask < 2 ^ (1024 : ℤ)) : tick.Numeric := by
  obtain ⟨hbid, hle, hle'⟩ := h.ordered
  have hsmall : (2 : ℚ) ^ (-1022 : ℤ) ≤ 2 ^ (-59 : ℤ) := zpow_le_zpow_right₀ (by norm_num) (by norm_num)
  have hlast : (2 : ℚ) ^ (-59 : ℤ) ≤ tick.last :=
    (zpow_le_zpow_right₀ (by norm_num) (by norm_num)).trans (toDouble_cent.1.le.trans h.last)
  have inRange : ∀ {x : ℚ}, 2 ^ (-59 : ℤ) ≤ x → x ≤ tick.ask → InRange x := by
    intro x hlow hhigh
    have hpos : 0 < x := lt_of_lt_of_le (zpow_pos (by norm_num) _) hlow
    rw [InRange, abs_of_pos hpos]
    exact Or.inr ⟨hsmall.trans hlow, hhigh.trans_lt hask⟩
  intro x hx
  simp only [List.mem_cons, List.not_mem_nil, or_false] at hx
  rcases hx with rfl | rfl | rfl
  · refine ⟨h.bid ▸ representable_roundTo 53 _, ?_⟩
    rcases h.bid_zero_or_le with hzero | hlow
    · exact Or.inl hzero
    · exact inRange hlow (hle.trans hle')
  · exact ⟨h.ask ▸ representable_roundTo 53 _, inRange (hlast.trans hle') le_rfl⟩
  · exact ⟨h.double, inRange hlast hle'⟩

/-! ### The process that receives -/

theorem route_toBytes {tick : Tick} (h : Quote tick) (hnumeric : tick.Numeric) :
    Process.route readDouble tick.toBytes = [tick] := by
  obtain ⟨k, hk⟩ := h.symbol
  have htable : ∀ k, (symbols k).symbol ∈ Process.symbols ∧
      sym8 (symbols k).symbol = subscribedField (symbols k).symbol := by decide
  obtain ⟨hmem, hfield⟩ := htable k
  have hread := Tick.ofBytes_toBytes hnumeric
  have hlong : ¬ tick.toBytes.length < sizeofTick := by
    rw [Tick.length_toBytes]
    exact lt_irrefl _
  have hsymbol : (Tick.ofBytes readDouble tick.toBytes).symbol =
      subscribedField (symbols k).symbol := by rw [hread, hk, hfield]
  rw [Process.route_subscribed hlong hmem hsymbol, hread]

variable {tickCap execCap : ℕ} [NeZero tickCap] [NeZero execCap] {p : Process tickCap execCap}
  {tr : List ProcessEvent} {tickBuffer : Fin tickCap → Tick} {execBuffer : Fin execCap → Execution}
  {execs : List Execution}

/-- **The simulator as the feed.** Let the process receive datagrams of the simulator only, any of them in any
order, and let no quote be too large for a `double`. In every run each datagram that is handled was one of the
ticks that were sent, and is offered to `tickQueue` as this tick: none is malformed and none finds no
callback. So a price in the cache is one of the prices that the simulated walk of the symbol had, at least a
cent; its tick quotes it with a cent taken off and put on in the arithmetic of `double`s, with the bid not
negative and the price between bid and ask. -/
theorem sendLoop_received (hrange : ∀ tick ∈ sendLoop symbols draws, tick.ask < 2 ^ (1024 : ℤ))
    (h : Exec (Process.Step readDouble) (Process.boot tickBuffer execBuffer execs) tr p)
    (hsent : ∀ buffer ∈ ProcessEvent.received tr,
      ∃ tick ∈ sendLoop symbols draws, buffer = tick.toBytes) :
    ∃ ticks, (∀ tick ∈ ticks, tick ∈ sendLoop symbols draws) ∧
      ProcessEvent.received tr = ticks.map Tick.toBytes ++ p.feed.inHand ∧
      Fifo.offers (ProcessEvent.tickOps tr) ++ p.ticks.pending = ticks ∧
      ∃ latestPrices, p.latestPrices = .ok latestPrices ∧
        ∀ sym price, latestPrices sym = some price →
          ∃ tick ∈ ticks, Quote tick ∧ (0 ≤ tick.bid ∧ tick.bid ≤ tick.last ∧ tick.last ≤ tick.ask) ∧
            tick.symbol.text = sym ∧ tick.last = price := by
  have hquote : ∀ tick ∈ sendLoop symbols draws, Quote tick := quote_of_mem_sendLoop sound_symbols
  have hnumeric : ∀ tick ∈ sendLoop symbols draws, tick.Numeric := fun tick htick =>
    (hquote tick htick).numeric (hrange tick htick)
  have hfed := Process.exec_fed h
  obtain ⟨handled, hreceived, hlane⟩ := hfed.lane
  have hread : ∀ buffer ∈ handled, ∃ tick ∈ sendLoop symbols draws, buffer = tick.toBytes ∧
      Tick.ofBytes readDouble buffer = tick ∧ Process.route readDouble buffer = [tick] := by
    intro buffer hbuffer
    obtain ⟨tick, htick, rfl⟩ := hsent buffer (by rw [hreceived]; exact List.mem_append_left _ hbuffer)
    exact ⟨tick, htick, rfl, Tick.ofBytes_toBytes (hnumeric tick htick),
      route_toBytes (hquote tick htick) (hnumeric tick htick)⟩
  have hroutes : handled.flatMap (Process.route readDouble) = handled.map (Tick.ofBytes readDouble) := by
    rw [List.map_eq_flatMap]
    refine List.flatMap_congr fun buffer hbuffer => ?_
    obtain ⟨tick, -, -, hof, hroute⟩ := hread buffer hbuffer
    rw [hroute, hof]
  have hticks : ∀ tick ∈ handled.map (Tick.ofBytes readDouble), tick ∈ sendLoop symbols draws := by
    intro tick htick
    obtain ⟨buffer, hbuffer, rfl⟩ := List.mem_map.mp htick
    obtain ⟨tick, hmem, -, hof, -⟩ := hread buffer hbuffer
    exact hof ▸ hmem
  refine ⟨handled.map (Tick.ofBytes readDouble), hticks, ?_, hroutes ▸ hlane.offers, _, hfed.prices, ?_⟩
  · have hbytes : handled.map (Tick.toBytes ∘ Tick.ofBytes readDouble) = handled := by
      refine (List.map_congr_left fun buffer hbuffer => ?_).trans (List.map_id handled)
      obtain ⟨tick, -, heq, hof, -⟩ := hread buffer hbuffer
      rw [Function.comp_apply, hof, id_eq, heq]
    rw [hreceived, List.map_map, hbytes]
  · intro sym price hprice
    obtain ⟨tick, hmem, hsym, hlast⟩ := LatestPrices.exists_of_ofTicks hprice
    have hpop : tick ∈ Fifo.pops (ProcessEvent.tickOps tr) := by
      rw [← hfed.priced]
      exact List.mem_append_left _ hmem
    have hpush : tick ∈ Fifo.pushes (ProcessEvent.tickOps tr) := by
      rw [hlane.history]
      exact List.mem_append_left _ hpop
    have hgiven := hlane.pushes_sublist.subset hpush
    rw [hroutes] at hgiven
    have hquoted := hquote tick (hticks tick hgiven)
    exact ⟨tick, hgiven, hquoted, hquoted.ordered, hsym, hlast⟩

/-- A tick of ESZ4 that has gone up by one and a half. -/
theorem sendLoop_received_one :
    let draws : List Draw := [⟨4, 1, 7⟩]
    ∃ tr, ∃ p : Process 2 2,
      Exec (Process.Step readDouble) (Process.boot (fun _ => ⟨0, 0, 0, 0, 0⟩)
        (fun _ => ⟨0, 0, 0, 0, 0, .buy, 0, 0⟩) []) tr p ∧
      ProcessEvent.received tr = (sendLoop symbols draws).map Tick.toBytes ∧
      ProcessEvent.pricedTicks tr = sendLoop symbols draws ∧
      ∃ latestPrices, p.latestPrices = .ok latestPrices ∧
        ∀ price, latestPrices (ascii "ESZ4") = some price → price = 9003 / 2 := by
  intro draws
  have hwalk : (walk symbols ⟨4, 1, 7⟩ 4).currentPrice = 9003 / 2 := by
    have hstep : toDouble (1 * (150 / 100)) = 3 / 2 := by
      rw [show (1 * (150 / 100) : ℚ) = 3 / 2 by norm_num]
      exact roundTo_eq (by norm_num) ⟨3, -1, by norm_num, by norm_num⟩
    have hsum : toDouble (4500 + 3 / 2) = 9003 / 2 := by
      rw [show (4500 + 3 / 2 : ℚ) = 9003 / 2 by norm_num]
      exact roundTo_eq (by norm_num) ⟨9003, -1, by norm_num, by norm_num⟩
    have habove : ¬ (9003 / 2 : ℚ) < toDouble (1 / 100) := by
      have hcent := toDouble_cent.2
      linarith
    show (if toDouble (4500 + toDouble (1 * (150 / 100))) < toDouble (1 / 100) then (4500 : ℚ)
      else toDouble (4500 + toDouble (1 * (150 / 100)))) = _
    rw [hstep, hsum, if_neg habove]
  let sent : Tick := tickOf (walk symbols ⟨4, 1, 7⟩ 4) 7
  have hloop : sendLoop symbols draws = [sent] := rfl
  have hquote : Quote sent := quote_of_mem_sendLoop sound_symbols sent (hloop ▸ List.mem_singleton_self _)
  have hask : sent.ask < 2 ^ (1024 : ℤ) := by
    have hle : sent.ask ≤ 5000 := by
      rw [hquote.ask, show sent.last = 9003 / 2 from hwalk]
      refine roundTo_le (by norm_num) ⟨5000, 0, by norm_num, by norm_num⟩ ?_
      have hcent := toDouble_cent.2
      linarith
    calc sent.ask ≤ 5000 := hle
      _ ≤ 2 ^ (13 : ℤ) := by norm_num
      _ < 2 ^ (1024 : ℤ) := zpow_lt_zpow_right₀ (by norm_num) (by norm_num)
  have hrange : ∀ tick ∈ sendLoop symbols draws, tick.ask < 2 ^ (1024 : ℤ) := by
    rw [hloop]
    exact List.forall_mem_singleton.mpr hask
  have hnumeric := hquote.numeric hask
  have hroute : Process.route readDouble sent.toBytes = [.ofBytes readDouble sent.toBytes] := by
    rw [Tick.ofBytes_toBytes hnumeric]
    exact route_toBytes hquote hnumeric
  obtain ⟨tr, p, hexec, hreceived, hpriced⟩ := Process.exec_one_tick readDouble (fun _ => ⟨0, 0, 0, 0, 0⟩)
    (fun _ => ⟨0, 0, 0, 0, 0, .buy, 0, 0⟩) (Tick.length_toBytes sent) hroute
  have hsent : ∀ buffer ∈ ProcessEvent.received tr,
      ∃ tick ∈ sendLoop symbols draws, buffer = tick.toBytes := by
    rw [hreceived, hloop]
    simp
  obtain ⟨ticks, hticks, -, -, latestPrices, hprices, hcache⟩ := sendLoop_received hrange hexec hsent
  refine ⟨tr, p, hexec, by rw [hreceived, hloop]; rfl, ?_, latestPrices, hprices, fun price hprice => ?_⟩
  · rw [hpriced, Tick.ofBytes_toBytes hnumeric, hloop]
  · obtain ⟨tick, hmem, -, -, -, rfl⟩ := hcache _ _ hprice
    have hsame := hticks tick hmem
    rw [hloop] at hsame
    rw [List.mem_singleton.mp hsame]
    exact hwalk

end UdpTickSimulator

end TradingSim
