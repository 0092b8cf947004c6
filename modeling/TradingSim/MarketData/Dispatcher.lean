import TradingSim.OrderBook.Quotes

/-!
`MarketDispatcher`: ticks are handed to the callbacks subscribed under their symbol.

Subscriptions are kept under the eight bytes of a symbol field. The dispatcher fills such a field from a
string with `memcpy`, up to eight bytes (`subscribedField`); the sender of the ticks uses `strncpy`, up
to seven (`sym8`). A tick goes to the subscriptions whose field is its own (`dispatch_eq`), and the two
ways to fill it agree on strings of at most seven bytes (`subscribedField_eq_iff`). A longer string is
cut differently on the two sides: its subscribers never see its ticks, and those of its first seven bytes
do. The ticks of a string are routed as they should be exactly where the subscriptions are told apart by
the two fields (`MarketDispatcher.tick_routing`).
-/

namespace TradingSim

/-- `Tick`. -/
structure Tick where
  symbol : CharArray 8
  bid : ℚ
  ask : ℚ
  last : ℚ
  timestampNs : Int64
  deriving DecidableEq

/-- The tick with its symbol filled as by the sender. -/
def Tick.filled (tick : Tick) (symbol : List UInt8) : Tick := { tick with symbol := sym8 symbol }

/-- `char sym8[8] = {}; memcpy(sym8, symbol.c_str(), min(symbol.size(), sizeof(sym8)))`. -/
def subscribedField (symbol : List UInt8) : CharArray 8 := .pad (symbol.take 8)

/-- `MarketDispatcher`: the map `callbacks_`. -/
structure MarketDispatcher (β : Type) where
  callbacks : UInt64 → Option (List β)

namespace MarketDispatcher

variable {β : Type}

def new : MarketDispatcher β := ⟨fun _ => none⟩

/-- `subscribe`. -/
def subscribe (d : MarketDispatcher β) (symbol : List UInt8) (callback : β) : MarketDispatcher β :=
  if symbol ≠ [] then
    let key := symKey (subscribedField symbol)
    ⟨Function.update d.callbacks key (some ((d.callbacks key).getD [] ++ [callback]))⟩
  else d

/-- `dispatch`: the calls that are made, in their order. -/
def dispatch (d : MarketDispatcher β) (tick : Tick) : List (β × Tick) :=
  match d.callbacks (symKey tick.symbol) with
  | none => []
  | some callbacks => callbacks.map fun callback => (callback, tick)

/-- `subscriberCount`. -/
def subscriberCount (d : MarketDispatcher β) (symbol : List UInt8) : Int32 :=
  match d.callbacks (symKey (subscribedField symbol)) with
  | none => 0
  | some callbacks => Int32.ofNat callbacks.length

/-- A sequence of calls of `subscribe`. -/
def subscribeAll (subs : List (List UInt8 × β)) : MarketDispatcher β :=
  subs.foldl (fun d sub => d.subscribe sub.1 sub.2) new

/-- The callbacks subscribed under strings with the property, in the order of the subscriptions. -/
def under (P : List UInt8 → Prop) [DecidablePred P] (subs : List (List UInt8 × β)) : List β :=
  (subs.filter fun sub => P sub.1).map Prod.snd

/-- The ticks of `s` go to the callbacks subscribed under `s`, once for each subscription, in their order
and unchanged, and those are counted. -/
def Routed (subs : List (List UInt8 × β)) (s : List UInt8) (tick : Tick) : Prop :=
  (subscribeAll subs).dispatch (tick.filled s) =
      (under (fun u => u = s) subs).map (·, tick.filled s) ∧
    ((subscribeAll subs).subscriberCount s).toInt = (under (fun u => u = s) subs).length

/-- The subscriptions that have the field of a tick of `s`, and those that have the field that is counted
for `s`, are those of `s`. -/
def ToldApart (subs : List (List UInt8 × β)) (s : List UInt8) : Prop :=
  ∀ sub ∈ subs, sub.1 ≠ [] →
    (subscribedField sub.1 = sym8 s ↔ sub.1 = s) ∧ (subscribedField sub.1 = subscribedField s ↔ sub.1 = s)

/-! ### Subscriptions -/

section Subscriptions

variable {P Q : List UInt8 → Prop} [DecidablePred P] [DecidablePred Q]

theorem under_snoc (subs : List (List UInt8 × β)) (sub : List UInt8 × β) :
    under P (subs ++ [sub]) = if P sub.1 then under P subs ++ [sub.2] else under P subs := by
  unfold under
  rw [List.filter_append, List.map_append]
  split
  · rename_i h
    simp [h]
  · rename_i h
    simp [h]

theorem under_congr {subs : List (List UInt8 × β)} (h : ∀ sub ∈ subs, P sub.1 ↔ Q sub.1) :
    under P subs = under Q subs := by
  unfold under
  rw [List.filter_congr fun sub hsub => decide_eq_decide.mpr (h sub hsub)]

theorem iff_of_under_eq {subs : List (List UInt8 × β)} (hnd : (subs.map Prod.snd).Nodup)
    (h : under P subs = under Q subs) {sub : List UInt8 × β} (hsub : sub ∈ subs) :
    P sub.1 ↔ Q sub.1 := by
  have hmem : ∀ (R : List UInt8 → Prop) [DecidablePred R], sub.2 ∈ under R subs ↔ R sub.1 := by
    intro R _
    constructor
    · intro hin
      obtain ⟨sub', hsub', heq⟩ := List.mem_map.mp hin
      obtain ⟨hin', hR⟩ := List.mem_filter.mp hsub'
      rw [← List.inj_on_of_nodup_map hnd hin' hsub heq]
      simpa using hR
    · intro hR
      exact List.mem_map.mpr ⟨sub, List.mem_filter.mpr ⟨hsub, by simpa using hR⟩, rfl⟩
  rw [← hmem P, h, hmem Q]

theorem iff_of_length_under_eq {subs : List (List UInt8 × β)} (hPQ : ∀ u, P u → Q u)
    (h : (under P subs).length = (under Q subs).length) {sub : List UInt8 × β} (hsub : sub ∈ subs) :
    P sub.1 ↔ Q sub.1 := by
  refine ⟨hPQ sub.1, fun hQ => ?_⟩
  have hsublist : (subs.filter fun sub => P sub.1).Sublist (subs.filter fun sub => Q sub.1) :=
    List.monotone_filter_right subs fun sub hP => by simpa using hPQ sub.1 (by simpa using hP)
  rw [under, under, List.length_map, List.length_map] at h
  have hmem : sub ∈ subs.filter fun sub => P sub.1 := by
    rw [hsublist.eq_of_length h]
    exact List.mem_filter.mpr ⟨hsub, by simpa using hQ⟩
  simpa using (List.mem_filter.mp hmem).2

theorem callbacks_subscribeAll (subs : List (List UInt8 × β)) (field : CharArray 8) :
    ((subscribeAll subs).callbacks (symKey field)).getD [] =
      under (fun u => u ≠ [] ∧ subscribedField u = field) subs := by
  induction subs using List.reverseRecOn with
  | nil => rfl
  | append_singleton subs sub ih =>
    obtain ⟨u, callback⟩ := sub
    have hstep : subscribeAll (subs ++ [(u, callback)]) = (subscribeAll subs).subscribe u callback := by
      rw [subscribeAll, List.foldl_append]
      rfl
    rw [hstep, under_snoc, subscribe]
    by_cases hu : u = []
    · rw [if_neg (not_not.mpr hu), if_neg fun h => h.1 hu, ih]
    rw [if_pos hu]
    dsimp only
    by_cases hfield : subscribedField u = field
    · subst hfield
      rw [if_pos ⟨hu, rfl⟩, Function.update_self, Option.getD_some, ih]
    · have hkey : symKey field ≠ symKey (subscribedField u) := fun e =>
        hfield (symKey_injective e).symm
      rw [if_neg fun h => hfield h.2, Function.update_of_ne hkey, ih]

/-- **A tick** goes to the subscriptions with its field. -/
theorem dispatch_eq (subs : List (List UInt8 × β)) (tick : Tick) :
    (subscribeAll subs).dispatch tick =
      (under (fun u => u ≠ [] ∧ subscribedField u = tick.symbol) subs).map (·, tick) := by
  rw [← callbacks_subscribeAll, dispatch]
  cases (subscribeAll subs).callbacks (symKey tick.symbol) <;> rfl

theorem subscriberCount_eq (subs : List (List UInt8 × β)) (s : List UInt8) :
    (subscribeAll subs).subscriberCount s =
      Int32.ofNat (under (fun u => u ≠ [] ∧ subscribedField u = subscribedField s) subs).length := by
  rw [← callbacks_subscribeAll, subscriberCount]
  cases (subscribeAll subs).callbacks (symKey (subscribedField s)) <;> rfl

end Subscriptions

/-! ### The two ways to fill a field -/

section Field

variable {s u : List UInt8}

theorem pad_inj {l l' : List UInt8} (hlen : l.length ≤ 8) (hlen' : l'.length ≤ 8) (h : 0 ∉ l)
    (h' : 0 ∉ l') : (CharArray.pad l : CharArray 8) = .pad l' ↔ l = l' := by
  refine ⟨fun e => ?_, fun e => e ▸ rfl⟩
  rw [← CharArray.text_pad hlen h, ← CharArray.text_pad hlen' h', e]

theorem sym8_eq (hs : 0 ∉ s) : sym8 s = .pad (s.take 7) := by
  have hall : s.takeWhile (· ≠ 0) = s := by
    rw [List.takeWhile_eq_self_iff]
    exact fun c hc => decide_eq_true fun e => hs (e ▸ hc)
  rw [sym8, hall]

theorem subscribedField_eq_iff (hs : 0 ∉ s) (hu : 0 ∉ u) :
    subscribedField u = sym8 s ↔ u = s.take 7 := by
  rw [sym8_eq hs, subscribedField, pad_inj (by simp) (by simp)
    (fun h => hu (List.mem_of_mem_take h)) fun h => hs (List.mem_of_mem_take h)]
  constructor
  · intro h
    have hlen := congrArg List.length h
    rw [List.length_take, List.length_take] at hlen
    rwa [List.take_of_length_le (by omega)] at h
  · rintro rfl
    rw [List.take_take, min_eq_right (by norm_num)]

end Field

section Routing

variable {subs : List (List UInt8 × β)} {s : List UInt8} {tick : Tick}

theorem subscriberCount_toInt (hfew : subs.length < 2 ^ 31) :
    ((subscribeAll subs).subscriberCount s).toInt =
      (under (fun u => u ≠ [] ∧ subscribedField u = subscribedField s) subs).length := by
  rw [subscriberCount_eq, Int32.toInt_ofNat_of_lt]
  rw [under, List.length_map]
  exact (List.length_filter_le _ _).trans_lt hfew

theorem ToldApart.routed (h : ToldApart subs s) (hne : s ≠ []) (hfew : subs.length < 2 ^ 31) :
    Routed subs s tick := by
  refine ⟨?_, ?_⟩
  · rw [dispatch_eq]
    have hticks : under (fun u => u ≠ [] ∧ subscribedField u = sym8 s) subs =
        under (fun u => u = s) subs := under_congr fun sub hsub =>
      ⟨fun hu => ((h sub hsub hu.1).1).mp hu.2,
        fun hu => ⟨hu ▸ hne, ((h sub hsub (hu ▸ hne)).1).mpr hu⟩⟩
    exact congrArg (List.map (·, tick.filled s)) hticks
  · have hcount : under (fun u => u ≠ [] ∧ subscribedField u = subscribedField s) subs =
        under (fun u => u = s) subs := under_congr fun sub hsub =>
      ⟨fun hu => ((h sub hsub hu.1).2).mp hu.2, fun hu => ⟨hu ▸ hne, congrArg subscribedField hu⟩⟩
    rw [subscriberCount_toInt hfew, hcount]

theorem Routed.toldApart (h : Routed subs s tick) (hne : s ≠ []) (hnd : (subs.map Prod.snd).Nodup)
    (hfew : subs.length < 2 ^ 31) : ToldApart subs s := by
  obtain ⟨hticks, hcount⟩ := h
  intro sub hsub hu
  constructor
  · rw [dispatch_eq] at hticks
    have hunder : under (fun u => u ≠ [] ∧ subscribedField u = sym8 s) subs =
        under (fun u => u = s) subs :=
      List.map_injective_iff.mpr (fun _ _ e => congrArg Prod.fst e) hticks
    rw [← iff_of_under_eq hnd hunder hsub]
    exact (and_iff_right hu).symm
  · rw [subscriberCount_toInt hfew, Int.natCast_inj] at hcount
    rw [iff_of_length_under_eq (P := fun u => u = s)
      (fun u hu => ⟨hu ▸ hne, congrArg subscribedField hu⟩) hcount.symm hsub]
    exact (and_iff_right hu).symm

theorem toldApart_of_length (hs : 0 ∉ s) (hsubs : ∀ sub ∈ subs, 0 ∉ sub.1) (hlen : s.length ≤ 7) :
    ToldApart subs s := by
  have hshort : s.take 7 = s := List.take_of_length_le hlen
  have hsame : subscribedField s = sym8 s := (subscribedField_eq_iff hs hs).mpr hshort.symm
  intro sub hsub _
  have hfield := subscribedField_eq_iff hs (hsubs sub hsub)
  rw [hshort] at hfield
  exact ⟨hfield, hsame ▸ hfield⟩

end Routing

/-- **Tick routing.** After every sequence of subscriptions, a tick of `s` goes, once each, in order and
unchanged, to the callbacks whose string fills the field as the sender does, and the count is of those
whose string fills it as `subscribe` does. The ticks are routed as they should be if `s` is told apart
by the two fields, and only then if no two callbacks are the same. If no subscribed string has a NUL, the
ticks go to the subscribers of the first seven bytes of `s`, and an `s` of at most seven bytes is told
apart. -/
theorem tick_routing (subs : List (List UInt8 × β)) (s : List UInt8) (hs : s ≠ [] ∧ 0 ∉ s)
    (tick : Tick) :
    (subscribeAll subs).dispatch (tick.filled s) =
      (under (fun u => u ≠ [] ∧ subscribedField u = sym8 s) subs).map (·, tick.filled s) ∧
    (subscribeAll subs).subscriberCount s =
      Int32.ofNat (under (fun u => u ≠ [] ∧ subscribedField u = subscribedField s) subs).length ∧
    (subs.length < 2 ^ 31 → (ToldApart subs s → Routed subs s tick) ∧
      ((subs.map Prod.snd).Nodup → (Routed subs s tick ↔ ToldApart subs s))) ∧
    ((∀ sub ∈ subs, 0 ∉ sub.1) →
      (subscribeAll subs).dispatch (tick.filled s) =
        (under (fun u => u = s.take 7) subs).map (·, tick.filled s) ∧
      (s.length ≤ 7 → ToldApart subs s)) := by
  obtain ⟨hne, hnul⟩ := hs
  have hdispatch := dispatch_eq subs (tick.filled s)
  refine ⟨hdispatch, subscriberCount_eq subs s, fun hfew => ⟨fun h => h.routed hne hfew,
    fun hnd => ⟨fun h => h.toldApart hne hnd hfew, fun h => h.routed hne hfew⟩⟩,
    fun hsubs => ⟨?_, toldApart_of_length hnul hsubs⟩⟩
  have hseven : s.take 7 ≠ [] := by simpa using hne
  have hfield : under (fun u => u ≠ [] ∧ subscribedField u = sym8 s) subs =
      under (fun u => u = s.take 7) subs := by
    apply under_congr
    intro sub hsub
    rw [subscribedField_eq_iff hnul (hsubs sub hsub)]
    exact and_iff_right_of_imp fun e => e ▸ hseven
  rw [hdispatch, ← hfield]
  rfl

/-- Two subscribers of one symbol and one of another. -/
theorem tick_routing_two :
    let tick : Tick := ⟨fun _ => 0, 99, 101, 100, 0⟩
    (subscribeAll [([65], 0), ([66], 1), ([65], 2)]).dispatch (tick.filled [65]) =
        [(0, tick.filled [65]), (2, tick.filled [65])] ∧
      ((subscribeAll [([65], 0), ([66], 1), ([65], 2)]).subscriberCount [65]).toInt = 2 := by
  intro tick
  have hrouting := tick_routing [([65], 0), ([66], 1), ([65], 2)] [65] (by decide) tick
  exact (hrouting.2.2.1 (by decide)).1 ((hrouting.2.2.2 (by decide)).2 (by decide))

/-- The tick of a symbol of eight bytes goes to the subscriber of its first seven, and not to its own,
which is counted. -/
theorem tick_routing_fails :
    let tick : Tick := ⟨fun _ => 0, 99, 101, 100, 0⟩
    let eight : List UInt8 := [65, 66, 67, 68, 69, 70, 71, 72]
    let d := subscribeAll [(eight, 0), (eight.take 7, 1)]
    d.dispatch (tick.filled eight) = [(1, tick.filled eight)] ∧ d.subscriberCount eight = 1 := by
  intro tick eight d
  rw [dispatch_eq, subscriberCount_eq]
  exact ⟨by decide, by decide⟩

end MarketDispatcher

end TradingSim
