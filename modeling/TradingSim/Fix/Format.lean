import Mathlib.Data.List.TakeWhile
import Mathlib.Data.Nat.Digits.Lemmas
import TradingSim.Fix.Quantity
import TradingSim.Lib.Interleave

/-!
Lines as a writer of New Order Singles makes them, and that `parseFixLine` reads them back. The five
fields stand in any order and other fields anywhere between them (`parseFixLine_format`).
-/

namespace TradingSim

open Lib

namespace FixSessionReader

/-! ### Texts of numbers -/

/-- The byte of a decimal digit. -/
def digitByte (d : ℕ) : UInt8 := UInt8.ofNat (48 + d)

/-- A natural number as it is written. -/
def decimal (n : ℕ) : List UInt8 :=
  if n = 0 then [48] else (Nat.digits 10 n).reverse.map digitByte

/-- A decimal text: a sign, digits, and a fraction. -/
structure DecimalText where
  negative : Bool
  whole : List (Fin 10)
  fraction : Option (List (Fin 10))

namespace DecimalText

def bytes (text : DecimalText) : List UInt8 :=
  (if text.negative then [45] else []) ++ text.whole.map (fun d : Fin 10 => digitByte d) ++
    (text.fraction.map fun ds => 46 :: ds.map fun d : Fin 10 => digitByte d).getD []

/-- The number that a string of digits stands for. -/
def number (ds : List (Fin 10)) : ℕ := Nat.ofDigits 10 (ds.reverse.map Fin.val)

def value (text : DecimalText) : ℚ :=
  (if text.negative then -1 else 1) * (number text.whole +
    (text.fraction.map fun ds => (number ds : ℚ) / 10 ^ ds.length).getD 0)

end DecimalText

section Digits

variable {d n : ℕ}

theorem toNat_digitByte (h : d < 10) : (digitByte d).toNat = 48 + d := by
  rw [digitByte, UInt8.toNat_ofNat']
  omega

theorem isDigit_digitByte (h : d < 10) : IsDigit (digitByte d) := by
  rw [IsDigit, toNat_digitByte h]
  omega

theorem IsDigit.ne_bar {c : UInt8} (h : IsDigit c) : c ≠ 124 := by
  rintro rfl
  exact absurd h.2 (by decide)

theorem decimal_denotes (n : ℕ) : Denotes (decimal n) n := by
  have hlt : ∀ d ∈ Nat.digits 10 n, d < 10 := fun d hd => Nat.digits_lt_base (by norm_num) hd
  unfold decimal
  split
  · rename_i hn
    rw [hn]
    exact ⟨by simp, by simp [IsDigit], by simp⟩
  · rename_i hn
    refine ⟨by simpa [Nat.digits_eq_nil_iff_eq_zero] using hn, ?_, ?_⟩
    · simp only [List.mem_map, List.mem_reverse]
      rintro _ ⟨d, hd, rfl⟩
      exact isDigit_digitByte (hlt d hd)
    · rw [← List.map_reverse, List.reverse_reverse, List.map_map]
      have hmap : (Nat.digits 10 n).map ((fun c : UInt8 => c.toNat - 48) ∘ digitByte) =
          Nat.digits 10 n := by
        refine (List.map_congr_left fun d hd => ?_).trans (List.map_id _)
        rw [Function.comp_apply, toNat_digitByte (hlt d hd)]
        simp
      rw [hmap, Nat.ofDigits_digits]

theorem decimal_digits (n : ℕ) : ∀ b ∈ decimal n, IsDigit b := (decimal_denotes n).2.1

theorem length_decimal {n k : ℕ} (hk : 0 < k) (h : n < 10 ^ k) : (decimal n).length ≤ k := by
  unfold decimal
  split
  · exact hk
  · rw [List.length_map, List.length_reverse, Nat.digits_length_le_iff (by norm_num)]
    exact h

/-- A natural number with zeros before it: `setw` and `setfill('0')`. -/
def padded (width n : ℕ) : List UInt8 := List.replicate (width - (decimal n).length) 48 ++ decimal n

theorem padded_digits (width n : ℕ) : ∀ b ∈ padded width n, IsDigit b := by
  intro b hb
  rcases List.mem_append.mp hb with hb | hb
  · obtain rfl := List.eq_of_mem_replicate hb
    exact ⟨by decide, by decide⟩
  · exact decimal_digits n b hb

theorem length_padded {width n : ℕ} (hwidth : 0 < width) (h : n < 10 ^ width) :
    (padded width n).length = width := by
  have hle : (decimal n).length ≤ width := length_decimal hwidth h
  rw [padded, List.length_append, List.length_replicate]
  omega

theorem DecimalText.bar_not_mem (text : DecimalText) : 124 ∉ text.bytes := by
  have hdigits : ∀ ds : List (Fin 10), 124 ∉ ds.map fun d : Fin 10 => digitByte d := by
    intro ds hmem
    obtain ⟨d, -, hd⟩ := List.mem_map.mp hmem
    exact (isDigit_digitByte d.isLt).ne_bar hd
  unfold DecimalText.bytes
  rw [List.mem_append, List.mem_append]
  rintro ((hsign | hwhole) | hfrac)
  · split at hsign <;> simp at hsign
  · exact hdigits _ hwhole
  · cases hf : text.fraction with
    | none => simp [hf] at hfrac
    | some ds =>
      rw [hf, Option.map_some, Option.getD_some, List.mem_cons] at hfrac
      exact hfrac.elim (by decide) (hdigits ds)

end Digits

/-! ### Messages -/

/-- The terms of an order that can be written: texts that fit into the arrays of an order and have no
`|` or NUL in them, a price that fits into the buffer of the parser, and a quantity of `int32_t`. -/
structure Message where
  id : List UInt8
  symbol : List UInt8
  orderType : OrderType
  price : DecimalText
  quantity : ℕ
  id_length : id.length ≤ 15
  symbol_length : symbol.length ≤ 7
  id_text : 124 ∉ id ∧ 0 ∉ id
  symbol_text : 124 ∉ symbol ∧ 0 ∉ symbol
  price_length : price.bytes.length ≤ 31
  quantity_le : quantity ≤ 2147483647

/-- The five fields of a message. -/
def Message.fields (m : Message) : List Field :=
  [(tagId, m.id), (tagSymbol, m.symbol),
    (tagSide, match m.orderType with
      | .buy => [49]
      | .sell => [50]),
    (tagPrice, m.price.bytes), (tagQuantity, decimal m.quantity)]

/-- A field that can be written. -/
structure Writable (field : Field) : Prop where
  eq_tag : 61 ∉ field.1
  bar_tag : 124 ∉ field.1
  bar_val : 124 ∉ field.2

/-- The `|`-joined line of the fields. -/
def format (fs : List Field) : List UInt8 := join (fs.map fun field => field.1 ++ 61 :: field.2)

section Format

variable {fs five foreign : List Field} {m : Message}

theorem Message.tag_mem (m : Message) : ∀ field ∈ m.fields, field.1 ∈ knownTags := by
  simp [Message.fields, knownTags]

theorem Message.writable (m : Message) : ∀ field ∈ m.fields, Writable field := by
  have htags : ∀ tag ∈ knownTags, 61 ∉ tag ∧ 124 ∉ tag := by decide
  intro field hfield
  refine ⟨(htags _ (m.tag_mem field hfield)).1, (htags _ (m.tag_mem field hfield)).2, ?_⟩
  simp only [Message.fields, List.mem_cons, List.not_mem_nil, or_false] at hfield
  rcases hfield with rfl | rfl | rfl | rfl | rfl
  · exact m.id_text.1
  · exact m.symbol_text.1
  · cases m.orderType <;> decide
  · exact m.price.bar_not_mem
  · exact fun hmem => ((decimal_denotes m.quantity).2.1 _ hmem).ne_bar rfl

theorem valuesOf_merge {tag val : List UInt8} (hperm : five.Perm m.fields)
    (hmerge : Interleave five foreign fs) (hforeign : ∀ field ∈ foreign, field.1 ∉ knownTags)
    (htag : tag ∈ knownTags) (hval : valuesOf tag m.fields = [val]) : valuesOf tag fs = [val] := by
  have hknown : fs.filter (fun field => field.1 ∈ knownTags) = five := by
    refine hmerge.filter_eq (fun field hfield => ?_) fun field hfield => ?_
    · exact decide_eq_true (m.tag_mem field (hperm.mem_iff.mp hfield))
    · exact decide_eq_false (hforeign field hfield)
  rw [← valuesOf_filter htag, hknown, ← List.perm_singleton, ← hval]
  exact (hperm.filter _).map _

theorem readFields_format (h : ∀ field ∈ fs, Writable field) : readFields (format fs) = fs := by
  rw [format, readFields_join]
  · induction fs with
    | nil => rfl
    | cons field fs ih =>
      obtain ⟨hfield, hfs⟩ := List.forall_mem_cons.mp h
      rw [List.map_cons, scan, memchr_append hfield.eq_tag]
      simp only [Bool.false_eq_true, if_false, ih hfs]
  · intro seg hseg
    obtain ⟨field, hfield, rfl⟩ := List.mem_map.mp hseg
    have hw := h field hfield
    simp [hw.bar_tag, hw.bar_val]

theorem stored_eq {size : ℕ} {val : List UInt8} (hlen : val.length ≤ size) (hnul : 0 ∉ val) :
    stored size val = val := by
  rw [stored, List.take_of_length_le hlen, List.takeWhile_eq_self_iff]
  exact fun c hc => decide_eq_true fun e : c = 0 => hnul (e ▸ hc)

/-- **Parsing undoes formatting**, whatever the order of the five fields and whatever other fields
stand between them. -/
theorem parseFixLine_format (atof : List UInt8 → ℚ) (arrivalNs : Int64) (m : Message)
    (five foreign fs : List Field) (hperm : five.Perm m.fields)
    (hmerge : Interleave five foreign fs)
    (hforeign : ∀ field ∈ foreign, field.1 ∉ knownTags ∧ Writable field)
    (hatof : atof m.price.bytes = m.price.value) :
    ∃ order, parseFixLine atof arrivalNs (format fs) = .ok order ∧
      order.id.text = m.id ∧ order.symbol.text = m.symbol ∧ order.orderType = m.orderType ∧
      order.price = m.price.value ∧ order.quantity.toInt = m.quantity := by
  have hfields : readFields (format fs) = fs := readFields_format fun field hfield => by
    rcases hmerge.mem hfield with h | h
    · exact m.writable field (hperm.mem_iff.mp h)
    · exact (hforeign field h).2
  have hreading := readOrder_reading atof arrivalNs (format fs)
  have hvals : ∀ tag val, tag ∈ knownTags → valuesOf tag m.fields = [val] →
      valuesOf tag fs = [val] :=
    fun tag val htag hval => valuesOf_merge hperm hmerge (fun field h => (hforeign field h).1) htag hval
  have hside : ∀ ty : OrderType, sideOf (match ty with | .buy => [49] | .sell => [50]) = ty := by
    intro ty
    cases ty <;> rfl
  simp only [hfields, readingOf, hvals tagId _ (by decide) rfl,
    hvals tagSymbol _ (by decide) rfl, hvals tagSide _ (by decide) rfl,
    hvals tagPrice _ (by decide) rfl, hvals tagQuantity _ (by decide) rfl,
    Order.reading, Reading.mk.injEq, List.getLast?_singleton, Option.map_some, Option.getD_some,
    stored_eq m.id_length m.id_text.2, stored_eq m.symbol_length m.symbol_text.2, hside,
    List.take_of_length_le m.price_length, hatof] at hreading
  obtain ⟨hid, hsymbol, hty, hprice, hquantity⟩ := hreading
  refine ⟨_, parseFixLine_eq atof arrivalNs _, hid, hsymbol, hty, hprice, ?_⟩
  rw [hquantity]
  exact (decimal_denotes m.quantity).toInt_digits m.quantity_le

end Format

/-- The line `55=B|35=D|11=A|54=2|44=1.5|38=70`. -/
theorem parseFixLine_format_line :
    ∃ order, parseFixLine (fun _ => 3 / 2) 0
        [53, 53, 61, 66, 124, 51, 53, 61, 68, 124, 49, 49, 61, 65, 124, 53, 52, 61, 50, 124,
          52, 52, 61, 49, 46, 53, 124, 51, 56, 61, 55, 48] = .ok order ∧
      order.id.text = [65] ∧ order.symbol.text = [66] ∧ order.orderType = .sell ∧
      order.price = 3 / 2 ∧ order.quantity.toInt = 70 := by
  let m : Message :=
    { id := [65], symbol := [66], orderType := .sell, price := ⟨false, [1], some [5]⟩, quantity := 70
      id_length := by decide, symbol_length := by decide, id_text := by decide
      symbol_text := by decide, price_length := by decide, quantity_le := by decide }
  have hvalue : m.price.value = 3 / 2 := by norm_num [m, DecimalText.value, DecimalText.number]
  obtain ⟨order, hparse, hid, hsymbol, hty, hprice, hquantity⟩ :=
    parseFixLine_format (fun _ => 3 / 2) 0 m
      [(tagSymbol, [66]), (tagId, [65]), (tagSide, [50]), (tagPrice, m.price.bytes),
        (tagQuantity, decimal 70)] [([51, 53], [68])] _
      (List.Perm.swap _ _ _) (.left (.right (.left (.left (.left (.left .nil))))))
      (by
        rintro field hfield
        obtain rfl := List.mem_singleton.mp hfield
        exact ⟨by decide, by decide, by decide, by decide⟩)
      hvalue.symm
  refine ⟨order, ?_, hid, hsymbol, hty, hprice.trans hvalue, hquantity⟩
  rw [← hparse]
  congr 1

end FixSessionReader

end TradingSim
