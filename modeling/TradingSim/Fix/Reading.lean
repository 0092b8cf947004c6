import Mathlib.Data.List.GetD
import TradingSim.Fix.Fields
import TradingSim.Lib.Events

/-!
What an order says, field by field: of each tag the last value that was read, or the zero of the
blank order. `readOrder_reading` says it of the fields that `parseFixLine` finds.

The reading that cuts the line at every `|` (`reference`) takes it of all fields of the line. The two
differ in the fields behind a segment without `=`, which the parser loses. They agree where no tag loses
its last field, or loses one that says what is read without it, and where a segment without `=` can be
left out is a matter of the one field behind it (`parseFixLine_local`).
-/

namespace TradingSim

open Lib

namespace FixSessionReader

/-! ### Values -/

/-- The values of a tag, in the order of the fields. -/
def valuesOf (tag : List UInt8) (fs : List Field) : List (List UInt8) :=
  (fs.filter fun field => field.1 = tag).map Prod.snd

/-- The side that a value of tag 54 stands for. -/
def sideOf (val : List UInt8) : OrderType := if val.head? = some 49 then .buy else .sell

section SetField

variable (atof : List UInt8 → ℚ) (order : Order) (tag val : List UInt8)

theorem setField_id : (setField atof order tag val).id =
    if tag = tagId then copyInto order.id val else order.id := by
  unfold setField tagId
  split_ifs <;> rfl

theorem setField_symbol : (setField atof order tag val).symbol =
    if tag = tagSymbol then copyInto order.symbol val else order.symbol := by
  unfold setField tagSymbol
  split_ifs <;> simp_all

theorem setField_orderType : (setField atof order tag val).orderType =
    if tag = tagSide then sideOf val else order.orderType := by
  unfold setField tagSide
  split_ifs <;> simp_all [sideOf]

theorem setField_price : (setField atof order tag val).price =
    if tag = tagPrice then atof (val.take 31) else order.price := by
  unfold setField tagPrice
  split_ifs <;> simp_all

theorem setField_quantity : (setField atof order tag val).quantity =
    if tag = tagQuantity then digits val else order.quantity := by
  unfold setField tagQuantity
  split_ifs <;> simp_all

end SetField

section Values

variable (atof : List UInt8 → ℚ) {β : Type*} {tag : List UInt8}

theorem setFields_proj {g : Order → β} {u : β → List UInt8 → β}
    (h : ∀ order t val, g (setField atof order t val) = if t = tag then u (g order) val else g order)
    (order : Order) (fs : List Field) :
    g (setFields atof order fs) = (valuesOf tag fs).foldl u (g order) := by
  have hvalues : valuesOf tag fs = fs.filterMap fun f => if f.1 = tag then some f.2 else none := by
    rw [valuesOf, ← List.filterMap_eq_map, List.filterMap_filter]
    simp
  rw [hvalues]
  refine foldl_proj (fun order f => ?_) fs order
  rw [h]
  by_cases hf : f.1 = tag <;> simp [hf]

end Values

/-! ### The reading of an order -/

/-- What an order says: the texts of its character arrays and its numbers. -/
structure Reading where
  id : List UInt8
  symbol : List UInt8
  orderType : OrderType
  price : ℚ
  quantity : Int32
  deriving DecidableEq

/-- The text that a character array with room for `size` bytes and a NUL keeps of a value. -/
def stored (size : ℕ) (val : List UInt8) : List UInt8 := (val.take size).takeWhile (· ≠ 0)

theorem ofFn_copyInto {n : ℕ} (dst : CharArray (n + 1)) (val : List UInt8) :
    List.ofFn (copyInto dst val) =
      val.take n ++ 0 :: (List.ofFn dst).drop (min val.length n + 1) := by
  have hlen : (val.take n).length = min val.length n := by rw [List.length_take, min_comm]
  refine List.ext_getElem ?_ fun i hi _ => ?_
  · simp only [List.length_ofFn, List.length_append, hlen, List.length_cons, List.length_drop]
    omega
  · rw [List.length_ofFn] at hi
    rw [List.getElem_ofFn, List.getElem_append]
    simp only [copyInto, Nat.add_sub_cancel, hlen]
    split_ifs with h1 h2
    · rw [List.getElem_take, List.getD_eq_getElem]
    · simp [h2]
    · obtain ⟨j, rfl⟩ : ∃ j, i = min val.length n + 1 + j := ⟨i - (min val.length n + 1), by omega⟩
      have hj : min val.length n + 1 + j - min val.length n = j + 1 := by omega
      simp only [hj, List.getElem_cons_succ, List.getElem_drop, List.getElem_ofFn]

theorem text_copyInto {n : ℕ} (dst : CharArray (n + 1)) (val : List UInt8) :
    (copyInto dst val).text = stored n val := by
  rw [CharArray.text, ofFn_copyInto, stored]
  generalize val.take n = kept
  induction kept with
  | nil => rfl
  | cons c kept ih =>
    rw [List.cons_append, List.takeWhile_cons, List.takeWhile_cons, ih]

end FixSessionReader

/-- The reading of an order. -/
def Order.reading (order : Order) : FixSessionReader.Reading where
  id := order.id.text
  symbol := order.symbol.text
  orderType := order.orderType
  price := order.price
  quantity := order.quantity

namespace FixSessionReader

/-- The reading in which the last occurrence of a tag wins. -/
def readingOf (atof : List UInt8 → ℚ) (fs : List Field) : Reading where
  id := ((valuesOf tagId fs).getLast?.map (stored 15)).getD []
  symbol := ((valuesOf tagSymbol fs).getLast?.map (stored 7)).getD []
  orderType := ((valuesOf tagSide fs).getLast?.map sideOf).getD .buy
  price := ((valuesOf tagPrice fs).getLast?.map fun val => atof (val.take 31)).getD 0
  quantity := ((valuesOf tagQuantity fs).getLast?.map digits).getD 0

section ReadOrder

variable (atof : List UInt8 → ℚ) (arrivalNs : Int64) (line : List UInt8)

theorem readOrder_symbol : (readOrder atof arrivalNs line).symbol =
    (valuesOf tagSymbol (readFields line)).foldl copyInto fun _ => 0 :=
  setFields_proj atof (g := Order.symbol) (setField_symbol atof) (blank arrivalNs) (readFields line)

theorem readOrder_quantity : (readOrder atof arrivalNs line).quantity =
    ((valuesOf tagQuantity (readFields line)).getLast?.map digits).getD 0 := by
  rw [← foldl_overwrite]
  exact setFields_proj atof (g := Order.quantity) (u := fun _ => digits) (setField_quantity atof)
    (blank arrivalNs) (readFields line)

/-- **What a line is read as**: of each tag the last value that the loop finds. -/
theorem readOrder_reading :
    (readOrder atof arrivalNs line).reading = readingOf atof (readFields line) := by
  have hid := setFields_proj atof (g := fun order => order.id.text) (u := fun _ => stored 15)
    (fun order tag val => by rw [setField_id, ← text_copyInto order.id val, apply_ite CharArray.text])
    (blank arrivalNs) (readFields line)
  have hsymbol := setFields_proj atof (g := fun order => order.symbol.text) (u := fun _ => stored 7)
    (fun order tag val => by
      rw [setField_symbol, ← text_copyInto order.symbol val, apply_ite CharArray.text])
    (blank arrivalNs) (readFields line)
  have hside := setFields_proj atof (g := Order.orderType) (u := fun _ => sideOf) (setField_orderType atof)
    (blank arrivalNs) (readFields line)
  have hprice := setFields_proj atof (g := Order.price) (u := fun _ val => atof (val.take 31))
    (setField_price atof) (blank arrivalNs) (readFields line)
  rw [foldl_overwrite] at hid hsymbol hside hprice
  rw [Order.reading, readingOf, readOrder_quantity, Reading.mk.injEq]
  exact ⟨hid, hsymbol, hside, hprice, rfl⟩

end ReadOrder

/-! ### Segments without `=` -/

/-- The last value of the tag. -/
def lastOf (tag : List UInt8) (fs : List Field) : Option (List UInt8) := (valuesOf tag fs).getLast?

/-- What a value of the tag says when it is read alone, or what is said without one. -/
def meaning (atof : List UInt8 → ℚ) (tag : List UInt8) (val : Option (List UInt8)) : Reading :=
  readingOf atof (val.toList.map fun v => (tag, v))

/-- The reading that cuts the line at every `|`. -/
def reference (atof : List UInt8 → ℚ) (line : List UInt8) : Reading := readingOf atof (fields line)

/-- The segment is no field of a tag that the parser knows. -/
def Foreign (seg : List UInt8) : Prop := ∀ field ∈ memchr 61 seg, field.1 ∉ knownTags

/-- The last field of the tag in the line does not stand behind a segment without `=`, or it says what
the last field of the tag that does not, or the absence of one, says. -/
def Survives (atof : List UInt8 → ℚ) (line tag : List UInt8) : Prop :=
  ∀ pre seg post val, segments line = pre ++ seg :: post → memchr 61 seg = some (tag, val) →
    (∀ later ∈ post, ∀ field ∈ memchr 61 later, field.1 ≠ tag) → (∃ bad ∈ pre.getLast?, 61 ∉ bad) →
    meaning atof tag (some val) = meaning atof tag (lastOf tag (readFields line))

/-- Between the two lists of segments there is one without `=`. The field behind it, which would be
read without it, has one of its tag that is read behind it, or says what the last one before it
says. -/
def Removable (atof : List UInt8 → ℚ) (pre post : List (List UInt8)) : Prop :=
  ∀ seg post' tag val, post = seg :: post' → memchr 61 seg = some (tag, val) → tag ∈ knownTags →
    (∀ prev ∈ pre.getLast?, 61 ∈ prev) →
    lastOf tag (scan false post') ≠ none ∨
      meaning atof tag (some val) = meaning atof tag (lastOf tag (scan false pre))

section Local

variable {atof : List UInt8 → ℚ} {tag bad seg val line : List UInt8} {field : Field} {fs gs : List Field}
  {pre post segs : List (List UInt8)}

theorem valuesOf_filter (h : tag ∈ knownTags) :
    valuesOf tag (fs.filter fun field => field.1 ∈ knownTags) = valuesOf tag fs := by
  rw [valuesOf, List.filter_filter, valuesOf]
  congr 1
  refine List.filter_congr fun field _ => ?_
  by_cases he : field.1 = tag
  · simp [he, h]
  · simp [he]

theorem lastOf_append (tag : List UInt8) (fs gs : List Field) :
    lastOf tag (fs ++ gs) = (lastOf tag gs).or (lastOf tag fs) := by
  rw [lastOf, valuesOf, List.filter_append, List.map_append, List.getLast?_append]
  rfl

theorem lastOf_cons_self (tag val : List UInt8) (fs : List Field) :
    lastOf tag ((tag, val) :: fs) = (lastOf tag fs).or (some val) := by
  rw [← List.singleton_append, lastOf_append]
  simp [lastOf, valuesOf]

theorem lastOf_cons_of_ne (h : field.1 ≠ tag) : lastOf tag (field :: fs) = lastOf tag fs := by
  rw [lastOf, valuesOf, List.filter_cons_of_neg (by simpa using h)]
  rfl

theorem lastOf_eq_none (h : ∀ field ∈ fs, field.1 ≠ tag) : lastOf tag fs = none := by
  rw [lastOf, List.getLast?_eq_none_iff, valuesOf, List.map_eq_nil_iff, List.filter_eq_nil_iff]
  exact fun field hfield => by simpa using h field hfield

theorem readingOf_eq_iff : readingOf atof fs = readingOf atof gs ↔
    ∀ tag ∈ knownTags, meaning atof tag (lastOf tag fs) = meaning atof tag (lastOf tag gs) := by
  have hid : ∀ val, meaning atof tagId val = ⟨(val.map (stored 15)).getD [], [], .buy, 0, 0⟩ :=
    fun val => by cases val <;> rfl
  have hsymbol : ∀ val, meaning atof tagSymbol val = ⟨[], (val.map (stored 7)).getD [], .buy, 0, 0⟩ :=
    fun val => by cases val <;> rfl
  have hside : ∀ val, meaning atof tagSide val = ⟨[], [], (val.map sideOf).getD .buy, 0, 0⟩ :=
    fun val => by cases val <;> rfl
  have hprice : ∀ val, meaning atof tagPrice val =
      ⟨[], [], .buy, (val.map fun v => atof (v.take 31)).getD 0, 0⟩ :=
    fun val => by cases val <;> rfl
  have hquantity : ∀ val, meaning atof tagQuantity val = ⟨[], [], .buy, 0, (val.map digits).getD 0⟩ :=
    fun val => by cases val <;> rfl
  simp only [knownTags, List.forall_mem_cons, hid, hsymbol, hside, hprice, hquantity, Reading.mk.injEq,
    true_and, and_true, List.not_mem_nil, false_implies, implies_true]
  simp only [readingOf, Reading.mk.injEq, lastOf]

theorem scan_append (lost : Bool) (pre post : List (List UInt8)) : scan lost (pre ++ post) =
    scan lost pre ++ scan (pre.getLast?.elim lost fun seg => decide (61 ∉ seg)) post := by
  induction pre generalizing lost with
  | nil => rfl
  | cons seg pre ih =>
    have hlast : ∀ b, (decide (61 ∉ seg) = b) → (seg :: pre).getLast?.elim lost
        (fun seg => decide (61 ∉ seg)) = pre.getLast?.elim b fun seg => decide (61 ∉ seg) := by
      rintro b rfl
      rw [List.getLast?_cons]
      cases pre.getLast? <;> rfl
    rw [List.cons_append, scan, scan]
    cases hseg : memchr 61 seg with
    | none => rw [hlast true (by simpa using memchr_eq_none.mp hseg), ih]
    | some field =>
      have hmem : 61 ∈ seg := by
        by_contra hno
        rw [memchr_eq_none.mpr hno] at hseg
        cases hseg
      rw [hlast false (by simpa using hmem)]
      cases lost with
      | true => exact ih false
      | false => exact congrArg (field :: ·) (ih false)

theorem scan_sublist (lost : Bool) (segs : List (List UInt8)) :
    (scan lost segs).Sublist (segs.filterMap (memchr 61)) := by
  induction segs generalizing lost with
  | nil => exact List.Sublist.refl []
  | cons seg segs ih =>
    rw [scan, List.filterMap_cons]
    cases memchr 61 seg with
    | none => exact ih true
    | some field =>
      cases lost with
      | true => exact (ih false).cons field
      | false => exact (ih false).cons_cons field

theorem lastOf_fields (hseg : memchr 61 seg = some (tag, val))
    (hlater : ∀ later ∈ post, ∀ field ∈ memchr 61 later, field.1 ≠ tag) :
    lastOf tag ((pre ++ seg :: post).filterMap (memchr 61)) = some val := by
  have hnone : lastOf tag (post.filterMap (memchr 61)) = none := lastOf_eq_none fun field hfield => by
    obtain ⟨later, hmem, hfield⟩ := List.mem_filterMap.mp hfield
    exact hlater later hmem field hfield
  rw [List.filterMap_append, List.filterMap_cons, hseg, lastOf_append, lastOf_cons_self, hnone]
  rfl

theorem lastOf_scan (hseg : memchr 61 seg = some (tag, val))
    (hlater : ∀ later ∈ post, ∀ field ∈ memchr 61 later, field.1 ≠ tag)
    (hprev : ∀ prev ∈ pre.getLast?, 61 ∈ prev) :
    lastOf tag (scan false (pre ++ seg :: post)) = some val := by
  have hnone : lastOf tag (scan false post) = none := lastOf_eq_none fun field hfield => by
    obtain ⟨later, hmem, hfield⟩ := List.mem_filterMap.mp ((scan_sublist false post).subset hfield)
    exact hlater later hmem field hfield
  have hread : (pre.getLast?.elim false fun seg => decide (61 ∉ seg)) = false := by
    cases hlast : pre.getLast? with
    | none => rfl
    | some prev => simpa using hprev prev hlast
  rw [scan_append, hread, scan, hseg, lastOf_append]
  simp only [Bool.false_eq_true, if_false]
  rw [lastOf_cons_self, hnone]
  rfl

theorem exists_last_field (tag : List UInt8) (segs : List (List UInt8)) :
    (∀ seg ∈ segs, ∀ field ∈ memchr 61 seg, field.1 ≠ tag) ∨
      ∃ pre seg post val, segs = pre ++ seg :: post ∧ memchr 61 seg = some (tag, val) ∧
        ∀ later ∈ post, ∀ field ∈ memchr 61 later, field.1 ≠ tag := by
  induction segs with
  | nil => exact Or.inl (by simp)
  | cons seg segs ih =>
    rcases ih with hnone | ⟨pre, seg', post, val, rfl, hseg', hlater⟩
    · by_cases h : ∃ val, memchr 61 seg = some (tag, val)
      · obtain ⟨val, hval⟩ := h
        exact Or.inr ⟨[], seg, segs, val, rfl, hval, hnone⟩
      · refine Or.inl (List.forall_mem_cons.mpr ⟨?_, hnone⟩)
        rintro ⟨t, val⟩ hfield rfl
        exact h ⟨val, hfield⟩
    · exact Or.inr ⟨seg :: pre, seg', post, val, rfl, hseg', hlater⟩

/-- The parser and the reference have the same of a tag exactly where its last field survives. -/
theorem survives_iff : meaning atof tag (lastOf tag (readFields line)) =
    meaning atof tag (lastOf tag (fields line)) ↔ Survives atof line tag := by
  constructor
  · intro h pre seg post val hsegs hseg hlater _
    rw [h, fields, hsegs, lastOf_fields hseg hlater]
  · intro h
    rcases exists_last_field tag (segments line) with hnone | ⟨pre, seg, post, val, hsegs, hseg, hlater⟩
    · have hall : ∀ field ∈ fields line, field.1 ≠ tag := fun field hfield => by
        obtain ⟨seg, hmem, hfield⟩ := List.mem_filterMap.mp hfield
        exact hnone seg hmem field hfield
      have hread : ∀ field ∈ readFields line, field.1 ≠ tag := fun field hfield =>
        hall field ((scan_sublist false (segments line)).subset hfield)
      rw [lastOf_eq_none hall, lastOf_eq_none hread]
    · have hlast : lastOf tag (fields line) = some val := by
        rw [fields, hsegs, lastOf_fields hseg hlater]
      rw [hlast]
      by_cases hbad : ∃ bad ∈ pre.getLast?, 61 ∉ bad
      · exact (h pre seg post val hsegs hseg hlater hbad).symm
      · have hprev : ∀ prev ∈ pre.getLast?, 61 ∈ prev := by simpa using hbad
        rw [readFields, hsegs, lastOf_scan hseg hlater hprev]

/-- What the scan finds with the segment and without it: the same, or without it one field more. -/
theorem scan_remove (pre post : List (List UInt8)) (hbad : 61 ∉ bad) :
    scan false (pre ++ bad :: post) = scan false (pre ++ post) ∧
        ((∃ seg ∈ pre.getLast?, 61 ∉ seg) ∨ ∀ seg ∈ post.head?, memchr 61 seg = none) ∨
      (∀ prev ∈ pre.getLast?, 61 ∈ prev) ∧ ∃ seg post' field, post = seg :: post' ∧
        memchr 61 seg = some field ∧
        scan false (pre ++ bad :: post) = scan false pre ++ scan false post' ∧
        scan false (pre ++ post) = scan false pre ++ field :: scan false post' := by
  rw [scan_append, scan_append false pre post, scan, memchr_eq_none.mpr hbad]
  by_cases hprev : ∃ prev ∈ pre.getLast?, 61 ∉ prev
  · refine Or.inl ⟨?_, Or.inl hprev⟩
    obtain ⟨prev, hlast, hno⟩ := hprev
    rw [Option.mem_def.mp hlast, Option.elim_some, decide_eq_true hno]
  · have hall : ∀ prev ∈ pre.getLast?, 61 ∈ prev := by simpa using hprev
    have hread : (pre.getLast?.elim false fun seg => decide (61 ∉ seg)) = false := by
      cases hlast : pre.getLast? with
      | none => rfl
      | some prev => simpa using hall prev hlast
    rw [hread]
    cases post with
    | nil => exact Or.inl ⟨rfl, Or.inr (by simp)⟩
    | cons seg post =>
      cases hseg : memchr 61 seg with
      | none =>
        refine Or.inl ⟨?_, Or.inr (by simpa using hseg)⟩
        simp only [scan, hseg]
      | some field =>
        refine Or.inr ⟨hall, seg, post, field, rfl, hseg, ?_, ?_⟩
        · simp only [scan, hseg, if_true]
        · simp only [scan, hseg, Bool.false_eq_true, if_false]

/-- One field more says nothing new if a later one of its tag is read, or if it says what the last one
before it says. -/
theorem readingOf_insert (tag val : List UInt8) (fs gs : List Field) :
    readingOf atof (fs ++ (tag, val) :: gs) = readingOf atof (fs ++ gs) ↔
      (tag ∈ knownTags → lastOf tag gs ≠ none ∨ meaning atof tag (some val) = meaning atof tag (lastOf tag fs)) := by
  rw [readingOf_eq_iff]
  have hother : ∀ t, tag ≠ t → lastOf t (fs ++ (tag, val) :: gs) = lastOf t (fs ++ gs) := fun t ht => by
    rw [lastOf_append, lastOf_append, lastOf_cons_of_ne ht]
  constructor
  · intro h htag
    have htag := h tag htag
    rw [lastOf_append, lastOf_append, lastOf_cons_self] at htag
    cases hgs : lastOf tag gs with
    | none => exact Or.inr (by simpa [hgs] using htag)
    | some v => exact Or.inl (by simp)
  · intro h t ht
    by_cases hne : tag = t
    · subst hne
      rw [lastOf_append, lastOf_append, lastOf_cons_self]
      cases hgs : lastOf tag gs with
      | none =>
        have hmeaning := (h ht).resolve_left (not_not.mpr hgs)
        simpa using hmeaning
      | some v => rfl
    · rw [hother t hne]

theorem readingOf_remove (hbad : 61 ∉ bad) :
    readingOf atof (scan false (pre ++ post)) = readingOf atof (scan false (pre ++ bad :: post)) ↔
      Removable atof pre post := by
  rcases scan_remove pre post hbad with
    ⟨hsame, hwhy⟩ | ⟨hprev, seg, post', ⟨tag, val⟩, rfl, hseg, hwith, hwithout⟩
  · rw [hsame, eq_self, true_iff]
    rintro seg post' tag val rfl hseg - hprev
    rcases hwhy with ⟨prev, hlast, hno⟩ | hnone
    · exact absurd (hprev prev hlast) hno
    · rw [hnone seg rfl] at hseg
      cases hseg
  · rw [hwith, hwithout, readingOf_insert]
    constructor
    · rintro h seg₁ post₁ tag₁ val₁ hpost hseg₁ htag -
      obtain ⟨rfl, rfl⟩ := List.cons.inj hpost
      obtain ⟨rfl, rfl⟩ : tag = tag₁ ∧ val = val₁ := by simpa [hseg] using hseg₁
      exact h htag
    · exact fun h htag => h seg post' tag val rfl hseg htag hprev

/-- Where nothing that is read stands behind it, the segment can be left out of the scan. -/
theorem setFields_remove {order : Order} (hbad : 61 ∉ bad)
    (h : (∃ seg ∈ pre.getLast?, 61 ∉ seg) ∨ ∀ seg ∈ post.head?, Foreign seg) :
    setFields atof order (scan false (pre ++ post)) =
      setFields atof order (scan false (pre ++ bad :: post)) := by
  rcases scan_remove pre post hbad with
    ⟨hsame, -⟩ | ⟨hprev, seg, post', field, rfl, hseg, hwith, hwithout⟩
  · rw [hsame]
  · have hforeign : field.1 ∉ knownTags := by
      rcases h with ⟨prev, hlast, hno⟩ | hforeign
      · exact absurd (hprev prev hlast) hno
      · exact hforeign seg rfl field hseg
    rw [hwith, hwithout, setFields, setFields, List.foldl_append, List.foldl_append, List.foldl_cons,
      setField_of_not_mem hforeign]

theorem readFields_join (h : ∀ seg ∈ segs, 124 ∉ seg) : readFields (join segs) = scan false segs := by
  by_cases hne : segs = []
  · subst hne
    rfl
  · rw [readFields, segments, join, List.splitOn_intercalate 124 h hne]

end Local

/-- **When a malformed field stays local.** The order is read as the reference reads the line exactly
where the last field of every known tag survives. A segment without `=` can be left out exactly where
the field behind it says nothing new; the order is the very same one if nothing that is read stands
behind it. -/
theorem parseFixLine_local (atof : List UInt8 → ℚ) (arrivalNs : Int64) (line : List UInt8) :
    ∃ order, parseFixLine atof arrivalNs line = .ok order ∧
      (order.reading = reference atof line ↔ ∀ tag ∈ knownTags, Survives atof line tag) ∧
      ∀ pre bad post, segments line = pre ++ bad :: post → 61 ∉ bad →
        ∃ order', parseFixLine atof arrivalNs (join (pre ++ post)) = .ok order' ∧
          (order'.reading = order.reading ↔ Removable atof pre post) ∧
          ((∃ seg ∈ pre.getLast?, 61 ∉ seg) ∨ (∀ seg ∈ post.head?, Foreign seg) → order' = order) := by
  refine ⟨_, parseFixLine_eq atof arrivalNs line, ?_, fun pre bad post hsegs hbad =>
    ⟨_, parseFixLine_eq atof arrivalNs (join (pre ++ post)), ?_⟩⟩
  · rw [readOrder_reading, reference, readingOf_eq_iff]
    exact forall₂_congr fun _ _ => survives_iff
  · have hno : ∀ seg ∈ pre ++ post, 124 ∉ seg := fun seg hseg => by
      have hmem : seg ∈ segments line := by
        rw [hsegs]
        simp only [List.mem_append, List.mem_cons] at hseg ⊢
        tauto
      exact (mem_splitOn hmem).1
    constructor
    · rw [readOrder_reading, readOrder_reading, readFields_join hno, readFields, hsegs,
        readingOf_remove hbad]
    · intro h
      rw [readOrder, readOrder, readFields_join hno, readFields, hsegs, setFields_remove hbad h]

/-- `11=A||54=2` is a buy order. The reference reads a sell order, and so does the parser without the
empty segment. -/
theorem parseFixLine_swallows_side :
    segments [49, 49, 61, 65, 124, 124, 53, 52, 61, 50] =
        [[49, 49, 61, 65]] ++ [] :: [[53, 52, 61, 50]] ∧
      (∃ order, parseFixLine (fun _ => 0) 0 [49, 49, 61, 65, 124, 124, 53, 52, 61, 50] = .ok order ∧
        order.orderType = .buy) ∧
      (∃ order, parseFixLine (fun _ => 0) 0 (join ([[49, 49, 61, 65]] ++ [[53, 52, 61, 50]])) =
        .ok order ∧ order.orderType = .sell) ∧
      (reference (fun _ => 0) [49, 49, 61, 65, 124, 124, 53, 52, 61, 50]).orderType = .sell := by
  refine ⟨by decide, ⟨_, parseFixLine_eq _ _ _, by decide⟩, ⟨_, parseFixLine_eq _ _ _, by decide⟩,
    by decide⟩

end FixSessionReader

end TradingSim
