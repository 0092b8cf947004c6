import TradingSim.Fix.Session
import TradingSim.Lib.Split

/-!
What `parseFixLine` reads. The loop looks for the next `=` first and for the `|` after it second, so
a `|`-delimited segment without `=` takes the `=` of the segment behind it: that field is lost, with
a tag of its own that no branch knows. `readFields` are the fields that are left, and the order is
set from them one by one (`parseFixLine_eq`).
-/

namespace TradingSim

open Lib

namespace FixSessionReader

/-! ### Cutting -/

section Memchr

variable {c : UInt8} {s before after : List UInt8}

theorem memchr_eq_none : memchr c s = none ↔ c ∉ s := by
  unfold memchr
  split <;> simp_all

theorem memchr_append (h : c ∉ before) : memchr c (before ++ c :: after) = some (before, after) := by
  have hne : ∀ b ∈ before, decide (b ≠ c) = true := fun b hb =>
    decide_eq_true fun e => h (e ▸ hb)
  unfold memchr
  rw [if_pos (by simp), List.takeWhile_append_of_pos hne, List.dropWhile_append_of_pos hne]
  simp

theorem memchr_eq_some : memchr c s = some (before, after) ↔ s = before ++ c :: after ∧ c ∉ before := by
  constructor
  · intro h
    have hmem : c ∈ s := by
      by_contra hno
      rw [memchr_eq_none.mpr hno] at h
      cases h
    obtain ⟨pre, post, rfl, hpre⟩ := List.eq_append_cons_of_mem hmem
    rw [memchr_append hpre] at h
    obtain ⟨rfl, rfl⟩ : pre = before ∧ post = after := by simpa using h
    exact ⟨rfl, hpre⟩
  · rintro ⟨rfl, h⟩
    exact memchr_append h

theorem length_of_memchr (h : memchr c s = some (before, after)) : after.length < s.length := by
  obtain ⟨rfl, -⟩ := memchr_eq_some.mp h
  rw [List.length_append, List.length_cons]
  omega

end Memchr

/-- A tag and its value. -/
abbrev Field := List UInt8 × List UInt8

/-- The `|`-delimited segments of a line. -/
def segments (line : List UInt8) : List (List UInt8) := line.splitOn 124

/-- The line with the given segments. -/
def join (segs : List (List UInt8)) : List UInt8 := [124].intercalate segs

/-- The fields of a line by its segments: each is cut at its first `=`, and one without is no
field. -/
def fields (line : List UInt8) : List Field := (segments line).filterMap (memchr 61)

/-- The fields that the loop of `parseFixLine` finds: behind a segment without `=` the next field is
lost. -/
def scan : Bool → List (List UInt8) → List Field
  | _, [] => []
  | lost, seg :: segs =>
    match memchr 61 seg with
    | none => scan true segs
    | some field => if lost then scan false segs else field :: scan false segs

def readFields (line : List UInt8) : List Field := scan false (segments line)

section Scan

variable {line tag val after : List UInt8} {segs rest : List (List UInt8)}

theorem scan_eq_nil {lost : Bool} (h : ∀ s ∈ segs, 61 ∉ s) : scan lost segs = [] := by
  induction segs generalizing lost with
  | nil => rfl
  | cons s segs ih =>
    obtain ⟨hs, hsegs⟩ := List.forall_mem_cons.mp h
    rw [scan, memchr_eq_none.mpr hs]
    exact ih hsegs

theorem readFields_eq_nil (h : 61 ∉ line) : readFields line = [] :=
  scan_eq_nil fun _ hs hmem => h ((mem_splitOn hs).2 _ hmem)

/-- What a tag that runs over segments without `=` does: the field it belongs to is lost. `after` is
what follows the value, and `rest` the segments of it. -/
theorem scan_lost (htag : 61 ∉ tag) (hval : 124 ∉ val)
    (hrest : ∀ s, 124 ∉ s → segments (s ++ after) = s :: rest) :
    scan true (segments (tag ++ (61 :: val ++ after))) = scan false rest := by
  induction tag using splitOn_rec (124 : UInt8) with
  | last tag hno =>
    rw [← List.append_assoc, hrest _ (by simp [hno, hval]), scan, memchr_append htag]
    rfl
  | step s tag hs ih =>
    have hs' : 61 ∉ s := fun hmem => htag (by simp [hmem])
    rw [List.append_assoc, List.cons_append, segments, splitOn_append hs, scan,
      memchr_eq_none.mpr hs']
    exact ih fun hmem => htag (by simp [hmem])

theorem scan_field (after : List UInt8) (rest : List (List UInt8)) (htag : 61 ∉ tag)
    (hval : 124 ∉ val) (hrest : ∀ s, 124 ∉ s → segments (s ++ after) = s :: rest) :
    scan false (segments (tag ++ (61 :: val ++ after))) =
      if 124 ∈ tag then scan false rest else (tag, val) :: scan false rest := by
  split
  · rename_i hmem
    obtain ⟨s, tag, rfl, hs⟩ := List.eq_append_cons_of_mem hmem
    have hs' : 61 ∉ s := fun hmem => htag (by simp [hmem])
    rw [List.append_assoc, List.cons_append, segments, splitOn_append hs, scan,
      memchr_eq_none.mpr hs']
    exact scan_lost (fun hmem => htag (by simp [hmem])) hval hrest
  · rename_i hno
    rw [← List.append_assoc, hrest _ (by simp [hno, hval]), scan, memchr_append htag]
    rfl

end Scan

/-! ### The loop -/

/-- Tag 11. -/
def tagId : List UInt8 := [49, 49]
/-- Tag 55. -/
def tagSymbol : List UInt8 := [53, 53]
/-- Tag 54. -/
def tagSide : List UInt8 := [53, 52]
/-- Tag 44. -/
def tagPrice : List UInt8 := [52, 52]
/-- Tag 38. -/
def tagQuantity : List UInt8 := [51, 56]

/-- The tags that `parseFixLine` has a branch for. -/
def knownTags : List (List UInt8) := [tagId, tagSymbol, tagSide, tagPrice, tagQuantity]

section Loop

variable (atof : List UInt8 → ℚ)

/-- The fields set one after the other. -/
def setFields (order : Order) (fs : List Field) : Order :=
  fs.foldl (fun order field => setField atof order field.1 field.2) order

/-- The order that a line is read as. -/
def readOrder (arrivalNs : Int64) (line : List UInt8) : Order :=
  setFields atof (blank arrivalNs) (readFields line)

variable {atof} {order : Order} {tag val : List UInt8}

theorem setField_of_not_mem (h : tag ∉ knownTags) : setField atof order tag val = order := by
  have hne : ∀ known ∈ knownTags, tag ≠ known := fun known hk e => h (e ▸ hk)
  unfold setField
  rw [if_neg (hne _ (by decide)), if_neg (hne _ (by decide)), if_neg (hne _ (by decide)),
    if_neg (hne _ (by decide)), if_neg (hne _ (by decide))]

theorem bar_not_mem_knownTags : ∀ known ∈ knownTags, 124 ∉ known := by decide

variable (atof)

theorem parseField_spec (p : List UInt8) (order : Order) :
    (parseField atof (p, order) = .ok none ∧ readFields p = []) ∨
      ∃ p' order', parseField atof (p, order) = .ok (some (p', order')) ∧
        setFields atof order' (readFields p') = setFields atof order (readFields p) ∧
        p'.length < p.length := by
  cases hp : p with
  | nil => exact Or.inl ⟨rfl, rfl⟩
  | cons c cs =>
    rw [← hp]
    cases htag : memchr 61 p with
    | none =>
      refine Or.inl ⟨?_, readFields_eq_nil (memchr_eq_none.mp htag)⟩
      simp only [hp, parseField] at htag ⊢
      rw [htag]
    | some cut =>
      obtain ⟨tag, after⟩ := cut
      obtain ⟨heq, hno⟩ := memchr_eq_some.mp htag
      have hlen := length_of_memchr htag
      -- the field as the scan sees it, whatever follows the value
      have hset : ∀ val rest, readFields p =
          (if 124 ∈ tag then scan false rest else (tag, val) :: scan false rest) →
          setFields atof (setField atof order tag val) (scan false rest) =
            setFields atof order (readFields p) := by
        intro val rest hread
        rw [hread]
        split
        · rename_i hmem
          rw [setField_of_not_mem fun hk => bar_not_mem_knownTags _ hk hmem]
        · rfl
      cases hval : memchr 124 after with
      | none =>
        refine Or.inr ⟨[], setField atof order tag after, ?_, hset after [] ?_, by simp [hp]⟩
        · simp only [hp, parseField] at htag ⊢
          rw [htag]
          simp only [hval]
        · have := scan_field [] [] hno (memchr_eq_none.mp hval)
            fun s hs => by rw [List.append_nil]; exact splitOn_of_not_mem hs
          rw [List.append_nil, ← heq] at this
          exact this
      | some cut' =>
        obtain ⟨val, rest⟩ := cut'
        obtain ⟨heq', hno'⟩ := memchr_eq_some.mp hval
        refine Or.inr ⟨rest, setField atof order tag val, ?_, hset val (segments rest) ?_,
          (length_of_memchr hval).trans hlen⟩
        · simp only [hp, parseField] at htag ⊢
          rw [htag]
          simp only [hval]
        · have := scan_field (124 :: rest) (segments rest) hno hno'
            fun s hs => splitOn_append hs
          rw [List.cons_append, ← heq', ← heq] at this
          exact this

/-- **What a line is parsed to.** -/
theorem parseFixLine_eq (arrivalNs : Int64) (line : List UInt8) :
    parseFixLine atof arrivalNs line = .ok (readOrder atof arrivalNs line) := by
  obtain ⟨⟨rest, order⟩, hrun, hout⟩ : ∃ st, loop Fault.outOfRounds (parseField atof)
      (line.length + 1) (line, blank arrivalNs) = .ok st ∧ st.2 = readOrder atof arrivalNs line := by
    refine loop_value (fun st : List UInt8 × Order => setFields atof st.2 (readFields st.1))
      (μ := fun st => st.1.length) ?_ (Nat.lt_succ_self _)
    rintro ⟨p, order⟩
    rcases parseField_spec atof p order with ⟨hret, hnil⟩ | ⟨p', order', hround, hset, hlt⟩
    · left
      rw [hnil]
      exact ⟨hret, rfl⟩
    · exact Or.inr ⟨(p', order'), hround, hset, hlt⟩
  simp only [parseFixLine, hrun, ok_bind, pure_eq_ok]
  exact congrArg Except.ok hout

end Loop

end FixSessionReader

end TradingSim
