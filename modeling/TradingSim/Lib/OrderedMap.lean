import Mathlib.Algebra.Order.Group.Abs
import Mathlib.Order.Bounds.Basic
import Mathlib.Tactic

/-!
Maps in the order of their keys, as lists of entries that carry their sortedness, with the search for the
first entry at or after a key.

A map is known by its entries (`mem_insert`), and what the search finds is said of the set of keys alone:
`RoundsUp` is the least key at or after the one asked for, or the greatest key if all are before it.
Whether that is also the nearest key is a question of the keys on both sides (`RoundsUp.nearest_iff`).
-/

namespace TradingSim.Lib

variable {K V : Type*} [LinearOrder K]

/-! ### Rounding up -/

/-- The key `c` is the least of the keys at or after `k`, or the greatest of all if there is none. -/
def RoundsUp (keys : Set K) (k c : K) : Prop :=
  IsLeast (keys ∩ Set.Ici k) c ∨ (keys ∩ Set.Ici k = ∅ ∧ IsGreatest keys c)

theorem RoundsUp.mem {keys : Set K} {k c : K} (h : RoundsUp keys k c) : c ∈ keys := by
  rcases h with h | ⟨-, h⟩
  · exact h.1.1
  · exact h.1

section Nearest

variable {G : Type*} [AddCommGroup G] [LinearOrder G] [IsOrderedAddMonoid G] {keys : Set G} {k c : G}

/-- The key `c` is one of those nearest to `k`. -/
def Nearest (keys : Set G) (k c : G) : Prop := c ∈ keys ∧ ∀ a ∈ keys, |c - k| ≤ |a - k|

/-- No key before `k` is nearer than all those after it, if there are such. -/
def NearestAbove (keys : Set G) (k : G) : Prop :=
  ∀ a ∈ keys, a < k → (∃ b ∈ keys, k ≤ b) → ∃ b ∈ keys, k ≤ b ∧ b - k ≤ k - a

/-- **Rounding up finds the nearest key** exactly if no key before is nearer. -/
theorem RoundsUp.nearest_iff (h : RoundsUp keys k c) : Nearest keys k c ↔ NearestAbove keys k := by
  rw [Nearest, and_iff_right h.mem]
  rcases h with ⟨⟨hc, hkc⟩, hleast⟩ | ⟨hnone, hc, hgreatest⟩
  · have hdist : |c - k| = c - k := abs_of_nonneg (sub_nonneg.mpr hkc)
    constructor
    · intro hnear a ha hak _
      have hle := hnear a ha
      rw [hdist, abs_of_neg (sub_neg.mpr hak), neg_sub] at hle
      exact ⟨c, hc, hkc, hle⟩
    · intro habove a ha
      rw [hdist]
      rcases lt_or_ge a k with hak | hak
      · obtain ⟨b, hb, hkb, hle⟩ := habove a ha hak ⟨c, hc, hkc⟩
        rw [abs_of_neg (sub_neg.mpr hak), neg_sub]
        exact (sub_le_sub_right (hleast ⟨hb, hkb⟩) k).trans hle
      · rw [abs_of_nonneg (sub_nonneg.mpr hak)]
        exact sub_le_sub_right (hleast ⟨ha, hak⟩) k
  · -- all keys are before `k`, and the last of them is the nearest
    have hbefore : ∀ a ∈ keys, a < k := fun a ha => by
      by_contra hak
      exact Set.eq_empty_iff_forall_notMem.mp hnone a ⟨ha, not_lt.mp hak⟩
    refine iff_of_true (fun a ha => ?_) fun a _ _ ⟨b, hb, hkb⟩ => absurd (hbefore b hb) (not_lt.mpr hkb)
    rw [abs_of_neg (sub_neg.mpr (hbefore c hc)), abs_of_neg (sub_neg.mpr (hbefore a ha)), neg_sub,
      neg_sub]
    exact sub_le_sub_left (hgreatest ha) k

end Nearest

/-! ### Maps -/

/-- A map, as its entries in the order of their keys. -/
structure OrderedMap (K V : Type*) [LinearOrder K] where
  entries : List (K × V)
  sorted : entries.Pairwise fun a b => a.1 < b.1

namespace OrderedMap

/-- The entry put in its place, or in the place of one with its key. -/
def insertEntry (k : K) (v : V) : List (K × V) → List (K × V)
  | [] => [(k, v)]
  | e :: es =>
    if k < e.1 then (k, v) :: e :: es
    else if k = e.1 then (k, v) :: es
    else e :: insertEntry k v es

section Insert

variable {k : K} {v : V} {e : K × V} {es : List (K × V)}

theorem mem_insertEntry (h : es.Pairwise fun a b => a.1 < b.1) :
    e ∈ insertEntry k v es ↔ e = (k, v) ∨ (e ∈ es ∧ e.1 ≠ k) := by
  induction es with
  | nil => simp [insertEntry]
  | cons d es ih =>
    obtain ⟨hd, hes⟩ := List.pairwise_cons.mp h
    rw [insertEntry]
    split_ifs with hlt heq
    · have hne : ∀ e ∈ d :: es, e.1 ≠ k := by
        intro e he
        rcases List.mem_cons.mp he with rfl | he
        · exact hlt.ne'
        · exact (hlt.trans (hd e he)).ne'
      rw [List.mem_cons]
      exact or_congr_right (and_iff_left_of_imp fun he => hne e he).symm
    · have hne : ∀ e ∈ es, e.1 ≠ k := fun e he => heq ▸ (hd e he).ne'
      rw [List.mem_cons, List.mem_cons]
      refine or_congr_right ⟨fun he => ⟨Or.inr he, hne e he⟩, fun he => ?_⟩
      exact he.1.resolve_left fun hed => he.2 (hed ▸ heq.symm)
    · rw [List.mem_cons, ih hes, List.mem_cons]
      constructor
      · rintro (rfl | rfl | he)
        · exact Or.inr ⟨Or.inl rfl, fun e => heq e.symm⟩
        · exact Or.inl rfl
        · exact Or.inr ⟨Or.inr he.1, he.2⟩
      · rintro (rfl | ⟨rfl | he, hne⟩)
        · exact Or.inr (Or.inl rfl)
        · exact Or.inl rfl
        · exact Or.inr (Or.inr ⟨he, hne⟩)

theorem sorted_insertEntry (h : es.Pairwise fun a b => a.1 < b.1) :
    (insertEntry k v es).Pairwise fun a b => a.1 < b.1 := by
  induction es with
  | nil => simp [insertEntry]
  | cons d es ih =>
    obtain ⟨hd, hes⟩ := List.pairwise_cons.mp h
    rw [insertEntry]
    split_ifs with hlt heq
    · refine List.pairwise_cons.mpr ⟨fun e he => ?_, h⟩
      rcases List.mem_cons.mp he with rfl | he
      · exact hlt
      · exact hlt.trans (hd e he)
    · exact List.pairwise_cons.mpr ⟨fun e he => heq ▸ hd e he, hes⟩
    · refine List.pairwise_cons.mpr ⟨fun e he => ?_, ih hes⟩
      rcases (mem_insertEntry hes).mp he with rfl | ⟨he, -⟩
      · exact lt_of_le_of_ne (not_lt.mp hlt) fun e => heq e.symm
      · exact hd e he

end Insert

def empty : OrderedMap K V := ⟨[], .nil⟩

/-- `m[k] = v`. -/
def insert (m : OrderedMap K V) (k : K) (v : V) : OrderedMap K V :=
  ⟨insertEntry k v m.entries, sorted_insertEntry m.sorted⟩

/-- `find`. -/
def get? (m : OrderedMap K V) (k : K) : Option V :=
  (m.entries.find? fun e => e.1 = k).map Prod.snd

/-- `lower_bound`: the first entry whose key is not less than `k`. -/
def lowerBound (m : OrderedMap K V) (k : K) : Option (K × V) := m.entries.find? fun e => k ≤ e.1

/-- The entry before the end. -/
def last? (m : OrderedMap K V) : Option (K × V) := m.entries.getLast?

/-- The entry at or after `k`, or before the end if there is none: `lower_bound`, and a step back from
the end. -/
def snap (m : OrderedMap K V) (k : K) : Option (K × V) :=
  match m.lowerBound k with
  | some e => some e
  | none => m.last?

/-- The keys. -/
def keys (m : OrderedMap K V) : Set K := { k | ∃ v, (k, v) ∈ m.entries }

variable {m : OrderedMap K V} {k k' : K} {v v' : V} {e : K × V}

theorem mem_insert : e ∈ (m.insert k v).entries ↔ e = (k, v) ∨ (e ∈ m.entries ∧ e.1 ≠ k) :=
  mem_insertEntry m.sorted

theorem insert_ne_nil : (m.insert k v).entries ≠ [] :=
  List.ne_nil_of_mem (mem_insert.mpr (Or.inl rfl))

theorem value_unique (h : (k, v) ∈ m.entries) (h' : (k, v') ∈ m.entries) : v = v' := by
  have hnodup : (m.entries.map Prod.fst).Nodup :=
    List.pairwise_map.mpr (m.sorted.imp fun hlt => hlt.ne)
  have heq := List.inj_on_of_nodup_map hnodup h h' rfl
  exact congrArg Prod.snd heq

theorem get?_eq_some : m.get? k = some v ↔ (k, v) ∈ m.entries := by
  constructor
  · intro h
    obtain ⟨⟨k', v'⟩, hfind, rfl⟩ := Option.map_eq_some_iff.mp h
    obtain rfl : k' = k := by simpa using List.find?_some hfind
    exact List.mem_of_find?_eq_some hfind
  · intro h
    have hsome : (m.entries.find? fun e => e.1 = k).isSome := by
      rw [List.find?_isSome]
      exact ⟨(k, v), h, by simp⟩
    obtain ⟨⟨k', v'⟩, hfind⟩ := Option.isSome_iff_exists.mp hsome
    obtain rfl : k' = k := by simpa using List.find?_some hfind
    rw [get?, hfind, value_unique h (List.mem_of_find?_eq_some hfind)]
    rfl

theorem get?_insert (m : OrderedMap K V) (k k' : K) (v : V) :
    (m.insert k v).get? k' = if k' = k then some v else m.get? k' := by
  ext v'
  rw [get?_eq_some, mem_insert]
  split
  · rename_i heq
    simp [heq, eq_comm]
  · rename_i hne
    rw [get?_eq_some]
    simp [hne]

/-! ### Searching -/

theorem lowerBound_of_some (h : m.lowerBound k = some e) :
    e ∈ m.entries ∧ IsLeast (m.keys ∩ Set.Ici k) e.1 := by
  obtain ⟨hke, front, back, hentries, hfront⟩ := List.find?_eq_some_iff_append.mp h
  have hmem : e ∈ m.entries := by
    rw [hentries]
    simp
  refine ⟨hmem, ⟨⟨e.2, hmem⟩, by simpa using hke⟩, ?_⟩
  rintro k' ⟨⟨v, hv⟩, hk'⟩
  rw [hentries, List.mem_append, List.mem_cons] at hv
  rcases hv with hv | rfl | hv
  · exact absurd hk' (by simpa using hfront _ hv)
  · exact le_rfl
  · -- what comes behind is larger
    have hsorted := m.sorted
    rw [hentries, List.pairwise_append, List.pairwise_cons] at hsorted
    exact (hsorted.2.1.1 _ hv).le

theorem lowerBound_of_none (h : m.lowerBound k = none) : m.keys ∩ Set.Ici k = ∅ := by
  rw [Set.eq_empty_iff_forall_notMem]
  rintro k' ⟨⟨v, hv⟩, hk'⟩
  exact absurd hk' (by simpa using List.find?_eq_none.mp h _ hv)

theorem last?_of_some (h : m.last? = some e) : e ∈ m.entries ∧ IsGreatest m.keys e.1 := by
  obtain ⟨front, hentries⟩ := List.getLast?_eq_some_iff.mp h
  have hmem : e ∈ m.entries := by
    rw [hentries]
    simp
  refine ⟨hmem, ⟨e.2, hmem⟩, ?_⟩
  rintro k' ⟨v, hv⟩
  rw [hentries, List.mem_append, List.mem_singleton] at hv
  rcases hv with hv | rfl
  · have hsorted := m.sorted
    rw [hentries, List.pairwise_append] at hsorted
    exact (hsorted.2.2 _ hv e (by simp)).le
  · exact le_rfl

/-- **What is found** in a map that is not empty. -/
theorem snap_spec (hne : m.entries ≠ []) (k : K) :
    ∃ e, m.snap k = some e ∧ e ∈ m.entries ∧ RoundsUp m.keys k e.1 := by
  cases hbound : m.lowerBound k with
  | some e =>
    obtain ⟨hmem, hleast⟩ := lowerBound_of_some hbound
    exact ⟨e, by rw [snap, hbound], hmem, Or.inl hleast⟩
  | none =>
    obtain ⟨e, hlast⟩ : ∃ e, m.last? = some e := ⟨_, List.getLast?_eq_some_getLast hne⟩
    obtain ⟨hmem, hgreatest⟩ := last?_of_some hlast
    exact ⟨e, by rw [snap, hbound, hlast], hmem, Or.inr ⟨lowerBound_of_none hbound, hgreatest⟩⟩

end OrderedMap

end TradingSim.Lib
