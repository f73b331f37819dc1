import JsonEdit.Pattern.Basic
import Mathlib.Data.Fin.Tuple.Basic
import Mathlib.Order.Fin.Basic

/-!
# Alignments of a pattern with a path

The test of a path tries all keys that a segment which descends may pass over. What it looks for
can be said without a search: places for all segments in the path, in order and up to its end, with
gaps only where a segment descends.

* `anySplit_iff`, `matchKeys_cons`, `matchKeys_append`: the test, one segment at a time;
* `IsAlignment`: places for the segments; `IsAlignment.cons`, `IsAlignment.tail`: those of one
  segment more, and of one less;
* **`matchKeys_iff_exists_alignment`**: no alignment is missed, and nothing else is accepted.
-/

namespace JsonEdit

/-! ## One segment at a time -/

theorem anySplit_iff {test : String → List String → Bool} {keys : List String} :
    anySplit test keys = true ↔
      ∃ passed key rest, keys = passed ++ key :: rest ∧ test key rest = true := by
  induction keys with
  | nil => simp [anySplit]
  | cons first keys ih =>
    rw [anySplit, Bool.or_eq_true, ih]
    constructor
    · rintro (h | ⟨passed, key, rest, rfl, h⟩)
      · exact ⟨[], first, keys, rfl, h⟩
      · exact ⟨first :: passed, key, rest, rfl, h⟩
    · rintro ⟨_ | ⟨other, passed⟩, key, rest, hk, h⟩
      · obtain ⟨rfl, rfl⟩ := List.cons.inj hk
        exact .inl h
      · obtain ⟨rfl, rfl⟩ := List.cons.inj hk
        exact .inr ⟨passed, key, rest, rfl, h⟩

/-- The first segment takes a key, after others that it passes over if it descends; the keys after
that are for the other segments. -/
theorem matchKeys_cons {segment : Segment} {segments : List Segment} {keys : List String} :
    matchKeys (segment :: segments) keys = true ↔
      ∃ passed key rest, keys = passed ++ key :: rest ∧ (segment.descend = false → passed = []) ∧
        segment.matcher.accepts key = true ∧ matchKeys segments rest = true := by
  simp only [matchKeys]
  cases hd : segment.descend with
  | true => simp [anySplit_iff]
  | false =>
    cases keys with
    | nil => simp
    | cons first keys =>
      simp only [Bool.false_eq_true, if_false, Bool.and_eq_true, forall_const]
      constructor
      · exact fun h => ⟨[], first, keys, rfl, rfl, h⟩
      · rintro ⟨_, key, rest, hk, rfl, h⟩
        obtain ⟨rfl, rfl⟩ := List.cons.inj hk
        exact h

theorem matchKeys_append {front back : List Segment} {keys : List String} :
    matchKeys (front ++ back) keys = true ↔
      ∃ above below, keys = above ++ below ∧ matchKeys front above = true ∧
        matchKeys back below = true := by
  induction front generalizing keys with
  | nil => simp [matchKeys]
  | cons segment front ih =>
    simp only [List.cons_append, matchKeys_cons, ih]
    constructor
    · rintro ⟨passed, key, _, rfl, hp, ha, above, below, rfl, hf, hb⟩
      exact ⟨passed ++ key :: above, below, by simp, ⟨passed, key, above, rfl, hp, ha, hf⟩, hb⟩
    · rintro ⟨_, below, rfl, ⟨passed, key, above, rfl, hp, ha, hf⟩, hb⟩
      exact ⟨passed, key, above ++ below, by simp, hp, ha, above, below, rfl, hf, hb⟩

theorem matchKeys_singleton {segment : Segment} {keys : List String} :
    matchKeys [segment] keys = true ↔ ∃ passed key, keys = passed ++ [key] ∧
      (segment.descend = false → passed = []) ∧ segment.matcher.accepts key = true := by
  rw [matchKeys_cons]
  constructor
  · rintro ⟨passed, key, rest, rfl, hp, ha, hr⟩
    obtain rfl := List.isEmpty_iff.mp hr
    exact ⟨passed, key, rfl, hp, ha⟩
  · rintro ⟨passed, key, rfl, hp, ha⟩
    exact ⟨passed, key, [], rfl, hp, ha, rfl⟩

/-! ## Alignments -/

/-- Each segment has a position in the keys and takes the key that stands there. Keys are left out
only before a segment that descends. -/
structure IsAlignment (segments : List Segment) (keys : List String)
    (position : Fin segments.length → Nat) : Prop where
  increasing : StrictMono position
  accepted : ∀ i, ∃ key, keys[position i]? = some key ∧ segments[i].matcher.accepts key = true
  first : ∀ i, i.val = 0 → segments[i].descend = false → position i = 0
  adjacent : ∀ i j, i.val + 1 = j.val → segments[j].descend = false → position i + 1 = position j
  last : ∀ i, i.val + 1 = segments.length → position i + 1 = keys.length
  /-- Without a segment there is nothing to leave keys out before. -/
  empty : segments = [] → keys = []

section Alignment

variable {segment : Segment} {segments : List Segment} {passed rest keys : List String}
  {key : String}

theorem IsAlignment.cons {position : Fin segments.length → Nat}
    (h : IsAlignment segments rest position) (hp : segment.descend = false → passed = [])
    (ha : segment.matcher.accepts key = true) :
    IsAlignment (segment :: segments) (passed ++ key :: rest)
      (Fin.cons passed.length fun i => passed.length + 1 + position i) where
  increasing i j hij := by
    cases j using Fin.cases with
    | zero => exact absurd hij (Fin.not_lt_zero _)
    | succ j =>
      cases i using Fin.cases with
      | zero => simp only [Fin.cons_zero, Fin.cons_succ]; omega
      | succ i =>
        have hlt := h.increasing (Fin.succ_lt_succ_iff.mp hij)
        simp only [Fin.cons_succ]
        omega
  accepted i := by
    cases i using Fin.cases with
    | zero => exact ⟨key, by simp, ha⟩
    | succ i =>
      obtain ⟨taken, hk, ha⟩ := h.accepted i
      refine ⟨taken, ?_, ha⟩
      rw [Fin.cons_succ, List.getElem?_append_right (by omega), Nat.add_assoc,
        Nat.add_sub_cancel_left, Nat.add_comm, List.getElem?_cons_succ, hk]
  first i hi hd := by
    cases i using Fin.cases with
    | zero => simpa using hp hd
    | succ i => simp at hi
  adjacent i j hij hd := by
    cases j using Fin.cases with
    | zero => simp at hij
    | succ j =>
      cases i using Fin.cases with
      | zero => simp [h.first j (by simpa using hij.symm) hd]
      | succ i =>
        have hnext := h.adjacent i j (by simpa using hij) hd
        simp only [Fin.cons_succ]
        omega
  last i hi := by
    cases i using Fin.cases with
    | zero =>
      have hs : segments = [] := List.length_eq_zero_iff.mp (by simpa using hi.symm)
      simp [h.empty hs]
    | succ i =>
      have hlast := h.last i (by simpa using hi)
      simp only [Fin.cons_succ, List.length_append, List.length_cons]
      omega
  empty hs := by cases hs

theorem IsAlignment.tail {position : Fin (segments.length + 1) → Nat}
    (h : IsAlignment (segment :: segments) keys position) :
    IsAlignment segments (keys.drop (position 0 + 1))
      fun i => position i.succ - (position 0 + 1) := by
  have hpos : ∀ i : Fin segments.length, position 0 < position i.succ := fun i =>
    h.increasing (Fin.succ_pos i)
  constructor
  case increasing =>
    intro i j hij
    have hlt := h.increasing (Fin.succ_lt_succ_iff.mpr hij)
    exact Nat.sub_lt_sub_right (hpos i) hlt
  case accepted =>
    intro i
    obtain ⟨key, hk, ha⟩ := h.accepted i.succ
    exact ⟨key, by rw [List.getElem?_drop, Nat.add_sub_cancel' (hpos i), hk], ha⟩
  case first =>
    intro i hi hd
    have hnext := h.adjacent (0 : Fin (segments.length + 1)) i.succ (by simp [hi]) hd
    omega
  case adjacent =>
    intro i j hij hd
    have hnext := h.adjacent i.succ j.succ (by simp [hij]) hd
    have hi := hpos i
    omega
  case last =>
    intro i hi
    have hlast := h.last i.succ (by simp [hi])
    have hi := hpos i
    rw [List.length_drop]
    omega
  case empty =>
    rintro rfl
    exact List.drop_eq_nil_of_le (h.last (0 : Fin 1) rfl).ge

theorem isAlignment_nil : IsAlignment [] [] Fin.elim0 where
  increasing i := i.elim0
  accepted i := i.elim0
  first i := i.elim0
  adjacent i := i.elim0
  last i := i.elim0
  empty _ := rfl

/-- **Segments match keys just if they can be aligned with them**: increasing positions, one for
each segment, whose keys the segments accept; the last position is the last key, the first one is
the first key unless the first segment descends, and positions are next to each other unless the
later segment descends. No segments match no keys. -/
theorem matchKeys_iff_exists_alignment :
    matchKeys segments keys = true ↔ ∃ position, IsAlignment segments keys position := by
  induction segments generalizing keys with
  | nil =>
    rw [matchKeys, List.isEmpty_iff]
    constructor
    · rintro rfl
      exact ⟨_, isAlignment_nil⟩
    · rintro ⟨position, h⟩
      exact h.empty rfl
  | cons segment segments ih =>
    rw [matchKeys_cons]
    constructor
    · rintro ⟨passed, key, rest, rfl, hp, ha, hrest⟩
      obtain ⟨position, h⟩ := ih.mp hrest
      exact ⟨_, h.cons hp ha⟩
    · rintro ⟨position, h⟩
      let first : Fin (segments.length + 1) := 0
      obtain ⟨key, hk, ha⟩ := h.accepted first
      obtain ⟨hlt, rfl⟩ := List.getElem?_eq_some_iff.mp hk
      have hsplit := (List.take_append_drop (position first) keys).symm
      rw [List.drop_eq_getElem_cons hlt] at hsplit
      refine ⟨_, _, _, hsplit, fun hd => ?_, ha, ih.mpr ⟨_, h.tail⟩⟩
      rw [h.first first rfl hd, List.take_zero]

end Alignment

end JsonEdit
