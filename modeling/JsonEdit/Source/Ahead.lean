import JsonEdit.Source.Basic

/-!
# Reading ahead

A source behind a buffer. Whenever the buffer is empty it is filled with one large read, and smaller
reads are served from it; a read as large as the buffer goes past it.

* `Ahead.read`: one read.
-/

namespace JsonEdit

/-- A source that is read ahead of what has been asked for. -/
structure Ahead (σ : Type) where
  inner : σ
  /-- What has been read and not given yet. -/
  held : List UInt8

namespace Ahead

variable {σ : Type}

/-- Nothing read yet. -/
def new (inner : σ) : Ahead σ := ⟨inner, []⟩

/-- How many bytes the buffer holds. -/
def capacity : Nat := 8192

variable [ByteSource σ]

/-- One read of at most `n` bytes. -/
def read (a : Ahead σ) (n : Nat) : Except String (List UInt8) × Ahead σ :=
  if a.held.isEmpty then
    match ByteSource.read a.inner (max n capacity) with
    | (.ok bytes, inner) => (.ok (bytes.take n), ⟨inner, bytes.drop n⟩)
    | (.error message, inner) => (.error message, ⟨inner, []⟩)
  else (.ok (a.held.take n), { a with held := a.held.drop n })

/-- What is held comes before what the inner source has not given. -/
def pending (a : Ahead σ) : List UInt8 := a.held ++ ByteSource.pending a.inner

/-- What a read comes to: what is held is given on, or more is read. -/
theorem read_cases {a a' : Ahead σ} {n : Nat} {result : Except String (List UInt8)}
    (h : a.read n = (result, a')) :
    (a.held ≠ [] ∧ result = .ok (a.held.take n) ∧ a' = ⟨a.inner, a.held.drop n⟩) ∨
    (a.held = [] ∧ ∃ bytes inner,
      ByteSource.read a.inner (max n capacity) = (.ok bytes, inner) ∧
        result = .ok (bytes.take n) ∧ a' = ⟨inner, bytes.drop n⟩) ∨
    (a.held = [] ∧ ∃ message inner,
      ByteSource.read a.inner (max n capacity) = (.error message, inner) ∧
        result = .error message ∧ a' = ⟨inner, []⟩) := by
  unfold read at h
  split at h
  · next hheld =>
    have hheld := List.isEmpty_iff.mp hheld
    split at h
    · next bytes inner hr =>
      cases h
      exact .inr (.inl ⟨hheld, bytes, inner, hr, rfl, rfl⟩)
    · next message inner hr =>
      cases h
      exact .inr (.inr ⟨hheld, message, inner, hr, rfl, rfl⟩)
  · next hheld =>
    cases h
    exact .inl ⟨fun he => hheld (List.isEmpty_iff.mpr he), rfl, rfl⟩

instance : ByteSource (Ahead σ) where
  read := read
  pending := pending
  pending_read a n bytes a' h := by
    rcases read_cases h with ⟨-, he, rfl⟩ | ⟨hheld, given, inner, hr, he, rfl⟩ | ⟨-, _, _, -, he, -⟩
    · cases he
      rw [pending, pending, ← List.append_assoc, List.take_append_drop]
    · cases he
      rw [pending, pending, hheld, List.nil_append, ByteSource.pending_read _ _ _ _ hr,
        ← List.append_assoc, List.take_append_drop]
    · cases he
  pending_fail a n message a' h := by
    rcases read_cases h with ⟨-, he, -⟩ | ⟨-, _, _, -, he, -⟩ | ⟨hheld, _, inner, hr, -, rfl⟩
    · cases he
    · cases he
    · rw [pending, pending, hheld, ByteSource.pending_fail _ _ _ _ hr]
  length_read a n bytes a' h := by
    rcases read_cases h with ⟨-, he, -⟩ | ⟨-, _, _, -, he, -⟩ | ⟨-, _, _, -, he, -⟩
    · cases he
      exact List.length_take_le _ _
    · cases he
      exact List.length_take_le _ _
    · cases he
  pending_empty a n a' hn h := by
    rcases read_cases h with ⟨hheld, he, -⟩ | ⟨hheld, given, inner, hr, he, -⟩ | ⟨-, _, _, -, he, -⟩
    · rcases List.take_eq_nil_iff.mp (Except.ok.inj he).symm with h0 | h0
      · omega
      · exact absurd h0 hheld
    · have hnil : given = [] := by
        rcases List.take_eq_nil_iff.mp (Except.ok.inj he).symm with h0 | h0
        · omega
        · exact h0
      subst hnil
      rw [pending, hheld, ByteSource.pending_empty _ _ _ (by omega) hr, List.append_nil]
    · cases he

end Ahead

end JsonEdit
