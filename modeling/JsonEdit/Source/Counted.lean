import JsonEdit.Source.Basic

/-!
# Counting what is read

A source that counts what it gives and stops at a limit. Whether its inner source goes on after the
limit is looked at when more is asked for.

* `Counted.read`: one read;
* `Counted.pending_read_lt`: every read that gives bytes brings the end nearer.
-/

namespace JsonEdit

/-- A source that counts what it gives. Past its limit it gives nothing more. -/
structure Counted (σ : Type) where
  inner : σ
  /-- How many bytes have been given. -/
  bytesRead : Nat
  /-- How many bytes may be given. -/
  limit : Option Nat
  /-- Whether the inner source has been seen to go on after the limit. -/
  exceeded : Bool

namespace Counted

variable {σ : Type}

/-- Nothing read yet. -/
def new (inner : σ) (limit : Option Nat) : Counted σ := ⟨inner, 0, limit, false⟩

variable [ByteSource σ]

/-- Gives bytes on and counts them. -/
def take (c : Counted σ) (n : Nat) : Except String (List UInt8) × Counted σ :=
  match ByteSource.read c.inner n with
  | (.ok bytes, inner) =>
    (.ok bytes, { c with inner, bytesRead := c.bytesRead + bytes.length })
  | (.error message, inner) => (.error message, { c with inner })

/-- At the limit: looks whether the inner source goes on. -/
def probe (c : Counted σ) : Except String (List UInt8) × Counted σ :=
  match ByteSource.read c.inner 1 with
  | (.ok bytes, inner) => (.ok [], { c with inner, exceeded := !bytes.isEmpty })
  | (.error message, inner) => (.error message, { c with inner })

/-- One read of at most `n` bytes. -/
def read (c : Counted σ) (n : Nat) : Except String (List UInt8) × Counted σ :=
  if c.exceeded || n == 0 then (.ok [], c)
  else
    match c.limit with
    | none => c.take n
    | some limit => if limit ≤ c.bytesRead then c.probe else c.take (min n (limit - c.bytesRead))

/-- The bytes that the inner source has not given yet. -/
def pending (c : Counted σ) : List UInt8 := ByteSource.pending c.inner

theorem pending_take {c c' : Counted σ} {n : Nat} {bytes : List UInt8}
    (h : c.take n = (.ok bytes, c')) : c.pending = bytes ++ c'.pending := by
  unfold take at h
  split at h
  · next given inner hr =>
    simp only [Prod.mk.injEq, Except.ok.injEq] at h
    obtain ⟨rfl, rfl⟩ := h
    exact ByteSource.pending_read _ _ _ _ hr
  · simp at h

theorem pending_read_lt {c c' : Counted σ} {n : Nat} {b : UInt8} {bytes : List UInt8}
    (h : c.read n = (.ok (b :: bytes), c')) : c'.pending.length < c.pending.length := by
  have key : ∀ m, c.take m = (.ok (b :: bytes), c') → c'.pending.length < c.pending.length := by
    intro m hm
    simp only [pending_take hm, List.length_append, List.length_cons]
    omega
  unfold read at h
  split at h
  · simp at h
  · split at h
    · exact key _ h
    · split at h
      · unfold probe at h
        split at h <;> simp at h
      · exact key _ h

end Counted

end JsonEdit
