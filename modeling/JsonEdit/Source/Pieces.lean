import JsonEdit.Source.Basic

/-!
# Bytes in pieces

A source of given bytes. A read gives at most one piece, and the source may break off after a
number of bytes, from where on every read fails.

* `Pieces.whole`: all bytes as they are asked for;
* `Pieces.read`: one read.
-/

namespace JsonEdit

/-- Bytes that are given in pieces. -/
structure Pieces where
  bytes : List UInt8
  /-- The most bytes of a piece; a piece has at least one. -/
  size : Option Nat
  /-- After so many more bytes every read fails. -/
  failAfter : Option Nat

namespace Pieces

/-- Given bytes, all as they are asked for. -/
def whole (bytes : List UInt8) : Pieces := ⟨bytes, none, none⟩

/-- How many bytes a read of `n` bytes gives at most. -/
def share (p : Pieces) (n : Nat) : Nat :=
  min (min n ((p.size.map (max 1)).getD n)) (p.failAfter.getD n)

/-- One read. -/
def read (p : Pieces) (n : Nat) : Except String (List UInt8) × Pieces :=
  if p.failAfter = some 0 then (.error "read failed", p)
  else
    let given := p.bytes.take (p.share n)
    (.ok given,
      { p with
        bytes := p.bytes.drop (p.share n)
        failAfter := p.failAfter.map fun left => left - given.length })

theorem read_ok {p p' : Pieces} {n : Nat} {bytes : List UInt8} (h : p.read n = (.ok bytes, p')) :
    bytes = p.bytes.take (p.share n) ∧ p'.bytes = p.bytes.drop (p.share n) ∧
      p.failAfter ≠ some 0 := by
  unfold read at h
  split at h
  · simp at h
  · next hf =>
    simp only [Prod.mk.injEq, Except.ok.injEq] at h
    obtain ⟨rfl, rfl⟩ := h
    exact ⟨rfl, rfl, hf⟩

theorem share_pos {p : Pieces} {n : Nat} (hn : 0 < n) (hf : p.failAfter ≠ some 0) :
    0 < p.share n := by
  unfold share
  cases hs : p.size <;> cases hl : p.failAfter with
  | none => simp; omega
  | some left =>
    have : left ≠ 0 := fun h0 => hf (by rw [hl, h0])
    simp
    omega

instance : ByteSource Pieces where
  read := read
  pending p := p.bytes
  pending_read p n bytes p' h := by
    obtain ⟨rfl, h', -⟩ := read_ok h
    rw [h', List.take_append_drop]
  pending_fail p n message p' h := by
    unfold read at h
    split at h
    · simp only [Prod.mk.injEq] at h
      rw [← h.2]
    · simp at h
  length_read p n bytes p' h := by
    obtain ⟨rfl, -, -⟩ := read_ok h
    simp only [List.length_take, share]
    omega
  pending_empty p n p' hn h := by
    obtain ⟨h', -, hf⟩ := read_ok h
    have := share_pos hn hf
    rcases List.take_eq_nil_iff.1 h'.symm with h0 | h0
    · omega
    · exact h0

end Pieces

end JsonEdit
