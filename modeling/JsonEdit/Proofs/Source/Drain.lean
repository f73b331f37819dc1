import JsonEdit.Proofs.Scanner.Run
import JsonEdit.Source.Pieces
import JsonEdit.Stream.Pipeline
import Mathlib.Data.List.Infix

/-!
# Everything a source gives

Block by block a source gives its bytes, up to its end or its failure. What comes together does
not depend on the sizes of the reads.

* `Counted.drain`: all bytes, how they end, and the source after them;
* `drain_prefix`: they are the next bytes of the inner source;
* `ByteSource.Reliable`: sources that never fail; **`drain_of_reliable`**: such a source gives
  everything up to its limit;
* `ByteSource.BreaksAfter`: sources that break off; **`drain_of_breaks`**: what such a source gives;
* `Counted.Balanced`: what is counted, given and still to come agree, and a limit that is seen to
  be exceeded is less than all there is.
-/

namespace JsonEdit

variable {τ : Type} [ByteSource τ]

namespace Counted

/-! ## All blocks -/

/-- All that a source gives in blocks, how it ends, and the source after that. -/
def drain (source : Counted τ) : List UInt8 × Ending × Counted τ :=
  match _h : source.read Pipeline.blockSize with
  | (.error reason, source) => ([], .broken reason, source)
  | (.ok [], source) => ([], .complete, source)
  | (.ok (b :: bytes), source') =>
    let rest := source'.drain
    (b :: bytes ++ rest.1, rest.2)
termination_by source.pending.length
decreasing_by exact Counted.pending_read_lt (by assumption)

theorem drain_of_error {source source' : Counted τ} {reason : String}
    (h : source.read Pipeline.blockSize = (.error reason, source')) :
    source.drain = ([], .broken reason, source') := by
  rw [drain]
  split
  · next h' => rw [h] at h'; cases h'; rfl
  · next h' => rw [h] at h'; cases h'
  · next h' => rw [h] at h'; cases h'

theorem drain_of_end {source source' : Counted τ}
    (h : source.read Pipeline.blockSize = (.ok [], source')) :
    source.drain = ([], .complete, source') := by
  rw [drain]
  split
  · next h' => rw [h] at h'; cases h'
  · next h' => rw [h] at h'; cases h'; rfl
  · next h' => rw [h] at h'; cases h'

theorem drain_of_block {source source' : Counted τ} {b : UInt8} {bytes : List UInt8}
    (h : source.read Pipeline.blockSize = (.ok (b :: bytes), source')) :
    source.drain = (b :: bytes ++ source'.drain.1, source'.drain.2) := by
  rw [drain]
  split
  · next h' => rw [h] at h'; cases h'
  · next h' => rw [h] at h'; cases h'
  · next h' => rw [h] at h'; cases h'; rfl

theorem drain_induction {holds : Counted τ → Prop}
    (failed : ∀ source reason source', source.read Pipeline.blockSize = (.error reason, source') →
      holds source)
    (ended : ∀ source source', source.read Pipeline.blockSize = (.ok [], source') → holds source)
    (block : ∀ source b bytes source',
      source.read Pipeline.blockSize = (.ok (b :: bytes), source') → holds source' → holds source)
    (source : Counted τ) : holds source := by
  induction hn : source.pending.length using Nat.strongRecOn generalizing source with
  | ind n ih =>
    rcases h : source.read Pipeline.blockSize with ⟨reason | _ | ⟨b, bytes⟩, source'⟩
    · exact failed source reason source' h
    · exact ended source source' h
    · exact block source b bytes source' h
        (ih source'.pending.length (hn ▸ pending_read_lt h) source' rfl)

/-! ## One read -/

/-- **What a read comes to**: nothing is asked for, the limit is looked beyond, or bytes are
given. -/
theorem read_cases {c c' : Counted τ} {n : Nat} {result : Except String (List UInt8)}
    (h : c.read n = (result, c')) :
    ((c.exceeded = true ∨ n = 0) ∧ result = .ok [] ∧ c' = c) ∨
    (c.exceeded = false ∧ ∃ limit, c.limit = some limit ∧ limit ≤ c.bytesRead ∧
      c.probe = (result, c')) ∨
    (c.exceeded = false ∧ ∃ m, 0 < m ∧ (∀ limit, c.limit = some limit → c.bytesRead + m ≤ limit) ∧
      c.take m = (result, c')) := by
  unfold read at h
  split at h
  · next hend =>
    cases h
    refine .inl ⟨?_, rfl, rfl⟩
    simpa using hend
  next hgo =>
  have hx : c.exceeded = false := by
    cases hc : c.exceeded with
    | false => rfl
    | true => exact absurd (by simp [hc]) hgo
  have hn : 0 < n := Nat.pos_of_ne_zero fun h0 => hgo (by simp [h0])
  split at h
  · next hl =>
    refine .inr (.inr ⟨hx, n, hn, ?_, h⟩)
    intro limit he
    rw [hl] at he
    cases he
  next limit hl =>
  split at h
  · next hle => exact .inr (.inl ⟨hx, limit, hl, hle, h⟩)
  · next hlt =>
    refine .inr (.inr ⟨hx, min n (limit - c.bytesRead), by omega, ?_, h⟩)
    intro limit' he
    rw [hl] at he
    cases he
    omega

theorem take_ok {c c' : Counted τ} {m : Nat} {bytes : List UInt8}
    (h : c.take m = (.ok bytes, c')) :
    bytes.length ≤ m ∧ ByteSource.read c.inner m = (.ok bytes, c'.inner) ∧
      c' = { c with inner := c'.inner, bytesRead := c.bytesRead + bytes.length } := by
  unfold take at h
  split at h
  · next given inner hr =>
    cases h
    exact ⟨ByteSource.length_read _ _ _ _ hr, hr, rfl⟩
  · cases h

theorem read_block {c c' : Counted τ} {n : Nat} {b : UInt8} {bytes : List UInt8}
    (h : c.read n = (.ok (b :: bytes), c')) :
    c.pending = b :: bytes ++ c'.pending ∧
      (∃ m, ByteSource.read c.inner m = (.ok (b :: bytes), c'.inner)) ∧
      (∀ limit, c.limit = some limit → c'.bytesRead ≤ limit) ∧
      c' = { c with inner := c'.inner, bytesRead := c.bytesRead + (bytes.length + 1) } := by
  rcases read_cases h with ⟨-, he, -⟩ | ⟨-, limit, -, -, hp⟩ | ⟨-, m, -, hl, ht⟩
  · cases he
  · unfold probe at hp
    split at hp <;> cases hp
  · obtain ⟨hlen, hr, hc⟩ := take_ok ht
    refine ⟨pending_take ht, ⟨m, hr⟩, fun limit he => ?_, hc⟩
    have hle := hl limit he
    have hcount : c'.bytesRead = c.bytesRead + (b :: bytes).length := by rw [hc]
    omega

theorem read_limit {c c' : Counted τ} {n : Nat} {result : Except String (List UInt8)}
    (h : c.read n = (result, c')) : c'.limit = c.limit := by
  rcases read_cases h with ⟨-, -, rfl⟩ | ⟨-, limit, -, -, hp⟩ | ⟨-, m, -, -, ht⟩
  · rfl
  · unfold probe at hp
    split at hp <;> cases hp <;> rfl
  · unfold take at ht
    split at ht <;> cases ht <;> rfl

/-! ## What is drained -/

theorem drain_prefix (source : Counted τ) : source.drain.1 <+: source.pending := by
  induction source using drain_induction with
  | failed source reason source' h => rw [drain_of_error h]; exact List.nil_prefix
  | ended source source' h => rw [drain_of_end h]; exact List.nil_prefix
  | block source b bytes source' h ih =>
    rw [drain_of_block h, (read_block h).1]
    exact (List.prefix_append_right_inj _).mpr ih

theorem drain_bytesRead (source : Counted τ) :
    source.drain.2.2.bytesRead = source.bytesRead + source.drain.1.length := by
  have hstay : ∀ {source source' : Counted τ} {result : Except String (List UInt8)},
      source.read Pipeline.blockSize = (result, source') →
      (∀ b bytes, result ≠ .ok (b :: bytes)) → source'.bytesRead = source.bytesRead := by
    intro source source' result h hne
    rcases read_cases h with ⟨-, -, rfl⟩ | ⟨-, limit, -, -, hp⟩ | ⟨-, m, -, -, ht⟩
    · rfl
    · unfold probe at hp
      split at hp <;> cases hp <;> rfl
    · unfold take at ht
      split at ht
      · cases ht
        next bytes inner hr =>
        cases bytes with
        | nil => rfl
        | cons b bytes => exact absurd rfl (hne b bytes)
      · cases ht
        rfl
  induction source using drain_induction with
  | failed source reason source' h => rw [drain_of_error h]; exact hstay h (by simp)
  | ended source source' h => rw [drain_of_end h]; exact hstay h (by simp)
  | block source b bytes source' h ih =>
    obtain ⟨-, -, -, hc⟩ := read_block h
    have hb : source'.bytesRead = source.bytesRead + (bytes.length + 1) := by rw [hc]
    rw [drain_of_block h]
    simp only [ih, hb, List.length_append, List.length_cons]
    omega

end Counted

/-! ## Sources that never fail -/

/-- No read fails, now or later. -/
def ByteSource.Reliable (source : τ) : Prop :=
  ∃ holds : τ → Prop, holds source ∧ ∀ s n, holds s →
    ∃ bytes s', ByteSource.read s n = (.ok bytes, s') ∧ holds s'

theorem Pieces.reliable (bytes : List UInt8) (size : Option Nat) :
    ByteSource.Reliable (⟨bytes, size, none⟩ : Pieces) := by
  refine ⟨fun p => p.failAfter = none, rfl, fun p n hp => ?_⟩
  have hread : p.read n = (.ok (p.bytes.take (p.share n)),
      { p with
        bytes := p.bytes.drop (p.share n)
        failAfter := p.failAfter.map fun left => left - (p.bytes.take (p.share n)).length }) :=
    if_neg (by simp [hp])
  exact ⟨_, _, hread, by simp [hp]⟩

theorem Pieces.reliable_whole (bytes : List UInt8) : ByteSource.Reliable (whole bytes) :=
  reliable bytes none

theorem ByteSource.Reliable.read {source source' : τ} {n : Nat}
    {result : Except String (List UInt8)} (h : ByteSource.Reliable source)
    (hr : ByteSource.read source n = (result, source')) :
    (∃ bytes, result = .ok bytes) ∧ ByteSource.Reliable source' := by
  obtain ⟨holds, hs, hstep⟩ := h
  obtain ⟨bytes, s', hb, hs'⟩ := hstep source n hs
  rw [hb] at hr
  cases hr
  exact ⟨⟨bytes, rfl⟩, holds, hs', hstep⟩

namespace Counted

/-- The bytes that a source may still give. -/
def visible (source : Counted τ) : List UInt8 :=
  match source.limit with
  | none => source.pending
  | some limit => source.pending.take (limit - source.bytesRead)

theorem read_of_reliable {source source' : Counted τ} {n : Nat} {reason : String}
    (hr : ByteSource.Reliable source.inner) : source.read n ≠ (.error reason, source') := by
  intro h
  rcases read_cases h with ⟨-, hf, -⟩ | ⟨-, limit, -, -, hp⟩ | ⟨-, m, -, -, ht⟩
  · cases hf
  · unfold probe at hp
    split at hp
    · cases hp
    · next hread => exact absurd (hr.read hread).1 (by simp)
  · unfold take at ht
    split at ht
    · cases ht
    · next hread => exact absurd (hr.read hread).1 (by simp)

theorem visible_of_end {source source' : Counted τ}
    (h : source.read Pipeline.blockSize = (.ok [], source')) (he : source.exceeded = false) :
    source.visible = [] := by
  rcases read_cases h with ⟨hx | hn, -, -⟩ | ⟨-, limit, hl, hle, -⟩ | ⟨-, m, hm, -, ht⟩
  · rw [he] at hx
    cases hx
  · cases hn
  · rw [visible, hl]
    simp only [Nat.sub_eq_zero_of_le hle, List.take_zero]
  · have hp : source.pending = [] := ByteSource.pending_empty _ _ _ hm (take_ok ht).2.1
    unfold visible
    split <;> simp [hp]

theorem visible_of_block {source source' : Counted τ} {b : UInt8} {bytes : List UInt8}
    (h : source.read Pipeline.blockSize = (.ok (b :: bytes), source')) :
    source.visible = b :: bytes ++ source'.visible := by
  obtain ⟨hp, -, hlim, hc⟩ := read_block h
  have hlimit : source'.limit = source.limit := by rw [hc]
  have hcount : source'.bytesRead = source.bytesRead + (b :: bytes).length := by rw [hc]; rfl
  unfold visible
  rw [hlimit]
  cases hl : source.limit with
  | none => exact hp
  | some limit =>
    have hle := hlim limit hl
    have hleft : limit - source.bytesRead - (b :: bytes).length = limit - source'.bytesRead := by
      omega
    have hall : (b :: bytes).take (limit - source.bytesRead) = b :: bytes :=
      List.take_of_length_le (by omega)
    simp only [hp]
    rw [List.take_append, hall, hleft]

/-- **A source that never fails gives everything up to its limit**, and then it ends. -/
theorem drain_of_reliable (source : Counted τ) (hr : ByteSource.Reliable source.inner)
    (he : source.exceeded = false) :
    source.drain.1 = source.visible ∧ source.drain.2.1 = .complete := by
  induction source using drain_induction with
  | failed source reason source' h => exact absurd h (read_of_reliable hr)
  | ended source source' h =>
    rw [drain_of_end h]
    exact ⟨(visible_of_end h he).symm, rfl⟩
  | block source b bytes source' h ih =>
    obtain ⟨-, ⟨m, hread⟩, -, hc⟩ := read_block h
    have hrest := ih (hr.read hread).2 (by rw [hc]; exact he)
    rw [drain_of_block h, visible_of_block h, hrest.1]
    exact ⟨rfl, hrest.2⟩

/-- The bytes within a limit. -/
def within (limit : Option Nat) (bytes : List UInt8) : List UInt8 :=
  match limit with
  | none => bytes
  | some limit => bytes.take limit

theorem within_mono (limit : Option Nat) {bytes more : List UInt8} (h : bytes <+: more) :
    within limit bytes <+: within limit more := by
  cases limit with
  | none => exact h
  | some limit => exact h.take limit

theorem drain_new {source : τ} (hr : ByteSource.Reliable source) (limit : Option Nat) :
    (new source limit).drain.1 = within limit (ByteSource.pending source) ∧
      (new source limit).drain.2.1 = .complete := by
  have h := drain_of_reliable (new source limit) hr rfl
  cases limit with
  | none => exact h
  | some limit => exact h

end Counted

/-! ## Sources that break off -/

/-- So many bytes are given, however they are asked for, and then every read fails. -/
def ByteSource.BreaksAfter (source : τ) (n : Nat) : Prop :=
  ∃ holds : τ → Nat → Prop, holds source n ∧
    (∀ s left k, holds s (left + 1) → ∃ bytes s', ByteSource.read s k = (.ok bytes, s') ∧
      bytes.length ≤ left + 1 ∧ holds s' (left + 1 - bytes.length)) ∧
    ∀ s k, holds s 0 → ∃ message s', ByteSource.read s k = (.error message, s') ∧ holds s' 0

theorem Pieces.breaksAfter {bytes : List UInt8} {n : Nat} (h : n ≤ bytes.length)
    (size : Option Nat) : ByteSource.BreaksAfter (⟨bytes, size, some n⟩ : Pieces) n := by
  refine ⟨fun p left => p.failAfter = some left ∧ left ≤ p.bytes.length, ⟨rfl, h⟩, ?_, ?_⟩
  · rintro p left k ⟨hf, hle⟩
    have hshare : p.share k ≤ left + 1 := by
      simp only [share, hf, Option.getD_some]
      omega
    have hlen : (p.bytes.take (p.share k)).length = p.share k := by
      rw [List.length_take]
      omega
    refine ⟨_, _, if_neg (by simp [hf]), by rw [hlen]; exact hshare, ?_, ?_⟩
    · simp only [hf, Option.map_some, hlen]
    · simp only [hlen, List.length_drop]
      omega
  · rintro p k ⟨hf, hle⟩
    exact ⟨_, p, if_pos hf, hf, hle⟩

namespace Counted

theorem read_unlimited {c : Counted τ} (he : c.exceeded = false) (hl : c.limit = none) :
    c.read Pipeline.blockSize = c.take Pipeline.blockSize := by
  rw [read, he, hl]
  rfl

/-- **A source that breaks off gives its first bytes**, and then it fails. -/
theorem drain_of_breaks (source : Counted τ) : ∀ {n : Nat}, ByteSource.BreaksAfter source.inner n →
    source.exceeded = false → source.limit = none → n ≤ source.pending.length →
    source.drain.1 = source.pending.take n ∧ ∃ reason, source.drain.2.1 = .broken reason := by
  induction source using drain_induction with
  | failed source reason source' h =>
    rintro (_ | n) ⟨holds, hs, hgive, -⟩ he hl -
    · rw [drain_of_error h]
      exact ⟨rfl, reason, rfl⟩
    · obtain ⟨bytes, s', hread, -⟩ := hgive _ n Pipeline.blockSize hs
      rw [read_unlimited he hl, take, hread] at h
      cases h
  | ended source source' h =>
    rintro (_ | n) ⟨holds, hs, -, hfail⟩ he hl hn
    · obtain ⟨message, s', hread, -⟩ := hfail _ Pipeline.blockSize hs
      rw [read_unlimited he hl, take, hread] at h
      cases h
    · have hend := visible_of_end h he
      simp only [visible, hl] at hend
      rw [hend] at hn
      cases hn
  | block source b bytes source' h ih =>
    obtain ⟨hp, -, -, hc⟩ := read_block h
    rintro (_ | n) ⟨holds, hs, hgive, hfail⟩ he hl hn
    · obtain ⟨message, s', hread, -⟩ := hfail _ Pipeline.blockSize hs
      rw [read_unlimited he hl, take, hread] at h
      cases h
    · obtain ⟨given, s', hread, hlen, hs'⟩ := hgive _ n Pipeline.blockSize hs
      obtain ⟨-, hread', -⟩ := take_ok ((read_unlimited he hl).symm.trans h)
      rw [hread] at hread'
      cases hread'
      rw [hp, List.length_append] at hn
      have hrest := ih ⟨holds, hs', hgive, hfail⟩ (by rw [hc]; exact he) (by rw [hc]; exact hl)
        (by omega)
      rw [drain_of_block h, hrest.1, hp, List.take_append, List.take_of_length_le hlen]
      exact ⟨rfl, hrest.2⟩

/-! ## Counting -/

/-- What is counted and what is still to come make up a total; a limit that is seen to be exceeded
is less than that. -/
structure Balanced (total : Nat) (source : Counted τ) : Prop where
  counted : source.exceeded = false → source.bytesRead + source.pending.length = total
  exceeded : source.exceeded = true → ∃ limit, source.limit = some limit ∧ limit < total

theorem balanced_new (inner : τ) (limit : Option Nat) :
    Balanced (ByteSource.pending inner).length (new inner limit) :=
  ⟨fun _ => Nat.zero_add _, fun h => by cases h⟩

section Balanced

variable {total : Nat} {c c' : Counted τ} {result : Except String (List UInt8)}

theorem Balanced.probe {limit : Nat} (hb : Balanced total c) (hx : c.exceeded = false)
    (hl : c.limit = some limit) (hle : limit ≤ c.bytesRead) (h : c.probe = (result, c')) :
    Balanced total c' := by
  have hcount := hb.counted hx
  unfold Counted.probe at h
  split at h
  · next bytes inner hread =>
    cases h
    have hpend : c.pending = bytes ++ ByteSource.pending inner :=
      ByteSource.pending_read _ _ _ _ hread
    rw [hpend, List.length_append] at hcount
    cases bytes with
    | nil => exact ⟨fun _ => by simpa [pending] using hcount, fun h => by cases h⟩
    | cons b bytes =>
      refine ⟨fun h => (by cases h), fun _ => ⟨limit, hl, ?_⟩⟩
      simp only [List.length_cons] at hcount
      omega
  · next hread =>
    cases h
    have hpend := ByteSource.pending_fail _ _ _ _ hread
    exact ⟨fun _ => by rw [← hcount]; simp [pending, hpend], fun h => by rw [hx] at h; cases h⟩

theorem Balanced.take {m : Nat} (hb : Balanced total c) (hx : c.exceeded = false)
    (h : c.take m = (result, c')) : Balanced total c' := by
  have hcount := hb.counted hx
  unfold Counted.take at h
  split at h
  · next bytes inner hread =>
    cases h
    have hpend : c.pending = bytes ++ ByteSource.pending inner :=
      ByteSource.pending_read _ _ _ _ hread
    rw [hpend, List.length_append] at hcount
    refine ⟨fun _ => ?_, fun h => by rw [hx] at h; cases h⟩
    simp only [pending]
    omega
  · next hread =>
    cases h
    have hpend := ByteSource.pending_fail _ _ _ _ hread
    exact ⟨fun _ => by rw [← hcount]; simp [pending, hpend], fun h => by rw [hx] at h; cases h⟩

theorem Balanced.read {n : Nat} (hb : Balanced total c) (h : c.read n = (result, c')) :
    Balanced total c' := by
  rcases read_cases h with ⟨-, -, rfl⟩ | ⟨hx, limit, hl, hle, hp⟩ | ⟨hx, m, -, -, ht⟩
  · exact hb
  · exact hb.probe hx hl hle hp
  · exact hb.take hx ht

end Balanced

end Counted

end JsonEdit
