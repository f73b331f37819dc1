import JsonEdit.Proofs.Source.Drain

/-!
# Reads of any sizes

A source that counts may be read with buffers of any sizes, empty ones among them, from an inner
source that gives as little at a time as it likes and fails now and then. No byte is lost or given
twice, and no more bytes are given than the limit lets through.

* `Counted.ReadEffect`, **`read_effect`**: all that a read can come to;
* `Counted.reads`, `givenBy`: reads in turn, and the bytes that they give;
* `Counted.Follows`: a source right behind what it has given; **`Follows.read`**, `Follows.reads`:
  after one read, and after any reads;
* `reads_of_exceeded`, `read_failed`, `Follows.ended`: reads that give nothing;
* **`reads_bounded_prefix`**: what can be seen of all this.
-/

namespace JsonEdit

variable {τ : Type} [ByteSource τ]

/-- The bytes that a read gives. A read that fails gives none. -/
def bytesOf : Except String (List UInt8) → List UInt8
  | .ok bytes => bytes
  | .error _ => []

/-- The bytes that reads give together. -/
def givenBy (results : List (Except String (List UInt8))) : List UInt8 := results.flatMap bytesOf

namespace Counted

/-! ## One read -/

/-- **What a read comes to.** -/
inductive ReadEffect (c : Counted τ) (n : Nat) :
    Except String (List UInt8) → Counted τ → Prop
  /-- Nothing is asked for, or the source has closed. -/
  | nothing : c.exceeded = true ∨ n = 0 → ReadEffect c n (.ok []) c
  | failed {message : String} {inner : τ} :
    c.exceeded = false → ByteSource.pending inner = c.pending →
      ReadEffect c n (.error message) { c with inner }
  /-- There are no more bytes, whether the limit is reached or not. -/
  | atEnd {inner : τ} :
    c.exceeded = false → c.pending = [] → ByteSource.pending inner = [] →
      ReadEffect c n (.ok []) { c with inner }
  /-- A byte is seen behind the limit. -/
  | beyond {inner : τ} {b : UInt8} {most : Nat} :
    c.exceeded = false → c.limit = some most → most ≤ c.bytesRead →
      c.pending = b :: ByteSource.pending inner →
      ReadEffect c n (.ok []) { c with inner, exceeded := true }
  | block {inner : τ} {b : UInt8} {bytes : List UInt8} :
    c.exceeded = false →
      (∀ most, c.limit = some most → c.bytesRead + (bytes.length + 1) ≤ most) →
      c.pending = b :: bytes ++ ByteSource.pending inner →
      ReadEffect c n (.ok (b :: bytes))
        { c with inner, bytesRead := c.bytesRead + (bytes.length + 1) }

section ReadEffect

variable {c c' : Counted τ} {n : Nat} {result : Except String (List UInt8)}

theorem probe_effect (hx : c.exceeded = false) {most : Nat} (hl : c.limit = some most)
    (hle : most ≤ c.bytesRead) (h : c.probe = (result, c')) : ReadEffect c n result c' := by
  unfold probe at h
  rcases hr : ByteSource.read c.inner 1 with ⟨message | _ | ⟨b, bytes⟩, inner⟩ <;> rw [hr] at h <;>
    cases h
  · exact .failed hx (ByteSource.pending_fail _ _ _ _ hr)
  · have hnone : c.pending = [] := ByteSource.pending_empty _ _ _ Nat.one_pos hr
    have hpend := ByteSource.pending_read _ _ _ _ hr
    have he : ReadEffect c n (.ok []) { c with inner } := .atEnd hx hnone (hpend.symm.trans hnone)
    rw [hx] at he
    exact he
  · -- only one byte was asked for
    have hlen : bytes.length + 1 ≤ 1 := ByteSource.length_read _ _ _ _ hr
    obtain rfl : bytes = [] := List.eq_nil_of_length_eq_zero (by omega)
    exact .beyond hx hl hle (ByteSource.pending_read _ _ _ _ hr)

theorem take_effect (hx : c.exceeded = false) {m : Nat} (hm : 0 < m)
    (hle : ∀ most, c.limit = some most → c.bytesRead + m ≤ most) (h : c.take m = (result, c')) :
    ReadEffect c n result c' := by
  unfold Counted.take at h
  rcases hr : ByteSource.read c.inner m with ⟨message | _ | ⟨b, bytes⟩, inner⟩ <;> rw [hr] at h <;>
    cases h
  · exact .failed hx (ByteSource.pending_fail _ _ _ _ hr)
  · have hnone : c.pending = [] := ByteSource.pending_empty _ _ _ hm hr
    have hpend := ByteSource.pending_read _ _ _ _ hr
    exact .atEnd hx hnone (hpend.symm.trans hnone)
  · have hlen : bytes.length + 1 ≤ m := ByteSource.length_read _ _ _ _ hr
    refine .block hx (fun most hl => ?_) (ByteSource.pending_read _ _ _ _ hr)
    have := hle most hl
    omega

theorem read_effect (h : c.read n = (result, c')) : ReadEffect c n result c' := by
  rcases read_cases h with ⟨hend, rfl, rfl⟩ | ⟨hx, most, hl, hle, hp⟩ | ⟨hx, m, hm, hle, ht⟩
  · exact .nothing hend
  · exact probe_effect hx hl hle hp
  · exact take_effect hx hm hle ht

end ReadEffect

/-! ## What has been given -/

/-- Reads of these sizes in turn: what each comes to, and the source after them. -/
def reads (c : Counted τ) : List Nat → List (Except String (List UInt8)) × Counted τ
  | [] => ([], c)
  | n :: sizes =>
    let first := c.read n
    let rest := first.2.reads sizes
    (first.1 :: rest.1, rest.2)

/-- These bytes of all there are have been given, and the source stands right behind them. Once it
has closed, one byte behind the limit is gone. -/
structure Follows (all : List UInt8) (limit : Option Nat) (given : List UInt8) (c : Counted τ) :
    Prop where
  keeps : c.limit = limit
  counted : c.bytesRead = given.length
  within : ∀ most, limit = some most → given.length ≤ most
  rest : c.exceeded = false → all = given ++ c.pending
  beyond : c.exceeded = true → ∃ most, limit = some most ∧ most ≤ given.length ∧
    ∃ b more, all = given ++ b :: more

theorem follows_new (source : τ) (limit : Option Nat) :
    Follows (ByteSource.pending source) limit [] (new source limit) :=
  ⟨rfl, rfl, fun _ _ => Nat.zero_le _, fun _ => rfl, fun h => by cases h⟩

section Follows

variable {all given : List UInt8} {limit : Option Nat} {c c' : Counted τ} {n : Nat}
  {result : Except String (List UInt8)}

/-- **What a read gives comes right after what was given before.** -/
theorem Follows.read (h : Follows all limit given c) (hr : c.read n = (result, c')) :
    Follows all limit (given ++ bytesOf result) c' := by
  obtain ⟨hlimit, hcount, hwithin, hrest, hbeyond⟩ := h
  cases read_effect hr with
  | nothing =>
    rw [bytesOf, List.append_nil]
    exact ⟨hlimit, hcount, hwithin, hrest, hbeyond⟩
  | failed hx hpend =>
    rw [bytesOf, List.append_nil]
    refine ⟨hlimit, hcount, hwithin, fun _ => ?_, hbeyond⟩
    rw [hrest hx, ← hpend]
    rfl
  | atEnd hx hnone hpend =>
    rw [bytesOf, List.append_nil]
    refine ⟨hlimit, hcount, hwithin, fun _ => ?_, hbeyond⟩
    rw [hrest hx, hnone, pending, hpend]
  | beyond hx hl hle hpend =>
    rw [bytesOf, List.append_nil]
    refine ⟨hlimit, hcount, hwithin, fun hx' => (by cases hx'), fun _ => ?_⟩
    exact ⟨_, hlimit ▸ hl, hcount ▸ hle, _, _, (hrest hx).trans (by rw [hpend])⟩
  | @block inner b bytes hx hle hpend =>
    have hlen : (given ++ b :: bytes).length = c.bytesRead + (bytes.length + 1) := by
      rw [List.length_append, List.length_cons, hcount]
    refine ⟨hlimit, hlen.symm, fun most hl => ?_, fun _ => ?_, fun hx' => ?_⟩
    · exact hlen ▸ hle most (hlimit.trans hl)
    · rw [hrest hx, hpend, bytesOf, List.append_assoc, pending]
    · rw [hx] at hx'
      cases hx'

theorem Follows.reads (sizes : List Nat) : ∀ {given : List UInt8} {c : Counted τ},
    Follows all limit given c →
      Follows all limit (given ++ givenBy (c.reads sizes).1) (c.reads sizes).2 := by
  induction sizes with
  | nil =>
    intro given c h
    rwa [Counted.reads, givenBy, List.flatMap_nil, List.append_nil]
  | cons n sizes ih =>
    intro given c h
    have hnext := ih (h.read (n := n) rfl)
    rwa [List.append_assoc] at hnext

theorem Follows.first (h : Follows all limit given c) : given <+: all := by
  cases hx : c.exceeded with
  | false => exact ⟨_, (h.rest hx).symm⟩
  | true =>
    obtain ⟨-, -, -, b, more, hall⟩ := h.beyond hx
    exact ⟨_, hall.symm⟩

/-! ## Reads that give nothing -/

theorem reads_of_exceeded (hx : c.exceeded = true) (sizes : List Nat) :
    c.reads sizes = (sizes.map fun _ => .ok [], c) := by
  induction sizes with
  | nil => rfl
  | cons n sizes ih =>
    have hread : c.read n = (.ok [], c) := if_pos (by simp [hx])
    rw [reads, hread]
    simp only [ih, List.map_cons]

theorem read_failed {message : String} (hr : c.read n = (.error message, c')) :
    c' = { c with inner := c'.inner } := by
  cases read_effect hr with
  | failed => rfl

/-- **A read that asks for bytes and gets none** has come to the end, or the source has closed. -/
theorem Follows.ended (h : Follows all limit given c) (hn : 0 < n)
    (hr : c.read n = (.ok [], c')) : given = all ∨ c'.exceeded = true := by
  cases read_effect hr with
  | nothing hend => exact .inr (hend.resolve_right hn.ne')
  | atEnd hx hnone => exact .inl (by rw [h.rest hx, hnone, List.append_nil])
  | beyond => exact .inr rfl

end Follows

/-! ## All together -/

/-- What can be seen of a source that has given these of all bytes: what it has counted, and what
the next reads can come to. -/
structure BoundedPrefix (all : List UInt8) (limit : Option Nat) (given : List UInt8)
    (c : Counted τ) : Prop where
  first : given <+: all
  counted : c.bytesRead = given.length
  within : ∀ most, limit = some most → c.bytesRead ≤ most
  /-- A failure is not counted, and it closes nothing. -/
  failed : ∀ n message c', c.read n = (.error message, c') →
    c'.bytesRead = c.bytesRead ∧ c'.exceeded = c.exceeded
  /-- The source closes only at its limit, and only if there are more bytes. -/
  beyond : c.exceeded = true → ∃ most, limit = some most ∧ most < all.length ∧ most ≤ given.length
  /-- A source that has closed gives nothing any more. -/
  closed : c.exceeded = true → ∀ sizes, c.reads sizes = (sizes.map fun _ => .ok [], c)
  /-- Nothing is given only at the end, or where the source closes. -/
  ended : ∀ n c', 0 < n → c.read n = (.ok [], c') → given = all ∨ c'.exceeded = true

/-- **A source that counts is a bounded prefix of its inner source**, whatever it is asked for. -/
theorem reads_bounded_prefix (source : τ) (limit : Option Nat) (sizes : List Nat) :
    BoundedPrefix (ByteSource.pending source) limit (givenBy ((new source limit).reads sizes).1)
      ((new source limit).reads sizes).2 := by
  let done := (new source limit).reads sizes
  have h : Follows _ limit (givenBy done.1) done.2 := (follows_new source limit).reads sizes
  refine ⟨h.first, h.counted, fun most hl => h.counted ▸ h.within most hl,
    fun n message c' hr => ?_, fun hx => ?_, reads_of_exceeded, fun n c' hn => h.ended hn⟩
  · rw [read_failed hr]
    exact ⟨rfl, rfl⟩
  · obtain ⟨most, hl, hle, b, more, hall⟩ := h.beyond hx
    have hwithin := h.within most hl
    refine ⟨most, hl, ?_, hle⟩
    rw [hall, List.length_append, List.length_cons]
    omega

/-- The limit falls inside of a block, and the source is seen to go on behind it. -/
example : let done := (new (Pieces.mk (utf8 "hello!") (some 2) none) (some 5)).reads [4, 0, 4, 4, 4]
    givenBy done.1 = utf8 "hello" ∧ done.2.exceeded = true := by decide +kernel

end Counted

end JsonEdit
