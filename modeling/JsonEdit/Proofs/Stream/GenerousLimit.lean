import JsonEdit.Proofs.Stream.Pipeline
import JsonEdit.Sink.Bounded
import JsonEdit.Source.Ahead

/-!
# A limit that is not reached

A limit shortens reads, and at the limit one more byte is asked for in place of a block. Where the
input has no more bytes than the limit lets through, none of this can be seen: read by read the
limited source does what the unlimited one does.

* `ByteSource.Steady`: where no more is left than is asked for, it does not matter how much is asked
  for; `Pieces.steady`, `Ahead.steady`: bytes in pieces, and any source that is read ahead;
* `Counted.Roomy`: a source that cannot get beyond a limit; **`Counted.read_limited`**: one read
  with the limit and without;
* `Pipeline.readFrom_limited`, `editStream_limited`: everything that is read, and a whole run;
* **`unreached_limit_invisible`**: a limit that is not exceeded.
-/

namespace JsonEdit

/-! ## Sources that do not mind how much is asked for -/

section Steady

variable {τ : Type} [ByteSource τ]

/-- Now and later, where no more is left than is asked for, it does not matter how much is asked
for, up to a block. -/
def ByteSource.Steady (source : τ) : Prop :=
  ∃ holds : τ → Prop, holds source ∧ (∀ s n, holds s → holds (ByteSource.read s n).2) ∧
    ∀ s n m, holds s → (ByteSource.pending s).length ≤ n → n ≤ m → m ≤ Pipeline.blockSize →
      ByteSource.read s n = ByteSource.read s m

theorem ByteSource.Steady.next {source : τ} (h : ByteSource.Steady source) (n : Nat) :
    ByteSource.Steady (ByteSource.read source n).2 := by
  obtain ⟨holds, hs, hstep, hsame⟩ := h
  exact ⟨holds, hstep source n hs, hstep, hsame⟩

theorem ByteSource.Steady.read_eq {source : τ} (h : ByteSource.Steady source) {n m : Nat}
    (hn : (ByteSource.pending source).length ≤ n) (hnm : n ≤ m) (hm : m ≤ Pipeline.blockSize) :
    ByteSource.read source n = ByteSource.read source m := by
  obtain ⟨holds, hs, -, hsame⟩ := h
  exact hsame source n m hs hn hnm hm

end Steady

/-- Pieces are cut by their size and by the failure to come, and not by what is asked for. -/
theorem Pieces.steady (source : Pieces) : ByteSource.Steady source := by
  refine ⟨fun _ => True, trivial, fun _ _ _ => trivial, fun p n m _ hn hnm _ => ?_⟩
  have hlen : p.bytes.length ≤ n := hn
  have hshare : p.share n = p.share m ∨
      p.bytes.length ≤ p.share n ∧ p.bytes.length ≤ p.share m := by
    unfold share
    cases p.size <;> cases p.failAfter <;> simp only [Option.map_none, Option.map_some,
      Option.getD_none, Option.getD_some] <;> omega
  show p.read n = p.read m
  rcases hshare with hs | ⟨hs, hs'⟩
  · rw [read, read, hs]
  · simp only [read, List.take_of_length_le hs, List.take_of_length_le hs',
      List.drop_of_length_le hs, List.drop_of_length_le hs']

/-- **A source that is read ahead** is asked for as much as the buffer holds, whatever is asked of
the buffer. -/
theorem Ahead.steady {τ : Type} [ByteSource τ] (source : Ahead τ) : ByteSource.Steady source := by
  refine ⟨fun _ => True, trivial, fun _ _ _ => trivial, fun a n m _ hn hnm hm => ?_⟩
  have hlen : a.held.length + (ByteSource.pending a.inner).length ≤ n := by
    rw [← List.length_append]
    exact hn
  have hblock : Pipeline.blockSize ≤ capacity := by decide
  have hmax : max n capacity = capacity ∧ max m capacity = capacity := by omega
  -- all that there is fits into what is asked for
  have hall : ∀ bytes : List UInt8, bytes.length ≤ n →
      bytes.take n = bytes.take m ∧ bytes.drop n = bytes.drop m := fun bytes hb => by
    have hb' : bytes.length ≤ m := Nat.le_trans hb hnm
    rw [List.take_of_length_le hb, List.take_of_length_le hb', List.drop_of_length_le hb,
      List.drop_of_length_le hb']
    exact ⟨rfl, rfl⟩
  show a.read n = a.read m
  unfold read
  rw [hmax.1, hmax.2]
  split
  · rcases hr : ByteSource.read a.inner capacity with ⟨message | bytes, inner⟩
    · rfl
    · have hgiven := congrArg List.length (ByteSource.pending_read _ _ _ _ hr)
      rw [List.length_append] at hgiven
      obtain ⟨ht, hd⟩ := hall bytes (by omega)
      simp only [ht, hd]
  · obtain ⟨ht, hd⟩ := hall a.held (by omega)
    rw [ht, hd]

/-! ## With a limit and without -/

namespace Counted

variable {τ : Type} [ByteSource τ] {c : Counted τ} {limit : Nat}

/-- The same source with a limit. -/
def limited (limit : Nat) (c : Counted τ) : Counted τ := { c with limit := some limit }

/-- No more is left than a limit lets through. -/
structure Roomy (limit : Nat) (c : Counted τ) : Prop where
  steady : ByteSource.Steady c.inner
  unlimited : c.limit = none
  fresh : c.exceeded = false
  room : c.bytesRead + c.pending.length ≤ limit

theorem Roomy.take (h : c.Roomy limit) (n : Nat) : (c.take n).2.Roomy limit := by
  have hnext := h.steady.next n
  obtain ⟨-, hlimit, hfresh, hroom⟩ := h
  unfold Counted.take
  rcases hr : ByteSource.read c.inner n with ⟨message | bytes, inner⟩
  · rw [hr] at hnext
    refine ⟨hnext, hlimit, hfresh, ?_⟩
    rwa [pending, ByteSource.pending_fail _ _ _ _ hr]
  · rw [hr] at hnext
    refine ⟨hnext, hlimit, hfresh, ?_⟩
    rw [pending, ByteSource.pending_read _ _ _ _ hr, List.length_append] at hroom
    show c.bytesRead + bytes.length + (ByteSource.pending inner).length ≤ limit
    omega

/-- At the limit nothing is left, and looking for one more byte is like reading. -/
theorem Roomy.probe_eq (h : c.Roomy limit) (hend : limit ≤ c.bytesRead) :
    (c.limited limit).probe =
      ((c.take Pipeline.blockSize).1, (c.take Pipeline.blockSize).2.limited limit) := by
  have hroom := h.room
  have hnone : c.pending = [] := List.eq_nil_of_length_eq_zero (by omega)
  have hsame : ByteSource.read c.inner 1 = ByteSource.read c.inner Pipeline.blockSize :=
    h.steady.read_eq (by rw [show ByteSource.pending c.inner = [] from hnone]; exact Nat.zero_le 1)
      (by decide) (Nat.le_refl _)
  unfold probe Counted.take
  simp only [limited, hsame]
  rcases hr : ByteSource.read c.inner Pipeline.blockSize with ⟨message | bytes, inner⟩
  · rfl
  · have hpending := ByteSource.pending_read _ _ _ _ hr
    rw [show ByteSource.pending c.inner = [] from hnone] at hpending
    obtain ⟨rfl, -⟩ := List.append_eq_nil_iff.mp hpending.symm
    simp only [List.isEmpty_nil, Bool.not_true, List.length_nil, Nat.add_zero, h.fresh]

/-- **One read with the limit and without.** -/
theorem read_limited (h : c.Roomy limit) :
    (c.limited limit).read Pipeline.blockSize =
        ((c.read Pipeline.blockSize).1, (c.read Pipeline.blockSize).2.limited limit) ∧
      (c.read Pipeline.blockSize).2.Roomy limit := by
  have hunlimited : c.read Pipeline.blockSize = c.take Pipeline.blockSize :=
    read_unlimited h.fresh h.unlimited
  have hroom : c.bytesRead + (ByteSource.pending c.inner).length ≤ limit := h.room
  rw [hunlimited]
  refine ⟨?_, h.take _⟩
  have hread : (c.limited limit).read Pipeline.blockSize =
      if limit ≤ c.bytesRead then (c.limited limit).probe
      else (c.limited limit).take (min Pipeline.blockSize (limit - c.bytesRead)) := by
    simp only [read, limited, h.fresh]
    rfl
  rw [hread]
  split_ifs with hend
  · exact h.probe_eq hend
  · have hsame : ByteSource.read c.inner (min Pipeline.blockSize (limit - c.bytesRead)) =
        ByteSource.read c.inner Pipeline.blockSize := by
      rcases Nat.le_total Pipeline.blockSize (limit - c.bytesRead) with hle | hle
      · rw [Nat.min_eq_left hle]
      · rw [Nat.min_eq_right hle]
        exact h.steady.read_eq (by omega) hle (Nat.le_refl _)
    simp only [Counted.take, limited, hsame]
    rcases ByteSource.read c.inner Pipeline.blockSize with ⟨message | bytes, inner⟩ <;> rfl

end Counted

/-! ## A whole run -/

theorem endFailed_limited {τ ω : Type} [ByteSink ω] {c : Counted τ} (h : c.exceeded = false)
    (limit : Nat) (w : Writer (Buffered ω)) (e : EditError) :
    endFailed (c.limited limit) w e = endFailed c w e := by
  simp only [endFailed, Counted.limited, h]

section Run

variable {τ σ : Type} [ByteSource τ] [FragmentSink σ] {rules : RuleSet}

/-- **Everything that is read** is the same, and the limit is never seen to be exceeded. -/
theorem Pipeline.readFrom_limited (rules : RuleSet) (limit : Nat) (c : Counted τ) :
    ∀ p : Pipeline σ, c.Roomy limit →
      p.readFrom rules (c.limited limit) =
          ((p.readFrom rules c).1, (p.readFrom rules c).2.limited limit) ∧
        (p.readFrom rules c).2.exceeded = false := by
  induction c using Counted.drain_induction with
  | failed c reason c' hr =>
    intro p h
    obtain ⟨hsame, hnext⟩ := Counted.read_limited h
    rw [hr] at hsame hnext
    rw [readFrom_of_error hr, readFrom_of_error hsame]
    exact ⟨rfl, hnext.fresh⟩
  | ended c c' hr =>
    intro p h
    obtain ⟨hsame, hnext⟩ := Counted.read_limited h
    rw [hr] at hsame hnext
    rw [readFrom_of_end hr, readFrom_of_end hsame]
    exact ⟨rfl, hnext.fresh⟩
  | block c b bytes c' hr ih =>
    intro p h
    obtain ⟨hsame, hnext⟩ := Counted.read_limited h
    rw [hr] at hsame hnext
    rw [readFrom_of_block hr, readFrom_of_block hsame]
    split_ifs
    · exact ⟨rfl, hnext.fresh⟩
    · exact ih _ hnext

theorem editStream_limited {ω : Type} [ByteSink ω] (rules : RuleSet) (options : StreamOptions)
    {source : τ} (hs : ByteSource.Steady source) {limit : Nat}
    (hle : (ByteSource.pending source).length ≤ limit) (sink : ω) :
    editStream rules { options with maxInputBytes := some limit } source sink =
      editStream rules { options with maxInputBytes := none } source sink := by
  have hroomy : (Counted.new source none).Roomy limit :=
    ⟨hs, rfl, rfl, by rw [Counted.new, Counted.pending, Nat.zero_add]; exact hle⟩
  unfold editStream
  cases Editor.withLimit options.maxDepth with
  | error e => rfl
  | ok editor =>
    obtain ⟨hsame, hfresh⟩ := Pipeline.readFrom_limited rules limit (Counted.new source none)
      (Pipeline.new editor (Writer.mk (Buffered.new sink) options.flushEach)) hroomy
    have hstart : Counted.new source (some limit) = (Counted.new source none).limited limit := rfl
    simp only [hstart, hsame]
    split
    · rw [endFailed_limited hfresh]
    · rfl

/-- **A limit that is not exceeded is invisible.** Let an input have no more bytes than the limit.
With the limit a run has the same result, hands the same bytes to the sink and flushes it at the
same points, and calls the same handlers as without. This holds of bytes that come in pieces and
may break off, and of any source at all that is read through a buffer. -/
theorem unreached_limit_invisible {ω : Type} [ByteSink ω] (rules : RuleSet)
    (options : StreamOptions) (sink : ω) (limit : Nat) :
    (∀ source : Pieces, source.bytes.length ≤ limit →
      editStream rules { options with maxInputBytes := some limit } source sink =
        editStream rules { options with maxInputBytes := none } source sink) ∧
    ∀ (υ : Type) [ByteSource υ] (source : υ), (ByteSource.pending source).length ≤ limit →
      editStream rules { options with maxInputBytes := some limit } (Ahead.new source) sink =
        editStream rules { options with maxInputBytes := none } (Ahead.new source) sink :=
  ⟨fun source hle => editStream_limited rules options source.steady hle sink,
    fun _ _ source hle => editStream_limited rules options (Ahead.new source).steady hle sink⟩

/-- An array with as many bytes as the limit, in pieces and with a reader that fails after it; and no
input at all with a limit of no bytes, read through a buffer. -/
theorem unreached_limit_invisible_exact :
    let source : Pieces := ⟨utf8 "[1,2]", some 2, some 5⟩
    let nothing : Pieces := .whole []
    let options := StreamOptions.standard
    (source.bytes.length ≤ 5 ∧
      editStream [] { options with maxInputBytes := some 5 } source Bounded.unlimited =
        editStream [] { options with maxInputBytes := none } source Bounded.unlimited) ∧
    ((ByteSource.pending nothing).length ≤ 0 ∧
      editStream [] { options with maxInputBytes := some 0 } (Ahead.new nothing)
          Bounded.unlimited =
        editStream [] { options with maxInputBytes := none } (Ahead.new nothing)
          Bounded.unlimited) := by
  intro source nothing options
  have hfive : source.bytes.length ≤ 5 := by decide
  have hzero : (ByteSource.pending nothing).length ≤ 0 := Nat.le_refl 0
  exact ⟨⟨hfive, (unreached_limit_invisible [] options Bounded.unlimited 5).1 source hfive⟩,
    hzero, (unreached_limit_invisible [] options Bounded.unlimited 0).2 Pieces nothing hzero⟩

end Run

end JsonEdit
