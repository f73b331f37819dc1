import JsonEdit.Proofs.Source.Drain
import JsonEdit.Sink.Bounded
import JsonEdit.Sink.Buffered
import JsonEdit.Sink.Writer

/-!
# Sinks that keep what they take

A sink may take little at a time, and it may have room for so many bytes only, after which it takes
nothing. A buffer before it loses nothing until then: what has gone in is in the sink or waits in
the buffer, and once the sink is full it holds the first of these bytes.

* `Keeper`: such sinks; `Keeper.Full`: nothing more is taken;
* `writeAll_cases`: all bytes are taken, or the sink is full with the first of them;
* `Buffered.Intact`, `Buffered.Stuck`: nothing is lost yet, or the sink is full;
  `Intact.drain`, `Intact.write`, `Intact.flush`: the operations of a buffer;
* **`Intact.close_taken`**, **`Stuck.close_taken`**: what the sink holds in the end;
* `Intact.emit`: one fragment.
-/

namespace JsonEdit

/-! ## The sinks -/

/-- How many bytes a write took. -/
def countTaken : Except String Nat → Nat
  | .ok n => n
  | .error _ => 0

/-- **A sink that keeps what it takes**, up to a limit if it has one. It may take any number of the
first bytes it is offered; only at the limit it takes none, or fails to flush. -/
class Keeper (ω : Type) extends ByteSink ω where
  /-- The bytes taken so far. -/
  taken : ω → List UInt8
  /-- How many bytes it takes in all. -/
  limit : ω → Option Nat
  length_taken_le : ∀ w n, limit w = some n → (taken w).length ≤ n
  taken_write : ∀ w bytes,
    taken (write w bytes).2 = taken w ++ bytes.take (countTaken (write w bytes).1)
  limit_write : ∀ w bytes, limit (write w bytes).2 = limit w
  limit_of_none_taken : ∀ w b bytes, countTaken (write w (b :: bytes)).1 = 0 →
    limit w = some (taken w).length
  taken_flush : ∀ w, taken (flush w).2 = taken w
  limit_flush : ∀ w, limit (flush w).2 = limit w
  limit_of_flush_error : ∀ w message, (flush w).1 = .error message →
    limit w = some (taken w).length

instance : Keeper Bounded where
  taken w := w.taken.toList
  limit w := w.room.map (w.taken.size + ·)
  length_taken_le w n h := by
    obtain ⟨room, -, rfl⟩ := Option.map_eq_some_iff.mp h
    exact Nat.le_add_right _ _
  taken_write w bytes := by
    simp only [ByteSink.write, Bounded.write]
    split <;> simp [countTaken]
  limit_write w bytes := by
    simp only [ByteSink.write, Bounded.write]
    split
    · next h => simp [h]
    · next h => simp [h]
    · next room _ h =>
      have hsize : (w.taken ++ bytes.take room).size = w.taken.size + min room bytes.length := by
        rw [← Array.length_toList]
        simp
      simp only [h, Option.map_some, hsize, List.length_take]
      congr 1
      omega
  limit_of_none_taken w b bytes h := by
    simp only [ByteSink.write, Bounded.write] at h
    split at h
    · cases h
    · next hroom => simp [hroom]
    · next room hzero hroom =>
      have hpos : room ≠ 0 := hzero
      simp [countTaken] at h
      exact absurd h hpos
  taken_flush w := rfl
  limit_flush w := by simp [ByteSink.flush, Bounded.flush]
  limit_of_flush_error w message h := by cases h

namespace Keeper

variable {ω : Type} [Keeper ω] {w : ω} {bytes : List UInt8}

/-- The limit is reached. -/
def Full (w : ω) : Prop := limit w = some (taken w).length

theorem taken_eq_within (h : taken w = bytes ∨ Full w ∧ taken w <+: bytes) :
    taken w = Counted.within (limit w) bytes := by
  rcases h with rfl | ⟨hf, hp⟩
  · cases hl : limit w with
    | none => rfl
    | some n => exact (List.take_of_length_le (length_taken_le w n hl)).symm
  · rw [show limit w = _ from hf]
    exact List.prefix_iff_eq_take.mp hp

theorem writeAll_cases (w : ω) (bytes : List UInt8) :
    (∃ w', writeAll w bytes = (.ok (), w') ∧ taken w' = taken w ++ bytes ∧ limit w' = limit w) ∨
      ∃ message first left w', writeAll w bytes = (.error (message, left), w') ∧
        bytes = first ++ left ∧ taken w' = taken w ++ first ∧ limit w' = limit w ∧ Full w' := by
  -- a write that takes none of its bytes shows that the sink is full
  have hnone : ∀ {w w' : ω} {b : UInt8} {rest : List UInt8} {result : Except String Nat},
      ByteSink.write w (b :: rest) = (result, w') → countTaken result = 0 →
      taken w' = taken w ∧ limit w' = limit w ∧ Full w' := by
    intro w w' b rest result hw h0
    have ht := taken_write w (b :: rest)
    have hl := limit_write w (b :: rest)
    have hfull := limit_of_none_taken w b rest
    rw [hw] at ht hl hfull
    simp only [h0, List.take_zero, List.append_nil] at ht hfull
    exact ⟨ht, hl, by rw [Full, ht, hl, hfull trivial]⟩
  fun_induction writeAll w bytes with
  | case1 w => exact .inl ⟨w, rfl, (List.append_nil _).symm, rfl⟩
  | case2 w b rest message w' hw =>
    obtain ⟨ht, hl, hf⟩ := hnone hw rfl
    exact .inr ⟨message, [], b :: rest, w', rfl, rfl, by rw [ht, List.append_nil], hl, hf⟩
  | case3 w b rest w' hw =>
    obtain ⟨ht, hl, hf⟩ := hnone hw rfl
    exact .inr ⟨_, [], b :: rest, w', rfl, rfl, by rw [ht, List.append_nil], hl, hf⟩
  | case4 w b rest n w' hw ih =>
    have ht := taken_write w (b :: rest)
    have hl := limit_write w (b :: rest)
    rw [hw] at ht hl
    have hsplit : (b :: rest).take (n + 1) ++ rest.drop n = b :: rest :=
      List.take_append_drop (n + 1) (b :: rest)
    simp only [countTaken] at ht
    rcases ih with ⟨w'', he, ht', hl'⟩ | ⟨message, first, left, w'', he, hs, ht', hl', hf⟩
    · refine .inl ⟨w'', he, ?_, hl'.trans hl⟩
      rw [ht', ht, List.append_assoc, hsplit]
    · refine .inr ⟨message, (b :: rest).take (n + 1) ++ first, left, w'', he, ?_, ?_, hl'.trans hl,
        hf⟩
      · rw [List.append_assoc, ← hs, hsplit]
      · rw [ht', ht, List.append_assoc]

theorem Full.writeAll (h : Full w) (bytes : List UInt8) :
    taken (writeAll w bytes).2 = taken w ∧ limit (writeAll w bytes).2 = limit w := by
  have hsame : ∀ {w' : ω} {first : List UInt8}, taken w' = taken w ++ first → limit w' = limit w →
      taken w' = taken w := by
    intro w' first ht hl
    have hlen := length_taken_le w' _ (hl.trans h)
    rw [ht, List.length_append] at hlen
    have hfirst : first = [] := List.length_eq_zero_iff.mp (by omega)
    rw [ht, hfirst, List.append_nil]
  rcases writeAll_cases w bytes with ⟨w', he, ht, hl⟩ | ⟨_, first, _, w', he, -, ht, hl, -⟩
  · rw [he]
    exact ⟨hsame ht hl, hl⟩
  · rw [he]
    exact ⟨hsame ht hl, hl⟩

end Keeper

/-! ## A buffer before such a sink -/

namespace Buffered

open Keeper

variable {ω : Type} [Keeper ω] {lim : Option Nat} {w : Buffered ω} {bytes more : List UInt8}

/-- All bytes that went in are in the sink or wait in the buffer. -/
structure Intact (lim : Option Nat) (w : Buffered ω) (bytes : List UInt8) : Prop where
  limit : limit w.inner = lim
  content : taken w.inner ++ w.buffer.toList = bytes

/-- The sink is full with the first of the bytes that went in. -/
structure Stuck (lim : Option Nat) (w : Buffered ω) (bytes : List UInt8) : Prop where
  limit : limit w.inner = lim
  full : Full w.inner
  first : taken w.inner <+: bytes

theorem intact_new (sink : ω) : (new sink).Intact (Keeper.limit sink) (taken sink) :=
  ⟨rfl, by simp [new]⟩

theorem Intact.stuck (h : w.Intact lim bytes) (hf : Full w.inner) : w.Stuck lim bytes :=
  ⟨h.limit, hf, ⟨_, h.content⟩⟩

theorem Stuck.append (h : w.Stuck lim bytes) (more : List UInt8) : w.Stuck lim (bytes ++ more) :=
  ⟨h.limit, h.full, h.first.trans (List.prefix_append _ _)⟩

theorem Intact.drain (h : w.Intact lim bytes) :
    (∃ w', w.drain = (.ok (), w') ∧ w'.Intact lim bytes ∧ w'.buffer = #[]) ∨
      ∃ message w', w.drain = (.error message, w') ∧ w'.Intact lim bytes ∧ Full w'.inner := by
  rw [Buffered.drain]
  rcases writeAll_cases w.inner w.buffer.toList with
    ⟨inner, he, ht, hl⟩ | ⟨message, first, left, inner, he, hs, ht, hl, hf⟩
  · rw [he]
    refine .inl ⟨_, rfl, ⟨hl.trans h.limit, ?_⟩, rfl⟩
    rw [ht, h.content]
    simp
  · rw [he]
    refine .inr ⟨message, _, rfl, ⟨hl.trans h.limit, ?_⟩, hf⟩
    rw [ht, List.append_assoc, List.toList_toArray, ← hs, h.content]

/-- Bytes as long as the buffer may pass by it when it is empty. -/
theorem Intact.accept (h : w.Intact lim bytes) (hm : more.length < capacity ∨ w.buffer = #[]) :
    (∃ w', w.accept more = (.ok (), w') ∧ w'.Intact lim (bytes ++ more)) ∨
      ∃ message w', w.accept more = (.error message, w') ∧ w'.Stuck lim (bytes ++ more) := by
  unfold Buffered.accept
  split
  · refine .inl ⟨_, rfl, h.limit, ?_⟩
    rw [← h.content]
    simp
  next hlong =>
  have hb : taken w.inner = bytes := by
    have hc := h.content
    rw [hm.resolve_left hlong] at hc
    simpa using hc
  rcases writeAll_cases w.inner more with
    ⟨inner, he, ht, hl⟩ | ⟨message, first, left, inner, he, hs, ht, hl, hf⟩
  · rw [he]
    refine .inl ⟨_, rfl, hl.trans h.limit, ?_⟩
    rw [ht, hb, hm.resolve_left hlong]
    simp
  · rw [he]
    refine .inr ⟨message, _, rfl, hl.trans h.limit, hf, left, ?_⟩
    rw [ht, hb, hs, List.append_assoc]

/-- **What is written comes after what went in before**, or the sink is full. -/
theorem Intact.write (h : w.Intact lim bytes) (more : List UInt8) :
    (∃ w', w.write more = (.ok (), w') ∧ w'.Intact lim (bytes ++ more)) ∨
      ∃ message w', w.write more = (.error message, w') ∧ w'.Stuck lim (bytes ++ more) := by
  unfold Buffered.write
  split
  · refine .inl ⟨_, rfl, h.limit, ?_⟩
    rw [← h.content]
    simp
  split
  · rcases h.drain with ⟨w', he, hw', hb⟩ | ⟨message, w', he, hw', hf⟩
    · rw [he]
      exact hw'.accept (.inr hb)
    · rw [he]
      exact .inr ⟨message, w', rfl, (hw'.stuck hf).append more⟩
  · next hfit hfull =>
    refine h.accept ?_
    -- the bytes fill the buffer up, so that they are shorter than it or it is empty
    rcases Nat.eq_zero_or_pos w.buffer.size with h0 | hpos
    · exact .inr (Array.eq_empty_of_size_eq_zero h0)
    · exact .inl (by omega)

theorem Intact.writeAll (h : w.Intact lim bytes) (more : List UInt8) :
    (∃ w', writeAll w more = (.ok (), w') ∧ w'.Intact lim (bytes ++ more)) ∨
      ∃ e w', writeAll w more = (.error e, w') ∧ w'.Stuck lim (bytes ++ more) := by
  cases more with
  | nil =>
    rw [JsonEdit.writeAll, List.append_nil]
    exact .inl ⟨w, rfl, h⟩
  | cons b more =>
    rcases h.write (b :: more) with ⟨w', he, hw'⟩ | ⟨message, w', he, hw'⟩
    · have hstep : ByteSink.write w (b :: more) = (.ok (more.length + 1), w') := by
        simp only [ByteSink.write, he, List.length_cons]
      rw [JsonEdit.writeAll, hstep]
      simp only [List.drop_length]
      rw [JsonEdit.writeAll]
      exact .inl ⟨w', rfl, hw'⟩
    · have hstep : ByteSink.write w (b :: more) = (.error message, w') := by
        simp only [ByteSink.write, he]
      rw [JsonEdit.writeAll, hstep]
      exact .inr ⟨_, w', rfl, hw'⟩

theorem flush_of_drain {w' : Buffered ω} (h : w.drain = (.ok (), w')) :
    w.flush = ((ByteSink.flush w'.inner).1, ⟨(ByteSink.flush w'.inner).2, w'.buffer⟩) := by
  rw [Buffered.flush, h]

theorem flush_of_drain_error {w' : Buffered ω} {message : String}
    (h : w.drain = (.error message, w')) : w.flush = (.error message, w') := by
  rw [Buffered.flush, h]

theorem Intact.flush (h : w.Intact lim bytes) :
    (∃ w', w.flush = (.ok (), w') ∧ w'.Intact lim bytes ∧ w'.buffer = #[]) ∨
      ∃ message w', w.flush = (.error message, w') ∧ w'.Intact lim bytes ∧ Full w'.inner := by
  rcases h.drain with ⟨w', he, hw', hb⟩ | ⟨message, w', he, hw', hf⟩
  · rw [flush_of_drain he]
    have hkeep : Intact lim ⟨(ByteSink.flush w'.inner).2, w'.buffer⟩ bytes :=
      ⟨(limit_flush _).trans hw'.limit, by rw [taken_flush]; exact hw'.content⟩
    cases hflush : (ByteSink.flush w'.inner).1 with
    | ok _ => exact .inl ⟨_, rfl, hkeep, hb⟩
    | error message =>
      refine .inr ⟨message, _, rfl, hkeep, ?_⟩
      rw [Full, limit_flush, taken_flush]
      exact limit_of_flush_error w'.inner message hflush
  · exact .inr ⟨message, w', flush_of_drain_error he, hw', hf⟩

theorem Stuck.drain (h : w.Stuck lim bytes) : w.drain.2.Stuck lim bytes := by
  obtain ⟨ht, hl⟩ := h.full.writeAll w.buffer.toList
  have hstuck : ∀ buffer, Stuck lim ⟨(JsonEdit.writeAll w.inner w.buffer.toList).2, buffer⟩ bytes :=
    fun buffer => ⟨hl.trans h.limit, by rw [Full, ht, hl]; exact h.full, by rw [ht]; exact h.first⟩
  rw [Buffered.drain]
  rcases he : JsonEdit.writeAll w.inner w.buffer.toList with ⟨⟨message, left⟩ | _, inner⟩ <;>
    rw [he] at hstuck
  · exact hstuck _
  · exact hstuck _

theorem Stuck.flush (h : w.Stuck lim bytes) : w.flush.2.Stuck lim bytes := by
  have hd := h.drain
  rcases he : w.drain with ⟨message | _, w'⟩ <;> rw [he] at hd
  · rw [flush_of_drain_error he]
    exact hd
  · rw [flush_of_drain he]
    refine ⟨(limit_flush _).trans hd.limit, ?_, by rw [taken_flush]; exact hd.first⟩
    rw [Full, taken_flush, limit_flush]
    exact hd.full

/-- **In the end a full sink holds the bytes within its limit.** -/
theorem Stuck.close_taken (h : w.Stuck lim bytes) : taken w.close = Counted.within lim bytes := by
  have hd := h.drain
  rw [← hd.limit]
  exact taken_eq_within (.inr ⟨hd.full, hd.first⟩)

/-- **In the end the sink holds the bytes within its limit.** -/
theorem Intact.close_taken (h : w.Intact lim bytes) :
    taken w.close = Counted.within lim bytes := by
  rw [close]
  rcases h.drain with ⟨w', he, hw', hb⟩ | ⟨message, w', he, hw', hf⟩
  · have hall := hw'.content
    rw [hb] at hall
    rw [he, ← hw'.limit]
    exact taken_eq_within (.inl (by simpa using hall))
  · rw [he, ← hw'.limit]
    exact taken_eq_within (.inr ⟨hf, (hw'.stuck hf).first⟩)

theorem Intact.emit {w : Writer (Buffered ω)} (h : w.out.Intact lim bytes) (fragment : String) :
    (∃ w', w.emit fragment = (.ok (), w') ∧ w'.out.Intact lim (bytes ++ utf8 fragment)) ∨
      ∃ message w', w.emit fragment = (.error message, w') ∧
        w'.out.Stuck lim (bytes ++ utf8 fragment) := by
  unfold Writer.emit
  rcases h.writeAll (utf8 fragment) with ⟨out, he, hw⟩ | ⟨⟨message, left⟩, out, he, hw⟩
  · rw [he]
    simp only
    split
    · rw [Writer.flush, show ByteSink.flush out = out.flush from rfl]
      rcases hw.flush with ⟨out', hf, hw', -⟩ | ⟨message, out', hf, hw', hfull⟩
      · rw [hf]
        exact .inl ⟨_, rfl, hw'⟩
      · rw [hf]
        exact .inr ⟨message, _, rfl, hw'.stuck hfull⟩
    · exact .inl ⟨_, rfl, hw⟩
  · rw [he]
    exact .inr ⟨message, _, rfl, hw⟩

end Buffered

end JsonEdit
