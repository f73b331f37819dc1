import JsonEdit.Proofs.Stream.Writing
import JsonEdit.Proofs.Text.Utf8

/-!
# When a stream is passed on

A buffer before a sink keeps bytes back, and a fragment may be spread over several writes. A flush
empties the buffer all the same: where each fragment is flushed, the sink is asked to pass on what
it has after every one of them, and once more in the end; otherwise it is asked in the end only.

* `Noter`: sinks that note after how many bytes they are flushed;
* `Buffered.flushes_write`, **`Intact.flush_noted`**: the operations of a buffer;
* `runningTotals`: the bytes up to the end of each fragment;
* `Delivers`, **`delivers_alike`**: a writer beside the fragments that it has taken;
* `streamFragments`: the fragments of a stream;
* **`fragments_delivered`**: when a stream is passed on.
-/

namespace JsonEdit

open Keeper

/-! ## Sinks that note when they are flushed -/

/-- **A sink that notes after how many bytes it is flushed.** -/
class Noter (ω : Type) extends Keeper ω where
  /-- How many bytes had been taken at each flush. -/
  flushes : ω → List Nat
  flushes_write : ∀ w bytes, flushes (write w bytes).2 = flushes w
  flushes_flush : ∀ w, flushes (flush w).2 = flushes w ++ [(taken w).length]

open Noter

instance : Noter Bounded where
  flushes w := w.flushes.toList
  flushes_write w bytes := by
    simp only [ByteSink.write, Bounded.write]
    split <;> rfl
  flushes_flush w := by simp [ByteSink.flush, Bounded.flush, taken]

theorem writeAll_keeps {ω α : Type} [ByteSink ω] (view : ω → α)
    (h : ∀ w bytes, view (ByteSink.write w bytes).2 = view w) (w : ω) (bytes : List UInt8) :
    view (writeAll w bytes).2 = view w := by
  fun_induction writeAll w bytes with
  | case1 w => rfl
  | case2 w b rest message w' hw | case3 w b rest w' hw =>
    have hv := h w (b :: rest)
    rwa [hw] at hv
  | case4 w b rest n w' hw ih =>
    have hv := h w (b :: rest)
    rw [hw] at hv
    exact ih.trans hv

theorem Keeper.Full.limit_ne_none {ω : Type} [Keeper ω] {w : ω} (h : Full w) : limit w ≠ none := by
  rw [show limit w = _ from h]
  exact Option.some_ne_none _

/-! ## A buffer before such a sink -/

namespace Buffered

variable {ω : Type} [Noter ω] {w : Buffered ω} {bytes : List UInt8}

theorem flushes_drain (w : Buffered ω) : flushes w.drain.2.inner = flushes w.inner := by
  have h := writeAll_keeps flushes Noter.flushes_write w.inner w.buffer.toList
  rw [drain]
  split <;> next he => rwa [he] at h

theorem flushes_accept (w : Buffered ω) (bytes : List UInt8) :
    flushes (w.accept bytes).2.inner = flushes w.inner := by
  have h := writeAll_keeps flushes Noter.flushes_write w.inner bytes
  rw [accept]
  split
  · rfl
  · split <;> next he => rwa [he] at h

/-- A write asks for nothing to be passed on, even if it empties the buffer. -/
theorem flushes_write (w : Buffered ω) (bytes : List UInt8) :
    flushes (w.write bytes).2.inner = flushes w.inner := by
  have h := flushes_drain w
  rw [write]
  split
  · rfl
  split
  · split <;> next he =>
      rw [he] at h
      first | exact (flushes_accept _ _).trans h | exact h
  · exact flushes_accept w bytes

theorem flushes_writeAll (w : Buffered ω) (bytes : List UInt8) :
    flushes (writeAll w bytes).2.inner = flushes w.inner := by
  refine writeAll_keeps (fun w : Buffered ω => flushes w.inner) (fun w bytes => ?_) w bytes
  have h := flushes_write w bytes
  simp only [ByteSink.write]
  split <;> next he => rwa [he] at h

/-- **A flush asks for everything to be passed on**, and all that went in has been. -/
theorem Intact.flush_noted (h : w.Intact none bytes) :
    ∃ w', w.flush = (.ok (), w') ∧ w'.Intact none bytes ∧ w'.buffer = #[] ∧
      flushes w'.inner = flushes w.inner ++ [bytes.length] := by
  rcases h.flush with ⟨w', he, hw', hb⟩ | ⟨message, w', -, hw', hfull⟩
  swap
  · exact absurd hw'.limit hfull.limit_ne_none
  refine ⟨w', he, hw', hb, ?_⟩
  rcases h.drain with ⟨w₁, hd, hw₁, hb₁⟩ | ⟨message, w₁, -, hw₁, hfull⟩
  swap
  · exact absurd hw₁.limit hfull.limit_ne_none
  have hempty : taken w₁.inner = bytes := by simpa [hb₁] using hw₁.content
  have hsame := flushes_drain w
  rw [flush_of_drain hd] at he
  obtain ⟨-, rfl⟩ := Prod.mk.inj he
  rw [hd] at hsame
  rw [flushes_flush, hempty, hsame]

theorem close_of_empty (h : w.buffer = #[]) : w.close = w.inner := by
  rw [close, drain, h, JsonEdit.writeAll]

theorem Intact.emit_noted {w : Writer (Buffered ω)} (h : w.out.Intact none bytes)
    (fragment : String) :
    ∃ w', w.emit fragment = (.ok (), w') ∧ w'.flushEach = w.flushEach ∧
      w'.out.Intact none (bytes ++ utf8 fragment) ∧
      flushes w'.out.inner = flushes w.out.inner ++
        if w.flushEach then [(bytes ++ utf8 fragment).length] else [] := by
  have hsame := flushes_writeAll w.out (utf8 fragment)
  rcases h.writeAll (utf8 fragment) with ⟨out, he, hout⟩ | ⟨e, out, -, hout⟩
  · rw [he] at hsame
    rw [Writer.emit, he]
    simp only
    split_ifs with hf
    · obtain ⟨out', he', hout', -, hnoted⟩ := hout.flush_noted
      rw [Writer.flush, show ByteSink.flush out = out.flush from rfl, he']
      exact ⟨_, rfl, rfl, hout', by rw [hnoted, hsame]⟩
    · exact ⟨_, rfl, rfl, hout, by rw [hsame, List.append_nil]⟩
  · exact absurd hout.limit hout.full.limit_ne_none

end Buffered

/-! ## Fragments -/

/-- How many bytes there are at the end of each fragment, when there were so many before. -/
def runningTotals (before : Nat) : List String → List Nat
  | [] => []
  | fragment :: rest =>
    let total := before + (utf8 fragment).length
    total :: runningTotals total rest

theorem runningTotals_concat (fragments : List String) (fragment : String) : ∀ before : Nat,
    runningTotals before (fragments ++ [fragment]) =
      runningTotals before fragments ++
        [before + (utf8 (String.join fragments ++ fragment)).length] := by
  induction fragments with
  | nil => exact fun _ => by simp [runningTotals]
  | cons first rest ih =>
    intro before
    simp [runningTotals, ih, String.join_cons, utf8_append, Nat.add_assoc]

/-- When a sink that had taken some bytes is flushed for these fragments. -/
def flushPoints (flushEach : Bool) (before : Nat) (fragments : List String) : List Nat :=
  if flushEach then runningTotals before fragments else []

section Delivers

variable {τ ω : Type} [Noter ω] {flushEach : Bool} {sink : ω}

/-- A writer to a sink has taken these fragments. -/
structure Delivers (flushEach : Bool) (sink : ω) (w : Writer (Buffered ω))
    (fragments : Array String) : Prop where
  setting : w.flushEach = flushEach
  content : w.out.Intact none (taken sink ++ utf8 (String.join fragments.toList))
  flushed : flushes w.out.inner =
    flushes sink ++ flushPoints flushEach (taken sink).length fragments.toList

theorem delivers_new (hl : limit sink = none) :
    Delivers flushEach sink (Writer.mk (Buffered.new sink) flushEach) #[] := by
  refine ⟨rfl, ?_, ?_⟩
  · have h := Buffered.intact_new sink
    rwa [hl, ← List.append_nil (taken sink)] at h
  · cases flushEach <;> exact (List.append_nil _).symm

/-- **Each fragment goes to the sink**, and the sink is flushed behind it if that is asked for. -/
theorem delivers_alike (flushEach : Bool) (sink : ω) :
    FragmentSink.Alike (Delivers flushEach sink) := by
  intro w fragments fragment h
  obtain ⟨w', he, hsetting, hw', hflushed⟩ := h.content.emit_noted fragment
  rw [show FragmentSink.emit w fragment = w.emit fragment from rfl, he]
  have hjoin : taken sink ++ utf8 (String.join fragments.toList) ++ utf8 fragment =
      taken sink ++ utf8 (String.join (fragments.push fragment).toList) := by
    rw [Array.toList_push, String.join_append, utf8_append, List.append_assoc]
    simp
  refine ⟨rfl, hsetting.trans h.setting, hjoin ▸ hw', ?_⟩
  rw [hflushed, h.flushed, h.setting, List.append_assoc]
  cases flushEach with
  | false => rfl
  | true => simp [flushPoints, runningTotals_concat, utf8_append]

theorem Delivers.endRun {r : Reply (Writer (Buffered ω))} {fragments : Array String}
    (h : Delivers flushEach sink r.sink fragments) (source : Counted τ) :
    let run := endRun source r
    taken run.sink = taken sink ++ utf8 (String.join fragments.toList) ∧
      flushes run.sink =
        flushes sink ++ flushPoints flushEach (taken sink).length fragments.toList ++
          [(taken run.sink).length] := by
  intro run
  obtain ⟨out, he, hout, hempty, hflushed⟩ := h.content.flush_noted
  have hend : run.sink = out.inner := by
    have hwriter : r.sink.flush = (.ok (), { r.sink with out }) := by
      rw [Writer.flush, show ByteSink.flush r.sink.out = r.sink.out.flush from rfl, he]
    simp only [run, JsonEdit.endRun]
    split
    · rw [endFailed, hwriter]
      exact Buffered.close_of_empty hempty
    · rw [endComplete, hwriter]
      exact Buffered.close_of_empty hempty
  have hall : taken out.inner = taken sink ++ utf8 (String.join fragments.toList) := by
    simpa [hempty] using hout.content
  rw [hend, hall, hflushed, h.flushed]
  exact ⟨rfl, rfl⟩

end Delivers

/-! ## Streams -/

section Streams

variable {τ ω : Type} [ByteSource τ] [Noter ω]

/-- The fragments of a stream, up to the first error. -/
def streamFragments (rules : RuleSet) (options : StreamOptions) (source : τ) : List String :=
  let start := Pipeline.new (.new options.maxDepth) (#[] : Array String)
  (start.readFrom rules (Counted.new source options.maxInputBytes)).1.sink.toList

theorem streamFragments_eq (rules : RuleSet) (options : StreamOptions) (source : τ) :
    streamFragments rules options source =
      ((Editor.new options.maxDepth).run rules (#[] : Array String) #[]
        (streamEvents source options.maxInputBytes)).sink.toList := by
  rw [← reply_readFrom]
  rfl

theorem editStream_delivers (rules : RuleSet) (options : StreamOptions) (source : τ) (sink : ω)
    (hd : DepthLimit.validate options.maxDepth = .ok ()) (hl : limit sink = none) :
    let run := editStream rules options source sink
    let fragments := streamFragments rules options source
    taken run.sink = taken sink ++ utf8 (String.join fragments) ∧
      flushes run.sink = flushes sink ++
        flushPoints options.flushEach (taken sink).length fragments ++
          [(taken run.sink).length] := by
  intro run fragments
  have hlimit : Editor.withLimit options.maxDepth = .ok (.new options.maxDepth) := by
    rw [Editor.withLimit, hd]
    rfl
  obtain ⟨source', -, -, -, hrun⟩ := editStream_eq rules options source sink hlimit
  have halike := Editor.run_alike rules (delivers_alike options.flushEach sink)
    (streamEvents source options.maxInputBytes) (.new options.maxDepth) #[] (delivers_new hl)
  have hend := halike.sink.endRun source'
  rw [← streamFragments_eq, ← hrun] at hend
  exact hend

/-- **Each fragment is passed on**, if that is asked for: the sink is flushed when it has taken the
bytes up to the end of each of them, and once more in the end, whether the run fails or not.
Otherwise it is flushed in the end only. The bytes are the same. -/
theorem fragments_delivered (rules : RuleSet) (options : StreamOptions) (source : τ) (sink : ω)
    (hd : DepthLimit.validate options.maxDepth = .ok ()) (hl : limit sink = none) :
    let fragments := streamFragments rules options source
    let each := (editStream rules { options with flushEach := true } source sink).sink
    let once := (editStream rules { options with flushEach := false } source sink).sink
    let all := taken sink ++ utf8 (String.join fragments)
    flushes each = flushes sink ++ runningTotals (taken sink).length fragments ++ [all.length] ∧
      flushes once = flushes sink ++ [all.length] ∧ taken each = all ∧ taken once = all := by
  intro fragments each once all
  -- the fragments do not depend on when they are flushed
  have hsame : ∀ flushEach, streamFragments rules { options with flushEach } source = fragments :=
    fun _ => rfl
  obtain ⟨htaken, hflushes⟩ :=
    editStream_delivers rules { options with flushEach := true } source sink hd hl
  obtain ⟨htaken', hflushes'⟩ :=
    editStream_delivers rules { options with flushEach := false } source sink hd hl
  rw [hsame] at htaken hflushes htaken' hflushes'
  rw [htaken] at hflushes
  rw [htaken'] at hflushes'
  refine ⟨hflushes, ?_, htaken, htaken'⟩
  exact hflushes'.trans (congrArg (· ++ [all.length]) (List.append_nil _))

end Streams

/-- A text that breaks off, read in pieces. -/
theorem fragments_delivered_cut_off :
    let options := StreamOptions.standard
    let source : Pieces := ⟨utf8 "[1,2", some 3, none⟩
    let each := (editStream [] { options with flushEach := true } source Bounded.unlimited).sink
    let once := (editStream [] { options with flushEach := false } source Bounded.unlimited).sink
    DepthLimit.validate options.maxDepth = .ok () ∧ limit Bounded.unlimited = none ∧
      streamFragments [] options source = ["[", "1", ",2"] ∧
      flushes each = [1, 2, 4, 4] ∧ flushes once = [4] ∧ taken once = taken each := by
  intro options source each once
  have hd : DepthLimit.validate options.maxDepth = .ok () := rfl
  have hl : limit Bounded.unlimited = none := rfl
  have hfragments : streamFragments [] options source = ["[", "1", ",2"] := by decide +kernel
  obtain ⟨heach, honce, htaken, htaken'⟩ :=
    fragments_delivered [] options source Bounded.unlimited hd hl
  rw [hfragments] at heach honce
  refine ⟨hd, hl, hfragments, heach.trans ?_, honce.trans ?_, htaken'.trans htaken.symm⟩
  · decide +kernel
  · decide +kernel

end JsonEdit
