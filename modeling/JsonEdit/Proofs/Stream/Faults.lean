import JsonEdit.Proofs.Stream.Writing

/-!
# Sinks and sources that fail

A failure on either side of a stream shortens the run and does nothing else to it. A sink that has
room for so many bytes gets the first of what a roomier one gets, and a source that breaks off
leads to the first part of what it would have led to. Neither passes for success.

* **`full_sink_keeps_first`**: a sink with room for so many bytes;
* `streamEvents_broken`: the events of a source that breaks off;
* **`broken_source_shortens`**: such a source.
-/

namespace JsonEdit

open Keeper

variable {τ ω ω' : Type} [ByteSource τ] [Keeper ω] [Keeper ω']

/-! ## A sink that fails -/

/-- **A sink with room for so many bytes** gets the first of those that a sink with room for
everything gets, and the run succeeds only if there are no more of them. -/
theorem full_sink_keeps_first (rules : RuleSet) (options : StreamOptions) (source : τ) (sink : ω)
    (roomy : ω') (n : Nat) (hs : taken sink = []) (hn : limit sink = some n)
    (hr : taken roomy = []) (hl : limit roomy = none) :
    let run := editStream rules options source sink
    let whole := editStream rules options source roomy
    taken run.sink = (taken whole.sink).take n ∧
      ∀ summary, run.result = .ok summary →
        whole.result = .ok summary ∧ (taken whole.sink).length ≤ n := by
  intro run whole
  rcases withLimit_cases options.maxDepth with ⟨fault, hd⟩ | hd
  · rw [show run = _ from editStream_refused hd, show whole = _ from editStream_refused hd]
    simp only [hs, hr]
    exact ⟨List.take_nil.symm, fun summary hok => by cases hok⟩
  have hrun := editStream_kept rules options source sink hd
  have hwhole := editStream_kept rules options source roomy hd
  have hall : taken whole.sink = _ := hwhole.written
  simp only [hr, hl, Counted.within, List.nil_append] at hall
  have hfirst : taken run.sink = _ := hrun.written
  simp only [hs, hn, Counted.within, List.nil_append] at hfirst
  rw [hall, hfirst]
  refine ⟨rfl, fun summary hok => ?_⟩
  obtain ⟨he, rfl, hfit⟩ := hrun.complete summary hok
  have hle := hfit n hn
  rw [hs, List.nil_append] at hle
  exact ⟨(hwhole.roomy (by simp [hl])).2.1 he, hle⟩

/-- An array of five bytes and a sink with room for three. -/
theorem full_sink_keeps_opening :
    let source := Pieces.whole (utf8 "[1,2]")
    let run := editStream [] .standard source (Bounded.new (some 3))
    limit (Bounded.new (some 3)) = some 3 ∧ limit Bounded.unlimited = none ∧
      taken run.sink = utf8 "[1," ∧ ∀ summary, run.result ≠ .ok summary := by
  intro source run
  have hn : limit (Bounded.new (some 3)) = some 3 := rfl
  have hl : limit Bounded.unlimited = none := rfl
  have hwhole : taken (editStream [] .standard source Bounded.unlimited).sink = utf8 "[1,2]" := by
    refine (editStream_unlimited [] .standard source rfl).2.1.trans ?_
    rw [show StreamOptions.standard.maxInputBytes = none from rfl,
      streamEvents_eq (Pieces.reliable_whole _)]
    decide +kernel
  obtain ⟨hfirst, hok⟩ := full_sink_keeps_first [] .standard source (Bounded.new (some 3))
    Bounded.unlimited 3 rfl hn rfl hl
  refine ⟨hn, hl, by rw [hfirst, hwhole]; decide, fun summary h => ?_⟩
  have hfit := (hok summary h).2
  rw [hwhole] at hfit
  exact absurd hfit (by decide)

/-! ## A source that fails -/

theorem streamEvents_broken {source : τ} {n : Nat} (hb : ByteSource.BreaksAfter source n)
    (hn : n ≤ (ByteSource.pending source).length) :
    ∃ reason, streamEvents source none = told ((Scanner.new none).remaining (.broken reason)
      ((ByteSource.pending source).take n)) := by
  obtain ⟨hbytes, reason, hend⟩ := Counted.drain_of_breaks (.new source none) hb rfl rfl hn
  refine ⟨reason, ?_⟩
  simp only [streamEvents, hbytes, hend]
  rfl

/-- **A source that breaks off** leads to an error, wherever it does so. What has been written is
the first part of what all of its bytes lead to, and so are the calls. -/
theorem broken_source_shortens {τ' : Type} [ByteSource τ'] (rules : RuleSet)
    (options : StreamOptions) (broken : τ) (whole : τ') (sink : ω) (n : Nat)
    (hl : options.maxInputBytes = none) (hb : ByteSource.BreaksAfter broken n)
    (hn : n ≤ (ByteSource.pending broken).length) (hw : ByteSource.Reliable whole)
    (hp : ByteSource.pending whole = ByteSource.pending broken) :
    let short := editStream rules options broken sink
    let long := editStream rules options whole sink
    (∃ e, short.result = .error e) ∧ taken short.sink <+: taken long.sink ∧
      short.calls.toList <+: long.calls.toList := by
  intro short long
  obtain ⟨reason, hshort⟩ := streamEvents_broken hb hn
  constructor
  · cases hr : short.result with
    | error e => exact ⟨e, rfl⟩
    | ok summary =>
      have hf := faultless_of_accepted hr
      rw [hl, hshort] at hf
      exact absurd hf (Scanner.not_faultless_broken reason _ .document)
  · refine editStream_shorter ?_ sink
    rw [hl, hshort, streamEvents_eq hw, hp]
    nth_rewrite 2 [← List.take_append_drop n (ByteSource.pending broken)]
    exact Scanner.broken_endsEarly _ reason _ _

/-- A source that breaks off where the document is over. -/
theorem broken_after_document :
    let broken : Pieces := ⟨utf8 "[1] ", some 1, some 4⟩
    let whole := Pieces.whole (utf8 "[1] ")
    ByteSource.BreaksAfter broken 4 ∧ ByteSource.Reliable whole ∧
      ∃ e, (editStream [] .standard broken Bounded.unlimited).result = .error e := by
  intro broken whole
  have hn : 4 ≤ (utf8 "[1] ").length := by decide
  have hb : ByteSource.BreaksAfter broken 4 := Pieces.breaksAfter hn (some 1)
  have hw : ByteSource.Reliable whole := Pieces.reliable_whole _
  exact ⟨hb, hw, (broken_source_shortens [] .standard broken whole Bounded.unlimited 4 rfl hb hn hw
    rfl).1⟩

end JsonEdit
